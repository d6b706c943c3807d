import AlienOS.Heap.Init

/-!
# Safety — what every run of the heap guarantees

The layout of the heap, the frame of every call, and the answer to every request, stated on headers,
pointers and bytes.
-/

open AlienOS.Lib

namespace AlienOS.Heap

/-! ## The layout on headers -/

/-- The pointers met on the way from `p` to the end of the free list. -/
def FreeChain (mem : Memory) : Word → List Word → Prop
  | p, [] => p = NULL
  | p, b :: l => p ≠ NULL ∧ p = b ∧ FreeChain mem (kmNext mem p) l

/-- `blocks` are the blocks of the heap in the order of their addresses and `free` is its free
list. -/
structure WellFormed (σ : Session) (blocks : List Interval) (free : List Word) : Prop where
  tiles : Tiles blocks σ.heap.kheapBegin.toNat σ.heap.kheapEnd.toNat
  end_le : σ.heap.kheapEnd.toNat ≤ σ.heap.kheapMaxEnd.toNat
  header : ∀ b ∈ blocks, ∃ p : Word, p.toNat = b.lo ∧ (kmGetsize σ.heap.mem p).toNat = b.len ∧
    kmCheckmagic σ.heap.mem p = true ∧ 0 < b.len ∧ 16 ∣ b.len
  served : ∀ a ∈ σ.live, 16 ∣ a.ptr.toNat ∧
    ∃ b ∈ blocks, a.ptr.toNat = b.lo + 16 ∧ a.requested + 16 ≤ b.len
  live_nodup : (σ.live.map Alloc.ptr).Nodup
  alloc_iff : ∀ b ∈ blocks, ∀ p : Word, p.toNat = b.lo →
    (kmIsalloc σ.heap.mem p = true ↔ ∃ a ∈ σ.live, a.ptr.toNat = b.lo + 16)
  chain : FreeChain σ.heap.mem σ.heap.freeList free
  increasing : free.Pairwise (· < ·)
  free_iff : ∀ p : Word, p ∈ free ↔
    kmIsalloc σ.heap.mem p = false ∧ ∃ b ∈ blocks, p.toNat = b.lo
  coalesced : ∀ p ∈ free, ∀ q ∈ free, p.toNat + (kmGetsize σ.heap.mem p).toNat ≠ q.toNat

theorem FreeSeg.freeChain {mem : Memory} {p : Word} {l : List Interval}
    (h : FreeSeg mem p l NULL) : FreeChain mem p (l.map fun i ↦ BitVec.ofNat 32 i.lo) := by
  induction l generalizing p with
  | nil => exact h
  | cons i l ih => exact ⟨h.1, (ofNat_toNat_eq h.2.1).symm, ih h.2.2.2⟩

section

variable {σ : Session} {fs us : List Interval}

theorem Inv.serves_of_live (h : Inv σ fs us) {a : Alloc} (ha : a ∈ σ.live) :
    ∃ u ∈ us, Serves u a := exists_serves h.serves ha

theorem Inv.live_of_used (h : Inv σ fs us) {u : Interval} (hu : u ∈ us) :
    ∃ a ∈ σ.live, Serves u a := exists_served h.serves hu

/-- Two live pointers are never equal, since their blocks are apart. -/
theorem Inv.live_nodup (h : Inv σ fs us) : (σ.live.map Alloc.ptr).Nodup := by
  have hap := h.rep.partition.usedApart
  have hb := h.rep.partition.usedBlock
  have hs := h.serves
  generalize σ.live = live at hs
  clear h
  induction hs with
  | nil => exact List.nodup_nil
  | @cons u a us live hua hs ih =>
    obtain ⟨h₁, h₂⟩ := List.pairwise_cons.mp hap
    refine List.nodup_cons.mpr ⟨?_, ih h₂ fun v hv ↦ hb v (List.mem_cons_of_mem _ hv)⟩
    intro hm
    obtain ⟨b, hbm, hbe⟩ := List.mem_map.mp hm
    obtain ⟨i, hi, rfl⟩ := List.mem_iff_getElem.mp hbm
    have hi' : i < us.length := by rw [hs.length_eq]; exact hi
    have hv : us[i].lo = u.lo := by
      have h₃ := ((List.forall₂_iff_get.mp hs).2 i hi' hi).1
      simp only [List.get_eq_getElem] at h₃
      have := hua.1
      rw [hbe] at h₃
      omega
    have h₄ := h₁ _ (List.getElem_mem hi')
    have h₅ := (hb u List.mem_cons_self).len_pos
    have h₆ := (hb _ (List.mem_cons_of_mem _ (List.getElem_mem hi'))).len_pos
    simp only [Interval.Apart, Interval.hi] at h₄
    omega

theorem Inv.wellFormed (h : Inv σ fs us) (hreq : ∀ a ∈ σ.live, a.requested < 2 ^ 32) :
    ∃ blocks free, WellFormed σ blocks free := by
  have hp := h.rep.partition
  have hall : (fs ++ us).Pairwise Interval.Apart := by
    refine List.pairwise_append.mpr ⟨hp.separated.imp fun h ↦ .inl (Nat.le_of_lt h), hp.usedApart,
      fun f hf u hu ↦ (hp.apart u hu f hf).symm⟩
  have hblk : ∀ b ∈ fs ++ us, IsBlock b := fun b hb ↦
    (List.mem_append.mp hb).elim (hp.freeBlock b) (hp.usedBlock b)
  obtain ⟨blocks, hperm, ht⟩ := exists_tiles hall (fun b hb ↦ (hblk b hb).len_pos) h.rep.bounds.le
    fun x ↦ by rw [hp.cover x, covers_append]
  have hmem : ∀ {b}, b ∈ blocks ↔ b ∈ fs ∨ b ∈ us := fun {b} ↦ by
    rw [← hperm.mem_iff, List.mem_append]
  have hfree : ∀ {b}, b ∈ fs → HeaderAt σ.heap.mem (BitVec.ofNat 32 b.lo) b.len false :=
    fun hb ↦ h.rep.chain.header_of_mem hb
  -- the alloc bit of a block tells the free blocks from the used ones
  have hbit : ∀ {b} {p : Word}, b ∈ blocks → p.toNat = b.lo →
      (kmIsalloc σ.heap.mem p = true ∧ b ∈ us ∨ kmIsalloc σ.heap.mem p = false ∧ b ∈ fs) := by
    intro b p hb hlo
    rw [← ofNat_toNat_eq hlo]
    rcases hmem.mp hb with hb | hb
    · exact .inr ⟨(hfree hb).alloc, hb⟩
    · exact .inl ⟨(h.rep.header b hb).alloc, hb⟩
  have hinj : ∀ {b c}, b ∈ blocks → c ∈ blocks → b.lo = c.lo → b = c := by
    intro b c hb hc hlo
    by_contra hne
    have : Std.Symm Interval.Apart := ⟨fun _ _ ↦ Interval.Apart.symm⟩
    rw [← hperm.mem_iff] at hb hc
    have h₁ := hall.forall hb hc hne
    have h₂ := (hblk b hb).len_pos
    have h₃ := (hblk c hc).len_pos
    simp only [Interval.Apart, Interval.hi] at h₁
    omega
  refine ⟨blocks, fs.map fun i ↦ BitVec.ofNat 32 i.lo, ht, h.end_le, fun b hb ↦ ?_, fun a ha ↦ ?_,
    h.live_nodup, fun b hb p hlo ↦ ?_, h.rep.chain.freeChain, ?_, fun p ↦ ?_, ?_⟩
  · have hb' := hblk b (hperm.mem_iff.mpr hb)
    have hh : ∃ used, HeaderAt σ.heap.mem (BitVec.ofNat 32 b.lo) b.len used := by
      rcases hmem.mp hb with hb | hb
      · exact ⟨_, hfree hb⟩
      · exact ⟨_, h.rep.header b hb⟩
    obtain ⟨used, hh⟩ := hh
    exact ⟨_, toNat_ofNat_lo hb', hh.size, hh.magic, hb'.len_pos, hb'.len_dvd⟩
  · obtain ⟨u, hu, hptr, hle⟩ := h.serves_of_live ha
    rw [Nat.mod_eq_of_lt (hreq a ha)] at hle
    have hlo := (hp.usedBlock u hu).lo_dvd
    exact ⟨by omega, u, hmem.mpr (.inr hu), hptr, hle⟩
  · rcases hbit hb hlo with ⟨hbit', hb'⟩ | ⟨hbit', hb'⟩
    · obtain ⟨a, ha, hs⟩ := h.live_of_used hb'
      exact iff_of_true hbit' ⟨a, ha, hs.1⟩
    · refine iff_of_false (by rw [hbit']; decide) ?_
      rintro ⟨a, ha, hptr⟩
      obtain ⟨u, hu, hs⟩ := h.serves_of_live ha
      have hbu : b = u := hinj hb (hmem.mpr (.inr hu)) (by have := hs.1; omega)
      subst hbu
      have h₁ := (hblk b (hperm.mem_iff.mpr hb)).len_pos
      exact hp.not_free_of_used hu (x := b.lo) (Interval.mem_iff.mpr (by omega))
        ⟨b, hb', Interval.mem_iff.mpr (by omega)⟩
  · rw [List.pairwise_map]
    refine hp.separated.imp_of_mem fun {i j} hi hj hlt ↦ ?_
    rw [BitVec.lt_def, toNat_ofNat_lo (hp.freeBlock i hi), toNat_ofNat_lo (hp.freeBlock j hj)]
    simp only [Interval.hi] at hlt
    omega
  · constructor
    · intro hm
      obtain ⟨i, hi, rfl⟩ := List.mem_map.mp hm
      exact ⟨(hfree hi).alloc, i, hmem.mpr (.inl hi), toNat_ofNat_lo (hp.freeBlock i hi)⟩
    · rintro ⟨hf, b, hb, hlo⟩
      rcases hbit hb hlo with ⟨hbit', -⟩ | ⟨-, hb'⟩
      · rw [hf] at hbit'
        cases hbit'
      · exact List.mem_map.mpr ⟨b, hb', ofNat_toNat_eq hlo⟩
  · intro p hpm q hqm hpq
    obtain ⟨i, hi, rfl⟩ := List.mem_map.mp hpm
    obtain ⟨j, hj, rfl⟩ := List.mem_map.mp hqm
    rw [(hfree hi).size, toNat_ofNat_lo (hp.freeBlock i hi),
      toNat_ofNat_lo (hp.freeBlock j hj)] at hpq
    obtain ⟨l, m, rfl⟩ := List.append_of_mem hi
    have hi' := (hp.freeBlock i hi).len_pos
    obtain ⟨-, s₂, s₃⟩ := hp.separated.append
    rcases List.mem_append.mp hj with hj' | hj'
    · have := s₃ j hj' i List.mem_cons_self
      simp only [Interval.hi] at this
      omega
    · rcases List.mem_cons.mp hj' with rfl | hj'
      · omega
      · have := s₂.head_lt hj'
        simp only [Interval.hi] at this
        omega

end

/-! ## Bounded requests -/

/-- The calls of a run whose requests leave 8 KiB below `2 ^ 31`. -/
def Call.Bounded (σ : Session) (c : Call) : Prop :=
  c.Admissible σ ∧ c.requested ≤ 2 ^ 31 - 2 ^ 13

theorem noWrap_of_le {s : State} {size : Word} (hend : s.kheapEnd.toNat ≤ 2 ^ 31)
    (hle : size.toNat ≤ 2 ^ 31 - 2 ^ 13) : NoWrap s size := by
  obtain ⟨-, -, hb⟩ := blockSize_bounds size
  refine .inl ⟨by omega, .inr ⟨by omega, ?_⟩⟩
  rw [roundUp]
  omega

theorem Call.Bounded.noWrap {σ : Session} {c : Call} (hend : σ.heap.kheapEnd.toNat ≤ 2 ^ 31)
    (h : c.Bounded σ) : c.NoWrap σ := by
  obtain ⟨-, hle⟩ := h
  cases c with
  | kmalloc size => exact noWrap_of_le hend hle
  | kcalloc nelems elemsize =>
    simp only [requested] at hle
    exact noWrap_of_le hend (by rw [BitVec.toNat_mul, Nat.mod_eq_of_lt (by omega)]; exact hle)
  | krealloc ptr size =>
    have hw : Heap.NoWrap σ.heap size := noWrap_of_le hend hle
    simp only [NoWrap]
    split
    · exact hw
    · rcases hw with ⟨h₁, h₂⟩ | h
      · exact .inr ⟨h₁, .inr (.inr h₂)⟩
      · have := h.1
        simp only [requested] at hle
        omega
  | kfree ptr => trivial
  | write addr value => trivial

theorem requested_of_mem_record {q : Word} {n : Nat} {live : List Alloc} {a : Alloc}
    (h : a ∈ record q n live) : a ∈ live ∨ a.requested = n := by
  rw [record] at h
  split at h
  · exact .inl h
  · rcases List.mem_cons.mp h with rfl | h
    · exact .inr rfl
    · exact .inl h

theorem mem_of_mem_forget {p : Word} {live : List Alloc} {a : Alloc} (h : a ∈ forget p live) :
    a ∈ live := List.mem_of_mem_eraseP h

theorem Call.exec_live {σ σ' : Session} {c : Call} {q : Word} (h : c.exec σ = .ok (q, σ'))
    {a : Alloc} (ha : a ∈ σ'.live) : a ∈ σ.live ∨ a.requested = c.requested := by
  cases c with
  | kmalloc size =>
    obtain ⟨⟨p, s⟩, -, h⟩ := bind_eq_ok.mp h
    cases h
    exact requested_of_mem_record ha
  | kcalloc nelems elemsize =>
    obtain ⟨⟨p, s⟩, -, h⟩ := bind_eq_ok.mp h
    cases h
    exact requested_of_mem_record ha
  | krealloc ptr size =>
    obtain ⟨⟨p, s⟩, -, h⟩ := bind_eq_ok.mp h
    dsimp only at h
    split at h
    · cases h
      exact .inl ha
    · cases h
      exact (requested_of_mem_record ha).imp_left mem_of_mem_forget
  | kfree ptr =>
    obtain ⟨s, -, h⟩ := bind_eq_ok.mp h
    cases h
    exact .inl (mem_of_mem_forget ha)
  | write addr value =>
    cases h
    exact .inl ha

theorem Reachable.requested_le {s : State} {σ : Session} (h : Reachable Call.Bounded s σ)
    {a : Alloc} (ha : a ∈ σ.live) : a.requested ≤ 2 ^ 31 - 2 ^ 13 := by
  induction h with
  | start => exact absurd ha List.not_mem_nil
  | step _ hp hex ih =>
    rcases Call.exec_live hex ha with ha | he
    · exact ih ha
    · rw [he]
      exact hp.2

section

variable {mbinfo : MultibootInfo} {kernelEnd : Word} {ie : Bool} {mem : Memory} {s : State}
  {σ : Session}

/-- The invariant along a run of bounded requests below `2 ^ 31`. -/
theorem Reachable.inv_of_bounded (hpos : 0 < kernelEnd.toNat)
    (hinit : kmallocInit mbinfo kernelEnd ie (boot mem) = .ok s)
    (hmax : s.kheapMaxEnd.toNat ≤ 2 ^ 31) (hr : Reachable Call.Bounded s σ) :
    (∃ fs us, Inv σ fs us) ∧ σ.heap.kheapEnd.toNat ≤ 2 ^ 31 ∧
      σ.heap.kheapBegin.toNat < σ.heap.kheapEnd.toNat := by
  obtain ⟨⟨fs, h₀⟩, hlt⟩ := kmallocInit_inv (imageFits_of_max hinit hpos hmax) hinit
  have hend : ∀ {σ fs us}, Inv σ fs us → σ.heap.kheapMaxEnd = s.kheapMaxEnd →
      σ.heap.kheapEnd.toNat ≤ 2 ^ 31 := fun hi he ↦
    Nat.le_trans hi.end_le (by rw [he]; exact hmax)
  obtain ⟨⟨fs, us, hi⟩, hg⟩ := hr.inv h₀ fun hi he hp ↦ ⟨hp.1, hp.noWrap (hend hi he)⟩
  refine ⟨⟨fs, us, hi⟩, hend hi hg.kheapMaxEnd, ?_⟩
  rw [hg.kheapBegin]
  exact Nat.lt_of_lt_of_le hlt hg.le

/-- A call that callers may make and none of whose sums wraps. -/
def Call.Safe (σ : Session) (c : Call) : Prop := c.Admissible σ ∧ c.NoWrap σ

/-- The invariant along a run of safe calls below `2 ^ 31`. -/
theorem Reachable.inv_of_safe (hpos : 0 < kernelEnd.toNat)
    (hinit : kmallocInit mbinfo kernelEnd ie (boot mem) = .ok s)
    (hmax : s.kheapMaxEnd.toNat ≤ 2 ^ 31) (hr : Reachable Call.Safe s σ) :
    (∃ fs us, Inv σ fs us) ∧ σ.heap.kheapEnd.toNat ≤ 2 ^ 31 := by
  obtain ⟨⟨fs, h₀⟩, -⟩ := kmallocInit_inv (imageFits_of_max hinit hpos hmax) hinit
  obtain ⟨⟨fs, us, hi⟩, hg⟩ := hr.inv h₀ fun _ _ hp ↦ hp
  refine ⟨⟨fs, us, hi⟩, Nat.le_trans hi.end_le ?_⟩
  rw [hg.kheapMaxEnd]
  exact hmax

/-- Along every run the heap is tiled by blocks with sound headers, the alloc bits are those of the
live allocations, the free list is sorted, complete and fully merged, and a call either returns or
runs out of memory: no assertion fails and no walk over the list is endless. -/
theorem reachable_wellFormed (hpos : 0 < kernelEnd.toNat)
    (hinit : kmallocInit mbinfo kernelEnd ie (boot mem) = .ok s)
    (hmax : s.kheapMaxEnd.toNat ≤ 2 ^ 31) (hr : Reachable Call.Bounded s σ) :
    (∃ blocks free, WellFormed σ blocks free) ∧
      ∀ c : Call, c.Bounded σ →
        c.exec σ = .error outOfMemory ∨ ∃ q σ', c.exec σ = .ok (q, σ') := by
  obtain ⟨⟨fs, us, hi⟩, hend, -⟩ := hr.inv_of_bounded hpos hinit hmax
  refine ⟨hi.wellFormed fun a ha ↦ ?_, fun c hc ↦ ?_⟩
  · have := hr.requested_le ha
    omega
  · by_cases hw : c.IsWrite
    · cases c with
      | write addr value => exact .inr ⟨_, _, rfl⟩
      | _ => exact hw.elim
    · refine (Call.exec_outcome hi hc.1 (hc.noWrap hend) hw).imp_right ?_
      rintro ⟨q, σ', -, -, -, hex, -⟩
      exact ⟨q, σ', hex⟩

end

/-! ### A machine with one region of memory -/

theorem exists_ok {ε α : Type} {x : Except ε α} {p : α → Bool}
    (h : (x.map p).toOption = some true) : ∃ a, x = .ok a ∧ p a = true := by
  cases x with
  | error e => cases h
  | ok a => exact ⟨a, rfl, Option.some.inj h⟩

/-- A memory map with one entry at `0x9000`: 126 MiB of RAM from 1 MiB on. -/
def oneRegion : Memory :=
  writeWord (writeWord (writeWord (writeWord ⟨fun _ ↦ 0⟩ 0x9000 20) 0x9004 0x100000) 0x900C
    0x7E00000) 0x9014 MULTIBOOT_MEMORY_AVAILABLE

def oneRegionInfo : MultibootInfo :=
  { flags := MULTIBOOT_INFO_MEM_MAP, mmapLength := 24, mmapAddr := 0x9000 }

/-- The heap behind a kernel that ends at `0x20A000`. -/
def oneRegionHeap : Except Halt State :=
  kmallocInit oneRegionInfo 0x20A000 false (boot oneRegion)

theorem oneRegionHeap_ok : ∃ s, oneRegionHeap = .ok s ∧
    decide (s.kheapMaxEnd.toNat ≤ 2 ^ 31 ∧ s.kheapEnd.toNat = 0x20E000) = true :=
  exists_ok (by decide +kernel)

theorem reachable_wellFormed_oneRegion :
    ∃ s σ q, oneRegionHeap = .ok s ∧ (Call.kmalloc 100).exec ⟨s, []⟩ = .ok (q, σ) ∧
      (∃ blocks free, WellFormed σ blocks free) ∧
        ∀ c : Call, c.Bounded σ →
          c.exec σ = .error outOfMemory ∨ ∃ q σ', c.exec σ = .ok (q, σ') := by
  obtain ⟨s, hs, hp⟩ := oneRegionHeap_ok
  obtain ⟨⟨q, σ⟩, hex, -⟩ := exists_ok
    (x := oneRegionHeap >>= fun s ↦ (Call.kmalloc 100).exec ⟨s, []⟩) (p := fun _ ↦ true)
    (by decide +kernel)
  rw [hs] at hex
  have hstep : (Call.kmalloc 100).Bounded ⟨s, []⟩ := ⟨trivial, by decide⟩
  exact ⟨s, σ, q, hs, hex, reachable_wellFormed (by decide) hs (of_decide_eq_true hp).1
    (.step .start hstep hex)⟩

/-! ## Frames -/

/-- In every run a call leaves every byte of the blocks of the other live allocations and every
byte outside the heap as it was, and the block it returns lies apart from those blocks. -/
theorem reachable_frame {mbinfo : MultibootInfo} {kernelEnd : Word} {ie : Bool} {mem : Memory}
    {s : State} {σ σ' : Session} {c : Call} {q : Word} (hpos : 0 < kernelEnd.toNat)
    (hinit : kmallocInit mbinfo kernelEnd ie (boot mem) = .ok s)
    (hmax : s.kheapMaxEnd.toNat ≤ 2 ^ 31) (hr : Reachable Call.Bounded s σ)
    (hc : c.Bounded σ) (hw : ¬ c.IsWrite) (hex : c.exec σ = .ok (q, σ')) :
    (∀ a ∈ σ.live, a.ptr ≠ c.argument →
      (∀ x : Word, x.toNat ∈ extent σ.heap.mem a.ptr →
        σ'.heap.mem.byte x = σ.heap.mem.byte x) ∧
      (q ≠ NULL → (extent σ'.heap.mem q).Apart (extent σ.heap.mem a.ptr))) ∧
    ∀ x : Word, ¬ (σ.heap.kheapBegin.toNat ≤ x.toNat ∧ x.toNat < σ'.heap.kheapEnd.toNat) →
      σ'.heap.mem.byte x = σ.heap.mem.byte x := by
  obtain ⟨⟨fs, us, hi⟩, hend, -⟩ := hr.inv_of_bounded hpos hinit hmax
  rcases Call.exec_outcome hi hc.1 (hc.noWrap hend) hw with
    he | ⟨q₁, σ₁, own, kept, own', he, ho, hs, -, hq⟩
  · rw [he] at hex
    cases hex
  · cases he.symm.trans hex
    obtain ⟨fs', hrep⟩ := ho.rep'
    obtain ⟨fs₀, hrep₀, -, -⟩ := ho.rep
    refine ⟨fun a ha hne ↦ ?_, fun x ↦ ho.outside⟩
    -- the block of `a` is one of those that are kept
    have hmem : a ∈ forget c.argument σ.live :=
      (List.mem_eraseP_of_neg (by simpa using hne)).mpr ha
    obtain ⟨i, hi, rfl⟩ := List.mem_iff_getElem.mp hmem
    have hi' : i < kept.length := by rw [hs.length_eq]; exact hi
    have hptr := ((List.forall₂_iff_get.mp hs).2 i hi' hi).1
    simp only [List.get_eq_getElem] at hptr
    have hu := List.getElem_mem hi'
    generalize kept[i] = u at hptr hu
    have hext : extent σ.heap.mem (forget c.argument σ.live)[i].ptr = u :=
      hrep₀.extent_eq (List.mem_append_right _ hu) hptr
    rw [hext]
    refine ⟨fun x hx ↦ ho.frame hu hx, fun hq0 ↦ ?_⟩
    obtain ⟨v, rfl, hqv⟩ := hq.resolve_left hq0
    rw [hrep.extent_eq (List.mem_append_left _ List.mem_cons_self) hqv]
    exact (List.pairwise_cons.mp hrep.partition.usedApart).1 u hu

theorem reachable_frame_oneRegion :
    ∃ s σ σ' q q', oneRegionHeap = .ok s ∧ (Call.kmalloc 100).exec ⟨s, []⟩ = .ok (q, σ) ∧
      (Call.kmalloc 200).exec σ = .ok (q', σ') ∧
      (∀ a ∈ σ.live, a.ptr ≠ NULL →
        (∀ x : Word, x.toNat ∈ extent σ.heap.mem a.ptr →
          σ'.heap.mem.byte x = σ.heap.mem.byte x) ∧
        (q' ≠ NULL → (extent σ'.heap.mem q').Apart (extent σ.heap.mem a.ptr))) ∧
      ∀ x : Word, ¬ (σ.heap.kheapBegin.toNat ≤ x.toNat ∧ x.toNat < σ'.heap.kheapEnd.toNat) →
        σ'.heap.mem.byte x = σ.heap.mem.byte x := by
  obtain ⟨s, hs, hp⟩ := oneRegionHeap_ok
  obtain ⟨⟨q', σ'⟩, hex, -⟩ := exists_ok
    (x := oneRegionHeap >>= fun s ↦ (Call.kmalloc 100).exec ⟨s, []⟩ >>= fun r ↦
      (Call.kmalloc 200).exec r.2) (p := fun _ ↦ true) (by decide +kernel)
  obtain ⟨s', hs', hex⟩ := bind_eq_ok.mp hex
  obtain rfl : s = s' := Except.ok.inj (hs.symm.trans hs')
  obtain ⟨⟨q, σ⟩, hex₁, hex₂⟩ := bind_eq_ok.mp hex
  have h₁ : (Call.kmalloc 100).Bounded ⟨s, []⟩ := ⟨trivial, by decide⟩
  have h₂ : (Call.kmalloc 200).Bounded σ := ⟨trivial, by decide⟩
  exact ⟨s, σ, σ', q, q', hs, hex₁, hex₂, reachable_frame (by decide) hs (of_decide_eq_true hp).1
    (.step .start h₁ hex₁) h₂ id hex₂⟩

/-! ## Requests of any size -/

/-- The call asks for `size` bytes, in a new block or in place of a live one. -/
def Call.Requests (σ : Session) (size : Word) (c : Call) : Prop :=
  c = .kmalloc size ∨
    size ≠ 0 ∧ ∃ ptr, c = .krealloc ptr size ∧ ∃ a ∈ σ.live, a.ptr = ptr

/-- `[q, q + size)`, without wrapping, lies inside the heap and inside one allocated block, apart
from every other live block and from every free one. -/
structure Honoured (σ : Session) (q : Word) (size : Nat) : Prop where
  in_heap : σ.heap.kheapBegin.toNat ≤ q.toNat ∧ q.toNat + size ≤ σ.heap.kheapEnd.toNat
  end_le : σ.heap.kheapEnd.toNat ≤ σ.heap.kheapMaxEnd.toNat
  in_block : (extent σ.heap.mem q).lo ≤ q.toNat ∧ q.toNat + size ≤ (extent σ.heap.mem q).hi
  alloc : kmIsalloc σ.heap.mem (q - sizeofKmBlockHeader) = true
  apart_live : ∀ a ∈ σ.live, a.ptr ≠ q →
    (extent σ.heap.mem a.ptr).Apart ⟨q.toNat, size⟩
  apart_free : ∀ b, OnList σ.heap.mem σ.heap.freeList b →
    (⟨b.toNat, (kmGetsize σ.heap.mem b).toNat⟩ : Interval).Apart ⟨q.toNat, size⟩

theorem Inv.honoured {σ : Session} {fs us : List Interval} {u : Interval} {q : Word} {n : Nat}
    (h : Inv σ fs us) (hu : u ∈ us) (hq : q.toNat = u.lo + 16) (hn : n + 16 ≤ u.len) :
    Honoured σ q n := by
  have hp := h.rep.partition
  have hr := hp.used_in_range hu
  simp only [Interval.hi] at hr
  obtain ⟨-, -, hh⟩ := h.rep.block hu hq
  refine ⟨by omega, h.end_le, ?_, hh.alloc, fun a ha hne ↦ ?_, fun b hb ↦ ?_⟩
  · rw [h.rep.extent_eq hu hq]
    simp only [Interval.hi]
    omega
  · obtain ⟨v, hv, hva, -⟩ := h.serves_of_live ha
    have hvu : v ≠ u := by
      rintro rfl
      exact hne (BitVec.toNat_inj.mp (hva.trans hq.symm))
    rw [h.rep.extent_eq hv hva]
    exact (hp.used_apart hv hu hvu).sub (by omega) (by omega)
  · obtain ⟨i, hi, hlo⟩ := (onList_iff h.rep.chain).mp hb
    rw [h.rep.size_of_free hi hlo, hlo]
    exact (hp.apart u hu i hi).symm.sub (by omega) (by omega)

/-- In every run whose requests do not wrap, every request is refused for lack of memory or
honoured in full. -/
theorem request_refused_or_honoured {mbinfo : MultibootInfo} {kernelEnd : Word} {ie : Bool}
    {mem : Memory} {s : State} {σ : Session} {c : Call} {size : Word} (hk : ImageFits kernelEnd)
    (hinit : kmallocInit mbinfo kernelEnd ie (boot mem) = .ok s)
    (hr : Reachable (fun σ c ↦ c.Admissible σ ∧ c.NoWrap σ) s σ) (hc : c.Requests σ size)
    (hw : c.NoWrap σ) :
    c.exec σ = .error outOfMemory ∨
      ∃ q σ', c.exec σ = .ok (q, σ') ∧ Honoured σ' q size.toNat := by
  obtain ⟨⟨fs₀, h₀⟩, -⟩ := kmallocInit_inv hk hinit
  obtain ⟨⟨fs, us, hi⟩, -⟩ := hr.inv h₀ fun _ _ hp ↦ hp
  rcases hc with rfl | ⟨hsize, ptr, rfl, ha⟩
  · refine (kmallocUnsafe_outcome hi hw).imp (fun he ↦ ?_) ?_
    · simp only [Call.exec, he, bind, Except.bind]
    · rintro ⟨q, s', u, hex, ho, hq, hle⟩
      have hex' : (Call.kmalloc size).exec σ = .ok (q, ⟨s', record q size.toNat σ.live⟩) := by
        simp only [Call.exec, hex, bind, Except.bind]
      obtain ⟨fs', hi'⟩ := Outcome.inv ⟨s', record q size.toNat σ.live⟩ hi ho
        (serves_record hi.serves hq (by rwa [Nat.mod_eq_of_lt size.isLt]))
      exact ⟨q, _, hex', hi'.honoured List.mem_cons_self hq hle⟩
  · have hne : ptr ≠ NULL := by
      obtain ⟨a, ha, rfl⟩ := ha
      exact hi.ptr_ne_null ha
    simp only [Call.NoWrap, if_neg hne] at hw
    refine (kreallocUnsafe_outcome hi ha hsize (hw.resolve_left hsize)).imp (fun he ↦ ?_) ?_
    · simp only [Call.exec, he, bind, Except.bind]
    · rintro ⟨q, s', u, us', u', hex, ho, hs, hq, hle⟩
      have hex' : (Call.krealloc ptr size).exec σ =
          .ok (q, ⟨s', record q size.toNat (forget ptr σ.live)⟩) := by
        simp only [Call.exec, hex, bind, Except.bind, ne_null_of_toNat hq, false_and, if_false]
      obtain ⟨fs', hi'⟩ := Outcome.inv
        ⟨s', record q size.toNat (forget ptr σ.live)⟩ hi ho
        (serves_record hs hq (by rwa [Nat.mod_eq_of_lt size.isLt]))
      exact ⟨q, _, hex', hi'.honoured List.mem_cons_self hq hle⟩

theorem request_refused_or_honoured_oneRegion :
    ∃ s, oneRegionHeap = .ok s ∧
      ((Call.kmalloc 0x70000000).exec ⟨s, []⟩ = .error outOfMemory ∨
        ∃ q σ', (Call.kmalloc 0x70000000).exec ⟨s, []⟩ = .ok (q, σ') ∧
          Honoured σ' q (0x70000000 : Word).toNat) := by
  obtain ⟨s, hs, hp⟩ := oneRegionHeap_ok
  have hend := (of_decide_eq_true hp).2
  exact ⟨s, hs, request_refused_or_honoured (by unfold ImageFits; decide) hs .start (.inl rfl)
    (.inl ⟨by decide, .inr ⟨by decide, by rw [hend]; decide⟩⟩)⟩

/-- The sum of the request and the header wraps to zero: the first call after initialisation
returns a pointer to 16 bytes short of 4 GiB in a heap of 16 KiB. -/
theorem kmalloc_wraps :
    ∃ s, oneRegionHeap = .ok s ∧ Reachable (fun σ c ↦ c.Admissible σ) s ⟨s, []⟩ ∧
      ∃ q σ', (Call.kmalloc 0xFFFFFFF0).exec ⟨s, []⟩ = .ok (q, σ') ∧
        ¬ Honoured σ' q (0xFFFFFFF0 : Word).toNat := by
  obtain ⟨⟨q, σ'⟩, hex, hlt⟩ := exists_ok
    (x := oneRegionHeap >>= fun s ↦ (Call.kmalloc 0xFFFFFFF0).exec ⟨s, []⟩)
    (p := fun r ↦ decide (r.2.heap.kheapEnd.toNat < r.1.toNat + (0xFFFFFFF0 : Word).toNat))
    (by decide +kernel)
  obtain ⟨s, hs, hex⟩ := bind_eq_ok.mp hex
  refine ⟨s, hs, .start, q, σ', hex, fun h ↦ ?_⟩
  exact absurd h.in_heap.2 (Nat.not_le.mpr (of_decide_eq_true hlt))

end AlienOS.Heap
