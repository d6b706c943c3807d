import AlienOS.Heap.FirstFit

/-!
# Resize — what `krealloc` gives back for a live pointer

The contents of the old block, in the old place exactly when the bytes behind it are not those of
another live block.
-/

open AlienOS.Lib

namespace AlienOS.Heap

/-! ## When the old place will do -/

/-- Complete coalescing makes the test on one neighbour a test on every byte: `t` bytes fit where
the block `u` is if and only if none of them is outside the heap or used by another block. -/
theorem Partition.inPlace_iff {lo hi t : Nat} {fs us : List Interval} {u : Interval}
    (h : Partition lo hi fs (u :: us)) :
    InPlace fs u t ↔ ∀ x ∈ (⟨u.lo, t⟩ : Interval), (lo ≤ x ∧ x < hi) ∧ ¬ Covers us x := by
  have hr := h.used_in_range List.mem_cons_self
  have hpos := (h.usedBlock u List.mem_cons_self).len_pos
  simp only [Interval.hi] at hr
  constructor
  · rintro (hle | ⟨k, hk, hlo, hle⟩) x hx
    · have hxu : x ∈ u := by
        simp only [Interval.mem_iff] at hx ⊢
        omega
      constructor
      · rw [Interval.mem_iff] at hxu
        omega
      · intro hc
        obtain ⟨v, hv, hxv⟩ := hc
        exact h.not_mem_of_used hv hxv hxu
    · have hkr := h.free_in_range hk
      simp only [Interval.hi, Interval.mem_iff] at hlo hkr hx
      refine ⟨by omega, fun hc ↦ ?_⟩
      obtain ⟨v, hv, hxv⟩ := hc
      by_cases hxu : x < u.lo + u.len
      · exact h.not_mem_of_used hv hxv (Interval.mem_iff.mpr (by omega))
      · exact h.not_free_of_used (List.mem_cons_of_mem _ hv) hxv
          ⟨k, hk, Interval.mem_iff.mpr (by omega)⟩
  · intro hall
    by_cases hle : t ≤ u.len
    · exact .inl hle
    · -- the byte behind `u` is free, and so is the whole block that starts there
      obtain ⟨⟨-, hlt⟩, hno⟩ := hall u.hi (Interval.mem_iff.mpr (by simp only [Interval.hi]; omega))
      rcases h.next hlt with ⟨k, hk, hlo⟩ | ⟨v, hv, hlo⟩
      · refine .inr ⟨k, hk, hlo, ?_⟩
        by_contra hgt
        simp only [Interval.hi] at hlo
        obtain ⟨hb, hno⟩ := hall k.hi (Interval.mem_iff.mpr (by simp only [Interval.hi]; omega))
        rcases (h.cover k.hi).mp hb with ⟨j, hj, hx⟩ | hc
        · obtain ⟨l, m, rfl⟩ := List.append_of_mem hk
          obtain ⟨-, s₂, s₃⟩ := h.separated.append
          simp only [Interval.mem_iff, Interval.hi] at hx
          rcases List.mem_append.mp hj with hj | hj
          · have := s₃ j hj k List.mem_cons_self
            simp only [Interval.hi] at this
            omega
          · rcases List.mem_cons.mp hj with rfl | hj
            · omega
            · have := s₂.head_lt hj
              simp only [Interval.hi] at this
              omega
        · rcases (covers_cons u us k.hi).mp hc with hx | hx
          · simp only [Interval.mem_iff, Interval.hi] at hx
            omega
          · exact hno hx
      · have hv' := (h.usedBlock v (List.mem_cons_of_mem _ hv)).len_pos
        exact absurd ⟨v, hv, Interval.mem_iff.mpr (by omega)⟩ hno

/-! ## What callers see -/

/-- The block behind `q` is `p`'s block resized to `size` bytes. -/
structure Resized (σ σ' : Session) (p size q : Word) : Prop where
  live : ⟨q, size.toNat⟩ ∈ σ'.live
  alloc : kmIsalloc σ'.heap.mem (q - sizeofKmBlockHeader) = true
  extent_eq : extent σ'.heap.mem q = ⟨q.toNat - 16, blockSize size⟩
  contents : ∀ k < min ((extent σ.heap.mem p).len - 16) size.toNat,
    σ'.heap.mem.byte (q + BitVec.ofNat 32 k) = σ.heap.mem.byte (p + BitVec.ofNat 32 k)
  in_place : q = p ↔ ∀ x ∈ (⟨p.toNat - 16, blockSize size⟩ : Interval),
    (σ.heap.kheapBegin.toNat ≤ x ∧ x < σ.heap.kheapEnd.toNat) ∧
      ∀ b ∈ σ.live, b.ptr ≠ p → x ∉ extent σ.heap.mem b.ptr
  moved : q ≠ p → (∀ b ∈ σ'.live, b.ptr ≠ p) ∧
    ∃ l, FreeList σ'.heap l ∧ ∀ x ∈ extent σ.heap.mem p, Covers l x

section

variable {σ : Session} {fs us us' : List Interval} {u : Interval} {p : Word}

/-- The other live pointers are those to the other used blocks. -/
theorem Inv.others_iff (h : Inv σ fs us) (hperm : us.Perm (u :: us')) (hptr : p.toNat = u.lo + 16)
    (x : Nat) :
    (∀ b ∈ σ.live, b.ptr ≠ p → x ∉ extent σ.heap.mem b.ptr) ↔ ¬ Covers us' x := by
  have hp := (h.rep.perm hperm).partition
  constructor
  · rintro hno ⟨v, hv, hx⟩
    have hvm : v ∈ us := hperm.mem_iff.mpr (List.mem_cons_of_mem _ hv)
    obtain ⟨b, hb, hs⟩ := h.live_of_used hvm
    refine hno b hb ?_ (by rwa [h.rep.extent_eq hvm hs.1])
    rintro rfl
    have hu := hp.usedBlock u List.mem_cons_self
    have hlo : u.lo = v.lo := by have := hs.1; omega
    exact hp.not_mem_of_used hv (x := v.lo)
      (Interval.mem_iff.mpr (by have := (h.rep.partition.usedBlock v hvm).len_pos; omega))
      (Interval.mem_iff.mpr (by have := hu.len_pos; omega))
  · intro hno b hb hne hx
    obtain ⟨v, hv, hs⟩ := h.serves_of_live hb
    rw [h.rep.extent_eq hv hs.1] at hx
    rcases List.mem_cons.mp (hperm.mem_iff.mp hv) with rfl | hv'
    · exact hne (BitVec.toNat_inj.mp (hs.1.trans hptr.symm))
    · exact hno ⟨v, hv', hx⟩

/-- A pointer that is forgotten is none of the remaining live ones. -/
theorem ne_of_mem_forget {live : List Alloc} (hp : Partition σ.heap.kheapBegin.toNat
      σ.heap.kheapEnd.toNat fs (u :: us')) (hs : List.Forall₂ Serves us' live)
    (hptr : p.toNat = u.lo + 16) {b : Alloc} (hb : b ∈ live) : b.ptr ≠ p := by
  obtain ⟨i, hi, rfl⟩ := List.mem_iff_getElem.mp hb
  have hi' : i < us'.length := by rw [hs.length_eq]; exact hi
  have hv := ((List.forall₂_iff_get.mp hs).2 i hi' hi).1
  simp only [List.get_eq_getElem] at hv
  have hm : us'[i] ∈ us' := List.getElem_mem hi'
  have h₁ := (hp.usedBlock _ (List.mem_cons_of_mem _ hm)).len_pos
  have h₂ := (hp.usedBlock u List.mem_cons_self).len_pos
  rintro he
  rw [he] at hv
  exact hp.not_mem_of_used hm (x := u.lo) (Interval.mem_iff.mpr (by omega))
    (Interval.mem_iff.mpr (by omega))

/-- A reallocation of a live block, told in live pointers and bytes. -/
theorem Inv.resized {size q : Word} {s' : State} (h : Inv σ fs us) (hperm : us.Perm (u :: us'))
    (hptr : p.toNat = u.lo + 16) (hs : List.Forall₂ Serves us' (forget p σ.live))
    (hr : Reallocates σ.heap fs us' u p size q s') :
    Resized σ ⟨s', record q size.toNat (forget p σ.live)⟩ p size q := by
  have hrep := h.rep.perm hperm
  have hp := hrep.partition
  have hext : extent σ.heap.mem p = u := hrep.extent_eq List.mem_cons_self hptr
  obtain ⟨fs', lo, hq, hrep', hg, -⟩ := hr.allocates
  have hlo : q.toNat - 16 = lo := by omega
  have hrec : record q size.toNat (forget p σ.live) = ⟨q, size.toNat⟩ :: forget p σ.live := by
    rw [record, if_neg (ne_null_of_toNat hq)]
  have hplo : p.toNat - 16 = u.lo := by omega
  obtain ⟨-, -, hh⟩ := hrep'.block List.mem_cons_self hq
  refine ⟨?_, hh.alloc, ?_, ?_, ?_, fun hne ↦ ⟨?_, fs', hrep'.freeList, ?_⟩⟩
  · rw [hrec]
    exact List.mem_cons_self
  · rw [hrep'.extent_eq List.mem_cons_self hq, hlo]
  · rw [hext]
    exact hr.contents
  · simp only [h.others_iff hperm hptr, hplo]
    rw [← hp.inPlace_iff]
    rcases hr.place with ⟨rfl, hin⟩ | ⟨hne, hno, -⟩
    · exact iff_of_true rfl hin
    · exact iff_of_false hne hno
  · rw [hrec]
    refine List.forall_mem_cons.mpr ⟨hne, fun b hb ↦ ne_of_mem_forget hp hs hptr hb⟩
  · -- what was in `u` is in the heap still, and in none of the used blocks any more
    rw [hext]
    intro x hx
    obtain ⟨-, -, hout⟩ := hr.place.resolve_left fun hc ↦ hne hc.1
    have hrange := (hp.cover x).mpr (.inr ⟨u, List.mem_cons_self, hx⟩)
    refine (hrep'.covers_free x).mpr ⟨⟨by rw [hg.kheapBegin]; exact hrange.1,
      Nat.lt_of_lt_of_le hrange.2 hg.le⟩, ?_⟩
    rintro ⟨v, hv, hxv⟩
    rcases List.mem_cons.mp hv with rfl | hv
    · refine hout x hx ?_
      rw [hlo]
      exact Interval.mem_iff.mp hxv
    · exact hp.not_mem_of_used hv hxv hx

end

section

variable {mbinfo : MultibootInfo} {kernelEnd : Word} {ie : Bool} {mem : Memory} {s : State}
  {σ : Session}

/-- Along every run `krealloc` of a live pointer runs out of memory or returns the resized block:
none of its assertions fails, the one on the search for the next block in the free list included. -/
theorem reachable_krealloc (hpos : 0 < kernelEnd.toNat)
    (hinit : kmallocInit mbinfo kernelEnd ie (boot mem) = .ok s)
    (hmax : s.kheapMaxEnd.toNat ≤ 2 ^ 31) (hr : Reachable Call.Safe s σ) {p size : Word}
    (hp : ∃ a ∈ σ.live, a.ptr = p) (h₀ : 0 < size.toNat) (hsize : size.toNat ≤ 2 ^ 31 - 2 ^ 13) :
    (Call.krealloc p size).exec σ = .error outOfMemory ∨
      ∃ q σ', (Call.krealloc p size).exec σ = .ok (q, σ') ∧ Resized σ σ' p size q := by
  obtain ⟨⟨fs, us, hi⟩, hend⟩ := hr.inv_of_safe hpos hinit hmax
  obtain ⟨hs, hfit⟩ := (noWrap_of_le hend hsize).resolve_right fun h ↦ by
    have := h.1
    omega
  obtain ⟨u, us', hrep, hperm, hptr, hserves⟩ := hi.focus hp
  have hne : size ≠ 0 := by
    rintro rfl
    exact Nat.lt_irrefl _ h₀
  rcases kreallocUnsafe_spec hrep hptr hne hs (.inr (.inr (hi.rep.fits hfit))) with
    he | ⟨q, s', hex, hre⟩
  · left
    simp only [Call.exec, he, error_bind]
  · right
    obtain ⟨-, lo, hq, -⟩ := hre.allocates
    refine ⟨q, _, ?_, hi.resized hperm hptr hserves hre⟩
    simp only [Call.exec, hex, ok_bind, ne_null_of_toNat hq, false_and, if_false]

theorem reachable_krealloc_oneRegion :
    ∃ s σ p, oneRegionHeap = .ok s ∧ (Call.kmalloc 100).exec ⟨s, []⟩ = .ok (p, σ) ∧
      ((Call.krealloc p 5000).exec σ = .error outOfMemory ∨
        ∃ q σ', (Call.krealloc p 5000).exec σ = .ok (q, σ') ∧ Resized σ σ' p 5000 q) := by
  obtain ⟨s, hs, hp⟩ := oneRegionHeap_ok
  obtain ⟨⟨p, σ⟩, hex, hl⟩ := exists_ok
    (x := oneRegionHeap >>= fun s ↦ (Call.kmalloc 100).exec ⟨s, []⟩)
    (p := fun r ↦ decide (r.2.live = [⟨r.1, 100⟩])) (by decide +kernel)
  rw [hs] at hex
  have hlive : σ.live = [⟨p, 100⟩] := of_decide_eq_true hl
  have hsafe : (Call.kmalloc 100).Safe ⟨s, []⟩ :=
    ⟨trivial, noWrap_of_le (by rw [(of_decide_eq_true hp).2]; decide) (by decide)⟩
  exact ⟨s, σ, p, hs, hex, reachable_krealloc (by decide) hs (of_decide_eq_true hp).1
    (.step .start hsafe hex) ⟨⟨p, 100⟩, by rw [hlive]; exact List.mem_cons_self, rfl⟩ (by decide)
    (by decide)⟩

end

end AlienOS.Heap
