import AlienOS.Heap.Panic
import AlienOS.Heap.Safety

/-!
# Stale — pointers to blocks that were given back

A header stays in memory when its block is freed, merged into a neighbour or cut off again.  Its
alloc bit is clear from then on until the address lies in a live block again, and `_kfree_unsafe`
and `_krealloc_unsafe` ask for that bit before they write anything.
-/

open AlienOS.Lib

namespace AlienOS.Heap

/-! ## Writes that do not set the alloc bit -/

/-- Whatever was written, the alloc bit at `b` has not been set. -/
def StaysClear (b : Word) (mem mem' : Memory) : Prop :=
  kmIsalloc mem b = false → kmIsalloc mem' b = false

theorem StaysClear.refl (b : Word) (mem : Memory) : StaysClear b mem mem := id

theorem StaysClear.trans {b : Word} {mem mem' mem'' : Memory} (h : StaysClear b mem mem')
    (h' : StaysClear b mem' mem'') : StaysClear b mem mem'' := h' ∘ h

/-- A block keeps clear of every aligned header that it does not contain. -/
theorem IsBlock.clear_of {u : Interval} (hu : IsBlock u) {x : Nat} (hx : 16 ∣ x) (hn : x ∉ u) :
    x + 16 ≤ u.lo ∨ u.hi ≤ x := by
  have h₁ := hu.lo_dvd
  have h₂ := hu.len_dvd
  rw [Interval.mem_iff] at hn
  unfold Interval.hi
  omega

section

variable {b p : Word} {mem mem' : Memory}

theorem add_sixteen_le (hp : 16 ∣ p.toNat) : p.toNat + 16 ≤ 2 ^ 32 := by
  have := p.isLt
  omega

theorem kmIsalloc_congr {S : Nat → Prop} (hb : 16 ∣ b.toNat) (hc : ChangesWithin S mem mem')
    (hS : ∀ x, b.toNat ≤ x → x < b.toNat + 4 → ¬ S x) : kmIsalloc mem' b = kmIsalloc mem b := by
  unfold kmIsalloc
  rw [kmMetadata_congr hc (add_sixteen_le hb) hS]

theorem StaysClear.of_changes {S : Nat → Prop} (hb : 16 ∣ b.toNat)
    (hc : ChangesWithin S mem mem') (hS : ∀ x, b.toNat ≤ x → x < b.toNat + 4 → ¬ S x) :
    StaysClear b mem mem' := by
  intro h
  rw [kmIsalloc_congr hb hc hS]
  exact h

/-- A header word that is not the metadata of `b` may be written. -/
theorem staysClear_kmSetnext (mem : Memory) (next : Word) (hb : 16 ∣ b.toNat)
    (hp : 16 ∣ p.toNat) : StaysClear b mem (kmSetnext mem p next) :=
  .of_changes hb (changesWithin_kmSetnext mem next (add_sixteen_le hp)) fun _ _ _ _ ↦ by omega

theorem staysClear_kmSetmagic (mem : Memory) (hb : 16 ∣ b.toNat) (hp : 16 ∣ p.toNat) :
    StaysClear b mem (kmSetmagic mem p) :=
  .of_changes hb (changesWithin_kmSetmagic (add_sixteen_le hp)) fun _ _ _ _ ↦ by omega

/-- The metadata of another header may be written. -/
theorem staysClear_metadata (mem : Memory) (w : Word) (hb : 16 ∣ b.toNat) (hp : 16 ∣ p.toNat)
    (hne : b ≠ p) : StaysClear b mem (writeWord mem p w) := by
  have hne' : b.toNat ≠ p.toNat := fun he ↦ hne (BitVec.toNat_inj.mp he)
  exact .of_changes hb (changesWithin_metadata mem w (add_sixteen_le hp)) fun _ _ _ _ ↦ by omega

theorem staysClear_kmSetsize (mem : Memory) {size : Word} (hb : 16 ∣ b.toNat)
    (hp : 16 ∣ p.toNat) (hs : 16 ∣ size.toNat) : StaysClear b mem (kmSetsize mem p size) := by
  by_cases he : b = p
  · intro h
    subst he
    rw [kmIsalloc_eq, decide_eq_false_iff_not] at h ⊢
    rw [kmMetadata_kmSetsize mem b size hs]
    omega
  · exact staysClear_metadata mem _ hb hp he

theorem kmIsalloc_kmClearalloc (mem : Memory) (b : Word) :
    kmIsalloc (kmClearalloc mem b) b = false := by
  rw [kmIsalloc_eq, decide_eq_false_iff_not, kmMetadata_kmClearalloc]
  omega

theorem staysClear_kmClearalloc (mem : Memory) (hb : 16 ∣ b.toNat) (hp : 16 ∣ p.toNat) :
    StaysClear b mem (kmClearalloc mem p) := by
  by_cases he : b = p
  · intro _
    rw [he]
    exact kmIsalloc_kmClearalloc mem p
  · exact staysClear_metadata mem _ hb hp he

theorem staysClear_kmInitblock (mem : Memory) {size : Word} (hb : 16 ∣ b.toNat)
    (hp : 16 ∣ p.toNat) (hs : 16 ∣ size.toNat) : StaysClear b mem (kmInitblock mem p size) :=
  ((staysClear_kmSetsize mem hb hp hs).trans (staysClear_kmClearalloc _ hb hp)).trans
    (staysClear_kmSetmagic _ hb hp)

/-- Sums and differences of sizes are multiples of 16 even when they wrap. -/
theorem dvd_toNat_add {v w : Word} (hv : 16 ∣ v.toNat) (hw : 16 ∣ w.toNat) :
    16 ∣ (v + w).toNat := by
  rw [BitVec.toNat_add]
  omega

theorem dvd_toNat_sub {v w : Word} (hv : 16 ∣ v.toNat) (hw : 16 ∣ w.toNat) :
    16 ∣ (v - w).toNat := by
  rw [BitVec.toNat_sub]
  omega

theorem staysClear_kmCoalesce (mem : Memory) (hb : 16 ∣ b.toNat) (hp : 16 ∣ p.toNat) :
    StaysClear b mem (kmCoalesce mem p) := by
  unfold kmCoalesce
  split
  · have hs := dvd_toNat_add (kmGetsize_dvd mem p) (kmGetsize_dvd mem (kmNext mem p))
    exact (staysClear_kmSetsize mem hb hp hs).trans (staysClear_kmSetnext _ _ hb hp)
  · exact .refl b mem

end

/-! ## The walks stay on the free list -/

/-- Every block on the list that starts at `p` is aligned. -/
def AlignedList (mem : Memory) (p : Word) : Prop := ∀ b, OnList mem p b → 16 ∣ b.toNat

theorem OnList.snoc {mem : Memory} {p b : Word} (h : OnList mem p b)
    (hn : kmNext mem b ≠ NULL) : OnList mem p (kmNext mem b) := by
  induction h with
  | head hp => exact .next hp (.head hn)
  | next hp _ ih => exact .next hp (ih hn)

theorem FreeSeg.alignedList {mem : Memory} {p : Word} {l : List Interval}
    (h : FreeSeg mem p l NULL) (hb : ∀ i ∈ l, IsBlock i) : AlignedList mem p := by
  intro b hon
  obtain ⟨i, hi, he⟩ := (onList_iff h).mp hon
  rw [he]
  exact (hb i hi).lo_dvd

theorem kmInsertWalk_onList {mem : Memory} {b fl p n prev : Word} {fuel : Nat}
    (h : kmInsertWalk mem b fuel prev (kmNext mem prev) = .ok (p, n)) (hp : OnList mem fl prev) :
    OnList mem fl p := by
  induction fuel generalizing prev with
  | zero => cases h
  | succ fuel ih =>
    rw [kmInsertWalk] at h
    split at h
    · next hc => exact ih h (hp.snoc hc.1)
    · cases h
      exact hp

theorem kmFindWalk_onList {mem : Memory} {size fl p c prev cur : Word} {fuel : Nat}
    (h : kmFindWalk mem size fuel prev cur = .ok (p, c)) (hp : prev = NULL ∨ OnList mem fl prev)
    (hc : cur = NULL ∨ OnList mem fl cur) :
    (p = NULL ∨ OnList mem fl p) ∧ (c = NULL ∨ OnList mem fl c) := by
  induction fuel generalizing prev cur with
  | zero => cases h
  | succ fuel ih =>
    rw [kmFindWalk] at h
    split at h
    · next hlt =>
      have hcur := hc.resolve_left hlt.1
      refine ih h (.inr hcur) ?_
      by_cases hn : kmNext mem cur = NULL
      · exact .inl hn
      · exact .inr (hcur.snoc hn)
    · cases h
      exact ⟨hp, hc⟩

theorem kreallocWalk_onList {mem : Memory} {r fl p cur : Word} {fuel : Nat}
    (h : kreallocWalk mem r fuel cur = .ok p) (hc : cur = NULL ∨ OnList mem fl cur) :
    p = NULL ∨ OnList mem fl p := by
  induction fuel generalizing cur with
  | zero => cases h
  | succ fuel ih =>
    rw [kreallocWalk] at h
    split at h
    · next hne =>
      refine ih h ?_
      by_cases hn : kmNext mem cur = NULL
      · exact .inl hn
      · exact .inr ((hc.resolve_left hne.1).snoc hn)
    · cases h
      exact hc

/-! ## The operations -/

section

variable {b p q : Word} {s s' : State} {fs us : List Interval} {u : Interval}

theorem staysClear_kmInsert (hb : 16 ∣ b.toNat) (hp : 16 ∣ p.toNat)
    (h : kmInsert p s = .ok s') (hl : AlignedList s.mem s.freeList) :
    StaysClear b s.mem s'.mem := by
  unfold kmInsert at h
  split at h
  · cases h
    exact .refl b _
  · split at h
    · cases h
      exact (staysClear_kmSetnext _ _ hb hp).trans (staysClear_kmCoalesce _ hb hp)
    · next hfront =>
      obtain ⟨⟨prev, next⟩, hw, h⟩ := bind_eq_ok.mp h
      obtain ⟨-, -, h⟩ := bind_eq_ok.mp h
      obtain ⟨-, -, h⟩ := bind_eq_ok.mp h
      obtain ⟨-, -, h⟩ := bind_eq_ok.mp h
      cases h
      have hprev : 16 ∣ prev.toNat :=
        hl prev (kmInsertWalk_onList hw (.head (not_or.mp hfront).1))
      -- link behind the new block, link the new block, merge forwards and backwards
      have hlink := (staysClear_kmSetnext s.mem next hb hp).trans
        (staysClear_kmSetnext _ p hb hprev)
      exact (hlink.trans (staysClear_kmCoalesce _ hb hp)).trans (staysClear_kmCoalesce _ hb hprev)

theorem staysClear_kmFind {size : Word} (hb : 16 ∣ b.toNat) (hrep : Rep s fs us)
    (h : kmFind size s = .ok (p, s')) : StaysClear b s.mem s'.mem := by
  have hl := hrep.chain.alignedList hrep.partition.freeBlock
  obtain ⟨⟨prev, cur⟩, hw, h⟩ := bind_eq_ok.mp h
  have hfl : s.freeList = NULL ∨ OnList s.mem s.freeList s.freeList := by
    by_cases hn : s.freeList = NULL
    · exact .inl hn
    · exact .inr (.head hn)
  obtain ⟨hprev, hcur⟩ := kmFindWalk_onList hw (.inl rfl) hfl
  dsimp only at h
  split at h
  · -- nothing fits: the new block begins at the old end of the heap
    unfold kmExtend at h
    dsimp only at h
    split at h
    · cases h
    · cases h
      refine staysClear_kmInitblock _ hb ?_ ?_
      · have := hrep.bounds.page
        omega
      · rw [kmallocAlign, BitVec.toNat_mul]
        change 16 ∣ _ * 4096 % _
        omega
  · next hne =>
    have hcur' := hl cur (hcur.resolve_left hne)
    split at h
    · cases h
      exact staysClear_kmSetnext _ _ hb hcur'
    · next hne' =>
      cases h
      have hprev' := hl prev (hprev.resolve_left hne')
      exact (staysClear_kmSetnext _ _ hb hprev').trans (staysClear_kmSetnext _ _ hb hcur')

theorem staysClear_kmSplit {t : Word} {used : Bool} (hb : 16 ∣ b.toNat)
    (hheld : Held s fs us u used) (hp : p.toNat = u.lo) (ht : 16 ∣ t.toNat)
    (ht0 : 0 < t.toNat) (hle : t.toNat ≤ u.len) (h : kmSplit p t s = .ok (q, s')) :
    StaysClear b s.mem s'.mem := by
  have hblk := hheld.isBlock
  have hpb : 16 ∣ p.toNat := by
    rw [hp]
    exact hblk.lo_dvd
  have hpt : (p + t).toNat = u.lo + t.toNat := by
    have := hblk.hi_lt
    rw [BitVec.toNat_add, hp, Nat.mod_eq_of_lt (by omega)]
  unfold kmSplit at h
  split at h
  · cases h
    exact .refl b _
  · next hlt =>
    obtain ⟨s₁, hr, h⟩ := bind_eq_ok.mp h
    cases h
    have hsize : (kmGetsize s.mem p).toNat = u.len := by
      rw [← ofNat_toNat_eq hp]
      exact hheld.own.size
    have hdvd : 16 ∣ (p + t).toNat := dvd_toNat_add hpb ht
    have hrest := dvd_toNat_sub (kmGetsize_dvd s.mem p) ht
    -- the new header lies in the block in hand, so the list is still aligned
    have hc := changesWithin_kmInitblock s.mem (kmGetsize s.mem p - t) (add_sixteen_le hdvd)
    have hroom : t.toNat + 16 ≤ u.len := by
      have h₁ := hblk.len_dvd
      have h₂ := hblk.hi_lt
      have h₃ := hblk.lo_pos
      rw [BitVec.lt_def, hsize, BitVec.toNat_add] at hlt
      change ¬ u.len < (t.toNat + 16) % _ at hlt
      omega
    have hl : AlignedList (kmInitblock s.mem (p + t) (kmGetsize s.mem p - t)) s.freeList := by
      refine FreeSeg.alignedList (hheld.chain.congr_apart hc hheld.partition.freeBlock
        (fun x hx ↦ ?_) (hheld.partition.apart u List.mem_cons_self)) hheld.partition.freeBlock
      rw [Interval.mem_iff]
      omega
    have h₁ := staysClear_kmInitblock s.mem hb hdvd hrest
    have h₂ := staysClear_kmInsert hb hdvd hr hl
    exact (h₁.trans h₂).trans (staysClear_kmSetsize s₁.mem hb hpb ht)

theorem staysClear_kmallocUnsafe {size : Word} (hb : 16 ∣ b.toNat) (hrep : Rep s fs us)
    (hsize : size.toNat + 31 < 2 ^ 32) (hfit : Fits s fs (blockSize size))
    (h : kmallocUnsafe size s = .ok (q, s'))
    (hn : b.toNat ∉ (⟨q.toNat - 16, blockSize size⟩ : Interval)) : StaysClear b s.mem s'.mem := by
  have ht := targetSize_toNat hsize
  obtain ⟨hb₁, hb₂, -⟩ := blockSize_bounds size
  obtain ⟨⟨p, s₁⟩, h₁, h⟩ := bind_eq_ok.mp h
  have hfind := staysClear_kmFind hb hrep h₁
  rcases kmFind_held hrep (t := targetSize size) (by omega) (by rwa [ht]) with
    ⟨he, -⟩ | ⟨p', s₁', fs₁, i, hr, hpi, hle, hheld, -⟩
  · cases he.symm.trans h₁
  · cases hr.symm.trans h₁
    have hp : 16 ∣ p.toNat := by
      rw [hpi]
      exact hheld.isBlock.lo_dvd
    dsimp only at h
    split at h
    · cases h
      exact hfind
    · obtain ⟨⟨p', s₂⟩, h₂, h⟩ := bind_eq_ok.mp h
      have hsplit := staysClear_kmSplit hb hheld hpi (by rwa [ht]) (by omega) hle h₂
      obtain ⟨mem', fl', hr₂, -⟩ := kmSplit_held hheld hpi (t := targetSize size) (by rwa [ht])
        (by omega) hle
      cases hr₂.symm.trans h₂
      cases h
      have hne : b ≠ p := by
        rintro rfl
        have hq := add_sixteen_le hp
        have hi := hheld.isBlock.hi_lt
        have hq' : (b + sizeofKmBlockHeader).toNat = b.toNat + 16 := by
          rw [BitVec.toNat_add]
          exact Nat.mod_eq_of_lt (by change b.toNat + 16 < 2 ^ 32; omega)
        rw [Interval.mem_iff, hq'] at hn
        dsimp only at hn
        omega
      exact (hfind.trans hsplit).trans (staysClear_metadata _ _ hb hp hne)

/-- The bytes of a payload belong to no header outside of its block. -/
theorem staysClear_payload {mem mem' : Memory} {S : Nat → Prop} (hb : 16 ∣ b.toNat)
    (hu : IsBlock u) (hn : b.toNat ∉ u) (hc : ChangesWithin S mem mem') (hS : ∀ x, S x → x ∈ u) :
    StaysClear b mem mem' := by
  refine .of_changes hb hc fun x h₁ h₂ h₃ ↦ ?_
  have hx := hS x h₃
  have := hu.clear_of hb hn
  rw [Interval.mem_iff] at hx
  unfold Interval.hi at this
  omega

theorem staysClear_kcallocUnsafe {nelems elemsize : Word} (hb : 16 ∣ b.toNat)
    (hrep : Rep s fs us) (hsize : (nelems * elemsize).toNat + 31 < 2 ^ 32)
    (hfit : Fits s fs (blockSize (nelems * elemsize)))
    (h : kcallocUnsafe nelems elemsize s = .ok (q, s'))
    (hn : b.toNat ∉ (⟨q.toNat - 16, blockSize (nelems * elemsize)⟩ : Interval)) :
    StaysClear b s.mem s'.mem := by
  obtain ⟨-, hb₂, -⟩ := blockSize_bounds (nelems * elemsize)
  obtain ⟨⟨q', s₁⟩, h₁, h⟩ := bind_eq_ok.mp h
  cases h
  rcases kmallocUnsafe_spec hrep hsize hfit with ⟨he, -⟩ | ⟨q', s₁', hr, ha, -⟩
  · cases he.symm.trans h₁
  · cases hr.symm.trans h₁
    obtain ⟨fs₁, lo, hq, hrep₁, -⟩ := ha
    have hblk := hrep₁.partition.usedBlock _ List.mem_cons_self
    have bn := hblk.bounds
    have hlo : q.toNat - 16 = lo := by omega
    dsimp only at bn
    have hz := changesWithin_kcallocZero s₁.mem q (n := (nelems * elemsize).toNat) (by omega)
    refine (staysClear_kmallocUnsafe hb hrep hsize hfit h₁ hn).trans ?_
    rw [hlo] at hn
    refine staysClear_payload hb hblk hn hz fun x hx ↦ ?_
    rw [Interval.mem_iff]
    dsimp only
    omega

/-- What `_kfree_unsafe` does after the two assertions. -/
theorem kfreeUnsafe_clear {ptr : Word} (hb : 16 ∣ b.toNat) (hrep : Rep s fs (u :: us))
    (hptr : ptr.toNat = u.lo + 16) (h : kfreeUnsafe ptr s = .ok s') :
    StaysClear b (kmClearalloc s.mem (ptr - sizeofKmBlockHeader)) s'.mem := by
  have hblk := hrep.partition.usedBlock u List.mem_cons_self
  have bu := hblk.bounds
  obtain ⟨hne, hp, hh⟩ := hrep.block List.mem_cons_self hptr
  rw [kfreeUnsafe_eq hne hh] at h
  generalize ptr - sizeofKmBlockHeader = p at *
  have hdvd : 16 ∣ p.toNat := by
    rw [hp]
    exact hblk.lo_dvd
  have hc := changesWithin_metadata s.mem (kmMetadata s.mem p &&& ~~~KMALLOC_ALLOC_BIT)
    (add_sixteen_le hdvd)
  have hl : AlignedList (kmClearalloc s.mem p) s.freeList := by
    refine FreeSeg.alignedList (hrep.chain.congr_apart hc hrep.partition.freeBlock
      (fun x hx ↦ ?_) (hrep.partition.apart u List.mem_cons_self)) hrep.partition.freeBlock
    rw [Interval.mem_iff]
    omega
  have hinsert := staysClear_kmInsert hb hdvd h hl
  exact hinsert

theorem staysClear_kfreeUnsafe {ptr : Word} (hb : 16 ∣ b.toNat) (hrep : Rep s fs (u :: us))
    (hptr : ptr.toNat = u.lo + 16) (h : kfreeUnsafe ptr s = .ok s') :
    StaysClear b s.mem s'.mem := by
  have hdvd : 16 ∣ (ptr - sizeofKmBlockHeader).toNat := by
    rw [(hrep.block List.mem_cons_self hptr).2.1]
    exact (hrep.partition.usedBlock u List.mem_cons_self).lo_dvd
  exact (staysClear_kmClearalloc s.mem hb hdvd).trans (kfreeUnsafe_clear hb hrep hptr h)

/-- After `_kfree_unsafe` the alloc bit in the header of the block is clear. -/
theorem kmIsalloc_kfreeUnsafe {ptr : Word} (hrep : Rep s fs (u :: us))
    (hptr : ptr.toNat = u.lo + 16) (h : kfreeUnsafe ptr s = .ok s') :
    kmIsalloc s'.mem (ptr - sizeofKmBlockHeader) = false := by
  refine kfreeUnsafe_clear ?_ hrep hptr h (kmIsalloc_kmClearalloc _ _)
  rw [(hrep.block List.mem_cons_self hptr).2.1]
  exact (hrep.partition.usedBlock u List.mem_cons_self).lo_dvd

/-! ## `_krealloc_unsafe` -/

theorem staysClear_kreallocUnlink {r : Word} (hb : 16 ∣ b.toNat)
    (hl : AlignedList s.mem s.freeList) (h : kreallocUnlink r s = .ok s') :
    StaysClear b s.mem s'.mem := by
  unfold kreallocUnlink at h
  split at h
  · cases h
    exact .refl b _
  · obtain ⟨cur, hw, h⟩ := bind_eq_ok.mp h
    obtain ⟨_, hcur, h⟩ := bind_eq_ok.mp h
    cases h
    have hne : cur ≠ NULL := bne_iff_ne.mp (kernelAssert_eq_ok.mp hcur)
    have hfl : s.freeList = NULL ∨ OnList s.mem s.freeList s.freeList := by
      by_cases hn : s.freeList = NULL
      · exact .inl hn
      · exact .inr (.head hn)
    have hon := (kreallocWalk_onList hw hfl).resolve_left hne
    exact staysClear_kmSetnext _ _ hb (hl cur hon)

section

variable {ptr size : Word}

theorem staysClear_kreallocUnsafe_grow (hb : 16 ∣ b.toNat) (hrep : Rep s fs (u :: us))
    (hptr : ptr.toNat = u.lo + 16) (hsize0 : size ≠ 0) (hsize : size.toNat + 31 < 2 ^ 32)
    (hlt : u.len < blockSize size) {k : Interval} (hk : k ∈ fs) (hlo : k.lo = u.hi)
    (hle : blockSize size ≤ u.len + k.len) (h : kreallocUnsafe ptr size s = .ok (q, s')) :
    q = ptr ∧ StaysClear b s.mem s'.mem := by
  obtain ⟨-, hp, hh⟩ := hrep.block List.mem_cons_self hptr
  have ht := targetSize_toNat hsize
  obtain ⟨hb₁, hb₂, -⟩ := blockSize_bounds size
  obtain ⟨hn, -⟩ := kreallocNext_iff hrep hp hh (t := targetSize size)
  have hl := hrep.chain.alignedList hrep.partition.freeBlock
  rw [kreallocUnsafe_grow_eq hrep hptr hsize0 hsize hlt hk hlo hle] at h
  obtain ⟨s₁, h₁, h⟩ := bind_eq_ok.mp h
  obtain ⟨⟨p', s₂⟩, h₂, h⟩ := bind_eq_ok.mp h
  cases h
  obtain ⟨l, m, rfl⟩ := List.append_of_mem hk
  obtain ⟨mem₁, fl₁, hr₁, hheld, -⟩ := kreallocAbsorb_spec hrep hp (hn.trans hlo.symm) hlo.symm
  cases hr₁.symm.trans h₁
  have hpb : 16 ∣ (ptr - sizeofKmBlockHeader).toNat := by
    rw [hp]
    exact hheld.isBlock.lo_dvd
  have hunlink := staysClear_kreallocUnlink hb hl h₁
  have hgrow := staysClear_kmSetsize mem₁ hb hpb
    (dvd_toNat_add (kmGetsize_dvd mem₁ (ptr - sizeofKmBlockHeader)) (kmGetsize_dvd mem₁
      (ptr - sizeofKmBlockHeader + kmGetsize s.mem (ptr - sizeofKmBlockHeader))))
  have hsplit := staysClear_kmSplit hb hheld hp (by rwa [ht]) (by omega)
    (by dsimp only; omega) h₂
  exact ⟨BitVec.sub_add_cancel _ _, (hunlink.trans hgrow).trans hsplit⟩

theorem staysClear_kreallocUnsafe_keep (hb : 16 ∣ b.toNat) (hrep : Rep s fs (u :: us))
    (hptr : ptr.toNat = u.lo + 16) (hsize0 : size ≠ 0) (hsize : size.toNat + 31 < 2 ^ 32)
    (hle : blockSize size ≤ u.len) (h : kreallocUnsafe ptr size s = .ok (q, s')) :
    q = ptr ∧ StaysClear b s.mem s'.mem := by
  obtain ⟨-, hp, -⟩ := hrep.block List.mem_cons_self hptr
  have ht := targetSize_toNat hsize
  obtain ⟨hb₁, hb₂, -⟩ := blockSize_bounds size
  rw [kreallocUnsafe_keep_eq hrep hptr hsize0 hsize hle] at h
  obtain ⟨⟨p', s₂⟩, h₂, h⟩ := bind_eq_ok.mp h
  cases h
  have hsplit := staysClear_kmSplit hb hrep.hold hp (by rwa [ht]) (by omega) (by omega) h₂
  obtain ⟨mem', fl', hr, -⟩ := kmSplit_held hrep.hold hp (t := targetSize size) (by rwa [ht])
    (by omega) (by omega)
  cases hr.symm.trans h₂
  exact ⟨BitVec.sub_add_cancel _ _, hsplit⟩

/-- A block that moves: its own header is cleared as well. -/
theorem staysClear_kreallocUnsafe_move (hb : 16 ∣ b.toNat) (hrep : Rep s fs (u :: us))
    (hptr : ptr.toNat = u.lo + 16) (hsize0 : size ≠ 0) (hsize : size.toNat + 31 < 2 ^ 32)
    (hlt : u.len < blockSize size)
    (hno : ¬ ∃ k ∈ fs, k.lo = u.hi ∧ blockSize size ≤ u.len + k.len)
    (hfit : Fits s fs (blockSize size)) (h : kreallocUnsafe ptr size s = .ok (q, s')) :
    kmIsalloc s'.mem (ptr - sizeofKmBlockHeader) = false ∧
      (b.toNat ∉ (⟨q.toNat - 16, blockSize size⟩ : Interval) → StaysClear b s.mem s'.mem) := by
  rw [kreallocUnsafe_move_eq hrep hptr hsize0 hsize hlt hno] at h
  obtain ⟨⟨q', s₁⟩, h₁, h⟩ := bind_eq_ok.mp h
  rcases kmallocUnsafe_spec hrep hsize hfit with
    ⟨he, -⟩ | ⟨q', s₁', hr₁, ⟨fs₁, lo, hq, hrep₁, -⟩, -⟩
  · cases he.symm.trans h₁
  · cases hr₁.symm.trans h₁
    obtain ⟨mem₂, hr₂, hrep₂, hc₂, -⟩ := hrep₁.kreallocCopy hptr hq (Nat.le_of_lt hlt)
    have hq0 := ne_null_of_toNat hq
    dsimp only at h
    rw [if_neg hq0, hr₂, ok_bind] at h
    obtain ⟨s₃, h₃, h⟩ := bind_eq_ok.mp h
    cases h
    have hrep₃ := hrep₂.perm (List.Perm.swap u ⟨lo, blockSize size⟩ us)
    refine ⟨kmIsalloc_kfreeUnsafe hrep₃ hptr h₃, fun hn ↦ ?_⟩
    have hblk := hrep₁.partition.usedBlock _ List.mem_cons_self
    have hlo : q.toNat - 16 = lo := by omega
    have halloc := staysClear_kmallocUnsafe hb hrep hsize hfit h₁ hn
    rw [hlo] at hn
    have hcopy := staysClear_payload hb hblk hn hc₂ fun x hx ↦ by
      rw [Interval.mem_iff]
      dsimp only
      omega
    have hfree := staysClear_kfreeUnsafe hb hrep₃ hptr h₃
    exact (halloc.trans hcopy).trans hfree

/-- The header of the block is cleared if the block moves, and no other one is set. -/
theorem staysClear_kreallocUnsafe (hb : 16 ∣ b.toNat) (hrep : Rep s fs (u :: us))
    (hptr : ptr.toNat = u.lo + 16) (hsize0 : size ≠ 0) (hsize : size.toNat + 31 < 2 ^ 32)
    (hfit : ReallocFits s fs u (blockSize size)) (h : kreallocUnsafe ptr size s = .ok (q, s')) :
    (q = ptr ∨ kmIsalloc s'.mem (ptr - sizeofKmBlockHeader) = false) ∧
      (b.toNat ∉ (⟨q.toNat - 16, blockSize size⟩ : Interval) → StaysClear b s.mem s'.mem) := by
  by_cases hle : blockSize size ≤ u.len
  · have := staysClear_kreallocUnsafe_keep hb hrep hptr hsize0 hsize hle h
    exact ⟨.inl this.1, fun _ ↦ this.2⟩
  · have hlt := Nat.lt_of_not_le hle
    by_cases hnext : ∃ k ∈ fs, k.lo = u.hi ∧ blockSize size ≤ u.len + k.len
    · obtain ⟨k, hk, hlo, hlen⟩ := hnext
      have := staysClear_kreallocUnsafe_grow hb hrep hptr hsize0 hsize hlt hk hlo hlen h
      exact ⟨.inl this.1, fun _ ↦ this.2⟩
    · have := staysClear_kreallocUnsafe_move hb hrep hptr hsize0 hsize hlt hnext
        ((hfit.resolve_left hle).resolve_left hnext) h
      exact ⟨.inr this.1, this.2⟩

end

end

/-! ## One call -/

section

variable {σ σ' : Session} {c : Call} {b q ptr size : Word} {fs us : List Interval}

theorem Allocates.extent_eq {s s' : State} {n : Nat} {S : State → Nat → Prop}
    (h : Allocates s us n S q s') :
    q ≠ NULL ∧ extent s'.mem q = (⟨q.toNat - 16, n⟩ : Interval) := by
  obtain ⟨fs', lo, hq, hrep, -⟩ := h
  refine ⟨ne_null_of_toNat hq, ?_⟩
  rw [hrep.extent_eq List.mem_cons_self hq, hq, Nat.add_sub_cancel]

theorem Inv.staysClear_kmallocUnsafe {s' : State} (hb : 16 ∣ b.toNat) (hi : Inv σ fs us)
    (hw : NoWrap σ.heap size) (h : kmallocUnsafe size σ.heap = .ok (q, s'))
    (hn : q ≠ NULL → b.toNat ∉ extent s'.mem q) : StaysClear b σ.heap.mem s'.mem := by
  rcases hw with ⟨hsize, hc⟩ | hr
  · have hfit := hi.rep.fits hc
    rcases kmallocUnsafe_spec hi.rep hsize hfit with ⟨he, -⟩ | ⟨q', s₁, hr, ha, -⟩
    · cases he.symm.trans h
    · cases hr.symm.trans h
      obtain ⟨hq0, he⟩ := ha.extent_eq
      rw [he] at hn
      exact Heap.staysClear_kmallocUnsafe hb hi.rep hsize hfit h (hn hq0)
  · cases (kmallocUnsafe_refused hr).symm.trans h

theorem Inv.staysClear_kcallocUnsafe {nelems elemsize : Word} {s' : State} (hb : 16 ∣ b.toNat)
    (hi : Inv σ fs us) (hw : NoWrap σ.heap (nelems * elemsize))
    (h : kcallocUnsafe nelems elemsize σ.heap = .ok (q, s'))
    (hn : q ≠ NULL → b.toNat ∉ extent s'.mem q) : StaysClear b σ.heap.mem s'.mem := by
  rcases hw with ⟨hsize, hc⟩ | hr
  · have hfit := hi.rep.fits hc
    rcases kcallocUnsafe_spec hi.rep hsize hfit with ⟨he, -⟩ | ⟨q', -, s₁, -, -, hr, ha, -⟩
    · cases he.symm.trans h
    · cases hr.symm.trans h
      obtain ⟨hq0, he⟩ := ha.extent_eq
      rw [he] at hn
      exact Heap.staysClear_kcallocUnsafe hb hi.rep hsize hfit h (hn hq0)
  · obtain ⟨r, hm, -⟩ := bind_eq_ok.mp h
    cases (kmallocUnsafe_refused hr).symm.trans hm

theorem Inv.staysClear_kfreeUnsafe {s' : State} (hb : 16 ∣ b.toNat) (hi : Inv σ fs us)
    (ha : ∃ a ∈ σ.live, a.ptr = ptr) (h : kfreeUnsafe ptr σ.heap = .ok s') :
    kmIsalloc s'.mem (ptr - sizeofKmBlockHeader) = false ∧
      StaysClear b σ.heap.mem s'.mem := by
  obtain ⟨u, us', hrep, -, hptr, -⟩ := hi.focus ha
  exact ⟨kmIsalloc_kfreeUnsafe hrep hptr h, Heap.staysClear_kfreeUnsafe hb hrep hptr h⟩

theorem Inv.staysClear_kreallocUnsafe {s' : State} (hb : 16 ∣ b.toNat) (hi : Inv σ fs us)
    (ha : ∃ a ∈ σ.live, a.ptr = ptr) (hsize : size ≠ 0) (hw : NoWrapRealloc σ.heap ptr size)
    (h : kreallocUnsafe ptr size σ.heap = .ok (q, s')) :
    q ≠ NULL ∧ (q = ptr ∨ kmIsalloc s'.mem (ptr - sizeofKmBlockHeader) = false) ∧
      (b.toNat ∉ extent s'.mem q → StaysClear b σ.heap.mem s'.mem) := by
  obtain ⟨u, us', hrep, -, hptr, -⟩ := hi.focus ha
  have hfit := hrep.reallocFits hptr hw
  rcases kreallocUnsafe_spec hrep hptr hsize hw.1 hfit with he | ⟨q', s₁, hr, hre⟩
  · cases he.symm.trans h
  · cases hr.symm.trans h
    obtain ⟨hq0, he⟩ := hre.allocates.extent_eq
    rw [he]
    exact ⟨hq0, Heap.staysClear_kreallocUnsafe hb hrep hptr hsize hw.1 hfit h⟩

/-- The block of the pointer that was just returned is live. -/
theorem not_mem_extent_of_record {mem : Memory} {n x : Nat} {live : List Alloc}
    (hn : ∀ a ∈ record q n live, x ∉ extent mem a.ptr) (hq : q ≠ NULL) : x ∉ extent mem q := by
  rw [record, if_neg hq] at hn
  exact hn ⟨q, n⟩ List.mem_cons_self

/-- The step lemma: a call sets the alloc bit of no header outside of the blocks it leaves live. -/
theorem Call.exec_staysClear (hb : 16 ∣ b.toNat) (hi : Inv σ fs us) (ha : c.Admissible σ)
    (hw : c.NoWrap σ) (hex : c.exec σ = .ok (q, σ'))
    (hn : ∀ a ∈ σ'.live, b.toNat ∉ extent σ'.heap.mem a.ptr) :
    StaysClear b σ.heap.mem σ'.heap.mem := by
  cases c with
  | kmalloc size =>
    obtain ⟨⟨q', s'⟩, h, hex⟩ := bind_eq_ok.mp hex
    cases hex
    exact hi.staysClear_kmallocUnsafe hb hw h (not_mem_extent_of_record hn)
  | kcalloc nelems elemsize =>
    obtain ⟨⟨q', s'⟩, h, hex⟩ := bind_eq_ok.mp hex
    cases hex
    exact hi.staysClear_kcallocUnsafe hb hw h (not_mem_extent_of_record hn)
  | krealloc ptr size =>
    obtain ⟨⟨q', s'⟩, h, hex⟩ := bind_eq_ok.mp hex
    by_cases hp : ptr = NULL
    · subst hp
      simp only [NoWrap, if_true] at hw
      rw [kreallocUnsafe, if_pos rfl] at h
      have hin : q' ≠ NULL → b.toNat ∉ extent s'.mem q' := fun hq ↦ by
        dsimp only at hex
        rw [if_neg (fun hc ↦ hq hc.1)] at hex
        cases hex
        exact not_mem_extent_of_record hn hq
      have hmem : σ'.heap = s' := by
        dsimp only at hex
        split at hex <;> cases hex <;> rfl
      rw [hmem]
      exact hi.staysClear_kmallocUnsafe hb hw h hin
    · simp only [NoWrap, if_neg hp] at hw
      have hlive := ha.resolve_left hp
      by_cases hs0 : size = 0
      · rw [kreallocUnsafe, if_neg hp, if_pos hs0] at h
        obtain ⟨s₁, h, hr⟩ := bind_eq_ok.mp h
        cases hr
        have hclear := (hi.staysClear_kfreeUnsafe hb hlive h).2
        dsimp only at hex
        rw [if_neg (fun hc ↦ hc.2 hs0)] at hex
        cases hex
        exact hclear
      · obtain ⟨hq0, -, hclear⟩ :=
          hi.staysClear_kreallocUnsafe hb hlive hs0 (hw.resolve_left hs0) h
        dsimp only at hex
        rw [if_neg (fun hc ↦ hq0 hc.1)] at hex
        cases hex
        exact hclear (not_mem_extent_of_record hn hq0)
  | kfree ptr =>
    obtain ⟨s', h, hex⟩ := bind_eq_ok.mp hex
    cases hex
    rcases ha with rfl | ha
    · cases h
      exact .refl b _
    · exact (hi.staysClear_kfreeUnsafe hb ha h).2
  | write addr value =>
    have hi' := hi.write value ha
    cases hex
    obtain ⟨a, hlive, hlo, hhi⟩ := ha
    obtain ⟨u, hu, hptr, -⟩ := hi.serves_of_live hlive
    have hout := hn a hlive
    rw [hi'.rep.extent_eq hu hptr] at hout
    rw [hi.rep.extent_eq hu hptr] at hhi
    refine staysClear_payload hb (hi.rep.partition.usedBlock u hu) hout
      (S := fun x ↦ x = addr.toNat) (fun x hx ↦ writeByte_other _ fun he ↦ hx (by rw [he])) ?_
    rintro x rfl
    rw [Interval.mem_iff]
    unfold Interval.hi at hhi
    omega

end

/-! ## Runs -/

/-- The call frees the block behind `ptr` or moves it to `q`. -/
def Call.GivesBack (ptr q : Word) (c : Call) : Prop :=
  c = .kfree ptr ∨ q ≠ ptr ∧ ∃ size, c = .krealloc ptr size

/-- No live block contains the header in front of `ptr`. -/
def Uncovered (ptr : Word) (σ : Session) : Prop :=
  ∀ a ∈ σ.live, (ptr - sizeofKmBlockHeader).toNat ∉ extent σ.heap.mem a.ptr

/-- `ptr` was given back on the way to the session, and in no state since then has a live block
contained its header. -/
inductive Stale (P : Session → Call → Prop) (s : State) (ptr : Word) : Session → Prop where
  | givenBack {σ σ' : Session} {c : Call} {q : Word} :
      Reachable P s σ → ptr ≠ NULL → P σ c → c.GivesBack ptr q → c.exec σ = .ok (q, σ') →
      Stale P s ptr σ'
  | step {σ σ' : Session} {c : Call} {q : Word} :
      Stale P s ptr σ → P σ c → c.exec σ = .ok (q, σ') → Uncovered ptr σ' → Stale P s ptr σ'

theorem Stale.reachable {P : Session → Call → Prop} {s : State} {ptr : Word} {σ : Session}
    (h : Stale P s ptr σ) : Reachable P s σ := by
  induction h with
  | givenBack hr _ hp _ hex => exact .step hr hp hex
  | step _ hp hex _ ih => exact .step ih hp hex

theorem Stale.ne_null {P : Session → Call → Prop} {s : State} {ptr : Word} {σ : Session}
    (h : Stale P s ptr σ) : ptr ≠ NULL := by
  induction h with
  | givenBack _ hne _ _ _ => exact hne
  | step _ _ _ _ ih => exact ih

/-- The call that gives a block back clears the alloc bit in its header. -/
theorem Call.exec_givesBack {σ σ' : Session} {c : Call} {ptr q : Word} {fs us : List Interval}
    (hi : Inv σ fs us) (ha : c.Admissible σ) (hw : c.NoWrap σ) (hne : ptr ≠ NULL)
    (hc : c.GivesBack ptr q) (hex : c.exec σ = .ok (q, σ')) :
    16 ∣ (ptr - sizeofKmBlockHeader).toNat ∧
      kmIsalloc σ'.heap.mem (ptr - sizeofKmBlockHeader) = false := by
  have hdvd : (∃ a ∈ σ.live, a.ptr = ptr) → 16 ∣ (ptr - sizeofKmBlockHeader).toNat := by
    intro hlive
    obtain ⟨u, us', hrep, -, hptr, -⟩ := hi.focus hlive
    rw [(hrep.block List.mem_cons_self hptr).2.1]
    exact (hrep.partition.usedBlock u List.mem_cons_self).lo_dvd
  rcases hc with rfl | ⟨hq, size, rfl⟩
  · have hlive := ha.resolve_left hne
    obtain ⟨s', h, hex⟩ := bind_eq_ok.mp hex
    cases hex
    exact ⟨hdvd hlive, (hi.staysClear_kfreeUnsafe (hdvd hlive) hlive h).1⟩
  · have hlive := ha.resolve_left hne
    refine ⟨hdvd hlive, ?_⟩
    simp only [NoWrap, if_neg hne] at hw
    obtain ⟨⟨q', s'⟩, h, hex⟩ := bind_eq_ok.mp hex
    by_cases hs0 : size = 0
    · rw [kreallocUnsafe, if_neg hne, if_pos hs0] at h
      obtain ⟨s₁, h, hr⟩ := bind_eq_ok.mp h
      cases hr
      have hfree := (hi.staysClear_kfreeUnsafe (hdvd hlive) hlive h).1
      dsimp only at hex
      rw [if_neg (fun hc ↦ hc.2 hs0)] at hex
      cases hex
      exact hfree
    · obtain ⟨hq0, hmove, -⟩ :=
        hi.staysClear_kreallocUnsafe (hdvd hlive) hlive hs0 (hw.resolve_left hs0) h
      dsimp only at hex
      rw [if_neg (fun hc ↦ hq0 hc.1)] at hex
      cases hex
      exact hmove.resolve_left hq

/-- The assertions with which the two functions begin. -/
def kfreeAsserts : List String := ["kfree() - Bad pointer.", "kfree() - Unallocated memory."]

def kreallocAsserts : List String :=
  ["krealloc() - Bad pointer.", "krealloc() - Unallocated memory."]

/-- The call panics on one of `asserts`, with the heap as the call found it. -/
def RejectedBy {α : Type} (asserts : List String) (call : HeapM α) (s : State) : Prop :=
  ∃ message ∈ asserts, call s = .error (.panic message) s

def PanicsOn {α : Type} (asserts : List String) (r : Except Halt α) : Prop :=
  ∃ message ∈ asserts, r = .error (.panic message)

theorem RejectedBy.panicsOn {α : Type} {asserts : List String} {call : HeapM α} {s : State}
    (h : RejectedBy asserts call s) : PanicsOn asserts (forgetHeap (call s)) := by
  obtain ⟨message, hm, he⟩ := h
  exact ⟨message, hm, by rw [he]; rfl⟩

/-- `_kfree_unsafe` and, for every size, `_krealloc_unsafe` panic on an assertion of theirs, which
they reach with the heap unchanged. -/
def Rejected (ptr : Word) (s : State) : Prop :=
  (RejectedBy kfreeAsserts (kfreeUnsafeM ptr) s ∧ PanicsOn kfreeAsserts (kfreeUnsafe ptr s)) ∧
    ∀ size,
      RejectedBy (if size = 0 then kfreeAsserts else kreallocAsserts) (kreallocUnsafeM ptr size) s ∧
        PanicsOn (if size = 0 then kfreeAsserts else kreallocAsserts) (kreallocUnsafe ptr size s)

/-- Both functions ask for the magic number first and then for the alloc bit. -/
theorem rejectedBy_of_clear {α : Type} {s : State} {block : Word} (m₁ m₂ : String)
    (f : Unit → HeapM α) (h : kmIsalloc s.mem block = false) :
    RejectedBy [m₁, m₂] (assertM (kmCheckmagic · block) m₁ >>= fun _ ↦
      assertM (kmIsalloc · block) m₂ >>= f) s := by
  cases hm : kmCheckmagic s.mem block with
  | false => exact ⟨m₁, List.mem_cons_self, assertM_bind_of_false m₁ _ hm⟩
  | true =>
    refine ⟨m₂, List.mem_cons_of_mem _ List.mem_cons_self, ?_⟩
    rw [assertM_bind_of_true m₁ _ hm]
    exact assertM_bind_of_false m₂ f h

section

variable {s : State} {ptr : Word}

theorem kfreeUnsafe_rejected (hne : ptr ≠ NULL)
    (h : kmIsalloc s.mem (ptr - sizeofKmBlockHeader) = false) :
    RejectedBy kfreeAsserts (kfreeUnsafeM ptr) s ∧ PanicsOn kfreeAsserts (kfreeUnsafe ptr s) := by
  have hrej : RejectedBy kfreeAsserts (kfreeUnsafeM ptr) s := by
    unfold kfreeUnsafeM kfreeAsserts
    rw [if_neg hne]
    exact rejectedBy_of_clear _ _ _ h
  refine ⟨hrej, ?_⟩
  obtain ⟨message, hm, he⟩ := hrej.panicsOn
  rw [forgetHeap_kfreeUnsafeM] at he
  refine ⟨message, hm, ?_⟩
  cases hr : kfreeUnsafe ptr s with
  | error e =>
    rw [hr] at he
    exact congrArg Except.error (Except.error.inj he)
  | ok s' =>
    rw [hr] at he
    cases he

theorem kreallocUnsafe_rejected (size : Word) (hne : ptr ≠ NULL)
    (h : kmIsalloc s.mem (ptr - sizeofKmBlockHeader) = false) :
    RejectedBy (if size = 0 then kfreeAsserts else kreallocAsserts) (kreallocUnsafeM ptr size) s ∧
      PanicsOn (if size = 0 then kfreeAsserts else kreallocAsserts) (kreallocUnsafe ptr size s) := by
  have hrej : RejectedBy (if size = 0 then kfreeAsserts else kreallocAsserts)
      (kreallocUnsafeM ptr size) s := by
    unfold kreallocUnsafeM
    rw [if_neg hne]
    by_cases hs0 : size = 0
    · rw [if_pos hs0, if_pos hs0]
      obtain ⟨message, hm, he⟩ := (kfreeUnsafe_rejected hne h).1
      refine ⟨message, hm, ?_⟩
      change EStateM.bind _ _ s = _
      unfold EStateM.bind
      rw [he]
    · rw [if_neg hs0, if_neg hs0]
      exact rejectedBy_of_clear _ _ _ h
  refine ⟨hrej, ?_⟩
  rw [← forgetHeap_kreallocUnsafeM]
  exact hrej.panicsOn

end

/-- The run lemma: as long as no live block contains the header of a stale pointer, its alloc bit
is clear. -/
theorem Stale.clear {mbinfo : MultibootInfo} {kernelEnd ptr : Word} {ie : Bool} {mem : Memory}
    {s : State} {σ : Session} (hpos : 0 < kernelEnd.toNat)
    (hinit : kmallocInit mbinfo kernelEnd ie (boot mem) = .ok s)
    (hmax : s.kheapMaxEnd.toNat ≤ 2 ^ 31) (h : Stale Call.Bounded s ptr σ) :
    16 ∣ (ptr - sizeofKmBlockHeader).toNat ∧
      kmIsalloc σ.heap.mem (ptr - sizeofKmBlockHeader) = false := by
  induction h with
  | givenBack hr hne hc hback hex =>
    obtain ⟨⟨fs, us, hi⟩, hend, -⟩ := hr.inv_of_bounded hpos hinit hmax
    exact Call.exec_givesBack hi hc.1 (hc.noWrap hend) hne hback hex
  | step hst hc hex hout ih =>
    obtain ⟨⟨fs, us, hi⟩, hend, -⟩ := hst.reachable.inv_of_bounded hpos hinit hmax
    exact ⟨ih.1, Call.exec_staysClear ih.1 hi hc.1 (hc.noWrap hend) hex hout ih.2⟩

/-- A pointer that was given back is refused by `_kfree_unsafe` and by `_krealloc_unsafe` for every
size, before either changes anything, until a live block contains its header again. -/
theorem stale_rejected {mbinfo : MultibootInfo} {kernelEnd ptr : Word} {ie : Bool} {mem : Memory}
    {s : State} {σ : Session} (hpos : 0 < kernelEnd.toNat)
    (hinit : kmallocInit mbinfo kernelEnd ie (boot mem) = .ok s)
    (hmax : s.kheapMaxEnd.toNat ≤ 2 ^ 31) (h : Stale Call.Bounded s ptr σ) :
    Rejected ptr σ.heap := by
  have hclear := (h.clear hpos hinit hmax).2
  exact ⟨kfreeUnsafe_rejected h.ne_null hclear,
    fun size ↦ kreallocUnsafe_rejected size h.ne_null hclear⟩

/-- A block of 100 bytes is freed and merged with the rest of the heap.  Then 20000 bytes are
allocated behind it, and the pointer to the first block is still stale. -/
theorem stale_rejected_oneRegion :
    ∃ s ptr σ₁ q₂ σ₂ q₃ σ₃, oneRegionHeap = .ok s ∧
      (Call.kmalloc 100).exec ⟨s, []⟩ = .ok (ptr, σ₁) ∧
      (Call.kfree ptr).exec σ₁ = .ok (q₂, σ₂) ∧ (Call.kmalloc 20000).exec σ₂ = .ok (q₃, σ₃) ∧
      Rejected ptr σ₃.heap := by
  obtain ⟨s, hs, hp⟩ := oneRegionHeap_ok
  obtain ⟨⟨⟨ptr, σ₁⟩, q₃, σ₃⟩, hex, hb⟩ := exists_ok
    (x := oneRegionHeap >>= fun s ↦ (Call.kmalloc 100).exec ⟨s, []⟩ >>= fun r₁ ↦
      (Call.kfree r₁.1).exec r₁.2 >>= fun r₂ ↦ (Call.kmalloc 20000).exec r₂.2 >>= fun r₃ ↦
        .ok (r₁, r₃))
    (p := fun r ↦ decide (r.1.1 ≠ NULL ∧ (∃ a ∈ r.1.2.live, a.ptr = r.1.1) ∧
      ∀ a ∈ r.2.2.live, (r.1.1 - sizeofKmBlockHeader).toNat ∉ extent r.2.2.heap.mem a.ptr))
    (by decide +kernel)
  obtain ⟨hne, hlive, hout⟩ := of_decide_eq_true hb
  obtain ⟨s', hs', hex⟩ := bind_eq_ok.mp hex
  obtain rfl : s = s' := Except.ok.inj (hs.symm.trans hs')
  obtain ⟨r₁, hex₁, hex⟩ := bind_eq_ok.mp hex
  obtain ⟨⟨q₂, σ₂⟩, hex₂, hex⟩ := bind_eq_ok.mp hex
  obtain ⟨r₃, hex₃, hex⟩ := bind_eq_ok.mp hex
  obtain ⟨rfl, rfl⟩ := Prod.mk.inj (Except.ok.inj hex)
  have h₁ : (Call.kmalloc 100).Bounded ⟨s, []⟩ := ⟨trivial, by decide⟩
  have h₂ : (Call.kfree ptr).Bounded σ₁ := ⟨.inr hlive, Nat.zero_le _⟩
  have h₃ : (Call.kmalloc 20000).Bounded σ₂ := ⟨trivial, by decide⟩
  have hst : Stale Call.Bounded s ptr σ₃ :=
    .step (.givenBack (.step .start h₁ hex₁) hne h₂ (.inl rfl) hex₂) h₃ hex₃ hout
  exact ⟨s, ptr, σ₁, q₂, σ₂, q₃, σ₃, hs, hex₁, hex₂, hex₃,
    stale_rejected (by decide) hs (of_decide_eq_true hp).1 hst⟩

end AlienOS.Heap
