import AlienOS.Heap.Alloc

/-!
# Realloc — `_krealloc_unsafe` on a represented heap

The exits of `_krealloc_unsafe` for a live block: it keeps the block and splits it, absorbs the
free block that follows, or moves to a new block, copies and frees the old one.
-/

open AlienOS.Lib

namespace AlienOS.Heap

/-! ## Absorbing the next block -/

theorem kreallocWalk_spec {mem : Memory} {p r : Word} {i : Interval} {l : List Interval}
    (fuel : Nat) (h : FreeSeg mem p (i :: l) r) (hs : Separated (i :: l))
    (hlt : ∀ j ∈ i :: l, j.lo < r.toNat) (hfuel : l.length < fuel) :
    ∃ l' j last, i :: l = l' ++ [j] ∧ kreallocWalk mem r fuel p = .ok last ∧
      FreeSeg mem p l' last ∧ FreeSeg mem last [j] r := by
  induction l generalizing p i fuel with
  | nil =>
    obtain ⟨fuel, rfl⟩ : ∃ f, fuel = f + 1 := ⟨fuel - 1, by omega⟩
    refine ⟨[], i, p, rfl, ?_, rfl, h⟩
    rw [kreallocWalk, if_neg (fun hc ↦ hc.2 h.2.2.2)]
  | cons j l ih =>
    obtain ⟨fuel, rfl⟩ : ∃ f, fuel = f + 1 := ⟨fuel - 1, by omega⟩
    have hj : FreeSeg mem (kmNext mem p) (j :: l) r := h.2.2.2
    have hne : kmNext mem p ≠ r := by
      intro he
      have := hlt j (by simp)
      rw [← hj.2.1, he] at this
      exact Nat.lt_irrefl _ this
    obtain ⟨l', k, last, he, hw, h₁, h₂⟩ := ih fuel hj hs.tail
      (fun k hk ↦ hlt k (List.mem_cons_of_mem _ hk)) (Nat.lt_of_succ_lt_succ hfuel)
    refine ⟨i :: l', k, last, by rw [he]; rfl, ?_, ⟨h.1, h.2.1, h.2.2.1, h₁⟩, h₂⟩
    rw [kreallocWalk, if_pos ⟨h.1, hne⟩, hw]

theorem kreallocUnlink_spec {s : State} {r : Word} {l m : List Interval} {k : Interval}
    (h : FreeSeg s.mem s.freeList (l ++ k :: m) NULL) (hs : Separated (l ++ k :: m))
    (hb : ∀ j ∈ l ++ k :: m, IsBlock j) (hr : r.toNat = k.lo) :
    ∃ mem' fl', kreallocUnlink r s = .ok { s with mem := mem', freeList := fl' } ∧
      FreeSeg mem' fl' (l ++ m) NULL ∧ ChangesWithin (Covers l) s.mem mem' := by
  obtain ⟨r', h₁, h₂⟩ := freeSeg_append.mp h
  obtain rfl : r' = r := BitVec.toNat_inj.mp (h₂.2.1.trans hr.symm)
  rw [kreallocUnlink]
  cases l with
  | nil =>
    rw [if_pos (show s.freeList = r' from h₁)]
    exact ⟨s.mem, _, rfl, h₂.2.2.2, .refl _ _⟩
  | cons i l =>
    have hlt : ∀ j ∈ i :: l, j.lo < r'.toNat := fun j hj ↦ by
      have := hs.append.2.2 j hj k (by simp)
      simp only [Interval.hi] at this
      omega
    have hne : s.freeList ≠ r' := by
      intro he
      have := hlt i (by simp)
      rw [← h₁.2.1, he] at this
      exact Nat.lt_irrefl _ this
    obtain ⟨l', j, last, he, hw, g₁, g₂⟩ := kreallocWalk_spec walkLimit h₁ hs.append.1
      hlt (by
        have := freeList_length_lt hs.append.1 fun j hj ↦ hb j (by simp only [List.mem_append]; tauto)
        simp only [List.length_cons] at this
        omega)
    have he' : i :: l ++ k :: m = l' ++ j :: k :: m := by rw [he, List.append_assoc]; rfl
    have hj := (hb j (by rw [he']; simp)).bounds
    have hjl := g₂.2.1
    refine ⟨kmSetnext s.mem last (kmNext s.mem r'), s.freeList, ?_, ?_, ?_⟩
    · rw [if_neg hne, hw]
      simp only [bind, Except.bind, bne_iff_ne, ne_eq, kernelAssert, g₂.1, not_false_eq_true,
        if_true]
    · rw [he, List.append_assoc]
      exact g₁.unlink g₂ h₂ (he' ▸ hs) (he' ▸ hb)
    · refine (changesWithin_kmSetnext _ _ (by omega)).mono fun x hx ↦
        ⟨j, by rw [he]; simp, Interval.mem_iff.mpr (by omega)⟩

/-- Unlink the free block behind the used block `u` and add its size to the header of `u`. -/
theorem kreallocAbsorb_spec {s : State} {b r : Word} {l m us : List Interval} {u k : Interval}
    (h : Rep s (l ++ k :: m) (u :: us)) (hb : b.toNat = u.lo) (hr : r.toNat = k.lo)
    (ht : u.hi = k.lo) :
    ∃ mem' fl', kreallocUnlink r s = .ok { s with mem := mem', freeList := fl' } ∧
      Held { s with
          mem := kmSetsize mem' b (kmGetsize mem' b + kmGetsize mem' r)
          freeList := fl' } (l ++ m) us ⟨u.lo, u.len + k.len⟩ true ∧
      ChangesWithin (fun x ↦ (u.lo ≤ x ∧ x < u.lo + 4) ∨ Covers (l ++ k :: m) x) s.mem
        (kmSetsize mem' b (kmGetsize mem' b + kmGetsize mem' r)) := by
  have hp := h.partition
  have hp' := hp.grow ht
  have bu := (hp.usedBlock u List.mem_cons_self).bounds
  have bk := (hp.freeBlock k (by simp)).bounds
  have hblk := hp'.usedBlock _ List.mem_cons_self
  have bg := hblk.bounds
  dsimp only at bg
  obtain ⟨mem', fl', hrun, hf, hc⟩ := kreallocUnlink_spec h.chain hp.separated hp.freeBlock hr
  have hb16 : b.toNat + 16 ≤ 2 ^ 32 := by omega
  have hcl : ∀ x, Covers l x → Covers (l ++ k :: m) x := fun x hx ↦ by simp [hx]
  have hou : HeaderAt mem' b u.len true := by
    rw [← ofNat_toNat_eq hb]
    exact (h.header u List.mem_cons_self).congr_block (hp.usedBlock u List.mem_cons_self) hc
      fun x hx hx' ↦ hp.not_free_of_used List.mem_cons_self hx (hcl x hx')
  have hok : (kmGetsize mem' r).toNat = k.len := by
    obtain ⟨r', -, h₂⟩ := freeSeg_append.mp h.chain
    obtain rfl : r' = r := BitVec.toNat_inj.mp (h₂.2.1.trans hr.symm)
    have hk : HeaderAt s.mem (BitVec.ofNat 32 k.lo) k.len false := by
      rw [ofNat_toNat_eq hr]
      exact h₂.2.2.1
    have := hk.congr_block (hp.freeBlock k (by simp)) hc fun x hx ⟨j, hj, hx'⟩ ↦ by
      have := hp.separated.append.2.2 j hj k (by simp)
      simp only [Interval.mem_iff, Interval.hi] at *
      omega
    rw [ofNat_toNat_eq hr] at this
    exact this.size
  have hsum : (kmGetsize mem' b + kmGetsize mem' r).toNat = u.len + k.len := by
    rw [BitVec.toNat_add, hou.size, hok, Nat.mod_eq_of_lt (by omega)]
  have hc₂ := changesWithin_metadata mem'
    ((kmMetadata mem' b &&& 0b1111) ||| (kmGetsize mem' b + kmGetsize mem' r)) hb16
  have hin : ∀ x, b.toNat ≤ x ∧ x < b.toNat + 4 → x ∈ u :=
    fun x hx ↦ Interval.mem_iff.mpr (by omega)
  have hcw := (hc.mono (T := fun x ↦ (u.lo ≤ x ∧ x < u.lo + 4) ∨ Covers (l ++ k :: m) x)
    fun x hx ↦ .inr (hcl x hx)).trans (hc₂.mono fun x hx ↦ .inl (by omega))
  refine ⟨mem', fl', hrun, ⟨?_, fun v hv ↦ ?_, ?_, hp', h.bounds⟩, hcw⟩
  · refine hf.congr hc₂ hp'.freeBlock fun j hj x h₁ h₂ h₃ ↦ ?_
    have hj' := (hp'.freeBlock j hj).bounds
    refine (hp'.apart _ List.mem_cons_self j hj).not_mem (x := x) ?_
      (Interval.mem_iff.mpr (by omega))
    have := hin x h₃
    simp only [Interval.mem_iff] at this ⊢
    omega
  · refine (h.header v (List.mem_cons_of_mem _ hv)).congr_block
      (hp.usedBlock v (List.mem_cons_of_mem _ hv)) hcw fun x hx hS ↦ ?_
    rcases hS with hS | hS
    · exact hp.not_mem_of_used hv hx (hin x (by omega))
    · exact hp.not_free_of_used (List.mem_cons_of_mem _ hv) hx hS
  · dsimp only
    rw [ofNat_toNat_eq hb, ← hsum]
    exact hou.kmSetsize _ (by rw [hsum]; exact hblk.len_dvd) hb16

/-! ## Copying -/

theorem HeaderAt.payloadSize {mem : Memory} {block : Word} {n : Nat} {used : Bool}
    (h : HeaderAt mem block (n + 16) used) :
    (kmGetsize mem block - sizeofKmBlockHeader).toNat = n := by
  have h16 : sizeofKmBlockHeader.toNat = 16 := rfl
  rw [BitVec.toNat_sub_of_le (by rw [BitVec.le_def, h.size]; omega), h.size]
  omega

/-- The loop copies the `n` payload bytes of the old block, whose header it reads in every round
and which the new payload does not reach. -/
theorem kreallocCopy_spec (mem : Memory) (newPtr ptr : Word) {block : Word} {n i : Nat} {used : Bool}
    (fuel : Nat) (hh : HeaderAt mem block (n + 16) used) (hb : block.toNat + 16 = ptr.toNat)
    (hptr : ptr.toNat + n ≤ 2 ^ 32) (hnew : newPtr.toNat + n ≤ 2 ^ 32)
    (hap : ptr.toNat + n ≤ newPtr.toNat ∨ newPtr.toNat + n ≤ block.toNat) (hi : i ≤ n)
    (hfuel : n - i < fuel) :
    ∃ mem', kreallocCopy newPtr ptr block fuel (BitVec.ofNat 32 i) mem = .ok mem' ∧
      ChangesWithin (fun x ↦ newPtr.toNat + i ≤ x ∧ x < newPtr.toNat + n) mem mem' ∧
      ∀ k, i ≤ k → k < n → mem'.byte (newPtr + BitVec.ofNat 32 k) =
        mem.byte (ptr + BitVec.ofNat 32 k) := by
  have hat : ∀ {p : Word} {k : Nat}, p.toNat + n ≤ 2 ^ 32 → k < n →
      (p + BitVec.ofNat 32 k).toNat = p.toNat + k := fun {p k} hp hk ↦ by
    rw [BitVec.toNat_add, BitVec.toNat_ofNat, Nat.add_mod_mod, Nat.mod_eq_of_lt (by omega)]
  have hguard : ∀ {mem : Memory}, HeaderAt mem block (n + 16) used →
      (BitVec.ofNat 32 i < kmGetsize mem block - sizeofKmBlockHeader ↔ i < n) := fun h ↦ by
    rw [BitVec.lt_def, h.payloadSize, BitVec.toNat_ofNat, Nat.mod_eq_of_lt (by omega)]
  induction hm : n - i generalizing i mem fuel with
  | zero =>
    obtain ⟨fuel, rfl⟩ : ∃ f, fuel = f + 1 := ⟨fuel - 1, by omega⟩
    refine ⟨mem, ?_, .refl _ _, fun k h₁ h₂ ↦ by omega⟩
    rw [kreallocCopy, if_neg (fun h ↦ absurd ((hguard hh).mp h) (by omega))]
  | succ m ih =>
    obtain ⟨fuel, rfl⟩ : ∃ f, fuel = f + 1 := ⟨fuel - 1, by omega⟩
    have ha := hat hnew (k := i) (by omega)
    generalize hw : writeByte mem (newPtr + BitVec.ofNat 32 i)
      (mem.byte (ptr + BitVec.ofNat 32 i)) = mem₁
    have hc₁ : ChangesWithin (fun x ↦ x = newPtr.toNat + i) mem mem₁ := fun x hx ↦ by
      rw [← hw]
      exact writeByte_other _ fun he ↦ hx (by rw [he, ha])
    have hh₁ : HeaderAt mem₁ block (n + 16) used :=
      hh.congr hc₁ (by omega) (fun x _ _ _ ↦ by omega) fun x _ _ _ ↦ by omega
    obtain ⟨mem', hrun, hc₂, hcopy⟩ := ih mem₁ fuel hh₁ (i := i + 1) (by omega) (by omega)
      (fun h ↦ by
        rw [BitVec.lt_def, h.payloadSize, BitVec.toNat_ofNat, Nat.mod_eq_of_lt (by omega)])
      (by omega)
    refine ⟨mem', ?_, (hc₁.mono fun x hx ↦ by omega).trans (hc₂.mono fun x hx ↦ by omega),
      fun k h₁ h₂ ↦ ?_⟩
    · rw [kreallocCopy, if_pos ((hguard hh).mpr (by omega)), BitVec.ofNat_add, hw] at *
      exact hrun
    · by_cases hk : k = i
      · rw [hk, hc₂ _ (by rw [ha]; omega), ← hw, writeByte_self]
      · have hk' := hat hptr h₂
        rw [hcopy k (by omega) h₂, hc₁ _ (by rw [hk']; omega)]

/-- Copying the old block's payload into a new block that is no smaller. -/
theorem Rep.kreallocCopy {s : State} {fs us : List Interval} {u : Interval} {ptr q : Word}
    {lo n : Nat} (h : Rep s fs (⟨lo, n⟩ :: u :: us)) (hptr : ptr.toNat = u.lo + 16)
    (hq : q.toNat = lo + 16) (hle : u.len ≤ n) :
    ∃ mem', AlienOS.Heap.kreallocCopy q ptr (ptr - sizeofKmBlockHeader) walkLimit 0 s.mem =
        .ok mem' ∧
      Rep { s with mem := mem' } fs (⟨lo, n⟩ :: u :: us) ∧
      ChangesWithin (fun x ↦ lo + 16 ≤ x ∧ x < lo + n) s.mem mem' ∧
      ∀ k < u.len - 16, mem'.byte (q + BitVec.ofNat 32 k) = s.mem.byte (ptr + BitVec.ofNat 32 k) := by
  have hp := h.partition
  have hu : u ∈ ⟨lo, n⟩ :: u :: us := by simp
  have bn := (hp.usedBlock _ List.mem_cons_self).bounds
  have bu := (hp.usedBlock u hu).bounds
  have hap := (List.pairwise_cons.mp hp.usedApart).1 u List.mem_cons_self
  simp only [Interval.Apart, Interval.hi] at hap bn
  obtain ⟨-, hb, hh⟩ := h.block hu hptr
  have hlen : u.len - 16 + 16 = u.len := by omega
  obtain ⟨mem', hr, hc, hcopy⟩ := kreallocCopy_spec s.mem q ptr (i := 0) walkLimit
    (by rw [hlen]; exact hh) (by omega) (by omega) (by omega)
    (by omega) (Nat.zero_le _) (by rw [walkLimit]; omega)
  have hc' : ChangesWithin (fun x ↦ lo + 16 ≤ x ∧ x < lo + n) s.mem mem' :=
    hc.mono fun x hx ↦ by omega
  exact ⟨mem', hr, h.payload List.mem_cons_self hc' fun x hx ↦ hx, hc',
    fun k hk ↦ hcopy k (Nat.zero_le _) hk⟩

/-! ## The operation -/

/-- The test of `_krealloc_unsafe` on the block behind `u`. -/
theorem kreallocNext_iff {s : State} {b t : Word} {fs us : List Interval} {u : Interval}
    (h : Rep s fs (u :: us)) (hb : b.toNat = u.lo) (hh : HeaderAt s.mem b u.len true) :
    (b + kmGetsize s.mem b).toNat = u.hi ∧
      (b + kmGetsize s.mem b < s.kheapEnd ∧ kmIsalloc s.mem (b + kmGetsize s.mem b) = false ∧
          kmGetsize s.mem b + kmGetsize s.mem (b + kmGetsize s.mem b) ≥ t ↔
        ∃ k ∈ fs, k.lo = u.hi ∧ t.toNat ≤ u.len + k.len) := by
  have hp := h.partition
  have hbu := (hp.usedBlock u List.mem_cons_self).hi_lt
  have hn : (b + kmGetsize s.mem b).toNat = u.hi := by
    rw [BitVec.toNat_add, hh.size, hb, Nat.mod_eq_of_lt hbu, Interval.hi]
  have hfree : ∀ k ∈ fs, k.lo = u.hi → HeaderAt s.mem (b + kmGetsize s.mem b) k.len false ∧
      (kmGetsize s.mem b + kmGetsize s.mem (b + kmGetsize s.mem b)).toNat = u.len + k.len := by
    intro k hk hlo
    have hkh : HeaderAt s.mem (b + kmGetsize s.mem b) k.len false := by
      rw [← ofNat_toNat_eq (hn.trans hlo.symm)]
      exact h.chain.header_of_mem hk
    have hbk := (hp.freeBlock k hk).hi_lt
    simp only [Interval.hi] at hlo
    exact ⟨hkh, by rw [BitVec.toNat_add, hh.size, hkh.size, Nat.mod_eq_of_lt (by omega)]⟩
  refine ⟨hn, ?_⟩
  constructor
  · rintro ⟨h₁, h₂, h₃⟩
    rw [BitVec.lt_def, hn] at h₁
    rcases hp.next h₁ with ⟨k, hk, hlo⟩ | ⟨v, hv, hlo⟩
    · rw [ge_iff_le, BitVec.le_def, (hfree k hk hlo).2] at h₃
      exact ⟨k, hk, hlo, h₃⟩
    · have := (h.header v (List.mem_cons_of_mem _ hv)).alloc
      rw [ofNat_toNat_eq (hn.trans hlo.symm), h₂] at this
      exact absurd this (by decide)
  · rintro ⟨k, hk, hlo, hle⟩
    obtain ⟨hkh, hsum⟩ := hfree k hk hlo
    have h₁ := (hp.free_in_range hk).2
    have h₂ := (hp.freeBlock k hk).len_pos
    refine ⟨?_, hkh.alloc, ?_⟩
    · rw [BitVec.lt_def, hn, ← hlo]
      simp only [Interval.hi] at h₁
      omega
    · rw [ge_iff_le, BitVec.le_def, hsum]
      exact hle

/-- Where the memory for `_krealloc_unsafe` comes from without a sum that wraps: the block itself,
the free block behind it, or a new block. -/
def ReallocFits (s : State) (fs : List Interval) (u : Interval) (t : Nat) : Prop :=
  t ≤ u.len ∨ (∃ k ∈ fs, k.lo = u.hi ∧ t ≤ u.len + k.len) ∨ Fits s fs t

/-- The block `u` can be given `t` bytes where it is. -/
def InPlace (fs : List Interval) (u : Interval) (t : Nat) : Prop :=
  t ≤ u.len ∨ ∃ k ∈ fs, k.lo = u.hi ∧ t ≤ u.len + k.len

/-- What `_krealloc_unsafe` leaves of a live block `u`: an allocation that begins with the old
contents, in place whenever that is possible and apart from the old block otherwise. -/
structure Reallocates (s : State) (fs us : List Interval) (u : Interval) (ptr size q : Word)
    (s' : State) : Prop where
  allocates : Allocates s us (blockSize size) (fun s' x ↦ x ∈ u ∨ Room s s' fs x) q s'
  contents : ∀ k < min (u.len - 16) size.toNat,
    s'.mem.byte (q + BitVec.ofNat 32 k) = s.mem.byte (ptr + BitVec.ofNat 32 k)
  place : q = ptr ∧ InPlace fs u (blockSize size) ∨
    q ≠ ptr ∧ ¬ InPlace fs u (blockSize size) ∧
      ∀ x ∈ u, ¬ (q.toNat - 16 ≤ x ∧ x < q.toNat - 16 + blockSize size)
  stats : s'.kmallocStats = if q = ptr then s.kmallocStats else
    (s.kmallocStats.alloc (BitVec.ofNat 32 (blockSize size))).free (BitVec.ofNat 32 u.len)

section

variable {s : State} {ptr size : Word} {fs us : List Interval} {u : Interval}

/-- The exit for a block that is large enough. -/
theorem kreallocUnsafe_keep_eq (h : Rep s fs (u :: us)) (hptr : ptr.toNat = u.lo + 16)
    (hsize0 : size ≠ 0) (hsize : size.toNat + 31 < 2 ^ 32) (hle : blockSize size ≤ u.len) :
    kreallocUnsafe ptr size s = (do
      let (newBlock, s) ← kmSplit (ptr - sizeofKmBlockHeader) (targetSize size) s
      .ok (newBlock + sizeofKmBlockHeader, s)) := by
  obtain ⟨hne, -, hh⟩ := h.block List.mem_cons_self hptr
  have hge : kmGetsize s.mem (ptr - sizeofKmBlockHeader) ≥ targetSize size := by
    rw [ge_iff_le, BitVec.le_def, hh.size, targetSize_toNat hsize]
    exact hle
  unfold targetSize at hge ⊢
  simp only [kreallocUnsafe, if_neg hne, if_neg hsize0, hh.magic, hh.alloc, kernelAssert, if_true,
    bind, Except.bind, if_pos hge]

/-- The exit for a block that is too small but has a free block behind it that makes up for it. -/
theorem kreallocUnsafe_grow_eq (h : Rep s fs (u :: us)) (hptr : ptr.toNat = u.lo + 16)
    (hsize0 : size ≠ 0) (hsize : size.toNat + 31 < 2 ^ 32) (hlt : u.len < blockSize size)
    {k : Interval} (hk : k ∈ fs) (hlo : k.lo = u.hi) (hle : blockSize size ≤ u.len + k.len) :
    kreallocUnsafe ptr size s = (do
      let block := ptr - sizeofKmBlockHeader
      let nextBlock := block + kmGetsize s.mem block
      let s ← kreallocUnlink nextBlock s
      let s := { s with
        mem := kmSetsize s.mem block (kmGetsize s.mem block + kmGetsize s.mem nextBlock) }
      let (_, s) ← kmSplit block (targetSize size) s
      .ok (block + sizeofKmBlockHeader, s)) := by
  obtain ⟨hne, hb, hh⟩ := h.block List.mem_cons_self hptr
  have ht := targetSize_toNat hsize
  obtain ⟨hn, hnext⟩ := kreallocNext_iff h hb hh (t := targetSize size)
  have hcond := hnext.mpr ⟨k, hk, hlo, by rwa [ht]⟩
  have hge : ¬ kmGetsize s.mem (ptr - sizeofKmBlockHeader) ≥ targetSize size := by
    rw [ge_iff_le, BitVec.le_def, hh.size, ht]
    omega
  have hmag : kmCheckmagic s.mem (ptr - sizeofKmBlockHeader +
      kmGetsize s.mem (ptr - sizeofKmBlockHeader)) = true := by
    rw [← ofNat_toNat_eq (hn.trans hlo.symm)]
    exact (h.chain.header_of_mem hk).magic
  unfold targetSize at hge hcond ⊢
  simp only [kreallocUnsafe, if_neg hne, if_neg hsize0, hh.magic, hh.alloc, kernelAssert, if_true,
    bind, Except.bind, if_neg hge, if_pos hcond, hmag]

/-- The exit for a block that has to move. -/
theorem kreallocUnsafe_move_eq (h : Rep s fs (u :: us)) (hptr : ptr.toNat = u.lo + 16)
    (hsize0 : size ≠ 0) (hsize : size.toNat + 31 < 2 ^ 32) (hlt : u.len < blockSize size)
    (hno : ¬ ∃ k ∈ fs, k.lo = u.hi ∧ blockSize size ≤ u.len + k.len) :
    kreallocUnsafe ptr size s = (do
      let (newPtr, s) ← kmallocUnsafe size s
      if newPtr = NULL then .ok (NULL, s)
      else
        let mem ← kreallocCopy newPtr ptr (ptr - sizeofKmBlockHeader) walkLimit 0 s.mem
        let s ← kfreeUnsafe ptr { s with mem := mem }
        .ok (newPtr, s)) := by
  obtain ⟨hne, hb, hh⟩ := h.block List.mem_cons_self hptr
  have ht := targetSize_toNat hsize
  obtain ⟨-, hnext⟩ := kreallocNext_iff h hb hh (t := targetSize size)
  have hcond := fun hc ↦ hno (by simpa only [ht] using hnext.mp hc)
  have hge : ¬ kmGetsize s.mem (ptr - sizeofKmBlockHeader) ≥ targetSize size := by
    rw [ge_iff_le, BitVec.le_def, hh.size, ht]
    omega
  unfold targetSize at hge hcond
  simp only [kreallocUnsafe, if_neg hne, if_neg hsize0, hh.magic, hh.alloc, kernelAssert, if_true,
    bind, Except.bind, if_neg hge, if_neg hcond]

/-- The block is large enough: it keeps its address and gives back its tail. -/
theorem kreallocUnsafe_keep (h : Rep s fs (u :: us)) (hptr : ptr.toNat = u.lo + 16)
    (hsize0 : size ≠ 0) (hsize : size.toNat + 31 < 2 ^ 32) (hle : blockSize size ≤ u.len) :
    ∃ q s', kreallocUnsafe ptr size s = .ok (q, s') ∧ Reallocates s fs us u ptr size q s' := by
  obtain ⟨-, hb, -⟩ := h.block List.mem_cons_self hptr
  have ht := targetSize_toNat hsize
  obtain ⟨hb₁, hb₂, -⟩ := blockSize_bounds size
  obtain ⟨mem', fl', hr, hheld, hc⟩ := kmSplit_held h.hold hb (t := targetSize size)
    (by rwa [ht]) (by omega) (by omega)
  rw [ht] at hheld hc
  refine ⟨ptr, _, ?_, ⟨_, u.lo, hptr, hheld.toRep, ⟨rfl, rfl, .inl rfl⟩, fun x hx ↦ .inl ?_,
    hc.mono fun x hx ↦ ?_⟩, fun k hk ↦ hc _ ?_, .inl ⟨rfl, .inl hle⟩, (if_pos rfl).symm⟩
  · rw [kreallocUnsafe_keep_eq h hptr hsize0 hsize hle, hr, ok_bind]
    dsimp only
    rw [BitVec.sub_add_cancel]
  · simp only [Interval.mem_iff] at hx ⊢
    omega
  · simp only [Room, Interval.mem_iff, Interval.hi] at hx ⊢
    have := h.partition.usedBlock u List.mem_cons_self
    have := this.bounds
    rcases hx with hx | hx | hx
    · exact .inl (by omega)
    · exact .inl (by omega)
    · exact .inr (.inl hx)
  · have bu := (h.partition.usedBlock u List.mem_cons_self).bounds
    rw [toNat_add_ofNat (n := u.len - 16) (by omega) (by omega), hptr]
    rintro (hx | hx | hx)
    · omega
    · omega
    · exact h.partition.not_free_of_used List.mem_cons_self (Interval.mem_iff.mpr (by omega)) hx

/-- The free block behind is absorbed, and what is not needed of it is given back. -/
theorem kreallocUnsafe_grow (h : Rep s fs (u :: us)) (hptr : ptr.toNat = u.lo + 16)
    (hsize0 : size ≠ 0) (hsize : size.toNat + 31 < 2 ^ 32) (hlt : u.len < blockSize size)
    {k : Interval} (hk : k ∈ fs) (hlo : k.lo = u.hi) (hle : blockSize size ≤ u.len + k.len) :
    ∃ q s', kreallocUnsafe ptr size s = .ok (q, s') ∧ Reallocates s fs us u ptr size q s' := by
  obtain ⟨-, hb, hh⟩ := h.block List.mem_cons_self hptr
  have ht := targetSize_toNat hsize
  obtain ⟨hb₁, hb₂, -⟩ := blockSize_bounds size
  obtain ⟨hn, -⟩ := kreallocNext_iff h hb hh (t := targetSize size)
  have hrun := kreallocUnsafe_grow_eq h hptr hsize0 hsize hlt hk hlo hle
  obtain ⟨l, m, rfl⟩ := List.append_of_mem hk
  obtain ⟨mem₁, fl₁, hr₁, hheld, hc₁⟩ := kreallocAbsorb_spec h hb (hn.trans hlo.symm) hlo.symm
  obtain ⟨mem₂, fl₂, hr₂, hheld₂, hc₂⟩ := kmSplit_held hheld hb (t := targetSize size)
    (by rwa [ht]) (by omega) (by dsimp only; omega)
  rw [ht] at hheld₂ hc₂
  have bi := hheld.isBlock.bounds
  dsimp only at bi
  have hin : ∀ x, x ∈ (⟨u.lo, u.len + k.len⟩ : Interval) → x ∈ u ∨ Covers (l ++ k :: m) x :=
    fun x hx ↦ by
      simp only [covers_append, covers_cons, Interval.mem_iff, Interval.hi] at *
      omega
  have hown : ∀ x, u.lo ≤ x ∧ x < u.lo + 4 → x ∈ u := fun x hx ↦
    Interval.mem_iff.mpr (by have := (h.partition.usedBlock u List.mem_cons_self).bounds; omega)
  refine ⟨ptr, _, ?_, ⟨_, u.lo, hptr, hheld₂.toRep, ⟨rfl, rfl, .inl rfl⟩, fun x hx ↦ ?_,
    (hc₁.mono fun x hx ↦ hx.imp (hown x) .inl).trans (hc₂.mono fun x hx ↦ ?_)⟩, fun j hj ↦ ?_,
    .inl ⟨rfl, .inr ⟨k, hk, hlo, hle⟩⟩, (if_pos rfl).symm⟩
  · rw [hrun]
    dsimp only
    rw [hr₁, ok_bind, hr₂, ok_bind]
    dsimp only
    rw [BitVec.sub_add_cancel]
  · refine (hin x ?_).imp_right .inl
    simp only [Interval.mem_iff] at hx ⊢
    omega
  · have hcov : Covers (l ++ m) x → Covers (l ++ k :: m) x := fun h ↦ by
      simp only [covers_append, covers_cons] at h ⊢
      tauto
    simp only [Interval.hi] at hx
    rcases hx with hx | hx | hx
    · exact (hin x (Interval.mem_iff.mpr (by dsimp only; omega))).imp_right .inl
    · exact (hin x (Interval.mem_iff.mpr (by dsimp only; omega))).imp_right .inl
    · exact .inr (.inl (hcov hx))
  · -- the payload is neither header nor free, and lies before the part that is given back
    have bu := (h.partition.usedBlock u List.mem_cons_self).bounds
    have hj' : (ptr + BitVec.ofNat 32 j).toNat = u.lo + 16 + j := by
      rw [toNat_add_ofNat (n := u.len - 16) (by omega) (by omega), hptr]
    have hju : (ptr + BitVec.ofNat 32 j).toNat ∈ u := Interval.mem_iff.mpr (by omega)
    have hnf := h.partition.not_free_of_used List.mem_cons_self hju
    refine (hc₂ _ ?_).trans (hc₁ _ ?_)
    · rintro (hx | hx | hx)
      · dsimp only at hx
        omega
      · simp only [Interval.hi] at hx
        omega
      · refine hnf ?_
        simp only [covers_append, covers_cons] at hx ⊢
        tauto
    · rintro (hx | hx)
      · omega
      · exact hnf hx

/-- Nothing in place is large enough: a new block, a copy, and the old block is freed. -/
theorem kreallocUnsafe_move (h : Rep s fs (u :: us)) (hptr : ptr.toNat = u.lo + 16)
    (hsize0 : size ≠ 0) (hsize : size.toNat + 31 < 2 ^ 32) (hlt : u.len < blockSize size)
    (hno : ¬ ∃ k ∈ fs, k.lo = u.hi ∧ blockSize size ≤ u.len + k.len)
    (hfit : Fits s fs (blockSize size)) :
    kreallocUnsafe ptr size s = .error outOfMemory ∨
      ∃ q s', kreallocUnsafe ptr size s = .ok (q, s') ∧ Reallocates s fs us u ptr size q s' := by
  obtain ⟨hne, -⟩ := h.block List.mem_cons_self hptr
  rw [kreallocUnsafe_move_eq h hptr hsize0 hsize hlt hno]
  rcases kmallocUnsafe_spec h hsize hfit with
    ⟨he, -⟩ | ⟨q, s₁, hr₁, ⟨fs₁, lo, hq, hrep₁, hg₁, hin, hc₁⟩, -⟩
  · exact .inl (by rw [he]; rfl)
  · right
    have hp₁ := hrep₁.partition
    have hu₁ : u ∈ ⟨lo, blockSize size⟩ :: u :: us := by simp
    have bn := (hp₁.usedBlock _ List.mem_cons_self).bounds
    have bu := (hp₁.usedBlock u hu₁).bounds
    dsimp only at bn
    obtain ⟨mem₂, hr₂, hrep₂, hc₂, hcopy⟩ := hrep₁.kreallocCopy hptr hq (Nat.le_of_lt hlt)
    obtain ⟨s₃, hr₃, hrep₃, hg₃, he₃, hc₃⟩ := kfreeUnsafe_spec
      (hrep₂.perm (List.Perm.swap u ⟨lo, blockSize size⟩ us)) hptr
    have hq0 : q ≠ NULL := by
      rintro rfl
      exact absurd hq.symm (by simp [NULL])
    have hroom : ∀ x, Room s s₁ fs x → Room s s₃ fs x := fun x hx ↦ by
      simp only [Room, he₃] at hx ⊢
      exact hx
    have hgrow : Grows s s₃ := ⟨hg₃.kheapBegin.trans hg₁.kheapBegin,
      hg₃.kheapMaxEnd.trans hg₁.kheapMaxEnd, by rw [he₃]; exact hg₁.kheapEnd⟩
    have hnroom : ∀ x ∈ u, ¬ Room s s₁ fs x := fun x hx hr ↦ by
      have h₁ := h.partition.lt_of_used List.mem_cons_self hx
      rcases hr with hr | hr
      · exact h.partition.not_free_of_used List.mem_cons_self hx hr
      · omega
    have hsep : ∀ x ∈ u, x ∉ (⟨lo, blockSize size⟩ : Interval) := fun x hx hx' ↦
      hnroom x hx (hin x hx')
    have hqp : q ≠ ptr := by
      rintro rfl
      exact hsep u.lo (Interval.mem_iff.mpr (by omega))
        (Interval.mem_iff.mpr (by dsimp only; omega))
    have hlo : q.toNat - 16 = lo := by omega
    refine ⟨q, s₃, ?_, ⟨_, lo, hq, hrep₃, hgrow, fun x hx ↦ .inr (hroom x (hin x hx)),
      ((hc₁.mono fun x hx ↦ .inr (hroom x hx)).trans (hc₂.mono fun x hx ↦
        .inr (hroom x (hin x (Interval.mem_iff.mpr (by dsimp only; omega)))))).trans (hc₃.mono fun x hx ↦
        hx.imp_right fun hf ↦ hroom x (h.free_room hrep₁ hg₁ hf))⟩, fun k hk ↦ ?_,
      .inr ⟨?_, fun hc ↦ hc.elim (by omega) hno, fun x hx ↦ ?_⟩, ?_⟩
    · simp only [hr₁, bind, Except.bind, if_neg hq0]
      rw [hr₂]
      dsimp only
      rw [hr₃]
    · -- copied before the old block is freed, and read before it was written to
      have hk' : k < u.len - 16 := by omega
      have hqk : (q + BitVec.ofNat 32 k).toNat = lo + 16 + k := by
        rw [toNat_add_ofNat (n := u.len - 16) (by omega) hk', hq]
      have hpk : (ptr + BitVec.ofNat 32 k).toNat ∈ u := by
        rw [toNat_add_ofNat (n := u.len - 16) (by omega) hk', hptr]
        exact Interval.mem_iff.mpr (by omega)
      have hqm : (q + BitVec.ofNat 32 k).toNat ∈ (⟨lo, blockSize size⟩ : Interval) := by
        rw [hqk]
        exact Interval.mem_iff.mpr (by dsimp only; omega)
      have h₃ : s₃.mem.byte (q + BitVec.ofNat 32 k) = mem₂.byte (q + BitVec.ofNat 32 k) := by
        refine hc₃ _ ?_
        rintro (hx | hx)
        · exact hsep _ hx hqm
        · exact hrep₁.partition.not_free_of_used List.mem_cons_self hqm hx
      rw [h₃, hcopy k hk']
      exact hc₁ _ (hnroom _ hpk)
    · exact hqp
    · rw [hlo]
      exact hsep x hx
    · -- both headers have the sizes of their blocks when they are counted
      obtain ⟨-, -, hhq⟩ := hrep₁.block List.mem_cons_self hq
      obtain ⟨-, -, hhu⟩ := hrep₂.block hu₁ hptr
      rw [if_neg hqp, kfreeUnsafe_stats hr₃ hne, kmallocUnsafe_stats hr₁ hq0,
        ofNat_toNat_eq hhq.size, ofNat_toNat_eq hhu.size]

theorem kreallocUnsafe_spec (h : Rep s fs (u :: us)) (hptr : ptr.toNat = u.lo + 16)
    (hsize0 : size ≠ 0) (hsize : size.toNat + 31 < 2 ^ 32)
    (hfit : ReallocFits s fs u (blockSize size)) :
    kreallocUnsafe ptr size s = .error outOfMemory ∨
      ∃ q s', kreallocUnsafe ptr size s = .ok (q, s') ∧ Reallocates s fs us u ptr size q s' := by
  by_cases hle : blockSize size ≤ u.len
  · exact .inr (kreallocUnsafe_keep h hptr hsize0 hsize hle)
  · have hlt := Nat.lt_of_not_le hle
    by_cases hnext : ∃ k ∈ fs, k.lo = u.hi ∧ blockSize size ≤ u.len + k.len
    · obtain ⟨k, hk, hlo, hlen⟩ := hnext
      exact .inr (kreallocUnsafe_grow h hptr hsize0 hsize hlt hk hlo hlen)
    · exact kreallocUnsafe_move h hptr hsize0 hsize hlt hnext
        ((hfit.resolve_left hle).resolve_left hnext)

end

end AlienOS.Heap
