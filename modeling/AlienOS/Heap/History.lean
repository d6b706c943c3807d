import AlienOS.Heap.FirstFit

/-!
# History — a heap answers by its live blocks alone

Two heaps with the same bounds and the same used blocks have the same free blocks, and so they take
every call alike: nothing else of what went before can be observed.
-/

open AlienOS.Lib

namespace AlienOS.Heap

/-! ## The end of the heap -/

section

variable {s s' : State} {b b' t ptr size q : Word}

theorem kmInsert_kheapEnd (h : kmInsert b s = .ok s') : s'.kheapEnd = s.kheapEnd := by
  unfold kmInsert at h
  split at h
  · cases h
    rfl
  · split at h
    · cases h
      rfl
    · obtain ⟨_, -, h⟩ := bind_eq_ok.mp h
      obtain ⟨-, -, h⟩ := bind_eq_ok.mp h
      obtain ⟨-, -, h⟩ := bind_eq_ok.mp h
      obtain ⟨-, -, h⟩ := bind_eq_ok.mp h
      cases h
      rfl

theorem kmSplit_kheapEnd (h : kmSplit b t s = .ok (b', s')) : s'.kheapEnd = s.kheapEnd := by
  unfold kmSplit at h
  split at h
  · cases h
    rfl
  · obtain ⟨s₁, h₁, h⟩ := bind_eq_ok.mp h
    cases h
    rw [kmInsert_kheapEnd h₁]

theorem kreallocUnlink_kheapEnd (h : kreallocUnlink b s = .ok s') : s'.kheapEnd = s.kheapEnd := by
  unfold kreallocUnlink at h
  split at h
  · cases h
    rfl
  · obtain ⟨_, -, h⟩ := bind_eq_ok.mp h
    obtain ⟨-, -, h⟩ := bind_eq_ok.mp h
    cases h
    rfl

theorem kfreeUnsafe_kheapEnd (h : kfreeUnsafe ptr s = .ok s') : s'.kheapEnd = s.kheapEnd := by
  unfold kfreeUnsafe at h
  split at h
  · cases h
    rfl
  · obtain ⟨-, -, h⟩ := bind_eq_ok.mp h
    obtain ⟨-, -, h⟩ := bind_eq_ok.mp h
    rw [kmInsert_kheapEnd h]

end

/-! ## Twins -/

/-- Two heaps with the same blocks between the same bounds. -/
structure Twins (fs us : List Interval) (s t : State) : Prop where
  left : Rep s fs us
  right : Rep t fs us
  kheapBegin : t.kheapBegin = s.kheapBegin
  kheapEnd : t.kheapEnd = s.kheapEnd
  kheapMaxEnd : t.kheapMaxEnd = s.kheapMaxEnd

section

variable {s t s' t' : State} {fs us us' gs : List Interval} {u : Interval} {ptr size q : Word}

/-- The used blocks and the bounds determine the rest. -/
theorem Twins.of_rep (hs : Rep s fs us) (ht : Rep t gs us) (hb : t.kheapBegin = s.kheapBegin)
    (he : t.kheapEnd = s.kheapEnd) (hm : t.kheapMaxEnd = s.kheapMaxEnd) : Twins fs us s t := by
  obtain rfl := hs.free_unique ht hb he fun _ ↦ Iff.rfl
  exact ⟨hs, ht, hb, he, hm⟩

theorem Twins.perm (h : Twins fs us s t) (hp : us.Perm us') : Twins fs us' s t :=
  ⟨h.left.perm hp, h.right.perm hp, h.kheapBegin, h.kheapEnd, h.kheapMaxEnd⟩

/-- After calls that used up the same block. -/
theorem Twins.grown (h : Twins fs us s t) (hs : Rep s' gs us') (ht : ∃ gs, Rep t' gs us')
    (hg : Grows s s') (hg' : Grows t t') (he : t'.kheapEnd = s'.kheapEnd) :
    Twins gs us' s' t' := by
  obtain ⟨gs', ht⟩ := ht
  refine .of_rep hs ht ?_ he ?_
  · rw [hg'.kheapBegin, hg.kheapBegin, h.kheapBegin]
  · rw [hg'.kheapMaxEnd, hg.kheapMaxEnd, h.kheapMaxEnd]

/-- The new block of an allocation is the one behind the pointer. -/
theorem Rep.allocated {lo : Nat} (h : Rep s fs us) (hsize : size.toNat + 31 < 2 ^ 32)
    (hfit : Fits s fs (blockSize size)) (hr : kmallocUnsafe size s = .ok (q, s'))
    (hq : q.toNat = lo + 16) :
    ∃ gs, Rep s' gs (⟨lo, blockSize size⟩ :: us) ∧ Grows s s' := by
  rcases kmallocUnsafe_spec h hsize hfit with
    ⟨he, -⟩ | ⟨q', s₁, hr', ⟨gs, lo', hq', hrep, hg, -⟩, -⟩
  · rw [hr] at he
    cases he
  · rw [hr] at hr'
    cases hr'
    obtain rfl : lo' = lo := by omega
    exact ⟨gs, hrep, hg⟩

/-- What an allocation does to twins: it fails in both, or it returns the same block in both. -/
theorem Twins.kmalloc (h : Twins fs us s t) (hsize : size.toNat + 31 < 2 ^ 32)
    (hfit : Fits s fs (blockSize size)) :
    kmallocUnsafe size s = .error outOfMemory ∧ kmallocUnsafe size t = .error outOfMemory ∨
      ∃ q s' t' gs lo, kmallocUnsafe size s = .ok (q, s') ∧ kmallocUnsafe size t = .ok (q, t') ∧
        q.toNat = lo + 16 ∧ Twins gs (⟨lo, blockSize size⟩ :: us) s' t' ∧ Grows s s' ∧
        Grows t t' := by
  have hfit' : Fits t fs (blockSize size) := by
    unfold Fits
    rw [h.kheapEnd]
    exact hfit
  have hs := h.left.kmalloc_firstFit hsize hfit
  have ht := h.right.kmalloc_firstFit hsize hfit'
  rw [h.kheapEnd, h.kheapMaxEnd] at ht
  cases hf : FreeSpace.allocate s.kheapMaxEnd.toNat (blockSize size) ⟨fs, s.kheapEnd.toNat⟩ with
  | none =>
    rw [hf] at hs ht
    exact .inl ⟨hs, ht⟩
  | some r =>
    rw [hf] at hs ht
    obtain ⟨q, s', hrs, hqs, hcs, -⟩ := hs
    obtain ⟨q', t', hrt, hqt, hct, -⟩ := ht
    obtain rfl : q' = q := BitVec.toNat_inj.mp (hqt.trans hqs.symm)
    have hend : t'.kheapEnd = s'.kheapEnd :=
      BitVec.toNat_inj.mp (hct.stop.trans hcs.stop.symm)
    obtain ⟨gs, hreps, hgs⟩ := h.left.allocated hsize hfit hrs hqs
    obtain ⟨gs', hrept, hgt⟩ := h.right.allocated hsize hfit' hrt hqt
    exact .inr ⟨q', s', t', gs, r.1, hrs, hrt, hqs, h.grown hreps ⟨gs', hrept⟩ hgs hgt hend,
      hgs, hgt⟩

/-- Freeing the same block. -/
theorem Twins.kfree (h : Twins fs (u :: us) s t) (hptr : ptr.toNat = u.lo + 16) :
    ∃ s' t' gs, kfreeUnsafe ptr s = .ok s' ∧ kfreeUnsafe ptr t = .ok t' ∧ Twins gs us s' t' ∧
      Grows s s' ∧ Grows t t' := by
  obtain ⟨s', hrs, hreps, hgs, hes, -⟩ := kfreeUnsafe_spec h.left hptr
  obtain ⟨t', hrt, hrept, hgt, het, -⟩ := kfreeUnsafe_spec h.right hptr
  refine ⟨s', t', _, hrs, hrt, h.grown hreps ⟨_, hrept⟩ hgs hgt ?_, hgs, hgt⟩
  rw [het, hes, h.kheapEnd]

theorem Rep.kcallocZero {lo n : Nat} (h : Rep s fs (⟨lo, blockSize size⟩ :: us))
    (hq : q.toNat = lo + 16) (hn : n = size.toNat) :
    Rep { s with mem := AlienOS.Heap.kcallocZero s.mem q n } fs (⟨lo, blockSize size⟩ :: us) := by
  obtain ⟨-, hb, -⟩ := blockSize_bounds size
  have bn := (h.partition.usedBlock _ List.mem_cons_self).bounds
  dsimp only at bn
  refine h.payload List.mem_cons_self (changesWithin_kcallocZero s.mem q (n := n) (by omega))
    fun x hx ↦ ?_
  simp only [Interval.hi]
  omega

/-- `_kcalloc_unsafe` is `_kmalloc_unsafe` but for the contents. -/
theorem Twins.kcalloc {nelems elemsize : Word} (h : Twins fs us s t)
    (hsize : (nelems * elemsize).toNat + 31 < 2 ^ 32)
    (hfit : Fits s fs (blockSize (nelems * elemsize))) :
    kcallocUnsafe nelems elemsize s = .error outOfMemory ∧
        kcallocUnsafe nelems elemsize t = .error outOfMemory ∨
      ∃ q s' t' gs lo, kcallocUnsafe nelems elemsize s = .ok (q, s') ∧
        kcallocUnsafe nelems elemsize t = .ok (q, t') ∧ q.toNat = lo + 16 ∧
        Twins gs (⟨lo, blockSize (nelems * elemsize)⟩ :: us) s' t' ∧ Grows s s' ∧
        Grows t t' := by
  rcases h.kmalloc hsize hfit with ⟨hs, ht⟩ | ⟨q, s', t', gs, lo, hs, ht, hq, htw, hgs, hgt⟩
  · left
    constructor
    · rw [kcallocUnsafe, hs, error_bind]
    · rw [kcallocUnsafe, ht, error_bind]
  · right
    refine ⟨q, _, _, gs, lo, ?_, ?_, hq, ⟨htw.left.kcallocZero hq rfl, htw.right.kcallocZero hq rfl,
      htw.kheapBegin, htw.kheapEnd, htw.kheapMaxEnd⟩, ?_, ?_⟩
    · rw [kcallocUnsafe, hs, ok_bind]
    · rw [kcallocUnsafe, ht, ok_bind]
    · exact ⟨hgs.kheapBegin, hgs.kheapMaxEnd, hgs.kheapEnd⟩
    · exact ⟨hgt.kheapBegin, hgt.kheapMaxEnd, hgt.kheapEnd⟩

/-- A block that is resized where it is leaves the end of the heap alone. -/
theorem kreallocUnsafe_kheapEnd (h : Rep s fs (u :: us)) (hptr : ptr.toNat = u.lo + 16)
    (hsize0 : size ≠ 0) (hsize : size.toNat + 31 < 2 ^ 32) (hin : InPlace fs u (blockSize size))
    (hr : kreallocUnsafe ptr size s = .ok (q, s')) : s'.kheapEnd = s.kheapEnd := by
  by_cases hle : blockSize size ≤ u.len
  · rw [kreallocUnsafe_keep_eq h hptr hsize0 hsize hle] at hr
    obtain ⟨⟨b, s₁⟩, h₁, hr⟩ := bind_eq_ok.mp hr
    cases hr
    exact kmSplit_kheapEnd h₁
  · obtain ⟨k, hk, hlo, hlen⟩ := hin.resolve_left hle
    rw [kreallocUnsafe_grow_eq h hptr hsize0 hsize (Nat.lt_of_not_le hle) hk hlo hlen] at hr
    obtain ⟨s₁, h₁, hr⟩ := bind_eq_ok.mp hr
    obtain ⟨⟨b, s₂⟩, h₂, hr⟩ := bind_eq_ok.mp hr
    cases hr
    rw [kmSplit_kheapEnd h₂]
    show s₁.kheapEnd = s.kheapEnd
    exact kreallocUnlink_kheapEnd h₁

/-- The block is resized where it is. -/
theorem Rep.krealloc_inPlace (h : Rep s fs (u :: us)) (hptr : ptr.toNat = u.lo + 16)
    (hsize0 : size ≠ 0) (hsize : size.toNat + 31 < 2 ^ 32) (hin : InPlace fs u (blockSize size)) :
    ∃ s' gs, kreallocUnsafe ptr size s = .ok (ptr, s') ∧
      Rep s' gs (⟨u.lo, blockSize size⟩ :: us) ∧ Grows s s' ∧ s'.kheapEnd = s.kheapEnd := by
  obtain ⟨q, s', hr, hre⟩ : ∃ q s', kreallocUnsafe ptr size s = .ok (q, s') ∧
      Reallocates s fs us u ptr size q s' := by
    by_cases hle : blockSize size ≤ u.len
    · exact kreallocUnsafe_keep h hptr hsize0 hsize hle
    · obtain ⟨k, hk, hlo, hlen⟩ := hin.resolve_left hle
      exact kreallocUnsafe_grow h hptr hsize0 hsize (Nat.lt_of_not_le hle) hk hlo hlen
  obtain ⟨rfl, -⟩ := hre.place.resolve_right fun hc ↦ hc.2.1 hin
  obtain ⟨gs, lo, hq, hrep, hg, -⟩ := hre.allocates
  obtain rfl : lo = u.lo := by omega
  exact ⟨s', gs, hr, hrep, hg, kreallocUnsafe_kheapEnd h hptr hsize0 hsize hin hr⟩

/-- A block moves: after the new one is there, the rest of `_krealloc_unsafe` cannot fail. -/
theorem Rep.krealloc_move {s₁ : State} {lo : Nat} (h : Rep s fs (u :: us))
    (hptr : ptr.toNat = u.lo + 16) (hsize0 : size ≠ 0) (hsize : size.toNat + 31 < 2 ^ 32)
    (hno : ¬ InPlace fs u (blockSize size)) (hr : kmallocUnsafe size s = .ok (q, s₁))
    (hq : q.toNat = lo + 16) (h₁ : Rep s₁ gs (⟨lo, blockSize size⟩ :: u :: us))
    (hg : Grows s s₁) :
    ∃ s' gs', kreallocUnsafe ptr size s = .ok (q, s') ∧
      Rep s' gs' (⟨lo, blockSize size⟩ :: us) ∧ Grows s s' ∧ s'.kheapEnd = s₁.kheapEnd := by
  obtain ⟨hle, hnext⟩ := not_or.mp hno
  obtain ⟨mem, hcopy, h₂, -⟩ := h₁.kreallocCopy hptr hq (by omega)
  obtain ⟨s', hfree, h₃, hg', he, -⟩ := kfreeUnsafe_spec (h₂.perm (List.Perm.swap _ _ us)) hptr
  refine ⟨s', _, ?_, h₃, ?_, he⟩
  · rw [kreallocUnsafe_move_eq h hptr hsize0 hsize (Nat.lt_of_not_le hle) hnext, hr, ok_bind]
    dsimp only
    rw [if_neg (ne_null_of_toNat hq), hcopy, ok_bind, hfree, ok_bind]
  · exact hg.trans ⟨hg'.kheapBegin, hg'.kheapMaxEnd, hg'.kheapEnd⟩

/-- What a reallocation does to twins: both blocks stay, or both move to the same place, or there is
no memory for either. -/
theorem Twins.krealloc (h : Twins fs (u :: us) s t) (hptr : ptr.toNat = u.lo + 16)
    (hsize0 : size ≠ 0) (hsize : size.toNat + 31 < 2 ^ 32) (hfit : Fits s fs (blockSize size)) :
    kreallocUnsafe ptr size s = .error outOfMemory ∧
        kreallocUnsafe ptr size t = .error outOfMemory ∨
      ∃ q s' t' gs lo, kreallocUnsafe ptr size s = .ok (q, s') ∧
        kreallocUnsafe ptr size t = .ok (q, t') ∧ q.toNat = lo + 16 ∧
        Twins gs (⟨lo, blockSize size⟩ :: us) s' t' ∧ Grows s s' ∧ Grows t t' := by
  by_cases hin : InPlace fs u (blockSize size)
  · right
    obtain ⟨s', gs, hrs, hreps, hgs, hes⟩ := h.left.krealloc_inPlace hptr hsize0 hsize hin
    obtain ⟨t', gs', hrt, hrept, hgt, het⟩ := h.right.krealloc_inPlace hptr hsize0 hsize hin
    refine ⟨ptr, s', t', gs, u.lo, hrs, hrt, hptr, h.grown hreps ⟨_, hrept⟩ hgs hgt ?_, hgs, hgt⟩
    rw [het, hes, h.kheapEnd]
  · rcases h.kmalloc hsize hfit with ⟨hs, ht⟩ | ⟨q, s₁, t₁, gs, lo, hs, ht, hq, htw, hgs, hgt⟩
    · left
      obtain ⟨hle, hnext⟩ := not_or.mp hin
      have hlt := Nat.lt_of_not_le hle
      constructor
      · rw [kreallocUnsafe_move_eq h.left hptr hsize0 hsize hlt hnext, hs, error_bind]
      · rw [kreallocUnsafe_move_eq h.right hptr hsize0 hsize hlt hnext, ht, error_bind]
    · right
      obtain ⟨s', gs', hrs, hreps, hgs', hes⟩ :=
        h.left.krealloc_move hptr hsize0 hsize hin hs hq htw.left hgs
      obtain ⟨t', gs'', hrt, hrept, hgt', het⟩ :=
        h.right.krealloc_move hptr hsize0 hsize hin ht hq htw.right hgt
      refine ⟨q, s', t', gs', lo, hrs, hrt, hq, h.grown hreps ⟨_, hrept⟩ hgs' hgt' ?_, hgs', hgt'⟩
      rw [het, hes, htw.kheapEnd]

end

/-! ## Sessions -/

/-- What two runs from one boot have to share: the live pointers, the extents behind them and the
end of the heap.  The order of the books does not count, nor what was asked for. -/
structure Alike (σ τ : Session) : Prop where
  live : ∀ p, (∃ a ∈ σ.live, a.ptr = p) ↔ ∃ a ∈ τ.live, a.ptr = p
  extent : ∀ a ∈ σ.live, extent τ.heap.mem a.ptr = extent σ.heap.mem a.ptr
  kheapEnd : τ.heap.kheapEnd = σ.heap.kheapEnd

/-- Two sessions whose heaps have the same blocks. -/
structure Matched (σ τ : Session) (fs us vs : List Interval) : Prop where
  left : Inv σ fs us
  right : Inv τ fs vs
  perm : us.Perm vs
  kheapBegin : τ.heap.kheapBegin = σ.heap.kheapBegin
  kheapEnd : τ.heap.kheapEnd = σ.heap.kheapEnd
  kheapMaxEnd : τ.heap.kheapMaxEnd = σ.heap.kheapMaxEnd

section

variable {σ τ : Session} {s t s' t' : State} {fs gs us vs us' vs' : List Interval}
  {u v : Interval} {ptr : Word}

theorem Matched.twins (h : Matched σ τ fs us vs) : Twins fs us σ.heap τ.heap :=
  ⟨h.left.rep, h.right.rep.perm h.perm.symm, h.kheapBegin, h.kheapEnd, h.kheapMaxEnd⟩

theorem Inv.end_le_of_grows (h : Inv σ fs us) (hg : Grows σ.heap s) :
    s.kheapEnd.toNat ≤ s.kheapMaxEnd.toNat := by
  rw [hg.kheapMaxEnd]
  rcases hg.kheapEnd with he | he
  · rw [he]
    exact h.end_le
  · exact he.2

/-- After a call that turned twins into twins. -/
theorem Matched.of_twins (h : Matched σ τ fs us vs) {live live' : List Alloc}
    (ht : Twins gs us' s' t') (hp : us'.Perm vs') (hg : Grows σ.heap s') (hg' : Grows τ.heap t')
    (hs : List.Forall₂ Serves us' live) (hs' : List.Forall₂ Serves vs' live') :
    Matched ⟨s', live⟩ ⟨t', live'⟩ gs us' vs' :=
  ⟨⟨ht.left, h.left.end_le_of_grows hg, hs⟩,
    ⟨ht.right.perm hp, h.right.end_le_of_grows hg', hs'⟩, hp, ht.kheapBegin, ht.kheapEnd,
    ht.kheapMaxEnd⟩

/-- A used block is known by its address. -/
theorem Rep.used_unique (h : Rep s fs us) (hu : u ∈ us) (hv : v ∈ us) (hlo : u.lo = v.lo) :
    u = v := by
  by_contra hne
  have hu' := (h.partition.usedBlock u hu).len_pos
  have hv' := (h.partition.usedBlock v hv).len_pos
  exact (h.partition.used_apart hu hv hne).not_mem (x := u.lo) (Interval.mem_iff.mpr (by omega))
    (Interval.mem_iff.mpr (by omega))

/-- The block behind a pointer that both sessions hold. -/
theorem Matched.focus (h : Matched σ τ fs us vs) (hσ : ∃ a ∈ σ.live, a.ptr = ptr)
    (hτ : ∃ a ∈ τ.live, a.ptr = ptr) :
    ∃ u us' vs', Twins fs (u :: us') σ.heap τ.heap ∧ us'.Perm vs' ∧ ptr.toNat = u.lo + 16 ∧
      List.Forall₂ Serves us' (forget ptr σ.live) ∧
      List.Forall₂ Serves vs' (forget ptr τ.live) := by
  obtain ⟨u, us', -, hperm, hptr, hs⟩ := h.left.focus hσ
  obtain ⟨v, vs', -, hperm', hptr', hs'⟩ := h.right.focus hτ
  have hv : v ∈ us := h.perm.mem_iff.mpr (hperm'.mem_iff.mpr List.mem_cons_self)
  obtain rfl : u = v := h.left.rep.used_unique (hperm.mem_iff.mpr List.mem_cons_self) hv (by omega)
  have hcons : (u :: us').Perm (u :: vs') := (hperm.symm.trans h.perm).trans hperm'
  exact ⟨u, us', vs', h.twins.perm hperm, hcons.cons_inv, hptr, hs, hs'⟩

/-- The live pointers are those to the used blocks. -/
theorem Inv.live_iff (h : Inv σ fs us) (p : Word) :
    (∃ a ∈ σ.live, a.ptr = p) ↔ ∃ u ∈ us, p.toNat = u.lo + 16 := by
  constructor
  · rintro ⟨a, ha, rfl⟩
    obtain ⟨u, hu, hs⟩ := h.serves_of_live ha
    exact ⟨u, hu, hs.1⟩
  · rintro ⟨u, hu, hp⟩
    obtain ⟨a, ha, hs⟩ := h.live_of_used hu
    exact ⟨a, ha, BitVec.toNat_inj.mp (hs.1.trans hp.symm)⟩

theorem Inv.used_iff (h : Inv σ fs us) (u : Interval) :
    u ∈ us ↔ ∃ a ∈ σ.live, extent σ.heap.mem a.ptr = u := by
  constructor
  · intro hu
    obtain ⟨a, ha, hs⟩ := h.live_of_used hu
    exact ⟨a, ha, h.rep.extent_eq hu hs.1⟩
  · rintro ⟨a, ha, rfl⟩
    obtain ⟨u, hu, hs⟩ := h.serves_of_live ha
    rw [h.rep.extent_eq hu hs.1]
    exact hu

theorem Rep.used_nodup (h : Rep s fs us) : us.Nodup := by
  refine h.partition.usedApart.imp_of_mem fun {u v} hu _ hap he ↦ ?_
  have hlen := (h.partition.usedBlock u hu).len_pos
  subst he
  exact hap.not_mem (x := u.lo) (Interval.mem_iff.mpr (by omega)) (Interval.mem_iff.mpr (by omega))

theorem Alike.perm (h : Alike σ τ) (hi : Inv σ fs us) (hj : Inv τ gs vs) : us.Perm vs := by
  refine (List.perm_ext_iff_of_nodup hi.rep.used_nodup hj.rep.used_nodup).mpr fun u ↦ ?_
  rw [hi.used_iff, hj.used_iff]
  constructor
  · rintro ⟨a, ha, rfl⟩
    obtain ⟨b, hb, hba⟩ := (h.live a.ptr).mp ⟨a, ha, rfl⟩
    exact ⟨b, hb, by rw [hba, h.extent a ha]⟩
  · rintro ⟨b, hb, rfl⟩
    obtain ⟨a, ha, hab⟩ := (h.live b.ptr).mpr ⟨b, hb, rfl⟩
    exact ⟨a, ha, by rw [← hab, h.extent a ha]⟩

/-- Sessions that are alike and lie between the same bounds have the same blocks. -/
theorem Alike.matched (h : Alike σ τ) (hi : Inv σ fs us) (hj : Inv τ gs vs)
    (hb : τ.heap.kheapBegin = σ.heap.kheapBegin)
    (hm : τ.heap.kheapMaxEnd = σ.heap.kheapMaxEnd) : Matched σ τ fs us vs := by
  have hp := h.perm hi hj
  obtain rfl := hi.rep.free_unique (hj.rep.perm hp.symm) hb h.kheapEnd fun _ ↦ Iff.rfl
  exact ⟨hi, hj, hp, hb, h.kheapEnd, hm⟩

theorem Matched.alike (h : Matched σ τ fs us vs) : Alike σ τ := by
  refine ⟨fun p ↦ ?_, fun a ha ↦ ?_, h.kheapEnd⟩
  · simp only [h.left.live_iff, h.right.live_iff, h.perm.mem_iff]
  · obtain ⟨u, hu, hs⟩ := h.left.serves_of_live ha
    rw [h.left.rep.extent_eq hu hs.1, h.right.rep.extent_eq (h.perm.mem_iff.mp hu) hs.1]

theorem Alike.admissible {c : Call} (h : Alike σ τ) (hc : c.Admissible σ) : c.Admissible τ := by
  cases c with
  | kmalloc size => exact trivial
  | kcalloc nelems elemsize => exact trivial
  | krealloc ptr size => exact hc.imp_right (h.live ptr).mp
  | kfree ptr => exact hc.imp_right (h.live ptr).mp
  | write addr value =>
    obtain ⟨a, ha, hlo, hhi⟩ := hc
    obtain ⟨b, hb, hba⟩ := (h.live a.ptr).mp ⟨a, ha, rfl⟩
    exact ⟨b, hb, by rw [hba]; exact hlo, by rw [hba, h.extent a ha]; exact hhi⟩

theorem Inv.fits_of_le {size : Word} (h : Inv σ fs us) (hend : σ.heap.kheapEnd.toNat ≤ 2 ^ 31)
    (hle : size.toNat ≤ 2 ^ 31 - 2 ^ 13) :
    size.toNat + 31 < 2 ^ 32 ∧ Fits σ.heap fs (blockSize size) := by
  obtain ⟨hs, hc⟩ := (noWrap_of_le hend hle).resolve_right fun hr ↦ by
    have := hr.1
    omega
  exact ⟨hs, h.rep.fits hc⟩

end

/-! ## Steps -/

section

variable {σ τ : Session} {fs us vs : List Interval} {ptr size : Word}

/-- The outcomes of one call in two sessions: no memory in either, or the same pointer in both. -/
def SameOutcome (σ τ : Session) (c : Call) : Prop :=
  c.exec σ = .error outOfMemory ∧ c.exec τ = .error outOfMemory ∨
    ∃ q σ' τ' fs us vs, c.exec σ = .ok (q, σ') ∧ c.exec τ = .ok (q, τ') ∧
      Matched σ' τ' fs us vs ∧ Grows σ.heap σ'.heap

theorem Matched.step_kmalloc (h : Matched σ τ fs us vs) (hsize : size.toNat + 31 < 2 ^ 32)
    (hfit : Fits σ.heap fs (blockSize size)) : SameOutcome σ τ (.kmalloc size) := by
  rcases h.twins.kmalloc hsize hfit with ⟨hs, ht⟩ | ⟨q, s', t', gs, lo, hs, ht, hq, htw, hgs, hgt⟩
  · left
    simp only [Call.exec, hs, ht, error_bind, and_self]
  · right
    have hle : size.toNat % 2 ^ 32 + 16 ≤ blockSize size := by
      rw [Nat.mod_eq_of_lt size.isLt]
      exact (blockSize_bounds size).2.1
    exact ⟨q, _, _, gs, _, _, by simp only [Call.exec, hs, ok_bind], by
      simp only [Call.exec, ht, ok_bind], h.of_twins htw (h.perm.cons _) hgs hgt
        (serves_record h.left.serves hq hle) (serves_record h.right.serves hq hle), hgs⟩

theorem Matched.step_kcalloc {nelems elemsize : Word} (h : Matched σ τ fs us vs)
    (hsize : (nelems * elemsize).toNat + 31 < 2 ^ 32)
    (hfit : Fits σ.heap fs (blockSize (nelems * elemsize))) :
    SameOutcome σ τ (.kcalloc nelems elemsize) := by
  rcases h.twins.kcalloc hsize hfit with
    ⟨hs, ht⟩ | ⟨q, s', t', gs, lo, hs, ht, hq, htw, hgs, hgt⟩
  · left
    simp only [Call.exec, hs, ht, error_bind, and_self]
  · right
    have hle : nelems.toNat * elemsize.toNat % 2 ^ 32 + 16 ≤ blockSize (nelems * elemsize) := by
      rw [← BitVec.toNat_mul]
      exact (blockSize_bounds _).2.1
    exact ⟨q, _, _, gs, _, _, by simp only [Call.exec, hs, ok_bind], by
      simp only [Call.exec, ht, ok_bind], h.of_twins htw (h.perm.cons _) hgs hgt
        (serves_record h.left.serves hq hle) (serves_record h.right.serves hq hle), hgs⟩

theorem Matched.step_kfree (h : Matched σ τ fs us vs) (hσ : ∃ a ∈ σ.live, a.ptr = ptr)
    (hτ : ∃ a ∈ τ.live, a.ptr = ptr) : SameOutcome σ τ (.kfree ptr) := by
  obtain ⟨u, us', vs', htw, hp, hptr, hs, hs'⟩ := h.focus hσ hτ
  obtain ⟨s', t', gs, hrs, hrt, htw', hgs, hgt⟩ := htw.kfree hptr
  right
  exact ⟨NULL, _, _, gs, us', vs', by simp only [Call.exec, hrs, ok_bind], by
    simp only [Call.exec, hrt, ok_bind], h.of_twins htw' hp hgs hgt hs hs', hgs⟩

theorem Matched.step_krealloc (h : Matched σ τ fs us vs) (hσ : ∃ a ∈ σ.live, a.ptr = ptr)
    (hτ : ∃ a ∈ τ.live, a.ptr = ptr) (hsize0 : size ≠ 0) (hsize : size.toNat + 31 < 2 ^ 32)
    (hfit : Fits σ.heap fs (blockSize size)) : SameOutcome σ τ (.krealloc ptr size) := by
  obtain ⟨u, us', vs', htw, hp, hptr, hserves, hserves'⟩ := h.focus hσ hτ
  rcases htw.krealloc hptr hsize0 hsize hfit with
    ⟨hs, ht⟩ | ⟨q, s', t', gs, lo, hs, ht, hq, htw', hgs, hgt⟩
  · left
    simp only [Call.exec, hs, ht, error_bind, and_self]
  · right
    have hle : size.toNat % 2 ^ 32 + 16 ≤ blockSize size := by
      rw [Nat.mod_eq_of_lt size.isLt]
      exact (blockSize_bounds size).2.1
    have hne := ne_null_of_toNat hq
    refine ⟨q, _, _, gs, _, _, ?_, ?_, h.of_twins htw' (hp.cons _) hgs hgt
      (serves_record hserves hq hle) (serves_record hserves' hq hle), hgs⟩
    · simp only [Call.exec, hs, ok_bind, hne, false_and, if_false]
    · simp only [Call.exec, ht, ok_bind, hne, false_and, if_false]

/-- `krealloc` of `NULL` is `kmalloc`. -/
theorem Inv.exec_krealloc_null (h : Inv σ fs us) :
    (Call.krealloc NULL size).exec σ = (Call.kmalloc size).exec σ := by
  have hk : kreallocUnsafe NULL size σ.heap = kmallocUnsafe size σ.heap := by
    rw [kreallocUnsafe, if_pos rfl]
  simp only [Call.exec, hk, h.forget_null]
  cases kmallocUnsafe size σ.heap with
  | error e => rfl
  | ok r =>
    by_cases hr : r.1 = NULL
    · simp only [ok_bind, hr, record, if_true, ite_self]
    · simp only [ok_bind, hr, false_and, if_false]

/-- `krealloc` to no bytes is `kfree`. -/
theorem exec_krealloc_zero (hp : ptr ≠ NULL) :
    (Call.krealloc ptr 0).exec σ = (Call.kfree ptr).exec σ := by
  have hk : kreallocUnsafe ptr 0 σ.heap = (do
      let s ← kfreeUnsafe ptr σ.heap
      .ok (NULL, s)) := by
    rw [kreallocUnsafe, if_neg hp, if_pos rfl]
  simp only [Call.exec, hk]
  cases kfreeUnsafe ptr σ.heap with
  | error e => rfl
  | ok s =>
    simp only [ok_bind, ne_eq, not_true_eq_false, and_false, if_false, record, if_true]

theorem Inv.exec_kfree_null (h : Inv σ fs us) : (Call.kfree NULL).exec σ = .ok (NULL, σ) := by
  simp only [Call.exec, kfreeUnsafe, if_true, ok_bind, h.forget_null]

/-- The step lemma: a bounded call finds no memory in either session, or it returns the same pointer
in both and they have the same blocks again. -/
theorem Matched.step {c : Call} (h : Matched σ τ fs us vs) (hend : σ.heap.kheapEnd.toNat ≤ 2 ^ 31)
    (hc : c.Bounded σ) : SameOutcome σ τ c := by
  obtain ⟨ha, hle⟩ := hc
  have hb := h.alike.admissible ha
  cases c with
  | kmalloc size =>
    obtain ⟨hsize, hfit⟩ := h.left.fits_of_le hend hle
    exact h.step_kmalloc hsize hfit
  | kcalloc nelems elemsize =>
    simp only [Call.requested] at hle
    have hprod : (nelems * elemsize).toNat ≤ 2 ^ 31 - 2 ^ 13 := by
      rw [BitVec.toNat_mul, Nat.mod_eq_of_lt (by omega)]
      exact hle
    obtain ⟨hsize, hfit⟩ := h.left.fits_of_le hend hprod
    exact h.step_kcalloc hsize hfit
  | krealloc ptr size =>
    obtain ⟨hsize, hfit⟩ := h.left.fits_of_le hend hle
    by_cases hp : ptr = NULL
    · subst hp
      have hm := h.step_kmalloc hsize hfit
      rw [SameOutcome, ← h.left.exec_krealloc_null, ← h.right.exec_krealloc_null] at hm
      exact hm
    · have hσ := ha.resolve_left hp
      have hτ := hb.resolve_left hp
      by_cases hs0 : size = 0
      · subst hs0
        have hf := h.step_kfree hσ hτ
        rw [SameOutcome, ← exec_krealloc_zero hp, ← exec_krealloc_zero hp] at hf
        exact hf
      · exact h.step_krealloc hσ hτ hs0 hsize hfit
  | kfree ptr =>
    by_cases hp : ptr = NULL
    · subst hp
      right
      exact ⟨NULL, _, _, fs, us, vs, h.left.exec_kfree_null, h.right.exec_kfree_null, h, .refl _⟩
    · exact h.step_kfree (ha.resolve_left hp) (hb.resolve_left hp)
  | write addr value =>
    right
    exact ⟨NULL, _, _, fs, us, vs, rfl, rfl, ⟨h.left.write value ha, h.right.write value hb, h.perm,
      h.kheapBegin, h.kheapEnd, h.kheapMaxEnd⟩, rfl, rfl, .inl rfl⟩

end

/-! ## Runs -/

/-- What a run of calls returned, up to the first that the kernel does not survive, and how it
ended. -/
def runCalls : List Call → Session → List Word × Except Halt Session
  | [], σ => ([], .ok σ)
  | c :: cs, σ =>
    match c.exec σ with
    | .error e => ([], .error e)
    | .ok (q, σ') => (q :: (runCalls cs σ').1, (runCalls cs σ').2)

/-- Every call that is made is bounded where it is made. -/
def BoundedRun : List Call → Session → Prop
  | [], _ => True
  | c :: cs, σ => c.Bounded σ ∧ ∀ r ∈ (c.exec σ).toOption, BoundedRun cs r.2

instance Call.decidableAdmissible (σ : Session) : (c : Call) → Decidable (c.Admissible σ)
  | .kmalloc _ => .isTrue trivial
  | .kcalloc _ _ => .isTrue trivial
  | .krealloc ptr _ => inferInstanceAs (Decidable (ptr = NULL ∨ ∃ a ∈ σ.live, a.ptr = ptr))
  | .kfree ptr => inferInstanceAs (Decidable (ptr = NULL ∨ ∃ a ∈ σ.live, a.ptr = ptr))
  | .write addr _ => inferInstanceAs (Decidable (∃ a ∈ σ.live, a.ptr.toNat ≤ addr.toNat ∧
      addr.toNat < (extent σ.heap.mem a.ptr).hi))

instance Call.decidableBounded (σ : Session) (c : Call) : Decidable (c.Bounded σ) :=
  inferInstanceAs (Decidable (c.Admissible σ ∧ c.requested ≤ 2 ^ 31 - 2 ^ 13))

instance decidableBoundedRun : (cs : List Call) → (σ : Session) → Decidable (BoundedRun cs σ)
  | [], _ => .isTrue trivial
  | c :: cs, σ =>
    have := decidableBoundedRun cs
    inferInstanceAs (Decidable (c.Bounded σ ∧ ∀ r ∈ (c.exec σ).toOption, BoundedRun cs r.2))

/-- Both runs ran out of memory, or they ended in sessions that are alike again and have the same
free list. -/
def SameEnd : Except Halt Session → Except Halt Session → Prop
  | .error e, .error e' => e = outOfMemory ∧ e' = outOfMemory
  | .ok σ, .ok τ => Alike σ τ ∧ ∃ l, FreeList σ.heap l ∧ FreeList τ.heap l
  | .error _, .ok _ => False
  | .ok _, .error _ => False

section

variable {σ τ : Session} {fs us vs : List Interval}

/-- The run lemma. -/
theorem Matched.runCalls {cs : List Call} (h : Matched σ τ fs us vs)
    (hmax : σ.heap.kheapMaxEnd.toNat ≤ 2 ^ 31) (hc : BoundedRun cs σ) :
    (Heap.runCalls cs τ).1 = (Heap.runCalls cs σ).1 ∧
      SameEnd (Heap.runCalls cs σ).2 (Heap.runCalls cs τ).2 := by
  induction cs generalizing σ τ fs us vs with
  | nil => exact ⟨rfl, h.alike, fs, h.left.rep.freeList, h.right.rep.freeList⟩
  | cons c cs ih =>
    have hend := Nat.le_trans h.left.end_le hmax
    rcases h.step hend hc.1 with ⟨hs, ht⟩ | ⟨q, σ', τ', fs', us', vs', hs, ht, h', hg⟩
    · simp only [Heap.runCalls, hs, ht]
      exact ⟨trivial, rfl, rfl⟩
    · obtain ⟨hq, he⟩ := ih h' (by rw [hg.kheapMaxEnd]; exact hmax) (hc.2 (q, σ') (by rw [hs]; rfl))
      simp only [Heap.runCalls, hs, ht]
      exact ⟨by rw [hq], he⟩

variable {mbinfo : MultibootInfo} {kernelEnd : Word} {ie : Bool} {mem : Memory} {s : State}

/-- What the invariant gives two runs from one boot. -/
theorem Reachable.matched (hpos : 0 < kernelEnd.toNat)
    (hinit : kmallocInit mbinfo kernelEnd ie (boot mem) = .ok s)
    (hmax : s.kheapMaxEnd.toNat ≤ 2 ^ 31) (hσ : Reachable Call.Bounded s σ)
    (hτ : Reachable Call.Bounded s τ) (h : Alike σ τ) :
    (∃ fs us vs, Matched σ τ fs us vs) ∧ σ.heap.kheapMaxEnd.toNat ≤ 2 ^ 31 := by
  obtain ⟨⟨fs₀, h₀⟩, -⟩ := kmallocInit_inv (imageFits_of_max hinit hpos hmax) hinit
  have hend : ∀ {σ fs us}, Inv σ fs us → σ.heap.kheapMaxEnd = s.kheapMaxEnd →
      σ.heap.kheapEnd.toNat ≤ 2 ^ 31 := fun hi he ↦
    Nat.le_trans hi.end_le (by rw [he]; exact hmax)
  obtain ⟨⟨fs, us, hi⟩, hg⟩ := hσ.inv h₀ fun hi he hp ↦ ⟨hp.1, hp.noWrap (hend hi he)⟩
  obtain ⟨⟨gs, vs, hj⟩, hg'⟩ := hτ.inv h₀ fun hi he hp ↦ ⟨hp.1, hp.noWrap (hend hi he)⟩
  constructor
  · exact ⟨fs, us, vs, h.matched hi hj (hg'.kheapBegin.trans hg.kheapBegin.symm)
      (hg'.kheapMaxEnd.trans hg.kheapMaxEnd.symm)⟩
  · rw [hg.kheapMaxEnd]
    exact hmax

/-- The heap has no memory of its past: after two runs from one boot that leave the same live blocks
and the same end of the heap, whatever the free lists went through, every further run of calls
returns the same pointers, fails at the same call, and leaves the same blocks and free list. -/
theorem reachable_history (hpos : 0 < kernelEnd.toNat)
    (hinit : kmallocInit mbinfo kernelEnd ie (boot mem) = .ok s)
    (hmax : s.kheapMaxEnd.toNat ≤ 2 ^ 31) (hσ : Reachable Call.Bounded s σ)
    (hτ : Reachable Call.Bounded s τ) (h : Alike σ τ) (cs : List Call) (hc : BoundedRun cs σ) :
    (runCalls cs τ).1 = (runCalls cs σ).1 ∧ SameEnd (runCalls cs σ).2 (runCalls cs τ).2 := by
  obtain ⟨⟨fs, us, vs, hm⟩, hle⟩ := hσ.matched hpos hinit hmax hτ h
  exact hm.runCalls hle hc

end

/-! ### Two pasts on the machine with one region -/

/-- The calls of a bounded run lead to a session that can be reached. -/
theorem Reachable.runCalls {s : State} {σ σ' : Session} {cs : List Call}
    (h : Reachable Call.Bounded s σ) (hc : BoundedRun cs σ)
    (hr : (Heap.runCalls cs σ).2 = .ok σ') : Reachable Call.Bounded s σ' := by
  induction cs generalizing σ with
  | nil =>
    cases hr
    exact h
  | cons c cs ih =>
    cases he : c.exec σ with
    | error e =>
      simp only [Heap.runCalls, he] at hr
      cases hr
    | ok r =>
      simp only [Heap.runCalls, he] at hr
      exact ih (.step h hc.1 he) (hc.2 r (by rw [he]; rfl)) hr

def onePast : List Call := [.kmalloc 100, .kmalloc 200, .kfree 0x20A010]

/-- As `onePast`, with more coming and going where the first block was. -/
def otherPast : List Call :=
  [.kmalloc 100, .kmalloc 200, .kfree 0x20A010, .kmalloc 20, .kcalloc 2 8, .kfree 0x20A010,
    .kfree 0x20A040]

def future : List Call := [.kcalloc 5 8, .krealloc 0x20A090 1000, .kmalloc 200]

theorem reachable_history_oneRegion :
    ∃ s : State, ∃ σ τ : Session, oneRegionHeap = .ok s ∧ (runCalls onePast ⟨s, []⟩).2 = .ok σ ∧
      (runCalls otherPast ⟨s, []⟩).2 = .ok τ ∧ (runCalls future τ).1 = (runCalls future σ).1 ∧
      SameEnd (runCalls future σ).2 (runCalls future τ).2 := by
  obtain ⟨⟨s, σ, τ⟩, hex, hp⟩ := exists_ok
    (x := do
      let s ← oneRegionHeap
      let σ ← (runCalls onePast ⟨s, []⟩).2
      let τ ← (runCalls otherPast ⟨s, []⟩).2
      .ok (s, σ, τ))
    (p := fun (s, σ, τ) ↦ decide (s.kheapMaxEnd.toNat ≤ 2 ^ 31 ∧ BoundedRun onePast ⟨s, []⟩ ∧
      BoundedRun otherPast ⟨s, []⟩ ∧ BoundedRun future σ ∧ σ.live = τ.live ∧
      (∀ a ∈ σ.live, extent τ.heap.mem a.ptr = extent σ.heap.mem a.ptr) ∧
      τ.heap.kheapEnd = σ.heap.kheapEnd))
    (by decide +kernel)
  obtain ⟨s, hs, hex⟩ := bind_eq_ok.mp hex
  obtain ⟨σ, hσ, hex⟩ := bind_eq_ok.mp hex
  obtain ⟨τ, hτ, hex⟩ := bind_eq_ok.mp hex
  cases hex
  obtain ⟨hmax, hb, hb', hf, hlive, hext, hend⟩ := of_decide_eq_true hp
  exact ⟨s, σ, τ, hs, hσ, hτ, reachable_history (by decide) hs hmax (.runCalls .start hb hσ)
    (.runCalls .start hb' hτ) ⟨fun p ↦ by rw [hlive], hext, hend⟩ future hf⟩

end AlienOS.Heap
