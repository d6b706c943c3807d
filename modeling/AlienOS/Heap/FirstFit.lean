import AlienOS.Heap.Canonical

/-!
# FirstFit — `_kmalloc_unsafe` refines an allocator of intervals

The allocator as its callers may think of it: a list of free intervals and the end of the heap.  The
code is shown to take every step of it, on headers and pointers.
-/

open AlienOS.Lib

namespace AlienOS.Heap

/-! ## The abstract allocator -/

/-- What is left of an interval behind its first `t` bytes, if anything is. -/
def remainder (i : Interval) (t : Nat) : List Interval :=
  if i.len = t then [] else [⟨i.lo + t, i.len - t⟩]

/-- Take `t` bytes from the start of the first interval that has as many. -/
def takeFirst (t : Nat) : List Interval → Option (Nat × List Interval)
  | [] => none
  | i :: l =>
    if t ≤ i.len then some (i.lo, remainder i t ++ l)
    else (takeFirst t l).map fun r ↦ (r.1, i :: r.2)

/-- The free intervals of the heap and its end. -/
structure FreeSpace where
  free : List Interval
  stop : Nat

/-- `t` bytes from the first free interval that has as many or, when there is none, from pages
added at the end of the heap, as long as that does not pass `max`. -/
def FreeSpace.allocate (max t : Nat) (f : FreeSpace) : Option (Nat × FreeSpace) :=
  match takeFirst t f.free with
  | some (lo, free) => some (lo, ⟨free, f.stop⟩)
  | none =>
    if max < f.stop + roundUp 4096 t then none
    else some (f.stop, ⟨f.free ++ remainder ⟨f.stop, roundUp 4096 t⟩ t, f.stop + roundUp 4096 t⟩)

example : (FreeSpace.mk [⟨16, 32⟩, ⟨64, 128⟩] 4096).allocate 8192 48 =
    some (64, ⟨[⟨16, 32⟩, ⟨112, 80⟩], 4096⟩) := rfl

/-- The state of the heap carries the free space `f`. -/
structure Carries (s : State) (f : FreeSpace) : Prop where
  free : FreeList s f.free
  sorted : Separated f.free
  stop : s.kheapEnd.toNat = f.stop

theorem takeFirst_of_firstFit {fs l m : List Interval} {k : Interval} {t : Nat}
    (h : FirstFit fs t l k m) : takeFirst t fs = some (k.lo, l ++ (remainder k t ++ m)) := by
  obtain ⟨rfl, hall, hk⟩ := h
  induction l with
  | nil => exact if_pos hk
  | cons i l ih =>
    have hi := hall i List.mem_cons_self
    rw [List.cons_append, takeFirst, if_neg (Nat.not_le.mpr hi),
      ih fun j hj ↦ hall j (List.mem_cons_of_mem _ hj)]
    rfl

theorem takeFirst_none {fs : List Interval} {t : Nat} (h : ∀ j ∈ fs, j.len < t) :
    takeFirst t fs = none := by
  induction fs with
  | nil => rfl
  | cons i l ih =>
    rw [takeFirst, if_neg (Nat.not_le.mpr (h i List.mem_cons_self)),
      ih fun j hj ↦ h j (List.mem_cons_of_mem _ hj)]
    rfl

theorem covers_remainder {i : Interval} {t : Nat} (h : t ≤ i.len) (x : Nat) :
    Covers (remainder i t) x ↔ x ∈ i ∧ i.lo + t ≤ x := by
  unfold remainder
  split
  · simp only [covers_nil, Interval.mem_iff, false_iff]
    omega
  · simp only [covers_cons, covers_nil, or_false, Interval.mem_iff]
    omega

theorem remainder_pos {i : Interval} {t : Nat} (h : t ≤ i.len) : ∀ j ∈ remainder i t, 0 < j.len := by
  unfold remainder
  split
  · simp
  · simpa using by omega

theorem separated_remainder {l m : List Interval} {i : Interval} {t : Nat}
    (h : Separated (l ++ i :: m)) (ht : t ≤ i.len) : Separated (l ++ (remainder i t ++ m)) := by
  unfold remainder
  split
  · exact separated_remove h
  · refine h.shrink (Nat.le_add_right _ _) ?_
    simp only [Interval.hi]
    omega

/-! ## The code takes its steps -/

section

variable {s s' : State} {fs us : List Interval} {n lo : Nat}

/-- After `t` bytes were taken from the free interval `k`. -/
theorem Rep.freeList_of_take {l m fs' : List Interval} {k : Interval} {t : Nat}
    (h : Rep s (l ++ k :: m) us) (h' : Rep s' fs' (⟨k.lo, t⟩ :: us)) (hg : Grows s s')
    (he : s'.kheapEnd = s.kheapEnd) (ht : t ≤ k.len) : fs' = l ++ (remainder k t ++ m) := by
  have hp := h.partition
  refine h'.free_eq (separated_remainder hp.separated ht) (fun j hj ↦ ?_) fun x ↦ ?_
  · rcases List.mem_append.mp hj with hj | hj
    · exact h.free_pos j (List.mem_append_left _ hj)
    · rcases List.mem_append.mp hj with hj | hj
      · exact remainder_pos ht j hj
      · exact h.free_pos j (List.mem_append_right _ (List.mem_cons_of_mem _ hj))
  · -- the other free intervals are apart from `k`, and its first bytes are used now
    have hk : x ∈ k → ¬ Covers (l ++ m) x := hp.take.not_free_of_used List.mem_cons_self
    have hx := h.covers_free x
    rw [hg.kheapBegin, he]
    simp only [covers_append, covers_cons, covers_remainder ht, Interval.mem_iff] at hx hk ⊢
    constructor
    · intro hc
      have hc' := hx.mp (by tauto)
      refine ⟨hc'.1, not_or.mpr ⟨fun hin ↦ ?_, hc'.2⟩⟩
      rcases hc with hc | ⟨-, hc⟩ | hc
      · exact hk (by omega) (.inl hc)
      · omega
      · exact hk (by omega) (.inr hc)
    · rintro ⟨hb, hno⟩
      obtain ⟨h₁, h₂⟩ := not_or.mp hno
      rcases hx.mpr ⟨hb, h₂⟩ with hc | hc | hc
      · exact .inl hc
      · exact .inr (.inl ⟨hc, by omega⟩)
      · exact .inr (.inr hc)

/-- After the heap was extended by `n` bytes, of which the first `t` were taken. -/
theorem Rep.freeList_of_extend {fs' : List Interval} {t : Nat} (h : Rep s fs us)
    (h' : Rep s' fs' (⟨s.kheapEnd.toNat, t⟩ :: us)) (hg : Grows s s')
    (he : s'.kheapEnd.toNat = s.kheapEnd.toNat + n) (ht0 : 0 < t) (ht : t ≤ n) :
    fs' = fs ++ remainder ⟨s.kheapEnd.toNat, n⟩ t := by
  have hp := h.partition
  refine h'.free_eq ?_ (fun j hj ↦ ?_) fun x ↦ ?_
  · unfold remainder
    split
    · simpa using hp.separated
    · refine List.pairwise_append.mpr ⟨hp.separated, List.pairwise_singleton _ _, fun i hi j hj ↦ ?_⟩
      have := (hp.free_in_range hi).2
      rw [List.mem_singleton.mp hj]
      dsimp only
      omega
  · rcases List.mem_append.mp hj with hj | hj
    · exact h.free_pos j hj
    · exact remainder_pos ht j hj
  · have hle := h.bounds.le
    have hus : Covers us x → x < s.kheapEnd.toNat := fun ⟨u, hu, hx⟩ ↦ hp.lt_of_used hu hx
    rw [covers_append, covers_remainder (i := ⟨s.kheapEnd.toNat, n⟩) ht, h.covers_free,
      hg.kheapBegin, he, covers_cons]
    simp only [Interval.mem_iff]
    constructor
    · rintro (⟨hx, hno⟩ | hx)
      · exact ⟨by omega, not_or.mpr ⟨by omega, hno⟩⟩
      · exact ⟨by omega, not_or.mpr ⟨by omega, fun hc ↦ by have := hus hc; omega⟩⟩
    · rintro ⟨hx, hno⟩
      obtain ⟨h₁, h₂⟩ := not_or.mp hno
      by_cases hlt : x < s.kheapEnd.toNat
      · exact .inl ⟨by omega, h₂⟩
      · exact .inr (by omega)

theorem Rep.carries (h : Rep s fs us) : Carries s ⟨fs, s.kheapEnd.toNat⟩ :=
  ⟨h.freeList, h.partition.separated, rfl⟩

end

/-- `_kmalloc_unsafe` on a represented heap is first fit on its free intervals. -/
theorem Rep.kmalloc_firstFit {s : State} {fs us : List Interval} {size : Word} (h : Rep s fs us)
    (hsize : size.toNat + 31 < 2 ^ 32) (hfit : Fits s fs (blockSize size)) :
    match FreeSpace.allocate s.kheapMaxEnd.toNat (blockSize size) ⟨fs, s.kheapEnd.toNat⟩ with
    | none => kmallocUnsafe size s = .error outOfMemory
    | some (lo, f) => ∃ q s', kmallocUnsafe size s = .ok (q, s') ∧ q.toNat = lo + 16 ∧
        Carries s' f ∧ extent s'.mem q = ⟨lo, blockSize size⟩ := by
  obtain ⟨-, hb, -⟩ := blockSize_bounds size
  rcases kmallocUnsafe_spec h hsize hfit with
    ⟨he, hall, hmax⟩ | ⟨q, s', hr, ⟨fs', lo, hq, hrep, hg, -⟩, hsource⟩
  · simp only [FreeSpace.allocate, takeFirst_none hall, if_pos hmax, he]
  · have hlo : q.toNat - 16 = lo := by omega
    rw [hlo] at hsource
    have hext : extent s'.mem q = ⟨lo, blockSize size⟩ := hrep.extent_eq List.mem_cons_self hq
    rcases hsource with ⟨l, k, m, hf, rfl, hend⟩ | ⟨hall, rfl, hend⟩
    · simp only [FreeSpace.allocate, takeFirst_of_firstFit hf]
      obtain ⟨rfl, -, hk⟩ := hf
      obtain rfl := h.freeList_of_take hrep hg hend hk
      exact ⟨q, s', hr, hq, hend ▸ hrep.carries, hext⟩
    · have hmax : ¬ s.kheapMaxEnd.toNat < s.kheapEnd.toNat + roundUp 4096 (blockSize size) := by
        have hle := le_roundUp_4096 (blockSize size)
        rcases hg.kheapEnd with he | he
        · rw [he] at hend
          omega
        · omega
      simp only [FreeSpace.allocate, takeFirst_none hall, if_neg hmax]
      obtain rfl := h.freeList_of_extend hrep hg hend (by omega) (le_roundUp_4096 _)
      exact ⟨q, s', hr, hq, hend ▸ hrep.carries, hext⟩

section

variable {mbinfo : MultibootInfo} {kernelEnd : Word} {ie : Bool} {mem : Memory} {s : State}
  {σ : Session}

/-- Along every run `_kmalloc_unsafe` does to the free list, the end of the heap and its new block
what the allocator of intervals does, and panics exactly when that one has no answer. -/
theorem reachable_kmalloc_firstFit (hpos : 0 < kernelEnd.toNat)
    (hinit : kmallocInit mbinfo kernelEnd ie (boot mem) = .ok s)
    (hmax : s.kheapMaxEnd.toNat ≤ 2 ^ 31) (hr : Reachable Call.Safe s σ) {size : Word}
    (hsize : size.toNat ≤ 2 ^ 31 - 2 ^ 13) :
    ∃ f, Carries σ.heap f ∧
      match f.allocate σ.heap.kheapMaxEnd.toNat (blockSize size) with
      | none => kmallocUnsafe size σ.heap = .error outOfMemory
      | some (lo, f') => ∃ q s', kmallocUnsafe size σ.heap = .ok (q, s') ∧ q.toNat = lo + 16 ∧
          Carries s' f' ∧ extent s'.mem q = ⟨lo, blockSize size⟩ := by
  obtain ⟨⟨fs, us, hi⟩, hend⟩ := hr.inv_of_safe hpos hinit hmax
  obtain ⟨hs, hfit⟩ := (noWrap_of_le hend hsize).resolve_right fun h ↦ by
    have := h.1
    omega
  exact ⟨_, hi.rep.carries, hi.rep.kmalloc_firstFit hs (hi.rep.fits hfit)⟩

theorem reachable_kmalloc_firstFit_oneRegion :
    ∃ s, oneRegionHeap = .ok s ∧ ∃ f, Carries s f ∧
      match f.allocate s.kheapMaxEnd.toNat (blockSize 100) with
      | none => kmallocUnsafe 100 s = .error outOfMemory
      | some (lo, f') => ∃ q s', kmallocUnsafe 100 s = .ok (q, s') ∧ q.toNat = lo + 16 ∧
          Carries s' f' ∧ extent s'.mem q = ⟨lo, blockSize 100⟩ := by
  obtain ⟨s, hs, hp⟩ := oneRegionHeap_ok
  exact ⟨s, hs, reachable_kmalloc_firstFit (by decide) hs (of_decide_eq_true hp).1 .start
    (by decide)⟩

end

end AlienOS.Heap
