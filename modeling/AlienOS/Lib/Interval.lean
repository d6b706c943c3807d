import Mathlib.Data.List.Basic
import Mathlib.Tactic.Common

/-!
# Interval — address-ordered lists of intervals with merging insertion

Half-open intervals of naturals, lists of them that are sorted and never touch, and the insertion
that fuses a new interval with the neighbours it touches.  A separated list is determined by the
set of points it covers, so it is a canonical form of that set.
-/

namespace AlienOS.Lib

structure Interval where
  lo : Nat
  len : Nat
  deriving DecidableEq, Repr

namespace Interval

def hi (i : Interval) : Nat := i.lo + i.len

instance : Membership Nat Interval := ⟨fun i x ↦ i.lo ≤ x ∧ x < i.hi⟩

theorem mem_iff {i : Interval} {x : Nat} : x ∈ i ↔ i.lo ≤ x ∧ x < i.lo + i.len := Iff.rfl

instance (i : Interval) (x : Nat) : Decidable (x ∈ i) := inferInstanceAs (Decidable (_ ∧ _))

def Apart (i j : Interval) : Prop := i.hi ≤ j.lo ∨ j.hi ≤ i.lo

instance (i j : Interval) : Decidable (i.Apart j) := inferInstanceAs (Decidable (_ ∨ _))

theorem Apart.symm {i j : Interval} (h : i.Apart j) : j.Apart i := Or.symm h

theorem Apart.sub {i j : Interval} {lo n : Nat} (h : i.Apart j) (hlo : j.lo ≤ lo)
    (hhi : lo + n ≤ j.lo + j.len) : i.Apart ⟨lo, n⟩ := by
  simp only [Apart, hi] at h ⊢
  omega

theorem Apart.not_mem {i j : Interval} (h : i.Apart j) {x : Nat} (hx : x ∈ i) : x ∉ j := by
  simp only [Apart, hi, mem_iff] at *
  omega

/-- Nonempty intervals without a common point are apart. -/
theorem apart_of_disjoint {i j : Interval} (hi : 0 < i.len) (hj : 0 < j.len)
    (h : ∀ x, x ∈ i → x ∉ j) : i.Apart j := by
  have h₁ := h i.lo
  have h₂ := h j.lo
  simp only [Apart, Interval.hi, mem_iff] at *
  omega

end Interval

/-! ## Covered points -/

def Covers (l : List Interval) (x : Nat) : Prop := ∃ i ∈ l, x ∈ i

instance (l : List Interval) (x : Nat) : Decidable (Covers l x) :=
  inferInstanceAs (Decidable (∃ i ∈ l, x ∈ i))

@[simp] theorem covers_nil (x : Nat) : ¬ Covers [] x := by simp [Covers]

@[simp] theorem covers_cons (i : Interval) (l : List Interval) (x : Nat) :
    Covers (i :: l) x ↔ x ∈ i ∨ Covers l x := by simp [Covers]

@[simp] theorem covers_append (l m : List Interval) (x : Nat) :
    Covers (l ++ m) x ↔ Covers l x ∨ Covers m x := by
  simp only [Covers, List.mem_append, or_and_right, exists_or]

/-! ## Separated lists -/

/-- Sorted by address, and no interval touches the next one. -/
def Separated (l : List Interval) : Prop := l.Pairwise fun i j ↦ i.hi < j.lo

theorem Separated.tail {i : Interval} {l : List Interval} (h : Separated (i :: l)) :
    Separated l := (List.pairwise_cons.mp h).2

theorem Separated.head_lt {i j : Interval} {l : List Interval} (h : Separated (i :: l))
    (hj : j ∈ l) : i.hi < j.lo := (List.pairwise_cons.mp h).1 j hj

theorem Separated.append {l m : List Interval} (h : Separated (l ++ m)) :
    Separated l ∧ Separated m ∧ ∀ i ∈ l, ∀ j ∈ m, i.hi < j.lo :=
  List.pairwise_append.mp h

theorem Separated.sublist {l m : List Interval} (h : Separated m) (hs : l.Sublist m) :
    Separated l := List.Pairwise.sublist hs h

theorem separated_remove {l m : List Interval} {i : Interval} (h : Separated (l ++ i :: m)) :
    Separated (l ++ m) :=
  h.sublist (List.Sublist.append_left (List.sublist_cons_self i m) l)

/-- An interval of a separated list may lose bytes at its front. -/
theorem Separated.shrink {l m : List Interval} {i j : Interval} (h : Separated (l ++ i :: m))
    (hlo : i.lo ≤ j.lo) (hhi : j.hi = i.hi) : Separated (l ++ j :: m) := by
  obtain ⟨h₁, h₂, h₃⟩ := h.append
  refine List.pairwise_append.mpr ⟨h₁, List.pairwise_cons.mpr ⟨fun k hk ↦ ?_, h₂.tail⟩, ?_⟩
  · rw [hhi]
    exact h₂.head_lt hk
  · intro k hk n hn
    rcases List.mem_cons.mp hn with rfl | hn
    · exact Nat.lt_of_lt_of_le (h₃ k hk i List.mem_cons_self) hlo
    · exact h₃ k hk n (List.mem_cons_of_mem _ hn)

/-- The first interval of a separated list ends where the run of covered points ends. -/
theorem Separated.not_covers_hi {i : Interval} {l : List Interval} (h : Separated (i :: l)) :
    ¬ Covers (i :: l) i.hi := by
  rintro ⟨j, hj, hx⟩
  rcases List.mem_cons.mp hj with rfl | hj
  · exact absurd hx.2 (Nat.lt_irrefl _)
  · exact absurd hx.1 (Nat.not_le.mpr (h.head_lt hj))

theorem Separated.lo_le_of_covers {i : Interval} {l : List Interval} (h : Separated (i :: l))
    {x : Nat} (hx : Covers (i :: l) x) : i.lo ≤ x := by
  obtain ⟨j, hj, hm⟩ := hx
  rcases List.mem_cons.mp hj with rfl | hj
  · exact hm.1
  · have hs := h.head_lt hj
    simp only [Interval.hi, Interval.mem_iff] at *
    omega

/-- Separated lists of nonempty intervals with the same points are the same list. -/
theorem separated_ext {l m : List Interval} (hl : Separated l) (hm : Separated m)
    (pl : ∀ i ∈ l, 0 < i.len) (pm : ∀ i ∈ m, 0 < i.len)
    (h : ∀ x, Covers l x ↔ Covers m x) : l = m := by
  induction l generalizing m with
  | nil =>
    cases m with
    | nil => rfl
    | cons j m =>
      have hj := pm j List.mem_cons_self
      have hc := (h j.lo).mpr ⟨j, List.mem_cons_self, by rw [Interval.mem_iff]; omega⟩
      exact absurd hc (covers_nil _)
  | cons i l ih =>
    have hi := pl i List.mem_cons_self
    have ci : Covers (i :: l) i.lo := ⟨i, List.mem_cons_self, by rw [Interval.mem_iff]; omega⟩
    cases m with
    | nil => exact absurd ((h i.lo).mp ci) (covers_nil _)
    | cons j m =>
      have hj := pm j List.mem_cons_self
      have cj : Covers (j :: m) j.lo := ⟨j, List.mem_cons_self, by rw [Interval.mem_iff]; omega⟩
      have hlo : i.lo = j.lo :=
        Nat.le_antisymm (hl.lo_le_of_covers ((h _).mpr cj)) (hm.lo_le_of_covers ((h _).mp ci))
      -- the end of the first run is the least uncovered point above its start
      have hhi : i.hi = j.hi := by
        rcases Nat.lt_trichotomy i.hi j.hi with hlt | heq | hlt
        · refine absurd ((h i.hi).mpr ⟨j, List.mem_cons_self, ?_⟩) hl.not_covers_hi
          exact ⟨by rw [← hlo]; simp [Interval.hi], hlt⟩
        · exact heq
        · refine absurd ((h j.hi).mp ⟨i, List.mem_cons_self, ?_⟩) hm.not_covers_hi
          exact ⟨by rw [hlo]; simp [Interval.hi], hlt⟩
      have hij : i = j := by
        cases i; cases j
        simp only [Interval.hi] at hhi hlo
        simp only [Interval.mk.injEq]
        omega
      subst hij
      congr 1
      refine ih hl.tail hm.tail (fun k hk ↦ pl k (List.mem_cons_of_mem _ hk))
        (fun k hk ↦ pm k (List.mem_cons_of_mem _ hk)) fun x ↦ ?_
      have hx := h x
      simp only [covers_cons] at hx
      by_cases hxi : x ∈ i
      · have hno : ∀ {n : List Interval}, Separated (i :: n) → ¬ Covers n x := by
          rintro n hn ⟨k, hk, hxk⟩
          have hs := hn.head_lt hk
          simp only [Interval.hi, Interval.mem_iff] at *
          omega
        exact iff_of_false (hno hl) (hno hm)
      · simpa only [hxi, false_or] using hx

/-- A maximal run of points with the property `p`. -/
structure IsRun (p : Nat → Prop) (i : Interval) : Prop where
  len_pos : 0 < i.len
  holds : ∀ x ∈ i, p x
  stops : ¬ p i.hi
  starts : i.lo = 0 ∨ ¬ p (i.lo - 1)

/-- `l` lists the maximal runs of `p` from the lowest to the highest. -/
def Runs (p : Nat → Prop) (l : List Interval) : Prop :=
  l.Pairwise (fun i j ↦ i.lo < j.lo) ∧ ∀ i, i ∈ l ↔ IsRun p i

/-- Two runs that share a point are the same. -/
theorem IsRun.eq_of_mem {p : Nat → Prop} {i j : Interval} (hi : IsRun p i) (hj : IsRun p j) {x : Nat}
    (hxi : x ∈ i) (hxj : x ∈ j) : i = j := by
  have hlo : ∀ {i j : Interval}, IsRun p i → IsRun p j → x ∈ i → x ∈ j → j.lo ≤ i.lo := by
    intro i j hi hj hxi hxj
    by_contra hlt
    rcases hj.starts with h₀ | hno
    · omega
    · refine hno (hi.holds _ ?_)
      rw [Interval.mem_iff] at *
      omega
  have hhi : ∀ {i j : Interval}, IsRun p i → IsRun p j → x ∈ i → x ∈ j → i.hi ≤ j.hi := by
    intro i j hi hj hxi hxj
    by_contra hlt
    refine hj.stops (hi.holds _ ?_)
    simp only [Interval.mem_iff, Interval.hi] at *
    omega
  have h₁ := Nat.le_antisymm (hlo hj hi hxj hxi) (hlo hi hj hxi hxj)
  have h₂ := Nat.le_antisymm (hhi hi hj hxi hxj) (hhi hj hi hxj hxi)
  cases i
  cases j
  simp only [Interval.hi, Interval.mk.injEq] at *
  omega

/-- A separated list of nonempty intervals is the list of the runs of the points it covers. -/
theorem Separated.runs {l : List Interval} (hl : Separated l) (pl : ∀ i ∈ l, 0 < i.len)
    {p : Nat → Prop} (hp : ∀ x, p x ↔ Covers l x) : Runs p l := by
  have hrun : ∀ i ∈ l, IsRun p i := by
    intro i hi
    have hpos := pl i hi
    obtain ⟨l₁, l₂, rfl⟩ := List.append_of_mem hi
    obtain ⟨-, s₂, s₃⟩ := hl.append
    -- every other interval ends before `i` starts, or starts after its end
    have hout : ∀ x, Covers (l₁ ++ i :: l₂) x → x ∉ i → x + 1 < i.lo ∨ i.hi < x := by
      intro x hx hxi
      obtain ⟨j, hj, hxj⟩ := hx
      rcases List.mem_append.mp hj with hj | hj
      · have := s₃ j hj i List.mem_cons_self
        simp only [Interval.hi, Interval.mem_iff] at *
        omega
      · rcases List.mem_cons.mp hj with rfl | hj
        · exact absurd hxj hxi
        · have := s₂.head_lt hj
          rw [Interval.mem_iff] at hxj
          exact .inr (Nat.lt_of_lt_of_le this hxj.1)
    refine ⟨hpos, fun x hx ↦ (hp x).mpr ⟨i, hi, hx⟩, fun hc ↦ ?_, ?_⟩
    · have := hout i.hi ((hp _).mp hc) fun h ↦ Nat.lt_irrefl _ h.2
      simp only [Interval.hi] at this
      omega
    · by_cases h₀ : i.lo = 0
      · exact .inl h₀
      · refine .inr fun hc ↦ ?_
        have := hout (i.lo - 1) ((hp _).mp hc) fun h ↦ by
          rw [Interval.mem_iff] at h
          omega
        simp only [Interval.hi] at this
        omega
  refine ⟨hl.imp_of_mem fun {i j} hi _ hij ↦ ?_, fun i ↦ ⟨hrun i, fun hi ↦ ?_⟩⟩
  · have := pl i hi
    simp only [Interval.hi] at hij
    omega
  · have hlo : i.lo ∈ i := Interval.mem_iff.mpr ⟨Nat.le_refl _, by have := hi.len_pos; omega⟩
    obtain ⟨j, hj, hx⟩ := (hp _).mp (hi.holds _ hlo)
    rwa [hi.eq_of_mem (hrun j hj) hlo hx]

/-- A separated list of nonempty intervals between `a` and `b` has at most `b - a` members. -/
theorem Separated.length_add_le {l : List Interval} (hl : Separated l) {a b : Nat} (hab : a ≤ b)
    (h : ∀ i ∈ l, 0 < i.len ∧ a ≤ i.lo ∧ i.hi ≤ b) : l.length + a ≤ b := by
  induction l generalizing a with
  | nil => simpa using hab
  | cons i l ih =>
    obtain ⟨hp, hlo, hhi⟩ := h i List.mem_cons_self
    simp only [Interval.hi] at hhi
    have := ih hl.tail (a := a + 1) (by omega) fun j hj ↦ by
      have hij := hl.head_lt hj
      have := h j (List.mem_cons_of_mem _ hj)
      simp only [Interval.hi] at hij
      omega
    simp only [List.length_cons]
    omega

/-! ## Insertion with merging -/

/-- Put `i` before `l`, fused with the first interval of `l` when the two touch. -/
def absorb (i : Interval) : List Interval → List Interval
  | [] => [i]
  | j :: l => if i.hi = j.lo then ⟨i.lo, i.len + j.len⟩ :: l else i :: j :: l

def insertMerge (i : Interval) : List Interval → List Interval
  | [] => [i]
  | j :: l => if i.lo < j.lo then absorb i (j :: l) else absorb j (insertMerge i l)

@[simp] theorem absorb_nil (i : Interval) : absorb i [] = [i] := rfl

theorem absorb_of_touch {i j : Interval} (l : List Interval) (h : i.hi = j.lo) :
    absorb i (j :: l) = ⟨i.lo, i.len + j.len⟩ :: l := if_pos h

theorem absorb_of_lt {i : Interval} {l : List Interval} (h : ∀ j ∈ l, i.hi < j.lo) :
    absorb i l = i :: l := by
  cases l with
  | nil => rfl
  | cons j l => exact if_neg (Nat.ne_of_lt (h j List.mem_cons_self))

theorem covers_absorb (i : Interval) (l : List Interval) (x : Nat) :
    Covers (absorb i l) x ↔ x ∈ i ∨ Covers l x := by
  cases l with
  | nil => simp
  | cons j l =>
    by_cases h : i.hi = j.lo
    · rw [absorb_of_touch l h, covers_cons, covers_cons, ← or_assoc]
      apply or_congr_left
      simp only [Interval.hi, Interval.mem_iff] at *
      omega
    · rw [absorb, if_neg h, covers_cons]

theorem covers_insertMerge (i : Interval) (l : List Interval) (x : Nat) :
    Covers (insertMerge i l) x ↔ x ∈ i ∨ Covers l x := by
  induction l with
  | nil => simp [insertMerge]
  | cons j l ih =>
    rw [insertMerge]
    split
    · exact covers_absorb i (j :: l) x
    · rw [covers_absorb, ih, covers_cons, or_left_comm]

theorem absorb_head_lo (i : Interval) (l : List Interval) :
    ∃ k m, absorb i l = k :: m ∧ k.lo = i.lo := by
  cases l with
  | nil => exact ⟨i, [], rfl, rfl⟩
  | cons j l =>
    by_cases h : i.hi = j.lo
    · exact ⟨_, l, absorb_of_touch l h, rfl⟩
    · exact ⟨i, j :: l, if_neg h, rfl⟩

/-- Every interval of the result starts where an old interval or the new one did. -/
theorem mem_absorb_lo {i k : Interval} {l : List Interval} (h : k ∈ absorb i l) :
    k.lo = i.lo ∨ ∃ j ∈ l, k.lo = j.lo := by
  cases l with
  | nil => simp only [absorb_nil, List.mem_singleton] at h; exact .inl (by rw [h])
  | cons j l =>
    rw [absorb] at h
    split at h <;> simp only [List.mem_cons] at h
    · rcases h with rfl | h
      · exact .inl rfl
      · exact .inr ⟨k, List.mem_cons_of_mem _ h, rfl⟩
    · rcases h with rfl | rfl | h
      · exact .inl rfl
      · exact .inr ⟨k, List.mem_cons_self, rfl⟩
      · exact .inr ⟨k, List.mem_cons_of_mem _ h, rfl⟩

theorem mem_insertMerge_lo {i k : Interval} {l : List Interval} (h : k ∈ insertMerge i l) :
    k.lo = i.lo ∨ ∃ j ∈ l, k.lo = j.lo := by
  induction l generalizing k with
  | nil => exact mem_absorb_lo h
  | cons j l ih =>
    rw [insertMerge] at h
    split at h
    · exact mem_absorb_lo h
    · rcases mem_absorb_lo h with hk | ⟨k', hk', he⟩
      · exact .inr ⟨j, List.mem_cons_self, hk⟩
      · rcases ih hk' with h' | ⟨m, hm, h'⟩
        · exact .inl (he.trans h')
        · exact .inr ⟨m, List.mem_cons_of_mem _ hm, he.trans h'⟩

/-- A property that fusing keeps passes from the old intervals to the result. -/
theorem forall_mem_absorb {P : Interval → Prop}
    (hP : ∀ i j : Interval, i.hi = j.lo → P i → P j → P ⟨i.lo, i.len + j.len⟩) {i : Interval} {l : List Interval}
    (hi : P i) (hl : ∀ j ∈ l, P j) : ∀ k ∈ absorb i l, P k := by
  intro k hk
  cases l with
  | nil => rw [absorb_nil, List.mem_singleton] at hk; rwa [hk]
  | cons j l =>
    rw [absorb] at hk
    split at hk
    · rename_i ht
      rcases List.mem_cons.mp hk with rfl | hk
      · exact hP i j ht hi (hl j List.mem_cons_self)
      · exact hl k (List.mem_cons_of_mem _ hk)
    · rcases List.mem_cons.mp hk with rfl | hk
      · exact hi
      · exact hl k hk

theorem forall_mem_insertMerge {P : Interval → Prop}
    (hP : ∀ i j : Interval, i.hi = j.lo → P i → P j → P ⟨i.lo, i.len + j.len⟩) {i : Interval} {l : List Interval}
    (hi : P i) (hl : ∀ j ∈ l, P j) : ∀ k ∈ insertMerge i l, P k := by
  induction l with
  | nil => exact forall_mem_absorb hP hi hl
  | cons j l ih =>
    rw [insertMerge]
    split
    · exact forall_mem_absorb hP hi hl
    · exact forall_mem_absorb hP (hl j List.mem_cons_self)
        (ih fun k hk ↦ hl k (List.mem_cons_of_mem _ hk))

theorem separated_absorb {i : Interval} {l : List Interval} (hl : Separated l)
    (pl : ∀ j ∈ l, 0 < j.len) (h : ∀ j ∈ l, i.hi ≤ j.lo) : Separated (absorb i l) := by
  cases l with
  | nil => simp [Separated]
  | cons j l =>
    have hji := h j List.mem_cons_self
    have hj := pl j List.mem_cons_self
    by_cases ht : i.hi = j.lo
    · rw [absorb_of_touch l ht]
      refine List.pairwise_cons.mpr ⟨fun k hk ↦ ?_, hl.tail⟩
      have := hl.head_lt hk
      simp only [Interval.hi] at *
      omega
    · rw [absorb, if_neg ht]
      refine List.pairwise_cons.mpr ⟨fun k hk ↦ ?_, hl⟩
      rcases List.mem_cons.mp hk with rfl | hk
      · omega
      · have := hl.head_lt hk
        simp only [Interval.hi] at *
        omega

theorem separated_insertMerge {i : Interval} {l : List Interval} (hl : Separated l)
    (pi : 0 < i.len) (pl : ∀ j ∈ l, 0 < j.len) (h : ∀ j ∈ l, i.Apart j) :
    Separated (insertMerge i l) := by
  induction l with
  | nil => simp [insertMerge, Separated]
  | cons j l ih =>
    have hij := h j List.mem_cons_self
    have hj := pl j List.mem_cons_self
    have pl' : ∀ k ∈ l, 0 < k.len := fun k hk ↦ pl k (List.mem_cons_of_mem _ hk)
    have h' : ∀ k ∈ l, i.Apart k := fun k hk ↦ h k (List.mem_cons_of_mem _ hk)
    rw [insertMerge]
    split
    · rename_i hlt
      refine separated_absorb hl pl fun k hk ↦ ?_
      rcases List.mem_cons.mp hk with rfl | hk
      · simp only [Interval.Apart, Interval.hi] at *; omega
      · have := hl.head_lt hk
        simp only [Interval.Apart, Interval.hi] at *; omega
    · rename_i hge
      have pos : ∀ k ∈ insertMerge i l, 0 < k.len :=
        forall_mem_insertMerge (P := fun k ↦ 0 < k.len)
          (fun _ _ _ h _ ↦ Nat.lt_of_lt_of_le h (Nat.le_add_right _ _)) pi pl'
      refine separated_absorb (ih hl.tail pl' h') pos fun k hk ↦ ?_
      rcases mem_insertMerge_lo hk with he | ⟨m, hm, he⟩
      · simp only [Interval.Apart, Interval.hi] at *; omega
      · have := hl.head_lt hm
        omega

/-- Insertion after a last smaller interval `p` only looks at `p` and at what follows. -/
theorem insertMerge_append {l m : List Interval} {p i : Interval}
    (hl : Separated (l ++ p :: m)) (hlo : ∀ j ∈ l ++ [p], j.lo ≤ i.lo)
    (hhi : ∀ j ∈ m, i.lo < j.lo) :
    insertMerge i (l ++ p :: m) = l ++ absorb p (absorb i m) := by
  have hm : insertMerge i m = absorb i m := by
    cases m with
    | nil => rfl
    | cons j m => rw [insertMerge, if_pos (hhi j List.mem_cons_self)]
  induction l with
  | nil =>
    rw [List.nil_append, insertMerge, if_neg (Nat.not_lt.mpr (hlo p (by simp))), hm]
    rfl
  | cons j l ih =>
    rw [List.cons_append, insertMerge, if_neg (Nat.not_lt.mpr (hlo j (by simp))),
      ih hl.tail fun k hk ↦ hlo k (List.mem_cons_of_mem _ hk), List.cons_append]
    -- the part below the insertion point keeps its distance to what follows
    have hnext : ∃ k n, l ++ absorb p (absorb i m) = k :: n ∧ j.hi < k.lo := by
      cases l with
      | nil =>
        obtain ⟨k, n, hk, he⟩ := absorb_head_lo p (absorb i m)
        exact ⟨k, n, hk, by rw [he]; exact hl.head_lt (by simp)⟩
      | cons k l => exact ⟨k, _, rfl, hl.head_lt (by simp)⟩
    obtain ⟨k, n, hk, hlt⟩ := hnext
    rw [hk, absorb, if_neg (Nat.ne_of_lt hlt)]

/-! ## Tilings -/

/-- The intervals follow each other without gap or overlap from `a` to `b`. -/
def Tiles : List Interval → Nat → Nat → Prop
  | [], a, b => a = b
  | i :: l, a, b => i.lo = a ∧ Tiles l i.hi b

/-- Pairwise apart intervals that cover exactly a range tile it in some order. -/
theorem exists_tiles {l : List Interval} {a b : Nat} (hap : l.Pairwise Interval.Apart)
    (hpos : ∀ i ∈ l, 0 < i.len) (hab : a ≤ b) (hcov : ∀ x, a ≤ x ∧ x < b ↔ Covers l x) :
    ∃ m, l.Perm m ∧ Tiles m a b := by
  induction hn : l.length generalizing l a with
  | zero =>
    obtain rfl := List.length_eq_zero_iff.mp hn
    refine ⟨[], .nil, Nat.le_antisymm hab ?_⟩
    exact Nat.not_lt.mp fun h ↦ covers_nil a ((hcov a).mp ⟨Nat.le_refl _, h⟩)
  | succ n ih =>
    have hlo : ∀ i ∈ l, a ≤ i.lo ∧ i.hi ≤ b := fun i hi ↦ by
      have h₁ := (hcov i.lo).mpr ⟨i, hi, Interval.mem_iff.mpr (by have := hpos i hi; omega)⟩
      have h₂ := (hcov (i.lo + i.len - 1)).mpr ⟨i, hi, Interval.mem_iff.mpr (by
        have := hpos i hi; omega)⟩
      simp only [Interval.hi]
      omega
    -- the interval that covers `a` starts there
    obtain ⟨i, hi, hai⟩ : Covers l a := by
      obtain ⟨j, m, rfl⟩ := List.exists_cons_of_length_eq_add_one hn
      have h₁ := hlo j List.mem_cons_self
      have h₂ := hpos j List.mem_cons_self
      simp only [Interval.hi] at h₁
      exact (hcov a).mp (by omega)
    have hia : i.lo = a := Nat.le_antisymm hai.1 (hlo i hi).1
    obtain ⟨l₁, l₂, rfl⟩ := List.append_of_mem hi
    have hperm : (l₁ ++ i :: l₂).Perm (i :: (l₁ ++ l₂)) := List.perm_middle
    have hap' := List.pairwise_cons.mp ((hperm.pairwise_iff fun h ↦ h.symm).mp hap)
    have hrest : ∀ x, i.hi ≤ x ∧ x < b ↔ Covers (l₁ ++ l₂) x := fun x ↦ by
      have hx := hcov x
      have hc : Covers (l₁ ++ i :: l₂) x ↔ x ∈ i ∨ Covers (l₁ ++ l₂) x := by
        simp only [covers_append, covers_cons]
        tauto
      rw [hc] at hx
      constructor
      · intro h
        refine (hx.mp (by simp only [Interval.hi] at h; omega)).resolve_left fun hxi ↦ ?_
        exact absurd hxi.2 (Nat.not_lt.mpr h.1)
      · rintro ⟨j, hj, hxj⟩
        have h₁ := hx.mpr (.inr ⟨j, hj, hxj⟩)
        have h₂ := (hap'.1 j hj).symm.not_mem hxj
        simp only [Interval.mem_iff, Interval.hi] at h₂ ⊢
        omega
    obtain ⟨m, hm, ht⟩ := ih (l := l₁ ++ l₂) (a := i.hi) hap'.2
      (fun j hj ↦ hpos j (hperm.mem_iff.mpr (List.mem_cons_of_mem _ hj))) (hlo i hi).2 hrest
      (by simp only [List.length_append, List.length_cons] at hn ⊢; omega)
    exact ⟨i :: m, hperm.trans (hm.cons i), hia, ht⟩

end AlienOS.Lib
