import Mathlib.Data.Nat.Digits.Lemmas

/-!
# Numeral — numbers in positional notation
-/

namespace AlienOS.Lib

/-- A symbol for every digit to a base, and the way back. -/
structure Numerals (σ : Type) where
  base : Nat
  symbol : Nat → σ
  digit : σ → Option Nat
  one_lt : 1 < base
  digit_symbol : ∀ i < base, digit (symbol i) = some i

namespace Numerals

variable {σ : Type} (S : Numerals σ)

/-- The digits of a number, the most significant first. -/
def numeral (n : Nat) : List σ :=
  if n = 0 then [S.symbol 0] else ((S.base.digits n).map S.symbol).reverse

/-- What a string of symbols reads as. -/
def value (s : List σ) : Option Nat :=
  (s.mapM S.digit).map fun ds ↦ Nat.ofDigits S.base ds.reverse

/-- `s` reads as `n` and has no zero in front. -/
structure Denotes (s : List σ) (n : Nat) : Prop where
  nonempty : s ≠ []
  value : S.value s = some n
  leading : s.head? = some (S.symbol 0) → s = [S.symbol 0]

variable {S}

theorem symbol_ne_zero {i : Nat} (h : i < S.base) (hi : i ≠ 0) : S.symbol i ≠ S.symbol 0 := by
  intro heq
  have hzero := S.digit_symbol 0 (Nat.zero_lt_of_lt h)
  rw [← heq, S.digit_symbol i h] at hzero
  exact hi (Option.some.inj hzero)

theorem mapM_digit : ∀ {ds : List Nat}, (∀ i ∈ ds, i < S.base) →
    (ds.map S.symbol).mapM S.digit = some ds := by
  intro ds
  induction ds with
  | nil => exact fun _ ↦ rfl
  | cons i ds ih =>
    intro h
    rw [List.map_cons, List.mapM_cons, S.digit_symbol i (h i List.mem_cons_self),
      ih fun j hj ↦ h j (List.mem_cons_of_mem _ hj)]
    rfl

variable (S)

/-- The numeral of a number reads as that number, and no zero stands in front of it. -/
theorem numeral_denotes (n : Nat) : S.Denotes (S.numeral n) n := by
  unfold numeral
  split
  · rename_i hn
    refine ⟨List.cons_ne_nil _ _, ?_, fun _ ↦ rfl⟩
    have hread : ([0].map S.symbol).mapM S.digit = some [0] :=
      mapM_digit (by simpa using Nat.zero_lt_of_lt S.one_lt)
    unfold value
    rw [show [S.symbol 0] = [0].map S.symbol from rfl, hread, hn]
    rfl
  · rename_i hn
    have hlt : ∀ i ∈ S.base.digits n, i < S.base := fun i hi ↦ Nat.digits_lt_base S.one_lt hi
    have hne : S.base.digits n ≠ [] := Nat.digits_ne_nil_iff_ne_zero.mpr hn
    constructor
    case nonempty => simpa using hne
    case value =>
      unfold value
      rw [← List.map_reverse, mapM_digit fun i hi ↦ hlt i (List.mem_reverse.mp hi)]
      simp [Nat.ofDigits_digits]
    case leading =>
      -- the digit in front is the last one the divisions give
      intro hhead
      rw [List.head?_reverse, List.getLast?_map, List.getLast?_eq_some_getLast hne] at hhead
      have hlast := hlt _ (List.getLast_mem hne)
      exact absurd (Option.some.inj hhead)
        (symbol_ne_zero hlast (Nat.getLast_digit_ne_zero S.base hn))

/-- What reads as a number consists of digits. -/
theorem digit_of_mapM : ∀ {s : List σ} {ds : List Nat}, s.mapM S.digit = some ds →
    ∀ c ∈ s, S.digit c ≠ none := by
  intro s
  induction s with
  | nil => exact fun _ c hc ↦ absurd hc List.not_mem_nil
  | cons a s ih =>
    intro ds h c hc
    rw [List.mapM_cons] at h
    obtain ⟨i, hi, h⟩ := Option.bind_eq_some_iff.mp h
    obtain ⟨is, his, -⟩ := Option.bind_eq_some_iff.mp h
    cases List.mem_cons.mp hc with
    | inl hca =>
      rw [hca, hi]
      exact Option.some_ne_none i
    | inr hcs => exact ih his c hcs

theorem Denotes.digit_ne_none {s : List σ} {n : Nat} (h : S.Denotes s n) {c : σ} (hc : c ∈ s) :
    S.digit c ≠ none := by
  obtain ⟨ds, hds, -⟩ := Option.map_eq_some_iff.mp h.value
  exact S.digit_of_mapM hds c hc

end Numerals

end AlienOS.Lib
