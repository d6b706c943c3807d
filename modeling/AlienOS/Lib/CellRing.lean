import Mathlib.Logic.Function.Basic
import Mathlib.Tactic.Common

/-!
# CellRing — writing around a ring of cells

A cursor that goes around `m` cells and writes into each cell that it passes.  After any number of
rounds a cell holds the last value that came by.
-/

namespace AlienOS.Lib

structure CellRing (β : Type) where
  cursor : Nat
  cells : Nat → β

namespace CellRing

variable {β : Type} {m : Nat} {r : CellRing β} {b : β} {bs : List β}

def put (m : Nat) (r : CellRing β) (b : β) : CellRing β where
  cursor := (r.cursor + 1) % m
  cells := Function.update r.cells r.cursor b

def puts (m : Nat) (r : CellRing β) (bs : List β) : CellRing β := bs.foldl (put m) r

theorem puts_cons : r.puts m (b :: bs) = (r.put m b).puts m bs := rfl

/-- The cursor after one value more. -/
theorem put_cursor_add (i : Nat) : ((r.put m b).cursor + i) % m = (r.cursor + (i + 1)) % m := by
  show ((r.cursor + 1) % m + i) % m = _
  rw [Nat.mod_add_mod, Nat.add_assoc, Nat.add_comm 1]

theorem puts_cursor (h : r.cursor < m) :
    (r.puts m bs).cursor = (r.cursor + bs.length) % m := by
  induction bs generalizing r with
  | nil => exact (Nat.mod_eq_of_lt h).symm
  | cons b bs ih =>
    have hlt : (r.put m b).cursor < m := Nat.mod_lt _ (Nat.zero_lt_of_lt h)
    rw [puts_cons, ih hlt, put_cursor_add, List.length_cons]

/-- A cell that the cursor does not pass. -/
theorem puts_cells_other (h : r.cursor < m) {k : Nat}
    (hk : ∀ i < bs.length, (r.cursor + i) % m ≠ k) : (r.puts m bs).cells k = r.cells k := by
  induction bs generalizing r with
  | nil => rfl
  | cons b bs ih =>
    have hlt : (r.put m b).cursor < m := Nat.mod_lt _ (Nat.zero_lt_of_lt h)
    have hne : k ≠ r.cursor := by
      have := hk 0 (Nat.zero_lt_succ _)
      rw [Nat.add_zero, Nat.mod_eq_of_lt h] at this
      exact this.symm
    have hrest : (r.put m b).cells k = r.cells k := Function.update_of_ne hne ..
    rw [puts_cons, ih hlt, hrest]
    intro i hi
    rw [put_cursor_add]
    exact hk (i + 1) (Nat.succ_lt_succ hi)

/-- The last value that comes by. -/
theorem puts_cells_last (h : r.cursor < m) {i : Nat} (hi : i < bs.length)
    (hlast : ∀ j, i < j → j < bs.length → (r.cursor + j) % m ≠ (r.cursor + i) % m) :
    (r.puts m bs).cells ((r.cursor + i) % m) = bs[i] := by
  induction bs generalizing r i with
  | nil => exact absurd hi (Nat.not_lt_zero i)
  | cons b bs ih =>
    have hlt : (r.put m b).cursor < m := Nat.mod_lt _ (Nat.zero_lt_of_lt h)
    rw [puts_cons]
    cases i with
    | zero =>
      -- the cursor passes this cell for the last time right now
      rw [Nat.add_zero, Nat.mod_eq_of_lt h] at hlast ⊢
      rw [puts_cells_other hlt]
      · exact Function.update_self ..
      · intro i hi
        rw [put_cursor_add]
        exact hlast (i + 1) (Nat.zero_lt_succ i) (Nat.succ_lt_succ hi)
    | succ i =>
      rw [← put_cursor_add (b := b), ih hlt (Nat.lt_of_succ_lt_succ hi)]
      · rfl
      · intro j hij hj
        rw [put_cursor_add, put_cursor_add]
        exact hlast (j + 1) (Nat.succ_lt_succ hij) (Nat.succ_lt_succ hj)

end CellRing

end AlienOS.Lib
