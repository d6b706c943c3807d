import AlienOS.Lib.Memory
import Mathlib.Data.List.GetD

/-!
# Bytes — windows of memory

Reading and writing a window of consecutive addresses as a list of bytes.  Addresses wrap around, so
a window is every address whose distance from its start is below its length.
-/

namespace AlienOS.Lib

def bytesAt (mem : Memory) (a : Word) : Nat → List Byte
  | 0 => []
  | n + 1 => mem.byte a :: bytesAt mem (a + 1) n

def writeBytes (mem : Memory) (a : Word) (bs : List Byte) : Memory :=
  ⟨fun x ↦ bs.getD (x - a).toNat (mem.byte x)⟩

section

variable {mem mem' : Memory} {a c x : Word} {n : Nat} {b : Byte} {bs cs : List Byte}

/-! ## Reading -/

@[simp] theorem length_bytesAt : (bytesAt mem a n).length = n := by
  induction n generalizing a with
  | zero => rfl
  | succ n ih => exact congrArg (· + 1) ih

theorem add_ofNat_succ (a : Word) (n : Nat) :
    a + 1 + BitVec.ofNat 32 n = a + BitVec.ofNat 32 (n + 1) := by
  rw [BitVec.ofNat_add, BitVec.add_assoc, BitVec.add_comm 1]
  rfl

theorem bytesAt_append (mem : Memory) (a : Word) (m n : Nat) :
    bytesAt mem a (m + n) = bytesAt mem a m ++ bytesAt mem (a + BitVec.ofNat 32 m) n := by
  induction m generalizing a with
  | zero => simp [bytesAt]
  | succ m ih =>
    rw [Nat.add_right_comm, bytesAt, bytesAt, ih, add_ofNat_succ]
    rfl

theorem bytesAt_concat (mem : Memory) (a : Word) (n : Nat) :
    bytesAt mem a (n + 1) = bytesAt mem a n ++ [mem.byte (a + BitVec.ofNat 32 n)] :=
  bytesAt_append mem a n 1

theorem bytesAt_congr (h : ∀ i < n, mem'.byte (a + BitVec.ofNat 32 i) =
    mem.byte (a + BitVec.ofNat 32 i)) : bytesAt mem' a n = bytesAt mem a n := by
  induction n with
  | zero => rfl
  | succ n ih =>
    rw [bytesAt_concat, bytesAt_concat, ih fun i hi ↦ h i (Nat.lt_succ_of_lt hi),
      h n (Nat.lt_succ_self n)]

theorem getElem_bytesAt {i : Nat} (h : i < (bytesAt mem a n).length) :
    (bytesAt mem a n)[i] = mem.byte (a + BitVec.ofNat 32 i) := by
  induction n generalizing a i with
  | zero => exact absurd h (Nat.not_lt_zero i)
  | succ n ih =>
    cases i with
    | zero => simp [bytesAt]
    | succ i =>
      rw [← add_ofNat_succ, ← ih (a := a + 1) (Nat.lt_of_succ_lt_succ h)]
      rfl

/-! ## Writing -/

@[simp] theorem writeBytes_nil (mem : Memory) (a : Word) : writeBytes mem a [] = mem := rfl

theorem writeBytes_outside (h : bs.length ≤ (x - a).toNat) :
    (writeBytes mem a bs).byte x = mem.byte x := by
  show bs.getD (x - a).toNat (mem.byte x) = mem.byte x
  exact List.getD_eq_default _ _ h

theorem writeBytes_inside (h : (x - a).toNat < bs.length) :
    (writeBytes mem a bs).byte x = bs[(x - a).toNat] := by
  show bs.getD (x - a).toNat (mem.byte x) = bs[(x - a).toNat]
  exact List.getD_eq_getElem _ _ h

/-- The window without wrapping around. -/
theorem writeBytes_frame (h : x.toNat < a.toNat ∨ a.toNat + bs.length ≤ x.toNat)
    (ha : a.toNat + bs.length ≤ 2 ^ 32) : (writeBytes mem a bs).byte x = mem.byte x := by
  apply writeBytes_outside
  rw [BitVec.toNat_sub]
  omega

/-- Writing upwards, one byte more at the end. -/
theorem writeByte_writeBytes_concat (mem : Memory) (a : Word) (b : Byte)
    (h : bs.length < 2 ^ 32) :
    writeByte (writeBytes mem a bs) (a + BitVec.ofNat 32 bs.length) b =
      writeBytes mem a (bs ++ [b]) := by
  have hl : (bs ++ [b]).length = bs.length + 1 := List.length_append
  apply Memory.ext
  funext x
  by_cases hx : x = a + BitVec.ofNat 32 bs.length
  · have hd : (x - a).toNat = bs.length := by
      rw [hx]
      bv_omega
    have hlt : (x - a).toNat < (bs ++ [b]).length := by omega
    rw [writeBytes_inside hlt]
    simp only [hd, List.getElem_concat_length]
    rw [hx, writeByte_self]
  · have hd : (x - a).toNat ≠ bs.length := by
      intro he
      apply hx
      rw [← he, BitVec.ofNat_toNat, BitVec.setWidth_eq, BitVec.add_comm, BitVec.sub_add_cancel]
    rw [writeByte_other _ hx]
    by_cases hlt : (x - a).toNat < bs.length
    · rw [writeBytes_inside hlt, writeBytes_inside (by omega), List.getElem_append_left hlt]
    · rw [writeBytes_outside (by omega), writeBytes_outside (by omega)]

/-- Writing downwards, one byte more in front. -/
theorem writeByte_writeBytes_cons (h : bs.length < 2 ^ 32) :
    writeByte (writeBytes mem (a + 1) bs) a b = writeBytes mem a (b :: bs) := by
  have hl : (b :: bs).length = bs.length + 1 := List.length_cons
  apply Memory.ext
  funext x
  by_cases hx : x = a
  · have hd : (x - a).toNat = 0 := by
      rw [hx, BitVec.sub_self]
      rfl
    have hlt : (x - a).toNat < (b :: bs).length := by omega
    rw [writeBytes_inside hlt]
    simp only [hd, List.getElem_cons_zero]
    rw [hx, writeByte_self]
  · have hd : (x - a).toNat = (x - (a + 1)).toNat + 1 := by bv_omega
    rw [writeByte_other _ hx]
    by_cases hlt : (x - (a + 1)).toNat < bs.length
    · rw [writeBytes_inside hlt, writeBytes_inside (by omega)]
      simp only [hd, List.getElem_cons_succ]
    · rw [writeBytes_outside (by omega), writeBytes_outside (by omega)]

/-- Two windows, one right after the other. -/
theorem writeBytes_append (h : bs.length + cs.length ≤ 2 ^ 32) :
    writeBytes (writeBytes mem a bs) (a + BitVec.ofNat 32 bs.length) cs =
      writeBytes mem a (bs ++ cs) := by
  have hl : (bs ++ cs).length = bs.length + cs.length := List.length_append
  apply Memory.ext
  funext x
  by_cases hlt : (x - a).toNat < bs.length
  · have hout : cs.length ≤ (x - (a + BitVec.ofNat 32 bs.length)).toNat := by bv_omega
    rw [writeBytes_outside hout, writeBytes_inside hlt, writeBytes_inside (by omega),
      List.getElem_append_left hlt]
  · have hd : (x - (a + BitVec.ofNat 32 bs.length)).toNat = (x - a).toNat - bs.length := by
      bv_omega
    by_cases hin : (x - a).toNat < bs.length + cs.length
    · rw [writeBytes_inside (by omega), writeBytes_inside (by omega),
        List.getElem_append_right (by omega)]
      simp only [hd]
    · rw [writeBytes_outside (by omega), writeBytes_outside (by omega),
        writeBytes_outside (by omega)]

/-- Reading back what was written. -/
theorem bytesAt_writeBytes (mem : Memory) (a : Word) (h : bs.length ≤ 2 ^ 32) :
    bytesAt (writeBytes mem a bs) a bs.length = bs := by
  apply List.ext_getElem length_bytesAt
  intro i h₁ h₂
  have hd : (a + BitVec.ofNat 32 i - a).toNat = i := by bv_omega
  rw [getElem_bytesAt h₁, writeBytes_inside (by omega)]
  simp only [hd]

theorem bytesAt_writeBytes_apart (h : c.toNat + n ≤ a.toNat ∨ a.toNat + bs.length ≤ c.toNat)
    (ha : a.toNat + bs.length ≤ 2 ^ 32) (hc : c.toNat + n ≤ 2 ^ 32) :
    bytesAt (writeBytes mem a bs) c n = bytesAt mem c n := by
  apply bytesAt_congr
  intro i hi
  have hci : (c + BitVec.ofNat 32 i).toNat = c.toNat + i := by bv_omega
  exact writeBytes_frame (by omega) ha

end

end AlienOS.Lib
