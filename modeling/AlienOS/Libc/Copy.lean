import AlienOS.Lib.Bytes

/-!
# Copy — `memcpy`, `mempcpy` and `memmove`

Each loop reads from the memory that it writes to.  It copies faithfully as long as no byte is
overwritten before it has been read, and which direction ensures that depends on which of the two
buffers comes first.
-/

open AlienOS.Lib

namespace AlienOS.Libc

/-- `for (; i < n; i++) dst[i] = src[i]` -/
def copyLoop (dst src n i : Word) (mem : Memory) : Memory :=
  if i < n then copyLoop dst src n (i + 1) (writeByte mem (dst + i) (mem.byte (src + i)))
  else mem
termination_by n.toNat - i.toNat
decreasing_by bv_omega

/-- `for (; i != 0; i--) dst[i - 1] = src[i - 1]` -/
def copyDownLoop (dst src i : Word) (mem : Memory) : Memory :=
  if i ≠ 0 then
    copyDownLoop dst src (i - 1) (writeByte mem (dst + (i - 1)) (mem.byte (src + (i - 1))))
  else mem
termination_by i.toNat
decreasing_by bv_omega

def mempcpy (mem : Memory) (dstptr srcptr n : Word) : Word × Memory :=
  (dstptr + n, copyLoop dstptr srcptr n 0 mem)

def memcpy (mem : Memory) (dstptr srcptr n : Word) : Word × Memory :=
  let (_, mem) := mempcpy mem dstptr srcptr n
  (dstptr, mem)

def memmove (mem : Memory) (dstptr srcptr n : Word) : Word × Memory :=
  if dstptr < srcptr then (dstptr, copyLoop dstptr srcptr n 0 mem)
  else (dstptr, copyDownLoop dstptr srcptr n mem)

section

variable {mem : Memory} {dst src n i : Word}

/-! ## The loops -/

/-- Upwards, round `j` reads `src[j]` with the first `j` bytes of `dst` written. -/
theorem copyLoop_eq (mem : Memory) (hread : ∀ j, j < n → j.toNat ≤ (src + j - dst).toNat) (hi : i ≤ n) :
    copyLoop dst src n i (writeBytes mem dst (bytesAt mem src i.toNat)) =
      writeBytes mem dst (bytesAt mem src n.toNat) := by
  induction hk : n.toNat - i.toNat generalizing i with
  | zero =>
    have hin : i = n := by bv_omega
    have hlt : ¬ i < n := by bv_omega
    unfold copyLoop
    rw [if_neg hlt, hin]
  | succ k ih =>
    have hlt : i < n := by bv_omega
    have hsucc : (i + 1).toNat = i.toNat + 1 := by bv_omega
    have hold : (writeBytes mem dst (bytesAt mem src i.toNat)).byte (src + i) =
        mem.byte (src + i) := writeBytes_outside (by simpa using hread i hlt)
    have hlen : (bytesAt mem src i.toNat).length < 2 ^ 32 := by simpa using i.isLt
    have hstep := writeByte_writeBytes_concat mem dst (mem.byte (src + i)) hlen
    rw [length_bytesAt, BitVec.ofNat_toNat, BitVec.setWidth_eq] at hstep
    have hnext : bytesAt mem src i.toNat ++ [mem.byte (src + i)] =
        bytesAt mem src (i + 1).toNat := by
      rw [hsucc, bytesAt_concat, BitVec.ofNat_toNat, BitVec.setWidth_eq]
    unfold copyLoop
    rw [if_pos hlt, hold, hstep, hnext]
    exact ih (by bv_omega) (by omega)

/-- Downwards, the bytes from `i` on are written, and `src[i - 1]` is read next. -/
theorem copyDownLoop_eq (mem : Memory) (hle : src ≤ dst) (hdst : dst.toNat + n.toNat ≤ 2 ^ 32)
    (hi : i ≤ n) :
    copyDownLoop dst src i
        (writeBytes mem (dst + i) (bytesAt mem (src + i) (n.toNat - i.toNat))) =
      writeBytes mem dst (bytesAt mem src n.toNat) := by
  obtain ⟨k, hk⟩ : ∃ k, i.toNat = k := ⟨_, rfl⟩
  induction k generalizing i with
  | zero =>
    have hz : i = 0 := by bv_omega
    have hd : dst + 0 = dst := BitVec.add_zero dst
    have hs : src + 0 = src := BitVec.add_zero src
    unfold copyDownLoop
    rw [if_neg (not_not.mpr hz), hz, hd, hs]
    rfl
  | succ k ih =>
    have hz : i ≠ 0 := by
      rintro rfl
      cases hk
    have hlen : n.toNat - (i - 1).toNat = n.toNat - i.toNat + 1 := by bv_omega
    have hd : dst + i = dst + (i - 1) + 1 := by bv_omega
    have hs : src + (i - 1) + 1 = src + i := by bv_omega
    have hold : (writeBytes mem (dst + i) (bytesAt mem (src + i) (n.toNat - i.toNat))).byte
        (src + (i - 1)) = mem.byte (src + (i - 1)) := by
      apply writeBytes_outside
      rw [length_bytesAt]
      bv_omega
    have hnext : mem.byte (src + (i - 1)) :: bytesAt mem (src + i) (n.toNat - i.toNat) =
        bytesAt mem (src + (i - 1)) (n.toNat - (i - 1).toNat) := by
      rw [hlen, bytesAt, hs]
    unfold copyDownLoop
    rw [if_pos hz, hold, hd, writeByte_writeBytes_cons, hnext]
    · exact ih (by bv_omega) (by bv_omega)
    · rw [length_bytesAt]
      omega

/-- What `dst` gets is what a temporary buffer would hold. -/
theorem memmove_eq (hdst : dst.toNat + n.toNat ≤ 2 ^ 32) (hsrc : src.toNat + n.toNat ≤ 2 ^ 32) :
    memmove mem dst src n = (dst, writeBytes mem dst (bytesAt mem src n.toNat)) := by
  unfold memmove
  split
  · next h =>
    have hread : ∀ j, j < n → j.toNat ≤ (src + j - dst).toNat := by
      intro j hj
      bv_omega
    have hloop := copyLoop_eq mem (i := 0) hread (by bv_omega)
    exact congrArg _ hloop
  · next h =>
    have hloop := copyDownLoop_eq mem (BitVec.not_lt.mp h) hdst (BitVec.le_refl n)
    rw [Nat.sub_self] at hloop
    exact congrArg _ hloop

theorem mempcpy_eq (mem : Memory) (hdst : dst.toNat + n.toNat ≤ 2 ^ 32)
    (hsrc : src.toNat + n.toNat ≤ 2 ^ 32)
    (hdis : dst.toNat + n.toNat ≤ src.toNat ∨ src.toNat + n.toNat ≤ dst.toNat) :
    mempcpy mem dst src n = (dst + n, writeBytes mem dst (bytesAt mem src n.toNat)) := by
  have hread : ∀ j, j < n → j.toNat ≤ (src + j - dst).toNat := by
    intro j hj
    bv_omega
  have hloop := copyLoop_eq mem (i := 0) hread (by bv_omega)
  exact congrArg _ hloop

theorem memmove_copies (mem : Memory) (dst src n : Word) (hdst : dst.toNat + n.toNat ≤ 2 ^ 32)
    (hsrc : src.toNat + n.toNat ≤ 2 ^ 32) :
    ∃ mem', memmove mem dst src n = (dst, mem') ∧
      (∀ i, i < n → mem'.byte (dst + i) = mem.byte (src + i)) ∧
      (∀ x : Word, x.toNat < dst.toNat ∨ dst.toNat + n.toNat ≤ x.toNat →
        mem'.byte x = mem.byte x) ∧
      (dst.toNat + n.toNat ≤ src.toNat ∨ src.toNat + n.toNat ≤ dst.toNat →
        memcpy mem dst src n = (dst, mem') ∧ mempcpy mem dst src n = (dst + n, mem')) := by
  refine ⟨_, memmove_eq hdst hsrc, fun i hi ↦ ?_, fun x hx ↦ ?_, fun hdis ↦ ?_⟩
  · have hd : (dst + i - dst).toNat = i.toNat := by bv_omega
    have hlt : i.toNat < n.toNat := hi
    rw [writeBytes_inside (by simpa [hd] using hlt)]
    simp only [hd]
    rw [getElem_bytesAt, BitVec.ofNat_toNat, BitVec.setWidth_eq]
  · apply writeBytes_frame
    · simpa using hx
    · simpa using hdst
  · have h := mempcpy_eq mem hdst hsrc hdis
    refine ⟨?_, h⟩
    unfold memcpy
    rw [h]

/-- Three bytes, one address up and one address down. -/
theorem memmove_copies_overlapping :
    let mem : Memory := ⟨fun x ↦ x.setWidth 8⟩
    (∃ mem', memmove mem 8 7 3 = (8, mem') ∧ ∀ i, i < 3 → mem'.byte (8 + i) = mem.byte (7 + i)) ∧
    ∃ mem', memmove mem 7 8 3 = (7, mem') ∧ ∀ i, i < 3 → mem'.byte (7 + i) = mem.byte (8 + i) := by
  intro mem
  obtain ⟨up, hup, hbyte, -⟩ := memmove_copies mem 8 7 3 (by decide) (by decide)
  obtain ⟨down, hdown, hbyte', -⟩ := memmove_copies mem 7 8 3 (by decide) (by decide)
  exact ⟨⟨up, hup, hbyte⟩, down, hdown, hbyte'⟩

end

end AlienOS.Libc
