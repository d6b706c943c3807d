import AlienOS.Lib.Memory
import AlienOS.Lib.Numeral
import Mathlib.Tactic.Common

/-!
# Number — `io_writeint`, `io_writeuint` and the hexadecimal writer

A writer gives the characters it passes to `output_char`, in order, and `none` if it reads or writes
outside its buffer or reads a cell it has not stored anything in.
-/

open AlienOS.Lib

namespace AlienOS.Io

/-! ## The writers -/

def char (c : Char) : Byte := BitVec.ofNat 8 c.toNat

/-- A character in arithmetic is promoted to an `int`. -/
def promote (c : Byte) : Word := c.signExtend 32

/-- And an `int` stored in a character loses its upper bytes. -/
def toChar (d : Word) : Byte := d.setWidth 8

/-- `char digits[size]` -/
abbrev Digits (size : Nat) : Type := Vector (Option Byte) size

namespace Digits

variable {size : Nat}

def empty (size : Nat) : Digits size := Vector.replicate size none

def store (digits : Digits size) (i : Nat) (c : Byte) : Option (Digits size) :=
  if h : i < size then some (digits.set i (some c) h) else none

def load (digits : Digits size) (i : Nat) : Option Byte := digits[i]?.join

/-- `for (; msnz < sizeof (digits) / sizeof (digits[0]) && d != 0; msnz++)` with a body that stores
a digit and shortens `d`; `n` bounds the rounds. -/
def collect (digit : Word → Byte) (shorten : Word → Word) :
    Nat → Digits size → Nat → Word → Option (Digits size × Nat)
  | 0, digits, msnz, _ => some (digits, msnz)
  | n + 1, digits, msnz, d =>
    if msnz < size ∧ d ≠ 0 then do
      let digits ← digits.store msnz (digit d)
      collect digit shorten n digits (msnz + 1) (shorten d)
    else
      some (digits, msnz)

/-- `for (size_t i = msnz; i != 0; i--) output_char (digits[i - 1])` -/
def replay (digits : Digits size) : Nat → Option (List Byte)
  | 0 => some []
  | i + 1 => do
    let c ← digits.load i
    let rest ← replay digits i
    some (c :: rest)

end Digits

def ioWriteint (d : Word) : Option (List Byte) :=
  if d = 0 then
    some [char '0']
  else if (0 : Word).slt d then do
    let (digits, msnz) ← Digits.collect (fun d ↦ toChar (promote (char '0') + d.srem 10))
      (fun d ↦ d.sdiv 10) 10 (.empty 10) 0 d
    digits.replay msnz
  else do
    let (digits, msnz) ← Digits.collect (fun d ↦ toChar (promote (char '0') + -(d.srem 10)))
      (fun d ↦ d.sdiv 10) 10 (.empty 10) 0 d
    let rest ← digits.replay msnz
    some (char '-' :: rest)

def ioWriteuint (d : Word) : Option (List Byte) :=
  if d = 0 then
    some [char '0']
  else do
    let (digits, msnz) ← Digits.collect (fun d ↦ toChar (promote (char '0') + d % 10))
      (fun d ↦ d / 10) 10 (.empty 10) 0 d
    digits.replay msnz

def internalIoWriteinthex (d : Word) (base : Byte) : Option (List Byte) :=
  let front := [char '0', toChar (promote (char 'x') - promote (char 'a') + promote base)]
  if d = 0 then
    some (front ++ [char '0'])
  else do
    let (digits, msnz) ← Digits.collect
      (fun d ↦
        let nib := d % 16
        if nib.slt 10 then toChar (promote (char '0') + nib)
        else toChar (promote base + (nib - 10)))
      (fun d ↦ d >>> 4) 8 (.empty 8) 0 d
    let rest ← digits.replay msnz
    some (front ++ rest)

def ioWriteptr (ptr : Word) : Option (List Byte) := internalIoWriteinthex ptr (char 'a')

/-! ## Numerals -/

/-- `0` to `9` -/
def decimal : Numerals Byte where
  base := 10
  symbol i := char '0' + BitVec.ofNat 8 i
  digit c := if char '0' ≤ c ∧ c ≤ char '9' then some (c - char '0').toNat else none
  one_lt := by decide
  digit_symbol := by decide

inductive LetterCase where
  | lower | upper
  deriving DecidableEq, Repr

/-- `a` or `A` -/
def LetterCase.base : LetterCase → Byte
  | .lower => char 'a'
  | .upper => char 'A'

/-- `0x` or `0X` -/
def LetterCase.front : LetterCase → List Byte
  | .lower => [char '0', char 'x']
  | .upper => [char '0', char 'X']

/-- `0` to `9` and then six letters. -/
def hexadecimal (letters : LetterCase) : Numerals Byte where
  base := 16
  symbol i :=
    if i < 10 then char '0' + BitVec.ofNat 8 i else letters.base + BitVec.ofNat 8 (i - 10)
  digit c :=
    if char '0' ≤ c ∧ c ≤ char '9' then some (c - char '0').toNat
    else if letters.base ≤ c ∧ c < letters.base + 6 then some (c - letters.base + 10).toNat
    else none
  one_lt := by decide
  digit_symbol := by cases letters <;> decide

/-- A decimal numeral with an optional sign. -/
def readInt (s : List Byte) : Option Int :=
  if s.head? = some (char '-') then (decimal.value s.tail).map fun (n : Nat) ↦ -(n : Int)
  else (decimal.value s).map fun (n : Nat) ↦ (n : Int)

def readUint (s : List Byte) : Option Nat := decimal.value s

/-- A hexadecimal numeral after its prefix. -/
def readHex (letters : LetterCase) (s : List Byte) : Option Nat :=
  if s.take 2 = letters.front then (hexadecimal letters).value (s.drop 2) else none

/-! ## The buffer -/

section

variable {size : Nat} {digits digits' : Digits size} {c : Byte} {cs : List Byte} {i : Nat}

/-- The cells from the first on hold `cs`. -/
def Digits.Holds (digits : Digits size) (cs : List Byte) : Prop :=
  ∀ i c, cs[i]? = some c → digits.load i = some c

theorem Digits.store_eq_some (h : i < size) :
    digits.store i c = some (digits.set i (some c) h) := by
  unfold Digits.store
  rw [dif_pos h]

theorem Digits.load_set (h : i < size) (j : Nat) :
    Digits.load (digits.set i (some c) h) j = if j = i then some c else digits.load j := by
  unfold Digits.load
  rw [Vector.getElem?_set]
  by_cases hj : j = i
  · subst hj
    simp
  · rw [if_neg (Ne.symm hj), if_neg hj]

/-- The next cell is the one after the last that holds something. -/
theorem Digits.Holds.store (h : digits.Holds cs) (hlt : cs.length < size) :
    Digits.Holds (digits.set cs.length (some c) hlt) (cs ++ [c]) := by
  intro j b hb
  rw [Digits.load_set]
  by_cases hj : j < cs.length
  · rw [if_neg (by omega)]
    exact h j b (by rwa [List.getElem?_append_left hj] at hb)
  · have hlast : j = cs.length := by
      have hlen := (List.getElem?_eq_some_iff.mp hb).1
      simp at hlen
      omega
    subst hlast
    simpa using hb

/-- The cells are played back from the last to the first. -/
theorem Digits.Holds.replay (h : digits.Holds cs) : ∀ {n : Nat}, n ≤ cs.length →
    digits.replay n = some (cs.take n).reverse := by
  intro n
  induction n with
  | zero => exact fun _ ↦ rfl
  | succ n ih =>
    intro hn
    have hload : digits.load n = some cs[n] := h n cs[n] (List.getElem?_eq_getElem (by omega))
    have htake : cs.take (n + 1) = cs.take n ++ [cs[n]] :=
      List.take_succ_eq_append_getElem (by omega)
    rw [Digits.replay, hload, ih (by omega), htake, List.reverse_append]
    rfl

end

/-! ## The loops -/

section

variable {S : Numerals Byte} {val : Word → Nat} {P : Word → Prop} {digit : Word → Byte}
  {shorten : Word → Word} {size : Nat}

/-- One round takes the last digit off the numeral of `d`; `P` is what the branch knows of `d`. -/
structure Peels (S : Numerals Byte) (val : Word → Nat) (P : Word → Prop) (digit : Word → Byte)
    (shorten : Word → Word) : Prop where
  zero : ∀ d, val d = 0 ↔ d = 0
  keeps : ∀ d, P d → P (shorten d)
  shorten : ∀ d, P d → val (shorten d) = val d / S.base
  digit : ∀ d, P d → digit d = S.symbol (val d % S.base)

/-- The rounds store the digits after what is there, the least significant first. -/
theorem Peels.collect (h : Peels S val P digit shorten) : ∀ {n : Nat} {digits : Digits size}
    {cs : List Byte} {d : Word}, P d → digits.Holds cs → (S.base.digits (val d)).length ≤ n →
    cs.length + (S.base.digits (val d)).length ≤ size →
    ∃ digits', Digits.collect digit shorten n digits cs.length d =
        some (digits', (cs ++ (S.base.digits (val d)).map S.symbol).length) ∧
      digits'.Holds (cs ++ (S.base.digits (val d)).map S.symbol) := by
  intro n
  induction n with
  | zero =>
    intro digits cs d _ hh hn _
    have hnil : S.base.digits (val d) = [] := List.length_eq_zero_iff.mp (by omega)
    refine ⟨digits, ?_, ?_⟩
    · rw [hnil]
      simp [Digits.collect]
    · rw [hnil]
      simpa using hh
  | succ n ih =>
    intro digits cs d hd hh hn hroom
    unfold Digits.collect
    by_cases hzero : d = 0
    · have hnil : S.base.digits (val d) = [] := by
        rw [(h.zero d).mpr hzero]
        exact Nat.digits_zero S.base
      rw [if_neg (by simp [hzero]), hnil]
      exact ⟨digits, by simp, by simpa using hh⟩
    · have hval : val d ≠ 0 := fun hv ↦ hzero ((h.zero d).mp hv)
      have hcons : S.base.digits (val d) =
          val d % S.base :: S.base.digits (val (shorten d)) := by
        rw [Nat.digits_eq_cons_digits_div S.one_lt hval, h.shorten d hd]
      rw [hcons, List.length_cons] at hn hroom
      have hlt : cs.length < size := by omega
      have hnext : (cs ++ [S.symbol (val d % S.base)]).length = cs.length + 1 := by simp
      obtain ⟨digits', hrun, hholds⟩ := ih (d := shorten d) (h.keeps d hd)
        (hh.store (c := S.symbol (val d % S.base)) hlt) (by omega) (by omega)
      refine ⟨digits', ?_, ?_⟩
      · rw [if_pos ⟨hlt, hzero⟩, Digits.store_eq_some hlt, h.digit d hd]
        simp only [Option.bind_eq_bind, Option.bind_some]
        rw [← hnext, hrun, hcons]
        simp
      · rw [hcons]
        simpa using hholds

/-- If the buffer has room for the digits, the two loops of a writer give the numeral. -/
theorem Peels.writes (h : Peels S val P digit shorten) {d : Word} (hd : P d) (hne : d ≠ 0)
    (hroom : val d < S.base ^ size) :
    ∃ digits msnz, Digits.collect digit shorten size (.empty size) 0 d = some (digits, msnz) ∧
      digits.replay msnz = some (S.numeral (val d)) := by
  have hlen : (S.base.digits (val d)).length ≤ size :=
    (Nat.digits_length_le_iff S.one_lt _).mpr hroom
  have hnone : (Digits.empty size).Holds [] := by
    intro i c hc
    cases hc
  obtain ⟨digits, hrun, hholds⟩ := h.collect hd hnone hlen (by simpa using hlen)
  refine ⟨digits, _, hrun, ?_⟩
  have hval : val d ≠ 0 := fun hv ↦ hne ((h.zero d).mp hv)
  rw [hholds.replay (le_refl _), List.take_length, List.nil_append]
  unfold Numerals.numeral
  rw [if_neg hval]

end

/-! ## What the writers give -/

section

variable (d : Word)

theorem toChar_decimal : ∀ k < 10,
    toChar (promote (char '0') + BitVec.ofNat 32 k) = decimal.symbol k := by
  decide

theorem toInt_sdiv : (d.sdiv 10).toInt = d.toInt.tdiv 10 :=
  BitVec.toInt_sdiv_of_ne_or_ne d 10 (.inr (by decide))

theorem toInt_ofNat_of_lt : ∀ k < 10, (BitVec.ofNat 32 k).toInt = k := by decide

theorem toInt_neg_ofNat_of_lt : ∀ k < 10, (-BitVec.ofNat 32 k).toInt = -k := by decide

theorem srem_of_nonneg (h : 0 ≤ d.toInt) :
    d.srem 10 = BitVec.ofNat 32 (d.toInt.natAbs % 10) := by
  apply BitVec.eq_of_toInt_eq
  have hten : (10 : Word).toInt = 10 := rfl
  rw [BitVec.toInt_srem, hten, toInt_ofNat_of_lt _ (Nat.mod_lt _ (by decide)),
    Int.tmod_eq_emod_of_nonneg h]
  omega

/-- The remainder takes the sign of the dividend. -/
theorem neg_srem_of_nonpos (h : d.toInt ≤ 0) :
    -(d.srem 10) = BitVec.ofNat 32 (d.toInt.natAbs % 10) := by
  have hneg : d.srem 10 = -BitVec.ofNat 32 (d.toInt.natAbs % 10) := by
    apply BitVec.eq_of_toInt_eq
    have hten : (10 : Word).toInt = 10 := rfl
    have htmod : d.toInt.tmod 10 = -((-d.toInt) % 10) := by
      rw [← Int.tmod_eq_emod_of_nonneg (by omega), Int.neg_tmod, Int.neg_neg]
    rw [BitVec.toInt_srem, hten, htmod, toInt_neg_ofNat_of_lt _ (Nat.mod_lt _ (by decide))]
    omega
  rw [hneg, BitVec.neg_neg]

/-- The numeral of `|d|`, whichever way the remainders are taken. -/
theorem peels_int {P : Word → Prop} {digit : Word → Byte} (hkeeps : ∀ d, P d → P (d.sdiv 10))
    (hdigit : ∀ d, P d → digit d =
      toChar (promote (char '0') + BitVec.ofNat 32 (d.toInt.natAbs % 10))) :
    Peels decimal (fun d ↦ d.toInt.natAbs) P digit (fun d ↦ d.sdiv 10) where
  zero d := by
    rw [Int.natAbs_eq_zero, ← BitVec.toInt_zero (w := 32), BitVec.toInt_inj]
    exact Iff.rfl
  keeps := hkeeps
  shorten d _ := by
    rw [toInt_sdiv, Int.natAbs_tdiv]
    rfl
  digit d hd := by
    rw [hdigit d hd]
    exact toChar_decimal _ (Nat.mod_lt _ (by decide))

theorem peels_pos : Peels decimal (fun d ↦ d.toInt.natAbs) (fun d ↦ 0 ≤ d.toInt)
    (fun d ↦ toChar (promote (char '0') + d.srem 10)) (fun d ↦ d.sdiv 10) := by
  apply peels_int
  · intro d hd
    show 0 ≤ (d.sdiv 10).toInt
    rw [toInt_sdiv]
    exact Int.tdiv_nonneg hd (by decide)
  · intro d hd
    rw [srem_of_nonneg d hd]

theorem peels_neg : Peels decimal (fun d ↦ d.toInt.natAbs) (fun d ↦ d.toInt ≤ 0)
    (fun d ↦ toChar (promote (char '0') + -(d.srem 10))) (fun d ↦ d.sdiv 10) := by
  apply peels_int
  · intro d hd
    show (d.sdiv 10).toInt ≤ 0
    have hneg : 0 ≤ (-d.toInt).tdiv 10 := Int.tdiv_nonneg (by omega) (by decide)
    rw [Int.neg_tdiv] at hneg
    rw [toInt_sdiv]
    omega
  · intro d hd
    rw [neg_srem_of_nonpos d hd]

theorem peels_uint : Peels decimal BitVec.toNat (fun _ ↦ True)
    (fun d ↦ toChar (promote (char '0') + d % 10)) (fun d ↦ d / 10) where
  zero d := by
    rw [← BitVec.toNat_inj]
    rfl
  keeps _ _ := trivial
  shorten _ _ := BitVec.toNat_udiv
  digit d _ := by
    show _ = decimal.symbol (d.toNat % 10)
    rw [← toChar_decimal _ (Nat.mod_lt _ (by decide))]
    congr 2
    apply BitVec.eq_of_toNat_eq
    have hten : (10 : Word).toNat = 10 := rfl
    rw [BitVec.toNat_umod, BitVec.toNat_ofNat, hten, Nat.mod_eq_of_lt (b := 2 ^ 32) (by omega)]

/-- Four bits are taken off at a time. -/
theorem peels_hex (letters : LetterCase) :
    Peels (hexadecimal letters) BitVec.toNat (fun _ ↦ True)
      (fun d ↦
        let nib := d % 16
        if nib.slt 10 then toChar (promote (char '0') + nib)
        else toChar (promote letters.base + (nib - 10)))
      (fun d ↦ d >>> 4) where
  zero d := by
    rw [← BitVec.toNat_inj]
    rfl
  keeps _ _ := trivial
  shorten d _ := by
    rw [BitVec.toNat_ushiftRight, Nat.shiftRight_eq_div_pow]
    rfl
  digit d _ := by
    have hnib : ∀ k < 16, (if (BitVec.ofNat 32 k).slt 10
        then toChar (promote (char '0') + BitVec.ofNat 32 k)
        else toChar (promote letters.base + (BitVec.ofNat 32 k - 10))) =
          (hexadecimal letters).symbol k := by
      cases letters <;> decide
    have hmod : d % 16 = BitVec.ofNat 32 (d.toNat % 16) := by
      apply BitVec.eq_of_toNat_eq
      have hsixteen : (16 : Word).toNat = 16 := rfl
      rw [BitVec.toNat_umod, BitVec.toNat_ofNat, hsixteen, Nat.mod_eq_of_lt (b := 2 ^ 32)
        (by omega)]
    show _ = (hexadecimal letters).symbol (d.toNat % 16)
    rw [← hnib _ (Nat.mod_lt _ (by decide)), hmod]

theorem natAbs_toInt_lt : d.toInt.natAbs < 10 ^ 10 := by
  have hlo := BitVec.le_toInt d
  have hhi := BitVec.toInt_lt (x := d)
  omega

theorem toNat_lt_hex (letters : LetterCase) : d.toNat < (hexadecimal letters).base ^ 8 := by
  have hbase : (hexadecimal letters).base = 16 := rfl
  have hlt := d.isLt
  rw [hbase]
  omega

theorem ioWriteuint_eq : ioWriteuint d = some (decimal.numeral d.toNat) := by
  unfold ioWriteuint
  split
  · rename_i hd
    rw [hd]
    rfl
  · rename_i hd
    have hroom : d.toNat < decimal.base ^ 10 := by
      have hbase : decimal.base = 10 := rfl
      have hlt := d.isLt
      rw [hbase]
      omega
    obtain ⟨digits, msnz, hrun, hreplay⟩ := peels_uint.writes trivial hd hroom
    rw [hrun]
    exact hreplay

theorem internalIoWriteinthex_eq (letters : LetterCase) :
    internalIoWriteinthex d letters.base =
      some (letters.front ++ (hexadecimal letters).numeral d.toNat) := by
  have hfront : [char '0', toChar (promote (char 'x') - promote (char 'a') +
      promote letters.base)] = letters.front := by
    cases letters <;> decide
  unfold internalIoWriteinthex
  by_cases hd : d = 0
  · rw [if_pos hd, hfront, hd]
    cases letters <;> rfl
  · obtain ⟨digits, msnz, hrun, hreplay⟩ :=
      (peels_hex letters).writes trivial hd (toNat_lt_hex d letters)
    rw [if_neg hd, hrun, ← hfront]
    simp only [Option.bind_eq_bind, Option.bind_some, hreplay]

/-- `-` or nothing -/
def signOf : List Byte := if d.toInt < 0 then [char '-'] else []

theorem ioWriteint_eq : ioWriteint d = some (signOf d ++ decimal.numeral d.toInt.natAbs) := by
  have hroom : d.toInt.natAbs < decimal.base ^ 10 := natAbs_toInt_lt d
  unfold ioWriteint signOf
  split
  · rename_i hd
    rw [hd]
    rfl
  · rename_i hd
    split
    · rename_i hpos
      have hpos : 0 < d.toInt := by simpa using BitVec.slt_iff_toInt_lt.mp hpos
      obtain ⟨digits, msnz, hrun, hreplay⟩ := peels_pos.writes (le_of_lt hpos) hd hroom
      rw [hrun, if_neg (by omega)]
      exact hreplay
    · rename_i hpos
      have hneg : d.toInt ≤ 0 := by
        rw [BitVec.slt_iff_toInt_lt] at hpos
        simpa using hpos
      have hne : d.toInt ≠ 0 := by
        rw [← BitVec.toInt_zero (w := 32), ne_eq, BitVec.toInt_inj]
        exact hd
      obtain ⟨digits, msnz, hrun, hreplay⟩ := peels_neg.writes hneg hd hroom
      rw [hrun, if_pos (by omega)]
      simp only [Option.bind_eq_bind, Option.bind_some, hreplay]
      rfl

/-! ## Reading back -/

/-- A sign is no digit. -/
theorem decimal_front (n : Nat) : (decimal.numeral n).head? ≠ some (char '-') := by
  intro h
  exact (decimal.numeral_denotes n).digit_ne_none decimal (List.mem_of_mem_head? h) rfl

theorem readInt_ioWriteint : (ioWriteint d).bind readInt = some d.toInt := by
  rw [ioWriteint_eq, Option.bind_some]
  have hvalue := (decimal.numeral_denotes d.toInt.natAbs).value
  unfold signOf readInt
  by_cases hneg : d.toInt < 0
  · have habs : -(d.toInt.natAbs : Int) = d.toInt := by omega
    rw [if_pos hneg, List.singleton_append, List.head?_cons, if_pos rfl, List.tail_cons, hvalue,
      Option.map_some, habs]
  · have habs : (d.toInt.natAbs : Int) = d.toInt := by omega
    rw [if_neg hneg, List.nil_append, if_neg (decimal_front _), hvalue, Option.map_some, habs]

theorem readUint_ioWriteuint : (ioWriteuint d).bind readUint = some d.toNat := by
  rw [ioWriteuint_eq]
  exact (decimal.numeral_denotes d.toNat).value

theorem readHex_internalIoWriteinthex (letters : LetterCase) :
    (internalIoWriteinthex d letters.base).bind (readHex letters) = some d.toNat := by
  have hlen : letters.front.length = 2 := by cases letters <;> rfl
  rw [internalIoWriteinthex_eq, Option.bind_some]
  unfold readHex
  rw [← hlen, List.take_left, List.drop_left, if_pos rfl]
  exact ((hexadecimal letters).numeral_denotes d.toNat).value

end

/-- The writers give canonical numerals, and what they give reads back as what was written. -/
theorem numbers_canonical :
    (∀ d : Word, ∃ ds, ioWriteint d = some (signOf d ++ ds) ∧ decimal.Denotes ds d.toInt.natAbs) ∧
    (∀ d : Word, ∃ ds, ioWriteuint d = some ds ∧ decimal.Denotes ds d.toNat) ∧
    (∀ (letters : LetterCase) (d : Word), ∃ ds,
      internalIoWriteinthex d letters.base = some (letters.front ++ ds) ∧
        (hexadecimal letters).Denotes ds d.toNat) ∧
    (∀ ptr : Word, ∃ ds, ioWriteptr ptr = some ("0x".toList.map char ++ ds) ∧
      (hexadecimal .lower).Denotes ds ptr.toNat) ∧
    (∀ d : Word, (ioWriteint d).bind readInt = some d.toInt ∧
      (ioWriteuint d).bind readUint = some d.toNat ∧
      ∀ letters : LetterCase,
        (internalIoWriteinthex d letters.base).bind (readHex letters) = some d.toNat) ∧
    Function.Injective ioWriteint ∧ Function.Injective ioWriteuint ∧
      ∀ letters : LetterCase, Function.Injective fun d ↦ internalIoWriteinthex d letters.base := by
  have hhex : ∀ (letters : LetterCase) (d : Word), ∃ ds,
      internalIoWriteinthex d letters.base = some (letters.front ++ ds) ∧
        (hexadecimal letters).Denotes ds d.toNat :=
    fun letters d ↦ ⟨_, internalIoWriteinthex_eq d letters, Numerals.numeral_denotes _ _⟩
  refine ⟨fun d ↦ ⟨_, ioWriteint_eq d, Numerals.numeral_denotes _ _⟩,
    fun d ↦ ⟨_, ioWriteuint_eq d, Numerals.numeral_denotes _ _⟩, hhex, hhex .lower,
    fun d ↦ ⟨readInt_ioWriteint d, readUint_ioWriteuint d, readHex_internalIoWriteinthex d⟩,
    ?_, ?_, ?_⟩
  · intro d e h
    have hread := readInt_ioWriteint d
    rw [h, readInt_ioWriteint] at hread
    exact BitVec.toInt_inj.mp (Option.some.inj hread).symm
  · intro d e h
    have hread := readUint_ioWriteuint d
    rw [h, readUint_ioWriteuint] at hread
    exact BitVec.toNat_inj.mp (Option.some.inj hread).symm
  · intro letters d e h
    have hread := readHex_internalIoWriteinthex d letters
    rw [show internalIoWriteinthex d letters.base = internalIoWriteinthex e letters.base from h,
      readHex_internalIoWriteinthex] at hread
    exact BitVec.toNat_inj.mp (Option.some.inj hread).symm

example : ioWriteint 0x80000000 = some ("-2147483648".toList.map char) := by decide +kernel

end AlienOS.Io
