import AlienOS.Io.Number
import Mathlib.Data.List.GetD

/-!
# Printf — `io_printf`

Every argument of a `va_list` is one word: a number, a pointer, or a character promoted to an
`int`.
-/

open AlienOS.Lib

namespace AlienOS.Io

/-! ## Strings -/

/-- The characters of a string in memory; after them comes its terminator. -/
structure CString where
  chars : List Byte
  terminated : 0 ∉ chars

namespace CString

/-- `str[i]` -/
def get (str : CString) (i : Nat) : Byte := str.chars.getD i 0

def append (f g : CString) : CString :=
  ⟨f.chars ++ g.chars, fun h ↦ (List.mem_append.mp h).elim f.terminated g.terminated⟩

end CString

/-- `while (str[len]) len++`; `n` bounds the rounds. -/
def strlenLoop (str : CString) : Nat → Nat → Nat
  | 0, len => len
  | n + 1, len => if str.get len ≠ 0 then strlenLoop str n (len + 1) else len

def strlen (str : CString) : Nat := strlenLoop str (str.chars.length + 1) 0

/-- `while (*str != '\0')` with `i` characters behind it; `n` bounds the rounds. -/
def ioWritestrLoop (str : CString) : Nat → Nat → List Byte
  | 0, _ => []
  | n + 1, i => if str.get i ≠ 0 then str.get i :: ioWritestrLoop str n (i + 1) else []

def ioWritestr (str : CString) : List Byte := ioWritestrLoop str (str.chars.length + 1) 0

def literal (s : String) : List Byte := s.toList.map char

def ioWritebool (b : Bool) : List Byte :=
  if b then ioWritestr ⟨literal "true", by decide⟩ else ioWritestr ⟨literal "false", by decide⟩

/-! ## The formatter -/

section

variable (strings : Word → CString)

/-- `va_arg` is undefined if there is no argument left. -/
def vaArg : List Word → Option (Word × List Word)
  | [] => none
  | w :: params => some (w, params)

/-- `switch (c)`: the characters, and the arguments that are left. -/
def ioPrintfDirective (c : Byte) (params : List Word) : Option (List Byte × List Word) :=
  if c = char 's' then do
    let (w, params) ← vaArg params
    some (ioWritestr (strings w), params)
  else if c = char 'c' then do
    let (w, params) ← vaArg params
    some ([toChar w], params)
  else if c = char 'u' then do
    let (w, params) ← vaArg params
    let out ← ioWriteuint w
    some (out, params)
  else if c = char 'i' ∨ c = char 'd' then do
    let (w, params) ← vaArg params
    let out ← ioWriteint w
    some (out, params)
  else if c = char 'b' then do
    let (w, params) ← vaArg params
    some (ioWritebool (w != 0), params)
  else if c = char 'p' then do
    let (w, params) ← vaArg params
    let out ← ioWriteptr w
    some (out, params)
  else if c = char 'x' ∨ c = char 'X' then do
    let base := if c = char 'x' then char 'a' else char 'A'
    let (w, params) ← vaArg params
    let out ← internalIoWriteinthex w base
    some (out, params)
  else if c = char '%' then
    some ([char '%'], params)
  else
    some ([char '%', c], params)

/-- `for (size_t i = 0; i < len; i++)`; `n` bounds the rounds. -/
def ioPrintfLoop (format : CString) (len : Nat) : Nat → Nat → List Word →
    Option (List Byte × List Word)
  | 0, _, params => some ([], params)
  | n + 1, i, params =>
    if i < len then
      if format.get i ≠ char '%' ∨ len ≤ i + 1 then do
        let (out, params) ← ioPrintfLoop format len n (i + 1) params
        some (format.get i :: out, params)
      else do
        let (out, params) ← ioPrintfDirective strings (format.get (i + 1)) params
        let (out', params) ← ioPrintfLoop format len n (i + 2) params
        some (out ++ out', params)
    else
      some ([], params)

/-- The characters it emits, and the arguments it leaves. -/
def ioPrintf (format : CString) (params : List Word) : Option (List Byte × List Word) :=
  let len := strlen format
  ioPrintfLoop strings format len (len + 1) 0 params

end

/-! ## The format language -/

inductive Piece where
  | ordinary (c : Byte)
  /-- a `%` with nothing after it -/
  | lone
  | pair (c : Byte)
  deriving DecidableEq, Repr

def pieces : List Byte → List Piece
  | [] => []
  | [c] => if c = char '%' then [.lone] else [.ordinary c]
  | c :: d :: cs => if c = char '%' then .pair d :: pieces cs else .ordinary c :: pieces (d :: cs)

section

variable (strings : Word → CString)

/-- How a directive prints its argument. -/
def conversion (c : Byte) : Option (Word → List Byte) :=
  if c = char 's' then some fun w ↦ (strings w).chars
  else if c = char 'c' then some fun w ↦ [toChar w]
  else if c = char 'u' then some fun w ↦ decimal.numeral w.toNat
  else if c = char 'i' ∨ c = char 'd' then
    some fun w ↦ signOf w ++ decimal.numeral w.toInt.natAbs
  else if c = char 'b' then some fun w ↦ if w = 0 then literal "false" else literal "true"
  else if c = char 'p' ∨ c = char 'x' then
    some fun w ↦ literal "0x" ++ (hexadecimal .lower).numeral w.toNat
  else if c = char 'X' then some fun w ↦ literal "0X" ++ (hexadecimal .upper).numeral w.toNat
  else none

/-- What a piece prints, and the arguments it leaves. -/
def Piece.expand : Piece → List Word → Option (List Byte × List Word)
  | .ordinary c, args => some ([c], args)
  | .lone, args => some ([char '%'], args)
  | .pair c, args =>
    match conversion strings c with
    | some print => (vaArg args).map fun (w, args) ↦ (print w, args)
    | none => some (if c = char '%' then [char '%'] else [char '%', c], args)

def expandAll : List Piece → List Word → Option (List Byte × List Word)
  | [], args => some ([], args)
  | p :: ps, args => do
    let (out, args) ← p.expand strings args
    let (out', args) ← expandAll ps args
    some (out ++ out', args)

end

/-- The pieces that take an argument. -/
def Piece.asks : Piece → Bool
  | .pair c => c ∈ literal "scuidbpxX"
  | _ => false

/-! ## Strings are read to their end -/

section

variable {str : CString} {i : Nat}

theorem CString.get_ne_zero (h : i < str.chars.length) : str.get i ≠ 0 := by
  unfold CString.get
  rw [List.getD_eq_getElem _ _ h]
  intro hzero
  exact str.terminated (hzero ▸ List.getElem_mem h)

theorem CString.get_eq_zero (h : str.chars.length ≤ i) : str.get i = 0 := by
  unfold CString.get
  exact List.getD_eq_default _ _ h

theorem CString.drop_eq_cons (h : i < str.chars.length) :
    str.chars.drop i = str.get i :: str.chars.drop (i + 1) := by
  unfold CString.get
  rw [List.getD_eq_getElem _ _ h]
  exact List.drop_eq_getElem_cons h

theorem strlenLoop_eq (str : CString) : ∀ {n len : Nat}, len ≤ str.chars.length →
    str.chars.length < len + n → strlenLoop str n len = str.chars.length := by
  intro n
  induction n with
  | zero =>
    intro len h₁ h₂
    omega
  | succ n ih =>
    intro len h₁ h₂
    unfold strlenLoop
    by_cases hlt : len < str.chars.length
    · rw [if_pos (CString.get_ne_zero hlt)]
      exact ih (by omega) (by omega)
    · rw [if_neg (by simpa using CString.get_eq_zero (Nat.not_lt.mp hlt))]
      omega

theorem strlen_eq (str : CString) : strlen str = str.chars.length :=
  strlenLoop_eq str (Nat.zero_le _) (by omega)

theorem ioWritestrLoop_eq (str : CString) : ∀ {n i : Nat}, i ≤ str.chars.length →
    str.chars.length < i + n → ioWritestrLoop str n i = str.chars.drop i := by
  intro n
  induction n with
  | zero =>
    intro i h₁ h₂
    omega
  | succ n ih =>
    intro i h₁ h₂
    unfold ioWritestrLoop
    by_cases hlt : i < str.chars.length
    · rw [if_pos (CString.get_ne_zero hlt), ih (by omega) (by omega), CString.drop_eq_cons hlt]
    · rw [if_neg (by simpa using CString.get_eq_zero (Nat.not_lt.mp hlt)),
        List.drop_eq_nil_of_le (Nat.not_lt.mp hlt)]

theorem ioWritestr_eq (str : CString) : ioWritestr str = str.chars :=
  ioWritestrLoop_eq str (Nat.zero_le _) (by omega)

end

/-! ## The loop expands the pieces -/

section

variable {strings : Word → CString}

theorem ioWritebool_eq (b : Bool) :
    ioWritebool b = if b then literal "true" else literal "false" := by
  unfold ioWritebool
  cases b
  · exact ioWritestr_eq _
  · exact ioWritestr_eq _

theorem expand_pair (c : Byte) (args : List Word) : (Piece.pair c).expand strings args =
    match conversion strings c with
    | some print => (vaArg args).map fun (w, args) ↦ (print w, args)
    | none => some (if c = char '%' then [char '%'] else [char '%', c], args) := rfl

/-- Every `case` prints what the conversion says. -/
theorem ioPrintfDirective_eq (c : Byte) (params : List Word) :
    ioPrintfDirective strings c params = (Piece.pair c).expand strings params := by
  rw [expand_pair]
  unfold ioPrintfDirective conversion
  by_cases hs : c = char 's'
  · simp only [if_pos hs, ioWritestr_eq]
    cases params <;> rfl
  rw [if_neg hs, if_neg hs]
  by_cases hc : c = char 'c'
  · simp only [if_pos hc]
    cases params <;> rfl
  rw [if_neg hc, if_neg hc]
  by_cases hu : c = char 'u'
  · simp only [if_pos hu, ioWriteuint_eq]
    cases params <;> rfl
  rw [if_neg hu, if_neg hu]
  by_cases hi : c = char 'i' ∨ c = char 'd'
  · simp only [if_pos hi, ioWriteint_eq]
    cases params <;> rfl
  rw [if_neg hi, if_neg hi]
  by_cases hb : c = char 'b'
  · simp only [if_pos hb, ioWritebool_eq]
    cases params with
    | nil => rfl
    | cons w params => by_cases hw : w = 0 <;> simp [vaArg, hw]
  rw [if_neg hb, if_neg hb]
  by_cases hp : c = char 'p'
  · simp only [if_pos hp, if_pos (Or.inl hp : c = char 'p' ∨ c = char 'x'), ioWriteptr]
    rw [show char 'a' = LetterCase.lower.base from rfl]
    simp only [internalIoWriteinthex_eq]
    cases params <;> rfl
  rw [if_neg hp]
  by_cases hx : c = char 'x'
  · simp only [if_pos hx, if_pos (Or.inl hx : c = char 'x' ∨ c = char 'X'),
      if_pos (Or.inr hx : c = char 'p' ∨ c = char 'x')]
    rw [show char 'a' = LetterCase.lower.base from rfl]
    simp only [internalIoWriteinthex_eq]
    cases params <;> rfl
  rw [if_neg (by simp [hp, hx] : ¬ (c = char 'p' ∨ c = char 'x'))]
  by_cases hX : c = char 'X'
  · simp only [if_neg hx, if_pos hX, if_pos (Or.inr hX : c = char 'x' ∨ c = char 'X')]
    rw [show char 'A' = LetterCase.upper.base from rfl]
    simp only [internalIoWriteinthex_eq]
    cases params <;> rfl
  rw [if_neg (by simp [hx, hX] : ¬ (c = char 'x' ∨ c = char 'X')), if_neg hX]
  by_cases hpercent : c = char '%'
  · simp [hpercent]
  · simp [hpercent]

/-- From `i` on the loop expands the pieces of what is left of the format. -/
theorem ioPrintfLoop_eq (format : CString) : ∀ {n i : Nat} {params : List Word},
    format.chars.length ≤ i + n →
    ioPrintfLoop strings format format.chars.length n i params =
      expandAll strings (pieces (format.chars.drop i)) params := by
  intro n
  induction n with
  | zero =>
    intro i params h
    rw [List.drop_eq_nil_of_le (show format.chars.length ≤ i from h)]
    rfl
  | succ n ih =>
    intro i params h
    unfold ioPrintfLoop
    by_cases hi : i < format.chars.length
    · rw [if_pos hi, CString.drop_eq_cons hi]
      by_cases hnext : i + 1 < format.chars.length
      · rw [CString.drop_eq_cons hnext]
        unfold pieces
        by_cases hpercent : format.get i = char '%'
        · rw [if_neg (by simpa [hpercent] using hnext), if_pos hpercent, ioPrintfDirective_eq]
          simp only [ih (show format.chars.length ≤ i + 2 + n by omega)]
          rfl
        · rw [if_pos (.inl hpercent), if_neg hpercent, ih (by omega), CString.drop_eq_cons hnext]
          rfl
      -- the last character stands for itself, also if it is a `%`
      · have hnil : format.chars.drop (i + 1) = [] := List.drop_eq_nil_of_le (by omega)
        rw [if_pos (.inr (by omega)), ih (by omega), hnil]
        unfold pieces
        by_cases hpercent : format.get i = char '%'
        · rw [if_pos hpercent, hpercent]
          rfl
        · rw [if_neg hpercent]
          rfl
    · rw [if_neg hi, List.drop_eq_nil_of_le (Nat.not_lt.mp hi)]
      rfl

theorem ioPrintf_eq (format : CString) (params : List Word) :
    ioPrintf strings format params = expandAll strings (pieces format.chars) params := by
  unfold ioPrintf
  rw [strlen_eq, ioPrintfLoop_eq format (by omega), List.drop_zero]

/-! ## Arguments are taken in order -/

/-- The letters with a conversion are those that take an argument. -/
theorem conversion_isSome (strings : Word → CString) (c : Byte) :
    (conversion strings c).isSome = (Piece.pair c).asks := by
  have hletters : literal "scuidbpxX" = [char 's', char 'c', char 'u', char 'i', char 'd',
      char 'b', char 'p', char 'x', char 'X'] := rfl
  unfold conversion Piece.asks
  rw [hletters]
  simp only [List.mem_cons, List.not_mem_nil, or_false]
  split_ifs <;> grind

/-- A piece takes one argument or none. -/
theorem Piece.expand_eq_some (strings : Word → CString) (p : Piece) {args : List Word}
    (h : (if p.asks then 1 else 0) ≤ args.length) :
    ∃ out, p.expand strings args = some (out, args.drop (if p.asks then 1 else 0)) := by
  cases p with
  | ordinary c => exact ⟨[c], rfl⟩
  | lone => exact ⟨[char '%'], rfl⟩
  | pair c =>
    have hsome := conversion_isSome strings c
    rw [expand_pair]
    cases hc : conversion strings c with
    | none =>
      rw [hc] at hsome
      rw [← hsome]
      exact ⟨_, rfl⟩
    | some print =>
      rw [hc] at hsome
      rw [← hsome] at h ⊢
      cases args with
      | nil => cases h
      | cons w args => exact ⟨print w, rfl⟩

/-- How many arguments the pieces take. -/
def asked (ps : List Piece) : Nat := (ps.filter Piece.asks).length

theorem asked_cons (p : Piece) (ps : List Piece) :
    asked (p :: ps) = (if p.asks then 1 else 0) + asked ps := by
  unfold asked
  cases h : p.asks
  · rw [List.filter_cons_of_neg (by simp [h])]
    simp
  · rw [List.filter_cons_of_pos h, List.length_cons]
    simp
    omega

theorem expandAll_cons (p : Piece) (ps : List Piece) (args : List Word) :
    expandAll strings (p :: ps) args = (p.expand strings args).bind fun (out, args) ↦
      (expandAll strings ps args).map fun (out', args) ↦ (out ++ out', args) := by
  rw [expandAll]
  cases p.expand strings args with
  | none => rfl
  | some r =>
    simp only [Option.bind_eq_bind, Option.bind_some]
    cases expandAll strings ps r.2 <;> rfl

/-- With enough arguments every piece is expanded. -/
theorem expandAll_eq_some : ∀ {ps : List Piece} {args : List Word}, asked ps ≤ args.length →
    ∃ out, expandAll strings ps args = some (out, args.drop (asked ps)) := by
  intro ps
  induction ps with
  | nil => exact fun _ ↦ ⟨[], rfl⟩
  | cons p ps ih =>
    intro args h
    rw [asked_cons] at h ⊢
    have hone : (if p.asks then 1 else 0) ≤ args.length := by omega
    have hrest : asked ps ≤ (args.drop (if p.asks then 1 else 0)).length := by
      rw [List.length_drop]
      omega
    obtain ⟨out, hp⟩ := p.expand_eq_some strings hone
    obtain ⟨out', hps⟩ := ih hrest
    refine ⟨out ++ out', ?_⟩
    rw [expandAll_cons, hp, Option.bind_some]
    simp only [hps, Option.map_some, List.drop_drop]

/-! ## Formats one after the other -/

theorem pieces_ordinary {c : Byte} (hc : c ≠ char '%') (cs : List Byte) :
    pieces (c :: cs) = .ordinary c :: pieces cs := by
  cases cs with
  | nil => rw [pieces.eq_2, if_neg hc, pieces.eq_1]
  | cons d cs => rw [pieces.eq_3, if_neg hc]

theorem pieces_percent (d : Byte) (cs : List Byte) :
    pieces (char '%' :: d :: cs) = .pair d :: pieces cs := by
  rw [pieces.eq_3, if_pos rfl]

/-- Unless the first ends in the middle of a directive, two formats are scanned one after the
other. -/
theorem pieces_append (g : List Byte) {f : List Byte} : .lone ∉ pieces f →
    pieces (f ++ g) = pieces f ++ pieces g := by
  induction f using pieces.induct with
  | case1 => exact fun _ ↦ rfl
  | case2 => exact fun h ↦ absurd List.mem_cons_self h
  | case3 c hc =>
    intro _
    rw [List.singleton_append, pieces_ordinary hc, pieces_ordinary hc]
    rfl
  | case4 d cs ih =>
    intro h
    rw [pieces_percent] at h ⊢
    rw [List.cons_append, List.cons_append, pieces_percent, ih (fun hm ↦ h (.tail _ hm))]
    rfl
  | case5 c d cs hc ih =>
    intro h
    rw [pieces_ordinary hc] at h ⊢
    rw [List.cons_append, pieces_ordinary hc, ih (fun hm ↦ h (.tail _ hm))]
    rfl

/-- Printing what comes after takes the arguments that what comes before leaves. -/
theorem expandAll_append {ps qs : List Piece} : ∀ {args : List Word},
    expandAll strings (ps ++ qs) args = (expandAll strings ps args).bind fun (out, args) ↦
      (expandAll strings qs args).map fun (out', args) ↦ (out ++ out', args) := by
  induction ps with
  | nil =>
    intro args
    simp [expandAll]
  | cons p ps ih =>
    intro args
    rw [List.cons_append, expandAll_cons, expandAll_cons]
    cases p.expand strings args with
    | none => rfl
    | some r =>
      simp only [Option.bind_some, ih]
      cases expandAll strings ps r.2 with
      | none => rfl
      | some r' =>
        simp only [Option.bind_some, Option.map_some]
        cases expandAll strings qs r'.2 with
        | none => rfl
        | some r'' => simp

/-- A call prints the pieces of its format from left to right; it can be cut wherever the scan is
not inside a directive. -/
theorem printf_prints_pieces (strings : Word → CString) :
    (∀ (format : CString) (params : List Word),
      ioPrintf strings format params = expandAll strings (pieces format.chars) params) ∧
    (∀ (format : CString) (params : List Word), asked (pieces format.chars) ≤ params.length →
      ∃ out, ioPrintf strings format params =
        some (out, params.drop (asked (pieces format.chars)))) ∧
    ∀ (f g : CString) (params : List Word), .lone ∉ pieces f.chars →
      ioPrintf strings (f.append g) params =
        (ioPrintf strings f params).bind fun (out, params) ↦
          (ioPrintf strings g params).map fun (out', params) ↦ (out ++ out', params) := by
  refine ⟨ioPrintf_eq, fun format params h ↦ ?_, fun f g params h ↦ ?_⟩
  · rw [ioPrintf_eq]
    exact expandAll_eq_some h
  · have happend : (f.append g).chars = f.chars ++ g.chars := rfl
    rw [ioPrintf_eq, happend, pieces_append g.chars h, expandAll_append]
    simp only [ioPrintf_eq]

/-- The argument's `%` is a character like any other. -/
example : (ioPrintf (fun _ ↦ ⟨literal "%d", by decide⟩) ⟨literal "%s-%i%%%q%", by decide⟩
    [0x1000, 0xFFFFFFFF, 7]).map Prod.fst = some (literal "%d--1%%q%") := by
  decide +kernel

end

end AlienOS.Io
