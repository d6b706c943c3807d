import AlienOS.Heap.Kmalloc
import AlienOS.Io.Printf
import AlienOS.Lib.Except
import AlienOS.Libc.Copy

/-!
# Strings — `strlen`, `stpcpy`, `strcpy` and `strcat` on memory

`Holds mem a str`: at address `a` stand the characters of `str` and then its terminator.
-/

open AlienOS.Lib
open AlienOS.Io (CString literal)

namespace AlienOS.Libc

/-- `while (str[len]) len++`; after `n` rounds without a terminator it is back where it was. -/
def strlenLoop (mem : Memory) (str : Word) : Nat → Word → Except Halt Word
  | 0, _ => .error .spin
  | n + 1, len => if mem.byte (str + len) ≠ 0 then strlenLoop mem str n (len + 1) else .ok len

def strlen (mem : Memory) (str : Word) : Except Halt Word := strlenLoop mem str (2 ^ 32) 0

def stpcpy (mem : Memory) (dst src : Word) : Except Halt (Word × Memory) := do
  let n ← strlen mem src
  let (p, mem) := mempcpy mem dst src n
  .ok (p, writeByte mem p 0)

def strcpy (mem : Memory) (dst src : Word) : Except Halt (Word × Memory) := do
  let (_, mem) ← stpcpy mem dst src
  .ok (dst, mem)

def strcat (mem : Memory) (dst src : Word) : Except Halt (Word × Memory) := do
  let n ← strlen mem dst
  let (_, mem) ← stpcpy mem (dst + n) src
  .ok (dst, mem)

/-! ## Strings in memory -/

/-- The bytes of a string with its terminator. -/
def bytes (str : CString) : List Byte := str.chars ++ [0]

def size (str : CString) : Nat := str.chars.length

def Holds (mem : Memory) (a : Word) (str : CString) : Prop :=
  bytesAt mem a (size str + 1) = bytes str

instance (mem : Memory) (a : Word) (str : CString) : Decidable (Holds mem a str) :=
  inferInstanceAs (Decidable (_ = _))

/-- `n` characters at `a` and a terminator do not wrap around. -/
def Room (a : Word) (n : Nat) : Prop := a.toNat + (n + 1) ≤ 2 ^ 32

instance (a : Word) (n : Nat) : Decidable (Room a n) := inferInstanceAs (Decidable (_ ≤ _))

/-- Neither do `m` characters at `a` reach into `n` characters at `c`, nor the other way round. -/
def Apart (a : Word) (m : Nat) (c : Word) (n : Nat) : Prop :=
  a.toNat + (m + 1) ≤ c.toNat ∨ c.toNat + (n + 1) ≤ a.toNat

instance (a c : Word) (m n : Nat) : Decidable (Apart a m c n) :=
  inferInstanceAs (Decidable (_ ∨ _))

theorem Room.mono {a : Word} {m n : Nat} (h : Room a n) (hmn : m ≤ n) : Room a m := by
  unfold Room at *
  omega

theorem Apart.symm {a c : Word} {m n : Nat} (h : Apart a m c n) : Apart c n a m := Or.symm h

theorem Apart.mono {a c : Word} {k m n : Nat} (h : Apart a m c n) (hkm : k ≤ m) :
    Apart a k c n := by
  unfold Apart at *
  omega

section

variable {mem mem' : Memory} {a c dst src : Word} {s t u : CString}

@[simp] theorem length_bytes : (bytes s).length = size s + 1 := by simp [bytes, size]

@[simp] theorem size_append : size (s.append t) = size s + size t := List.length_append

theorem append_assoc : (s.append t).append u = s.append (t.append u) := by
  unfold CString.append
  simp only [List.append_assoc]

theorem bytes_append : bytes (s.append t) = s.chars ++ bytes t := List.append_assoc ..

theorem Holds.chars (h : Holds mem a s) : bytesAt mem a (size s) = s.chars := by
  have := (bytesAt_concat mem a (size s)).symm.trans h
  exact (List.append_inj' this rfl).1

theorem Holds.byte (h : Holds mem a s) {i : Nat} (hi : i < size s + 1) :
    mem.byte (a + BitVec.ofNat 32 i) = s.get i := by
  have hi' : i < (s.chars ++ [0]).length := by simpa [size] using hi
  have hget : (s.chars ++ [0])[i] = s.get i := by
    unfold CString.get
    rw [List.getElem_append]
    split
    · next hlt => rw [List.getD_eq_getElem _ _ hlt]
    · next hge =>
      rw [List.getD_eq_default _ _ (by omega)]
      simp
  have hlt : i < (bytesAt mem a (size s + 1)).length := by simpa using hi
  rw [← getElem_bytesAt hlt, ← hget]
  exact List.getElem_of_eq h _

theorem Holds.congr (h : Holds mem a s)
    (hc : bytesAt mem' a (size s + 1) = bytesAt mem a (size s + 1)) : Holds mem' a s :=
  hc.trans h

theorem holds_writeBytes (hs : size s < 2 ^ 32) : Holds (writeBytes mem a (bytes s)) a s := by
  have hlen : (bytes s).length ≤ 2 ^ 32 := by simpa using hs
  have := bytesAt_writeBytes mem a hlen
  rwa [length_bytes] at this

/-- A string right behind the characters of another, over its terminator. -/
theorem Holds.append (h : Holds mem a s) (hw : Room a (size s + size t)) :
    Holds (writeBytes mem (a + BitVec.ofNat 32 (size s)) (bytes t)) a (s.append t) := by
  unfold Room at hw
  have hoff : (a + BitVec.ofNat 32 (size s)).toNat = a.toNat + size s := by bv_omega
  have hold : bytesAt (writeBytes mem (a + BitVec.ofNat 32 (size s)) (bytes t)) a (size s) =
      bytesAt mem a (size s) := by
    apply bytesAt_writeBytes_apart
    · omega
    · rw [length_bytes]
      omega
    · omega
  show bytesAt _ a (size (s.append t) + 1) = bytes (s.append t)
  rw [size_append, Nat.add_assoc, bytesAt_append, bytes_append, hold, h.chars]
  exact congrArg _ (holds_writeBytes (by omega))

/-- Writing elsewhere leaves a string alone. -/
theorem Holds.apart (h : Holds mem c s) (hc : Room c (size s)) (ha : Room a (size t))
    (hd : Apart a (size t) c (size s)) : Holds (writeBytes mem a (bytes t)) c s := by
  unfold Room at hc ha
  unfold Apart at hd
  apply h.congr
  apply bytesAt_writeBytes_apart
  · rw [length_bytes]
    omega
  · rw [length_bytes]
    omega
  · exact hc

/-! ## The functions -/

theorem strlenLoop_eq (h : Holds mem a s) {n len : Nat} (hlen : len ≤ size s)
    (hn : size s < len + n) :
    strlenLoop mem a n (BitVec.ofNat 32 len) = .ok (BitVec.ofNat 32 (size s)) := by
  induction n generalizing len with
  | zero => omega
  | succ n ih =>
    unfold strlenLoop
    rw [h.byte (by omega)]
    by_cases hlt : len < size s
    · have hsucc : BitVec.ofNat 32 len + 1 = BitVec.ofNat 32 (len + 1) := (BitVec.ofNat_add ..).symm
      rw [if_pos (CString.get_ne_zero hlt), hsucc]
      exact ih hlt (by omega)
    · have he : len = size s := by omega
      rw [if_neg (not_not.mpr (CString.get_eq_zero (by rw [he]; rfl))), he]

theorem strlen_eq (h : Holds mem a s) (hs : size s < 2 ^ 32) :
    strlen mem a = .ok (BitVec.ofNat 32 (size s)) :=
  strlenLoop_eq h (Nat.zero_le _) (by omega)

/-- The copy, with its terminator, and the address of that terminator. -/
theorem stpcpy_eq (h : Holds mem src t) (hdst : Room dst (size t)) (hsrc : Room src (size t))
    (hdis : Apart dst (size t) src (size t)) :
    stpcpy mem dst src =
      .ok (dst + BitVec.ofNat 32 (size t), writeBytes mem dst (bytes t)) := by
  unfold Room at hdst hsrc
  unfold Apart at hdis
  have hn : (BitVec.ofNat 32 (size t)).toNat = size t := by bv_omega
  have hcopy : mempcpy mem dst src (BitVec.ofNat 32 (size t)) = _ :=
    mempcpy_eq mem (by omega) (by omega) (by omega)
  have hlen : t.chars.length < 2 ^ 32 := (Nat.lt_succ_self (size t)).trans_le (by omega)
  have hlast := writeByte_writeBytes_concat mem dst 0 hlen
  rw [hn, h.chars] at hcopy
  unfold stpcpy
  rw [strlen_eq h (by omega), ok_bind, hcopy]
  exact congrArg (fun m ↦ Except.ok (dst + BitVec.ofNat 32 (size t), m)) hlast

/-- The end of a string, and what is left there of the room. -/
theorem toNat_end (h : Room dst (size s + size t)) :
    (dst + BitVec.ofNat 32 (size s)).toNat = dst.toNat + size s := by
  unfold Room at h
  bv_omega

theorem stpcpy_end (h : Holds mem src t) (hdst : Room dst (size s + size t))
    (hsrc : Room src (size t)) (hdis : Apart dst (size s + size t) src (size t)) :
    stpcpy mem (dst + BitVec.ofNat 32 (size s)) src =
      .ok (dst + BitVec.ofNat 32 (size (s.append t)),
        writeBytes mem (dst + BitVec.ofNat 32 (size s)) (bytes t)) := by
  have hoff := toNat_end hdst
  unfold Room at hdst
  unfold Apart at hdis
  rw [stpcpy_eq h _ hsrc, size_append, BitVec.ofNat_add, BitVec.add_assoc]
  · unfold Apart
    omega
  · unfold Room
    omega

theorem strcat_eq (hd : Holds mem dst s) (h : Holds mem src t) (hdst : Room dst (size s + size t))
    (hsrc : Room src (size t)) (hdis : Apart dst (size s + size t) src (size t)) :
    strcat mem dst src =
      .ok (dst, writeBytes mem (dst + BitVec.ofNat 32 (size s)) (bytes t)) := by
  have hs : size s < 2 ^ 32 := by
    unfold Room at hdst
    omega
  unfold strcat
  rw [strlen_eq hd hs, ok_bind, stpcpy_end h hdst hsrc hdis, ok_bind]

/-- An append, as a copy to the end, and the strings that it leaves. -/
theorem strcat_spec (hd : Holds mem dst s) (h : Holds mem src t)
    (hdst : Room dst (size (s.append t))) (hsrc : Room src (size t))
    (hdis : Apart dst (size (s.append t)) src (size t)) :
    ∃ mem', strcat mem dst src = .ok (dst, mem') ∧
      stpcpy mem (dst + BitVec.ofNat 32 (size s)) src =
        .ok (dst + BitVec.ofNat 32 (size (s.append t)), mem') ∧
      Holds mem' dst (s.append t) ∧
      ∀ {c u}, Holds mem c u → Room c (size u) → Apart dst (size (s.append t)) c (size u) →
        Holds mem' c u := by
  have hend := stpcpy_end h (by rwa [size_append] at hdst) hsrc (by rwa [size_append] at hdis)
  rw [size_append] at hdst hdis
  refine ⟨_, strcat_eq hd h hdst hsrc hdis, hend, hd.append hdst, fun hu hroom hc ↦ ?_⟩
  have hoff := toNat_end hdst
  rw [size_append] at hc
  apply hu.apart hroom
  · unfold Room at *
    omega
  · unfold Apart at *
    omega

/-! ## Many sources -/

def strcatAll (dst : Word) : List Word → Memory → Except Halt Memory
  | [], mem => .ok mem
  | src :: srcs, mem => do
    let (_, mem) ← strcat mem dst src
    strcatAll dst srcs mem

/-- Every copy starts where the one before has returned. -/
def stpcpyAll : List Word → Word → Memory → Except Halt (Word × Memory)
  | [], p, mem => .ok (p, mem)
  | src :: srcs, p, mem => do
    let (p, mem) ← stpcpy mem p src
    stpcpyAll srcs p mem

/-- `s` and all that comes after it. -/
def joined (s : CString) (parts : List (Word × CString)) : CString :=
  parts.foldl (fun s part ↦ s.append part.2) s

theorem size_le_joined (parts : List (Word × CString)) : size s ≤ size (joined s parts) := by
  induction parts generalizing s with
  | nil => exact Nat.le_refl _
  | cons part parts ih =>
    have := ih (s := s.append part.2)
    rw [size_append] at this
    exact Nat.le_trans (Nat.le_add_right ..) this

theorem appendAll_eq {parts : List (Word × CString)} (hd : Holds mem dst s)
    (hdst : Room dst (size (joined s parts)))
    (hparts : ∀ part ∈ parts, Holds mem part.1 part.2 ∧ Room part.1 (size part.2) ∧
      Apart dst (size (joined s parts)) part.1 (size part.2)) :
    ∃ mem', strcatAll dst (parts.map Prod.fst) mem = .ok mem' ∧
      stpcpyAll (parts.map Prod.fst) (dst + BitVec.ofNat 32 (size s)) mem =
        .ok (dst + BitVec.ofNat 32 (size (joined s parts)), mem') ∧
      Holds mem' dst (joined s parts) := by
  induction parts generalizing mem s with
  | nil => exact ⟨mem, rfl, rfl, hd⟩
  | cons part parts ih =>
    obtain ⟨src, t⟩ := part
    obtain ⟨h, hsrc, hdis⟩ : Holds mem src t ∧ Room src (size t) ∧
        Apart dst (size (joined s ((src, t) :: parts))) src (size t) :=
      hparts (src, t) List.mem_cons_self
    have hle : size (s.append t) ≤ size (joined s ((src, t) :: parts)) :=
      size_le_joined (s := s.append t) parts
    obtain ⟨mem₁, hcat, hcpy, hmem₁, hother⟩ := strcat_spec hd h
      (hdst.mono hle) hsrc (hdis.mono hle)
    -- the same memory either way, and no source was touched
    obtain ⟨mem', hcats, hcpys, hmem'⟩ := ih hmem₁ hdst fun part hp ↦ by
      obtain ⟨h', hroom', hdis'⟩ := hparts part (List.mem_cons_of_mem _ hp)
      exact ⟨hother h' hroom' (hdis'.mono hle), hroom', hdis'⟩
    refine ⟨mem', ?_, ?_, hmem'⟩
    · rw [List.map_cons, strcatAll, hcat, ok_bind]
      exact hcats
    · rw [List.map_cons, stpcpyAll, hcpy, ok_bind]
      exact hcpys

/-- Appending a string that is itself the result of an append. -/
theorem strcat_assoc {src₂ : Word} (hd : Holds mem dst s) (h : Holds mem src t)
    (h₂ : Holds mem src₂ u) (hdst : Room dst (size ((s.append t).append u)))
    (hsrc : Room src (size (t.append u))) (hsrc₂ : Room src₂ (size u))
    (hdis : Apart dst (size ((s.append t).append u)) src (size (t.append u)))
    (hdis₂ : Apart dst (size ((s.append t).append u)) src₂ (size u))
    (hsrcs : Apart src (size (t.append u)) src₂ (size u)) :
    ∃ mem₁ left mem₂ right,
      strcat mem dst src = .ok (dst, mem₁) ∧ strcat mem₁ dst src₂ = .ok (dst, left) ∧
      strcat mem src src₂ = .ok (src, mem₂) ∧ strcat mem₂ dst src = .ok (dst, right) ∧
      Holds left dst (s.append (t.append u)) ∧ Holds right dst (s.append (t.append u)) := by
  have hsrc' : Room src (size t) := hsrc.mono (by simp)
  -- first `t`, then `u` at the end of it
  obtain ⟨mem₁, hcat₁, -, hm₁, hother₁⟩ := strcat_spec hd h (hdst.mono (by simp)) hsrc'
    ((hdis.mono (by simp)).symm.mono (by simp)).symm
  obtain ⟨left, hleft, -, hl, -⟩ := strcat_spec hm₁
    (hother₁ h₂ hsrc₂ (hdis₂.mono (by simp))) hdst hsrc₂ hdis₂
  -- `t` and `u` first, and then both at once
  obtain ⟨mem₂, hcat₂, -, hm₂, hother₂⟩ := strcat_spec h h₂ hsrc hsrc₂ hsrcs
  rw [append_assoc] at hdst hdis hl
  obtain ⟨right, hright, -, hr, -⟩ := strcat_spec
    (hother₂ hd (hdst.mono (by simp)) (hdis.mono (by simp)).symm) hm₂ hdst hsrc hdis
  exact ⟨mem₁, left, mem₂, right, hcat₁, hleft, hcat₂, hright, hl, hr⟩

theorem strings_concatenate (hd : Holds mem dst s) (h : Holds mem src t)
    (hdst : Room dst (size s + size t)) (hsrc : Room src (size t))
    (hdis : Apart dst (size s + size t) src (size t)) :
    (∃ mem', strcat mem dst src = .ok (dst, mem') ∧ Holds mem' dst (s.append t) ∧
      strlen mem' dst = .ok (BitVec.ofNat 32 (size s + size t)) ∧
      ∀ x : Word, x.toNat < dst.toNat + size s ∨ dst.toNat + size s + size t < x.toNat →
        mem'.byte x = mem.byte x) ∧
    (∃ mem', stpcpy mem dst src = .ok (dst + BitVec.ofNat 32 (size t), mem') ∧
      strcpy mem dst src = .ok (dst, mem') ∧ Holds mem' dst t ∧
      mem'.byte (dst + BitVec.ofNat 32 (size t)) = 0 ∧
      ∀ x : Word, x.toNat < dst.toNat ∨ dst.toNat + size t < x.toNat →
        mem'.byte x = mem.byte x) ∧
    (∀ src₂ u, Holds mem src₂ u → Room dst (size s + size t + size u) →
      Room src (size t + size u) → Room src₂ (size u) →
      Apart dst (size s + size t + size u) src (size t + size u) →
      Apart dst (size s + size t + size u) src₂ (size u) →
      Apart src (size t + size u) src₂ (size u) →
      ∃ mem₁ left mem₂ right,
        strcat mem dst src = .ok (dst, mem₁) ∧ strcat mem₁ dst src₂ = .ok (dst, left) ∧
        strcat mem src src₂ = .ok (src, mem₂) ∧ strcat mem₂ dst src = .ok (dst, right) ∧
        Holds left dst (s.append (t.append u)) ∧ Holds right dst (s.append (t.append u))) ∧
    ∀ parts : List (Word × CString), Room dst (size (joined s parts)) →
      (∀ part ∈ parts, Holds mem part.1 part.2 ∧ Room part.1 (size part.2) ∧
        Apart dst (size (joined s parts)) part.1 (size part.2)) →
      ∃ len mem', strlen mem dst = .ok len ∧
        strcatAll dst (parts.map Prod.fst) mem = .ok mem' ∧
        stpcpyAll (parts.map Prod.fst) (dst + len) mem =
          .ok (dst + BitVec.ofNat 32 (size (joined s parts)), mem') ∧
        Holds mem' dst (joined s parts) := by
  have hs : size s < 2 ^ 32 := by
    unfold Room at hdst
    omega
  refine ⟨?append, ?copy, ?assoc, ?many⟩
  case append =>
    have hst : size (s.append t) < 2 ^ 32 := by
      rw [size_append]
      unfold Room at hdst
      omega
    have hlen := strlen_eq (hd.append hdst) hst
    rw [size_append] at hlen
    refine ⟨_, strcat_eq hd h hdst hsrc hdis, hd.append hdst, hlen, fun x hx ↦ ?_⟩
    have hoff := toNat_end hdst
    unfold Room at hdst
    apply writeBytes_frame
    · rw [length_bytes]
      omega
    · rw [length_bytes]
      omega
  case copy =>
    have hdst' : Room dst (size t) := hdst.mono (by omega)
    have hcopy := stpcpy_eq h hdst' hsrc (hdis.mono (by omega))
    have hholds : Holds (writeBytes mem dst (bytes t)) dst t := holds_writeBytes (by
      unfold Room at hdst'
      omega)
    refine ⟨_, hcopy, ?_, hholds, ?_, fun x hx ↦ ?_⟩
    · unfold strcpy
      rw [hcopy, ok_bind]
    · rw [hholds.byte (Nat.lt_succ_self _)]
      exact CString.get_eq_zero (Nat.le_refl _)
    · unfold Room at hdst'
      apply writeBytes_frame
      · rw [length_bytes]
        omega
      · rwa [length_bytes]
  case assoc =>
    intro src₂ u h₂ hroom hroom' hroom₂ hap hap₂ haps
    apply strcat_assoc hd h h₂ <;> simpa
  case many =>
    intro parts hroom hparts
    obtain ⟨mem', hcats, hcpys, hmem'⟩ := appendAll_eq hd hroom hparts
    exact ⟨_, mem', strlen_eq hd hs, hcats, hcpys, hmem'⟩

/-- `"ab"` and then `"c"`, twice. -/
theorem strings_concatenate_abc :
    let mem : Memory := writeBytes (writeBytes ⟨fun _ ↦ 0⟩ 16 (literal "ab")) 32 (literal "c")
    (∃ mem', strcat mem 16 32 = .ok (16, mem') ∧ strlen mem' 16 = .ok 3) ∧
    ∃ mem', strcatAll 16 [32, 32] mem = .ok mem' ∧ stpcpyAll [32, 32] 18 mem = .ok (20, mem') := by
  intro mem
  have hab : Holds mem 16 ⟨literal "ab", by decide⟩ := by decide
  have hc : Holds mem 32 ⟨literal "c", by decide⟩ := by decide
  obtain ⟨⟨mem₁, hcat, -, hlen, -⟩, -, -, hmany⟩ := strings_concatenate hab hc (by decide)
    (by decide) (by decide)
  obtain ⟨len, mem₂, hlen', hcats, hcpys, -⟩ := hmany [(32, ⟨literal "c", by decide⟩),
    (32, ⟨literal "c", by decide⟩)] (by decide) (by
      intro part hp
      have hpart : part = (32, ⟨literal "c", by decide⟩) := by simpa using hp
      rw [hpart]
      exact ⟨hc, by decide, by decide⟩)
  have hlen₂ := (strlen_eq hab (by decide)).symm.trans hlen'
  cases Except.ok.inj hlen₂
  exact ⟨⟨mem₁, hcat, hlen⟩, mem₂, hcats, hcpys⟩

end

end AlienOS.Libc
