import AlienOS.Lib.Memory
import Mathlib.Data.Set.Basic

/-!
# Stack — words pushed onto a stack in memory

Addresses wrap, so a region is what lies less than its size above its base.
-/

namespace AlienOS.Lib

/-! ## Regions -/

structure Region where
  base : Word
  size : Nat
  size_le : size ≤ 2 ^ 32

namespace Region

variable {r r' : Region} {a : Word} {n : Nat}

/-- How far an address is above the base. -/
def offset (r : Region) (a : Word) : Nat := (a - r.base).toNat

instance : Membership Word Region := ⟨fun r a ↦ r.offset a < r.size⟩

def Disjoint (r r' : Region) : Prop := ∀ a, a ∈ r → a ∉ r'

theorem mem_def : a ∈ r ↔ r.offset a < r.size := Iff.rfl

theorem Disjoint.symm (h : r.Disjoint r') : r'.Disjoint r := fun a ha' ha ↦ h a ha ha'

theorem offset_add (h : r.offset a + n < 2 ^ 32) :
    r.offset (a + BitVec.ofNat 32 n) = r.offset a + n := by
  unfold offset at h ⊢
  have hsub : a + BitVec.ofNat 32 n - r.base = (a - r.base) + BitVec.ofNat 32 n := by
    bv_omega
  rw [hsub, BitVec.toNat_add, BitVec.toNat_ofNat]
  omega

/-- The part of a stack that is in use. -/
def above (r : Region) (esp : Word) : Set Word := {a | a ∈ r ∧ r.offset esp ≤ r.offset a}

/-- The four bytes of a word. -/
def word (a : Word) : Region := ⟨a, 4, by decide⟩

end Region

/-! ## Frames -/

/-- `mem` and `mem'` have the same bytes in `S`. -/
def AgreeOn (S : Set Word) (mem mem' : Memory) : Prop := ∀ a ∈ S, mem'.byte a = mem.byte a

section

variable {S T : Set Word} {mem mem' mem'' : Memory} {a w : Word} {ws : List Word} {n : Nat}

theorem AgreeOn.refl (S : Set Word) (mem : Memory) : AgreeOn S mem mem := fun _ _ ↦ rfl

theorem AgreeOn.trans (h : AgreeOn S mem mem') (h' : AgreeOn S mem' mem'') :
    AgreeOn S mem mem'' :=
  fun a ha ↦ (h' a ha).trans (h a ha)

theorem AgreeOn.symm (h : AgreeOn S mem mem') : AgreeOn S mem' mem := fun a ha ↦ (h a ha).symm

theorem AgreeOn.mono (h : AgreeOn S mem mem') (hST : T ⊆ S) : AgreeOn T mem mem' :=
  fun a ha ↦ h a (hST ha)

/-- A write leaves what is not among its four bytes. -/
theorem agreeOn_writeWord (mem : Memory) (a w : Word) :
    AgreeOn {x | x ∉ Region.word a} mem (writeWord mem a w) := by
  intro x hx
  have hfar : 4 ≤ (x - a).toNat := Nat.not_lt.mp hx
  have h₀ : x ≠ a := by bv_omega
  have h₁ : x ≠ a + 1 := by bv_omega
  have h₂ : x ≠ a + 2 := by bv_omega
  have h₃ : x ≠ a + 3 := by bv_omega
  simp only [writeWord, if_neg h₀, if_neg h₁, if_neg h₂, if_neg h₃]

theorem readWord_agree (h : AgreeOn S mem mem') (hS : ∀ x, x ∈ Region.word a → x ∈ S) :
    readWord mem' a = readWord mem a := by
  have hbyte : ∀ k : Word, k.toNat < 4 → mem'.byte (a + k) = mem.byte (a + k) := by
    intro k hk
    apply h _ (hS _ _)
    show (a + k - a).toNat < 4
    rwa [BitVec.add_comm, BitVec.add_sub_cancel]
  have h₀ : mem'.byte a = mem.byte a := by simpa using hbyte 0 (by decide)
  simp only [readWord, h₀, hbyte 1 (by decide), hbyte 2 (by decide), hbyte 3 (by decide)]

/-! ## Words above an address -/

/-- From `a` upwards stand the words `ws`. -/
def HoldsWords (mem : Memory) : Word → List Word → Prop
  | _, [] => True
  | a, w :: ws => readWord mem a = w ∧ HoldsWords mem (a + 4) ws

theorem HoldsWords.nil (mem : Memory) (a : Word) : HoldsWords mem a [] := trivial

theorem HoldsWords.agree (h : AgreeOn S mem mem') : ∀ {ws : List Word} {a : Word},
    HoldsWords mem a ws → 4 * ws.length ≤ 2 ^ 32 →
    (∀ x : Word, (x - a).toNat < 4 * ws.length → x ∈ S) → HoldsWords mem' a ws := by
  intro ws
  induction ws with
  | nil => exact fun _ _ _ ↦ trivial
  | cons w ws ih =>
    intro a hw hlen hS
    rw [List.length_cons] at hlen hS
    refine ⟨?_, ih hw.2 (by omega) fun x hx ↦ hS x ?_⟩
    · have hword : ∀ x, x ∈ Region.word a → x ∈ S := by
        intro x hx
        have hlt : (x - a).toNat < 4 := hx
        exact hS x (by omega)
      rw [readWord_agree h hword]
      exact hw.1
    · bv_omega

/-- A write just below keeps the words above. -/
theorem HoldsWords.below (h : HoldsWords mem a ws) (hlen : 4 * ws.length + 4 ≤ 2 ^ 32) (w : Word) :
    HoldsWords (writeWord mem (a - 4) w) (a - 4) (w :: ws) := by
  refine ⟨readWord_writeWord _ _ _, ?_⟩
  rw [BitVec.sub_add_cancel]
  refine h.agree (agreeOn_writeWord mem (a - 4) w) (by omega) fun x hx ↦ ?_
  show ¬ (x - (a - 4)).toNat < 4
  bv_omega

theorem HoldsWords.append_left {us : List Word} : ∀ {ws : List Word} {a : Word},
    HoldsWords mem a (ws ++ us) → HoldsWords mem a ws := by
  intro ws
  induction ws with
  | nil => exact fun _ ↦ trivial
  | cons w ws ih => exact fun h ↦ ⟨h.1, ih h.2⟩

theorem HoldsWords.append_right {us : List Word} : ∀ {ws : List Word} {a : Word},
    HoldsWords mem a (ws ++ us) → HoldsWords mem (a + BitVec.ofNat 32 (4 * ws.length)) us := by
  intro ws
  induction ws with
  | nil =>
    intro a h
    simpa using h
  | cons w ws ih =>
    intro a h
    have hnext : a + BitVec.ofNat 32 (4 * (w :: ws).length) =
        a + 4 + BitVec.ofNat 32 (4 * ws.length) := by
      rw [List.length_cons]
      bv_omega
    rw [hnext]
    exact ih h.2

end

/-! ## Pushes -/

/-- `*(--stack) = w` -/
def push (w : Word) (s : Memory × Word) : Memory × Word := (writeWord s.1 (s.2 - 4) w, s.2 - 4)

def pushAll (ws : List Word) (s : Memory × Word) : Memory × Word := ws.foldl (fun s w ↦ push w s) s

section

variable {us : List Word}

theorem pushAll_esp : ∀ (ws : List Word) (s : Memory × Word),
    (pushAll ws s).2 = s.2 - BitVec.ofNat 32 (4 * ws.length) := by
  intro ws
  induction ws with
  | nil =>
    intro s
    simp [pushAll]
  | cons w ws ih =>
    intro s
    have hnext := ih (push w s)
    show (pushAll ws (push w s)).2 = _
    rw [hnext, List.length_cons]
    unfold push
    bv_omega

/-- The last word pushed is the lowest. -/
theorem pushAll_holds : ∀ {ws us : List Word} {s : Memory × Word}, HoldsWords s.1 s.2 us →
    4 * (ws.length + us.length) ≤ 2 ^ 32 →
    HoldsWords (pushAll ws s).1 (pushAll ws s).2 (ws.reverse ++ us) := by
  intro ws
  induction ws with
  | nil => exact fun h _ ↦ h
  | cons w ws ih =>
    intro us s h hlen
    rw [List.length_cons] at hlen
    have hpush : HoldsWords (push w s).1 (push w s).2 (w :: us) := h.below (by omega) w
    rw [List.reverse_cons, List.append_assoc]
    refine ih hpush ?_
    rw [List.singleton_append, List.length_cons]
    omega

/-- Only the bytes pushed over change. -/
theorem pushAll_agree : ∀ {ws : List Word} {s : Memory × Word}, 4 * ws.length ≤ 2 ^ 32 →
    AgreeOn {x | 4 * ws.length ≤ (x - (pushAll ws s).2).toNat} s.1 (pushAll ws s).1 := by
  intro ws
  induction ws with
  | nil => exact fun _ ↦ AgreeOn.refl _ _
  | cons w ws ih =>
    intro s hlen
    rw [List.length_cons] at hlen ⊢
    have hesp := pushAll_esp ws (push w s)
    show AgreeOn {x | 4 * (ws.length + 1) ≤ (x - (pushAll ws (push w s)).2).toNat} s.1
      (pushAll ws (push w s)).1
    intro x hx
    have hfar : 4 * (ws.length + 1) ≤ (x - (pushAll ws (push w s)).2).toNat := hx
    have hrest := ih (s := push w s) (by omega) x (by show 4 * ws.length ≤ _; omega)
    rw [hrest]
    refine agreeOn_writeWord s.1 (s.2 - 4) w x ?_
    -- the word lies right above those pushed after it
    rw [hesp] at hfar
    show ¬ (x - (s.2 - 4)).toNat < 4
    unfold push at hfar
    bv_omega

end

end AlienOS.Lib
