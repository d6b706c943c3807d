import Mathlib.Data.List.Basic
import Mathlib.Logic.Function.Basic

/-!
# Links — intrusive doubly linked lists

Nodes `α` with a `next` and a `prev` pointer each, shared by several lists named by `ι`, of which
every list has a head and may have a tail.  `Rep` says which sequences the pointers spell; a node is
on at most one of them.
-/

set_option linter.unusedSectionVars false

namespace AlienOS.Lib

structure Links (ι α : Type) where
  next : α → Option α
  prev : α → Option α
  head : ι → Option α
  tail : ι → Option α

namespace Links

variable {ι α : Type} [DecidableEq ι] [DecidableEq α]

def setNext (l : Links ι α) (x : α) (y : Option α) : Links ι α :=
  { l with next := Function.update l.next x y }

def setPrev (l : Links ι α) (x : α) (y : Option α) : Links ι α :=
  { l with prev := Function.update l.prev x y }

def setHead (l : Links ι α) (i : ι) (x : Option α) : Links ι α :=
  { l with head := Function.update l.head i x }

def setTail (l : Links ι α) (i : ι) (x : Option α) : Links ι α :=
  { l with tail := Function.update l.tail i x }

section

variable (l : Links ι α) (x : α) (i : ι) (y : Option α)

@[simp] theorem setNext_next : (l.setNext x y).next = Function.update l.next x y := rfl
@[simp] theorem setNext_prev : (l.setNext x y).prev = l.prev := rfl
@[simp] theorem setNext_head : (l.setNext x y).head = l.head := rfl
@[simp] theorem setNext_tail : (l.setNext x y).tail = l.tail := rfl
@[simp] theorem setPrev_next : (l.setPrev x y).next = l.next := rfl
@[simp] theorem setPrev_prev : (l.setPrev x y).prev = Function.update l.prev x y := rfl
@[simp] theorem setPrev_head : (l.setPrev x y).head = l.head := rfl
@[simp] theorem setPrev_tail : (l.setPrev x y).tail = l.tail := rfl
@[simp] theorem setHead_next : (l.setHead i y).next = l.next := rfl
@[simp] theorem setHead_prev : (l.setHead i y).prev = l.prev := rfl
@[simp] theorem setHead_head : (l.setHead i y).head = Function.update l.head i y := rfl
@[simp] theorem setHead_tail : (l.setHead i y).tail = l.tail := rfl
@[simp] theorem setTail_next : (l.setTail i y).next = l.next := rfl
@[simp] theorem setTail_prev : (l.setTail i y).prev = l.prev := rfl
@[simp] theorem setTail_head : (l.setTail i y).head = l.head := rfl
@[simp] theorem setTail_tail : (l.setTail i y).tail = Function.update l.tail i y := rfl

end

/-! ## Segments -/

/-- The nodes `xs` are linked both ways, with `p` before the first and `n` after the last. -/
def Seg (l : Links ι α) : Option α → List α → Option α → Prop
  | _, [], _ => True
  | p, x :: xs, n => l.prev x = p ∧ l.next x = xs.head?.or n ∧ Seg l (some x) xs n

theorem Seg.congr {l l' : Links ι α} {p n : Option α} {xs : List α} (h : l.Seg p xs n)
    (hn : ∀ x ∈ xs, l'.next x = l.next x) (hp : ∀ x ∈ xs, l'.prev x = l.prev x) :
    l'.Seg p xs n := by
  induction xs generalizing p with
  | nil => trivial
  | cons x xs ih =>
    obtain ⟨h₁, h₂, h₃⟩ := h
    have hx : x ∈ x :: xs := List.mem_cons_self
    exact ⟨(hp x hx).trans h₁, (hn x hx).trans h₂, ih h₃
      (fun y hy ↦ hn y (List.mem_cons_of_mem _ hy)) fun y hy ↦ hp y (List.mem_cons_of_mem _ hy)⟩

theorem seg_append {l : Links ι α} {p n : Option α} {xs ys : List α} :
    l.Seg p (xs ++ ys) n ↔ l.Seg p xs (ys.head?.or n) ∧ l.Seg (xs.getLast?.or p) ys n := by
  induction xs generalizing p with
  | nil => exact ⟨fun h ↦ ⟨trivial, h⟩, fun h ↦ h.2⟩
  | cons x xs ih =>
    have hh : (xs ++ ys).head?.or n = xs.head?.or (ys.head?.or n) := by
      cases xs <;> rfl
    have hl : (x :: xs).getLast?.or p = xs.getLast?.or (some x) := by
      cases xs with
      | nil => rfl
      | cons y xs => simp [List.getLast?_cons]
    rw [List.cons_append, Seg, Seg, ih, hh, hl]
    tauto

theorem Seg.setPrev_head {l : Links ι α} {p n : Option α} {x : α} {xs : List α}
    (h : l.Seg p (x :: xs) n) (hx : x ∉ xs) (q : Option α) : (l.setPrev x q).Seg q (x :: xs) n := by
  refine ⟨?_, h.2.1, h.2.2.congr (fun _ _ ↦ rfl) fun y hy ↦ ?_⟩
  · simp
  · have : y ≠ x := by
      rintro rfl
      exact hx hy
    simp [Function.update_of_ne this]

/-- A segment whose last node now points to `q`. -/
theorem Seg.relast {l l' : Links ι α} {p m q : Option α} {xs : List α} (h : l.Seg p xs m)
    (hnd : xs.Nodup) (hp : ∀ x ∈ xs, l'.prev x = l.prev x)
    (hn : ∀ x ∈ xs, l'.next x = if xs.getLast? = some x then q else l.next x) :
    l'.Seg p xs q := by
  induction xs generalizing p with
  | nil => trivial
  | cons x xs ih =>
    obtain ⟨h₁, h₂, h₃⟩ := h
    obtain ⟨hx, hnd⟩ := List.nodup_cons.mp hnd
    refine ⟨(hp x List.mem_cons_self).trans h₁, ?_,
      ih h₃ hnd (fun y hy ↦ hp y (List.mem_cons_of_mem _ hy)) fun y hy ↦ ?_⟩
    · rw [hn x List.mem_cons_self]
      cases xs with
      | nil => simp
      | cons y ys =>
        have : (x :: y :: ys).getLast? ≠ some x := by
          rw [List.getLast?_cons_cons]
          exact fun he ↦ hx (List.mem_of_getLast? he)
        rw [if_neg this, h₂]
        rfl
    · rw [hn y (List.mem_cons_of_mem _ hy)]
      cases xs with
      | nil => simp at hy
      | cons z zs => rw [List.getLast?_cons_cons]

/-- A segment whose first node now points back to `q`. -/
theorem Seg.rehead {l l' : Links ι α} {p q n : Option α} {xs : List α} (h : l.Seg p xs n)
    (hnd : xs.Nodup) (hn : ∀ x ∈ xs, l'.next x = l.next x)
    (hp : ∀ x ∈ xs, l'.prev x = if xs.head? = some x then q else l.prev x) :
    l'.Seg q xs n := by
  cases xs with
  | nil => trivial
  | cons x xs =>
    obtain ⟨-, h₂, h₃⟩ := h
    have hx := (List.nodup_cons.mp hnd).1
    refine ⟨by simp [hp x List.mem_cons_self], (hn x List.mem_cons_self).trans h₂,
      h₃.congr (fun y hy ↦ hn y (List.mem_cons_of_mem _ hy)) fun y hy ↦ ?_⟩
    have : x ≠ y := by
      rintro rfl
      exact hx hy
    simp [hp y (List.mem_cons_of_mem _ hy), this]

/-- Joining the neighbours of `x` takes it out of its segment. -/
theorem Seg.unlink {l l' : Links ι α} {p n : Option α} {x : α} {xs ys : List α}
    (h : l.Seg p (xs ++ x :: ys) n) (hnd : (xs ++ x :: ys).Nodup)
    (hn : ∀ z ∈ xs ++ ys, l'.next z = if xs.getLast? = some z then ys.head?.or n else l.next z)
    (hp : ∀ z ∈ xs ++ ys, l'.prev z = if ys.head? = some z then xs.getLast?.or p else l.prev z) :
    l'.Seg p (xs ++ ys) n := by
  rw [seg_append] at h ⊢
  obtain ⟨h₁, -, -, h₂⟩ := h
  obtain ⟨hxs, hys, hdis⟩ := List.nodup_append.mp hnd
  have hdis' : ∀ z ∈ xs, z ∉ ys := fun z hz hzy ↦ hdis z hz z (List.mem_cons_of_mem _ hzy) rfl
  refine ⟨h₁.relast hxs (fun z hz ↦ ?_) fun z hz ↦ hn z (List.mem_append_left _ hz),
    h₂.rehead (List.nodup_cons.mp hys).2 (fun z hz ↦ ?_)
      fun z hz ↦ hp z (List.mem_append_right _ hz)⟩
  · rw [hp z (List.mem_append_left _ hz), if_neg]
    exact fun he ↦ hdis' z hz (List.mem_of_head? he)
  · rw [hn z (List.mem_append_right _ hz), if_neg]
    exact fun he ↦ hdis' z (List.mem_of_getLast? he) hz

/-! ## Representation -/

/-- The pointers spell the lists `L`; the lists in `Q` keep their tails, and `p i` is what the
first node of list `i` has for its predecessor. -/
structure Rep (l : Links ι α) (Q : ι → Prop) (p : ι → Option α) (L : ι → List α) : Prop where
  seg : ∀ i, l.Seg (p i) (L i) none
  head : ∀ i, l.head i = (L i).head?
  tail : ∀ i, Q i → l.tail i = (L i).getLast?
  nodup : ∀ i, (L i).Nodup
  disjoint : ∀ {i j x}, x ∈ L i → x ∈ L j → i = j

section

variable {l l' : Links ι α} {Q : ι → Prop} {p p' : ι → Option α} {L : ι → List α} {i : ι} {x : α}

/-- Rewrite one list and leave the nodes of all others alone. -/
theorem Rep.update {xs : List α} (h : Rep l Q p L) (hs : l'.Seg (p' i) xs none)
    (hh : l'.head i = xs.head?) (ht : Q i → l'.tail i = xs.getLast?) (hn : xs.Nodup)
    (hd : ∀ j, j ≠ i → ∀ x ∈ xs, x ∉ L j)
    (hj : ∀ j, j ≠ i → l'.head j = l.head j ∧ l'.tail j = l.tail j ∧ p' j = p j ∧
      ∀ x ∈ L j, l'.next x = l.next x ∧ l'.prev x = l.prev x) :
    Rep l' Q p' (Function.update L i xs) := by
  refine ⟨fun j ↦ ?_, fun j ↦ ?_, fun j hq ↦ ?_, fun j ↦ ?_, fun {j k y} hy hz ↦ ?_⟩
  · by_cases he : j = i
    · subst he
      rwa [Function.update_self]
    · rw [Function.update_of_ne he, (hj j he).2.2.1]
      exact (h.seg j).congr (fun x hx ↦ ((hj j he).2.2.2 x hx).1)
        fun x hx ↦ ((hj j he).2.2.2 x hx).2
  · by_cases he : j = i
    · subst he
      rwa [Function.update_self]
    · rw [Function.update_of_ne he, (hj j he).1]
      exact h.head j
  · by_cases he : j = i
    · subst he
      rw [Function.update_self]
      exact ht hq
    · rw [Function.update_of_ne he, (hj j he).2.1]
      exact h.tail j hq
  · by_cases he : j = i
    · subst he
      rwa [Function.update_self]
    · rw [Function.update_of_ne he]
      exact h.nodup j
  · by_cases hji : j = i <;> by_cases hki : k = i
    · rw [hji, hki]
    · subst hji
      rw [Function.update_self] at hy
      rw [Function.update_of_ne hki] at hz
      exact absurd hz (hd k hki y hy)
    · subst hki
      rw [Function.update_self] at hz
      rw [Function.update_of_ne hji] at hy
      exact absurd hy (hd j hji y hz)
    · rw [Function.update_of_ne hji] at hy
      rw [Function.update_of_ne hki] at hz
      exact h.disjoint hy hz

theorem Rep.next_eq {xs ys : List α} (h : Rep l Q p L) (hL : L i = xs ++ x :: ys) :
    l.next x = ys.head? := by
  have hs := h.seg i
  rw [hL, seg_append] at hs
  exact hs.2.2.1.trans (Option.or_none)

theorem Rep.prev_eq {xs ys : List α} (h : Rep l Q p L) (hL : L i = xs ++ x :: ys) :
    l.prev x = xs.getLast?.or (p i) := by
  have hs := h.seg i
  rw [hL, seg_append] at hs
  exact hs.2.1

/-- A node on no list may point anywhere. -/
theorem Rep.setNode (h : Rep l Q p L) (hx : ∀ i, x ∉ L i) (y : Option α) :
    Rep (l.setNext x y) Q p L ∧ Rep (l.setPrev x y) Q p L := by
  have hne : ∀ {i z}, z ∈ L i → z ≠ x := by
    rintro i z hz rfl
    exact hx i hz
  exact ⟨⟨fun i ↦ (h.seg i).congr (fun z hz ↦ by simp [Function.update_of_ne (hne hz)])
      fun _ _ ↦ rfl, h.head, h.tail, h.nodup, h.disjoint⟩,
    ⟨fun i ↦ (h.seg i).congr (fun _ _ ↦ rfl) fun z hz ↦ by
      simp [Function.update_of_ne (hne hz)], h.head, h.tail, h.nodup, h.disjoint⟩⟩

end

/-! ## Some of the lists -/

section

variable {κ : Type} [DecidableEq κ]

/-- The same nodes with only the lists that `f` names. -/
def on (l : Links ι α) (f : κ → ι) : Links κ α where
  next := l.next
  prev := l.prev
  head k := l.head (f k)
  tail k := l.tail (f k)

variable (l : Links ι α) (f : κ → ι)

@[simp] theorem on_next : (l.on f).next = l.next := rfl
@[simp] theorem on_prev : (l.on f).prev = l.prev := rfl
@[simp] theorem on_head (k : κ) : (l.on f).head k = l.head (f k) := rfl
@[simp] theorem on_tail (k : κ) : (l.on f).tail k = l.tail (f k) := rfl
@[simp] theorem on_setNext (x : α) (y : Option α) :
    (l.setNext x y).on f = (l.on f).setNext x y := rfl
@[simp] theorem on_setPrev (x : α) (y : Option α) :
    (l.setPrev x y).on f = (l.on f).setPrev x y := rfl

theorem on_setHead {f : κ → ι} (hf : Function.Injective f) (k : κ) (y : Option α) :
    (l.setHead (f k) y).on f = (l.on f).setHead k y := by
  unfold on setHead
  congr 1
  funext j
  by_cases hj : j = k
  · subst hj
    simp
  · have hne : f j ≠ f k := fun he ↦ hj (hf he)
    simp [hj, hne]

theorem on_setTail {f : κ → ι} (hf : Function.Injective f) (k : κ) (y : Option α) :
    (l.setTail (f k) y).on f = (l.on f).setTail k y := by
  unfold on setTail
  congr 1
  funext j
  by_cases hj : j = k
  · subst hj
    simp
  · have hne : f j ≠ f k := fun he ↦ hj (hf he)
    simp [hj, hne]

end

/-- The pointers spell `xs` from the head of one list on, whatever the others are. -/
structure Spells (l : Links ι α) (i : ι) (xs : List α) : Prop where
  seg : l.Seg none xs none
  head : l.head i = xs.head?
  nodup : xs.Nodup

theorem seg_on {κ : Type} (l : Links ι α) (f : κ → ι) {xs : List α} :
    ∀ {p n : Option α}, (l.on f).Seg p xs n ↔ l.Seg p xs n := by
  induction xs with
  | nil => exact Iff.rfl
  | cons x xs ih => exact and_congr Iff.rfl (and_congr Iff.rfl ih)

theorem spells_iff {l : Links ι α} {i : ι} {xs : List α} : l.Spells i xs ↔
    (l.on fun _ : Unit ↦ i).Rep (fun _ ↦ False) (fun _ ↦ none) fun _ ↦ xs := by
  constructor
  · intro h
    exact ⟨fun _ ↦ (l.seg_on _).mpr h.seg, fun _ ↦ h.head, fun _ hq ↦ hq.elim, fun _ ↦ h.nodup,
      fun _ _ ↦ rfl⟩
  · intro h
    exact ⟨(l.seg_on _).mp (h.seg ()), h.head (), h.nodup ()⟩

/-- The pointers spell `xs` in a list that also knows its last node. -/
structure Queues (l : Links ι α) (i : ι) (xs : List α) : Prop extends Spells l i xs where
  tail : l.tail i = xs.getLast?

theorem queues_iff {l : Links ι α} {i : ι} {xs : List α} : l.Queues i xs ↔
    (l.on fun _ : Unit ↦ i).Rep (fun _ ↦ True) (fun _ ↦ none) fun _ ↦ xs := by
  constructor
  · intro h
    exact ⟨fun _ ↦ (l.seg_on _).mpr h.seg, fun _ ↦ h.head, fun _ _ ↦ h.tail, fun _ ↦ h.nodup,
      fun _ _ ↦ rfl⟩
  · intro h
    exact ⟨⟨(l.seg_on _).mp (h.seg ()), h.head (), h.nodup ()⟩, h.tail () trivial⟩

theorem Rep.spells {l : Links ι α} {Q : ι → Prop} {L : ι → List α} (h : Rep l Q (fun _ ↦ none) L)
    (i : ι) : l.Spells i (L i) := ⟨h.seg i, h.head i, h.nodup i⟩

/-! ## Frames -/

/-- Every node outside `xs` keeps its pointers, every list but `i` its ends. -/
structure Keeps (l l' : Links ι α) (i : ι) (xs : List α) : Prop where
  node : ∀ y, y ∉ xs → l'.next y = l.next y ∧ l'.prev y = l.prev y
  ends : ∀ j, j ≠ i → l'.head j = l.head j ∧ l'.tail j = l.tail j

section

variable {l l' : Links ι α} {i j : ι} {xs ys : List α}

theorem Keeps.seg (h : l.Keeps l' i xs) (hd : ∀ y ∈ ys, y ∉ xs) {p n : Option α}
    (hs : l.Seg p ys n) : l'.Seg p ys n :=
  hs.congr (fun y hy ↦ (h.node y (hd y hy)).1) fun y hy ↦ (h.node y (hd y hy)).2

theorem Keeps.spells (h : l.Keeps l' i xs) (hj : j ≠ i) (hd : ∀ y ∈ ys, y ∉ xs)
    (hs : l.Spells j ys) : l'.Spells j ys :=
  ⟨h.seg hd hs.seg, (h.ends j hj).1.trans hs.head, hs.nodup⟩

theorem Keeps.queues (h : l.Keeps l' i xs) (hj : j ≠ i) (hd : ∀ y ∈ ys, y ∉ xs)
    (hs : l.Queues j ys) : l'.Queues j ys :=
  ⟨h.spells hj hd hs.toSpells, (h.ends j hj).2.trans hs.tail⟩

end

end Links

end AlienOS.Lib
