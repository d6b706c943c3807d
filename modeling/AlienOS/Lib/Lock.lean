import Mathlib.Logic.Function.Basic
import Mathlib.Tactic.Common

/-!
# Lock — a recursive lock that is handed over through a counting semaphore

A thread takes the semaphore first and writes its name into the lock later, so that for a while the
lock has an owner that nobody can see.  A lock whose owner leaves goes to the first thread waiting.
-/

namespace AlienOS.Lib

/-- What a thread is about to do to the lock. -/
inductive Phase where
  | away
  /-- it has called the semaphore and will write its name and a depth of one -/
  | waiting
  /-- it has the semaphore and will write its name -/
  | setHolder
  /-- and then the depth -/
  | setCount
  /-- it has found its own name and will raise the depth -/
  | increment
  deriving DecidableEq, Repr

@[ext] structure Lock (α : Type) where
  count : Int
  queue : List α
  holder : Option α
  depth : Nat
  phase : α → Phase
  /-- acquires less releases -/
  held : α → Int

namespace Lock

variable {α : Type}

/-- The lock belongs to `owner`, which has its name in it or is about to. -/
structure Token (l : Lock α) (owner : Option α) : Prop where
  count_eq : l.count = (if owner = none then 1 else 0) - l.queue.length
  nodup : l.queue.Nodup
  free : owner = none → l.queue = []
  queued : ∀ t ∈ l.queue, l.phase t = .waiting ∧ owner ≠ some t
  waiting : ∀ t, l.phase t = .waiting → t ∈ l.queue ∨ owner = some t
  setHolder : ∀ t, l.phase t = .setHolder → owner = some t
  setCount : ∀ t, l.phase t = .setCount → l.holder = some t
  increment : ∀ t, l.phase t = .increment → l.holder = some t
  holder : ∀ t, l.holder = some t → owner = some t ∧ l.phase t ≠ .waiting ∧ l.phase t ≠ .setHolder
  owner : ∀ t, owner = some t →
    l.holder = some t ∨ l.phase t = .waiting ∨ l.phase t = .setHolder

/-- Besides, the depth is the number of acquires of a thread that is inside. -/
structure Owned (l : Lock α) (owner : Option α) : Prop extends Token l owner where
  nonneg : ∀ t, 0 ≤ l.held t
  inside : ∀ t, 0 < l.held t → l.holder = some t ∧ (l.depth : Int) = l.held t ∧
    (l.phase t = .away ∨ l.phase t = .increment)
  entered : ∀ t, l.holder = some t → 0 < l.held t ∨ l.phase t = .setCount

namespace Owned

variable {l l' : Lock α} {owner : Option α} {t u : α}

/-- At most one thread is inside. -/
theorem exclusive (h : l.Owned owner) (ht : 0 < l.held t) (hu : 0 < l.held u) : t = u := by
  have := (h.inside t ht).1.symm.trans (h.inside u hu).1
  exact Option.some.inj this

theorem held_of_holder (h : l.Owned owner) (hh : l.holder = some t) (hp : l.phase t ≠ .setCount) :
    0 < l.held t := (h.entered t hh).resolve_right hp

/-- A thread that has yet to write is not inside. -/
theorem held_eq_zero (h : l.Owned owner) (h₁ : l.phase t ≠ .away) (h₂ : l.phase t ≠ .increment) :
    l.held t = 0 := by
  by_contra hn
  have hpos : 0 < l.held t := by
    have := h.nonneg t
    omega
  exact (h.inside t hpos).2.2.elim h₁ h₂

theorem held_eq_zero_of_ne (h : l.Owned owner) (hn : owner ≠ some t) : l.held t = 0 := by
  by_contra hz
  have hpos : 0 < l.held t := by
    have := h.nonneg t
    omega
  exact hn (h.holder t (h.inside t hpos).1).1

end Owned

section

variable [DecidableEq α]

/-- A step of thread `t`; the depth is kept in a number that may have run over if `wraps`. -/
inductive Step (wraps : Prop) (t : α) (l : Lock α) : Lock α → Prop where
  /-- another acquire by the holder -/
  | again {n : Nat} (hp : l.phase t = .away ∧ l.holder = some t ∨ l.phase t = .increment)
      (hn : ¬ wraps → n = l.depth + 1) :
    Step wraps t l { l with
      depth := n
      phase := Function.update l.phase t .away
      held := Function.update l.held t (l.held t + 1) }
  | grant {p : Phase} (hp : l.phase t = .away) (hn : 0 < l.count) (h : p = .waiting ∨ p = .setHolder) :
    Step wraps t l { l with count := l.count - 1, phase := Function.update l.phase t p }
  | block (hp : l.phase t = .away) (hn : l.count ≤ 0) (hh : l.holder ≠ some t) (hq : t ∉ l.queue) :
    Step wraps t l { l with
      count := l.count - 1
      queue := l.queue ++ [t]
      phase := Function.update l.phase t .waiting }
  | enter (hp : l.phase t = .waiting) (hq : t ∉ l.queue) :
    Step wraps t l { l with
      holder := some t
      depth := 1
      phase := Function.update l.phase t .away
      held := Function.update l.held t (l.held t + 1) }
  | setHolder (hp : l.phase t = .setHolder) :
    Step wraps t l { l with holder := some t, phase := Function.update l.phase t .setCount }
  | setCount (hp : l.phase t = .setCount) :
    Step wraps t l { l with
      depth := 1
      phase := Function.update l.phase t .away
      held := Function.update l.held t (l.held t + 1) }
  | test (hp : l.phase t = .away) (hh : l.holder = some t) :
    Step wraps t l { l with phase := Function.update l.phase t .increment }
  /-- a release that leaves the holder inside -/
  | leave (hp : l.phase t = .away) (hh : l.holder = some t) (hd : 1 < l.depth) :
    Step wraps t l { l with
      depth := l.depth - 1
      held := Function.update l.held t (l.held t - 1) }
  | free (hp : l.phase t = .away) (hh : l.holder = some t) (hd : l.depth = 1) (hq : l.queue = []) :
    Step wraps t l { l with
      count := l.count + 1
      holder := none
      depth := 0
      held := Function.update l.held t (l.held t - 1) }
  | handOver {x : α} {xs : List α} (hp : l.phase t = .away) (hh : l.holder = some t)
      (hd : l.depth = 1) (hq : l.queue = x :: xs) :
    Step wraps t l { l with
      count := l.count + 1
      queue := xs
      holder := none
      depth := 0
      held := Function.update l.held t (l.held t - 1) }

variable {wraps : Prop} {l l' : Lock α} {owner : Option α} {t u : α}

/-- The step lemma: the lock changes its owner when a thread takes the semaphore of a free lock and
when the owner leaves. -/
theorem Token.step (h : l.Token owner) (hs : Step wraps t l l') : ∃ owner', l'.Token owner' := by
  obtain ⟨h₁, h₂, h₃, h₄, h₅, h₆, h₇, h₈, h₉, h₁₀⟩ := h
  cases hs with
  | again | block | enter | setHolder | setCount | test | leave =>
    refine ⟨owner, ?_⟩
    constructor <;> simp only [Function.update_apply] <;> grind
  | grant hp hn h =>
    refine ⟨some t, ?_⟩
    constructor <;> simp only [Function.update_apply] <;> grind
  | free hp hh hd hq =>
    refine ⟨none, ?_⟩
    constructor <;> grind
  | @handOver x xs hp hh hd hq =>
    refine ⟨some x, ?_⟩
    constructor <;> grind

/-- What others do leaves the holder inside. -/
theorem Token.keeps (h : l.Token owner) (hs : Step wraps u l l') (hu : t ≠ u)
    (hh : l.holder = some t) : l'.holder = some t ∧ l'.depth = l.depth := by
  have how := (h.holder t hh).1
  have hown : owner ≠ some u := by
    rw [how]
    exact fun he ↦ hu (Option.some.inj he)
  have hhu : l.holder ≠ some u := by
    rw [hh]
    exact fun he ↦ hu (Option.some.inj he)
  cases hs with
  | again hp =>
    rcases hp with ⟨-, hp⟩ | hp
    · exact absurd hp hhu
    · exact absurd (h.increment u hp) hhu
  | enter hp hq =>
    rcases h.waiting u hp with hm | ho
    · exact absurd hm hq
    · exact absurd ho hown
  | setHolder hp => exact absurd (h.setHolder u hp) hown
  | setCount hp => exact absurd (h.setCount u hp) hhu
  | leave _ hh' | free _ hh' | handOver _ hh' => exact absurd hh' hhu
  | grant | block | test => exact ⟨hh, rfl⟩

/-- Nobody enters on behalf of another. -/
theorem Step.not_holder (hs : Step wraps u l l') (hu : t ≠ u) (hh : l.holder ≠ some t) :
    l'.holder ≠ some t := by
  cases hs with
  | enter | setHolder => exact fun he ↦ hu (Option.some.inj he).symm
  | free | handOver => simp
  | _ => exact hh

/-- And nobody enters without having begun to. -/
theorem Step.stays_out (hs : Step wraps t l l') (hp : l.phase t = .away) (hh : l.holder ≠ some t) :
    l'.holder ≠ some t := by
  cases hs with
  | enter hp' | setHolder hp' =>
    rw [hp] at hp'
    cases hp'
  | free | handOver => simp
  | _ => exact hh

/-- The depth is right as long as it does not run over. -/
theorem Owned.step (h : l.Owned owner) (hs : Step False t l l') : ∃ owner', l'.Owned owner' := by
  obtain ⟨owner', htoken⟩ := h.toToken.step hs
  have hin := h.held_of_holder (t := t)
  have hout : ∀ u, owner ≠ some u → l.held u = 0 := fun u hu ↦ h.held_eq_zero_of_ne hu
  obtain ⟨⟨_, _, _, h₄, h₅, h₆, h₇, h₈, h₉, h₁₀⟩, h₁₁, h₁₂, h₁₃⟩ := h
  refine ⟨owner', htoken, fun u ↦ ?_, fun u ↦ ?_, fun u ↦ ?_⟩
  · clear htoken
    cases hs <;> simp only [Function.update_apply] <;> grind
  · clear htoken
    cases hs <;> simp only [Function.update_apply] <;> grind
  · clear htoken
    cases hs <;> simp only [Function.update_apply] <;> grind

end

end Lock

end AlienOS.Lib
