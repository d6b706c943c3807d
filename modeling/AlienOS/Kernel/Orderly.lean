import AlienOS.Kernel.Clock
import AlienOS.Kernel.Kfree

/-!
# Orderly — kernels in which threads are made and end

The lists stay in order as long as nobody is in the middle of an operation on the heap or of an
insertion when the scheduler runs.
-/

open AlienOS.Lib

namespace AlienOS.Kernel

/-! ## When the scheduler runs -/

/-- Nobody is in the middle of a heap operation or of an insertion of `thread_create_arg`. -/
def State.Settled (s : State) : Prop :=
  ∀ t, t ∈ threadsOf s.trace ∨ t = s.idleThread →
    ∀ op ∈ (strip (s.stackOf t)).head?, op.InHeap = false ∧ op.InInsert = false

/-- The timer interrupt, whoever raises it. -/
def Enters (s : State) (a : Action) : Prop := a = .interrupt ∨ Yields s a

def Undisturbed (s : State) (a : Action) : Prop := Enters s a → s.Settled

/-! ## Threads to be -/

/-- What a thread still has to do for a thread that it makes. -/
def State.making (s : State) (t : Tid) : List Op := (s.stackOf t).filter fun op ↦ op.node.isSome

def Makes (making : Tid → List Op) (t x : Tid) : Prop := ∃ op ∈ making t, op.node = some x

/-- `x` is on the list of all threads and not yet a thread. -/
def Halfway (making : Tid → List Op) (x : Tid) : Prop :=
  ∃ t, .addHead .readyThreads x ∈ making t ∧ .addHead .allThreads x ∉ making t

structure Births (s : State) (making : Tid → List Op) : Prop where
  maker : ∀ {t}, making t ≠ [] → t ∈ threadsOf s.trace ∧ s.status t ≠ .zombie
  fresh : ∀ {t x}, Makes making t x →
    x ∉ threadsOf s.trace ∧ x ≠ s.idleThread ∧ s.allocated x = true
  sole : ∀ {t u x}, Makes making t x → Makes making u x → t = u
  made : ∀ {t x}, Makes making t x → .internalThreadInit x ∉ making t →
    s.status x = .ready ∧ s.esp x = [.iret true]
  allocated : ∀ {t}, t ∈ threadsOf s.trace → s.allocated t = true

/-! ## Insertions -/

/-- The node that is being put on the list. -/
def inserting (list : Registry) : List Op → Option Tid
  | .addNodeNext l x :: _ | .addNodePrev l x :: _ | .addHead l x :: _ =>
    if l = list then some x else none
  | _ => none

/-- How much of the node has been written. -/
def Written {ι : Type} (list : Registry) (l : Links ι Tid) (i : ι) : List Op → Prop
  | .addNodePrev r x :: _ => r = list → l.next x = l.head i
  | .addHead r x :: _ => r = list → l.next x = l.head i ∧ l.prev x = none
  | _ => True

/-! ## The end of a thread -/

/-- What is left of a call of `kfree`. -/
inductive Frees (freed : Option Tid) : List Op → Prop where
  | acquire : Frees freed (kfreeOps freed)
  | acquired :
    Frees freed [.mutexAcquired .freeListLock false, .heapStart, .heapEnd freed,
      .mutexRelease .freeListLock]
  | start : Frees freed [.heapStart, .heapEnd freed, .mutexRelease .freeListLock]
  | finish : Frees freed [.heapEnd freed, .mutexRelease .freeListLock]
  | release : Frees freed [.mutexRelease .freeListLock]

/-- What is left of the two calls for `x`. -/
inductive Reaps (x : Tid) : List Op → Prop where
  | stack {ops : List Op} (h : Frees none ops) : Reaps x (ops ++ kfreeOps (some x))
  | thread {ops : List Op} (h : Frees (some x) ops) : Reaps x ops

/-- `x` is no thread any more. -/
def Condemned (s : State) (x : Tid) : Prop :=
  x ∉ threadsOf s.trace ∧ x ≠ s.idleThread ∧ ∀ t, ¬ Makes s.making t x

/-- The processor runs a thread, or returns to it from the handler, or is in the handler on its
behalf, where `reap` is left of the freeing of a zombie. -/
inductive Place (s : State) (ops : List Op) : Prop where
  | thread (hst : s.stack = ops)
    (hs : s.status s.currentThread = .running ∨ ops.head? = some .threadYield)
  | resumed (enabled : Bool) (hst : s.stack = .iret enabled :: ops) (hi : s.interrupts = false)
    (hs : s.status s.currentThread = .running) (hc : Closed ops)
  | handler (enabled : Bool) (entered : ThreadStatus) (reap : List Op)
    (hst : s.stack = reap ++ .cleanZombies (listsOf s.trace .zombieThreads).head? entered ::
      .iret enabled :: ops)
    (he : s.esp s.currentThread = .iret enabled :: ops) (hi : s.interrupts = false)
    (hs : s.status s.currentThread = entered) (hc : Closed ops)
    (hr : reap = [] ∨ ∃ x, Reaps x reap ∧ Condemned s x)

/-! ## All of it -/

structure Orderly (s : State) : Prop where
  placed : Placed s (inserting .readyThreads s.stack)
  written : Written .readyThreads s.lists .readyThreads s.stack
  registered : ∃ all, s.allThreads.Rep (fun _ ↦ False) (fun _ ↦ inserting .allThreads s.stack)
      (fun _ ↦ all) ∧
    ∀ t, t ∈ all ↔ t = s.idleThread ∨ t ∈ threadsOf s.trace ∨ Halfway s.making t
  noted : Written .allThreads s.allThreads () s.stack
  births : Births s s.making
  lock : s.LockIs (heapPhase s.stack)
  current : ∃ ops, Job s.idleThread s.currentThread ops ∧ Place s ops
  parked : ∀ t, t ∈ threadsOf s.trace ∨ t = s.idleThread → t ≠ s.currentThread →
    ∃ enabled ops, s.esp t = .iret enabled :: ops ∧ Job s.idleThread t ops ∧ Closed ops

/-- What a step changes that neither makes a thread nor ends one. -/
structure Kept (s s' : State) : Prop where
  idle : s'.idleThread = s.idleThread
  allThreads : s'.allThreads = s.allThreads
  threads : threadsOf s'.trace = threadsOf s.trace
  making : s'.making = s.making
  zombies : ∀ t, s'.status t = .zombie ↔ s.status t = .zombie
  aside : ∀ {t x}, Makes s.making t x → s'.status x = s.status x ∧ s'.esp x = s.esp x
  allocated : ∀ {t}, t ∈ threadsOf s.trace ∨ (∃ u, Makes s.making u t) →
    s'.allocated t = s.allocated t

section

variable {s s' : State} {op : Op} {ops : List Op} {list : Registry}

/-- No statement of an insertion comes next but the first. -/
def Apart (ops : List Op) : Prop := ∀ op ∈ ops.head?, op.InInsert = false

theorem Closed.apart (h : Closed ops) : Apart ops := fun op hop ↦ (h op hop).2

theorem Apart.cons (h : op.InInsert = false) : Apart (op :: ops) := by
  intro o ho
  cases ho
  exact h

theorem Apart.inserting (h : Apart ops) (list : Registry) : inserting list ops = none := by
  cases ops with
  | nil => rfl
  | cons op ops =>
    have hop := h op rfl
    cases op <;> first | rfl | cases hop

theorem Apart.written {ι : Type} {l : Links ι Tid} {i : ι} (h : Apart ops) :
    Written list l i ops := by
  cases ops with
  | nil => trivial
  | cons op ops =>
    have hop := h op rfl
    cases op <;> trivial

theorem Births.keep (h : Births s s.making) (hk : Kept s s') : Births s' s'.making := by
  rw [hk.making]
  refine ⟨fun ht ↦ ?_, fun hx ↦ ?_, h.sole, fun hx hi ↦ ?_, fun ht ↦ ?_⟩
  · rw [hk.threads, ne_eq, hk.zombies]
    exact h.maker ht
  · rw [hk.threads, hk.idle, hk.allocated (.inr ⟨_, hx⟩)]
    exact h.fresh hx
  · rw [(hk.aside hx).1, (hk.aside hx).2]
    exact h.made hx hi
  · rw [hk.threads] at ht
    rw [hk.allocated (.inl ht)]
    exact h.allocated ht

theorem Orderly.placed_none (h : Orderly s) (ha : Apart s.stack) : Placed s none := by
  have hp := h.placed
  rwa [ha.inserting] at hp

theorem Orderly.keep (h : Orderly s) (hk : Kept s s') (ha : Apart s.stack) (ha' : Apart s'.stack)
    (hp : Placed s' none) (hl : s'.LockIs (heapPhase s'.stack))
    (hc : ∃ ops, Job s'.idleThread s'.currentThread ops ∧ Place s' ops)
    (hpark : ∀ t, t ∈ threadsOf s.trace ∨ t = s.idleThread → t ≠ s'.currentThread →
      ∃ enabled ops, s'.esp t = .iret enabled :: ops ∧ Job s.idleThread t ops ∧ Closed ops) :
    Orderly s' := by
  refine ⟨?_, ha'.written, ?_, ha'.written, h.births.keep hk, hl, hc, ?_⟩
  · rwa [ha'.inserting]
  · obtain ⟨all, hrep, hall⟩ := h.registered
    refine ⟨all, ?_, fun t ↦ ?_⟩
    · rw [ha'.inserting, hk.allThreads]
      rwa [ha.inserting] at hrep
    · rw [hk.idle, hk.threads, hk.making]
      exact hall t
  · rw [hk.threads, hk.idle]
    exact hpark

/-- The same thread goes on. -/
theorem Orderly.stay (h : Orderly s) (hk : Kept s s') (ha : Apart s.stack) (ha' : Apart s'.stack)
    (hcur : s'.currentThread = s.currentThread)
    (hesp : ∀ t, t ≠ s.currentThread → s'.esp t = s.esp t) (hp : Placed s' none)
    (hl : s'.LockIs (heapPhase s'.stack))
    (hc : ∃ ops, Job s.idleThread s.currentThread ops ∧ Place s' ops) : Orderly s' := by
  apply h.keep hk ha ha' hp hl
  · rwa [hk.idle, hcur]
  · rw [hcur]
    intro t ht hn
    rw [hesp t hn]
    exact h.parked t ht hn

theorem making_eq (hcur : s'.currentThread = s.currentThread)
    (hesp : ∀ t, t ≠ s.currentThread → s'.esp t = s.esp t)
    (hst : s'.stack.filter (fun op ↦ op.node.isSome) = s.stack.filter fun op ↦ op.node.isSome) :
    s'.making = s.making := by
  funext t
  unfold State.making State.stackOf
  by_cases ht : t = s.currentThread
  · rw [hcur, if_pos ht, if_pos ht, hst]
  · rw [hcur, if_neg ht, if_neg ht, hesp t ht]

end

end AlienOS.Kernel
