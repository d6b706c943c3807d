import AlienOS.Kernel.Kfree

/-!
# Life — from `thread_create_arg` to the second `kfree`

Which step of a thread's life comes next can be read off the state; a run is taken together with the
steps that its threads make.
-/

open AlienOS.Lib

namespace AlienOS.Kernel

/-- What happens to a thread. -/
inductive Mark where
  /-- `thread_create_arg` has put it on `ready_threads` -/
  | created
  /-- it calls `thread_exit` -/
  | exited
  /-- the processor is given to another thread -/
  | left
  /-- `kfree (thread->stack_base)` -/
  | stackFreed
  /-- `kfree (thread)` -/
  | threadFreed
  deriving DecidableEq, Repr

/-- How far the thread at an address has come; `absent` if there is none. -/
inductive Life where
  | absent | alive | exited | left | stackFreed
  deriving DecidableEq, Repr

/-- The order in which things happen to a thread; the address may then be used again. -/
def Life.next : Life → Mark → Option Life
  | .absent, .created => some .alive
  | .alive, .exited => some .exited
  | .exited, .left => some .left
  | .left, .stackFreed => some .stackFreed
  | .stackFreed, .threadFreed => some .absent
  | _, _ => none

/-- Whom `clean_zombies` is freeing. -/
def reapingOf (ops : List Op) : Option Tid := ops.findSome? Op.freed

/-- The stack of the thread is yet to be freed. -/
def stackLeft (ops : List Op) : Bool := .heapEnd none ∈ ops.takeWhile fun op ↦ op.freed.isNone

def State.lifeOf (s : State) (x : Tid) : Life :=
  if x ∈ threadsOf s.trace then
    if s.status x = .zombie then if x = s.currentThread then .exited else .left
    else .alive
  else if reapingOf s.stack = some x then if stackLeft s.stack then .left else .stackFreed
  else .absent

/-- What a step makes happen to a thread. -/
def State.mark (s : State) (a : Action) (s' : State) : Option (Tid × Mark) :=
  match a, s.stack with
  | .exec, .addHead .readyThreads x :: _ => some (x, .created)
  | .exec, .threadExit :: _ => some (s.currentThread, .exited)
  | .exec, .cleanZombies none _ :: _ =>
    if s.status s.currentThread = .zombie ∧ s'.currentThread ≠ s.currentThread then
      some (s.currentThread, .left)
    else none
  | .exec, .heapEnd none :: ops => (reapingOf ops).map fun x ↦ (x, .stackFreed)
  | .exec, .heapEnd (some x) :: _ => some (x, .threadFreed)
  | _, _ => none

/-- The states reached by steps that each meet `ok`, with what has happened to the threads on the
way, from the first to the latest. -/
inductive Lived (ok : State → Action → Prop) (s₀ : State) : List (Tid × Mark) → State → Prop where
  | start : Lived ok s₀ [] s₀
  | step {marks : List (Tid × Mark)} {s s' : State} {a : Action} (h : Lived ok s₀ marks s)
      (hok : ok s a) (he : Enabled s a) (hs : next s a = .ok s') :
    Lived ok s₀ (marks ++ (s.mark a s').toList) s'

/-- What happens to one thread. -/
def marksOf (x : Tid) (marks : List (Tid × Mark)) : List Mark :=
  (marks.filter (·.1 = x)).map (·.2)

/-- `l` after the marks, if they come in their order. -/
def Life.run (l : Life) (marks : List Mark) : Option Life := marks.foldlM Life.next l

/-- A step in the lives of all threads. -/
def Ages (s : State) (mark : Option (Tid × Mark)) (s' : State) : Prop :=
  ∀ x, (s.lifeOf x).run (marksOf x mark.toList) = some (s'.lifeOf x)

section

variable {s s' : State} {x y : Tid} {m : Mark}

theorem Lived.run {ok : State → Action → Prop} {s₀ : State} {marks : List (Tid × Mark)}
    (h : Lived ok s₀ marks s) : Run ok s₀ s := by
  induction h with
  | start => exact .start
  | step _ hok he hs ih => exact .step ih hok he hs

theorem Ages.none (h : ∀ x, s'.lifeOf x = s.lifeOf x) : Ages s none s' :=
  fun x ↦ congrArg some (h x).symm

/-- Something happens to `x` and nothing to the others. -/
theorem Ages.some (hx : (s.lifeOf x).next m = some (s'.lifeOf x))
    (h : ∀ y, y ≠ x → s'.lifeOf y = s.lifeOf y) : Ages s (some (x, m)) s' := by
  intro y
  by_cases hy : x = y
  · subst hy
    simp [marksOf, Life.run, hx]
  · have hn := h y (Ne.symm hy)
    simp [marksOf, Life.run, hy, hn]

/-- The lives of the threads along a run. -/
theorem Lived.ages {ok : State → Action → Prop} {I : State → Prop} {s₀ : State}
    {marks : List (Tid × Mark)} (h : Lived ok s₀ marks s) (h₀ : I s₀)
    (hstep : ∀ s a s', I s → ok s a → Enabled s a → next s a = .ok s' →
      I s' ∧ Ages s (s.mark a s') s') (x : Tid) :
    I s ∧ (s₀.lifeOf x).run (marksOf x marks) = some (s.lifeOf x) := by
  induction h with
  | start => exact ⟨h₀, rfl⟩
  | step _ hok he hs ih =>
    obtain ⟨hi, hrun⟩ := ih
    obtain ⟨hi', hage⟩ := hstep _ _ _ hi hok he hs
    refine ⟨hi', ?_⟩
    have happ : ∀ a b : List (Tid × Mark), marksOf x (a ++ b) = marksOf x a ++ marksOf x b := by
      intro a b
      simp [marksOf]
    unfold Life.run at hrun ⊢
    rw [happ, List.foldlM_append, hrun]
    exact hage x

end

end AlienOS.Kernel
