import AlienOS.Kernel.Condvar

/-!
# Wait — what `condvar_wait` does with a mutex that was acquired more than once
-/

open AlienOS.Lib

namespace AlienOS.Kernel

/-- A step before `t` has returned from its wait. -/
def InWait (t : Tid) (cond : Nat) (mutex : MutexRef) (s : State) (a : Action) : Prop :=
  Quiet s a ∧ ¬ (a = .exec ∧ s.currentThread = t ∧
    s.stack.head? = some (.condvarReturn cond mutex))

/-- From `s₁` on, `t` does not hold the mutex while it is blocked on the condition variable, and
holds it `n` times when it returns. -/
def GivesBack (t : Tid) (cond : Nat) (mutex : MutexRef) (n : Word) (s₁ : State) : Prop :=
  ∀ s, Run (InWait t cond mutex) s₁ s →
    (t ∈ listsOf s.trace (.waitQueue (.condvar cond)) → s.holder mutex ≠ some t) ∧
      (s.currentThread = t → s.stack.head? = some (.condvarReturn cond mutex) →
        s.holder mutex = some t ∧ s.recursionCount mutex = n)

section

variable {idle : Tid} {threads : List Tid} {s s₁ : State} {cond : Nat} {mutex : MutexRef}
  {t : Tid} {ops : List Op}

theorem Run.guarded {ok : State → Action → Prop} {s₀ : State} (hr : Run ok s₀ s)
    (hok : ∀ s a, ok s a → Quiet s a) (h₀ : Calm idle threads s₀)
    (hg : Sync.Guarded mutex s₀.sync) : Calm idle threads s ∧ Sync.Guarded mutex s.sync :=
  hr.sync_invariant hok h₀ hg fun _ _ _ _ _ hi _ _ hs ↦ hi.step hs

/-- The run lemma for a thread in its wait. -/
theorem Run.waiter (hr : Run (InWait t cond mutex) s₁ s) (h : Calm idle threads s₁)
    (hg : Sync.Guarded mutex s₁.sync) (hw : s₁.sync.Waiter t cond mutex ops) :
    s.sync.Waiter t cond mutex ops := by
  have hrun := hr.sync_invariant (I := fun v ↦ Sync.Guarded mutex v ∧ v.Waiter t cond mutex ops)
    (fun _ _ hq ↦ hq.1) h ⟨hg, hw⟩
  apply (hrun _).2.2
  rintro s a act v hc ⟨hg, hw⟩ ⟨-, hn⟩ ha hs
  refine ⟨hg.step hs, hw.step hg hs fun hcur hact ↦ hn ⟨?_, hcur, ?_⟩⟩
  · subst hact
    cases a with
    | exec => rfl
    | call c => cases ha
    | _ => cases ha
  · subst hact
    cases a with
    | exec => simpa [State.act] using ha
    | call c => cases ha
    | _ => cases ha

/-- `condvar_wait` in one that was acquired once. -/
theorem Sync.Step.waiter {v v' : Sync} (hs : Sync.Step t (.exec (.condvarWait cond mutex)) v v')
    (ht : v.task t = .condvarWait cond mutex :: ops) (hn : v.recursionCount mutex = 1) :
    v'.Waiter t cond mutex ops := by
  have hh := hs.wait_holder hn
  refine .waiting ?_ (by rw [hh]; simp)
  cases hs with
  | exec b hf ht' hr he =>
    rw [ht] at ht'
    cases ht'
    subst he
    rw [Sync.exec_settle]
    simp [Sync.setTask, Sync.pushes, strip_cons, Op.IsSkip]

theorem Calm.givesBack (h : Calm idle threads s₁) (hg : Sync.Guarded mutex s₁.sync)
    (hw : s₁.sync.Waiter t cond mutex ops) : GivesBack t cond mutex 1 s₁ := by
  intro s hr
  have hwait := hr.waiter h hg hw
  refine ⟨fun hm ↦ ?_, fun hc hhead ↦ ?_⟩
  · have hroom : t ∈ s.sync.rooms.queue cond := by
      rw [← State.sync_queue] at hm
      exact hm
    cases hwait with
    | waiting ht hh => exact hh
    | taking b ht hq => exact absurd hroom (hq cond)
    | back ht hq => exact absurd hroom (hq cond)
  · have htask : ∃ r, s.sync.task t = .condvarReturn cond mutex :: r := by
      obtain ⟨r, hst⟩ := List.head?_eq_some_iff.mp hhead
      refine ⟨r, ?_⟩
      rw [← hc, sync_task_current, hst]
      exact strip_of_not_skip rfl r
    obtain ⟨r, htask⟩ := htask
    cases hwait with
    | waiting ht => rw [htask] at ht; cases ht
    | taking b ht => rw [htask] at ht; cases ht
    | back ht hq hh hn => exact ⟨hh, hn⟩

end

/-- `condvar_wait` gives up the mutex and gives it back as it was exactly when the thread had
acquired it once. -/
theorem condvarWait_gives_back_iff {idle main : Tid} {threads : List Tid} {count : Nat → Nat}
    {s : State} {cond : Nat} {mutex : MutexRef} {ops : List Op} (hd : Distinct idle main threads)
    (hr : Run Quiet (boot idle main threads count) s)
    (hst : s.stack = .condvarWait cond mutex :: ops)
    (hh : s.holder mutex = some s.currentThread) (hn : s.recursionCount mutex ≠ 0) :
    ∃ s₁, next s .exec = .ok s₁ ∧
      (GivesBack s.currentThread cond mutex (s.recursionCount mutex) s₁ ↔
        s.recursionCount mutex = 1) := by
  have hstart : Sync.Guarded mutex (boot idle main threads count).sync := by
    rw [boot_sync count hd]
    exact (Sync.locked_start mutex idle count).guarded
  obtain ⟨hc, hg⟩ := hr.guarded (fun _ _ hq ↦ hq) (calm_boot count hd) hstart
  have hcomes := hc.comes hst rfl fun m hm ↦ by
    cases hm
    exact ⟨hh, hn⟩
  obtain ⟨s₁, hrun, -⟩ := condvarWait_acts hcomes
  have hnext : next s .exec = .ok s₁ := by
    simp only [next, hst, exec]
    exact hrun
  obtain ⟨hc₁, hstep⟩ := hc.exec_step hst rfl hnext
  have htask : s.sync.task s.currentThread = .condvarWait cond mutex :: ops := by
    rw [sync_task_current, hst]
    exact strip_of_not_skip rfl ops
  refine ⟨s₁, hnext, fun hgives ↦ ?_, fun hone ↦ ?_⟩
  · by_contra hne
    -- the thread is in the queue and has kept the mutex
    apply (hgives s₁ .start).1 _ (hstep.wait_holder_again hne)
    rw [← State.sync_queue]
    have hroom : s.currentThread ∈ s₁.sync.rooms.queue cond := by
      rw [Sync.rooms_after hstep]
      simp [Op.onRooms, Rooms.enter]
    exact hroom
  · rw [hone]
    exact hc₁.givesBack (hg.step hstep) (hstep.waiter htask hone)

/-- `main` acquires a mutex twice and waits: it keeps the mutex. -/
def waitNested : List Action :=
  [.call (.mutexAcquire 0), .exec, .exec, .call (.mutexAcquire 0), .exec, .call (.condvarWait 0 0)]

theorem waitNested_quiet : ∀ a ∈ waitNested, ∀ s, Quiet s a := by
  simp [waitNested, Quiet, Call.Quiet]

theorem condvarWait_gives_back_nested : Distinct 1 2 [3] ∧
    ∃ s s₁, walk waitNested (boot 1 2 [3] fun _ ↦ 0) = some s ∧ next s .exec = .ok s₁ ∧
      (GivesBack 2 0 (.user 0) 2 s₁ ↔ (2 : Word) = 1) := by
  have hd : Distinct 1 2 [3] := by decide
  have hw : ∃ s, walk waitNested (boot 1 2 [3] fun _ ↦ 0) = some s ∧ s.currentThread = 2 ∧
      s.stack = [.condvarWait 0 (.user 0)] ∧ s.holder (.user 0) = some 2 ∧
      s.recursionCount (.user 0) = 2 := ⟨_, rfl, rfl, rfl, rfl, rfl⟩
  obtain ⟨s, hw, hc, hst, hh, hn⟩ := hw
  have hr : Run Quiet (boot 1 2 [3] fun _ ↦ 0) s := Run.start.walk waitNested_quiet hw
  obtain ⟨s₁, hnext, hiff⟩ := condvarWait_gives_back_iff hd hr hst (hh.trans (congrArg some hc.symm))
    (by rw [hn]; decide)
  rw [hc, hn] at hiff
  exact ⟨hd, s, s₁, hw, hnext, hiff⟩

/-- It is blocked on the condition variable and still the holder. -/
theorem condvarWait_keeps_mutex : ∃ s s₁, Run Quiet (boot 1 2 [3] fun _ ↦ 0) s ∧
    s.stack = [.condvarWait 0 (.user 0)] ∧ s.holder (.user 0) = some s.currentThread ∧
    s.recursionCount (.user 0) = 2 ∧ next s .exec = .ok s₁ ∧
    s₁.status s.currentThread = .blocked ∧
    s.currentThread ∈ listsOf s₁.trace (.waitQueue (.condvar 0)) ∧
    s₁.holder (.user 0) = some s.currentThread := by
  have hw : ∃ s s₁, walk waitNested (boot 1 2 [3] fun _ ↦ 0) = some s ∧
      next s .exec = .ok s₁ ∧ s.stack = [.condvarWait 0 (.user 0)] ∧
      s.holder (.user 0) = some s.currentThread ∧ s.recursionCount (.user 0) = 2 ∧
      s₁.status s.currentThread = .blocked ∧
      listsOf s₁.trace (.waitQueue (.condvar 0)) = [s.currentThread] ∧
      s₁.holder (.user 0) = some s.currentThread :=
    ⟨_, _, rfl, rfl, rfl, rfl, rfl, rfl, rfl, rfl⟩
  obtain ⟨s, s₁, hw, hnext, hst, hh, hn, hb, hq, hh'⟩ := hw
  exact ⟨s, s₁, Run.start.walk waitNested_quiet hw, hst, hh, hn, hnext, hb, by simp [hq], hh'⟩

end AlienOS.Kernel
