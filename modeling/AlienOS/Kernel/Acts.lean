import AlienOS.Kernel.Dispatch
import AlienOS.Kernel.Sync

/-!
# Acts — one operation of a running thread

What it does to the synchronisation objects is what `Sync` says, and every thread keeps its place on
the lists.
-/

open AlienOS.Lib

namespace AlienOS.Kernel

/-- The operations of threads that neither end nor make a thread. -/
def Op.IsCalm : Op → Bool
  | .iret _ | .cleanZombies _ _ | .threadExit | .threadAlloc | .internalThreadInit _
  | .addHeadPrev _ _ | .addNodeNext _ _ | .addNodePrev _ _ | .addHead _ _ | .heapEnd (some _) => false
  | _ => true

/-- Those of the idle thread. -/
def Op.IsIdle : Op → Bool
  | .interruptRestore _ | .threadYield | .cpuIdleLoop => true
  | _ => false

section

variable {s s' : State} {op : Op} {ops : List Op}

/-- A running thread waits for nobody. -/
theorem Placed.free (h : Placed s none) (hs : s.status s.currentThread = .running)
    (i : ListId) : s.currentThread ∉ listsOf s.trace i :=
  h.not_mem (h.standing.home_cur (by rw [hs]; decide)) i

/-- What a step leaves to its thread is all that it changes on the stacks. -/
theorem sync_task (hc : s'.currentThread = s.currentThread) (he : s'.esp = s.esp) :
    s'.sync.task = Function.update s.sync.task s.currentThread (strip s'.stack) := by
  funext t
  by_cases ht : t = s.currentThread
  · simp [State.sync, State.stackOf, hc, ht]
  · simp [State.sync, State.stackOf, hc, he, ht]

theorem sync_eq {v : Sync} {L : List Op} (hc : s'.currentThread = s.currentThread)
    (he : s'.esp = s.esp)
    (hv : v = { s'.sync with task := Function.update s.sync.task s.currentThread L })
    (hL : strip L = strip s'.stack) :
    s'.sync = v.setTask s.currentThread (strip (v.task s.currentThread)) := by
  subst hv
  have := sync_task hc he
  simp only [Sync.setTask, Function.update_self, Function.update_idem, hL, ← this]

theorem strip_yield (b : Bool) (ops : List Op) :
    strip (.threadYield :: .interruptRestore b :: ops) = strip ops := by
  rw [strip_skip rfl, strip_skip rfl]

theorem sync_task_self (s : State) :
    Function.update s.sync.task s.currentThread (strip s.stack) = s.sync.task := by
  apply Function.update_eq_self_iff.mpr
  simp [State.sync, State.stackOf]

/-- The state in which `semaphore_down` leaves a thread that has to wait. -/
theorem semaphoreDown_blocks {sem : SemRef} (hn : s.count sem - 1 < 0) :
    semaphoreDown sem s = { s with
      count := Function.update s.count sem (s.count sem - 1)
      status := Function.update s.status s.currentThread .blocked
      interrupts := false
      blockedOn := if s.blockerType s.currentThread = .none then
        Function.update s.blockedOn s.currentThread (some (.semaphore sem)) else s.blockedOn
      blockerType := if s.blockerType s.currentThread = .none then
        Function.update s.blockerType s.currentThread .semaphore else s.blockerType
      lists := waitQueueAppend (.waitQueue (.semaphore sem)) s.currentThread s.lists
      stack := .threadYield :: .interruptRestore s.interrupts :: s.stack
      trace := .added (.waitQueue (.semaphore sem)) s.currentThread :: s.trace } := by
  unfold semaphoreDown
  simp only [Function.update_self, if_pos hn]
  by_cases hr : s.blockerType s.currentThread = .none
  · simp [hr, State.setStatus, enqueueCurrent, State.push]
  · simp [hr, State.setStatus, enqueueCurrent, State.push]

/-! ## Waking -/

/-- Waking leaves the current thread and the stacks as they are. -/
structure Steady (s s' : State) : Prop where
  current : s'.currentThread = s.currentThread
  idle : s'.idleThread = s.idleThread
  esp : s'.esp = s.esp
  stack : s'.stack = s.stack
  threads : threadsOf s'.trace = threadsOf s.trace
  alive : (∀ t, s.status t ≠ .zombie) → ∀ t, s'.status t ≠ .zombie
  fifo : (∀ i, i = .readyThreads ∨ i.Tailed → Fifo i s.trace) →
    ∀ i, i = .readyThreads ∨ i.Tailed → Fifo i s'.trace

theorem Steady.refl (s : State) : Steady s s := ⟨rfl, rfl, rfl, rfl, rfl, id, id⟩

theorem Steady.trans {s₁ s₂ s₃ : State} (h : Steady s₁ s₂) (h' : Steady s₂ s₃) : Steady s₁ s₃ :=
  ⟨h'.current.trans h.current, h'.idle.trans h.idle, h'.esp.trans h.esp, h'.stack.trans h.stack,
    h'.threads.trans h.threads, fun ha ↦ h'.alive (h.alive ha), fun hf ↦ h'.fifo (h.fifo hf)⟩

theorem steady_woken {q : WaitQueue} {x : Tid} {xs : List Tid} {lists : Links ListId Tid}
    (hq : listsOf s.trace (.waitQueue q) = x :: xs) : Steady s (s.woken q x lists) := by
  refine ⟨rfl, rfl, rfl, rfl, rfl, fun ha t ↦ ?_, fun hf i hi ↦ Fifo.added ?_⟩
  · by_cases ht : t = x
    · simp [State.woken, ht]
    · simpa [State.woken, ht] using ha t
  · by_cases he : i = .waitQueue q
    · subst he
      exact (hf _ hi).removed_wait hq
    · exact (hf i hi).removed_other (Ne.symm he)

variable {s' : State} {q : WaitQueue}

theorem Woke.steady (h : Woke q s s') : Steady s s' := by
  cases h with
  | nobody => exact .refl s
  | first hq => exact steady_woken hq

theorem WokeAll.steady (h : WokeAll q s s') : Steady s s' := by
  induction h with
  | nobody => exact .refl _
  | first hq _ ih => exact (steady_woken hq).trans ih

theorem Woke.status (h : Woke q s s') {t : Tid} (ht : t ∉ listsOf s.trace (.waitQueue q)) :
    s'.status t = s.status t := by
  cases h with
  | nobody => rfl
  | first hq =>
    rw [hq] at ht
    exact Function.update_of_ne (List.ne_of_not_mem_cons ht) _ _

theorem WokeAll.status (h : WokeAll q s s') {t : Tid}
    (ht : t ∉ listsOf s.trace (.waitQueue q)) : s'.status t = s.status t := by
  induction h with
  | nobody => rfl
  | first hq _ ih =>
    rw [ih (by rw [listsOf_woken]; exact fun hm ↦ ht (List.mem_of_mem_erase hm))]
    rw [hq] at ht
    exact Function.update_of_ne (List.ne_of_not_mem_cons ht) _ _

theorem sync_woken (s : State) (q : WaitQueue) (x : Tid) (lists : Links ListId Tid) :
    (s.woken q x lists).sync = s.sync.woken q x := rfl

theorem Woke.sync (h : Woke q s s') : s'.sync = Sync.wake q s.sync := by
  unfold Sync.wake
  rw [State.sync_queue]
  cases h with
  | nobody hq => rw [hq]
  | first hq => rw [hq, sync_woken]

theorem WokeAll.sync (h : WokeAll q s s') : s'.sync = Sync.wakeAll q s.sync := by
  unfold Sync.wakeAll
  rw [State.sync_queue]
  induction h with
  | nobody hq =>
    rw [hq]
    rfl
  | @first s s' x xs lists hq hw ih =>
    rw [listsOf_woken, hq, List.erase_cons_head] at ih
    rw [ih, hq, sync_woken]
    rfl

/-- The events in the life of a thread, and what it does to the heap. -/
def Event.IsLife : Event → Bool
  | .created _ | .exited _ | .reaped _ | .slept _ | .woke _ | .heapStarted _ | .heapEnded _
  | .added .sleepingThreads _ => true
  | _ => false

theorem zombies_update {t : Tid} {st : ThreadStatus} (h₁ : s.status t ≠ .zombie)
    (h₂ : st ≠ .zombie) (u : Tid) :
    Function.update s.status t st u = .zombie ↔ s.status u = .zombie := by
  by_cases hu : u = t
  · subst hu
    simp [h₁, h₂]
  · simp [hu]

theorem zombies_woken {x : Tid} {lists : Links ListId Tid} (hx : s.status x ≠ .zombie) (t : Tid) :
    (s.woken q x lists).status t = .zombie ↔ s.status t = .zombie :=
  zombies_update hx (by decide) t

theorem Woke.zombies (h : Woke q s s')
    (hq : ∀ x ∈ listsOf s.trace (.waitQueue q), s.status x ≠ .zombie) (t : Tid) :
    s'.status t = .zombie ↔ s.status t = .zombie := by
  cases h with
  | nobody => exact Iff.rfl
  | @first x xs lists hxs => exact zombies_woken (hq x (by simp [hxs])) t

theorem WokeAll.zombies (h : WokeAll q s s')
    (hq : ∀ x ∈ listsOf s.trace (.waitQueue q), s.status x ≠ .zombie) (t : Tid) :
    s'.status t = .zombie ↔ s.status t = .zombie := by
  induction h with
  | nobody => exact Iff.rfl
  | @first s s' x xs lists hxs _ ih =>
    have hx : ∀ t, (s.woken q x lists).status t = .zombie ↔ s.status t = .zombie :=
      zombies_woken (hq x (by simp [hxs]))
    refine (ih fun y hy ↦ ?_).trans (hx t)
    rw [listsOf_woken] at hy
    rw [ne_eq, hx y]
    exact hq y (List.mem_of_mem_erase hy)

theorem Woke.life (h : Woke q s s') :
    s'.trace.filter Event.IsLife = s.trace.filter Event.IsLife := by
  cases h <;> rfl

theorem WokeAll.life (h : WokeAll q s s') :
    s'.trace.filter Event.IsLife = s.trace.filter Event.IsLife := by
  induction h with
  | nobody => rfl
  | first _ _ ih => exact ih

theorem Woke.allocated (h : Woke q s s') : s'.allocated = s.allocated := by
  cases h <;> rfl

theorem WokeAll.allocated (h : WokeAll q s s') : s'.allocated = s.allocated := by
  induction h with
  | nobody => rfl
  | first _ _ ih => exact ih

/-- Whoever waits is not dead. -/
theorem Placed.waiting_alive (h : Placed s none) {x : Tid}
    (hx : x ∈ listsOf s.trace (.waitQueue q)) : s.status x ≠ .zombie := by
  have hs : s.status x = .blocked := h.standing.status_eq (h.home_of_mem hx)
  rw [hs]
  decide

/-- Waking leaves alone what only the making and the end of threads touch. -/
structure Untouched (s s' : State) : Prop where
  zombies : ∀ t, s'.status t = .zombie ↔ s.status t = .zombie
  allocated : s'.allocated = s.allocated
  life : s'.trace.filter Event.IsLife = s.trace.filter Event.IsLife

theorem Woke.untouched (h : Woke q s s') (hp : Placed s none) : Untouched s s' :=
  ⟨h.zombies fun _ hx ↦ hp.waiting_alive hx, h.allocated, h.life⟩

theorem WokeAll.untouched (h : WokeAll q s s') (hp : Placed s none) : Untouched s s' :=
  ⟨h.zombies fun _ hx ↦ hp.waiting_alive hx, h.allocated, h.life⟩

/-- What the end of a semaphore or condition variable operation does, with `s₀` the state before the
operation. -/
structure Wakes (s₀ : State) (F : Sync → Sync) (s' : State) : Prop where
  steady : Steady s₀ s'
  placed : Placed s' none
  status : s'.status s₀.currentThread = s₀.status s₀.currentThread
  sync : s'.sync = F s₀.sync

theorem semaphoreUp_spec (sem : SemRef) (h : Placed s none)
    (hc : s.currentThread ∉ listsOf s.trace (.waitQueue (.semaphore sem))) :
    ∃ s', semaphoreUp sem s = .ok s' ∧ Wakes s (Sync.up sem s.currentThread) s' ∧
      Untouched s s' := by
  obtain ⟨s', hrun, hw, hp⟩ := woke_spec (q := .semaphore sem)
    (s := { s with count := Function.update s.count sem (s.count sem + 1) }.log
      (.upped sem s.currentThread)) ⟨h.rep, h.agrees, h.standing⟩ fun x hx he ↦ hc (by rwa [he] at hx)
  have hst := hw.steady
  have hu := hw.untouched ⟨h.rep, h.agrees, h.standing⟩
  refine ⟨s', hrun, ⟨⟨hst.current, hst.idle, hst.esp, hst.stack, hst.threads, hst.alive, hst.fifo⟩,
    hp, hw.status hc, ?_⟩, hu.zombies, hu.allocated, hu.life⟩
  rw [hw.sync]
  rfl

theorem sub_one_ne {n : Word} (hn : n ≠ 0) : n - 1 ≠ ~~~0 := by
  intro he
  apply hn
  have : n = n - 1 + 1 := (BitVec.sub_add_cancel n 1).symm
  rw [this, he]
  decide

/-- `mutex_release` past its assertions. -/
theorem mutexRelease_eq {mutex : MutexRef} (hm : s.sync.Holds mutex s.currentThread) :
    mutexRelease mutex s =
      if s.recursionCount mutex - 1 = 0 then semaphoreUp (.ofMutex mutex) { s with
        recursionCount := Function.update s.recursionCount mutex (s.recursionCount mutex - 1)
        holder := Function.update s.holder mutex none
        trace := .released mutex s.currentThread :: s.trace }
      else .ok { s with
        recursionCount := Function.update s.recursionCount mutex (s.recursionCount mutex - 1)
        trace := .released mutex s.currentThread :: s.trace } := by
  have hh : s.holder mutex = some s.currentThread := hm.1
  have hn : s.recursionCount mutex - 1 ≠ ~~~0 := sub_one_ne hm.2
  unfold mutexRelease
  simp only [kernelAssert, hh, beq_self_eq_true, if_true, ok_bind, Function.update_self,
    bne_iff_ne, ne_eq, hn, not_false_eq_true, State.log]

theorem mutexRelease_spec {mutex : MutexRef} (h : Placed s none)
    (hc : ∀ sem, s.currentThread ∉ listsOf s.trace (.waitQueue (.semaphore sem)))
    (hm : s.sync.Holds mutex s.currentThread) :
    ∃ s', mutexRelease mutex s = .ok s' ∧ Wakes s (Sync.release mutex s.currentThread) s' ∧
      Untouched s s' := by
  rw [mutexRelease_eq hm]
  by_cases hz : s.recursionCount mutex - 1 = 0
  · have hz' : s.sync.recursionCount mutex - 1 = 0 := hz
    rw [if_pos hz]
    obtain ⟨s', hrun, hw, hu⟩ := semaphoreUp_spec (.ofMutex mutex) (s := { s with
      recursionCount := Function.update s.recursionCount mutex (s.recursionCount mutex - 1)
      holder := Function.update s.holder mutex none
      trace := .released mutex s.currentThread :: s.trace }) ⟨h.rep, h.agrees, h.standing⟩ (hc _)
    have hst := hw.steady
    refine ⟨s', hrun, ⟨⟨hst.current, hst.idle, hst.esp, hst.stack, hst.threads, hst.alive, hst.fifo⟩,
      hw.placed, hw.status, ?_⟩, hu.zombies, hu.allocated, hu.life⟩
    rw [hw.sync]
    unfold Sync.release
    simp only [if_pos hz']
    rfl
  · have hz' : ¬ s.sync.recursionCount mutex - 1 = 0 := hz
    rw [if_neg hz]
    refine ⟨_, rfl, ⟨⟨rfl, rfl, rfl, rfl, rfl, id, id⟩, ⟨h.rep, h.agrees, h.standing⟩, rfl, ?_⟩,
      fun _ ↦ Iff.rfl, rfl, rfl⟩
    unfold Sync.release
    simp only [if_neg hz']
    rfl

/-- Its own assertions are all that `mutex_release` can fail on. -/
theorem mutexRelease_holds {mutex : MutexRef} (hrun : mutexRelease mutex s = .ok s') :
    s.sync.Holds mutex s.currentThread := by
  unfold mutexRelease at hrun
  obtain ⟨_, h₁, hrun⟩ := bind_eq_ok.mp hrun
  obtain ⟨_, h₂, hrun⟩ := bind_eq_ok.mp hrun
  have hh : s.holder mutex = some s.currentThread := by simpa using kernelAssert_eq_ok.mp h₁
  refine ⟨hh, fun hn ↦ ?_⟩
  have hn' : s.recursionCount mutex = 0 := hn
  have := kernelAssert_eq_ok.mp h₂
  simp [hn'] at this

theorem sync_rest (s : State) (ops : List Op) :
    ({ s with stack := ops } : State).sync = s.sync.setTask s.currentThread (strip ops) := by
  ext1 <;> try rfl
  exact Eq.trans (sync_task (s := s) rfl rfl) rfl

/-- What looks at no task is done to the rest of the state. -/
theorem Sync.Blind.rest {F : Sync → Sync} (hF : Sync.Blind F) (s : State) (ops : List Op) :
    F ({ s with stack := ops } : State).sync =
      (F (s.sync.setTask s.currentThread ops)).setTask s.currentThread
        (strip ((F (s.sync.setTask s.currentThread ops)).task s.currentThread)) := by
  rw [hF.task, sync_rest, hF, hF]
  simp [Sync.setTask]

end

/-! ## What a running thread does -/

/-- Those that an operation of `t` logs. -/
def Op.life (t : Tid) : Op → List Event
  | .sleepStatus => [.slept t]
  | .sleepReturn => [.woke t]
  | .heapStart => [.heapStarted t]
  | .heapEnd _ => [.heapEnded t]
  | _ => []

/-- The current thread keeps the processor and has `pushed` on its stack. -/
structure Keeps (s s' : State) (pushed : List Op) (life : List Event) : Prop where
  current : s'.currentThread = s.currentThread
  idle : s'.idleThread = s.idleThread
  esp : s'.esp = s.esp
  allocated : s'.allocated = s.allocated
  threads : threadsOf s'.trace = threadsOf s.trace
  placed : Placed s' none
  zombies : ∀ t, s'.status t = .zombie ↔ s.status t = .zombie
  fifo : (∀ i, i = .readyThreads ∨ i.Tailed → Fifo i s.trace) →
    ∀ i, i = .readyThreads ∨ i.Tailed → Fifo i s'.trace
  stack : s'.stack = pushed ++ s.stack
  running : s'.status s.currentThread = .running ∨ s'.stack.head? = some .threadYield
  life : s'.trace.filter Event.IsLife = life ++ s.trace.filter Event.IsLife

section

variable {s s' : State} {q : WaitQueue} {ops : List Op}

theorem Steady.keeps (hs : Steady s s') (hu : Untouched s s') (h' : Placed s' none)
    (hrun : s'.status s.currentThread = .running ∨ s.stack.head? = some .threadYield) :
    Keeps s s' [] [] := by
  refine ⟨hs.current, hs.idle, hs.esp, hu.allocated, hs.threads, h', hu.zombies, hs.fifo, hs.stack,
    ?_, hu.life⟩
  rw [hs.stack]
  exact hrun

end

/-! ## One operation -/

/-- What an operation leaves on the stack of its thread. -/
def State.leaves (s : State) : Op → List Op
  | .semaphoreDown sem =>
    if s.count sem - 1 < 0 then [.threadYield, .interruptRestore s.interrupts] else []
  | .mutexAcquire mutex =>
    if s.holder mutex = some s.currentThread then []
    else (if s.count (.ofMutex mutex) - 1 < 0 then [.threadYield, .interruptRestore false]
      else []) ++ [.mutexAcquired mutex s.interrupts]
  | .tryTest mutex =>
    [if s.holder mutex = some s.currentThread then .tryIncrement mutex else .tryDown mutex]
  | .tryDown mutex =>
    if s.count (.ofMutex mutex) > 0 then [.trySetHolder mutex, .trySetCount mutex] else []
  | .condvarWait cond mutex =>
    [.threadYield, .interruptRestore s.interrupts, .mutexAcquire mutex, .condvarReturn cond mutex]
  | .cpuIdleLoop => [.interruptRestore true, .interruptRestore false, .threadYield, .cpuIdleLoop]
  | _ => []

/-- The current thread runs and has come to `op`. -/
structure Comes (s : State) (op : Op) (ops : List Op) : Prop where
  stack : s.stack = op :: ops
  placed : Placed s none
  running : s.status s.currentThread = .running
  calm : op.IsCalm
  not_skip : op.IsSkip = false
  not_idle : op.IsIdle = false → s.currentThread ≠ s.idleThread
  asleep : op = .sleepStatus → ops.head? = some .threadYield
  holds : ∀ mutex, Sync.Releases op = some mutex → s.sync.Holds mutex s.currentThread

structure Acts (s : State) (op : Op) (ops : List Op) (s' : State) : Prop where
  keeps : Keeps { s with stack := ops } s' (s.leaves op) (op.life s.currentThread)
  sync : ∃ v, v = Sync.exec s.currentThread s.interrupts op (s.sync.setTask s.currentThread ops) ∧
    s'.sync = v.setTask s.currentThread (strip (v.task s.currentThread))

section

variable {s s' : State} {op : Op} {ops : List Op}

theorem Placed.restack {node : Option Tid} (h : Placed s node) (ops : List Op) :
    Placed { s with stack := ops } node := ⟨h.rep, h.agrees, h.standing⟩

/-- An operation that changes neither lists nor status. -/
theorem Comes.acts {L : List Op} (h : Comes s op ops) (hc : s'.currentThread = s.currentThread)
    (hi : s'.idleThread = s.idleThread) (he : s'.esp = s.esp) (hal : s'.allocated = s.allocated)
    (hs : s'.status = s.status) (ht : threadsOf s'.trace = threadsOf s.trace) (hp : Placed s' none)
    (hf : (∀ i, i = .readyThreads ∨ i.Tailed → Fifo i s.trace) →
      ∀ i, i = .readyThreads ∨ i.Tailed → Fifo i s'.trace)
    (hstack : s'.stack = s.leaves op ++ ops)
    (hlife : s'.trace.filter Event.IsLife =
      op.life s.currentThread ++ s.trace.filter Event.IsLife)
    (hv : Sync.exec s.currentThread s.interrupts op (s.sync.setTask s.currentThread ops) =
      { s'.sync with task := Function.update s.sync.task s.currentThread L })
    (hL : strip L = strip s'.stack) : Acts s op ops s' := by
  refine ⟨⟨hc, hi, he, hal, ht, hp, fun t ↦ by rw [hs], hf, hstack, .inl ?_, hlife⟩, _, rfl,
    sync_eq hc he hv hL⟩
  rw [hs]
  exact h.running

/-- `semaphore_down` on behalf of a running thread, its record and its stack as its caller left
them. -/
theorem semaphoreDown_keeps (h : Placed s none) (hs : s.status s.currentThread = .running)
    (hi : s.currentThread ≠ s.idleThread) (sem : SemRef) :
    Keeps s (semaphoreDown sem s) (s.leaves (.semaphoreDown sem)) [] ∧
      (semaphoreDown sem s).sync = Sync.down sem s.currentThread s.sync := by
  by_cases hn : s.count sem - 1 < 0
  · -- the thread queues and has a yield before it
    have hb : s.status s.currentThread ≠ .blocked := by rw [hs]; decide
    have hq := placed_enqueueCurrent (q := .semaphore sem) h hb hi
    have hz : ∀ t, Function.update s.status s.currentThread .blocked t = .zombie ↔
        s.status t = .zombie := zombies_update (by rw [hs]; decide) (by decide)
    rw [semaphoreDown_blocks hn]
    refine ⟨⟨rfl, rfl, rfl, rfl, rfl, ⟨hq.rep, hq.agrees, hq.standing⟩, hz,
      fun hf i hi ↦ (hf i hi).added, ?_, .inr rfl, rfl⟩, ?_⟩
    · simp [State.leaves, hn]
    · have hn' : s.sync.count sem - 1 < 0 := hn
      unfold Sync.down Sync.note
      rw [if_pos hn']
      by_cases hr : s.blockerType s.currentThread = .none
      · have hr' : s.sync.blockerType s.currentThread = .none := hr
        simp only [if_pos hr, if_pos hr']
        ext1 <;> try rfl
        refine Eq.trans (sync_task (s := s) rfl rfl) ?_
        simp only [strip_yield]
        exact sync_task_self s
      · have hr' : ¬ s.sync.blockerType s.currentThread = .none := hr
        simp only [if_neg hr, if_neg hr']
        ext1 <;> try rfl
        refine Eq.trans (sync_task (s := s) rfl rfl) ?_
        simp only [strip_yield]
        exact sync_task_self s
  · have hn' : ¬ s.sync.count sem - 1 < 0 := hn
    unfold semaphoreDown Sync.down
    simp only [Function.update_self, if_neg hn, if_neg hn']
    refine ⟨⟨rfl, rfl, rfl, rfl, rfl, ⟨h.rep, h.agrees, h.standing⟩, fun _ ↦ Iff.rfl, id, ?_,
      .inl hs, rfl⟩, rfl⟩
    simp [State.leaves, hn, State.log]

theorem Wakes.acts {F : Sync → Sync} (hw : Wakes { s with stack := ops } F s')
    (hu : Untouched { s with stack := ops } s') (h : Comes s op ops) (hF : Sync.Blind F)
    (hleaves : s.leaves op = []) (hlife : op.life s.currentThread = [])
    (he : ∀ v, Sync.exec s.currentThread s.interrupts op v = F v) : Acts s op ops s' := by
  refine ⟨?_, _, rfl, ?_⟩
  · rw [hleaves, hlife]
    exact hw.steady.keeps hu hw.placed (.inl (hw.status.trans h.running))
  · rw [he, hw.sync, hF.rest]

/-- Who has just joined the queue of a condition variable waits for nothing else. -/
theorem Placed.not_queued {cond : Nat} {sem : SemRef}
    (hq : Placed (enqueueCurrent (.condvar cond) (s.setStatus s.currentThread .blocked)) none) :
    s.currentThread ∉ listsOf (.added (.waitQueue (.condvar cond)) s.currentThread :: s.trace)
      (.waitQueue (.semaphore sem)) := by
  intro hmem
  have := hq.home_of_mem hmem
  simp [enqueueCurrent, State.setStatus, homeOf, Event.onHome] at this

/-- `condvar_wait` up to its yield. -/
theorem condvarWait_acts {cond : Nat} {mutex : MutexRef} (h : Comes s (.condvarWait cond mutex) ops) :
    ∃ s', condvarWait cond mutex { s with stack := ops } = .ok s' ∧
      Acts s (.condvarWait cond mutex) ops s' := by
  have hi := h.not_idle rfl
  have hb : s.status s.currentThread ≠ .blocked := by rw [h.running]; decide
  have hq := placed_enqueueCurrent (q := .condvar cond) h.placed hb hi
  obtain ⟨s', hrun', hw, hu⟩ := mutexRelease_spec (s := { s with
    stack := ops
    status := Function.update s.status s.currentThread .blocked
    interrupts := false
    blockedOn := Function.update s.blockedOn s.currentThread (some (.condVar cond))
    blockerType := Function.update s.blockerType s.currentThread .condVar
    lists := waitQueueAppend (.waitQueue (.condvar cond)) s.currentThread s.lists
    trace := .waited cond mutex s.currentThread ::
      .added (.waitQueue (.condvar cond)) s.currentThread :: s.trace })
    ⟨hq.rep, hq.agrees, hq.standing⟩ (fun _ ↦ hq.not_queued) (h.holds mutex rfl)
  have hs := hw.steady
  have hz : ∀ t, Function.update s.status s.currentThread .blocked t = .zombie ↔
      s.status t = .zombie := zombies_update (by rw [h.running]; decide) (by decide)
  refine ⟨s'.push [.threadYield, .interruptRestore s.interrupts, .mutexAcquire mutex,
    .condvarReturn cond mutex], ?_, ⟨hs.current, hs.idle, hs.esp, hu.allocated, hs.threads,
    ⟨hw.placed.rep, hw.placed.agrees, hw.placed.standing⟩, fun t ↦ (hu.zombies t).trans (hz t),
    fun hf ↦ hs.fifo fun i hi ↦ (hf i hi).added, ?_, .inr rfl, hu.life⟩, _, rfl, ?_⟩
  · unfold condvarWait
    have := hrun'
    simp only [State.setStatus, enqueueCurrent, State.log] at this ⊢
    rw [this]
    rfl
  · rw [State.push, hs.stack]
    rfl
  · have hblind := Sync.blind_release mutex s.currentThread
    simp only [Sync.exec, Sync.push, hblind.task]
    have hstack : strip (s'.push [.threadYield, .interruptRestore s.interrupts,
        .mutexAcquire mutex, .condvarReturn cond mutex]).stack =
          .mutexAcquire mutex :: .condvarReturn cond mutex :: ops := by
      simp only [State.push, hs.stack, List.cons_append, List.nil_append, strip_yield]
      exact strip_of_not_skip rfl _
    have hpush : (s'.push [.threadYield, .interruptRestore s.interrupts, .mutexAcquire mutex,
        .condvarReturn cond mutex]).sync = s'.sync.setTask s'.currentThread
          (.mutexAcquire mutex :: .condvarReturn cond mutex :: ops) := by
      ext1 <;> try rfl
      refine Eq.trans (sync_task (s := s') rfl rfl) ?_
      rw [hstack]
      rfl
    have hsame : ∀ w : State, w.currentThread = s.currentThread → w.esp = s.esp →
        ∀ L, Function.update w.sync.task s.currentThread L =
          Function.update s.sync.task s.currentThread L := by
      intro w hc he L
      rw [sync_task hc he, Function.update_idem]
    rw [hpush, hw.sync, hs.current, ← hblind, ← hblind, ← hblind, hblind.task]
    congr 1
    ext1 <;> try rfl
    simp only [Sync.setTask, Sync.setRecord, Sync.logged, Function.update_self,
      Function.update_idem, List.cons_append, List.nil_append]
    rw [strip_of_not_skip rfl]
    apply hsame <;> rfl

/-- One lemma for all operations of a running thread. -/
theorem exec_acts (h : Comes s op ops) :
    ∃ s', exec op { s with stack := ops } = .ok s' ∧ Acts s op ops s' := by
  have hp := h.placed.restack ops
  have hfree := hp.free h.running
  have hcalm := h.calm
  have hskip := h.not_skip
  cases op with
  | interruptRestore => cases hskip
  | iret => cases hskip
  | threadYield => cases hskip
  | cleanZombies => cases hskip
  | semaphoreDown sem =>
    obtain ⟨hk, hsync⟩ := semaphoreDown_keeps hp h.running (h.not_idle rfl) sem
    refine ⟨_, rfl, hk, _, rfl, ?_⟩
    rw [hsync]
    exact (Sync.blind_down sem s.currentThread).rest s ops
  | semaphoreTryDown sem =>
    unfold exec semaphoreTryDown
    by_cases hn : s.count sem > 0
    · simp only [if_pos hn]
      have hn' : (s.sync.setTask s.currentThread ops).count sem > 0 := hn
      refine ⟨_, rfl, h.acts (L := ops) rfl rfl rfl rfl rfl rfl ⟨hp.rep, hp.agrees, hp.standing⟩
        id rfl rfl ?_ rfl⟩
      unfold Sync.exec
      simp only [if_pos hn']
      rfl
    · simp only [if_neg hn]
      have hn' : ¬ (s.sync.setTask s.currentThread ops).count sem > 0 := hn
      refine ⟨_, rfl, h.acts (L := ops) rfl rfl rfl rfl rfl rfl hp id rfl rfl ?_ rfl⟩
      unfold Sync.exec
      simp only [if_neg hn']
      rfl
  | semaphoreUp sem =>
    obtain ⟨s', hrun', hw, hu⟩ := semaphoreUp_spec sem hp (hfree _)
    exact ⟨s', hrun', hw.acts hu h (Sync.blind_up sem s.currentThread) rfl rfl fun v ↦ rfl⟩
  | mutexAcquire mutex =>
    have hi := h.not_idle rfl
    unfold exec mutexAcquire
    by_cases hh : s.holder mutex = some s.currentThread
    · simp only [if_pos hh]
      have hh' : (s.sync.setTask s.currentThread ops).holder mutex = some s.currentThread := hh
      refine ⟨_, rfl, h.acts (L := ops) rfl rfl rfl rfl rfl rfl ⟨hp.rep, hp.agrees, hp.standing⟩
        id ?_ rfl ?_ rfl⟩
      · simp [State.leaves, hh, State.log]
      · simp only [Sync.exec, Sync.acquire, if_pos hh']
        rfl
    · simp only [if_neg hh]
      have hh' : ¬ (s.sync.setTask s.currentThread ops).holder mutex = some s.currentThread := hh
      obtain ⟨hk, hsync⟩ := semaphoreDown_keeps (s := { s with
        stack := .mutexAcquired mutex s.interrupts :: ops
        interrupts := false
        blockedOn := Function.update s.blockedOn s.currentThread (some (.mutex mutex))
        blockerType := Function.update s.blockerType s.currentThread .mutex })
        ⟨hp.rep, hp.agrees, hp.standing⟩ h.running hi (.ofMutex mutex)
      refine ⟨_, rfl, ⟨hk.current, hk.idle, hk.esp, hk.allocated, hk.threads, hk.placed, hk.zombies,
        hk.fifo, ?_, hk.running, hk.life⟩, _, rfl, hsync.trans ?_⟩
      · refine hk.stack.trans ?_
        simp only [State.leaves, if_neg hh, List.append_assoc, List.cons_append, List.nil_append]
      · simp only [Sync.exec, Sync.acquire, if_neg hh']
        rw [(Sync.blind_down _ _).task]
        have htop : strip (.mutexAcquired mutex s.interrupts :: ops) =
            .mutexAcquired mutex s.interrupts :: ops := strip_of_not_skip rfl ops
        rw [← Sync.blind_down]
        congr 1
        ext1 <;> try rfl
        refine Eq.trans (sync_task (s := s) rfl rfl) ?_
        simp [Sync.push, Sync.setTask, Sync.setRecord, htop]
  | mutexRelease mutex =>
    have hm : ({ s with stack := ops } : State).sync.Holds mutex s.currentThread := h.holds mutex rfl
    obtain ⟨s', hrun', hw, hu⟩ := mutexRelease_spec hp (fun sem ↦ hfree _) hm
    exact ⟨s', hrun', hw.acts hu h (Sync.blind_release mutex s.currentThread) rfl rfl fun v ↦ rfl⟩
  | condvarWait cond mutex => exact condvarWait_acts h
  | condvarSignal cond =>
    have hp₀ : Placed (({ s with stack := ops } : State).log (.signalled cond s.currentThread))
        none := ⟨hp.rep, hp.agrees, hp.standing⟩
    obtain ⟨s', hrun', hw, hp'⟩ := woke_spec (q := .condvar cond) hp₀
      fun x hx he ↦ hfree _ (by rwa [he] at hx)
    have hs := hw.steady
    have hu := hw.untouched hp₀
    have hwakes : Wakes { s with stack := ops }
        (fun v ↦ Sync.wake (.condvar cond) (v.logged (.signalled cond s.currentThread))) s' :=
      ⟨⟨hs.current, hs.idle, hs.esp, hs.stack, hs.threads, hs.alive, hs.fifo⟩, hp',
        hw.status (hfree _), hw.sync⟩
    exact ⟨s', hrun', hwakes.acts ⟨hu.zombies, hu.allocated, hu.life⟩ h
      (fun v t r ↦ Sync.blind_wake _ (v.logged (.signalled cond s.currentThread)) t r) rfl rfl
      fun v ↦ rfl⟩
  | condvarBroadcast cond =>
    have hp₀ : Placed (({ s with stack := ops } : State).log (.broadcasted cond s.currentThread))
        none := ⟨hp.rep, hp.agrees, hp.standing⟩
    obtain ⟨s', hrun', hw, hp'⟩ := condvarBroadcastLoop_spec (c := cond) hp₀
      (fun x hx he ↦ hfree _ (by rwa [he] at hx))
      (show _ < walkLimit + 1 from Nat.lt_succ_of_le (hp.length_le _))
    have hs := hw.steady
    have hu := hw.untouched hp₀
    have hwakes : Wakes { s with stack := ops }
        (fun v ↦ Sync.wakeAll (.condvar cond) (v.logged (.broadcasted cond s.currentThread))) s' :=
      ⟨⟨hs.current, hs.idle, hs.esp, hs.stack, hs.threads, hs.alive, hs.fifo⟩, hp',
        hw.status (hfree _), hw.sync⟩
    exact ⟨s', hrun', hwakes.acts ⟨hu.zombies, hu.allocated, hu.life⟩ h
      (fun v t r ↦ Sync.blind_wakeAll _ (v.logged (.broadcasted cond s.currentThread)) t r) rfl rfl
      fun v ↦ rfl⟩
  | tryTest mutex =>
    refine ⟨_, rfl, h.acts
      (L := (if s.holder mutex = some s.currentThread then .tryIncrement mutex else .tryDown mutex) ::
        ops) rfl rfl rfl rfl rfl rfl ⟨hp.rep, hp.agrees, hp.standing⟩ id rfl rfl ?_ rfl⟩
    ext1 <;> try rfl
    simp only [Sync.exec, Sync.push, Sync.setTask, Function.update_self, Function.update_idem]
    rfl
  | tryDown mutex =>
    unfold exec semaphoreTryDown
    by_cases hn : s.count (.ofMutex mutex) > 0
    · simp only [if_pos hn]
      have hn' : (s.sync.setTask s.currentThread ops).count (.ofMutex mutex) > 0 := hn
      refine ⟨_, rfl, h.acts (L := .trySetHolder mutex :: .trySetCount mutex :: ops)
        rfl rfl rfl rfl rfl rfl ⟨hp.rep, hp.agrees, hp.standing⟩ id ?_ rfl ?_ rfl⟩
      · simp [State.leaves, hn, State.push, State.log]
      · simp only [Sync.exec, if_pos hn']
        ext1 <;> try rfl
        simp [Sync.push, Sync.setTask, Sync.logged, Sync.setCount]
    · simp only [if_neg hn]
      have hn' : ¬ (s.sync.setTask s.currentThread ops).count (.ofMutex mutex) > 0 := hn
      refine ⟨_, rfl, h.acts (L := ops) rfl rfl rfl rfl rfl rfl hp id ?_ rfl ?_ rfl⟩
      · simp [State.leaves, hn]
      · simp only [Sync.exec, if_neg hn']
        rfl
  | sleepStatus =>
    have hi := h.not_idle rfl
    have hb : s.status s.currentThread ≠ .blocked := by rw [h.running]; decide
    have hz : ∀ t, Function.update s.status s.currentThread .sleeping t = .zombie ↔
        s.status t = .zombie := zombies_update (by rw [h.running]; decide) (by decide)
    refine ⟨_, rfl, ⟨rfl, rfl, rfl, rfl, rfl, ⟨hp.rep, hp.agrees,
      h.placed.standing.leave hb hi (by decide) (by decide)⟩, hz, id, rfl, .inr (h.asleep rfl), rfl⟩,
      _, rfl, ?_⟩
    exact sync_eq (s := s) (L := ops) rfl rfl rfl rfl
  | cpuIdleLoop =>
    refine ⟨_, rfl, h.acts (L := .cpuIdleLoop :: ops) rfl rfl rfl rfl rfl rfl
      ⟨hp.rep, hp.agrees, hp.standing⟩ id rfl rfl ?_ rfl⟩
    ext1 <;> try rfl
    simp [Sync.exec, Sync.push, Sync.setTask]
  | threadExit | threadAlloc | internalThreadInit _ | addHeadPrev _ _ | addNodeNext _ _
  | addNodePrev _ _ | addHead _ _ => cases hcalm
  | heapEnd freed =>
    cases freed with
    | some x => cases hcalm
    | none =>
      exact ⟨_, rfl, h.acts (L := ops) rfl rfl rfl rfl rfl rfl ⟨hp.rep, hp.agrees, hp.standing⟩ id
        rfl rfl rfl rfl⟩
  | mutexAcquired _ _ | tryIncrement _ | trySetHolder _ | trySetCount _ | condvarReturn _ _
  | sleepWakeup _ | sleepReturn | heapStart =>
    exact ⟨_, rfl, h.acts (L := ops) rfl rfl rfl rfl rfl rfl ⟨hp.rep, hp.agrees, hp.standing⟩ id
      rfl rfl rfl rfl⟩

end

/-! ## Everyone else -/

/-- The list of all threads stays, and so does the status of those that are on no list. -/
structure Aside (s s' : State) : Prop where
  allThreads : s'.allThreads = s.allThreads
  status : ∀ t, t ≠ s.currentThread → homeOf s.trace t = none → s'.status t = s.status t

section

variable {s s' : State} {q : WaitQueue} {op : Op} {ops : List Op}

theorem Aside.refl (s : State) : Aside s s := ⟨rfl, fun _ _ _ ↦ rfl⟩

theorem Woke.aside (h : Woke q s s') (hp : Placed s none) : Aside s s' := by
  refine ⟨?_, fun t _ ht ↦ h.status (hp.not_mem ht _)⟩
  cases h <;> rfl

theorem WokeAll.allThreads (h : WokeAll q s s') : s'.allThreads = s.allThreads := by
  induction h with
  | nobody => rfl
  | first _ _ ih => exact ih

theorem WokeAll.aside (h : WokeAll q s s') (hp : Placed s none) : Aside s s' :=
  ⟨h.allThreads, fun _ _ ht ↦ h.status (hp.not_mem ht _)⟩

theorem semaphoreUp_aside {sem : SemRef} (h : Placed s none)
    (hc : s.currentThread ∉ listsOf s.trace (.waitQueue (.semaphore sem)))
    (hrun : semaphoreUp sem s = .ok s') : Aside s s' := by
  have hp : Placed ({ s with count := Function.update s.count sem (s.count sem + 1) }.log
      (.upped sem s.currentThread)) none := ⟨h.rep, h.agrees, h.standing⟩
  obtain ⟨s₁, hrun₁, hw, -⟩ := woke_spec (q := .semaphore sem) hp fun x hx he ↦ hc (by rwa [he] at hx)
  have hs : semaphoreUp sem s = .ok s₁ := hrun₁
  rw [hrun] at hs
  cases hs
  have ha := hw.aside hp
  exact ⟨ha.allThreads, ha.status⟩

theorem mutexRelease_aside {mutex : MutexRef} (h : Placed s none)
    (hc : ∀ sem, s.currentThread ∉ listsOf s.trace (.waitQueue (.semaphore sem)))
    (hrun : mutexRelease mutex s = .ok s') : Aside s s' := by
  rw [mutexRelease_eq (mutexRelease_holds hrun)] at hrun
  by_cases hz : s.recursionCount mutex - 1 = 0
  · rw [if_pos hz] at hrun
    have ha := semaphoreUp_aside (s := { s with
      recursionCount := Function.update s.recursionCount mutex (s.recursionCount mutex - 1)
      holder := Function.update s.holder mutex none
      trace := .released mutex s.currentThread :: s.trace }) ⟨h.rep, h.agrees, h.standing⟩ (hc _) hrun
    exact ⟨ha.allThreads, ha.status⟩
  · rw [if_neg hz] at hrun
    cases hrun
    exact ⟨rfl, fun _ _ _ ↦ rfl⟩

theorem semaphoreDown_aside (sem : SemRef) (s : State) : Aside s (semaphoreDown sem s) := by
  by_cases hn : s.count sem - 1 < 0
  · rw [semaphoreDown_blocks hn]
    exact ⟨rfl, fun t ht _ ↦ Function.update_of_ne ht _ _⟩
  · unfold semaphoreDown
    simp only [Function.update_self, if_neg hn]
    exact ⟨rfl, fun _ _ _ ↦ rfl⟩

theorem condvarWait_aside {cond : Nat} {mutex : MutexRef} (h : Comes s (.condvarWait cond mutex) ops)
    (hrun : condvarWait cond mutex { s with stack := ops } = .ok s') : Aside s s' := by
  have hb : s.status s.currentThread ≠ .blocked := by rw [h.running]; decide
  have hq := placed_enqueueCurrent (q := .condvar cond) h.placed hb (h.not_idle rfl)
  unfold condvarWait at hrun
  obtain ⟨s₁, hrel, hrun⟩ := bind_eq_ok.mp hrun
  have hs' : s₁.push [.threadYield, .interruptRestore s.interrupts, .mutexAcquire mutex,
      .condvarReturn cond mutex] = s' := Except.ok.inj hrun
  subst hs'
  have ha := mutexRelease_aside (s := { s with
    stack := ops
    status := Function.update s.status s.currentThread .blocked
    interrupts := false
    blockedOn := Function.update s.blockedOn s.currentThread (some (.condVar cond))
    blockerType := Function.update s.blockerType s.currentThread .condVar
    lists := waitQueueAppend (.waitQueue (.condvar cond)) s.currentThread s.lists
    trace := .waited cond mutex s.currentThread ::
      .added (.waitQueue (.condvar cond)) s.currentThread :: s.trace })
    ⟨hq.rep, hq.agrees, hq.standing⟩ (fun _ ↦ hq.not_queued) hrel
  refine ⟨ha.allThreads, fun t ht hn ↦ (ha.status t ht ?_).trans (Function.update_of_ne ht _ _)⟩
  show Function.update (homeOf s.trace) s.currentThread _ t = none
  rw [Function.update_of_ne ht]
  exact hn

theorem exec_aside (h : Comes s op ops) (hrun : exec op { s with stack := ops } = .ok s') :
    Aside s s' := by
  have hp := h.placed.restack ops
  have hfree := hp.free h.running
  have hcalm := h.calm
  have hskip := h.not_skip
  cases op with
  | semaphoreDown sem =>
    cases hrun
    have ha := semaphoreDown_aside sem { s with stack := ops }
    exact ⟨ha.allThreads, ha.status⟩
  | semaphoreTryDown sem =>
    cases hrun
    unfold semaphoreTryDown
    split
    · exact ⟨rfl, fun _ _ _ ↦ rfl⟩
    · exact ⟨rfl, fun _ _ _ ↦ rfl⟩
  | semaphoreUp sem =>
    have ha := semaphoreUp_aside hp (hfree _) hrun
    exact ⟨ha.allThreads, ha.status⟩
  | mutexAcquire mutex =>
    cases hrun
    unfold mutexAcquire
    split
    · exact ⟨rfl, fun _ _ _ ↦ rfl⟩
    · have ha := semaphoreDown_aside (.ofMutex mutex) { s with
        stack := .mutexAcquired mutex s.interrupts :: ops
        interrupts := false
        blockedOn := Function.update s.blockedOn s.currentThread (some (.mutex mutex))
        blockerType := Function.update s.blockerType s.currentThread .mutex }
      exact ⟨ha.allThreads, ha.status⟩
  | mutexRelease mutex =>
    have ha := mutexRelease_aside hp (fun _ ↦ hfree _) hrun
    exact ⟨ha.allThreads, ha.status⟩
  | condvarWait cond mutex => exact condvarWait_aside h hrun
  | condvarSignal cond =>
    have hp₀ : Placed (({ s with stack := ops } : State).log (.signalled cond s.currentThread))
        none := ⟨hp.rep, hp.agrees, hp.standing⟩
    obtain ⟨s₁, hrun₁, hw, -⟩ := woke_spec (q := .condvar cond) hp₀
      fun x hx he ↦ hfree _ (by rwa [he] at hx)
    have hs : condvarSignal cond { s with stack := ops } = .ok s₁ := hrun₁
    have hs' : condvarSignal cond { s with stack := ops } = .ok s' := hrun
    rw [hs'] at hs
    cases hs
    have ha := hw.aside hp₀
    exact ⟨ha.allThreads, ha.status⟩
  | condvarBroadcast cond =>
    have hp₀ : Placed (({ s with stack := ops } : State).log (.broadcasted cond s.currentThread))
        none := ⟨hp.rep, hp.agrees, hp.standing⟩
    obtain ⟨s₁, hrun₁, hw, -⟩ := condvarBroadcastLoop_spec (c := cond) hp₀
      (fun x hx he ↦ hfree _ (by rwa [he] at hx))
      (show _ < walkLimit + 1 from Nat.lt_succ_of_le (hp.length_le _))
    have hs : condvarBroadcast cond { s with stack := ops } = .ok s₁ := hrun₁
    have hs' : condvarBroadcast cond { s with stack := ops } = .ok s' := hrun
    rw [hs'] at hs
    cases hs
    have ha := hw.aside hp₀
    exact ⟨ha.allThreads, ha.status⟩
  | tryDown mutex =>
    unfold exec semaphoreTryDown at hrun
    by_cases hn : s.count (.ofMutex mutex) > 0
    · simp only [if_pos hn] at hrun
      cases hrun
      exact ⟨rfl, fun _ _ _ ↦ rfl⟩
    · simp only [if_neg hn] at hrun
      cases hrun
      exact ⟨rfl, fun _ _ _ ↦ rfl⟩
  | sleepStatus =>
    cases hrun
    exact ⟨rfl, fun t ht _ ↦ Function.update_of_ne ht _ _⟩
  | interruptRestore | iret | threadYield | cleanZombies => cases hskip
  | threadExit | threadAlloc | internalThreadInit _ | addHeadPrev _ _ | addNodeNext _ _
  | addNodePrev _ _ | addHead _ _ => cases hcalm
  | _ =>
    cases hrun
    exact ⟨rfl, fun _ _ _ ↦ rfl⟩

end

end AlienOS.Kernel
