import AlienOS.Kernel.State

/-!
# Machine — threads, interrupts and runs

One processor runs the operation on top of its stack; between two operations the timer interrupt may
arrive if the interrupt flag is set, and a thread with nothing left to run may make any call.
-/

open AlienOS.Lib

namespace AlienOS.Kernel

/-- What a thread can ask for. -/
inductive Call where
  | semaphoreDown (sem : Nat)
  | semaphoreTryDown (sem : Nat)
  | semaphoreUp (sem : Nat)
  | mutexAcquire (mutex : Nat)
  | mutexTryAcquire (mutex : Nat)
  | mutexRelease (mutex : Nat)
  | condvarWait (cond mutex : Nat)
  | condvarSignal (cond : Nat)
  | condvarBroadcast (cond : Nat)
  | threadYield
  | threadSleep (ticks : Word)
  /-- `kmalloc`, `kcalloc`, `krealloc` or `kfree` -/
  | heap
  | threadCreateArg
  | threadExit
  | cpuIdleLoop
  deriving DecidableEq, Repr

/-- A call to the heap from a thread, between `mutex_acquire` and `mutex_release`. -/
def heapOps : List Op :=
  [.mutexAcquire .freeListLock, .heapStart, .heapEnd none, .mutexRelease .freeListLock]

def threadListAddOps (list : Registry) (node : Tid) : List Op :=
  [.addHeadPrev list node, .addNodeNext list node, .addNodePrev list node, .addHead list node]

/-- `thread_create_arg` once the address of the new `thread_t` is known. -/
def threadInsertOps (thread : Tid) : List Op :=
  .internalThreadInit thread :: .mutexAcquire .allThreadsLock ::
    (threadListAddOps .allThreads thread ++ .mutexRelease .allThreadsLock ::
      .mutexAcquire .localThreadsLock ::
        (threadListAddOps .readyThreads thread ++ [.mutexRelease .localThreadsLock]))

def Call.ops : Call → List Op
  | .semaphoreDown n => [.semaphoreDown (.user n)]
  | .semaphoreTryDown n => [.semaphoreTryDown (.user n)]
  | .semaphoreUp n => [.semaphoreUp (.user n)]
  | .mutexAcquire n => [.mutexAcquire (.user n)]
  | .mutexTryAcquire n => [.tryTest (.user n)]
  | .mutexRelease n => [.mutexRelease (.user n)]
  | .condvarWait c n => [.condvarWait c (.user n)]
  | .condvarSignal c => [.condvarSignal c]
  | .condvarBroadcast c => [.condvarBroadcast c]
  | .threadYield => [.threadYield]
  | .threadSleep ticks => [.sleepWakeup ticks, .sleepStatus, .threadYield, .sleepReturn]
  | .heap => heapOps
  | .threadCreateArg => heapOps ++ heapOps ++ [.threadAlloc]
  | .threadExit => [.threadExit]
  | .cpuIdleLoop => [.cpuIdleLoop]

/-- A statement of `thread_list_add` on the list of an insertion. -/
def onRegistry (list : Registry) (ready : Links ListId Tid → Links ListId Tid)
    (all : Links Unit Tid → Links Unit Tid) (s : State) : State :=
  match list with
  | .readyThreads => { s with lists := ready s.lists }
  | .allThreads => { s with allThreads := all s.allThreads }

/-- Run an operation that has been taken off the stack. -/
def exec (op : Op) (s : State) : Except Halt State :=
  match op with
  | .interruptRestore enabled => .ok { s with interrupts := enabled }
  | .iret enabled => .ok { s with interrupts := enabled }
  | .threadYield => isrIRQ0 s
  | .cleanZombies zombie entered => cleanZombies zombie entered s
  | .semaphoreDown sem => .ok (semaphoreDown sem s)
  | .semaphoreTryDown sem => .ok (semaphoreTryDown sem s).2
  | .semaphoreUp sem => semaphoreUp sem s
  | .mutexAcquire mutex => .ok (mutexAcquire mutex s)
  | .mutexAcquired mutex interrupts => .ok (mutexAcquired mutex interrupts s)
  | .mutexRelease mutex => mutexRelease mutex s
  | .tryTest mutex =>
    .ok (s.push [if s.holder mutex = some s.currentThread then .tryIncrement mutex
      else .tryDown mutex])
  | .tryIncrement mutex => .ok ({ s with
      recursionCount := Function.update s.recursionCount mutex
        (s.recursionCount mutex + 1) }.log (.acquired mutex s.currentThread))
  | .tryDown mutex =>
    .ok (match semaphoreTryDown (.ofMutex mutex) s with
      | (true, s) => s.push [.trySetHolder mutex, .trySetCount mutex]
      | (false, s) => s)
  | .trySetHolder mutex =>
    .ok { s with holder := Function.update s.holder mutex (some s.currentThread) }
  | .trySetCount mutex => .ok ({ s with
      recursionCount := Function.update s.recursionCount mutex 1 }.log
        (.acquired mutex s.currentThread))
  | .condvarWait cond mutex => condvarWait cond mutex s
  | .condvarReturn cond mutex => .ok (s.log (.returned cond mutex s.currentThread))
  | .condvarSignal cond => condvarSignal cond s
  | .condvarBroadcast cond => condvarBroadcast cond s
  | .sleepWakeup ticks => .ok { s with
      wakeupTicks := Function.update s.wakeupTicks s.currentThread (s.timerTicks + ticks) }
  | .sleepStatus =>
    .ok ((s.setStatus s.currentThread .sleeping).log (.slept s.currentThread))
  | .sleepReturn => .ok (s.log (.woke s.currentThread))
  | .heapStart => .ok (s.log (.heapStarted s.currentThread))
  | .heapEnd freed => .ok ({ s with
      allocated := freed.elim s.allocated fun t ↦ Function.update s.allocated t false }.log
        (.heapEnded s.currentThread))
  | .threadExit => threadExit s
  | .cpuIdleLoop =>
    -- `sti; hlt; cli` and a yield: `hlt` only waits for an interrupt
    .ok (s.push [.interruptRestore true, .interruptRestore false, .threadYield, .cpuIdleLoop])
  | .threadAlloc => .ok s
  | .internalThreadInit thread => internalThreadInit thread s
  | .addHeadPrev list node =>
    .ok (onRegistry list (addHeadPrev .readyThreads node) (addHeadPrev () node) s)
  | .addNodeNext list node =>
    .ok (onRegistry list (addNodeNext .readyThreads node) (addNodeNext () node) s)
  | .addNodePrev list node => .ok (onRegistry list (addNodePrev node) (addNodePrev node) s)
  | .addHead list node =>
    let s := onRegistry list (addHead .readyThreads node) (addHead () node) s
    .ok (match list with
      | .readyThreads => (s.log (.created node)).log (.added .readyThreads node)
      | .allThreads => s)

inductive Action where
  /-- the timer interrupt arrives -/
  | interrupt
  /-- the current thread, with nothing left to run, makes a call -/
  | call (c : Call)
  /-- the next operation runs -/
  | exec
  /-- the heap answers `kcalloc (1, sizeof (thread_t))` with `t` -/
  | alloc (t : Tid)
  deriving DecidableEq, Repr

def Enabled (s : State) : Action → Prop
  | .interrupt => s.interrupts = true
  | .call _ => s.stack = [] ∧ s.currentThread ≠ s.idleThread
  | .exec => s.stack ≠ [] ∧ s.stack.head? ≠ some .threadAlloc
  | .alloc t => s.stack.head? = some .threadAlloc ∧ s.allocated t = false ∧ t ≠ s.idleThread

instance (s : State) (a : Action) : Decidable (Enabled s a) := by
  cases a <;> simp only [Enabled] <;> infer_instance

def next (s : State) : Action → Except Halt State
  | .interrupt => isrIRQ0 s
  | .call c => .ok (s.push c.ops)
  | .exec =>
    match s.stack with
    | [] => .ok s
    | op :: rest => exec op { s with stack := rest }
  | .alloc t =>
    .ok ({ s with
      stack := s.stack.tail
      allocated := Function.update s.allocated t true }.push (threadInsertOps t))

/-- The states reached by steps that each meet `ok`. -/
inductive Run (ok : State → Action → Prop) (s₀ : State) : State → Prop where
  | start : Run ok s₀ s₀
  | step {s s' : State} {a : Action} (h : Run ok s₀ s) (hok : ok s a) (he : Enabled s a)
      (hs : next s a = .ok s') : Run ok s₀ s'

/-- What holds at the start and is kept by every admitted step holds throughout. -/
theorem Run.invariant {ok : State → Action → Prop} {I : State → Prop} {s₀ s : State}
    (h : Run ok s₀ s) (h₀ : I s₀)
    (hstep : ∀ s a s', I s → ok s a → Enabled s a → next s a = .ok s' → I s') : I s := by
  induction h with
  | start => exact h₀
  | step _ hok he hs ih => exact hstep _ _ _ ih hok he hs

theorem Run.mono {ok ok' : State → Action → Prop} {s₀ s : State} (h : Run ok s₀ s)
    (hok : ∀ s a, ok s a → ok' s a) : Run ok' s₀ s := by
  induction h with
  | start => exact .start
  | step _ h he hs ih => exact .step ih (hok _ _ h) he hs

/-- Take the actions one after the other, as long as they are enabled. -/
def walk : List Action → State → Option State
  | [], s => some s
  | a :: as, s =>
    if Enabled s a then
      match next s a with
      | .ok s' => walk as s'
      | .error _ => none
    else none

theorem Run.walk {ok : State → Action → Prop} {as : List Action} : ∀ {s₀ s s' : State},
    Run ok s₀ s → (∀ a ∈ as, ∀ s, ok s a) → Kernel.walk as s = some s' → Run ok s₀ s' := by
  induction as with
  | nil =>
    intro s₀ s s' hr _ hw
    cases hw
    exact hr
  | cons a as ih =>
    intro s₀ s s' hr hok hw
    unfold Kernel.walk at hw
    split at hw
    · rename_i he
      cases hs : next s a with
      | error e =>
        rw [hs] at hw
        cases hw
      | ok s₁ =>
        rw [hs] at hw
        exact ih (.step hr (hok a List.mem_cons_self s) he hs)
          (fun b hb ↦ hok b (List.mem_cons_of_mem _ hb)) hw
    · cases hw

/-! ## The kernel once it is up -/

/-- Put threads on `ready_threads` in the order of the list, with nothing run yet. -/
def bootThreads : List Tid → State → State
  | [], s => s
  | t :: ts, s => bootThreads ts { s with
      nextTid := s.nextTid + 1
      esp := Function.update s.esp t [.iret true]
      lists := threadListAdd .readyThreads t s.lists
      allThreads := threadListAdd () t s.allThreads
      allocated := Function.update s.allocated t true
      trace := .added .readyThreads t :: .created t :: s.trace }

/-- The state after `thread_main_init`: `main` runs, the idle thread waits in its loop. -/
def mainInit (idle main : Tid) (count : Nat → Nat) : State where
  timerTicks := 0
  currentThread := main
  idleThread := idle
  status := Function.update (fun _ ↦ .ready) main .running
  wakeupTicks _ := 0
  blockerType _ := .none
  blockedOn _ := none
  esp := Function.update (fun _ ↦ []) idle [.iret true, .cpuIdleLoop]
  lists := ⟨fun _ ↦ none, fun _ ↦ none, fun _ ↦ none, fun _ ↦ none⟩
  allThreads := threadListAdd () idle (threadListAdd () main
    ⟨fun _ ↦ none, fun _ ↦ none, fun _ ↦ none, fun _ ↦ none⟩)
  nextTid := 2
  allocated := Function.update (fun _ ↦ false) main true
  count
    | .user n => count n
    | .ofMutex _ => 1
  holder _ := none
  recursionCount _ := 0
  interrupts := true
  stack := []
  trace := [.created main]

/-- Any threads besides, and semaphores with any counts. -/
def boot (idle main : Tid) (threads : List Tid) (count : Nat → Nat) : State :=
  bootThreads threads (mainInit idle main count)

end AlienOS.Kernel
