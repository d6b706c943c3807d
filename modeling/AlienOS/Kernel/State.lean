import AlienOS.Kernel.ThreadList

/-!
# State — the variables of `thread.c` and `synch.c`

A thread's kernel stack is what it still has to run: the operations between two points at which an
interrupt can arrive or the processor can be given away.  Code that runs from `cli` to the matching
`sti` without a yield is one operation.
-/

open AlienOS.Lib

namespace AlienOS.Kernel

/-- The address of a `thread_t`, standing for the thread and for both of its list nodes. -/
abbrev Tid := Word

instance : LawfulBEq Tid := inferInstance

inductive ThreadStatus where
  | ready | running | blocked | sleeping | zombie
  deriving DecidableEq, Repr

inductive BlockerType where
  | none | mutex | semaphore | condVar
  deriving DecidableEq, Repr

/-- The three locks of the kernel itself, and the mutexes of its users. -/
inductive MutexRef where
  | freeListLock | allThreadsLock | localThreadsLock
  | user (n : Nat)
  deriving DecidableEq, Repr

/-- A semaphore of its own, or `mutex->sem`. -/
inductive SemRef where
  | user (n : Nat)
  | ofMutex (mutex : MutexRef)
  deriving DecidableEq, Repr

inductive WaitQueue where
  | semaphore (sem : SemRef)
  | condvar (cond : Nat)
  deriving DecidableEq, Repr

/-- What `blocked_on` points to. -/
inductive Blocker where
  | mutex (mutex : MutexRef)
  | semaphore (sem : SemRef)
  | condVar (cond : Nat)
  deriving DecidableEq, Repr

/-- The lists that a `local_list` node can be on. -/
inductive ListId where
  | readyThreads | sleepingThreads | zombieThreads
  | waitQueue (queue : WaitQueue)
  deriving DecidableEq, Repr

/-- The status of the threads on a list. -/
def ListId.status : ListId → ThreadStatus
  | .readyThreads => .ready
  | .sleepingThreads => .sleeping
  | .zombieThreads => .zombie
  | .waitQueue _ => .blocked

/-- Wait queues keep a tail. -/
def ListId.Tailed : ListId → Prop
  | .waitQueue _ => True
  | _ => False

/-- The list an insertion of `thread_create_arg` is about. -/
inductive Registry where
  | allThreads | readyThreads
  deriving DecidableEq, Repr

inductive Op where
  /-- `interrupt_restore (enabled)`: `sti` or `cli` -/
  | interruptRestore (enabled : Bool)
  /-- the end of `isr_IRQ0`, which pops EFLAGS -/
  | iret (enabled : Bool)
  /-- `int $0x20` -/
  | threadYield
  /-- the loop of `clean_zombies` at `zombie` and the rest of `scheduler_next`; `entered` is the
  status the interrupted thread had on entry, which the code does not store -/
  | cleanZombies (zombie : Option Tid) (entered : ThreadStatus)
  | semaphoreDown (sem : SemRef)
  | semaphoreTryDown (sem : SemRef)
  | semaphoreUp (sem : SemRef)
  | mutexAcquire (mutex : MutexRef)
  /-- `mutex_acquire` after its `semaphore_down` -/
  | mutexAcquired (mutex : MutexRef) (interrupts : Bool)
  | mutexRelease (mutex : MutexRef)
  /-- the statements of `mutex_try_acquire` -/
  | tryTest (mutex : MutexRef)
  | tryIncrement (mutex : MutexRef)
  | tryDown (mutex : MutexRef)
  | trySetHolder (mutex : MutexRef)
  | trySetCount (mutex : MutexRef)
  | condvarWait (cond : Nat) (mutex : MutexRef)
  /-- the return from `condvar_wait` -/
  | condvarReturn (cond : Nat) (mutex : MutexRef)
  | condvarSignal (cond : Nat)
  | condvarBroadcast (cond : Nat)
  /-- the statements of `thread_sleep` -/
  | sleepWakeup (ticks : Word)
  | sleepStatus
  | sleepReturn
  /-- the start of an `_unsafe` body of the heap -/
  | heapStart
  /-- its end; `freed` is the `thread_t` it gave back, if it was one -/
  | heapEnd (freed : Option Tid)
  | threadExit
  | cpuIdleLoop
  /-- `kcalloc (1, sizeof (thread_t))` returns -/
  | threadAlloc
  | internalThreadInit (thread : Tid)
  /-- the statements of `thread_list_add` in `thread_create_arg` -/
  | addHeadPrev (list : Registry) (node : Tid)
  | addNodeNext (list : Registry) (node : Tid)
  | addNodePrev (list : Registry) (node : Tid)
  | addHead (list : Registry) (node : Tid)
  deriving DecidableEq, Repr

/-- What a run did, for statements about its history. -/
inductive Event where
  | added (list : ListId) (t : Tid)
  | removed (list : ListId) (t : Tid)
  | created (t : Tid)
  | exited (t : Tid)
  | reaped (t : Tid)
  | slept (t : Tid)
  | woke (t : Tid)
  /-- a down that went through at once -/
  | granted (sem : SemRef) (t : Tid)
  | upped (sem : SemRef) (t : Tid)
  | acquired (mutex : MutexRef) (t : Tid)
  | released (mutex : MutexRef) (t : Tid)
  | waited (cond : Nat) (mutex : MutexRef) (t : Tid)
  | signalled (cond : Nat) (t : Tid)
  | broadcasted (cond : Nat) (t : Tid)
  | returned (cond : Nat) (mutex : MutexRef) (t : Tid)
  | heapStarted (t : Tid)
  | heapEnded (t : Tid)
  deriving DecidableEq, Repr

structure State where
  timerTicks : Word
  currentThread : Tid
  idleThread : Tid
  status : Tid → ThreadStatus
  wakeupTicks : Tid → Word
  blockerType : Tid → BlockerType
  blockedOn : Tid → Option Blocker
  /-- the stack contents at the saved stack pointer -/
  esp : Tid → List Op
  /-- the nodes `local_list` and the lists they are on -/
  lists : Links ListId Tid
  /-- the nodes `all_list` -/
  allThreads : Links Unit Tid
  nextTid : Word
  /-- the addresses at which the heap holds a `thread_t` -/
  allocated : Tid → Bool
  count : SemRef → Int
  holder : MutexRef → Option Tid
  recursionCount : MutexRef → Word
  /-- the interrupt flag -/
  interrupts : Bool
  /-- the stack of the processor -/
  stack : List Op
  /-- history, latest event first -/
  trace : List Event

namespace State

def push (s : State) (ops : List Op) : State := { s with stack := ops ++ s.stack }

def log (s : State) (e : Event) : State := { s with trace := e :: s.trace }

def setStatus (s : State) (t : Tid) (status : ThreadStatus) : State :=
  { s with status := Function.update s.status t status }

/-- What `t` still has to run. -/
def stackOf (s : State) (t : Tid) : List Op := if t = s.currentThread then s.stack else s.esp t

end State

/-! ## `thread.c` with interrupts disabled -/

def threadUnblock (thread : Tid) (s : State) : Except Halt State := do
  kernelAssert (s.status thread == .blocked)
    "thread_unblock(): Expect thread to be blocked on entry"
  .ok { s with
    status := Function.update s.status thread .ready
    blockedOn := Function.update s.blockedOn thread none
    blockerType := Function.update s.blockerType thread .none
    lists := threadListAdd .readyThreads thread s.lists
    trace := .added .readyThreads thread :: s.trace }

/-- The loop of `thread_timer_tick`. -/
def threadTimerTickLoop : Nat → Option Tid → State → Except Halt State
  | _, none, s => .ok s
  | 0, some _, _ => .error .spin
  | fuel + 1, some thread, s => do
    let sleeping := s.lists.next thread
    kernelAssert (s.status thread == .sleeping)
      "thread_timer_tick(): Expected sleeping thread to have correct status"
    if s.wakeupTicks thread ≤ s.timerTicks then
      let lists ← threadListRemove .sleepingThreads thread s.lists
      threadTimerTickLoop fuel sleeping { s with
        status := Function.update s.status thread .ready
        lists := threadListAdd .readyThreads thread lists
        trace := .added .readyThreads thread :: .removed .sleepingThreads thread :: s.trace }
    else threadTimerTickLoop fuel sleeping s

def threadTimerTick (s : State) : Except Halt State :=
  threadTimerTickLoop walkLimit (s.lists.head .sleepingThreads) s

/-- `isr_IRQ0` up to the loop of `clean_zombies`. -/
def isrIRQ0 (s : State) : Except Halt State := do
  let entered := s.status s.currentThread
  let s := s.push [.iret s.interrupts]
  let s ← threadTimerTick { s with interrupts := false, timerTicks := s.timerTicks + 1 }
  let s := { s with esp := Function.update s.esp s.currentThread s.stack }
  .ok (s.push [.cleanZombies (s.lists.head .zombieThreads) entered])

/-- The `while` loop of `find_ready_thread`. -/
def lastReady (l : Links ListId Tid) : Nat → Tid → Except Halt Tid
  | 0, _ => .error .spin
  | fuel + 1, ready =>
    match l.next ready with
    | none => .ok ready
    | some next => do
      kernelAssert (l.prev next == some ready) "find_ready_thread(): linked list broken"
      lastReady l fuel next

/-- `find_ready_thread` after `clean_zombies`. -/
def findReadyThread (s : State) : Except Halt (Tid × State) :=
  match s.lists.head .readyThreads with
  | none => .ok (if s.status s.currentThread = .running then s.currentThread else s.idleThread, s)
  | some head => do
    let ready ← lastReady s.lists walkLimit head
    let lists ← threadListRemove .readyThreads ready s.lists
    .ok (ready, { s with lists, trace := .removed .readyThreads ready :: s.trace })

/-- The `switch` of `schedule` on the status of the thread that is switched out. -/
def fileOldThread (old : Tid) (s : State) : Except Halt State :=
  let file (list : ListId) (s : State) : State :=
    { s with lists := threadListAdd list old s.lists, trace := .added list old :: s.trace }
  match s.status old with
  | .running => .ok (file .readyThreads (s.setStatus old .ready))
  | .sleeping => .ok (file .sleepingThreads s)
  | .zombie => .ok (file .zombieThreads s)
  | .blocked => .ok s
  | .ready => .error (.panic "schedule(): TODO: thread %u (status=%u)")

/-- The thread switched out; the idle thread goes on no list. -/
def switchOut (s : State) : Except Halt State :=
  if s.currentThread = s.idleThread then .ok (s.setStatus s.currentThread .ready)
  else fileOldThread s.currentThread s

def schedule (next : Tid) (s : State) : Except Halt State := do
  if s.currentThread = next then
    kernelAssert (s.status s.currentThread == .running)
      "schedule(): Expect current thread to be running if we switch back"
    .ok s
  else
    let s ← switchOut s
    kernelAssert (s.status next == .ready)
      "schedule(): Expected next thread (%u) to be in ready state (%u)"
    .ok { s.setStatus next .running with currentThread := next }

/-- `kfree`, as the steps its lock allows an interrupt between. -/
def kfreeOps (freed : Option Tid) : List Op :=
  [.mutexAcquire .freeListLock, .heapStart, .heapEnd freed, .mutexRelease .freeListLock]

/-- One round of `clean_zombies`; after the last, the rest of `scheduler_next` and the load of the
stack pointer of whoever is then current. -/
def cleanZombies (zombie : Option Tid) (entered : ThreadStatus) (s : State) :
    Except Halt State :=
  match zombie with
  | none => do
    let (next, s) ← findReadyThread s
    let s ← schedule next s
    .ok { s with stack := s.esp s.currentThread }
  | some thread => do
    let zombie := s.lists.next thread
    kernelAssert (s.status thread == .zombie)
      "clean_zombies(): Expected thread in zombie list to be a zombie thread"
    kernelAssert (thread != s.idleThread)
      "clean_zombies(): trying to deallocate the idle thread"
    let s := s.push [.cleanZombies zombie entered]
    if thread ≠ s.currentThread then
      let lists ← threadListRemove .zombieThreads thread s.lists
      let allThreads ← threadListRemove () thread s.allThreads
      .ok ({ s with
        lists, allThreads
        trace := .reaped thread :: .removed .zombieThreads thread :: s.trace }.push
          (kfreeOps none ++ kfreeOps (some thread)))
    else .ok s

def threadExit (s : State) : Except Halt State := do
  kernelAssert (s.currentThread != s.idleThread) "thread_exit: idle thread exiting"
  .ok (({ s.setStatus s.currentThread .zombie with interrupts := false }.log
    (.exited s.currentThread)).push [.threadYield, .cpuIdleLoop])

def internalThreadInit (thread : Tid) (s : State) : Except Halt State := do
  kernelAssert (s.nextTid != 0) "internal_thread_init(): detected tid overflow"
  .ok { s with
    nextTid := s.nextTid + 1
    esp := Function.update s.esp thread [.iret true]
    status := Function.update s.status thread .ready
    wakeupTicks := Function.update s.wakeupTicks thread 0
    blockedOn := Function.update s.blockedOn thread none
    blockerType := Function.update s.blockerType thread .none
    allThreads := (s.allThreads.setNext thread none).setPrev thread none
    lists := (s.lists.setNext thread none).setPrev thread none }

/-! ## `synch.c` -/

/-- Pop a wait queue and unblock what came off. -/
def wakeFirst (queue : WaitQueue) (s : State) : Except Halt State := do
  let (thread, lists) ← waitQueuePopfront (.waitQueue queue) s.lists
  threadUnblock thread { s with lists, trace := .removed (.waitQueue queue) thread :: s.trace }

/-- Put the current thread on a wait queue. -/
def enqueueCurrent (queue : WaitQueue) (s : State) : State :=
  { s with
    lists := waitQueueAppend (.waitQueue queue) s.currentThread s.lists
    trace := .added (.waitQueue queue) s.currentThread :: s.trace }

def semaphoreDown (sem : SemRef) (s : State) : State :=
  let s := { s with count := Function.update s.count sem (s.count sem - 1) }
  if s.count sem < 0 then
    let interrupts := s.interrupts
    let current := s.currentThread
    let s := { s.setStatus current .blocked with interrupts := false }
    let s := if s.blockerType current = BlockerType.none then
      { s with
        blockedOn := Function.update s.blockedOn current (some (.semaphore sem))
        blockerType := Function.update s.blockerType current .semaphore }
      else s
    (enqueueCurrent (.semaphore sem) s).push [.threadYield, .interruptRestore interrupts]
  else s.log (.granted sem s.currentThread)

def semaphoreTryDown (sem : SemRef) (s : State) : Bool × State :=
  if s.count sem > 0 then
    (true, { s with count := Function.update s.count sem (s.count sem - 1) }.log
      (.granted sem s.currentThread))
  else (false, s)

def semaphoreUp (sem : SemRef) (s : State) : Except Halt State :=
  let s := { s with count := Function.update s.count sem (s.count sem + 1) }.log
    (.upped sem s.currentThread)
  match s.lists.head (.waitQueue (.semaphore sem)) with
  | some _ => wakeFirst (.semaphore sem) s
  | none => .ok s

def mutexAcquire (mutex : MutexRef) (s : State) : State :=
  if s.holder mutex = some s.currentThread then
    { s with
      recursionCount := Function.update s.recursionCount mutex (s.recursionCount mutex + 1) }.log
        (.acquired mutex s.currentThread)
  else
    let s := s.push [.mutexAcquired mutex s.interrupts]
    semaphoreDown (.ofMutex mutex) { s with
      interrupts := false
      blockedOn := Function.update s.blockedOn s.currentThread (some (.mutex mutex))
      blockerType := Function.update s.blockerType s.currentThread .mutex }

/-- The rest of `mutex_acquire` once `semaphore_down` has returned. -/
def mutexAcquired (mutex : MutexRef) (interrupts : Bool) (s : State) : State :=
  { s with
    holder := Function.update s.holder mutex (some s.currentThread)
    recursionCount := Function.update s.recursionCount mutex 1
    interrupts }.log (.acquired mutex s.currentThread)

def mutexRelease (mutex : MutexRef) (s : State) : Except Halt State := do
  kernelAssert (s.holder mutex == some s.currentThread)
    "mutex_release(): Owner thread must release the lock"
  let s := { s with
    recursionCount := Function.update s.recursionCount mutex (s.recursionCount mutex - 1) }
  kernelAssert (s.recursionCount mutex != ~~~0) "mutex_release(): Overflow"
  let s := s.log (.released mutex s.currentThread)
  if s.recursionCount mutex = 0 then
    semaphoreUp (.ofMutex mutex) { s with holder := Function.update s.holder mutex none }
  else .ok s

def condvarWait (cond : Nat) (mutex : MutexRef) (s : State) : Except Halt State := do
  let interrupts := s.interrupts
  let current := s.currentThread
  let s := { s.setStatus current .blocked with
    interrupts := false
    blockedOn := Function.update s.blockedOn current (some (.condVar cond))
    blockerType := Function.update s.blockerType current .condVar }
  let s := (enqueueCurrent (.condvar cond) s).log (.waited cond mutex current)
  let s ← mutexRelease mutex s
  .ok (s.push [.threadYield, .interruptRestore interrupts, .mutexAcquire mutex,
    .condvarReturn cond mutex])

def condvarSignal (cond : Nat) (s : State) : Except Halt State :=
  let s := s.log (.signalled cond s.currentThread)
  match s.lists.head (.waitQueue (.condvar cond)) with
  | some _ => wakeFirst (.condvar cond) s
  | none => .ok s

/-- The loop of `condvar_broadcast`. -/
def condvarBroadcastLoop (cond : Nat) : Nat → State → Except Halt State
  | 0, _ => .error .spin
  | fuel + 1, s =>
    match s.lists.head (.waitQueue (.condvar cond)) with
    | some _ => do
      let s ← wakeFirst (.condvar cond) s
      condvarBroadcastLoop cond fuel s
    | none => .ok s

def condvarBroadcast (cond : Nat) (s : State) : Except Halt State :=
  condvarBroadcastLoop cond (walkLimit + 1) (s.log (.broadcasted cond s.currentThread))

end AlienOS.Kernel
