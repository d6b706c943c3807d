import AlienOS.Kernel.Machine

/-!
# ProducerConsumer — the two threads of `test_condvar_producer_consumer`

A thread of the test runs one statement at a time, whenever it has the processor and is not inside
the kernel; between two statements and inside the kernel the machine goes on as ever.
-/

open AlienOS.Lib

namespace AlienOS.Test

open AlienOS.Kernel

/-- `TEST_CONDVAR_BUFFER_SIZE` -/
def bufferSize : Word := 8

/-- The constant fields of `struct test_condvar` and the semaphore `done`, as the numbers of the
kernel objects. -/
structure TestCondvar where
  kNumIterations : Word
  lock : Nat
  notFull : Nat
  notEmpty : Nat
  done : Nat

/-- Its other fields. -/
structure Ring where
  buffer : Nat → Word
  head : Word
  tail : Word
  size : Word

/-- The statements of the two loops. -/
inductive Pc where
  /-- `i <= data->kNumIterations` -/
  | test
  | acquire
  /-- the condition of the inner `while` -/
  | check
  | wait
  /-- the access to `data->buffer` -/
  | item
  | advance
  /-- `data->size++` or `data->size--` reads -/
  | load
  /-- and writes -/
  | count
  /-- the consumer's `kernel_assert` -/
  | verify
  | signal
  | release
  /-- the producer's `thread_yield` -/
  | yield
  /-- `i++` -/
  | next
  /-- `semaphore_up (&done)` -/
  | post
  | finished
  deriving DecidableEq, Repr

/-- The statements outside the lock and those inside it. -/
def Pc.IsOutside : Pc → Bool
  | .test | .acquire | .yield | .next | .post => true
  | _ => false

def Pc.IsInside : Pc → Bool
  | .check | .wait | .item | .advance | .load | .count | .verify | .signal | .release => true
  | _ => false

/-- What a thread keeps on its stack. -/
structure Local where
  pc : Pc
  i : Word
  val : Word
  /-- what it has read of `data->size` -/
  size : Word

structure World where
  state : State
  ring : Ring
  producer : Local
  consumer : Local
  /-- history: the values put into the buffer and taken out of it, oldest first -/
  produced : List Word
  consumed : List Word

namespace World

def producerAt (w : World) (pc : Pc) : World := { w with producer := { w.producer with pc } }

def consumerAt (w : World) (pc : Pc) : World := { w with consumer := { w.consumer with pc } }

/-- The current thread enters the kernel. -/
def call (w : World) (c : Call) : World := { w with state := w.state.push c.ops }

def setRing (w : World) (ring : Ring) : World := { w with ring }

end World

/-- A statement of `test_condvar_producer`. -/
def testCondvarProducer (data : TestCondvar) (w : World) : World :=
  let i := w.producer.i
  let ring := w.ring
  match w.producer.pc with
  | .test => w.producerAt (if i ≤ data.kNumIterations then .acquire else .post)
  | .acquire => (w.call (.mutexAcquire data.lock)).producerAt .check
  | .check => w.producerAt (if ring.size = bufferSize then .wait else .item)
  | .wait => (w.call (.condvarWait data.notFull data.lock)).producerAt .check
  | .item =>
    ({ w with produced := w.produced ++ [i] }.setRing
      { ring with buffer := Function.update ring.buffer ring.head.toNat i }).producerAt .advance
  | .advance =>
    (w.setRing { ring with head := (ring.head + 1) % bufferSize }).producerAt .load
  | .load => { w with producer := { w.producer with pc := .count, size := ring.size } }
  | .count => (w.setRing { ring with size := w.producer.size + 1 }).producerAt .signal
  | .signal => (w.call (.condvarSignal data.notEmpty)).producerAt .release
  | .release => (w.call (.mutexRelease data.lock)).producerAt .yield
  | .yield => (w.call .threadYield).producerAt .next
  | .next => { w with producer := { w.producer with pc := .test, i := i + 1 } }
  | .post => (w.call (.semaphoreUp data.done)).producerAt .finished
  | .verify | .finished => w

/-- A statement of `test_condvar_consumer`. -/
def testCondvarConsumer (data : TestCondvar) (w : World) : Except Halt World := do
  let i := w.consumer.i
  let ring := w.ring
  match w.consumer.pc with
  | .test => .ok (w.consumerAt (if i ≤ data.kNumIterations then .acquire else .post))
  | .acquire => .ok ((w.call (.mutexAcquire data.lock)).consumerAt .check)
  | .check => .ok (w.consumerAt (if ring.size = 0 then .wait else .item))
  | .wait => .ok ((w.call (.condvarWait data.notEmpty data.lock)).consumerAt .check)
  | .item =>
    let val := ring.buffer ring.tail.toNat
    .ok { w with
      consumer := { w.consumer with pc := .advance, val }
      consumed := w.consumed ++ [val] }
  | .advance =>
    .ok ((w.setRing { ring with tail := (ring.tail + 1) % bufferSize }).consumerAt .load)
  | .load => .ok { w with consumer := { w.consumer with pc := .count, size := ring.size } }
  | .count => .ok ((w.setRing { ring with size := w.consumer.size - 1 }).consumerAt .verify)
  | .verify =>
    kernelAssert (w.consumer.val == i) "Failed: consumer expected to receive %u but got %u"
    .ok (w.consumerAt .signal)
  | .signal => .ok ((w.call (.condvarSignal data.notFull)).consumerAt .release)
  | .release => .ok ((w.call (.mutexRelease data.lock)).consumerAt .next)
  | .next => .ok { w with consumer := { w.consumer with pc := .test, i := i + 1 } }
  | .post => .ok ((w.call (.semaphoreUp data.done)).consumerAt .finished)
  | .yield | .finished => .ok w

inductive Move where
  /-- the machine takes a step that is not a statement of the two -/
  | machine (a : Action)
  /-- the producer or the consumer runs a statement -/
  | statement
  deriving DecidableEq, Repr

/-- A call of another thread, or of one that is done, leaves the lock and the condition variables of
the test alone. -/
def Spares (data : TestCondvar) : Call → Prop
  | .mutexAcquire m | .mutexTryAcquire m | .mutexRelease m => m ≠ data.lock
  | .condvarWait c m => m ≠ data.lock ∧ c ≠ data.notFull ∧ c ≠ data.notEmpty
  | .condvarSignal c | .condvarBroadcast c => c ≠ data.notFull ∧ c ≠ data.notEmpty
  | .threadExit | .threadCreateArg => False
  | _ => True

/-- The two threads that run the loops. -/
structure Pair where
  producer : Tid
  consumer : Tid

namespace World

def next (data : TestCondvar) (pair : Pair) (w : World) : Move → Except Halt World
  | .machine a => do
    let state ← Kernel.next w.state a
    .ok { w with state }
  | .statement =>
    if w.state.currentThread = pair.producer then .ok (testCondvarProducer data w)
    else testCondvarConsumer data w

def Enabled (data : TestCondvar) (pair : Pair) (w : World) : Move → Prop
  | .machine a => Kernel.Enabled w.state a ∧ ∀ c, a = .call c → Spares data c ∧
    (w.state.currentThread = pair.producer → w.producer.pc = .finished) ∧
    (w.state.currentThread = pair.consumer → w.consumer.pc = .finished)
  | .statement => w.state.stack = [] ∧
    (w.state.currentThread = pair.producer ∧ w.producer.pc ≠ .finished ∨
      w.state.currentThread = pair.consumer ∧ w.consumer.pc ≠ .finished)

/-- `test_condvar_producer_consumer` once both threads exist. -/
def start (idle main : Tid) (threads : List Tid) (count : Nat → Nat) : World where
  state := boot idle main threads count
  ring := ⟨fun _ ↦ 0, 0, 0, 0⟩
  producer := ⟨.test, 1, 0, 0⟩
  consumer := ⟨.test, 1, 0, 0⟩
  produced := []
  consumed := []

/-- The states the two threads and all others can lead to. -/
inductive Reachable (data : TestCondvar) (pair : Pair) (w₀ : World) : World → Prop where
  | start : Reachable data pair w₀ w₀
  | step {w w' : World} {m : Move} (h : Reachable data pair w₀ w) (he : w.Enabled data pair m)
    (hs : w.next data pair m = .ok w') : Reachable data pair w₀ w'

end World

end AlienOS.Test
