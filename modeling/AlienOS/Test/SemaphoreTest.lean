import AlienOS.Test.Program

/-!
# SemaphoreTest — `test_semaphore_producer_consumer`

One thread writes into a variable what the other is to find there, and two semaphores keep them in
step.
-/

open AlienOS.Lib

namespace AlienOS.Test.SemaphoreTest

open AlienOS.Kernel Program

/-- The constant field of `struct test_semaphore`, and its semaphores and the semaphore `done` as the
numbers of the kernel objects. -/
structure TestSemaphore where
  kNumIterations : Word
  semaProduce : Nat
  semaConsume : Nat
  done : Nat
  ne : semaProduce ≠ semaConsume
  produce_ne : semaProduce ≠ done
  consume_ne : semaConsume ≠ done

/-- The statements of the two loops. -/
inductive Pc where
  /-- `i <= data->kNumIterations` -/
  | test
  | down
  /-- the access to `data->shared_value` -/
  | access
  | up
  /-- `i++` -/
  | next
  /-- `semaphore_up (&done)` -/
  | post
  | finished
  deriving DecidableEq, Repr

/-- What a thread keeps on its stack. -/
structure Local where
  pc : Pc
  i : Word
  /-- history: how often `i` has been counted up -/
  round : Nat

structure Data where
  sharedValue : Word
  thread : Tid → Local

/-- A statement of either loop: what becomes of the stack, and what it calls. -/
def loop (n : Word) (down up done : Nat) (l : Local) : Local × Option Call :=
  match l.pc with
  | .test => ({ l with pc := if l.i ≤ n then .down else .post }, none)
  | .down => ({ l with pc := .access }, some (.semaphoreDown down))
  | .access => ({ l with pc := .up }, none)
  | .up => ({ l with pc := .next }, some (.semaphoreUp up))
  | .next => ({ l with pc := .test, i := l.i + 1, round := l.round + 1 }, none)
  | .post => ({ l with pc := .finished }, some (.semaphoreUp done))
  | .finished => (l, none)

def testSemaphoreProducer (data : TestSemaphore) (t : Tid) (d : Data) : Data × Option Call :=
  let l := d.thread t
  let r := loop data.kNumIterations data.semaProduce data.semaConsume data.done l
  let sharedValue := if l.pc = .access then l.i else d.sharedValue
  (⟨sharedValue, Function.update d.thread t r.1⟩, r.2)

def testSemaphoreConsumer (data : TestSemaphore) (t : Tid) (d : Data) :
    Except Halt (Data × Option Call) := do
  let l := d.thread t
  kernelAssert (l.pc != .access || d.sharedValue == l.i)
    "Failed: consumer received incorrect value %u, expected %u"
  let r := loop data.kNumIterations data.semaConsume data.semaProduce data.done l
  .ok ({ d with thread := Function.update d.thread t r.1 }, r.2)

section

variable {data : TestSemaphore} {pair : Pair} {n : Word} {down up done : Nat} {l l' : Local}
  {t u : Tid} {d d' : Data} {c : Option Call}

theorem loop_quiet {k : Call} (h : loop n down up done l = (l', some k)) : k.Quiet := by
  unfold loop at h
  cases hpc : l.pc <;> simp only [hpc] at h <;> cases h <;> simp [Call.Quiet]

theorem testSemaphoreProducer_eq (h : testSemaphoreProducer data t d = (d', c)) :
    loop data.kNumIterations data.semaProduce data.semaConsume data.done (d.thread t) =
        (d'.thread t, c) ∧
      (∀ u, u ≠ t → d'.thread u = d.thread u) ∧
      d'.sharedValue = if (d.thread t).pc = .access then (d.thread t).i else d.sharedValue := by
  cases h
  refine ⟨?_, fun u hu ↦ Function.update_of_ne hu _ _, rfl⟩
  show _ = (Function.update d.thread t _ t, _)
  rw [Function.update_self]

theorem testSemaphoreConsumer_eq (h : testSemaphoreConsumer data t d = .ok (d', c)) :
    loop data.kNumIterations data.semaConsume data.semaProduce data.done (d.thread t) =
        (d'.thread t, c) ∧
      (∀ u, u ≠ t → d'.thread u = d.thread u) ∧ d'.sharedValue = d.sharedValue := by
  obtain ⟨_, _, h⟩ := bind_eq_ok.mp h
  cases h
  refine ⟨?_, fun u hu ↦ Function.update_of_ne hu _ _, rfl⟩
  show _ = (Function.update d.thread t _ t, _)
  rw [Function.update_self]

/-- The two threads. -/
def program (data : TestSemaphore) (pair : Pair) : Program Data where
  statement t d :=
    if t = pair.producer then .ok (testSemaphoreProducer data t d) else testSemaphoreConsumer data t d
  Done d t := t = pair.producer ∨ t = pair.consumer → (d.thread t).pc = .finished
  Owns c := c.OnSemaphore data.semaProduce ∨ c.OnSemaphore data.semaConsume
  quiet {t d d' c} h := by
    by_cases ht : t = pair.producer
    · rw [if_pos ht] at h
      exact loop_quiet (testSemaphoreProducer_eq (Except.ok.inj h)).1
    · rw [if_neg ht] at h
      exact loop_quiet (testSemaphoreConsumer_eq h).1

/-- Before anyone has run a statement. -/
def begin : Data := ⟨0, fun _ ↦ ⟨.test, 1, 0⟩⟩

/-! ## Calls -/

/-- The downs and the ups that a thread has called. -/
def Local.downs (l : Local) : Int :=
  l.round + if l.pc = .access ∨ l.pc = .up ∨ l.pc = .next then 1 else 0

def Local.ups (l : Local) : Int := l.round + if l.pc = .next then 1 else 0

/-- What a statement leaves to the kernel. -/
structure Turn (down up done : Nat) (l l' : Local) (ops : List Op) : Prop where
  downs : l'.downs = l.downs + dues down ops
  ups : l'.ups = l.ups - dues up ops
  tries : ∀ n, .semaphoreTryDown (.user n) ∉ ops
  waits : ∀ n, .semaphoreDown (.user n) ∈ ops → n = down ∧ l'.pc = .access
  posts : ∀ n, .semaphoreUp (.user n) ∈ ops → n = up ∧ l'.pc = .next ∨ n = done
  spots : ∀ op ∈ ops, ∀ q, op.Leads q → q = .semaphore (.user down) ∧ l'.pc = .access

theorem turn_none (h₁ : l'.downs = l.downs) (h₂ : l'.ups = l.ups) : Turn down up done l l' [] :=
  ⟨by simp [h₁], by simp [h₂], by simp, by simp, by simp, by simp⟩

theorem loop_turn (h₁ : down ≠ up) (h₂ : down ≠ done) (h₃ : up ≠ done)
    (h : loop n down up done l = (l', c)) : Turn down up done l l' (askedOps c) := by
  unfold loop at h
  cases hpc : l.pc with
  | test =>
    simp only [hpc] at h
    cases h
    apply turn_none
    · unfold Local.downs
      simp only [hpc]
      split <;> simp
    · unfold Local.ups
      simp only [hpc]
      split <;> simp
  | down =>
    simp only [hpc] at h
    cases h
    refine ⟨by simp [Local.downs, hpc], ?_, by simp, by simp, by simp, fun op ho q hq ↦ ?_⟩
    · rw [askedOps_down, dues_down_ne h₁]
      simp [Local.ups, hpc]
    · cases List.mem_singleton.mp ho
      exact ⟨leads_down hq, rfl⟩
  | access =>
    simp only [hpc] at h
    cases h
    exact turn_none (by simp [Local.downs, hpc]) (by simp [Local.ups, hpc])
  | up =>
    simp only [hpc] at h
    cases h
    refine ⟨?_, by simp [Local.ups, hpc], by simp, by simp, by simp, fun op ho q hq ↦ ?_⟩
    · rw [askedOps_up, dues_up_ne h₁.symm]
      simp [Local.downs, hpc]
    · cases List.mem_singleton.mp ho
      exact absurd hq not_leads_up
  | next =>
    simp only [hpc] at h
    cases h
    exact turn_none (by simp [Local.downs, hpc]) (by simp [Local.ups, hpc])
  | post =>
    simp only [hpc] at h
    cases h
    refine ⟨?_, ?_, by simp, by simp, by simp, fun op ho q hq ↦ ?_⟩
    · rw [askedOps_up, dues_up_ne h₂.symm]
      simp [Local.downs, hpc]
    · rw [askedOps_up, dues_up_ne h₃.symm]
      simp [Local.ups, hpc]
    · cases List.mem_singleton.mp ho
      exact absurd hq not_leads_up
  | finished =>
    simp only [hpc] at h
    cases h
    exact turn_none rfl rfl

end

end AlienOS.Test.SemaphoreTest
