import AlienOS.Test.Team
import Mathlib.Data.BitVec

/-!
# MutexTest — `test_mutex_many_threads` and `test_mutex_many_iters`

Any number of workers add to one counter under a mutex, and the test waits for all of them before it
looks at the sum.
-/

open AlienOS.Lib

namespace AlienOS.Test.MutexTest

open AlienOS.Kernel Program

/-- The constant field of `struct test_mutex`, and its lock, the semaphore `done` and the lock of the
port that `printf` takes, as the numbers of the kernel objects. -/
structure TestMutex where
  kNumIterations : Word
  lock : Nat
  done : Nat
  serialLock : Nat
  lock_ne : lock ≠ serialLock

/-- The statements of `test_mutex_worker`. -/
inductive Pc where
  /-- `i < arg->kNumIterations` -/
  | test
  | acquire
  /-- `(*counter)++` reads -/
  | load
  /-- and writes -/
  | store
  | release
  /-- `i++` -/
  | next
  /-- `printf` takes the lock of the port -/
  | print
  /-- and gives it back -/
  | printed
  /-- `semaphore_up (&done)` -/
  | post
  | finished
  deriving DecidableEq, Repr

/-- What a worker keeps on its stack. -/
structure Local where
  pc : Pc
  i : Word
  /-- what it has read of `*counter` -/
  counter : Word

structure Data where
  counter : Word
  worker : Tid → Local
  wait : Wait
  /-- whether the test has failed, once it has looked -/
  failed : Option Bool

/-- A statement of `test_mutex_worker`: what becomes of its stack and of `*counter`, and what it
calls. -/
def testMutexWorker (arg : TestMutex) (counter : Word) (l : Local) : Local × Word × Option Call :=
  match l.pc with
  | .test =>
    ({ l with pc := if l.i < arg.kNumIterations then .acquire else .print }, counter, none)
  | .acquire => ({ l with pc := .load }, counter, some (.mutexAcquire arg.lock))
  | .load => ({ l with pc := .store, counter }, counter, none)
  | .store => ({ l with pc := .release }, l.counter + 1, none)
  | .release => ({ l with pc := .next }, counter, some (.mutexRelease arg.lock))
  | .next => ({ l with pc := .test, i := l.i + 1 }, counter, none)
  | .print => ({ l with pc := .printed }, counter, some (.mutexAcquire arg.serialLock))
  | .printed => ({ l with pc := .post }, counter, some (.mutexRelease arg.serialLock))
  | .post => ({ l with pc := .finished }, counter, some (.semaphoreUp arg.done))
  | .finished => (l, counter, none)

/-- A statement of the test, once the workers exist. -/
def testMutex (arg : TestMutex) (team : Team) (d : Data) : Data × Option Call :=
  match d.wait.pc with
  | .past =>
    ({ d with failed := some (d.counter != team.kNumThreads * arg.kNumIterations) }, none)
  | .test | .down | .next =>
    let (wait, c) := d.wait.step arg.done team.kNumThreads
    ({ d with wait }, c)

def Data.runWorker (arg : TestMutex) (t : Tid) (d : Data) : Data × Option Call :=
  let r := testMutexWorker arg d.counter (d.worker t)
  ({ d with worker := Function.update d.worker t r.1, counter := r.2.1 }, r.2.2)

theorem testMutexWorker_quiet {arg : TestMutex} {counter : Word} {l : Local} {k : Call}
    (h : (testMutexWorker arg counter l).2.2 = some k) : k.Quiet := by
  unfold testMutexWorker at h
  cases hpc : l.pc <;> simp only [hpc] at h <;> cases h <;> simp [Call.Quiet]

theorem testMutex_quiet {arg : TestMutex} {team : Team} {d : Data} {k : Call}
    (h : (testMutex arg team d).2 = some k) : k.Quiet := by
  unfold testMutex Wait.step at h
  cases hpc : d.wait.pc <;> simp only [hpc] at h <;> cases h
  simp [Call.Quiet]

/-- The workers and the test. -/
def program (arg : TestMutex) (team : Team) : Program Data where
  statement t d := .ok (if t = team.main then testMutex arg team d else d.runWorker arg t)
  Done d t := (t ∈ team.workers → (d.worker t).pc = .finished) ∧ (t = team.main → d.failed ≠ none)
  Owns c := c.OnMutex arg.lock ∨ c.OnSemaphore arg.done
  quiet {t d d' c} h := by
    have h := congrArg Prod.snd (Except.ok.inj h)
    by_cases ht : t = team.main
    · rw [if_pos ht] at h
      exact testMutex_quiet h
    · rw [if_neg ht] at h
      exact testMutexWorker_quiet h

/-- Before anyone has run a statement. -/
def begin : Data := ⟨0, fun _ ↦ ⟨.test, 0, 0⟩, ⟨.test, 0⟩, none⟩

/-! ## Calls -/

/-- Where the calls up to here leave the worker at the lock. -/
def Pc.stance : Pc → Stance
  | .load | .store | .release => .inside
  | .next => .leaving
  | .test | .acquire | .print | .printed | .post | .finished => .outside

def Data.stance (d : Data) (t : Tid) : Stance := (d.worker t).pc.stance

def Data.posted (d : Data) (t : Tid) : Bool := (d.worker t).pc = .finished


/-- The queue in which a worker can be before a statement. -/
def Pc.Spot (arg : TestMutex) (q : WaitQueue) : Pc → Prop
  | .load => q = .semaphore (.ofMutex (.user arg.lock))
  | .printed => q = .semaphore (.ofMutex (.user arg.serialLock))
  | .finished => True
  | .test | .acquire | .store | .release | .next | .print | .post => False

def Data.spots (arg : TestMutex) (team : Team) (d : Data) (t : Tid) (q : WaitQueue) : Prop :=
  (t ∈ team.workers → (d.worker t).pc.Spot arg q) ∧
    (t = team.main → d.failed = none → d.wait.pc = .next ∧ q = .semaphore (.user arg.done))

/-- What a statement from `pc` to `pc'` leaves to the kernel. -/
structure Turn (arg : TestMutex) (pc pc' : Pc) (ops : List Op) : Prop where
  reach : Reach arg.lock pc.stance ops pc'.stance
  ups : (if pc' = .finished then 1 else 0) = (if pc = .finished then 1 else 0) - dues arg.done ops
  tries : .semaphoreTryDown (.user arg.done) ∉ ops
  downs : .semaphoreDown (.user arg.done) ∉ ops
  posts : .semaphoreUp (.user arg.done) ∈ ops → pc' = .finished
  spots : ∀ op ∈ ops, ∀ q, op.Leads q → pc'.Spot arg q

section

variable {arg : TestMutex} {team : Team} {t : Tid} {d d' : Data} {c : Option Call}

theorem turn_spares {pc pc' : Pc} {ops : List Op} (hr : Reach arg.lock pc.stance ops pc'.stance)
    (h : ∀ op ∈ ops, ¬ op.OnSemaphore arg.done) (hf : pc' = .finished ↔ pc = .finished)
    (hs : ∀ op ∈ ops, ∀ q, op.Leads q → pc'.Spot arg q) : Turn arg pc pc' ops := by
  refine ⟨hr, ?_, fun hm ↦ h _ hm rfl, fun hm ↦ h _ hm rfl, fun hm ↦ absurd rfl (h _ hm), hs⟩
  rw [dues_spared h]
  simp [hf]

theorem turn_none {pc pc' : Pc} (h : pc.stance.has = pc'.stance.has)
    (hf : pc' = .finished ↔ pc = .finished) : Turn arg pc pc' [] :=
  turn_spares (.spares (by simp) h) (by simp) hf (by simp)

/-- A statement of a worker. -/
theorem testMutexWorker_turn (arg : TestMutex) (counter : Word) (l : Local) :
    Turn arg l.pc (testMutexWorker arg counter l).1.pc
      (askedOps (testMutexWorker arg counter l).2.2) := by
  unfold testMutexWorker
  cases hpc : l.pc with
  | test =>
    by_cases hi : l.i < arg.kNumIterations
    · simp only [if_pos hi]
      exact turn_none rfl (by simp)
    · simp only [if_neg hi]
      exact turn_none rfl (by simp)
  | acquire =>
    refine turn_spares (.acquires rfl) (asked_spares_semaphore id) (by simp) fun op ho q hq ↦ ?_
    cases List.mem_singleton.mp ho
    exact leads_acquire hq
  | load => exact turn_none rfl (by simp)
  | store => exact turn_none rfl (by simp)
  | release =>
    refine turn_spares .releases (asked_spares_semaphore id) (by simp) fun op ho q hq ↦ ?_
    cases List.mem_singleton.mp ho
    exact absurd hq not_leads_release
  | next => exact turn_none rfl (by simp)
  | print =>
    refine turn_spares (.spares (asked_spares_mutex arg.lock_ne.symm) rfl)
      (asked_spares_semaphore id) (by simp) fun op ho q hq ↦ ?_
    cases List.mem_singleton.mp ho
    exact leads_acquire hq
  | printed =>
    refine turn_spares (.spares (asked_spares_mutex arg.lock_ne.symm) rfl)
      (asked_spares_semaphore id) (by simp) fun op ho q hq ↦ ?_
    cases List.mem_singleton.mp ho
    exact absurd hq not_leads_release
  | post =>
    exact ⟨.spares (asked_spares_mutex id) rfl, by simp, by simp, by simp, fun _ ↦ rfl,
      fun _ _ _ _ ↦ trivial⟩
  | finished =>
    simp only [hpc]
    exact turn_none rfl (by simp)

theorem runWorker_eq (h : d.runWorker arg t = (d', c)) :
    testMutexWorker arg d.counter (d.worker t) = (d'.worker t, d'.counter, c) ∧
      (∀ u, u ≠ t → d'.worker u = d.worker u) ∧ d'.wait = d.wait ∧ d'.failed = d.failed := by
  unfold Data.runWorker at h
  cases h
  refine ⟨?_, fun u hu ↦ Function.update_of_ne hu _ _, rfl, rfl⟩
  show _ = (Function.update d.worker t _ t, _, _)
  rw [Function.update_self]

/-- A statement of the test goes on with the loop or is the last one. -/
theorem testMutex_wait (h : testMutex arg team d = (d', c)) :
    d'.worker = d.worker ∧ d'.counter = d.counter ∧
      d.wait.step arg.done team.kNumThreads = (d'.wait, c) ∧ (d'.failed = d.failed ∨
        d.wait.pc = .past ∧ d'.failed = some (d.counter != team.kNumThreads * arg.kNumIterations)) := by
  unfold testMutex at h
  cases hpc : d.wait.pc with
  | past =>
    simp only [hpc] at h
    cases h
    refine ⟨rfl, rfl, ?_, .inr ⟨rfl, rfl⟩⟩
    unfold Wait.step
    simp only [hpc]
  | _ =>
    simp only [hpc] at h
    cases h
    exact ⟨rfl, rfl, rfl, .inl rfl⟩

/-- Who runs a statement. -/
theorem runs_cases (h : (program arg team).Runs t d d' c) :
    t = team.main ∧ d.failed = none ∧ testMutex arg team d = (d', c) ∨
      t ≠ team.main ∧ (t ∈ team.workers ∧ (d.worker t).pc ≠ .finished) ∧
        d.runWorker arg t = (d', c) := by
  obtain ⟨hd, hs⟩ := h
  have hs := Except.ok.inj hs
  by_cases ht : t = team.main
  · rw [if_pos ht] at hs
    refine .inl ⟨ht, ?_, hs⟩
    by_contra hn
    refine hd ⟨fun hm ↦ ?_, fun _ ↦ hn⟩
    rw [ht] at hm
    exact absurd hm (List.nodup_cons.mp team.nodup).1
  · rw [if_neg ht] at hs
    refine .inr ⟨ht, ?_, hs⟩
    by_contra hn
    refine hd ⟨fun hm ↦ ?_, fun he ↦ absurd he ht⟩
    by_contra hpc
    exact hn ⟨hm, hpc⟩

theorem staffed (arg : TestMutex) (team : Team) :
    Staffed (program arg team) team arg.done Data.worker Data.wait
      fun l l' ops ↦ Turn arg l.pc l'.pc ops := by
  intro t d d' c h
  rcases runs_cases h with ⟨ht, -, hs⟩ | ⟨ht, ⟨hm, -⟩, hs⟩
  · obtain ⟨hworker, -, hwait, -⟩ := testMutex_wait hs
    exact .inl ⟨ht, hworker, hwait⟩
  · obtain ⟨hrun, hothers, hwait, -⟩ := runWorker_eq hs
    have hturn := testMutexWorker_turn arg d.counter (d.worker t)
    rw [hrun] at hturn
    exact .inr ⟨ht, hm, hturn, hwait, hothers⟩

theorem pairs (arg : TestMutex) (team : Team) : (program arg team).Pairs arg.lock Data.stance :=
  (staffed arg team).pairs (fun _ hc ↦ .inl hc) fun _ _ _ h ↦ h.reach

theorem Turn.posts_done {l l' : Local} {ops : List Op} (h : Turn arg l.pc l'.pc ops) :
    Asks arg.done (fun l : Local ↦ if decide (l.pc = .finished) then 1 else 0) (fun _ ↦ False)
      (fun l ↦ decide (l.pc = .finished) = true) l l' ops := by
  refine ⟨?_, h.tries, h.downs, fun hm ↦ decide_eq_true (h.posts hm)⟩
  have hups := h.ups
  simpa using hups

theorem counts (arg : TestMutex) (team : Team) :
    (program arg team).Counts (fun d ↦ d.wait.Right team.kNumThreads) arg.done
      (team.main :: team.workers) (fun d ↦ team.downs d.wait) (fun d ↦ team.ups d.posted)
      fun d ↦ team.called d.wait d.posted :=
  (staffed arg team).joins (fun _ hc ↦ .inr hc) fun _ _ _ h ↦ h.posts_done

theorem parks (arg : TestMutex) (team : Team) : (program arg team).Parks (Data.spots arg team) := by
  refine (staffed arg team).parks (fun q l ↦ l.pc.Spot arg q) (fun d ↦ d.failed = none)
    (fun _ _ _ h ↦ h.spots) (fun t d d' _ h ht hn ↦ ?_) fun d t q h ↦ ⟨fun hm ↦ ?_, h.2⟩
  · rcases runs_cases h with ⟨he, -, -⟩ | ⟨-, -, hs⟩
    · exact absurd he ht
    · rw [← (runWorker_eq hs).2.2.2]
      exact hn
  · rw [h.1 hm]
    trivial

end

end AlienOS.Test.MutexTest
