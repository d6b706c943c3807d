import AlienOS.Test.Team
import Mathlib.Data.BitVec

/-!
# MultiplexTest — `test_semaphore_multiplex`

A semaphore lets some of the workers in, which count themselves under a mutex and keep the largest
number they have seen.
-/

open AlienOS.Lib

namespace AlienOS.Test.MultiplexTest

open AlienOS.Kernel Program

/-- The semaphore and the lock of `struct test_semaphore_multiplex` and the semaphore `done`, as the
numbers of the kernel objects. -/
structure TestSemaphoreMultiplex where
  sem : Nat
  lock : Nat
  done : Nat
  sem_ne : sem ≠ done

/-- The statements of `test_semaphore_multiplex_worker`. -/
inductive Pc where
  /-- `semaphore_down (&data->sem)` -/
  | down
  | acquire
  /-- `data->active_threads++` reads -/
  | load
  /-- and writes -/
  | store
  /-- `data->active_threads > data->max_seen_threads` -/
  | test
  /-- `data->max_seen_threads = data->active_threads` -/
  | assign
  | release
  /-- `thread_yield ()` -/
  | yield
  | reacquire
  /-- `data->active_threads--` reads -/
  | reload
  /-- and writes -/
  | restore
  | rerelease
  /-- `semaphore_up (&data->sem)` -/
  | up
  /-- `semaphore_up (&done)` -/
  | post
  | finished
  deriving DecidableEq, Repr

/-- What a worker keeps on its stack: what it has read of `data->active_threads`. -/
structure Local where
  pc : Pc
  activeThreads : Word

/-- The fields that the workers share. -/
structure Shared where
  activeThreads : Word
  maxSeenThreads : Word

structure Data where
  shared : Shared
  worker : Tid → Local
  wait : Wait

/-- A statement of `test_semaphore_multiplex_worker`: what becomes of its stack and of the fields, and
what it calls. -/
def testSemaphoreMultiplexWorker (data : TestSemaphoreMultiplex) (s : Shared) (l : Local) :
    Local × Shared × Option Call :=
  match l.pc with
  | .down => ({ l with pc := .acquire }, s, some (.semaphoreDown data.sem))
  | .acquire => ({ l with pc := .load }, s, some (.mutexAcquire data.lock))
  | .load => (⟨.store, s.activeThreads⟩, s, none)
  | .store => ({ l with pc := .test }, { s with activeThreads := l.activeThreads + 1 }, none)
  | .test =>
    ({ l with pc := if s.activeThreads > s.maxSeenThreads then .assign else .release }, s, none)
  | .assign => ({ l with pc := .release }, { s with maxSeenThreads := s.activeThreads }, none)
  | .release => ({ l with pc := .yield }, s, some (.mutexRelease data.lock))
  | .yield => ({ l with pc := .reacquire }, s, some .threadYield)
  | .reacquire => ({ l with pc := .reload }, s, some (.mutexAcquire data.lock))
  | .reload => (⟨.restore, s.activeThreads⟩, s, none)
  | .restore =>
    ({ l with pc := .rerelease }, { s with activeThreads := l.activeThreads - 1 }, none)
  | .rerelease => ({ l with pc := .up }, s, some (.mutexRelease data.lock))
  | .up => ({ l with pc := .post }, s, some (.semaphoreUp data.sem))
  | .post => ({ l with pc := .finished }, s, some (.semaphoreUp data.done))
  | .finished => (l, s, none)

def Data.runWorker (data : TestSemaphoreMultiplex) (t : Tid) (d : Data) : Data × Option Call :=
  let r := testSemaphoreMultiplexWorker data d.shared (d.worker t)
  ({ d with worker := Function.update d.worker t r.1, shared := r.2.1 }, r.2.2)

/-- A statement of the test, once the workers exist. -/
def testSemaphoreMultiplex (data : TestSemaphoreMultiplex) (team : Team) (d : Data) :
    Data × Option Call :=
  let (wait, c) := d.wait.step data.done team.kNumThreads
  ({ d with wait }, c)

theorem testSemaphoreMultiplexWorker_quiet {data : TestSemaphoreMultiplex} {s : Shared} {l : Local}
    {k : Call} (h : (testSemaphoreMultiplexWorker data s l).2.2 = some k) : k.Quiet := by
  unfold testSemaphoreMultiplexWorker at h
  cases hpc : l.pc <;> simp only [hpc] at h <;> cases h <;> simp [Call.Quiet]

theorem testSemaphoreMultiplex_quiet {data : TestSemaphoreMultiplex} {team : Team} {d : Data}
    {k : Call} (h : (testSemaphoreMultiplex data team d).2 = some k) : k.Quiet := by
  unfold testSemaphoreMultiplex Wait.step at h
  cases hpc : d.wait.pc <;> simp only [hpc] at h <;> cases h
  simp [Call.Quiet]

/-- The workers and the test. -/
def program (data : TestSemaphoreMultiplex) (team : Team) : Program Data where
  statement t d := .ok (if t = team.main then testSemaphoreMultiplex data team d else d.runWorker data t)
  Done d t := (t ∈ team.workers → (d.worker t).pc = .finished) ∧ (t = team.main → d.wait.pc = .past)
  Owns c := c.OnMutex data.lock ∨ c.OnSemaphore data.sem ∨ c.OnSemaphore data.done
  quiet {t d d' c} h := by
    have h := congrArg Prod.snd (Except.ok.inj h)
    by_cases ht : t = team.main
    · rw [if_pos ht] at h
      exact testSemaphoreMultiplex_quiet h
    · rw [if_neg ht] at h
      exact testSemaphoreMultiplexWorker_quiet h

/-- Before anyone has run a statement. -/
def begin : Data := ⟨⟨0, 0⟩, fun _ ↦ ⟨.down, 0⟩, ⟨.test, 0⟩⟩

/-! ## Calls -/

/-- Where the calls up to here leave the worker at the lock. -/
def Pc.stance : Pc → Stance
  | .load | .store | .test | .assign | .release | .reload | .restore | .rerelease => .inside
  | .yield | .up => .leaving
  | .down | .acquire | .reacquire | .post | .finished => .outside

/-- The worker has called `semaphore_down (&data->sem)` and not yet `semaphore_up`. -/
def Pc.Holds : Pc → Bool
  | .acquire | .load | .store | .test | .assign | .release | .yield | .reacquire | .reload | .restore
  | .rerelease | .up => true
  | .down | .post | .finished => false

def Pc.asked (pc : Pc) : Int := if pc.Holds then -1 else 0

/-- The queue in which a worker can be before a statement. -/
def Pc.Spot (data : TestSemaphoreMultiplex) (q : WaitQueue) : Pc → Prop
  | .acquire => q = .semaphore (.user data.sem)
  | .load | .reload => q = .semaphore (.ofMutex (.user data.lock))
  | .finished => True
  | .down | .store | .test | .assign | .release | .yield | .reacquire | .restore | .rerelease | .up
  | .post => False

/-- What a statement from `pc` to `pc'` leaves to the kernel. -/
structure Turn (data : TestSemaphoreMultiplex) (pc pc' : Pc) (ops : List Op) : Prop where
  reach : Reach data.lock pc.stance ops pc'.stance
  slot : Asks data.sem Pc.asked (· = .acquire) (· = .post) pc pc' ops
  posts : Asks data.done (fun pc ↦ if decide (pc = .finished) then 1 else 0) (fun _ ↦ False)
    (fun pc ↦ decide (pc = .finished) = true) pc pc' ops
  spots : ∀ op ∈ ops, ∀ q, op.Leads q → pc'.Spot data q

section

variable {data : TestSemaphoreMultiplex} {team : Team} {t : Tid} {d d' : Data} {c : Option Call}

@[simp] theorem askedOps_yield : askedOps (some .threadYield) = [] := rfl

/-- A statement that leaves the semaphores alone. -/
theorem turn_spares {pc pc' : Pc} {ops : List Op} (hr : Reach data.lock pc.stance ops pc'.stance)
    (h : ∀ n, ∀ op ∈ ops, ¬ op.OnSemaphore n) (hh : pc'.Holds = pc.Holds)
    (hf : pc' = .finished ↔ pc = .finished)
    (hs : ∀ op ∈ ops, ∀ q, op.Leads q → pc'.Spot data q) : Turn data pc pc' ops := by
  refine ⟨hr, asks_spared (h _) ?_, asks_spared (h _) ?_, hs⟩
  · unfold Pc.asked
    rw [hh]
  · simp only [hf]

theorem turn_none {pc pc' : Pc} (h : pc.stance.has = pc'.stance.has) (hh : pc'.Holds = pc.Holds)
    (hf : pc' = .finished ↔ pc = .finished) : Turn data pc pc' [] :=
  turn_spares (.spares (by simp) h) (by simp) hh hf (by simp)

theorem turn_acquire {pc pc' : Pc} (hout : pc.stance.has = false) (hin : pc'.stance = .inside)
    (hh : pc'.Holds = pc.Holds) (hf : pc' = .finished ↔ pc = .finished)
    (hs : pc'.Spot data (.semaphore (.ofMutex (.user data.lock)))) :
    Turn data pc pc' (askedOps (some (.mutexAcquire data.lock))) := by
  refine turn_spares ?_ (fun n ↦ asked_spares_semaphore id) hh hf fun op ho q hq ↦ ?_
  · rw [hin]
    exact .acquires hout
  · cases List.mem_singleton.mp ho
    rw [leads_acquire hq]
    exact hs

theorem turn_release {pc pc' : Pc} (hin : pc.stance = .inside) (hout : pc'.stance = .leaving)
    (hh : pc'.Holds = pc.Holds) (hf : pc' = .finished ↔ pc = .finished) :
    Turn data pc pc' (askedOps (some (.mutexRelease data.lock))) := by
  refine turn_spares ?_ (fun n ↦ asked_spares_semaphore id) hh hf fun op ho q hq ↦ ?_
  · rw [hin, hout]
    exact .releases
  · cases List.mem_singleton.mp ho
    exact absurd hq not_leads_release

/-- A statement of a worker. -/
theorem testSemaphoreMultiplexWorker_turn (data : TestSemaphoreMultiplex) (s : Shared) (l : Local) :
    Turn data l.pc (testSemaphoreMultiplexWorker data s l).1.pc
      (askedOps (testSemaphoreMultiplexWorker data s l).2.2) := by
  unfold testSemaphoreMultiplexWorker
  cases hpc : l.pc with
  | down =>
    refine ⟨.spares (asked_spares_mutex id) rfl, ⟨by simp [Pc.asked, Pc.Holds], by simp,
      fun _ ↦ rfl, by simp⟩, ⟨?_, by simp, fun hm ↦ ?_, by simp⟩, fun op ho q hq ↦ ?_⟩
    · rw [askedOps_down, dues_down_ne data.sem_ne]
      rfl
    · simp [data.sem_ne.symm] at hm
    · cases List.mem_singleton.mp ho
      exact leads_down hq
  | acquire => exact turn_acquire rfl rfl rfl (by simp) rfl
  | load => exact turn_none rfl rfl (by simp)
  | store => exact turn_none rfl rfl (by simp)
  | test =>
    by_cases hs : s.activeThreads > s.maxSeenThreads
    · simp only [if_pos hs]
      exact turn_none rfl rfl (by simp)
    · simp only [if_neg hs]
      exact turn_none rfl rfl (by simp)
  | assign => exact turn_none rfl rfl (by simp)
  | release => exact turn_release rfl rfl rfl (by simp)
  | yield => exact turn_none rfl rfl (by simp)
  | reacquire => exact turn_acquire rfl rfl rfl (by simp) rfl
  | reload => exact turn_none rfl rfl (by simp)
  | restore => exact turn_none rfl rfl (by simp)
  | rerelease => exact turn_release rfl rfl rfl (by simp)
  | up =>
    refine ⟨.spares (asked_spares_mutex id) rfl, ⟨by simp [Pc.asked, Pc.Holds], by simp, by simp,
      fun _ ↦ rfl⟩, ⟨?_, by simp, by simp, fun hm ↦ ?_⟩, fun op ho q hq ↦ ?_⟩
    · rw [askedOps_up, dues_up_ne data.sem_ne]
      rfl
    · simp [data.sem_ne.symm] at hm
    · cases List.mem_singleton.mp ho
      exact absurd hq not_leads_up
  | post =>
    refine ⟨.spares (asked_spares_mutex id) rfl, ⟨?_, by simp, by simp, fun hm ↦ ?_⟩,
      ⟨by simp, by simp, by simp, fun _ ↦ rfl⟩, fun _ _ _ _ ↦ trivial⟩
    · rw [askedOps_up, dues_up_ne data.sem_ne.symm]
      rfl
    · simp [data.sem_ne] at hm
  | finished =>
    simp only [hpc]
    exact turn_none rfl rfl (by simp)

theorem runWorker_eq (h : d.runWorker data t = (d', c)) :
    testSemaphoreMultiplexWorker data d.shared (d.worker t) = (d'.worker t, d'.shared, c) ∧
      (∀ u, u ≠ t → d'.worker u = d.worker u) ∧ d'.wait = d.wait := by
  unfold Data.runWorker at h
  cases h
  refine ⟨?_, fun u hu ↦ Function.update_of_ne hu _ _, rfl⟩
  show _ = (Function.update d.worker t _ t, _, _)
  rw [Function.update_self]

theorem testSemaphoreMultiplex_wait (h : testSemaphoreMultiplex data team d = (d', c)) :
    d'.worker = d.worker ∧ d'.shared = d.shared ∧
      d.wait.step data.done team.kNumThreads = (d'.wait, c) := by
  unfold testSemaphoreMultiplex at h
  cases h
  exact ⟨rfl, rfl, rfl⟩

/-- Who runs a statement. -/
theorem runs_cases (h : (program data team).Runs t d d' c) :
    t = team.main ∧ testSemaphoreMultiplex data team d = (d', c) ∨
      t ≠ team.main ∧ t ∈ team.workers ∧ d.runWorker data t = (d', c) := by
  obtain ⟨hd, hs⟩ := h
  have hs := Except.ok.inj hs
  by_cases ht : t = team.main
  · rw [if_pos ht] at hs
    exact .inl ⟨ht, hs⟩
  · rw [if_neg ht] at hs
    refine .inr ⟨ht, ?_, hs⟩
    by_contra hn
    exact hd ⟨fun hm ↦ absurd hm hn, fun he ↦ absurd he ht⟩

theorem staffed (data : TestSemaphoreMultiplex) (team : Team) :
    Staffed (program data team) team data.done (fun d t ↦ (d.worker t).pc) Data.wait (Turn data) := by
  intro t d d' c h
  rcases runs_cases h with ⟨ht, hs⟩ | ⟨ht, hm, hs⟩
  · obtain ⟨hworker, -, hwait⟩ := testSemaphoreMultiplex_wait hs
    exact .inl ⟨ht, by simp only [hworker], hwait⟩
  · obtain ⟨hrun, hothers, hwait⟩ := runWorker_eq hs
    have hturn := testSemaphoreMultiplexWorker_turn data d.shared (d.worker t)
    rw [hrun] at hturn
    exact .inr ⟨ht, hm, hturn, hwait, fun u hu ↦ congrArg Local.pc (hothers u hu)⟩

end

end AlienOS.Test.MultiplexTest
