import AlienOS.Kernel.Semaphore
import AlienOS.Lib.Lock
import Mathlib.Algebra.Group.Int.Defs

/-!
# Mutex — mutual exclusion with recursion

A mutex is the lock of `AlienOS.Lib.Lock`: which step of it a thread is at shows in what the thread
has before it.
-/

open AlienOS.Lib

namespace AlienOS.Kernel

/-- The operations that finish what an earlier one has begun. -/
def Op.IsMidway : Op → Bool
  | .mutexAcquired _ _ | .tryIncrement _ | .tryDown _ | .trySetHolder _ | .trySetCount _ => true
  | _ => false

/-- The semaphore of a mutex is nobody's but the mutex's. -/
def Op.IsInner : Op → Bool
  | .semaphoreDown (.ofMutex _) | .semaphoreTryDown (.ofMutex _) | .semaphoreUp (.ofMutex _) => true
  | _ => false

/-- The operations on a mutex and on its semaphore. -/
def Op.Uses (op : Op) (mutex : MutexRef) : Bool :=
  match op with
  | .semaphoreDown sem | .semaphoreTryDown sem | .semaphoreUp sem => sem = .ofMutex mutex
  | .mutexAcquire m | .mutexAcquired m _ | .mutexRelease m | .tryTest m | .tryIncrement m
  | .tryDown m | .trySetHolder m | .trySetCount m | .condvarWait _ m => m = mutex
  | _ => false

/-- Nothing is begun. -/
def Fresh (ops : List Op) : Prop := ∀ op ∈ ops, op.IsMidway = false ∧ op.IsInner = false

/-- Only the first operation may finish an earlier one; `mutex_try_acquire` sets the count after the
holder. -/
def Shaped : List Op → Prop
  | .trySetHolder mutex :: ops => ∃ ops', ops = .trySetCount mutex :: ops' ∧ Fresh ops'
  | op :: ops => op.IsInner = false ∧ Fresh ops
  | [] => True

/-- Where a thread is at the mutex. -/
def phaseOf (mutex : MutexRef) : List Op → Phase
  | .mutexAcquired m _ :: _ => if m = mutex then .waiting else .away
  | .trySetHolder m :: _ => if m = mutex then .setHolder else .away
  | .trySetCount m :: _ => if m = mutex then .setCount else .away
  | .tryIncrement m :: _ => if m = mutex then .increment else .away
  | _ => .away

/-- Acquires less releases. -/
def heldBy (mutex : MutexRef) (t : Tid) (tr : List Event) : Int :=
  (tr.countP (· = .acquired mutex t) : Int) - tr.countP (· = .released mutex t)

theorem Fresh.strip {ops : List Op} (h : Fresh ops) : Fresh (strip ops) :=
  fun op hop ↦ h op ((List.dropWhile_sublist _).subset hop)

theorem Fresh.shaped {ops : List Op} (h : Fresh ops) : Shaped ops := by
  cases ops with
  | nil => trivial
  | cons op ops =>
    have ht : Fresh ops := fun o ho ↦ h o (List.mem_cons_of_mem _ ho)
    have hop := h op List.mem_cons_self
    cases op <;> first | exact ⟨hop.2, ht⟩ | cases hop.1

theorem Fresh.phaseOf {ops : List Op} (h : Fresh ops) (mutex : MutexRef) :
    Kernel.phaseOf mutex ops = .away := by
  cases ops with
  | nil => rfl
  | cons op ops =>
    have hop := h op List.mem_cons_self
    cases op <;> first | rfl | cases hop.1

theorem Shaped.tail {op : Op} {ops : List Op} (h : Shaped (op :: ops))
    (hop : ∀ m, op ≠ .trySetHolder m) : op.IsInner = false ∧ Fresh ops := by
  cases op <;> first | exact h | exact absurd rfl (hop _)

theorem Call.fresh (c : Call) : Fresh c.ops := by
  cases c <;> simp [Fresh, Call.ops, heapOps, Op.IsMidway, Op.IsInner]

namespace Sync

/-- The mutex as a lock. -/
def lock (mutex : MutexRef) (v : Sync) : Lock Tid where
  count := v.count (.ofMutex mutex)
  queue := v.queue (.semaphore (.ofMutex mutex))
  holder := v.holder mutex
  depth := (v.recursionCount mutex).toNat
  phase t := phaseOf mutex (v.task t)
  held t := heldBy mutex t v.log

/-- The lock with other phases. -/
def lockWith (mutex : MutexRef) (v : Sync) (phase : Tid → Phase) : Lock Tid :=
  { v.lock mutex with phase }

section

variable {mutex m : MutexRef} {v : Sync} {t : Tid}

theorem heldBy_acquired (u : Tid) (tr : List Event) :
    heldBy mutex u (.acquired mutex t :: tr) =
      Function.update (fun u ↦ heldBy mutex u tr) t (heldBy mutex t tr + 1) u := by
  by_cases hu : u = t
  · subst hu
    simp [heldBy]
    omega
  · have hut : t ≠ u := Ne.symm hu
    simp [heldBy, hu, hut]

theorem heldBy_released (u : Tid) (tr : List Event) :
    heldBy mutex u (.released mutex t :: tr) =
      Function.update (fun u ↦ heldBy mutex u tr) t (heldBy mutex t tr - 1) u := by
  by_cases hu : u = t
  · subst hu
    simp [heldBy]
    omega
  · have hut : t ≠ u := Ne.symm hu
    simp [heldBy, hu, hut]

/-- Events about other objects. -/
theorem lockWith_logged {e : Event} (ha : ∀ u, e ≠ .acquired mutex u)
    (hr : ∀ u, e ≠ .released mutex u)
    (hi : ∀ u, e ≠ .added (.waitQueue (.semaphore (.ofMutex mutex))) u)
    (ho : ∀ u, e ≠ .removed (.waitQueue (.semaphore (.ofMutex mutex))) u) :
    lockWith mutex (v.logged e) = lockWith mutex v := by
  funext phase
  ext1 <;> try rfl
  · exact listsOf_other v.log hi ho
  · funext u
    have h₁ : e ≠ .acquired mutex u := ha u
    have h₂ : e ≠ .released mutex u := hr u
    simp [lockWith, lock, logged, heldBy, h₁, h₂]

theorem lockWith_setCount_other {sem : SemRef} (hs : sem ≠ .ofMutex mutex) (n : Int) :
    lockWith mutex (v.setCount sem n) = lockWith mutex v := by
  funext phase
  ext1 <;> try rfl
  exact Function.update_of_ne hs.symm _ _

theorem lockWith_note (sem : SemRef) : lockWith mutex (note sem t v) = lockWith mutex v := by
  unfold note
  split <;> rfl

theorem lockWith_down_other {sem : SemRef} (hs : sem ≠ .ofMutex mutex) :
    lockWith mutex (down sem t v) = lockWith mutex v := by
  unfold down
  split
  · rw [lockWith_logged (by simp) (by simp) (by simp [hs]) (by simp), lockWith_setCount_other hs,
      lockWith_note]
  · rw [lockWith_logged (by simp) (by simp) (by simp) (by simp), lockWith_setCount_other hs]

theorem lockWith_woken_other {q : WaitQueue} (hq : q ≠ .semaphore (.ofMutex mutex)) (x : Tid) :
    lockWith mutex (v.woken q x) = lockWith mutex v := by
  unfold woken
  rw [lockWith_logged (by simp) (by simp) (by simp) (by simpa using hq)]
  rfl

theorem lockWith_wake_other {q : WaitQueue} (hq : q ≠ .semaphore (.ofMutex mutex)) :
    lockWith mutex (wake q v) = lockWith mutex v := by
  unfold wake
  split
  · rfl
  · exact lockWith_woken_other hq _

theorem lockWith_wakeAll_other {q : WaitQueue} (hq : q ≠ .semaphore (.ofMutex mutex)) :
    lockWith mutex (wakeAll q v) = lockWith mutex v := by
  unfold wakeAll
  generalize v.queue q = xs
  induction xs generalizing v with
  | nil => rfl
  | cons x xs ih => exact (ih (v := v.woken q x)).trans (lockWith_woken_other hq x)

theorem lockWith_up_other {sem : SemRef} (hs : sem ≠ .ofMutex mutex) :
    lockWith mutex (up sem t v) = lockWith mutex v := by
  unfold up
  rw [lockWith_wake_other (by simpa using hs), lockWith_logged (by simp) (by simp) (by simp)
    (by simp), lockWith_setCount_other hs]

theorem lockWith_setHolder_other (hm : m ≠ mutex) (o : Option Tid) :
    lockWith mutex (v.setHolder m o) = lockWith mutex v := by
  funext phase
  ext1 <;> try rfl
  exact Function.update_of_ne hm.symm _ _

theorem lockWith_setRecursion_other (hm : m ≠ mutex) (n : Word) :
    lockWith mutex (v.setRecursion m n) = lockWith mutex v := by
  funext phase
  ext1 <;> try rfl
  simp [lockWith, lock, setRecursion, Function.update_of_ne hm.symm]

theorem lockWith_release_other (hm : m ≠ mutex) :
    lockWith mutex (release m t v) = lockWith mutex v := by
  unfold release
  have h' : lockWith mutex ((v.setRecursion m (v.recursionCount m - 1)).logged (.released m t)) =
      lockWith mutex v := by
    rw [lockWith_logged (by simp) (by simp [hm]) (by simp) (by simp),
      lockWith_setRecursion_other hm]
  simp only
  split
  · rw [lockWith_up_other (by simpa using hm), lockWith_setHolder_other hm, h']
  · exact h'

end

/-! ## Steps -/

section

variable {wraps : Prop} {mutex m : MutexRef} {v v' : Sync} {t : Tid} {act : Act} {owner : Option Tid}
  {op : Op} {ops : List Op} {b : Bool}

theorem exec_task {u : Tid} (hu : u ≠ t) (b : Bool) (op : Op) : (exec t b op v).task u = v.task u := by
  cases op with
  | semaphoreDown sem => rw [exec, (blind_down sem t).task]
  | semaphoreTryDown sem =>
    unfold exec
    simp only
    split <;> rfl
  | semaphoreUp sem => rw [exec, (blind_up sem t).task]
  | mutexAcquire m =>
    unfold exec acquire
    simp only
    split
    · rfl
    · rw [(blind_down _ t).task]
      simp [push, setTask, setRecord, hu]
  | mutexRelease m => rw [exec, (blind_release m t).task]
  | tryDown m =>
    unfold exec
    simp only
    split
    · simp [push, setTask, logged, setCount, hu]
    · rfl
  | condvarWait c m =>
    simp only [exec, push, setTask, Function.update_of_ne hu, (blind_release m t).task]
    rfl
  | condvarSignal c => rw [exec, (blind_wake _).task]; rfl
  | condvarBroadcast c => rw [exec, (blind_wakeAll _).task]; rfl
  | _ => simp [exec, push, setTask, logged, setHolder, setRecursion, hu]

/-- The shape of the tasks. -/
theorem Step.shaped (hs : Sync.Step t act v v') (h : ∀ u, Shaped (v.task u)) (u : Tid) :
    Shaped (v'.task u) := by
  cases hs with
  | @call _ c hc hf ht =>
    by_cases hu : u = t
    · subst hu
      simpa [setTask] using c.fresh.strip.shaped
    · simpa [setTask, hu] using h u
  | @exec _ w op ops b hf ht hr he =>
    subst he
    rw [exec_settle]
    by_cases hu : u = t
    · subst hu
      have hsh := h u
      rw [ht] at hsh
      simp only [setTask, Function.update_self]
      by_cases hop : ∃ m, op = .trySetHolder m
      · obtain ⟨m, rfl⟩ := hop
        obtain ⟨ops', rfl, hfresh⟩ := hsh
        exact ⟨rfl, hfresh⟩
      · obtain ⟨-, hfresh⟩ := hsh.tail fun m hm ↦ hop ⟨m, hm⟩
        unfold pushes
        split
        · split
          · exact hfresh.strip.shaped
          · exact ⟨rfl, hfresh⟩
        · split
          · exact ⟨rfl, hfresh⟩
          · exact ⟨rfl, hfresh⟩
        · split
          · exact ⟨ops, rfl, hfresh⟩
          · exact hfresh.strip.shaped
        · refine ⟨rfl, fun o ho ↦ ?_⟩
          rcases List.mem_cons.mp ho with rfl | ho
          · exact ⟨rfl, rfl⟩
          · exact hfresh o ho
        · exact ⟨rfl, hfresh⟩
        · exact hfresh.strip.shaped
    · simp only [setTask, Function.update_of_ne hu, exec_task hu]
      exact h u

theorem lock_setTask {x : Sync} (hx : ∀ u, u ≠ t → x.task u = v.task u) (r : List Op) :
    (x.setTask t r).lock mutex =
      lockWith mutex x (Function.update (v.lock mutex).phase t (phaseOf mutex r)) := by
  ext1 <;> try rfl
  funext u
  by_cases hu : u = t
  · simp [lock, lockWith, setTask, hu]
  · simp [lock, lockWith, setTask, hu, hx u hu]

theorem lockWith_self (v : Sync) : lockWith mutex v (v.lock mutex).phase = v.lock mutex := rfl

/-- A step about something else. -/
theorem lock_same {x : Sync} (hx : ∀ u, u ≠ t → x.task u = v.task u)
    (hw : lockWith mutex x = lockWith mutex v) {r : List Op}
    (hr : phaseOf mutex r = phaseOf mutex (v.task t)) : (x.setTask t r).lock mutex = v.lock mutex := by
  rw [lock_setTask hx, hw, hr]
  have : Function.update (v.lock mutex).phase t (phaseOf mutex (v.task t)) = (v.lock mutex).phase :=
    Function.update_eq_self _ _
  rw [this, lockWith_self]

theorem lockWith_acquired :
    lockWith mutex (v.logged (.acquired mutex t)) = fun f ↦ { lockWith mutex v f with
      held := Function.update (v.lock mutex).held t ((v.lock mutex).held t + 1) } := by
  funext f
  ext1 <;> try rfl
  funext u
  exact heldBy_acquired u v.log

theorem lockWith_released :
    lockWith mutex (v.logged (.released mutex t)) = fun f ↦ { lockWith mutex v f with
      held := Function.update (v.lock mutex).held t ((v.lock mutex).held t - 1) } := by
  funext f
  ext1 <;> try rfl
  funext u
  exact heldBy_released u v.log

theorem lockWith_setRecursion (n : Word) :
    lockWith mutex (v.setRecursion mutex n) = fun f ↦ { lockWith mutex v f with
      depth := n.toNat } := by
  funext f
  ext1 <;> try rfl
  simp [lockWith, lock, setRecursion]

theorem lockWith_setHolder (o : Option Tid) :
    lockWith mutex (v.setHolder mutex o) = fun f ↦ { lockWith mutex v f with holder := o } := by
  funext f
  ext1 <;> try rfl
  exact Function.update_self _ _ _

theorem lockWith_setCount (n : Int) :
    lockWith mutex (v.setCount (.ofMutex mutex) n) = fun f ↦ { lockWith mutex v f with
      count := n } := by
  funext f
  ext1 <;> try rfl
  exact Function.update_self _ _ _

theorem lockWith_grant : lockWith mutex ((v.setCount (.ofMutex mutex)
      (v.count (.ofMutex mutex) - 1)).logged (.granted (.ofMutex mutex) t)) =
    fun f ↦ { lockWith mutex v f with count := (v.lock mutex).count - 1 } := by
  rw [lockWith_logged (by simp) (by simp) (by simp) (by simp), lockWith_setCount]
  rfl

theorem lockWith_block (hn : v.count (.ofMutex mutex) - 1 < 0) :
    lockWith mutex (down (.ofMutex mutex) t v) = fun f ↦ { lockWith mutex v f with
      count := (v.lock mutex).count - 1
      queue := (v.lock mutex).queue ++ [t] } := by
  unfold down
  rw [if_pos hn]
  funext f
  have hnote : lockWith mutex (note (.ofMutex mutex) t v) f = lockWith mutex v f := by
    rw [lockWith_note]
  ext1
  · exact Function.update_self _ _ _
  · have hq := congrArg Lock.queue hnote
    simp only [lockWith, lock, logged, queue, listsOf, Event.onLists, setCount,
      Function.update_self] at hq ⊢
    rw [hq]
  · have hh := congrArg Lock.holder hnote
    exact hh
  · have hd := congrArg Lock.depth hnote
    exact hd
  · rfl
  · funext u
    have hu := congrFun (congrArg Lock.held hnote) u
    simpa [lockWith, lock, logged, setCount, heldBy] using hu

/-- `semaphore_up` on the mutex's semaphore. -/
theorem lockWith_up_nobody (hq : (v.lock mutex).queue = []) :
    lockWith mutex (up (.ofMutex mutex) t v) = fun f ↦ { lockWith mutex v f with
      count := (v.lock mutex).count + 1 } := by
  have hq' : ((v.setCount (.ofMutex mutex) (v.count (.ofMutex mutex) + 1)).logged
      (.upped (.ofMutex mutex) t)).queue (.semaphore (.ofMutex mutex)) = [] := hq
  unfold up wake
  rw [hq']
  simp only
  rw [lockWith_logged (by simp) (by simp) (by simp) (by simp), lockWith_setCount]
  rfl

theorem lockWith_up_first {x : Tid} {xs : List Tid} (hq : (v.lock mutex).queue = x :: xs) :
    lockWith mutex (up (.ofMutex mutex) t v) = fun f ↦ { lockWith mutex v f with
      count := (v.lock mutex).count + 1
      queue := xs } := by
  have hq' : ((v.setCount (.ofMutex mutex) (v.count (.ofMutex mutex) + 1)).logged
      (.upped (.ofMutex mutex) t)).queue (.semaphore (.ofMutex mutex)) = x :: xs := hq
  unfold up wake
  rw [hq']
  funext f
  ext1
  · exact Function.update_self _ _ _
  · have hl : listsOf v.log (.waitQueue (.semaphore (.ofMutex mutex))) = x :: xs := hq
    simp [lockWith, lock, woken, setRecord, logged, queue, listsOf, Event.onLists, setCount, hl]
  · rfl
  · rfl
  · rfl
  · funext u
    simp [lockWith, lock, woken, setRecord, logged, setCount, heldBy]

/-- `mutex_release` by the holder is one of the ways to leave the lock. -/
theorem lock_release (hp : (v.lock mutex).phase t = .away) (hh : v.Holds mutex t) :
    Lock.Step wraps t (v.lock mutex) (lockWith mutex (release mutex t v) (v.lock mutex).phase) := by
  have hn : (v.recursionCount mutex).toNat ≠ 0 := fun hz ↦ hh.2 (BitVec.eq_of_toNat_eq hz)
  have hsub : (v.recursionCount mutex - 1).toNat = (v.recursionCount mutex).toNat - 1 := by
    have := (v.recursionCount mutex).isLt
    have hone : (1 : Word).toNat = 1 := rfl
    rw [BitVec.toNat_sub, hone]
    omega
  have hhold : (v.lock mutex).holder = some t := hh.1
  unfold release
  simp only
  by_cases hz : v.recursionCount mutex - 1 = 0
  · have hone : (v.lock mutex).depth = 1 := by
      have hzero : (v.recursionCount mutex).toNat - 1 = 0 := hsub.symm.trans (congrArg _ hz)
      show (v.recursionCount mutex).toNat = 1
      omega
    rw [if_pos hz]
    cases hq : (v.lock mutex).queue with
    | nil =>
      rw [lockWith_up_nobody (by exact hq), lockWith_setHolder, lockWith_released,
        lockWith_setRecursion, hz]
      exact .free hp hhold hone hq
    | cons x xs =>
      rw [lockWith_up_first (by exact hq), lockWith_setHolder, lockWith_released,
        lockWith_setRecursion, hz]
      exact .handOver hp hhold hone hq
  · rw [if_neg hz, lockWith_released, lockWith_setRecursion, hsub]
    have hgt : 1 < (v.lock mutex).depth := by
      show 1 < (v.recursionCount mutex).toNat
      by_contra hle
      apply hz
      apply BitVec.eq_of_toNat_eq
      have hzero : (0 : Word).toNat = 0 := rfl
      rw [hsub, hzero]
      omega
    exact .leave hp hhold hgt

/-- An acquire that may be one more by the holder. -/
def Nests (mutex : MutexRef) (act : Act) : Prop :=
  act = .exec (.mutexAcquire mutex) ∨ act = .exec (.tryIncrement mutex)

theorem toNat_succ {n : Word} (h : n.toNat + 1 < 2 ^ 32) : (n + 1).toNat = n.toNat + 1 := by
  have hone : (1 : Word).toNat = 1 := rfl
  rw [BitVec.toNat_add, hone, Nat.mod_eq_of_lt h]

theorem lockWith_again : lockWith mutex ((v.setRecursion mutex (v.recursionCount mutex + 1)).logged
      (.acquired mutex t)) = fun f ↦ { lockWith mutex v f with
        depth := (v.recursionCount mutex + 1).toNat
        held := Function.update (v.lock mutex).held t ((v.lock mutex).held t + 1) } := by
  rw [lockWith_acquired, lockWith_setRecursion]
  rfl

/-- An acquire and a plain write that concern another mutex. -/
theorem lockWith_again_other (hm : m ≠ mutex) (n : Word) :
    lockWith mutex ((v.setRecursion m n).logged (.acquired m t)) = lockWith mutex v := by
  rw [lockWith_logged (by simp [hm]) (by simp) (by simp) (by simp), lockWith_setRecursion_other hm]

/-- An operation on other objects than the mutex. -/
theorem lockWith_exec_other (hop : op.Uses mutex = false) :
    lockWith mutex (exec t b op v) = lockWith mutex v := by
  cases op with
  | semaphoreDown sem => exact lockWith_down_other (of_decide_eq_false hop)
  | semaphoreTryDown sem =>
    unfold exec
    simp only
    split
    · rw [lockWith_logged (by simp) (by simp) (by simp) (by simp),
        lockWith_setCount_other (of_decide_eq_false hop)]
    · rfl
  | semaphoreUp sem => exact lockWith_up_other (of_decide_eq_false hop)
  | mutexAcquire m =>
    have hm : m ≠ mutex := by simpa [Op.Uses] using hop
    unfold exec acquire
    simp only
    split
    · exact lockWith_again_other hm _
    · rw [lockWith_down_other (by simpa using hm)]
      rfl
  | mutexAcquired m b' =>
    have hm : m ≠ mutex := by simpa [Op.Uses] using hop
    unfold exec
    simp only
    rw [lockWith_again_other hm, lockWith_setHolder_other hm]
  | mutexRelease m => exact lockWith_release_other (by simpa [Op.Uses] using hop)
  | tryIncrement m => exact lockWith_again_other (by simpa [Op.Uses] using hop) _
  | tryDown m =>
    have hm : m ≠ mutex := by simpa [Op.Uses] using hop
    unfold exec
    simp only
    split
    · have hpush : ∀ w : Sync, lockWith mutex (w.push t [.trySetHolder m, .trySetCount m]) =
          lockWith mutex w := fun _ ↦ rfl
      rw [hpush, lockWith_logged (by simp) (by simp) (by simp) (by simp),
        lockWith_setCount_other (by simpa using hm)]
    · rfl
  | trySetHolder m => exact lockWith_setHolder_other (by simpa [Op.Uses] using hop) _
  | trySetCount m => exact lockWith_again_other (by simpa [Op.Uses] using hop) _
  | condvarWait c m =>
    have hrec : lockWith mutex (v.setRecord t .condVar (some (.condVar c))) = lockWith mutex v := rfl
    have hw : lockWith mutex (((v.setRecord t .condVar (some (.condVar c))).logged
        (.added (.waitQueue (.condvar c)) t)).logged (.waited c m t)) = lockWith mutex v := by
      rw [lockWith_logged (by simp) (by simp) (by simp) (by simp),
        lockWith_logged (by simp) (by simp) (by simp) (by simp), hrec]
    exact (lockWith_release_other (by simpa [Op.Uses] using hop)).trans hw
  | condvarReturn c m => exact lockWith_logged (by simp) (by simp) (by simp) (by simp)
  | condvarSignal c =>
    unfold exec
    simp only
    rw [lockWith_wake_other (by simp), lockWith_logged (by simp) (by simp) (by simp) (by simp)]
  | condvarBroadcast c =>
    unfold exec
    simp only
    rw [lockWith_wakeAll_other (by simp), lockWith_logged (by simp) (by simp) (by simp) (by simp)]
  | _ => rfl

/-- The state after the first operation of a task. -/
def after (t : Tid) (b : Bool) (op : Op) (ops : List Op) (v : Sync) : Sync :=
  (exec t b op v).setTask t (strip (pushes t b op v ++ ops))

/-- A step of the lock, or one that does not concern it. -/
def Moves (wraps : Prop) (mutex : MutexRef) (t : Tid) (v v' : Sync) : Prop :=
  v'.lock mutex = v.lock mutex ∨ Lock.Step wraps t (v.lock mutex) (v'.lock mutex)

/-- An operation about something else that leaves nothing behind. -/
theorem moves_away (ht : v.task t = op :: ops) (hf : Fresh ops) (hpush : pushes t b op v = [])
    (hp : phaseOf mutex (op :: ops) = .away) (hw : lockWith mutex (exec t b op v) = lockWith mutex v) :
    Moves wraps mutex t v (after t b op ops v) := by
  left
  apply lock_same (fun u hu ↦ exec_task hu b op) hw
  rw [hpush, ht, hp]
  exact hf.strip.phaseOf mutex

/-- One that leaves the thread outside the lock's code. -/
theorem lock_away (hf : Fresh ops) (hpush : pushes t b op v = []) :
    (after t b op ops v).lock mutex =
      lockWith mutex (exec t b op v) (Function.update (v.lock mutex).phase t .away) := by
  unfold after
  rw [lock_setTask fun u hu ↦ exec_task hu b op, hpush, List.nil_append, hf.strip.phaseOf mutex]

/-- One that leaves `o` behind. -/
theorem lock_pushed {o : Op} {os : List Op} (hpush : pushes t b op v ++ ops = o :: os)
    (ho : o.IsSkip = false) : (after t b op ops v).lock mutex =
      lockWith mutex (exec t b op v)
        (Function.update (v.lock mutex).phase t (phaseOf mutex (o :: os))) := by
  unfold after
  rw [lock_setTask fun u hu ↦ exec_task hu b op, hpush, strip_of_not_skip ho]

theorem moves_pushed {o : Op} {os : List Op} (ht : v.task t = op :: ops)
    (hpush : pushes t b op v ++ ops = o :: os) (ho : o.IsSkip = false)
    (hp : phaseOf mutex (o :: os) = phaseOf mutex (op :: ops))
    (hw : lockWith mutex (exec t b op v) = lockWith mutex v) :
    Moves wraps mutex t v (after t b op ops v) := by
  left
  apply lock_same (fun u hu ↦ exec_task hu b op) hw
  rw [hpush, strip_of_not_skip ho, ht, hp]

theorem phase_eq (ht : v.task t = op :: ops) : (v.lock mutex).phase t = phaseOf mutex (op :: ops) := by
  rw [← ht]
  rfl

theorem phase_away (ht : v.task t = op :: ops) (hp : phaseOf mutex (op :: ops) = .away) :
    Function.update (v.lock mutex).phase t .away = (v.lock mutex).phase := by
  rw [← hp, ← phase_eq ht]
  exact Function.update_eq_self _ _

theorem moves_mutexAcquire (ht : v.task t = .mutexAcquire m :: ops) (hf : Fresh ops)
    (hq : t ∉ (v.lock mutex).queue)
    (hn : ¬ wraps → m = mutex → v.holder mutex = some t → (v.recursionCount mutex).toNat + 1 < 2 ^ 32) :
    Moves wraps mutex t v (after t b (.mutexAcquire m) ops v) := by
  by_cases hh : v.holder m = some t
  · have hpush : pushes t b (.mutexAcquire m) v = [] := by simp [pushes, hh]
    have hexec : exec t b (.mutexAcquire m) v =
        (v.setRecursion m (v.recursionCount m + 1)).logged (.acquired m t) := by
      simp [exec, acquire, hh]
    by_cases hm : m = mutex
    · subst hm
      right
      rw [lock_away hf hpush, hexec, lockWith_again]
      exact .again (.inl ⟨phase_eq ht, hh⟩) fun hw ↦ toNat_succ (hn hw rfl hh)
    · apply moves_away ht hf hpush rfl
      rw [hexec, lockWith_again_other hm]
  · have hpush : pushes t b (.mutexAcquire m) v ++ ops = .mutexAcquired m b :: ops := by
      simp [pushes, hh]
    have hexec : exec t b (.mutexAcquire m) v = down (.ofMutex m) t
        ((v.push t [.mutexAcquired m b]).setRecord t .mutex (some (.mutex m))) := by
      simp [exec, acquire, hh]
    by_cases hm : m = mutex
    · subst hm
      right
      have hwait : phaseOf m (.mutexAcquired m b :: ops) = .waiting := by simp [phaseOf]
      rw [lock_pushed hpush rfl, hexec, hwait]
      by_cases hc : v.count (.ofMutex m) - 1 < 0
      · rw [lockWith_block (by exact hc)]
        exact .block (phase_eq ht) (show v.count (.ofMutex m) ≤ 0 by omega) hh hq
      · unfold down
        rw [if_neg (by exact hc), lockWith_grant]
        exact .grant (phase_eq ht) (show 0 < v.count (.ofMutex m) by omega) (.inl rfl)
    · apply moves_pushed ht hpush rfl
      · simp [phaseOf, hm]
      · exact lockWith_exec_other (by simp [Op.Uses, hm])

theorem moves_mutexAcquired {b' : Bool} (ht : v.task t = .mutexAcquired m b' :: ops) (hf : Fresh ops)
    (hq : t ∉ (v.lock mutex).queue) :
    Moves wraps mutex t v (after t b (.mutexAcquired m b') ops v) := by
  by_cases hm : m = mutex
  · subst hm
    right
    rw [lock_away hf rfl]
    unfold exec
    simp only
    rw [lockWith_acquired, lockWith_setRecursion, lockWith_setHolder]
    exact .enter (by rw [phase_eq ht]; simp [phaseOf]) hq
  · apply moves_away ht hf rfl
    · simp [phaseOf, hm]
    · exact lockWith_exec_other (by simp [Op.Uses, hm])

theorem moves_mutexRelease (ht : v.task t = .mutexRelease m :: ops) (hf : Fresh ops)
    (hr : v.Holds m t) : Moves wraps mutex t v (after t b (.mutexRelease m) ops v) := by
  by_cases hm : m = mutex
  · subst hm
    right
    rw [lock_away hf rfl, phase_away ht rfl]
    exact lock_release (phase_eq ht) hr
  · exact moves_away ht hf rfl rfl (lockWith_exec_other (by simp [Op.Uses, hm]))

theorem moves_tryTest (ht : v.task t = .tryTest m :: ops) :
    Moves wraps mutex t v (after t b (.tryTest m) ops v) := by
  by_cases hh : v.holder m = some t
  · have hpush : pushes t b (.tryTest m) v ++ ops = .tryIncrement m :: ops := by simp [pushes, hh]
    by_cases hm : m = mutex
    · subst hm
      right
      rw [lock_pushed hpush rfl]
      simp only [phaseOf, if_true]
      exact .test (phase_eq ht) hh
    · apply moves_pushed ht hpush rfl
      · simp [phaseOf, hm]
      · rfl
  · have hpush : pushes t b (.tryTest m) v ++ ops = .tryDown m :: ops := by simp [pushes, hh]
    exact moves_pushed ht hpush rfl rfl rfl

theorem moves_tryIncrement (ht : v.task t = .tryIncrement m :: ops) (hf : Fresh ops)
    (ho : (v.lock mutex).Token owner)
    (hn : ¬ wraps → m = mutex → v.holder mutex = some t → (v.recursionCount mutex).toNat + 1 < 2 ^ 32) :
    Moves wraps mutex t v (after t b (.tryIncrement m) ops v) := by
  by_cases hm : m = mutex
  · subst hm
    right
    have hp : (v.lock m).phase t = .increment := by
      rw [phase_eq ht]
      simp [phaseOf]
    rw [lock_away hf rfl]
    unfold exec
    simp only
    rw [lockWith_again]
    exact .again (.inr hp) fun hw ↦ toNat_succ (hn hw rfl (ho.increment t hp))
  · apply moves_away ht hf rfl
    · simp [phaseOf, hm]
    · exact lockWith_exec_other (by simp [Op.Uses, hm])

theorem moves_tryDown (ht : v.task t = .tryDown m :: ops) (hf : Fresh ops) :
    Moves wraps mutex t v (after t b (.tryDown m) ops v) := by
  by_cases hc : v.count (.ofMutex m) > 0
  · have hpush : pushes t b (.tryDown m) v ++ ops = .trySetHolder m :: .trySetCount m :: ops := by
      simp [pushes, hc]
    have hexec : lockWith mutex (exec t b (.tryDown m) v) = lockWith mutex
        ((v.setCount (.ofMutex m) (v.count (.ofMutex m) - 1)).logged (.granted (.ofMutex m) t)) := by
      simp only [exec, if_pos hc]
      rfl
    by_cases hm : m = mutex
    · subst hm
      right
      rw [lock_pushed hpush rfl, hexec, lockWith_grant]
      simp only [phaseOf, if_true]
      exact .grant (phase_eq ht) hc (.inr rfl)
    · apply moves_pushed ht hpush rfl
      · simp [phaseOf, hm]
      · exact lockWith_exec_other (by simp [Op.Uses, hm])
  · apply moves_away ht hf
    · simp [pushes, hc]
    · rfl
    · simp [exec, hc]

theorem moves_trySetHolder (ht : v.task t = .trySetHolder m :: .trySetCount m :: ops) :
    Moves wraps mutex t v (after t b (.trySetHolder m) (.trySetCount m :: ops) v) := by
  have hpush : pushes t b (.trySetHolder m) v ++ .trySetCount m :: ops = .trySetCount m :: ops := rfl
  by_cases hm : m = mutex
  · subst hm
    right
    rw [lock_pushed hpush rfl]
    unfold exec
    simp only
    rw [lockWith_setHolder]
    simp only [phaseOf, if_true]
    exact .setHolder (by rw [phase_eq ht]; simp [phaseOf])
  · apply moves_pushed ht hpush rfl
    · simp [phaseOf, hm]
    · exact lockWith_exec_other (by simp [Op.Uses, hm])

theorem moves_trySetCount (ht : v.task t = .trySetCount m :: ops) (hf : Fresh ops) :
    Moves wraps mutex t v (after t b (.trySetCount m) ops v) := by
  by_cases hm : m = mutex
  · subst hm
    right
    rw [lock_away hf rfl]
    unfold exec
    simp only
    rw [lockWith_acquired, lockWith_setRecursion]
    exact .setCount (by rw [phase_eq ht]; simp [phaseOf])
  · apply moves_away ht hf rfl
    · simp [phaseOf, hm]
    · exact lockWith_exec_other (by simp [Op.Uses, hm])

theorem moves_condvarWait {c : Nat} (ht : v.task t = .condvarWait c m :: ops) (hr : v.Holds m t) :
    Moves wraps mutex t v (after t b (.condvarWait c m) ops v) := by
  let w := ((v.setRecord t .condVar (some (.condVar c))).logged
    (.added (.waitQueue (.condvar c)) t)).logged (.waited c m t)
  have hw : lockWith mutex w = lockWith mutex v := by
    have hrec : lockWith mutex (v.setRecord t .condVar (some (.condVar c))) = lockWith mutex v := rfl
    rw [lockWith_logged (by simp) (by simp) (by simp) (by simp),
      lockWith_logged (by simp) (by simp) (by simp) (by simp), hrec]
  have hexec : lockWith mutex (exec t b (.condvarWait c m) v) = lockWith mutex (release m t w) := rfl
  have hpush : pushes t b (.condvarWait c m) v ++ ops =
      .mutexAcquire m :: .condvarReturn c m :: ops := rfl
  by_cases hm : m = mutex
  · subst hm
    right
    have hlock : w.lock m = v.lock m := congrFun hw (v.lock m).phase
    have hp : (w.lock m).phase t = .away := by
      rw [hlock]
      exact phase_eq ht
    have hstep : Lock.Step wraps t (w.lock m) (lockWith m (release m t w) (w.lock m).phase) :=
      lock_release hp hr
    have hsame : phaseOf m (.mutexAcquire m :: .condvarReturn c m :: ops) = .away := rfl
    rw [hlock] at hstep
    rw [lock_pushed hpush rfl, hexec, hsame, phase_away ht rfl]
    exact hstep
  · exact moves_pushed ht hpush rfl rfl (lockWith_exec_other (by simp [Op.Uses, hm]))

/-- Every step is a step of the lock or does not concern it. -/
theorem Step.lock (hs : Sync.Step t act v v') (hshape : ∀ u, Shaped (v.task u))
    (ho : (v.lock mutex).Token owner)
    (hn : ¬ wraps → Nests mutex act → v.holder mutex = some t →
      (v.recursionCount mutex).toNat + 1 < 2 ^ 32) : Moves wraps mutex t v v' := by
  cases hs with
  | @call _ c hc hf ht =>
    left
    apply lock_same (fun _ _ ↦ rfl) rfl
    rw [ht, c.fresh.strip.phaseOf]
    rfl
  | @exec _ w op ops b hf ht hr he =>
    subst he
    rw [exec_settle]
    have hq : t ∉ (v.lock mutex).queue := hf _
    have hsh := hshape t
    rw [ht] at hsh
    cases op with
    | mutexAcquire m =>
      exact moves_mutexAcquire ht hsh.2 hq fun hw hm ↦ hn hw (.inl (by rw [hm]))
    | mutexAcquired m b' => exact moves_mutexAcquired ht hsh.2 hq
    | mutexRelease m => exact moves_mutexRelease ht hsh.2 (hr m rfl)
    | tryTest m => exact moves_tryTest ht
    | tryIncrement m =>
      exact moves_tryIncrement ht hsh.2 ho fun hw hm ↦ hn hw (.inr (by rw [hm]))
    | tryDown m => exact moves_tryDown ht hsh.2
    | trySetHolder m =>
      obtain ⟨ops', rfl, -⟩ := hsh
      exact moves_trySetHolder ht
    | trySetCount m => exact moves_trySetCount ht hsh.2
    | condvarWait c m => exact moves_condvarWait ht (hr m rfl)
    | semaphoreDown sem | semaphoreTryDown sem | semaphoreUp sem =>
      have hs : sem ≠ .ofMutex mutex := by
        rintro rfl
        cases hsh.1
      exact moves_away ht hsh.2 rfl rfl (lockWith_exec_other (by simp [Op.Uses, hs]))
    | cpuIdleLoop => exact moves_pushed ht rfl rfl rfl rfl
    | _ => exact moves_away ht hsh.2 rfl rfl (lockWith_exec_other rfl)

/-- Whatever becomes of the count. -/
theorem Step.moves (hs : Sync.Step t act v v') (hshape : ∀ u, Shaped (v.task u))
    (ho : (v.lock mutex).Token owner) : Moves True mutex t v v' :=
  hs.lock hshape ho fun hw ↦ absurd trivial hw

end

/-- The tasks have their shape and the lock is nobody's or somebody's. -/
def Guarded (mutex : MutexRef) (v : Sync) : Prop :=
  (∀ u, Shaped (v.task u)) ∧ ∃ owner, (v.lock mutex).Token owner

theorem Guarded.step {mutex : MutexRef} {v v' : Sync} {t : Tid} {act : Act} (h : Guarded mutex v)
    (hs : Sync.Step t act v v') : Guarded mutex v' := by
  obtain ⟨hshape, owner, ho⟩ := h
  refine ⟨hs.shaped hshape, ?_⟩
  rcases hs.moves hshape ho with hsame | hstep
  · exact ⟨owner, by rwa [hsame]⟩
  · exact ho.step hstep

/-- The tasks have their shape and the lock has its owner, if it has one. -/
def Locked (mutex : MutexRef) (v : Sync) : Prop :=
  (∀ u, Shaped (v.task u)) ∧ ∃ owner, (v.lock mutex).Owned owner

theorem Locked.guarded {mutex : MutexRef} {v : Sync} (h : Locked mutex v) : Guarded mutex v := by
  obtain ⟨hshape, owner, ho⟩ := h
  exact ⟨hshape, owner, ho.toToken⟩

theorem Locked.step {mutex : MutexRef} {v v' : Sync} {t : Tid} {act : Act} (h : Locked mutex v)
    (hs : Sync.Step t act v v') (hn : Nests mutex act → heldBy mutex t v.log + 1 < 2 ^ 32) :
    Locked mutex v' := by
  obtain ⟨hshape, owner, ho⟩ := h
  refine ⟨hs.shaped hshape, ?_⟩
  have hmoves : Moves False mutex t v v' := by
    apply hs.lock hshape ho.toToken
    intro _ hnest hh
    -- the holder is inside, since it is not about to write the count
    have hp : (v.lock mutex).phase t ≠ .setCount := by
      rcases hnest with rfl | rfl
      · cases hs with
        | exec b hf ht =>
          rw [phase_eq ht]
          simp [phaseOf]
      · cases hs with
        | exec b hf ht =>
          rw [phase_eq ht]
          simp [phaseOf]
    have hd : ((v.recursionCount mutex).toNat : Int) = heldBy mutex t v.log :=
      (ho.inside t (ho.held_of_holder hh hp)).2.1
    have := hn hnest
    omega
  rcases hmoves with hsame | hstep
  · exact ⟨owner, by rwa [hsame]⟩
  · exact ho.step hstep

theorem locked_start (mutex : MutexRef) (idle : Tid) (count : Nat → Nat) :
    Locked mutex (Sync.start idle count) := by
  have htask : ∀ t, (Sync.start idle count).task t = [] ∨
      (Sync.start idle count).task t = [.cpuIdleLoop] := by
    intro t
    by_cases ht : t = idle
    · simp [start, ht]
    · simp [start, ht]
  have hphase : ∀ t, ((Sync.start idle count).lock mutex).phase t = .away := by
    intro t
    have hp : ((Sync.start idle count).lock mutex).phase t =
        phaseOf mutex ((Sync.start idle count).task t) := rfl
    rw [hp]
    rcases htask t with ht | ht <;> rw [ht] <;> rfl
  have hheld : ∀ t, ((Sync.start idle count).lock mutex).held t = 0 := fun t ↦ rfl
  refine ⟨fun t ↦ ?_, none, ⟨⟨rfl, List.nodup_nil, fun _ ↦ rfl, fun t ht ↦ (by cases ht),
    fun t ht ↦ ?_, fun t ht ↦ ?_, fun t ht ↦ ?_, fun t ht ↦ ?_, fun t ht ↦ (by cases ht),
    fun t ht ↦ (by cases ht)⟩, fun t ↦ ?_, fun t ht ↦ ?_, fun t ht ↦ (by cases ht)⟩⟩
  · rcases htask t with ht | ht
    · rw [ht]
      trivial
    · rw [ht]
      exact ⟨rfl, by simp [Fresh]⟩
  · simp [hphase] at ht
  · simp [hphase] at ht
  · simp [hphase] at ht
  · simp [hphase] at ht
  · simp [hheld]
  · simp [hheld] at ht

end Sync

theorem heldBy_sync (mutex : MutexRef) (t : Tid) (tr : List Event) :
    heldBy mutex t (tr.filter Event.IsSync) = heldBy mutex t tr := by
  unfold heldBy
  congr 2
  · rw [List.countP_filter]
    apply List.countP_congr
    intro e _
    cases e <;> simp [Event.IsSync]
  · rw [List.countP_filter]
    apply List.countP_congr
    intro e _
    cases e <;> simp [Event.IsSync]

/-- No thread acquires a mutex `2 ^ 32` times over. -/
def NestsBelow (s : State) (a : Action) : Prop :=
  ∀ mutex, a = .exec →
    s.stack.head? = some (.mutexAcquire mutex) ∨ s.stack.head? = some (.tryIncrement mutex) →
      heldBy mutex s.currentThread s.trace + 1 < 2 ^ 32

theorem Run.locked {ok : State → Action → Prop} {idle : Tid} {threads : List Tid} {s₀ s : State}
    (hr : Run ok s₀ s) (hok : ∀ s a, ok s a → Quiet s a ∧ NestsBelow s a)
    (h₀ : Calm idle threads s₀) {mutex : MutexRef} (hl : Sync.Locked mutex s₀.sync) :
    Calm idle threads s ∧ Sync.Locked mutex s.sync := by
  apply hr.sync_invariant (fun s a h ↦ (hok s a h).1) h₀ hl
  intro s a act v hc hi hq ha hs
  refine hi.step hs fun hn ↦ ?_
  have hlog : heldBy mutex s.currentThread s.sync.log = heldBy mutex s.currentThread s.trace :=
    heldBy_sync _ _ _
  rw [hlog]
  cases a with
  | interrupt => cases ha
  | alloc t => cases ha
  | call c =>
    cases ha
    rcases hn with hn | hn <;> cases hn
  | exec =>
    apply (hok s .exec hq).2 mutex rfl
    rcases hn with rfl | rfl
    · exact .inl (by simpa [State.act] using ha)
    · exact .inr (by simpa [State.act] using ha)

section

variable {idle : Tid} {threads : List Tid} {s : State}

theorem mutexRelease_not_holder {mutex : MutexRef} {e : Halt}
    (hn : s.holder mutex ≠ some s.currentThread) (hs : mutexRelease mutex s = .error e) :
    e = .panic "mutex_release(): Owner thread must release the lock" := by
  simp only [mutexRelease, kernelAssert, beq_iff_eq, hn, if_false, error_bind] at hs
  cases hs
  rfl

/-- The holder of a mutex that is about to do something else is inside. -/
theorem held_of_holder {mutex : MutexRef} (hl : Sync.Locked mutex s.sync)
    (hh : s.holder mutex = some s.currentThread)
    (hp : phaseOf mutex (strip s.stack) = .away) :
    0 < heldBy mutex s.currentThread s.trace ∧
      ((s.recursionCount mutex).toNat : Int) = heldBy mutex s.currentThread s.trace := by
  obtain ⟨-, owner, ho⟩ := hl
  have hphase : (s.sync.lock mutex).phase s.currentThread = .away := by
    show phaseOf mutex (s.sync.task s.currentThread) = .away
    rw [sync_task_current]
    exact hp
  have hpos := ho.held_of_holder (show (s.sync.lock mutex).holder = some s.currentThread from hh)
    (by rw [hphase]; simp)
  have hdepth := (ho.inside _ hpos).2.1
  have hheld : (s.sync.lock mutex).held s.currentThread = heldBy mutex s.currentThread s.trace :=
    heldBy_sync _ _ _
  rw [hheld] at hpos hdepth
  exact ⟨hpos, hdepth⟩

theorem no_overflow (hc : Calm idle threads s) (hl : ∀ mutex, Sync.Locked mutex s.sync) :
    next s .exec ≠ .error (.panic "mutex_release(): Overflow") := by
  intro hs
  by_cases hst : s.stack = []
  · simp [next, hst] at hs
  by_cases hm : s.Misused
  · obtain ⟨op, ops, mutex, hst, hrel, hn⟩ := hm
    have hnot : s.holder mutex ≠ some s.currentThread := by
      intro hh
      apply hn
      have hp : phaseOf mutex (strip s.stack) = .away := by
        rw [hst]
        cases op <;> first | rfl | cases hrel
      obtain ⟨hpos, hdepth⟩ := held_of_holder (hl mutex) hh hp
      refine ⟨hh, fun hz ↦ ?_⟩
      have hz' : s.recursionCount mutex = 0 := hz
      rw [hz'] at hdepth
      have hzero : (0 : Word).toNat = 0 := rfl
      rw [hzero] at hdepth
      omega
    simp only [next, hst] at hs
    cases op with
    | mutexRelease m =>
      cases hrel
      have := mutexRelease_not_holder (s := { s with stack := ops }) hnot hs
      simp at this
    | condvarWait c m =>
      cases hrel
      rcases bind_eq_error.mp hs with hs | ⟨_, -, hs⟩
      · have := mutexRelease_not_holder ?_ hs
        · simp at this
        · exact hnot
      · cases hs
    | _ => cases hrel
  · have he : Enabled s .exec := by
      refine ⟨hst, fun hhead ↦ ?_⟩
      obtain ⟨op, ops, hst⟩ := List.exists_cons_of_ne_nil hst
      rw [hst] at hhead
      cases hhead
      simp [next, hst, exec] at hs
    obtain ⟨s', hrun, -⟩ := hc.progress (fun _ hq ↦ by cases hq) he fun _ ↦ hm
    rw [hs] at hrun
    cases hrun

end

end AlienOS.Kernel
