import AlienOS.Kernel.Record

/-!
# Owner — whether a mutex that is waited for has a holder

`mutex_release` clears `holder` and wakes the first thread in the queue, which writes its own name
only when it next runs.  Until then the others wait for a mutex without a holder.
-/

open AlienOS.Lib

namespace AlienOS.Kernel

/-- The queue of a mutex. -/
def MutexRef.queue (mutex : MutexRef) : WaitQueue := .semaphore (.ofMutex mutex)

/-! ## `thread_debug_synch_dependencies` -/

/-- What it prints about a thread; `mutex->holder->tid` is read through `holder`. -/
inductive DebugLine where
  | mutex (mutex : MutexRef) (holder : Option Tid)
  | semaphore (sem : SemRef)
  | condVar (cond : Nat)
  deriving DecidableEq, Repr

/-- Its loop at one thread. -/
def threadDebugSynchDependency (thread : Tid) (s : State) : Except Halt (Option DebugLine) :=
  if s.status thread = .blocked then
    match s.blockerType thread, s.blockedOn thread with
    | .mutex, some (.mutex mutex) => .ok (some (.mutex mutex (s.holder mutex)))
    | .semaphore, some (.semaphore sem) => .ok (some (.semaphore sem))
    | .condVar, some (.condVar cond) => .ok (some (.condVar cond))
    | _, _ => .error (.panic <| "thread_debug_synch_dependences(): " ++
        "blocked thread is not blocked on synchronization primitive")
  else .ok none

/-! ## The holder of a contended mutex -/

/-- A mutex is given up with at most one thread waiting for it, and nobody starts to wait for a
mutex without a holder. -/
def Attended (s : State) (a : Action) : Prop :=
  ∀ op ops mutex, a = .exec → s.stack = op :: ops →
    (Sync.Releases op = some mutex → s.recursionCount mutex = 1 →
      (listsOf s.trace (.waitQueue mutex.queue)).length ≤ 1) ∧
    (op = .mutexAcquire mutex → s.holder mutex = none → 0 < s.count (.ofMutex mutex))

namespace Sync

variable {v v' : Sync} {t : Tid} {act : Act} {mutex : MutexRef}

theorem wake_holder (q : WaitQueue) : (wake q v).holder = v.holder := by
  unfold wake
  split <;> rfl

theorem down_holder (sem : SemRef) : (down sem t v).holder = v.holder := by
  unfold down note
  split
  · split <;> rfl
  · rfl

theorem wakeAll_holder (q : WaitQueue) : (wakeAll q v).holder = v.holder := by
  have hall : ∀ (xs : List Tid) (v : Sync),
      (xs.foldl (fun v x ↦ v.woken q x) v).holder = v.holder := by
    intro xs
    induction xs with
    | nil => exact fun _ ↦ rfl
    | cons x xs ih => exact fun v ↦ ih (v.woken q x)
  exact hall _ v

theorem release_holder_other {m : MutexRef} (hm : mutex ≠ m) :
    (release m t v).holder mutex = v.holder mutex := by
  unfold release
  simp only
  split
  · rw [up_holder]
    exact Function.update_of_ne hm _ _
  · rfl

/-- Only a release takes the holder away. -/
theorem exec_holder {op : Op} (b : Bool) (hop : Releases op ≠ some mutex)
    (hh : v.holder mutex ≠ none) : (exec t b op v).holder mutex ≠ none := by
  have hsame : ∀ w : Sync, w.holder = v.holder → w.holder mutex ≠ none := by
    intro w hw
    rwa [hw]
  cases op with
  | semaphoreDown sem => exact hsame _ (down_holder sem)
  | semaphoreTryDown sem =>
    unfold exec
    simp only
    split
    · exact hsame _ rfl
    · exact hh
  | semaphoreUp sem => exact hsame _ (up_holder sem)
  | mutexAcquire m =>
    unfold exec acquire
    simp only
    split
    · exact hsame _ rfl
    · exact hsame _ (down_holder _)
  | mutexAcquired m b' | trySetHolder m =>
    by_cases hm : mutex = m
    · subst hm
      simp [exec, setHolder, setRecursion, logged]
    · simpa [exec, setHolder, setRecursion, logged, Function.update_of_ne hm] using hh
  | mutexRelease m =>
    have hm : mutex ≠ m := fun he ↦ hop (congrArg some he.symm)
    unfold exec
    simp only
    rwa [release_holder_other hm]
  | tryDown m =>
    unfold exec
    simp only
    split
    · exact hsame _ rfl
    · exact hh
  | condvarWait c m =>
    have hm : mutex ≠ m := fun he ↦ hop (congrArg some he.symm)
    unfold exec
    show (release m t _).holder mutex ≠ none
    rw [release_holder_other hm]
    exact hh
  | condvarSignal c => exact hsame _ (wake_holder _)
  | condvarBroadcast c => exact hsame _ (wakeAll_holder _)
  | _ => exact hh

theorem Step.released (hs : Sync.Step t act v v') (hh : v.holder mutex ≠ none)
    (hn : v'.holder mutex = none) : ∃ op, act = .exec op ∧ Releases op = some mutex := by
  cases hs with
  | call => exact absurd hn hh
  | @exec _ w op ops b hf ht hr he =>
    subst he
    refine ⟨op, rfl, ?_⟩
    by_contra hop
    have hx := exec_holder (t := t) (v := v.setTask t ops) b hop hh
    exact hx hn

/-- Whoever starts to wait for a mutex has called `mutex_acquire`. -/
theorem Step.starts_to_wait {op : Op} (hs : Sync.Step t (.exec op) v v')
    (hshape : ∀ u, Shaped (v.task u)) (h : t ∈ v'.queue mutex.queue) :
    op = .mutexAcquire mutex := by
  obtain ⟨b, ops, ht, -⟩ := hs.task_self
  have hsh := hshape t
  rw [ht] at hsh
  rcases hs.joined h with hop | hop
  · subst hop
    cases hsh.1
  · exact hop

/-- The step lemma: a mutex that somebody waits for has a holder. -/
theorem Step.contended (hs : Sync.Step t act v v') (hg : Guarded mutex v)
    (h : v.queue mutex.queue ≠ [] → v.holder mutex ≠ none)
    (hrel : ∀ op, act = .exec op → Releases op = some mutex → v.recursionCount mutex = 1 →
      (v.queue mutex.queue).length ≤ 1)
    (hacq : act = .exec (.mutexAcquire mutex) → v.holder mutex = none →
      0 < v.count (.ofMutex mutex)) :
    v'.queue mutex.queue ≠ [] → v'.holder mutex ≠ none := by
  obtain ⟨hshape, owner, ho⟩ := hg
  have hcount : 0 < (v.lock mutex).count → (v.lock mutex).queue = [] := by
    intro hpos
    have hc := ho.count_eq
    by_contra hq
    have hlen := List.length_pos_iff.mpr hq
    have hn : owner ≠ none := fun hn ↦ hq (ho.free hn)
    rw [if_neg hn] at hc
    omega
  suffices hl : (v'.lock mutex).queue ≠ [] → (v'.lock mutex).holder ≠ none from hl
  rcases hs.moves hshape ho with hsame | hstep
  · rw [hsame]
    exact h
  · generalize hv : v'.lock mutex = l at hstep
    cases hstep with
    | again | setCount | test | leave => exact h
    | grant hp hn => exact fun hq ↦ absurd (hcount hn) hq
    | enter | setHolder => simp
    | free hp hh hd hq => exact fun hq' ↦ absurd hq hq'
    | block hp hn hh hq =>
      -- the thread that joins has found the count used up
      intro _ hnone
      have hjoin : t ∈ v'.queue mutex.queue := by
        have hqueue : v'.queue mutex.queue = (v.lock mutex).queue ++ [t] := congrArg Lock.queue hv
        rw [hqueue]
        simp
      obtain hold | ⟨-, op, rfl, -⟩ := hs.joins hjoin
      · exact hq hold
      · have hop := hs.starts_to_wait hshape hjoin
        subst hop
        have hpos : 0 < (v.lock mutex).count := hacq rfl hnone
        omega
    | @handOver x xs hp hh hd hq =>
      -- one thread is woken, and it was the only one
      intro hxs
      have hnone : v'.holder mutex = none := congrArg Lock.holder hv
      have hh' : v.holder mutex ≠ none := fun hn ↦ by
        have hhold : v.holder mutex = some t := hh
        rw [hn] at hhold
        cases hhold
      obtain ⟨op, hact, hop⟩ := hs.released hh' hnone
      have hone : v.recursionCount mutex = 1 := BitVec.eq_of_toNat_eq hd
      have hlen : (v.lock mutex).queue.length ≤ 1 := hrel op hact hop hone
      rw [hq, List.length_cons] at hlen
      have hzero : xs.length = 0 := by omega
      exact absurd (List.length_eq_zero_iff.mp hzero) hxs

end Sync

/-- `main` gives up a mutex that `3` and `4` wait for. -/
def releaseToTwo : List Action :=
  [.call (.mutexAcquire 0), .exec, .exec, .interrupt, .exec, .exec] ++
    [.call (.mutexAcquire 0), .exec, .exec, .exec, .exec] ++
    [.call (.mutexAcquire 0), .exec, .exec, .exec, .exec] ++ [.call (.mutexRelease 0), .exec]

end AlienOS.Kernel
