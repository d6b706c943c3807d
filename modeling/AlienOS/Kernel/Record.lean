import AlienOS.Kernel.Wait

/-!
# Record — `blocker_type` and `blocked_on` of the threads that wait

The record is written before it is known whether the thread will wait and is cleared only when it is
woken, so that what an uncontended `mutex_acquire` has left is taken for one's own by a later
`semaphore_down`.
-/

open AlienOS.Lib

namespace AlienOS.Kernel

/-- The record that names the owner of a wait queue. -/
def WaitQueue.record : WaitQueue → BlockerType × Option Blocker
  | .semaphore (.ofMutex mutex) => (.mutex, some (.mutex mutex))
  | .semaphore (.user n) => (.semaphore, some (.semaphore (.user n)))
  | .condvar cond => (.condVar, some (.condVar cond))

namespace Sync

def recordOf (v : Sync) (t : Tid) : BlockerType × Option Blocker := (v.blockerType t, v.blockedOn t)

/-- Everyone waits in one place and has it on record. -/
structure Recorded (v : Sync) : Prop where
  nodup : ∀ q, (v.queue q).Nodup
  alone : ∀ t q q', t ∈ v.queue q → t ∈ v.queue q' → q' = q
  record : ∀ t q, t ∈ v.queue q → v.recordOf t = q.record

/-- Everyone waits in one place, and those in the queues `W` have it on record. -/
structure RecordedIn (W : WaitQueue → Prop) (v : Sync) : Prop where
  nodup : ∀ q, (v.queue q).Nodup
  alone : ∀ t q q', t ∈ v.queue q → t ∈ v.queue q' → q' = q
  record : ∀ t q, W q → t ∈ v.queue q → v.recordOf t = q.record

theorem recordedIn_all {v : Sync} : RecordedIn (fun _ ↦ True) v ↔ Recorded v :=
  ⟨fun h ↦ ⟨h.nodup, h.alone, fun t q ↦ h.record t q trivial⟩,
    fun h ↦ ⟨h.nodup, h.alone, fun t q _ ↦ h.record t q⟩⟩

namespace RecordedIn

variable {W : WaitQueue → Prop} {v w : Sync} {t x : Tid} {q : WaitQueue} {mutex : MutexRef}

/-- The record of a thread that waits for nobody does not matter. -/
theorem congr (h : RecordedIn W v) (hq : w.queue = v.queue)
    (hr : ∀ t q, t ∈ v.queue q → w.recordOf t = v.recordOf t) : RecordedIn W w := by
  refine ⟨fun q ↦ ?_, fun t q q' ↦ ?_, fun t q hw ht ↦ ?_⟩
  · rw [hq]
    exact h.nodup q
  · rw [hq]
    exact h.alone t q q'
  · rw [hq] at ht
    rw [hr t q ht]
    exact h.record t q hw ht

theorem setRecord (h : RecordedIn W v) (hf : v.Free t) (type : BlockerType) (on : Option Blocker) :
    RecordedIn W (v.setRecord t type on) := by
  refine h.congr rfl fun u q hu ↦ ?_
  have hut : u ≠ t := by
    rintro rfl
    exact hf q hu
  simp [recordOf, Sync.setRecord, hut]

theorem logged {e : Event} (h : RecordedIn W v) (ha : ∀ q u, e ≠ .added (.waitQueue q) u)
    (hr : ∀ q u, e ≠ .removed (.waitQueue q) u) : RecordedIn W (v.logged e) := by
  apply h.congr
  · funext q
    exact listsOf_other v.log (ha q) (hr q)
  · exact fun _ _ _ ↦ rfl

/-- A thread that has its record right queues. -/
theorem added (h : RecordedIn W v) (hf : v.Free t) (hr : W q → v.recordOf t = q.record) :
    RecordedIn W (v.logged (.added (.waitQueue q) t)) := by
  have hqueue : (v.logged (.added (.waitQueue q) t)).queue =
      Function.update v.queue q (v.queue q ++ [t]) := by
    funext p
    by_cases hp : p = q
    · subst hp
      simp [queue, Sync.logged, listsOf, Event.onLists]
    · simp [queue, Sync.logged, listsOf, Event.onLists, hp]
  have hmem : ∀ u p, u ∈ (v.logged (.added (.waitQueue q) t)).queue p ↔
      u ∈ v.queue p ∨ p = q ∧ u = t := by
    intro u p
    rw [hqueue]
    by_cases hp : p = q
    · subst hp
      simp
    · simp [hp]
  refine ⟨fun p ↦ ?_, fun u p p' hu hu' ↦ ?_, fun u p hw hu ↦ ?_⟩
  · rw [hqueue]
    by_cases hp : p = q
    · subst hp
      rw [Function.update_self]
      apply List.nodup_append.mpr
      refine ⟨h.nodup p, List.nodup_singleton t, fun y hy z hz he ↦ hf p ?_⟩
      rwa [he, List.mem_singleton.mp hz] at hy
    · rw [Function.update_of_ne hp]
      exact h.nodup p
  · rcases (hmem u p).mp hu with hu | ⟨rfl, rfl⟩
    · rcases (hmem u p').mp hu' with hu' | ⟨-, hut⟩
      · exact h.alone u p p' hu hu'
      · rw [hut] at hu
        exact absurd hu (hf p)
    · rcases (hmem _ p').mp hu' with hu' | ⟨hp', -⟩
      · exact absurd hu' (hf p')
      · exact hp'
  · rcases (hmem u p).mp hu with hu | ⟨rfl, rfl⟩
    · exact h.record u p hw hu
    · exact hr hw

/-- A thread that is woken has no record and needs none. -/
theorem woken (h : RecordedIn W v) (hx : x ∈ v.queue q) : RecordedIn W (v.woken q x) := by
  have hqueue : (v.woken q x).queue = Function.update v.queue q ((v.queue q).erase x) := by
    funext p
    by_cases hp : p = q
    · subst hp
      simp [queue, Sync.woken, Sync.logged, Sync.setRecord, listsOf, Event.onLists]
    · simp [queue, Sync.woken, Sync.logged, Sync.setRecord, listsOf, Event.onLists, hp]
  have hmem : ∀ u p, u ∈ (v.woken q x).queue p → u ∈ v.queue p ∧ u ≠ x := by
    intro u p hu
    rw [hqueue] at hu
    by_cases hp : p = q
    · subst hp
      rw [Function.update_self] at hu
      exact ⟨List.mem_of_mem_erase hu, ((h.nodup p).mem_erase_iff.mp hu).1⟩
    · rw [Function.update_of_ne hp] at hu
      refine ⟨hu, ?_⟩
      rintro rfl
      exact hp (h.alone u q p hx hu)
  refine ⟨fun p ↦ ?_, fun u p p' hu hu' ↦ h.alone u p p' (hmem u p hu).1 (hmem u p' hu').1,
    fun u p hw hu ↦ ?_⟩
  · rw [hqueue]
    by_cases hp : p = q
    · subst hp
      rw [Function.update_self]
      exact (h.nodup p).erase x
    · rw [Function.update_of_ne hp]
      exact h.nodup p
  · obtain ⟨hu, hne⟩ := hmem u p hu
    have hrec : (v.woken q x).recordOf u = v.recordOf u := by
      simp [recordOf, Sync.woken, Sync.logged, Sync.setRecord, hne]
    rw [hrec]
    exact h.record u p hw hu

theorem wake (h : RecordedIn W v) (q : WaitQueue) : RecordedIn W (wake q v) := by
  unfold Sync.wake
  split
  · exact h
  · rename_i hq
    exact h.woken (by simp [hq])

theorem wakeAll (h : RecordedIn W v) (q : WaitQueue) : RecordedIn W (wakeAll q v) := by
  have hall : ∀ (xs : List Tid) (v : Sync), RecordedIn W v → (∀ x ∈ xs, x ∈ v.queue q) → xs.Nodup →
      RecordedIn W (xs.foldl (fun v x ↦ v.woken q x) v) := by
    intro xs
    induction xs with
    | nil => exact fun _ h _ _ ↦ h
    | cons x xs ih =>
      intro v h hx hnd
      obtain ⟨hn, hnd⟩ := List.nodup_cons.mp hnd
      apply ih _ (h.woken (hx x List.mem_cons_self)) _ hnd
      intro y hy
      have hyx : y ≠ x := by
        rintro rfl
        exact hn hy
      have hlist : (v.woken q x).queue q = (v.queue q).erase x := by
        simp [queue, Sync.woken, Sync.logged, Sync.setRecord, listsOf, Event.onLists]
      rw [hlist]
      exact (List.mem_erase_of_ne hyx).mpr (hx y (List.mem_cons_of_mem _ hy))
  exact hall _ v h (fun _ hx ↦ hx) (h.nodup q)

theorem up (h : RecordedIn W v) (sem : SemRef) (t : Tid) : RecordedIn W (up sem t v) := by
  apply wake
  exact (h.congr (w := v.setCount sem _) rfl fun _ _ _ ↦ rfl).logged (by simp) (by simp)

theorem release (h : RecordedIn W v) (mutex : MutexRef) (t : Tid) : RecordedIn W (release mutex t v) := by
  have h' : RecordedIn W ((v.setRecursion mutex (v.recursionCount mutex - 1)).logged
      (.released mutex t)) :=
    (h.congr (w := v.setRecursion mutex _) rfl fun _ _ _ ↦ rfl).logged (by simp) (by simp)
  unfold Sync.release
  simp only
  split
  · apply RecordedIn.up
    exact h'.congr rfl fun _ _ _ ↦ rfl
  · exact h'

/-- A down that has to wait leaves the right record if the caller's was right or empty. -/
theorem down (h : RecordedIn W v) (hf : v.Free t) {sem : SemRef}
    (hr : W (.semaphore sem) → v.count sem - 1 < 0 →
      (note sem t v).recordOf t = (WaitQueue.semaphore sem).record) :
    RecordedIn W (down sem t v) := by
  have hnote : RecordedIn W (note sem t v) ∧ (note sem t v).Free t := by
    unfold note
    split
    · exact ⟨h.setRecord hf _ _, hf⟩
    · exact ⟨h, hf⟩
  unfold Sync.down
  split
  · rename_i hn
    have hcount : RecordedIn W ((note sem t v).setCount sem (v.count sem - 1)) :=
      hnote.1.congr rfl fun _ _ _ ↦ rfl
    exact hcount.added hnote.2 fun hw ↦ hr hw hn
  · exact (h.congr (w := v.setCount sem _) rfl fun _ _ _ ↦ rfl).logged (by simp) (by simp)

theorem acquire (h : RecordedIn W v) (hf : v.Free t) (mutex : MutexRef) (b : Bool) :
    RecordedIn W (acquire mutex t b v) := by
  unfold Sync.acquire
  split
  · exact (h.congr (w := v.setRecursion mutex _) rfl fun _ _ _ ↦ rfl).logged (by simp) (by simp)
  · have hpush : RecordedIn W (v.push t [.mutexAcquired mutex b]) := h.congr rfl fun _ _ _ ↦ rfl
    have hrec := hpush.setRecord (t := t) hf .mutex (some (.mutex mutex))
    apply hrec.down hf
    intro _ _
    have hne : ¬ ((v.push t [.mutexAcquired mutex b]).setRecord t .mutex
        (some (.mutex mutex))).blockerType t = .none := by
      simp [Sync.setRecord]
    unfold note
    rw [if_neg hne]
    simp [recordOf, Sync.setRecord, WaitQueue.record]

theorem exec (h : RecordedIn W v) (hf : v.Free t) (b : Bool) {op : Op} (hop : op.IsInner = false)
    (hn : ∀ n, W (.semaphore (.user n)) → op = .semaphoreDown (.user n) → v.count (.user n) ≤ 0 →
      v.blockerType t = .none) :
    RecordedIn W (exec t b op v) := by
  cases op with
  | semaphoreDown sem =>
    cases sem with
    | ofMutex m => cases hop
    | user n =>
      apply h.down hf
      intro hw hc
      have hnone := hn n hw rfl (by omega)
      unfold note
      rw [if_pos hnone]
      simp [recordOf, Sync.setRecord, WaitQueue.record]
  | semaphoreTryDown sem =>
    unfold Sync.exec
    simp only
    split
    · exact (h.congr (w := v.setCount sem _) rfl fun _ _ _ ↦ rfl).logged (by simp) (by simp)
    · exact h
  | semaphoreUp sem => exact h.up _ _
  | mutexAcquire m => exact h.acquire hf m b
  | mutexAcquired m b =>
    exact (h.congr (w := (v.setHolder m _).setRecursion m _) rfl fun _ _ _ ↦ rfl).logged (by simp)
      (by simp)
  | mutexRelease m => exact h.release _ _
  | tryIncrement m | trySetCount m =>
    exact (h.congr (w := v.setRecursion m _) rfl fun _ _ _ ↦ rfl).logged (by simp) (by simp)
  | tryDown m =>
    unfold Sync.exec
    simp only
    split
    · have h' := (h.congr (w := v.setCount (.ofMutex m) (v.count (.ofMutex m) - 1)) rfl
        fun _ _ _ ↦ rfl).logged (e := .granted (.ofMutex m) t) (by simp) (by simp)
      exact h'.congr rfl fun _ _ _ ↦ rfl
    · exact h
  | condvarWait c m =>
    have hq : RecordedIn W ((v.setRecord t .condVar (some (.condVar c))).logged
        (.added (.waitQueue (.condvar c)) t)) := by
      apply (h.setRecord hf .condVar (some (.condVar c))).added hf
      intro _
      simp [recordOf, Sync.setRecord, WaitQueue.record]
    have hr := (hq.logged (e := .waited c m t) (by simp) (by simp)).release m t
    exact hr.congr rfl fun _ _ _ ↦ rfl
  | condvarReturn c m => exact h.logged (by simp) (by simp)
  | condvarSignal c => exact (h.logged (by simp) (by simp)).wake _
  | condvarBroadcast c => exact (h.logged (by simp) (by simp)).wakeAll _
  | _ => exact h.congr rfl fun _ _ _ ↦ rfl

/-- The step lemma. -/
theorem step {act : Act} {v' : Sync} (h : RecordedIn W v) (hshape : ∀ u, Shaped (v.task u))
    (hs : Sync.Step t act v v')
    (hn : ∀ n, W (.semaphore (.user n)) → act = .exec (.semaphoreDown (.user n)) →
      v.count (.user n) ≤ 0 → v.blockerType t = .none) : RecordedIn W v' := by
  cases hs with
  | call => exact h.congr rfl fun _ _ _ ↦ rfl
  | @exec _ w op ops b hf ht hr he =>
    subst he
    have hop : op.IsInner = false := by
      have hsh := hshape t
      rw [ht] at hsh
      cases op with
      | trySetHolder m => rfl
      | _ => exact hsh.1
    have hset : RecordedIn W (v.setTask t ops) := h.congr rfl fun _ _ _ ↦ rfl
    have h' := hset.exec (t := t) hf b hop fun n hw hd hc ↦ hn n hw (by rw [hd]) hc
    exact h'.congr rfl fun _ _ _ ↦ rfl

theorem start (idle : Tid) (count : Nat → Nat) : RecordedIn W (Sync.start idle count) :=
  ⟨fun _ ↦ List.nodup_nil, fun _ _ _ ht ↦ (by cases ht), fun _ _ _ ht ↦ (by cases ht)⟩

end RecordedIn

end Sync

/-- A thread that has to wait for a semaphore comes with an empty record. -/
def Unstale (s : State) (a : Action) : Prop :=
  ∀ n, a = .exec → s.stack.head? = some (.semaphoreDown (.user n)) → s.count (.user n) ≤ 0 →
    s.blockerType s.currentThread = .none

/-- `main` acquires a mutex nobody else wants, and then waits for a semaphore. -/
def waitAfterAcquire : List Action :=
  [.call (.mutexAcquire 0), .exec, .exec, .call (.semaphoreDown 0), .exec]

end AlienOS.Kernel
