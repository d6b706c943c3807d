import AlienOS.Kernel.Scheduler

/-!
# Semaphore — what a semaphore's count counts, and who gets it next
-/

open AlienOS.Lib

namespace AlienOS.Kernel

/-- How often a semaphore was upped. -/
def upsOf (sem : SemRef) (tr : List Event) : Nat :=
  tr.countP fun
    | .upped sem' _ => sem' = sem
    | _ => false

/-- How many downs went through at once. -/
def grantsOf (sem : SemRef) (tr : List Event) : Nat :=
  tr.countP fun
    | .granted sem' _ => sem' = sem
    | _ => false

/-- Nobody was waiting whenever a down went through at once. -/
def Unbarged (sem : SemRef) : List Event → Prop
  | [] => True
  | e :: tr => (∀ t, e = .granted sem t → listsOf tr (.waitQueue (.semaphore sem)) = []) ∧
      Unbarged sem tr

theorem upsOf_sync (sem : SemRef) (tr : List Event) :
    upsOf sem (tr.filter Event.IsSync) = upsOf sem tr := by
  unfold upsOf
  rw [List.countP_filter]
  apply List.countP_congr
  intro e _
  cases e <;> simp [Event.IsSync]

theorem grantsOf_sync (sem : SemRef) (tr : List Event) :
    grantsOf sem (tr.filter Event.IsSync) = grantsOf sem tr := by
  unfold grantsOf
  rw [List.countP_filter]
  apply List.countP_congr
  intro e _
  cases e <;> simp [Event.IsSync]

theorem joined_sync (q : WaitQueue) (tr : List Event) :
    joined (.waitQueue q) (tr.filter Event.IsSync) = joined (.waitQueue q) tr := by
  induction tr with
  | nil => rfl
  | cons e tr ih =>
    rw [List.filter_cons]
    cases e with
    | added i t => cases i <;> simp [Event.IsSync, joined, ih]
    | removed i t => cases i <;> simp [Event.IsSync, joined, ih]
    | _ => simp [Event.IsSync, joined, ih]

theorem unbarged_sync (sem : SemRef) (tr : List Event) :
    Unbarged sem (tr.filter Event.IsSync) ↔ Unbarged sem tr := by
  induction tr with
  | nil => rfl
  | cons e tr ih =>
    rw [List.filter_cons]
    by_cases he : e.IsSync = true
    · rw [if_pos he]
      unfold Unbarged
      rw [listsOf_sync, ih]
    · rw [if_neg he, ih]
      have hne : ∀ t, e ≠ .granted sem t := by
        rintro t rfl
        exact he rfl
      exact ⟨fun h ↦ ⟨fun t ht ↦ absurd ht (hne t), h⟩, fun h ↦ h.2⟩

/-- The books of a semaphore that was initialised with `k`. -/
structure Accounts (k : Int) (sem : SemRef) (v : Sync) : Prop where
  balance : v.count sem = k + upsOf sem v.log - grantsOf sem v.log -
    (joined (.waitQueue (.semaphore sem)) v.log).length
  waiting : ((v.queue (.semaphore sem)).length : Int) = max (-v.count sem) 0
  unbarged : Unbarged sem v.log

namespace Accounts

variable {k : Int} {sem : SemRef} {v : Sync} {t : Tid}

theorem congr {w : Sync} (h : Accounts k sem v) (hc : w.count = v.count) (hl : w.log = v.log) :
    Accounts k sem w := by
  obtain ⟨h₁, h₂, h₃⟩ := h
  refine ⟨?_, ?_, ?_⟩
  · rw [hc, hl]
    exact h₁
  · rw [hc, Sync.queue, hl]
    exact h₂
  · rw [hl]
    exact h₃

/-- Events about other objects. -/
theorem logged {e : Event} (h : Accounts k sem v) (hu : ∀ u, e ≠ .upped sem u)
    (hg : ∀ u, e ≠ .granted sem u) (ha : ∀ u, e ≠ .added (.waitQueue (.semaphore sem)) u)
    (hr : ∀ u, e ≠ .removed (.waitQueue (.semaphore sem)) u) : Accounts k sem (v.logged e) := by
  have hlist := listsOf_other v.log ha hr
  have hjoin : joined (.waitQueue (.semaphore sem)) (e :: v.log) =
      joined (.waitQueue (.semaphore sem)) v.log := by
    cases e with
    | added i x =>
      have hi : i ≠ .waitQueue (.semaphore sem) := by
        rintro rfl
        exact ha x rfl
      simp [joined, hi]
    | _ => rfl
  have hup : upsOf sem (e :: v.log) = upsOf sem v.log := by
    cases e with
    | upped sem' x =>
      have hi : sem' ≠ sem := by
        rintro rfl
        exact hu x rfl
      simp [upsOf, hi]
    | _ => simp [upsOf]
  have hgr : grantsOf sem (e :: v.log) = grantsOf sem v.log := by
    cases e with
    | granted sem' x =>
      have hi : sem' ≠ sem := by
        rintro rfl
        exact hg x rfl
      simp [grantsOf, hi]
    | _ => simp [grantsOf]
  obtain ⟨h₁, h₂, h₃⟩ := h
  refine ⟨?_, ?_, ⟨fun u hu ↦ absurd hu (hg u), h₃⟩⟩
  · simp only [Sync.logged, hup, hgr, hjoin]
    exact h₁
  · simp only [Sync.logged, Sync.queue, hlist]
    exact h₂

theorem note (h : Accounts k sem v) (sem' : SemRef) (t : Tid) :
    Accounts k sem (Sync.note sem' t v) := by
  unfold Sync.note
  split
  · exact h.congr rfl rfl
  · exact h

theorem setCount_other {sem' : SemRef} (h : Accounts k sem v) (hs : sem' ≠ sem) (n : Int) :
    Accounts k sem (v.setCount sem' n) := by
  obtain ⟨h₁, h₂, h₃⟩ := h
  have hc : (v.setCount sem' n).count sem = v.count sem := Function.update_of_ne hs.symm _ _
  exact ⟨hc.trans h₁, by rw [hc]; exact h₂, h₃⟩

/-- A down that goes through finds nobody waiting. -/
theorem grant (h : Accounts k sem v) (hn : 0 < v.count sem) (t : Tid) :
    Accounts k sem ((v.setCount sem (v.count sem - 1)).logged (.granted sem t)) := by
  obtain ⟨h₁, h₂, h₃⟩ := h
  have hempty : v.queue (.semaphore sem) = [] := by
    rw [← List.length_eq_zero_iff]
    omega
  refine ⟨?_, ?_, ⟨fun _ _ ↦ hempty, h₃⟩⟩
  · simp only [Sync.logged, Sync.setCount, Function.update_self, upsOf, grantsOf, joined,
      List.countP_cons] at h₁ ⊢
    simp
    omega
  · have hq : ((v.setCount sem (v.count sem - 1)).logged (.granted sem t)).queue
        (.semaphore sem) = [] := hempty
    rw [hq]
    simp only [Sync.logged, Sync.setCount, Function.update_self, List.length_nil]
    omega

theorem grant_any {sem' : SemRef} (h : Accounts k sem v) (hn : 0 < v.count sem') (t : Tid) :
    Accounts k sem ((v.setCount sem' (v.count sem' - 1)).logged (.granted sem' t)) := by
  by_cases hs : sem' = sem
  · subst hs
    exact h.grant hn t
  · exact (h.setCount_other hs _).logged (by simp) (by simp [hs]) (by simp) (by simp)

/-- A down either goes through or queues. -/
theorem down (h : Accounts k sem v) (sem' : SemRef) (t : Tid) :
    Accounts k sem (Sync.down sem' t v) := by
  unfold Sync.down
  split
  · rename_i hn
    have h' := h.note sem' t
    have hcount : (Sync.note sem' t v).count = v.count := by
      unfold Sync.note
      split <;> rfl
    by_cases hs : sem' = sem
    · subst hs
      obtain ⟨h₁, h₂, h₃⟩ := h'
      rw [hcount] at h₁ h₂
      refine ⟨?_, ?_, ⟨fun u hu ↦ (by cases hu), h₃⟩⟩
      · simp only [Sync.logged, Sync.setCount, Function.update_self, upsOf, grantsOf, joined,
          List.countP_cons, if_true, List.length_append, List.length_singleton] at h₁ ⊢
        push_cast
        omega
      · simp only [Sync.logged, Sync.setCount, Sync.queue, listsOf, Event.onLists,
          Function.update_self, List.length_append, List.length_singleton] at h₂ ⊢
        push_cast
        omega
    · exact (h'.setCount_other hs _).logged (by simp) (by simp) (by simp [hs]) (by simp)
  · rename_i hn
    exact h.grant_any (by omega) t

/-- Waking on another queue. -/
theorem wake_other {q : WaitQueue} (h : Accounts k sem v) (hq : q ≠ .semaphore sem) :
    Accounts k sem (Sync.wake q v) := by
  unfold Sync.wake
  split
  · exact h
  · exact (h.congr (w := v.setRecord _ _ _) rfl rfl).logged (by simp) (by simp) (by simp)
      (by simpa using hq)

theorem wakeAll_other {q : WaitQueue} (h : Accounts k sem v) (hq : q ≠ .semaphore sem) :
    Accounts k sem (Sync.wakeAll q v) := by
  unfold Sync.wakeAll
  generalize v.queue q = xs
  induction xs generalizing v with
  | nil => exact h
  | cons x xs ih =>
    exact ih ((h.congr (w := v.setRecord x .none none) rfl rfl).logged (by simp) (by simp)
      (by simp) (by simpa using hq))

/-- An up wakes exactly one waiter if there is one, and raises the count otherwise. -/
theorem up (h : Accounts k sem v) (sem' : SemRef) (t : Tid) :
    Accounts k sem (Sync.up sem' t v) := by
  unfold Sync.up
  by_cases hs : sem' = sem
  · subst hs
    obtain ⟨h₁, h₂, h₃⟩ := h
    have hqueue : ((v.setCount sem' (v.count sem' + 1)).logged (.upped sem' t)).queue
        (.semaphore sem') = v.queue (.semaphore sem') := rfl
    unfold Sync.wake
    rw [hqueue]
    cases hq : v.queue (.semaphore sem') with
    | nil =>
      rw [hq] at h₂
      refine ⟨?_, ?_, ⟨fun u hu ↦ (by cases hu), h₃⟩⟩
      · simp only [Sync.logged, Sync.setCount, Function.update_self, upsOf, grantsOf, joined,
          List.countP_cons] at h₁ ⊢
        simp
        omega
      · simp only [hqueue, hq]
        simp only [Sync.logged, Sync.setCount, Function.update_self, List.length_nil] at h₂ ⊢
        omega
    | cons x xs =>
      have hlist : listsOf v.log (.waitQueue (.semaphore sem')) = x :: xs := hq
      rw [hq] at h₂
      refine ⟨?_, ?_, ⟨fun u hu ↦ (by cases hu), ⟨fun u hu ↦ (by cases hu), h₃⟩⟩⟩
      · simp only [Sync.woken, Sync.setRecord, Sync.logged, Sync.setCount, Function.update_self,
          upsOf, grantsOf, joined, List.countP_cons] at h₁ ⊢
        simp
        omega
      · simp only [Sync.woken, Sync.setRecord, Sync.logged, Sync.setCount, Sync.queue, listsOf,
          Event.onLists, Function.update_self, hlist, List.erase_cons_head,
          List.length_cons] at h₂ ⊢
        push_cast at h₂ ⊢
        omega
  · apply wake_other
    · exact (h.setCount_other hs _).logged (by simp [hs]) (by simp) (by simp) (by simp)
    · simpa using hs

theorem release (h : Accounts k sem v) (mutex : MutexRef) (t : Tid) :
    Accounts k sem (Sync.release mutex t v) := by
  unfold Sync.release
  have h' : Accounts k sem ((v.setRecursion mutex (v.recursionCount mutex - 1)).logged
      (.released mutex t)) :=
    (h.congr (w := v.setRecursion mutex _) rfl rfl).logged (by simp) (by simp) (by simp) (by simp)
  simp only
  split
  · apply Accounts.up
    exact h'.congr rfl rfl
  · exact h'

theorem acquire (h : Accounts k sem v) (mutex : MutexRef) (t : Tid) (b : Bool) :
    Accounts k sem (Sync.acquire mutex t b v) := by
  unfold Sync.acquire
  split
  · exact (h.congr (w := v.setRecursion mutex _) rfl rfl).logged (by simp) (by simp) (by simp)
      (by simp)
  · apply Accounts.down
    exact h.congr rfl rfl

theorem exec (h : Accounts k sem v) (t : Tid) (b : Bool) (op : Op) :
    Accounts k sem (Sync.exec t b op v) := by
  cases op with
  | semaphoreDown sem' => exact h.down _ _
  | semaphoreTryDown sem' =>
    unfold Sync.exec
    simp only
    split
    · exact h.grant_any (by assumption) t
    · exact h
  | semaphoreUp sem' => exact h.up _ _
  | mutexAcquire m => exact h.acquire _ _ _
  | mutexAcquired m b =>
    exact (h.congr (w := (v.setHolder m _).setRecursion m _) rfl rfl).logged (by simp) (by simp)
      (by simp) (by simp)
  | mutexRelease m => exact h.release _ _
  | tryIncrement m | trySetCount m =>
    exact (h.congr (w := v.setRecursion m _) rfl rfl).logged (by simp) (by simp) (by simp) (by simp)
  | tryDown m =>
    unfold Sync.exec
    simp only
    split
    · exact (h.grant_any (by assumption) t).congr rfl rfl
    · exact h
  | condvarWait c m =>
    have hq : Accounts k sem ((v.setRecord t .condVar (some (.condVar c))).logged
        (.added (.waitQueue (.condvar c)) t)) :=
      (h.congr (w := v.setRecord _ _ _) rfl rfl).logged (by simp) (by simp) (by simp) (by simp)
    have hr := (hq.logged (e := .waited c m t) (by simp) (by simp) (by simp) (by simp)).release m t
    exact hr.congr rfl rfl
  | condvarReturn c m => exact h.logged (by simp) (by simp) (by simp) (by simp)
  | condvarSignal c =>
    exact (h.logged (by simp) (by simp) (by simp) (by simp)).wake_other (by simp)
  | condvarBroadcast c =>
    exact (h.logged (by simp) (by simp) (by simp) (by simp)).wakeAll_other (by simp)
  | _ => exact h.congr rfl rfl

theorem step {act : Act} {v' : Sync} (h : Accounts k sem v) (hs : Sync.Step t act v v') :
    Accounts k sem v' := by
  cases hs with
  | call => exact h.congr rfl rfl
  | @exec _ _ op ops b hf ht hr he =>
    subst he
    have h' := (h.congr (w := v.setTask t ops) rfl rfl).exec t b op
    exact h'.congr rfl rfl

theorem start (idle : Tid) (count : Nat → Nat) :
    Accounts ((Sync.start idle count).count sem) sem (Sync.start idle count) := by
  refine ⟨?_, ?_, trivial⟩
  · simp [Sync.start, upsOf, grantsOf, joined]
  · have hpos : 0 ≤ (Sync.start idle count).count sem := by
      cases sem <;> simp [Sync.start]
    simp only [Sync.queue, Sync.start, listsOf, List.length_nil] at hpos ⊢
    omega

end Accounts

/-- What the history says of a semaphore that was initialised with `k`. -/
structure Served (k : Nat) (sem : SemRef) (s : State) (queue : List Tid) : Prop where
  linked : s.lists.Rep ListId.Tailed (fun _ ↦ none) (listsOf s.trace)
  queue_eq : listsOf s.trace (.waitQueue (.semaphore sem)) = queue
  free : 0 ≤ s.count sem → queue = []
  waiting : s.count sem < 0 → (queue.length : Int) = -s.count sem
  distinct : queue.Nodup
  blocked : ∀ t ∈ queue, s.status t = .blocked
  /-- the downs granted at once and those granted by an up -/
  granted : (grantsOf sem s.trace + (departed (.waitQueue (.semaphore sem)) s.trace).length : Int) =
    k + upsOf sem s.trace - max (s.count sem) 0
  bounded : grantsOf sem s.trace + (departed (.waitQueue (.semaphore sem)) s.trace).length ≤
    k + upsOf sem s.trace
  inOrder : joined (.waitQueue (.semaphore sem)) s.trace =
    departed (.waitQueue (.semaphore sem)) s.trace ++ queue
  unbarged : Unbarged sem s.trace

end AlienOS.Kernel
