import AlienOS.Kernel.Condvar

/-!
# Grip — who has a mutex that nobody nests

Whether a thread has the mutex follows from the calls it has made and from what is left of the last.
-/

open AlienOS.Lib

namespace AlienOS.Kernel

/-- The operation goes to the mutex. -/
def Op.OnMutex (mutex : MutexRef) : Op → Prop
  | .mutexAcquire m | .mutexAcquired m _ | .mutexRelease m | .tryTest m | .tryIncrement m
  | .tryDown m | .trySetHolder m | .trySetCount m | .condvarWait _ m => m = mutex
  | _ => False

def Call.OnMutex (n : Nat) : Call → Prop
  | .mutexAcquire m | .mutexTryAcquire m | .mutexRelease m | .condvarWait _ m => m = n
  | _ => False

/-- Where the calls of a thread leave it. -/
inductive Stance where
  | outside
  | inside
  /-- the last call was `mutex_release` -/
  | leaving
  deriving DecidableEq, Repr

def Stance.has : Stance → Bool
  | .inside => true
  | .outside | .leaving => false

/-- What a thread still has to do for its calls, and whether it has the mutex now. -/
inductive Grip (n : Nat) : Stance → List Op → Bool → Prop where
  | rests {a : Stance} {ops : List Op} (h : ∀ op ∈ ops, ¬ op.OnMutex (.user n)) : Grip n a ops a.has
  | entering : Grip n .inside [.mutexAcquire (.user n)] false
  | taking (b : Bool) : Grip n .inside [.mutexAcquired (.user n) b] false
  | leaving : Grip n .leaving [.mutexRelease (.user n)] true

structure Held (n : Nat) (t : Tid) (stance : Stance) (inside : Bool) (v : Sync) : Prop where
  grip : Grip n stance (v.task t) inside
  holder : v.holder (.user n) = some t ↔ inside = true
  count : inside = true → v.recursionCount (.user n) = 1

section

variable {n : Nat} {mutex : MutexRef} {op : Op} {ops : List Op} {c : Call} {t u : Tid} {b : Bool}
  {a : Stance} {inside : Bool} {v v' : Sync} {act : Act}

theorem Grip.calm (h : Grip n a [] inside) : inside = a.has := by
  cases h
  rfl

theorem call_spares_mutex (h : ¬ c.OnMutex n) : ∀ op ∈ c.ops, ¬ op.OnMutex (.user n) := by
  cases c <;> simp_all [Call.OnMutex, Call.ops, heapOps, Op.OnMutex]

theorem pushes_spare_mutex (h : ¬ op.OnMutex mutex) (t : Tid) (b : Bool) (v : Sync) :
    ∀ op' ∈ Sync.pushes t b op v, ¬ op'.OnMutex mutex := by
  unfold Sync.pushes
  split
  · split <;> simp_all [Op.OnMutex]
  · split <;> simp_all [Op.OnMutex]
  · split <;> simp_all [Op.OnMutex]
  · simp_all [Op.OnMutex]
  · simp [Op.OnMutex]
  · simp

theorem phaseOf_spared (h : ∀ op ∈ ops, ¬ op.OnMutex mutex) : phaseOf mutex ops = .away := by
  cases ops with
  | nil => rfl
  | cons op ops =>
    have hop := h op List.mem_cons_self
    cases op <;> first | rfl | exact if_neg hop

namespace Sync

theorem wake_mutex (q : WaitQueue) (v : Sync) :
    (wake q v).holder = v.holder ∧ (wake q v).recursionCount = v.recursionCount := by
  unfold wake
  split <;> exact ⟨rfl, rfl⟩

theorem wakeAll_mutex (q : WaitQueue) (v : Sync) :
    (wakeAll q v).holder = v.holder ∧ (wakeAll q v).recursionCount = v.recursionCount := by
  unfold wakeAll
  generalize v.queue q = xs
  induction xs generalizing v with
  | nil => exact ⟨rfl, rfl⟩
  | cons x xs ih => exact ih (v.woken q x)

theorem down_mutex (sem : SemRef) (t : Tid) (v : Sync) :
    (down sem t v).holder = v.holder ∧ (down sem t v).recursionCount = v.recursionCount := by
  have hnote : (note sem t v).holder = v.holder ∧
      (note sem t v).recursionCount = v.recursionCount := by
    unfold note
    split <;> exact ⟨rfl, rfl⟩
  unfold down
  split
  · exact hnote
  · exact ⟨rfl, rfl⟩

/-- Releasing another mutex. -/
theorem release_mutex {m : MutexRef} (hm : m ≠ mutex) :
    (release m t v).holder mutex = v.holder mutex ∧
      (release m t v).recursionCount mutex = v.recursionCount mutex := by
  unfold release
  simp only
  split
  · unfold up
    rw [(wake_mutex _ _).1, (wake_mutex _ _).2]
    exact ⟨Function.update_of_ne hm.symm _ v.holder,
      Function.update_of_ne hm.symm _ v.recursionCount⟩
  · exact ⟨rfl, Function.update_of_ne hm.symm _ v.recursionCount⟩

/-- Operations that do not go to a mutex leave it alone. -/
theorem exec_mutex (hop : ¬ op.OnMutex mutex) :
    (exec t b op v).holder mutex = v.holder mutex ∧
      (exec t b op v).recursionCount mutex = v.recursionCount mutex := by
  cases op with
  | semaphoreDown sem =>
    obtain ⟨h₁, h₂⟩ := down_mutex sem t v
    exact ⟨congrFun h₁ mutex, congrFun h₂ mutex⟩
  | semaphoreTryDown sem =>
    unfold exec
    simp only
    split <;> exact ⟨rfl, rfl⟩
  | semaphoreUp sem =>
    obtain ⟨h₁, h₂⟩ := wake_mutex (.semaphore sem)
      ((v.setCount sem (v.count sem + 1)).logged (.upped sem t))
    exact ⟨congrFun h₁ mutex, congrFun h₂ mutex⟩
  | mutexAcquire m =>
    have hm : mutex ≠ m := fun h ↦ hop h.symm
    show (acquire m t b v).holder mutex = _ ∧ (acquire m t b v).recursionCount mutex = _
    unfold acquire
    split
    · exact ⟨rfl, Function.update_of_ne hm _ v.recursionCount⟩
    · obtain ⟨h₁, h₂⟩ := down_mutex (.ofMutex m) t
        ((v.push t [.mutexAcquired m b]).setRecord t .mutex (some (.mutex m)))
      exact ⟨congrFun h₁ mutex, congrFun h₂ mutex⟩
  | mutexAcquired m b =>
    have hm : mutex ≠ m := fun h ↦ hop h.symm
    exact ⟨Function.update_of_ne hm _ v.holder, Function.update_of_ne hm _ v.recursionCount⟩
  | mutexRelease m => exact release_mutex hop
  | tryIncrement m | trySetCount m =>
    have hm : mutex ≠ m := fun h ↦ hop h.symm
    exact ⟨rfl, Function.update_of_ne hm _ v.recursionCount⟩
  | tryDown m =>
    unfold exec
    simp only
    split <;> exact ⟨rfl, rfl⟩
  | trySetHolder m =>
    have hm : mutex ≠ m := fun h ↦ hop h.symm
    exact ⟨Function.update_of_ne hm _ v.holder, rfl⟩
  | condvarWait c m => exact release_mutex hop
  | condvarSignal c =>
    obtain ⟨h₁, h₂⟩ := wake_mutex (.condvar c) (v.logged (.signalled c t))
    exact ⟨congrFun h₁ mutex, congrFun h₂ mutex⟩
  | condvarBroadcast c =>
    obtain ⟨h₁, h₂⟩ := wakeAll_mutex (.condvar c) (v.logged (.broadcasted c t))
    exact ⟨congrFun h₁ mutex, congrFun h₂ mutex⟩
  | _ => exact ⟨rfl, rfl⟩

theorem Step.mutex_spared (hs : Sync.Step t (.exec op) v v') (hop : ¬ op.OnMutex mutex) :
    v'.holder mutex = v.holder mutex ∧ v'.recursionCount mutex = v.recursionCount mutex := by
  cases hs with
  | exec b hf ht hr he =>
    subst he
    exact exec_mutex hop

end Sync

namespace Held

theorem outside_of (hg : Grip n a (v.task t) false) (hh : v.holder (.user n) ≠ some t) :
    Held n t a false v :=
  ⟨hg, ⟨fun h ↦ absurd h hh, fun h ↦ by cases h⟩, fun h ↦ by cases h⟩

theorem inside_of (hg : Grip n a (v.task t) true) (hh : v.holder (.user n) = some t)
    (hn : v.recursionCount (.user n) = 1) : Held n t a true v :=
  ⟨hg, ⟨fun _ ↦ rfl, fun _ ↦ hh⟩, fun _ ↦ hn⟩

/-- A step of another thread. -/
theorem other_step (h : Held n t a inside v) (hg : Sync.Guarded (.user n) v)
    (hs : Sync.Step u act v v') (hu : t ≠ u) : Held n t a inside v' := by
  have htask := hs.task_of_ne hu
  cases inside with
  | false =>
    apply outside_of
    · rw [htask]
      exact h.grip
    · exact hs.not_holder hg hu fun hx ↦ by cases h.holder.mp hx
  | true =>
    obtain ⟨h₁, h₂⟩ := hs.holder_keeps hg hu (h.holder.mpr rfl)
    apply inside_of _ h₁ (h₂.trans (h.count rfl))
    rw [htask]
    exact h.grip

/-- Its own step in the kernel. -/
theorem exec (h : Held n t a inside v) (hg : Sync.Guarded (.user n) v)
    (hs : Sync.Step t (.exec op) v v') : ∃ inside', Held n t a inside' v' := by
  obtain ⟨b, ops, ht, ht'⟩ := hs.task_self
  obtain ⟨hgrip, hholder, hcount⟩ := id h
  rw [ht] at hgrip
  cases hgrip with
  | rests hsp =>
    have hop := hsp op List.mem_cons_self
    obtain ⟨h₁, h₂⟩ := hs.mutex_spared hop
    refine ⟨_, ⟨.rests ?_, by rw [h₁]; exact hholder, by rw [h₂]; exact hcount⟩⟩
    rw [ht']
    intro o ho
    rcases List.mem_append.mp ((List.dropWhile_sublist _).subset ho) with ho | ho
    · exact pushes_spare_mutex hop t b v o ho
    · exact hsp o (List.mem_cons_of_mem _ ho)
  | entering =>
    have hout : v.holder (.user n) ≠ some t := fun hh ↦ by cases hholder.mp hh
    have htask : v'.task t = [.mutexAcquired (.user n) b] := by
      rw [ht']
      simp [Sync.pushes, hout, strip_cons, Op.IsSkip]
    refine ⟨false, outside_of ?_ (hs.stays_out hg (by rw [ht]; rfl) hout)⟩
    rw [htask]
    exact .taking b
  | taking b' =>
    have htask : v'.task t = [] := ht'
    obtain ⟨h₁, h₂⟩ := hs.acquired
    refine ⟨true, inside_of ?_ h₁ h₂⟩
    rw [htask]
    exact .rests (by simp)
  | leaving =>
    have htask : v'.task t = [] := ht'
    refine ⟨false, outside_of ?_ ?_⟩
    · rw [htask]
      exact .rests (by simp)
    · rw [hs.release_holder (hcount rfl)]
      simp

end Held

end

/-! ## All threads -/

/-- What a statement does about the mutex. -/
inductive Reach (n : Nat) : Stance → List Op → Stance → Prop where
  | spares {a a' : Stance} {ops : List Op} (h : ∀ op ∈ ops, ¬ op.OnMutex (.user n))
    (ha : a.has = a'.has) : Reach n a ops a'
  | acquires {a : Stance} (ha : a.has = false) : Reach n a [.mutexAcquire (.user n)] .inside
  | releases : Reach n .inside [.mutexRelease (.user n)] .leaving

structure Grips (n : Nat) (stance : Tid → Stance) (v : Sync) : Prop where
  guarded : Sync.Guarded (.user n) v
  held : ∀ t, ∃ inside, Held n t (stance t) inside v

namespace Grips

variable {n : Nat} {t u : Tid} {stance stance' : Tid → Stance} {ops : List Op} {v v' : Sync}
  {act : Act}

/-- The step lemma for the kernel. -/
theorem step (h : Grips n stance v) (hs : Sync.Step u act v v')
    (hc : ∀ c, act = .call c → ¬ c.OnMutex n) : Grips n stance v' := by
  refine ⟨h.guarded.step hs, fun t ↦ ?_⟩
  obtain ⟨inside, ht⟩ := h.held t
  by_cases hu : t = u
  · subst hu
    cases act with
    | exec op => exact ht.exec h.guarded hs
    | call c =>
      cases hs with
      | call hq hf hnil =>
        have hgrip := ht.grip
        rw [hnil] at hgrip
        have hin := hgrip.calm
        subst hin
        refine ⟨_, ⟨?_, ht.holder, ht.count⟩⟩
        have htask : (v.setTask t (strip c.ops)).task t = strip c.ops := Function.update_self _ _ _
        rw [htask]
        exact .rests fun o ho ↦
          call_spares_mutex (hc c rfl) o ((List.dropWhile_sublist _).subset ho)
  · exact ⟨inside, ht.other_step h.guarded hs hu⟩

/-- Between two calls a thread has what its calls have left it with. -/
theorem holder_iff (h : Grips n stance v) (ht : v.task t = []) :
    v.holder (.user n) = some t ↔ (stance t).has = true := by
  obtain ⟨inside, hheld⟩ := h.held t
  have hgrip := hheld.grip
  rw [ht] at hgrip
  rw [← hgrip.calm]
  exact hheld.holder

/-- Two threads between two calls are not both inside. -/
theorem alone (h : Grips n stance v) (ht : v.task t = []) (hu : v.task u = [])
    (hh : stance t = .inside) (hh' : stance u = .inside) : t = u := by
  have h₁ := (h.holder_iff ht).mpr (by rw [hh]; rfl)
  have h₂ := (h.holder_iff hu).mpr (by rw [hh']; rfl)
  rw [h₁] at h₂
  exact Option.some.inj h₂

/-- A statement of `u`, with or without a call. -/
theorem statement (h : Grips n stance v) (hu : v.task u = [])
    (hg : Sync.Guarded (.user n) (v.setTask u ops)) (hr : Reach n (stance u) ops (stance' u))
    (hsame : ∀ t, t ≠ u → stance' t = stance t) : Grips n stance' (v.setTask u ops) := by
  refine ⟨hg, fun t ↦ ?_⟩
  obtain ⟨inside, ht⟩ := h.held t
  by_cases htu : t = u
  · subst htu
    have hgrip := ht.grip
    rw [hu] at hgrip
    have hin := hgrip.calm
    subst hin
    refine ⟨_, ⟨?_, ht.holder, ht.count⟩⟩
    have htask : (v.setTask t ops).task t = ops := Function.update_self _ _ _
    rw [htask]
    generalize stance t = a at hr
    generalize stance' t = a' at hr
    cases hr with
    | spares hsp ha =>
      rw [ha]
      exact .rests hsp
    | acquires ha =>
      rw [ha]
      exact .entering
    | releases => exact .leaving
  · have htask : (v.setTask u ops).task t = v.task t := Function.update_of_ne htu _ _
    rw [hsame t htu]
    exact ⟨inside, ⟨by rw [htask]; exact ht.grip, ht.holder, ht.count⟩⟩

/-- If a thread waits for the mutex, another one is inside or on its way in or out, and does not
wait for it. -/
theorem owner (h : Grips n stance v) (ht : t ∈ v.queue (.semaphore (.ofMutex (.user n)))) :
    ∃ o, stance o ≠ .outside ∧ o ∉ v.queue (.semaphore (.ofMutex (.user n))) := by
  obtain ⟨-, owner, htoken⟩ := h.guarded
  cases ho : owner with
  | none =>
    have hempty := htoken.free ho
    have hmem : t ∈ (v.lock (.user n)).queue := ht
    rw [hempty] at hmem
    cases hmem
  | some o =>
    refine ⟨o, fun hout ↦ ?_, fun hq ↦ (htoken.queued o hq).2 ho⟩
    obtain ⟨inside, hheld⟩ := h.held o
    obtain ⟨hgrip, hholder, -⟩ := hheld
    rw [hout] at hgrip
    generalize hops : v.task o = ops at hgrip
    cases hgrip with
    | rests hsp =>
      have haway : (v.lock (.user n)).phase o = .away := by
        show phaseOf (.user n) (v.task o) = .away
        rw [hops]
        exact phaseOf_spared hsp
      rcases htoken.owner o ho with hh | hp | hp
      · cases hholder.mp hh
      · rw [haway] at hp
        cases hp
      · rw [haway] at hp
        cases hp

theorem start (n : Nat) (idle : Tid) (count : Nat → Nat) (hh : ∀ t, stance t = .outside) :
    Grips n stance (Sync.start idle count) := by
  refine ⟨(Sync.locked_start _ idle count).guarded, fun t ↦ ⟨false, Held.outside_of ?_ ?_⟩⟩
  · rw [hh t]
    apply Grip.rests (a := .outside)
    intro op ho
    by_cases ht : t = idle
    · subst ht
      have hop : op = .cpuIdleLoop := by simpa [Sync.start] using ho
      rw [hop]
      exact id
    · simp [Sync.start, ht] at ho
  · exact fun hs ↦ by cases hs

end Grips

end AlienOS.Kernel
