import AlienOS.Kernel.Filing

/-!
# Turns — nobody is overtaken on `ready_threads` or a wait queue
-/

open AlienOS.Lib

namespace AlienOS.Kernel

section

variable {creates : Prop} {s s' : State} {a : Action} {op : Op} {ops rest : List Op} {t x : Tid}

/-! ## The history only grows -/

theorem unblock_history (h : threadUnblock t s = .ok s') : s.trace <:+ s'.trace := by
  obtain ⟨-, -, h⟩ := bind_eq_ok.mp h
  cases h
  exact List.suffix_cons _ _

theorem wakeFirst_history {q : WaitQueue} (h : wakeFirst q s = .ok s') : s.trace <:+ s'.trace := by
  obtain ⟨⟨u, l⟩, -, h⟩ := bind_eq_ok.mp h
  exact (List.suffix_cons _ _).trans (unblock_history h)

theorem semaphoreUp_history {sem : SemRef} (h : semaphoreUp sem s = .ok s') : s.trace <:+ s'.trace := by
  unfold semaphoreUp at h
  dsimp only at h
  split at h
  · exact (List.suffix_cons _ _).trans (wakeFirst_history h)
  · cases h
    exact List.suffix_cons _ _

theorem semaphoreDown_history (sem : SemRef) (s : State) : s.trace <:+ (semaphoreDown sem s).trace := by
  unfold semaphoreDown
  dsimp only
  split
  · split <;> exact List.suffix_cons _ _
  · exact List.suffix_cons _ _

theorem semaphoreTryDown_history (sem : SemRef) (s : State) :
    s.trace <:+ (semaphoreTryDown sem s).2.trace := by
  unfold semaphoreTryDown
  split
  · exact List.suffix_cons _ _
  · exact List.suffix_rfl

theorem mutexAcquire_history (mutex : MutexRef) (s : State) :
    s.trace <:+ (mutexAcquire mutex s).trace := by
  unfold mutexAcquire
  split
  · exact List.suffix_cons _ _
  · have h := semaphoreDown_history (.ofMutex mutex) { s.push [.mutexAcquired mutex s.interrupts] with
      interrupts := false
      blockedOn := Function.update s.blockedOn s.currentThread (some (.mutex mutex))
      blockerType := Function.update s.blockerType s.currentThread .mutex }
    exact h

theorem mutexRelease_history {mutex : MutexRef} (h : mutexRelease mutex s = .ok s') :
    s.trace <:+ s'.trace := by
  obtain ⟨-, -, h⟩ := bind_eq_ok.mp h
  obtain ⟨-, -, h⟩ := bind_eq_ok.mp h
  dsimp only at h
  split at h
  · exact (List.suffix_cons _ _).trans (semaphoreUp_history h)
  · cases h
    exact List.suffix_cons _ _

theorem condvarWait_history {cond : Nat} {mutex : MutexRef} (h : condvarWait cond mutex s = .ok s') :
    s.trace <:+ s'.trace := by
  obtain ⟨s₁, hr, h⟩ := bind_eq_ok.mp h
  cases h
  exact (List.suffix_append [_, _] _).trans (mutexRelease_history hr)

theorem condvarBroadcastLoop_history {cond fuel : Nat} : ∀ {s : State},
    condvarBroadcastLoop cond fuel s = .ok s' → s.trace <:+ s'.trace := by
  induction fuel with
  | zero =>
    intro s h
    cases h
  | succ fuel ih =>
    intro s h
    unfold condvarBroadcastLoop at h
    split at h
    · obtain ⟨s₁, hw, h⟩ := bind_eq_ok.mp h
      exact (wakeFirst_history hw).trans (ih h)
    · cases h
      exact List.suffix_rfl

theorem threadTimerTickLoop_history {fuel : Nat} : ∀ {thread : Option Tid} {s : State},
    threadTimerTickLoop fuel thread s = .ok s' → s.trace <:+ s'.trace := by
  induction fuel with
  | zero =>
    intro thread s h
    cases thread with
    | none =>
      cases h
      exact List.suffix_rfl
    | some t => cases h
  | succ fuel ih =>
    intro thread s h
    cases thread with
    | none =>
      cases h
      exact List.suffix_rfl
    | some t =>
      obtain ⟨-, -, h⟩ := bind_eq_ok.mp h
      split at h
      · obtain ⟨lists, -, h⟩ := bind_eq_ok.mp h
        exact (List.suffix_append [_, _] _).trans (ih h)
      · exact ih h

theorem isrIRQ0_history (h : isrIRQ0 s = .ok s') : s.trace <:+ s'.trace := by
  obtain ⟨s₁, ht, h⟩ := bind_eq_ok.mp h
  cases h
  have hh := threadTimerTickLoop_history ht
  exact hh

theorem switchOut_history (h : switchOut s = .ok s') : s.trace <:+ s'.trace := by
  unfold switchOut fileOldThread at h
  split at h
  · cases h
    exact List.suffix_rfl
  · split at h
    · cases h
      exact List.suffix_cons _ _
    · cases h
      exact List.suffix_cons _ _
    · cases h
      exact List.suffix_cons _ _
    · cases h
      exact List.suffix_rfl
    · cases h

theorem schedule_history {next : Tid} (h : schedule next s = .ok s') : s.trace <:+ s'.trace := by
  unfold schedule at h
  split at h
  · obtain ⟨-, -, h⟩ := bind_eq_ok.mp h
    cases h
    exact List.suffix_rfl
  · obtain ⟨s₁, hout, h⟩ := bind_eq_ok.mp h
    obtain ⟨-, -, h⟩ := bind_eq_ok.mp h
    have hh := switchOut_history hout
    cases h
    exact hh

theorem findReadyThread_history {next : Tid} (h : findReadyThread s = .ok (next, s')) :
    s.trace <:+ s'.trace := by
  unfold findReadyThread at h
  split at h
  · cases h
    exact List.suffix_rfl
  · obtain ⟨ready, -, h⟩ := bind_eq_ok.mp h
    obtain ⟨lists, -, h⟩ := bind_eq_ok.mp h
    cases h
    exact List.suffix_cons _ _

theorem cleanZombies_history {zombie : Option Tid} {entered : ThreadStatus}
    (h : cleanZombies zombie entered s = .ok s') : s.trace <:+ s'.trace := by
  cases zombie with
  | none =>
    obtain ⟨⟨next, s₁⟩, hf, h⟩ := bind_eq_ok.mp h
    obtain ⟨s₂, hs, h⟩ := bind_eq_ok.mp h
    have hh := (findReadyThread_history hf).trans (schedule_history hs)
    cases h
    exact hh
  | some x =>
    obtain ⟨-, -, h⟩ := bind_eq_ok.mp h
    obtain ⟨-, -, h⟩ := bind_eq_ok.mp h
    dsimp only at h
    split at h
    · obtain ⟨lists, -, h⟩ := bind_eq_ok.mp h
      obtain ⟨all, -, h⟩ := bind_eq_ok.mp h
      cases h
      exact List.suffix_append [_, _] _
    · cases h
      exact List.suffix_rfl

theorem onRegistry_history (list : Registry) (f : Links ListId Tid → Links ListId Tid)
    (g : Links Unit Tid → Links Unit Tid) (s : State) : (onRegistry list f g s).trace = s.trace := by
  cases list <;> rfl

theorem exec_history (h : exec op s = .ok s') : s.trace <:+ s'.trace := by
  cases op with
  | threadYield => exact isrIRQ0_history h
  | cleanZombies zombie entered => exact cleanZombies_history h
  | semaphoreUp sem => exact semaphoreUp_history h
  | mutexRelease mutex => exact mutexRelease_history h
  | condvarWait cond mutex => exact condvarWait_history h
  | condvarSignal cond =>
    unfold exec condvarSignal at h
    dsimp only at h
    split at h
    · exact (List.suffix_cons _ _).trans (wakeFirst_history h)
    · cases h
      exact List.suffix_cons _ _
  | condvarBroadcast cond => exact (List.suffix_cons _ _).trans (condvarBroadcastLoop_history h)
  | threadExit =>
    obtain ⟨-, hs'⟩ := threadExit_eq h
    subst hs'
    exact List.suffix_cons _ _
  | internalThreadInit x =>
    have hs' := internalThreadInit_eq h
    subst hs'
    exact List.suffix_rfl
  | semaphoreDown sem =>
    cases h
    exact semaphoreDown_history sem s
  | semaphoreTryDown sem =>
    cases h
    exact semaphoreTryDown_history sem s
  | mutexAcquire mutex =>
    cases h
    exact mutexAcquire_history mutex s
  | tryDown mutex =>
    cases h
    have hh := semaphoreTryDown_history (.ofMutex mutex) s
    generalize semaphoreTryDown (.ofMutex mutex) s = r at hh ⊢
    obtain ⟨granted, s₁⟩ := r
    cases granted <;> exact hh
  | addHeadPrev list x | addNodeNext list x | addNodePrev list x =>
    cases h
    rw [onRegistry_history]
  | addHead list x =>
    cases h
    cases list with
    | readyThreads => exact List.suffix_append [_, _] _
    | allThreads => exact List.suffix_rfl
  | interruptRestore | iret | tryTest | trySetHolder | sleepWakeup | cpuIdleLoop | threadAlloc =>
    cases h
    exact List.suffix_rfl
  | _ =>
    cases h
    exact List.suffix_cons _ _

theorem next_history (h : next s a = .ok s') : s.trace <:+ s'.trace := by
  cases a with
  | interrupt => exact isrIRQ0_history h
  | call c =>
    cases h
    exact List.suffix_rfl
  | alloc t =>
    cases h
    exact List.suffix_rfl
  | exec =>
    unfold next at h
    dsimp only at h
    split at h
    · cases h
      exact List.suffix_rfl
    · have hh := exec_history h
      exact hh

theorem Run.history {ok : State → Action → Prop} (hr : Run ok s s') : s.trace <:+ s'.trace := by
  induction hr with
  | start => exact List.suffix_rfl
  | step hr hok he hs ih => exact ih.trans (next_history hs)

theorem joined_append (i : ListId) (evs tr : List Event) :
    joined i (evs ++ tr) = joined i tr ++ joined i evs := by
  induction evs with
  | nil => simp [joined]
  | cons e evs ih =>
    cases e with
    | added j t =>
      show (if j = i then joined i (evs ++ tr) ++ [t] else joined i (evs ++ tr)) = _
      rw [ih]
      by_cases hj : j = i
      · simp [joined, hj]
      · simp [joined, hj]
    | _ => exact ih

theorem departed_append (i : ListId) (evs tr : List Event) :
    departed i (evs ++ tr) = departed i tr ++ departed i evs := by
  induction evs with
  | nil => simp [departed]
  | cons e evs ih =>
    cases e with
    | removed j t =>
      show (if j = i then departed i (evs ++ tr) ++ [t] else departed i (evs ++ tr)) = _
      rw [ih]
      by_cases hj : j = i
      · simp [departed, hj]
      · simp [departed, hj]
    | _ => exact ih

/-! ## First come, first served -/

/-- The lists that are served in order. -/
def InTurn (s : State) : Prop := ∀ i, i = .readyThreads ∨ i.Tailed → Fifo i s.trace

theorem Fifo.other {i : ListId} {e : Event} {tr : List Event} (ha : ∀ j t, e ≠ .added j t)
    (hr : ∀ j t, e ≠ .removed j t) (h : Fifo i tr) : Fifo i (e :: tr) := by
  cases e with
  | added j t => exact absurd rfl (ha j t)
  | removed j t => exact absurd rfl (hr j t)
  | _ => exact h

/-- An operation on the heap that wakes nobody. -/
theorem heap_fifo {i : ListId} (hf : op.HeapFits rest) (hs : exec op s = .ok s')
    (hl : listsOf s'.trace = listsOf s.trace) (h : Fifo i s.trace) : Fifo i s'.trace := by
  cases hf with
  | acquire rest =>
    cases hs
    unfold mutexAcquire
    split
    · exact h.other (by simp) (by simp)
    · unfold semaphoreDown
      dsimp only
      split
      · split <;> exact h.added
      · exact h.other (by simp) (by simp)
  | release hc =>
    obtain ⟨-, -, hs⟩ := bind_eq_ok.mp hs
    obtain ⟨-, -, hs⟩ := bind_eq_ok.mp hs
    dsimp only at hs
    have hreleased : Fifo i (.released .freeListLock s.currentThread :: s.trace) :=
      h.other (by simp) (by simp)
    split at hs
    · unfold semaphoreUp at hs
      dsimp only at hs
      split at hs
      · obtain ⟨⟨u, l⟩, -, hs⟩ := bind_eq_ok.mp hs
        obtain ⟨-, -, hs⟩ := bind_eq_ok.mp hs
        cases hs
        have hready := congrFun hl .readyThreads
        simp [listsOf, Event.onLists, State.log] at hready
      · cases hs
        exact hreleased.other (by simp) (by simp)
    · cases hs
      exact hreleased
  | _ =>
    cases hs
    exact h.other (by simp) (by simp)

/-- The step lemma. -/
theorem Faces.inTurn (hf : Faces creates s a) (h : Sound creates s) (hi : InTurn s)
    (hn : next s a = .ok s') :
    InTurn s' := by
  cases hf with
  | act hst hw hrun hc hskip => exact (h.acted hst hw hrun hc hskip hn).1.keeps.fifo hi
  | flag b hst hop hrun he hp hw hs =>
    rw [hs] at hn
    cases hn
    exact hi
  | enter he hp hw hnode hun heq =>
    obtain ⟨lists, hrun, -⟩ := isrIRQ0_enters hp hw hun
    rw [heq, hrun] at hn
    cases hn
    exact fun i hi' ↦ fifo_wakeEvents hi' _ (hi i hi')
  | dispatch hst hesp hint hen hw hun =>
    obtain ⟨s₁, hrun, hl⟩ := hw.leaves hst hen hun
    rw [hn] at hrun
    cases hrun
    cases hl with
    | stays => exact hi
    | switches hins hp' hne hmem hready hnxt =>
      have hp := hw.placed
      rw [hins] at hp
      exact fun i hi' ↦ fifo_switchEvents hp (hnxt.imp (·.1) (·.2)) hi' (hi i hi')
  | @reap x enabled entered ops hst hx hesp hint hen hw hun hlock =>
    have hexec : cleanZombies (some x) entered { s with stack := .iret enabled :: ops } = .ok s' := by
      simp only [Kernel.next, hst] at hn
      exact hn
    obtain ⟨xs, hL, -⟩ := hw.placed.first_zombie hx
    obtain ⟨lists, all, rfl, -⟩ := cleanZombies_reap (hw.placed.restack (.iret enabled :: ops)) hL hexec
    intro i hi'
    have hremoved : Fifo i (.removed .zombieThreads x :: s.trace) := by
      apply (hi i hi').removed_other
      rintro rfl
      rcases hi' with hi' | hi'
      · cases hi'
      · exact hi'
    exact hremoved.other (by simp) (by simp)
  | @kfree x enabled entered left ops hst hreaps hx hc hesp hint hen hw hun =>
    obtain ⟨s₁, op, rest, pushed, hrun, hnext⟩ := hreaps.frees hst (.of_skip rfl) hc hint (not_misused hn)
    rw [hn] at hrun
    cases hrun
    have hexec := hn
    simp only [Kernel.next, hnext.stack] at hexec
    intro i hi'
    have hh := heap_fifo hnext.fits hexec hnext.freed.alike.listsOf (hi i hi')
    exact hh
  | exit hst hw hrun =>
    have hexec : Kernel.exec .threadExit { s with stack := [] } = .ok s' := by
      simpa only [Kernel.next, hst] using hn
    obtain ⟨-, hs'⟩ := threadExit_eq hexec
    subst hs'
    exact fun i hi' ↦ (hi i hi').other (by simp) (by simp)
  | alloc =>
    cases hn
    exact hi
  | @insert op rest x hst hw hrun hat =>
    cases hat with
    | init =>
      simp only [Kernel.next, hst] at hn
      have hs' := internalThreadInit_eq hn
      subst hs'
      exact hi
    | head list =>
      simp only [Kernel.next, hst] at hn
      cases list with
      | readyThreads =>
        cases hn
        intro i hi'
        have hcreated : Fifo i (.created x :: s.trace) := (hi i hi').other (by simp) (by simp)
        exact hcreated.added
      | allThreads =>
        cases hn
        exact hi
    | headPrev list | nodeNext list | nodePrev list =>
      simp only [Kernel.next, hst] at hn
      cases list <;> cases hn <;> exact hi
  | call =>
    cases hn
    exact hi

theorem Run.trans {ok : State → Action → Prop} {s₀ : State} (hr : Run ok s₀ s) (hr' : Run ok s s') :
    Run ok s₀ s' := by
  induction hr' with
  | start => exact hr
  | step _ hok he hs ih => exact .step ih hok he hs

/-- What has left of those that were there, and the rest. -/
theorem served_in_order {gone left ahead rest : List Tid} (h : gone ++ left = ahead ++ t :: rest) :
    (∃ later, gone = ahead ++ t :: later) ∨ ∃ still, ahead = gone ++ still ∧
      left = still ++ t :: rest := by
  rcases List.append_eq_append_iff.mp h with ⟨still, hahead, hleft⟩ | ⟨later, hgone, hrest⟩
  · exact .inr ⟨still, hahead, hleft⟩
  · cases later with
    | nil =>
      rw [List.append_nil] at hgone
      exact .inr ⟨[], by simp [hgone], hrest.symm⟩
    | cons u later =>
      cases hrest
      exact .inl ⟨later, hgone⟩

end

section

variable {idle main t : Tid} {threads ahead behind : List Tid} {s s' : State} {i : ListId}

theorem inTurn_boot (count : Nat → Nat) (hd : Distinct idle main threads) :
    InTurn (boot idle main threads count) :=
  (calm_boot count hd).fifo

end

end AlienOS.Kernel
