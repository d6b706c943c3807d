import AlienOS.Kernel.Calm

/-!
# Handler — the timer interrupt, and every step of a calm machine
-/

open AlienOS.Lib

namespace AlienOS.Kernel

/-! ## Entry -/

/-- The sleepers whose time has come when the handler looks at them. -/
def State.dueNext (s : State) : List Tid := ({ s with timerTicks := s.timerTicks + 1 } : State).due

/-- The state after `isr_IRQ0` up to `scheduler_next`, with no zombies. -/
def State.entered (s : State) (lists : Links ListId Tid) : State :=
  { s with
    timerTicks := s.timerTicks + 1
    interrupts := false
    status := fun t ↦ if t ∈ s.dueNext then .ready else s.status t
    lists
    esp := Function.update s.esp s.currentThread (.iret s.interrupts :: s.stack)
    stack := .cleanZombies none (s.status s.currentThread) :: .iret s.interrupts :: s.stack
    trace := wakeEvents s.dueNext ++ s.trace }

section

variable {idle : Tid} {threads : List Tid} {s s' : State} {op : Op} {ops : List Op}

theorem threadsOf_wakeEvents (xs : List Tid) (tr : List Event) :
    threadsOf (wakeEvents xs ++ tr) = threadsOf tr := by
  induction xs generalizing tr with
  | nil => rfl
  | cons x xs ih =>
    simp only [wakeEvents, List.append_assoc]
    rw [ih]
    rfl

theorem fifo_wakeEvents {i : ListId} (hi : i = .readyThreads ∨ i.Tailed) (xs : List Tid)
    {tr : List Event} (h : Fifo i tr) : Fifo i (wakeEvents xs ++ tr) := by
  induction xs generalizing tr with
  | nil => exact h
  | cons x xs ih =>
    simp only [wakeEvents, List.append_assoc]
    apply ih
    apply Fifo.added
    apply h.removed_other
    rintro rfl
    rcases hi with hi | hi
    · cases hi
    · exact hi

theorem sync_wakeEvents (xs : List Tid) (tr : List Event) :
    (wakeEvents xs ++ tr).filter Event.IsSync = tr.filter Event.IsSync := by
  induction xs generalizing tr with
  | nil => rfl
  | cons x xs ih =>
    simp only [wakeEvents, List.append_assoc]
    rw [ih]
    rfl

/-- Nobody is on a list of the dead. -/
theorem Placed.no_zombies (h : Placed s none) (ha : ∀ t, s.status t ≠ .zombie) :
    listsOf s.trace .zombieThreads = [] := by
  rw [List.eq_nil_iff_forall_not_mem]
  exact fun t ht ↦ ha t (h.standing.status_eq (h.home_of_mem ht))

theorem dueNext_asleep {node : Option Tid} (h : Placed s node) {t : Tid} (ht : t ∈ s.dueNext) :
    homeOf s.trace t = some .sleepingThreads :=
  h.home_of_mem (List.mem_of_mem_filter ht)

theorem current_not_due {node : Option Tid} (h : Placed s node) : s.currentThread ∉ s.dueNext := by
  intro hm
  obtain ⟨q, hq⟩ := h.standing.cur_waits (dueNext_asleep h hm)
  cases hq

/-- A tick moves nobody on or off the other lists. -/
theorem listsOf_wakeEvents {i : ListId} (hr : i ≠ .readyThreads) (hs : i ≠ .sleepingThreads)
    (xs : List Tid) (tr : List Event) : listsOf (wakeEvents xs ++ tr) i = listsOf tr i := by
  induction xs generalizing tr with
  | nil => rfl
  | cons x xs ih =>
    simp only [wakeEvents, List.append_assoc]
    rw [ih]
    have h₁ := listsOf_other (i := i) (e := .removed .sleepingThreads x) tr (by simp) (by simp [hs.symm])
    have h₂ := listsOf_other (i := i) (e := .added .readyThreads x)
      (.removed .sleepingThreads x :: tr) (by simp [hr.symm]) (by simp)
    exact h₂.trans h₁

/-- The state after `isr_IRQ0` up to the loop of `clean_zombies`. -/
def State.interrupted (s : State) (lists : Links ListId Tid) : State :=
  { s.entered lists with
    stack := .cleanZombies (listsOf s.trace .zombieThreads).head? (s.status s.currentThread) ::
      .iret s.interrupts :: s.stack }

theorem isrIRQ0_interrupted (h : Placed s none) :
    ∃ lists, isrIRQ0 s = .ok (s.interrupted lists) ∧ Placed (s.interrupted lists) none := by
  obtain ⟨lists, hrun, hp⟩ := threadTimerTick_spec (s := { s with
    timerTicks := s.timerTicks + 1
    interrupts := false
    stack := .iret s.interrupts :: s.stack }) ⟨h.rep, h.agrees, h.standing⟩
  refine ⟨lists, ?_, hp.rep, hp.agrees, hp.standing⟩
  have hz : lists.head .zombieThreads = (listsOf s.trace .zombieThreads).head? := by
    have hhead := hp.rep.head .zombieThreads
    simp only [State.ticked] at hhead
    rw [hhead, listsOf_wakeEvents (by simp) (by simp)]
  unfold isrIRQ0
  simp only [State.push, List.cons_append, List.nil_append]
  rw [hrun]
  simp only [ok_bind, State.ticked, hz]
  rfl

/-- With nobody due the lists stay as they are, even in the middle of an insertion. -/
theorem isrIRQ0_undue {node : Option Tid} (h : Placed s node) (hd : s.dueNext = []) :
    isrIRQ0 s = .ok (s.interrupted s.lists) ∧ Placed (s.interrupted s.lists) node := by
  have hp : Placed { s with
      timerTicks := s.timerTicks + 1
      interrupts := false
      stack := .iret s.interrupts :: s.stack } node := ⟨h.rep, h.agrees, h.standing⟩
  have htick := threadTimerTick_none hp (by simpa [State.dueNext, State.due] using hd)
  constructor
  · unfold isrIRQ0
    simp only [State.push, List.cons_append, List.nil_append]
    rw [htick]
    simp [State.interrupted, State.entered, hd, wakeEvents, h.rep.head]
  · refine ⟨?_, ?_, ?_⟩
    · simpa [State.interrupted, State.entered, hd, wakeEvents] using h.rep
    · simpa [State.interrupted, State.entered, hd, wakeEvents] using h.agrees
    · simpa [State.interrupted, State.entered, hd, wakeEvents] using h.standing

theorem isrIRQ0_spec (h : Placed s none) (ha : ∀ t, s.status t ≠ .zombie) :
    ∃ lists, isrIRQ0 s = .ok (s.entered lists) ∧ Placed (s.entered lists) none := by
  obtain ⟨lists, hrun, hp⟩ := isrIRQ0_interrupted h
  have he : s.interrupted lists = s.entered lists := by
    simp [State.interrupted, State.entered, h.no_zombies ha]
  rw [he] at hrun hp
  exact ⟨lists, hrun, hp⟩

theorem Calm.entered (hidle : s.idleThread = idle) (hthreads : threadsOf s.trace = threads)
    (h : Placed s none) (ha : ∀ t, s.status t ≠ .zombie)
    (hpark : ∀ t, t ∈ threadsOf s.trace ∨ t = s.idleThread → t ≠ s.currentThread →
      ∃ enabled ops, s.esp t = .iret enabled :: ops ∧ Task s.idleThread t ops)
    (hf : ∀ i, i = .readyThreads ∨ i.Tailed → Fifo i s.trace)
    (htask : Task s.idleThread s.currentThread s.stack) :
    ∃ lists, isrIRQ0 s = .ok (s.entered lists) ∧ Calm idle threads (s.entered lists) ∧
      (s.entered lists).sync = s.sync := by
  obtain ⟨lists, hrun, hp⟩ := isrIRQ0_spec h ha
  refine ⟨lists, hrun, ⟨hidle, (threadsOf_wakeEvents _ _).trans hthreads, hp, fun t ↦ ?_, ⟨s.stack, htask, .handler s.interrupts
    (s.status s.currentThread) rfl ?_ rfl ?_⟩, fun t ht hc ↦ ?_, fun i hi ↦ ?_⟩, ?_⟩
  · simp only [State.entered]
    split
    · decide
    · exact ha t
  · simp [State.entered]
  · simp [State.entered, current_not_due h]
  · have hc' : t ≠ s.currentThread := hc
    obtain ⟨b, r, he, ht'⟩ := hpark t (by
      rw [← threadsOf_wakeEvents s.dueNext s.trace]
      exact ht) hc'
    exact ⟨b, r, by simpa [State.entered, hc'] using he, ht'⟩
  · exact fifo_wakeEvents hi _ (hf i hi)
  · ext1 <;> try rfl
    · funext t
      by_cases ht : t = s.currentThread
      · subst ht
        simp only [State.sync, State.stackOf, State.entered, if_true]
        rw [strip_skip rfl, strip_skip rfl]
      · simp [State.sync, State.stackOf, State.entered, ht]
    · exact sync_wakeEvents _ _

/-! ## Exit -/

theorem threadsOf_switchEvents (s : State) (next : Tid) (tr : List Event) :
    threadsOf (s.switchEvents next ++ tr) = threadsOf tr := by
  unfold State.switchEvents
  cases s.filedOn with
  | none => split <;> rfl
  | some i => split <;> rfl

theorem sync_switchEvents (s : State) (next : Tid) (tr : List Event) :
    (s.switchEvents next ++ tr).filter Event.IsSync = tr.filter Event.IsSync := by
  unfold State.switchEvents State.filedOn
  by_cases hi : s.currentThread = s.idleThread
  · rw [if_pos hi]
    split <;> rfl
  · rw [if_neg hi]
    cases s.status s.currentThread <;> split <;> rfl

theorem fifo_switchEvents {i : ListId} {next : Tid} (h : Placed s none)
    (hn : next = s.idleThread ∨ ∃ ys, listsOf s.trace .readyThreads = ys ++ [next])
    (hi : i = .readyThreads ∨ i.Tailed) (hf : Fifo i s.trace) :
    Fifo i (s.switchEvents next ++ s.trace) := by
  have hout : Fifo i ((if next = s.idleThread then [] else [.removed .readyThreads next]) ++
      s.trace) := by
    split
    · exact hf
    · rename_i hne
      obtain ⟨ys, hys⟩ := hn.resolve_left hne
      by_cases hr : i = .readyThreads
      · subst hr
        have hnd := h.rep.nodup .readyThreads
        rw [hys, List.nodup_append] at hnd
        exact hf.removed_ready hys fun hm ↦ hnd.2.2 next hm next List.mem_cons_self rfl
      · exact hf.removed_other (Ne.symm hr)
  unfold State.switchEvents
  rw [List.append_assoc]
  cases s.filedOn with
  | none => exact hout
  | some j => exact hout.added

/-- The end of the handler: whoever runs next comes back to what it was at. -/
theorem dispatch_calm (h : Calm idle threads s) {entered : ThreadStatus}
    (hst : s.stack = .cleanZombies none entered :: ops) :
    ∃ s', exec (.cleanZombies none entered) { s with stack := ops } = .ok s' ∧ Calm idle threads s' ∧
      s'.sync = s.sync := by
  obtain ⟨r, htask, hstage⟩ := h.current
  cases hstage with
  | thread hs _ =>
    rw [hst] at hs
    have := htask.calm (.cleanZombies none entered) (by simp [← hs])
    cases this
  | resumed b hs =>
    rw [hst] at hs
    cases hs
  | handler b e hs hesp hint hcur =>
    rw [hst] at hs
    cases hs
    have hp : Placed { s with stack := .iret b :: r } none :=
      ⟨h.placed.rep, h.placed.agrees, h.placed.standing⟩
    -- the stack of every thread as it will be found
    have hsaved : ∀ t, t ∈ threadsOf s.trace ∨ t = s.idleThread →
        ∃ enabled ops, s.esp t = .iret enabled :: ops ∧ Task s.idleThread t ops := by
      intro t ht
      by_cases hc : t = s.currentThread
      · subst hc
        exact ⟨b, r, hesp, htask⟩
      · exact h.parked t ht hc
    by_cases hstay : listsOf s.trace .readyThreads = [] ∧ s.status s.currentThread = .running
    · have hrun := cleanZombies_stay entered hp hstay.1 hstay.2
      refine ⟨_, hrun, ⟨h.idle_eq, h.threads_eq, ⟨hp.rep, hp.agrees, hp.standing⟩, h.alive,
        ⟨r, htask, .resumed b hesp hint hstay.2⟩, h.parked, h.fifo⟩, ?_⟩
      ext1 <;> try rfl
      funext t
      by_cases ht : t = s.currentThread
      · subst ht
        simp only [State.sync, State.stackOf, hst, hesp, if_true]
        rw [strip_skip (o := .cleanZombies none entered) rfl]
      · simp [State.sync, State.stackOf, ht]
    · obtain ⟨next, lists, hrun, hp', hne, hnext⟩ := cleanZombies_switch entered hp hstay
      have hmem : next ∈ threadsOf s.trace ∨ next = s.idleThread := by
        rcases hnext with hn | ⟨-, ys, hys⟩
        · exact .inr hn.1
        · exact .inl (h.placed.standing.mem (h.placed.home_of_mem (i := .readyThreads) (by
            have : listsOf s.trace .readyThreads = ys ++ [next] := hys
            simp [this])))
      obtain ⟨b', r', hesp', htask'⟩ := hsaved next hmem
      refine ⟨_, hrun, ⟨h.idle_eq, (threadsOf_switchEvents _ _ _).trans h.threads_eq, hp', fun t ↦ ?_, ⟨r', htask', .resumed b' hesp' hint ?_⟩, fun t ht hc ↦ ?_,
        fun i hi ↦ ?_⟩, ?_⟩
      · have hfiled : (s.status s.currentThread).filed ≠ .zombie := by
          unfold ThreadStatus.filed
          split
          · decide
          · exact h.alive _
        simp only [State.switched]
        by_cases ht : t = next
        · simp [ht]
        · rw [Function.update_of_ne ht]
          exact h.alive_update hfiled t
      · simp [State.switched]
      · apply hsaved
        rwa [State.switched, threadsOf_switchEvents] at ht
      · exact fifo_switchEvents hp (hnext.imp (·.1) (·.2)) hi (h.fifo i hi)
      · ext1 <;> try rfl
        · funext t
          simp only [State.sync, State.stackOf, State.switched]
          have hback : strip (s.esp s.currentThread) = strip s.stack := by
            rw [hst, hesp, strip_skip (o := .cleanZombies none entered) rfl]
          by_cases ht : t = s.currentThread
          · subst ht
            simp [hne.symm, hback]
          · by_cases hn : t = next
            · simp [hn, hne]
            · simp [hn, ht]
        · exact sync_switchEvents _ _ _

/-! ## One step of the machine -/

/-- `mutex_release`, or `condvar_wait` through it, by a thread that does not hold the mutex. -/
def State.Misused (s : State) : Prop :=
  ∃ op ops mutex, s.stack = op :: ops ∧ Sync.Releases op = some mutex ∧
    ¬ s.sync.Holds mutex s.currentThread

/-- What a step is to the synchronisation objects: nothing, or what `Sync` says. -/
def Seen (s : State) (a : Action) (s' : State) : Prop :=
  s'.sync = s.sync ∨
    ∃ act, s.act a = some act ∧ Sync.Step s.currentThread act s.sync s'.sync

theorem sync_task_current (s : State) : s.sync.task s.currentThread = strip s.stack := by
  simp [State.sync, State.stackOf]

theorem Calm.sync_free (h : Calm idle threads s) (hs : s.status s.currentThread = .running) :
    s.sync.Free s.currentThread := by
  intro q
  rw [State.sync_queue]
  exact h.placed.free hs _

theorem Call.task_ops {c : Call} (hc : c.Quiet) {idle t : Tid} (ht : t ≠ idle) :
    Task idle t c.ops := by
  refine ⟨?_, fun he ↦ absurd he ht, ?_⟩
  · cases c <;> simp [Call.ops, heapOps, Op.IsCalm]
    · exact hc.2 rfl
    · exact hc.1 rfl
  · cases c <;> simp [Call.ops, heapOps, YieldsAsleep]

/-- Between two calls a thread runs. -/
theorem Calm.running_nil (h : Calm idle threads s) (hst : s.stack = []) :
    s.status s.currentThread = .running := by
  obtain ⟨ops, -, hstage⟩ := h.current
  cases hstage with
  | thread hs hr =>
    rw [hst] at hs
    subst hs
    exact hr.resolve_right (by simp)
  | resumed b hs =>
    rw [hst] at hs
    cases hs
  | handler b e hs =>
    rw [hst] at hs
    cases hs

theorem Calm.call (h : Calm idle threads s) {c : Call} (hc : c.Quiet) (he : Enabled s (.call c)) :
    Calm idle threads (s.push c.ops) ∧ Sync.Step s.currentThread (.call c) s.sync (s.push c.ops).sync := by
  obtain ⟨hst, hi⟩ := he
  have hrun := h.running_nil hst
  have hstack : (s.push c.ops).stack = c.ops := by simp [State.push, hst]
  constructor
  · have htask : Task s.idleThread s.currentThread (s.push c.ops).stack := by
      rw [hstack]
      exact Call.task_ops hc hi
    exact h.of_thread rfl rfl rfl rfl ⟨h.placed.rep, h.placed.agrees, h.placed.standing⟩ h.alive
      h.fifo htask (.inl hrun)
  · have hsync : (s.push c.ops).sync = s.sync.setTask s.currentThread (strip c.ops) := by
      ext1 <;> try rfl
      refine Eq.trans (sync_task (s := s) rfl rfl) ?_
      rw [hstack]
      rfl
    rw [hsync]
    exact .call hc (h.sync_free hrun) (by rw [sync_task_current, hst]; rfl)

theorem Does.seen (hd : Does idle threads s op ops s') (h : Calm idle threads s) (hst : s.stack = op :: ops)
    (hop : op.IsSkip = false)
    (hr : ∀ mutex, Sync.Releases op = some mutex → s.sync.Holds mutex s.currentThread) :
    Seen s .exec s' := by
  obtain ⟨v, hv, hs⟩ := hd.sync
  refine .inr ⟨.exec op, by simp [State.act, hst], ?_⟩
  rw [hs]
  exact .exec s.interrupts (h.sync_free (h.running hst hop).1)
    (by rw [sync_task_current, hst, strip_of_not_skip hop]) hr hv

theorem Calm.exec_skip (h : Calm idle threads s) (hst : s.stack = op :: ops) (hop : op.IsSkip = true) :
    ∃ s', exec op { s with stack := ops } = .ok s' ∧ Calm idle threads s' ∧ s'.sync = s.sync := by
  have hstrip : strip ops = strip s.stack := by rw [hst, strip_skip hop]
  have hsync : ∀ b, ({ s with stack := ops, interrupts := b } : State).sync = s.sync := by
    intro b
    ext1 <;> try rfl
    refine Eq.trans (sync_task (s := s) rfl rfl) ?_
    simp only [hstrip]
    exact sync_task_self s
  obtain ⟨r, htask, hstage⟩ := h.current
  cases op with
  | interruptRestore b =>
    cases hstage with
    | thread hs hr =>
      rw [hst] at hs
      subst hs
      have hrun := hr.resolve_right (by simp)
      exact ⟨_, rfl, h.of_thread rfl rfl rfl rfl ⟨h.placed.rep, h.placed.agrees, h.placed.standing⟩
        h.alive h.fifo htask.tail (.inl hrun), hsync b⟩
    | resumed b hs =>
      rw [hst] at hs
      cases hs
    | handler b e hs =>
      rw [hst] at hs
      cases hs
  | iret b =>
    cases hstage with
    | thread hs hr =>
      rw [hst] at hs
      subst hs
      have := htask.calm _ List.mem_cons_self
      cases this
    | resumed b' hs hi hrun =>
      rw [hst] at hs
      cases hs
      exact ⟨_, rfl, h.of_thread rfl rfl rfl rfl ⟨h.placed.rep, h.placed.agrees, h.placed.standing⟩
        h.alive h.fifo htask (.inl hrun), hsync b⟩
    | handler b e hs =>
      rw [hst] at hs
      cases hs
  | threadYield =>
    cases hstage with
    | thread hs hr =>
      rw [hst] at hs
      subst hs
      obtain ⟨lists, hrun, hc, hsync'⟩ := Calm.entered (s := { s with stack := ops })
        h.idle_eq h.threads_eq ⟨h.placed.rep, h.placed.agrees, h.placed.standing⟩ h.alive h.parked h.fifo htask.tail
      exact ⟨_, hrun, hc, hsync'.trans (hsync s.interrupts)⟩
    | resumed b hs =>
      rw [hst] at hs
      cases hs
    | handler b e hs =>
      rw [hst] at hs
      cases hs
  | cleanZombies z e =>
    cases z with
    | none => exact dispatch_calm h hst
    | some z =>
      cases hstage with
      | thread hs hr =>
        rw [hst] at hs
        subst hs
        have := htask.calm _ List.mem_cons_self
        cases this
      | resumed b hs =>
        rw [hst] at hs
        cases hs
      | handler b e hs =>
        rw [hst] at hs
        cases hs
  | _ => cases hop

/-- The step lemma: from a calm state only misuse of a mutex halts the machine, and any other step
leads to a calm state. -/
theorem Calm.progress (h : Calm idle threads s) {a : Action} (hq : Quiet s a) (he : Enabled s a)
    (hm : a = .exec → ¬ s.Misused) :
    ∃ s', next s a = .ok s' ∧ Calm idle threads s' ∧ Seen s a s' := by
  cases a with
  | interrupt =>
    obtain ⟨r, htask, hstage⟩ := h.current
    cases hstage with
    | thread hs hr =>
      subst hs
      obtain ⟨lists, hrun, hc, hsync⟩ := Calm.entered h.idle_eq h.threads_eq h.placed h.alive h.parked h.fifo htask
      exact ⟨_, hrun, hc, .inl hsync⟩
    | resumed b hs hi =>
      rw [Enabled, hi] at he
      cases he
    | handler b e hs _ hi =>
      rw [Enabled, hi] at he
      cases he
  | call c =>
    obtain ⟨hc, hs⟩ := h.call (hq c rfl) he
    exact ⟨_, rfl, hc, .inr ⟨.call c, rfl, hs⟩⟩
  | exec =>
    obtain ⟨op, ops, hst⟩ := List.exists_cons_of_ne_nil he.1
    have hrun : next s .exec = Kernel.exec op { s with stack := ops } := by
      simp only [next, hst]
    rw [hrun]
    by_cases hop : op.IsSkip = true
    · obtain ⟨s', hx, hc, hs⟩ := h.exec_skip hst hop
      exact ⟨s', hx, hc, .inl hs⟩
    · have hop' : op.IsSkip = false := by simpa using hop
      have hr : ∀ mutex, Sync.Releases op = some mutex → s.sync.Holds mutex s.currentThread := by
        intro mutex hrel
        by_contra hn
        exact hm rfl ⟨op, ops, mutex, hst, hrel, hn⟩
      obtain ⟨s', hx, hd⟩ := exec_does h hst hop' hr
      exact ⟨s', hx, hd.calm, hd.seen h hst hop' hr⟩
  | alloc t =>
    obtain ⟨r, htask, hstage⟩ := h.current
    have hhead := he.1
    cases hstage with
    | thread hs hr =>
      subst hs
      have := htask.calm _ (List.mem_of_mem_head? hhead)
      cases this
    | resumed b hs =>
      rw [hs] at hhead
      cases hhead
    | handler b e hs =>
      rw [hs] at hhead
      cases hhead

/-- A mutex that is misused halts the machine. -/
theorem not_misused (he : next s .exec = .ok s') : ¬ s.Misused := by
  rintro ⟨op, ops, mutex, hst, hrel, hn⟩
  simp only [next, hst] at he
  apply hn
  cases op with
  | mutexRelease m =>
    cases hrel
    exact mutexRelease_holds (s := { s with stack := ops }) he
  | condvarWait c m =>
    cases hrel
    obtain ⟨_, hrun, -⟩ := bind_eq_ok.mp he
    have hh := mutexRelease_holds hrun
    exact hh
  | _ => cases hrel

/-- The step of an operation outside the interrupt frame. -/
theorem Calm.exec_step (h : Calm idle threads s) (hst : s.stack = op :: ops) (hop : op.IsSkip = false)
    (hs : next s .exec = .ok s') :
    Calm idle threads s' ∧ Sync.Step s.currentThread (.exec op) s.sync s'.sync := by
  have hr : ∀ mutex, Sync.Releases op = some mutex → s.sync.Holds mutex s.currentThread := by
    intro mutex hrel
    by_contra hn
    exact not_misused hs ⟨op, ops, mutex, hst, hrel, hn⟩
  obtain ⟨s'', hrun, hd⟩ := exec_does h hst hop hr
  have hnext : next s .exec = exec op { s with stack := ops } := by simp only [next, hst]
  rw [hnext, hrun] at hs
  cases hs
  obtain ⟨v, hv, hsync⟩ := hd.sync
  refine ⟨hd.calm, ?_⟩
  rw [hsync]
  exact .exec s.interrupts (h.sync_free (h.running hst hop).1)
    (by rw [sync_task_current, hst, strip_of_not_skip hop]) hr hv

theorem Calm.step (h : Calm idle threads s) {a : Action} (hq : Quiet s a) (he : Enabled s a)
    (hs : next s a = .ok s') : Calm idle threads s' ∧ Seen s a s' := by
  obtain ⟨s'', hrun, hc⟩ := h.progress hq he fun ha ↦ by
    subst ha
    exact not_misused hs
  rw [hs] at hrun
  cases hrun
  exact hc

end

/-! ## Runs -/

/-- The threads a kernel is started with. -/
def Distinct (idle main : Tid) (threads : List Tid) : Prop := (idle :: main :: threads).Nodup

instance (idle main : Tid) (threads : List Tid) : Decidable (Distinct idle main threads) := by
  unfold Distinct
  infer_instance

theorem calm_mainInit {idle main : Tid} (count : Nat → Nat) (hm : main ≠ idle) :
    Calm idle [main] (mainInit idle main count) := by
  have hnil : listsOf [.created main] = fun _ ↦ [] := rfl
  have hhome : homeOf [.created main] = fun _ ↦ none := rfl
  have hthreads : threadsOf [.created main] = [main] := rfl
  refine ⟨rfl, rfl, ⟨?_, ?_, ?_⟩, fun t ↦ ?_, ⟨[], .nil, .thread rfl (.inl ?_)⟩, fun t ht hc ↦ ?_, fun i _ ↦ ?_⟩
  · exact ⟨fun _ ↦ trivial, fun _ ↦ rfl, fun _ _ ↦ rfl, fun _ ↦ List.nodup_nil, by simp [mainInit, hnil]⟩
  · intro i t
    simp [mainInit, hnil, hhome]
  · simp only [mainInit, hhome, hthreads]
    refine ⟨by simp, by simp, fun ht hn ↦ ?_, ?_, fun _ ↦ ?_, fun he ↦ absurd he.symm hm, ?_,
      by simp, ?_, ?_⟩
    · exact absurd (List.mem_singleton.mp ht) hn
    · simpa using hm.symm
    · simp [hm.symm]
    · simp
    · simp
    · simp
  · simp only [mainInit]
    by_cases ht : t = main
    · simp [ht]
    · simp [ht]
  · simp [mainInit]
  · simp only [mainInit, hthreads, List.mem_singleton] at ht hc
    have ht := ht.resolve_left hc
    subst ht
    refine ⟨true, [.cpuIdleLoop], by simp [mainInit], ?_⟩
    exact Task.nil.cons rfl (.inr rfl) (by simp)
  · cases i <;> rfl

/-- One more thread at the start. -/
def State.booted (s : State) (t : Tid) : State :=
  { s with
    nextTid := s.nextTid + 1
    esp := Function.update s.esp t [.iret true]
    lists := threadListAdd .readyThreads t s.lists
    allThreads := threadListAdd () t s.allThreads
    allocated := Function.update s.allocated t true
    trace := .added .readyThreads t :: .created t :: s.trace }

/-- What is asked of those that are still to be put on the lists. -/
def Unborn (s : State) (ts : List Tid) : Prop :=
  ts.Nodup ∧ ∀ t ∈ ts, t ∉ threadsOf s.trace ∧ t ≠ s.idleThread ∧ s.status t = .ready

theorem Unborn.tail {t : Tid} {ts : List Tid} (h : Unborn s (t :: ts)) : Unborn (s.booted t) ts := by
  obtain ⟨hnd, hts⟩ := h
  obtain ⟨htn, hnd⟩ := List.nodup_cons.mp hnd
  refine ⟨hnd, fun u hu ↦ ?_⟩
  obtain ⟨h₁, h₂, h₃⟩ := hts u (List.mem_cons_of_mem _ hu)
  refine ⟨?_, h₂, h₃⟩
  simp only [State.booted, threadsOf, Event.onThreads, List.mem_cons, not_or]
  refine ⟨?_, h₁⟩
  rintro rfl
  exact htn hu

theorem Placed.booted {t : Tid} (h : Placed s none) (hn : t ∉ threadsOf s.trace)
    (hi : t ≠ s.idleThread) (hr : s.status t = .ready) : Placed (s.booted t) none := by
  have hhome := (h.standing.outside hn hi).2
  have hrep := rep_threadListAdd (i := .readyThreads) h.rep (h.not_mem hhome) id
  rw [pending_update] at hrep
  exact ⟨hrep, h.agrees.added hhome, h.standing.create hn hi hr⟩

theorem calm_bootThreads {idle : Tid} {ts : List Tid} : ∀ {threads : List Tid} {s : State},
    Calm idle threads s → Unborn s ts → Calm idle (ts.reverse ++ threads) (bootThreads ts s) := by
  induction ts with
  | nil => exact fun h _ ↦ h
  | cons t ts ih =>
    intro threads s h hts
    rw [List.reverse_cons, List.append_assoc]
    obtain ⟨hnew, hi, hready⟩ := hts.2 t List.mem_cons_self
    have hcur := (h.placed.standing.outside hnew hi).1
    apply ih (s := s.booted t) _ hts.tail
    obtain ⟨ops, htask, hstage⟩ := h.current
    refine ⟨h.idle_eq, congrArg _ h.threads_eq, h.placed.booted hnew hi hready, h.alive,
      ⟨ops, htask, ?_⟩, fun u hu hc ↦ ?_, fun i hi ↦ (h.fifo i hi).added⟩
    · cases hstage with
      | thread hst hs => exact .thread hst hs
      | resumed b hst hint hs => exact .resumed b hst hint hs
      | handler b e hst he hint hs =>
        refine .handler b e hst ?_ hint hs
        simpa [State.booted, hcur.symm] using he
    · by_cases hut : u = t
      · subst hut
        exact ⟨true, [], by simp [State.booted], .nil⟩
      · have hu' : u ∈ threadsOf s.trace ∨ u = s.idleThread := by
          simpa [State.booted, threadsOf, Event.onThreads, hut] using hu
        simpa [State.booted, hut] using h.parked u hu' hc

/-- The threads of `boot`, once `main` runs. -/
theorem unborn_boot {idle main : Tid} {threads : List Tid} (count : Nat → Nat)
    (hd : Distinct idle main threads) : Unborn (mainInit idle main count) threads := by
  unfold Distinct at hd
  simp only [List.nodup_cons, List.mem_cons, not_or] at hd
  obtain ⟨⟨him, hit⟩, hmt, hnd⟩ := hd
  refine ⟨hnd, fun t ht ↦ ?_⟩
  have htm : t ≠ main := by
    rintro rfl
    exact hmt ht
  refine ⟨?_, ?_, ?_⟩
  · simpa [mainInit, threadsOf, Event.onThreads] using htm
  · rintro rfl
    exact hit ht
  · simp [mainInit, htm]

theorem Distinct.ne {idle main : Tid} {threads : List Tid} (hd : Distinct idle main threads) :
    main ≠ idle := by
  rintro rfl
  simp [Distinct] at hd

theorem calm_boot {idle main : Tid} {threads : List Tid} (count : Nat → Nat)
    (hd : Distinct idle main threads) :
    Calm idle (threads.reverse ++ [main]) (boot idle main threads count) :=
  calm_bootThreads (calm_mainInit count hd.ne) (unborn_boot count hd)

theorem bootThreads_sync {ts : List Tid} : ∀ {s : State},
    (∀ t ∈ ts, t ≠ s.currentThread ∧ s.sync.task t = []) → (bootThreads ts s).sync = s.sync := by
  induction ts with
  | nil => exact fun _ ↦ rfl
  | cons t ts ih =>
    intro s hts
    obtain ⟨hc, htask⟩ := hts t List.mem_cons_self
    have hstep : (s.booted t).sync = s.sync := by
      ext1 <;> try rfl
      funext u
      by_cases hu : u = t
      · subst hu
        rw [htask]
        have hnew : strip [.iret true] = [] := rfl
        simp [State.sync, State.stackOf, State.booted, hc, hnew]
      · simp [State.sync, State.stackOf, State.booted, hu]
    refine (ih (s := s.booted t) fun u hu ↦ ?_).trans hstep
    rw [hstep]
    exact hts u (List.mem_cons_of_mem _ hu)

theorem boot_sync {idle main : Tid} {threads : List Tid} (count : Nat → Nat)
    (hd : Distinct idle main threads) :
    (boot idle main threads count).sync = Sync.start idle count := by
  unfold Distinct at hd
  simp only [List.nodup_cons, List.mem_cons, not_or] at hd
  obtain ⟨⟨him, hit⟩, hmt, hnd⟩ := hd
  have hmain : (mainInit idle main count).sync = Sync.start idle count := by
    ext1 <;> try rfl
    funext t
    by_cases ht : t = main
    · subst ht
      simp [State.sync, State.stackOf, mainInit, Sync.start, Function.update_of_ne (Ne.symm him)]
    · by_cases hi : t = idle
      · subst hi
        have hloop : strip [.iret true, .cpuIdleLoop] = [.cpuIdleLoop] := rfl
        simp [State.sync, State.stackOf, mainInit, Sync.start, ht, hloop]
      · simp [State.sync, State.stackOf, mainInit, Sync.start, ht, hi]
  rw [boot, bootThreads_sync, hmain]
  intro t ht
  refine ⟨?_, ?_⟩
  · rintro rfl
    exact hmt ht
  · rw [hmain]
    have hi : t ≠ idle := by
      rintro rfl
      exact hit ht
    simp [Sync.start, hi]

/-- The run lemma. -/
theorem Run.calm {ok : State → Action → Prop} {idle : Tid} {threads : List Tid} {s₀ s : State} (hr : Run ok s₀ s)
    (hok : ∀ s a, ok s a → Quiet s a) (h₀ : Calm idle threads s₀) : Calm idle threads s := by
  apply hr.invariant h₀
  intro s a s' h hq he hs
  exact (h.step (hok s a hq) he hs).1

/-- A run of the machine is one of the synchronisation objects: what their steps keep holds
throughout. -/
theorem Run.sync_invariant {ok : State → Action → Prop} {I : Sync → Prop} {idle : Tid}
    {threads : List Tid} {s₀ s : State}
    (hr : Run ok s₀ s) (hok : ∀ s a, ok s a → Quiet s a) (h₀ : Calm idle threads s₀) (hI : I s₀.sync)
    (hstep : ∀ s a act v, Calm idle threads s → I s.sync → ok s a → s.act a = some act →
      Sync.Step s.currentThread act s.sync v → I v) : Calm idle threads s ∧ I s.sync := by
  refine hr.invariant (I := fun s ↦ Calm idle threads s ∧ I s.sync) ⟨h₀, hI⟩ ?_
  rintro s a s' ⟨hc, hi⟩ hq he hs
  obtain ⟨hc', hseen⟩ := hc.step (hok s a hq) he hs
  refine ⟨hc', ?_⟩
  rcases hseen with hsame | ⟨act, ha, hst⟩
  · rwa [hsame]
  · exact hstep s a act _ hc hi hq ha hst

end AlienOS.Kernel
