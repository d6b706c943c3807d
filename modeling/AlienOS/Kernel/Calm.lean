import AlienOS.Kernel.Acts

/-!
# Calm — runs in which no thread is made or ends

Every thread then keeps its place on the lists and something to come back to on its stack, and the
machine does to the synchronisation objects what `Sync` says.
-/

open AlienOS.Lib

namespace AlienOS.Kernel

/-- Only calls that neither end a thread nor make one. -/
def Quiet (_ : State) (a : Action) : Prop := ∀ c, a = .call c → c.Quiet

/-- `thread_sleep` yields as soon as it has set the status. -/
def YieldsAsleep : List Op → Prop
  | [] => True
  | op :: ops => (op = .sleepStatus → ops.head? = some .threadYield) ∧ YieldsAsleep ops

/-- What a thread has before it, interrupt handling apart. -/
structure Task (idle t : Tid) (ops : List Op) : Prop where
  calm : ∀ op ∈ ops, op.IsCalm
  idles : t = idle → ∀ op ∈ ops, op.IsIdle
  asleep : YieldsAsleep ops

/-- The processor runs a thread, or returns to it from the handler, or is in the handler on its
behalf. -/
inductive Stage (s : State) (ops : List Op) : Prop where
  | thread (hst : s.stack = ops)
    (hs : s.status s.currentThread = .running ∨ ops.head? = some .threadYield)
  | resumed (enabled : Bool) (hst : s.stack = .iret enabled :: ops) (hi : s.interrupts = false)
    (hs : s.status s.currentThread = .running)
  | handler (enabled : Bool) (entered : ThreadStatus)
    (hst : s.stack = .cleanZombies none entered :: .iret enabled :: ops)
    (he : s.esp s.currentThread = .iret enabled :: ops) (hi : s.interrupts = false)
    (hs : s.status s.currentThread = entered)

structure Calm (idle : Tid) (threads : List Tid) (s : State) : Prop where
  idle_eq : s.idleThread = idle
  threads_eq : threadsOf s.trace = threads
  placed : Placed s none
  alive : ∀ t, s.status t ≠ .zombie
  current : ∃ ops, Task s.idleThread s.currentThread ops ∧ Stage s ops
  parked : ∀ t, t ∈ threadsOf s.trace ∨ t = s.idleThread → t ≠ s.currentThread →
    ∃ enabled ops, s.esp t = .iret enabled :: ops ∧ Task s.idleThread t ops
  fifo : ∀ i, i = .readyThreads ∨ i.Tailed → Fifo i s.trace

namespace Task

variable {idle t : Tid} {o : Op} {ops : List Op}

theorem nil : Task idle t [] := ⟨by simp, by simp, trivial⟩

theorem tail (h : Task idle t (o :: ops)) : Task idle t ops :=
  ⟨fun p hp ↦ h.calm p (List.mem_cons_of_mem _ hp),
    fun ht p hp ↦ h.idles ht p (List.mem_cons_of_mem _ hp), h.asleep.2⟩

theorem cons (h : Task idle t ops) (hc : o.IsCalm) (hi : t ≠ idle ∨ o.IsIdle)
    (hs : o ≠ .sleepStatus) : Task idle t (o :: ops) := by
  refine ⟨fun p hp ↦ ?_, fun ht p hp ↦ ?_, fun he ↦ absurd he hs, h.asleep⟩
  · rcases List.mem_cons.mp hp with rfl | hp
    · exact hc
    · exact h.calm p hp
  · rcases List.mem_cons.mp hp with rfl | hp
    · exact hi.resolve_left fun hn ↦ hn ht
    · exact h.idles ht p hp

end Task

/-! ## Between two operations of a thread -/

section

variable {idle : Tid} {threads : List Tid} {s s' : State} {op : Op} {ops : List Op}

/-- What a thread that keeps the processor may change. -/
theorem Calm.of_thread (h : Calm idle threads s) (hc : s'.currentThread = s.currentThread)
    (hi : s'.idleThread = s.idleThread) (he : s'.esp = s.esp)
    (ht : threadsOf s'.trace = threadsOf s.trace) (hp : Placed s' none)
    (ha : ∀ t, s'.status t ≠ .zombie) (hf : ∀ i, i = .readyThreads ∨ i.Tailed → Fifo i s'.trace)
    (hops : Task s.idleThread s.currentThread s'.stack)
    (hs : s'.status s.currentThread = .running ∨ s'.stack.head? = some .threadYield) :
    Calm idle threads s' := by
  refine ⟨hi.trans h.idle_eq, ht.trans h.threads_eq, hp, ha, ⟨s'.stack, ?_, .thread rfl ?_⟩, ?_, hf⟩
  · rw [hi, hc]
    exact hops
  · rw [hc]
    exact hs
  · rw [hc, hi, he, ht]
    exact h.parked

/-- Only a thread that runs comes to an operation outside the handler. -/
theorem Calm.running (h : Calm idle threads s) (hst : s.stack = op :: ops) (hop : op.IsSkip = false) :
    s.status s.currentThread = .running ∧ Task s.idleThread s.currentThread (op :: ops) := by
  obtain ⟨ops', ht, hs⟩ := h.current
  cases hs with
  | thread hst' hs =>
    rw [hst] at hst'
    subst hst'
    refine ⟨hs.resolve_right fun he ↦ ?_, ht⟩
    cases he
    cases hop
  | resumed e hst' =>
    rw [hst] at hst'
    cases hst'
    cases hop
  | handler e entered hst' =>
    rw [hst] at hst'
    cases hst'
    cases hop

theorem Calm.not_idle (h : Calm idle threads s) (hst : s.stack = op :: ops) (hop : op.IsSkip = false)
    (hid : op.IsIdle = false) : s.currentThread ≠ s.idleThread := by
  intro hc
  have := (h.running hst hop).2.idles hc op List.mem_cons_self
  rw [hid] at this
  cases this

/-- A blocked thread is in a wait queue. -/
theorem Calm.waits_of_blocked (h : Calm idle threads s) {t : Tid} (ht : t = idle ∨ t ∈ threads)
    (hb : s.status t = .blocked) : ∃ q, homeOf s.trace t = some (.waitQueue q) := by
  have hst := h.placed.standing
  have hlisted : homeOf s.trace t ≠ none := by
    by_cases hc : t = s.currentThread
    · rw [hc] at hb ⊢
      exact hst.cur_blocked hb
    · rcases ht with rfl | ht
      · rw [← h.idle_eq] at hb hc
        rw [hst.idle_ready hc] at hb
        cases hb
      · exact hst.listed (by rwa [h.threads_eq]) hc
  obtain ⟨i, hi⟩ := Option.ne_none_iff_exists'.mp hlisted
  have hstatus := hst.status_eq hi
  rw [hb] at hstatus
  cases i with
  | waitQueue q => exact ⟨q, hi⟩
  | _ => cases hstatus

end

/-- A thread keeps the processor after an operation, and what it has done is what `Sync` says. -/
structure Does (idle : Tid) (threads : List Tid) (s : State) (op : Op) (ops : List Op) (s' : State) :
    Prop where
  calm : Calm idle threads s'
  current : s'.currentThread = s.currentThread
  sync : ∃ v, v = Sync.exec s.currentThread s.interrupts op (s.sync.setTask s.currentThread ops) ∧
    s'.sync = v.setTask s.currentThread (strip (v.task s.currentThread))

section

variable {idle : Tid} {threads : List Tid} {s s' : State} {op : Op} {ops : List Op}

/-- The thread has come past the operation. -/
theorem Calm.rest (h : Calm idle threads s) (hst : s.stack = op :: ops) (hop : op.IsSkip = false) :
    Calm idle threads { s with stack := ops } := by
  obtain ⟨hrun, htask⟩ := h.running hst hop
  exact h.of_thread rfl rfl rfl rfl ⟨h.placed.rep, h.placed.agrees, h.placed.standing⟩ h.alive
    h.fifo htask.tail (.inl hrun)

/-- A status other than `Zombie` for the current thread. -/
theorem Calm.alive_update (h : Calm idle threads s) {t : Tid} {st : ThreadStatus} (hst : st ≠ .zombie) (u : Tid) :
    Function.update s.status t st u ≠ .zombie := by
  by_cases hu : u = t
  · simpa [hu] using hst
  · simpa [hu] using h.alive u

theorem Calm.comes (h : Calm idle threads s) (hst : s.stack = op :: ops) (hop : op.IsSkip = false)
    (hr : ∀ mutex, Sync.Releases op = some mutex → s.sync.Holds mutex s.currentThread) :
    Comes s op ops := by
  obtain ⟨hrun, htask⟩ := h.running hst hop
  refine ⟨hst, h.placed, hrun, htask.calm op List.mem_cons_self, hop, h.not_idle hst hop,
    fun hs ↦ ?_, hr⟩
  subst hs
  exact htask.asleep.1 rfl

/-- What an operation leaves to its thread is again a task. -/
theorem Task.leaves {t : Tid} (h : Task idle t (op :: ops)) (s : State) :
    Task idle t (s.leaves op ++ ops) := by
  have hi : t ≠ idle ∨ op.IsIdle := by
    by_cases ht : t = idle
    · exact .inr (h.idles ht op List.mem_cons_self)
    · exact .inl ht
  have hyield : ∀ {b : Bool} {r : List Op}, Task idle t r →
      Task idle t (.threadYield :: .interruptRestore b :: r) := by
    intro b r hr
    exact (hr.cons (o := .interruptRestore b) rfl (.inr rfl) (by simp)).cons rfl (.inr rfl) (by simp)
  have hops := h.tail
  cases op with
  | semaphoreDown sem =>
    simp only [State.leaves]
    split
    · exact hyield hops
    · exact hops
  | mutexAcquire mutex =>
    have hne : t ≠ idle := hi.resolve_right (by simp [Op.IsIdle])
    simp only [State.leaves]
    split
    · exact hops
    · have hacq := hops.cons (o := .mutexAcquired mutex s.interrupts) rfl (.inl hne) (by simp)
      split
      · exact hyield hacq
      · exact hacq
  | tryTest mutex =>
    have hne : t ≠ idle := hi.resolve_right (by simp [Op.IsIdle])
    apply hops.cons
    · split <;> rfl
    · exact .inl hne
    · split <;> simp
  | tryDown mutex =>
    have hne : t ≠ idle := hi.resolve_right (by simp [Op.IsIdle])
    simp only [State.leaves]
    split
    · exact (hops.cons (o := .trySetCount mutex) rfl (.inl hne) (by simp)).cons rfl (.inl hne)
        (by simp)
    · exact hops
  | condvarWait cond mutex =>
    have hne : t ≠ idle := hi.resolve_right (by simp [Op.IsIdle])
    exact hyield ((hops.cons (o := .condvarReturn cond mutex) rfl (.inl hne) (by simp)).cons
      (o := .mutexAcquire mutex) rfl (.inl hne) (by simp))
  | cpuIdleLoop =>
    exact (((hops.cons (o := .cpuIdleLoop) rfl (.inr rfl) (by simp)).cons (o := .threadYield) rfl
      (.inr rfl) (by simp)).cons (o := .interruptRestore false) rfl (.inr rfl) (by simp)).cons rfl
        (.inr rfl) (by simp)
  | _ => exact hops

theorem exec_does (h : Calm idle threads s) (hst : s.stack = op :: ops) (hop : op.IsSkip = false)
    (hr : ∀ mutex, Sync.Releases op = some mutex → s.sync.Holds mutex s.currentThread) :
    ∃ s', exec op { s with stack := ops } = .ok s' ∧ Does idle threads s op ops s' := by
  obtain ⟨s', hrun, hk, hsync⟩ := exec_acts (h.comes hst hop hr)
  refine ⟨s', hrun, h.of_thread hk.current hk.idle hk.esp hk.threads hk.placed
    (fun t ht ↦ h.alive t ((hk.zombies t).mp ht)) (hk.fifo h.fifo) ?_ hk.running, hk.current, hsync⟩
  rw [hk.stack]
  exact (h.running hst hop).2.leaves s

end

end AlienOS.Kernel
