import AlienOS.Kernel.Machine

/-!
# Clock — what `timer_ticks` counts

The timer and `int $0x20` raise the same interrupt, and its handler counts both.
-/

open AlienOS.Lib

namespace AlienOS.Kernel

/-! ## Runs with their interrupts counted -/

/-- The current thread raises the timer interrupt itself. -/
def Yields (s : State) (a : Action) : Prop := a = .exec ∧ s.stack.head? = some .threadYield

instance (s : State) (a : Action) : Decidable (Yields s a) := by
  unfold Yields
  infer_instance

/-- The states reached by steps that each meet `ok`, with how often the timer and how often
`int $0x20` raised the timer interrupt on the way. -/
inductive Clocked (ok : State → Action → Prop) (s₀ : State) : Nat → Nat → State → Prop where
  | start : Clocked ok s₀ 0 0 s₀
  | hardware {h y : Nat} {s s' : State} (hr : Clocked ok s₀ h y s) (hok : ok s .interrupt)
      (he : Enabled s .interrupt) (hs : next s .interrupt = .ok s') : Clocked ok s₀ (h + 1) y s'
  | software {h y : Nat} {s s' : State} {a : Action} (hr : Clocked ok s₀ h y s) (hok : ok s a)
      (he : Enabled s a) (hy : Yields s a) (hs : next s a = .ok s') : Clocked ok s₀ h (y + 1) s'
  | other {h y : Nat} {s s' : State} {a : Action} (hr : Clocked ok s₀ h y s) (hok : ok s a)
      (he : Enabled s a) (hi : a ≠ .interrupt) (hy : ¬ Yields s a) (hs : next s a = .ok s') :
      Clocked ok s₀ h y s'

theorem Clocked.run {ok : State → Action → Prop} {s₀ s : State} {h y : Nat}
    (hr : Clocked ok s₀ h y s) : Run ok s₀ s := by
  induction hr with
  | start => exact .start
  | hardware _ hok he hs ih => exact .step ih hok he hs
  | software _ hok he _ hs ih => exact .step ih hok he hs
  | other _ hok he _ _ hs ih => exact .step ih hok he hs

/-- Every run has its interrupts counted. -/
theorem Run.clocked {ok : State → Action → Prop} {s₀ s : State} (hr : Run ok s₀ s) :
    ∃ h y, Clocked ok s₀ h y s := by
  induction hr with
  | start => exact ⟨0, 0, .start⟩
  | @step s s' a _ hok he hs ih =>
    obtain ⟨h, y, ih⟩ := ih
    by_cases hi : a = .interrupt
    · subst hi
      exact ⟨h + 1, y, .hardware ih hok he hs⟩
    · by_cases hy : Yields s a
      · exact ⟨h, y + 1, .software ih hok he hy hs⟩
      · exact ⟨h, y, .other ih hok he hi hy hs⟩

/-- Take the actions one after the other, as long as they are admitted and enabled, and count. -/
def follow (ok : State → Action → Prop) [∀ s a, Decidable (ok s a)] :
    List Action → State → Nat → Nat → Option (Nat × Nat × State)
  | [], s, h, y => some (h, y, s)
  | a :: as, s, h, y =>
    if ok s a ∧ Enabled s a then
      match next s a with
      | .ok s' =>
        if a = .interrupt then follow ok as s' (h + 1) y
        else if Yields s a then follow ok as s' h (y + 1)
        else follow ok as s' h y
      | .error _ => none
    else none

theorem Clocked.follow {ok : State → Action → Prop} [∀ s a, Decidable (ok s a)] {s₀ s : State}
    {as : List Action} {h y : Nat} (hr : Clocked ok s₀ h y s) {r : Nat × Nat × State}
    (hf : Kernel.follow ok as s h y = some r) : Clocked ok s₀ r.1 r.2.1 r.2.2 := by
  induction as generalizing s h y with
  | nil =>
    cases hf
    exact hr
  | cons a as ih =>
    unfold Kernel.follow at hf
    split at hf
    · rename_i hadm
      obtain ⟨hok, he⟩ := hadm
      split at hf
      · rename_i s' hs
        split at hf
        · rename_i hi
          subst hi
          exact ih (.hardware hr hok he hs) hf
        · rename_i hi
          split at hf
          · rename_i hy
            exact ih (.software hr hok he hy hs) hf
          · rename_i hy
            exact ih (.other hr hok he hi hy hs) hf
      · cases hf
    · cases hf

/-! ## Only the handler writes `timer_ticks`, and only `thread_sleep` the wake-up time -/

/-- The time, and the times at which the sleepers are to wake up. -/
def State.times (s : State) : Word × (Tid → Word) := (s.timerTicks, s.wakeupTicks)

theorem wakeFirst_times {q : WaitQueue} {s s' : State} (h : wakeFirst q s = .ok s') :
    s'.times = s.times := by
  obtain ⟨⟨t, l⟩, -, h⟩ := bind_eq_ok.mp h
  obtain ⟨-, -, h⟩ := bind_eq_ok.mp h
  cases h
  rfl

theorem semaphoreDown_times (sem : SemRef) (s : State) :
    (semaphoreDown sem s).times = s.times := by
  unfold semaphoreDown
  dsimp only
  split
  · split <;> rfl
  · rfl

theorem semaphoreUp_times {sem : SemRef} {s s' : State} (h : semaphoreUp sem s = .ok s') :
    s'.times = s.times := by
  unfold semaphoreUp at h
  dsimp only at h
  split at h
  · exact (wakeFirst_times h).trans rfl
  · cases h
    rfl

theorem mutexAcquire_times (m : MutexRef) (s : State) :
    (mutexAcquire m s).times = s.times := by
  unfold mutexAcquire
  split
  · rfl
  · exact semaphoreDown_times _ _

theorem mutexRelease_times {m : MutexRef} {s s' : State} (h : mutexRelease m s = .ok s') :
    s'.times = s.times := by
  obtain ⟨-, -, h⟩ := bind_eq_ok.mp h
  obtain ⟨-, -, h⟩ := bind_eq_ok.mp h
  dsimp only at h
  split at h
  · exact (semaphoreUp_times h).trans rfl
  · cases h
    rfl

theorem condvarBroadcastLoop_times {c fuel : Nat} {s s' : State}
    (h : condvarBroadcastLoop c fuel s = .ok s') : s'.times = s.times := by
  induction fuel generalizing s with
  | zero => cases h
  | succ fuel ih =>
    unfold condvarBroadcastLoop at h
    split at h
    · obtain ⟨s₁, h₁, h⟩ := bind_eq_ok.mp h
      exact (ih h).trans (wakeFirst_times h₁)
    · cases h
      rfl

theorem findReadyThread_times {s s' : State} {t : Tid} (h : findReadyThread s = .ok (t, s')) :
    s'.times = s.times := by
  unfold findReadyThread at h
  split at h
  · cases h
    rfl
  · obtain ⟨_, -, h⟩ := bind_eq_ok.mp h
    obtain ⟨_, -, h⟩ := bind_eq_ok.mp h
    cases h
    rfl

theorem switchOut_times {s s' : State} (h : switchOut s = .ok s') :
    s'.times = s.times := by
  unfold switchOut at h
  split at h
  · cases h
    rfl
  · unfold fileOldThread at h
    split at h <;> cases h <;> rfl

theorem schedule_times {t : Tid} {s s' : State} (h : schedule t s = .ok s') :
    s'.times = s.times := by
  unfold schedule at h
  split at h
  · obtain ⟨-, -, h⟩ := bind_eq_ok.mp h
    cases h
    rfl
  · obtain ⟨s₁, h₁, h⟩ := bind_eq_ok.mp h
    obtain ⟨-, -, h⟩ := bind_eq_ok.mp h
    have hs₁ := switchOut_times h₁
    cases h
    exact hs₁

theorem cleanZombies_times {z : Option Tid} {e : ThreadStatus} {s s' : State}
    (h : cleanZombies z e s = .ok s') : s'.times = s.times := by
  unfold cleanZombies at h
  split at h
  · obtain ⟨⟨t, s₁⟩, h₁, h⟩ := bind_eq_ok.mp h
    obtain ⟨s₂, h₂, h⟩ := bind_eq_ok.mp h
    cases h
    exact (schedule_times h₂).trans (findReadyThread_times h₁)
  · obtain ⟨-, -, h⟩ := bind_eq_ok.mp h
    obtain ⟨-, -, h⟩ := bind_eq_ok.mp h
    dsimp only at h
    split at h
    · obtain ⟨_, -, h⟩ := bind_eq_ok.mp h
      obtain ⟨_, -, h⟩ := bind_eq_ok.mp h
      cases h
      rfl
    · cases h
      rfl

theorem threadTimerTickLoop_times {fuel : Nat} {t : Option Tid} {s s' : State}
    (h : threadTimerTickLoop fuel t s = .ok s') : s'.times = s.times := by
  induction fuel generalizing t s with
  | zero =>
    cases t with
    | none =>
      cases h
      rfl
    | some t => cases h
  | succ fuel ih =>
    cases t with
    | none =>
      cases h
      rfl
    | some t =>
      unfold threadTimerTickLoop at h
      dsimp only at h
      obtain ⟨-, -, h⟩ := bind_eq_ok.mp h
      split at h
      · obtain ⟨_, -, h⟩ := bind_eq_ok.mp h
        exact (ih h).trans rfl
      · exact ih h

theorem isrIRQ0_times {s s' : State} (h : isrIRQ0 s = .ok s') :
    s'.times = (s.timerTicks + 1, s.wakeupTicks) := by
  obtain ⟨s₁, h₁, h⟩ := bind_eq_ok.mp h
  cases h
  exact threadTimerTickLoop_times h₁

theorem onRegistry_times (r : Registry) (f : Links ListId Tid → Links ListId Tid)
    (g : Links Unit Tid → Links Unit Tid) (s : State) : (onRegistry r f g s).times = s.times := by
  cases r <;> rfl

/-- An operation that neither yields nor writes a wake-up time. -/
def Op.IsTimeless : Op → Bool
  | .threadYield | .sleepWakeup _ | .internalThreadInit _ => false
  | _ => true

theorem exec_times {op : Op} {s s' : State} (hop : op.IsTimeless) (h : exec op s = .ok s') :
    s'.times = s.times := by
  cases op with
  | threadYield => cases hop
  | sleepWakeup k => cases hop
  | internalThreadInit t => cases hop
  | cleanZombies z e => exact cleanZombies_times h
  | semaphoreDown sem =>
    cases h
    exact semaphoreDown_times sem s
  | semaphoreTryDown sem =>
    cases h
    unfold semaphoreTryDown
    split <;> rfl
  | semaphoreUp sem => exact semaphoreUp_times h
  | mutexAcquire m =>
    cases h
    exact mutexAcquire_times m s
  | mutexRelease m => exact mutexRelease_times h
  | tryDown m =>
    cases h
    unfold semaphoreTryDown
    split <;> rename_i he <;> split at he <;> cases he <;> rfl
  | condvarWait c m =>
    obtain ⟨s₁, h₁, h⟩ := bind_eq_ok.mp h
    cases h
    exact (mutexRelease_times h₁).trans rfl
  | condvarSignal c =>
    unfold exec condvarSignal at h
    dsimp only at h
    split at h
    · exact (wakeFirst_times h).trans rfl
    · cases h
      rfl
  | condvarBroadcast c => exact condvarBroadcastLoop_times (s := s.log _) h
  | threadExit =>
    obtain ⟨-, -, h⟩ := bind_eq_ok.mp h
    cases h
    rfl
  | addHead r t =>
    cases h
    cases r <;> rfl
  | addHeadPrev r t =>
    cases h
    exact onRegistry_times _ _ _ _
  | addNodeNext r t =>
    cases h
    exact onRegistry_times _ _ _ _
  | addNodePrev r t =>
    cases h
    exact onRegistry_times _ _ _ _
  | _ =>
    cases h
    rfl

theorem exec_timerTicks {op : Op} {s s' : State} (hop : op ≠ .threadYield)
    (h : exec op s = .ok s') : s'.timerTicks = s.timerTicks := by
  by_cases ht : op.IsTimeless = true
  · exact congrArg Prod.fst (exec_times ht h)
  · cases op with
    | threadYield => exact absurd rfl hop
    | sleepWakeup k =>
      cases h
      rfl
    | internalThreadInit t =>
      obtain ⟨-, -, h⟩ := bind_eq_ok.mp h
      cases h
      rfl
    | _ => exact absurd rfl ht

/-- The step lemma: `timer_ticks` goes up by one at every entry of the handler, whoever raised it,
and stays at every other step. -/
theorem next_timerTicks {a : Action} {s s' : State} (h : next s a = .ok s') :
    s'.timerTicks = if a = .interrupt ∨ Yields s a then s.timerTicks + 1 else s.timerTicks := by
  cases a with
  | interrupt =>
    rw [if_pos (.inl rfl)]
    exact congrArg Prod.fst (isrIRQ0_times h)
  | call c =>
    rw [if_neg (by simp [Yields])]
    cases h
    rfl
  | alloc t =>
    rw [if_neg (by simp [Yields])]
    cases h
    rfl
  | exec =>
    cases hst : s.stack with
    | nil =>
      simp only [next, hst] at h
      rw [if_neg (by simp [Yields, hst])]
      cases h
      rfl
    | cons op rest =>
      simp only [next, hst] at h
      by_cases hop : op = .threadYield
      · subst hop
        rw [if_pos (.inr ⟨rfl, by rw [hst]; rfl⟩)]
        exact (congrArg Prod.fst (isrIRQ0_times h)).trans rfl
      · rw [if_neg (by simpa [Yields, hst] using hop)]
        exact (exec_timerTicks hop h).trans rfl

/-- The run lemma. -/
theorem Clocked.timerTicks {ok : State → Action → Prop} {s₀ s : State} {h y : Nat}
    (hr : Clocked ok s₀ h y s) : s.timerTicks = s₀.timerTicks + BitVec.ofNat 32 (h + y) := by
  induction hr with
  | start => simp
  | hardware _ _ _ hs ih =>
    rw [next_timerTicks hs, if_pos (.inl rfl), ih, Nat.add_right_comm, BitVec.ofNat_add _ 1,
      BitVec.add_assoc]
    rfl
  | software _ _ _ hy hs ih =>
    rw [next_timerTicks hs, if_pos (.inr hy), ih, ← Nat.add_assoc, BitVec.ofNat_add _ 1,
      BitVec.add_assoc]
    rfl
  | other _ _ _ hi hy hs ih =>
    rw [next_timerTicks hs, if_neg (not_or.mpr ⟨hi, hy⟩), ih]

/-! ## The clock of the sleepers -/

theorem boot_timerTicks (idle main : Tid) (threads : List Tid) (count : Nat → Nat) :
    (boot idle main threads count).timerTicks = 0 := by
  have h : ∀ (ts : List Tid) (s : State), (bootThreads ts s).timerTicks = s.timerTicks := by
    intro ts
    induction ts with
    | nil => exact fun s ↦ rfl
    | cons t ts ih => exact fun s ↦ ih _
  exact h _ _

end AlienOS.Kernel
