import AlienOS.Kernel.Clock
import AlienOS.Kernel.Handler

/-!
# Sleep — when a sleeper wakes up

`thread_sleep` adds to a counter that wraps, and the tick compares with `<=`.
-/

open AlienOS.Lib

namespace AlienOS.Kernel

/-! ## The comparison -/

/-- A tick that finds the sleeper `n` increments after its call at time `now` comes at the right
time: before the `ticks` are over the counter does not wrap any more, and after that it has not
fallen below the sum. -/
def OnTime (now ticks : Word) (n : Nat) : Prop :=
  (n < ticks.toNat → (now.toNat + n) / 2 ^ 32 = (now.toNat + ticks.toNat) / 2 ^ 32) ∧
    (ticks.toNat ≤ n → (now + ticks).toNat ≤ (now.toNat + n) % 2 ^ 32)

instance (now ticks : Word) (n : Nat) : Decidable (OnTime now ticks n) := by
  unfold OnTime
  infer_instance

theorem onTime_iff (now ticks : Word) (n : Nat) :
    ((now + ticks).toNat ≤ (now.toNat + n) % 2 ^ 32 ↔ ticks.toNat ≤ n) ↔ OnTime now ticks n := by
  unfold OnTime
  have h₁ := now.isLt
  have h₂ := ticks.isLt
  rw [BitVec.toNat_add]
  omega

/-- If the first tick comes at the right time, so do those after it until the sleeper wakes up. -/
theorem OnTime.later {now ticks : Word} {m n : Nat} (h : OnTime now ticks (m + 1)) (hmn : m ≤ n)
    (hn : n = m ∨ n < ticks.toNat) : OnTime now ticks (n + 1) := by
  unfold OnTime at *
  have h₁ := now.isLt
  have h₂ := ticks.isLt
  rw [BitVec.toNat_add] at *
  omega

/-! ## What a tick does to a sleeper -/

/-- A step that enters the handler. -/
def Ticks (s : State) (a : Action) : Prop := a = .interrupt ∨ Yields s a

def Op.IsSleep : Op → Bool
  | .sleepWakeup _ => true
  | _ => false

instance (c : Call) : Decidable c.Quiet := by
  unfold Call.Quiet
  infer_instance

instance (s : State) (a : Action) : Decidable (Quiet s a) :=
  match a with
  | .call c => decidable_of_iff c.Quiet ⟨fun h c' he ↦ by cases he; exact h, fun h ↦ h c rfl⟩
  | .interrupt | .exec | .alloc _ => isTrue fun _ he ↦ by cases he

/-- A step in which `t` does not call `thread_sleep` anew. -/
def InSleep (t : Tid) (s : State) (a : Action) : Prop :=
  Quiet s a ∧ ¬ (a = .exec ∧ s.currentThread = t ∧ s.stack.head?.any Op.IsSleep)

/-- A step that finds `t` asleep. -/
def Asleep (t : Tid) (s : State) (a : Action) : Prop :=
  Quiet s a ∧ t ∈ listsOf s.trace .sleepingThreads

instance (t : Tid) (s : State) (a : Action) : Decidable (InSleep t s a) := by
  unfold InSleep
  infer_instance

instance (t : Tid) (s : State) (a : Action) : Decidable (Asleep t s a) := by
  unfold Asleep
  infer_instance

section

variable {idle : Tid} {threads : List Tid} {s s' : State} {t x : Tid} {a : Action}

theorem listsOf_wakeEvents_ready (xs : List Tid) (tr : List Event) :
    listsOf (wakeEvents xs ++ tr) .readyThreads = xs.reverse ++ listsOf tr .readyThreads := by
  induction xs generalizing tr with
  | nil => rfl
  | cons x xs ih =>
    simp only [wakeEvents, List.append_assoc]
    rw [ih]
    simp [listsOf, Event.onLists]

theorem listsOf_wakeEvents_sleeping (xs : List Tid) (tr : List Event) :
    listsOf (wakeEvents xs ++ tr) .sleepingThreads = (listsOf tr .sleepingThreads).diff xs := by
  induction xs generalizing tr with
  | nil => rfl
  | cons x xs ih =>
    simp only [wakeEvents, List.append_assoc]
    rw [ih, List.diff_cons]
    simp [listsOf, Event.onLists]

theorem Placed.entered_moves (h : Placed s none) (lists : Links ListId Tid)
    (ht : t ∈ listsOf s.trace .sleepingThreads) :
    (t ∈ listsOf (s.entered lists).trace .readyThreads ↔ s.wakeupTicks t ≤ s.timerTicks + 1) ∧
      (t ∈ listsOf (s.entered lists).trace .sleepingThreads ↔
        ¬ s.wakeupTicks t ≤ s.timerTicks + 1) := by
  have hready : t ∉ listsOf s.trace .readyThreads := by
    intro hm
    have h₁ := h.home_of_mem ht
    rw [h.home_of_mem hm] at h₁
    cases h₁
  have hdue : t ∈ s.dueNext ↔ s.wakeupTicks t ≤ s.timerTicks + 1 := by
    simp [State.dueNext, State.due, ht]
  have hnd := h.rep.nodup .sleepingThreads
  constructor
  · simp only [State.entered]
    rw [listsOf_wakeEvents_ready, List.mem_append, List.mem_reverse, hdue]
    simp [hready]
  · simp only [State.entered]
    rw [listsOf_wakeEvents_sleeping, hnd.mem_sdiff_iff, hdue]
    simp [ht]

/-- Every tick looks at every sleeper. -/
theorem Calm.tick (h : Calm idle threads s) (ha : Ticks s a) (hs : next s a = .ok s')
    (ht : t ∈ listsOf s.trace .sleepingThreads) :
    (t ∈ listsOf s'.trace .readyThreads ↔ s.wakeupTicks t ≤ s.timerTicks + 1) ∧
      (t ∈ listsOf s'.trace .sleepingThreads ↔ ¬ s.wakeupTicks t ≤ s.timerTicks + 1) := by
  rcases ha with rfl | ⟨rfl, hhead⟩
  · obtain ⟨lists, hrun, -⟩ := isrIRQ0_spec h.placed h.alive
    have hs' : isrIRQ0 s = .ok s' := hs
    rw [hrun] at hs'
    cases hs'
    exact h.placed.entered_moves lists ht
  · obtain ⟨ops, hst⟩ := List.head?_eq_some_iff.mp hhead
    have hp : Placed { s with stack := ops } none :=
      ⟨h.placed.rep, h.placed.agrees, h.placed.standing⟩
    obtain ⟨lists, hrun, -⟩ := isrIRQ0_spec hp h.alive
    have hs' : isrIRQ0 { s with stack := ops } = .ok s' := by
      simpa only [next, hst, exec] using hs
    rw [hrun] at hs'
    cases hs'
    exact hp.entered_moves lists ht

/-- Only `thread_sleep` of a thread itself sets its wake-up time. -/
theorem Calm.wakeupTicks (h : Calm idle threads s) (ha : InSleep t s a) (hs : next s a = .ok s') :
    s'.wakeupTicks t = s.wakeupTicks t := by
  cases a with
  | interrupt => exact congrFun (congrArg Prod.snd (isrIRQ0_times hs)) t
  | call c =>
    cases hs
    rfl
  | alloc x =>
    cases hs
    rfl
  | exec =>
    cases hst : s.stack with
    | nil =>
      simp only [next, hst] at hs
      cases hs
      rfl
    | cons op ops =>
      have hrun : exec op { s with stack := ops } = .ok s' := by simpa only [next, hst] using hs
      by_cases hop : op.IsTimeless = true
      · have := congrArg Prod.snd (exec_times hop hrun)
        exact congrFun this t
      · cases op with
        | threadYield => exact congrFun (congrArg Prod.snd (isrIRQ0_times hrun)) t
        | sleepWakeup k =>
          have hc : t ≠ s.currentThread := by
            rintro rfl
            exact ha.2 ⟨rfl, rfl, by rw [hst]; rfl⟩
          cases hrun
          exact Function.update_of_ne hc _ _
        | internalThreadInit x =>
          have := (h.running hst rfl).2.calm _ List.mem_cons_self
          cases this
        | _ => exact absurd rfl hop

theorem Calm.inSleep (h : Calm idle threads s) (ha : Asleep t s a) : InSleep t s a := by
  refine ⟨ha.1, ?_⟩
  rintro ⟨-, rfl, -⟩
  obtain ⟨q, hq⟩ := h.placed.standing.cur_waits (h.placed.home_of_mem ha.2)
  cases hq

/-- The run lemma. -/
theorem Clocked.wakeupTicks {ok : State → Action → Prop} {s₁ : State} {m n : Nat}
    (hr : Clocked ok s₁ m n s) (h₁ : Calm idle threads s₁)
    (hok : ∀ s a, Calm idle threads s → ok s a → InSleep t s a) :
    Calm idle threads s ∧ s.wakeupTicks t = s₁.wakeupTicks t := by
  refine hr.run.invariant (I := fun s ↦ Calm idle threads s ∧ s.wakeupTicks t = s₁.wakeupTicks t)
    ⟨h₁, rfl⟩ ?_
  rintro s a s' ⟨hc, hw⟩ hq he hs
  have hin := hok s a hc hq
  exact ⟨(hc.step hin.1 he hs).1, (hc.wakeupTicks hin hs).trans hw⟩

end

/-! ## The whole sleep -/

/-- From `s` on, `n` increments after the call: every tick that finds `t` asleep makes it ready if
the `ticks` are over, and leaves it where it is otherwise. -/
def WakesOnTime (t : Tid) (ticks : Word) (n : Nat) (s : State) : Prop :=
  ∀ {h y s' a s''}, Clocked (Asleep t) s h y s' → t ∈ listsOf s'.trace .sleepingThreads →
    Ticks s' a → Quiet s' a → Enabled s' a → next s' a = .ok s'' →
      (t ∈ listsOf s''.trace .readyThreads ↔ ticks.toNat ≤ n + h + y + 1) ∧
        (t ∈ listsOf s''.trace .sleepingThreads ↔ n + h + y + 1 < ticks.toNat)

section

variable {idle : Tid} {threads : List Tid} {s s' s'' : State} {t : Tid} {a : Action}
  {now ticks : Word} {n h y : Nat}

/-- `t` sleeps, called at time `now` and `n` increments ago. -/
structure Sleeping (idle : Tid) (threads : List Tid) (t : Tid) (now ticks : Word) (n : Nat)
    (s : State) : Prop where
  calm : Calm idle threads s
  asleep : t ∈ listsOf s.trace .sleepingThreads
  time : s.timerTicks = now + BitVec.ofNat 32 n
  wakeup : s.wakeupTicks t = now + ticks

/-- The tick compares the wrapped sum with the wrapped counter. -/
theorem Sleeping.tick (hs : Sleeping idle threads t now ticks n s) (ha : Ticks s a)
    (hn : next s a = .ok s') :
    (t ∈ listsOf s'.trace .readyThreads ↔
        (now + ticks).toNat ≤ (now.toNat + (n + 1)) % 2 ^ 32) ∧
      (t ∈ listsOf s'.trace .sleepingThreads ↔
        ¬ (now + ticks).toNat ≤ (now.toNat + (n + 1)) % 2 ^ 32) := by
  have htime : (s.timerTicks + 1).toNat = (now.toNat + (n + 1)) % 2 ^ 32 := by
    have hone : (1 : Word).toNat = 1 := rfl
    rw [hs.time, BitVec.toNat_add, BitVec.toNat_add, BitVec.toNat_ofNat, hone]
    omega
  have h := hs.calm.tick ha hn hs.asleep
  rwa [hs.wakeup, BitVec.le_def, htime] at h

theorem Sleeping.tick_right (hs : Sleeping idle threads t now ticks n s) (ha : Ticks s a)
    (hn : next s a = .ok s') (hon : OnTime now ticks (n + 1)) :
    (t ∈ listsOf s'.trace .readyThreads ↔ ticks.toNat ≤ n + 1) ∧
      (t ∈ listsOf s'.trace .sleepingThreads ↔ n + 1 < ticks.toNat) := by
  have hiff := (onTime_iff now ticks (n + 1)).mpr hon
  obtain ⟨h₁, h₂⟩ := hs.tick ha hn
  rw [hiff] at h₁ h₂
  exact ⟨h₁, h₂.trans Nat.not_le⟩

theorem Sleeping.run (hs : Sleeping idle threads t now ticks n s)
    (hr : Clocked (Asleep t) s h y s') (hm : t ∈ listsOf s'.trace .sleepingThreads) :
    Sleeping idle threads t now ticks (n + h + y) s' := by
  obtain ⟨hc, hw⟩ := hr.wakeupTicks hs.calm fun _ _ hc ha ↦ hc.inSleep ha
  refine ⟨hc, hm, ?_, hw.trans hs.wakeup⟩
  rw [hr.timerTicks, hs.time, BitVec.add_assoc, ← BitVec.ofNat_add, Nat.add_assoc]

/-- A sleep whose first tick comes at the right time is not over before the `ticks` are, unless this
is the first tick. -/
theorem Sleeping.waits (hs : Sleeping idle threads t now ticks n s) (hon : OnTime now ticks (n + 1))
    (hr : Clocked (Asleep t) s h y s') (hm : t ∈ listsOf s'.trace .sleepingThreads) :
    n + h + y = n ∨ n + h + y < ticks.toNat := by
  induction hr with
  | start => exact .inl rfl
  | @hardware h y s₁ s₂ hr hok he hn ih =>
    have h₁ := hs.run hr hok.2
    have hright := h₁.tick_right (.inl rfl) hn (hon.later (by omega) (ih hok.2))
    have := hright.2.mp hm
    omega
  | @software h y s₁ s₂ a hr hok he hy hn ih =>
    have h₁ := hs.run hr hok.2
    have hright := h₁.tick_right (.inr hy) hn (hon.later (by omega) (ih hok.2))
    have := hright.2.mp hm
    omega
  | other hr hok he hi hy hn ih => exact ih hok.2

theorem Sleeping.wakesOnTime (hs : Sleeping idle threads t now ticks n s)
    (hon : OnTime now ticks (n + 1)) : WakesOnTime t ticks n s := by
  intro h y s' a s'' hr hm ha _ _ hn
  have hwait := hs.waits hon hr hm
  exact (hs.run hr hm).tick_right ha hn (hon.later (by omega) hwait)

end

end AlienOS.Kernel
