import AlienOS.Kernel.Mutex
import AlienOS.Kernel.Rooms

/-!
# Condvar — no wake-up is lost and none invented
-/

open AlienOS.Lib

namespace AlienOS.Kernel

namespace Sync

/-! ## A thread between its wait and its return -/

/-- Nothing of a `condvar_wait` is left to do. -/
def NoReturn (ops : List Op) : Prop := ∀ c m, .condvarReturn c m ∉ ops

/-- `t` has the end of `condvar_wait` before it: it has yet to acquire the mutex, or it is about to
write itself into it, or it holds it once. -/
inductive Waiter (v : Sync) (t : Tid) (cond : Nat) (mutex : MutexRef) (ops : List Op) : Prop where
  | waiting (ht : v.task t = .mutexAcquire mutex :: .condvarReturn cond mutex :: ops)
    (hh : v.holder mutex ≠ some t)
  | taking (b : Bool) (ht : v.task t = .mutexAcquired mutex b :: .condvarReturn cond mutex :: ops)
    (hq : ∀ c, t ∉ v.rooms.queue c)
  | back (ht : v.task t = .condvarReturn cond mutex :: ops) (hq : ∀ c, t ∉ v.rooms.queue c)
    (hh : v.holder mutex = some t) (hn : v.recursionCount mutex = 1)

section

variable {v v' : Sync} {t u : Tid} {act : Act} {mutex : MutexRef} {c : Nat} {ops : List Op}

theorem Step.task_of_ne (hs : Sync.Step u act v v') (hu : t ≠ u) : v'.task t = v.task t := by
  cases hs with
  | call => exact Function.update_of_ne hu _ _
  | exec b hf ht hr he =>
    subst he
    rw [exec_settle]
    exact (Function.update_of_ne hu _ _).trans (exec_task hu b _)

theorem Step.task_self {op : Op} (hs : Sync.Step t (.exec op) v v') :
    ∃ b ops, v.task t = op :: ops ∧ v'.task t = strip (pushes t b op v ++ ops) := by
  cases hs with
  | @exec _ w _ ops b hf ht hr he =>
    subst he
    refine ⟨b, ops, ht, ?_⟩
    rw [exec_settle]
    exact Function.update_self _ _ _

theorem Step.free (hs : Sync.Step t act v v') : v.Free t := by
  cases hs with
  | call hc hf => exact hf
  | exec b hf => exact hf

/-- Who joins a queue was on none. -/
theorem Step.joined {op : Op} {q : WaitQueue} (hs : Sync.Step t (.exec op) v v')
    (h : t ∈ v'.queue q) : op.Joins q := by
  rcases hs.joins h with hq | ⟨-, op', hop, hj⟩
  · exact absurd hq (hs.free q)
  · cases hop
    exact hj

/-- Whoever comes to a condition variable was about to wait on it. -/
theorem Step.joins_condvar {x : Tid} (hs : Sync.Step t act v v') (h : x ∈ v'.queue (.condvar c)) :
    x ∈ v.queue (.condvar c) ∨ x = t ∧ ∃ m ops, v.task t = .condvarWait c m :: ops := by
  rcases hs.joins h with hq | ⟨hx, op, hact, m, hop⟩
  · exact .inl hq
  · subst hact
    subst hop
    cases hs with
    | exec b hf ht => exact .inr ⟨hx, m, _, ht⟩

theorem Step.still_free {op : Op} (hs : Sync.Step t (.exec op) v v') (hop : ∀ q, ¬ op.Joins q) :
    v'.Free t := fun q hq ↦ hop q (hs.joined hq)

/-- A signal pops the first. -/
theorem Step.signalled (hs : Sync.Step t (.exec (.condvarSignal c)) v v') :
    v'.queue (.condvar c) = (v.queue (.condvar c)).tail := by
  have h : v'.rooms.queue c = (v.rooms.wake c).queue c := by rw [rooms_after hs]; rfl
  have h' : v'.queue (.condvar c) = (v.rooms.wake c).queue c := h
  rw [h']
  unfold Rooms.wake
  have hq : v.rooms.queue c = v.queue (.condvar c) := rfl
  cases hx : v.queue (.condvar c) with
  | nil =>
    rw [hq, hx]
    exact hx
  | cons x xs =>
    rw [hq, hx]
    simp [Rooms.woken, hq, hx]

theorem Step.rooms_stays (hs : Sync.Step u act v v') (hu : t ≠ u) : v.rooms.Stays v'.rooms t := by
  cases act with
  | call k =>
    rw [rooms_call hs]
    exact .refl _ t
  | exec op =>
    rw [rooms_after hs]
    cases op with
    | condvarWait c m => exact (Rooms.Step.enter c m).stays hu
    | condvarReturn c m => exact Rooms.Step.leave.stays hu
    | condvarSignal c => exact (Rooms.Step.wake c).stays hu
    | condvarBroadcast c => exact (Rooms.Step.wakeAll c).stays hu
    | _ => exact .refl _ t

theorem Step.holder_keeps (hs : Sync.Step u act v v') (hg : Guarded mutex v) (hu : t ≠ u)
    (hh : v.holder mutex = some t) :
    v'.holder mutex = some t ∧ v'.recursionCount mutex = v.recursionCount mutex := by
  obtain ⟨hshape, owner, ho⟩ := hg
  rcases hs.moves hshape ho with hsame | hstep
  · have h₁ : v'.holder mutex = v.holder mutex := congrArg Lock.holder hsame
    have h₂ : (v'.recursionCount mutex).toNat = (v.recursionCount mutex).toNat :=
      congrArg Lock.depth hsame
    exact ⟨h₁.trans hh, BitVec.eq_of_toNat_eq h₂⟩
  · obtain ⟨h₁, h₂⟩ := ho.keeps hstep hu hh
    exact ⟨h₁, BitVec.eq_of_toNat_eq h₂⟩

theorem Step.not_holder (hs : Sync.Step u act v v') (hg : Guarded mutex v) (hu : t ≠ u)
    (hh : v.holder mutex ≠ some t) : v'.holder mutex ≠ some t := by
  obtain ⟨hshape, owner, ho⟩ := hg
  rcases hs.moves hshape ho with hsame | hstep
  · have h₁ : v'.holder mutex = v.holder mutex := congrArg Lock.holder hsame
    rwa [h₁]
  · exact hstep.not_holder hu hh

theorem Step.stays_out (hs : Sync.Step t act v v') (hg : Guarded mutex v)
    (hp : phaseOf mutex (v.task t) = .away) (hh : v.holder mutex ≠ some t) :
    v'.holder mutex ≠ some t := by
  obtain ⟨hshape, owner, ho⟩ := hg
  rcases hs.moves hshape ho with hsame | hstep
  · have h₁ : v'.holder mutex = v.holder mutex := congrArg Lock.holder hsame
    rwa [h₁]
  · exact hstep.stays_out hp hh

/-- Whatever others do, and its own way back through `mutex_acquire`, leave a thread in its wait. -/
theorem Waiter.step (h : v.Waiter t c mutex ops) (hg : Guarded mutex v) (hs : Sync.Step u act v v')
    (hr : u = t → act ≠ .exec (.condvarReturn c mutex)) : v'.Waiter t c mutex ops := by
  by_cases hu : t = u
  · subst hu
    have hr := hr rfl
    cases h with
    | waiting ht hh =>
      cases hs with
      | call hc hf ht' =>
        rw [ht] at ht'
        cases ht'
      | @exec _ w op r b hf ht' hrel he =>
        rw [ht] at ht'
        cases ht'
        subst he
        have hrooms := rooms_exec (v := v.setTask t (.condvarReturn c mutex :: ops)) (t := t) b
          (.mutexAcquire mutex)
        rw [exec_settle]
        refine .taking b ?_ fun c' hm ↦ hf (.condvar c') ?_
        · simp [setTask, pushes, hh, strip_cons, Op.IsSkip]
        · rw [← exec_settle] at hm
          have hm' : t ∈ (exec t b (.mutexAcquire mutex)
            (v.setTask t (.condvarReturn c mutex :: ops))).rooms.queue c' := hm
          rw [hrooms] at hm'
          exact hm'
    | taking b ht hq =>
      cases hs with
      | call hc hf ht' =>
        rw [ht] at ht'
        cases ht'
      | @exec _ w op r b' hf ht' hrel he =>
        rw [ht] at ht'
        cases ht'
        subst he
        refine .back ?_ hq ?_ ?_
        · rw [exec_settle]
          simp [setTask, pushes, strip_cons, Op.IsSkip]
        · simp [exec, setTask, setHolder, setRecursion, logged]
        · simp [exec, setTask, setHolder, setRecursion, logged]
    | back ht hq hh hn =>
      cases hs with
      | call hc hf ht' =>
        rw [ht] at ht'
        cases ht'
      | @exec _ w op r b' hf ht' hrel he =>
        rw [ht] at ht'
        cases ht'
        exact absurd rfl hr
  · have htask := hs.task_of_ne hu
    have hstay := hs.rooms_stays hu
    cases h with
    | waiting ht hh => exact .waiting (htask.trans ht) (hs.not_holder hg hu hh)
    | taking b ht hq => exact .taking b (htask.trans ht) fun c' hm ↦ hq c' (hstay.queue c' hm)
    | back ht hq hh hn =>
      obtain ⟨hh', hn'⟩ := hs.holder_keeps hg hu hh
      exact .back (htask.trans ht) (fun c' hm ↦ hq c' (hstay.queue c' hm)) hh' (hn'.trans hn)

theorem up_holder (sem : SemRef) : (up sem t v).holder = v.holder := by
  unfold up wake
  split <;> rfl

/-- A release of a mutex that was acquired once gives it up. -/
theorem release_holder (hn : v.recursionCount mutex = 1) :
    (release mutex t v).holder mutex = none := by
  have hz : v.recursionCount mutex - 1 = 0 := by rw [hn]; rfl
  unfold release
  simp only [if_pos hz, up_holder]
  exact Function.update_self _ _ _

theorem release_holder_again (hn : v.recursionCount mutex ≠ 1) :
    (release mutex t v).holder = v.holder := by
  have hz : ¬ v.recursionCount mutex - 1 = 0 := by
    intro hz
    apply hn
    calc v.recursionCount mutex = v.recursionCount mutex - 1 + 1 := (BitVec.sub_add_cancel _ _).symm
      _ = 1 := by rw [hz]; rfl
  unfold release
  simp only [if_neg hz]
  rfl

/-- Where a thread is according to the history shows in what it has before it. -/
def At (v : Sync) (t : Tid) : Waiting → Prop
  | .no => NoReturn (v.task t)
  | .queued c m => v.holder m ≠ some t ∧ ∃ r, NoReturn r ∧
    v.task t = .mutexAcquire m :: .condvarReturn c m :: r
  | .popped c m => ∃ r, NoReturn r ∧ v.Waiter t c m r

structure Monitor (v : Sync) : Prop where
  guarded : ∀ mutex, Guarded mutex v
  right : v.rooms.Right
  place : ∀ t, v.At t (v.rooms.wait t)

/-- A step of another thread. -/
theorem At.other {w w' : Waiting} (h : v.At t w) (hg : ∀ mutex, Guarded mutex v)
    (hs : Sync.Step u act v v') (hu : t ≠ u)
    (hw : w' = w ∨ ∃ c m, w = .queued c m ∧ w' = .popped c m) : v'.At t w' := by
  have htask := hs.task_of_ne hu
  cases w with
  | no =>
    rcases hw with rfl | ⟨_, _, hw, -⟩
    · unfold At at h ⊢
      rwa [htask]
    · cases hw
  | queued c m =>
    obtain ⟨hh, r, hr, ht⟩ := h
    have hh' := hs.not_holder (hg m) hu hh
    rcases hw with rfl | ⟨_, _, hw, rfl⟩
    · exact ⟨hh', r, hr, htask.trans ht⟩
    · cases hw
      exact ⟨r, hr, .waiting (htask.trans ht) hh'⟩
  | popped c m =>
    obtain ⟨r, hr, hwait⟩ := h
    rcases hw with rfl | ⟨_, _, hw, -⟩
    · exact ⟨r, hr, hwait.step (hg m) hs fun he ↦ absurd he.symm hu⟩
    · cases hw

theorem NoReturn.strip {ops : List Op} (h : NoReturn ops) : NoReturn (strip ops) :=
  fun c m hm ↦ h c m ((List.dropWhile_sublist _).subset hm)

theorem NoReturn.append {ops ops' : List Op} (h : NoReturn ops) (h' : NoReturn ops') :
    NoReturn (ops ++ ops') := by
  intro c m hm
  rcases List.mem_append.mp hm with hm | hm
  · exact h c m hm
  · exact h' c m hm

theorem noReturn_call (k : Call) : NoReturn k.ops := by
  intro c m
  cases k <;> simp [Call.ops, heapOps]

theorem noReturn_pushes {op : Op} (hop : ∀ c m, op ≠ .condvarWait c m) (b : Bool) :
    NoReturn (pushes t b op v) := by
  intro c m
  unfold pushes
  split
  · split <;> simp
  · split <;> simp
  · split <;> simp
  · exact absurd rfl (hop _ _)
  · simp
  · simp

theorem Step.holds {m : MutexRef} (hs : Sync.Step t (.exec (.condvarWait c m)) v v') :
    v.Holds m t := by
  cases hs with
  | exec b hf ht hr => exact hr m rfl

theorem Step.wait_holder {m : MutexRef} (hs : Sync.Step t (.exec (.condvarWait c m)) v v')
    (hn : v.recursionCount m = 1) : v'.holder m = none := by
  cases hs with
  | exec b hf ht hr he =>
    subst he
    exact release_holder hn

theorem Step.wait_holder_again {m : MutexRef} (hs : Sync.Step t (.exec (.condvarWait c m)) v v')
    (hn : v.recursionCount m ≠ 1) : v'.holder m = some t := by
  cases hs with
  | @exec _ w _ ops b hf ht hr he =>
    subst he
    let w := (((v.setTask t ops).setRecord t .condVar (some (.condVar c))).logged
      (.added (.waitQueue (.condvar c)) t)).logged (.waited c m t)
    have hw : w.recursionCount m ≠ 1 := hn
    have hsame : (release m t w).holder m = w.holder m := congrFun (release_holder_again hw) m
    have hhold : w.holder m = some t := (hr m rfl).1
    exact hsame.trans hhold

theorem Step.release_holder {m : MutexRef} (hs : Sync.Step t (.exec (.mutexRelease m)) v v')
    (hn : v.recursionCount m = 1) : v'.holder m = none := by
  cases hs with
  | exec b hf ht hr he =>
    subst he
    exact Sync.release_holder hn

theorem Step.acquired {m : MutexRef} {b : Bool} (hs : Sync.Step t (.exec (.mutexAcquired m b)) v v') :
    v'.holder m = some t ∧ v'.recursionCount m = 1 := by
  cases hs with
  | exec b hf ht hr he =>
    subst he
    exact ⟨Function.update_self _ _ _, Function.update_self _ _ _⟩

/-- Signals and returns touch no mutex. -/
theorem Step.mutexes_same {op : Op} (hs : Sync.Step t (.exec op) v v')
    (hop : op = .condvarSignal c ∨ ∃ m, op = .condvarReturn c m) :
    v'.holder = v.holder ∧ v'.recursionCount = v.recursionCount := by
  cases hs with
  | exec b hf ht hr he =>
    subst he
    rcases hop with rfl | ⟨m, rfl⟩
    · show (wake _ _).holder = _ ∧ (wake _ _).recursionCount = _
      unfold wake
      split <;> exact ⟨rfl, rfl⟩
    · exact ⟨rfl, rfl⟩

/-- A thread outside `condvar_wait` enters it. -/
theorem At.enters {m : MutexRef} (h : v.At t .no)
    (hs : Sync.Step t (.exec (.condvarWait c m)) v v') (hn : v.recursionCount m = 1) :
    v'.At t (.queued c m) := by
  refine ⟨by rw [hs.wait_holder hn]; simp, ?_⟩
  cases hs with
  | @exec _ w _ ops b hf ht hrel he =>
    subst he
    have hops : NoReturn ops := fun c m hm ↦ h c m (by
      rw [ht]
      exact List.mem_cons_of_mem _ hm)
    refine ⟨ops, hops, ?_⟩
    rw [exec_settle]
    simp [setTask, pushes, strip_cons, Op.IsSkip]

/-- Or does something else. -/
theorem At.stays_out {op : Op} (h : v.At t .no) (hs : Sync.Step t (.exec op) v v')
    (hop : ∀ c m, op ≠ .condvarWait c m) : v'.At t .no := by
  cases hs with
  | @exec _ w _ ops b hf ht hrel he =>
    subst he
    have hops : NoReturn ops := fun c m hm ↦ h c m (by
      rw [ht]
      exact List.mem_cons_of_mem _ hm)
    rw [exec_settle]
    show NoReturn (((exec t b op v).setTask t (strip (pushes t b op v ++ ops))).task t)
    simp only [setTask, Function.update_self]
    exact ((noReturn_pushes hop b).append hops).strip

theorem At.returns {m : MutexRef} (h : v.At t (.popped c m))
    (hs : Sync.Step t (.exec (.condvarReturn c m)) v v') : v'.At t .no := by
  obtain ⟨r, hr, hwait⟩ := h
  cases hs with
  | @exec _ w _ ops b hf ht hrel he =>
    subst he
    have hops : ops = r := by
      cases hwait with
      | waiting ht' => rw [ht] at ht'; cases ht'
      | taking b ht' => rw [ht] at ht'; cases ht'
      | back ht' => rw [ht] at ht'; cases ht'; rfl
    subst hops
    rw [exec_settle]
    show NoReturn (((exec t b (.condvarReturn c m) v).setTask t
      (strip (pushes t b (.condvarReturn c m) v ++ ops))).task t)
    simp only [setTask, Function.update_self]
    exact hr.strip

/-- What a thread that is in no queue does to its own wait. -/
theorem wait_self {op : Op} (hr : v.rooms.Right) (hs : Sync.Step t (.exec op) v v')
    (h₁ : ∀ c m, op ≠ .condvarWait c m) (h₂ : ∀ c m, op ≠ .condvarReturn c m) :
    v'.rooms.wait t = v.rooms.wait t := by
  have hne : ∀ c m, v.rooms.wait t ≠ .queued c m := hr.wait_ne fun c ↦ hs.free (.condvar c)
  rw [rooms_after hs]
  cases op with
  | condvarWait c m => exact absurd rfl (h₁ c m)
  | condvarReturn c m => exact absurd rfl (h₂ c m)
  | condvarSignal c =>
    exact (Rooms.stays_wake v.rooms c t).wait.resolve_right fun ⟨c', m', hq, _⟩ ↦ hne c' m' hq
  | condvarBroadcast c =>
    exact (Rooms.stays_wakeAll v.rooms c t).wait.resolve_right fun ⟨c', m', hq, _⟩ ↦ hne c' m' hq
  | _ => rfl

theorem Step.not_queued (hs : Sync.Step t act v v') (hr : v.rooms.Right) (c : Nat)
    (m : MutexRef) : v.rooms.wait t ≠ .queued c m :=
  hr.wait_ne (fun c ↦ hs.free (.condvar c)) c m

/-- What a thread in its wait does next. -/
theorem Waiter.first {m : MutexRef} {op : Op} {r : List Op} (h : v.Waiter t c m r)
    (ht : v.task t = op :: ops) :
    op = .mutexAcquire m ∨ (∃ b, op = .mutexAcquired m b) ∨ op = .condvarReturn c m := by
  cases h with
  | waiting ht' => rw [ht] at ht'; cases ht'; exact .inl rfl
  | taking b ht' => rw [ht] at ht'; cases ht'; exact .inr (.inl ⟨b, rfl⟩)
  | back ht' => rw [ht] at ht'; cases ht'; exact .inr (.inr rfl)

theorem Waiter.not_call {m : MutexRef} {k : Call} {r : List Op} (h : v.Waiter t c m r)
    (hs : Sync.Step t (.call k) v v') : False := by
  cases hs with
  | call hc hf ht =>
    cases h with
    | waiting ht' => rw [ht] at ht'; cases ht'
    | taking b ht' => rw [ht] at ht'; cases ht'
    | back ht' => rw [ht] at ht'; cases ht'

theorem Waiter.op {m : MutexRef} {op : Op} {r : List Op} (h : v.Waiter t c m r)
    (hs : Sync.Step t (.exec op) v v') :
    op = .mutexAcquire m ∨ (∃ b, op = .mutexAcquired m b) ∨ op = .condvarReturn c m := by
  cases hs with
  | exec b hf ht => exact h.first ht

/-- A step of the thread itself. -/
theorem At.self (h : v.At t (v.rooms.wait t)) (hr : v.rooms.Right) (hg : ∀ mutex, Guarded mutex v)
    (hs : Sync.Step t act v v')
    (hn : ∀ c m, act = .exec (.condvarWait c m) → v.recursionCount m = 1) :
    v'.At t (v'.rooms.wait t) := by
  cases hw : v.rooms.wait t with
  | queued c m => exact absurd hw (hs.not_queued hr c m)
  | no =>
    rw [hw] at h
    cases act with
    | call k =>
      rw [rooms_call hs, hw]
      cases hs
      show NoReturn ((v.setTask t (strip k.ops)).task t)
      simp only [setTask, Function.update_self]
      exact (noReturn_call k).strip
    | exec op =>
      by_cases hop : ∃ c m, op = .condvarWait c m
      · obtain ⟨c, m, rfl⟩ := hop
        have hnew : v'.rooms.wait t = .queued c m := by
          rw [rooms_after hs]
          simp [Op.onRooms, Rooms.enter]
        rw [hnew]
        exact h.enters hs (hn c m rfl)
      · have hop' : ∀ c m, op ≠ .condvarWait c m := fun c m he ↦ hop ⟨c, m, he⟩
        have hnew : v'.rooms.wait t = .no := by
          by_cases hret : ∃ c m, op = .condvarReturn c m
          · obtain ⟨c, m, rfl⟩ := hret
            rw [rooms_after hs]
            simp [Op.onRooms, Rooms.leave]
          · rw [wait_self hr hs hop' fun c m he ↦ hret ⟨c, m, he⟩, hw]
        rw [hnew]
        exact h.stays_out hs hop'
  | popped c m =>
    rw [hw] at h
    obtain ⟨r, hr', hwait⟩ := id h
    cases act with
    | call k => exact (hwait.not_call hs).elim
    | exec op =>
      by_cases hret : op = .condvarReturn c m
      · subst hret
        have hnew : v'.rooms.wait t = .no := by
          rw [rooms_after hs]
          simp [Op.onRooms, Rooms.leave]
        rw [hnew]
        exact h.returns hs
      · have hnew : v'.rooms.wait t = .popped c m := by
          rw [← hw]
          rcases hwait.op hs with rfl | ⟨b, rfl⟩ | rfl
          · exact wait_self hr hs (by simp) (by simp)
          · exact wait_self hr hs (by simp) (by simp)
          · exact absurd rfl hret
        rw [hnew]
        exact ⟨r, hr', hwait.step (hg m) hs fun _ he ↦ hret (Act.exec.inj he)⟩

/-- The step lemma. -/
theorem Monitor.step (h : Monitor v) (hs : Sync.Step u act v v')
    (hn : ∀ c m, act = .exec (.condvarWait c m) → v.recursionCount m = 1) : Monitor v' := by
  have hfree := hs.free
  refine ⟨fun mutex ↦ (h.guarded mutex).step hs, ?_, fun t ↦ ?_⟩
  · cases act with
    | call k =>
      rw [rooms_call hs]
      exact h.right
    | exec op =>
      rw [rooms_after hs]
      have hf : ∀ c, u ∉ v.rooms.queue c := fun c ↦ hfree (.condvar c)
      cases op with
      | condvarWait c m => exact h.right.step hf (.enter c m)
      | condvarReturn c m => exact h.right.step hf .leave
      | condvarSignal c => exact h.right.step hf (.wake c)
      | condvarBroadcast c => exact h.right.step hf (.wakeAll c)
      | _ => exact h.right
  · by_cases hu : t = u
    · subst hu
      exact (h.place t).self h.right h.guarded hs hn
    · exact (h.place t).other h.guarded hs hu (hs.rooms_stays hu).wait

theorem monitor_start (idle : Tid) (count : Nat → Nat) : Monitor (Sync.start idle count) := by
  refine ⟨fun m ↦ (locked_start m idle count).guarded, ⟨fun c ↦ List.nodup_nil, fun t c ↦ ?_⟩,
    fun t ↦ ?_⟩
  · simp [rooms, queue, start, listsOf, waitOf]
  · show NoReturn ((Sync.start idle count).task t)
    intro c m
    by_cases ht : t = idle
    · simp [start, ht]
    · simp [start, ht]

end

end Sync

/-! ## Signals on the machine -/

/-- The threads `woken` are popped and put on `ready_threads`, in this order. -/
structure Readied (cond : Nat) (woken : List Tid) (s s' : State) : Prop where
  queue : listsOf s.trace (.waitQueue (.condvar cond)) =
    woken ++ listsOf s'.trace (.waitQueue (.condvar cond))
  ready : listsOf s'.trace .readyThreads = woken.reverse ++ listsOf s.trace .readyThreads
  status : ∀ t, s'.status t = if t ∈ woken then .ready else s.status t
  others : ∀ i, i ≠ .waitQueue (.condvar cond) → i ≠ .readyThreads →
    listsOf s'.trace i = listsOf s.trace i

section

variable {idle : Tid} {threads : List Tid} {s s' s₁ s₂ : State} {cond : Nat} {xs ys : List Tid}
  {ops : List Op}

theorem Readied.refl (cond : Nat) (s : State) : Readied cond [] s s :=
  ⟨rfl, rfl, fun _ ↦ rfl, fun _ _ _ ↦ rfl⟩

theorem Readied.trans (h : Readied cond xs s s₁) (h' : Readied cond ys s₁ s₂) :
    Readied cond (xs ++ ys) s s₂ := by
  refine ⟨?_, ?_, fun t ↦ ?_, fun i h₁ h₂ ↦ (h'.others i h₁ h₂).trans (h.others i h₁ h₂)⟩
  · rw [h.queue, h'.queue, List.append_assoc]
  · rw [h'.ready, h.ready, List.reverse_append, List.append_assoc]
  · rw [h'.status, h.status]
    by_cases hx : t ∈ xs <;> by_cases hy : t ∈ ys <;> simp [hx, hy]

theorem readied_woken {x : Tid} {lists : Links ListId Tid}
    (hq : listsOf s.trace (.waitQueue (.condvar cond)) = x :: xs) :
    Readied cond [x] s (s.woken (.condvar cond) x lists) := by
  refine ⟨?_, ?_, fun t ↦ ?_, fun i h₁ h₂ ↦ ?_⟩
  · simp [listsOf_woken, hq]
  · simp [State.woken, listsOf, Event.onLists]
  · by_cases ht : t = x
    · simp [State.woken, ht]
    · simp [State.woken, ht]
  · simp [State.woken, listsOf, Event.onLists, h₁, h₂]

theorem Woke.readied (h : Woke (.condvar cond) s s') :
    Readied cond ((listsOf s.trace (.waitQueue (.condvar cond))).take 1) s s' := by
  cases h with
  | nobody hq =>
    rw [hq]
    exact .refl cond s
  | @first x xs lists hq =>
    rw [hq]
    show Readied cond [x] s (s.woken (.condvar cond) x lists)
    exact readied_woken hq

theorem WokeAll.readied (h : WokeAll (.condvar cond) s s') :
    Readied cond (listsOf s.trace (.waitQueue (.condvar cond))) s s' := by
  induction h with
  | nobody hq =>
    rw [hq]
    exact .refl cond _
  | first hq hw ih =>
    have h := (readied_woken hq).trans ih
    rw [listsOf_woken, hq, List.erase_cons_head] at h
    rw [hq]
    exact h

/-- `condvar_signal` makes the thread that has waited longest ready. -/
theorem Calm.signals (h : Calm idle threads s) (hst : s.stack = .condvarSignal cond :: ops) :
    ∃ s', next s .exec = .ok s' ∧
      Readied cond ((listsOf s.trace (.waitQueue (.condvar cond))).take 1) s s' := by
  have hrest := h.rest hst rfl
  have hfree := hrest.placed.free (h.running hst rfl).1
  obtain ⟨s', hrun, hw, -⟩ := woke_spec (q := .condvar cond)
    (s := ({ s with stack := ops } : State).log (.signalled cond s.currentThread))
    ⟨hrest.placed.rep, hrest.placed.agrees, hrest.placed.standing⟩
    fun x hx he ↦ hfree _ (by rwa [he] at hx)
  have hnext : next s .exec = condvarSignal cond { s with stack := ops } := by
    simp only [next, hst, exec]
  have hready := hw.readied
  exact ⟨s', hnext.trans hrun, ⟨hready.queue, hready.ready, hready.status, hready.others⟩⟩

/-- `condvar_broadcast` makes all of them ready. -/
theorem Calm.broadcasts (h : Calm idle threads s) (hst : s.stack = .condvarBroadcast cond :: ops) :
    ∃ s', next s .exec = .ok s' ∧
      Readied cond (listsOf s.trace (.waitQueue (.condvar cond))) s s' := by
  have hrest := h.rest hst rfl
  have hfree := hrest.placed.free (h.running hst rfl).1
  obtain ⟨s', hrun, hw, -⟩ := condvarBroadcastLoop_spec (c := cond)
    (s := ({ s with stack := ops } : State).log (.broadcasted cond s.currentThread))
    ⟨hrest.placed.rep, hrest.placed.agrees, hrest.placed.standing⟩
    (fun x hx he ↦ hfree _ (by rwa [he] at hx))
    (show _ < walkLimit + 1 from Nat.lt_succ_of_le (hrest.placed.length_le _))
  have hnext : next s .exec = condvarBroadcast cond { s with stack := ops } := by
    simp only [next, hst, exec]
  have hready := hw.readied
  exact ⟨s', hnext.trans hrun, ⟨hready.queue, hready.ready, hready.status, hready.others⟩⟩

/-- Only a signal or a broadcast takes a thread off the queue. -/
theorem Calm.leaves (h : Calm idle threads s) {a : Action} (hq : Quiet s a) (he : Enabled s a)
    (hs : next s a = .ok s') {t : Tid} (ht : t ∈ listsOf s.trace (.waitQueue (.condvar cond)))
    (ht' : t ∉ listsOf s'.trace (.waitQueue (.condvar cond))) :
    a = .exec ∧ (s.stack.head? = some (.condvarSignal cond) ∧
      (listsOf s.trace (.waitQueue (.condvar cond))).head? = some t ∨
        s.stack.head? = some (.condvarBroadcast cond)) := by
  rw [← State.sync_queue] at ht ht' ⊢
  have hroom : t ∈ s.sync.rooms.queue cond := ht
  have hroom' : t ∉ s'.sync.rooms.queue cond := ht'
  obtain ⟨-, hseen⟩ := h.step hq he hs
  rcases hseen with hsame | ⟨act, ha, hstep⟩
  · rw [hsame] at hroom'
    exact absurd hroom hroom'
  · cases act with
    | call k =>
      rw [Sync.rooms_call hstep] at hroom'
      exact absurd hroom hroom'
    | exec op =>
      have hexec : a = .exec := by
        cases a with
        | exec => rfl
        | call c => cases ha
        | _ => cases ha
      subst hexec
      have hhead : s.stack.head? = some op := by simpa [State.act] using ha
      rw [Sync.rooms_after hstep] at hroom'
      refine ⟨rfl, ?_⟩
      cases op with
      | condvarWait c m =>
        apply absurd _ hroom'
        by_cases hc : cond = c
        · subst hc
          simp [Op.onRooms, Rooms.enter, hroom]
        · simpa [Op.onRooms, Rooms.enter, hc] using hroom
      | condvarSignal c =>
        unfold Op.onRooms Rooms.wake at hroom'
        cases hq : s.sync.rooms.queue c with
        | nil =>
          simp only [hq] at hroom'
          exact absurd hroom hroom'
        | cons x xs =>
          simp only [hq] at hroom'
          by_cases hc : cond = c
          · subst hc
            by_cases hx : t = x
            · left
              refine ⟨hhead, ?_⟩
              have hq' : s.sync.queue (.condvar cond) = x :: xs := hq
              rw [hq', hx]
              rfl
            · apply absurd _ hroom'
              simpa [Rooms.woken, List.mem_erase_of_ne hx] using hroom
          · apply absurd _ hroom'
            simpa [Rooms.woken, hc] using hroom
      | condvarBroadcast c =>
        by_cases hc : cond = c
        · subst hc
          exact .inr hhead
        · apply absurd _ hroom'
          have hall : ∀ (xs : List Tid) (r : Rooms),
              (xs.foldl (fun r x ↦ r.woken c x) r).queue cond = r.queue cond := by
            intro xs
            induction xs with
            | nil => exact fun r ↦ rfl
            | cons x xs ih =>
              intro r
              rw [List.foldl_cons, ih]
              simp [Rooms.woken, hc]
          unfold Op.onRooms Rooms.wakeAll
          rwa [hall]
      | _ => exact absurd hroom hroom'

end

/-- `condvar_wait` is called by a thread that holds the mutex once. -/
def WaitsOnce (s : State) (a : Action) : Prop :=
  ∀ cond mutex, a = .exec → s.stack.head? = some (.condvarWait cond mutex) →
    s.recursionCount mutex = 1

theorem Run.monitor {ok : State → Action → Prop} {idle : Tid} {threads : List Tid} {s₀ s : State}
    (hr : Run ok s₀ s) (hok : ∀ s a, ok s a → Quiet s a ∧ WaitsOnce s a)
    (h₀ : Calm idle threads s₀) (hm : Sync.Monitor s₀.sync) :
    Calm idle threads s ∧ Sync.Monitor s.sync := by
  apply hr.sync_invariant (fun s a h ↦ (hok s a h).1) h₀ hm
  intro s a act v hc hi hq ha hs
  refine hi.step hs fun c m hact ↦ ?_
  subst hact
  cases a with
  | exec => exact (hok s .exec hq).2 c m rfl (by simpa [State.act] using ha)
  | call k => cases ha
  | _ => cases ha

/-- What the condition variables do for the current thread and to the others. -/
structure Condvars (s : State) : Prop where
  /-- whoever has called `condvar_wait` and has not been popped is found in the queue -/
  queued : ∀ t cond, t ∈ listsOf s.trace (.waitQueue (.condvar cond)) ↔
    ∃ mutex, waitOf t s.trace = .queued cond mutex
  linked : s.lists.Rep ListId.Tailed (fun _ ↦ none) (listsOf s.trace)
  inOrder : ∀ cond, Fifo (.waitQueue (.condvar cond)) s.trace
  /-- one step puts the thread into the queue and releases the mutex -/
  waits : ∀ {cond mutex ops s'}, s.stack = .condvarWait cond mutex :: ops →
    next s .exec = .ok s' → s.recursionCount mutex = 1 →
      s.holder mutex = some s.currentThread ∧ s'.holder mutex = none ∧
        waitOf s.currentThread s'.trace = .queued cond mutex ∧
        s'.status s.currentThread = .blocked ∧
        listsOf s'.trace (.waitQueue (.condvar cond)) =
          listsOf s.trace (.waitQueue (.condvar cond)) ++ [s.currentThread]
  leaves : ∀ {a s' t cond}, Quiet s a → Enabled s a → next s a = .ok s' →
    t ∈ listsOf s.trace (.waitQueue (.condvar cond)) →
      t ∉ listsOf s'.trace (.waitQueue (.condvar cond)) →
        a = .exec ∧ (s.stack.head? = some (.condvarSignal cond) ∧
          (listsOf s.trace (.waitQueue (.condvar cond))).head? = some t ∨
            s.stack.head? = some (.condvarBroadcast cond))
  signals : ∀ {cond ops}, s.stack = .condvarSignal cond :: ops → ∃ s', next s .exec = .ok s' ∧
    Readied cond ((listsOf s.trace (.waitQueue (.condvar cond))).take 1) s s'
  broadcasts : ∀ {cond ops}, s.stack = .condvarBroadcast cond :: ops → ∃ s', next s .exec = .ok s' ∧
    Readied cond (listsOf s.trace (.waitQueue (.condvar cond))) s s'
  /-- a thread that returns has been popped since it was queued and has the mutex once -/
  returns : ∀ {cond mutex ops}, s.stack = .condvarReturn cond mutex :: ops →
    waitOf s.currentThread s.trace = .popped cond mutex ∧
      s.holder mutex = some s.currentThread ∧ s.recursionCount mutex = 1

section

variable {idle : Tid} {threads : List Tid} {s s' : State} {cond : Nat} {mutex : MutexRef}
  {ops : List Op}

theorem waitOf_rooms (s : State) (t : Tid) : s.sync.rooms.wait t = waitOf t s.trace := waitOf_sync _ _

theorem Calm.waits (h : Calm idle threads s) (hst : s.stack = .condvarWait cond mutex :: ops)
    (hs : next s .exec = .ok s') (hn : s.recursionCount mutex = 1) :
    s.holder mutex = some s.currentThread ∧ s'.holder mutex = none ∧
      waitOf s.currentThread s'.trace = .queued cond mutex ∧
      s'.status s.currentThread = .blocked ∧
      listsOf s'.trace (.waitQueue (.condvar cond)) =
        listsOf s.trace (.waitQueue (.condvar cond)) ++ [s.currentThread] := by
  obtain ⟨hc, hstep⟩ := h.exec_step hst rfl hs
  have hrooms := Sync.rooms_after hstep
  have hqueue : s'.sync.rooms.queue cond = s.sync.rooms.queue cond ++ [s.currentThread] := by
    rw [hrooms]
    simp [Op.onRooms, Rooms.enter]
  have hwait : s'.sync.rooms.wait s.currentThread = .queued cond mutex := by
    rw [hrooms]
    simp [Op.onRooms, Rooms.enter]
  have hlist : listsOf s'.trace (.waitQueue (.condvar cond)) =
      listsOf s.trace (.waitQueue (.condvar cond)) ++ [s.currentThread] := by
    rw [← State.sync_queue, ← State.sync_queue]
    exact hqueue
  refine ⟨hstep.holds.1, hstep.wait_holder hn, ?_, ?_, hlist⟩
  · rw [← waitOf_rooms]
    exact hwait
  · exact hc.placed.standing.status_eq (hc.placed.home_of_mem (i := .waitQueue (.condvar cond))
      (by simp [hlist]))

theorem returns_of_monitor (hm : Sync.Monitor s.sync)
    (hst : s.stack = .condvarReturn cond mutex :: ops) :
    waitOf s.currentThread s.trace = .popped cond mutex ∧
      s.holder mutex = some s.currentThread ∧ s.recursionCount mutex = 1 := by
  have htask : s.sync.task s.currentThread = .condvarReturn cond mutex :: ops := by
    rw [sync_task_current, hst]
    exact strip_of_not_skip rfl ops
  have hplace := hm.place s.currentThread
  rw [waitOf_rooms] at hplace
  cases hw : waitOf s.currentThread s.trace with
  | no =>
    rw [hw] at hplace
    have hno : Sync.NoReturn (s.sync.task s.currentThread) := hplace
    rw [htask] at hno
    exact absurd List.mem_cons_self (hno cond mutex)
  | queued c m =>
    rw [hw] at hplace
    obtain ⟨-, r, -, ht⟩ := hplace
    rw [htask] at ht
    cases ht
  | popped c m =>
    rw [hw] at hplace
    obtain ⟨r, -, hwait⟩ := hplace
    cases hwait with
    | waiting ht => rw [htask] at ht; cases ht
    | taking b ht => rw [htask] at ht; cases ht
    | back ht hq hh hn =>
      rw [htask] at ht
      cases ht
      exact ⟨rfl, hh, hn⟩

/-- Nobody else is between an acquire and its release then. -/
theorem held_of_return (hm : Sync.Locked mutex s.sync)
    (hst : s.stack = .condvarReturn cond mutex :: ops) (hh : s.holder mutex = some s.currentThread)
    (hn : s.recursionCount mutex = 1) (t : Tid) :
    heldBy mutex t s.trace = if t = s.currentThread then 1 else 0 := by
  have hp : phaseOf mutex (strip s.stack) = .away := by
    rw [hst]
    rfl
  obtain ⟨hpos, hdepth⟩ := held_of_holder hm hh hp
  rw [hn] at hdepth
  have hone : heldBy mutex s.currentThread s.trace = 1 := hdepth.symm
  by_cases ht : t = s.currentThread
  · rw [if_pos ht, ht, hone]
  · rw [if_neg ht]
    obtain ⟨-, owner, ho⟩ := hm
    have hheld : ∀ t, (s.sync.lock mutex).held t = heldBy mutex t s.trace :=
      fun t ↦ heldBy_sync _ _ _
    rw [← hheld]
    apply ho.held_eq_zero_of_ne
    have hown := (ho.holder s.currentThread hh).1
    rw [hown]
    exact fun he ↦ ht (Option.some.inj he).symm

end

end AlienOS.Kernel
