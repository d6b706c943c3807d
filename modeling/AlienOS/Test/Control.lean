import AlienOS.Kernel.Condvar
import AlienOS.Test.ProducerConsumer

/-!
# Control — where the two threads are at the lock and at the condition variables

One of the two waits on `mine` and signals `other`; for the other it is the other way round.
-/

open AlienOS.Lib

namespace AlienOS.Test

open AlienOS.Kernel

/-- An operation that has nothing to do with the lock and the condition variables of the test. -/
def SparesOp (data : TestCondvar) : Op → Prop
  | .mutexAcquire m | .mutexAcquired m _ | .mutexRelease m | .tryTest m | .tryIncrement m
  | .tryDown m | .trySetHolder m | .trySetCount m => m ≠ .user data.lock
  | .condvarWait c m => m ≠ .user data.lock ∧ c ≠ data.notFull ∧ c ≠ data.notEmpty
  | .condvarSignal c | .condvarBroadcast c => c ≠ data.notFull ∧ c ≠ data.notEmpty
  | _ => True

def SparesAll (data : TestCondvar) (ops : List Op) : Prop := ∀ op ∈ ops, SparesOp data op

section

variable {data : TestCondvar} {v v' : Sync} {t u x : Tid} {act : Act} {op : Op} {ops : List Op}

theorem SparesAll.strip (h : SparesAll data ops) : SparesAll data (strip ops) :=
  fun o ho ↦ h o ((List.dropWhile_sublist _).subset ho)

theorem SparesAll.phaseOf (h : SparesAll data ops) :
    Kernel.phaseOf (.user data.lock) ops = .away := by
  cases ops with
  | nil => rfl
  | cons op ops =>
    have hop := h op List.mem_cons_self
    cases op <;> first | rfl | exact if_neg hop

theorem spares_call {c : Call} (h : Spares data c) : SparesAll data c.ops := by
  cases c <;> simp_all [SparesAll, SparesOp, Spares, Call.ops, heapOps]

theorem spares_pushes (b : Bool) (h : SparesOp data op) :
    SparesAll data (Sync.pushes t b op v) := by
  unfold Sync.pushes
  split
  · split <;> simp_all [SparesAll, SparesOp]
  · split <;> simp_all [SparesAll, SparesOp]
  · split <;> simp_all [SparesAll, SparesOp]
  · simp_all [SparesAll, SparesOp]
  · simp [SparesAll, SparesOp]
  · simp [SparesAll]

theorem SparesAll.step (h : SparesAll data (v.task t)) (hs : Sync.Step t act v v')
    (hc : ∀ c, act = .call c → Spares data c) : SparesAll data (v'.task t) := by
  cases hs with
  | @call _ c hq hf ht =>
    simp only [Sync.setTask, Function.update_self]
    exact (spares_call (hc c rfl)).strip
  | @exec _ w op ops b hf ht hr he =>
    subst he
    rw [ht] at h
    rw [Sync.exec_settle]
    simp only [Sync.setTask, Function.update_self]
    apply SparesAll.strip
    intro o ho
    rcases List.mem_append.mp ho with ho | ho
    · exact spares_pushes b (h op List.mem_cons_self) o ho
    · exact h o (List.mem_cons_of_mem _ ho)

end

/-! ## One thread at the lock -/

/-- What a thread before a statement still has to do in the kernel, and whether it has the lock. -/
inductive Control (data : TestCondvar) (mine other : Nat) : Pc → List Op → Bool → Prop where
  | outside {pc : Pc} (h : pc.IsOutside) : Control data mine other pc [] false
  | inside {pc : Pc} (h : pc.IsInside) : Control data mine other pc [] true
  | entering : Control data mine other .check [.mutexAcquire (.user data.lock)] false
  | taking (b : Bool) : Control data mine other .check [.mutexAcquired (.user data.lock) b] false
  | waits : Control data mine other .check [.condvarWait mine (.user data.lock)] true
  | waiting : Control data mine other .check
    [.mutexAcquire (.user data.lock), .condvarReturn mine (.user data.lock)] false
  | retaking (b : Bool) : Control data mine other .check
    [.mutexAcquired (.user data.lock) b, .condvarReturn mine (.user data.lock)] false
  | back : Control data mine other .check [.condvarReturn mine (.user data.lock)] true
  | signals : Control data mine other .release [.condvarSignal other] true
  | releases {pc : Pc} (h : pc = .yield ∨ pc = .next) :
    Control data mine other pc [.mutexRelease (.user data.lock)] true
  | finished {ops : List Op} (h : SparesAll data ops) : Control data mine other .finished ops false

structure Seat (data : TestCondvar) (mine other : Nat) (x : Tid) (pc : Pc) (inside : Bool)
    (v : Sync) : Prop where
  control : Control data mine other pc (v.task x) inside
  holder : v.holder (.user data.lock) = some x ↔ inside = true
  count : inside = true → v.recursionCount (.user data.lock) = 1
  /-- where it can be blocked -/
  queued : pc ≠ .finished → ∀ q, x ∈ v.queue q →
    q = .semaphore (.ofMutex (.user data.lock)) ∧ phaseOf (.user data.lock) (v.task x) = .waiting ∨
      q = .condvar mine ∧
        v.task x = [.mutexAcquire (.user data.lock), .condvarReturn mine (.user data.lock)]

namespace Seat

variable {data : TestCondvar} {mine other : Nat} {x u : Tid} {pc pc' : Pc} {inside : Bool}
  {v v' : Sync} {act : Act} {op : Op} {ops : List Op}

/-- A step of another thread. -/
theorem other_step (h : Seat data mine other x pc inside v) (hg : Sync.Guarded (.user data.lock) v)
    (hs : Sync.Step u act v v') (hu : x ≠ u) : Seat data mine other x pc inside v' := by
  have htask := hs.task_of_ne hu
  have hholder : inside = true → v'.holder (.user data.lock) = some x ∧
      v'.recursionCount (.user data.lock) = v.recursionCount (.user data.lock) :=
    fun hi ↦ hs.holder_keeps hg hu (h.holder.mpr hi)
  refine ⟨by rw [htask]; exact h.control, ⟨fun hh ↦ ?_, fun hi ↦ (hholder hi).1⟩,
    fun hi ↦ (hholder hi).2.trans (h.count hi), fun hp q hq ↦ ?_⟩
  · by_contra hi
    exact hs.not_holder hg hu (fun hx ↦ hi (h.holder.mp hx)) hh
  · rw [htask]
    exact h.queued hp q ((hs.joins hq).resolve_right fun hj ↦ hu hj.1)

/-- A statement, with or without a call. -/
theorem statement (h : Seat data mine other x pc inside v) (hf : v.Free x)
    (hc : Control data mine other pc' ops inside) :
    Seat data mine other x pc' inside (v.setTask x ops) := by
  refine ⟨?_, h.holder, h.count, fun _ q hq ↦ absurd hq (hf q)⟩
  show Control data mine other pc' ((Function.update v.task x ops) x) inside
  rw [Function.update_self]
  exact hc

theorem outside_of_finished (h : Control data mine other .finished ops inside) :
    inside = false := by
  cases h with
  | inside hp => cases hp
  | releases hp => rcases hp with hp | hp <;> cases hp
  | _ => rfl

/-- A call of a thread that is done. -/
theorem call {c : Call} (h : Seat data mine other x .finished inside v)
    (hs : Sync.Step x (.call c) v v') (hc : Spares data c) :
    Seat data mine other x .finished inside v' := by
  have hout := outside_of_finished h.control
  subst hout
  cases hs with
  | call hq hf ht => exact h.statement hf (.finished (spares_call hc).strip)

theorem outside_of (hc : Control data mine other pc (v.task x) false)
    (hh : v.holder (.user data.lock) ≠ some x)
    (hq : pc ≠ .finished → ∀ q, x ∈ v.queue q →
      q = .semaphore (.ofMutex (.user data.lock)) ∧
        phaseOf (.user data.lock) (v.task x) = .waiting ∨
      q = .condvar mine ∧
        v.task x = [.mutexAcquire (.user data.lock), .condvarReturn mine (.user data.lock)]) :
    Seat data mine other x pc false v :=
  ⟨hc, ⟨fun h ↦ absurd h hh, fun h ↦ by cases h⟩, fun h ↦ (by cases h), hq⟩

theorem inside_of (hc : Control data mine other pc (v.task x) true)
    (hh : v.holder (.user data.lock) = some x) (hn : v.recursionCount (.user data.lock) = 1)
    (hf : v.Free x) : Seat data mine other x pc true v :=
  ⟨hc, ⟨fun _ ↦ rfl, fun _ ↦ hh⟩, fun _ ↦ hn, fun _ q hq ↦ absurd hq (hf q)⟩

/-- Its own step in the kernel, by what it has before it. -/
theorem exec (h : Seat data mine other x pc inside v) (hg : Sync.Guarded (.user data.lock) v)
    (hs : Sync.Step x (.exec op) v v') :
    (∃ inside', Seat data mine other x pc inside' v') ∧
      v'.task x ≠ [.condvarWait mine (.user data.lock)] := by
  obtain ⟨b, ops, ht, ht'⟩ := hs.task_self
  obtain ⟨hc, hholder, hcount, -⟩ := id h
  rw [ht] at hc
  cases hc with
  | entering =>
    have hout : v.holder (.user data.lock) ≠ some x := fun hh ↦ by cases hholder.mp hh
    have htask : v'.task x = [.mutexAcquired (.user data.lock) b] := by
      rw [ht']
      simp [Sync.pushes, hout, strip_cons, Op.IsSkip]
    refine ⟨⟨false, outside_of ?_ (hs.stays_out hg (by rw [ht]; rfl) hout) fun _ q hq ↦ .inl ?_⟩,
      by rw [htask]; simp⟩
    · rw [htask]
      exact .taking b
    · rw [htask]
      exact ⟨joins_acquire (hs.joined hq), by simp [phaseOf]⟩
  | taking b' =>
    have htask : v'.task x = [] := ht'
    obtain ⟨hh, hn⟩ := hs.acquired
    refine ⟨⟨true, inside_of ?_ hh hn (hs.still_free fun q hj ↦ ?_)⟩, by rw [htask]; simp⟩
    · rw [htask]
      exact .inside rfl
    · rcases joins_of hj with ⟨_, hj⟩ | ⟨_, hj⟩ | ⟨_, _, hj⟩ <;> cases hj
  | waits =>
    have htask : v'.task x =
        [.mutexAcquire (.user data.lock), .condvarReturn mine (.user data.lock)] := ht'
    have hh := hs.wait_holder (hcount rfl)
    refine ⟨⟨false, outside_of ?_ (by rw [hh]; simp) fun _ q hq ↦ .inr ?_⟩, by rw [htask]; simp⟩
    · rw [htask]
      exact .waiting
    · exact ⟨joins_wait (hs.joined hq), htask⟩
  | waiting =>
    have hout : v.holder (.user data.lock) ≠ some x := fun hh ↦ by cases hholder.mp hh
    have htask : v'.task x =
        [.mutexAcquired (.user data.lock) b, .condvarReturn mine (.user data.lock)] := by
      rw [ht']
      simp [Sync.pushes, hout, strip_cons, Op.IsSkip]
    refine ⟨⟨false, outside_of ?_ (hs.stays_out hg (by rw [ht]; rfl) hout) fun _ q hq ↦ .inl ?_⟩,
      by rw [htask]; simp⟩
    · rw [htask]
      exact .retaking b
    · rw [htask]
      exact ⟨joins_acquire (hs.joined hq), by simp [phaseOf]⟩
  | retaking b' =>
    have htask : v'.task x = [.condvarReturn mine (.user data.lock)] := ht'
    obtain ⟨hh, hn⟩ := hs.acquired
    refine ⟨⟨true, inside_of ?_ hh hn (hs.still_free fun q hj ↦ ?_)⟩, by rw [htask]; simp⟩
    · rw [htask]
      exact .back
    · rcases joins_of hj with ⟨_, hj⟩ | ⟨_, hj⟩ | ⟨_, _, hj⟩ <;> cases hj
  | back =>
    have htask : v'.task x = [] := ht'
    obtain ⟨hh, hn⟩ := hs.mutexes_same (.inr ⟨_, rfl⟩)
    refine ⟨⟨true, inside_of ?_ ((congrFun hh _).trans (hholder.mpr rfl))
      ((congrFun hn _).trans (hcount rfl)) (hs.still_free fun q hj ↦ ?_)⟩, by rw [htask]; simp⟩
    · rw [htask]
      exact .inside rfl
    · rcases joins_of hj with ⟨_, hj⟩ | ⟨_, hj⟩ | ⟨_, _, hj⟩ <;> cases hj
  | signals =>
    have htask : v'.task x = [] := ht'
    obtain ⟨hh, hn⟩ := hs.mutexes_same (.inl rfl)
    refine ⟨⟨true, inside_of ?_ ((congrFun hh _).trans (hholder.mpr rfl))
      ((congrFun hn _).trans (hcount rfl)) (hs.still_free fun q hj ↦ ?_)⟩, by rw [htask]; simp⟩
    · rw [htask]
      exact .inside rfl
    · rcases joins_of hj with ⟨_, hj⟩ | ⟨_, hj⟩ | ⟨_, _, hj⟩ <;> cases hj
  | releases hp =>
    have htask : v'.task x = [] := ht'
    have hh := hs.release_holder (hcount rfl)
    refine ⟨⟨false, outside_of ?_ (by rw [hh]; simp) fun _ q hq ↦ ?_⟩, by rw [htask]; simp⟩
    · rw [htask]
      apply Control.outside
      rcases hp with rfl | rfl <;> rfl
    · rcases joins_of (hs.joined hq) with ⟨_, hj⟩ | ⟨_, hj⟩ | ⟨_, _, hj⟩ <;> cases hj
  | finished hsp =>
    rw [← ht] at hsp
    have hspares := hsp.step hs fun c hc ↦ by cases hc
    have hout : v.holder (.user data.lock) ≠ some x := fun hh ↦ by cases hholder.mp hh
    refine ⟨⟨false, outside_of (.finished hspares) (hs.stays_out hg hsp.phaseOf hout)
      fun hp ↦ absurd rfl hp⟩, fun htask ↦ ?_⟩
    rw [htask] at hspares
    exact (hspares _ List.mem_cons_self).1 rfl

end Seat

end AlienOS.Test
