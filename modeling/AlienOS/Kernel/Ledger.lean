import AlienOS.Kernel.Condvar
import AlienOS.Kernel.Semaphore
import Mathlib.Algebra.Order.BigOperators.Group.List
import Mathlib.Algebra.Order.Ring.Int

/-!
# Ledger — what a group of threads has asked of a semaphore

The count is the initial one and what the calls of the group come to, less what of these calls is
still to be done.
-/

open AlienOS.Lib

namespace AlienOS.Kernel

/-- The operation goes to the semaphore. -/
def Op.OnSemaphore (n : Nat) : Op → Prop
  | .semaphoreDown sem | .semaphoreTryDown sem | .semaphoreUp sem => sem = .user n
  | _ => False

def Call.OnSemaphore (n : Nat) : Call → Prop
  | .semaphoreDown sem | .semaphoreTryDown sem | .semaphoreUp sem => sem = n
  | _ => False

/-- The downs less the ups that are still to be done. -/
def dues (n : Nat) (ops : List Op) : Int :=
  ops.count (.semaphoreDown (.user n)) - ops.count (.semaphoreUp (.user n))

section

variable {n : Nat} {op : Op} {ops ops' : List Op} {c : Call} {t : Tid} {b : Bool} {v : Sync}

theorem call_spares_semaphore (h : ¬ c.OnSemaphore n) : ∀ op ∈ c.ops, ¬ op.OnSemaphore n := by
  cases c <;> simp_all [Call.OnSemaphore, Call.ops, heapOps, Op.OnSemaphore]

/-- No operation leaves one on a semaphore to its thread. -/
theorem pushes_spare_semaphore (t : Tid) (b : Bool) (op : Op) (v : Sync) :
    ∀ op' ∈ Sync.pushes t b op v, ¬ op'.OnSemaphore n := by
  unfold Sync.pushes
  split
  · split <;> simp [Op.OnSemaphore]
  · split <;> simp [Op.OnSemaphore]
  · split <;> simp [Op.OnSemaphore]
  · simp [Op.OnSemaphore]
  · simp [Op.OnSemaphore]
  · simp

theorem dues_append (n : Nat) (ops ops' : List Op) : dues n (ops ++ ops') = dues n ops + dues n ops' := by
  unfold dues
  rw [List.count_append, List.count_append]
  push_cast
  omega

theorem dues_cons (n : Nat) (op : Op) (ops : List Op) : dues n (op :: ops) = dues n [op] + dues n ops :=
  dues_append n [op] ops

theorem dues_spared (h : ∀ op ∈ ops, ¬ op.OnSemaphore n) : dues n ops = 0 := by
  have hdown : Op.semaphoreDown (.user n) ∉ ops := fun hm ↦ h _ hm rfl
  have hup : Op.semaphoreUp (.user n) ∉ ops := fun hm ↦ h _ hm rfl
  unfold dues
  rw [List.count_eq_zero_of_not_mem hdown, List.count_eq_zero_of_not_mem hup]
  rfl

@[simp] theorem dues_nil (n : Nat) : dues n [] = 0 := rfl

@[simp] theorem dues_down (n : Nat) : dues n [.semaphoreDown (.user n)] = 1 := by simp [dues]

@[simp] theorem dues_up (n : Nat) : dues n [.semaphoreUp (.user n)] = -1 := by simp [dues]

theorem dues_down_ne {m : Nat} (h : m ≠ n) : dues n [.semaphoreDown (.user m)] = 0 := by
  simp [dues, h]

theorem dues_up_ne {m : Nat} (h : m ≠ n) : dues n [.semaphoreUp (.user m)] = 0 := by
  simp [dues, h]

theorem skip_spares_semaphore (h : op.IsSkip) : ¬ op.OnSemaphore n := by
  cases op <;> first | exact id | cases h

theorem dues_strip (n : Nat) (ops : List Op) : dues n (strip ops) = dues n ops := by
  induction ops with
  | nil => rfl
  | cons op ops ih =>
    rw [strip_cons]
    by_cases hop : op.IsSkip = true
    · have hzero : dues n [op] = 0 := by
        apply dues_spared
        intro o ho
        cases List.mem_singleton.mp ho
        exact skip_spares_semaphore hop
      rw [if_pos hop, ih, dues_cons, hzero, Int.zero_add]
    · rw [if_neg hop]

namespace Sync

theorem wake_count (q : WaitQueue) (v : Sync) : (wake q v).count = v.count := by
  unfold wake
  split <;> rfl

theorem wakeAll_count (q : WaitQueue) (v : Sync) : (wakeAll q v).count = v.count := by
  unfold wakeAll
  generalize v.queue q = xs
  induction xs generalizing v with
  | nil => rfl
  | cons x xs ih => exact ih (v.woken q x)

theorem down_count (sem : SemRef) (t : Tid) (v : Sync) :
    (down sem t v).count = Function.update v.count sem (v.count sem - 1) := by
  have hnote : (note sem t v).count = v.count := by
    unfold note
    split <;> rfl
  unfold down
  split
  · show Function.update (note sem t v).count sem _ = _
    rw [hnote]
  · rfl

theorem up_count (sem : SemRef) (t : Tid) (v : Sync) :
    (up sem t v).count = Function.update v.count sem (v.count sem + 1) := wake_count _ _

theorem release_count (n : Nat) (mutex : MutexRef) (t : Tid) (v : Sync) :
    (release mutex t v).count (.user n) = v.count (.user n) := by
  unfold release
  simp only
  split
  · rw [up_count]
    exact Function.update_of_ne (by simp) _ _
  · rfl

/-- Only a down that tries depends on the count. -/
theorem exec_count (hop : op ≠ .semaphoreTryDown (.user n)) :
    (exec t b op v).count (.user n) = v.count (.user n) - dues n [op] := by
  have hspared : ¬ op.OnSemaphore n → v.count (.user n) = v.count (.user n) - dues n [op] := by
    intro h
    have hzero : dues n [op] = 0 := by
      apply dues_spared
      intro o ho
      cases List.mem_singleton.mp ho
      exact h
    rw [hzero, Int.sub_zero]
  cases op with
  | semaphoreDown sem =>
    show (down sem t v).count (.user n) = _
    rw [down_count]
    by_cases hs : sem = .user n
    · subst hs
      simp
    · rw [Function.update_of_ne (Ne.symm hs)]
      exact hspared hs
  | semaphoreTryDown sem =>
    have hs : sem ≠ .user n := fun h ↦ hop (by rw [h])
    rw [← hspared hs]
    unfold exec
    simp only
    split
    · exact Function.update_of_ne hs.symm _ _
    · rfl
  | semaphoreUp sem =>
    show (up sem t v).count (.user n) = _
    rw [up_count]
    by_cases hs : sem = .user n
    · subst hs
      simp
    · rw [Function.update_of_ne (Ne.symm hs)]
      exact hspared hs
  | mutexAcquire m =>
    rw [← hspared id]
    show (acquire m t b v).count (.user n) = _
    unfold acquire
    split
    · rfl
    · rw [down_count]
      exact Function.update_of_ne (by simp) _ _
  | mutexRelease m =>
    rw [← hspared id]
    exact release_count n m t v
  | tryDown m =>
    rw [← hspared id]
    have hne : SemRef.user n ≠ .ofMutex m := by simp
    unfold exec
    simp only
    split
    · exact Function.update_of_ne hne (v.count (.ofMutex m) - 1) v.count
    · rfl
  | condvarWait c m =>
    rw [← hspared id]
    exact release_count n m t _
  | condvarSignal c =>
    rw [← hspared id]
    exact congrFun (wake_count _ _) _
  | condvarBroadcast c =>
    rw [← hspared id]
    exact congrFun (wakeAll_count _ _) _
  | _ => exact hspared id

end Sync

end

/-! ## A step of any thread -/

namespace Sync

variable {n : Nat} {v v' : Sync} {t : Tid} {act : Act} {op o : Op}

/-- Where an operation that a thread has before it comes from. -/
theorem Step.mem_task (hs : Sync.Step t act v v') (ho : o ∈ v'.task t) :
    o ∈ v.task t ∨ (∃ b, ∃ op ∈ v.task t, o ∈ pushes t b op v) ∨
      ∃ c, act = .call c ∧ o ∈ c.ops := by
  cases act with
  | call c =>
    cases hs
    have ho : o ∈ (Function.update v.task t (strip c.ops)) t := ho
    rw [Function.update_self] at ho
    exact .inr (.inr ⟨c, rfl, (List.dropWhile_sublist _).subset ho⟩)
  | exec op =>
    obtain ⟨b, ops, ht, ht'⟩ := hs.task_self
    rw [ht'] at ho
    rcases List.mem_append.mp ((List.dropWhile_sublist _).subset ho) with ho | ho
    · refine .inr (.inl ⟨b, op, ?_, ho⟩)
      rw [ht]
      exact List.mem_cons_self
    · rw [ht]
      exact .inl (List.mem_cons_of_mem _ ho)

/-- A thread with nothing to do has nothing to do until it calls. -/
theorem Step.task_nil {x : Tid} (hs : Sync.Step t act v v') (hx : v.task x = [])
    (hc : ∀ c, act = .call c → x ≠ t) : v'.task x = [] := by
  by_cases hxt : x = t
  · subst hxt
    cases act with
    | call c => exact absurd rfl (hc c rfl)
    | exec op =>
      obtain ⟨b, ops, ht, -⟩ := hs.task_self
      rw [hx] at ht
      cases ht
  · rw [hs.task_of_ne hxt]
    exact hx

/-- What a step of the thread settles shows in the count. -/
theorem Step.count_dues (hs : Sync.Step t (.exec op) v v')
    (hop : op ≠ .semaphoreTryDown (.user n)) :
    v'.count (.user n) = v.count (.user n) + (dues n (v'.task t) - dues n (v.task t)) := by
  obtain ⟨b, ops, ht, ht'⟩ := hs.task_self
  have hcount : v'.count (.user n) = v.count (.user n) - dues n [op] := by
    cases hs with
    | exec b hf ht₁ hr he =>
      subst he
      exact exec_count hop
  have hpushed : dues n (pushes t b op v) = 0 := dues_spared (pushes_spare_semaphore t b op v)
  rw [hcount, ht', dues_strip, dues_append, hpushed, ht, dues_cons n op ops]
  omega

end Sync

/-- The operation, or one that it leaves to its thread, can block on the queue. -/
def Op.Leads (op : Op) (q : WaitQueue) : Prop :=
  op.Joins q ∨ ∃ cond mutex, op = .condvarWait cond mutex ∧ q = .semaphore (.ofMutex mutex)

section

variable {op o : Op} {q : WaitQueue} {t : Tid} {b : Bool} {v : Sync}

theorem leads_of (h : op.Leads q) : (∃ sem, op = .semaphoreDown sem) ∨
    (∃ mutex, op = .mutexAcquire mutex) ∨ ∃ cond mutex, op = .condvarWait cond mutex := by
  rcases h with h | ⟨c, m, h, -⟩
  · exact joins_of h
  · exact .inr (.inr ⟨c, m, h⟩)

theorem leads_acquire {mutex : MutexRef} (h : (Op.mutexAcquire mutex).Leads q) :
    q = .semaphore (.ofMutex mutex) := by
  rcases h with h | ⟨_, _, h, -⟩
  · exact joins_acquire h
  · cases h

theorem leads_down {n : Nat} (h : (Op.semaphoreDown (.user n)).Leads q) :
    q = .semaphore (.user n) := by
  rcases h with h | ⟨_, _, h, -⟩
  · cases q with
    | condvar c =>
      obtain ⟨_, h⟩ := h
      cases h
    | semaphore sem =>
      cases sem with
      | user m =>
        cases h
        rfl
      | ofMutex m => rcases h with h | h <;> cases h
  · cases h

theorem down_leads (n : Nat) : (Op.semaphoreDown (.user n)).Leads (.semaphore (.user n)) := .inl rfl

theorem not_leads_release {mutex : MutexRef} : ¬ (Op.mutexRelease mutex).Leads q := by
  intro h
  rcases leads_of h with ⟨_, h⟩ | ⟨_, h⟩ | ⟨_, _, h⟩ <;> cases h

theorem not_leads_up {sem : SemRef} : ¬ (Op.semaphoreUp sem).Leads q := by
  intro h
  rcases leads_of h with ⟨_, h⟩ | ⟨_, h⟩ | ⟨_, _, h⟩ <;> cases h

theorem pushes_lead (ho : o ∈ Sync.pushes t b op v) (hq : o.Leads q) : op.Leads q := by
  have hnone : (∀ m, o ≠ .mutexAcquire m) → (∀ sem, o ≠ .semaphoreDown sem) →
      (∀ c m, o ≠ .condvarWait c m) → op.Leads q := by
    intro h₁ h₂ h₃
    rcases leads_of hq with ⟨sem, h⟩ | ⟨m, h⟩ | ⟨c, m, h⟩
    · exact absurd h (h₂ sem)
    · exact absurd h (h₁ m)
    · exact absurd h (h₃ c m)
  cases op with
  | condvarWait c m =>
    -- the way back into the mutex
    rcases List.mem_cons.mp ho with rfl | ho
    · exact .inr ⟨c, m, rfl, leads_acquire hq⟩
    · cases List.mem_singleton.mp ho
      exact hnone (by simp) (by simp) (by simp)
  | mutexAcquire m =>
    have ho : o ∈ if v.holder m = some t then [] else [Op.mutexAcquired m b] := ho
    split at ho
    · cases ho
    · cases List.mem_singleton.mp ho
      exact hnone (by simp) (by simp) (by simp)
  | tryTest m =>
    have ho : o = if v.holder m = some t then .tryIncrement m else .tryDown m :=
      List.mem_singleton.mp ho
    split at ho
    · subst ho
      exact hnone (by simp) (by simp) (by simp)
    · subst ho
      exact hnone (by simp) (by simp) (by simp)
  | tryDown m =>
    have ho : o ∈ if v.count (.ofMutex m) > 0 then [Op.trySetHolder m, .trySetCount m] else [] := ho
    split at ho
    · rcases List.mem_cons.mp ho with rfl | ho
      · exact hnone (by simp) (by simp) (by simp)
      · cases List.mem_singleton.mp ho
        exact hnone (by simp) (by simp) (by simp)
    · cases ho
  | cpuIdleLoop =>
    cases List.mem_singleton.mp ho
    exact hnone (by simp) (by simp) (by simp)
  | _ => cases ho

end

/-! ## Sums over a group -/

/-- What an indicator sums up to. -/
theorem sum_indicator {ι M : Type} [AddCommMonoidWithOne M] (p : ι → Bool) (l : List ι) :
    (l.map fun x ↦ if p x then (1 : M) else 0).sum = (l.countP p : M) := by
  induction l with
  | nil => simp
  | cons x xs ih =>
    rw [List.map_cons, List.sum_cons, ih, List.countP_cons, Nat.cast_add, add_comm]
    split <;> simp

/-! ## The ledger -/

/-- A sum over distinct indices of which one changes. -/
theorem sum_map_change {ι M : Type} [DecidableEq ι] [AddCommGroup M] {f g : ι → M} {l : List ι}
    {t : ι} (hn : l.Nodup) (ht : t ∈ l) (h : ∀ u, u ≠ t → g u = f u) :
    (l.map g).sum = (l.map f).sum + (g t - f t) := by
  have hrest : (l.erase t).map g = (l.erase t).map f := by
    apply List.map_congr_left
    intro u hu
    exact h u ((hn.mem_erase_iff.mp hu).1)
  rw [← List.sum_map_erase g ht, ← List.sum_map_erase f ht, hrest, add_comm (f t), add_assoc,
    add_sub_cancel, add_comm]

/-- The semaphore began with `k`, and only `team` calls it.  What the ups that a thread has called come
to, less its downs, is `asked`; where it is while such a call is not over, `down` and `up` say. -/
structure Ledger (n : Nat) (k : Int) (team : List Tid) (down up : Tid → Prop) (asked : Tid → Int)
    (v : Sync) : Prop where
  accounts : Accounts k (.user n) v
  count : v.count (.user n) = k + (team.map fun t ↦ asked t + dues n (v.task t)).sum
  tries : ∀ t, .semaphoreTryDown (.user n) ∉ v.task t
  others : ∀ t, t ∉ team → ∀ op ∈ v.task t, ¬ op.OnSemaphore n
  downs : ∀ t, .semaphoreDown (.user n) ∈ v.task t → down t
  ups : ∀ t, .semaphoreUp (.user n) ∈ v.task t → up t
  queue : ∀ t ∈ v.queue (.semaphore (.user n)), down t
  fresh : ∀ t, ∀ op ∈ v.task t, op.OnSemaphore n → v.task t = [op] ∧ v.Free t

namespace Ledger

variable {n : Nat} {k : Int} {team : List Tid} {down down' up up' : Tid → Prop}
  {asked asked' : Tid → Int} {v v' : Sync} {t u : Tid} {act : Act} {ops : List Op}

/-- An operation on the semaphore was there before. -/
theorem mem_task {o : Op} (hs : Sync.Step u act v v')
    (hc : ∀ c, act = .call c → ¬ c.OnSemaphore n) (ho : o ∈ v'.task t) (hon : o.OnSemaphore n) :
    o ∈ v.task t := by
  by_cases ht : t = u
  · subst ht
    rcases hs.mem_task ho with ho | ⟨b, op, -, ho⟩ | ⟨c, hact, ho⟩
    · exact ho
    · exact absurd hon (pushes_spare_semaphore t b op v o ho)
    · exact absurd hon (call_spares_semaphore (hc c hact) o ho)
  · rwa [hs.task_of_ne ht] at ho

theorem count_step (h : Ledger n k team down up asked v) (hn : team.Nodup)
    (hs : Sync.Step u act v v') (hc : ∀ c, act = .call c → ¬ c.OnSemaphore n) :
    v'.count (.user n) = k + (team.map fun t ↦ asked t + dues n (v'.task t)).sum := by
  have hoff : ∀ t, t ≠ u → asked t + dues n (v'.task t) = asked t + dues n (v.task t) := by
    intro t ht
    rw [hs.task_of_ne ht]
  have hcount : v'.count (.user n) =
      v.count (.user n) + (dues n (v'.task u) - dues n (v.task u)) := by
    cases act with
    | call c =>
      cases hs with
      | call hq hf ht =>
        have htask : (v.setTask u (strip c.ops)).task u = strip c.ops := Function.update_self _ _ _
        rw [htask, ht, dues_strip, dues_spared (call_spares_semaphore (hc c rfl))]
        show v.count (.user n) = v.count (.user n) + (0 - 0)
        omega
    | exec op =>
      apply hs.count_dues
      rintro rfl
      obtain ⟨b, ops, ht, -⟩ := hs.task_self
      apply h.tries u
      rw [ht]
      exact List.mem_cons_self
  rw [hcount, h.count]
  by_cases hu : u ∈ team
  · rw [sum_map_change hn hu hoff]
    omega
  · have hzero : dues n (v.task u) = 0 := dues_spared (h.others u hu)
    have hzero' : dues n (v'.task u) = 0 :=
      dues_spared fun op ho hon ↦ h.others u hu op (mem_task hs hc ho hon) hon
    have hsame : (team.map fun t ↦ asked t + dues n (v'.task t)) =
        team.map fun t ↦ asked t + dues n (v.task t) := by
      apply List.map_congr_left
      intro t ht
      apply hoff
      rintro rfl
      exact hu ht
    rw [hsame, hzero, hzero']
    omega

/-- The step lemma for the kernel. -/
theorem step (h : Ledger n k team down up asked v) (hn : team.Nodup) (hs : Sync.Step u act v v')
    (hc : ∀ c, act = .call c → ¬ c.OnSemaphore n) : Ledger n k team down up asked v' := by
  refine ⟨h.accounts.step hs, h.count_step hn hs hc, fun t ho ↦ h.tries t (mem_task hs hc ho rfl),
    fun t ht op ho hon ↦ h.others t ht op (mem_task hs hc ho hon) hon,
    fun t ho ↦ h.downs t (mem_task hs hc ho rfl), fun t ho ↦ h.ups t (mem_task hs hc ho rfl),
    fun t hq ↦ ?_, fun t op ho hon ↦ ?_⟩
  · rcases hs.joins hq with hq | ⟨rfl, op, hact, hj⟩
    · exact h.queue t hq
    · subst hact
      have hop : op = .semaphoreDown (.user n) := hj
      subst hop
      obtain ⟨b, ops, ht, -⟩ := hs.task_self
      apply h.downs t
      rw [ht]
      exact List.mem_cons_self
  · obtain ⟨htask, hfree⟩ := h.fresh t op (mem_task hs hc ho hon) hon
    by_cases ht : t = u
    · subst ht
      -- its own step takes the operation off
      exfalso
      cases act with
      | call c =>
        cases hs with
        | call hq hf hnil =>
          rw [hnil] at htask
          cases htask
      | exec o =>
        obtain ⟨b, ops, ht, ht'⟩ := hs.task_self
        rw [htask] at ht
        cases ht
        rw [ht', List.append_nil] at ho
        exact pushes_spare_semaphore t b op v op ((List.dropWhile_sublist _).subset ho) hon
    · exact ⟨(hs.task_of_ne ht).trans htask,
        fun q hq ↦ hfree q ((hs.joins hq).resolve_right fun hj ↦ ht hj.1)⟩

/-- A thread of the team runs a statement that leaves `ops` to the kernel. -/
theorem statement (h : Ledger n k team down up asked v) (hn : team.Nodup) (hu : u ∈ team)
    (ht : v.task u = []) (hf : v.Free u) (htry : .semaphoreTryDown (.user n) ∉ ops)
    (hsingle : ∀ op ∈ ops, op.OnSemaphore n → ops = [op])
    (hdown : .semaphoreDown (.user n) ∈ ops → down' u) (hup : .semaphoreUp (.user n) ∈ ops → up' u)
    (hasked : asked' u = asked u - dues n ops)
    (hsame : ∀ t, t ≠ u → asked' t = asked t ∧ (down t → down' t) ∧ (up t → up' t)) :
    Ledger n k team down' up' asked' (v.setTask u ops) := by
  have hself : (v.setTask u ops).task u = ops := Function.update_self _ _ _
  have hne : ∀ t, t ≠ u → (v.setTask u ops).task t = v.task t :=
    fun t ht ↦ Function.update_of_ne ht _ _
  have hsplit : ∀ {t : Tid} {op : Op}, op ∈ (v.setTask u ops).task t →
      t = u ∧ op ∈ ops ∨ t ≠ u ∧ op ∈ v.task t := by
    intro t op ho
    by_cases htu : t = u
    · subst htu
      rw [hself] at ho
      exact .inl ⟨rfl, ho⟩
    · rw [hne t htu] at ho
      exact .inr ⟨htu, ho⟩
  refine ⟨h.accounts.congr rfl rfl, ?_, fun t ho ↦ ?_, fun t hm op ho ↦ ?_, fun t ho ↦ ?_,
    fun t ho ↦ ?_, fun t hq ↦ ?_, fun t op ho hon ↦ ?_⟩
  · have hoff : ∀ t, t ≠ u → asked' t + dues n ((v.setTask u ops).task t) =
        asked t + dues n (v.task t) := by
      intro t htu
      rw [hne t htu, (hsame t htu).1]
    show v.count (.user n) = _
    rw [sum_map_change hn hu hoff, h.count, hself, ht, hasked, dues_nil]
    omega
  · rcases hsplit ho with ⟨-, ho⟩ | ⟨-, ho⟩
    · exact htry ho
    · exact h.tries t ho
  · rcases hsplit ho with ⟨rfl, -⟩ | ⟨-, ho⟩
    · exact absurd hu hm
    · exact h.others t hm op ho
  · rcases hsplit ho with ⟨rfl, hops⟩ | ⟨htu, hold⟩
    · exact hdown hops
    · exact (hsame t htu).2.1 (h.downs t hold)
  · rcases hsplit ho with ⟨rfl, hops⟩ | ⟨htu, hold⟩
    · exact hup hops
    · exact (hsame t htu).2.2 (h.ups t hold)
  · have htu : t ≠ u := by
      rintro rfl
      exact hf _ hq
    exact (hsame t htu).2.1 (h.queue t hq)
  · rcases hsplit ho with ⟨rfl, hops⟩ | ⟨htu, hold⟩
    · exact ⟨hself.trans (hsingle op hops hon), hf⟩
    · obtain ⟨htask, hfree⟩ := h.fresh t op hold hon
      exact ⟨(hne t htu).trans htask, hfree⟩

/-- What is left to be done of a thread's calls. -/
theorem dues_eq (h : Ledger n k team down up asked v) (t : Tid) :
    dues n (v.task t) = 0 ∨ (dues n (v.task t) = 1 ∧ down t ∨ dues n (v.task t) = -1 ∧ up t) ∧
      v.Free t := by
  by_cases hd : Op.semaphoreDown (.user n) ∈ v.task t
  · obtain ⟨htask, hfree⟩ := h.fresh t _ hd rfl
    refine .inr ⟨.inl ⟨?_, h.downs t hd⟩, hfree⟩
    rw [htask]
    exact dues_down n
  · by_cases hu : Op.semaphoreUp (.user n) ∈ v.task t
    · obtain ⟨htask, hfree⟩ := h.fresh t _ hu rfl
      refine .inr ⟨.inr ⟨?_, h.ups t hu⟩, hfree⟩
      rw [htask]
      exact dues_up n
    · left
      unfold dues
      rw [List.count_eq_zero_of_not_mem hd, List.count_eq_zero_of_not_mem hu]
      rfl

/-- Nobody waits while the only thread that ever does runs. -/
theorem count_nonneg (h : Ledger n k team down up asked v) (ht : ∀ x, down x → x = t)
    (hf : t ∉ v.queue (.semaphore (.user n))) : 0 ≤ v.count (.user n) := by
  have hempty : v.queue (.semaphore (.user n)) = [] := by
    rw [List.eq_nil_iff_forall_not_mem]
    intro x hx
    have hxt := ht x (h.queue x hx)
    subst hxt
    exact hf hx
  have hwait := h.accounts.waiting
  rw [hempty] at hwait
  simp only [List.length_nil] at hwait
  omega

/-- Whoever waits, waits for an up. -/
theorem count_neg (h : Ledger n k team down up asked v)
    (ht : t ∈ v.queue (.semaphore (.user n))) : v.count (.user n) < 0 := by
  have hwait := h.accounts.waiting
  have hpos := List.length_pos_of_mem ht
  omega

/-- No more threads are between the two calls than the semaphore began with. -/
theorem at_most (h : Ledger n k team down up asked v)
    (hn : (v.queue (.semaphore (.user n))).Nodup) {inside : Tid → Bool}
    (hq : ∀ t ∈ v.queue (.semaphore (.user n)), t ∈ team)
    (hterm : ∀ t ∈ team, asked t + dues n (v.task t) + (if inside t then 1 else 0) +
      (if decide (t ∈ v.queue (.semaphore (.user n))) then 1 else 0) ≤ 0) :
    (team.countP inside : Int) ≤ k := by
  -- the terms of those inside and of those in the queue are used up
  have hsum := List.sum_le_sum hterm
  rw [List.sum_map_add, List.sum_map_add, sum_indicator, sum_indicator, List.sum_map_zero] at hsum
  -- nobody is in the queue twice
  have hlen : (v.queue (.semaphore (.user n))).length ≤
      team.countP fun t ↦ decide (t ∈ v.queue (.semaphore (.user n))) := by
    rw [List.countP_eq_length_filter]
    apply List.Subperm.length_le
    apply List.subperm_of_subset hn
    intro t ht
    exact List.mem_filter.mpr ⟨hq t ht, decide_eq_true ht⟩
  have hcount := h.count
  have hwait := h.accounts.waiting
  omega

/-- While a thread waits for a semaphore that began above zero, one that does not wait for it owes an
up. -/
theorem served (h : Ledger n k team down up asked v) (hn : team.Nodup) (hk : 0 < k)
    (ht : t ∈ v.queue (.semaphore (.user n)))
    (hq : ∀ x ∈ team, x ∈ v.queue (.semaphore (.user n)) → -1 ≤ asked x) :
    ∃ x ∈ team, x ∉ v.queue (.semaphore (.user n)) ∧ asked x + dues n (v.task x) < 0 := by
  by_contra hno
  -- only those in the queue bring the count below what it began with
  have hterm : ∀ x ∈ team, 0 ≤ asked x + dues n (v.task x) +
      if decide (x ∈ v.queue (.semaphore (.user n))) then 1 else 0 := by
    intro x hx
    by_cases hin : x ∈ v.queue (.semaphore (.user n))
    · have hzero : dues n (v.task x) = 0 := (h.dues_eq x).resolve_right fun hd ↦ hd.2 _ hin
      have hasked := hq x hx hin
      rw [if_pos (decide_eq_true hin), hzero]
      omega
    · rw [if_neg (by simpa using hin)]
      by_contra hlt
      exact hno ⟨x, hx, hin, by omega⟩
  have hsum := List.sum_le_sum hterm
  rw [List.sum_map_zero, List.sum_map_add, sum_indicator] at hsum
  have hlen : (team.countP fun x ↦ decide (x ∈ v.queue (.semaphore (.user n)))) ≤
      (v.queue (.semaphore (.user n))).length := by
    rw [List.countP_eq_length_filter]
    apply List.Subperm.length_le
    apply List.subperm_of_subset (hn.filter _)
    intro x hx
    exact of_decide_eq_true (List.mem_filter.mp hx).2
  have hcount := h.count
  have hneg := h.count_neg ht
  have hwait := h.accounts.waiting
  omega

theorem start (team : List Tid) (idle : Tid) (count : Nat → Nat) (n : Nat)
    (hasked : ∀ t, asked t = 0) :
    Ledger n (count n) team down up asked (Sync.start idle count) := by
  have htask : ∀ t op, op ∈ (Sync.start idle count).task t → op = .cpuIdleLoop := by
    intro t op ho
    by_cases ht : t = idle
    · subst ht
      simpa [Sync.start] using ho
    · simp [Sync.start, ht] at ho
  have hspares : ∀ t, ∀ op ∈ (Sync.start idle count).task t, ¬ op.OnSemaphore n := by
    intro t op ho
    rw [htask t op ho]
    exact id
  have haccounts : Accounts ((Sync.start idle count).count (.user n)) (.user n)
      (Sync.start idle count) := Accounts.start idle count
  refine ⟨haccounts, ?_, fun t ho ↦ hspares t _ ho rfl,
    fun t _ ↦ hspares t, fun t ho ↦ absurd rfl (hspares t _ ho),
    fun t ho ↦ absurd rfl (hspares t _ ho), fun t ht ↦ (by cases ht),
    fun t op ho hon ↦ absurd hon (hspares t op ho)⟩
  have hsum : (team.map fun t ↦ asked t + dues n ((Sync.start idle count).task t)).sum = 0 := by
    simp [hasked, fun t ↦ dues_spared (hspares t)]
  rw [hsum]
  show (count n : Int) = count n + 0
  omega

end Ledger

end AlienOS.Kernel
