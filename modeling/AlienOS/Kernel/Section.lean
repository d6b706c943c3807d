import AlienOS.Kernel.Chronicle
import AlienOS.Kernel.Filing

/-!
# Section — one body of the heap at a time

As long as `clean_zombies` begins to free with `free_list_lock` free, the bodies of the heap follow one
another, whoever is preempted in the middle of one.
-/

open AlienOS.Lib

namespace AlienOS.Kernel

/-- The thread that has started a body and not finished it. -/
def insideOf : List Event → Option Tid
  | [] => none
  | .heapStarted t :: _ => some t
  | .heapEnded _ :: _ => none
  | _ :: tr => insideOf tr

/-- A body starts only when the one before it is over, and ends in the thread that started it. -/
def Alternates : List Event → Prop
  | [] => True
  | .heapStarted _ :: tr => insideOf tr = none ∧ Alternates tr
  | .heapEnded t :: tr => insideOf tr = some t ∧ Alternates tr
  | _ :: tr => Alternates tr

/-- In the middle of a body. -/
def InBody : List Op → Prop
  | .heapEnd _ :: _ => True
  | _ => False

/-- Not in the middle of a heap operation. -/
structure Outside (ops : List Op) : Prop where
  shaped : Shaped ops
  away : phaseOf .freeListLock ops = .away
  out : heapPhase ops ≠ .held

/-- What the handler returns to, if it is running. -/
def undone : List Op → List Op
  | [] => []
  | .cleanZombies _ _ :: ops => ops
  | _ :: ops => undone ops

/-- The handler frees nobody, and whoever is in a heap operation has the lock. -/
structure State.Tended (s : State) : Prop where
  apart : ∀ zombie entered, .cleanZombies zombie entered ∉ strip s.stack
  guarded : Sync.Guarded .freeListLock s.sync
  holds : ∀ t, heapPhase (s.sync.task t) = .held → s.holder .freeListLock = some t

/-- The handler frees a zombie, and everybody is outside. -/
structure State.Reaping (s : State) : Prop where
  handler : ∃ zombie entered, .cleanZombies zombie entered ∈ strip s.stack
  lock : s.LockIs (heapPhase s.stack)
  others : ∀ t, t ≠ s.currentThread → Outside (s.sync.task t)
  below : Outside (strip (undone s.stack))

structure Sections (s : State) : Prop where
  alternates : Alternates s.trace
  inside : ∀ t, insideOf s.trace = some t ↔ InBody (s.sync.task t)
  strangers : ∀ t, t ∉ threadsOf s.trace → t ≠ s.idleThread → Outside (s.sync.task t)
  lock : s.Tended ∨ s.Reaping

section

variable {creates : Prop} {s s' : State} {a : Action} {op : Op} {ops rest : List Op} {t x : Tid}
  {tr tr' : List Event}

/-! ## The history -/

theorem insideOf_filter (tr : List Event) : insideOf (tr.filter Event.IsLife) = insideOf tr := by
  induction tr with
  | nil => rfl
  | cons e tr ih =>
    cases e with
    | added i u => cases i <;> simp [List.filter_cons, Event.IsLife, insideOf, ih]
    | _ => simp [List.filter_cons, Event.IsLife, insideOf, ih]

theorem alternates_filter (tr : List Event) : Alternates (tr.filter Event.IsLife) ↔ Alternates tr := by
  induction tr with
  | nil => exact Iff.rfl
  | cons e tr ih =>
    cases e with
    | added i u => cases i <;> simp [List.filter_cons, Event.IsLife, Alternates, ih]
    | heapStarted u | heapEnded u =>
      simp [List.filter_cons, Event.IsLife, Alternates, ih, insideOf_filter]
    | _ => simp [List.filter_cons, Event.IsLife, Alternates, ih]

theorem insideOf_congr (h : tr'.filter Event.IsLife = tr.filter Event.IsLife) :
    insideOf tr' = insideOf tr := by
  rw [← insideOf_filter, h, insideOf_filter]

theorem alternates_congr (h : tr'.filter Event.IsLife = tr.filter Event.IsLife) :
    Alternates tr' ↔ Alternates tr := by
  rw [← alternates_filter, h, alternates_filter]

/-! ## Outside -/

theorem inBody_held (h : InBody ops) : heapPhase ops = .held := by
  cases ops with
  | nil => cases h
  | cons op ops => cases op <;> first | rfl | cases h

theorem Outside.not_inBody (h : Outside ops) : ¬ InBody ops := fun hb ↦ h.out (inBody_held hb)

theorem closed_not_held (h : Closed ops) : heapPhase ops ≠ .held := by
  rw [h.heapPhase]
  decide

/-- A lock that is free leaves everybody outside. -/
theorem State.Tended.outside {node : Option Tid} (h : s.Tended) (hp : Placed s node)
    (hl : s.LockIs .free) (t : Tid) :
    Outside (s.sync.task t) := by
  have hholder : s.holder .freeListLock = none := hl.holder
  obtain ⟨hshape, owner, htoken⟩ := h.guarded
  have hqueue : (s.sync.lock .freeListLock).queue = [] := by
    have hq := hl.queue
    rw [hp.rep.head, ← State.sync_queue] at hq
    exact List.head?_eq_none_iff.mp hq
  have hcount : (s.sync.lock .freeListLock).count = 1 := hl.count
  have howner : owner = none := by
    have hc := htoken.count_eq
    rw [hcount, hqueue] at hc
    by_contra hn
    rw [if_neg hn] at hc
    simp at hc
  subst howner
  refine ⟨hshape t, ?_, fun hh ↦ ?_⟩
  · cases hph : phaseOf .freeListLock (s.sync.task t) with
    | away => rfl
    | waiting =>
      rcases htoken.waiting t hph with hm | hn
      · rw [hqueue] at hm
        cases hm
      · cases hn
    | setHolder => cases htoken.setHolder t hph
    | setCount =>
      have hh : s.holder .freeListLock = some t := htoken.setCount t hph
      rw [hholder] at hh
      cases hh
    | increment =>
      have hh : s.holder .freeListLock = some t := htoken.increment t hph
      rw [hholder] at hh
      cases hh
  · have hh := h.holds t hh
    rw [hholder] at hh
    cases hh

/-- And if everybody is outside and the lock is free, it is nobody's. -/
theorem tended_of_outside {node : Option Tid} (hp : Placed s node) (hl : s.LockIs .free)
    (hno : ∀ zombie entered, .cleanZombies zombie entered ∉ strip s.stack)
    (ho : ∀ t, Outside (s.sync.task t)) : s.Tended := by
  have hholder : (s.sync.lock .freeListLock).holder = none := hl.holder
  have hcount : (s.sync.lock .freeListLock).count = 1 := hl.count
  have hqueue : (s.sync.lock .freeListLock).queue = [] := by
    have hq := hl.queue
    rw [hp.rep.head, ← State.sync_queue] at hq
    exact List.head?_eq_none_iff.mp hq
  have haway : ∀ t, (s.sync.lock .freeListLock).phase t = .away := fun t ↦ (ho t).away
  refine ⟨hno, ⟨fun t ↦ (ho t).shaped, none, ?_⟩, fun t hh ↦ absurd hh (ho t).out⟩
  constructor <;> simp [hholder, hcount, hqueue, haway]

/-- The lock is left alone, and who changes what is before it is outside. -/
theorem State.Tended.retask (h : s.Tended)
    (hno : ∀ zombie entered, .cleanZombies zombie entered ∉ strip s'.stack)
    (hlock : Sync.lockWith .freeListLock s'.sync = Sync.lockWith .freeListLock s.sync)
    (ht : ∀ t, s'.sync.task t = s.sync.task t ∨ Outside (s.sync.task t) ∧ Outside (s'.sync.task t)) :
    s'.Tended := by
  obtain ⟨hshape, owner, htoken⟩ := h.guarded
  have hholder : s'.holder .freeListLock = s.holder .freeListLock :=
    congrArg Lock.holder (congrFun hlock fun _ ↦ .away)
  have hsame : s'.sync.lock .freeListLock = s.sync.lock .freeListLock := by
    have hphase : (s'.sync.lock .freeListLock).phase = (s.sync.lock .freeListLock).phase := by
      funext t
      show phaseOf _ _ = phaseOf _ _
      rcases ht t with he | ⟨ho, ho'⟩
      · rw [he]
      · rw [ho.away, ho'.away]
    calc s'.sync.lock .freeListLock
      _ = Sync.lockWith .freeListLock s'.sync (s.sync.lock .freeListLock).phase := by
        rw [← hphase, Sync.lockWith_self]
      _ = Sync.lockWith .freeListLock s.sync (s.sync.lock .freeListLock).phase := congrFun hlock _
      _ = s.sync.lock .freeListLock := Sync.lockWith_self _
  refine ⟨hno, ⟨fun t ↦ ?_, owner, ?_⟩, fun t hh ↦ ?_⟩
  · rcases ht t with he | ⟨-, ho'⟩
    · rw [he]
      exact hshape t
    · exact ho'.shaped
  · rw [hsame]
    exact htoken
  · rw [hholder]
    rcases ht t with he | ⟨-, ho'⟩
    · rw [he] at hh
      exact h.holds t hh
    · exact absurd hh ho'.out

/-! ## Stacks -/

theorem Errand.strip_apart {idle : Tid} (h : Errand creates idle t ops) (zombie : Option Tid)
    (e : ThreadStatus) :
    .cleanZombies zombie e ∉ strip ops :=
  fun hm ↦ h.not_handler zombie e ((List.dropWhile_sublist _).subset hm)

/-- Interrupt handling does not come in the middle of an operation on the heap. -/
theorem Errand.skip_not_held {idle : Tid} : ∀ {ops : List Op} {op : Op},
    Errand creates idle t (op :: ops) →
    op.IsSkip → heapPhase (strip (op :: ops)) ≠ .held := by
  intro ops
  induction ops with
  | nil =>
    intro op h hop
    rw [strip_skip hop]
    decide
  | cons o ops ih =>
    intro op h hop
    rw [strip_skip hop]
    by_cases ho : o.IsSkip = true
    · exact ih h.tail ho
    · rw [strip_of_not_skip (by simpa using ho)]
      cases h.head with
      | wait => simp [heapPhase]
      | fits hf =>
        cases hf with
        | plain hp hcl => exact closed_not_held hcl
        | sleep => cases ho rfl
        | heap hf => cases hf <;> cases hop
        | make hx =>
          rw [skip_node hop] at hx
          cases hx

theorem Errand.closed_not_held {idle : Tid} (h : Errand creates idle t ops) (hc : Closed ops) :
    heapPhase (strip ops) ≠ .held := by
  cases ops with
  | nil => decide
  | cons op ops =>
    by_cases hop : op.IsSkip = true
    · exact h.skip_not_held hop
    · rw [strip_of_not_skip (by simpa using hop)]
      exact Kernel.closed_not_held hc

theorem undone_append {left : List Op} {zombie : Option Tid} {entered : ThreadStatus}
    (h : ∀ op ∈ left, op ≠ .threadYield ∧ ∀ zombie e, op ≠ .cleanZombies zombie e) :
    undone (left ++ .cleanZombies zombie entered :: ops) = ops := by
  induction left with
  | nil => rfl
  | cons o left ih =>
    have ho := (h o List.mem_cons_self).2
    have hrest := ih fun p hp ↦ h p (List.mem_cons_of_mem _ hp)
    cases o with
    | cleanZombies z e => exact absurd rfl (ho z e)
    | _ => exact hrest

/-! ## One operation -/

/-- An operation that starts a body if it is `heapStart`, and ends one if it is `heapEnd`. -/
theorem Sections.turns (h : Sections s) (hlife : s'.trace.filter Event.IsLife =
      op.life s.currentThread ++ s.trace.filter Event.IsLife)
    (htask : ∀ t, t ≠ s.currentThread → s'.sync.task t = s.sync.task t)
    (hcur : s.sync.task s.currentThread = op :: ops)
    (hbody : InBody (s'.sync.task s.currentThread) ↔ op = .heapStart)
    (hstart : op = .heapStart → ∀ t, t ≠ s.currentThread → ¬ InBody (s.sync.task t)) :
    Alternates s'.trace ∧ ∀ t, insideOf s'.trace = some t ↔ InBody (s'.sync.task t) := by
  rw [← alternates_filter, ← insideOf_filter, hlife]
  have halt := (alternates_filter s.trace).mpr h.alternates
  have hin := insideOf_filter s.trace
  by_cases hs : op = .heapStart
  · subst hs
    have hnone : insideOf s.trace = none := by
      cases hi : insideOf s.trace with
      | none => rfl
      | some t =>
        have hb := (h.inside t).mp hi
        by_cases htc : t = s.currentThread
        · subst htc
          rw [hcur] at hb
          cases hb
        · exact absurd hb (hstart rfl t htc)
    refine ⟨⟨hin.trans hnone, halt⟩, fun t ↦ ?_⟩
    by_cases htc : t = s.currentThread
    · subst htc
      exact iff_of_true rfl (hbody.mpr rfl)
    · rw [htask t htc]
      refine iff_of_false (fun he ↦ htc (Option.some.inj he).symm) fun hb ↦ ?_
      have hi := (h.inside t).mpr hb
      rw [hnone] at hi
      cases hi
  · have hnb : ¬ InBody (s'.sync.task s.currentThread) := fun hb ↦ hs (hbody.mp hb)
    by_cases he : ∃ freed, op = .heapEnd freed
    · obtain ⟨freed, rfl⟩ := he
      have hsome : insideOf s.trace = some s.currentThread := by
        rw [h.inside, hcur]
        trivial
      refine ⟨⟨hin.trans hsome, halt⟩, fun t ↦ iff_of_false (fun hn ↦ by cases hn) fun hb ↦ ?_⟩
      by_cases htc : t = s.currentThread
      · subst htc
        exact hnb hb
      · rw [htask t htc, ← h.inside, hsome] at hb
        exact htc (Option.some.inj hb).symm
    · have hnone : ∀ tr, insideOf (op.life s.currentThread ++ tr) = insideOf tr ∧
          (Alternates (op.life s.currentThread ++ tr) ↔ Alternates tr) := by
        intro tr
        cases op with
        | heapStart => exact absurd rfl hs
        | heapEnd freed => exact absurd ⟨freed, rfl⟩ he
        | _ => exact ⟨rfl, Iff.rfl⟩
      refine ⟨(hnone _).2.mpr halt, fun t ↦ ?_⟩
      rw [(hnone _).1, hin, h.inside]
      by_cases htc : t = s.currentThread
      · subst htc
        refine iff_of_false (fun hb ↦ ?_) hnb
        rw [hcur] at hb
        cases op with
        | heapEnd freed => exact he ⟨freed, rfl⟩
        | _ => exact hb
      · rw [htask t htc]

theorem Sections.tended (h : Sections s)
    (hno : ∀ zombie entered, .cleanZombies zombie entered ∉ strip s.stack) :
    s.Tended := by
  rcases h.lock with ht | hr
  · exact ht
  · obtain ⟨zombie, entered, hm⟩ := hr.handler
    exact absurd hm (hno zombie entered)

/-- What the current thread has before it after an operation. -/
theorem Pursues.acts_held (hw : Pursues creates s (op :: ops)) (hst : s.stack = op :: ops)
    (hc : op.IsCalm)
    (hskip : op.IsSkip = false) (hstack : s'.stack = s.leaves op ++ ops)
    (hholds : heapPhase (op :: ops) = .held → s.holder .freeListLock = some s.currentThread)
    (hs : next s .exec = .ok s') :
    (heapPhase (strip s'.stack) = .held → s'.holder .freeListLock = some s.currentThread) ∧
      (InBody (strip s'.stack) ↔ op = .heapStart) := by
  have hout : heapPhase (strip s'.stack) ≠ .held → op ≠ .heapStart →
      (heapPhase (strip s'.stack) = .held → s'.holder .freeListLock = some s.currentThread) ∧
        (InBody (strip s'.stack) ↔ op = .heapStart) :=
    fun hn hop ↦ ⟨fun hh ↦ absurd hh hn, iff_of_false (fun hb ↦ hn (inBody_held hb)) hop⟩
  have herr := (hw.errand.leaves hc s).1
  rw [← hstack] at herr
  cases hw.errand.head with
  | wait => cases hskip
  | fits hf =>
    cases hf with
    | plain hp hcl =>
      apply hout
      · apply herr.closed_not_held
        rw [hstack]
        exact leaves_closed s hp hcl
      · rintro rfl
        cases hp
    | sleep rest =>
      apply hout _ (by simp)
      have htail := hw.errand.tail
      rw [hstack]
      exact htail.skip_not_held rfl
    | heap hf hfree =>
      cases hf with
      | acquire rest =>
        simp only [next, hst, exec, Except.ok.injEq] at hs
        by_cases hh : s.holder .freeListLock = some s.currentThread
        · have hs' : s'.holder .freeListLock = some s.currentThread := by
            subst hs
            unfold mutexAcquire
            rw [if_pos hh]
            exact hh
          have hleaves : s.leaves (.mutexAcquire .freeListLock) = [] := if_pos hh
          rw [hstack, hleaves]
          exact ⟨fun _ ↦ hs', iff_of_false id (by simp)⟩
        · apply hout _ (by simp)
          have hmidway :
              heapPhase (strip (.mutexAcquired .freeListLock s.interrupts :: .heapStart :: rest)) ≠
              .held := by
            rw [strip_of_not_skip rfl]
            simp [heapPhase]
          rw [hstack, State.leaves, if_neg hh]
          split
          · show heapPhase (strip (.threadYield :: .interruptRestore false :: _)) ≠ .held
            rw [strip_yield]
            exact hmidway
          · exact hmidway
      | acquired enabled rest =>
        simp only [next, hst, exec, Except.ok.injEq] at hs
        subst hs
        exact ⟨fun _ ↦ by simp [mutexAcquired, State.log], iff_of_false id (by simp)⟩
      | start freed rest =>
        simp only [next, hst, exec, Except.ok.injEq] at hs
        subst hs
        exact ⟨fun _ ↦ hholds rfl, iff_of_true trivial rfl⟩
      | finish freed rest =>
        simp only [next, hst, exec, Except.ok.injEq] at hs
        subst hs
        exact ⟨fun _ ↦ hholds rfl, iff_of_false id (by simp)⟩
      | release hcl =>
        apply hout _ (by simp)
        apply herr.closed_not_held
        rw [hstack]
        exact hcl
    | make hx =>
      rw [calm_node hc] at hx
      cases hx
    | _ => cases hc

theorem Sections.act (h : Sections s) (hs : Sound creates s) (hst : s.stack = op :: ops)
    (hw : Pursues creates s (op :: ops)) (hrun : s.status s.currentThread = .running) (hc : op.IsCalm)
    (hskip : op.IsSkip = false) (hn : next s .exec = .ok s') : Sections s' := by
  have hstrip : strip s.stack = op :: ops := by
    rw [hst]
    exact strip_of_not_skip hskip ops
  have hno : ∀ zombie entered, .cleanZombies zombie entered ∉ strip s.stack := by
    rw [hstrip]
    exact hw.errand.not_handler
  have ht := h.tended hno
  obtain ⟨ha, hk⟩ := hs.acted hst hw hrun hc hskip hn
  have hp := hw.placed_none (.cons (calm_insert hc))
  have hco := Sound.comes hst hw.errand hp hrun hc hskip (not_misused hn)
  have hkeep := ha.keeps
  have hcurrent : s'.currentThread = s.currentThread := hkeep.current
  have hstack : s'.stack = s.leaves op ++ ops := hkeep.stack
  have htask : s'.sync.task = Function.update s.sync.task s.currentThread (strip s'.stack) :=
    sync_task hcurrent hkeep.esp
  have hcur : s.sync.task s.currentThread = op :: ops := (sync_task_current s).trans hstrip
  have hself : s'.sync.task s.currentThread = strip s'.stack := by
    rw [htask, Function.update_self]
  have hothers : ∀ t, t ≠ s.currentThread → s'.sync.task t = s.sync.task t := by
    intro t htc
    rw [htask, Function.update_of_ne htc]
  obtain ⟨hheld, hbody⟩ := hw.acts_held hst hc hskip hstack (fun hh ↦ ht.holds _ (by rwa [hcur])) hn
  have hstep : Sync.Step s.currentThread (.exec op) s.sync s'.sync := by
    obtain ⟨v, hv, hsync⟩ := ha.sync
    rw [hsync]
    refine .exec s.interrupts (fun q ↦ ?_) hcur hco.holds hv
    rw [State.sync_queue]
    exact hp.free hrun _
  obtain ⟨halt, hin⟩ := h.turns hkeep.life hothers hcur (by rw [hself]; exact hbody) (by
    rintro rfl t htc hb
    have hholder := ht.holds t (inBody_held hb)
    rw [ht.holds s.currentThread (by rw [hcur]; rfl)] at hholder
    exact htc (Option.some.inj hholder).symm)
  refine ⟨halt, hin, fun t htn hti ↦ ?_,
    .inl ⟨fun zombie entered ↦ ?_, ht.guarded.step hstep, fun t hh ↦ ?_⟩⟩
  · rw [hk.threads] at htn
    rw [hk.idle] at hti
    rw [hothers t (hp.standing.outside htn hti).1]
    exact h.strangers t htn hti
  · rw [hstack]
    exact (hw.errand.leaves hc s).1.strip_apart zombie entered
  · by_cases htc : t = s.currentThread
    · subst htc
      rw [hself] at hh
      exact hheld hh
    · rw [hothers t htc] at hh
      have hholder := ht.holds t hh
      obtain ⟨hshape, owner, htoken⟩ := ht.guarded
      rcases hstep.moves hshape htoken with hsame | hmoves
      · exact (congrArg Lock.holder hsame).trans hholder
      · exact (htoken.keeps hmoves htc hholder).1

/-- Nothing happens to the lock or in a body. -/
theorem Sections.retask (h : Sections s)
    (hno : ∀ zombie entered, .cleanZombies zombie entered ∉ strip s.stack)
    (hno' : ∀ zombie entered, .cleanZombies zombie entered ∉ strip s'.stack)
    (hlock : Sync.lockWith .freeListLock s'.sync = Sync.lockWith .freeListLock s.sync)
    (hlife : insideOf s'.trace = insideOf s.trace ∧ (Alternates s'.trace ↔ Alternates s.trace))
    (hthreads : ∀ t, t ∈ threadsOf s.trace → t ∈ threadsOf s'.trace)
    (hidle : s'.idleThread = s.idleThread)
    (ht : ∀ t, s'.sync.task t = s.sync.task t ∨ Outside (s.sync.task t) ∧ Outside (s'.sync.task t)) :
    Sections s' := by
  refine ⟨hlife.2.mpr h.alternates, fun t ↦ ?_, fun t htn hti ↦ ?_,
    .inl ((h.tended hno).retask hno' hlock ht)⟩
  · rw [hlife.1, h.inside]
    rcases ht t with he | ⟨ho, ho'⟩
    · rw [he]
    · exact iff_of_false ho.not_inBody ho'.not_inBody
  · rw [hidle] at hti
    rcases ht t with he | ⟨-, ho'⟩
    · rw [he]
      exact h.strangers t (fun hm ↦ htn (hthreads t hm)) hti
    · exact ho'

/-- What the synchronisation objects do not see. -/
theorem Sections.unseen (h : Sections s)
    (hno : ∀ zombie entered, .cleanZombies zombie entered ∉ strip s.stack)
    (hno' : ∀ zombie entered, .cleanZombies zombie entered ∉ strip s'.stack) (hsync : s'.sync = s.sync)
    (hlife : insideOf s'.trace = insideOf s.trace ∧ (Alternates s'.trace ↔ Alternates s.trace))
    (hk : Kept s s') : Sections s' := by
  refine h.retask hno hno' (by rw [hsync]) hlife (fun t ht ↦ ?_) hk.idle fun t ↦ .inl (by rw [hsync])
  rw [hk.threads]
  exact ht

theorem interrupted_sync (lists : Links ListId Tid) (hstrip : strip ops = strip s.stack) :
    (({ s with stack := ops } : State).interrupted lists).sync = s.sync := by
  ext1 <;> try rfl
  · funext t
    by_cases ht : t = s.currentThread
    · subst ht
      simp only [State.sync, State.stackOf, State.interrupted, State.entered, if_true]
      rw [strip_skip rfl, strip_skip rfl]
      exact hstrip
    · simp [State.sync, State.stackOf, State.interrupted, State.entered, ht]
  · exact sync_wakeEvents _ _

theorem Leaves.sync {entered : ThreadStatus} {enabled : Bool} (hl : Leaves s entered ops s')
    (hst : s.stack = .cleanZombies none entered :: .iret enabled :: ops)
    (hesp : s.esp s.currentThread = .iret enabled :: ops) : s'.sync = s.sync := by
  have hback : strip (s.esp s.currentThread) = strip s.stack := by
    rw [hst, hesp, strip_skip (o := .cleanZombies none entered) rfl]
  cases hl with
  | stays =>
    ext1 <;> try rfl
    funext t
    by_cases ht : t = s.currentThread
    · subst ht
      simp [State.sync, State.stackOf, hback]
    · simp [State.sync, State.stackOf, ht]
  | @switches nxt lists hins hp' hne =>
    ext1 <;> try rfl
    · funext t
      simp only [State.sync, State.stackOf, State.switched]
      by_cases ht : t = s.currentThread
      · subst ht
        simp [hne.symm, hback]
      · by_cases hn : t = nxt
        · simp [hn, hne]
        · simp [hn, ht]
    · exact sync_switchEvents _ _ _

theorem life_switchEvents (next : Tid) : insideOf (s.switchEvents next ++ s.trace) = insideOf s.trace ∧
    (Alternates (s.switchEvents next ++ s.trace) ↔ Alternates s.trace) := by
  unfold State.switchEvents
  rw [List.append_assoc]
  cases s.filedOn <;> split <;> exact ⟨rfl, Iff.rfl⟩

/-! ## The zombies -/

variable {zombie : Option Tid} {entered : ThreadStatus} {enabled : Bool} {left : List Op}

theorem heapFits_not_skip (h : op.HeapFits rest) : op.IsSkip = false := by
  cases h <;> rfl

theorem strip_handler : strip (.cleanZombies zombie entered :: .iret enabled :: ops) = strip ops := by
  rw [strip_skip rfl, strip_skip rfl]

/-- The handler begins to free a zombie. -/
theorem Sections.reap (h : Sections s)
    (hst : s.stack = .cleanZombies (some x) entered :: .iret enabled :: ops)
    (hx : (listsOf s.trace .zombieThreads).head? = some x) (hw : Pursues creates s ops)
    (hl : s.LockIs .free)
    (hn : next s .exec = .ok s') : Sections s' := by
  have hp := hw.placed
  have hbelow : strip s.stack = strip ops := by rw [hst, strip_handler]
  have hno : ∀ zombie entered, .cleanZombies zombie entered ∉ strip s.stack := by
    rw [hbelow]
    exact hw.errand.strip_apart
  have hall := (h.tended hno).outside hp hl
  have hexec : cleanZombies (some x) entered { s with stack := .iret enabled :: ops } = .ok s' := by
    simp only [next, hst] at hn
    exact hn
  obtain ⟨xs, hL, hmem, hdead, hxi, hxc⟩ := hp.first_zombie hx
  obtain ⟨lists, all, rfl, -, hp', -⟩ := cleanZombies_reap (hp.restack (.iret enabled :: ops)) hL hexec
  have hcur : s.sync.task s.currentThread = strip ops := (sync_task_current s).trans hbelow
  refine ⟨h.alternates, fun t ↦ ?_, fun t htn hti ↦ ?_,
    .inr ⟨⟨xs.head?, entered, ?_⟩, ⟨?_, hl.count, hl.holder, ?_⟩,
    fun t htc ↦ ?_, ?_⟩⟩
  · refine (h.inside t).trans (iff_of_false (hall t).not_inBody fun hb ↦ ?_)
    by_cases htc : t = s.currentThread
    · subst htc
      simp [State.sync, State.stackOf, State.unlinked, kfreeOps, strip, Op.IsSkip, InBody] at hb
    · apply (hall t).not_inBody
      simpa [State.sync, State.stackOf, State.unlinked, htc] using hb
  · have htc : t ≠ s.currentThread := by
      rintro rfl
      refine hp.standing.cur_mem.elim hti fun hm ↦ htn ?_
      exact (threadsOf_reaped x s.trace s.currentThread).mpr ⟨hm, hxc.symm⟩
    have ho := hall t
    simpa [State.sync, State.stackOf, State.unlinked, htc] using ho
  · simp [State.unlinked, kfreeOps, strip, Op.IsSkip]
  · have hq := hl.queue
    rw [hp.rep.head] at hq
    rw [hp'.rep.head]
    show (listsOf (.reaped x :: .removed .zombieThreads x :: s.trace) _).head? = none
    rwa [listsOf_other _ (by simp) (by simp), listsOf_other _ (by simp) (by simp)]
  · intro hh
    cases hh
  · have htc : t ≠ s.currentThread := htc
    have ho := hall t
    simpa [State.sync, State.stackOf, State.unlinked, htc] using ho
  · have ho := hall s.currentThread
    rw [hcur] at ho
    exact ho

/-- The two calls of `kfree` start and end their bodies with everybody else outside. -/
theorem Sections.kfree (h : Sections s)
    (hst : s.stack = left ++ .cleanZombies zombie entered :: .iret enabled :: ops)
    (hr : Reaps x left) (hw : Pursues creates s ops) (hi : s.interrupts = false)
    (hk : Kept s s') (hn : next s .exec = .ok s') : Sections s' := by
  obtain ⟨op, rest, hnext⟩ := hr.next (.cleanZombies zombie entered :: .iret enabled :: ops)
      (.of_skip rfl)
  have hfits := hnext.fits
  have hundone : undone s.stack = .iret enabled :: ops := by
    rw [hst]
    exact undone_append hr.not_handler
  rw [hnext.eq, List.cons_append] at hst
  have hstrip : strip s.stack = s.stack := by
    rw [hst]
    exact strip_of_not_skip (heapFits_not_skip hfits) _
  have hcz : .cleanZombies zombie entered ∈ strip s.stack := by
    rw [hstrip, hst]
    simp
  have hreap : s.Reaping := by
    rcases h.lock with ht | hr
    · exact absurd hcz (ht.apart zombie entered)
    · exact hr
  have hbelow : Outside (strip ops) := by
    have hb := hreap.below
    rwa [hundone, strip_skip rfl] at hb
  have hexec : exec op { s with stack := rest ++ .cleanZombies zombie entered :: .iret enabled :: ops } = .ok s' := by
    simp only [next, hst] at hn
    exact hn
  obtain ⟨s₁, hrun, hh⟩ := exec_heap hreap.lock hst hfits
  rw [hexec] at hrun
  cases hrun
  have ha := hh.alike
  have hlife := heap_life hfits hexec
  have hcurrent := ha.current
  have hcur : s.sync.task s.currentThread =
      op :: (rest ++ .cleanZombies zombie entered :: .iret enabled :: ops) := by
    rw [sync_task_current, hstrip, hst]
  have htask := sync_task hcurrent ha.esp
  have hself : s'.sync.task s.currentThread = strip s'.stack := by rw [htask, Function.update_self]
  have hothers : ∀ t, t ≠ s.currentThread → s'.sync.task t = s.sync.task t := by
    intro t htc
    rw [htask, Function.update_of_ne htc]
  have hstack : s'.stack = (op.heapLeaves false ++ rest) ++ .cleanZombies zombie entered :: .iret enabled :: ops := by
    rw [hh.stack, hi, List.append_assoc]
  -- after the last release only the handler is left, otherwise a call of `kfree` comes first
  have hstripped : op.heapLeaves false ++ rest = [] ∧ strip s'.stack = strip ops ∨
      Reaps x (op.heapLeaves false ++ rest) ∧ strip s'.stack = s'.stack := by
    rw [hstack]
    rcases hnext.left with hnil | hr'
    · refine .inl ⟨hnil, ?_⟩
      rw [hnil]
      exact strip_handler
    · refine .inr ⟨hr', ?_⟩
      obtain ⟨o, rest', hnext'⟩ := hr'.next [] .nil
      rw [hnext'.eq]
      exact strip_of_not_skip (heapFits_not_skip hnext'.fits) _
  have hbody : InBody (strip s'.stack) ↔ op = .heapStart := by
    rcases hstripped with ⟨hnil, hs⟩ | ⟨hr', hs⟩
    · rw [hs]
      refine iff_of_false hbelow.not_inBody ?_
      rintro rfl
      obtain rfl : rest = [] := hnil
      cases hfits
    · rw [hs, hh.stack]
      generalize rest ++ Op.cleanZombies zombie entered :: .iret enabled :: ops = r at hfits ⊢
      cases hfits with
      | start => exact iff_of_true trivial rfl
      | release hc => exact iff_of_false (fun hb ↦ closed_not_held hc (inBody_held hb)) (by simp)
      | _ => exact iff_of_false id (by simp)
  obtain ⟨halt, hin⟩ := h.turns hlife hothers hcur (by rw [hself]; exact hbody)
    fun _ t htc ↦ (hreap.others t htc).not_inBody
  have hlock := hh.lock
  refine ⟨halt, hin, fun t htn hti ↦ ?_, ?_⟩
  · rw [hk.threads] at htn
    rw [hk.idle] at hti
    rw [hothers t (hw.placed.standing.outside htn hti).1]
    exact h.strangers t htn hti
  · rcases hstripped with ⟨hnil, hs⟩ | ⟨hr', hs⟩
    · rw [hnil] at hstack
      rw [hstack] at hlock
      refine .inl (tended_of_outside (ha.placed hw.placed) hlock (by rw [hs]; exact hw.errand.strip_apart)
        fun t ↦ ?_)
      by_cases htc : t = s.currentThread
      · subst htc
        rw [hself, hs]
        exact hbelow
      · rw [hothers t htc]
        exact hreap.others t htc
    · refine .inr ⟨⟨zombie, entered, ?_⟩, hlock, fun t htc ↦ ?_, ?_⟩
      · rw [hs, hstack]
        simp
      · rw [hcurrent] at htc
        rw [hothers t htc]
        exact hreap.others t htc
      · rw [hstack, undone_append hr'.not_handler, strip_skip rfl]
        exact hbelow

/-! ## The other steps -/

theorem outside_of_fresh (hf : Fresh ops) (hh : heapPhase ops ≠ .held) : Outside ops :=
  ⟨hf.shaped, hf.phaseOf _, hh⟩

theorem outside_nil : Outside [] := outside_of_fresh (by simp [Fresh]) (by decide)

theorem not_held_cons (h : op.InHeap = false) : heapPhase (op :: ops) ≠ .held := by
  intro hh
  cases op with
  | mutexRelease m =>
    cases m with
    | freeListLock => cases h
    | _ => cases hh
  | mutexAcquired m b => cases m <;> cases hh
  | heapStart => cases h
  | heapEnd => cases h
  | _ => cases hh

/-- Making a thread is no operation on the heap any more. -/
theorem outside_insert (h : ops <:+ threadInsertOps x) : Outside (strip ops) := by
  have hall : ∀ o ∈ ops, (o.IsMidway = false ∧ o.IsInner = false) ∧ o.IsSkip = false ∧
        o.InHeap = false := by
    intro o ho
    have ho := h.subset ho
    simp only [threadInsertOps, threadListAddOps, List.mem_cons, List.mem_append, List.not_mem_nil,
      or_false] at ho
    rcases ho with rfl | rfl | (rfl | rfl | rfl | rfl) | rfl | rfl | (rfl | rfl | rfl | rfl) | rfl <;>
      exact ⟨⟨rfl, rfl⟩, rfl, rfl⟩
  cases ops with
  | nil => exact outside_nil
  | cons o os =>
    obtain ⟨-, hskip, hheap⟩ := hall o List.mem_cons_self
    rw [strip_of_not_skip hskip]
    exact outside_of_fresh (fun p hp ↦ (hall p hp).1) (not_held_cons hheap)

theorem restack_sync (b : Bool) (hstrip : strip ops = strip s.stack) :
    ({ s with stack := ops, interrupts := b } : State).sync = s.sync := by
  ext1 <;> try rfl
  funext t
  by_cases ht : t = s.currentThread
  · subst ht
    simp [State.sync, State.stackOf, hstrip]
  · simp [State.sync, State.stackOf, ht]

theorem Errand.insert_suffix {idle : Tid} (h : Errand creates idle t (op :: rest))
    (hat : InsertAt x op rest) :
    op :: rest <:+ threadInsertOps x := by
  have hnode := hat.node
  cases h.head with
  | wait => cases hnode
  | fits hf =>
    cases hf with
    | plain hp =>
      rw [calm_node (plain_calm hp)] at hnode
      cases hnode
    | heap hf =>
      rw [heapFits_node hf] at hnode
      cases hnode
    | make hx hsuf =>
      rw [hx] at hnode
      cases hnode
      exact hsuf
    | _ => cases hnode

/-- The current thread gets something else to do. -/
theorem Sections.moves (h : Sections s) (hw : Pursues creates s s.stack) (hold : Outside (strip s.stack))
    (hno : ∀ zombie entered, .cleanZombies zombie entered ∉ strip s'.stack)
    (hnew : Outside (strip s'.stack))
    (hcur : s'.currentThread = s.currentThread)
    (hlock : Sync.lockWith .freeListLock s'.sync = Sync.lockWith .freeListLock s.sync)
    (hlife : insideOf s'.trace = insideOf s.trace ∧ (Alternates s'.trace ↔ Alternates s.trace))
    (hthreads : ∀ t, t ∈ threadsOf s.trace → t ∈ threadsOf s'.trace)
    (hidle : s'.idleThread = s.idleThread)
    (hesp : ∀ t, t ≠ s.currentThread → s'.esp t = s.esp t ∨ Outside (s.sync.task t) ∧
      Outside (strip (s'.esp t))) :
    Sections s' := by
  refine h.retask hw.errand.strip_apart hno hlock hlife hthreads hidle fun t ↦ ?_
  by_cases ht : t = s.currentThread
  · subst ht
    have hself : s'.sync.task s.currentThread = strip s'.stack := by
      simp [State.sync, State.stackOf, hcur]
    rw [sync_task_current, hself]
    exact .inr ⟨hold, hnew⟩
  · have hother : s'.sync.task t = strip (s'.esp t) := by simp [State.sync, State.stackOf, hcur, ht]
    rw [hother]
    refine (hesp t ht).imp_left fun he ↦ ?_
    rw [he]
    simp [State.sync, State.stackOf, ht]

/-- The step lemma. -/
theorem Faces.sections (hf : Faces creates s a) (hs : Sound creates s) (h : Sections s)
    (hl : Reclaims s a → s.LockIs .free) (hn : next s a = .ok s') : Sections s' := by
  cases hf with
  | act hst hw hrun hc hskip => exact h.act hs hst hw hrun hc hskip hn
  | @flag op ops b hst hop hrun he hp hw hnext =>
    rw [hnext] at hn
    cases hn
    have hstrip : strip ops = strip s.stack := by rw [hst, strip_skip hop]
    refine h.unseen (by rw [← hstrip]; exact he.strip_apart) he.strip_apart (restack_sync b hstrip)
      ⟨rfl, Iff.rfl⟩ ?_
    exact kept_stack b (by rw [hst, filter_node (skip_node hop)])
  | @enter _ ops he hp hw hnode hun heq hstrip =>
    obtain ⟨lists, hrun, -⟩ := isrIRQ0_enters hp hw hun
    rw [heq, hrun] at hn
    cases hn
    have hlife := wakeEvents_life ({ s with stack := ops } : State).dueNext s.trace
    refine h.unseen (by rw [← hstrip]; exact he.strip_apart) ?_ (interrupted_sync lists hstrip)
      ⟨insideOf_congr hlife, alternates_congr hlife⟩ (hs.births.kept_interrupted hp hnode lists)
    intro zombie entered
    have hs' : strip (({ s with stack := ops } : State).interrupted lists).stack = strip ops :=
        strip_handler
    rw [hs']
    exact he.strip_apart zombie entered
  | @dispatch enabled entered ops hst hesp hi hen hw hun =>
    obtain ⟨s₁, hrun, hleaves⟩ := hw.leaves hst hen hun
    rw [hn] at hrun
    cases hrun
    have hno : ∀ zombie entered, .cleanZombies zombie entered ∉ strip s.stack := by
      rw [hst, strip_handler]
      exact hw.errand.strip_apart
    have hk := hleaves.kept hs.births hw.placed hst hesp
    have hsync := hleaves.sync hst hesp
    cases hleaves with
    | stays =>
      refine h.unseen hno ?_ hsync ⟨rfl, Iff.rfl⟩ hk
      intro zombie entered
      show _ ∉ strip (s.esp s.currentThread)
      rw [hesp, strip_skip rfl]
      exact hw.errand.strip_apart zombie entered
    | @switches nxt lists hins hp' hne hmem =>
      refine h.unseen hno ?_ hsync (life_switchEvents nxt) hk
      obtain ⟨b, ops', hesp', he', -⟩ := hs.parked nxt hmem hne
      intro zombie entered
      show _ ∉ strip (s.esp nxt)
      rw [hesp', strip_skip rfl]
      exact he'.strip_apart zombie entered
  | @reap x enabled entered ops hst hx hesp hi hen hw hun hlock =>
    obtain ⟨-, -, -, -, -, hxc⟩ := hw.placed.first_zombie hx
    exact h.reap hst hx hw (hl ⟨rfl, x, entered, by rw [hst]; rfl, hxc⟩) hn
  | @kfree x enabled entered left ops hst hreaps hx hc hesp hi hen hw hun =>
    obtain ⟨s₁, op, rest, pushed, hrun, hnext⟩ := hreaps.frees hst (.of_skip rfl) hc hi (not_misused hn)
    rw [hn] at hrun
    cases hrun
    exact h.kfree hst hreaps hw hi (hnext.kept hx) hn
  | exit hst hw hrun =>
    have hexec : exec .threadExit { s with stack := [] } = .ok s' := by
      simp only [next, hst] at hn
      exact hn
    obtain ⟨-, hs'⟩ := threadExit_eq hexec
    subst hs'
    rw [← hst] at hw
    refine h.moves hw ?_ (fun _ _ hm ↦ ?_) ?_ rfl rfl ⟨rfl, Iff.rfl⟩
      (fun t ht ↦ ht) rfl fun t _ ↦ .inl rfl
    · rw [hst]
      exact outside_of_fresh (by simp [Fresh, strip, Op.IsSkip, Op.IsMidway, Op.IsInner])
        (not_held_cons rfl)
    · cases List.mem_singleton.mp hm
    · show Outside [.cpuIdleLoop]
      exact outside_of_fresh (by simp [Fresh, Op.IsMidway, Op.IsInner]) (not_held_cons rfl)
  | @alloc x hst hw hrun hfree hxi =>
    have hs' : s.allocating x = s' := by
      simpa only [next, hst, List.tail_cons, State.push, List.append_nil, State.allocating] using
        Except.ok.inj hn
    subst hs'
    have hidle := hw.errand.not_idle rfl
    have hcreates : creates := by
      cases hw.errand.head with
      | fits hf hc => exact hc rfl
    rw [← hst] at hw
    refine h.moves hw ?_ (errand_threadInsertOps hcreates hidle x).strip_apart
      (outside_insert List.suffix_rfl) rfl rfl
      ⟨rfl, Iff.rfl⟩ (fun t ht ↦ ht) rfl fun t _ ↦ .inl rfl
    rw [hst]
    exact outside_of_fresh (by simp [Fresh, strip, Op.IsSkip, Op.IsMidway, Op.IsInner])
      (not_held_cons rfl)
  | @insert op rest x hst hw hrun hat =>
    have hsuf := hw.errand.insert_suffix hat
    have hno := hw.errand.tail.strip_apart
    have hnew := outside_insert ((List.suffix_cons op rest).trans hsuf)
    obtain ⟨hxn, hxi, -, -⟩ := hw.outside hs.births hst hat
    have hold : Outside (strip s.stack) := by
      rw [hst]
      exact outside_insert hsuf
    rw [← hst] at hw
    cases hat with
    | init =>
      simp only [next, hst] at hn
      have hs' := internalThreadInit_eq hn
      subst hs'
      refine h.moves hw hold hno hnew rfl rfl ⟨rfl, Iff.rfl⟩ (fun t ht ↦ ht) rfl fun t _ ↦ ?_
      by_cases htx : t = x
      · subst htx
        refine .inr ⟨h.strangers t hxn hxi, ?_⟩
        show Outside (strip (Function.update s.esp t [.iret true] t))
        rw [Function.update_self]
        exact outside_nil
      · exact .inl (Function.update_of_ne htx _ _)
    | head list =>
      simp only [next, hst] at hn
      cases list with
      | readyThreads =>
        cases hn
        exact h.moves hw hold hno hnew rfl rfl ⟨rfl, Iff.rfl⟩ (fun t ht ↦ List.mem_cons_of_mem _ ht) rfl
          fun t _ ↦ .inl rfl
      | allThreads =>
        cases hn
        exact h.moves hw hold hno hnew rfl rfl ⟨rfl, Iff.rfl⟩ (fun t ht ↦ ht) rfl fun t _ ↦ .inl rfl
    | headPrev list | nodeNext list | nodePrev list =>
      simp only [next, hst] at hn
      cases list <;> cases hn <;>
        exact h.moves hw hold hno hnew rfl rfl ⟨rfl, Iff.rfl⟩ (fun t ht ↦ ht) rfl fun t _ ↦ .inl rfl
  | @call c hst hw hi hrun hc =>
    cases hn
    have herr : Errand _ s.idleThread s.currentThread c.ops := c.errand hi hc
    have hstack : (s.push c.ops).stack = c.ops := by simp [State.push, hst]
    rw [← hst] at hw
    refine h.moves hw ?_ ?_ ?_ rfl rfl ⟨rfl, Iff.rfl⟩ (fun t ht ↦ ht) rfl fun t _ ↦ .inl rfl
    · rw [hst]
      exact outside_nil
    · rw [hstack]
      exact herr.strip_apart
    · rw [hstack]
      exact outside_of_fresh c.fresh.strip (herr.closed_not_held c.closed)

end

section

variable {idle main t : Tid} {threads : List Tid} {s : State}

theorem insideOf_bootThreads {ts : List Tid} : ∀ {s : State}, insideOf s.trace = none →
    Alternates s.trace →
    insideOf (bootThreads ts s).trace = none ∧ Alternates (bootThreads ts s).trace := by
  induction ts with
  | nil => exact fun hi ha ↦ ⟨hi, ha⟩
  | cons u ts ih => exact fun hi ha ↦ ih (s := State.booted _ u) hi ha

theorem sections_boot (count : Nat → Nat) (hd : Distinct idle main threads) :
    Sections (boot idle main threads count) := by
  have hsync := boot_sync count hd
  have htask : ∀ t, Outside ((boot idle main threads count).sync.task t) := by
    intro t
    rw [hsync]
    by_cases ht : t = idle
    · subst ht
      have hloop : Outside [.cpuIdleLoop] :=
        outside_of_fresh (by simp [Fresh, Op.IsMidway, Op.IsInner]) (not_held_cons rfl)
      simpa [Sync.start] using hloop
    · simpa [Sync.start, ht] using outside_nil
  obtain ⟨hinside, halt⟩ : insideOf (boot idle main threads count).trace = none ∧
      Alternates (boot idle main threads count).trace :=
    insideOf_bootThreads (by rfl) (by simp [mainInit, Alternates])
  refine ⟨halt, fun t ↦ ?_, fun t _ _ ↦ htask t,
    .inl ⟨fun zombie entered ↦ ?_, ?_, fun t hh ↦ absurd hh (htask t).out⟩⟩
  · rw [hinside]
    exact iff_of_false (fun he ↦ by cases he) (htask t).not_inBody
  · have hst := (atRest_bootThreads (atRest_mainInit count hd.ne) (unborn_boot count hd)).stack
    rw [boot, hst]
    simp
  · rw [hsync]
    exact (Sync.locked_start _ idle count).guarded

/-- In every run in which no tick splits an insertion and `clean_zombies` begins to free only with
`free_list_lock` free, threads may be preempted in the middle of the heap, block on it, exit and be
reclaimed: its bodies never overlap, and the thread inside is the one whose program is there. -/
theorem heap_bodies_alternate (count : Nat → Nat) (hd : Distinct idle main threads)
    (hr : Run (fun s a ↦ Unsplit s a ∧ (Reclaims s a → s.LockIs .free))
      (boot idle main threads count) s) :
    Alternates s.trace ∧ ∀ t, insideOf s.trace = some t ↔ InBody (strip (s.stackOf t)) := by
  have hall : Sound True s ∧ Sections s := by
    apply hr.invariant (I := fun s ↦ Sound True s ∧ Sections s)
      ⟨sound_boot count hd, sections_boot count hd⟩
    rintro s a s' ⟨h, hsec⟩ ⟨hu, hl⟩ he hs
    have hf : Unhindered s a := fun hrec ↦ .inl (hl hrec)
    exact ⟨h.step hf hu (fun _ ↦ trivial) he hs,
      (h.faces hf hu (fun _ ↦ trivial) he).sections h hsec hl hs⟩
  exact ⟨hall.2.alternates, hall.2.inside⟩

end

instance (ops : List Op) : Decidable (InBody ops) :=
  match ops with
  | .heapEnd _ :: _ => isTrue trivial
  | [] => isFalse id
  | op :: _ => by cases op <;> unfold InBody <;> infer_instance

/-- `main` is preempted in a body of the heap, and 3 comes to wait for the lock. -/
theorem heap_bodies_alternate_wait : ∃ s, Run (fun s a ↦ Unsplit s a ∧ (Reclaims s a → s.LockIs .free))
    (boot 1 2 [3] fun _ ↦ 0) s ∧ s.status 3 = .blocked ∧ Alternates s.trace ∧
      insideOf s.trace = some 2 := by
  have hrun : ∃ s, Run (fun s a ↦ Unsplit s a ∧ (Reclaims s a → s.LockIs .free))
      (boot 1 2 [3] fun _ ↦ 0) s ∧
      decide (s.status 3 = .blocked ∧ InBody (strip (s.stackOf 2))) = true :=
    exists_run [.call .heap, .exec, .exec, .exec, .interrupt, .exec, .exec, .call .heap, .exec] _
      (by decide +kernel)
  obtain ⟨s, hr, hp⟩ := hrun
  obtain ⟨hblocked, hbody⟩ := of_decide_eq_true hp
  obtain ⟨halt, hinside⟩ := heap_bodies_alternate (fun _ ↦ 0) (by decide) hr
  exact ⟨s, hr, hblocked, halt, (hinside 2).mpr hbody⟩

end AlienOS.Kernel
