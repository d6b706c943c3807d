import AlienOS.Kernel.Errand
import AlienOS.Kernel.Turn
import AlienOS.Kernel.Making

/-!
# Sound — the scheduler in any run that frees zombies undisturbed

Unlike `Orderly` this allows the processor to be taken from a thread in the middle of anything: of a
heap operation, and of an insertion as long as the handler has nobody to switch to.
-/

open AlienOS.Lib

namespace AlienOS.Kernel

/-- The current thread has `free_list_lock` and takes it once more. -/
structure State.Nested (s : State) (p : HeapPhase) : Prop where
  holder : s.holder .freeListLock = some s.currentThread
  phase : p ≠ .granted
  depth : s.recursionCount .freeListLock - (if p = .held then 1 else 0) ≠ 0

/-- A call of `kfree` goes through on behalf of the current thread. -/
def State.Clear (s : State) (p : HeapPhase) : Prop := s.LockIs p ∨ s.Nested p

/-- As `Place`, with less said about the lock, and with the handler entered in the middle of an
insertion. -/
inductive Spot (s : State) (ops : List Op) : Prop where
  | thread (hst : s.stack = ops)
    (hs : s.status s.currentThread = .running ∨ ops.head? = some .threadYield)
  | resumed (enabled : Bool) (hst : s.stack = .iret enabled :: ops) (hi : s.interrupts = false)
    (hs : s.status s.currentThread = .running)
  | handler (enabled : Bool) (entered : ThreadStatus) (reap : List Op)
    (hst : s.stack = reap ++ .cleanZombies (listsOf s.trace .zombieThreads).head? entered ::
      .iret enabled :: ops)
    (he : s.esp s.currentThread = .iret enabled :: ops) (hi : s.interrupts = false)
    (hs : s.status s.currentThread = entered)
    (hn : inserting .readyThreads ops ≠ none →
      entered = .running ∧ listsOf s.trace .readyThreads = [])
    (hr : reap = [] ∨ ∃ x, Reaps x reap ∧ Condemned s x ∧ s.Clear (heapPhase s.stack))

/-- The current thread has `ops` before it. -/
structure Pursues (creates : Prop) (s : State) (ops : List Op) : Prop where
  errand : Errand creates s.idleThread s.currentThread ops
  spot : Spot s ops
  placed : Placed s (inserting .readyThreads ops)
  written : Written .readyThreads s.lists .readyThreads ops

/-- Nobody but the current thread is in the middle of an insertion in `ready_threads`. -/
structure Sound (creates : Prop) (s : State) : Prop where
  current : ∃ ops, Pursues creates s ops
  parked : ∀ t, t ∈ threadsOf s.trace ∨ t = s.idleThread → t ≠ s.currentThread →
    ∃ enabled ops, s.esp t = .iret enabled :: ops ∧ Errand creates s.idleThread t ops ∧
      inserting .readyThreads ops = none
  births : Births s s.making

section

variable {creates : Prop} {s s' : State} {op : Op} {ops rest : List Op} {x : Tid}

theorem Pursues.thread (he : Errand creates s.idleThread s.currentThread ops) (hp : Placed s none)
    (ha : Apart ops) (hst : s.stack = ops)
    (hs : s.status s.currentThread = .running ∨ ops.head? = some .threadYield) : Pursues creates s ops := by
  refine ⟨he, .thread hst hs, ?_, ha.written⟩
  rw [ha.inserting]
  exact hp

theorem Pursues.placed_none (h : Pursues creates s ops) (ha : Apart ops) : Placed s none := by
  have hp := h.placed
  rwa [ha.inserting] at hp

theorem written_of_inserting {ι : Type} {l : Links ι Tid} {i : ι} {list : Registry}
    (h : inserting list ops = none) : Written list l i ops := by
  cases ops with
  | nil => trivial
  | cons op ops =>
    cases op with
    | addNodePrev r x =>
      rintro rfl
      simp [inserting] at h
    | addHead r x =>
      rintro rfl
      simp [inserting] at h
    | _ => trivial

theorem Sound.keep (h : Sound creates s) (hk : Kept s s') (hc : ∃ ops, Pursues creates s' ops)
    (hpark : ∀ t, t ∈ threadsOf s.trace ∨ t = s.idleThread → t ≠ s'.currentThread →
      ∃ enabled ops, s'.esp t = .iret enabled :: ops ∧ Errand creates s.idleThread t ops ∧
        inserting .readyThreads ops = none) : Sound creates s' := by
  refine ⟨hc, ?_, h.births.keep hk⟩
  rw [hk.threads, hk.idle]
  exact hpark

/-- The same thread goes on. -/
theorem Sound.stay (h : Sound creates s) (hk : Kept s s') (hcur : s'.currentThread = s.currentThread)
    (hesp : ∀ t, t ≠ s.currentThread → s'.esp t = s.esp t) (hc : ∃ ops, Pursues creates s' ops) :
    Sound creates s' := by
  apply h.keep hk hc
  rw [hcur]
  intro t ht hn
  rw [hesp t hn]
  exact h.parked t ht hn

/-! ## Outside the handler -/

theorem Sound.comes (hst : s.stack = op :: ops)
    (he : Errand creates s.idleThread s.currentThread (op :: ops)) (hp : Placed s none)
    (hrun : s.status s.currentThread = .running) (hc : op.IsCalm) (hskip : op.IsSkip = false)
    (hm : ¬ s.Misused) : Comes s op ops := by
  refine ⟨hst, hp, hrun, hc, hskip, fun hid ↦ he.not_idle hid, fun hsleep ↦ ?_, fun m hrel ↦ ?_⟩
  · subst hsleep
    cases he.head with
    | fits hf =>
      cases hf with
      | plain hp => cases hp
      | sleep rest => rfl
      | heap hf => cases hf
      | make hx => cases hx
  · by_contra hn
    exact hm ⟨op, ops, m, hst, hrel, hn⟩

theorem Sound.acted (h : Sound creates s) (hst : s.stack = op :: ops)
    (hw : Pursues creates s (op :: ops)) (hrun : s.status s.currentThread = .running)
    (hc : op.IsCalm) (hskip : op.IsSkip = false) (hs : next s .exec = .ok s') :
    Acts s op ops s' ∧ Kept s s' := by
  have hp := hw.placed_none (.cons (calm_insert hc))
  have hco := Sound.comes hst hw.errand hp hrun hc hskip (not_misused hs)
  have hexec : exec op { s with stack := ops } = .ok s' := by simpa only [next, hst] using hs
  obtain ⟨s₁, hrun₁, ha⟩ := exec_acts hco
  rw [hexec] at hrun₁
  cases hrun₁
  exact ⟨ha, h.births.kept_acts hco ha (exec_aside hco hexec)⟩

/-- An operation of a running thread. -/
theorem Sound.acts (h : Sound creates s) (hst : s.stack = op :: ops)
    (hw : Pursues creates s (op :: ops)) (hrun : s.status s.currentThread = .running)
    (hc : op.IsCalm) (hskip : op.IsSkip = false) (hs : next s .exec = .ok s') : Sound creates s' := by
  obtain ⟨ha, hkept⟩ := h.acted hst hw hrun hc hskip hs
  have hk := ha.keeps
  have hstack : s'.stack = s.leaves op ++ ops := hk.stack
  obtain ⟨herr, hapart⟩ := hw.errand.leaves hc s
  refine h.stay hkept hk.current
    (fun t _ ↦ by rw [hk.esp]) ⟨s.leaves op ++ ops, .thread ?_ hk.placed hapart hstack ?_⟩
  · rw [hk.current, hk.idle]
    exact herr
  · have hr : s'.status s.currentThread = .running ∨ s'.stack.head? = some .threadYield := hk.running
    rwa [hk.current, ← hstack]

/-- Only the flag and the top of the stack change. -/
theorem Sound.flag (h : Sound creates s) (hst : s.stack = op :: ops) (hop : op.IsSkip)
    (hrun : s.status s.currentThread = .running)
    (he : Errand creates s.idleThread s.currentThread ops)
    (hp : Placed s (inserting .readyThreads ops)) (hw : Written .readyThreads s.lists .readyThreads ops)
    (b : Bool) : Sound creates { s with stack := ops, interrupts := b } :=
  h.stay (kept_stack b (by rw [hst, filter_node (skip_node hop)])) rfl (fun _ _ ↦ rfl)
    ⟨ops, he, .thread rfl (.inl hrun), ⟨hp.rep, hp.agrees, hp.standing⟩, hw⟩

theorem Sound.call (h : Sound creates s) {c : Call} (hst : s.stack = []) (hw : Pursues creates s [])
    (hi : s.currentThread ≠ s.idleThread) (hrun : s.status s.currentThread = .running)
    (hc : c = .threadCreateArg → creates) : Sound creates (s.push c.ops) := by
  have hp := hw.placed_none Closed.nil.apart
  have hstack : (s.push c.ops).stack = c.ops := by simp [State.push, hst]
  exact h.stay (c.kept s) rfl (fun _ _ ↦ rfl) ⟨c.ops, .thread (c.errand hi hc)
    ⟨hp.rep, hp.agrees, hp.standing⟩ c.closed.apart hstack (.inl hrun)⟩

theorem Sound.exit (h : Sound creates s) (hst : s.stack = [.threadExit])
    (hw : Pursues creates s [.threadExit]) (hrun : s.status s.currentThread = .running)
    (hs : next s .exec = .ok s') : Sound creates s' := by
  have hexec : exec .threadExit { s with stack := [] } = .ok s' := by simpa only [next, hst] using hs
  obtain ⟨hi, hs'⟩ := threadExit_eq hexec
  have hi : s.currentThread ≠ s.idleThread := hi
  subst hs'
  have hp := hw.placed_none (.cons rfl)
  have hb : s.status s.currentThread ≠ .blocked := by rw [hrun]; decide
  have hloop : Errand creates s.idleThread s.currentThread [.cpuIdleLoop] :=
    Errand.nil.plain .nil _ rfl (.inl hi)
  have hyield := hloop.plain (.cons rfl rfl) .threadYield rfl (.inl hi)
  refine ⟨⟨_, .thread hyield ⟨hp.rep, hp.agrees, ?_⟩ (.cons rfl) rfl (.inr rfl)⟩, h.parked,
    h.births.ended hp hst⟩
  exact hp.standing.leave hb hi (by decide) (by decide)

/-! ## Making a thread -/

theorem Sound.alloc (h : Sound creates s) (hst : s.stack = [.threadAlloc])
    (hw : Pursues creates s [.threadAlloc]) (hrun : s.status s.currentThread = .running)
    (hfree : s.allocated x = false) (hxi : x ≠ s.idleThread) (hs : next s (.alloc x) = .ok s') :
    Sound creates s' := by
  have hs' : s.allocating x = s' := by
    simpa only [next, hst, List.tail_cons, State.push, List.append_nil, State.allocating] using
      Except.ok.inj hs
  subst hs'
  have hi := hw.errand.not_idle rfl
  have hc : creates := by
    cases hw.errand.head with
    | fits hf hc => exact hc rfl
  have hp := hw.placed_none (.cons rfl)
  have hmem : s.currentThread ∈ threadsOf s.trace := hp.standing.cur_mem.resolve_left hi
  exact ⟨⟨_, .thread (errand_threadInsertOps hc hi x) ⟨hp.rep, hp.agrees, hp.standing⟩ (.cons rfl) rfl
    (.inl hrun)⟩, h.parked, h.births.allocating hmem hrun hfree hxi⟩

theorem Pursues.outside (hw : Pursues creates s ops) (hb : Births s s.making) (hst : s.stack = op :: rest)
    (hat : InsertAt x op rest) : x ∉ threadsOf s.trace ∧ x ≠ s.idleThread ∧ x ≠ s.currentThread ∧
      homeOf s.trace x = none := by
  have hmakes : Makes s.making s.currentThread x :=
    ⟨op, by rw [making_current hst hat.node]; exact List.mem_cons_self, hat.node⟩
  obtain ⟨hn, hi, -⟩ := hb.fresh hmakes
  exact ⟨hn, hi, hb.outside hw.placed hmakes⟩

/-- A statement of an insertion but the last. -/
theorem Sound.link {lists : Links ListId Tid} {allThreads : Links Unit Tid} (h : Sound creates s)
    (hst : s.stack = op :: rest) (hw : Pursues creates s (op :: rest))
    (hrun : s.status s.currentThread = .running) (hat : InsertAt x op rest)
    (hinit : ∀ y, op ≠ .internalThreadInit y)
    (hrep : lists.Rep ListId.Tailed (pending (inserting .readyThreads rest)) (listsOf s.trace))
    (hwr : Written .readyThreads lists .readyThreads rest) :
    Sound creates { s with stack := rest, lists, allThreads } :=
  ⟨⟨rest, hw.errand.tail, .thread rfl (.inl hrun), ⟨hrep, hw.placed.agrees, hw.placed.standing⟩, hwr⟩,
    h.parked, h.births.linked hst hat.node hinit lists allThreads⟩

theorem Sound.init (h : Sound creates s) (hst : s.stack = .internalThreadInit x :: rest)
    (hw : Pursues creates s (.internalThreadInit x :: rest))
    (hrun : s.status s.currentThread = .running) (hat : InsertAt x (.internalThreadInit x) rest)
    (hs : next s .exec = .ok s') : Sound creates s' := by
  have hexec : exec (.internalThreadInit x) { s with stack := rest } = .ok s' := by
    simpa only [next, hst] using hs
  have hs' := internalThreadInit_eq hexec
  subst hs'
  obtain ⟨hxn, hxi, hxc, hxh⟩ := hw.outside h.births hst hat
  have hp := hw.placed_none (.cons rfl)
  have ha : Apart rest := by
    cases hat
    exact .cons rfl
  have hlists := (hp.rep.setNode (hp.not_mem hxh) none).1
  refine ⟨⟨rest, .thread hw.errand.tail ⟨?_, hp.agrees, hp.standing.other hxn hxi _⟩ ha rfl (.inl ?_)⟩,
    fun t ht hn ↦ ?_, h.births.initialised hst⟩
  · exact (hlists.setNode (hp.not_mem hxh) none).2
  · exact (initialised_status hxc.symm).trans hrun
  · have htx : t ≠ x := by
      rintro rfl
      exact ht.elim hxn hxi
    rw [initialised_esp htx]
    exact h.parked t ht hn

/-- The last pointer of `ready_threads`. -/
theorem Sound.created (h : Sound creates s)
    (hst : s.stack = .addHead .readyThreads x :: afterInsert x .readyThreads)
    (hw : Pursues creates s (.addHead .readyThreads x :: afterInsert x .readyThreads))
    (hrun : s.status s.currentThread = .running) : Sound creates (s.created x) := by
  have hat : InsertAt x (.addHead .readyThreads x) (afterInsert x .readyThreads) := .head .readyThreads
  obtain ⟨hxn, hxi, hxc, hxh⟩ := hw.outside h.births hst hat
  have hcur : s.making s.currentThread = [.addHead .readyThreads x] := making_current hst hat.node
  obtain ⟨hxr, hxe⟩ := h.births.made (t := s.currentThread)
    ⟨_, by rw [hcur]; exact List.mem_cons_self, rfl⟩ (by rw [hcur]; simp)
  obtain ⟨hnext, hprev⟩ := hw.written rfl
  have hp := hw.placed.created rfl hxh hxn hxi hxr hnext hprev
  refine ⟨⟨_, .thread hw.errand.tail hp (.cons rfl) rfl (.inl hrun)⟩, fun t ht hn ↦ ?_,
    h.births.created hst⟩
  by_cases htx : t = x
  · subst htx
    exact ⟨true, [], hxe, .nil, rfl⟩
  · refine h.parked t (ht.imp_left fun hm ↦ ?_) hn
    exact ((threadsOf_created s x t).mp hm).resolve_left htx

theorem Sound.insert (h : Sound creates s) (hst : s.stack = op :: rest)
    (hw : Pursues creates s (op :: rest)) (hrun : s.status s.currentThread = .running)
    (hat : InsertAt x op rest) (hs : next s .exec = .ok s') : Sound creates s' := by
  obtain ⟨-, -, -, hxh⟩ := hw.outside h.births hst hat
  have hrep := hw.placed.rep
  have hwritten := hw.written
  have hx := hw.placed.not_mem hxh
  have hat' := hat
  cases hat with
  | init => exact h.init hst hw hrun hat' hs
  | headPrev list =>
    simp only [next, hst] at hs
    cases list with
    | readyThreads =>
      cases hs
      refine h.link hst hw hrun hat' (by simp) ?_ trivial
      have hrep₁ := rep_addHeadPrev (i := .readyThreads) (x := x) hrep
      rwa [pending_update] at hrep₁
    | allThreads =>
      cases hs
      exact h.link hst hw hrun hat' (by simp) hrep trivial
  | nodeNext list =>
    simp only [next, hst] at hs
    cases list with
    | readyThreads =>
      cases hs
      refine h.link hst hw hrun hat' (by simp) (hrep.setNode hx _).1 fun _ ↦ ?_
      simp [addNodeNext]
    | allThreads =>
      cases hs
      exact h.link hst hw hrun hat' (by simp) hrep fun hr ↦ by cases hr
  | nodePrev list =>
    simp only [next, hst] at hs
    cases list with
    | readyThreads =>
      cases hs
      refine h.link hst hw hrun hat' (by simp) (hrep.setNode hx _).2 fun hr ↦ ?_
      have hnext : s.lists.next x = s.lists.head .readyThreads := hwritten hr
      simp [addNodePrev, hnext]
    | allThreads =>
      cases hs
      exact h.link hst hw hrun hat' (by simp) hrep fun hr ↦ by cases hr
  | head list =>
    cases list with
    | readyThreads =>
      simp only [next, hst] at hs
      cases hs
      exact h.created hst hw hrun
    | allThreads =>
      simp only [next, hst] at hs
      cases hs
      exact h.link hst hw hrun hat' (by simp) hrep trivial

end

end AlienOS.Kernel
