import AlienOS.Kernel.Life
import AlienOS.Kernel.Orderly

/-!
# Steps — what a thread does outside the handler

None of it makes a thread or frees one.
-/

open AlienOS.Lib

namespace AlienOS.Kernel

/-- A step that keeps the order, and in which the threads live on as they should. -/
structure Advances (s : State) (a : Action) (s' : State) : Prop where
  orderly : Orderly s'
  ages : Ages s (s.mark a s') s'

section

variable {s s' : State} {op : Op} {ops rest : List Op} {idle t x : Tid}

/-! ## Nobody is being freed -/

theorem fits_freed (h : op.Fits rest) : op.freed = none := by
  cases h with
  | plain hp =>
    have hc := plain_calm hp
    cases op with
    | heapEnd freed => cases freed <;> first | rfl | cases hc
    | _ => rfl
  | heap h hn =>
    cases h with
    | finish freed =>
      cases freed with
      | none => rfl
      | some x => exact absurd rfl (hn x)
    | _ => rfl
  | make hx => cases op <;> first | rfl | cases hx
  | _ => rfl

theorem Job.freed : ∀ {ops : List Op}, Job idle t ops → ∀ op ∈ ops, op.freed = none := by
  intro ops
  induction ops with
  | nil => simp
  | cons op ops ih =>
    intro h o ho
    rcases List.mem_cons.mp ho with rfl | ho
    · exact fits_freed h.head
    · exact ih h.tail o ho

theorem Job.reapingOf (h : Job idle t ops) : reapingOf ops = none :=
  List.findSome?_eq_none_iff.mpr h.freed

/-- Nothing has happened to `x`. -/
theorem lifeOf_congr (ht : x ∈ threadsOf s'.trace ↔ x ∈ threadsOf s.trace)
    (hz : s'.status x = .zombie ↔ s.status x = .zombie)
    (hc : x = s'.currentThread ↔ x = s.currentThread)
    (hr : reapingOf s'.stack = some x ↔ reapingOf s.stack = some x)
    (hl : reapingOf s.stack = some x → stackLeft s'.stack = stackLeft s.stack) :
    s'.lifeOf x = s.lifeOf x := by
  unfold State.lifeOf
  simp only [ht, hz, hc, hr]
  by_cases hx : reapingOf s.stack = some x
  · rw [hl hx]
  · simp only [if_neg hx]

/-- Nothing has happened to the threads. -/
theorem Kept.lifeOf (h : Kept s s') (hc : s'.currentThread = s.currentThread)
    (hr : reapingOf s.stack = none) (hr' : reapingOf s'.stack = none) (x : Tid) :
    s'.lifeOf x = s.lifeOf x := by
  apply lifeOf_congr
  · rw [h.threads]
  · exact h.zombies x
  · rw [hc]
  · rw [hr, hr']
  · simp [hr]

theorem lifeOf_of_none (h : reapingOf s.stack = none) (x : Tid) : s.lifeOf x =
    if x ∈ threadsOf s.trace then
      if s.status x = .zombie then if x = s.currentThread then .exited else .left else .alive
    else .absent := by
  simp [State.lifeOf, h]

theorem lifeOf_of_reaping (hx : x ∉ threadsOf s.trace) (hr : reapingOf s.stack = some x) :
    s.lifeOf x = if stackLeft s.stack then .left else .stackFreed := by
  simp [State.lifeOf, hx, hr]

/-! ## Operations that have nothing to do with it -/

theorem Births.outside {node : Option Tid} (h : Births s s.making) (hp : Placed s node)
    (hx : Makes s.making t x) : x ≠ s.currentThread ∧ homeOf s.trace x = none := by
  obtain ⟨hn, hi, -⟩ := h.fresh hx
  exact hp.standing.outside hn hi

theorem Orderly.outside (h : Orderly s) (hx : Makes s.making t x) :
    x ≠ s.currentThread ∧ homeOf s.trace x = none := h.births.outside h.placed hx

/-- Only the flag and the stack change, and what is left to be made stays. -/
theorem kept_stack (b : Bool) (h : ops.filter (fun op ↦ op.node.isSome) =
    s.stack.filter fun op ↦ op.node.isSome) : Kept s { s with stack := ops, interrupts := b } :=
  ⟨rfl, rfl, rfl, making_eq rfl (fun _ _ ↦ rfl) h, fun _ ↦ .rfl, fun _ ↦ ⟨rfl, rfl⟩, fun _ ↦ rfl⟩

theorem skip_node (h : op.IsSkip) : op.node = none := by
  cases op <;> first | rfl | cases h

theorem filter_node (h : op.node = none) (ops : List Op) :
    (op :: ops).filter (fun op ↦ op.node.isSome) = ops.filter fun op ↦ op.node.isSome := by
  rw [List.filter_cons_of_neg (by
    rw [h]
    simp)]

/-- An operation on other objects leaves the lock as it is. -/
theorem State.LockIs.acts (h : s.LockIs .free) (hp : Placed s none) (ha : Acts s op ops s')
    (hu : op.Uses .freeListLock = false) : s'.LockIs .free := by
  obtain ⟨v, hv, hs⟩ := ha.sync
  have hlock : Sync.lockWith .freeListLock s'.sync = Sync.lockWith .freeListLock s.sync := by
    rw [hs]
    show Sync.lockWith .freeListLock v = _
    rw [hv, Sync.lockWith_exec_other hu]
    rfl
  have heq := congrFun hlock fun _ ↦ .away
  have hcount : s'.count (.ofMutex .freeListLock) = s.count (.ofMutex .freeListLock) :=
    congrArg Lock.count heq
  have hholder : s'.holder .freeListLock = s.holder .freeListLock := congrArg Lock.holder heq
  have hqueue : s'.sync.queue _ = s.sync.queue _ := congrArg Lock.queue heq
  rw [State.sync_queue, State.sync_queue] at hqueue
  have hhead := h.queue
  rw [hp.rep.head, ← hqueue, ← ha.keeps.placed.rep.head] at hhead
  exact ⟨hhead, hcount.trans h.count, hholder.trans h.holder, fun hh ↦ by cases hh⟩

theorem Births.kept_acts (h : Births s s.making) (hco : Comes s op ops) (ha : Acts s op ops s')
    (hs : Aside s s') : Kept s s' := by
  have hk := ha.keeps
  have hst := hco.stack
  refine ⟨hk.idle, hs.allThreads, hk.threads, ?_, hk.zombies, fun hx ↦ ?_, fun _ ↦ by rw [hk.allocated]⟩
  · apply making_eq (s := s) hk.current fun t _ ↦ by rw [hk.esp]
    have hleaves : (s.leaves op).filter (fun op ↦ op.node.isSome) = [] := by
      rw [List.filter_eq_nil_iff]
      intro o ho
      rw [leaves_node s op o ho]
      simp
    rw [hk.stack, hst, List.filter_append, hleaves, filter_node (calm_node hco.calm)]
    rfl
  · obtain ⟨hc, hh⟩ := h.outside hco.placed hx
    exact ⟨hs.status _ hc hh, by rw [hk.esp]⟩

theorem ages_of_eq {a : Action} (hm : s.mark a s' = none) (h : ∀ x, s'.lifeOf x = s.lifeOf x) :
    Ages s (s.mark a s') s' := by
  rw [hm]
  exact .none h

theorem mark_calm (hst : s.stack = op :: ops) (hc : op.IsCalm) (hn : op.InHeap = false)
    (s' : State) : s.mark .exec s' = none := by
  unfold State.mark
  rw [hst]
  cases op <;> first | rfl | cases hc | cases hn

theorem calm_insert (h : op.IsCalm) : op.InInsert = false := by
  cases op <;> first | rfl | cases h

theorem Orderly.comes (h : Orderly s) (hst : s.stack = op :: ops)
    (hj : Job s.idleThread s.currentThread (op :: ops))
    (hrun : s.status s.currentThread = .running) (hc : op.IsCalm) (hskip : op.IsSkip = false)
    (hs : next s .exec = .ok s') : Comes s op ops := by
  have ha : Apart s.stack := by
    rw [hst]
    exact .cons (calm_insert hc)
  refine ⟨hst, h.placed_none ha, hrun, hc, hskip, fun hid hcur ↦ ?_, fun hsleep ↦ ?_, fun m hm ↦ ?_⟩
  · have := hj.idles hcur op List.mem_cons_self
    rw [hid] at this
    cases this
  · subst hsleep
    cases hj.head with
    | plain hp => cases hp
    | sleep rest => rfl
    | heap hf => cases hf
    | make hx => cases hx
  · by_contra hn
    exact not_misused hs ⟨op, ops, m, hst, hm, hn⟩

/-- An operation of a running thread that keeps clear of the heap. -/
theorem Orderly.advances_acts (h : Orderly s) (hst : s.stack = op :: ops)
    (hj : Job s.idleThread s.currentThread (op :: ops))
    (hrun : s.status s.currentThread = .running) (hc : op.IsCalm) (hskip : op.IsSkip = false)
    (hu : op.Uses .freeListLock = false) (hclosed : Closed (op :: ops))
    (hjob : Job s.idleThread s.currentThread (s.leaves op ++ ops))
    (hleft : Closed (s.leaves op ++ ops)) (hs : next s .exec = .ok s') : Advances s .exec s' := by
  have hco := h.comes hst hj hrun hc hskip hs
  have hexec : exec op { s with stack := ops } = .ok s' := by simpa only [next, hst] using hs
  obtain ⟨s₁, hrun₁, ha⟩ := exec_acts hco
  rw [hexec] at hrun₁
  cases hrun₁
  have hk := ha.keeps
  have hkept := h.births.kept_acts hco ha (exec_aside hco hexec)
  have hstack : s'.stack = s.leaves op ++ ops := hk.stack
  have hl := h.lock
  rw [hst, hclosed.heapPhase] at hl
  refine ⟨h.stay hkept (hst ▸ hclosed.apart) (hstack ▸ hleft.apart) hk.current
    (fun t _ ↦ by rw [hk.esp]) hk.placed ?_ ⟨_, hjob, .thread hstack ?_⟩, ?_⟩
  · rw [hstack, hleft.heapPhase]
    exact hl.acts hco.placed ha hu
  · have hr : s'.status s.currentThread = .running ∨ s'.stack.head? = some .threadYield := hk.running
    rwa [hk.current, ← hstack]
  · apply ages_of_eq (mark_calm hst hc (hclosed op rfl).1 s')
    have hr : reapingOf s.stack = none := by rw [hst, hj.reapingOf]
    exact hkept.lifeOf hk.current hr (by rw [hstack, hjob.reapingOf])

/-! ## The heap, with its lock free -/

theorem Alike.placed {node : Option Tid} (h : Alike s s') (hp : Placed s node) : Placed s' node := by
  refine ⟨?_, ?_, ?_⟩
  · rw [h.lists, h.listsOf]
    exact hp.rep
  · rw [h.listsOf, h.homeOf]
    exact hp.agrees
  · rw [h.idle, h.current, h.status, h.homeOf, h.threadsOf]
    exact hp.standing

theorem heapFits_node (h : op.HeapFits rest) : op.node = none := by
  cases h <;> rfl

theorem heapFits_insert (h : op.HeapFits rest) : op.InInsert = false := by
  cases h <;> rfl

theorem heapLeaves_node (enabled : Bool) (op : Op) :
    (op.heapLeaves enabled).filter (fun o ↦ o.node.isSome) = [] := by
  cases op <;> rfl

theorem heapFits_apart (h : op.HeapFits rest) (enabled : Bool) :
    Apart (op.heapLeaves enabled ++ rest) := by
  cases h with
  | release hc => exact hc.apart
  | _ => exact .cons rfl

/-- Nobody's memory is given back but that of `x`, which is no thread. -/
theorem kept_of_alike {left : List Op} (ha : Alike s s') (hst : s.stack = op :: rest) (hop : op.node = none)
    (hs' : s'.stack = left ++ rest) (hleft : left.filter (fun o ↦ o.node.isSome) = [])
    (hal : s'.allocated = op.freed.elim s.allocated fun t ↦ Function.update s.allocated t false)
    (hx : ∀ x, op.freed = some x → Condemned s x) : Kept s s' := by
  refine ⟨ha.idle, ha.allThreads, ha.threadsOf, ?_, fun t ↦ by rw [ha.status],
    fun _ ↦ ⟨by rw [ha.status], by rw [ha.esp]⟩, fun ht ↦ ?_⟩
  · apply making_eq ha.current fun t _ ↦ by rw [ha.esp]
    rw [hs', hst, List.filter_append, hleft, filter_node hop]
    rfl
  · rw [hal]
    cases hfreed : op.freed with
    | none => rfl
    | some x =>
      obtain ⟨hn, -, hm⟩ := hx x hfreed
      have hne : ∀ t, t ∈ threadsOf s.trace ∨ (∃ u, Makes s.making u t) → t ≠ x := by
        rintro t (ht | ⟨u, hu⟩) rfl
        · exact hn ht
        · exact hm u hu
      exact Function.update_of_ne (hne _ ht) _ _

theorem HeapStepped.kept (hh : HeapStepped s op rest s') (hst : s.stack = op :: rest)
    (hf : op.HeapFits rest) (hx : ∀ x, op.freed = some x → Condemned s x) : Kept s s' :=
  kept_of_alike hh.alike hst (heapFits_node hf) hh.stack (heapLeaves_node _ op) hh.allocated hx

theorem Orderly.advances_heap (h : Orderly s) (hst : s.stack = op :: rest)
    (hj : Job s.idleThread s.currentThread (op :: rest))
    (hrun : s.status s.currentThread = .running) (hf : op.HeapFits rest)
    (hs : next s .exec = .ok s') : Advances s .exec s' := by
  have hexec : exec op { s with stack := rest } = .ok s' := by simpa only [next, hst] using hs
  obtain ⟨s₁, hrun₁, hh⟩ := exec_heap h.lock hst hf
  rw [hexec] at hrun₁
  cases hrun₁
  have ha := hh.alike
  have hfreed : op.freed = none := hj.freed op List.mem_cons_self
  have hapart : Apart s.stack := by
    rw [hst]
    exact .cons (heapFits_insert hf)
  have hkept := hh.kept hst hf (by simp [hfreed])
  have hjob : Job s.idleThread s.currentThread (op.heapLeaves s.interrupts ++ rest) := by
    cases hf with
    | acquire rest =>
      have hne : s.currentThread ≠ s.idleThread := fun hc ↦ by
        have := hj.idles hc _ List.mem_cons_self
        cases this
      exact hj.tail.cons _ (.heap (.acquired _ _) (by simp)) (.inl hne)
    | _ => exact hj.tail
  refine ⟨h.stay hkept hapart ?_ ha.current (fun t _ ↦ by rw [ha.esp]) (ha.placed (h.placed_none hapart))
    hh.lock ⟨_, hjob, .thread hh.stack (.inl ?_)⟩, ?_⟩
  · rw [hh.stack]
    exact heapFits_apart hf _
  · rw [ha.status, ha.current]
    exact hrun
  · have hr : reapingOf s.stack = none := by rw [hst, hj.reapingOf]
    have hmark : s.mark .exec s' = none := by
      unfold State.mark
      rw [hst]
      cases hf with
      | finish freed rest =>
        cases freed with
        | none => simp only [hj.tail.reapingOf, Option.map_none]
        | some x => cases hfreed
      | _ => rfl
    apply ages_of_eq hmark
    exact hkept.lifeOf ha.current hr (by rw [hh.stack, hjob.reapingOf])

/-! ## The interrupt flag, calls and the end of a thread -/

/-- Only the flag and the top of the stack change. -/
theorem Orderly.advances_flag (h : Orderly s) {a : Action} (hst : s.stack = op :: ops)
    (hop : op.IsSkip) (hrun : s.status s.currentThread = .running)
    (hj : Job s.idleThread s.currentThread ops) (hc : Closed ops) (hm : s.mark a s' = none) (b : Bool)
    (hs : s' = { s with stack := ops, interrupts := b }) : Advances s a s' := by
  subst hs
  have hclosed : Closed s.stack := hst ▸ .of_skip hop
  have hfreed : op.freed = none := by
    cases op <;> first | rfl | cases hop
  have hkept : Kept s { s with stack := ops, interrupts := b } :=
    kept_stack b (by rw [hst, filter_node (skip_node hop)])
  have hp := h.placed_none hclosed.apart
  have hl := h.lock
  rw [hclosed.heapPhase] at hl
  refine ⟨h.stay hkept hclosed.apart hc.apart rfl (fun _ _ ↦ rfl) ⟨hp.rep, hp.agrees, hp.standing⟩ ?_
    ⟨ops, hj, .thread rfl (.inl hrun)⟩, ?_⟩
  · show State.LockIs _ (heapPhase ops)
    rw [hc.heapPhase]
    exact ⟨hl.queue, hl.count, hl.holder, hl.depth⟩
  · have hr : reapingOf s.stack = none := by
      rw [hst, reapingOf, List.findSome?_cons_of_isNone (by rw [hfreed]; rfl)]
      exact hj.reapingOf
    apply ages_of_eq hm
    exact hkept.lifeOf rfl hr hj.reapingOf

theorem Call.closed (c : Call) : Closed c.ops := by
  cases c <;> exact .cons rfl rfl

theorem Call.making (c : Call) : c.ops.filter (fun op ↦ op.node.isSome) = [] := by
  cases c <;> rfl

theorem Call.kept (c : Call) (s : State) : Kept s (s.push c.ops) :=
  kept_stack s.interrupts (by rw [List.filter_append, c.making, List.nil_append])

theorem Orderly.advances_call (h : Orderly s) {c : Call} (hst : s.stack = [])
    (hi : s.currentThread ≠ s.idleThread) (hrun : s.status s.currentThread = .running) :
    Advances s (.call c) (s.push c.ops) := by
  have hstack : (s.push c.ops).stack = c.ops := by simp [State.push, hst]
  have hjob : Job s.idleThread s.currentThread c.ops := c.job hi
  have ha : Apart s.stack := by
    rw [hst]
    exact Closed.nil.apart
  have hkept : Kept s (s.push c.ops) := c.kept s
  have hp := h.placed_none ha
  have hl := h.lock
  rw [hst, Closed.nil.heapPhase] at hl
  refine ⟨h.stay hkept ha ?_ rfl (fun _ _ ↦ rfl) ⟨hp.rep, hp.agrees, hp.standing⟩ ?_
    ⟨c.ops, hjob, .thread hstack (.inl hrun)⟩, ?_⟩
  · rw [hstack]
    exact c.closed.apart
  · rw [hstack, c.closed.heapPhase]
    exact ⟨hl.queue, hl.count, hl.holder, hl.depth⟩
  · have hr : reapingOf s.stack = none := by
      rw [hst]
      rfl
    apply ages_of_eq rfl
    exact hkept.lifeOf rfl hr (by rw [hstack, hjob.reapingOf])

/-- The state in which `thread_exit` leaves its thread. -/
def State.ended (s : State) : State :=
  { s with
    status := Function.update s.status s.currentThread .zombie
    interrupts := false
    stack := .threadYield :: .cpuIdleLoop :: s.stack
    trace := .exited s.currentThread :: s.trace }

theorem threadExit_eq (h : threadExit s = .ok s') : s.currentThread ≠ s.idleThread ∧ s' = s.ended := by
  obtain ⟨_, hi, h⟩ := bind_eq_ok.mp h
  refine ⟨by simpa using kernelAssert_eq_ok.mp hi, ?_⟩
  cases h
  rfl

/-- The thread that ends makes no other. -/
theorem making_ended (hst : s.stack = [.threadExit]) :
    s.making s.currentThread = [] ∧ State.making ({ s with stack := [] } : State).ended = s.making := by
  constructor
  · unfold State.making State.stackOf
    rw [if_pos rfl, hst]
    rfl
  · refine making_eq rfl (fun _ _ ↦ rfl) ?_
    rw [hst]
    rfl

theorem Births.ended {node : Option Tid} (h : Births s s.making) (hp : Placed s node)
    (hst : s.stack = [.threadExit]) :
    Births ({ s with stack := [] } : State).ended (State.making ({ s with stack := [] } : State).ended) := by
  obtain ⟨hcur, hsame⟩ := making_ended hst
  have hz : ∀ t, t ≠ s.currentThread →
      Function.update s.status s.currentThread .zombie t = s.status t :=
    fun t ht ↦ Function.update_of_ne ht _ _
  rw [hsame]
  refine ⟨fun ht ↦ ?_, h.fresh, h.sole, fun hx hn ↦ ?_, h.allocated⟩
  · obtain ⟨hm, hnz⟩ := h.maker ht
    refine ⟨hm, fun he ↦ hnz ((hz _ ?_).symm.trans he)⟩
    rintro rfl
    exact ht hcur
  · obtain ⟨hc, -⟩ := h.outside hp hx
    obtain ⟨hready, hesp⟩ := h.made hx hn
    exact ⟨(hz _ hc).trans hready, hesp⟩

theorem Orderly.advances_exit (h : Orderly s) (hst : s.stack = [.threadExit])
    (hrun : s.status s.currentThread = .running) (hs : next s .exec = .ok s') :
    Advances s .exec s' := by
  have hexec : exec .threadExit { s with stack := [] } = .ok s' := by simpa only [next, hst] using hs
  obtain ⟨hi, hs'⟩ := threadExit_eq hexec
  have hi : s.currentThread ≠ s.idleThread := hi
  subst hs'
  have hapart : Apart s.stack := by
    rw [hst]
    exact .cons rfl
  have hp := h.placed_none hapart
  have hb : s.status s.currentThread ≠ .blocked := by rw [hrun]; decide
  have hmem : s.currentThread ∈ threadsOf s.trace := hp.standing.cur_mem.resolve_left hi
  have hl := h.lock
  rw [hst] at hl
  have hz : ∀ t, t ≠ s.currentThread →
      Function.update s.status s.currentThread .zombie t = s.status t :=
    fun t ht ↦ Function.update_of_ne ht _ _
  have hready := Job.nil.plain .nil .cpuIdleLoop rfl (.inl hi)
  refine ⟨⟨⟨hp.rep, hp.agrees, hp.standing.leave hb hi (by decide) (by decide)⟩, trivial, ?_, trivial,
    ?_, ⟨hl.queue, hl.count, hl.holder, fun hh ↦ by cases hh⟩,
    ⟨_, hready.plain (.cons rfl rfl) .threadYield rfl (.inl hi), .thread rfl (.inr rfl)⟩, h.parked⟩, ?_⟩
  · obtain ⟨all, hrep, hall⟩ := h.registered
    rw [hapart.inserting] at hrep
    refine ⟨all, hrep, fun t ↦ ?_⟩
    rw [(making_ended hst).2]
    exact hall t
  · exact h.births.ended hp hst
  · have hmark : ∀ s', s.mark .exec s' = some (s.currentThread, .exited) := by
      intro s'
      unfold State.mark
      rw [hst]
    rw [hmark]
    apply Ages.some
    · have hbefore : s.lifeOf s.currentThread = .alive := by
        simp [State.lifeOf, hmem, hrun]
      have hafter : State.lifeOf ({ s with stack := [] } : State).ended s.currentThread = .exited := by
        simp [State.lifeOf, State.ended, threadsOf, Event.onThreads, hmem]
      rw [hbefore, hafter]
      rfl
    · intro y hy
      have hr : reapingOf s.stack = none := by
        rw [hst]
        rfl
      refine lifeOf_congr .rfl ?_ .rfl ?_ (by simp [hr])
      · rw [← hz y hy]
        rfl
      · rw [hr]
        rfl

end

end AlienOS.Kernel
