import AlienOS.Kernel.Reclaim
import AlienOS.Kernel.Sound

/-!
# Passage — the handler in a sound kernel, and every step
-/

open AlienOS.Lib

namespace AlienOS.Kernel

section

variable {creates : Prop} {s s' : State} {op : Op} {ops rest left : List Op} {x : Tid}
  {enabled : Bool} {entered : ThreadStatus} {a : Action}

/-! ## In -/

/-- In the middle of an insertion the handler must find nothing to do. -/
def State.Undue (s : State) (ops : List Op) : Prop :=
  inserting .readyThreads ops ≠ none → s.status s.currentThread = .running ∧
    listsOf s.trace .readyThreads = [] ∧ s.dueNext = []

/-- The interrupt of a thread that has `ops` to come back to. -/
theorem isrIRQ0_enters (hp : Placed s (inserting .readyThreads ops))
    (hw : Written .readyThreads s.lists .readyThreads ops) (hn : s.Undue ops) :
    ∃ lists, isrIRQ0 { s with stack := ops } = .ok (({ s with stack := ops } : State).interrupted lists) ∧
      Placed (({ s with stack := ops } : State).interrupted lists) (inserting .readyThreads ops) ∧
      Written .readyThreads lists .readyThreads ops := by
  have hp₀ := hp.restack ops
  by_cases hins : inserting .readyThreads ops = none
  · rw [hins] at hp₀ ⊢
    obtain ⟨lists, hrun, hp'⟩ := isrIRQ0_interrupted hp₀
    exact ⟨lists, hrun, hp', written_of_inserting hins⟩
  · obtain ⟨hrun, hp'⟩ := isrIRQ0_undue hp₀ (hn hins).2.2
    exact ⟨_, hrun, hp', hw⟩

theorem Sound.enter (h : Sound creates s) (he : Errand creates s.idleThread s.currentThread ops)
    (hp : Placed s (inserting .readyThreads ops)) (hw : Written .readyThreads s.lists .readyThreads ops)
    (hnode : ops.filter (fun op ↦ op.node.isSome) = s.stack.filter fun op ↦ op.node.isSome)
    (hn : s.Undue ops) (hs : isrIRQ0 { s with stack := ops } = .ok s') : Sound creates s' := by
  have hp₀ := hp.restack ops
  obtain ⟨lists, hrun, hp', hw'⟩ := isrIRQ0_enters hp hw hn
  rw [hs] at hrun
  cases hrun
  refine h.stay (h.births.kept_interrupted hp hnode lists) rfl (fun t ht ↦ Function.update_of_ne ht _ _)
    ⟨ops, he, .handler s.interrupts (s.status s.currentThread) [] ?_ ?_ rfl
      (interrupted_status hp₀ lists (current_not_asleep hp₀)) (fun hins ↦ ?_) (.inl rfl), hp', hw'⟩
  · rw [listsOf_interrupted (s := { s with stack := ops }) lists (by simp) (by simp)]
    rfl
  · exact Function.update_self _ _ _
  · obtain ⟨hrunning, hready, hdue⟩ := hn hins
    have hdue' : ({ s with stack := ops } : State).dueNext = [] := hdue
    refine ⟨hrunning, ?_⟩
    show listsOf (wakeEvents ({ s with stack := ops } : State).dueNext ++ s.trace) .readyThreads = []
    rw [hdue']
    exact hready

/-! ## Out -/

/-- The end of the handler: the interrupted thread goes on, or there is a switch. -/
inductive Leaves (s : State) (entered : ThreadStatus) (ops : List Op) : State → Prop where
  | stays (hr : listsOf s.trace .readyThreads = []) (hs : entered = .running) :
    Leaves s entered ops { s with stack := s.esp s.currentThread }
  | switches {nxt : Tid} {lists : Links ListId Tid} (hins : inserting .readyThreads ops = none)
    (hp : Placed (s.switched nxt lists) none) (hne : nxt ≠ s.currentThread)
    (hmem : nxt ∈ threadsOf s.trace ∨ nxt = s.idleThread) (hready : s.status nxt = .ready)
    (hnxt : nxt = s.idleThread ∧ listsOf s.trace .readyThreads = [] ∨
      nxt ≠ s.idleThread ∧ ∃ ys, listsOf s.trace .readyThreads = ys ++ [nxt]) :
    Leaves s entered ops (s.switched nxt lists)

theorem Pursues.leaves (hw : Pursues creates s ops)
    (hst : s.stack = .cleanZombies none entered :: .iret enabled :: ops)
    (hen : s.status s.currentThread = entered)
    (hn : inserting .readyThreads ops ≠ none →
      entered = .running ∧ listsOf s.trace .readyThreads = []) :
    ∃ s', next s .exec = .ok s' ∧ Leaves s entered ops s' := by
  have hp := hw.placed
  have hp₀ := hp.restack (.iret enabled :: ops)
  have hnext : next s .exec = cleanZombies none entered { s with stack := .iret enabled :: ops } := by
    simp only [next, hst]
    rfl
  by_cases hstay : listsOf s.trace .readyThreads = [] ∧ s.status s.currentThread = .running
  · exact ⟨_, hnext.trans (cleanZombies_stay entered hp₀ hstay.1 hstay.2),
      .stays hstay.1 (hen.symm.trans hstay.2)⟩
  · have hins : inserting .readyThreads ops = none := by
      by_contra hins
      exact hstay ⟨(hn hins).2, hen.trans (hn hins).1⟩
    rw [hins] at hp hp₀
    obtain ⟨nxt, lists, hrun, hp', hne, hnxt⟩ := cleanZombies_switch entered hp₀ hstay
    have hne : nxt ≠ s.currentThread := hne
    have hready : (nxt ∈ threadsOf s.trace ∨ nxt = s.idleThread) ∧ s.status nxt = .ready := by
      rcases hnxt with ⟨hi, -⟩ | ⟨-, ys, hys⟩
      · have hi : nxt = s.idleThread := hi
        subst hi
        exact ⟨.inr rfl, hp.standing.idle_ready hne⟩
      · have hys : listsOf s.trace .readyThreads = ys ++ [nxt] := hys
        have hhome := hp.home_of_mem (x := nxt) (i := .readyThreads) (by simp [hys])
        exact ⟨.inl (hp.standing.mem hhome), hp.standing.status_eq hhome⟩
    exact ⟨_, hnext.trans hrun, .switches hins hp' hne hready.1 hready.2 hnxt⟩

/-- Leaving the handler makes no thread and ends none. -/
theorem Leaves.kept (h : Leaves s entered ops s') (hb : Births s s.making) (hp : Placed s (inserting .readyThreads ops))
    (hst : s.stack = .cleanZombies none entered :: .iret enabled :: ops)
    (hesp : s.esp s.currentThread = .iret enabled :: ops) : Kept s s' := by
  cases h with
  | stays => exact kept_stack s.interrupts (by rw [hst, hesp]; rfl)
  | switches hins hp' hne hmem hready =>
    rw [hins] at hp
    exact hb.kept_switch _ hp hne hmem hready (by rw [hst, hesp]; rfl)

theorem Sound.dispatch (h : Sound creates s)
    (hst : s.stack = .cleanZombies none entered :: .iret enabled :: ops)
    (hesp : s.esp s.currentThread = .iret enabled :: ops) (hi : s.interrupts = false)
    (hen : s.status s.currentThread = entered) (hw : Pursues creates s ops)
    (hn : inserting .readyThreads ops ≠ none →
      entered = .running ∧ listsOf s.trace .readyThreads = [])
    (hs : next s .exec = .ok s') : Sound creates s' := by
  obtain ⟨s₁, hrun, hl⟩ := hw.leaves hst hen hn
  rw [hs] at hrun
  cases hrun
  have hp := hw.placed
  have hk := hl.kept h.births hp hst hesp
  cases hl with
  | stays hr hrunning =>
    exact h.stay hk rfl (fun _ _ ↦ rfl) ⟨ops, hw.errand, .resumed enabled hesp hi (hen.trans hrunning),
      ⟨hp.rep, hp.agrees, hp.standing⟩, hw.written⟩
  | switches hins hp' hne hmem hready =>
    obtain ⟨b, ops', hesp', he', hins'⟩ := h.parked _ hmem hne
    refine h.keep hk ⟨ops', he', .resumed b hesp' hi (Function.update_self _ _ _), ?_,
      written_of_inserting hins'⟩ fun t ht hc ↦ ?_
    · rw [hins']
      exact hp'
    · by_cases hcur : t = s.currentThread
      · subst hcur
        exact ⟨enabled, ops, hesp, hw.errand, hins⟩
      · exact h.parked t ht hcur

/-! ## The zombies -/

theorem Written.congr {ι : Type} {list : Registry} {l l' : Links ι Tid} {i : ι}
    (h : Written list l i ops)
    (hx : ∀ op ∈ ops.head?, ∀ x, op.node = some x → l'.next x = l.next x ∧ l'.prev x = l.prev x)
    (hh : l'.head i = l.head i) : Written list l' i ops := by
  cases ops with
  | nil => trivial
  | cons op ops =>
    have hnode := hx op rfl
    cases op with
    | addNodePrev r x =>
      intro hr
      rw [(hnode x rfl).1, hh]
      exact h hr
    | addHead r x =>
      intro hr
      rw [(hnode x rfl).1, (hnode x rfl).2, hh]
      exact h hr
    | _ => trivial

theorem Placed.first_zombie {node : Option Tid} (hp : Placed s node)
    (hx : (listsOf s.trace .zombieThreads).head? = some x) :
    ∃ xs, listsOf s.trace .zombieThreads = x :: xs ∧ x ∈ threadsOf s.trace ∧ s.status x = .zombie ∧
      x ≠ s.idleThread ∧ x ≠ s.currentThread := by
  obtain ⟨xs, hL⟩ := List.head?_eq_some_iff.mp hx
  have hstanding := hp.standing
  have hhome := hp.home_of_mem (List.mem_of_mem_head? hx)
  have hmem : x ∈ threadsOf s.trace := hstanding.mem hhome
  refine ⟨xs, hL, hmem, hstanding.status_eq hhome, ?_, ?_⟩
  · rintro rfl
    exact hstanding.idle_not_mem hmem
  · rintro rfl
    obtain ⟨q, hq⟩ := hstanding.cur_waits hhome
    cases hq

/-- A zombie comes off the list; its memory is freed next. -/
theorem Sound.reap (h : Sound creates s)
    (hst : s.stack = .cleanZombies (some x) entered :: .iret enabled :: ops)
    (hx : (listsOf s.trace .zombieThreads).head? = some x)
    (hesp : s.esp s.currentThread = .iret enabled :: ops) (hi : s.interrupts = false)
    (hen : s.status s.currentThread = entered) (hw : Pursues creates s ops)
    (hn : inserting .readyThreads ops ≠ none →
      entered = .running ∧ listsOf s.trace .readyThreads = [])
    (hc : x ≠ s.currentThread → s.LockIs .free ∨ s.sync.Holds .freeListLock s.currentThread)
    (hs : next s .exec = .ok s') : Sound creates s' := by
  have hp := hw.placed
  have hexec : cleanZombies (some x) entered { s with stack := .iret enabled :: ops } = .ok s' := by
    simp only [next, hst] at hs
    exact hs
  obtain ⟨xs, hL, hmem, hdead, hxi, hxc⟩ := hp.first_zombie hx
  obtain ⟨lists, all, rfl, -, hp', hfar⟩ := cleanZombies_reap (hp.restack (.iret enabled :: ops)) hL hexec
  have hsame : State.making (({ s with stack := .iret enabled :: ops } : State).unlinked x xs.head?
      entered lists all) = s.making := making_unlinked hst
  have hkeeps : ∀ i, i ≠ .zombieThreads →
      listsOf (.reaped x :: .removed .zombieThreads x :: s.trace) i = listsOf s.trace i :=
    fun i hi ↦ (listsOf_other _ (by simp) (by simp)).trans
      (listsOf_other _ (by simp) (by simp [hi.symm]))
  refine ⟨⟨ops, hw.errand, .handler enabled entered (kfreeOps none ++ kfreeOps (some x)) ?_ hesp hi hen
    (fun hins ↦ ?_) (.inr ⟨x, .stack .acquire, ⟨?_, hxi, ?_⟩, ?_⟩), hp', ?_⟩, fun t ht hc ↦ ?_, ?_⟩
  · have hz : listsOf (.reaped x :: .removed .zombieThreads x :: s.trace) .zombieThreads = xs := by
      rw [listsOf_other _ (by simp) (by simp)]
      simp [listsOf, Event.onLists, hL]
    show _ = _ ++ Op.cleanZombies (listsOf (.reaped x :: .removed .zombieThreads x :: s.trace)
      .zombieThreads).head? entered :: _
    rw [hz]
    rfl
  · refine ⟨(hn hins).1, ?_⟩
    show listsOf (.reaped x :: .removed .zombieThreads x :: s.trace) .readyThreads = []
    rw [hkeeps _ (by simp)]
    exact (hn hins).2
  · exact fun hm ↦ ((threadsOf_reaped x s.trace x).mp hm).2 rfl
  · rw [hsame]
    exact fun t ht ↦ (h.births.fresh ht).1 hmem
  · rcases hc hxc with hl | hh
    · refine .inl ⟨?_, hl.count, hl.holder, fun hf ↦ by cases hf⟩
      have hq := hl.queue
      rw [hp.rep.head] at hq
      rw [hp'.rep.head]
      show (listsOf (.reaped x :: .removed .zombieThreads x :: s.trace) _).head? = none
      rwa [hkeeps _ (by simp)]
    · exact .inr ⟨hh.1, fun hf ↦ (by cases hf), fun hz ↦ hh.2 ((BitVec.sub_zero _).symm.trans hz)⟩
  · refine hw.written.congr (fun o ho y hy ↦ hfar y ?_) ?_
    · have hmakes : Makes s.making s.currentThread y := by
        refine ⟨o, ?_, hy⟩
        unfold State.making State.stackOf
        rw [if_pos rfl, hst, List.mem_filter]
        refine ⟨?_, by rw [hy]; rfl⟩
        exact List.mem_cons_of_mem _ (List.mem_cons_of_mem _ (List.mem_of_mem_head? ho))
      exact (h.births.outside hp hmakes).2
    · rw [hp.rep.head]
      refine (hp'.rep.head .readyThreads).trans ?_
      show (listsOf (.reaped x :: .removed .zombieThreads x :: s.trace) _).head? = _
      rw [hkeeps _ (by simp)]
  · exact h.parked t (ht.imp_left fun hm ↦ ((threadsOf_reaped x s.trace t).mp hm).1) hc
  · rw [hsame]
    exact h.births.reaped hdead rfl rfl rfl rfl rfl

/-! ## Their memory -/

/-- The current thread has the lock throughout. -/
theorem exec_nested (h : s.Nested (heapPhase s.stack)) (hst : s.stack = op :: rest)
    (hf : op.HeapFits rest)
    (hm : ∀ m, Sync.Releases op = some m → s.sync.Holds m s.currentThread) :
    ∃ s', exec op { s with stack := rest } = .ok s' ∧ Alike s s' ∧ s'.Nested (heapPhase s'.stack) ∧
      s'.stack = rest ∧ s'.interrupts = s.interrupts ∧
      s'.allocated = op.freed.elim s.allocated fun t ↦ Function.update s.allocated t false := by
  have hh := h.holder
  rw [hst] at h
  cases hf with
  | acquire rest =>
    have hacq : mutexAcquire .freeListLock { s with stack := .heapStart :: rest } = ({ s with
        stack := .heapStart :: rest
        recursionCount := Function.update s.recursionCount .freeListLock
          (s.recursionCount .freeListLock + 1) } : State).log
            (.acquired .freeListLock s.currentThread) := by
      simp only [mutexAcquire, hh, if_true]
    refine ⟨_, congrArg Except.ok hacq, ⟨rfl, rfl, rfl, rfl, rfl, rfl, rfl, rfl, rfl⟩,
      ⟨hh, fun hp ↦ (by cases hp), ?_⟩, rfl, rfl, rfl⟩
    have hd : s.recursionCount .freeListLock - 0 ≠ 0 := h.depth
    show Function.update s.recursionCount .freeListLock (s.recursionCount .freeListLock + 1)
      .freeListLock - 1 ≠ 0
    rwa [Function.update_self, BitVec.add_sub_cancel, ← BitVec.sub_zero (s.recursionCount .freeListLock)]
  | acquired enabled rest => exact absurd rfl h.phase
  | start freed rest =>
    exact ⟨_, rfl, ⟨rfl, rfl, rfl, rfl, rfl, rfl, rfl, rfl, rfl⟩, ⟨hh, fun hp ↦ (by cases hp), h.depth⟩,
      rfl, rfl, rfl⟩
  | finish freed rest =>
    exact ⟨_, rfl, ⟨rfl, rfl, rfl, rfl, rfl, rfl, rfl, rfl, rfl⟩, ⟨hh, fun hp ↦ (by cases hp), h.depth⟩,
      rfl, rfl, rfl⟩
  | release hc =>
    have hholds : ({ s with stack := rest } : State).sync.Holds .freeListLock s.currentThread := hm _ rfl
    have hd : s.recursionCount .freeListLock - 1 ≠ 0 := h.depth
    refine ⟨_, (mutexRelease_eq hholds).trans (if_neg hd), ⟨rfl, rfl, rfl, rfl, rfl, rfl, rfl, rfl, rfl⟩, ?_,
      rfl, rfl, rfl⟩
    show State.Nested _ (Kernel.heapPhase rest)
    rw [hc.heapPhase]
    exact ⟨hh, fun hp ↦ (by cases hp), by simpa [State.log] using hd⟩

/-- What a step of a call of `kfree` that goes through makes of the stack. -/
structure Freed (s : State) (op : Op) (rest left : List Op) (s' : State) : Prop where
  alike : Alike s s'
  clear : s'.Clear (heapPhase s'.stack)
  stack : s'.stack = left ++ rest
  pushed : left = [] ∨ left = op.heapLeaves false
  interrupts : s'.interrupts = false
  allocated : s'.allocated = op.freed.elim s.allocated fun t ↦ Function.update s.allocated t false

theorem State.Clear.freed (h : s.Clear (heapPhase s.stack)) (hst : s.stack = op :: rest)
    (hf : op.HeapFits rest) (hi : s.interrupts = false) (hflag : op.heapFlag false = false)
    (hm : ¬ s.Misused) : ∃ s' left, next s .exec = .ok s' ∧ Freed s op rest left s' := by
  have hnext : next s .exec = exec op { s with stack := rest } := by simp only [next, hst]
  rw [hnext]
  rcases h with hl | hn
  · obtain ⟨s', hrun, hh⟩ := exec_heap hl hst hf
    have hstack := hh.stack
    have hint := hh.interrupts
    rw [hi] at hstack hint
    exact ⟨s', _, hrun, hh.alike, .inl hh.lock, hstack, .inr rfl, hint.trans hflag, hh.allocated⟩
  · obtain ⟨s', hrun, ha, hn', hstack, hint, hal⟩ := exec_nested hn hst hf fun m hrel ↦ by
      by_contra hno
      exact hm ⟨op, rest, m, hst, hrel, hno⟩
    exact ⟨s', [], hrun, ha, .inr hn', hstack, .inl rfl, hint.trans hi, hal⟩

theorem Reaps.tail (h : Reaps x left) : left.tail = [] ∨ Reaps x left.tail := by
  cases h with
  | stack h =>
    cases h with
    | acquire => exact .inr (.stack .start)
    | acquired => exact .inr (.stack .start)
    | start => exact .inr (.stack .finish)
    | finish => exact .inr (.stack .release)
    | release => exact .inr (.thread .acquire)
  | thread h =>
    cases h with
    | acquire => exact .inr (.thread .start)
    | acquired => exact .inr (.thread .start)
    | start => exact .inr (.thread .finish)
    | finish => exact .inr (.thread .release)
    | release => exact .inl rfl

/-- What the next step makes of the two calls of `kfree` for `x`, of which `left` is left. -/
structure FreesNext (s : State) (x : Tid) (left tail : List Op) (s' : State) (op : Op)
    (rest pushed : List Op) : Prop where
  stack : s.stack = op :: (rest ++ tail)
  fits : op.HeapFits (rest ++ tail)
  freed : Freed s op (rest ++ tail) pushed s'
  left : pushed ++ rest = [] ∨ Reaps x (pushed ++ rest)
  allocated : ∀ y, op.freed = some y → y = x

theorem Reaps.frees {tail : List Op} (hr : Reaps x left) (hst : s.stack = left ++ tail) (htail : Closed tail)
    (hc : s.Clear (heapPhase s.stack)) (hi : s.interrupts = false) (hm : ¬ s.Misused) :
    ∃ s' op rest pushed, Kernel.next s .exec = .ok s' ∧ FreesNext s x left tail s' op rest pushed := by
  obtain ⟨op, rest, hnext⟩ := hr.next tail htail
  rw [hnext.eq, List.cons_append] at hst
  obtain ⟨s', pushed, hs', hfreed⟩ := hc.freed hst hnext.fits hi hnext.flag hm
  refine ⟨s', op, rest, pushed, hs', hst, hnext.fits, hfreed, ?_, hnext.freed⟩
  rcases hfreed.pushed with rfl | rfl
  · have htail := hr.tail
    rwa [hnext.eq] at htail
  · exact hnext.left

/-- Freeing a zombie neither makes a thread nor ends one. -/
theorem FreesNext.kept {tail pushed : List Op} (h : FreesNext s x left tail s' op rest pushed)
    (hx : Condemned s x) : Kept s s' := by
  have hnode : pushed.filter (fun o ↦ o.node.isSome) = [] := by
    rcases h.freed.pushed with rfl | rfl
    · rfl
    · exact heapLeaves_node _ op
  exact kept_of_alike h.freed.alike h.stack (heapFits_node h.fits) h.freed.stack hnode h.freed.allocated
    fun y hy ↦ by rwa [h.allocated y hy]

/-- A step of the two calls of `kfree`. -/
theorem Sound.kfree (h : Sound creates s)
    (hst : s.stack = left ++ .cleanZombies (listsOf s.trace .zombieThreads).head? entered ::
      .iret enabled :: ops) (hr : Reaps x left) (hx : Condemned s x) (hc : s.Clear (heapPhase s.stack))
    (hesp : s.esp s.currentThread = .iret enabled :: ops) (hi : s.interrupts = false)
    (hen : s.status s.currentThread = entered) (hw : Pursues creates s ops)
    (hn : inserting .readyThreads ops ≠ none →
      entered = .running ∧ listsOf s.trace .readyThreads = [])
    (hs : next s .exec = .ok s') : Sound creates s' := by
  obtain ⟨s₁, op, rest, pushed, hrun, hnext⟩ := hr.frees hst (.of_skip rfl) hc hi (not_misused hs)
  rw [hs] at hrun
  cases hrun
  have hk := hnext.kept hx
  have hfreed := hnext.freed
  have ha := hfreed.alike
  have hp := ha.placed hw.placed
  refine h.stay hk ha.current (fun t _ ↦ by rw [ha.esp]) ⟨ops, ?_, .handler enabled entered
    (pushed ++ rest) ?_ ?_ hfreed.interrupts ?_ ?_ ?_, hp, ?_⟩
  · rw [ha.idle, ha.current]
    exact hw.errand
  · rw [ha.listsOf, List.append_assoc]
    exact hfreed.stack
  · rw [ha.esp, ha.current]
    exact hesp
  · rw [ha.status, ha.current]
    exact hen
  · rw [ha.listsOf]
    exact hn
  · refine hnext.left.imp_right fun hl ↦ ⟨x, hl, ?_, hfreed.clear⟩
    unfold Condemned
    rw [ha.threadsOf, ha.idle, hk.making]
    exact hx
  · rw [ha.lists]
    exact hw.written

/-! ## One step -/

/-- `clean_zombies` has come to a zombie and goes on to free it. -/
def Reclaims (s : State) (a : Action) : Prop :=
  a = .exec ∧ ∃ x entered, s.stack.head? = some (.cleanZombies (some x) entered) ∧ x ≠ s.currentThread

/-- It finds `free_list_lock` free, with nobody waiting for it, or in the hands of the thread that was
interrupted. -/
def Unhindered (s : State) (a : Action) : Prop :=
  Reclaims s a → s.LockIs .free ∨
    s.holder .freeListLock = some s.currentThread ∧ s.recursionCount .freeListLock ≠ 0

/-- The timer interrupt does not come between two statements of an insertion in `ready_threads`, or
finds nobody ready and no sleeper due. -/
def Unsplit (s : State) (a : Action) : Prop :=
  a = .interrupt → inserting .readyThreads s.stack ≠ none →
    s.lists.head .readyThreads = none ∧
      ∀ t ∈ threadsOf s.trace, s.status t = .sleeping → ¬ s.wakeupTicks t ≤ s.timerTicks + 1

theorem Placed.dueNext_nil {node : Option Tid} (hp : Placed s node)
    (hd : ∀ t ∈ threadsOf s.trace, s.status t = .sleeping → ¬ s.wakeupTicks t ≤ s.timerTicks + 1) :
    s.dueNext = [] := by
  apply List.filter_eq_nil_iff.mpr
  intro t ht
  have hhome := hp.home_of_mem ht
  simpa using hd t (hp.standing.mem hhome) (hp.standing.status_eq hhome)

/-- The interrupt flag is set only while a thread runs. -/
theorem Spot.interrupted (h : Spot s ops) (hi : s.interrupts = true) :
    s.stack = ops ∧ (s.status s.currentThread = .running ∨ ops.head? = some .threadYield) := by
  cases h with
  | thread hst hs => exact ⟨hst, hs⟩
  | resumed b hst hi' | handler b e left hst he hi' =>
    rw [hi] at hi'
    cases hi'

/-- What the next step is about. -/
inductive Faces (creates : Prop) (s : State) : Action → Prop where
  /-- an operation of a running thread -/
  | act {op : Op} {ops : List Op} (hst : s.stack = op :: ops) (hw : Pursues creates s (op :: ops))
    (hrun : s.status s.currentThread = .running) (hc : op.IsCalm) (hskip : op.IsSkip = false) :
    Faces creates s .exec
  | flag {op : Op} {ops : List Op} (b : Bool) (hst : s.stack = op :: ops) (hop : op.IsSkip)
    (hrun : s.status s.currentThread = .running) (he : Errand creates s.idleThread s.currentThread ops)
    (hp : Placed s (inserting .readyThreads ops)) (hw : Written .readyThreads s.lists .readyThreads ops)
    (hs : next s .exec = .ok { s with stack := ops, interrupts := b }) : Faces creates s .exec
  | enter {a : Action} {ops : List Op} (he : Errand creates s.idleThread s.currentThread ops)
    (hp : Placed s (inserting .readyThreads ops)) (hw : Written .readyThreads s.lists .readyThreads ops)
    (hnode : ops.filter (fun op ↦ op.node.isSome) = s.stack.filter fun op ↦ op.node.isSome)
    (hn : s.Undue ops) (hs : next s a = isrIRQ0 { s with stack := ops })
    (hstrip : strip ops = strip s.stack) : Faces creates s a
  | dispatch {enabled : Bool} {entered : ThreadStatus} {ops : List Op}
    (hst : s.stack = .cleanZombies none entered :: .iret enabled :: ops)
    (hesp : s.esp s.currentThread = .iret enabled :: ops) (hi : s.interrupts = false)
    (hen : s.status s.currentThread = entered) (hw : Pursues creates s ops)
    (hn : inserting .readyThreads ops ≠ none →
      entered = .running ∧ listsOf s.trace .readyThreads = []) : Faces creates s .exec
  | reap {x : Tid} {enabled : Bool} {entered : ThreadStatus} {ops : List Op}
    (hst : s.stack = .cleanZombies (some x) entered :: .iret enabled :: ops)
    (hx : (listsOf s.trace .zombieThreads).head? = some x)
    (hesp : s.esp s.currentThread = .iret enabled :: ops) (hi : s.interrupts = false)
    (hen : s.status s.currentThread = entered) (hw : Pursues creates s ops)
    (hn : inserting .readyThreads ops ≠ none →
      entered = .running ∧ listsOf s.trace .readyThreads = [])
    (hc : x ≠ s.currentThread → s.LockIs .free ∨ s.sync.Holds .freeListLock s.currentThread) :
    Faces creates s .exec
  | kfree {x : Tid} {enabled : Bool} {entered : ThreadStatus} {left ops : List Op}
    (hst : s.stack = left ++ .cleanZombies (listsOf s.trace .zombieThreads).head? entered ::
      .iret enabled :: ops) (hr : Reaps x left) (hx : Condemned s x) (hc : s.Clear (heapPhase s.stack))
    (hesp : s.esp s.currentThread = .iret enabled :: ops) (hi : s.interrupts = false)
    (hen : s.status s.currentThread = entered) (hw : Pursues creates s ops)
    (hn : inserting .readyThreads ops ≠ none →
      entered = .running ∧ listsOf s.trace .readyThreads = []) : Faces creates s .exec
  | exit (hst : s.stack = [.threadExit]) (hw : Pursues creates s [.threadExit])
    (hrun : s.status s.currentThread = .running) : Faces creates s .exec
  | alloc {x : Tid} (hst : s.stack = [.threadAlloc]) (hw : Pursues creates s [.threadAlloc])
    (hrun : s.status s.currentThread = .running) (hfree : s.allocated x = false)
    (hxi : x ≠ s.idleThread) : Faces creates s (.alloc x)
  | insert {op : Op} {rest : List Op} {x : Tid} (hst : s.stack = op :: rest)
    (hw : Pursues creates s (op :: rest)) (hrun : s.status s.currentThread = .running)
    (hat : InsertAt x op rest) : Faces creates s .exec
  | call {c : Call} (hst : s.stack = []) (hw : Pursues creates s [])
    (hi : s.currentThread ≠ s.idleThread) (hrun : s.status s.currentThread = .running)
    (hc : c = .threadCreateArg → creates) : Faces creates s (.call c)

theorem Sound.interrupt_faces (h : Sound creates s) (hu : Unsplit s .interrupt) (hi : s.interrupts = true) :
    Faces creates s .interrupt := by
  obtain ⟨ops, hw⟩ := h.current
  obtain ⟨hst, hrun⟩ := hw.spot.interrupted hi
  subst hst
  refine .enter hw.errand hw.placed hw.written rfl (fun hins ↦ ?_) rfl rfl
  obtain ⟨hhead, hdue⟩ := hu rfl hins
  refine ⟨hrun.resolve_right fun hy ↦ hins ?_, ?_, hw.placed.dueNext_nil hdue⟩
  · obtain ⟨rest, hrest⟩ := List.head?_eq_some_iff.mp hy
    rw [hrest]
    rfl
  · rw [hw.placed.rep.head] at hhead
    exact List.head?_eq_none_iff.mp hhead

/-- The next operation of a thread. -/
theorem Pursues.faces (hw : Pursues creates s (op :: rest)) (hst : s.stack = op :: rest)
    (hrun : op ≠ .threadYield → s.status s.currentThread = .running) (hn : op ≠ .threadAlloc) :
    Faces creates s .exec := by
  have hflag : ∀ b, op = .interruptRestore b → Apart rest → Faces creates s .exec := by
    rintro b rfl ha
    have hp := hw.placed_none (.cons rfl)
    refine .flag b hst rfl (hrun (by simp)) hw.errand.tail ?_ ha.written ?_
    · rw [ha.inserting]
      exact hp
    · simp only [next, hst, Kernel.exec]
  cases hw.errand.head with
  | wait enabled rest => exact hflag false rfl (.cons rfl)
  | fits hf hc =>
    cases hf with
    | plain hp hcl =>
      by_cases hskip : op.IsSkip = true
      · cases op with
        | interruptRestore b => exact hflag b rfl hcl.apart
        | threadYield =>
          have hp := hw.placed_none (.cons rfl)
          refine .enter hw.errand.tail ?_ hcl.apart.written ?_
            (fun hins ↦ absurd (hcl.apart.inserting _) hins) ?_ ?_
          · rw [hcl.apart.inserting]
            exact hp
          · rw [hst, filter_node rfl]
          · simp only [next, hst, Kernel.exec]
          · rw [hst, strip_skip rfl]
        | iret | cleanZombies => cases hp
        | _ => cases hskip
      · have hskip : op.IsSkip = false := by simpa using hskip
        have hne : op ≠ .threadYield := by
          rintro rfl
          cases hskip
        exact .act hst hw (hrun hne) (plain_calm hp) hskip
    | sleep rest => exact .act hst hw (hrun (by simp)) rfl rfl
    | heap hf hfree =>
      have hne : op ≠ .threadYield ∧ op.IsSkip = false := by
        cases hf <;> exact ⟨by simp, rfl⟩
      exact .act hst hw (hrun hne.1) (heapFits_calm hf hfree) hne.2
    | exit => exact .exit hst hw (hrun (by simp))
    | alloc => exact absurd rfl hn
    | make hx hsuf =>
      have hne : op ≠ .threadYield := by
        rintro rfl
        cases hx
      exact .insert hst hw (hrun hne) (insertAt_of_suffix hsuf hx)

theorem Sound.exec_faces (h : Sound creates s) (hf : Unhindered s .exec) (he : Enabled s .exec) :
    Faces creates s .exec := by
  obtain ⟨ops, hw⟩ := h.current
  obtain ⟨hne, hna⟩ := he
  cases hw.spot with
  | thread hst hr =>
    subst hst
    obtain ⟨op, rest, hops⟩ := List.exists_cons_of_ne_nil hne
    rw [hops] at hw hr hna
    exact hw.faces hops (fun hy ↦ hr.resolve_right (by simpa using hy)) (by simpa using hna)
  | resumed b hst hi hrun =>
    refine .flag b hst rfl hrun hw.errand hw.placed hw.written ?_
    simp only [next, hst, Kernel.exec]
  | handler b e left hst hesp hi hen hn hr =>
    rcases hr with rfl | ⟨x, hr, hx, hc⟩
    · cases hz : (listsOf s.trace .zombieThreads).head? with
      | none =>
        rw [hz] at hst
        exact .dispatch hst hesp hi hen hw hn
      | some x =>
        rw [hz] at hst
        refine .reap hst hz hesp hi hen hw hn fun hxc ↦ ?_
        exact hf ⟨rfl, x, e, by rw [hst]; rfl, hxc⟩
    · exact .kfree hst hr hx hc hesp hi hen hw hn

theorem Sound.faces (h : Sound creates s) (hf : Unhindered s a) (hu : Unsplit s a)
    (hc : a = .call .threadCreateArg → creates) (he : Enabled s a) : Faces creates s a := by
  cases a with
  | interrupt => exact h.interrupt_faces hu he
  | exec => exact h.exec_faces hf he
  | call c =>
    obtain ⟨hnil, hi⟩ := he
    obtain ⟨ops, hw⟩ := h.current
    cases hw.spot with
    | thread hst hr =>
      subst hst
      rw [hnil] at hw hr
      exact .call hnil hw hi (hr.resolve_right (by simp)) fun hcr ↦ hc (congrArg _ hcr)
    | resumed b hst =>
      rw [hnil] at hst
      cases hst
    | handler b e left hst =>
      rw [hnil] at hst
      simp at hst
  | alloc t =>
    obtain ⟨hhead, hfree, hti⟩ := he
    obtain ⟨ops, hw⟩ := h.current
    obtain ⟨rest, hrest⟩ := List.head?_eq_some_iff.mp hhead
    cases hw.spot with
    | thread hst hr =>
      subst hst
      rw [hrest] at hw hr
      have hnil : rest = [] := by
        cases hw.errand.head with
        | fits hf =>
          cases hf with
          | plain hp => cases hp
          | heap hf => cases hf
          | alloc => rfl
          | make hx => cases hx
      subst hnil
      exact .alloc hrest hw (hr.resolve_right (by simp)) hfree hti
    | resumed b hst =>
      rw [hrest] at hst
      cases hst
    | handler b e left hst hesp hi hen hn hr =>
      rw [hrest] at hst
      rcases hr with rfl | ⟨x, hr, -⟩
      · cases hst
      · obtain ⟨op, rest', hnext⟩ := hr.next [] .nil
        rw [hnext.eq] at hst
        cases hst
        have hfits := hnext.fits
        cases hfits

/-- The step lemma. -/
theorem Sound.step (h : Sound creates s) (hf : Unhindered s a) (hu : Unsplit s a)
    (hc : a = .call .threadCreateArg → creates) (he : Enabled s a) (hs : next s a = .ok s') :
    Sound creates s' := by
  cases h.faces hf hu hc he with
  | act hst hw hrun hcalm hskip => exact h.acts hst hw hrun hcalm hskip hs
  | flag b hst hop hrun herr hp hw hn =>
    rw [hn] at hs
    cases hs
    exact h.flag hst hop hrun herr hp hw b
  | enter herr hp hw hnode hn heq => exact h.enter herr hp hw hnode hn (heq.symm.trans hs)
  | dispatch hst hesp hi hen hw hn =>
    exact h.dispatch hst hesp hi hen hw hn hs
  | reap hst hx hesp hi hen hw hn hlock => exact h.reap hst hx hesp hi hen hw hn hlock hs
  | kfree hst hr hx hclear hesp hi hen hw hn => exact h.kfree hst hr hx hclear hesp hi hen hw hn hs
  | exit hst hw hrun => exact h.exit hst hw hrun hs
  | alloc hst hw hrun hfree hxi => exact h.alloc hst hw hrun hfree hxi hs
  | insert hst hw hrun hat => exact h.insert hst hw hrun hat hs
  | call hst hw hi hrun hcr =>
    cases hs
    exact h.call hst hw hi hrun hcr

end

/-! ## Runs -/

section

variable {creates : Prop} {ok : State → Action → Prop} {idle main : Tid} {threads : List Tid} {s : State}

/-- Nobody is making a thread. -/
theorem AtRest.errand (h : AtRest s) {t : Tid} {ops : List Op}
    (hst : .threadAlloc ∉ s.stackOf t) (hops : ops ⊆ s.stackOf t) (hj : Job s.idleThread t ops) :
    Errand creates s.idleThread t ops := by
  apply hj.errand
  intro op hop hcr
  have hmem := hops hop
  by_cases hal : op = .threadAlloc
  · subst hal
    exact absurd hmem hst
  · have hnode : op.node.isSome = true := by
      cases op <;> first | exact hcr | exact absurd rfl hal
    have hmaking : op ∈ s.making t := List.mem_filter.mpr ⟨hmem, hnode⟩
    rw [h.making] at hmaking
    cases hmaking

theorem AtRest.sound (h : AtRest s) (hal : ∀ t, .threadAlloc ∉ s.stackOf t) : Sound creates s := by
  have ho := h.orderly
  have hst := h.stack
  refine ⟨⟨[], .nil, ?_, ?_, trivial⟩, fun t ht hc ↦ ?_, ho.births⟩
  · obtain ⟨ops, hj, hplace⟩ := ho.current
    cases hplace with
    | thread hops hs =>
      rw [hst] at hops
      subst hops
      exact .thread hst hs
    | resumed b hops =>
      rw [hst] at hops
      cases hops
    | handler b e reap hops =>
      rw [hst] at hops
      simp at hops
  · have hp := ho.placed
    rwa [hst] at hp
  · obtain ⟨b, ops, hesp, hj, hcl⟩ := ho.parked t ht hc
    have hstack : s.stackOf t = .iret b :: ops := (if_neg hc).trans hesp
    refine ⟨b, ops, hesp, h.errand (hal t) ?_ hj, hcl.apart.inserting _⟩
    rw [hstack]
    exact List.subset_cons_self _ _

theorem alloc_not_mem_bootThreads {ts : List Tid} : ∀ {s : State},
    (∀ t, .threadAlloc ∉ s.esp t) → ∀ t, .threadAlloc ∉ (bootThreads ts s).esp t := by
  induction ts with
  | nil => exact fun h ↦ h
  | cons u ts ih =>
    intro s h
    apply ih (s := s.booted u)
    intro t
    by_cases ht : t = u
    · subst ht
      simp [State.booted]
    · have hesp : (s.booted u).esp t = s.esp t := Function.update_of_ne ht _ _
      rw [hesp]
      exact h t

theorem sound_boot (count : Nat → Nat) (hd : Distinct idle main threads) :
    Sound creates (boot idle main threads count) := by
  have hr := atRest_bootThreads (atRest_mainInit count hd.ne) (unborn_boot count hd)
  apply hr.sound
  intro t
  unfold State.stackOf
  split
  · rw [hr.stack]
    simp
  · apply alloc_not_mem_bootThreads
    intro u
    by_cases hu : u = idle
    · subst hu
      simp [mainInit]
    · simp [mainInit, hu]

/-- The run lemma. -/
theorem Run.sound {s₀ : State} (hr : Run ok s₀ s) (h₀ : Sound creates s₀)
    (hok : ∀ s a, ok s a → Unhindered s a ∧ Unsplit s a ∧ (a = .call .threadCreateArg → creates)) :
    Sound creates s := by
  apply hr.invariant h₀
  intro s a s' h hs he hn
  obtain ⟨hf, hu, hc⟩ := hok s a hs
  exact h.step hf hu hc he hn

end

/-! ## Runs on fixed actions -/

instance (s : State) (p : HeapPhase) : Decidable (s.LockIs p) :=
  decidable_of_iff (s.lists.head (.waitQueue (.semaphore (.ofMutex .freeListLock))) = none ∧
      s.count (.ofMutex .freeListLock) = (if p = .free then 1 else 0) ∧
      s.holder .freeListLock = (if p = .held then some s.currentThread else none) ∧
      (p = .held → s.recursionCount .freeListLock = 1))
    ⟨fun ⟨hq, hc, hh, hd⟩ ↦ ⟨hq, hc, hh, hd⟩, fun h ↦ ⟨h.queue, h.count, h.holder, h.depth⟩⟩

/-- The zombie that an operation is about to free. -/
def Op.zombie : Op → Option Tid
  | .cleanZombies zombie _ => zombie
  | _ => none

-- not over all words
instance (s : State) (a : Action) : Decidable (Reclaims s a) :=
  decidable_of_iff (a = .exec ∧ (s.stack.head?.bind Op.zombie).any fun x ↦ x ≠ s.currentThread) (by
    refine and_congr_right fun _ ↦ ?_
    cases hst : s.stack.head? with
    | none => simp
    | some op =>
      cases op with
      | cleanZombies zombie => cases zombie <;> simp [Op.zombie]
      | _ => simp [Op.zombie])

instance (s : State) (a : Action) : Decidable (Unhindered s a) :=
  inferInstanceAs (Decidable (Reclaims s a → _))

instance (s : State) (a : Action) : Decidable (Unsplit s a) :=
  decidable_of_iff (a = .interrupt → inserting .readyThreads s.stack ≠ none →
    s.lists.head .readyThreads = none ∧ (threadsOf s.trace).all fun t ↦
      s.status t = .sleeping → ¬ s.wakeupTicks t ≤ s.timerTicks + 1) (by
    simp only [Unsplit, List.all_eq_true, decide_eq_true_eq])

/-- Take the actions one after the other, as long as each is enabled and meets `ok`. -/
def walkWhile (ok : State → Action → Prop) [∀ s a, Decidable (ok s a)] : List Action → State → Option State
  | [], s => some s
  | a :: as, s =>
    if ok s a ∧ Enabled s a then
      match next s a with
      | .ok s' => walkWhile ok as s'
      | .error _ => none
    else none

theorem Run.walkWhile {ok : State → Action → Prop} [∀ s a, Decidable (ok s a)] {as : List Action} :
    ∀ {s₀ s s' : State}, Run ok s₀ s → Kernel.walkWhile ok as s = some s' → Run ok s₀ s' := by
  induction as with
  | nil =>
    intro s₀ s s' hr hw
    cases hw
    exact hr
  | cons a as ih =>
    intro s₀ s s' hr hw
    unfold Kernel.walkWhile at hw
    split at hw
    · rename_i hadm
      split at hw
      · rename_i s₁ hs
        exact ih (.step hr hadm.1 hadm.2 hs) hw
      · cases hw
    · cases hw

/-- A state that a fixed run comes to. -/
theorem exists_run {ok : State → Action → Prop} [∀ s a, Decidable (ok s a)] {s₀ : State} (as : List Action)
    (p : State → Bool) (h : (walkWhile ok as s₀).any p = true) : ∃ s, Run ok s₀ s ∧ p s = true := by
  obtain ⟨s, hw, hp⟩ := (Option.any_eq_true _ _).mp h
  exact ⟨s, Run.start.walkWhile hw, hp⟩

end AlienOS.Kernel
