import AlienOS.Kernel.Steps

/-!
# Turn — the handler, from the interrupt to the thread that runs next
-/

open AlienOS.Lib

namespace AlienOS.Kernel

section

variable {s s' : State} {op : Op} {ops rest reap : List Op} {x : Tid} {a : Action}

/-! ## In -/

theorem interrupted_status {node : Option Tid} (hp : Placed s node) (lists : Links ListId Tid) {t : Tid}
    (ht : homeOf s.trace t ≠ some .sleepingThreads) : (s.interrupted lists).status t = s.status t :=
  if_neg fun hm ↦ ht (dueNext_asleep hp hm)

theorem listsOf_interrupted (lists : Links ListId Tid) {i : ListId} (h₁ : i ≠ .readyThreads)
    (h₂ : i ≠ .sleepingThreads) : listsOf (s.interrupted lists).trace i = listsOf s.trace i :=
  listsOf_wakeEvents h₁ h₂ _ _

theorem current_not_asleep {node : Option Tid} (hp : Placed s node) :
    homeOf s.trace s.currentThread ≠ some .sleepingThreads := by
  intro hh
  obtain ⟨q, hq⟩ := hp.standing.cur_waits hh
  cases hq

/-- A tick makes no thread and ends none. -/
theorem Births.kept_interrupted {node : Option Tid} (h : Births s s.making) (hp : Placed s node)
    (hnode : ops.filter (fun op ↦ op.node.isSome) = s.stack.filter fun op ↦ op.node.isSome)
    (lists : Links ListId Tid) : Kept s (({ s with stack := ops } : State).interrupted lists) := by
  have hstatus : ∀ t, homeOf s.trace t ≠ some .sleepingThreads →
      (({ s with stack := ops } : State).interrupted lists).status t = s.status t :=
    fun t ht ↦ interrupted_status (hp.restack ops) lists ht
  refine ⟨rfl, rfl, threadsOf_wakeEvents _ _, ?_, fun t ↦ ?_, fun hx ↦ ?_, fun _ ↦ rfl⟩
  · refine making_eq rfl (fun t ht ↦ Function.update_of_ne ht _ _) ?_
    rw [← hnode]
    rfl
  · by_cases ht : homeOf s.trace t = some .sleepingThreads
    · have hsleep : s.status t = .sleeping := hp.standing.status_eq ht
      have hsleep' : (({ s with stack := ops } : State).interrupted lists).status t = .ready ∨
          (({ s with stack := ops } : State).interrupted lists).status t = .sleeping := by
        rw [← hsleep]
        exact ite_eq_or_eq _ _ _
      rw [hsleep]
      rcases hsleep' with he | he
      · rw [he]
        decide
      · rw [he]
    · rw [hstatus t ht]
  · obtain ⟨hcur, hhome⟩ := h.outside hp hx
    exact ⟨hstatus _ (by rw [hhome]; simp), Function.update_of_ne hcur _ _⟩

/-- The interrupt of a thread that has `ops` to come back to. -/
theorem Orderly.advances_enter (h : Orderly s) (hst : Closed s.stack) (hc : Closed ops)
    (hnode : ops.filter (fun op ↦ op.node.isSome) = s.stack.filter fun op ↦ op.node.isSome)
    (hj : Job s.idleThread s.currentThread ops) (hr : reapingOf s.stack = none)
    (hm : ∀ s', s.mark a s' = none) (hs : isrIRQ0 { s with stack := ops } = .ok s') :
    Advances s a s' := by
  have hp := h.placed_none hst.apart
  obtain ⟨lists, hrun, hp'⟩ := isrIRQ0_interrupted (s := { s with stack := ops }) (hp.restack ops)
  rw [hs] at hrun
  cases hrun
  have hkept := h.births.kept_interrupted hp hnode lists
  have hzombie : ∀ i, i ≠ .readyThreads → i ≠ .sleepingThreads →
      listsOf (({ s with stack := ops } : State).interrupted lists).trace i = listsOf s.trace i :=
    fun i h₁ h₂ ↦ listsOf_interrupted (s := { s with stack := ops }) lists h₁ h₂
  have hl := h.lock
  rw [hst.heapPhase] at hl
  refine ⟨h.stay hkept hst.apart (.cons rfl) rfl (fun t ht ↦ Function.update_of_ne ht _ _) hp' ?_
    ⟨ops, hj, .handler s.interrupts (s.status s.currentThread) [] ?_ ?_ rfl
      (interrupted_status (hp.restack ops) lists (current_not_asleep (hp.restack ops))) hc (.inl rfl)⟩, ?_⟩
  · refine ⟨?_, hl.count, hl.holder, fun hh ↦ by cases hh⟩
    rw [hp'.rep.head, hzombie _ (by simp) (by simp), ← hp.rep.head]
    exact hl.queue
  · rw [hzombie _ (by simp) (by simp)]
    rfl
  · exact Function.update_self _ _ _
  · exact ages_of_eq (hm _) (hkept.lifeOf rfl hr hj.reapingOf)

/-! ## Out -/

theorem listsOf_switchEvents {q : WaitQueue} (s : State) (next : Tid) (tr : List Event) :
    listsOf (s.switchEvents next ++ tr) (.waitQueue q) = listsOf tr (.waitQueue q) := by
  have hout : listsOf ((if next = s.idleThread then [] else [.removed .readyThreads next]) ++ tr)
      (.waitQueue q) = listsOf tr (.waitQueue q) := by
    split
    · rfl
    · exact listsOf_other tr (by simp) (by simp)
  unfold State.switchEvents State.filedOn
  rw [List.append_assoc]
  by_cases hi : s.currentThread = s.idleThread
  · rw [if_pos hi]
    exact hout
  · rw [if_neg hi]
    cases s.status s.currentThread with
    | blocked => exact hout
    | ready => exact hout
    | _ => exact (listsOf_other _ (by simp) (by simp)).trans hout

theorem filed_zombie (st : ThreadStatus) : st.filed = .zombie ↔ st = .zombie := by
  cases st <;> decide

/-- The thread that runs next, if it is another one. -/
theorem Births.kept_switch (h : Births s s.making) {next : Tid} (lists : Links ListId Tid)
    (hp : Placed s none) (hne : next ≠ s.currentThread)
    (hmem : next ∈ threadsOf s.trace ∨ next = s.idleThread) (hready : s.status next = .ready)
    (hback : (s.esp s.currentThread).filter (fun op ↦ op.node.isSome) =
      s.stack.filter fun op ↦ op.node.isSome) : Kept s (s.switched next lists) := by
  refine ⟨rfl, rfl, threadsOf_switchEvents _ _ _, ?_, fun t ↦ ?_, fun {t x} hx ↦ ?_, fun _ ↦ rfl⟩
  · funext t
    unfold State.making State.stackOf
    by_cases hn : t = next
    · subst hn
      rw [if_neg hne]
      exact congrArg _ (if_pos rfl)
    · by_cases hc : t = s.currentThread
      · subst hc
        rw [if_pos rfl, ← hback]
        exact congrArg _ (if_neg hn)
      · rw [if_neg hc]
        exact congrArg _ (if_neg hn)
  · show Function.update (Function.update s.status s.currentThread _) next .running t = .zombie ↔ _
    by_cases hn : t = next
    · subst hn
      rw [Function.update_self, hready]
      decide
    · rw [Function.update_of_ne hn]
      by_cases hc : t = s.currentThread
      · subst hc
        rw [Function.update_self]
        exact filed_zombie _
      · rw [Function.update_of_ne hc]
  · obtain ⟨hn, hi, -⟩ := h.fresh hx
    have hxc := (hp.standing.outside hn hi).1
    have hxn : x ≠ next := by
      rintro rfl
      exact hmem.elim hn hi
    refine ⟨?_, rfl⟩
    show Function.update (Function.update s.status s.currentThread _) next .running x = _
    rw [Function.update_of_ne hxn, Function.update_of_ne hxc]

/-- What `mark` says of the end of the handler. -/
theorem mark_dispatch {entered : ThreadStatus} (hst : s.stack = .cleanZombies none entered :: rest)
    (s' : State) : s.mark .exec s' = if s.status s.currentThread = .zombie ∧ s'.currentThread ≠ s.currentThread then
      some (s.currentThread, .left) else none := by
  unfold State.mark
  rw [hst]

theorem Orderly.advances_stay (h : Orderly s) {enabled : Bool} {entered : ThreadStatus}
    (hst : s.stack = .cleanZombies none entered :: .iret enabled :: ops)
    (he : s.esp s.currentThread = .iret enabled :: ops) (hi : s.interrupts = false) (hc : Closed ops)
    (hj : Job s.idleThread s.currentThread ops) (hrun : s.status s.currentThread = .running) :
    Advances s .exec { s with stack := s.esp s.currentThread } := by
  have hclosed : Closed s.stack := hst ▸ .of_skip rfl
  have hclosed' : Closed (s.esp s.currentThread) := he ▸ .of_skip rfl
  have hl := h.lock
  rw [hclosed.heapPhase] at hl
  have hkept : Kept s { s with stack := s.esp s.currentThread } :=
    kept_stack s.interrupts (by rw [hst, he]; rfl)
  refine ⟨h.stay hkept hclosed.apart hclosed'.apart rfl (fun _ _ ↦ rfl)
    ((h.placed_none hclosed.apart).restack _) ?_ ⟨ops, hj, .resumed enabled he hi hrun hc⟩, ?_⟩
  · show State.LockIs _ (heapPhase (s.esp s.currentThread))
    rw [hclosed'.heapPhase]
    exact ⟨hl.queue, hl.count, hl.holder, hl.depth⟩
  · have hm := mark_dispatch hst { s with stack := s.esp s.currentThread }
    rw [if_neg fun hz ↦ hz.2 rfl] at hm
    apply ages_of_eq hm
    apply hkept.lifeOf rfl
    · rw [hst]
      exact hj.reapingOf
    · show reapingOf (s.esp s.currentThread) = none
      rw [he]
      exact hj.reapingOf

theorem Orderly.advances_switch (h : Orderly s) {enabled : Bool} {entered : ThreadStatus} {nxt : Tid}
    {lists : Links ListId Tid} (hst : s.stack = .cleanZombies none entered :: .iret enabled :: ops)
    (he : s.esp s.currentThread = .iret enabled :: ops) (hi : s.interrupts = false) (hc : Closed ops)
    (hj : Job s.idleThread s.currentThread ops) (hp' : Placed (s.switched nxt lists) none)
    (hne : nxt ≠ s.currentThread) (hmem : nxt ∈ threadsOf s.trace ∨ nxt = s.idleThread)
    (hready : s.status nxt = .ready) : Advances s .exec (s.switched nxt lists) := by
  have hclosed : Closed s.stack := hst ▸ .of_skip rfl
  have hp := h.placed_none hclosed.apart
  have hl := h.lock
  rw [hclosed.heapPhase] at hl
  obtain ⟨b, ops', hesp, hj', hc'⟩ := h.parked nxt hmem hne
  have hclosed' : Closed (s.switched nxt lists).stack := by
    show Closed (s.esp nxt)
    rw [hesp]
    exact .of_skip rfl
  have hkept := h.births.kept_switch lists hp hne hmem hready (by rw [hst, he]; rfl)
  have hrun : (s.switched nxt lists).status nxt = .running := Function.update_self _ _ _
  refine ⟨h.keep hkept hclosed.apart hclosed'.apart hp' ?_
    ⟨ops', hj', .resumed b hesp hi hrun hc'⟩ fun t ht hn ↦ ?_, ?_⟩
  · rw [hclosed'.heapPhase]
    refine ⟨?_, hl.count, hl.holder, fun hh ↦ by cases hh⟩
    have hq := hl.queue
    rw [hp.rep.head] at hq
    rw [hp'.rep.head]
    show (listsOf (s.switchEvents nxt ++ s.trace) _).head? = none
    rwa [listsOf_switchEvents]
  · by_cases hcur : t = s.currentThread
    · subst hcur
      exact ⟨enabled, ops, he, hj, hc⟩
    · exact h.parked t ht hcur
  · have hr : reapingOf s.stack = none := by
      rw [hst]
      exact hj.reapingOf
    have hr' : reapingOf (s.switched nxt lists).stack = none := by
      show reapingOf (s.esp nxt) = none
      rw [hesp]
      exact hj'.reapingOf
    have hother : ∀ y, ¬ (y = s.currentThread ∧ s.status y = .zombie) →
        (s.switched nxt lists).lifeOf y = s.lifeOf y := by
      intro y hy
      rw [lifeOf_of_none hr, lifeOf_of_none hr', hkept.threads]
      have hz := hkept.zombies y
      by_cases hd : s.status y = .zombie
      · have hyc : y ≠ s.currentThread := fun he ↦ hy ⟨he, hd⟩
        have hyn : y ≠ (s.switched nxt lists).currentThread := by
          rintro rfl
          rw [hz.mpr hd] at hrun
          cases hrun
        rw [if_pos hd, if_pos (hz.mpr hd), if_neg hyc, if_neg hyn]
      · rw [if_neg hd, if_neg fun he ↦ hd (hz.mp he)]
    have hm := mark_dispatch hst (s.switched nxt lists)
    by_cases hd : s.status s.currentThread = .zombie
    · rw [if_pos ⟨hd, hne⟩] at hm
      rw [hm]
      apply Ages.some
      · have hmem : s.currentThread ∈ threadsOf s.trace := by
          apply hp.standing.cur_mem.resolve_left
          intro hidle
          rw [hidle, hp.standing.idle_running hidle.symm] at hd
          cases hd
        have hbefore : s.lifeOf s.currentThread = .exited := by
          rw [lifeOf_of_none hr, if_pos hmem, if_pos hd, if_pos rfl]
        have hafter : (s.switched nxt lists).lifeOf s.currentThread = .left := by
          rw [lifeOf_of_none hr', hkept.threads, if_pos hmem, if_pos ((hkept.zombies _).mpr hd)]
          exact if_neg hne.symm
        rw [hbefore, hafter]
        rfl
      · exact fun y hy ↦ hother y fun hc ↦ hy hc.1
    · rw [if_neg fun hz ↦ hd hz.1] at hm
      apply ages_of_eq hm
      intro y
      apply hother
      rintro ⟨rfl, hz⟩
      exact hd hz

/-- The end of the handler, with no zombies left. -/
theorem Orderly.advances_dispatch (h : Orderly s) {enabled : Bool} {entered : ThreadStatus}
    (hst : s.stack = .cleanZombies none entered :: .iret enabled :: ops)
    (he : s.esp s.currentThread = .iret enabled :: ops) (hi : s.interrupts = false) (hc : Closed ops)
    (hj : Job s.idleThread s.currentThread ops) (hs : next s .exec = .ok s') :
    Advances s .exec s' := by
  have hclosed : Closed s.stack := hst ▸ .of_skip rfl
  have hp := h.placed_none hclosed.apart
  have hexec : cleanZombies none entered { s with stack := .iret enabled :: ops } = .ok s' := by
    simp only [next, hst] at hs
    exact hs
  have hp₀ := hp.restack (.iret enabled :: ops)
  by_cases hstay : listsOf s.trace .readyThreads = [] ∧ s.status s.currentThread = .running
  · rw [cleanZombies_stay entered hp₀ hstay.1 hstay.2] at hexec
    cases hexec
    exact h.advances_stay hst he hi hc hj hstay.2
  · obtain ⟨nxt, lists, hrun, hp', hne, hnext⟩ := cleanZombies_switch entered hp₀ hstay
    rw [hrun] at hexec
    cases hexec
    have hne : nxt ≠ s.currentThread := hne
    have hnext : (nxt = s.idleThread ∧ s.status nxt = .ready) ∨
        (nxt ∈ threadsOf s.trace ∧ s.status nxt = .ready) := by
      rcases hnext with ⟨hn, -⟩ | ⟨-, ys, hys⟩
      · have hn : nxt = s.idleThread := hn
        subst hn
        exact .inl ⟨rfl, hp.standing.idle_ready hne⟩
      · have hys : listsOf s.trace .readyThreads = ys ++ [nxt] := hys
        have hhome := hp.home_of_mem (x := nxt) (i := .readyThreads) (by simp [hys])
        exact .inr ⟨hp.standing.mem hhome, hp.standing.status_eq hhome⟩
    rcases hnext with ⟨hm, hready⟩ | ⟨hm, hready⟩
    · exact h.advances_switch hst he hi hc hj hp' hne (.inr hm) hready
    · exact h.advances_switch hst he hi hc hj hp' hne (.inl hm) hready

/-! ## The zombies -/

theorem listsOf_reaped {q : WaitQueue} (x : Tid) (tr : List Event) :
    listsOf (.reaped x :: .removed .zombieThreads x :: tr) (.waitQueue q) =
      listsOf tr (.waitQueue q) :=
  (listsOf_other _ (by simp) (by simp)).trans (listsOf_other _ (by simp) (by simp))

theorem reapingOf_unlinked (x : Tid) (ops : List Op) :
    reapingOf (kfreeOps none ++ kfreeOps (some x) ++ ops) = some x := rfl

theorem stackLeft_unlinked (x : Tid) (ops : List Op) :
    stackLeft (kfreeOps none ++ kfreeOps (some x) ++ ops) = true := by
  simp [stackLeft, kfreeOps, Op.freed]

theorem threadsOf_reaped (x : Tid) (tr : List Event) (t : Tid) :
    t ∈ threadsOf (.reaped x :: .removed .zombieThreads x :: tr) ↔ t ∈ threadsOf tr ∧ t ≠ x := by
  simp [threadsOf, Event.onThreads]

theorem making_unlinked {enabled : Bool} {entered : ThreadStatus} {zombie z : Option Tid}
    {lists : Links ListId Tid} {all : Links Unit Tid}
    (hst : s.stack = .cleanZombies z entered :: .iret enabled :: ops) :
    State.making (({ s with stack := .iret enabled :: ops } : State).unlinked x zombie entered lists
      all) = s.making := by
  refine making_eq rfl (fun _ _ ↦ rfl) ?_
  rw [hst]
  rfl

/-- A zombie makes no thread. -/
theorem Births.reaped {s' : State} (h : Births s s.making) (hd : s.status x = .zombie)
    (hs : s'.status = s.status) (he : s'.esp = s.esp) (hi : s'.idleThread = s.idleThread)
    (hal : s'.allocated = s.allocated)
    (ht : s'.trace = .reaped x :: .removed .zombieThreads x :: s.trace) : Births s' s.making := by
  refine ⟨fun hm ↦ ?_, fun hy ↦ ?_, h.sole, fun hy hn ↦ ?_, fun hm ↦ ?_⟩
  · obtain ⟨hm, hn⟩ := h.maker hm
    rw [ht, threadsOf_reaped, hs]
    refine ⟨⟨hm, ?_⟩, hn⟩
    rintro rfl
    exact hn hd
  · obtain ⟨hn, hrest⟩ := h.fresh hy
    rw [ht, threadsOf_reaped, hi, hal]
    exact ⟨fun hm ↦ hn hm.1, hrest⟩
  · rw [hs, he]
    exact h.made hy hn
  · rw [ht, threadsOf_reaped] at hm
    rw [hal]
    exact h.allocated hm.1

/-- A zombie comes off both lists. -/
theorem Orderly.advances_reap (h : Orderly s) {enabled : Bool} {entered : ThreadStatus}
    (hst : s.stack = .cleanZombies (some x) entered :: .iret enabled :: ops)
    (hx : (listsOf s.trace .zombieThreads).head? = some x)
    (he : s.esp s.currentThread = .iret enabled :: ops) (hi : s.interrupts = false)
    (hen : s.status s.currentThread = entered) (hc : Closed ops)
    (hj : Job s.idleThread s.currentThread ops) (hs : next s .exec = .ok s') :
    Advances s .exec s' := by
  have hclosed : Closed s.stack := hst ▸ .of_skip rfl
  have hp := h.placed_none hclosed.apart
  have hl := h.lock
  rw [hclosed.heapPhase] at hl
  have hexec : cleanZombies (some x) entered { s with stack := .iret enabled :: ops } = .ok s' := by
    simp only [next, hst] at hs
    exact hs
  obtain ⟨xs, hL⟩ : ∃ xs, listsOf s.trace .zombieThreads = x :: xs := by
    cases hz : listsOf s.trace .zombieThreads with
    | nil => rw [hz] at hx; cases hx
    | cons y ys =>
      rw [hz] at hx
      cases hx
      exact ⟨ys, rfl⟩
  have hhome := hp.home_of_mem (x := x) (i := .zombieThreads) (by simp [hL])
  have hmem : x ∈ threadsOf s.trace := hp.standing.mem hhome
  have hdead : s.status x = .zombie := hp.standing.status_eq hhome
  have hxi : x ≠ s.idleThread := by
    rintro rfl
    exact hp.standing.idle_not_mem hmem
  have hxc : x ≠ s.currentThread := by
    rintro rfl
    obtain ⟨q, hq⟩ := hp.standing.cur_waits hhome
    cases hq
  obtain ⟨lists, all, rfl, hrem, hp', -⟩ := cleanZombies_reap (hp.restack (.iret enabled :: ops)) hL hexec
  have hsame : State.making (({ s with stack := .iret enabled :: ops } : State).unlinked x xs.head?
      entered lists all) = s.making := making_unlinked hst
  have hthreads := threadsOf_reaped x s.trace
  have hmade : ∀ t, ¬ Makes s.making t x := fun t ht ↦ (h.births.fresh ht).1 hmem
  refine ⟨⟨hp', trivial, ?_, trivial, ?_, ?_, ⟨ops, hj, .handler enabled entered
    (kfreeOps none ++ kfreeOps (some x)) ?_ he hi hen hc (.inr ⟨x, .stack .acquire, ?_, hxi, ?_⟩)⟩,
    fun t ht hn ↦ ?_⟩, ?_⟩
  · obtain ⟨ts, hrep, hts⟩ := h.registered
    rw [hclosed.apart.inserting] at hrep
    obtain ⟨as, bs, rfl⟩ := List.append_of_mem ((hts x).mpr (.inr (.inl hmem)))
    obtain ⟨l', hrun, hrep', -⟩ := rep_threadListRemove (i := ()) hrep rfl rfl id
    rw [hrun] at hrem
    cases hrem
    have hnd := List.nodup_middle.mp (hrep.nodup ())
    refine ⟨as ++ bs, ?_, fun t ↦ ?_⟩
    · have hu : Function.update (fun _ : Unit ↦ as ++ x :: bs) () (as ++ bs) = fun _ ↦ as ++ bs := by
        funext i
        exact Function.update_self _ _ _
      rw [hu] at hrep'
      exact hrep'
    · have ht : t ∈ as ++ bs ↔ t ∈ as ++ x :: bs ∧ t ≠ x := by
        have hxn := (List.nodup_cons.mp hnd).1
        constructor
        · intro hm
          constructor
          · rcases List.mem_append.mp hm with hm | hm <;> simp [hm]
          · rintro rfl
            exact hxn hm
        · rintro ⟨hm, hne⟩
          simpa [hne] using hm
      have hidle : t = s.idleThread → t ≠ x := fun ht he ↦ hxi (he.symm.trans ht)
      have hhalf : Halfway s.making t → t ≠ x := by
        rintro ⟨u, hu, -⟩ rfl
        exact hmade u ⟨_, hu, rfl⟩
      have hiff := hthreads t
      rw [ht, hts t, hsame]
      constructor
      · rintro ⟨hm | hm | hm, hne⟩
        · exact .inl hm
        · exact .inr (.inl (hiff.mpr ⟨hm, hne⟩))
        · exact .inr (.inr hm)
      · rintro (hm | hm | hm)
        · exact ⟨.inl hm, hidle hm⟩
        · exact ⟨.inr (.inl (hiff.mp hm).1), (hiff.mp hm).2⟩
        · exact ⟨.inr (.inr hm), hhalf hm⟩
  · rw [hsame]
    exact h.births.reaped hdead rfl rfl rfl rfl rfl
  · refine ⟨?_, hl.count, hl.holder, fun hh ↦ by cases hh⟩
    have hq := hl.queue
    rw [hp.rep.head] at hq
    rw [hp'.rep.head]
    show (listsOf (.reaped x :: .removed .zombieThreads x :: s.trace) _).head? = none
    rwa [listsOf_reaped]
  · have hz : listsOf (.reaped x :: .removed .zombieThreads x :: s.trace) .zombieThreads = xs := by
      rw [listsOf_other _ (by simp) (by simp)]
      simp [listsOf, Event.onLists, hL]
    show _ = _ ++ Op.cleanZombies (listsOf (.reaped x :: .removed .zombieThreads x :: s.trace)
      .zombieThreads).head? entered :: _
    rw [hz]
    rfl
  · exact fun hm ↦ ((hthreads x).mp hm).2 rfl
  · rw [hsame]
    exact hmade
  · exact h.parked t (ht.imp_left fun hm ↦ ((hthreads t).mp hm).1) hn
  · have hr : reapingOf s.stack = none := by
      rw [hst]
      exact hj.reapingOf
    have hm : ∀ s', s.mark .exec s' = none := by
      intro s'
      unfold State.mark
      rw [hst]
    apply ages_of_eq (hm _)
    intro y
    by_cases hy : y = x
    · subst hy
      rw [lifeOf_of_none hr, if_pos hmem, if_pos hdead, if_neg hxc]
      exact (lifeOf_of_reaping (fun hm ↦ ((hthreads y).mp hm).2 rfl) (reapingOf_unlinked y _)).trans
        (if_pos (stackLeft_unlinked y _))
    · apply lifeOf_congr
      · exact (hthreads y).trans (and_iff_left hy)
      · exact .rfl
      · exact .rfl
      · rw [hr]
        constructor
        · intro hry
          exact absurd (Option.some.inj ((reapingOf_unlinked x _).symm.trans hry)).symm hy
        · intro hry
          cases hry
      · intro hry
        rw [hr] at hry
        cases hry

/-! ## Their memory -/

theorem Alike.ages_none (ha : Alike s s') (hm : s.mark a s' = none)
    (hr : reapingOf s'.stack = reapingOf s.stack)
    (hl : reapingOf s.stack ≠ none → stackLeft s'.stack = stackLeft s.stack) :
    Ages s (s.mark a s') s' := by
  apply ages_of_eq hm
  intro y
  apply lifeOf_congr
  · rw [ha.threadsOf]
  · rw [ha.status]
  · rw [ha.current]
  · rw [hr]
  · exact fun hy ↦ hl (by rw [hy]; simp)

theorem Alike.ages_some {m : Mark} (ha : Alike s s') (hm : s.mark a s' = some (x, m))
    (hr : reapingOf s.stack = some x) (hr' : ∀ y, reapingOf s'.stack = some y → y = x)
    (hn : (s.lifeOf x).next m = some (s'.lifeOf x)) : Ages s (s.mark a s') s' := by
  rw [hm]
  apply Ages.some hn
  intro y hy
  have hy₁ : reapingOf s.stack ≠ some y := fun he ↦ hy (Option.some.inj (he.symm.trans hr))
  have hy₂ : reapingOf s'.stack ≠ some y := fun he ↦ hy (hr' y he)
  apply lifeOf_congr
  · rw [ha.threadsOf]
  · rw [ha.status]
  · rw [ha.current]
  · exact iff_of_false hy₂ hy₁
  · exact fun he ↦ absurd he hy₁

/-- What the next operation leaves of the freeing of `x`. -/
structure ReapsNext (x : Tid) (reap tail : List Op) (op : Op) (rest : List Op) : Prop where
  eq : reap = op :: rest
  fits : op.HeapFits (rest ++ tail)
  flag : op.heapFlag false = false
  left : op.heapLeaves false ++ rest = [] ∨ Reaps x (op.heapLeaves false ++ rest)
  freed : ∀ y, op.freed = some y → y = x

theorem Reaps.next (h : Reaps x reap) (tail : List Op) (hc : Closed tail) :
    ∃ op rest, ReapsNext x reap tail op rest := by
  cases h with
  | stack h =>
    cases h with
    | acquire => exact ⟨_, _, rfl, .acquire _, rfl, .inr (.stack .acquired), by simp [Op.freed]⟩
    | acquired => exact ⟨_, _, rfl, .acquired _ _, rfl, .inr (.stack .start), by simp [Op.freed]⟩
    | start => exact ⟨_, _, rfl, .start _ _, rfl, .inr (.stack .finish), by simp [Op.freed]⟩
    | finish => exact ⟨_, _, rfl, .finish _ _, rfl, .inr (.stack .release), by simp [Op.freed]⟩
    | release =>
      exact ⟨_, _, rfl, .release (.cons rfl rfl), rfl, .inr (.thread .acquire), by simp [Op.freed]⟩
  | thread h =>
    cases h with
    | acquire => exact ⟨_, _, rfl, .acquire _, rfl, .inr (.thread .acquired), by simp [Op.freed]⟩
    | acquired => exact ⟨_, _, rfl, .acquired _ _, rfl, .inr (.thread .start), by simp [Op.freed]⟩
    | start => exact ⟨_, _, rfl, .start _ _, rfl, .inr (.thread .finish), by simp [Op.freed]⟩
    | finish => exact ⟨_, _, rfl, .finish _ _, rfl, .inr (.thread .release), by simp [Op.freed]⟩
    | release => exact ⟨_, _, rfl, .release hc, rfl, .inl rfl, by simp [Op.freed]⟩

/-- The stack of `x` is freed, and then `x`. -/
theorem Reaps.ages {tail : List Op} (h : Reaps x reap) (hst : s.stack = reap ++ tail)
    (ht : reapingOf tail = none) (hx : x ∉ threadsOf s.trace) (ha : Alike s s')
    (hn : ReapsNext x reap tail op rest) (hs' : s'.stack = op.heapLeaves false ++ rest ++ tail) :
    Ages s (s.mark .exec s') s' := by
  have hx' : x ∉ threadsOf s'.trace := by rwa [ha.threadsOf]
  obtain ⟨heq, -, -, -, -⟩ := hn
  cases h with
  | stack h =>
    cases h with
    | finish =>
      cases heq
      have hm : s.mark .exec s' = some (x, .stackFreed) := by
        unfold State.mark
        rw [hst]
        rfl
      apply ha.ages_some hm
      · rw [hst]
        rfl
      · rw [hs']
        intro y hy
        exact (Option.some.inj hy).symm
      · rw [lifeOf_of_reaping hx (by rw [hst]; rfl), lifeOf_of_reaping hx' (by rw [hs']; rfl), hst, hs']
        simp [stackLeft, kfreeOps, Op.freed, Op.heapLeaves, Life.next]
    | _ =>
      cases heq
      apply ha.ages_none
      · unfold State.mark
        rw [hst]
        rfl
      · rw [hs', hst]
        rfl
      · intro _
        rw [hs', hst]
        simp [stackLeft, kfreeOps, Op.freed, Op.heapLeaves]
  | thread h =>
    cases h with
    | finish =>
      cases heq
      have hr' : reapingOf s'.stack = none := by
        rw [hs']
        exact ht
      have hm : s.mark .exec s' = some (x, .threadFreed) := by
        unfold State.mark
        rw [hst]
        rfl
      apply ha.ages_some hm
      · rw [hst]
        rfl
      · simp [hr']
      · rw [lifeOf_of_reaping hx (by rw [hst]; rfl), lifeOf_of_none hr', if_neg hx', hst]
        simp [stackLeft, Op.freed, Life.next]
    | release =>
      cases heq
      have hr : reapingOf s.stack = none := by
        rw [hst]
        exact ht
      have hr' : reapingOf s'.stack = none := by
        rw [hs']
        exact ht
      apply ha.ages_none
      · unfold State.mark
        rw [hst]
        rfl
      · rw [hr, hr']
      · exact fun hn ↦ absurd hr hn
    | _ =>
      cases heq
      apply ha.ages_none
      · unfold State.mark
        rw [hst]
        rfl
      · rw [hs', hst]
        rfl
      · intro _
        rw [hs', hst]
        simp [stackLeft, kfreeOps, Op.freed, Op.heapLeaves]

/-- A step of the two calls of `kfree`, on behalf of the interrupted thread. -/
theorem Orderly.advances_kfree (h : Orderly s) {enabled : Bool} {entered : ThreadStatus}
    (hst : s.stack = reap ++ .cleanZombies (listsOf s.trace .zombieThreads).head? entered ::
      .iret enabled :: ops) (hr : Reaps x reap) (hx : Condemned s x)
    (he : s.esp s.currentThread = .iret enabled :: ops) (hi : s.interrupts = false)
    (hen : s.status s.currentThread = entered) (hc : Closed ops)
    (hj : Job s.idleThread s.currentThread ops) (hs : next s .exec = .ok s') :
    Advances s .exec s' := by
  obtain ⟨op, rest, hn⟩ := hr.next (.cleanZombies (listsOf s.trace .zombieThreads).head? entered ::
    .iret enabled :: ops) (.of_skip rfl)
  have hst' := hst
  rw [hn.eq, List.cons_append] at hst'
  have hexec : exec op { s with stack := s.stack.tail } = .ok s' := by
    simpa only [next, hst', List.tail_cons] using hs
  rw [hst', List.tail_cons] at hexec
  obtain ⟨s₁, hrun, hh⟩ := exec_heap h.lock hst' hn.fits
  rw [hexec] at hrun
  cases hrun
  have ha := hh.alike
  have hstack := hh.stack
  rw [hi, ← List.append_assoc] at hstack
  have hapart : Apart s.stack := by
    rw [hst']
    exact .cons (heapFits_insert hn.fits)
  have hkept := hh.kept hst' hn.fits fun y hy ↦ by rwa [hn.freed y hy]
  have hx' : Condemned s' x := by
    unfold Condemned
    rw [ha.threadsOf, ha.idle, hkept.making]
    exact hx
  refine ⟨h.stay hkept hapart ?_ ha.current (fun t _ ↦ by rw [ha.esp]) (ha.placed (h.placed_none hapart))
    hh.lock ⟨ops, hj, .handler enabled entered (op.heapLeaves false ++ rest) ?_ ?_ ?_ ?_ hc ?_⟩, ?_⟩
  · rw [hh.stack]
    exact heapFits_apart hn.fits _
  · rw [ha.listsOf]
    exact hstack
  · rw [ha.esp, ha.current]
    exact he
  · rw [hh.interrupts, hi]
    exact hn.flag
  · rw [ha.status, ha.current]
    exact hen
  · exact hn.left.imp_right fun hl ↦ ⟨x, hl, hx'⟩
  · exact hr.ages hst hj.reapingOf hx.1 ha hn hstack

end

end AlienOS.Kernel
