import AlienOS.Kernel.Steps

/-!
# Making — `thread_create_arg` once it has an address for the new thread

The thread that makes another has the processor to itself while it inserts.
-/

open AlienOS.Lib

namespace AlienOS.Kernel

/-- What follows the insertion in a list. -/
def afterInsert (x : Tid) : Registry → List Op
  | .allThreads => .mutexRelease .allThreadsLock :: .mutexAcquire .localThreadsLock ::
    (threadListAddOps .readyThreads x ++ [.mutexRelease .localThreadsLock])
  | .readyThreads => [.mutexRelease .localThreadsLock]

/-- The statements about `x`, with what follows them. -/
inductive InsertAt (x : Tid) : Op → List Op → Prop where
  | init : InsertAt x (.internalThreadInit x) (.mutexAcquire .allThreadsLock ::
      (threadListAddOps .allThreads x ++ afterInsert x .allThreads))
  | headPrev (list : Registry) : InsertAt x (.addHeadPrev list x)
      (.addNodeNext list x :: .addNodePrev list x :: .addHead list x :: afterInsert x list)
  | nodeNext (list : Registry) : InsertAt x (.addNodeNext list x)
      (.addNodePrev list x :: .addHead list x :: afterInsert x list)
  | nodePrev (list : Registry) : InsertAt x (.addNodePrev list x)
      (.addHead list x :: afterInsert x list)
  | head (list : Registry) : InsertAt x (.addHead list x) (afterInsert x list)

section

variable {s s' : State} {op o : Op} {ops rest : List Op} {x y t : Tid}

theorem insertAt_of_suffix (h : op :: rest <:+ threadInsertOps x) (hx : op.node = some x) :
    InsertAt x op rest := by
  simp only [threadInsertOps, threadListAddOps, List.cons_append, List.nil_append,
    List.suffix_cons_iff, List.suffix_nil, List.cons.injEq, reduceCtorEq, or_false] at h
  rcases h with ⟨rfl, rfl⟩ | ⟨rfl, rfl⟩ | ⟨rfl, rfl⟩ | ⟨rfl, rfl⟩ | ⟨rfl, rfl⟩ | ⟨rfl, rfl⟩ |
    ⟨rfl, rfl⟩ | ⟨rfl, rfl⟩ | ⟨rfl, rfl⟩ | ⟨rfl, rfl⟩ | ⟨rfl, rfl⟩ | ⟨rfl, rfl⟩ | ⟨rfl, rfl⟩
  · exact .init
  · cases hx
  · exact .headPrev .allThreads
  · exact .nodeNext .allThreads
  · exact .nodePrev .allThreads
  · exact .head .allThreads
  · cases hx
  · cases hx
  · exact .headPrev .readyThreads
  · exact .nodeNext .readyThreads
  · exact .nodePrev .readyThreads
  · exact .head .readyThreads
  · cases hx

/-- All of it is about `x`. -/
theorem insert_sole (h : ops <:+ threadInsertOps x) (ho : o ∈ ops) (hy : o.node = some y) :
    y = x := by
  have hx : ∀ o ∈ threadInsertOps x, ∀ y, o.node = some y → y = x := by
    simp [threadInsertOps, threadListAddOps, Op.node]
  exact hx o (h.subset ho) y hy

namespace InsertAt

theorem node (h : InsertAt x op rest) : op.node = some x := by
  cases h <;> rfl

theorem heapPhase (h : InsertAt x op rest) : heapPhase rest = .free := by
  cases h with
  | head list => cases list <;> rfl
  | _ => rfl

theorem freed (h : InsertAt x op rest) : op.freed = none := by
  cases h <;> rfl

/-- The node is put on `ready_threads` last of all. -/
theorem ready_mem (h : InsertAt x op rest) : .addHead .readyThreads x ∈ op :: rest := by
  cases h with
  | init => simp [threadListAddOps, afterInsert]
  | headPrev list | nodeNext list | nodePrev list | head list =>
    cases list <;> simp [threadListAddOps, afterInsert]

end InsertAt

/-! ## What is left to be made -/

theorem making_other (hcur : s'.currentThread = s.currentThread) (ht : t ≠ s.currentThread)
    (he : s'.esp t = s.esp t) : s'.making t = s.making t := by
  unfold State.making State.stackOf
  rw [hcur, if_neg ht, if_neg ht, he]

/-- The thread that makes `x` has come past a statement. -/
theorem making_pop (hcur : s'.currentThread = s.currentThread)
    (hesp : ∀ t, t ≠ s.currentThread → s'.making t = s.making t) (hst' : s'.stack = rest) :
    s'.making = Function.update s.making s.currentThread (rest.filter fun op ↦ op.node.isSome) := by
  funext t
  by_cases ht : t = s.currentThread
  · subst ht
    rw [Function.update_self]
    unfold State.making State.stackOf
    rw [if_pos hcur.symm, hst']
  · rw [Function.update_of_ne ht]
    exact hesp t ht

theorem making_current (hst : s.stack = op :: rest) (hx : op.node = some x) :
    s.making s.currentThread = op :: rest.filter fun op ↦ op.node.isSome := by
  unfold State.making State.stackOf
  rw [if_pos rfl, hst, List.filter_cons_of_pos (by rw [hx]; rfl)]

section

variable {making : Tid → List Op} {c : Tid} {left : List Op}

theorem Makes.of_pop (hsub : ∀ o ∈ left, o ∈ making c)
    (h : Makes (Function.update making c left) t y) : Makes making t y := by
  obtain ⟨o, ho, hy⟩ := h
  by_cases ht : t = c
  · subst ht
    rw [Function.update_self] at ho
    exact ⟨o, hsub o ho, hy⟩
  · rw [Function.update_of_ne ht] at ho
    exact ⟨o, ho, hy⟩

/-- Whether `y` is halfway depends on the two heads that are left. -/
theorem halfway_pop (hall : ∀ y, .addHead .allThreads y ∈ left ↔ .addHead .allThreads y ∈ making c)
    (hready : ∀ y, .addHead .readyThreads y ∈ left ↔ .addHead .readyThreads y ∈ making c) :
    Halfway (Function.update making c left) y ↔ Halfway making y := by
  have hmem : ∀ t (o : Op), (o ∈ left ↔ o ∈ making c) →
      (o ∈ Function.update making c left t ↔ o ∈ making t) := by
    intro t o ho
    by_cases ht : t = c
    · subst ht
      rw [Function.update_self]
      exact ho
    · rw [Function.update_of_ne ht]
  constructor
  · rintro ⟨t, h₁, h₂⟩
    exact ⟨t, (hmem t _ (hready y)).mp h₁, fun hm ↦ h₂ ((hmem t _ (hall y)).mpr hm)⟩
  · rintro ⟨t, h₁, h₂⟩
    exact ⟨t, (hmem t _ (hready y)).mpr h₁, fun hm ↦ h₂ ((hmem t _ (hall y)).mp hm)⟩

end

/-- What stays of the other threads that are being made. -/
theorem Births.pop {left : List Op} (h : Births s s.making)
    (hsub : ∀ o ∈ left, o ∈ s.making s.currentThread) (hne : s.making s.currentThread ≠ [])
    (hth : ∀ t, t ∈ threadsOf s.trace → t ∈ threadsOf s'.trace)
    (hz : ∀ t, t ∈ threadsOf s.trace → s'.status t = .zombie → s.status t = .zombie)
    (hfresh : ∀ {t y}, Makes (Function.update s.making s.currentThread left) t y →
      y ∉ threadsOf s'.trace)
    (hidle : s'.idleThread = s.idleThread) (hal : s'.allocated = s.allocated)
    (hmade : ∀ {t y}, Makes (Function.update s.making s.currentThread left) t y →
      .internalThreadInit y ∉ Function.update s.making s.currentThread left t →
      s'.status y = .ready ∧ s'.esp y = [.iret true])
    (hnew : ∀ t, t ∈ threadsOf s'.trace → s.allocated t = true) :
    Births s' (Function.update s.making s.currentThread left) := by
  refine ⟨fun {t} ht ↦ ?_, fun hy ↦ ⟨hfresh hy, ?_⟩, fun hy hu ↦ ?_, hmade, fun ht ↦ ?_⟩
  · have hm : s.making t ≠ [] := by
      by_cases hc : t = s.currentThread
      · rw [hc]
        exact hne
      · rwa [Function.update_of_ne hc] at ht
    obtain ⟨hm, hn⟩ := h.maker hm
    exact ⟨hth t hm, fun he ↦ hn (hz t hm he)⟩
  · rw [hidle, hal]
    exact (h.fresh (hy.of_pop hsub)).2
  · exact h.sole (hy.of_pop hsub) (hu.of_pop hsub)
  · rw [hal]
    exact hnew _ ht

/-- Past the initialisation, nothing about it is left. -/
theorem made_pop (hc : s.making s.currentThread = op :: ops) (hop : ∀ y, op ≠ .internalThreadInit y)
    (hn : .internalThreadInit y ∉ Function.update s.making s.currentThread ops t) :
    .internalThreadInit y ∉ s.making t := by
  by_cases ht : t = s.currentThread
  · subst ht
    rw [Function.update_self] at hn
    rw [hc, List.mem_cons, not_or]
    exact ⟨(hop y).symm, hn⟩
  · rwa [Function.update_of_ne ht] at hn

/-- The thread that makes `x` has come past a statement about it. -/
theorem making_rest {lists : Links ListId Tid} {allThreads : Links Unit Tid} :
    State.making { s with stack := rest, lists, allThreads } =
      Function.update s.making s.currentThread (rest.filter fun op ↦ op.node.isSome) :=
  making_pop rfl (fun _ ht ↦ making_other rfl ht rfl) rfl

theorem Births.linked (h : Births s s.making) (hst : s.stack = op :: rest) (hx : op.node = some x)
    (hop : ∀ y, op ≠ .internalThreadInit y) (lists : Links ListId Tid) (allThreads : Links Unit Tid) :
    Births { s with stack := rest, lists, allThreads }
      (State.making { s with stack := rest, lists, allThreads }) := by
  have hcur := making_current hst hx
  have hsub : ∀ o ∈ rest.filter fun op ↦ op.node.isSome, o ∈ s.making s.currentThread := by
    intro o ho
    rw [hcur]
    exact List.mem_cons_of_mem _ ho
  rw [making_rest]
  refine h.pop hsub (by rw [hcur]; simp) (fun _ ht ↦ ht) (fun _ _ he ↦ he)
    (fun hy ↦ (h.fresh (hy.of_pop hsub)).1) rfl rfl (fun hy hn ↦ ?_) fun _ ht ↦ h.allocated ht
  exact h.made (hy.of_pop hsub) (made_pop hcur hop hn)

/-! ## The statements of an insertion but the last -/

theorem Orderly.advances_link {lists : Links ListId Tid} {allThreads : Links Unit Tid}
    {all : List Tid} (h : Orderly s) (hst : s.stack = op :: rest)
    (hj : Job s.idleThread s.currentThread (op :: rest))
    (hrun : s.status s.currentThread = .running) (hat : InsertAt x op rest)
    (hinit : ∀ y, op ≠ .internalThreadInit y) (hhead : ∀ l y, op ≠ .addHead l y)
    (hrep : lists.Rep ListId.Tailed (pending (inserting .readyThreads rest)) (listsOf s.trace))
    (hw : Written .readyThreads lists .readyThreads rest)
    (hrep' : allThreads.Rep (fun _ ↦ False) (fun _ ↦ inserting .allThreads rest) fun _ ↦ all)
    (hall : ∀ t, t ∈ all ↔ t = s.idleThread ∨ t ∈ threadsOf s.trace ∨ Halfway s.making t)
    (hw' : Written .allThreads allThreads () rest) :
    Advances s .exec { s with stack := rest, lists, allThreads } := by
  have hp := h.placed
  have hl := h.lock
  have hphase : heapPhase s.stack = .free := by
    rw [hst]
    cases hat <;> rfl
  rw [hphase] at hl
  have hcur := making_current hst hat.node
  have hmem : ∀ l y, .addHead l y ∈ (rest.filter fun op ↦ op.node.isSome) ↔
      .addHead l y ∈ s.making s.currentThread := by
    intro l y
    rw [hcur, List.mem_cons, or_iff_right (hhead l y).symm]
  refine ⟨⟨⟨hrep, hp.agrees, hp.standing⟩, hw, ⟨all, hrep', fun t ↦ ?_⟩, hw', ?_, ?_,
    ⟨rest, hj.tail, .thread rfl (.inl hrun)⟩, h.parked⟩, ?_⟩
  · rw [making_rest, halfway_pop (hmem _) (hmem _)]
    exact hall t
  · exact h.births.linked hst hat.node hinit lists allThreads
  · show State.LockIs _ (Kernel.heapPhase rest)
    rw [hat.heapPhase]
    refine ⟨?_, hl.count, hl.holder, fun hh ↦ by cases hh⟩
    have hq := hl.queue
    rw [hp.rep.head] at hq
    rw [hrep.head]
    exact hq
  · have hm : ∀ s', s.mark .exec s' = none := by
      intro s'
      unfold State.mark
      rw [hst]
      cases hat with
      | head l => exact absurd rfl (hhead l x)
      | _ => rfl
    apply ages_of_eq (hm _)
    intro y
    have hr : reapingOf s.stack = none := by
      rw [hst]
      exact hj.reapingOf
    have hr' : reapingOf rest = none := hj.tail.reapingOf
    refine lifeOf_congr .rfl .rfl .rfl ?_ (by simp [hr])
    show reapingOf rest = _ ↔ _
    rw [hr, hr']

theorem Orderly.not_registered (h : Orderly s) {all : List Tid}
    (hall : ∀ t, t ∈ all ↔ t = s.idleThread ∨ t ∈ threadsOf s.trace ∨ Halfway s.making t)
    (hm : Makes s.making t x) (ha : .addHead .allThreads x ∈ s.making t) : x ∉ all := by
  intro hx
  obtain ⟨hn, hi, -⟩ := h.births.fresh hm
  rcases (hall x).mp hx with he | hx | ⟨u, hu, hna⟩
  · exact hi he
  · exact hn hx
  · rw [h.births.sole ⟨_, hu, rfl⟩ hm] at hna
    exact hna ha

theorem Orderly.unlisted (h : Orderly s) (hm : Makes s.making t x) (i : ListId) :
    x ∉ listsOf s.trace i := by
  intro hx
  have hhome := (h.placed.agrees i x).mp hx
  rw [(h.outside hm).2] at hhome
  cases hhome

theorem Orderly.advances_insert (h : Orderly s) (hst : s.stack = op :: rest)
    (hj : Job s.idleThread s.currentThread (op :: rest))
    (hrun : s.status s.currentThread = .running) (hat : InsertAt x op rest)
    (hinit : ∀ y, op ≠ .internalThreadInit y) (hhead : ∀ l y, op ≠ .addHead l y)
    (hs : next s .exec = .ok s') : Advances s .exec s' := by
  have hcur := making_current hst hat.node
  have hmakes : Makes s.making s.currentThread x := ⟨op, by rw [hcur]; simp, hat.node⟩
  have hrep := h.placed.rep
  have hwritten := h.written
  have hnoted := h.noted
  obtain ⟨all, hrep', hall⟩ := h.registered
  rw [hst] at hrep hrep' hwritten hnoted
  simp only [next, hst] at hs
  have hlink : ∀ {lists allThreads}, lists.Rep ListId.Tailed (pending (inserting .readyThreads rest))
      (listsOf s.trace) → Written .readyThreads lists .readyThreads rest →
      allThreads.Rep (fun _ ↦ False) (fun _ ↦ inserting .allThreads rest) (fun _ ↦ all) →
      Written .allThreads allThreads () rest →
      Advances s .exec { s with stack := rest, lists, allThreads } :=
    fun h₁ h₂ h₃ h₄ ↦ h.advances_link hst hj hrun hat hinit hhead h₁ h₂ h₃ hall h₄
  cases hat with
  | init => exact absurd rfl (hinit x)
  | head l => exact absurd rfl (hhead l x)
  | headPrev l =>
    cases l with
    | readyThreads =>
      cases hs
      refine hlink ?_ trivial hrep' trivial
      have hrep₁ := rep_addHeadPrev (i := .readyThreads) (x := x) hrep
      rwa [pending_update] at hrep₁
    | allThreads =>
      cases hs
      refine hlink hrep trivial ?_ trivial
      have hrep₁ := rep_addHeadPrev (i := ()) (x := x) hrep'
      have hu : Function.update (fun _ : Unit ↦ inserting .allThreads (.addHeadPrev .allThreads x :: [])) ()
          (some x) = fun _ ↦ some x := by
        funext i
        exact Function.update_self _ _ _
      exact hu ▸ hrep₁
  | nodeNext l =>
    cases l with
    | readyThreads =>
      cases hs
      refine hlink (hrep.setNode (h.unlisted hmakes) _).1 (fun _ ↦ ?_) hrep'
        fun hr ↦ by cases hr
      simp [addNodeNext]
    | allThreads =>
      cases hs
      have hx := h.not_registered hall hmakes (by rw [hcur]; simp [Op.node])
      refine hlink hrep (fun hr ↦ by cases hr) (hrep'.setNode (fun _ ↦ hx) _).1 fun _ ↦ ?_
      simp [addNodeNext]
  | nodePrev l =>
    cases l with
    | readyThreads =>
      cases hs
      refine hlink (hrep.setNode (h.unlisted hmakes) _).2 (fun hr ↦ ?_) hrep'
        fun hr ↦ by cases hr
      have hnext : s.lists.next x = s.lists.head .readyThreads := hwritten hr
      simp [addNodePrev, hnext]
    | allThreads =>
      cases hs
      have hx := h.not_registered hall hmakes (by rw [hcur]; simp [Op.node])
      refine hlink hrep (fun hr ↦ by cases hr) (hrep'.setNode (fun _ ↦ hx) _).2 fun hr ↦ ?_
      have hnext : s.allThreads.next x = s.allThreads.head () := hnoted hr
      simp [addNodePrev, hnext]

/-! ## The initialisation -/

def State.initialised (s : State) (thread : Tid) : State :=
  { s with
    nextTid := s.nextTid + 1
    esp := Function.update s.esp thread [.iret true]
    status := Function.update s.status thread .ready
    wakeupTicks := Function.update s.wakeupTicks thread 0
    blockedOn := Function.update s.blockedOn thread none
    blockerType := Function.update s.blockerType thread .none
    allThreads := (s.allThreads.setNext thread none).setPrev thread none
    lists := (s.lists.setNext thread none).setPrev thread none }

theorem internalThreadInit_eq (h : internalThreadInit x s = .ok s') : s' = s.initialised x := by
  obtain ⟨_, -, h⟩ := bind_eq_ok.mp h
  cases h
  rfl

theorem initialised_status (ht : t ≠ x) :
    (({ s with stack := rest } : State).initialised x).status t = s.status t :=
  Function.update_of_ne ht _ _

theorem initialised_esp (ht : t ≠ x) :
    (({ s with stack := rest } : State).initialised x).esp t = s.esp t :=
  Function.update_of_ne ht _ _

/-- Nobody is `x` yet. -/
theorem Births.making_initialised (h : Births s s.making) (rest : List Op) (hxn : x ∉ threadsOf s.trace) :
    State.making (({ s with stack := rest } : State).initialised x) =
      Function.update s.making s.currentThread (rest.filter fun op ↦ op.node.isSome) := by
  refine making_pop rfl (fun t ht ↦ ?_) rfl
  by_cases htx : t = x
  · subst htx
    have hbefore : s.making t = [] := by
      by_contra hn
      exact hxn (h.maker hn).1
    rw [hbefore]
    unfold State.making State.stackOf
    have hnew : (({ s with stack := rest } : State).initialised t).esp t = [.iret true] :=
      Function.update_self _ _ _
    rw [hnew]
    exact congrArg _ (if_neg ht)
  · exact making_other rfl ht (initialised_esp htx)

theorem Births.initialised (h : Births s s.making) (hst : s.stack = .internalThreadInit x :: rest) :
    Births (({ s with stack := rest } : State).initialised x)
      (State.making (({ s with stack := rest } : State).initialised x)) := by
  have hcur := making_current hst (x := x) rfl
  have hmakes : Makes s.making s.currentThread x :=
    ⟨_, by rw [hcur]; exact List.mem_cons_self, rfl⟩
  have hxn := (h.fresh hmakes).1
  have hsub : ∀ o ∈ rest.filter fun op ↦ op.node.isSome, o ∈ s.making s.currentThread := by
    intro o ho
    rw [hcur]
    exact List.mem_cons_of_mem _ ho
  rw [h.making_initialised rest hxn]
  refine h.pop hsub (by rw [hcur]; simp) (fun _ ht ↦ ht) (fun t ht he ↦ ?_)
    (fun hy ↦ (h.fresh (hy.of_pop hsub)).1) rfl rfl (fun {t y} hy hn ↦ ?_) fun _ ht ↦ h.allocated ht
  · have htx : t ≠ x := by
      rintro rfl
      exact hxn ht
    rwa [initialised_status htx] at he
  · by_cases hyx : y = x
    · subst hyx
      exact ⟨Function.update_self _ _ _, Function.update_self _ _ _⟩
    · rw [initialised_status hyx, initialised_esp hyx]
      refine h.made (hy.of_pop hsub) ?_
      by_cases ht : t = s.currentThread
      · subst ht
        rw [Function.update_self] at hn
        rw [hcur, List.mem_cons, not_or]
        exact ⟨by simpa using hyx, hn⟩
      · rwa [Function.update_of_ne ht] at hn

theorem Orderly.advances_init (h : Orderly s) (hst : s.stack = .internalThreadInit x :: rest)
    (hj : Job s.idleThread s.currentThread (.internalThreadInit x :: rest))
    (hrun : s.status s.currentThread = .running) (hat : InsertAt x (.internalThreadInit x) rest)
    (hs : next s .exec = .ok s') : Advances s .exec s' := by
  have hexec : exec (.internalThreadInit x) { s with stack := rest } = .ok s' := by
    simpa only [next, hst] using hs
  have hs' := internalThreadInit_eq hexec
  subst hs'
  have hcur := making_current hst hat.node
  have hmakes : Makes s.making s.currentThread x := ⟨_, by rw [hcur]; simp, hat.node⟩
  obtain ⟨hxn, hxi, -⟩ := h.births.fresh hmakes
  obtain ⟨hxc, -⟩ := h.outside hmakes
  have ha : Apart s.stack := hst ▸ .cons rfl
  have ha' : Apart rest := by
    cases hat
    exact .cons rfl
  have hp := h.placed_none ha
  have hl := h.lock
  rw [hst] at hl
  obtain ⟨all, hrep, hall⟩ := h.registered
  rw [ha.inserting] at hrep
  have hx := h.not_registered hall hmakes (by
    rw [hcur]
    cases hat
    simp [threadListAddOps, Op.node])
  have hlists := (hp.rep.setNode (h.unlisted hmakes) none).1
  have hall' := (hrep.setNode (fun _ ↦ hx) none).1
  have hmaking := h.births.making_initialised rest hxn
  have hmem : ∀ l y, .addHead l y ∈ (rest.filter fun op ↦ op.node.isSome) ↔
      .addHead l y ∈ s.making s.currentThread := by
    intro l y
    rw [hcur, List.mem_cons, or_iff_right (by simp)]
  refine ⟨⟨⟨?_, hp.agrees, hp.standing.other hxn hxi _⟩, ha'.written, ⟨all, ?_, fun t ↦ ?_⟩,
    ha'.written, ?_, ?_, ⟨rest, hj.tail, .thread rfl (.inl ?_)⟩, fun t ht hn ↦ ?_⟩, ?_⟩
  · show Links.Rep _ _ (pending (inserting .readyThreads rest)) _
    rw [ha'.inserting]
    exact (hlists.setNode (h.unlisted hmakes) none).2
  · show Links.Rep _ _ (fun _ ↦ inserting .allThreads rest) _
    rw [ha'.inserting]
    exact (hall'.setNode (fun _ ↦ hx) none).2
  · rw [hmaking, halfway_pop (hmem _) (hmem _)]
    exact hall t
  · exact h.births.initialised hst
  · show State.LockIs _ (Kernel.heapPhase rest)
    rw [hat.heapPhase]
    exact ⟨hl.queue, hl.count, hl.holder, hl.depth⟩
  · exact (initialised_status hxc.symm).trans hrun
  · have htx : t ≠ x := by
      rintro rfl
      exact ht.elim hxn hxi
    rw [initialised_esp htx]
    exact h.parked t ht hn
  · have hm : ∀ s', s.mark .exec s' = none := by
      intro s'
      unfold State.mark
      rw [hst]
    apply ages_of_eq (hm _)
    intro y
    have hr : reapingOf s.stack = none := by
      rw [hst]
      exact hj.reapingOf
    have hr' : reapingOf rest = none := hj.tail.reapingOf
    by_cases hyx : y = x
    · subst hyx
      rw [lifeOf_of_none hr, if_neg hxn]
      exact (lifeOf_of_none hr' y).trans (if_neg hxn)
    · refine lifeOf_congr .rfl ?_ .rfl ?_ (by simp [hr])
      · rw [initialised_status hyx]
      · show reapingOf rest = _ ↔ _
        rw [hr, hr']

/-! ## The last statement of an insertion -/

/-- The thread is on the list of all threads, and is halfway. -/
theorem Orderly.advances_headAll (h : Orderly s)
    (hst : s.stack = .addHead .allThreads x :: afterInsert x .allThreads)
    (hj : Job s.idleThread s.currentThread (.addHead .allThreads x :: afterInsert x .allThreads))
    (hrun : s.status s.currentThread = .running) (hs : next s .exec = .ok s') :
    Advances s .exec s' := by
  have hat : InsertAt x (.addHead .allThreads x) (afterInsert x .allThreads) := .head .allThreads
  have hexec : { s with
      stack := afterInsert x .allThreads, allThreads := addHead () x s.allThreads } = s' := by
    simp only [next, hst] at hs
    exact Except.ok.inj hs
  subst hexec
  have hcur := making_current hst hat.node
  have hmakes : Makes s.making s.currentThread x := ⟨_, by rw [hcur]; simp, hat.node⟩
  have hp := h.placed
  have hl := h.lock
  have hnoted := h.noted
  obtain ⟨all, hrep, hall⟩ := h.registered
  rw [hst] at hp hl hnoted hrep
  obtain ⟨hnext, hprev⟩ := hnoted rfl
  have hx := h.not_registered hall hmakes (by
    rw [hcur]
    simp)
  generalize hleft : (afterInsert x .allThreads).filter (fun op ↦ op.node.isSome) = left at hcur
  have hready : .addHead .readyThreads x ∈ left := by
    rw [← hleft]
    simp [afterInsert, threadListAddOps, Op.node]
  have hgone : ∀ y, .addHead .allThreads y ∉ left := by
    rw [← hleft]
    simp [afterInsert, threadListAddOps]
  have hsole : ∀ {y}, .addHead .readyThreads y ∈ s.making s.currentThread → y = x := by
    intro y hy
    rw [hcur, ← hleft] at hy
    simpa [afterInsert, threadListAddOps, Op.node] using hy
  have hmaking : State.making { s with
      stack := afterInsert x .allThreads, allThreads := addHead () x s.allThreads } =
      Function.update s.making s.currentThread left := by
    rw [← hleft]
    exact making_rest
  have hsub : ∀ o ∈ left, o ∈ s.making s.currentThread := by
    intro o ho
    rw [hcur]
    exact List.mem_cons_of_mem _ ho
  have hhalf : ∀ t, Halfway (Function.update s.making s.currentThread left) t ↔
      t = x ∨ Halfway s.making t := by
    intro t
    constructor
    · rintro ⟨u, h₁, h₂⟩
      by_cases hu : u = s.currentThread
      · subst hu
        rw [Function.update_self] at h₁
        exact .inl (hsole (hsub _ h₁))
      · rw [Function.update_of_ne hu] at h₁ h₂
        exact .inr ⟨u, h₁, h₂⟩
    · rintro (rfl | ⟨u, h₁, h₂⟩)
      · refine ⟨s.currentThread, ?_, ?_⟩
        · rwa [Function.update_self]
        · rw [Function.update_self]
          exact hgone t
      · have hu : u ≠ s.currentThread := by
          rintro rfl
          rw [hsole h₁, hcur] at h₂
          exact h₂ List.mem_cons_self
        refine ⟨u, ?_, ?_⟩
        · rwa [Function.update_of_ne hu]
        · rwa [Function.update_of_ne hu]
  refine ⟨⟨⟨hp.rep, hp.agrees, hp.standing⟩, trivial, ⟨x :: all, ?_, fun t ↦ ?_⟩, trivial, ?_,
    ⟨hl.queue, hl.count, hl.holder, hl.depth⟩, ⟨_, hj.tail, .thread rfl (.inl hrun)⟩, h.parked⟩, ?_⟩
  · have hu : ∀ o : Option Tid, Function.update (fun _ : Unit ↦ (none : Option Tid)) () o = fun _ ↦ o := by
      intro o
      funext i
      exact Function.update_self _ _ _
    have hL : Function.update (fun _ : Unit ↦ all) () (x :: all) = fun _ ↦ x :: all := by
      funext i
      exact Function.update_self _ _ _
    have hrep' := rep_addHead (i := ()) (p := fun _ ↦ none) (hu (some x) ▸ hrep) (fun _ ↦ hx) id
      (hnext.trans (hrep.head ())) hprev
    rw [hu, hL] at hrep'
    exact hrep'
  · rw [hmaking, hhalf, List.mem_cons, hall t]
    tauto
  · exact h.births.linked hst hat.node (by simp) s.lists (addHead () x s.allThreads)
  · have hm : ∀ s', s.mark .exec s' = none := by
      intro s'
      unfold State.mark
      rw [hst]
    apply ages_of_eq (hm _)
    intro y
    have hr : reapingOf s.stack = none := by
      rw [hst]
      exact hj.reapingOf
    have hr' : reapingOf (afterInsert x .allThreads) = none := hj.tail.reapingOf
    refine lifeOf_congr .rfl .rfl .rfl ?_ (by simp [hr])
    show reapingOf (afterInsert x .allThreads) = _ ↔ _
    rw [hr, hr']

/-- The state after the last statement. -/
def State.created (s : State) (x : Tid) : State :=
  { s with
    stack := afterInsert x .readyThreads
    lists := addHead .readyThreads x s.lists
    trace := .added .readyThreads x :: .created x :: s.trace }

theorem threadsOf_created (s : State) (x t : Tid) :
    t ∈ threadsOf (s.created x).trace ↔ t = x ∨ t ∈ threadsOf s.trace := List.mem_cons

theorem making_created : (s.created x).making = Function.update s.making s.currentThread [] := by
  have hnil : (afterInsert x .readyThreads).filter (fun op ↦ op.node.isSome) = [] := rfl
  rw [← hnil]
  exact making_pop rfl (fun _ ht ↦ making_other rfl ht rfl) rfl

/-- The thread is made, and nothing else is. -/
theorem Births.created (h : Births s s.making)
    (hst : s.stack = .addHead .readyThreads x :: afterInsert x .readyThreads) :
    Births (s.created x) (s.created x).making := by
  have hcur : s.making s.currentThread = [.addHead .readyThreads x] := making_current hst rfl
  have hmakes : Makes s.making s.currentThread x :=
    ⟨_, by rw [hcur]; exact List.mem_cons_self, rfl⟩
  have hother : ∀ {t y}, Makes (Function.update s.making s.currentThread []) t y → y ≠ x := by
    rintro t y hy rfl
    have ht := h.sole (hy.of_pop (by simp)) hmakes
    subst ht
    obtain ⟨o, ho, -⟩ := hy
    rw [Function.update_self] at ho
    cases ho
  rw [making_created]
  refine h.pop (by simp) (by rw [hcur]; simp) (fun t ht ↦ (threadsOf_created s x t).mpr (.inr ht))
    (fun _ _ he ↦ he) (fun hy hm ↦ ?_) rfl rfl (fun {t y} hy hn ↦ ?_) fun t ht ↦ ?_
  · rcases (threadsOf_created s x _).mp hm with rfl | hm
    · exact hother hy rfl
    · exact (h.fresh (hy.of_pop (by simp))).1 hm
  · exact h.made (hy.of_pop (by simp)) (made_pop hcur (by simp) hn)
  · rcases (threadsOf_created s x t).mp ht with rfl | ht
    · exact (h.fresh hmakes).2.2
    · exact h.allocated ht

/-- The last pointer makes the list whole again. -/
theorem Placed.created {node : Option Tid} (h : Placed s node) (hn : node = some x)
    (hx : homeOf s.trace x = none) (hxn : x ∉ threadsOf s.trace) (hi : x ≠ s.idleThread)
    (hr : s.status x = .ready) (hnext : s.lists.next x = s.lists.head .readyThreads)
    (hprev : s.lists.prev x = none) : Placed (s.created x) none := by
  subst hn
  have hlists := h.rep
  have hpend : pending (some x) =
      Function.update (fun _ : ListId ↦ (none : Option Tid)) .readyThreads (some x) := by
    rw [← pending_none, pending_update]
  rw [hpend] at hlists
  have hrep := rep_addHead hlists (h.not_mem hx) id (hnext.trans (hlists.head .readyThreads)) hprev
  rw [pending_none.symm, pending_update] at hrep
  exact ⟨hrep, h.agrees.added hx, h.standing.create hxn hi hr⟩

/-- The thread is there. -/
theorem Orderly.advances_headReady (h : Orderly s)
    (hst : s.stack = .addHead .readyThreads x :: afterInsert x .readyThreads)
    (hj : Job s.idleThread s.currentThread (.addHead .readyThreads x :: afterInsert x .readyThreads))
    (hrun : s.status s.currentThread = .running) (hs : next s .exec = .ok s') :
    Advances s .exec s' := by
  have hat : InsertAt x (.addHead .readyThreads x) (afterInsert x .readyThreads) :=
    .head .readyThreads
  have hexec : s.created x = s' := by
    simp only [next, hst] at hs
    exact Except.ok.inj hs
  subst hexec
  have hcur : s.making s.currentThread = [.addHead .readyThreads x] := making_current hst hat.node
  have hmakes : Makes s.making s.currentThread x := ⟨_, by rw [hcur]; simp, hat.node⟩
  obtain ⟨hxn, hxi, hxa⟩ := h.births.fresh hmakes
  obtain ⟨hxc, hxh⟩ := h.outside hmakes
  obtain ⟨hxr, hxe⟩ := h.births.made hmakes (by
    rw [hcur]
    simp)
  have hp := h.placed
  have hl := h.lock
  have hwritten := h.written
  obtain ⟨all, hrep, hall⟩ := h.registered
  rw [hst] at hp hl hwritten hrep
  obtain ⟨hnext, hprev⟩ := hwritten rfl
  have hthreads := threadsOf_created s x
  have hhalf : ∀ t, Halfway s.making t ↔
      t = x ∨ Halfway (Function.update s.making s.currentThread []) t := by
    intro t
    constructor
    · rintro ⟨u, h₁, h₂⟩
      by_cases hu : u = s.currentThread
      · subst hu
        rw [hcur] at h₁
        exact .inl (by simpa using h₁)
      · refine .inr ⟨u, ?_, ?_⟩
        · rwa [Function.update_of_ne hu]
        · rwa [Function.update_of_ne hu]
    · rintro (rfl | ⟨u, h₁, h₂⟩)
      · exact ⟨s.currentThread, by rw [hcur]; simp, by rw [hcur]; simp⟩
      · by_cases hu : u = s.currentThread
        · subst hu
          rw [Function.update_self] at h₁
          cases h₁
        · rw [Function.update_of_ne hu] at h₁ h₂
          exact ⟨u, h₁, h₂⟩
  have hp' : Placed (s.created x) none := hp.created rfl hxh hxn hxi hxr hnext hprev
  have hclosed : Closed (afterInsert x .readyThreads) := .cons rfl rfl
  refine ⟨⟨hp', hclosed.apart.written,
    ⟨all, hrep, fun t ↦ ?_⟩, hclosed.apart.written, ?_, ?_, ⟨_, hj.tail, .thread rfl (.inl hrun)⟩,
    fun t ht hn ↦ ?_⟩, ?_⟩
  · rw [making_created, hall t]
    show _ ↔ _ ∨ t ∈ threadsOf (s.created x).trace ∨ _
    rw [hhalf t, hthreads t]
    tauto
  · exact h.births.created hst
  · show State.LockIs _ (Kernel.heapPhase (afterInsert x .readyThreads))
    rw [hclosed.heapPhase]
    refine ⟨?_, hl.count, hl.holder, fun hh ↦ by cases hh⟩
    have hq := hl.queue
    rw [hp.rep.head] at hq
    exact (hp'.rep.head _).trans hq
  · by_cases htx : t = x
    · subst htx
      exact ⟨true, [], hxe, .nil, .nil⟩
    · have ht' : t ∈ threadsOf s.trace ∨ t = s.idleThread :=
        ht.imp_left fun hm ↦ ((hthreads t).mp hm).resolve_left htx
      exact h.parked t ht' hn
  · have hm : ∀ s', s.mark .exec s' = some (x, .created) := by
      intro s'
      unfold State.mark
      rw [hst]
    have hr : reapingOf s.stack = none := by
      rw [hst]
      exact hj.reapingOf
    have hr' : reapingOf (afterInsert x .readyThreads) = none := hj.tail.reapingOf
    rw [hm]
    apply Ages.some
    · rw [lifeOf_of_none hr, if_neg hxn]
      have hafter := lifeOf_of_none (s := s.created x) hr' x
      rw [if_pos ((hthreads x).mpr (.inl rfl)), if_neg (by simp [State.created, hxr])] at hafter
      rw [hafter]
      rfl
    · intro y hy
      refine lifeOf_congr ?_ .rfl .rfl ?_ (by simp [hr])
      · exact (hthreads y).trans (or_iff_right hy)
      · show reapingOf (afterInsert x .readyThreads) = _ ↔ _
        rw [hr, hr']

/-! ## A new address -/

/-- The state once the heap has answered with `x`. -/
def State.allocating (s : State) (x : Tid) : State :=
  { s with stack := threadInsertOps x, allocated := Function.update s.allocated x true }

theorem making_allocating : (s.allocating x).making =
    Function.update s.making s.currentThread ((threadInsertOps x).filter fun op ↦ op.node.isSome) :=
  making_pop rfl (fun _ ht ↦ making_other rfl ht rfl) rfl

theorem making_alloc (hst : s.stack = [.threadAlloc]) : s.making s.currentThread = [] := by
  unfold State.making State.stackOf
  rw [if_pos rfl, hst]
  rfl

/-- The address is nobody's. -/
theorem Births.unused (h : Births s s.making) (hfree : s.allocated x = false) :
    x ∉ threadsOf s.trace ∧ ∀ t, ¬ Makes s.making t x := by
  constructor
  · intro hm
    rw [h.allocated hm] at hfree
    cases hfree
  · intro t hm
    rw [(h.fresh hm).2.2] at hfree
    cases hfree

/-- Whoever makes a thread afterwards does so already, but for the current thread and `x`. -/
theorem Births.makes_allocating (h : Births s s.making) (hfree : s.allocated x = false)
    (hm : Makes (s.allocating x).making t y) :
    t = s.currentThread ∧ y = x ∨ t ≠ s.currentThread ∧ y ≠ x ∧ Makes s.making t y := by
  rw [making_allocating] at hm
  obtain ⟨o, ho, hy⟩ := hm
  by_cases ht : t = s.currentThread
  · subst ht
    rw [Function.update_self] at ho
    exact .inl ⟨rfl, insert_sole List.suffix_rfl (List.mem_filter.mp ho).1 hy⟩
  · rw [Function.update_of_ne ht] at ho
    refine .inr ⟨ht, ?_, o, ho, hy⟩
    rintro rfl
    exact (h.unused hfree).2 t ⟨o, ho, hy⟩

theorem Births.allocating (h : Births s s.making) (hmem : s.currentThread ∈ threadsOf s.trace)
    (hrun : s.status s.currentThread = .running) (hfree : s.allocated x = false)
    (hxi : x ≠ s.idleThread) : Births (s.allocating x) (s.allocating x).making := by
  obtain ⟨hxt, -⟩ := h.unused hfree
  have hkeep : ∀ y, y ≠ x → Function.update s.allocated x true y = s.allocated y :=
    fun y hy ↦ Function.update_of_ne hy _ _
  have hmakes : ∀ {t y}, Makes (s.allocating x).making t y →
      t = s.currentThread ∧ y = x ∨ t ≠ s.currentThread ∧ y ≠ x ∧ Makes s.making t y :=
    fun hy ↦ h.makes_allocating hfree hy
  refine ⟨fun {t} ht ↦ ?_, fun hy ↦ ?_, fun {t u y} hy hu ↦ ?_, fun {t y} hy hn ↦ ?_, fun {t} ht ↦ ?_⟩
  · by_cases hc : t = s.currentThread
    · subst hc
      refine ⟨hmem, ?_⟩
      show s.status s.currentThread ≠ .zombie
      rw [hrun]
      decide
    · rw [making_allocating, Function.update_of_ne hc] at ht
      exact h.maker ht
  · rcases hmakes hy with ⟨-, rfl⟩ | ⟨-, hyx, hy⟩
    · exact ⟨hxt, hxi, Function.update_self _ _ _⟩
    · obtain ⟨h₁, h₂, h₃⟩ := h.fresh hy
      exact ⟨h₁, h₂, (hkeep _ hyx).trans h₃⟩
  · rcases hmakes hy with ⟨rfl, rfl⟩ | ⟨-, hyx, hy⟩
    · rcases hmakes hu with ⟨rfl, -⟩ | ⟨-, hyx, -⟩
      · rfl
      · exact absurd rfl hyx
    · rcases hmakes hu with ⟨-, rfl⟩ | ⟨-, -, hu⟩
      · exact absurd rfl hyx
      · exact h.sole hy hu
  · rw [making_allocating] at hn
    rcases hmakes hy with ⟨rfl, rfl⟩ | ⟨hc, -, hy⟩
    · rw [Function.update_self] at hn
      exact absurd (by simp [threadInsertOps, Op.node]) hn
    · rw [Function.update_of_ne hc] at hn
      exact h.made hy hn
  · have htx : t ≠ x := by
      rintro rfl
      exact hxt ht
    exact (hkeep t htx).trans (h.allocated ht)

theorem Orderly.advances_alloc (h : Orderly s) (hst : s.stack = [.threadAlloc])
    (hi : s.currentThread ≠ s.idleThread) (hrun : s.status s.currentThread = .running)
    (hfree : s.allocated x = false) (hxi : x ≠ s.idleThread) (hs : next s (.alloc x) = .ok s') :
    Advances s (.alloc x) s' := by
  have hs' : s.allocating x = s' := by
    simpa only [next, hst, List.tail_cons, State.push, List.append_nil, State.allocating] using
      Except.ok.inj hs
  subst hs'
  have ha : Apart s.stack := hst ▸ .cons rfl
  have hp := h.placed_none ha
  have hl := h.lock
  rw [hst] at hl
  have hmem : s.currentThread ∈ threadsOf s.trace := hp.standing.cur_mem.resolve_left hi
  have hcur := making_alloc hst
  have hmaking := making_allocating (s := s) (x := x)
  generalize hleft : (threadInsertOps x).filter (fun op ↦ op.node.isSome) = left at hmaking
  have hsole : ∀ o ∈ left, ∀ y, o.node = some y → y = x := by
    rw [← hleft]
    intro o ho y hy
    exact insert_sole List.suffix_rfl (List.mem_filter.mp ho).1 hy
  have hall : .addHead .allThreads x ∈ left := by
    rw [← hleft]
    simp [threadInsertOps, threadListAddOps, Op.node]
  have hhalf : ∀ t, Halfway (Function.update s.making s.currentThread left) t ↔
      Halfway s.making t := by
    intro t
    constructor
    · rintro ⟨u, h₁, h₂⟩
      by_cases hu : u = s.currentThread
      · subst hu
        rw [Function.update_self] at h₁ h₂
        rw [hsole _ h₁ t rfl] at h₂
        exact absurd hall h₂
      · rw [Function.update_of_ne hu] at h₁ h₂
        exact ⟨u, h₁, h₂⟩
    · rintro ⟨u, h₁, h₂⟩
      have hu : u ≠ s.currentThread := by
        rintro rfl
        rw [hcur] at h₁
        cases h₁
      refine ⟨u, ?_, ?_⟩
      · rwa [Function.update_of_ne hu]
      · rwa [Function.update_of_ne hu]
  refine ⟨⟨⟨hp.rep, hp.agrees, hp.standing⟩, trivial, ?_, trivial, ?_,
    ⟨hl.queue, hl.count, hl.holder, hl.depth⟩, ⟨_, job_threadInsertOps hi x, .thread rfl (.inl hrun)⟩,
    h.parked⟩, ?_⟩
  · obtain ⟨all, hrep, hts⟩ := h.registered
    rw [ha.inserting] at hrep
    refine ⟨all, hrep, fun t ↦ ?_⟩
    rw [hmaking, hhalf]
    exact hts t
  · exact h.births.allocating hmem hrun hfree hxi
  · apply ages_of_eq rfl
    intro y
    have hr : reapingOf s.stack = none := by
      rw [hst]
      rfl
    have hr' : reapingOf (threadInsertOps x) = none := rfl
    refine lifeOf_congr .rfl .rfl .rfl ?_ (by simp [hr])
    show reapingOf (threadInsertOps x) = _ ↔ _
    rw [hr, hr']

end

end AlienOS.Kernel
