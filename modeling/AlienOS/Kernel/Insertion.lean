import AlienOS.Kernel.Passage

/-!
# Insertion — `ready_threads` while threads are made

The list is in order between two insertions if no tick finds an insertion half done and something to
schedule.
-/

open AlienOS.Lib

namespace AlienOS.Kernel

/-- The nodes from `ready_threads` on are those of `ts`, the non-idle threads that are `Ready`; the
first node has `first` for its predecessor. -/
structure State.ReadyList (s : State) (first : Option Tid) (ts : List Tid) : Prop where
  head : s.lists.head .readyThreads = ts.head?
  seg : s.lists.Seg first ts none
  nodup : ts.Nodup
  ready : ∀ t, t ∈ ts ↔ t ∈ threadsOf s.trace ∧ s.status t = .ready

/-- `t` has begun to insert its new thread and has not yet set the new head. -/
def State.Inserting (s : State) (t : Tid) : Prop :=
  ∃ x, .addHead .readyThreads x ∈ s.stackOf t ∧ .addHeadPrev .readyThreads x ∉ s.stackOf t

section

variable {creates : Prop} {s : State} {ops : List Op} {x : Tid}

theorem Placed.ready_iff {node : Option Tid} (h : Placed s node) (t : Tid) :
    t ∈ listsOf s.trace .readyThreads ↔ t ∈ threadsOf s.trace ∧ s.status t = .ready := by
  constructor
  · intro hm
    have hhome := h.home_of_mem hm
    exact ⟨h.standing.mem hhome, h.standing.status_eq hhome⟩
  · rintro ⟨ht, hready⟩
    have hc : t ≠ s.currentThread := by
      rintro rfl
      exact h.standing.cur_not_ready hready
    obtain ⟨i, hi⟩ := Option.ne_none_iff_exists'.mp (h.standing.listed ht hc)
    have hstatus : i.status = .ready := (h.standing.status_eq hi).symm.trans hready
    cases i with
    | readyThreads => exact (h.agrees _ t).mpr hi
    | sleepingThreads | zombieThreads | waitQueue => cases hstatus

theorem Placed.readyList {node : Option Tid} (h : Placed s node) :
    s.ReadyList node (listsOf s.trace .readyThreads) :=
  ⟨h.rep.head _, by simpa [pending] using h.rep.seg .readyThreads, h.rep.nodup _, h.ready_iff⟩

/-- Freeing a zombie makes no thread. -/
theorem Reaps.node {reap : List Op} (h : Reaps x reap) : ∀ op ∈ reap, op.node = none := by
  have hfrees : ∀ {freed : Option Tid} {ops : List Op}, Frees freed ops → ∀ op ∈ ops, op.node = none := by
    intro freed ops hf
    cases hf <;> simp [kfreeOps, Op.node]
  cases h with
  | thread hf => exact hfrees hf
  | stack hf =>
    intro op hop
    rcases List.mem_append.mp hop with hop | hop
    · exact hfrees hf op hop
    · exact hfrees .acquire op hop

/-- The thread whose insertion has begun is on its way to the head of the list. -/
theorem Errand.inserting {idle t : Tid} (h : Errand creates idle t ops)
    (hx : inserting .readyThreads ops = some x) :
    .addHead .readyThreads x ∈ ops ∧ .addHeadPrev .readyThreads x ∉ ops := by
  cases ops with
  | nil => cases hx
  | cons op rest =>
    have hnode : op.node = some x := by
      cases op with
      | addNodeNext list y | addNodePrev list y | addHead list y =>
        simp only [Kernel.inserting] at hx
        split at hx <;> first | exact hx | cases hx
      | _ => cases hx
    have hat : InsertAt x op rest := by
      cases h.head with
      | wait => cases hx
      | fits hf =>
        cases hf with
        | make hy hsuf =>
          rw [hy] at hnode
          cases hnode
          exact insertAt_of_suffix hsuf hy
        | plain hp =>
          rw [calm_node (plain_calm hp)] at hnode
          cases hnode
        | heap hf =>
          rw [heapFits_node hf] at hnode
          cases hnode
        | _ => cases hnode
    cases hat with
    | init | headPrev => cases hx
    | nodeNext list | nodePrev list | head list =>
      cases list with
      | allThreads => cases hx
      | readyThreads => simp [afterInsert]

theorem Pursues.inserting (h : Pursues creates s ops) (hx : inserting .readyThreads ops = some x) :
    s.Inserting s.currentThread := by
  obtain ⟨hmem, hnot⟩ := h.errand.inserting hx
  refine ⟨x, ?_⟩
  unfold State.stackOf
  rw [if_pos rfl]
  cases h.spot with
  | thread hst hs =>
    rw [hst]
    exact ⟨hmem, hnot⟩
  | resumed b hst =>
    rw [hst]
    exact ⟨List.mem_cons_of_mem _ hmem, by simpa using hnot⟩
  | handler b e reap hst he hi hs hn hr =>
    have hreap : .addHeadPrev .readyThreads x ∉ reap := by
      rcases hr with rfl | ⟨y, hr, -⟩
      · simp
      · intro hm
        cases hr.node _ hm
    rw [hst]
    refine ⟨by simp [hmem], ?_⟩
    simp [hnot, hreap]

theorem Sound.readyList (h : Sound creates s) : ∃ first ts, s.ReadyList first ts ∧
    ((∀ t ∈ threadsOf s.trace, ¬ s.Inserting t) → first = none) := by
  obtain ⟨ops, hw⟩ := h.current
  refine ⟨_, _, hw.placed.readyList, fun hn ↦ ?_⟩
  cases hx : Kernel.inserting .readyThreads ops with
  | none => rfl
  | some x =>
    have hi := hw.inserting hx
    obtain ⟨y, hy, -⟩ := id hi
    have hmakes : s.making s.currentThread ≠ [] :=
      List.ne_nil_of_mem (List.mem_filter.mpr ⟨hy, rfl⟩)
    exact absurd hi (hn _ (h.births.maker hmakes).1)

end

instance (s : State) (t : Tid) : Decidable (s.Inserting t) :=
  decidable_of_iff ((s.stackOf t).any fun op ↦ op.node.any fun x ↦
      op = .addHead .readyThreads x ∧ .addHeadPrev .readyThreads x ∉ s.stackOf t) (by
    simp only [List.any_eq_true, Option.any_eq_true, decide_eq_true_eq]
    constructor
    · rintro ⟨op, hop, x, hx, rfl, hn⟩
      exact ⟨x, hop, hn⟩
    · rintro ⟨x, hop, hn⟩
      exact ⟨_, hop, x, rfl, rfl, hn⟩)

end AlienOS.Kernel
