import AlienOS.Kernel.ThreadList

/-!
# Sequence — one list alone

What the list functions do to the sequence of one list, whatever the other lists are and wherever
in it the node is.  A node carries the thread that it is embedded in.
-/

open AlienOS.Lib

namespace AlienOS.Kernel

variable {ι α : Type} [DecidableEq ι] [DecidableEq α] {l : Links ι α} {i : ι} {x : α}
  {xs ys : List α}

/-! ## Lists with a head -/

theorem threadListAdd_keeps (h : l.Spells i xs) : l.Keeps (threadListAdd i x l) i (x :: xs) := by
  constructor
  · intro y hy
    have hyx : y ≠ x := List.ne_of_not_mem_cons hy
    have hyxs : y ∉ xs := List.not_mem_of_not_mem_cons hy
    have := threadListAdd_frame (x := x) (i := ()) (Links.spells_iff.mp h) hyxs hyx
    rwa [← on_threadListAdd (fun _ _ _ ↦ rfl)] at this
  · intro j hj
    unfold threadListAdd addHead addNodePrev addNodeNext addHeadPrev
    cases l.head i <;> simp [Function.update_of_ne hj]

theorem spells_threadListAdd (h : l.Spells i xs) (hx : x ∉ xs) :
    (threadListAdd i x l).Spells i (x :: xs) := by
  have hrep := rep_threadListAdd (i := ()) (Links.spells_iff.mp h) (fun _ ↦ hx) id
  rw [← on_threadListAdd (fun _ _ _ ↦ rfl)] at hrep
  have hp : Function.update (fun _ : Unit ↦ (none : Option α)) () none = fun _ ↦ none :=
    Function.update_eq_self ..
  have hL : Function.update (fun _ : Unit ↦ xs) () (x :: xs) = fun _ ↦ x :: xs := by
    funext u
    simp
  rw [hp, hL] at hrep
  exact Links.spells_iff.mpr hrep

theorem threadListRemove_other {l' : Links ι α} (h : threadListRemove i x l = .ok l') {j : ι}
    (hj : j ≠ i) : l'.head j = l.head j ∧ l'.tail j = l.tail j := by
  unfold threadListRemove at h
  cases hp : l.prev x with
  | none =>
    simp only [hp] at h
    obtain ⟨-, -, h⟩ := bind_eq_ok.mp h
    cases hh : (l.setHead i (l.next x)).head i with
    | none =>
      simp only [hh, ok_bind, Except.ok.injEq] at h
      subst h
      split <;> simp [Function.update_of_ne hj]
    | some head =>
      simp only [hh, ok_bind, Except.ok.injEq] at h
      subst h
      split <;> simp [Function.update_of_ne hj]
  | some prev =>
    simp only [hp, ok_bind, Except.ok.injEq] at h
    subst h
    split <;> simp

theorem threadListRemove_node {l' : Links ι α} (h : threadListRemove i x l = .ok l') :
    l'.next x = none ∧ l'.prev x = none := by
  have hlast : ∃ l₁ : Links ι α, l' = (l₁.setNext x none).setPrev x none := by
    unfold threadListRemove at h
    cases hp : l.prev x with
    | none =>
      simp only [hp] at h
      obtain ⟨-, -, h⟩ := bind_eq_ok.mp h
      cases hh : (l.setHead i (l.next x)).head i with
      | none =>
        simp only [hh, ok_bind, Except.ok.injEq] at h
        exact ⟨_, h.symm⟩
      | some head =>
        simp only [hh, ok_bind, Except.ok.injEq] at h
        exact ⟨_, h.symm⟩
    | some prev =>
      simp only [hp, ok_bind, Except.ok.injEq] at h
      exact ⟨_, h.symm⟩
  obtain ⟨l₁, rfl⟩ := hlast
  simp

theorem spells_threadListRemove (h : l.Spells i (xs ++ x :: ys)) :
    ∃ l', threadListRemove i x l = .ok l' ∧ l'.Spells i (xs ++ ys) ∧
      l.Keeps l' i (xs ++ x :: ys) := by
  have hinj : Function.Injective fun _ : Unit ↦ i := fun _ _ _ ↦ rfl
  have hmap := on_threadListRemove hinj l () x
  obtain ⟨l₂, hrun, hrep, hfar⟩ := rep_threadListRemove (Links.spells_iff.mp h) rfl rfl id
  rw [hrun] at hmap
  cases hl : threadListRemove i x l with
  | error e =>
    rw [hl] at hmap
    cases hmap
  | ok l' =>
    rw [hl] at hmap
    have hon : (l'.on fun _ : Unit ↦ i) = l₂ := Except.ok.inj hmap
    subst hon
    refine ⟨l', rfl, Links.spells_iff.mpr ?_, hfar, fun j hj ↦ threadListRemove_other hl hj⟩
    have hL : (fun _ : Unit ↦ xs ++ ys) =
        Function.update (fun _ ↦ xs ++ x :: ys) () (xs ++ ys) := by
      funext u
      simp
    rw [hL]
    exact hrep

/-! ## Lists with a head and a tail -/

theorem waitQueueAppend_keeps (h : l.Queues i xs) :
    l.Keeps (waitQueueAppend i x l) i (x :: xs) := by
  unfold waitQueueAppend
  constructor
  · intro y hy
    have hyx : y ≠ x := List.ne_of_not_mem_cons hy
    have hyxs : y ∉ xs := List.not_mem_of_not_mem_cons hy
    cases l.head i with
    | none => simp [Function.update_of_ne hyx]
    | some head =>
      cases ht : l.tail i with
      | none => simp [Function.update_of_ne hyx]
      | some tail =>
        have hyt : y ≠ tail := by
          rintro rfl
          exact hyxs (List.mem_of_getLast? (h.tail.symm.trans ht))
        simp [Function.update_of_ne hyx, Function.update_of_ne hyt]
  · intro j hj
    cases l.head i with
    | none => simp [Function.update_of_ne hj]
    | some head => cases ht : l.tail i <;> simp [Function.update_of_ne hj]

theorem queues_waitQueueAppend (h : l.Queues i xs) (hx : x ∉ xs) :
    (waitQueueAppend i x l).Queues i (xs ++ [x]) := by
  have hrep := rep_waitQueueAppend (i := ()) (Links.queues_iff.mp h) (fun _ ↦ hx) rfl trivial
  rw [← on_waitQueueAppend (fun _ _ _ ↦ rfl)] at hrep
  have hL : Function.update (fun _ : Unit ↦ xs) () (xs ++ [x]) = fun _ ↦ xs ++ [x] := by
    funext u
    simp
  rw [hL] at hrep
  exact Links.queues_iff.mpr hrep

theorem waitQueuePopfront_other {l' : Links ι α} {j : ι}
    (h : waitQueuePopfront i l = .ok (x, l')) (hj : j ≠ i) :
    l'.head j = l.head j ∧ l'.tail j = l.tail j := by
  unfold waitQueuePopfront at h
  cases hh : l.head i with
  | none => simp [hh] at h
  | some y =>
    simp only [hh] at h
    obtain ⟨-, -, h⟩ := bind_eq_ok.mp h
    obtain ⟨rfl, rfl⟩ := Prod.mk.inj (Except.ok.inj h)
    split <;> simp [Function.update_of_ne hj]

theorem queues_waitQueuePopfront (h : l.Queues i (x :: xs)) :
    ∃ l', waitQueuePopfront i l = .ok (x, l') ∧ l'.Queues i xs ∧ l.Keeps l' i (x :: xs) := by
  have hinj : Function.Injective fun _ : Unit ↦ i := fun _ _ _ ↦ rfl
  have hmap := on_waitQueuePopfront hinj l ()
  obtain ⟨l₂, hrun, hrep, hfar⟩ := rep_waitQueuePopfront (Links.queues_iff.mp h) rfl rfl
  rw [hrun] at hmap
  cases hl : waitQueuePopfront i l with
  | error e =>
    rw [hl] at hmap
    cases hmap
  | ok r =>
    obtain ⟨y, l'⟩ := r
    rw [hl] at hmap
    obtain ⟨rfl, rfl⟩ := Prod.mk.inj (Except.ok.inj hmap)
    have hL : Function.update (fun _ : Unit ↦ y :: xs) () xs = fun _ ↦ xs := by
      funext u
      simp
    rw [hL] at hrep
    exact ⟨l', rfl, Links.queues_iff.mpr hrep, hfar, fun j hj ↦ waitQueuePopfront_other hl hj⟩

/-! ## Nodes and their threads -/

/-- `tlistnode_t`: the links, and `node->thread`. -/
structure Nodes (ι α τ : Type) where
  links : Links ι α
  thread : α → τ

section

variable {τ : Type}

def Nodes.threadListnodeInit (n : Nodes ι α τ) (node : α) (thread : τ) : Nodes ι α τ where
  links := (n.links.setNext node none).setPrev node none
  thread := Function.update n.thread node thread

def Nodes.threadListAdd (n : Nodes ι α τ) (i : ι) (node : α) : Nodes ι α τ :=
  { n with links := Kernel.threadListAdd i node n.links }

def Nodes.threadListRemove (n : Nodes ι α τ) (i : ι) (node : α) : Except Halt (Nodes ι α τ) := do
  let links ← Kernel.threadListRemove i node n.links
  .ok { n with links }

def Nodes.waitQueueAppend (n : Nodes ι α τ) (i : ι) (node : α) : Nodes ι α τ :=
  { n with links := Kernel.waitQueueAppend i node n.links }

/-- `return unblocked->thread;` -/
def Nodes.waitQueuePopfront (n : Nodes ι α τ) (i : ι) : Except Halt (τ × Nodes ι α τ) := do
  let (unblocked, links) ← Kernel.waitQueuePopfront i n.links
  .ok (n.thread unblocked, { n with links })

/-- Every node outside `xs` keeps its pointers, every list but `i` its ends, and every node its
thread. -/
structure Nodes.Keeps (n n' : Nodes ι α τ) (i : ι) (xs : List α) : Prop where
  links : n.links.Keeps n'.links i xs
  thread : n'.thread = n.thread

theorem spells_threadListnodeInit {n : Nodes ι α τ} (t : τ) (h : n.links.Spells i xs)
    (hx : x ∉ xs) : (n.threadListnodeInit x t).links.Spells i xs := by
  have hne : ∀ {y}, y ∈ xs → y ≠ x := by
    rintro y hy rfl
    exact hx hy
  refine ⟨h.seg.congr (fun y hy ↦ ?_) fun y hy ↦ ?_, h.head, h.nodup⟩
  · show Function.update n.links.next x none y = n.links.next y
    exact Function.update_of_ne (hne hy) ..
  · show Function.update n.links.prev x none y = n.links.prev y
    exact Function.update_of_ne (hne hy) ..

/-- The list functions are the operations on sequences: a list with a head takes a node in front
and gives one up anywhere, a wait queue takes a thread at the back and gives one up in front, and
the node that has left a wait queue can go into a list at once. -/
theorem lists_refine_sequences (n : Nodes ι α τ) :
    (∀ i xs x t, n.links.Spells i xs → x ∉ xs →
      (n.threadListnodeInit x t).links.Spells i xs ∧
      (n.threadListnodeInit x t).links.next x = none ∧
      (n.threadListnodeInit x t).links.prev x = none ∧
      (n.threadListnodeInit x t).thread x = t) ∧
    (∀ i xs x, n.links.Spells i xs → x ∉ xs →
      (n.threadListAdd i x).links.Spells i (x :: xs) ∧ n.Keeps (n.threadListAdd i x) i (x :: xs)) ∧
    (∀ i xs x ys, n.links.Spells i (xs ++ x :: ys) →
      ∃ n', n.threadListRemove i x = .ok n' ∧ n'.links.Spells i (xs ++ ys) ∧
        n'.links.next x = none ∧ n'.links.prev x = none ∧ n.Keeps n' i (xs ++ x :: ys)) ∧
    (∀ i ys x, n.links.Queues i ys → x ∉ ys →
      (n.waitQueueAppend i x).links.Queues i (ys ++ [x]) ∧
      n.Keeps (n.waitQueueAppend i x) i (x :: ys)) ∧
    ∀ i y ys, n.links.Queues i (y :: ys) →
      ∃ n', n.waitQueuePopfront i = .ok (n.thread y, n') ∧ n'.links.Queues i ys ∧
        (n'.links.tail i = none ↔ ys = []) ∧ n.Keeps n' i (y :: ys) ∧
        ∀ (localList : τ → α) j zs, localList (n.thread y) = y → j ≠ i → n.links.Spells j zs →
          (∀ z ∈ zs, z ∉ y :: ys) →
          (n'.threadListAdd j (localList (n.thread y))).links.Spells j (y :: zs) ∧
          (n'.threadListAdd j (localList (n.thread y))).links.Queues i ys := by
  refine ⟨?init, ?add, ?remove, ?append, ?popfront⟩
  case init =>
    intro i xs x t h hx
    refine ⟨spells_threadListnodeInit t h hx, ?_, ?_, ?_⟩
    · show Function.update n.links.next x none x = none
      simp
    · show Function.update n.links.prev x none x = none
      simp
    · show Function.update n.thread x t x = t
      simp
  case add =>
    intro i xs x h hx
    exact ⟨spells_threadListAdd h hx, threadListAdd_keeps h, rfl⟩
  case remove =>
    intro i xs x ys h
    obtain ⟨l', hrun, hs, hk⟩ := spells_threadListRemove h
    have hnode := threadListRemove_node hrun
    refine ⟨{ n with links := l' }, ?_, hs, hnode.1, hnode.2, hk, rfl⟩
    unfold Nodes.threadListRemove
    rw [hrun, ok_bind]
  case append =>
    intro i ys x h hx
    exact ⟨queues_waitQueueAppend h hx, waitQueueAppend_keeps h, rfl⟩
  case popfront =>
    intro i y ys h
    obtain ⟨l', hrun, hq, hk⟩ := queues_waitQueuePopfront h
    refine ⟨{ n with links := l' }, ?_, hq, ?_, ⟨hk, rfl⟩, ?_⟩
    · unfold Nodes.waitQueuePopfront
      rw [hrun, ok_bind]
    · show l'.tail i = none ↔ ys = []
      rw [hq.tail, List.getLast?_eq_none_iff]
    · intro localList j zs hlocal hj hzs hdis
      rw [hlocal]
      -- popping `y` has not touched list `j`, nor does adding it there touch what is left of `i`
      have hy : y ∉ ys := (List.nodup_cons.mp h.nodup).1
      have hj' : l'.Spells j zs := hk.spells hj hdis hzs
      refine ⟨spells_threadListAdd hj' fun hm ↦ hdis y hm List.mem_cons_self, ?_⟩
      apply (threadListAdd_keeps hj').queues hj.symm _ hq
      intro z hz hm
      rcases List.mem_cons.mp hm with rfl | hm
      · exact hy hz
      · exact hdis z hm (List.mem_cons_of_mem _ hz)

/-- The list `[1, 2]` and the wait queue `[3, 4]`, each made by its own functions. -/
theorem lists_refine_sequences_both :
    let n : Nodes Bool Nat Nat :=
      ((((⟨⟨fun _ ↦ none, fun _ ↦ none, fun _ ↦ none, fun _ ↦ none⟩, id⟩ : Nodes Bool Nat Nat
        ).threadListAdd false 2).threadListAdd false 1).waitQueueAppend true 3).waitQueueAppend
          true 4
    (n.threadListnodeInit 5 5).links.Spells false [1, 2] ∧
    (n.threadListAdd false 5).links.Spells false [5, 1, 2] ∧
    (∃ n', n.threadListRemove false 2 = .ok n' ∧ n'.links.Spells false [1]) ∧
    (n.waitQueueAppend true 5).links.Queues true [3, 4, 5] ∧
    ∃ n', n.waitQueuePopfront true = .ok (3, n') ∧
      (n'.threadListAdd false 3).links.Spells false [3, 1, 2] ∧
      (n'.threadListAdd false 3).links.Queues true [4] := by
  intro n
  have hlist : n.links.Spells false [1, 2] := ⟨⟨rfl, rfl, rfl, rfl, trivial⟩, rfl, by decide⟩
  have hqueue : n.links.Queues true [3, 4] :=
    ⟨⟨⟨rfl, rfl, rfl, rfl, trivial⟩, rfl, by decide⟩, rfl⟩
  obtain ⟨hinit, hadd, hremove, happend, hpop⟩ := lists_refine_sequences n
  obtain ⟨n', hrun, hs, -⟩ := hremove false [1] 2 [] hlist
  obtain ⟨n'', hrun', -, -, -, hinto⟩ := hpop true 3 [4] hqueue
  exact ⟨(hinit false _ 5 5 hlist (by decide)).1, (hadd false _ 5 hlist (by decide)).1,
    ⟨n', hrun, hs⟩, (happend true _ 5 hqueue (by decide)).1,
    n'', hrun', hinto id false _ rfl (by decide) hlist (by decide)⟩

end

end AlienOS.Kernel
