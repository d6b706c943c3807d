import AlienOS.Lib.Except
import AlienOS.Lib.Links
import AlienOS.Heap.Kmalloc

/-!
# ThreadList — the list functions of `thread.c` and `synch.c`

`thread_list_add` and `thread_list_remove` on lists with a head, `wait_queue_append` and
`wait_queue_popfront` on lists with a head and a tail, with what each does to the sequences that
the pointers spell.
-/

open AlienOS.Lib

set_option linter.unusedSectionVars false

namespace AlienOS.Kernel

variable {ι α : Type} [DecidableEq ι] [DecidableEq α]

/-! ## `thread_list_add` -/

/-- `if (*head) { (*head)->prev = node; }` -/
def addHeadPrev (i : ι) (node : α) (l : Links ι α) : Links ι α :=
  match l.head i with
  | some head => l.setPrev head (some node)
  | none => l

/-- `node->next = *head;` -/
def addNodeNext (i : ι) (node : α) (l : Links ι α) : Links ι α := l.setNext node (l.head i)

/-- `node->prev = NULL;` -/
def addNodePrev (node : α) (l : Links ι α) : Links ι α := l.setPrev node none

/-- `*head = node;` -/
def addHead (i : ι) (node : α) (l : Links ι α) : Links ι α := l.setHead i (some node)

def threadListAdd (i : ι) (node : α) (l : Links ι α) : Links ι α :=
  addHead i node (addNodePrev node (addNodeNext i node (addHeadPrev i node l)))

/-! ## `thread_list_remove` -/

def threadListRemove (i : ι) (node : α) (l : Links ι α) : Except Halt (Links ι α) := do
  let l ← match l.prev node with
    | none => do
      kernelAssert (l.head i == some node)
        "thread_list_remove(): Expected thread without prev pointer to be head of list"
      let l := l.setHead i (l.next node)
      match l.head i with
      | some head => .ok (l.setPrev head none)
      | none => .ok l
    | some prev => .ok (l.setNext prev (l.next node))
  let l := match l.next node with
    | some next => l.setPrev next (l.prev node)
    | none => l
  .ok ((l.setNext node none).setPrev node none)

/-! ## Wait queues -/

def waitQueueAppend (i : ι) (thread : α) (l : Links ι α) : Links ι α :=
  match l.head i with
  | none => (((l.setHead i (some thread)).setTail i (some thread)).setNext thread none).setPrev
      thread none
  | some _ =>
    let l := match l.tail i with
      | some tail => l.setNext tail (some thread)
      | none => l
    ((l.setNext thread none).setPrev thread (l.tail i)).setTail i (some thread)

def waitQueuePopfront (i : ι) (l : Links ι α) : Except Halt (α × Links ι α) :=
  match l.head i with
  | none => .error (.panic "wait_queue_popfront(): Expected nonempty lists")
  | some unblocked => do
    kernelAssert (l.prev unblocked == none)
      "wait_queue_popfront(): Expected head to have no previous node"
    let l := l.setHead i (l.next unblocked)
    let l := match l.head i with
      | none => l.setTail i none
      | some head => l.setPrev head none
    .ok (unblocked, l.setNext unblocked none)

/-! ## On some of the lists alone -/

section

variable {κ : Type} [DecidableEq κ] {f : κ → ι}

theorem on_threadListAdd (hf : Function.Injective f) (l : Links ι α) (k : κ) (x : α) :
    (threadListAdd (f k) x l).on f = threadListAdd k x (l.on f) := by
  unfold threadListAdd addHead addNodePrev addNodeNext addHeadPrev
  rw [Links.on_setHead _ hf]
  simp only [Links.on_head]
  cases l.head (f k) <;> rfl

theorem on_threadListRemove (hf : Function.Injective f) (l : Links ι α) (k : κ) (x : α) :
    (threadListRemove (f k) x l).map (fun l ↦ l.on f) = threadListRemove k x (l.on f) := by
  unfold threadListRemove
  cases hp : l.prev x with
  | none =>
    by_cases hh : l.head (f k) = some x
    · cases hn : l.next x with
      | none => simp [hp, hn, hh, kernelAssert, Except.map, Links.on_setHead _ hf]
      | some y =>
        by_cases hy : x = y
        · subst hy
          simp [hp, hn, hh, kernelAssert, Except.map, Links.on_setHead _ hf]
        · simp [hp, hn, hh, kernelAssert, Except.map, Links.on_setHead _ hf, hy]
    · simp [hp, hh, kernelAssert, Except.map]
  | some w =>
    by_cases hw : x = w
    · subst hw
      cases hn : l.next x <;> simp [hp, hn, Except.map]
    · cases hn : l.next x <;> simp [hp, hn, hw, Except.map]

theorem on_waitQueueAppend (hf : Function.Injective f) (l : Links ι α) (k : κ) (x : α) :
    (waitQueueAppend (f k) x l).on f = waitQueueAppend k x (l.on f) := by
  unfold waitQueueAppend
  simp only [Links.on_head]
  cases l.head (f k) with
  | none => simp [Links.on_setHead _ hf, Links.on_setTail _ hf]
  | some head =>
    rw [Links.on_setTail _ hf]
    simp only [Links.on_tail]
    cases ht : l.tail (f k) <;> simp [ht]

theorem on_waitQueuePopfront (hf : Function.Injective f) (l : Links ι α) (k : κ) :
    (waitQueuePopfront (f k) l).map (fun r ↦ (r.1, r.2.on f)) = waitQueuePopfront k (l.on f) := by
  unfold waitQueuePopfront
  simp only [Links.on_head]
  cases l.head (f k) with
  | none => rfl
  | some x =>
    by_cases hp : l.prev x = none
    · cases hn : l.next x <;>
        simp [hp, hn, kernelAssert, Except.map, Links.on_setHead _ hf, Links.on_setTail _ hf]
    · simp [hp, kernelAssert, Except.map]

end

/-! ## What they do to the sequences -/

section

variable {l : Links ι α} {Q : ι → Prop} {p : ι → Option α} {L : ι → List α} {i : ι} {x : α}

/-- The first statement of an insertion makes the old head point back to a node that is not yet on
the list. -/
theorem rep_addHeadPrev (h : l.Rep Q p L) :
    (addHeadPrev i x l).Rep Q (Function.update p i (some x)) L := by
  have hnd := h.nodup i
  have hseg := h.seg i
  have hhead := h.head i
  unfold addHeadPrev
  cases hL : L i with
  | nil =>
    rw [hL] at hhead
    simp only [hhead, List.head?_nil]
    refine ⟨fun j ↦ ?_, h.head, h.tail, h.nodup, h.disjoint⟩
    by_cases he : j = i
    · subst he
      rw [hL]
      trivial
    · rw [Function.update_of_ne he]
      exact h.seg j
  | cons y ys =>
    rw [hL] at hhead hnd hseg
    simp only [hhead, List.head?_cons]
    have hi : (l.setPrev y (some x)).Rep Q (Function.update p i (some x))
        (Function.update L i (y :: ys)) := by
      refine h.update ?_ hhead (fun hq ↦ by rw [← hL]; exact h.tail i hq) hnd
        (fun j hj z hz hzj ↦ hj (h.disjoint hzj (hL ▸ hz))) fun j hj ↦ ?_
      · rw [Function.update_self]
        exact hseg.setPrev_head (List.nodup_cons.mp hnd).1 _
      · refine ⟨rfl, rfl, Function.update_of_ne hj _ _, fun z hz ↦ ⟨rfl, ?_⟩⟩
        have : z ≠ y := by
          rintro rfl
          exact hj (h.disjoint hz (by rw [hL]; exact List.mem_cons_self))
        simp [Function.update_of_ne this]
    rwa [← hL, Function.update_eq_self] at hi

/-- The last statement of an insertion puts the node in front. -/
theorem rep_addHead (h : l.Rep Q (Function.update p i (some x)) L) (hx : ∀ j, x ∉ L j)
    (hQ : ¬ Q i) (hn : l.next x = (L i).head?) (hp : l.prev x = none) :
    (addHead i x l).Rep Q (Function.update p i none) (Function.update L i (x :: L i)) := by
  unfold addHead
  have hs := h.seg i
  rw [Function.update_self] at hs
  refine h.update ?_ ?_ (fun hq ↦ absurd hq hQ) (List.nodup_cons.mpr ⟨hx i, h.nodup i⟩)
    (fun j hj z hz ↦ ?_) fun j hj ↦ ⟨?_, rfl, ?_, fun z hz ↦ ⟨rfl, rfl⟩⟩
  · rw [Function.update_self]
    exact ⟨hp, by simpa using hn, hs.congr (fun _ _ ↦ rfl) fun _ _ ↦ rfl⟩
  · simp
  · rcases List.mem_cons.mp hz with rfl | hz
    · exact hx j
    · exact fun hzj ↦ hj (h.disjoint hzj hz)
  · simp [Function.update_of_ne hj]
  · rw [Function.update_of_ne hj, Function.update_of_ne hj]

theorem rep_threadListAdd (h : l.Rep Q p L) (hx : ∀ j, x ∉ L j) (hQ : ¬ Q i) :
    (threadListAdd i x l).Rep Q (Function.update p i none) (Function.update L i (x :: L i)) := by
  unfold threadListAdd addNodePrev addNodeNext
  have h₁ := rep_addHeadPrev (i := i) (x := x) h
  have h₂ := (h₁.setNode hx ((addHeadPrev i x l).head i)).1
  have h₃ := (h₂.setNode hx none).2
  refine rep_addHead h₃ hx hQ ?_ ?_
  · have := h₁.head i
    simpa using this
  · simp

/-- An insertion writes only into its own node and the old head. -/
theorem threadListAdd_frame {y : α} (h : l.Rep Q p L) (hy : y ∉ L i) (hxy : y ≠ x) :
    (threadListAdd i x l).next y = l.next y ∧ (threadListAdd i x l).prev y = l.prev y := by
  unfold threadListAdd addHead addNodePrev addNodeNext addHeadPrev
  have hh := h.head i
  cases hL : L i with
  | nil =>
    rw [hL] at hh
    simp [hh, Function.update_of_ne hxy]
  | cons z zs =>
    rw [hL] at hh hy
    have hz : y ≠ z := by
      rintro rfl
      exact hy List.mem_cons_self
    simp [hh, Function.update_of_ne hxy, Function.update_of_ne hz]

/-- Taking a node out joins its neighbours; only they and the node are written. -/
theorem rep_threadListRemove {xs ys : List α} (h : l.Rep Q p L) (hL : L i = xs ++ x :: ys)
    (hp : p i = none) (hQ : ¬ Q i) :
    ∃ l', threadListRemove i x l = .ok l' ∧ l'.Rep Q p (Function.update L i (xs ++ ys)) ∧
      ∀ y, y ∉ L i → l'.next y = l.next y ∧ l'.prev y = l.prev y := by
  have hnd : (xs ++ x :: ys).Nodup := hL ▸ h.nodup i
  have hseg : l.Seg none (xs ++ x :: ys) none := by
    have := h.seg i
    rwa [hp, hL] at this
  have hhead : l.head i = (xs ++ x :: ys).head? := hL ▸ h.head i
  obtain ⟨-, hprev, hnext, -⟩ := Links.seg_append.mp hseg
  obtain ⟨hxs, hys, hdis⟩ := List.nodup_append.mp hnd
  have hxy : x ∉ ys := (List.nodup_cons.mp hys).1
  have hxx : x ∉ xs := fun hm ↦ hdis x hm x List.mem_cons_self rfl
  have hxl : xs.getLast? ≠ some x := fun he ↦ hxx (List.mem_of_getLast? he)
  have hyh : ys.head? ≠ some x := fun he ↦ hxy (List.mem_of_head? he)
  rw [Option.or_none] at hprev hnext
  -- the pointers after the two neighbours and then `x` itself have been written
  obtain ⟨l', hrun, hn, hpv, hh, ht⟩ : ∃ l', threadListRemove i x l = .ok l' ∧
      (∀ z, l'.next z = if z = x then none else
        if xs.getLast? = some z then ys.head? else l.next z) ∧
      (∀ z, l'.prev z = if z = x then none else
        if ys.head? = some z then xs.getLast? else l.prev z) ∧
      l'.head = Function.update l.head i (xs ++ ys).head? ∧ l'.tail = l.tail := by
    have hxw : ∀ w, xs.getLast? = some w → x ≠ w := by
      rintro w hw rfl
      exact hxl hw
    have hxv : ∀ v, ys.head? = some v → x ≠ v := by
      rintro v hv rfl
      exact hyh hv
    unfold threadListRemove
    cases hw : xs.getLast? with
    | none =>
      rw [List.getLast?_eq_none_iff] at hw
      subst hw
      cases hv : ys.head? with
      | none =>
        refine ⟨_, by
          simp [hprev, hnext, hhead, kernelAssert, hv]
          rfl, fun z ↦ ?_, fun z ↦ ?_, ?_, by simp⟩
        · simp [Function.update_apply]
        · simp [Function.update_apply]
        · simp [hv]
      | some v =>
        have := hxv v hv
        refine ⟨_, by
          simp [hprev, hnext, hhead, kernelAssert, hv, this]
          rfl, fun z ↦ ?_, fun z ↦ ?_, ?_, by simp⟩
        · simp [Function.update_apply]
        · simp [Function.update_apply]
          grind
        · simp [hv]
    | some w =>
      have hw' := hxw w hw
      have hhd : (xs ++ x :: ys).head? = (xs ++ ys).head? := by
        cases xs with
        | nil => simp at hw
        | cons _ _ => rfl
      cases hv : ys.head? with
      | none =>
        refine ⟨_, by
          simp [hprev, hnext, hw, hv, Function.update_of_ne hw']
          rfl, fun z ↦ ?_, fun z ↦ ?_, ?_, by simp⟩
        · simp [Function.update_apply]
          grind
        · simp [Function.update_apply]
        · rw [← hhd, ← hhead]
          simp
      | some v =>
        refine ⟨_, by
          simp [hprev, hnext, hw, hv, Function.update_of_ne hw']
          rfl, fun z ↦ ?_, fun z ↦ ?_, ?_, by simp⟩
        · simp [Function.update_apply]
          grind
        · simp [Function.update_apply]
          grind
        · rw [← hhd, ← hhead]
          simp
  have hne : ∀ z ∈ xs ++ ys, z ≠ x := by
    rintro z hz rfl
    rcases List.mem_append.mp hz with hz | hz
    · exact hxx hz
    · exact hxy hz
  have hfar : ∀ y, y ∉ L i → l'.next y = l.next y ∧ l'.prev y = l.prev y := by
    intro y hy
    rw [hL] at hy
    have hyx : y ≠ x := by
      rintro rfl
      simp at hy
    have h₁ : xs.getLast? ≠ some y := fun he ↦ hy (by simp [List.mem_of_getLast? he])
    have h₂ : ys.head? ≠ some y := fun he ↦ hy (by simp [List.mem_of_head? he])
    simp [hn, hpv, hyx, h₁, h₂]
  refine ⟨l', hrun, h.update (i := i) ?_ ?_ ?_ ?_ ?_ ?_, hfar⟩
  · rw [hp]
    apply hseg.unlink hnd
    · intro z hz
      simp [hn, hne z hz]
    · intro z hz
      simp [hpv, hne z hz]
  · simp [hh]
  · exact fun hq ↦ absurd hq hQ
  · exact hnd.sublist (by simp)
  · intro j hj z hz hzj
    have : z ∈ L i := by
      rw [hL]
      rcases List.mem_append.mp hz with hz | hz <;> simp [hz]
    exact hj (h.disjoint hzj this)
  · intro j hj
    exact ⟨by simp [hh, Function.update_of_ne hj], by rw [ht], rfl,
      fun z hz ↦ hfar z fun hzi ↦ hj (h.disjoint hz hzi)⟩

/-- Threads queue at the back. -/
theorem rep_waitQueueAppend (h : l.Rep Q p L) (hx : ∀ j, x ∉ L j) (hp : p i = none) (hQ : Q i) :
    (waitQueueAppend i x l).Rep Q p (Function.update L i (L i ++ [x])) := by
  have hnd := h.nodup i
  have hseg := h.seg i
  have hhead := h.head i
  have htail := h.tail i hQ
  rw [hp] at hseg
  have hdis : ∀ j, j ≠ i → ∀ z ∈ L i ++ [x], z ∉ L j := by
    intro j hj z hz hzj
    rcases List.mem_append.mp hz with hz | hz
    · exact hj (h.disjoint hzj hz)
    · rw [List.mem_singleton.mp hz] at hzj
      exact hx j hzj
  have hne : ∀ j, ∀ z ∈ L j, z ≠ x := by
    rintro j z hz rfl
    exact hx j hz
  have hnd' : (L i ++ [x]).Nodup := by
    rw [List.nodup_append]
    exact ⟨hnd, by simp, fun a ha b hb ↦ by
      rw [List.mem_singleton.mp hb]
      exact hne i a ha⟩
  unfold waitQueueAppend
  rcases List.eq_nil_or_concat (L i) with hL | ⟨zs, w, hL⟩
  · simp only [hhead, hL, List.head?_nil, List.nil_append]
    rw [hL] at hnd' hdis
    refine h.update ?_ ?_ ?_ hnd' hdis fun j hj ↦ ⟨?_, ?_, rfl, fun z hz ↦ ?_⟩
    · rw [hp]
      exact ⟨by simp, by simp, trivial⟩
    · simp
    · simp
    · simp [Function.update_of_ne hj]
    · simp [Function.update_of_ne hj]
    · simp [Function.update_of_ne (hne j z hz)]
  · have hw : (L i).getLast? = some w := by simp [hL]
    have hd : (L i).head? = some ((L i).head (by simp [hL])) := List.head?_eq_some_head _
    simp only [hhead, htail, hw, hd]
    have hwx : w ≠ x := hne i w (List.mem_of_getLast? hw)
    have hx' := hx i
    refine h.update ?_ ?_ ?_ hnd' hdis fun j hj ↦ ⟨?_, ?_, rfl, fun z hz ↦ ?_⟩
    · rw [hp, Links.seg_append]
      refine ⟨hseg.relast hnd (fun z hz ↦ ?_) fun z hz ↦ ?_, by simp [htail, hw], by simp, trivial⟩
      · simp [Function.update_of_ne (hne i z hz)]
      · by_cases hz' : z = w
        · subst hz'
          simp [Function.update_of_ne hwx, hw]
        · have : w ≠ z := fun he ↦ hz' he.symm
          simp [Function.update_of_ne (hne i z hz), Function.update_of_ne hz', hw, this]
    · simp only [Links.setTail_head, Links.setPrev_head, Links.setNext_head, hhead]
      rw [List.head?_append, hd]
      rfl
    · simp
    · rfl
    · simp [Function.update_of_ne hj]
    · have hzw : z ≠ w := by
        rintro rfl
        exact hj (h.disjoint hz (List.mem_of_getLast? hw))
      simp [Function.update_of_ne (hne j z hz), Function.update_of_ne hzw]

theorem rep_waitQueuePopfront {xs : List α} (h : l.Rep Q p L) (hL : L i = x :: xs)
    (hp : p i = none) :
    ∃ l', waitQueuePopfront i l = .ok (x, l') ∧ l'.Rep Q p (Function.update L i xs) ∧
      ∀ y, y ∉ L i → l'.next y = l.next y ∧ l'.prev y = l.prev y := by
  have hnd : (x :: xs).Nodup := hL ▸ h.nodup i
  have hseg : l.Seg none (x :: xs) none := by
    have := h.seg i
    rwa [hp, hL] at this
  have hhead : l.head i = some x := by rw [h.head i, hL]; rfl
  obtain ⟨hprev, hnext, hs⟩ := hseg
  obtain ⟨hx, hxs⟩ := List.nodup_cons.mp hnd
  rw [Option.or_none] at hnext
  have hhx : xs.head? ≠ some x := fun he ↦ hx (List.mem_of_head? he)
  obtain ⟨l', hrun, hn, hpv, hh, ht⟩ : ∃ l', waitQueuePopfront i l = .ok (x, l') ∧
      (∀ z, l'.next z = if z = x then none else l.next z) ∧
      (∀ z, l'.prev z = if xs.head? = some z then none else l.prev z) ∧
      l'.head = Function.update l.head i xs.head? ∧
      l'.tail = if xs = [] then Function.update l.tail i none else l.tail := by
    unfold waitQueuePopfront
    cases xs with
    | nil =>
      refine ⟨_, by
        simp [hhead, hprev, hnext, kernelAssert]
        rfl, fun z ↦ ?_, fun z ↦ ?_, ?_, ?_⟩
      · simp [Function.update_apply]
      · simp
      · simp
      · simp
    | cons v vs =>
      refine ⟨_, by
        simp [hhead, hprev, hnext, kernelAssert]
        rfl, fun z ↦ ?_, fun z ↦ ?_, ?_, ?_⟩
      · simp [Function.update_apply]
      · simp [Function.update_apply]
        grind
      · simp
      · simp
  have hfar : ∀ y, y ∉ L i → l'.next y = l.next y ∧ l'.prev y = l.prev y := by
    intro y hy
    rw [hL] at hy
    have hyx : y ≠ x := by
      rintro rfl
      simp at hy
    have h₂ : xs.head? ≠ some y := fun he ↦ hy (by simp [List.mem_of_head? he])
    simp [hn, hpv, hyx, h₂]
  refine ⟨l', hrun, h.update (i := i) ?_ ?_ ?_ hxs ?_ ?_, hfar⟩
  · rw [hp]
    apply hs.rehead hxs
    · intro z hz
      have : z ≠ x := by
        rintro rfl
        exact hx hz
      simp [hn, this]
    · intro z hz
      simp [hpv]
  · simp [hh]
  · intro hq
    have hti := h.tail i hq
    rw [hL] at hti
    rw [ht]
    cases xs with
    | nil => simp
    | cons v vs => simpa using hti
  · intro j hj z hz hzj
    exact hj (h.disjoint hzj (by rw [hL]; exact List.mem_cons_of_mem _ hz))
  · intro j hj
    refine ⟨by simp [hh, Function.update_of_ne hj], ?_, rfl,
      fun z hz ↦ hfar z fun hzi ↦ hj (h.disjoint hz hzi)⟩
    rw [ht]
    split <;> simp [Function.update_of_ne hj]

end

end AlienOS.Kernel
