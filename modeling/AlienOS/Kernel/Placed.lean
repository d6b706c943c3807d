import AlienOS.Kernel.Placement
import Mathlib.Data.Fintype.Card

/-!
# Placed — the pointers of the thread lists and what the kernel does to them

One lemma for each function that moves a thread: from a placed state it does not panic, and the
state it leaves is placed.
-/

open AlienOS.Lib

namespace AlienOS.Kernel

/-- The nodes on the lists are those the history puts there. -/
def Agrees (L : ListId → List Tid) (home : Tid → Option ListId) : Prop :=
  ∀ i t, t ∈ L i ↔ home t = some i

section

variable {L : ListId → List Tid} {home : Tid → Option ListId} {i : ListId} {x : Tid}

theorem Agrees.added (h : Agrees L home) (hx : home x = none) :
    Agrees ((Event.added i x).onLists L) ((Event.added i x).onHome home) := by
  intro j t
  have hm : t ∈ (Event.added i x).onLists L j ↔ t ∈ L j ∨ (j = i ∧ t = x) := by
    by_cases hj : j = i
    · subst hj
      cases j <;> simp [Event.onLists, or_comm]
    · cases i <;> simp [Event.onLists, hj]
  rw [hm, h j t]
  show _ ↔ Function.update home x (some i) t = some j
  by_cases ht : t = x
  · subst ht
    simp [hx, eq_comm]
  · simp [ht]

theorem Agrees.removed (h : Agrees L home) (hx : home x = some i) (hn : (L i).Nodup) :
    Agrees ((Event.removed i x).onLists L) ((Event.removed i x).onHome home) := by
  intro j t
  show t ∈ Function.update L i ((L i).erase x) j ↔ Function.update home x none t = some j
  by_cases ht : t = x
  · subst ht
    by_cases hj : j = i
    · subst hj
      simp [hn.mem_erase_iff]
    · have : i ≠ j := fun he ↦ hj he.symm
      simp [Function.update_of_ne hj, h j, hx, this]
  · by_cases hj : j = i
    · subst hj
      simp [hn.mem_erase_iff, ht, h j]
    · simp [Function.update_of_ne hj, h j, Function.update_of_ne ht]

end

/-- What the first node of each list has for its predecessor: `node` on `ready_threads`, when an
insertion there has begun. -/
def pending (node : Option Tid) (i : ListId) : Option Tid :=
  if i = .readyThreads then node else none

/-- The lists, the status fields and the history agree; `node` is being inserted. -/
structure Placed (s : State) (node : Option Tid) : Prop where
  rep : s.lists.Rep ListId.Tailed (pending node) (listsOf s.trace)
  agrees : Agrees (listsOf s.trace) (homeOf s.trace)
  standing : Standing s.idleThread s.currentThread s.status (homeOf s.trace) (threadsOf s.trace)

@[simp] theorem pending_none : pending none = fun _ ↦ none := by
  funext i
  simp [pending]

theorem pending_update (node node' : Option Tid) :
    Function.update (pending node) .readyThreads node' = pending node' := by
  funext i
  by_cases hi : i = .readyThreads
  · subst hi
    simp [pending]
  · simp [pending, hi]

namespace Placed

variable {s : State} {node : Option Tid} {x : Tid} {q : WaitQueue}

theorem home_of_mem (h : Placed s node) {i : ListId} (hx : x ∈ listsOf s.trace i) :
    homeOf s.trace x = some i := (h.agrees i x).mp hx

theorem not_mem (h : Placed s node) (hx : homeOf s.trace x = none) (i : ListId) :
    x ∉ listsOf s.trace i := fun hm ↦ by
  rw [h.home_of_mem hm] at hx
  cases hx

end Placed

/-! ## Wait queues -/

section

variable {s : State} {q : WaitQueue} {x : Tid} {xs : List Tid}

/-- What `wakeFirst` makes of a state: `x` is `Ready`, and on `ready_threads`. -/
def State.woken (s : State) (queue : WaitQueue) (x : Tid) (lists : Links ListId Tid) : State :=
  { s with
    status := Function.update s.status x .ready
    blockedOn := Function.update s.blockedOn x none
    blockerType := Function.update s.blockerType x .none
    lists
    trace := .added .readyThreads x :: .removed (.waitQueue queue) x :: s.trace }

theorem wakeFirst_spec (h : Placed s none) (hq : listsOf s.trace (.waitQueue q) = x :: xs)
    (hx : x ≠ s.currentThread) :
    ∃ lists, wakeFirst q s = .ok (s.woken q x lists) ∧ Placed (s.woken q x lists) none := by
  have hhome := h.home_of_mem (x := x) (i := .waitQueue q) (by simp [hq])
  obtain ⟨l, hrun, hrep, -⟩ := rep_waitQueuePopfront h.rep hq rfl
  have hL : Function.update (listsOf s.trace) (.waitQueue q) xs =
      (Event.removed (.waitQueue q) x).onLists (listsOf s.trace) := by
    simp [Event.onLists, hq]
  rw [hL] at hrep
  have hagr := h.agrees.removed hhome (h.rep.nodup _)
  have hxn : ∀ j, x ∉ (Event.removed (.waitQueue q) x).onLists (listsOf s.trace) j := fun j hm ↦ by
    have := (hagr j x).mp hm
    simp [Event.onHome] at this
  have hrep' := rep_threadListAdd (i := .readyThreads) hrep hxn id
  rw [pending_update] at hrep'
  have hs : s.status x = .blocked := h.standing.status_eq hhome
  refine ⟨threadListAdd .readyThreads x l, ?_, hrep', hagr.added (i := .readyThreads) (x := x) ?_,
    ?_⟩
  · unfold wakeFirst threadUnblock
    rw [hrun]
    simp [kernelAssert, hs, State.woken]
  · simp [Event.onHome]
  · have := h.standing.ready hhome hx
    simpa [State.woken, homeOf, threadsOf, Event.onHome, Event.onThreads] using this

theorem placed_enqueueCurrent (h : Placed s none) (hs : s.status s.currentThread ≠ .blocked)
    (hi : s.currentThread ≠ s.idleThread) :
    Placed (enqueueCurrent q (s.setStatus s.currentThread .blocked)) none := by
  have hc := h.standing.home_cur hs
  have hrep := rep_waitQueueAppend (i := .waitQueue q) (Q := ListId.Tailed) h.rep (h.not_mem hc) rfl
    (show ListId.Tailed (.waitQueue q) from trivial)
  exact ⟨hrep, h.agrees.added hc, h.standing.block hs hi⟩

/-- The end of `semaphore_up` and of `condvar_signal`: with somebody waiting the first is woken. -/
inductive Woke (queue : WaitQueue) (s : State) : State → Prop where
  | nobody (h : listsOf s.trace (.waitQueue queue) = []) : Woke queue s s
  | first {x : Tid} {xs : List Tid} {lists : Links ListId Tid}
    (h : listsOf s.trace (.waitQueue queue) = x :: xs) : Woke queue s (s.woken queue x lists)

theorem woke_spec (h : Placed s none)
    (hc : ∀ x ∈ listsOf s.trace (.waitQueue q), x ≠ s.currentThread) :
    ∃ s', (match s.lists.head (.waitQueue q) with
      | some _ => wakeFirst q s
      | none => .ok s) = .ok s' ∧ Woke q s s' ∧ Placed s' none := by
  cases hq : listsOf s.trace (.waitQueue q) with
  | nil =>
    have hh : s.lists.head (.waitQueue q) = none := by rw [h.rep.head, hq]; rfl
    rw [hh]
    exact ⟨s, rfl, .nobody hq, h⟩
  | cons x xs =>
    have hh : s.lists.head (.waitQueue q) = some x := by rw [h.rep.head, hq]; rfl
    rw [hh]
    obtain ⟨l, hrun, hp⟩ := wakeFirst_spec h hq (hc x (by simp [hq]))
    exact ⟨_, hrun, .first hq, hp⟩

/-- The loop of `condvar_broadcast` wakes one after the other. -/
inductive WokeAll (queue : WaitQueue) : State → State → Prop where
  | nobody {s : State} (h : listsOf s.trace (.waitQueue queue) = []) : WokeAll queue s s
  | first {s s' : State} {x : Tid} {xs : List Tid} {lists : Links ListId Tid}
    (h : listsOf s.trace (.waitQueue queue) = x :: xs)
    (hw : WokeAll queue (s.woken queue x lists) s') : WokeAll queue s s'

theorem listsOf_woken (s : State) (q : WaitQueue) (x : Tid) (lists : Links ListId Tid) :
    listsOf (s.woken q x lists).trace (.waitQueue q) =
      (listsOf s.trace (.waitQueue q)).erase x := by
  simp [State.woken, listsOf, Event.onLists]

end

/-! ## The timer tick -/

section

variable {s : State} {node : Option Tid} {x : Tid}

theorem Placed.length_le (h : Placed s node) (i : ListId) :
    (listsOf s.trace i).length ≤ walkLimit := by
  have := ((h.rep.nodup i).map (fun _ _ ↦ BitVec.eq_of_toFin_eq)).length_le_card
  simpa [walkLimit] using this

theorem condvarBroadcastLoop_spec {c : Nat} {fuel : Nat} : ∀ {s : State}, Placed s none →
    (∀ x ∈ listsOf s.trace (.waitQueue (.condvar c)), x ≠ s.currentThread) →
    (listsOf s.trace (.waitQueue (.condvar c))).length < fuel →
    ∃ s', condvarBroadcastLoop c fuel s = .ok s' ∧ WokeAll (.condvar c) s s' ∧ Placed s' none := by
  induction fuel with
  | zero => exact fun _ _ hf ↦ absurd hf (Nat.not_lt_zero _)
  | succ fuel ih =>
    intro s h hc hf
    unfold condvarBroadcastLoop
    rw [h.rep.head]
    cases hq : listsOf s.trace (.waitQueue (.condvar c)) with
    | nil => exact ⟨s, rfl, .nobody hq, h⟩
    | cons x xs =>
      obtain ⟨l, hrun, hp⟩ := wakeFirst_spec h hq (hc x (by simp [hq]))
      have hL := listsOf_woken s (.condvar c) x l
      simp only [hq, List.erase_cons_head] at hL
      obtain ⟨s', hrun', hw, hp'⟩ := ih hp
        (by rw [hL]; exact fun y hy ↦ hc y (by simp [hq, hy]))
        (by rw [hL]; simpa [hq] using hf)
      refine ⟨s', ?_, .first hq hw, hp'⟩
      simp only [List.head?_cons, hrun, ok_bind]
      exact hrun'

/-- A sleeper is made `Ready`. -/
theorem placed_wakeup (h : Placed s none) (hx : homeOf s.trace x = some .sleepingThreads) :
    ∃ lists, threadListRemove .sleepingThreads x s.lists = .ok lists ∧
      Placed { s with
        status := Function.update s.status x .ready
        lists := threadListAdd .readyThreads x lists
        trace := .added .readyThreads x :: .removed .sleepingThreads x :: s.trace } none := by
  have hm := (h.agrees _ _).mpr hx
  obtain ⟨ys, xs, hL⟩ := List.append_of_mem hm
  obtain ⟨l, hrun, hrep, -⟩ := rep_threadListRemove h.rep hL rfl id
  have hxy : x ∉ ys := fun hy ↦ by
    have := h.rep.nodup .sleepingThreads
    rw [hL, List.nodup_append] at this
    exact this.2.2 x hy x List.mem_cons_self rfl
  have he : Function.update (listsOf s.trace) .sleepingThreads (ys ++ xs) =
      (Event.removed .sleepingThreads x).onLists (listsOf s.trace) := by
    simp [Event.onLists, hL, List.erase_append_right _ hxy]
  rw [he] at hrep
  have hagr := h.agrees.removed hx (h.rep.nodup _)
  have hxn : ∀ j, x ∉ (Event.removed .sleepingThreads x).onLists (listsOf s.trace) j :=
    fun j hm ↦ by
      have := (hagr j x).mp hm
      simp [Event.onHome] at this
  have hrep' := rep_threadListAdd (i := .readyThreads) hrep hxn id
  rw [pending_update] at hrep'
  have hc : x ≠ s.currentThread := by
    rintro rfl
    obtain ⟨q, hq⟩ := h.standing.cur_waits hx
    cases hq
  refine ⟨l, hrun, hrep', hagr.added (i := .readyThreads) (x := x) ?_, ?_⟩
  · simp [Event.onHome]
  · have := h.standing.ready hx hc
    simpa [homeOf, threadsOf, Event.onHome, Event.onThreads] using this

/-- The sleepers whose time has come. -/
def State.due (s : State) : List Tid :=
  (listsOf s.trace .sleepingThreads).filter (fun x ↦ s.wakeupTicks x ≤ s.timerTicks)

/-- What a tick logs about them. -/
def wakeEvents : List Tid → List Event
  | [] => []
  | x :: xs => wakeEvents xs ++ [.added .readyThreads x, .removed .sleepingThreads x]

/-- The state after a tick has made `xs` ready. -/
def State.ticked (s : State) (xs : List Tid) (lists : Links ListId Tid) : State :=
  { s with
    status := fun t ↦ if t ∈ xs then .ready else s.status t
    lists
    trace := wakeEvents xs ++ s.trace }

theorem threadTimerTickLoop_spec {xs : List Tid} : ∀ {l : List Tid} {n : Nat} {s : State},
    Placed s none → listsOf s.trace .sleepingThreads = l ++ xs → xs.length ≤ n →
    ∃ lists, threadTimerTickLoop n xs.head? s =
        .ok (s.ticked (xs.filter (fun x ↦ s.wakeupTicks x ≤ s.timerTicks)) lists) ∧
      Placed (s.ticked (xs.filter (fun x ↦ s.wakeupTicks x ≤ s.timerTicks)) lists) none := by
  induction xs with
  | nil =>
    intro ys fuel s h hL hf
    refine ⟨s.lists, ?_, by simpa [State.ticked, wakeEvents] using h⟩
    cases fuel <;> simp [threadTimerTickLoop, State.ticked, wakeEvents]
  | cons x xs ih =>
    intro ys fuel s h hL hf
    obtain ⟨fuel, rfl⟩ : ∃ n, fuel = n + 1 := ⟨fuel - 1, by simp at hf; omega⟩
    have hx : homeOf s.trace x = some .sleepingThreads := h.home_of_mem (by simp [hL])
    have hn := h.rep.next_eq hL
    have hst : s.status x = .sleeping := h.standing.status_eq hx
    have hnd := h.rep.nodup .sleepingThreads
    rw [hL, List.nodup_append] at hnd
    have hxy : x ∉ ys := fun hy ↦ hnd.2.2 x hy x List.mem_cons_self rfl
    unfold threadTimerTickLoop
    simp only [List.head?_cons]
    simp only [kernelAssert, hst, hn]
    by_cases hdue : s.wakeupTicks x ≤ s.timerTicks
    · obtain ⟨l, hrun, hp⟩ := placed_wakeup h hx
      obtain ⟨lists, hrun', hp'⟩ := ih (l := ys) (n := fuel) hp
        (by simp [listsOf, Event.onLists, hL, List.erase_append_right _ hxy]) (by simpa using hf)
      have he : ∀ zs, ({ s with
          status := Function.update s.status x .ready
          lists := threadListAdd .readyThreads x l
          trace := .added .readyThreads x :: .removed .sleepingThreads x :: s.trace } :
            State).ticked zs lists = s.ticked (x :: zs) lists := by
        intro zs
        unfold State.ticked
        congr 1
        · funext t
          by_cases ht : t = x <;> simp [ht]
        · simp [wakeEvents]
      rw [he] at hrun' hp'
      rw [List.filter_cons_of_pos (by simpa using hdue)]
      refine ⟨lists, ?_, hp'⟩
      simp only [hdue, if_true, hrun, beq_self_eq_true]
      exact hrun'
    · obtain ⟨lists, hrun', hp'⟩ := ih (l := ys ++ [x]) (n := fuel) h
        (by simp [hL]) (by simpa using hf)
      rw [List.filter_cons_of_neg (by simpa using hdue)]
      refine ⟨lists, ?_, hp'⟩
      simp only [hdue, if_false, beq_self_eq_true]
      exact hrun'

/-- With nobody due, the tick changes nothing. -/
theorem threadTimerTickLoop_none {xs : List Tid} : ∀ {l : List Tid} {n : Nat},
    Placed s node → listsOf s.trace .sleepingThreads = l ++ xs → xs.length ≤ n →
    (∀ x ∈ xs, ¬ s.wakeupTicks x ≤ s.timerTicks) →
    threadTimerTickLoop n xs.head? s = .ok s := by
  induction xs with
  | nil =>
    intro ys fuel h hL hf hd
    cases fuel <;> rfl
  | cons x xs ih =>
    intro ys fuel h hL hf hd
    obtain ⟨fuel, rfl⟩ : ∃ n, fuel = n + 1 := ⟨fuel - 1, by simp at hf; omega⟩
    have hst : s.status x = .sleeping :=
      h.standing.status_eq (h.home_of_mem (i := .sleepingThreads) (by simp [hL]))
    unfold threadTimerTickLoop
    simp only [List.head?_cons, kernelAssert, hst, h.rep.next_eq hL, hd x List.mem_cons_self,
      if_false, beq_self_eq_true]
    exact ih (l := ys ++ [x]) h (by simp [hL]) (by simpa using hf)
      fun y hy ↦ hd y (List.mem_cons_of_mem _ hy)

/-- The sleepers whose time has come become `Ready`, and nothing else happens. -/
theorem threadTimerTick_spec (h : Placed s none) :
    ∃ lists, threadTimerTick s = .ok (s.ticked s.due lists) ∧ Placed (s.ticked s.due lists) none := by
  unfold threadTimerTick
  rw [h.rep.head]
  exact threadTimerTickLoop_spec (l := []) h rfl (h.length_le _)

theorem threadTimerTick_none (h : Placed s node)
    (hd : ∀ x ∈ listsOf s.trace .sleepingThreads, ¬ s.wakeupTicks x ≤ s.timerTicks) :
    threadTimerTick s = .ok s := by
  unfold threadTimerTick
  rw [h.rep.head]
  exact threadTimerTickLoop_none (l := []) h rfl (h.length_le _) hd

end

end AlienOS.Kernel
