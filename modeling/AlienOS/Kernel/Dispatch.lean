import AlienOS.Kernel.Placed

/-!
# Dispatch — `scheduler_next`, the reaping of zombies and the insertion of new threads
-/

open AlienOS.Lib

namespace AlienOS.Kernel

/-! ## Picking the next thread -/

section

variable {s : State} {node : Option Tid} {x : Tid}

theorem lastReady_spec {xs : List Tid} : ∀ {ys : List Tid} {x : Tid} {fuel : Nat}, Placed s node →
    listsOf s.trace .readyThreads = ys ++ x :: xs → xs.length < fuel →
    lastReady s.lists fuel x = .ok ((x :: xs).getLast (List.cons_ne_nil _ _)) := by
  induction xs with
  | nil =>
    intro ys x fuel h hL hf
    obtain ⟨fuel, rfl⟩ : ∃ n, fuel = n + 1 := ⟨fuel - 1, by omega⟩
    simp [lastReady, h.rep.next_eq hL]
  | cons y xs ih =>
    intro ys x fuel h hL hf
    obtain ⟨fuel, rfl⟩ : ∃ n, fuel = n + 1 := ⟨fuel - 1, by omega⟩
    have hL' : listsOf s.trace .readyThreads = (ys ++ [x]) ++ y :: xs := by simp [hL]
    have hp := h.rep.prev_eq hL'
    have hn := h.rep.next_eq hL
    simp only [List.getLast?_concat, Option.some_or] at hp
    rw [List.getLast_cons (List.cons_ne_nil _ _)]
    rw [← ih h hL' (by simpa using hf), lastReady]
    simp [hn, hp, kernelAssert]

/-- `find_ready_thread` with threads waiting: the one that has waited longest. -/
theorem findReadyThread_spec {ys : List Tid} (h : Placed s none)
    (hL : listsOf s.trace .readyThreads = ys ++ [x]) :
    ∃ lists, findReadyThread s =
        .ok (x, { s with lists, trace := .removed .readyThreads x :: s.trace }) ∧
      lists.Rep ListId.Tailed (pending none)
        ((Event.removed .readyThreads x).onLists (listsOf s.trace)) := by
  obtain ⟨l, hrun, hrep, -⟩ := rep_threadListRemove h.rep hL rfl id
  have hnd := h.rep.nodup .readyThreads
  have hxy : x ∉ ys := fun hy ↦ by
    rw [hL, List.nodup_append] at hnd
    exact hnd.2.2 x hy x List.mem_cons_self rfl
  have he : Function.update (listsOf s.trace) .readyThreads (ys ++ []) =
      (Event.removed .readyThreads x).onLists (listsOf s.trace) := by
    simp [Event.onLists, hL, List.erase_append_right _ hxy]
  rw [he] at hrep
  refine ⟨l, ?_, hrep⟩
  have hlen := h.length_le .readyThreads
  unfold findReadyThread
  rw [h.rep.head]
  cases hys : ys with
  | nil =>
    have hL' : listsOf s.trace .readyThreads = [] ++ x :: [] := by simp [hL, hys]
    have hlast := lastReady_spec h hL' (show [].length < walkLimit by decide)
    simp [hL, hys, hlast, hrun]
  | cons y ys' =>
    have hL' : listsOf s.trace .readyThreads = [] ++ y :: (ys' ++ [x]) := by simp [hL, hys]
    have hlt : (ys' ++ [x]).length < walkLimit := by
      rw [hL, hys] at hlen
      simp only [List.length_cons, List.length_append, List.length_nil] at hlen ⊢
      omega
    have hlast := lastReady_spec h hL' hlt
    simp [hL, hys, hlast, hrun]

end

/-! ## Switching -/

/-- The list that a status calls for when its thread is switched out. -/
def ThreadStatus.list : ThreadStatus → Option ListId
  | .running => some .readyThreads
  | .sleeping => some .sleepingThreads
  | .zombie => some .zombieThreads
  | .blocked => none
  | .ready => none

def State.filedOn (s : State) : Option ListId :=
  if s.currentThread = s.idleThread then none else (s.status s.currentThread).list

/-- A running thread becomes `Ready`, any other keeps its status. -/
def ThreadStatus.filed (st : ThreadStatus) : ThreadStatus :=
  if st = .running then .ready else st

/-- What `schedule` logs when it switches to `next`. -/
def State.switchEvents (s : State) (next : Tid) : List Event :=
  (s.filedOn.elim [] fun i ↦ [.added i s.currentThread]) ++
    if next = s.idleThread then [] else [.removed .readyThreads next]

/-- The state after a switch to `next`. -/
def State.switched (s : State) (next : Tid) (lists : Links ListId Tid) : State :=
  { s with
    currentThread := next
    status := Function.update (Function.update s.status s.currentThread
      (s.status s.currentThread).filed) next .running
    lists
    stack := s.esp next
    trace := s.switchEvents next ++ s.trace }

section

variable {s : State} {node : Option Tid} {x : Tid} {entered : ThreadStatus}

/-- With nobody ready, a thread that can go on does. -/
theorem cleanZombies_stay (entered : ThreadStatus) (h : Placed s node) (hr : listsOf s.trace .readyThreads = [])
    (hs : s.status s.currentThread = .running) :
    cleanZombies none entered s = .ok { s with stack := s.esp s.currentThread } := by
  have hh : s.lists.head .readyThreads = none := by rw [h.rep.head, hr]; rfl
  simp [cleanZombies, findReadyThread, schedule, hh, hs, kernelAssert]

theorem linked_added {l : Links ListId Tid} {tr : List Event} {i : ListId}
    (hl : l.Rep ListId.Tailed (pending none) (listsOf tr)) (ha : Agrees (listsOf tr) (homeOf tr))
    (hx : homeOf tr x = none) (hi : ¬ i.Tailed) :
    (threadListAdd i x l).Rep ListId.Tailed (pending none) (listsOf (.added i x :: tr)) ∧
      Agrees (listsOf (.added i x :: tr)) (homeOf (.added i x :: tr)) := by
  have hxn : ∀ j, x ∉ listsOf tr j := fun j hm ↦ by
    rw [ha j x, hx] at hm
    cases hm
  refine ⟨?_, ha.added hx⟩
  have hrep := rep_threadListAdd (i := i) hl hxn hi
  have hp : Function.update (pending none) i none = pending none := by simp
  rw [hp] at hrep
  cases i with
  | waitQueue q => exact absurd trivial hi
  | _ => exact hrep

/-- `schedule` files the thread it switches out. -/
theorem fileOldThread_spec {l : Links ListId Tid} {tr : List Event} {evs : List Event}
    (hevs : evs = (s.status s.currentThread).list.elim [] fun i ↦ [.added i s.currentThread])
    (hl : l.Rep ListId.Tailed (pending none) (listsOf tr)) (ha : Agrees (listsOf tr) (homeOf tr))
    (hr : s.status s.currentThread ≠ .ready)
    (hh : s.status s.currentThread ≠ .blocked → homeOf tr s.currentThread = none) :
    ∃ lists, fileOldThread s.currentThread { s with lists := l, trace := tr } = .ok { s with
        status := Function.update s.status s.currentThread (s.status s.currentThread).filed
        lists
        trace := evs ++ tr } ∧
      lists.Rep ListId.Tailed (pending none) (listsOf (evs ++ tr)) ∧
      Agrees (listsOf (evs ++ tr)) (homeOf (evs ++ tr)) := by
  subst hevs
  have hself : ∀ st, s.status s.currentThread = st →
      Function.update s.status s.currentThread st = s.status := by
    rintro st rfl
    exact Function.update_eq_self _ _
  cases hst : s.status s.currentThread with
  | ready => exact absurd hst hr
  | blocked =>
    refine ⟨l, ?_, hl, ha⟩
    simp [fileOldThread, hst, ThreadStatus.filed, ThreadStatus.list, hself]
  | running =>
    have hx := hh (by simp [hst])
    refine ⟨_, ?_, linked_added hl ha hx id⟩
    simp [fileOldThread, hst, ThreadStatus.filed, ThreadStatus.list, State.setStatus]
  | sleeping =>
    have hx := hh (by simp [hst])
    refine ⟨_, ?_, linked_added hl ha hx id⟩
    simp [fileOldThread, hst, ThreadStatus.filed, ThreadStatus.list, hself]
  | zombie =>
    have hx := hh (by simp [hst])
    refine ⟨_, ?_, linked_added hl ha hx id⟩
    simp [fileOldThread, hst, ThreadStatus.filed, ThreadStatus.list, hself]

/-- The same for the idle thread, which is on no list. -/
theorem switchOut_spec {l : Links ListId Tid} {τ : List Event} {evs : List Event}
    (h : Standing s.idleThread s.currentThread s.status (homeOf s.trace) (threadsOf s.trace))
    (hevs : evs = s.filedOn.elim [] fun i ↦ [.added i s.currentThread])
    (hl : l.Rep ListId.Tailed (pending none) (listsOf τ)) (ha : Agrees (listsOf τ) (homeOf τ))
    (hh : homeOf s.trace s.currentThread = none → homeOf τ s.currentThread = none) :
    ∃ lists, switchOut { s with lists := l, trace := τ } = .ok { s with
        status := Function.update s.status s.currentThread (s.status s.currentThread).filed
        lists
        trace := evs ++ τ } ∧
      lists.Rep ListId.Tailed (pending none) (listsOf (evs ++ τ)) ∧
      Agrees (listsOf (evs ++ τ)) (homeOf (evs ++ τ)) := by
  by_cases hc : s.currentThread = s.idleThread
  · have hst : s.status s.currentThread = .running := by
      rw [hc]
      exact h.idle_running hc.symm
    simp only [State.filedOn, if_pos hc] at hevs
    subst hevs
    exact ⟨l, by simp [switchOut, hc.symm, hst, ThreadStatus.filed, State.setStatus], hl, ha⟩
  · simp only [State.filedOn, if_neg hc] at hevs
    simp only [switchOut, if_neg hc]
    exact fileOldThread_spec hevs hl ha h.cur_not_ready fun hb ↦ hh (h.home_cur hb)

/-- Once the old thread is filed, everyone is on a list. -/
theorem Standing.filed {idle cur : Tid} {status : Tid → ThreadStatus}
    {home : Tid → Option ListId} {threads : List Tid}
    (h : Standing idle cur status home threads) :
    Parked idle (Function.update status cur (status cur).filed)
      ((if cur = idle then none else (status cur).list).elim home
        fun i ↦ Function.update home cur (some i)) threads := by
  by_cases hc : cur = idle
  · subst hc
    have := h.park_idle
    simpa [h.idle_running rfl, ThreadStatus.filed] using this
  · cases hst : status cur with
    | ready => exact absurd hst h.cur_not_ready
    | running =>
      have := h.park hc .readyThreads
      simpa [hc, ThreadStatus.list, ThreadStatus.filed, ListId.status] using this
    | blocked =>
      have := h.park_blocked hc hst
      have he : Function.update status cur .blocked = status := by
        rw [← hst]
        exact Function.update_eq_self _ _
      simpa [hc, ThreadStatus.list, ThreadStatus.filed, he] using this
    | sleeping =>
      have := h.park hc .sleepingThreads
      simpa [hc, ThreadStatus.list, ThreadStatus.filed, ListId.status] using this
    | zombie =>
      have := h.park hc .zombieThreads
      simpa [hc, ThreadStatus.list, ThreadStatus.filed, ListId.status] using this

theorem homeOf_filed (tr : List Event) :
    homeOf ((s.filedOn.elim [] fun i ↦ [.added i s.currentThread]) ++ tr) =
      s.filedOn.elim (homeOf tr) fun i ↦ Function.update (homeOf tr) s.currentThread (some i) := by
  cases s.filedOn <;> rfl

theorem threadsOf_filed (tr : List Event) :
    threadsOf ((s.filedOn.elim [] fun i ↦ [.added i s.currentThread]) ++ tr) = threadsOf tr := by
  cases s.filedOn <;> rfl

/-- Otherwise `scheduler_next` switches to the thread that has been ready longest, or to the idle
thread if nobody is ready. -/
theorem cleanZombies_switch (entered : ThreadStatus) (h : Placed s none)
    (hc : ¬ (listsOf s.trace .readyThreads = [] ∧ s.status s.currentThread = .running)) :
    ∃ next lists, cleanZombies none entered s = .ok (s.switched next lists) ∧
      Placed (s.switched next lists) none ∧ next ≠ s.currentThread ∧
      (next = s.idleThread ∧ listsOf s.trace .readyThreads = [] ∨
        next ≠ s.idleThread ∧ ∃ ys, listsOf s.trace .readyThreads = ys ++ [next]) := by
  have hpark := h.standing.filed
  rcases List.eq_nil_or_concat (listsOf s.trace .readyThreads) with hL | ⟨ys, x, hL⟩
  · -- nobody is ready: the idle thread
    have hst : s.status s.currentThread ≠ .running := fun hst ↦ hc ⟨hL, hst⟩
    have hci : s.currentThread ≠ s.idleThread := fun he ↦
      hst (by rw [he]; exact h.standing.idle_running he.symm)
    obtain ⟨l, hrun, hrep, hagr⟩ := switchOut_spec h.standing rfl h.rep h.agrees id
    have hh : s.lists.head .readyThreads = none := by rw [h.rep.head, hL]; rfl
    have hev : s.switchEvents s.idleThread =
        s.filedOn.elim [] fun i ↦ [.added i s.currentThread] := by
      simp [State.switchEvents]
    refine ⟨s.idleThread, l, ?_, ⟨?_, ?_, ?_⟩, hci.symm, Or.inl ⟨rfl, hL⟩⟩
    · simp [cleanZombies, findReadyThread, schedule, hh, hst, hci, hrun, kernelAssert,
        Function.update_of_ne hci.symm, h.standing.idle_ready hci.symm, State.switched, hev,
        State.setStatus]
    · simpa [State.switched, hev] using hrep
    · simpa [State.switched, hev] using hagr
    · show Standing s.idleThread s.idleThread _ (homeOf (s.switchEvents s.idleThread ++ s.trace))
        (threadsOf (s.switchEvents s.idleThread ++ s.trace))
      rw [hev, homeOf_filed, threadsOf_filed]
      exact hpark.dispatch_idle
  · rw [List.concat_eq_append] at hL
    have hx : homeOf s.trace x = some .readyThreads := h.home_of_mem (by simp [hL])
    have hxc : x ≠ s.currentThread := by
      rintro rfl
      obtain ⟨q, hq⟩ := h.standing.cur_waits hx
      cases hq
    have hxi : x ≠ s.idleThread := by
      rintro rfl
      exact h.standing.idle_not_mem (h.standing.mem hx)
    obtain ⟨l₁, hfind, hrep₁⟩ := findReadyThread_spec h hL
    have hagr₁ := h.agrees.removed hx (h.rep.nodup _)
    obtain ⟨l, hrun, hrep, hagr⟩ := switchOut_spec (l := l₁) (τ := .removed .readyThreads x :: s.trace)
      h.standing rfl hrep₁ hagr₁ fun hn ↦ by simpa [homeOf, Event.onHome, hxc.symm] using hn
    have hev : s.switchEvents x ++ s.trace =
        (s.filedOn.elim [] fun i ↦ [.added i s.currentThread]) ++
          .removed .readyThreads x :: s.trace := by
      simp [State.switchEvents, hxi]
    refine ⟨x, l, ?_, ⟨?_, ?_, ?_⟩, hxc, Or.inr ⟨hxi, ys, hL⟩⟩
    · have hsx : s.status x = .ready := h.standing.status_eq hx
      simp [cleanZombies, hfind, schedule, hxc.symm, hrun, kernelAssert, Function.update_of_ne hxc,
        hsx, State.switched, hev, State.setStatus]
    · simpa [State.switched, hev] using hrep
    · simpa [State.switched, hev] using hagr
    · have hx' : (if s.currentThread = s.idleThread then none
          else (s.status s.currentThread).list).elim (homeOf s.trace)
          (fun i ↦ Function.update (homeOf s.trace) s.currentThread (some i)) x =
            some .readyThreads := by
        generalize (if s.currentThread = s.idleThread then none
          else (s.status s.currentThread).list) = o
        cases o <;> simp [hx, hxc]
      have hhome : homeOf (s.switchEvents x ++ s.trace) = Function.update
          (s.filedOn.elim (homeOf s.trace)
            fun i ↦ Function.update (homeOf s.trace) s.currentThread (some i)) x none := by
        rw [hev, homeOf_filed]
        cases s.filedOn with
        | none => rfl
        | some i => exact (Function.update_comm hxc.symm _ _ _).symm
      show Standing s.idleThread x _ (homeOf (s.switchEvents x ++ s.trace))
        (threadsOf (s.switchEvents x ++ s.trace))
      rw [hhome, hev, threadsOf_filed]
      exact hpark.dispatch hx'

/-! ## Zombies -/

/-- The state after a zombie has been taken off the lists, with its memory still to be freed. -/
def State.unlinked (s : State) (x : Tid) (zombie : Option Tid) (entered : ThreadStatus)
    (lists : Links ListId Tid) (all : Links Unit Tid) : State :=
  { s with
    lists
    allThreads := all
    stack := kfreeOps none ++ kfreeOps (some x) ++ .cleanZombies zombie entered :: s.stack
    trace := .reaped x :: .removed .zombieThreads x :: s.trace }

theorem cleanZombies_reap {xs : List Tid} {s' : State} (h : Placed s node)
    (hL : listsOf s.trace .zombieThreads = x :: xs)
    (hrun : cleanZombies (some x) entered s = .ok s') :
    ∃ lists all, s' = s.unlinked x xs.head? entered lists all ∧
      threadListRemove () x s.allThreads = .ok all ∧
      Placed (s.unlinked x xs.head? entered lists all) node ∧
      ∀ y, homeOf s.trace y = none → lists.next y = s.lists.next y ∧
        lists.prev y = s.lists.prev y := by
  have hx : homeOf s.trace x = some .zombieThreads := h.home_of_mem (by simp [hL])
  have hxc : x ≠ s.currentThread := by
    rintro rfl
    obtain ⟨q, hq⟩ := h.standing.cur_waits hx
    cases hq
  have hL' : listsOf s.trace .zombieThreads = [] ++ x :: xs := hL
  obtain ⟨l, hrem, hrep, hfar⟩ := rep_threadListRemove h.rep hL' rfl id
  have he : Function.update (listsOf s.trace) .zombieThreads ([] ++ xs) =
      (Event.removed .zombieThreads x).onLists (listsOf s.trace) := by
    simp [Event.onLists, hL]
  rw [he] at hrep
  have hagr := h.agrees.removed hx (h.rep.nodup _)
  unfold cleanZombies at hrun
  obtain ⟨-, -, hrun⟩ := bind_eq_ok.mp hrun
  obtain ⟨-, -, hrun⟩ := bind_eq_ok.mp hrun
  have hn : s.lists.next x = xs.head? := h.rep.next_eq hL'
  simp only [State.push, ne_eq, hxc, not_false_eq_true, if_true, hrem, ok_bind, hn] at hrun
  obtain ⟨all, hall, hrun⟩ := bind_eq_ok.mp hrun
  refine ⟨l, all, ?_, hall, ⟨hrep, hagr, h.standing.reap hx⟩, fun y hy ↦ hfar y (h.not_mem hy _)⟩
  cases hrun
  rfl

end

end AlienOS.Kernel
