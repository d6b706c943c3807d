import AlienOS.Kernel.Placed

/-!
# Tick — `thread_timer_tick` on any two lists

The loop walks `sleeping_threads`, unlinks whom it wakes and pushes them onto `ready_threads`.  What
it does needs nothing but that these two lists are well formed.
-/

open AlienOS.Lib

namespace AlienOS.Kernel

/-- The two lists of `thread_timer_tick`. -/
def tickList : Bool → ListId
  | false => .sleepingThreads
  | true => .readyThreads

theorem tickList_injective : Function.Injective tickList := by
  decide

/-- What they spell. -/
def tickSeq (sleeping ready : List Tid) : Bool → List Tid
  | false => sleeping
  | true => ready

section

variable {sleeping sleeping' ready ready' : List Tid}

@[simp] theorem tickSeq_sleeping : Function.update (tickSeq sleeping ready) false sleeping' =
    tickSeq sleeping' ready := by
  funext b
  cases b <;> rfl

@[simp] theorem tickSeq_ready : Function.update (tickSeq sleeping ready) true ready' =
    tickSeq sleeping ready' := by
  funext b
  cases b <;> rfl

end

/-- Both lists are well formed, and apart. -/
def TickRep (l : Links ListId Tid) (sleeping ready : List Tid) : Prop :=
  (l.on tickList).Rep (fun _ ↦ False) (fun _ ↦ none) (tickSeq sleeping ready)

section

variable {l : Links ListId Tid} {sleeping ready : List Tid}

theorem tickRep_iff : TickRep l sleeping ready ↔
    l.Spells .sleepingThreads sleeping ∧ l.Spells .readyThreads ready ∧
      sleeping.Disjoint ready := by
  constructor
  · intro h
    refine ⟨⟨(l.seg_on tickList).mp (h.seg false), h.head false, h.nodup false⟩,
      ⟨(l.seg_on tickList).mp (h.seg true), h.head true, h.nodup true⟩, fun x hs hr ↦ ?_⟩
    have := h.disjoint (i := false) (j := true) hs hr
    cases this
  · rintro ⟨hs, hr, hd⟩
    refine ⟨fun b ↦ ?_, fun b ↦ ?_, fun _ hq ↦ hq.elim, fun b ↦ ?_, fun {b c x} hb hc ↦ ?_⟩
    · cases b
      · exact (l.seg_on tickList).mpr hs.seg
      · exact (l.seg_on tickList).mpr hr.seg
    · cases b
      · exact hs.head
      · exact hr.head
    · cases b
      · exact hs.nodup
      · exact hr.nodup
    · cases b <;> cases c
      · rfl
      · exact (hd hb hc).elim
      · exact (hd hc hb).elim
      · rfl

/-- A sleeper moves to the front of `ready_threads`. -/
theorem TickRep.wakeup {x : Tid} {xs ys : List Tid} (h : TickRep l (ys ++ x :: xs) ready) :
    ∃ l', threadListRemove .sleepingThreads x l = .ok l' ∧
      TickRep (threadListAdd .readyThreads x l') (ys ++ xs) (x :: ready) := by
  have hmap := on_threadListRemove tickList_injective l false x
  obtain ⟨l₂, hrun, hrep, -⟩ := rep_threadListRemove (i := false) h rfl rfl id
  rw [hrun] at hmap
  cases hl : threadListRemove (tickList false) x l with
  | error e =>
    rw [hl] at hmap
    cases hmap
  | ok l' =>
    rw [hl] at hmap
    have hon : l'.on tickList = l₂ := Except.ok.inj hmap
    refine ⟨l', hl, ?_⟩
    rw [← hon, tickSeq_sleeping] at hrep
    have hnd := h.nodup false
    have hx : ∀ b, x ∉ tickSeq (ys ++ xs) ready b := by
      intro b hb
      cases b with
      | false =>
        have hb' : x ∈ ys ++ xs := hb
        have hnd' : (ys ++ x :: xs).Nodup := hnd
        exact (List.nodup_middle.mp hnd').notMem hb'
      | true =>
        have := h.disjoint (i := false) (j := true) (x := x) (by simp [tickSeq]) hb
        cases this
    have hadd := rep_threadListAdd (i := true) hrep hx id
    rw [← on_threadListAdd tickList_injective, tickSeq_ready, Function.update_eq_self_iff.mpr rfl]
      at hadd
    exact hadd

end

section

variable {s : State}

/-- The loop, with `ys` already passed and left asleep. -/
theorem threadTimerTickLoop_splits {xs : List Tid} : ∀ {ys ready : List Tid} {n : Nat} {s : State},
    TickRep s.lists (ys ++ xs) ready → (∀ x ∈ xs, s.status x = .sleeping) → xs.length ≤ n →
    ∃ lists, threadTimerTickLoop n xs.head? s =
        .ok (s.ticked (xs.filter (fun x ↦ s.wakeupTicks x ≤ s.timerTicks)) lists) ∧
      TickRep lists (ys ++ xs.filter (fun x ↦ s.timerTicks < s.wakeupTicks x))
        ((xs.filter (fun x ↦ s.wakeupTicks x ≤ s.timerTicks)).reverse ++ ready) := by
  induction xs with
  | nil =>
    intro ys ready n s h _ _
    refine ⟨s.lists, ?_, by simpa using h⟩
    cases n <;> simp [threadTimerTickLoop, State.ticked, wakeEvents]
  | cons x xs ih =>
    intro ys ready n s h hs hn
    obtain ⟨n, rfl⟩ : ∃ m, n = m + 1 := ⟨n - 1, by simp at hn; omega⟩
    have hst : s.status x = .sleeping := hs x List.mem_cons_self
    have hnext : s.lists.next x = xs.head? := h.next_eq (i := false) rfl
    have hxs : x ∉ xs := by
      have hnd : (ys ++ x :: xs).Nodup := h.nodup false
      exact (List.nodup_cons.mp (List.nodup_append.mp hnd).2.1).1
    unfold threadTimerTickLoop
    simp only [List.head?_cons, kernelAssert, hst, hnext, beq_self_eq_true, if_true, ok_bind]
    by_cases hdue : s.wakeupTicks x ≤ s.timerTicks
    · -- the sleeper is unlinked behind the walk, which goes on from the successor it has read
      obtain ⟨l', hrun, hrep⟩ := h.wakeup
      have hs' : ∀ y ∈ xs, Function.update s.status x .ready y = .sleeping := by
        intro y hy
        have hyx : y ≠ x := by
          rintro rfl
          exact hxs hy
        rw [Function.update_of_ne hyx]
        exact hs y (List.mem_cons_of_mem _ hy)
      obtain ⟨lists, hrun', hrep'⟩ := ih (n := n) (s := { s with
        status := Function.update s.status x .ready
        lists := threadListAdd .readyThreads x l'
        trace := .added .readyThreads x :: .removed .sleepingThreads x :: s.trace }) hrep hs'
        (by simpa using hn)
      have hlate : ¬ s.timerTicks < s.wakeupTicks x := BitVec.not_lt.mpr hdue
      rw [List.filter_cons_of_pos (by simpa using hdue),
        List.filter_cons_of_neg (by simpa using hlate)]
      refine ⟨lists, ?_, ?_⟩
      · simp only [if_pos hdue, hrun, ok_bind]
        rw [hrun']
        congr 1
        unfold State.ticked
        congr 1
        · funext t
          by_cases ht : t = x <;> simp [ht]
        · simp [wakeEvents]
      · rw [List.reverse_cons, List.append_assoc]
        exact hrep'
    · have hlate : s.timerTicks < s.wakeupTicks x := BitVec.not_le.mp hdue
      have hkept : TickRep s.lists ((ys ++ [x]) ++ xs) ready := by simpa using h
      obtain ⟨lists, hrun', hrep'⟩ := ih (n := n) hkept
        (fun y hy ↦ hs y (List.mem_cons_of_mem _ hy)) (by simpa using hn)
      rw [List.filter_cons_of_neg (by simpa using hdue),
        List.filter_cons_of_pos (by simpa using hlate)]
      refine ⟨lists, ?_, by simpa using hrep'⟩
      simp only [if_neg hdue]
      exact hrun'

/-- A tick splits the sleepers: those whose time has come go to the front of `ready_threads`, the
last of them first, and the rest sleep on in their order. -/
theorem thread_timer_tick_splits {sleeping ready : List Tid}
    (hs : s.lists.Spells .sleepingThreads sleeping) (hr : s.lists.Spells .readyThreads ready)
    (hd : sleeping.Disjoint ready) (hst : ∀ x ∈ sleeping, s.status x = .sleeping) :
    ∃ s' late due, threadTimerTick s = .ok s' ∧
      late = sleeping.filter (fun x ↦ s.timerTicks < s.wakeupTicks x) ∧
      due = sleeping.filter (fun x ↦ s.wakeupTicks x ≤ s.timerTicks) ∧
      s'.lists.Spells .sleepingThreads late ∧ s'.lists.Spells .readyThreads (due.reverse ++ ready) ∧
      (∀ t, s'.status t = if t ∈ due then .ready else s.status t) ∧
      late.Disjoint (due.reverse ++ ready) ∧
      List.Perm (late ++ (due.reverse ++ ready)) (sleeping ++ ready) := by
  have hrep : TickRep s.lists ([] ++ sleeping) ready := tickRep_iff.mpr ⟨hs, hr, hd⟩
  have hlen : sleeping.length ≤ walkLimit := by
    have := (hs.nodup.map (fun _ _ ↦ BitVec.eq_of_toFin_eq)).length_le_card
    simpa [walkLimit] using this
  obtain ⟨lists, hrun, hrep'⟩ := threadTimerTickLoop_splits hrep hst hlen
  obtain ⟨hs', hr', hd'⟩ := tickRep_iff.mp hrep'
  refine ⟨s.ticked (sleeping.filter (fun x ↦ s.wakeupTicks x ≤ s.timerTicks)) lists, _, _, ?_, rfl,
    rfl, hs', hr', fun t ↦ rfl, hd', ?_⟩
  · unfold threadTimerTick
    rw [hs.head]
    exact hrun
  · -- every sleeper is on one side or the other
    rw [← List.append_assoc]
    apply List.Perm.append_right
    apply (List.Perm.append_left _ (List.reverse_perm _)).trans
    have hdue : sleeping.filter (fun x ↦ s.wakeupTicks x ≤ s.timerTicks) =
        sleeping.filter (fun x ↦ !decide (s.timerTicks < s.wakeupTicks x)) := by
      apply List.filter_congr
      intro x _
      rw [← decide_not, decide_eq_decide]
      exact BitVec.not_lt.symm
    rw [hdue]
    exact List.filter_append_perm _ sleeping

end

/-- `4` and `5` sleep, and only the time of `4` has come. -/
def twoSleepers : State :=
  { boot 1 2 [3] fun _ ↦ 0 with
    timerTicks := 7
    status := fun t ↦ if t = 4 ∨ t = 5 then .sleeping else (boot 1 2 [3] fun _ ↦ 0).status t
    wakeupTicks := fun t ↦ if t = 5 then 8 else 7
    lists := threadListAdd .sleepingThreads 4
      (threadListAdd .sleepingThreads 5 (boot 1 2 [3] fun _ ↦ 0).lists) }

theorem thread_timer_tick_splits_two : ∃ s', threadTimerTick twoSleepers = .ok s' ∧
    s'.lists.Spells .sleepingThreads [5] ∧ s'.lists.Spells .readyThreads [4, 3] := by
  have hs : twoSleepers.lists.Spells .sleepingThreads [4, 5] :=
    ⟨⟨rfl, rfl, rfl, rfl, trivial⟩, rfl, by decide⟩
  have hr : twoSleepers.lists.Spells .readyThreads [3] := ⟨⟨rfl, rfl, trivial⟩, rfl, by decide⟩
  obtain ⟨s', late, due, hrun, rfl, rfl, hs', hr', -⟩ :=
    thread_timer_tick_splits hs hr (by simp) (by simp [twoSleepers])
  exact ⟨s', hrun, hs', hr'⟩

end AlienOS.Kernel
