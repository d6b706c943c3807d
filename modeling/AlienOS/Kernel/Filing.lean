import AlienOS.Kernel.Passage

/-!
# Filing — what the timer handler does with the thread that it interrupts

Whatever happens to the zombies on the way, `schedule` finds the status that the thread came with.
-/

open AlienOS.Lib

namespace AlienOS.Kernel

/-- The handler was entered by the current thread with the status `entered`, and nothing on the
stack above it gives the processor away. -/
structure State.Handling (s : State) (entered : ThreadStatus) (above : List Op) : Prop where
  status : s.status s.currentThread = entered
  interrupts : s.interrupts = false
  above : ∀ op ∈ above, op ≠ .threadYield ∧ ∀ zombie e, op ≠ .cleanZombies zombie e

/-- The current thread of `s` is on the list `i`, and on no other. -/
def State.OnlyOn (s : State) (t : Tid) (i : ListId) : Prop := ∀ j, t ∈ listsOf s.trace j ↔ j = i

/-- Where `schedule` leaves the thread that came with the status `entered`. -/
structure State.Files (s : State) (entered : ThreadStatus) (s' : State) : Prop where
  leaves : entered ≠ .running → s'.currentThread ≠ s.currentThread
  status : s'.currentThread ≠ s.currentThread → s'.status s.currentThread = entered.filed
  list : s'.currentThread ≠ s.currentThread → s.currentThread ≠ s.idleThread →
    ∃ i, i.status = entered.filed ∧ (entered = .blocked → homeOf s.trace s.currentThread = some i) ∧
      s'.OnlyOn s.currentThread i
  idle : s.currentThread = s.idleThread → ∀ i, s.currentThread ∉ listsOf s'.trace i
  lists : s'.currentThread ≠ s.currentThread →
    s'.lists.Rep ListId.Tailed (fun _ ↦ none) (listsOf s'.trace)

section

variable {creates : Prop} {idle t : Tid} {s s' : State} {op : Op} {ops rest : List Op} {x : Tid}
  {entered : ThreadStatus}

theorem Op.Suits.not_handler (h : op.Suits creates rest) (zombie : Option Tid) (e : ThreadStatus) :
    op ≠ .cleanZombies zombie e := by
  rintro rfl
  cases h with
  | fits hf =>
    cases hf with
    | plain hp => cases hp
    | heap hf => cases hf
    | make hx => cases hx

/-- The stack of a thread below the handler has no other entry of it. -/
theorem Errand.not_handler (h : Errand creates idle t ops) (zombie : Option Tid) (e : ThreadStatus) :
    .cleanZombies zombie e ∉ ops := by
  intro hm
  obtain ⟨above, below, rfl⟩ := List.append_of_mem hm
  exact (h.suits (List.suffix_append _ _)).not_handler zombie e rfl

theorem Reaps.not_handler {reap : List Op} (h : Reaps x reap) :
    ∀ op ∈ reap, op ≠ .threadYield ∧ ∀ zombie e, op ≠ .cleanZombies zombie e := by
  have hfrees : ∀ {freed : Option Tid} {ops : List Op}, Frees freed ops →
      ∀ op ∈ ops, op ≠ .threadYield ∧ ∀ zombie e, op ≠ .cleanZombies zombie e := by
    intro freed ops hf
    cases hf <;> simp [kfreeOps]
  cases h with
  | thread hf => exact hfrees hf
  | stack hf =>
    intro op hop
    rcases List.mem_append.mp hop with hop | hop
    · exact hfrees hf op hop
    · exact hfrees .acquire op hop

/-- Only one handler is ever on the stack. -/
theorem Pursues.handling {above below : List Op} {zombie : Option Tid} (h : Pursues creates s ops)
    (hst : s.stack = above ++ .cleanZombies zombie entered :: below) : s.Handling entered above := by
  have hno := h.errand.not_handler zombie entered
  have hmem : .cleanZombies zombie entered ∈ s.stack := by
    rw [hst]
    simp
  cases h.spot with
  | thread hops =>
    rw [hops] at hmem
    exact absurd hmem hno
  | resumed b hops =>
    rw [hops] at hmem
    exact absurd ((List.mem_cons.mp hmem).resolve_left (by simp)) hno
  | handler b e reap hops he hi hs hn hr =>
    have hreap : ∀ op ∈ reap, op ≠ .threadYield ∧ ∀ zombie e, op ≠ .cleanZombies zombie e := by
      rcases hr with rfl | ⟨y, hr, -⟩
      · simp
      · exact hr.not_handler
    have hboth := hst.symm.trans hops
    rcases List.append_eq_append_iff.mp hboth with ⟨as, hreap', hrest⟩ | ⟨cs, habove, hrest⟩
    · cases as with
      | nil =>
        cases hrest
        rw [List.append_nil] at hreap'
        rw [hreap'] at hreap
        exact ⟨hs, hi, hreap⟩
      | cons a as =>
        cases hrest
        exact absurd rfl ((hreap (.cleanZombies zombie entered) (by rw [hreap']; simp)).2 _ _)
    · cases cs with
      | nil =>
        cases hrest
        rw [List.append_nil] at habove
        rw [habove]
        exact ⟨hs, hi, hreap⟩
      | cons c cs =>
        have hbelow : .cleanZombies zombie entered ∈ Op.iret b :: ops := by
          have htail := (List.cons.inj hrest).2
          rw [htail]
          simp
        exact absurd ((List.mem_cons.mp hbelow).resolve_left (by simp)) hno

theorem homeOf_switchEvents {next : Tid} (hn : s.status s.currentThread = .blocked)
    (hne : next ≠ s.currentThread) :
    homeOf (s.switchEvents next ++ s.trace) s.currentThread = homeOf s.trace s.currentThread := by
  have hfiled : s.filedOn = none := by
    unfold State.filedOn
    rw [hn]
    split <;> rfl
  unfold State.switchEvents
  rw [hfiled]
  split
  · rfl
  · exact Function.update_of_ne hne.symm _ _

/-- The last step of the handler. -/
theorem Leaves.files (hl : Leaves s entered ops s') (h : Pursues creates s ops)
    (hen : s.status s.currentThread = entered) : s.Files entered s' := by
  have hstanding := h.placed.standing
  cases hl with
  | stays hr hrunning =>
    refine ⟨fun hn ↦ absurd hrunning hn, fun hc ↦ absurd rfl hc, fun hc ↦ absurd rfl hc,
      fun hi i hm ↦ ?_, fun hc ↦ absurd rfl hc⟩
    have hmem := hstanding.mem (h.placed.home_of_mem hm)
    rw [hi] at hmem
    exact hstanding.idle_not_mem hmem
  | @switches nxt lists hins hp' hne hmem hready =>
    have hstatus : (s.switched nxt lists).status s.currentThread = entered.filed := by
      rw [← hen]
      exact (Function.update_of_ne hne.symm _ _).trans (Function.update_self _ _ _)
    refine ⟨fun _ ↦ hne, fun _ ↦ hstatus, fun _ hi ↦ ?_, fun hi i hm ↦ ?_, fun _ ↦ ?_⟩
    · have hmem : s.currentThread ∈ threadsOf (s.switched nxt lists).trace := by
        show _ ∈ threadsOf (s.switchEvents nxt ++ s.trace)
        rw [threadsOf_switchEvents]
        exact hstanding.cur_mem.resolve_left hi
      obtain ⟨i, hi⟩ := Option.ne_none_iff_exists'.mp (hp'.standing.listed hmem hne.symm)
      refine ⟨i, (hp'.standing.status_eq hi).symm.trans hstatus, fun hb ↦ ?_, fun j ↦ ?_⟩
      · rw [← hi]
        exact (homeOf_switchEvents (hen.trans hb) hne).symm
      · rw [hp'.agrees, hi, Option.some.injEq]
        exact eq_comm
    · have hmem : s.currentThread ∈ threadsOf (s.switchEvents nxt ++ s.trace) :=
        hp'.standing.mem (hp'.home_of_mem hm)
      rw [threadsOf_switchEvents, hi] at hmem
      exact hstanding.idle_not_mem hmem
    · have hrep := hp'.rep
      rwa [pending_none] at hrep

theorem Sound.files (h : Sound creates s) {below : List Op}
    (hst : s.stack = .cleanZombies none entered :: below) :
    ∃ s', next s .exec = .ok s' ∧ s.Files entered s' := by
  obtain ⟨ops, hw⟩ := h.current
  cases hw.spot with
  | thread hops =>
    rw [hst] at hops
    exact absurd (by rw [← hops]; simp) (hw.errand.not_handler none entered)
  | resumed b hops =>
    rw [hst] at hops
    cases hops
  | handler b e reap hops he hi hs hn hr =>
    rcases hr with rfl | ⟨y, hr, -⟩
    · rw [hst] at hops
      obtain ⟨hop, hbelow⟩ := List.cons.inj hops
      injection hop with _ hentered
      subst hentered hbelow
      obtain ⟨s', hs', hl⟩ := hw.leaves hst hs hn
      exact ⟨s', hs', hl.files hw hs⟩
    · obtain ⟨op, rest, hnext⟩ := hr.next [] .nil
      rw [hst, hnext.eq] at hops
      cases hops
      have hfits := hnext.fits
      cases hfits

theorem Placed.queues {node : Option Tid} (h : Placed s node) (q : WaitQueue) :
    s.lists.Queues (.waitQueue q) (listsOf s.trace (.waitQueue q)) ∧
      ∀ t ∈ listsOf s.trace (.waitQueue q), s.status t = .blocked := by
  have hrep := h.rep
  refine ⟨⟨⟨?_, hrep.head _, hrep.nodup _⟩, hrep.tail _ trivial⟩, fun t ht ↦ ?_⟩
  · simpa [pending] using hrep.seg (.waitQueue q)
  · exact h.standing.status_eq (h.home_of_mem ht)

end

end AlienOS.Kernel
