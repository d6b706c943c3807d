import AlienOS.Kernel.Making
import AlienOS.Kernel.Turn

/-!
# Reclaim — runs in which threads are made and end
-/

open AlienOS.Lib

namespace AlienOS.Kernel

section

variable {s s' : State} {op : Op} {ops rest : List Op} {x : Tid} {a : Action}

/-! ## One step of the machine -/

theorem State.Settled.closed (h : s.Settled)
    (hc : s.currentThread = s.idleThread ∨ s.currentThread ∈ threadsOf s.trace) : Closed s.stack := by
  have hs := h s.currentThread hc.symm
  unfold State.stackOf at hs
  rw [if_pos rfl] at hs
  exact .of_strip hs

theorem Orderly.advances_plain (h : Orderly s) (hst : s.stack = op :: rest)
    (hj : Job s.idleThread s.currentThread (op :: rest))
    (hrun : op ≠ .threadYield → s.status s.currentThread = .running) (hp : op.IsPlain)
    (hc : Closed rest) (hs : next s .exec = .ok s') : Advances s .exec s' := by
  have hcalm := plain_calm hp
  by_cases hskip : op.IsSkip = true
  · cases op with
    | interruptRestore b =>
      have hm : s.mark .exec s' = none := by
        unfold State.mark
        rw [hst]
      have hexec : { s with stack := rest, interrupts := b } = s' := by
        simp only [next, hst] at hs
        exact Except.ok.inj hs
      exact h.advances_flag hst rfl (hrun (by simp)) hj.tail hc hm b hexec.symm
    | threadYield =>
      have hm : ∀ s', s.mark .exec s' = none := by
        intro s'
        unfold State.mark
        rw [hst]
      have hexec : isrIRQ0 { s with stack := rest } = .ok s' := by
        simp only [next, hst] at hs
        exact hs
      have hclosed : Closed s.stack := hst ▸ .of_skip rfl
      refine h.advances_enter hclosed hc ?_ hj.tail ?_ hm hexec
      · rw [hst]
        rfl
      · rw [hst]
        exact hj.reapingOf
    | iret => cases hcalm
    | cleanZombies => cases hcalm
    | _ => cases hskip
  · have hskip : op.IsSkip = false := by simpa using hskip
    have hne : op ≠ .threadYield := by
      rintro rfl
      cases hskip
    exact h.advances_acts hst hj (hrun hne) hcalm hskip (plain_not_uses hp) (plain_closed hp)
      (hj.leaves hp hc s) (leaves_closed s hp hc) hs

theorem Orderly.advances_make (h : Orderly s) (hst : s.stack = op :: rest)
    (hj : Job s.idleThread s.currentThread (op :: rest))
    (hrun : s.status s.currentThread = .running) (hat : InsertAt x op rest)
    (hs : next s .exec = .ok s') : Advances s .exec s' := by
  have hat' := hat
  cases hat with
  | init => exact h.advances_init hst hj hrun hat' hs
  | head list =>
    cases list with
    | allThreads => exact h.advances_headAll hst hj hrun hs
    | readyThreads => exact h.advances_headReady hst hj hrun hs
  | _ => exact h.advances_insert hst hj hrun hat' (by simp) (by simp) hs

/-- The next operation of a thread. -/
theorem Orderly.advances_thread (h : Orderly s) (hst : s.stack = op :: rest)
    (hj : Job s.idleThread s.currentThread (op :: rest))
    (hrun : op ≠ .threadYield → s.status s.currentThread = .running) (hn : op ≠ .threadAlloc)
    (hs : next s .exec = .ok s') : Advances s .exec s' := by
  have hfits := hj.head
  cases hfits with
  | plain hp hc => exact h.advances_plain hst hj hrun hp hc hs
  | sleep rest =>
    exact h.advances_acts hst hj (hrun (by simp)) rfl rfl rfl (.cons rfl rfl) hj.tail (.of_skip rfl) hs
  | heap hf hfree =>
    have hne : op ≠ .threadYield := by
      rintro rfl
      cases hf
    exact h.advances_heap hst hj (hrun hne) hf hs
  | exit => exact h.advances_exit hst (hrun (by simp)) hs
  | alloc => exact absurd rfl hn
  | make hx hsuf =>
    have hne : op ≠ .threadYield := by
      rintro rfl
      cases hx
    exact h.advances_make hst hj (hrun hne) (insertAt_of_suffix hsuf hx) hs

theorem Orderly.advances (h : Orderly s) (hok : Undisturbed s a) (he : Enabled s a)
    (hs : next s a = .ok s') : Advances s a s' := by
  obtain ⟨ops, hj, hplace⟩ := h.current
  cases a with
  | interrupt =>
    have hclosed := (hok (.inl rfl)).closed h.placed.standing.cur_mem
    cases hplace with
    | thread hst =>
      subst hst
      exact h.advances_enter hclosed hclosed rfl hj hj.reapingOf (fun _ ↦ rfl) hs
    | resumed b hst hi =>
      rw [he] at hi
      cases hi
    | handler b e reap hst hesp hi =>
      rw [he] at hi
      cases hi
  | call c =>
    obtain ⟨hnil, hi⟩ := he
    cases hs
    cases hplace with
    | thread hst hr =>
      subst hst
      exact h.advances_call hnil hi (hr.resolve_right (by rw [hnil]; simp))
    | resumed b hst =>
      rw [hnil] at hst
      cases hst
    | handler b e reap hst =>
      rw [hnil] at hst
      simp at hst
  | exec =>
    obtain ⟨hne, hna⟩ := he
    cases hplace with
    | thread hst hr =>
      obtain ⟨op, rest, hops⟩ := List.exists_cons_of_ne_nil hne
      rw [← hst, hops] at hj
      refine h.advances_thread hops hj (fun hy ↦ hr.resolve_right ?_) ?_ hs
      · rw [← hst, hops]
        simpa using hy
      · rw [hops] at hna
        simpa using hna
    | resumed b hst hi hrun hc =>
      have hm : s.mark .exec s' = none := by
        unfold State.mark
        rw [hst]
      have hexec : { s with stack := ops, interrupts := b } = s' := by
        simp only [next, hst] at hs
        exact Except.ok.inj hs
      exact h.advances_flag hst rfl hrun hj hc hm b hexec.symm
    | handler b e reap hst hesp hi hen hc hr =>
      rcases hr with rfl | ⟨x, hr, hx⟩
      · cases hz : (listsOf s.trace .zombieThreads).head? with
        | none =>
          rw [hz] at hst
          exact h.advances_dispatch hst hesp hi hc hj hs
        | some x =>
          rw [hz] at hst
          exact h.advances_reap hst hz hesp hi hen hc hj hs
      · exact h.advances_kfree hst hr hx hesp hi hen hc hj hs
  | alloc t =>
    obtain ⟨hhead, hfree, hti⟩ := he
    cases hplace with
    | thread hst hr =>
      subst hst
      obtain ⟨rest, hops⟩ : ∃ rest, s.stack = .threadAlloc :: rest := by
        cases hst : s.stack with
        | nil => rw [hst] at hhead; cases hhead
        | cons o rest =>
          rw [hst] at hhead
          cases hhead
          exact ⟨rest, rfl⟩
      have hrun := hr.resolve_right (by rw [hops]; simp)
      rw [hops] at hj
      have hi : s.currentThread ≠ s.idleThread := by
        intro hc
        have := hj.idles hc _ List.mem_cons_self
        cases this
      have hnil : rest = [] := by
        cases hj.head with
        | plain hp => cases hp
        | heap hf => cases hf
        | alloc => rfl
        | make hx => cases hx
      subst hnil
      exact h.advances_alloc hops hi hrun hfree hti hs
    | resumed b hst =>
      rw [hst] at hhead
      cases hhead
    | handler b e reap hst hesp hi hen hc hr =>
      rcases hr with rfl | ⟨x, hr, -⟩
      · rw [hst] at hhead
        cases hhead
      · obtain ⟨op, rest, hn⟩ := hr.next [] .nil
        rw [hst, hn.eq] at hhead
        cases hhead
        have hf := hn.fits
        cases hf

end

/-! ## The start -/

section

variable {idle main : Tid} {threads : List Tid} {s s' : State} {t x : Tid}

theorem rep_allThreads_add {l : Links Unit Tid} {all : List Tid}
    (h : l.Rep (fun _ ↦ False) (fun _ ↦ none) fun _ ↦ all) (hx : x ∉ all) :
    (threadListAdd () x l).Rep (fun _ ↦ False) (fun _ ↦ none) fun _ ↦ x :: all := by
  have hrep := rep_threadListAdd (i := ()) h (fun _ ↦ hx) id
  rw [Function.update_eq_const_of_subsingleton, Function.update_eq_const_of_subsingleton] at hrep
  exact hrep

/-- Before anything has run. -/
structure AtRest (s : State) : Prop where
  orderly : Orderly s
  stack : s.stack = []
  making : ∀ t, s.making t = []

theorem atRest_mainInit (count : Nat → Nat) (hm : main ≠ idle) : AtRest (mainInit idle main count) := by
  have hp := (calm_mainInit count hm).placed
  have hmaking : ∀ t, (mainInit idle main count).making t = [] := by
    intro t
    unfold State.making State.stackOf
    split
    · rfl
    · by_cases ht : t = idle
      · subst ht
        simp [mainInit, Op.node]
      · simp [mainInit, ht]
  have hmakes : ∀ {t x}, ¬ Makes (mainInit idle main count).making t x := by
    rintro t x ⟨o, ho, -⟩
    rw [hmaking] at ho
    cases ho
  refine ⟨⟨hp, trivial, ⟨[idle, main], ?_, fun t ↦ ?_⟩, trivial, ?_,
    ⟨rfl, rfl, rfl, fun hh ↦ by cases hh⟩, ⟨[], .nil, .thread rfl (.inl ?_)⟩, fun t ht hc ↦ ?_⟩, rfl,
    hmaking⟩
  · have hnil : (⟨fun _ ↦ none, fun _ ↦ none, fun _ ↦ none, fun _ ↦ none⟩ : Links Unit Tid).Rep
        (fun _ ↦ False) (fun _ ↦ none) fun _ ↦ [] :=
      ⟨fun _ ↦ trivial, fun _ ↦ rfl, fun _ _ ↦ rfl, fun _ ↦ List.nodup_nil, by simp⟩
    exact rep_allThreads_add (rep_allThreads_add hnil (by simp)) (by simpa using hm.symm)
  · have hhalf : ¬ Halfway (mainInit idle main count).making t := by
      rintro ⟨u, hu, -⟩
      exact hmakes ⟨_, hu, rfl⟩
    simp [mainInit, threadsOf, Event.onThreads] at hhalf ⊢
    tauto
  · refine ⟨fun {t} ht ↦ absurd (hmaking t) ht, fun hx ↦ absurd hx hmakes, fun hx ↦ absurd hx hmakes,
      fun hx ↦ absurd hx hmakes, fun {t} ht ↦ ?_⟩
    have ht : t = main := by simpa [mainInit, threadsOf, Event.onThreads] using ht
    simp [mainInit, ht]
  · simp [mainInit]
  · have ht : t = main ∨ t = idle := by simpa [mainInit, threadsOf, Event.onThreads] using ht
    have ht := ht.resolve_left hc
    subst ht
    exact ⟨true, [.cpuIdleLoop], by simp [mainInit],
      Job.nil.plain .nil .cpuIdleLoop rfl (.inr rfl), .cons rfl rfl⟩

theorem AtRest.booted (h : AtRest s) (hn : t ∉ threadsOf s.trace) (hi : t ≠ s.idleThread)
    (hr : s.status t = .ready) : AtRest (s.booted t) := by
  have ho := h.orderly
  have ha : Apart s.stack := by
    rw [h.stack]
    exact Closed.nil.apart
  have hp := ho.placed_none ha
  have hp' := hp.booted hn hi hr
  have htc := (hp.standing.outside hn hi).1
  have hl := ho.lock
  rw [h.stack] at hl
  have hstack : (s.booted t).stack = [] := h.stack
  have hmakes : ∀ {u x}, ¬ Makes s.making u x := by
    rintro u x ⟨o, hmem, -⟩
    rw [h.making] at hmem
    cases hmem
  have hmaking : ∀ u, (s.booted t).making u = [] := by
    intro u
    by_cases hu : u = s.currentThread
    · unfold State.making State.stackOf
      rw [if_pos (show u = (s.booted t).currentThread from hu), hstack]
      rfl
    · by_cases hut : u = t
      · subst hut
        unfold State.making State.stackOf
        rw [if_neg (show ¬ u = (s.booted u).currentThread from hu)]
        simp [State.booted, Op.node]
      · have hsame : (s.booted t).making u = s.making u :=
          making_other rfl hu (Function.update_of_ne hut _ _)
        rw [hsame, h.making]
  have hmakes' : ∀ {u x}, ¬ Makes (s.booted t).making u x := by
    rintro u x ⟨o, hmem, -⟩
    rw [hmaking] at hmem
    cases hmem
  have hthreads : ∀ u, u ∈ threadsOf (s.booted t).trace ↔ u = t ∨ u ∈ threadsOf s.trace :=
    fun u ↦ List.mem_cons
  refine ⟨⟨?_, ?_, ?_, ?_, ?_, ?_, ?_, fun u hu hc ↦ ?_⟩, hstack, hmaking⟩
  · rw [hstack]
    exact hp'
  · rw [hstack]
    trivial
  · obtain ⟨all, hrep, hall⟩ := ho.registered
    rw [ha.inserting] at hrep
    have hta : t ∉ all := by
      intro hm
      rcases (hall t).mp hm with he | hm | ⟨u, hu, -⟩
      · exact hi he
      · exact hn hm
      · exact hmakes ⟨_, hu, rfl⟩
    refine ⟨t :: all, ?_, fun u ↦ ?_⟩
    · rw [hstack]
      exact rep_allThreads_add hrep hta
    · have hhalf : ∀ {m : Tid → List Op}, (∀ {u x}, ¬ Makes m u x) → ¬ Halfway m u := by
        rintro m hm ⟨v, hv, -⟩
        exact hm ⟨_, hv, rfl⟩
      have hu := hall u
      have h₁ := hhalf hmakes
      have h₂ := hhalf hmakes'
      rw [List.mem_cons, hthreads]
      show _ ↔ u = s.idleThread ∨ _
      tauto
  · rw [hstack]
    trivial
  · refine ⟨fun {u} hu ↦ absurd (hmaking u) hu, fun hx ↦ absurd hx hmakes', fun hx ↦ absurd hx hmakes',
      fun hx ↦ absurd hx hmakes', fun {u} hu ↦ ?_⟩
    by_cases hut : u = t
    · subst hut
      exact Function.update_self _ _ _
    · exact (Function.update_of_ne hut _ _).trans
        (ho.births.allocated (((hthreads u).mp hu).resolve_left hut))
  · rw [hstack]
    refine ⟨?_, hl.count, hl.holder, fun hh ↦ by cases hh⟩
    have hq := hl.queue
    rw [hp.rep.head] at hq
    rw [hp'.rep.head]
    exact hq
  · obtain ⟨ops, hj, hplace⟩ := ho.current
    cases hplace with
    | thread hst hs =>
      rw [h.stack] at hst
      subst hst
      exact ⟨[], .nil, .thread hstack hs⟩
    | resumed b hst =>
      rw [h.stack] at hst
      cases hst
    | handler b e reap hst =>
      rw [h.stack] at hst
      simp at hst
  · by_cases hut : u = t
    · subst hut
      exact ⟨true, [], Function.update_self _ _ _, .nil, .nil⟩
    · have hu' : u ∈ threadsOf s.trace ∨ u = s.idleThread :=
        hu.imp_left fun hm ↦ ((hthreads u).mp hm).resolve_left hut
      obtain ⟨b, ops, he, hj, hcl⟩ := ho.parked u hu' hc
      exact ⟨b, ops, (Function.update_of_ne hut _ _).trans he, hj, hcl⟩

theorem atRest_bootThreads {ts : List Tid} : ∀ {s : State}, AtRest s → Unborn s ts →
    AtRest (bootThreads ts s) := by
  induction ts with
  | nil => exact fun h _ ↦ h
  | cons t ts ih =>
    intro s h hts
    obtain ⟨hn, hi, hr⟩ := hts.2 t List.mem_cons_self
    exact ih (s := s.booted t) (h.booted hn hi hr) hts.tail

end

/-! ## Calls of `clean_zombies` -/

/-- A call starts here, and the machine does what the checked loop does. -/
def State.Cleans (s : State) : Prop :=
  ∃ entered ops zs all r k s', s.stack = .cleanZombies zs.head? entered :: ops ∧
    Reapable (s.reaper []) zs all ∧ (s.reaper []).cleanZombies = .ok r ∧
    Reaped (s.reaper []) [] zs all r ∧ execs k s = .ok s' ∧ s'.reaper r.freed = r ∧
    Cleaned s entered ops r.freed s'

/-- The list of all threads holds the threads and whoever is halfway to being one. -/
def State.AllListed (s : State) : Prop :=
  ∃ all, s.allThreads.Rep (fun _ ↦ False) (fun _ ↦ inserting .allThreads s.stack) (fun _ ↦ all) ∧
    ∀ t, t ∈ all ↔ t = s.idleThread ∨ t ∈ threadsOf s.trace ∨ Halfway s.making t

section

variable {s s' : State} {ops : List Op} {entered : ThreadStatus} {a : Action}

theorem Orderly.reapable (h : Orderly s) (ha : Apart s.stack) :
    ∃ all, Reapable (s.reaper []) (listsOf s.trace .zombieThreads) all := by
  have hp := h.placed_none ha
  obtain ⟨all, hrep, hall⟩ := h.registered
  rw [ha.inserting] at hrep
  have hz : s.lists.Spells .zombieThreads (listsOf s.trace .zombieThreads) := by
    have hrep := hp.rep
    rw [pending_none] at hrep
    exact hrep.spells _
  refine ⟨all, hz, hrep.spells (), fun t ht ↦ ?_, fun t ht ↦ ⟨?_, ?_⟩, fun t _ ↦ ⟨by simp [State.reaper],
    by simp [State.reaper]⟩⟩
  · exact (hall t).mpr (.inr (.inl (hp.standing.mem (hp.home_of_mem ht))))
  · exact hp.standing.status_eq (hp.home_of_mem ht)
  · rintro rfl
    exact hp.standing.idle_not_mem (hp.standing.mem (hp.home_of_mem ht))

theorem Orderly.cleans (h : Orderly s)
    (hst : s.stack = .cleanZombies (listsOf s.trace .zombieThreads).head? entered :: ops)
    (hi : s.interrupts = false) : s.Cleans := by
  have hclosed : Closed s.stack := hst ▸ .of_skip rfl
  have hl := h.lock
  rw [hclosed.heapPhase] at hl
  obtain ⟨all, hr⟩ := h.reapable hclosed.apart
  obtain ⟨r, hrun, hreaped⟩ := Reaper.cleanZombies_spec hr
  have hloop : (s.reaper []).cleanZombiesLoop walkLimit (listsOf s.trace .zombieThreads).head? =
      .ok r := by
    rw [← hr.zombies.head]
    exact hrun
  obtain ⟨k, s', new, hex, hr', hnew, hcl⟩ := execs_cleanZombies [] hst hl hi hloop
  rw [List.append_nil] at hnew
  subst hnew
  exact ⟨entered, ops, _, all, r, k, s', hst, hr, hrun, hreaped, hex, hr', hcl⟩

theorem isrIRQ0_cleanZombies (hp : Placed s none) (hs : isrIRQ0 s = .ok s') :
    ∃ entered ops, s'.stack = .cleanZombies (listsOf s'.trace .zombieThreads).head? entered :: ops ∧
      s'.interrupts = false := by
  obtain ⟨lists, hrun, -⟩ := isrIRQ0_interrupted hp
  rw [hs] at hrun
  cases hrun
  have hz : listsOf (s.interrupted lists).trace .zombieThreads = listsOf s.trace .zombieThreads :=
    listsOf_wakeEvents (by simp) (by simp) _ _
  rw [hz]
  exact ⟨_, _, rfl, rfl⟩

/-- Every entry of the handler leads to a call. -/
theorem Orderly.cleans_of_enters (h : Orderly s) (hok : Undisturbed s a) (he : Enabled s a)
    (hen : Enters s a) (hs : next s a = .ok s') : s'.Cleans := by
  have ho := (h.advances hok he hs).orderly
  have hp := h.placed_none ((hok hen).closed h.placed.standing.cur_mem).apart
  obtain ⟨entered, ops, hst, hi⟩ : ∃ entered ops, s'.stack = .cleanZombies
      (listsOf s'.trace .zombieThreads).head? entered :: ops ∧ s'.interrupts = false := by
    rcases hen with rfl | ⟨rfl, hy⟩
    · exact isrIRQ0_cleanZombies hp hs
    · obtain ⟨rest, hrest⟩ := List.head?_eq_some_iff.mp hy
      simp only [next, hrest] at hs
      exact isrIRQ0_cleanZombies (hp.restack rest) hs
  exact ho.cleans hst hi

theorem Orderly.allListed (h : Orderly s) : s.AllListed := h.registered

end

/-! ## Runs -/

section

variable {idle main : Tid} {threads : List Tid}

theorem lifeOf_boot (count : Nat → Nat) (hd : Distinct idle main threads) (x : Tid) :
    (boot idle main threads count).lifeOf x =
      if x ∈ main :: threads then .alive else .absent := by
  have hc := calm_boot count hd
  have hr := (atRest_bootThreads (atRest_mainInit count hd.ne) (unborn_boot count hd)).stack
  rw [lifeOf_of_none (by
    rw [boot, hr]
    rfl), hc.threads_eq, if_neg (hc.alive x)]
  simp [or_comm]

/-- Exited threads are reclaimed exactly once. -/
theorem threads_reclaimed_once (count : Nat → Nat) (hd : Distinct idle main threads) :
    (∀ r zs all, Reapable r zs all → ∃ r', r.cleanZombies = .ok r' ∧ Reaped r [] zs all r') ∧
      ∀ marks s, Lived Undisturbed (boot idle main threads count) marks s →
        (∀ a s', Undisturbed s a → Enabled s a → Enters s a → next s a = .ok s' → s'.Cleans) ∧
        (∀ x, Life.run (if x ∈ main :: threads then .alive else .absent) (marksOf x marks) =
          some (s.lifeOf x)) ∧
        s.AllListed := by
  refine ⟨fun r zs all hr ↦ Reaper.cleanZombies_spec hr, fun marks s hl ↦ ?_⟩
  have h₀ := (atRest_bootThreads (atRest_mainInit count hd.ne) (unborn_boot count hd)).orderly
  have hages := hl.ages (I := Orderly) h₀ fun s a s' h hok he hs ↦
    ⟨(h.advances hok he hs).orderly, (h.advances hok he hs).ages⟩
  have ho : Orderly s := (hages idle).1
  refine ⟨fun a s' hok he hen hs ↦ ho.cleans_of_enters hok he hen hs, fun x ↦ ?_, ho.allListed⟩
  rw [← lifeOf_boot count hd]
  exact (hages x).2

end

/-! ## A run -/

instance (s : State) : Decidable s.Settled :=
  decidable_of_iff ((s.idleThread :: threadsOf s.trace).all fun t ↦
    (strip (s.stackOf t)).head?.all fun op ↦ !op.InHeap && !op.InInsert) (by
      simp [State.Settled, List.all_eq_true, Option.all_eq_true, or_comm])

instance (s : State) (a : Action) : Decidable (Undisturbed s a) := by
  unfold Undisturbed Enters
  infer_instance

/-- Take the actions one after the other, as long as nothing is disturbed. -/
def relive : List Action → State → List (Tid × Mark) → Option (List (Tid × Mark) × State)
  | [], s, marks => some (marks, s)
  | a :: as, s, marks =>
    if Undisturbed s a ∧ Enabled s a then
      match next s a with
      | .ok s' => relive as s' (marks ++ (s.mark a s').toList)
      | .error _ => none
    else none

theorem Lived.relive {as : List Action} : ∀ {s₀ s : State} {marks : List (Tid × Mark)}
    {r : List (Tid × Mark) × State}, Lived Undisturbed s₀ marks s →
    Kernel.relive as s marks = some r → Lived Undisturbed s₀ r.1 r.2 := by
  induction as with
  | nil =>
    intro s₀ s marks r h hr
    cases hr
    exact h
  | cons a as ih =>
    intro s₀ s marks r h hr
    unfold Kernel.relive at hr
    split at hr
    · rename_i hadm
      split at hr
      · rename_i s' hs
        exact ih (.step h hadm.1 hadm.2 hs) hr
      · cases hr
    · cases hr

/-- `main` exits, the other thread yields, and in the call of `clean_zombies` that follows `main` is
reclaimed. -/
theorem threads_reclaimed_once_main :
    (∃ r zs all r', Reapable r zs all ∧ zs ≠ [] ∧ r.cleanZombies = .ok r' ∧ Reaped r [] zs all r') ∧
      (∃ marks s s', Lived Undisturbed (boot 1 2 [3] fun _ ↦ 0) marks s ∧ next s .exec = .ok s' ∧
        s'.Cleans) ∧
      ∃ marks s, Lived Undisturbed (boot 1 2 [3] fun _ ↦ 0) marks s ∧
        marksOf 2 marks = [.exited, .left, .stackFreed, .threadFreed] ∧
        Life.run .alive (marksOf 2 marks) = some (s.lifeOf 2) ∧ s.AllListed := by
  have hd : Distinct 1 2 [3] := by decide
  have hcall : ∃ r s', relive [.call .threadExit, .exec, .exec, .exec, .exec, .call .threadYield]
      (boot 1 2 [3] fun _ ↦ 0) [] = some r ∧ next r.2 .exec = .ok s' ∧ Undisturbed r.2 .exec ∧
      Enabled r.2 .exec ∧ r.2.stack.head? = some .threadYield ∧
      s'.stack.head? = some (.cleanZombies (some 2) .running) := by
    refine ⟨_, _, rfl, rfl, ?_⟩
    decide
  have hrun : ∃ r, relive [.call .threadExit, .exec, .exec, .exec, .exec, .call .threadYield, .exec,
      .exec, .exec, .exec, .exec, .exec, .exec, .exec, .exec, .exec, .exec, .exec]
      (boot 1 2 [3] fun _ ↦ 0) [] = some r ∧
      marksOf 2 r.1 = [.exited, .left, .stackFreed, .threadFreed] := by
    refine ⟨_, rfl, ?_⟩
    decide
  obtain ⟨r₁, s', hr₁, hs', hok, he, hy, hhead⟩ := hcall
  obtain ⟨r₂, hr₂, hmarks⟩ := hrun
  have hl₁ := Lived.start.relive hr₁
  have hl₂ := Lived.start.relive hr₂
  have hclean := ((threads_reclaimed_once (fun _ ↦ 0) hd).2 _ _ hl₁).1 .exec s' hok he
    (.inr ⟨rfl, hy⟩) hs'
  have hends := ((threads_reclaimed_once (fun _ ↦ 0) hd).2 _ _ hl₂).2
  refine ⟨?_, ⟨_, _, s', hl₁, hs', hclean⟩, _, _, hl₂, hmarks, hends.1 2, hends.2⟩
  obtain ⟨e, ops, zs, all, r, k, s'', hst, hreap, -⟩ := hclean
  obtain ⟨r', hrun, hreaped⟩ := (threads_reclaimed_once (fun _ ↦ 0) hd).1 _ _ _ hreap
  refine ⟨_, zs, all, r', hreap, ?_, hrun, hreaped⟩
  rintro rfl
  rw [hst] at hhead
  cases hhead

end AlienOS.Kernel
