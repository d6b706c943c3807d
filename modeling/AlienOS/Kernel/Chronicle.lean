import AlienOS.Kernel.Passage

/-!
# Chronicle — sleepers and the dead, as the history has them

A thread that has gone to sleep gives the processor away before it does anything else, and a thread
that has exited stays a zombie until it is reclaimed.
-/

open AlienOS.Lib

namespace AlienOS.Kernel

/-- `t` has called `thread_sleep` and has not been on `sleeping_threads` since. -/
def Unrested (t : Tid) : List Event → Prop
  | [] => False
  | .slept u :: tr => u = t ∨ Unrested t tr
  | .added .sleepingThreads u :: tr => u ≠ t ∧ Unrested t tr
  | _ :: tr => Unrested t tr

/-- `t` has exited, and the address has not been used again. -/
def Ended (t : Tid) : List Event → Prop
  | [] => False
  | .exited u :: tr => u = t ∨ Ended t tr
  | .created u :: tr => u ≠ t ∧ Ended t tr
  | _ :: tr => Ended t tr

structure Chronicled (s : State) : Prop where
  rested : ∀ t, Unrested t s.trace → t = s.currentThread ∧ s.status t = .sleeping
  ended : ∀ t ∈ threadsOf s.trace, Ended t s.trace → s.status t = .zombie

section

variable {creates : Prop} {s s' : State} {a : Action} {op : Op} {ops rest : List Op} {t x : Tid}
  {enabled : Bool} {entered : ThreadStatus} {tr tr' : List Event}

theorem unrested_filter (t : Tid) (tr : List Event) :
    Unrested t (tr.filter Event.IsLife) ↔ Unrested t tr := by
  induction tr with
  | nil => exact Iff.rfl
  | cons e tr ih =>
    cases e with
    | added i u => cases i <;> simp [List.filter_cons, Event.IsLife, Unrested, ih]
    | _ => simp [List.filter_cons, Event.IsLife, Unrested, ih]

theorem ended_filter (t : Tid) (tr : List Event) : Ended t (tr.filter Event.IsLife) ↔ Ended t tr := by
  induction tr with
  | nil => exact Iff.rfl
  | cons e tr ih =>
    cases e with
    | added i u => cases i <;> simp [List.filter_cons, Event.IsLife, Ended, ih]
    | _ => simp [List.filter_cons, Event.IsLife, Ended, ih]

theorem unrested_congr (h : tr'.filter Event.IsLife = tr.filter Event.IsLife) :
    Unrested t tr' ↔ Unrested t tr := by
  rw [← unrested_filter, h, unrested_filter]

theorem ended_congr (h : tr'.filter Event.IsLife = tr.filter Event.IsLife) :
    Ended t tr' ↔ Ended t tr := by
  rw [← ended_filter, h, ended_filter]

/-! ## What a step logs -/

theorem wakeFirst_life {q : WaitQueue} (h : wakeFirst q s = .ok s') :
    s'.trace.filter Event.IsLife = s.trace.filter Event.IsLife := by
  obtain ⟨⟨u, l⟩, -, h⟩ := bind_eq_ok.mp h
  obtain ⟨-, -, h⟩ := bind_eq_ok.mp h
  cases h
  rfl

/-- Whether the lock is free or not. -/
theorem heap_life (hf : op.HeapFits rest) (hs : exec op s = .ok s') :
    s'.trace.filter Event.IsLife = op.life s.currentThread ++ s.trace.filter Event.IsLife := by
  cases hf with
  | acquire rest =>
    cases hs
    unfold mutexAcquire
    split
    · rfl
    · unfold semaphoreDown
      dsimp only
      split
      · split <;> rfl
      · rfl
  | release hc =>
    obtain ⟨-, -, hs⟩ := bind_eq_ok.mp hs
    obtain ⟨-, -, hs⟩ := bind_eq_ok.mp hs
    dsimp only at hs
    split at hs
    · unfold semaphoreUp at hs
      dsimp only at hs
      split at hs
      · exact (wakeFirst_life hs).trans rfl
      · cases hs
        rfl
    · cases hs
      rfl
  | _ =>
    cases hs
    rfl

theorem wakeEvents_life (xs : List Tid) (tr : List Event) :
    (wakeEvents xs ++ tr).filter Event.IsLife = tr.filter Event.IsLife := by
  induction xs generalizing tr with
  | nil => rfl
  | cons x xs ih =>
    unfold wakeEvents
    rw [List.append_assoc, ih]
    rfl

/-- Only `sleepStatus` puts a thread to sleep. -/
theorem unrested_life (h : Unrested t (op.life x ++ tr)) : op = .sleepStatus ∧ t = x ∨ Unrested t tr := by
  cases op with
  | sleepStatus => exact h.imp_left fun he ↦ ⟨rfl, he.symm⟩
  | _ => exact .inr h

theorem ended_life (h : Ended t (op.life x ++ tr)) : Ended t tr := by
  cases op <;> exact h

/-! ## One step -/

/-- Nobody ends and nobody is made. -/
theorem Chronicled.keep (h : Chronicled s) (hk : Kept s s') (he : ∀ t, Ended t s'.trace → Ended t s.trace)
    (hr : ∀ t, Unrested t s'.trace → t = s'.currentThread ∧ s'.status t = .sleeping) : Chronicled s' := by
  refine ⟨hr, fun t ht hend ↦ ?_⟩
  rw [hk.threads] at ht
  exact (hk.zombies t).mpr (h.ended t ht (he t hend))

/-- Whoever runs has rested. -/
theorem Chronicled.running (h : Chronicled s) (hrun : s.status s.currentThread = .running) (t : Tid) :
    ¬ Unrested t s.trace := by
  intro hu
  obtain ⟨rfl, hsleep⟩ := h.rested t hu
  rw [hrun] at hsleep
  cases hsleep

theorem unrested_switchEvents {next : Tid}
    (hi : s.currentThread = s.idleThread → s.status s.currentThread = .running)
    (hr : Unrested t s.trace → t = s.currentThread ∧ s.status t = .sleeping) :
    ¬ Unrested t (s.switchEvents next ++ s.trace) := by
  have hout : ∀ tr,
      Unrested t ((if next = s.idleThread then [] else [.removed .readyThreads next]) ++ tr) →
      Unrested t tr := by
    intro tr h
    split at h
    · exact h
    · exact h
  intro h
  unfold State.switchEvents at h
  rw [List.append_assoc] at h
  by_cases hu : Unrested t s.trace
  · obtain ⟨rfl, hsleep⟩ := hr hu
    have hc : s.currentThread ≠ s.idleThread := by
      intro hc
      rw [hi hc] at hsleep
      cases hsleep
    have hfiled : s.filedOn = some .sleepingThreads := by
      unfold State.filedOn
      rw [if_neg hc, hsleep]
      rfl
    rw [hfiled] at h
    exact h.1 rfl
  · apply hu
    apply hout
    cases hf : s.filedOn with
    | none =>
      rw [hf] at h
      exact h
    | some i =>
      rw [hf] at h
      cases i with
      | sleepingThreads => exact h.2
      | _ => exact h

theorem ended_switchEvents {next : Tid} : Ended t (s.switchEvents next ++ s.trace) ↔ Ended t s.trace := by
  unfold State.switchEvents
  rw [List.append_assoc]
  cases s.filedOn <;> split <;> exact Iff.rfl

theorem Chronicled.exec (h : Chronicled s) (hs : Sound creates s) (hst : s.stack = op :: ops)
    (hw : Pursues creates s (op :: ops)) (hrun : s.status s.currentThread = .running) (hc : op.IsCalm)
    (hskip : op.IsSkip = false) (hn : next s .exec = .ok s') : Chronicled s' := by
  obtain ⟨ha, hk⟩ := hs.acted hst hw hrun hc hskip hn
  have hlife := ha.keeps.life
  refine h.keep hk (fun t ht ↦ ?_) fun t ht ↦ ?_
  · rw [← ended_filter, hlife] at ht
    exact (ended_filter t _).mp (ended_life ht)
  · rw [← unrested_filter, hlife] at ht
    rcases unrested_life ht with ⟨rfl, rfl⟩ | ht
    · simp only [Kernel.next, hst] at hn
      cases hn
      exact ⟨rfl, Function.update_self _ _ _⟩
    · exact absurd ((unrested_filter t _).mp ht) (h.running hrun t)

theorem Chronicled.insert (h : Chronicled s) (hs : Sound creates s) (hst : s.stack = op :: rest)
    (hw : Pursues creates s (op :: rest)) (hrun : s.status s.currentThread = .running)
    (hat : InsertAt x op rest) (hn : next s .exec = .ok s') : Chronicled s' := by
  obtain ⟨hxn, -, -, -⟩ := hw.outside hs.births hst hat
  have hrested := h.running hrun
  -- all but the first and the last statement change neither the statuses nor the history
  have hsame : s'.status = s.status → s'.trace = s.trace → Chronicled s' := by
    intro hstatus htrace
    refine ⟨fun t ht ↦ ?_, fun t ht hend ↦ ?_⟩
    · rw [htrace] at ht
      exact absurd ht (hrested t)
    · rw [htrace] at ht hend
      rw [hstatus]
      exact h.ended t ht hend
  cases hat with
  | init =>
    simp only [Kernel.next, hst] at hn
    have hs' := internalThreadInit_eq hn
    subst hs'
    refine ⟨fun t ht ↦ absurd ht (hrested t), fun t ht hend ↦ ?_⟩
    have htx : t ≠ x := by
      rintro rfl
      exact hxn ht
    rw [initialised_status htx]
    exact h.ended t ht hend
  | head list =>
    cases list with
    | readyThreads =>
      simp only [Kernel.next, hst] at hn
      cases hn
      refine ⟨fun t ht ↦ absurd ht (hrested t), fun t ht hend ↦ ?_⟩
      obtain ⟨hxt, hend⟩ := hend
      have ht := (threadsOf_created s x t).mp ht
      exact h.ended t (ht.resolve_left (Ne.symm hxt)) hend
    | allThreads =>
      simp only [Kernel.next, hst] at hn
      cases hn
      exact hsame rfl rfl
  | headPrev list | nodeNext list | nodePrev list =>
    simp only [Kernel.next, hst] at hn
    cases list <;> cases hn <;> exact hsame rfl rfl

/-- The step lemma. -/
theorem Faces.chronicled (hf : Faces creates s a) (h : Sound creates s) (hch : Chronicled s)
    (hn : next s a = .ok s') : Chronicled s' := by
  cases hf with
  | act hst hw hrun hc hskip => exact hch.exec h hst hw hrun hc hskip hn
  | flag b hst hop hrun he hp hw hs =>
    rw [hs] at hn
    cases hn
    exact ⟨hch.rested, hch.ended⟩
  | enter he hp hw hnode hun heq =>
    obtain ⟨lists, hrun, -⟩ := isrIRQ0_enters hp hw hun
    rw [heq, hrun] at hn
    cases hn
    refine hch.keep (h.births.kept_interrupted hp hnode lists)
      (fun t ↦ (ended_congr (wakeEvents_life _ _)).mp) fun t ht ↦ ?_
    obtain ⟨rfl, hsleep⟩ := hch.rested t ((unrested_congr (wakeEvents_life _ _)).mp ht)
    refine ⟨rfl, ?_⟩
    rwa [interrupted_status (hp.restack _) lists (current_not_asleep (hp.restack _))]
  | dispatch hst hesp hi hen hw hun =>
    obtain ⟨s₁, hrun, hl⟩ := hw.leaves hst hen hun
    rw [hn] at hrun
    cases hrun
    have hk := hl.kept h.births hw.placed hst hesp
    cases hl with
    | stays => exact ⟨hch.rested, hch.ended⟩
    | switches =>
      refine hch.keep hk (fun t ↦ ended_switchEvents.mp) fun t ht ↦ absurd ht ?_
      apply unrested_switchEvents _ (hch.rested t)
      exact fun hc ↦ (congrArg s.status hc).trans (hw.placed.standing.idle_running hc.symm)
  | @reap x enabled entered ops hst hx hesp hi hen hw hun hlock =>
    have hexec : cleanZombies (some x) entered { s with stack := .iret enabled :: ops } = .ok s' := by
      simp only [Kernel.next, hst] at hn
      exact hn
    obtain ⟨xs, hL, -⟩ := hw.placed.first_zombie hx
    obtain ⟨lists, all, rfl, -⟩ := cleanZombies_reap (hw.placed.restack (.iret enabled :: ops)) hL hexec
    exact ⟨hch.rested, fun t ht hend ↦ hch.ended t ((threadsOf_reaped x s.trace t).mp ht).1 hend⟩
  | @kfree x enabled entered left ops hst hreaps hx hc hesp hi hen hw hun =>
    obtain ⟨s₁, op, rest, pushed, hrun, hnext⟩ := hreaps.frees hst (.of_skip rfl) hc hi (not_misused hn)
    rw [hn] at hrun
    cases hrun
    have ha := hnext.freed.alike
    have hlife : s'.trace.filter Event.IsLife =
        op.life s.currentThread ++ s.trace.filter Event.IsLife := by
      have hexec := hn
      simp only [Kernel.next, hnext.stack] at hexec
      have hl := heap_life hnext.fits hexec
      exact hl
    refine hch.keep (hnext.kept hx) (fun t ht ↦ ?_) fun t ht ↦ ?_
    · rw [← ended_filter, hlife] at ht
      exact (ended_filter t _).mp (ended_life ht)
    · rw [← unrested_filter, hlife] at ht
      rcases unrested_life ht with ⟨rfl, -⟩ | ht
      · cases hnext.fits
      · rw [ha.current, ha.status]
        exact hch.rested t ((unrested_filter t _).mp ht)
  | exit hst hw hrun =>
    have hexec : Kernel.exec .threadExit { s with stack := [] } = .ok s' := by
      simpa only [Kernel.next, hst] using hn
    obtain ⟨-, hs'⟩ := threadExit_eq hexec
    subst hs'
    refine ⟨fun t ht ↦ absurd ht (hch.running hrun t), fun t ht hend ↦ ?_⟩
    show Function.update s.status s.currentThread .zombie t = .zombie
    by_cases htc : t = s.currentThread
    · subst htc
      exact Function.update_self _ _ _
    · rw [Function.update_of_ne htc]
      exact hch.ended t ht (hend.resolve_left (Ne.symm htc))
  | alloc =>
    cases hn
    exact ⟨hch.rested, hch.ended⟩
  | insert hst hw hrun hat => exact hch.insert h hst hw hrun hat hn
  | call =>
    cases hn
    exact ⟨hch.rested, hch.ended⟩

end

/-! ## Runs -/

/-- All that is left to the current thread is to give the processor away. -/
def State.Departs (s : State) : Prop :=
  s.stack.head? = some .threadYield ∨
    ∃ above zombie entered below, s.stack = above ++ .cleanZombies zombie entered :: below

section

variable {creates : Prop} {s : State} {idle main : Tid} {threads : List Tid}

theorem Sound.departs (h : Sound creates s) (hn : s.status s.currentThread ≠ .running) : s.Departs := by
  obtain ⟨ops, hw⟩ := h.current
  cases hw.spot with
  | thread hst hr =>
    subst hst
    exact .inl (hr.resolve_left hn)
  | resumed b hst hi hr => exact absurd hr hn
  | handler b e reap hst => exact .inr ⟨reap, _, e, .iret b :: ops, hst⟩

/-- A thread that returns from `thread_sleep` runs. -/
theorem Sound.returning (h : Sound creates s) (hst : s.stack.head? = some .sleepReturn) :
    s.status s.currentThread = .running := by
  obtain ⟨ops, hw⟩ := h.current
  cases hw.spot with
  | thread hops hr =>
    subst hops
    refine hr.resolve_right fun hy ↦ ?_
    rw [hst] at hy
    cases hy
  | resumed b hops hi hr => exact hr
  | handler b e reap hops hesp hi hs hn hr =>
    rw [hops] at hst
    rcases hr with rfl | ⟨x, hr, -⟩
    · cases hst
    · obtain ⟨op, rest, hnext⟩ := hr.next [] .nil
      have hfits := hnext.fits
      rw [hnext.eq] at hst
      cases hst
      cases hfits

theorem unended_bootThreads {ts : List Tid} {t : Tid} : ∀ {s : State},
    ¬ Unrested t s.trace → ¬ Ended t s.trace →
      ¬ Unrested t (bootThreads ts s).trace ∧ ¬ Ended t (bootThreads ts s).trace := by
  induction ts with
  | nil => exact fun hr he ↦ ⟨hr, he⟩
  | cons u ts ih => exact fun hr he ↦ ih (s := State.booted _ u) hr fun h ↦ he h.2

theorem chronicled_boot (count : Nat → Nat) : Chronicled (boot idle main threads count) := by
  have h : ∀ t, ¬ Unrested t (boot idle main threads count).trace ∧
      ¬ Ended t (boot idle main threads count).trace :=
    fun t ↦ unended_bootThreads (by simp [mainInit, Unrested]) (by simp [mainInit, Ended])
  exact ⟨fun t ht ↦ absurd ht (h t).1, fun t _ ht ↦ absurd ht (h t).2⟩

end

instance (t : Tid) (tr : List Event) : Decidable (Ended t tr) := by
  induction tr with
  | nil => exact isFalse id
  | cons e tr ih =>
    cases e <;> unfold Ended <;> infer_instance

end AlienOS.Kernel
