import AlienOS.Kernel.Passage

/-!
# Progress — the assertions of the scheduler

Threads come to their end and are reclaimed while others run; of the kernel's assertions only those of
`mutex_release` can fail.
-/

open AlienOS.Lib

namespace AlienOS.Kernel

/-- The list of all threads holds the threads and the idle thread, each once. -/
def State.Registered (s : State) : Prop :=
  ∃ all, s.allThreads.Rep (fun _ ↦ False) (fun _ ↦ none) (fun _ ↦ all) ∧
    ∀ t, t ∈ all ↔ t = s.idleThread ∨ t ∈ threadsOf s.trace

section

variable {s s' : State} {a : Action} {op : Op} {ops rest : List Op} {x : Tid} {enabled : Bool}
  {entered : ThreadStatus}

theorem Kept.registered (hk : Kept s s') (h : s.Registered) : s'.Registered := by
  unfold State.Registered
  rw [hk.allThreads, hk.idle, hk.threads]
  exact h

/-- The next zombie comes off both lists. -/
theorem Pursues.unlinks {creates : Prop} (hw : Pursues creates s ops) (h : s.Registered)
    (hst : s.stack = .cleanZombies (some x) entered :: rest)
    (hx : (listsOf s.trace .zombieThreads).head? = some x) :
    ∃ s', next s .exec = .ok s' ∧ s'.Registered := by
  have hp := hw.placed
  obtain ⟨xs, hL, hmem, hdead, hxi, hxc⟩ := hp.first_zombie hx
  obtain ⟨lists, hlists, -⟩ := rep_threadListRemove hp.rep (show _ = [] ++ x :: xs from hL) rfl id
  obtain ⟨all, hrep, hall⟩ := h
  have hxa : x ∈ all := (hall x).mpr (.inr hmem)
  obtain ⟨ys, zs, hsplit⟩ := List.append_of_mem hxa
  obtain ⟨allThreads, hremove, hrep', -⟩ := rep_threadListRemove (i := ()) hrep hsplit rfl id
  have hexec : next s .exec = .ok (({ s with stack := rest } : State).unlinked x (s.lists.next x) entered
      lists allThreads) := by
    simp only [next, hst]
    exact cleanZombies_unlink (s := { s with stack := rest }) entered hdead hxi hxc hlists hremove
  refine ⟨_, hexec, ys ++ zs, ?_, fun t ↦ ?_⟩
  · rw [Function.update_eq_const_of_subsingleton] at hrep'
    exact hrep'
  · have hnd := hrep.nodup ()
    rw [hsplit] at hnd
    have ht := hall t
    rw [hsplit, List.mem_append, List.mem_cons] at ht
    have hxn : x ∉ ys ++ zs := (List.nodup_middle.mp hnd).notMem
    have hthreads : t ∈ threadsOf (.reaped x :: .removed .zombieThreads x :: s.trace) ↔
        t ∈ threadsOf s.trace ∧ t ≠ x := threadsOf_reaped x s.trace t
    show t ∈ ys ++ zs ↔ t = s.idleThread ∨
        t ∈ threadsOf (.reaped x :: .removed .zombieThreads x :: s.trace)
    rw [hthreads, List.mem_append]
    rw [List.mem_append] at hxn
    by_cases htx : t = x
    · subst htx
      exact iff_of_false hxn (by simp [hxi])
    · rw [or_iff_right htx] at ht
      rw [and_iff_left htx]
      exact ht

theorem threadExit_ok (hi : s.currentThread ≠ s.idleThread) : ∃ s', threadExit s = .ok s' := by
  simp [threadExit, kernelAssert, hi]

/-- A thread that makes none is never in the middle of an insertion. -/
theorem Pursues.not_insert (hw : Pursues False s (op :: rest)) (hat : InsertAt x op rest)
    {P : Prop} : P := by
  exfalso
  cases hw.errand.head with
  | wait => cases hat
  | fits hfits hcr =>
    apply hcr
    unfold Op.Creates
    have hnode := hat.node
    cases op <;> first | rfl | cases hnode

/-- The step lemma: without misuse of a mutex a step that makes no thread goes through. -/
theorem Faces.progress (hf : Faces False s a) (hr : s.Registered) (hm : ¬ (a = .exec ∧ s.Misused)) :
    ∃ s', next s a = .ok s' := by
  cases hf with
  | @act op ops hst hw hrun hc hskip =>
    have hp := hw.placed_none (.cons (calm_insert hc))
    have hco := Sound.comes hst hw.errand hp hrun hc hskip fun hmis ↦ hm ⟨rfl, hmis⟩
    obtain ⟨s', hs', -⟩ := exec_acts hco
    exact ⟨s', by simpa only [next, hst] using hs'⟩
  | flag b hst hop hrun he hp hw hs => exact ⟨_, hs⟩
  | enter he hp hw hnode hn hs =>
    obtain ⟨lists, hs', -⟩ := isrIRQ0_enters hp hw hn
    exact ⟨_, hs.trans hs'⟩
  | dispatch hst hesp hi hen hw hn =>
    obtain ⟨s', hs', -⟩ := hw.leaves hst hen hn
    exact ⟨s', hs'⟩
  | reap hst hx hesp hi hen hw hn hc =>
    obtain ⟨s', hs', -⟩ := hw.unlinks hr hst hx
    exact ⟨s', hs'⟩
  | kfree hst hreaps hx hc hesp hi hen hw hn =>
    obtain ⟨s', -, -, -, hs', -⟩ := hreaps.frees hst (.of_skip rfl) hc hi fun hmis ↦ hm ⟨rfl, hmis⟩
    exact ⟨s', hs'⟩
  | exit hst hw hrun =>
    have hi : s.currentThread ≠ s.idleThread := hw.errand.not_idle rfl
    obtain ⟨s', hs'⟩ := threadExit_ok (s := { s with stack := [] }) hi
    refine ⟨s', ?_⟩
    simp only [next, hst]
    exact hs'
  | alloc hst hw hrun hfree hxi => exact ⟨_, rfl⟩
  | insert hst hw hrun hat => exact hw.not_insert hat
  | call hst hw hi hrun hc => exact ⟨_, rfl⟩

theorem Faces.registered (hf : Faces False s a) (h : Sound False s) (hr : s.Registered)
    (hs : next s a = .ok s') : s'.Registered := by
  cases hf with
  | act hst hw hrun hc hskip => exact (h.acted hst hw hrun hc hskip hs).2.registered hr
  | flag b hst hop hrun he hp hw hn =>
    rw [hn] at hs
    cases hs
    exact (kept_stack b (by rw [hst, filter_node (skip_node hop)])).registered hr
  | enter he hp hw hnode hn heq =>
    obtain ⟨lists, hrun, -⟩ := isrIRQ0_enters hp hw hn
    rw [heq, hrun] at hs
    cases hs
    exact (h.births.kept_interrupted hp hnode lists).registered hr
  | dispatch hst hesp hi hen hw hn =>
    obtain ⟨s₁, hrun, hl⟩ := hw.leaves hst hen hn
    rw [hs] at hrun
    cases hrun
    exact (hl.kept h.births hw.placed hst hesp).registered hr
  | reap hst hx hesp hi hen hw hn hc =>
    obtain ⟨s₁, hrun, hr'⟩ := hw.unlinks hr hst hx
    rw [hs] at hrun
    cases hrun
    exact hr'
  | kfree hst hreaps hx hc hesp hi hen hw hn =>
    obtain ⟨s₁, op, rest, pushed, hrun, hnext⟩ := hreaps.frees hst (.of_skip rfl) hc hi (not_misused hs)
    rw [hs] at hrun
    cases hrun
    exact (hnext.kept hx).registered hr
  | exit hst hw hrun =>
    have hexec : exec .threadExit { s with stack := [] } = .ok s' := by simpa only [next, hst] using hs
    obtain ⟨-, hs'⟩ := threadExit_eq hexec
    subst hs'
    exact hr
  | alloc hst hw =>
    cases hw.errand.head with
    | fits hf hc => exact (hc rfl).elim
  | insert hst hw hrun hat => exact hw.not_insert hat
  | call hst hw hi hrun hc =>
    cases hs
    exact hr

end

section

variable {idle main : Tid} {threads : List Tid}

theorem registered_boot (count : Nat → Nat) (hd : Distinct idle main threads) :
    (boot idle main threads count).Registered := by
  have hr := atRest_bootThreads (atRest_mainInit count hd.ne) (unborn_boot count hd)
  obtain ⟨all, hrep, hall⟩ := hr.orderly.registered
  have hins : inserting .allThreads (boot idle main threads count).stack = none := by
    rw [boot, hr.stack]
    rfl
  refine ⟨all, ?_, fun t ↦ ?_⟩
  · have hrep' := hrep
    unfold boot at hins
    rwa [hins] at hrep'
  · refine (hall t).trans (or_congr_right (or_iff_left ?_))
    rintro ⟨u, hu, -⟩
    rw [hr.making] at hu
    cases hu

/-- Steps that make no thread. -/
def Makeless (s : State) (a : Action) : Prop := a ≠ .call .threadCreateArg ∧ Unhindered s a

theorem Errand.not_inserting {idle t : Tid} {ops : List Op} (h : Errand False idle t ops)
    (list : Registry) : Kernel.inserting list ops = none := by
  cases ops with
  | nil => rfl
  | cons op rest =>
    have hcr : op.Creates = false := by
      cases h.head with
      | wait => rfl
      | fits hf hc => simpa using hc
    cases op <;> first | rfl | cases hcr

/-- Without an insertion nothing is split. -/
theorem Sound.unsplit {s : State} (h : Sound False s) (a : Action) : Unsplit s a := by
  rintro rfl hins
  obtain ⟨ops, hw⟩ := h.current
  exfalso
  apply hins
  cases hw.spot with
  | thread hst =>
    rw [hst]
    exact hw.errand.not_inserting _
  | resumed b hst =>
    rw [hst]
    rfl
  | handler b e reap hst he hi hs hn hr =>
    rw [hst]
    rcases hr with rfl | ⟨x, hr, -⟩
    · rfl
    · obtain ⟨op, rest, hnext⟩ := hr.next [] .nil
      rw [hnext.eq]
      have hfits := hnext.fits
      generalize rest ++ [] = r at hfits
      cases hfits <;> rfl

theorem Run.makeless {s : State} (count : Nat → Nat) (hd : Distinct idle main threads)
    (hr : Run Makeless (boot idle main threads count) s) : Sound False s ∧ s.Registered := by
  apply hr.invariant (I := fun s ↦ Sound False s ∧ s.Registered)
    ⟨sound_boot count hd, registered_boot count hd⟩
  rintro s a s' ⟨h, hreg⟩ ⟨hc, hf⟩ he hs
  have hcr : a = .call .threadCreateArg → False := fun ha ↦ hc ha
  have hu := h.unsplit a
  exact ⟨h.step hf hu hcr he hs, (h.faces hf hu hcr he).registered h hreg hs⟩

end

instance (s : State) (a : Action) : Decidable (Makeless s a) :=
  inferInstanceAs (Decidable (a ≠ .call .threadCreateArg ∧ Unhindered s a))

end AlienOS.Kernel
