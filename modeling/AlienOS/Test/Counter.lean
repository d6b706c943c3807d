import AlienOS.Test.MutexTest

/-!
# Counter — no increment of the test is lost
-/

open AlienOS.Lib

namespace AlienOS.Test.MutexTest

open AlienOS.Kernel Program

/-- The worker is in the body of its loop. -/
def Pc.IsInside : Pc → Bool
  | .acquire | .load | .store | .release | .next => true
  | .test | .print | .printed | .post | .finished => false

/-- The loop is behind it. -/
def Pc.IsOver : Pc → Bool
  | .print | .printed | .post | .finished => true
  | .test | .acquire | .load | .store | .release | .next => false

structure Local.Right (n : Word) (l : Local) : Prop where
  le : l.i ≤ n
  lt : l.pc.IsInside = true → l.i < n
  past : l.pc.IsOver = true → l.i = n

/-- What the worker has added to the counter. -/
def Local.added (l : Local) : Word := l.i + if l.pc = .release ∨ l.pc = .next then 1 else 0

section

variable {arg : TestMutex} {counter : Word} {l : Local}

theorem Local.Right.at {n : Word} {pc : Pc} (h : l.Right n) (h₁ : pc.IsInside = l.pc.IsInside)
    (h₂ : pc.IsOver = l.pc.IsOver) (counter : Word) : Local.Right n ⟨pc, l.i, counter⟩ :=
  ⟨h.le, fun hp ↦ h.lt (h₁ ▸ hp), fun hp ↦ h.past (h₂ ▸ hp)⟩

theorem testMutexWorker_right (counter : Word) (hr : l.Right arg.kNumIterations) :
    (testMutexWorker arg counter l).1.Right arg.kNumIterations := by
  obtain ⟨hle, hlt, hover⟩ := id hr
  unfold testMutexWorker
  cases hpc : l.pc with
  | test =>
    by_cases hi : l.i < arg.kNumIterations
    · simp only [if_pos hi]
      exact ⟨hle, fun _ ↦ hi, fun ho ↦ by cases ho⟩
    · simp only [if_neg hi]
      exact ⟨hle, fun ho ↦ (by cases ho), fun _ ↦ BitVec.le_antisymm hle (BitVec.not_lt.mp hi)⟩
  | next =>
    refine ⟨?_, fun ho ↦ (by cases ho), fun ho ↦ by cases ho⟩
    have hi := hlt (by rw [hpc]; rfl)
    show (l.i + 1).toNat ≤ arg.kNumIterations.toNat
    rw [word_succ hi]
    exact hi
  | finished => exact hr
  | _ => exact hr.at (by rw [hpc]; rfl) (by rw [hpc]; rfl) _

/-- The counter gains what the worker has added. -/
theorem testMutexWorker_added (arg : TestMutex) (hread : l.pc = .store → l.counter = counter) :
    (testMutexWorker arg counter l).2.1 =
      counter + ((testMutexWorker arg counter l).1.added - l.added) := by
  have hsame : ∀ {l' : Local}, l'.added = l.added → counter = counter + (l'.added - l.added) := by
    intro l' hl
    rw [hl, sub_self, add_zero]
  unfold testMutexWorker
  cases hpc : l.pc with
  | test =>
    apply hsame
    show Local.added ⟨_, l.i, l.counter⟩ = _
    split <;> simp [Local.added, hpc]
  | store =>
    rw [hread hpc]
    simp [Local.added, hpc]
  | finished => exact hsame rfl
  | _ =>
    apply hsame
    simp [Local.added, hpc]

/-- A worker that is about to write has just read, and the others have not written since. -/
theorem testMutexWorker_read (arg : TestMutex) (counter : Word) (l : Local)
    (hpc : (testMutexWorker arg counter l).1.pc = .store) :
    (testMutexWorker arg counter l).2.2 = none ∧
      (testMutexWorker arg counter l).1.counter = (testMutexWorker arg counter l).2.1 := by
  unfold testMutexWorker at hpc ⊢
  cases h : l.pc with
  | load => exact ⟨rfl, rfl⟩
  | test =>
    simp only [h] at hpc
    split at hpc <;> cases hpc
  | _ =>
    simp only [h] at hpc
    cases hpc

/-- Only a worker with the lock writes. -/
theorem testMutexWorker_writes (arg : TestMutex) (counter : Word) (l : Local)
    (hpc : l.pc ≠ .store) : (testMutexWorker arg counter l).2.1 = counter := by
  unfold testMutexWorker
  cases h : l.pc with
  | store => exact absurd h hpc
  | _ => rfl

end

/-! ## The invariant -/

/-- The counter and the stacks of the workers agree. -/
structure Books (arg : TestMutex) (team : Team) (v : Sync) (d : Data) : Prop where
  counter : d.counter = (team.workers.map fun x ↦ (d.worker x).added).sum
  read : ∀ x ∈ team.workers, (d.worker x).pc = .store →
    v.task x = [] ∧ (d.worker x).counter = d.counter
  right : ∀ x, (d.worker x).Right arg.kNumIterations
  others : ∀ x, x ∉ team.workers → (d.worker x).pc = .test
  result : ∀ b, d.failed = some b → b = false ∧ ∀ x ∈ team.workers, (d.worker x).pc = .finished

structure Sound (arg : TestMutex) (team : Team) (v : Sync) (d : Data) : Prop where
  grips : Grips arg.lock d.stance v
  joins : team.Joins arg.done d.wait d.posted v
  parked : Parked (d.spots arg team) v
  wait : d.wait.Right team.kNumThreads
  books : Books arg team v d

section

variable {arg : TestMutex} {team : Team} {t : Tid} {v v' : Sync} {d d' : Data} {c : Option Call}
  {act : Act}

/-- All increments together. -/
theorem Books.total (h : Books arg team v d) (hf : ∀ x ∈ team.workers, (d.worker x).pc = .finished) :
    d.counter = team.kNumThreads * arg.kNumIterations := by
  have hadded : (team.workers.map fun x ↦ (d.worker x).added) =
      team.workers.map fun _ ↦ arg.kNumIterations := by
    apply List.map_congr_left
    intro x hx
    have hover := (h.right x).past (by rw [hf x hx]; rfl)
    simp [Local.added, hf x hx, hover]
  rw [h.counter, hadded, List.map_const', List.sum_replicate, team.length_eq, nsmul_eq_mul]
  congr 1
  simp

theorem Books.kernel (h : Books arg team v d) (hs : Sync.Step t act v v')
    (hc : ∀ c, act = .call c → t ∈ team.workers → (d.worker t).pc = .finished) :
    Books arg team v' d := by
  refine ⟨h.counter, fun x hx hpc ↦ ?_, h.right, h.others, h.result⟩
  obtain ⟨htask, hread⟩ := h.read x hx hpc
  refine ⟨hs.task_nil htask fun c hact hxt ↦ ?_, hread⟩
  subst hxt
  have hfin := hc c hact hx
  rw [hpc] at hfin
  cases hfin

/-- A statement of a worker. -/
theorem Books.worker (h : Books arg team v d) (hg : Grips arg.lock d.stance v) (htask : v.task t = [])
    (ht : t ∈ team.workers) (hpc : (d.worker t).pc ≠ .finished) (hs : d.runWorker arg t = (d', c)) :
    Books arg team (v.setTask t (askedOps c)) d' := by
  obtain ⟨hrun, hothers, -, hfailed⟩ := runWorker_eq hs
  have hadded := testMutexWorker_added arg fun hp ↦ (h.read t ht hp).2
  have hread := testMutexWorker_read arg d.counter (d.worker t)
  have hwrites := testMutexWorker_writes arg d.counter (d.worker t)
  have hright := testMutexWorker_right d.counter (h.right t)
  rw [hrun] at hadded hread hwrites hright
  refine ⟨?_, fun x hx hp ↦ ?_, fun x ↦ ?_, fun x hx ↦ ?_, fun b hb ↦ ?_⟩
  · have hoff : ∀ u, u ≠ t → (d'.worker u).added = (d.worker u).added := by
      intro u hu
      rw [hothers u hu]
    rw [sum_map_change (List.nodup_cons.mp team.nodup).2 ht hoff, ← h.counter]
    exact hadded
  · by_cases hxt : x = t
    · subst hxt
      obtain ⟨hc, hcounter⟩ := hread hp
      have hself : (v.setTask x (askedOps c)).task x = askedOps c := Function.update_self _ _ _
      have hnone : c = none := hc
      rw [hself, hnone]
      exact ⟨rfl, hcounter⟩
    · have hne : (v.setTask t (askedOps c)).task x = v.task x := Function.update_of_ne hxt _ _
      rw [hothers x hxt] at hp ⊢
      obtain ⟨hnil, hcounter⟩ := h.read x hx hp
      refine ⟨hne.trans hnil, hcounter.trans (Eq.symm (hwrites fun hstore ↦ hxt ?_))⟩
      -- both would have the lock
      apply hg.alone hnil htask
      · unfold Data.stance
        rw [hp]
        rfl
      · unfold Data.stance
        rw [hstore]
        rfl
  · by_cases hxt : x = t
    · subst hxt
      exact hright
    · rw [hothers x hxt]
      exact h.right x
  · rw [hothers x (fun hxt ↦ hx (hxt ▸ ht))]
    exact h.others x hx
  · rw [hfailed] at hb
    exact absurd ((h.result b hb).2 t ht) hpc

/-- A statement of the test. -/
theorem Books.main (h : Books arg team v d)
    (hj : team.Joins arg.done d.wait d.posted v)
    (hw : d.wait.Right team.kNumThreads)
    (hs : testMutex arg team d = (d', c)) :
    Books arg team (v.setTask team.main (askedOps c)) d' := by
  obtain ⟨hworker, hcounter, -, hfailed⟩ := testMutex_wait hs
  refine ⟨?_, fun x hx hp ↦ ?_, ?_, ?_, fun b hb ↦ ?_⟩
  · rw [hcounter, hworker]
    exact h.counter
  · have hne : (v.setTask team.main (askedOps c)).task x = v.task x :=
      Function.update_of_ne (team.ne_main hx) _ _
    rw [hworker] at hp ⊢
    rw [hne, hcounter]
    exact h.read x hx hp
  · rw [hworker]
    exact h.right
  · rw [hworker]
    exact h.others
  · rw [hworker]
    rcases hfailed with hsame | ⟨hover, hsome⟩
    · rw [hsame] at hb
      exact h.result b hb
    · have hfin : ∀ x ∈ team.workers, (d.worker x).pc = .finished := fun x hx ↦
        of_decide_eq_true (team.all_posted hj hw hover x hx)
      rw [hsome, h.total hfin] at hb
      have hb := Option.some.inj hb
      rw [bne_self_eq_false] at hb
      exact ⟨hb.symm, hfin⟩

/-- The step lemma. -/
theorem Sound.step (h : Sound arg team v d) (hs : (program arg team).Step v d v' d') :
    Sound arg team v' d' := by
  refine ⟨(pairs arg team).step h.grips hs, (counts arg team).step h.wait h.joins hs,
    (parks arg team).step h.parked hs, (staffed arg team).right h.wait hs, ?_⟩
  · cases hs with
    | kernel hs hc => exact h.books.kernel hs fun c hact hm ↦ (hc c hact).2.1 hm
    | statement hf ht hr =>
      rcases runs_cases hr with ⟨rfl, -, hs⟩ | ⟨-, ⟨hm, hpc⟩, hs⟩
      · exact h.books.main h.joins h.wait hs
      · exact h.books.worker h.grips ht hm hpc hs

/-- If a worker waits for the lock, another one does not. -/
theorem Sound.owner (h : Sound arg team v d) {x : Tid}
    (hx : x ∈ v.queue (.semaphore (.ofMutex (.user arg.lock)))) :
    ∃ o ∈ team.workers, (d.worker o).pc ≠ .finished ∧ ∀ q, o ∉ v.queue q := by
  obtain ⟨o, hstance, hout⟩ := h.grips.owner hx
  have ho : o ∈ team.workers := by
    by_contra hn
    apply hstance
    unfold Data.stance
    rw [h.books.others o hn]
    rfl
  refine ⟨o, ho, fun hfin ↦ hstance ?_, fun q hq ↦ ?_⟩
  · unfold Data.stance
    rw [hfin]
    rfl
  · have hspot := (h.parked o q (.inl hq)).1 ho
    unfold Data.stance at hstance
    cases hpc : (d.worker o).pc with
    | load =>
      rw [hpc] at hspot
      have hlock : q = .semaphore (.ofMutex (.user arg.lock)) := hspot
      subst hlock
      exact hout hq
    | test | acquire | store | release | next | print | post =>
      rw [hpc] at hspot
      exact hspot
    | printed | finished =>
      rw [hpc] at hstance
      exact hstance rfl

end

/-! ## Every run -/

structure Counted (arg : TestMutex) (team : Team) (w : Program.World Data) : Prop where
  /-- every increment so far is in the counter -/
  counter : w.data.counter = (team.workers.map fun x ↦ (w.data.worker x).added).sum
  /-- no two workers are between the read and the write -/
  alone : ∀ x ∈ team.workers, ∀ y ∈ team.workers,
    (w.data.worker x).pc = .store → (w.data.worker y).pc = .store → x = y
  passes : ∀ b, w.data.failed = some b → b = false ∧
    (∀ x ∈ team.workers, (w.data.worker x).pc = .finished) ∧
      w.data.counter = team.kNumThreads * arg.kNumIterations
  /-- one of the workers can go on, as long as one has to, or waits for the port -/
  awake : ∀ x ∈ team.workers, (w.data.worker x).pc ≠ .finished →
    ∃ y ∈ team.workers, (w.data.worker y).pc ≠ .finished ∧ (w.state.status y ≠ .blocked ∨
      y ∈ listsOf w.state.trace (.waitQueue (.semaphore (.ofMutex (.user arg.serialLock)))))
  /-- and then the test can -/
  joined : (∀ x ∈ team.workers, (w.data.worker x).pc = .finished ∧ w.state.sync.task x = []) →
    w.data.failed = none → w.state.status team.main ≠ .blocked

section

variable {arg : TestMutex} {team : Team} {idle main : Tid} {threads : List Tid} {count : Nat → Nat}
  {w : Program.World Data}

theorem rests (hd : Distinct idle main threads)
    (hteam : ∀ t ∈ team.main :: team.workers, t ∈ main :: threads) :
    (program arg team).Rests idle := by
  obtain ⟨hmain, hworkers⟩ := team.not_idle hd hteam
  exact fun d ↦ ⟨fun hm ↦ absurd hm hworkers, fun he ↦ absurd he hmain⟩

theorem sound_start (hcount : count arg.done = 0) :
    Sound arg team (Sync.start idle count) begin := by
  have hzero : ∀ t, team.called begin.wait begin.posted t = 0 := by
    intro t
    unfold Team.called
    split <;> rfl
  have hjoins : Ledger arg.done (count arg.done) (team.main :: team.workers) (team.downs begin.wait)
      (team.ups begin.posted) (team.called begin.wait begin.posted) (Sync.start idle count) :=
    Ledger.start _ idle count arg.done hzero
  rw [hcount] at hjoins
  refine ⟨Grips.start _ idle count fun t ↦ rfl, hjoins, parked_start _ idle count, ?_,
    ⟨?_, ?_, fun x ↦ ?_, fun x hx ↦ rfl, ?_⟩⟩
  · refine ⟨Nat.zero_le _, fun ho ↦ ?_, fun ho ↦ by cases ho⟩
    rcases ho with ho | ho <;> cases ho
  · show (0 : Word) = (team.workers.map fun _ ↦ (0 : Word) + 0).sum
    simp
  · exact fun x hx hp ↦ by cases hp
  · exact ⟨Nat.zero_le _, fun ho ↦ (by cases ho), fun ho ↦ by cases ho⟩
  · exact fun b hb ↦ by cases hb

theorem Sound.awake (h : Sound arg team w.state.sync w.data) (hc : Calm idle threads w.state)
    (hteam : ∀ t ∈ team.main :: team.workers, t ∈ threads) {x : Tid} (hx : x ∈ team.workers)
    (hpc : (w.data.worker x).pc ≠ .finished) :
    ∃ y ∈ team.workers, (w.data.worker y).pc ≠ .finished ∧ (w.state.status y ≠ .blocked ∨
      y ∈ listsOf w.state.trace (.waitQueue (.semaphore (.ofMutex (.user arg.serialLock))))) := by
  have hqueued : ∀ y ∈ team.workers, w.state.status y = .blocked →
      ∃ q, y ∈ w.state.sync.queue q :=
    fun y hy hb ↦ queued_of_blocked hc (hteam y (List.mem_cons_of_mem _ hy)) hb
  by_cases hb : w.state.status x = .blocked
  · obtain ⟨q, hq⟩ := hqueued x hx hb
    have hspot := (h.parked x q (.inl hq)).1 hx
    cases hx' : (w.data.worker x).pc with
    | load =>
      rw [hx'] at hspot
      have hlock : q = .semaphore (.ofMutex (.user arg.lock)) := hspot
      subst hlock
      obtain ⟨o, ho, hfin, hfree⟩ := h.owner hq
      refine ⟨o, ho, hfin, .inl fun hbo ↦ ?_⟩
      obtain ⟨p, hp⟩ := hqueued o ho hbo
      exact hfree p hp
    | printed =>
      rw [hx'] at hspot
      have hlock : q = .semaphore (.ofMutex (.user arg.serialLock)) := hspot
      subst hlock
      refine ⟨x, hx, hpc, .inr ?_⟩
      rwa [← State.sync_queue]
    | finished => exact absurd hx' hpc
    | test | acquire | store | release | next | print | post =>
      rw [hx'] at hspot
      exact hspot.elim
  · exact ⟨x, hx, hpc, .inl hb⟩

theorem Sound.joined (h : Sound arg team w.state.sync w.data) (hc : Calm idle threads w.state)
    (hteam : ∀ t ∈ team.main :: team.workers, t ∈ threads)
    (hfin : ∀ x ∈ team.workers, (w.data.worker x).pc = .finished ∧ w.state.sync.task x = [])
    (hf : w.data.failed = none) : w.state.status team.main ≠ .blocked := by
  intro hb
  obtain ⟨q, hq⟩ := queued_of_blocked hc (hteam _ List.mem_cons_self) hb
  obtain ⟨-, rfl⟩ := (h.parked team.main q (.inl hq)).2 rfl hf
  exact team.not_waiting h.joins h.wait (fun x hx ↦
    ⟨decide_eq_true (hfin x hx).1, (hfin x hx).2⟩) hq

end

end AlienOS.Test.MutexTest
