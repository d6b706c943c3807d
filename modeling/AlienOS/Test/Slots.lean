import AlienOS.Test.MultiplexTest

/-!
# Slots — no more workers are inside than the semaphore lets in
-/

open AlienOS.Lib

namespace AlienOS.Test.MultiplexTest

open AlienOS.Kernel Program

/-- `semaphore_down` is behind the worker and `semaphore_up` before it. -/
def Pc.Inside : Pc → Bool
  | .load | .store | .test | .assign | .release | .yield | .reacquire | .reload | .restore
  | .rerelease | .up => true
  | .down | .acquire | .post | .finished => false

/-- The worker is in `data->active_threads`. -/
def Pc.Counted : Pc → Bool
  | .test | .assign | .release | .yield | .reacquire | .reload | .restore => true
  | .down | .acquire | .load | .store | .rerelease | .up | .post | .finished => false

/-- The worker is about to write what it has read. -/
def Pc.Writes : Pc → Bool
  | .store | .restore => true
  | .down | .acquire | .load | .test | .assign | .release | .yield | .reacquire | .reload | .rerelease
  | .up | .post | .finished => false

/-- The worker looks at the largest number. -/
def Pc.Looks : Pc → Bool
  | .test | .assign => true
  | .down | .acquire | .load | .store | .release | .yield | .reacquire | .reload | .restore
  | .rerelease | .up | .post | .finished => false

/-- The worker has returned from `semaphore_down` and has not yet called `semaphore_up`. -/
def inside (data : TestSemaphoreMultiplex) (v : Sync) (d : Data) (x : Tid) : Bool :=
  (d.worker x).pc.Inside || (decide ((d.worker x).pc = .acquire) && (v.task x).isEmpty &&
    !decide (x ∈ v.queue (.semaphore (.user data.sem))))

def Pc.one (pc : Pc) : Word := if pc.Counted then 1 else 0

section

variable {data : TestSemaphoreMultiplex} {s : Shared} {l : Local}

/-- Whoever writes has the lock. -/
theorem writes_inside {pc : Pc} (h : pc.Writes = true) : pc.stance = .inside := by
  cases pc <;> first | rfl | cases h

theorem counted_inside {pc : Pc} (h : pc.Counted = true) : pc.Inside = true := by
  cases pc <;> first | rfl | cases h

/-- The number of threads follows the worker. -/
theorem worker_counted (data : TestSemaphoreMultiplex)
    (hread : l.pc.Writes = true → l.activeThreads = s.activeThreads) :
    (testSemaphoreMultiplexWorker data s l).2.1.activeThreads = s.activeThreads +
      ((testSemaphoreMultiplexWorker data s l).1.pc.one - l.pc.one) := by
  unfold testSemaphoreMultiplexWorker
  cases hpc : l.pc with
  | store =>
    rw [hread (by rw [hpc]; rfl)]
    simp [Pc.one, Pc.Counted]
  | restore =>
    rw [hread (by rw [hpc]; rfl)]
    simp [Pc.one, Pc.Counted, sub_eq_add_neg]
  | test =>
    by_cases hs : s.activeThreads > s.maxSeenThreads
    · simp [hs, Pc.one, Pc.Counted]
    · simp [hs, Pc.one, Pc.Counted]
  | finished => simp [hpc]
  | _ => simp [Pc.one, Pc.Counted]

/-- A worker that is about to write has just read. -/
theorem worker_read (data : TestSemaphoreMultiplex) (s : Shared) (l : Local)
    (hpc : (testSemaphoreMultiplexWorker data s l).1.pc.Writes = true) :
    (testSemaphoreMultiplexWorker data s l).2.2 = none ∧
      (testSemaphoreMultiplexWorker data s l).1.activeThreads =
        (testSemaphoreMultiplexWorker data s l).2.1.activeThreads := by
  unfold testSemaphoreMultiplexWorker at hpc ⊢
  cases h : l.pc with
  | load => exact ⟨rfl, rfl⟩
  | reload => exact ⟨rfl, rfl⟩
  | test =>
    simp only [h] at hpc
    split at hpc <;> cases hpc
  | finished =>
    simp only [h] at hpc
    cases hpc
  | _ =>
    simp only [h] at hpc
    cases hpc

/-- Only a worker with the lock writes. -/
theorem worker_writes (data : TestSemaphoreMultiplex) (s : Shared) (l : Local)
    (hpc : l.pc.Writes = false) :
    (testSemaphoreMultiplexWorker data s l).2.1.activeThreads = s.activeThreads := by
  unfold testSemaphoreMultiplexWorker
  cases h : l.pc with
  | store | restore =>
    rw [h] at hpc
    cases hpc
  | _ => rfl

/-- The largest number changes only to the present one. -/
theorem worker_max (data : TestSemaphoreMultiplex) (s : Shared) (l : Local) :
    (testSemaphoreMultiplexWorker data s l).2.1.maxSeenThreads = s.maxSeenThreads ∨
      (testSemaphoreMultiplexWorker data s l).2.1.maxSeenThreads = s.activeThreads := by
  unfold testSemaphoreMultiplexWorker
  cases h : l.pc with
  | assign => exact .inr rfl
  | _ => exact .inl rfl

/-- After a statement the largest number is right, or the worker will look at it, or nothing has
changed for the worse. -/
theorem worker_seen (data : TestSemaphoreMultiplex)
    (hread : l.pc = .restore → l.activeThreads = s.activeThreads ∧ s.activeThreads ≠ 0) :
    (testSemaphoreMultiplexWorker data s l).1.pc.Looks = true ∨
      (testSemaphoreMultiplexWorker data s l).2.1.activeThreads ≤
        (testSemaphoreMultiplexWorker data s l).2.1.maxSeenThreads ∨
      l.pc.Looks = false ∧ (testSemaphoreMultiplexWorker data s l).2.1.activeThreads ≤ s.activeThreads ∧
        (testSemaphoreMultiplexWorker data s l).2.1.maxSeenThreads = s.maxSeenThreads := by
  unfold testSemaphoreMultiplexWorker
  cases h : l.pc with
  | store => exact .inl rfl
  | test =>
    by_cases hs : s.activeThreads > s.maxSeenThreads
    · simp only [if_pos hs]
      exact .inl rfl
    · exact .inr (.inl (BitVec.not_lt.mp hs))
  | assign => exact .inr (.inl (BitVec.le_refl _))
  | restore =>
    obtain ⟨hr, hpos⟩ := hread h
    refine .inr (.inr ⟨rfl, ?_, rfl⟩)
    have hpos' : s.activeThreads.toNat ≠ 0 := fun hz ↦ hpos (BitVec.eq_of_toNat_eq hz)
    have hlt := s.activeThreads.isLt
    show (l.activeThreads - 1).toNat ≤ s.activeThreads.toNat
    rw [hr, BitVec.toNat_sub]
    show (2 ^ 32 - 1 + s.activeThreads.toNat) % 2 ^ 32 ≤ s.activeThreads.toNat
    omega
  | _ => exact .inr (.inr ⟨rfl, BitVec.le_refl _, rfl⟩)

end

/-! ## The invariant -/

/-- The queue in which a thread can be. -/
def Data.spots (data : TestSemaphoreMultiplex) (team : Team) (d : Data) (t : Tid) (q : WaitQueue) :
    Prop :=
  (t ∈ team.workers → (d.worker t).pc.Spot data q) ∧
    (t = team.main → d.wait.pc ≠ .past → d.wait.pc = .next ∧ q = .semaphore (.user data.done))

def Data.stance (d : Data) (t : Tid) : Stance := (d.worker t).pc.stance

def Data.posted (d : Data) (t : Tid) : Bool := (d.worker t).pc = .finished

/-- The calls of the workers to the semaphore. -/
def Slots (data : TestSemaphoreMultiplex) (team : Team) (k : Nat) (d : Data) (v : Sync) : Prop :=
  Ledger data.sem k (team.main :: team.workers)
    (fun t ↦ t ∈ team.workers ∧ (d.worker t).pc = .acquire)
    (fun t ↦ t ∈ team.workers ∧ (d.worker t).pc = .post)
    (fun t ↦ if t = team.main then 0 else (d.worker t).pc.asked) v

/-- The fields and the stacks of the workers agree. -/
structure Books (team : Team) (k : Nat) (v : Sync) (d : Data) : Prop where
  active : d.shared.activeThreads = (team.workers.map fun x ↦ (d.worker x).pc.one).sum
  read : ∀ x ∈ team.workers, (d.worker x).pc.Writes = true →
    v.task x = [] ∧ (d.worker x).activeThreads = d.shared.activeThreads
  max : d.shared.maxSeenThreads.toNat ≤ k
  noted : d.shared.activeThreads ≤ d.shared.maxSeenThreads ∨
    ∃ x ∈ team.workers, (d.worker x).pc.Looks = true
  others : ∀ x, x ∉ team.workers → (d.worker x).pc = .down

structure Sound (data : TestSemaphoreMultiplex) (team : Team) (k : Nat) (v : Sync) (d : Data) :
    Prop where
  grips : Grips data.lock d.stance v
  joins : team.Joins data.done d.wait d.posted v
  slots : Slots data team k d v
  parked : Parked (d.spots data team) v
  wait : d.wait.Right team.kNumThreads
  books : Books team k v d

section

variable {data : TestSemaphoreMultiplex} {team : Team} {k : Nat} {t : Tid} {v v' : Sync}
  {d d' : Data} {c : Option Call} {act : Act}

theorem pairs (data : TestSemaphoreMultiplex) (team : Team) :
    (program data team).Pairs data.lock Data.stance :=
  (staffed data team).pairs (fun _ hc ↦ .inl hc) fun _ _ _ h ↦ h.reach

theorem counts_done (data : TestSemaphoreMultiplex) (team : Team) :
    (program data team).Counts (fun d ↦ d.wait.Right team.kNumThreads) data.done
      (team.main :: team.workers) (fun d ↦ team.downs d.wait) (fun d ↦ team.ups d.posted)
      fun d ↦ team.called d.wait d.posted :=
  (staffed data team).joins (fun _ hc ↦ .inr (.inr hc)) fun _ _ _ h ↦ h.posts

theorem counts_sem (data : TestSemaphoreMultiplex) (team : Team) :
    (program data team).Counts (fun _ ↦ True) data.sem (team.main :: team.workers)
      (fun d t ↦ t ∈ team.workers ∧ (d.worker t).pc = .acquire)
      (fun d t ↦ t ∈ team.workers ∧ (d.worker t).pc = .post)
      fun d t ↦ if t = team.main then 0 else (d.worker t).pc.asked :=
  (staffed data team).counts data.sem_ne (fun _ hc ↦ .inr (.inl hc)) fun _ _ _ h ↦ h.slot

theorem parks (data : TestSemaphoreMultiplex) (team : Team) :
    (program data team).Parks (Data.spots data team) := by
  refine (staffed data team).parks (fun q pc ↦ pc.Spot data q) (fun d ↦ d.wait.pc ≠ .past)
    (fun _ _ _ h ↦ h.spots) (fun t d d' _ h ht hn ↦ ?_) fun d t q h ↦
      ⟨fun hm ↦ ?_, fun he hn ↦ hn (h.2 he)⟩
  · rcases runs_cases h with ⟨he, -⟩ | ⟨-, -, hs⟩
    · exact absurd he ht
    · rw [← (runWorker_eq hs).2.2]
      exact hn
  · rw [h.1 hm]
    trivial

/-- What the worker has asked for is there, or still to come. -/
theorem Slots.term (h : Slots data team k d v) (ht : t ∈ team.main :: team.workers) :
    (if t = team.main then 0 else (d.worker t).pc.asked) + dues data.sem (v.task t) +
        (if (decide (t ∈ team.workers) && inside data v d t) then 1 else 0) +
      (if decide (t ∈ v.queue (.semaphore (.user data.sem))) then 1 else 0) ≤ 0 := by
  have hdues := h.dues_eq t
  by_cases hm : t = team.main
  · -- the test has nothing to do with the semaphore
    subst hm
    have hnot : team.main ∉ team.workers := (List.nodup_cons.mp team.nodup).1
    have hzero : dues data.sem (v.task team.main) = 0 := by
      refine hdues.resolve_right fun hd ↦ ?_
      rcases hd.1 with ⟨-, hw, -⟩ | ⟨-, hw, -⟩
      · exact hnot hw
      · exact hnot hw
    have hq : team.main ∉ v.queue (.semaphore (.user data.sem)) :=
      fun hq ↦ hnot (h.queue _ hq).1
    rw [if_pos rfl, hzero]
    simp [hnot, hq]
  · have hw : t ∈ team.workers := (List.mem_cons.mp ht).resolve_left hm
    rw [if_neg hm]
    by_cases hq : t ∈ v.queue (.semaphore (.user data.sem))
    · -- it has called `semaphore_down` and is not inside
      have hpc := (h.queue t hq).2
      have hzero : dues data.sem (v.task t) = 0 := hdues.resolve_right fun hd ↦ hd.2 _ hq
      simp [inside, hpc, Pc.Inside, Pc.asked, Pc.Holds, hzero, hq]
    · rcases hdues with hz | ⟨⟨hone, -, hpc⟩ | ⟨hone, -, hpc⟩, -⟩
      · rw [hz]
        unfold inside Pc.asked
        cases (d.worker t).pc <;> simp [Pc.Inside, Pc.Holds, hq, hw]
        split <;> simp
      · -- `semaphore_down` is still to be done
        have htask : (v.task t).isEmpty = false := by
          cases hops : v.task t with
          | nil =>
            rw [hops] at hone
            cases hone
          | cons _ _ => rfl
        simp [inside, hpc, Pc.Inside, Pc.asked, Pc.Holds, hone, hq, htask]
      · simp [inside, hpc, Pc.Inside, Pc.asked, Pc.Holds, hone, hq]

theorem Slots.inside_le (h : Slots data team k d v) (hn : ∀ q, (v.queue q).Nodup) :
    team.workers.countP (inside data v d) ≤ k := by
  have hle := Ledger.at_most h (hn _)
    (fun t ht ↦ List.mem_cons_of_mem _ (h.queue t ht).1) fun t ht ↦ h.term ht
  have hnot : team.main ∉ team.workers := (List.nodup_cons.mp team.nodup).1
  have hcount : (team.main :: team.workers).countP
      (fun t ↦ decide (t ∈ team.workers) && inside data v d t) =
        team.workers.countP (inside data v d) := by
    rw [List.countP_cons_of_neg (by simp [hnot])]
    apply List.countP_congr
    intro x hx
    simp [hx]
  rw [hcount] at hle
  exact_mod_cast hle

/-- The counter of the threads is their number. -/
theorem Books.toNat (h : Books team k v d) :
    d.shared.activeThreads.toNat = team.workers.countP fun x ↦ (d.worker x).pc.Counted := by
  have hlen : (team.workers.countP fun x ↦ (d.worker x).pc.Counted) ≤ team.workers.length :=
    List.countP_le_length
  have hlt := team.kNumThreads.isLt
  have hsum := h.active
  unfold Pc.one at hsum
  rw [hsum, sum_indicator, BitVec.natCast_eq_ofNat, BitVec.toNat_ofNat]
  rw [team.length_eq] at hlen
  exact Nat.mod_eq_of_lt (by omega)

theorem Sound.active_le (h : Sound data team k v d) (hn : ∀ q, (v.queue q).Nodup) :
    d.shared.activeThreads.toNat ≤ k := by
  rw [h.books.toNat]
  refine Nat.le_trans (List.countP_mono_left fun x _ hc ↦ ?_) (h.slots.inside_le hn)
  unfold inside
  rw [counted_inside hc]
  rfl

theorem Books.kernel (h : Books team k v d) (hs : Sync.Step t act v v')
    (hc : ∀ c, act = .call c → t ∈ team.workers → (d.worker t).pc = .finished) :
    Books team k v' d := by
  refine ⟨h.active, fun x hx hpc ↦ ?_, h.max, h.noted, h.others⟩
  obtain ⟨htask, hread⟩ := h.read x hx hpc
  refine ⟨hs.task_nil htask fun c hact hxt ↦ ?_, hread⟩
  subst hxt
  rw [hc c hact hx] at hpc
  cases hpc

theorem Books.main (h : Books team k v d) (hs : testSemaphoreMultiplex data team d = (d', c)) :
    Books team k (v.setTask team.main (askedOps c)) d' := by
  obtain ⟨hworker, hshared, -⟩ := testSemaphoreMultiplex_wait hs
  refine ⟨?_, fun x hx hp ↦ ?_, ?_, ?_, ?_⟩
  · rw [hshared, hworker]
    exact h.active
  · have hne : (v.setTask team.main (askedOps c)).task x = v.task x :=
      Function.update_of_ne (team.ne_main hx) _ _
    rw [hworker] at hp ⊢
    rw [hne, hshared]
    exact h.read x hx hp
  · rw [hshared]
    exact h.max
  · rw [hshared, hworker]
    exact h.noted
  · rw [hworker]
    exact h.others

/-- A statement of a worker. -/
theorem Books.worker (h : Books team k v d) (hg : Grips data.lock d.stance v)
    (hk : d.shared.activeThreads.toNat ≤ k) (htask : v.task t = []) (ht : t ∈ team.workers)
    (hs : d.runWorker data t = (d', c)) : Books team k (v.setTask t (askedOps c)) d' := by
  obtain ⟨hrun, hothers, -⟩ := runWorker_eq hs
  have hcounted := worker_counted data fun hp ↦ (h.read t ht hp).2
  have hread := worker_read data d.shared (d.worker t)
  have hwrites := worker_writes data d.shared (d.worker t)
  have hmax := worker_max data d.shared (d.worker t)
  have hseen : (d.worker t).pc = .restore →
      (d.worker t).activeThreads = d.shared.activeThreads ∧ d.shared.activeThreads ≠ 0 := by
    intro hp
    refine ⟨(h.read t ht (by rw [hp]; rfl)).2, fun hz ↦ ?_⟩
    -- the worker itself is still in the counter
    have hpos : 0 < team.workers.countP fun x ↦ (d.worker x).pc.Counted :=
      List.countP_pos_iff.mpr ⟨t, ht, by rw [hp]; rfl⟩
    rw [← h.toNat, hz] at hpos
    exact absurd hpos (Nat.lt_irrefl 0)
  have hseen := worker_seen data hseen
  rw [hrun] at hcounted hread hwrites hmax hseen
  refine ⟨?_, fun x hx hp ↦ ?_, ?_, ?_, fun x hx ↦ ?_⟩
  · have hoff : ∀ u, u ≠ t → (d'.worker u).pc.one = (d.worker u).pc.one := by
      intro u hu
      rw [hothers u hu]
    rw [sum_map_change (List.nodup_cons.mp team.nodup).2 ht hoff, ← h.active]
    exact hcounted
  · by_cases hxt : x = t
    · subst hxt
      obtain ⟨hc, hactive⟩ := hread hp
      have hself : (v.setTask x (askedOps c)).task x = askedOps c := Function.update_self _ _ _
      have hnone : c = none := hc
      rw [hself, hnone]
      exact ⟨rfl, hactive⟩
    · have hne : (v.setTask t (askedOps c)).task x = v.task x := Function.update_of_ne hxt _ _
      rw [hothers x hxt] at hp ⊢
      obtain ⟨hnil, hactive⟩ := h.read x hx hp
      refine ⟨hne.trans hnil, hactive.trans (Eq.symm (hwrites ?_))⟩
      -- both would have the lock
      by_contra hw
      have hw : (d.worker t).pc.Writes = true := by simpa using hw
      exact hxt (hg.alone hnil htask (writes_inside hp) (writes_inside hw))
  · show d'.shared.maxSeenThreads.toNat ≤ k
    rcases hmax with hsame | hnow
    · have hsame : d'.shared.maxSeenThreads = d.shared.maxSeenThreads := hsame
      rw [hsame]
      exact h.max
    · have hnow : d'.shared.maxSeenThreads = d.shared.activeThreads := hnow
      rw [hnow]
      exact hk
  · rcases hseen with hlooks | hle | ⟨hlooks, hle, hsame⟩
    · exact .inr ⟨t, ht, hlooks⟩
    · exact .inl hle
    · -- whoever was about to look still is
      rcases h.noted with hold | ⟨x, hx, hx'⟩
      · left
        have hsame : d'.shared.maxSeenThreads = d.shared.maxSeenThreads := hsame
        rw [hsame]
        exact BitVec.le_trans hle hold
      · have hxt : x ≠ t := by
          rintro rfl
          rw [hx'] at hlooks
          cases hlooks
        refine .inr ⟨x, hx, ?_⟩
        rw [hothers x hxt]
        exact hx'
  · rw [hothers x fun hxt ↦ hx (hxt ▸ ht)]
    exact h.others x hx

/-- The step lemma. -/
theorem Sound.step (h : Sound data team k v d) (hn : ∀ q, (v.queue q).Nodup)
    (hs : (program data team).Step v d v' d') : Sound data team k v' d' := by
  refine ⟨(pairs data team).step h.grips hs, (counts_done data team).step h.wait h.joins hs,
    (counts_sem data team).step trivial h.slots hs, (parks data team).step h.parked hs,
    (staffed data team).right h.wait hs, ?_⟩
  cases hs with
  | kernel hs hc => exact h.books.kernel hs fun c hact hm ↦ (hc c hact).2.1 hm
  | statement hf ht hr =>
    rcases runs_cases hr with ⟨rfl, hs⟩ | ⟨-, hm, hs⟩
    · exact h.books.main hs
    · exact h.books.worker h.grips (h.active_le hn) ht hm hs

/-- If a worker waits for the lock, another one does not. -/
theorem Sound.owner (h : Sound data team k v d) {x : Tid}
    (hx : x ∈ v.queue (.semaphore (.ofMutex (.user data.lock)))) :
    ∃ o ∈ team.workers, (d.worker o).pc ≠ .finished ∧ ∀ q, o ∉ v.queue q := by
  obtain ⟨o, hstance, hout⟩ := h.grips.owner hx
  have ho : o ∈ team.workers := by
    by_contra hn
    apply hstance
    unfold Data.stance
    rw [h.books.others o hn]
    rfl
  refine ⟨o, ho, fun hfin ↦ hstance ?_, fun q hq ↦ ?_⟩
  · unfold Data.stance
    rw [hfin]
    rfl
  · have hspot := (h.parked o q (.inl hq)).1 ho
    unfold Data.stance at hstance
    cases hpc : (d.worker o).pc with
    | load | reload =>
      rw [hpc] at hspot
      have hlock : q = .semaphore (.ofMutex (.user data.lock)) := hspot
      subst hlock
      exact hout hq
    | acquire | finished =>
      rw [hpc] at hstance
      exact hstance rfl
    | down | store | test | assign | release | yield | reacquire | restore | rerelease | up | post =>
      rw [hpc] at hspot
      exact hspot

/-- If a worker waits for the semaphore, another one has still to give it back. -/
theorem Sound.served (h : Sound data team k v d) (hk : 0 < k) {x : Tid}
    (hx : x ∈ v.queue (.semaphore (.user data.sem))) :
    ∃ y ∈ team.workers, (d.worker y).pc ≠ .finished ∧
      y ∉ v.queue (.semaphore (.user data.sem)) := by
  obtain ⟨y, hy, hout, hneg⟩ := Ledger.served h.slots team.nodup (by omega) hx fun z hz hzq ↦ by
    split
    · omega
    · unfold Pc.asked
      split <;> omega
  have hdues := h.slots.dues_eq y
  by_cases hm : y = team.main
  · exfalso
    have hnot : y ∉ team.workers := fun hw ↦ team.ne_main hw hm
    rw [if_pos hm] at hneg
    rcases hdues with hz | ⟨⟨hone, -⟩ | ⟨-, hw, -⟩, -⟩
    · omega
    · omega
    · exact hnot hw
  · have hw : y ∈ team.workers := (List.mem_cons.mp hy).resolve_left hm
    refine ⟨y, hw, fun hfin ↦ ?_, hout⟩
    rw [if_neg hm, hfin] at hneg
    have hasked : Pc.asked .finished = 0 := rfl
    rw [hasked] at hneg
    rcases hdues with hz | ⟨⟨hone, -⟩ | ⟨-, -, hpost⟩, -⟩
    · omega
    · omega
    · rw [hfin] at hpost
      cases hpost

end

/-! ## Every run -/

structure Limited (data : TestSemaphoreMultiplex) (team : Team) (k : Nat) (w : Program.World Data) :
    Prop where
  /-- no more workers are between the two calls to the semaphore than it lets in -/
  inside : team.workers.countP (inside data w.state.sync w.data) ≤ k
  /-- the counter of the threads is their number -/
  active : w.data.shared.activeThreads.toNat =
    team.workers.countP fun x ↦ (w.data.worker x).pc.Counted
  max : w.data.shared.maxSeenThreads.toNat ≤ k
  /-- no number is missed, unless a worker is about to look -/
  noted : (∀ x ∈ team.workers, (w.data.worker x).pc.Looks = false) →
    w.data.shared.activeThreads ≤ w.data.shared.maxSeenThreads
  /-- the test goes on when all workers are done -/
  ended : w.data.wait.pc = .past →
    (∀ x ∈ team.workers, (w.data.worker x).pc = .finished) ∧ w.data.shared.activeThreads = 0
  /-- one of the workers can go on, as long as one has to -/
  awake : 0 < k → ∀ x ∈ team.workers, (w.data.worker x).pc ≠ .finished →
    ∃ y ∈ team.workers, (w.data.worker y).pc ≠ .finished ∧ w.state.status y ≠ .blocked
  /-- and then the test can -/
  joined : (∀ x ∈ team.workers, (w.data.worker x).pc = .finished ∧ w.state.sync.task x = []) →
    w.data.wait.pc ≠ .past → w.state.status team.main ≠ .blocked

section

variable {data : TestSemaphoreMultiplex} {team : Team} {k : Nat} {idle main : Tid}
  {threads : List Tid} {count : Nat → Nat} {w : Program.World Data}

theorem rests (hd : Distinct idle main threads)
    (hteam : ∀ t ∈ team.main :: team.workers, t ∈ main :: threads) :
    (program data team).Rests idle := by
  obtain ⟨hmain, hworkers⟩ := team.not_idle hd hteam
  exact fun d ↦ ⟨fun hm ↦ absurd hm hworkers, fun he ↦ absurd he hmain⟩

theorem sound_start (hcount : count data.done = 0) :
    Sound data team (count data.sem) (Sync.start idle count) begin := by
  have hzero : ∀ t, team.called begin.wait begin.posted t = 0 := by
    intro t
    unfold Team.called
    split <;> rfl
  have hjoins : Ledger data.done (count data.done) (team.main :: team.workers)
      (team.downs begin.wait) (team.ups begin.posted) (team.called begin.wait begin.posted)
      (Sync.start idle count) := Ledger.start _ idle count data.done hzero
  rw [hcount] at hjoins
  refine ⟨Grips.start _ idle count fun t ↦ rfl, hjoins, Ledger.start _ idle count data.sem ?_,
    parked_start _ idle count, ?_, ?_, fun x hx hp ↦ (by cases hp), Nat.zero_le _,
    .inl (BitVec.le_refl _), fun x hx ↦ rfl⟩
  · intro t
    split <;> rfl
  · refine ⟨Nat.zero_le _, fun ho ↦ ?_, fun ho ↦ by cases ho⟩
    rcases ho with ho | ho <;> cases ho
  · show (0 : Word) = (team.workers.map fun _ ↦ (0 : Word)).sum
    simp

theorem Sound.awake (h : Sound data team k w.state.sync w.data) (hc : Calm idle threads w.state)
    (hteam : ∀ t ∈ team.main :: team.workers, t ∈ threads) (hk : 0 < k) {x : Tid}
    (hx : x ∈ team.workers) (hpc : (w.data.worker x).pc ≠ .finished) :
    ∃ y ∈ team.workers, (w.data.worker y).pc ≠ .finished ∧ w.state.status y ≠ .blocked := by
  have hqueued : ∀ y ∈ team.workers, w.state.status y = .blocked →
      ∃ q, y ∈ w.state.sync.queue q :=
    fun y hy hb ↦ queued_of_blocked hc (hteam y (List.mem_cons_of_mem _ hy)) hb
  -- a worker that is not in the queue of the semaphore
  have hother : ∀ y ∈ team.workers, (w.data.worker y).pc ≠ .finished →
      y ∉ w.state.sync.queue (.semaphore (.user data.sem)) →
      ∃ z ∈ team.workers, (w.data.worker z).pc ≠ .finished ∧ w.state.status z ≠ .blocked := by
    intro y hy hfin hout
    by_cases hb : w.state.status y = .blocked
    · obtain ⟨q, hq⟩ := hqueued y hy hb
      have hspot := (h.parked y q (.inl hq)).1 hy
      cases hy' : (w.data.worker y).pc with
      | load | reload =>
        rw [hy'] at hspot
        have hlock : q = .semaphore (.ofMutex (.user data.lock)) := hspot
        subst hlock
        obtain ⟨o, ho, hofin, hfree⟩ := h.owner hq
        refine ⟨o, ho, hofin, fun hbo ↦ ?_⟩
        obtain ⟨p, hp⟩ := hqueued o ho hbo
        exact hfree p hp
      | acquire =>
        rw [hy'] at hspot
        have hsem : q = .semaphore (.user data.sem) := hspot
        subst hsem
        exact absurd hq hout
      | finished => exact absurd hy' hfin
      | down | store | test | assign | release | yield | reacquire | restore | rerelease | up
      | post =>
        rw [hy'] at hspot
        exact hspot.elim
    · exact ⟨y, hy, hfin, hb⟩
  by_cases hin : x ∈ w.state.sync.queue (.semaphore (.user data.sem))
  · obtain ⟨y, hy, hfin, hout⟩ := h.served hk hin
    exact hother y hy hfin hout
  · exact hother x hx hpc hin

theorem Sound.joined (h : Sound data team k w.state.sync w.data) (hc : Calm idle threads w.state)
    (hteam : ∀ t ∈ team.main :: team.workers, t ∈ threads)
    (hfin : ∀ x ∈ team.workers, (w.data.worker x).pc = .finished ∧ w.state.sync.task x = [])
    (hp : w.data.wait.pc ≠ .past) : w.state.status team.main ≠ .blocked := by
  intro hb
  obtain ⟨q, hq⟩ := queued_of_blocked hc (hteam _ List.mem_cons_self) hb
  obtain ⟨-, rfl⟩ := (h.parked team.main q (.inl hq)).2 rfl hp
  exact team.not_waiting h.joins h.wait (fun x hx ↦
    ⟨decide_eq_true (hfin x hx).1, (hfin x hx).2⟩) hq

end

end AlienOS.Test.MultiplexTest
