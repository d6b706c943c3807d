import AlienOS.Test.Program

/-!
# Team — a test that waits for its workers

Each worker ends with `semaphore_up (&done)`, and the test calls `semaphore_down (&done)` once for
every worker.
-/

open AlienOS.Lib

namespace AlienOS.Test

open AlienOS.Kernel Program

/-- The threads of a test. -/
structure Team where
  main : Tid
  workers : List Tid
  kNumThreads : Word
  nodup : (main :: workers).Nodup
  length_eq : workers.length = kNumThreads.toNat

theorem Team.ne_main (team : Team) {x : Tid} (hx : x ∈ team.workers) : x ≠ team.main := by
  rintro rfl
  exact (List.nodup_cons.mp team.nodup).1 hx

/-- The idle thread is not in a team. -/
theorem Team.not_idle (team : Team) {idle main : Tid} {threads : List Tid}
    (hd : Distinct idle main threads) (h : ∀ t ∈ team.main :: team.workers, t ∈ main :: threads) :
    idle ≠ team.main ∧ idle ∉ team.workers := by
  have hidle : idle ∉ main :: threads := (List.nodup_cons.mp hd).1
  refine ⟨?_, fun hm ↦ hidle (h idle (List.mem_cons_of_mem _ hm))⟩
  rintro rfl
  exact hidle (h _ List.mem_cons_self)

/-- The statements of the loop in which the test waits. -/
inductive WaitPc where
  /-- `i < kNumThreads` -/
  | test
  /-- `semaphore_down (&done)` -/
  | down
  /-- `i++` -/
  | next
  | past
  deriving DecidableEq, Repr

structure Wait where
  pc : WaitPc
  i : Word

def Wait.step (done : Nat) (kNumThreads : Word) (l : Wait) : Wait × Option Call :=
  match l.pc with
  | .test => ({ l with pc := if l.i < kNumThreads then .down else .past }, none)
  | .down => ({ l with pc := .next }, some (.semaphoreDown done))
  | .next => ({ l with pc := .test, i := l.i + 1 }, none)
  | .past => (l, none)

/-- The downs that the test has called. -/
def Wait.downs (l : Wait) : Int := l.i.toNat + if l.pc = .next then 1 else 0

/-- Where the loop can be. -/
structure Wait.Right (kNumThreads : Word) (l : Wait) : Prop where
  le : l.i ≤ kNumThreads
  lt : l.pc = .down ∨ l.pc = .next → l.i < kNumThreads
  past : l.pc = .past → l.i = kNumThreads

section

variable {done : Nat} {kNumThreads : Word} {l : Wait}

theorem word_succ {i k : Word} (h : i < k) : (i + 1).toNat = i.toNat + 1 := by
  have hk := k.isLt
  have hi : i.toNat < k.toNat := h
  rw [BitVec.toNat_add]
  show (i.toNat + 1) % 4294967296 = i.toNat + 1
  omega

theorem Wait.Right.step (done : Nat) (h : l.Right kNumThreads) :
    (l.step done kNumThreads).1.Right kNumThreads := by
  obtain ⟨hle, hlt, hover⟩ := h
  unfold Wait.step
  cases hpc : l.pc with
  | test =>
    by_cases hi : l.i < kNumThreads
    · simp only [if_pos hi]
      exact ⟨hle, fun _ ↦ hi, fun ho ↦ (by cases ho)⟩
    · simp only [if_neg hi]
      refine ⟨hle, fun ho ↦ ?_, fun _ ↦ BitVec.le_antisymm hle (BitVec.not_lt.mp hi)⟩
      rcases ho with ho | ho <;> cases ho
  | down => exact ⟨hle, fun _ ↦ hlt (.inl hpc), fun ho ↦ (by cases ho)⟩
  | next =>
    have hi := hlt (.inr hpc)
    refine ⟨?_, fun ho ↦ ?_, fun ho ↦ (by cases ho)⟩
    · show (l.i + 1).toNat ≤ kNumThreads.toNat
      rw [word_succ hi]
      exact hi
    · rcases ho with ho | ho <;> cases ho
  | past => exact ⟨hle, hlt, hover⟩

/-- Each call of the loop is counted. -/
theorem Wait.downs_step (done : Nat) (h : l.Right kNumThreads) :
    (l.step done kNumThreads).1.downs = l.downs + dues done (askedOps (l.step done kNumThreads).2) := by
  unfold Wait.step Wait.downs
  cases hpc : l.pc with
  | test =>
    by_cases hi : l.i < kNumThreads
    · simp [hi]
    · simp [hi]
  | down => simp
  | next =>
    have hi := word_succ (h.lt (.inr hpc))
    show ((l.i + 1).toNat : Int) + 0 = l.i.toNat + 1 + 0
    rw [hi]
    push_cast
    omega
  | past => simp [hpc]

/-- The loop calls nothing but `semaphore_down`. -/
theorem Wait.step_spares {l' : Wait} {c : Option Call} {n : Nat}
    (h : l.step done kNumThreads = (l', c)) : ∀ op ∈ askedOps c, ¬ op.OnMutex (.user n) := by
  unfold Wait.step at h
  cases hpc : l.pc with
  | down =>
    simp only [hpc] at h
    cases h
    exact asked_spares_mutex id
  | _ =>
    simp only [hpc] at h
    cases h
    simp

theorem Wait.step_leads {l' : Wait} {c : Option Call} {op : Op} {q : WaitQueue}
    (h : l.step done kNumThreads = (l', c)) (ho : op ∈ askedOps c) (hq : op.Leads q) :
    l'.pc = .next ∧ q = .semaphore (.user done) := by
  unfold Wait.step at h
  cases hpc : l.pc with
  | down =>
    simp only [hpc] at h
    cases h
    cases List.mem_singleton.mp ho
    exact ⟨rfl, leads_down hq⟩
  | _ =>
    simp only [hpc] at h
    cases h
    cases ho

theorem Wait.step_ups {l' : Wait} {c : Option Call} {n : Nat}
    (h : l.step done kNumThreads = (l', c)) : .semaphoreUp (.user n) ∉ askedOps c := by
  unfold Wait.step at h
  cases hpc : l.pc with
  | down =>
    simp only [hpc] at h
    cases h
    simp
  | _ =>
    simp only [hpc] at h
    cases h
    simp

theorem Wait.step_tries {l' : Wait} {c : Option Call} {n : Nat}
    (h : l.step done kNumThreads = (l', c)) : .semaphoreTryDown (.user n) ∉ askedOps c := by
  unfold Wait.step at h
  cases hpc : l.pc with
  | down =>
    simp only [hpc] at h
    cases h
    simp
  | _ =>
    simp only [hpc] at h
    cases h
    simp

theorem Wait.step_dues {l' : Wait} {c : Option Call} {n : Nat}
    (h : l.step done kNumThreads = (l', c)) (hn : n ≠ done) : dues n (askedOps c) = 0 := by
  unfold Wait.step at h
  cases hpc : l.pc with
  | down =>
    simp only [hpc] at h
    cases h
    rw [askedOps_down, dues_down_ne hn.symm]
  | _ =>
    simp only [hpc] at h
    cases h
    rfl

end

namespace Team

/-- The ups less the downs of `done` that a thread has called. -/
def called (team : Team) (l : Wait) (posted : Tid → Bool) (t : Tid) : Int :=
  if t = team.main then -l.downs else if posted t then 1 else 0

/-- Who may be in `semaphore_down (&done)`, and who in `semaphore_up (&done)`. -/
def downs (team : Team) (l : Wait) (t : Tid) : Prop := t = team.main ∧ l.pc = .next

def ups (team : Team) (posted : Tid → Bool) (t : Tid) : Prop := t ∈ team.workers ∧ posted t = true

/-- The semaphore `done` in a test. -/
def Joins (team : Team) (done : Nat) (l : Wait) (posted : Tid → Bool) (v : Sync) : Prop :=
  Ledger done 0 (team.main :: team.workers) (team.downs l) (team.ups posted) (team.called l posted) v

end Team

section

variable {team : Team} {done : Nat} {l : Wait} {posted : Tid → Bool} {v : Sync} {x : Tid}

/-- Terms of at most one that reach their number. -/
theorem all_one {ι : Type} {f : ι → Int} {xs : List ι} (h : ∀ x ∈ xs, f x ≤ 1)
    (hs : (xs.length : Int) ≤ (xs.map f).sum) : ∀ x ∈ xs, f x = 1 := by
  have hle : ∀ ys : List ι, (∀ y ∈ ys, f y ≤ 1) → (ys.map f).sum ≤ ys.length := by
    intro ys
    induction ys with
    | nil => exact fun _ ↦ Int.le_refl 0
    | cons y ys ih =>
      intro hy
      have h₁ := hy y List.mem_cons_self
      have h₂ := ih fun z hz ↦ hy z (List.mem_cons_of_mem _ hz)
      rw [List.map_cons, List.sum_cons, List.length_cons]
      push_cast
      omega
  induction xs with
  | nil => exact fun x hx ↦ by cases hx
  | cons y ys ih =>
    have h₁ := h y List.mem_cons_self
    have htail : ∀ z ∈ ys, f z ≤ 1 := fun z hz ↦ h z (List.mem_cons_of_mem _ hz)
    have h₂ := hle ys htail
    rw [List.map_cons, List.sum_cons, List.length_cons] at hs
    push_cast at hs
    intro x hx
    rcases List.mem_cons.mp hx with rfl | hx
    · omega
    · exact ih htail (by omega) x hx

theorem Team.called_worker (team : Team) (hx : x ∈ team.workers) :
    team.called l posted x = if posted x then 1 else 0 := if_neg (team.ne_main hx)

/-- Once the test has gone through all its downs, every worker has posted. -/
theorem Team.all_posted (team : Team) (h : team.Joins done l posted v)
    (hl : l.Right team.kNumThreads) (ho : l.pc = .past) :
    ∀ x ∈ team.workers, posted x = true := by
  have hterm : ∀ x ∈ team.workers, dues done (v.task x) ≤ 0 := by
    intro x hx
    rcases h.dues_eq x with hz | ⟨⟨-, hd, -⟩ | ⟨hm, -⟩, -⟩
    · omega
    · exact absurd hd (team.ne_main hx)
    · omega
  have hmain : 0 ≤ v.count (.user done) ∧ dues done (v.task team.main) ≤ 0 := by
    have hnot : ¬ team.downs l team.main := fun hd ↦ by
      have hn := hd.2
      rw [ho] at hn
      cases hn
    refine ⟨h.count_nonneg (fun x hx ↦ hx.1) fun hq ↦ hnot (h.queue _ hq), ?_⟩
    rcases h.dues_eq team.main with hz | ⟨⟨-, hd⟩ | ⟨hm, -⟩, -⟩
    · omega
    · exact absurd hd hnot
    · omega
  -- the count is not negative, so the ups come to as many as there are workers
  have hsum : (team.workers.length : Int) ≤
      (team.workers.map fun x ↦ team.called l posted x + dues done (v.task x)).sum := by
    obtain ⟨hcount, hzero⟩ := hmain
    have hdowns : team.called l posted team.main = -team.workers.length := by
      unfold Team.called Wait.downs
      rw [if_pos rfl, ho, hl.past ho, team.length_eq]
      simp
    rw [h.count, List.map_cons, List.sum_cons, hdowns] at hcount
    omega
  intro x hx
  have hone := all_one (fun y hy ↦ ?_) hsum x hx
  · have hx' := hterm x hx
    simp only [team.called_worker hx] at hone
    by_contra hn
    rw [if_neg hn] at hone
    omega
  · have hy' := hterm y hy
    simp only [team.called_worker hy]
    split <;> omega

/-- The test does not wait once every worker has gone through its `semaphore_up`. -/
theorem Team.not_waiting (team : Team) (h : team.Joins done l posted v)
    (hl : l.Right team.kNumThreads) (hp : ∀ x ∈ team.workers, posted x = true ∧ v.task x = []) :
    team.main ∉ v.queue (.semaphore (.user done)) := by
  intro hq
  have hn : l.pc = .next := (h.queue _ hq).2
  have hworkers : (team.workers.map fun x ↦ team.called l posted x + dues done (v.task x)) =
      team.workers.map fun _ ↦ (1 : Int) := by
    apply List.map_congr_left
    intro x hx
    obtain ⟨hposted, htask⟩ := hp x hx
    rw [team.called_worker hx, if_pos hposted, htask]
    rfl
  have hmain : dues done (v.task team.main) = 0 :=
    (h.dues_eq team.main).resolve_right fun hd ↦ hd.2 _ hq
  have hdowns : team.called l posted team.main = -(l.i.toNat + 1) := by
    unfold Team.called Wait.downs
    rw [if_pos rfl, if_pos hn]
  have hi : l.i.toNat < team.workers.length := by
    rw [team.length_eq]
    exact hl.lt (.inr hn)
  have hcount := h.count_neg hq
  rw [h.count, List.map_cons, List.sum_cons, hworkers, hdowns, hmain] at hcount
  simp at hcount
  omega

end

/-! ## The calls of the test and of its workers -/

/-- A statement of the program is one of the loop of the test or one of a worker. -/
def Staffed {σ L : Type} (p : Program σ) (team : Team) (done : Nat) (worker : σ → Tid → L)
    (wait : σ → Wait) (turn : L → L → List Op → Prop) : Prop :=
  ∀ t d d' c, p.Runs t d d' c →
    t = team.main ∧ worker d' = worker d ∧ (wait d).step done team.kNumThreads = (wait d', c) ∨
    t ≠ team.main ∧ t ∈ team.workers ∧ turn (worker d t) (worker d' t) (askedOps c) ∧
      wait d' = wait d ∧ ∀ u, u ≠ t → worker d' u = worker d u

/-- What a statement of a worker leaves to do at a semaphore; `asked` are its ups less its downs. -/
structure Asks {L : Type} (n : Nat) (asked : L → Int) (down up : L → Prop) (l l' : L)
    (ops : List Op) : Prop where
  asks : asked l' = asked l - dues n ops
  tries : .semaphoreTryDown (.user n) ∉ ops
  downs : .semaphoreDown (.user n) ∈ ops → down l'
  ups : .semaphoreUp (.user n) ∈ ops → up l'

theorem asks_spared {L : Type} {n : Nat} {asked : L → Int} {down up : L → Prop} {l l' : L}
    {ops : List Op} (h : ∀ op ∈ ops, ¬ op.OnSemaphore n) (ha : asked l' = asked l) :
    Asks n asked down up l l' ops := by
  refine ⟨?_, fun hm ↦ absurd rfl (h _ hm), fun hm ↦ absurd rfl (h _ hm),
    fun hm ↦ absurd rfl (h _ hm)⟩
  rw [dues_spared h, Int.sub_zero]
  exact ha

namespace Staffed

variable {σ L : Type} {p : Program σ} {team : Team} {done n : Nat} {worker : σ → Tid → L}
  {wait : σ → Wait} {turn : L → L → List Op → Prop} {v v' : Sync} {d d' : σ}

/-- The step lemma for the loop of the test. -/
theorem right (h : Staffed p team done worker wait turn) (hw : (wait d).Right team.kNumThreads)
    (hs : p.Step v d v' d') : (wait d').Right team.kNumThreads := by
  cases hs with
  | kernel hs hc => exact hw
  | statement hf ht hr =>
    rcases h _ _ _ _ hr with ⟨-, -, hwait⟩ | ⟨-, -, -, hwait, -⟩
    · have hright := hw.step done
      rw [hwait] at hright
      exact hright
    · rw [hwait]
      exact hw

theorem pairs (h : Staffed p team done worker wait turn) {stance : L → Stance}
    (ho : ∀ c, c.OnMutex n → p.Owns c)
    (hreach : ∀ l l' ops, turn l l' ops → Reach n (stance l) ops (stance l')) :
    p.Pairs n fun d t ↦ stance (worker d t) := by
  refine ⟨ho, fun {t d d' c} hr ↦ ?_, fun {t d d' c u} hr hu ↦ ?_⟩
  · rcases h _ _ _ _ hr with ⟨-, hworker, hwait⟩ | ⟨-, -, hturn, -, -⟩
    · rw [hworker]
      exact .spares (Wait.step_spares hwait) rfl
    · exact hreach _ _ _ hturn
  · rcases h _ _ _ _ hr with ⟨-, hworker, -⟩ | ⟨-, -, -, -, hothers⟩
    · rw [hworker]
    · show stance (worker d' u) = stance (worker d u)
      rw [hothers u hu]

/-- The semaphore in which the test waits for the workers. -/
theorem joins (h : Staffed p team done worker wait turn) {posted : L → Bool}
    (ho : ∀ c, c.OnSemaphore done → p.Owns c)
    (hask : ∀ l l' ops, turn l l' ops →
      Asks done (fun l ↦ if posted l then 1 else 0) (fun _ ↦ False) (fun l ↦ posted l) l l' ops) :
    p.Counts (fun d ↦ (wait d).Right team.kNumThreads) done (team.main :: team.workers)
      (fun d ↦ team.downs (wait d)) (fun d ↦ team.ups fun t ↦ posted (worker d t))
      fun d ↦ team.called (wait d) fun t ↦ posted (worker d t) where
  owns := ho
  nodup := team.nodup
  mem hr := by
    rcases h _ _ _ _ hr with ⟨ht, -⟩ | ⟨-, ht, -⟩
    · rw [ht]
      exact List.mem_cons_self
    · exact List.mem_cons_of_mem _ ht
  tries hr := by
    rcases h _ _ _ _ hr with ⟨-, -, hwait⟩ | ⟨-, -, hturn, -, -⟩
    · exact Wait.step_tries hwait
    · exact (hask _ _ _ hturn).tries
  downs hr hm := by
    rcases h _ _ _ _ hr with ⟨ht, -, hwait⟩ | ⟨-, -, hturn, -, -⟩
    · exact ⟨ht, (Wait.step_leads hwait hm (down_leads _)).1⟩
    · exact ((hask _ _ _ hturn).downs hm).elim
  ups hr hm := by
    rcases h _ _ _ _ hr with ⟨-, -, hwait⟩ | ⟨-, ht, hturn, -, -⟩
    · exact absurd hm (Wait.step_ups hwait)
    · exact ⟨ht, (hask _ _ _ hturn).ups hm⟩
  asks {t d d' c} hright hr := by
    unfold Team.called
    rcases h _ _ _ _ hr with ⟨ht, -, hwait⟩ | ⟨ht, -, hturn, -, -⟩
    · have hdowns := Wait.downs_step done hright
      rw [hwait] at hdowns
      rw [if_pos ht, if_pos ht, hdowns]
      show -((wait d).downs + dues done (askedOps c)) = _
      omega
    · rw [if_neg ht, if_neg ht]
      exact (hask _ _ _ hturn).asks
  same {t d d' c u} hr hu := by
    unfold Team.called Team.downs Team.ups
    rcases h _ _ _ _ hr with ⟨ht, hworker, -⟩ | ⟨-, -, -, hwait, hothers⟩
    · have hmain : u ≠ team.main := ht ▸ hu
      rw [hworker, if_neg hmain, if_neg hmain]
      exact ⟨rfl, fun hd ↦ absurd hd.1 hmain, id⟩
    · beta_reduce
      rw [hothers u hu, hwait]
      exact ⟨rfl, id, id⟩

/-- A semaphore that only the workers call. -/
theorem counts (h : Staffed p team done worker wait turn) {asked : L → Int} {down up : L → Prop}
    (hn : n ≠ done) (ho : ∀ c, c.OnSemaphore n → p.Owns c)
    (hask : ∀ l l' ops, turn l l' ops → Asks n asked down up l l' ops) :
    p.Counts (fun _ ↦ True) n (team.main :: team.workers)
      (fun d t ↦ t ∈ team.workers ∧ down (worker d t)) (fun d t ↦ t ∈ team.workers ∧ up (worker d t))
      fun d t ↦ if t = team.main then 0 else asked (worker d t) where
  owns := ho
  nodup := team.nodup
  mem hr := by
    rcases h _ _ _ _ hr with ⟨ht, -⟩ | ⟨-, ht, -⟩
    · rw [ht]
      exact List.mem_cons_self
    · exact List.mem_cons_of_mem _ ht
  tries hr := by
    rcases h _ _ _ _ hr with ⟨-, -, hwait⟩ | ⟨-, -, hturn, -, -⟩
    · exact Wait.step_tries hwait
    · exact (hask _ _ _ hturn).tries
  downs hr hm := by
    rcases h _ _ _ _ hr with ⟨-, -, hwait⟩ | ⟨-, ht, hturn, -, -⟩
    · have hq := (Wait.step_leads hwait hm (down_leads n)).2
      cases hq
      exact absurd rfl hn
    · exact ⟨ht, (hask _ _ _ hturn).downs hm⟩
  ups hr hm := by
    rcases h _ _ _ _ hr with ⟨-, -, hwait⟩ | ⟨-, ht, hturn, -, -⟩
    · exact absurd hm (Wait.step_ups hwait)
    · exact ⟨ht, (hask _ _ _ hturn).ups hm⟩
  asks {t d d' c} _ hr := by
    rcases h _ _ _ _ hr with ⟨ht, -, hwait⟩ | ⟨ht, -, hturn, -, -⟩
    · rw [if_pos ht, if_pos ht, Wait.step_dues hwait hn]
      rfl
    · rw [if_neg ht, if_neg ht]
      exact (hask _ _ _ hturn).asks
  same {t d d' c u} hr hu := by
    rcases h _ _ _ _ hr with ⟨-, hworker, -⟩ | ⟨-, -, -, -, hothers⟩
    · rw [hworker]
      exact ⟨rfl, id, id⟩
    · rw [hothers u hu]
      exact ⟨rfl, id, id⟩

/-- The queues in which a worker can be, and the one of the test while it runs. -/
theorem parks (h : Staffed p team done worker wait turn) (spot : WaitQueue → L → Prop)
    (runs : σ → Prop)
    (hspot : ∀ l l' ops, turn l l' ops → ∀ op ∈ ops, ∀ q, op.Leads q → spot q l')
    (hruns : ∀ t d d' c, p.Runs t d d' c → t ≠ team.main → runs d' → runs d)
    (hdone : ∀ d t q, p.Done d t →
      (t ∈ team.workers → spot q (worker d t)) ∧ (t = team.main → ¬ runs d)) :
    p.Parks fun d t q ↦ (t ∈ team.workers → spot q (worker d t)) ∧
      (t = team.main → runs d → (wait d).pc = .next ∧ q = .semaphore (.user done)) where
  calls {t d d' c q} hr op ho hq := by
    rcases h _ _ _ _ hr with ⟨ht, -, hwait⟩ | ⟨ht, -, hturn, -, -⟩
    · exact ⟨fun hm ↦ absurd ht (team.ne_main hm), fun _ _ ↦ Wait.step_leads hwait ho hq⟩
    · exact ⟨fun _ ↦ hspot _ _ _ hturn op ho q hq, fun he ↦ absurd he ht⟩
  same {t d d' c u q} hr hu hq := by
    rcases h _ _ _ _ hr with ⟨ht, hworker, -⟩ | ⟨ht, -, -, hwait, hothers⟩
    · refine ⟨?_, fun he ↦ absurd (he.trans ht.symm) hu⟩
      rw [hworker]
      exact hq.1
    · rw [hothers u hu, hwait]
      exact ⟨hq.1, fun he hrun ↦ hq.2 he (hruns _ _ _ _ hr ht hrun)⟩
  done {t d q} hd := by
    obtain ⟨hworker, hmain⟩ := hdone d t q hd
    exact ⟨hworker, fun he hrun ↦ absurd hrun (hmain he)⟩

end Staffed

end AlienOS.Test
