import AlienOS.Test.SemaphoreTest

/-!
# HandOver — the two threads of the semaphore test keep in step
-/

open AlienOS.Lib

namespace AlienOS.Test.SemaphoreTest

open AlienOS.Kernel Program

/-! ## The books of a semaphore that `x` downs and `y` ups -/

def called (x y : Tid) (d : Data) (t : Tid) : Int :=
  if t = x then -(d.thread x).downs else if t = y then (d.thread y).ups else 0

def downsAt (x : Tid) (d : Data) (t : Tid) : Prop := t = x ∧ (d.thread x).pc = .access

def upsAt (y : Tid) (d : Data) (t : Tid) : Prop := t = y ∧ (d.thread y).pc = .next

def Books (n : Nat) (k : Int) (x y : Tid) (d : Data) (v : Sync) : Prop :=
  Ledger n k [x, y] (downsAt x d) (upsAt y d) (called x y d) v

section

variable {data : TestSemaphore} {pair : Pair} {n m : Nat} {k : Int} {x y t : Tid} {d d' : Data}
  {c : Option Call} {v : Sync}

/-- Who runs a statement. -/
theorem runs_cases (h : (program data pair).Runs t d d' c) :
    (t = pair.producer ∧ testSemaphoreProducer data t d = (d', c) ∨
      t = pair.consumer ∧ testSemaphoreConsumer data t d = .ok (d', c)) ∧
        (d.thread t).pc ≠ .finished := by
  obtain ⟨hd, hs⟩ := h
  have hnot : (t = pair.producer ∨ t = pair.consumer) ∧ (d.thread t).pc ≠ .finished := by
    by_contra hn
    refine hd fun hm ↦ ?_
    by_contra hpc
    exact hn ⟨hm, hpc⟩
  refine ⟨?_, hnot.2⟩
  have hs : (if t = pair.producer then Except.ok (testSemaphoreProducer data t d)
    else testSemaphoreConsumer data t d) = .ok (d', c) := hs
  by_cases ht : t = pair.producer
  · rw [if_pos ht] at hs
    exact .inl ⟨ht, Except.ok.inj hs⟩
  · rw [if_neg ht] at hs
    exact .inr ⟨hnot.1.resolve_left ht, hs⟩

theorem runs_turn (h : (program data pair).Runs t d d' c) :
    (t = pair.producer ∧ Turn data.semaProduce data.semaConsume data.done (d.thread t) (d'.thread t)
        (askedOps c) ∨
      t = pair.consumer ∧ Turn data.semaConsume data.semaProduce data.done (d.thread t) (d'.thread t)
        (askedOps c)) ∧ ∀ u, u ≠ t → d'.thread u = d.thread u := by
  rcases (runs_cases h).1 with ⟨ht, hs⟩ | ⟨ht, hs⟩
  · obtain ⟨hloop, hsame, -⟩ := testSemaphoreProducer_eq hs
    exact ⟨.inl ⟨ht, loop_turn data.ne data.produce_ne data.consume_ne hloop⟩, hsame⟩
  · obtain ⟨hloop, hsame, -⟩ := testSemaphoreConsumer_eq hs
    exact ⟨.inr ⟨ht, loop_turn data.ne.symm data.consume_ne data.produce_ne hloop⟩, hsame⟩

theorem counts_of (hn : n ≠ data.done) (hnm : n ≠ m) (hxy : x ≠ y)
    (howns : ∀ c : Call, c.OnSemaphore n → (program data pair).Owns c)
    (hturn : ∀ {t d d' c}, (program data pair).Runs t d d' c →
      (t = x ∧ Turn n m data.done (d.thread t) (d'.thread t) (askedOps c) ∨
        t = y ∧ Turn m n data.done (d.thread t) (d'.thread t) (askedOps c)) ∧
      ∀ u, u ≠ t → d'.thread u = d.thread u) :
    (program data pair).Counts (fun _ ↦ True) n [x, y] (downsAt x) (upsAt y) (called x y) where
  owns := howns
  nodup := by simp [hxy]
  mem h := by
    rcases (hturn h).1 with ⟨rfl, -⟩ | ⟨rfl, -⟩ <;> simp
  tries h := by
    rcases (hturn h).1 with ⟨-, h⟩ | ⟨-, h⟩
    · exact h.tries n
    · exact h.tries n
  downs h hm := by
    rcases (hturn h).1 with ⟨rfl, h⟩ | ⟨-, h⟩
    · exact ⟨rfl, (h.waits n hm).2⟩
    · exact absurd (h.waits n hm).1 hnm
  ups h hm := by
    rcases (hturn h).1 with ⟨-, h⟩ | ⟨rfl, h⟩
    · rcases h.posts n hm with ⟨he, -⟩ | he
      · exact absurd he hnm
      · exact absurd he hn
    · rcases h.posts n hm with ⟨-, he⟩ | he
      · exact ⟨rfl, he⟩
      · exact absurd he hn
  asks _ h := by
    unfold called
    rcases (hturn h).1 with ⟨rfl, h⟩ | ⟨rfl, h⟩
    · have hdowns := h.downs
      rw [if_pos rfl, if_pos rfl]
      omega
    · rw [if_neg hxy.symm, if_neg hxy.symm, if_pos rfl, if_pos rfl]
      exact h.ups
  same {t d d' c u} h hu := by
    have hsame := (hturn h).2
    have hx : u = x → d'.thread x = d.thread x := by
      rintro rfl
      exact hsame u hu
    have hy : u = y → d'.thread y = d.thread y := by
      rintro rfl
      exact hsame u hu
    refine ⟨?_, fun hd ↦ ?_, fun hd ↦ ?_⟩
    · unfold called
      by_cases h₁ : u = x
      · rw [if_pos h₁, if_pos h₁, hx h₁]
      · by_cases h₂ : u = y
        · rw [if_neg h₁, if_neg h₁, if_pos h₂, if_pos h₂, hy h₂]
        · rw [if_neg h₁, if_neg h₁, if_neg h₂, if_neg h₂]
    · refine ⟨hd.1, ?_⟩
      rw [hx hd.1]
      exact hd.2
    · refine ⟨hd.1, ?_⟩
      rw [hy hd.1]
      exact hd.2

/-- The count, the calls of the two and what is left of them. -/
theorem Books.count_eq (h : Books n k x y d v) (hxy : x ≠ y) :
    v.count (.user n) = k - (d.thread x).downs + dues n (v.task x) + (d.thread y).ups +
      dues n (v.task y) := by
  have hcount := h.count
  simp only [List.map_cons, List.map_nil, List.sum_cons, List.sum_nil, called, if_pos,
    if_neg hxy.symm] at hcount
  omega

/-- A down that is over has been paid for. -/
theorem Books.downs_le (h : Books n k x y d v) (hxy : x ≠ y)
    (hn : (v.queue (.semaphore (.user n))).Nodup) :
    (d.thread x).downs ≤ k + (d.thread y).ups + (if (d.thread x).pc = .access then 1 else 0) ∧
      (v.Free x → v.task x = [] → (d.thread x).downs ≤ k + (d.thread y).ups) := by
  have hcount := h.count_eq hxy
  have hy : dues n (v.task y) ≤ 0 := by
    rcases h.dues_eq y with hz | ⟨⟨-, hd, -⟩ | ⟨hm, -⟩, -⟩
    · omega
    · exact absurd hd.symm hxy
    · omega
  refine ⟨?_, fun hf ht ↦ ?_⟩
  · by_cases hq : x ∈ v.queue (.semaphore (.user n))
    · -- `x` alone waits
      have hpc := (h.queue x hq).2
      have hx : dues n (v.task x) = 0 := (h.dues_eq x).resolve_right fun hd ↦ hd.2 _ hq
      have hlen : (v.queue (.semaphore (.user n))).length ≤ 1 := by
        have hall := List.eq_replicate_of_mem fun z hz ↦ (h.queue z hz).1
        rw [hall] at hn
        exact List.nodup_replicate.mp hn
      have hwait := h.accounts.waiting
      rw [if_pos hpc]
      omega
    · have hpos := h.count_nonneg (fun z hz ↦ hz.1) hq
      rcases h.dues_eq x with hz | ⟨⟨hone, -, hpc⟩ | ⟨hm, -⟩, -⟩
      · split <;> omega
      · rw [if_pos hpc]
        omega
      · split <;> omega
  · have hpos := h.count_nonneg (fun z hz ↦ hz.1) (hf _)
    rw [ht, dues_nil] at hcount
    omega

end

/-! ## The loops -/

/-- The thread is in the body of its loop. -/
def Pc.IsInside : Pc → Bool
  | .down | .access | .up | .next => true
  | .test | .post | .finished => false

/-- The loop is behind it. -/
def Pc.IsOver : Pc → Bool
  | .post | .finished => true
  | .test | .down | .access | .up | .next => false

/-- `i` counts the rounds; with the largest number of iterations it wraps and the loop never ends. -/
structure Local.Right (n : Word) (l : Local) : Prop where
  i_eq : l.i = BitVec.ofNat 32 (l.round + 1)
  le : n.toNat + 1 < 2 ^ 32 → l.round ≤ n.toNat
  lt : n.toNat + 1 < 2 ^ 32 → l.pc.IsInside = true → l.round < n.toNat
  past : l.pc.IsOver = true → n.toNat + 1 < 2 ^ 32 ∧ l.round = n.toNat

/-- How often the thread has been at the shared value. -/
def Local.visits (l : Local) : Nat := l.round + if l.pc = .up ∨ l.pc = .next then 1 else 0

section

variable {data : TestSemaphore} {pair : Pair} {t : Tid} {d d' : Data} {c : Option Call}
  {v v' : Sync} {n : Word} {down up done : Nat} {l l' : Local}

theorem Local.Right.at {pc : Pc} (h : l.Right n) (h₁ : pc.IsInside = l.pc.IsInside)
    (h₂ : pc.IsOver = l.pc.IsOver) : Local.Right n { l with pc } :=
  ⟨h.i_eq, h.le, fun hn hp ↦ h.lt hn (h₁ ▸ hp), fun hp ↦ h.past (h₂ ▸ hp)⟩

theorem loop_right (hr : l.Right n) (h : loop n down up done l = (l', c)) : l'.Right n := by
  obtain ⟨hi, hle, hlt, hover⟩ := id hr
  unfold loop at h
  cases hpc : l.pc with
  | test =>
    simp only [hpc] at h
    cases h
    have hval : l.i.toNat = (l.round + 1) % 2 ^ 32 := by
      rw [hi]
      exact BitVec.toNat_ofNat _ _
    by_cases hin : l.i ≤ n
    · rw [if_pos hin]
      have hin : l.i.toNat ≤ n.toNat := hin
      refine ⟨hi, hle, fun hn _ ↦ ?_, fun ho ↦ by cases ho⟩
      have hround := hle hn
      show l.round < n.toNat
      omega
    · rw [if_neg hin]
      have hin : n.toNat < l.i.toNat := Nat.lt_of_not_le hin
      have hn : n.toNat + 1 < 2 ^ 32 := by
        have hlast := l.i.isLt
        omega
      refine ⟨hi, hle, fun _ ho ↦ (by cases ho), fun _ ↦ ⟨hn, ?_⟩⟩
      have hround := hle hn
      show l.round = n.toNat
      omega
  | next =>
    simp only [hpc] at h
    cases h
    refine ⟨?_, fun hn ↦ hlt hn (by rw [hpc]; rfl), fun _ ho ↦ (by cases ho), fun ho ↦ by cases ho⟩
    show l.i + 1 = BitVec.ofNat 32 (l.round + 1 + 1)
    rw [hi, BitVec.ofNat_add (l.round + 1)]
    rfl
  | finished =>
    simp only [hpc] at h
    cases h
    exact hr
  | _ =>
    simp only [hpc] at h
    cases h
    exact hr.at (by rw [hpc]; rfl) (by rw [hpc]; rfl)

/-- Only the access is a visit. -/
theorem loop_visits (h : loop n down up done l = (l', c)) :
    l'.visits = l.visits + if l.pc = .access then 1 else 0 := by
  unfold loop at h
  unfold Local.visits
  cases hpc : l.pc with
  | test =>
    simp only [hpc] at h
    cases h
    show l.round + _ = _
    split <;> simp
  | _ =>
    simp only [hpc] at h
    cases h
    simp [hpc]

end

/-! ## The invariant -/

/-- The queue in which a thread can be. -/
def spots (data : TestSemaphore) (pair : Pair) (d : Data) (t : Tid) (q : WaitQueue) : Prop :=
  (d.thread t).pc ≠ .finished →
    (t = pair.producer → q = .semaphore (.user data.semaProduce) ∧ (d.thread t).pc = .access) ∧
    (t = pair.consumer → q = .semaphore (.user data.semaConsume) ∧ (d.thread t).pc = .access)

structure Sound (data : TestSemaphore) (pair : Pair) (v : Sync) (d : Data) : Prop where
  produce : Books data.semaProduce 1 pair.producer pair.consumer d v
  consume : Books data.semaConsume 0 pair.consumer pair.producer d v
  parked : Parked (spots data pair d) v
  right : ∀ t, (d.thread t).Right data.kNumIterations
  value : d.sharedValue = BitVec.ofNat 32 (d.thread pair.producer).visits

section

variable {data : TestSemaphore} {pair : Pair} {t : Tid} {d d' : Data} {c : Option Call}
  {v v' : Sync}

theorem counts_produce (data : TestSemaphore) (hxy : pair.producer ≠ pair.consumer) :
    (program data pair).Counts (fun _ ↦ True) data.semaProduce [pair.producer, pair.consumer]
      (downsAt pair.producer) (upsAt pair.consumer) (called pair.producer pair.consumer) :=
  counts_of data.produce_ne data.ne hxy (fun _ hc ↦ .inl hc) fun h ↦ runs_turn h

theorem counts_consume (data : TestSemaphore) (hxy : pair.producer ≠ pair.consumer) :
    (program data pair).Counts (fun _ ↦ True) data.semaConsume [pair.consumer, pair.producer]
      (downsAt pair.consumer) (upsAt pair.producer) (called pair.consumer pair.producer) :=
  counts_of data.consume_ne data.ne.symm hxy.symm (fun _ hc ↦ .inr hc) fun h ↦
    ⟨(runs_turn h).1.symm, (runs_turn h).2⟩

theorem parks (data : TestSemaphore) (hxy : pair.producer ≠ pair.consumer) :
    (program data pair).Parks (spots data pair) where
  calls {t d d' c q} h op ho hq _ := by
    rcases (runs_turn h).1 with ⟨ht, hturn⟩ | ⟨ht, hturn⟩
    · refine ⟨fun _ ↦ hturn.spots op ho q hq, fun he ↦ absurd (ht.symm.trans he) hxy⟩
    · refine ⟨fun he ↦ absurd (he.symm.trans ht) hxy, fun _ ↦ hturn.spots op ho q hq⟩
  same {t d d' c u q} h hu hq := by
    unfold spots
    rw [(runs_turn h).2 u hu]
    exact hq
  done {t d q} h hpc :=
    ⟨fun ht ↦ absurd (h (.inl ht)) hpc, fun ht ↦ absurd (h (.inr ht)) hpc⟩

/-- The step lemma. -/
theorem Sound.step (h : Sound data pair v d) (hxy : pair.producer ≠ pair.consumer)
    (hs : (program data pair).Step v d v' d') : Sound data pair v' d' := by
  refine ⟨(counts_produce data hxy).step trivial h.produce hs,
    (counts_consume data hxy).step trivial h.consume hs, (parks data hxy).step h.parked hs, ?_, ?_⟩
  · cases hs with
    | kernel hs hc => exact h.right
    | @statement _ _ u c hf ht hr =>
      intro t
      by_cases htu : t = u
      · subst htu
        rcases (runs_cases hr).1 with ⟨-, hs⟩ | ⟨-, hs⟩
        · exact loop_right (h.right t) (testSemaphoreProducer_eq hs).1
        · exact loop_right (h.right t) (testSemaphoreConsumer_eq hs).1
      · rw [(runs_turn hr).2 t htu]
        exact h.right t
  · cases hs with
    | kernel hs hc => exact h.value
    | @statement _ _ u c hf ht hr =>
      rcases (runs_cases hr).1 with ⟨rfl, hs⟩ | ⟨rfl, hs⟩
      · obtain ⟨hloop, -, hvalue⟩ := testSemaphoreProducer_eq hs
        rw [hvalue, loop_visits hloop]
        by_cases hpc : (d.thread pair.producer).pc = .access
        · rw [if_pos hpc, if_pos hpc, (h.right _).i_eq]
          simp [Local.visits, hpc]
        · rw [if_neg hpc, if_neg hpc]
          exact h.value
      · obtain ⟨-, hsame, hvalue⟩ := testSemaphoreConsumer_eq hs
        rw [hvalue, hsame _ hxy]
        exact h.value

/-- The producer is never a round behind, nor two ahead. -/
theorem Sound.alternate (h : Sound data pair v d) (hxy : pair.producer ≠ pair.consumer)
    (hn : ∀ q, (v.queue q).Nodup) :
    (d.thread pair.consumer).visits ≤ (d.thread pair.producer).visits ∧
      (d.thread pair.producer).visits ≤ (d.thread pair.consumer).visits + 1 := by
  have hproduce := (h.produce.downs_le hxy (hn _)).1
  have hconsume := (h.consume.downs_le hxy.symm (hn _)).1
  have hvisits : ∀ l : Local, (l.visits : Int) = l.downs - (if l.pc = .access then 1 else 0) ∧
      l.ups ≤ l.visits := by
    intro l
    unfold Local.visits Local.downs Local.ups
    cases l.pc
    all_goals
      simp only [reduceCtorEq, or_self, or_true, or_false, ↓reduceIte]
      omega
  obtain ⟨hp, hp'⟩ := hvisits (d.thread pair.producer)
  obtain ⟨hc, hc'⟩ := hvisits (d.thread pair.consumer)
  omega

/-- The consumer finds the value of its round. -/
theorem Sound.finds (h : Sound data pair v d) (hxy : pair.producer ≠ pair.consumer)
    (hn : ∀ q, (v.queue q).Nodup) (hf : v.Free pair.consumer) (ht : v.task pair.consumer = [])
    (hpc : (d.thread pair.consumer).pc = .access) :
    d.sharedValue = (d.thread pair.consumer).i := by
  have halt := (h.alternate hxy hn).2
  have hpaid := (h.consume.downs_le hxy.symm (hn _)).2 hf ht
  have hups : (d.thread pair.producer).ups ≤ (d.thread pair.producer).visits := by
    unfold Local.visits Local.ups
    cases (d.thread pair.producer).pc
    all_goals
      simp only [reduceCtorEq, or_self, or_true, or_false, ↓reduceIte]
      omega
  have hdowns : (d.thread pair.consumer).downs = (d.thread pair.consumer).round + 1 := by
    simp [Local.downs, hpc]
  have hvisits : (d.thread pair.consumer).visits = (d.thread pair.consumer).round := by
    simp [Local.visits, hpc]
  have hround : (d.thread pair.producer).visits = (d.thread pair.consumer).round + 1 := by omega
  rw [h.value, (h.right _).i_eq, hround]

/-- The two are not both in a queue, and neither is left in one by the other. -/
theorem Sound.not_stuck (h : Sound data pair v d) (hxy : pair.producer ≠ pair.consumer)
    (hp : (d.thread pair.producer).pc = .finished ∨
      pair.producer ∈ v.queue (.semaphore (.user data.semaProduce)))
    (hc : (d.thread pair.consumer).pc = .finished ∨
      pair.consumer ∈ v.queue (.semaphore (.user data.semaConsume))) :
    (d.thread pair.producer).pc = .finished ∧ (d.thread pair.consumer).pc = .finished := by
  -- whoever is in a queue is at its access, and whoever is not owes nothing
  have hzero : ∀ {n k x y}, Books n k x y d v →
      ∀ t q, t ∈ v.queue q → dues n (v.task t) = 0 := by
    intro n k x y hb t q hq
    exact (hb.dues_eq t).resolve_right fun hd ↦ hd.2 q hq
  have hover : ∀ {n k x y}, Books n k x y d v → ∀ t, (d.thread t).pc = .finished →
      dues n (v.task t) = 0 := by
    intro n k x y hb t ht
    refine (hb.dues_eq t).resolve_right fun hd ↦ ?_
    rcases hd.1 with ⟨-, he, hp⟩ | ⟨-, he, hp⟩
    · rw [← he, ht] at hp
      cases hp
    · rw [← he, ht] at hp
      cases hp
  have hrounds : ∀ t, (d.thread t).pc = .finished →
      (d.thread t).downs = (d.thread t).round ∧ (d.thread t).ups = (d.thread t).round ∧
      ∀ u, (d.thread u).round ≤ (d.thread t).round ∧
        ((d.thread u).pc = .access → (d.thread u).round < (d.thread t).round) := by
    intro t ht
    obtain ⟨hn, hround⟩ := (h.right t).past (by rw [ht]; rfl)
    refine ⟨by simp [Local.downs, ht], by simp [Local.ups, ht], fun u ↦ ⟨?_, fun hu ↦ ?_⟩⟩
    · rw [hround]
      exact (h.right u).le hn
    · rw [hround]
      exact (h.right u).lt hn (by rw [hu]; rfl)
  have hwaits : ∀ t, (d.thread t).pc = .access →
      (d.thread t).downs = (d.thread t).round + 1 ∧ (d.thread t).ups = (d.thread t).round := by
    intro t ht
    exact ⟨by simp [Local.downs, ht], by simp [Local.ups, ht]⟩
  have hproduce := h.produce.count_eq hxy
  have hconsume := h.consume.count_eq hxy.symm
  rcases hp with hp | hp
  · rcases hc with hc | hc
    · exact ⟨hp, hc⟩
    · -- the producer has called all its ups, so the consumer's last down was paid for
      exfalso
      have hpc := (h.consume.queue _ hc).2
      have hneg := h.consume.count_neg hc
      obtain ⟨-, hups, hround⟩ := hrounds _ hp
      have hround := (hround pair.consumer).2 hpc
      have hdowns := (hwaits _ hpc).1
      rw [hzero h.consume _ _ hc, hover h.consume _ hp] at hconsume
      omega
  · exfalso
    have hpp := (h.produce.queue _ hp).2
    have hneg := h.produce.count_neg hp
    have hdowns := (hwaits _ hpp).1
    rcases hc with hc | hc
    · -- and the other way round
      obtain ⟨-, hups, hround⟩ := hrounds _ hc
      have hround := (hround pair.producer).2 hpp
      rw [hzero h.produce _ _ hp, hover h.produce _ hc] at hproduce
      omega
    · -- each would be a round ahead of the other
      have hpc := (h.consume.queue _ hc).2
      have hneg' := h.consume.count_neg hc
      have hups := (hwaits _ hpp).2
      obtain ⟨hdowns', hups'⟩ := hwaits _ hpc
      rw [hzero h.produce _ _ hp, hzero h.produce _ _ hc] at hproduce
      rw [hzero h.consume _ _ hc, hzero h.consume _ _ hp] at hconsume
      omega

end

/-! ## Every run -/

/-- `t` is one of the two and has something left to do. -/
def Working (pair : Pair) (d : Data) (t : Tid) : Prop :=
  (t = pair.producer ∨ t = pair.consumer) ∧ (d.thread t).pc ≠ .finished

structure InStep (data : TestSemaphore) (pair : Pair) (w : Program.World Data) : Prop where
  /-- the consumer's assertion does not fail -/
  asserted : (program data pair).Enabled w .statement →
    ∃ w', (program data pair).next w .statement = .ok w'
  /-- the two take turns -/
  alternate : (w.data.thread pair.consumer).visits ≤ (w.data.thread pair.producer).visits ∧
    (w.data.thread pair.producer).visits ≤ (w.data.thread pair.consumer).visits + 1
  ended : ∀ t, (w.data.thread t).pc = .finished →
    (w.data.thread t).visits = data.kNumIterations.toNat
  /-- one of the two can go on, as long as one has to -/
  awake : ∀ t, Working pair w.data t → ∃ u, Working pair w.data u ∧ w.state.status u ≠ .blocked

section

variable {data : TestSemaphore} {pair : Pair} {idle main : Tid} {threads : List Tid}
  {count : Nat → Nat} {w : Program.World Data}

theorem rests (hp : idle ≠ pair.producer) (hc : idle ≠ pair.consumer) :
    (program data pair).Rests idle := by
  rintro d (h | h)
  · exact absurd h hp
  · exact absurd h hc

theorem sound_start (hproduce : count data.semaProduce = 1) (hconsume : count data.semaConsume = 0) :
    Sound data pair (Sync.start idle count) begin := by
  have hcalled : ∀ x y t, called x y begin t = 0 := by
    intro x y t
    unfold called
    split
    · rfl
    · split <;> rfl
  have hbooks : ∀ n x y, Books n (count n) x y begin (Sync.start idle count) :=
    fun n x y ↦ Ledger.start [x, y] idle count n (hcalled x y)
  have hp := hbooks data.semaProduce pair.producer pair.consumer
  have hc := hbooks data.semaConsume pair.consumer pair.producer
  rw [hproduce] at hp
  rw [hconsume] at hc
  refine ⟨hp, hc, parked_start _ idle count, fun t ↦ ?_, rfl⟩
  exact ⟨rfl, fun _ ↦ Nat.zero_le _, fun _ ho ↦ (by cases ho), fun ho ↦ by cases ho⟩

/-- The statement of a thread that may run one does not fail. -/
theorem Sound.asserted (h : Sound data pair w.state.sync w.data)
    (hxy : pair.producer ≠ pair.consumer) (hc : Calm idle threads w.state)
    (hrest : (program data pair).Rests idle) (he : (program data pair).Enabled w .statement) :
    ∃ w', (program data pair).next w .statement = .ok w' := by
  obtain ⟨-, hfree, htask⟩ := statement_free hc hrest he
  suffices hs : ∃ d' c, (program data pair).statement w.state.currentThread w.data = .ok (d', c) by
    obtain ⟨d', c, hs⟩ := hs
    refine ⟨⟨asked w.state c, d'⟩, ?_⟩
    unfold Program.next
    simp only [hs]
    rfl
  show ∃ d' c, (if w.state.currentThread = pair.producer then
      Except.ok (testSemaphoreProducer data w.state.currentThread w.data)
    else testSemaphoreConsumer data w.state.currentThread w.data) = Except.ok (d', c)
  by_cases hp : w.state.currentThread = pair.producer
  · rw [if_pos hp]
    exact ⟨_, _, rfl⟩
  · rw [if_neg hp]
    have hcur : w.state.currentThread = pair.consumer := by
      by_contra hne
      refine he.2 fun hm ↦ ?_
      exact (hm.elim hp hne).elim
    have htrue : ((w.data.thread w.state.currentThread).pc != .access ||
        w.data.sharedValue == (w.data.thread w.state.currentThread).i) = true := by
      rw [hcur] at hfree htask ⊢
      by_cases hpc : (w.data.thread pair.consumer).pc = .access
      · simp [h.finds hxy (queue_nodup hc) hfree htask hpc]
      · simp [hpc]
    unfold testSemaphoreConsumer kernelAssert
    simp only [htrue]
    exact ⟨_, _, rfl⟩

theorem Sound.awake (h : Sound data pair w.state.sync w.data) (hxy : pair.producer ≠ pair.consumer)
    (hc : Calm idle threads w.state) (hp : pair.producer ∈ threads) (hq : pair.consumer ∈ threads)
    {t : Tid} (ht : Working pair w.data t) :
    ∃ u, Working pair w.data u ∧ w.state.status u ≠ .blocked := by
  by_contra hn
  have hblocked : ∀ u, Working pair w.data u → u ∈ threads →
      (w.data.thread u).pc ≠ .finished ∧ ∃ q, u ∈ w.state.sync.queue q := by
    intro u hu hmem
    refine ⟨hu.2, queued_of_blocked hc hmem ?_⟩
    by_contra hb
    exact hn ⟨u, hu, hb⟩
  have hproducer : (w.data.thread pair.producer).pc = .finished ∨
      pair.producer ∈ w.state.sync.queue (.semaphore (.user data.semaProduce)) := by
    by_cases hfin : (w.data.thread pair.producer).pc = .finished
    · exact .inl hfin
    · obtain ⟨-, q, hin⟩ := hblocked _ ⟨.inl rfl, hfin⟩ hp
      have hspot := ((h.parked _ q (.inl hin) hfin).1 rfl).1
      exact .inr (hspot ▸ hin)
  have hconsumer : (w.data.thread pair.consumer).pc = .finished ∨
      pair.consumer ∈ w.state.sync.queue (.semaphore (.user data.semaConsume)) := by
    by_cases hfin : (w.data.thread pair.consumer).pc = .finished
    · exact .inl hfin
    · obtain ⟨-, q, hin⟩ := hblocked _ ⟨.inr rfl, hfin⟩ hq
      have hspot := ((h.parked _ q (.inl hin) hfin).2 rfl).1
      exact .inr (hspot ▸ hin)
  obtain ⟨hf, hf'⟩ := h.not_stuck hxy hproducer hconsumer
  rcases ht with ⟨rfl | rfl, hne⟩
  · exact hne hf
  · exact hne hf'

end

end AlienOS.Test.SemaphoreTest
