import AlienOS.Test.Buffer
import AlienOS.Test.Handshake

/-!
# BoundedBuffer — the producer and the consumer of the test never lose a value and never deadlock
-/

open AlienOS.Lib

namespace AlienOS.Test

open AlienOS.Kernel

/-! ## From statement to statement -/

/-- A statement of the thread that waits on `mine`, and what it leaves to the kernel. -/
inductive Flow (data : TestCondvar) (mine other : Nat) : Pc → Pc → List Op → Prop where
  | enter : Flow data mine other .test .acquire []
  | leave : Flow data mine other .test .post []
  | acquire : Flow data mine other .acquire .check [.mutexAcquire (.user data.lock)]
  | stuck : Flow data mine other .check .wait []
  | go : Flow data mine other .check .item []
  | wait : Flow data mine other .wait .check [.condvarWait mine (.user data.lock)]
  | item : Flow data mine other .item .advance []
  | advance : Flow data mine other .advance .load []
  | load : Flow data mine other .load .count []
  | count {pc : Pc} (h : pc = .signal ∨ pc = .verify) : Flow data mine other .count pc []
  | verify : Flow data mine other .verify .signal []
  | signal : Flow data mine other .signal .release [.condvarSignal other]
  | release {pc : Pc} (h : pc = .yield ∨ pc = .next) :
    Flow data mine other .release pc [.mutexRelease (.user data.lock)]
  | yield : Flow data mine other .yield .next []
  | next : Flow data mine other .next .test []
  | post : Flow data mine other .post .finished [.semaphoreUp (.user data.done)]

section

variable {data : TestCondvar} {pair : Pair} {mine other : Nat} {x y : Tid} {pcx pcy pc pc' : Pc}
  {inside : Bool} {stuck stuck' full full' empty empty' : Prop} {v : Sync} {ops : List Op}

theorem Control.inside_eq (h : Control data mine other pc [] inside) (hp : pc ≠ .finished) :
    inside = pc.IsInside := by
  cases h with
  | outside h => cases pc <;> first | rfl | cases h
  | inside h => exact h.symm
  | finished => exact absurd rfl hp

theorem Control.flow (h : Control data mine other pc [] inside)
    (hf : Flow data mine other pc pc' ops) : Control data mine other pc' ops inside := by
  have hp : pc ≠ .finished := by
    rintro rfl
    cases hf
  have hin := h.inside_eq hp
  subst hin
  cases hf with
  | enter => exact .outside rfl
  | leave => exact .outside rfl
  | acquire => exact .entering
  | stuck => exact .inside rfl
  | go => exact .inside rfl
  | wait => exact .waits
  | item => exact .inside rfl
  | advance => exact .inside rfl
  | load => exact .inside rfl
  | count h => rcases h with rfl | rfl <;> exact .inside rfl
  | verify => exact .inside rfl
  | signal => exact .signals
  | release h => exact .releases h
  | yield => exact .outside rfl
  | next => exact .outside rfl
  | post => exact .finished (by simp [SparesAll, SparesOp])

/-- The promise of a signal is kept. -/
theorem Pending.flow (h : Pending other pc []) (hf : Flow data mine other pc pc' ops) :
    Pending other pc' ops := by
  rcases h with rfl | rfl | ⟨-, hops⟩
  · cases hf
    exact .inr (.inl rfl)
  · cases hf
    exact .inr (.inr ⟨rfl, rfl⟩)
  · cases hops

theorem Half.flow (h : Half data mine other x y pcx pcy stuck v) (hf : v.Free x)
    (ht : v.task x = []) (hflow : Flow data mine other pcx pc' ops)
    (hkeep : pcx ≠ .count → stuck → stuck') (hwait : pc' = .wait → stuck') :
    Half data mine other x y pc' pcy stuck' (v.setTask x ops) := by
  refine h.statement hf (fun inside hseat ↦ ?_) fun hw ↦ ?_
  · have hc := hseat.control
    rw [ht] at hc
    exact hc.flow hflow
  · rcases hw with hw | rfl
    · exact hwait hw
    · cases hflow with
      | wait => exact hkeep (by simp) (h.committed (.inl rfl))

theorem Half.partner_flow (h : Half data mine other x y pcx pcy stuck v)
    (hy : Seat data other mine y pcy inside v) (hxy : x ≠ y) (ht : v.task y = [])
    (hmine : mine = data.notFull ∨ mine = data.notEmpty)
    (hflow : Flow data other mine pcy pc' ops) (hkeep : pcy ≠ .count → stuck → stuck') :
    Half data mine other x y pcx pc' stuck' (v.setTask y ops) := by
  refine h.partner_statement hxy (fun hw hstuck ↦ ?_) (fun hstuck ↦ ?_) fun hp ↦ ?_
  · by_cases hcount : pcy = .count
    · -- both would hold the lock
      exfalso
      subst hcount
      have hcy := hy.control
      rw [ht] at hcy
      have hin : inside = true := hcy.inside_eq (by simp)
      have hholder := hy.holder.mpr hin
      obtain ⟨b, hx⟩ := h.seat
      have hb : b = true := by
        have hc := hx.control
        rcases hw with rfl | hw
        · generalize v.task x = ops at hc
          cases hc with
          | outside hp => cases hp
          | inside => rfl
          | releases => rfl
        · rw [hw] at hc
          cases hc with
          | waits => rfl
          | finished hsp => exact absurd List.mem_cons_self (hsp.not_wait hmine)
      rw [hx.holder.mpr hb] at hholder
      exact hxy (Option.some.inj hholder)
    · exact hkeep hcount hstuck
  · by_cases hcount : pcy = .count
    · subst hcount
      cases hflow with
      | count hp => exact .inr (hp.elim (fun hp ↦ .inr (.inl hp)) .inl)
    · exact .inl (hkeep hcount hstuck)
  · rw [ht] at hp
    exact hp.flow hflow

/-- While one of the two is inside and between two calls, the other one is not at the ring. -/
theorem Seat.counts_zero {b : Bool} (hx : Seat data mine other x pcx b v)
    (hy : Seat data other mine y pcy inside v) (hxy : x ≠ y) (ht : v.task x = [])
    (hin : pcx.IsInside = true) : pcy.counts = 0 := by
  by_contra hcounts
  have hcx := hx.control
  rw [ht] at hcx
  have hb : b = true := (hcx.inside_eq (by rintro rfl; cases hin)).trans hin
  have hcy := hy.control
  have hinside : inside = true := by
    generalize v.task y = ops at hcy
    cases hcy with
    | outside hp => cases pcy <;> first | exact absurd rfl hcounts | cases hp
    | inside => rfl
    | entering => exact absurd rfl hcounts
    | taking => exact absurd rfl hcounts
    | waits => rfl
    | waiting => exact absurd rfl hcounts
    | retaking => exact absurd rfl hcounts
    | back => rfl
    | signals => rfl
    | releases => rfl
    | finished => exact absurd rfl hcounts
  have hh := hx.holder.mpr hb
  rw [hy.holder.mpr hinside] at hh
  exact hxy (Option.some.inj hh).symm

theorem Handshake.producer_flow (h : Handshake data pair pc pcy full empty v)
    (hxy : pair.producer ≠ pair.consumer) (hf : v.Free pair.producer)
    (ht : v.task pair.producer = []) (hflow : Flow data data.notFull data.notEmpty pc pc' ops)
    (hg : Sync.Guarded (.user data.lock) (v.setTask pair.producer ops))
    (hkeep : pc ≠ .count → (full → full') ∧ (empty → empty')) (hwait : pc' = .wait → full') :
    Handshake data pair pc' pcy full' empty' (v.setTask pair.producer ops) := by
  obtain ⟨b, hseat⟩ := h.producer.seat
  refine ⟨hg, fun u h₁ h₂ ↦ ?_, h.outsiders,
    h.producer.flow hf ht hflow (fun hp ↦ (hkeep hp).1) hwait,
    h.consumer.partner_flow hseat hxy.symm ht (.inr rfl) hflow fun hp ↦ (hkeep hp).2⟩
  have htask : (v.setTask pair.producer ops).task u = v.task u := Function.update_of_ne h₁ _ _
  rw [htask]
  exact h.others u h₁ h₂

theorem Handshake.consumer_flow (h : Handshake data pair pcx pc full empty v)
    (hxy : pair.producer ≠ pair.consumer) (hf : v.Free pair.consumer)
    (ht : v.task pair.consumer = []) (hflow : Flow data data.notEmpty data.notFull pc pc' ops)
    (hg : Sync.Guarded (.user data.lock) (v.setTask pair.consumer ops))
    (hkeep : pc ≠ .count → (full → full') ∧ (empty → empty')) (hwait : pc' = .wait → empty') :
    Handshake data pair pcx pc' full' empty' (v.setTask pair.consumer ops) := by
  obtain ⟨b, hseat⟩ := h.consumer.seat
  refine ⟨hg, fun u h₁ h₂ ↦ ?_, h.outsiders,
    h.producer.partner_flow hseat hxy ht (.inl rfl) hflow fun hp ↦ (hkeep hp).1,
    h.consumer.flow hf ht hflow (fun hp ↦ (hkeep hp).2) hwait⟩
  have htask : (v.setTask pair.consumer ops).task u = v.task u := Function.update_of_ne h₂ _ _
  rw [htask]
  exact h.others u h₁ h₂

end

/-! ## The statements in the world -/

/-- A statement asks the kernel for at most one call. -/
def asked (s : State) : Option Call → State
  | none => s
  | some c => s.push c.ops

def askedOps : Option Call → List Op
  | none => []
  | some c => strip c.ops

/-- A statement leads from `pc` to `pc'` with the call `c`. -/
structure Goes (data : TestCondvar) (mine other : Nat) (s s' : State) (pc pc' : Pc)
    (c : Option Call) : Prop where
  state : s' = asked s c
  quiet : ∀ k, c = some k → k.Quiet
  flow : Flow data mine other pc pc' (askedOps c)

section

variable {data : TestCondvar} {pair : Pair} {idle : Tid} {threads : List Tid} {s : State}
  {w w' : World}

theorem asked_calm {c : Option Call} (h : Calm idle threads s) (hst : s.stack = [])
    (hi : s.currentThread ≠ s.idleThread) (hq : ∀ k, c = some k → k.Quiet) :
    Calm idle threads (asked s c) ∧
      (asked s c).sync = s.sync.setTask s.currentThread (askedOps c) ∧
        ∀ mutex, Sync.Guarded mutex s.sync → Sync.Guarded mutex (asked s c).sync := by
  cases c with
  | none =>
    refine ⟨h, ?_, fun _ hg ↦ hg⟩
    have htask : s.sync.task s.currentThread = [] := by
      rw [sync_task_current, hst]
      rfl
    show s.sync = s.sync.setTask s.currentThread []
    rw [← htask]
    simp [Sync.setTask]
  | some k =>
    obtain ⟨hc, hstep⟩ := h.call (hq k rfl) ⟨hst, hi⟩
    refine ⟨hc, ?_, fun _ hg ↦ hg.step hstep⟩
    show (s.push k.ops).sync = _
    generalize (s.push k.ops).sync = v at hstep
    cases hstep
    rfl

theorem producer_goes (data : TestCondvar) (h₁ : w.producer.pc ≠ .verify) (h₂ : w.producer.pc ≠ .finished) :
    ∃ c, Goes data data.notFull data.notEmpty w.state (testCondvarProducer data w).state
        w.producer.pc (testCondvarProducer data w).producer.pc c ∧
      (testCondvarProducer data w).consumer.pc = w.consumer.pc ∧
      (w.producer.pc ≠ .count → (testCondvarProducer data w).ring.size = w.ring.size) ∧
      ((testCondvarProducer data w).producer.pc = .wait →
        (testCondvarProducer data w).ring.size = bufferSize) := by
  unfold testCondvarProducer
  cases hpc : w.producer.pc with
  | test =>
    by_cases hi : w.producer.i ≤ data.kNumIterations
    · simp only [if_pos hi]
      exact ⟨none, ⟨rfl, by simp, .enter⟩, rfl, fun _ ↦ rfl, fun he ↦ by cases he⟩
    · simp only [if_neg hi]
      exact ⟨none, ⟨rfl, by simp, .leave⟩, rfl, fun _ ↦ rfl, fun he ↦ by cases he⟩
  | acquire =>
    exact ⟨some (.mutexAcquire data.lock), ⟨rfl, by simp [Call.Quiet], .acquire⟩, rfl,
      fun _ ↦ rfl, fun he ↦ by cases he⟩
  | check =>
    by_cases hi : w.ring.size = bufferSize
    · simp only [if_pos hi]
      exact ⟨none, ⟨rfl, by simp, .stuck⟩, rfl, fun _ ↦ rfl, fun _ ↦ hi⟩
    · simp only [if_neg hi]
      exact ⟨none, ⟨rfl, by simp, .go⟩, rfl, fun _ ↦ rfl, fun he ↦ by cases he⟩
  | wait =>
    exact ⟨some (.condvarWait data.notFull data.lock), ⟨rfl, by simp [Call.Quiet], .wait⟩, rfl,
      fun _ ↦ rfl, fun he ↦ by cases he⟩
  | item => exact ⟨none, ⟨rfl, by simp, .item⟩, rfl, fun _ ↦ rfl, fun he ↦ by cases he⟩
  | advance => exact ⟨none, ⟨rfl, by simp, .advance⟩, rfl, fun _ ↦ rfl, fun he ↦ by cases he⟩
  | load => exact ⟨none, ⟨rfl, by simp, .load⟩, rfl, fun _ ↦ rfl, fun he ↦ by cases he⟩
  | count =>
    exact ⟨none, ⟨rfl, by simp, .count (.inl rfl)⟩, rfl, fun hne ↦ absurd rfl hne,
      fun he ↦ by cases he⟩
  | signal =>
    exact ⟨some (.condvarSignal data.notEmpty), ⟨rfl, by simp [Call.Quiet], .signal⟩, rfl,
      fun _ ↦ rfl, fun he ↦ by cases he⟩
  | release =>
    exact ⟨some (.mutexRelease data.lock), ⟨rfl, by simp [Call.Quiet], .release (.inl rfl)⟩, rfl,
      fun _ ↦ rfl, fun he ↦ by cases he⟩
  | yield =>
    exact ⟨some .threadYield, ⟨rfl, by simp [Call.Quiet], .yield⟩, rfl, fun _ ↦ rfl,
      fun he ↦ by cases he⟩
  | next => exact ⟨none, ⟨rfl, by simp, .next⟩, rfl, fun _ ↦ rfl, fun he ↦ by cases he⟩
  | post =>
    exact ⟨some (.semaphoreUp data.done), ⟨rfl, by simp [Call.Quiet], .post⟩, rfl, fun _ ↦ rfl,
      fun he ↦ by cases he⟩
  | verify => exact absurd hpc h₁
  | finished => exact absurd hpc h₂

theorem consumer_goes (h₁ : w.consumer.pc ≠ .yield) (h₂ : w.consumer.pc ≠ .finished)
    (hs : testCondvarConsumer data w = .ok w') :
    ∃ c, Goes data data.notEmpty data.notFull w.state w'.state w.consumer.pc w'.consumer.pc c ∧
      w'.producer.pc = w.producer.pc ∧
      (w.consumer.pc ≠ .count → w'.ring.size = w.ring.size) ∧
      (w'.consumer.pc = .wait → w'.ring.size = 0) := by
  unfold testCondvarConsumer at hs
  cases hpc : w.consumer.pc with
  | test =>
    simp only [hpc] at hs
    cases hs
    by_cases hi : w.consumer.i ≤ data.kNumIterations
    · simp only [if_pos hi]
      exact ⟨none, ⟨rfl, by simp, .enter⟩, rfl, fun _ ↦ rfl, fun he ↦ by cases he⟩
    · simp only [if_neg hi]
      exact ⟨none, ⟨rfl, by simp, .leave⟩, rfl, fun _ ↦ rfl, fun he ↦ by cases he⟩
  | acquire =>
    simp only [hpc] at hs
    cases hs
    exact ⟨some (.mutexAcquire data.lock), ⟨rfl, by simp [Call.Quiet], .acquire⟩, rfl,
      fun _ ↦ rfl, fun he ↦ by cases he⟩
  | check =>
    simp only [hpc] at hs
    cases hs
    by_cases hi : w.ring.size = 0
    · simp only [if_pos hi]
      exact ⟨none, ⟨rfl, by simp, .stuck⟩, rfl, fun _ ↦ rfl, fun _ ↦ hi⟩
    · simp only [if_neg hi]
      exact ⟨none, ⟨rfl, by simp, .go⟩, rfl, fun _ ↦ rfl, fun he ↦ by cases he⟩
  | wait =>
    simp only [hpc] at hs
    cases hs
    exact ⟨some (.condvarWait data.notEmpty data.lock), ⟨rfl, by simp [Call.Quiet], .wait⟩, rfl,
      fun _ ↦ rfl, fun he ↦ by cases he⟩
  | item =>
    simp only [hpc] at hs
    cases hs
    exact ⟨none, ⟨rfl, by simp, .item⟩, rfl, fun _ ↦ rfl, fun he ↦ by cases he⟩
  | advance =>
    simp only [hpc] at hs
    cases hs
    exact ⟨none, ⟨rfl, by simp, .advance⟩, rfl, fun _ ↦ rfl, fun he ↦ by cases he⟩
  | load =>
    simp only [hpc] at hs
    cases hs
    exact ⟨none, ⟨rfl, by simp, .load⟩, rfl, fun _ ↦ rfl, fun he ↦ by cases he⟩
  | count =>
    simp only [hpc] at hs
    cases hs
    exact ⟨none, ⟨rfl, by simp, .count (.inr rfl)⟩, rfl, fun hne ↦ absurd rfl hne,
      fun he ↦ by cases he⟩
  | verify =>
    simp only [hpc] at hs
    obtain ⟨_, _, hs⟩ := bind_eq_ok.mp hs
    cases hs
    exact ⟨none, ⟨rfl, by simp, .verify⟩, rfl, fun _ ↦ rfl, fun he ↦ by cases he⟩
  | signal =>
    simp only [hpc] at hs
    cases hs
    exact ⟨some (.condvarSignal data.notFull), ⟨rfl, by simp [Call.Quiet], .signal⟩, rfl,
      fun _ ↦ rfl, fun he ↦ by cases he⟩
  | release =>
    simp only [hpc] at hs
    cases hs
    exact ⟨some (.mutexRelease data.lock), ⟨rfl, by simp [Call.Quiet], .release (.inr rfl)⟩, rfl,
      fun _ ↦ rfl, fun he ↦ by cases he⟩
  | next =>
    simp only [hpc] at hs
    cases hs
    exact ⟨none, ⟨rfl, by simp, .next⟩, rfl, fun _ ↦ rfl, fun he ↦ by cases he⟩
  | post =>
    simp only [hpc] at hs
    cases hs
    exact ⟨some (.semaphoreUp data.done), ⟨rfl, by simp [Call.Quiet], .post⟩, rfl, fun _ ↦ rfl,
      fun he ↦ by cases he⟩
  | yield => exact absurd hpc h₁
  | finished => exact absurd hpc h₂

end

/-! ## The invariant -/

/-- The kernel, the two threads and the ring agree. -/
structure Sound (data : TestCondvar) (pair : Pair) (idle : Tid) (threads : List Tid) (w : World) :
    Prop where
  calm : Calm idle threads w.state
  handshake : Handshake data pair w.producer.pc w.consumer.pc (w.ring.size = bufferSize)
    (w.ring.size = 0) w.state.sync
  books : Books data w

/-- Two threads of the kernel with two condition variables. -/
structure Pair.Apart (data : TestCondvar) (pair : Pair) (threads : List Tid) : Prop where
  ne : pair.producer ≠ pair.consumer
  producer : pair.producer ∈ threads
  consumer : pair.consumer ∈ threads
  condvars : data.notFull ≠ data.notEmpty

namespace Sound

variable {data : TestCondvar} {pair : Pair} {idle : Tid} {threads : List Tid} {w w' : World}
  {a : Action}

theorem not_idle (h : Sound data pair idle threads w) {t : Tid} (ht : t ∈ threads) :
    t ≠ w.state.idleThread := by
  rintro rfl
  apply h.calm.placed.standing.idle_not_mem
  rwa [h.calm.threads_eq]

theorem task_nil (hst : w.state.stack = []) :
    w.state.sync.task w.state.currentThread = [] := by
  rw [sync_task_current, hst]
  rfl

theorem machine (h : Sound data pair idle threads w) (ha : pair.Apart data threads)
    (he : w.Enabled data pair (.machine a)) (hs : w.next data pair (.machine a) = .ok w') :
    Sound data pair idle threads w' := by
  obtain ⟨hen, hcall⟩ := he
  obtain ⟨s', hrun, hw⟩ := bind_eq_ok.mp hs
  cases hw
  have hq : Quiet w.state a := by
    intro c hc
    have hsp := (hcall c hc).1
    refine ⟨?_, ?_⟩ <;> rintro rfl <;> exact hsp
  obtain ⟨hcalm, hseen⟩ := h.calm.step hq hen hrun
  refine ⟨hcalm, ?_, ⟨h.books.producer, h.books.consumer, h.books.filled, h.books.val,
    h.books.producerSize, h.books.consumerSize⟩⟩
  rcases hseen with hsame | ⟨act, hact, hstep⟩
  · rw [hsame]
    exact h.handshake
  · apply h.handshake.step ha.ne ha.condvars (fun c ↦ ?_) hstep fun c hc ↦ ?_
    · rw [State.sync_queue]
      exact h.calm.placed.rep.nodup _
    · subst hc
      cases a with
      | call k =>
        cases hact
        exact hcall _ rfl
      | exec =>
        have hhead : (w.state.stack.head?.map Act.exec) = some (.call c) := hact
        cases hst : w.state.stack with
        | nil =>
          rw [hst] at hhead
          cases hhead
        | cons op ops =>
          rw [hst] at hhead
          cases hhead
      | interrupt => cases hact
      | alloc t => cases hact

/-- The consumer at its statements is alone at the ring, and so is the producer. -/
theorem producer_alone (h : Sound data pair idle threads w) (ha : pair.Apart data threads)
    (hst : w.state.stack = []) (hcur : w.state.currentThread = pair.producer)
    (hin : w.producer.pc.IsInside = true) : w.consumer.pc.counts = 0 := by
  obtain ⟨_, hp⟩ := h.handshake.producer.seat
  obtain ⟨_, hc⟩ := h.handshake.consumer.seat
  exact hp.counts_zero hc ha.ne (hcur ▸ task_nil hst) hin

theorem consumer_alone (h : Sound data pair idle threads w) (ha : pair.Apart data threads)
    (hst : w.state.stack = []) (hcur : w.state.currentThread = pair.consumer)
    (hin : w.consumer.pc.IsInside = true) : w.producer.pc.counts = 0 := by
  obtain ⟨_, hp⟩ := h.handshake.producer.seat
  obtain ⟨_, hc⟩ := h.handshake.consumer.seat
  exact hc.counts_zero hp ha.ne.symm (hcur ▸ task_nil hst) hin

theorem producer_statement (h : Sound data pair idle threads w) (ha : pair.Apart data threads)
    (hst : w.state.stack = []) (hcur : w.state.currentThread = pair.producer) :
    Sound data pair idle threads (testCondvarProducer data w) := by
  by_cases hstay : w.producer.pc = .verify ∨ w.producer.pc = .finished
  · have hsame : testCondvarProducer data w = w := by
      unfold testCondvarProducer
      rcases hstay with hpc | hpc <;> simp only [hpc]
    rwa [hsame]
  · obtain ⟨h₁, h₂⟩ := not_or.mp hstay
    obtain ⟨c, hgoes, hcons, hsize, hwait⟩ := producer_goes data h₁ h₂
    have hidle : w.state.currentThread ≠ w.state.idleThread := by
      rw [hcur]
      exact h.not_idle ha.producer
    obtain ⟨hcalm, hsync, hg⟩ := asked_calm h.calm hst hidle hgoes.quiet
    refine ⟨by rw [hgoes.state]; exact hcalm, ?_,
      h.books.producer_statement (h.producer_alone ha hst hcur)⟩
    have hguarded := hg _ h.handshake.guarded
    rw [hgoes.state, hcons]
    rw [hsync, hcur] at hguarded ⊢
    apply h.handshake.producer_flow ha.ne (hcur ▸ h.calm.sync_free (h.calm.running_nil hst))
      (hcur ▸ task_nil hst) hgoes.flow hguarded (fun hpc ↦ ?_) hwait
    rw [hsize hpc]
    exact ⟨id, id⟩

theorem consumer_statement (h : Sound data pair idle threads w) (ha : pair.Apart data threads)
    (hst : w.state.stack = []) (hcur : w.state.currentThread = pair.consumer) :
    ∃ w', testCondvarConsumer data w = .ok w' ∧ Sound data pair idle threads w' := by
  obtain ⟨w', hrun, hbooks⟩ := h.books.consumer_statement (h.consumer_alone ha hst hcur)
  refine ⟨w', hrun, ?_⟩
  by_cases hstay : w.consumer.pc = .yield ∨ w.consumer.pc = .finished
  · have hsame : testCondvarConsumer data w = .ok w := by
      unfold testCondvarConsumer
      rcases hstay with hpc | hpc <;> simp only [hpc]
    rw [hsame] at hrun
    cases hrun
    exact h
  · obtain ⟨h₁, h₂⟩ := not_or.mp hstay
    obtain ⟨c, hgoes, hprod, hsize, hwait⟩ := consumer_goes h₁ h₂ hrun
    have hidle : w.state.currentThread ≠ w.state.idleThread := by
      rw [hcur]
      exact h.not_idle ha.consumer
    obtain ⟨hcalm, hsync, hg⟩ := asked_calm h.calm hst hidle hgoes.quiet
    refine ⟨by rw [hgoes.state]; exact hcalm, ?_, hbooks⟩
    have hguarded := hg _ h.handshake.guarded
    rw [hgoes.state, hprod]
    rw [hsync, hcur] at hguarded ⊢
    apply h.handshake.consumer_flow ha.ne (hcur ▸ h.calm.sync_free (h.calm.running_nil hst))
      (hcur ▸ task_nil hst) hgoes.flow hguarded (fun hpc ↦ ?_) hwait
    rw [hsize hpc]
    exact ⟨id, id⟩

theorem step (h : Sound data pair idle threads w) (ha : pair.Apart data threads) {m : Move}
    (he : w.Enabled data pair m) (hs : w.next data pair m = .ok w') :
    Sound data pair idle threads w' := by
  cases m with
  | machine a => exact h.machine ha he hs
  | statement =>
    obtain ⟨hst, hcur⟩ := he
    unfold World.next at hs
    by_cases hp : w.state.currentThread = pair.producer
    · simp only [if_pos hp] at hs
      cases hs
      exact h.producer_statement ha hst hp
    · have hc : w.state.currentThread = pair.consumer :=
        (hcur.resolve_left fun hcp ↦ hp hcp.1).1
      simp only [if_neg hp] at hs
      obtain ⟨w'', hrun, hsound⟩ := h.consumer_statement ha hst hc
      rw [hrun] at hs
      cases hs
      exact hsound

end Sound

/-! ## Every run -/

/-- The loop of the thread is not over. -/
def World.Unfinished (pair : Pair) (w : World) (t : Tid) : Prop :=
  t = pair.producer ∧ w.producer.pc ≠ .finished ∨ t = pair.consumer ∧ w.consumer.pc ≠ .finished

structure Correct (data : TestCondvar) (pair : Pair) (w : World) : Prop where
  size_eq : w.state.holder (.user data.lock) = none →
    w.ring.size.toNat + w.consumed.length = w.produced.length
  size_le : w.ring.size.toNat ≤ 8
  /-- the values come out as they went in, each once -/
  inOrder : w.consumed <+: w.produced
  consumed : ∀ i (hi : i < w.consumed.length), w.consumed[i] = BitVec.ofNat 32 (i + 1)
  asserted : w.Enabled data pair .statement → ∀ e, w.next data pair .statement ≠ .error e
  /-- one of the two can go on, as long as one of them has to -/
  awake : ∀ t, w.Unfinished pair t → ∃ u, w.Unfinished pair u ∧ w.state.status u ≠ .blocked

section

variable {data : TestCondvar} {pair : Pair} {idle main : Tid} {threads : List Tid}
  {count : Nat → Nat} {w : World}

theorem firsts_prefix {m n : Nat} (h : m ≤ n) : firsts m <+: firsts n := by
  obtain ⟨k, rfl⟩ := Nat.exists_eq_add_of_le h
  refine ⟨(List.range k).map fun j ↦ BitVec.ofNat 32 (m + j + 1), ?_⟩
  simp [firsts, List.range_add]

theorem handshake_start (hxy : pair.producer ≠ idle) (hcy : pair.consumer ≠ idle)
    {full empty : Prop} :
    Handshake data pair .test .test full empty (Sync.start idle count) := by
  have htask : ∀ t, t ≠ idle → (Sync.start idle count).task t = [] := by
    intro t ht
    simp [Sync.start, ht]
  have hseat : ∀ t mine other, t ≠ idle →
      Seat data mine other t .test false (Sync.start idle count) := by
    intro t mine other ht
    apply Seat.outside_of
    · rw [htask t ht]
      exact .outside rfl
    · exact fun hh ↦ by cases hh
    · exact fun _ q hq ↦ by cases hq
  refine ⟨(Sync.locked_start _ idle count).guarded, fun u _ _ ↦ ?_, fun u hu ↦ (by cases hu),
    ⟨⟨false, hseat _ _ _ hxy⟩, fun t ht ↦ (by cases ht), ?_, fun hq ↦ (by cases hq)⟩,
    ⟨⟨false, hseat _ _ _ hcy⟩, fun t ht ↦ (by cases ht), ?_, fun hq ↦ (by cases hq)⟩⟩
  · by_cases hu : u = idle
    · simp [Sync.start, hu, SparesAll, SparesOp]
    · rw [htask u hu]
      simp [SparesAll]
  · rw [htask _ hxy]
    simp
  · rw [htask _ hcy]
    simp

theorem books_start : Books data (World.start idle main threads count) := by
  have hprogress : Progress data.kNumIterations ⟨.test, 1, 0, 0⟩ [] :=
    ⟨rfl, rfl, fun _ ↦ Nat.zero_le _, fun hl ↦ (by cases hl), fun ho ↦ (by cases ho)⟩
  refine ⟨hprogress, hprogress, ⟨Nat.le_refl _, ?_, ?_, rfl, ?_, rfl, rfl, ?_, ?_, ?_⟩, ?_, ?_, ?_⟩
  · show 0 + 0 ≤ 0 + 8
    decide
  · show (0 : Word).toNat < 8
    decide
  · show (0 : Word).toNat < 8
    decide
  · exact fun j _ hj ↦ absurd hj (Nat.not_lt_zero j)
  · exact fun he ↦ by cases he
  · exact fun he ↦ by cases he
  · exact fun he ↦ by cases he
  · exact fun he ↦ by cases he
  · exact fun he ↦ by cases he

theorem sound_start (hd : Distinct idle main threads) (ha : pair.Apart data (threads.reverse ++ [main])) :
    Sound data pair idle (threads.reverse ++ [main]) (World.start idle main threads count) := by
  have hcalm := calm_boot count hd
  have hne : ∀ t ∈ threads.reverse ++ [main], t ≠ idle := by
    rintro t ht rfl
    apply hcalm.placed.standing.idle_not_mem
    rwa [hcalm.idle_eq, hcalm.threads_eq]
  refine ⟨hcalm, ?_, books_start⟩
  show Handshake data pair .test .test _ _ (boot idle main threads count).sync
  rw [boot_sync count hd]
  exact handshake_start (hne _ ha.producer) (hne _ ha.consumer)

/-- The run lemma. -/
theorem World.Reachable.sound {w₀ : World} (hr : World.Reachable data pair w₀ w)
    (ha : pair.Apart data threads) (h₀ : Sound data pair idle threads w₀) :
    Sound data pair idle threads w := by
  induction hr with
  | start => exact h₀
  | step _ he hs ih => exact ih.step ha he hs

namespace Sound

/-- While the lock is free nobody is between the buffer and the size. -/
theorem size_eq (h : Sound data pair idle threads w)
    (hfree : w.state.holder (.user data.lock) = none) :
    w.ring.size.toNat + w.consumed.length = w.produced.length := by
  have hout : ∀ {mine other : Nat} {x : Tid} {pc : Pc} {inside : Bool},
      Seat data mine other x pc inside w.state.sync → pc.counts = 0 := by
    intro mine other x pc inside hseat
    have hin : inside ≠ true := by
      intro he
      have hh := hseat.holder.mpr he
      have hh' : w.state.holder (.user data.lock) = some x := hh
      rw [hfree] at hh'
      cases hh'
    have hc := hseat.control
    generalize w.state.sync.task x = ops at hc
    cases hc with
    | outside hp => cases pc <;> first | rfl | cases hp
    | inside => exact absurd rfl hin
    | releases => exact absurd rfl hin
    | _ => rfl
  obtain ⟨_, hp⟩ := h.handshake.producer.seat
  obtain ⟨_, hc⟩ := h.handshake.consumer.seat
  have hsize := h.books.filled.size
  rw [hout hp, hout hc] at hsize
  exact hsize

/-- A blocked thread is in a queue. -/
theorem queued_of_blocked (h : Sound data pair idle threads w) {t : Tid} (ht : t ∈ threads)
    (hb : w.state.status t = .blocked) : ∃ q, t ∈ w.state.sync.queue q := by
  obtain ⟨q, hq⟩ := h.calm.waits_of_blocked (.inr ht) hb
  refine ⟨q, ?_⟩
  rw [State.sync_queue]
  exact (h.calm.placed.agrees _ _).mpr hq

theorem awake (h : Sound data pair idle threads w) (ha : pair.Apart data threads) (t : Tid)
    (ht : w.Unfinished pair t) : ∃ u, w.Unfinished pair u ∧ w.state.status u ≠ .blocked := by
  by_contra hall
  have hblocked : ∀ u, w.Unfinished pair u → w.state.status u = .blocked := by
    intro u hu
    by_contra hn
    exact hall ⟨u, hu, hn⟩
  have hp : w.producer.pc = .finished ∨ ∃ q, pair.producer ∈ w.state.sync.queue q := by
    by_cases hfin : w.producer.pc = .finished
    · exact .inl hfin
    · exact .inr (h.queued_of_blocked ha.producer (hblocked _ (.inl ⟨rfl, hfin⟩)))
  have hc : w.consumer.pc = .finished ∨ ∃ q, pair.consumer ∈ w.state.sync.queue q := by
    by_cases hfin : w.consumer.pc = .finished
    · exact .inl hfin
    · exact .inr (h.queued_of_blocked ha.consumer (hblocked _ (.inr ⟨rfl, hfin⟩)))
  obtain ⟨hfull, hempty⟩ := h.handshake.sleepers hp hc
  have hfilled := h.books.filled
  have hsize := hfilled.size
  rcases hfull with hpf | ⟨hfull, hpc⟩
  · rcases hempty with hcf | ⟨hempty, hcc⟩
    · -- both are done
      rcases ht with ⟨-, ht⟩ | ⟨-, ht⟩
      · exact ht hpf
      · exact ht hcf
    · -- all has been produced and consumed, and yet the consumer is in its loop
      obtain ⟨hn, hlen⟩ := h.books.producer.ended (by rw [hpf]; rfl)
      have hle : w.consumer.i.toNat ≤ data.kNumIterations.toNat :=
        h.books.consumer.inLoop (by rw [hcc]; rfl)
      have hindex := h.books.consumer.toNat_index hn (by rw [hcc]; rfl)
      rw [hpf, hcc, hempty] at hsize
      simp only [Pc.counts] at hsize
      have hzero : (0 : Word).toNat = 0 := rfl
      omega
  · obtain hcf | ⟨hempty, hcc⟩ := hempty
    · -- nothing is left to consume and the buffer is full
      obtain ⟨hn, hlen⟩ := h.books.consumer.ended (by rw [hcf]; rfl)
      have hbound := h.books.producer.bound hn
      rw [hpc, hcf, hfull] at hsize
      simp only [Pc.counts] at hsize
      have height : bufferSize.toNat = 8 := rfl
      omega
    · rw [hfull] at hempty
      cases hempty

end Sound

end

end AlienOS.Test
