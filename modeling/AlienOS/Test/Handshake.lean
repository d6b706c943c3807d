import AlienOS.Test.Control

/-!
# Handshake — what the two threads owe each other

A thread that waits is stuck or about to be woken, and a thread that is stuck has not been forgotten.
-/

open AlienOS.Lib

namespace AlienOS.Test

open AlienOS.Kernel

/-- A thread at these statements signals `mine` before it gives up the lock. -/
def Pending (mine : Nat) (pc : Pc) (ops : List Op) : Prop :=
  pc = .verify ∨ pc = .signal ∨ pc = .release ∧ ops = [.condvarSignal mine]

/-- Thread `x` waits on `mine` only as long as it is `stuck`, or `y` is about to wake it. -/
structure Half (data : TestCondvar) (mine other : Nat) (x y : Tid) (pcx pcy : Pc) (stuck : Prop)
    (v : Sync) : Prop where
  seat : ∃ inside, Seat data mine other x pcx inside v
  alone : ∀ t ∈ v.queue (.condvar mine), t = x
  committed : pcx = .wait ∨ v.task x = [.condvarWait mine (.user data.lock)] → stuck
  owed : x ∈ v.queue (.condvar mine) → stuck ∨ Pending mine pcy (v.task y)

section

variable {data : TestCondvar} {mine other : Nat} {x y u : Tid} {pcx pcy pc' : Pc} {inside : Bool}
  {stuck stuck' : Prop} {v v' : Sync} {act : Act} {op : Op} {ops : List Op} {m : MutexRef}

theorem SparesAll.not_wait (h : SparesAll data ops)
    (hmine : mine = data.notFull ∨ mine = data.notEmpty) : .condvarWait mine m ∉ ops := by
  intro hop
  obtain ⟨-, h₁, h₂⟩ := h _ hop
  exact hmine.elim h₁ h₂

/-- A thread waits on its own condition variable only. -/
theorem Seat.waits_on {c : Nat} (h : Seat data mine other x pcx inside v)
    (hc : c = data.notFull ∨ c = data.notEmpty) (ht : v.task x = .condvarWait c m :: ops) :
    c = mine ∧ v.task x = [.condvarWait mine (.user data.lock)] := by
  have hcontrol := h.control
  rw [ht] at hcontrol ⊢
  cases hcontrol with
  | waits => exact ⟨rfl, rfl⟩
  | finished hsp => exact absurd List.mem_cons_self (hsp.not_wait hc)

theorem Seat.setTask_ne (h : Seat data mine other x pcx inside v) (hxy : x ≠ y) :
    Seat data mine other x pcx inside (v.setTask y ops) := by
  have htask : (v.setTask y ops).task x = v.task x := Function.update_of_ne hxy _ _
  refine ⟨by rw [htask]; exact h.control, h.holder, h.count, ?_⟩
  rw [htask]
  exact h.queued

namespace Half

/-- Its own step in the kernel. -/
theorem exec (h : Half data mine other x y pcx pcy stuck v)
    (hmine : mine = data.notFull ∨ mine = data.notEmpty)
    (hg : Sync.Guarded (.user data.lock) v) (hs : Sync.Step x (.exec op) v v') :
    Half data mine other x y pcx pcy stuck v' := by
  obtain ⟨inside, hseat⟩ := h.seat
  obtain ⟨hseat', hnot⟩ := hseat.exec hg hs
  refine ⟨hseat', fun t ht ↦ ?_, fun hw ↦ ?_, fun hq ↦ .inl ?_⟩
  · rcases hs.joins_condvar ht with hq | ⟨ht, -⟩
    · exact h.alone t hq
    · exact ht
  · rcases hw with rfl | hw
    · -- between the test of the loop and the call there is no kernel
      obtain ⟨b, ops, htask, -⟩ := hs.task_self
      have hc := hseat.control
      rw [htask] at hc
      cases hc with
      | releases hp => rcases hp with hp | hp <;> cases hp
    · exact absurd hw hnot
  · rcases hs.joins_condvar hq with hq | ⟨-, m, ops, ht⟩
    · exact absurd hq (hs.free _)
    · exact h.committed (.inr (hseat.waits_on hmine ht).2)

/-- Its call, when it is done. -/
theorem call {c : Call} (h : Half data mine other x y .finished pcy stuck v)
    (hmine : mine = data.notFull ∨ mine = data.notEmpty) (hs : Sync.Step x (.call c) v v')
    (hc : Spares data c) : Half data mine other x y .finished pcy stuck v' := by
  obtain ⟨inside, hseat⟩ := h.seat
  cases hs with
  | call hq hf ht =>
    refine ⟨⟨inside, hseat.call (.call hq hf ht) hc⟩, h.alone, fun hw ↦ ?_,
      fun hq ↦ absurd hq (hf _)⟩
    rcases hw with hw | hw
    · cases hw
    · have htask : (v.setTask x (strip c.ops)).task x = strip c.ops := Function.update_self _ _ _
      have hspares := (spares_call hc).strip
      rw [← htask, hw] at hspares
      exact absurd List.mem_cons_self (hspares.not_wait hmine)

/-- A step of the partner. -/
theorem partner (h : Half data mine other x y pcx pcy stuck v)
    (hy : Seat data other mine y pcy inside v) (hxy : x ≠ y) (hne : mine ≠ other)
    (hmine : mine = data.notFull ∨ mine = data.notEmpty)
    (hg : Sync.Guarded (.user data.lock) v) (hnodup : (v.queue (.condvar mine)).Nodup)
    (hs : Sync.Step y act v v') (hact : ∀ c, act = .call c → pcy = .finished) :
    Half data mine other x y pcx pcy stuck v' := by
  obtain ⟨b, hseat⟩ := h.seat
  have htask := hs.task_of_ne hxy
  have hold : ∀ t ∈ v'.queue (.condvar mine), t ∈ v.queue (.condvar mine) := by
    intro t ht
    rcases hs.joins_condvar ht with hq | ⟨-, m, ops, htask⟩
    · exact hq
    · exact absurd (hy.waits_on hmine htask).1 hne
  refine ⟨⟨b, hseat.other_step hg hs hxy⟩, fun t ht ↦ h.alone t (hold t ht), ?_, fun hq ↦ ?_⟩
  · rw [htask]
    exact h.committed
  · rcases h.owed (hold x hq) with hstuck | hp | hp | ⟨hp, hops⟩
    · exact .inl hstuck
    · exact .inr (.inl hp)
    · exact .inr (.inr (.inl hp))
    · exfalso
      cases act with
      | call c =>
        have hfin := hact c rfl
        rw [hp] at hfin
        cases hfin
      | exec op =>
        obtain ⟨_, ops, ht, -⟩ := hs.task_self
        rw [hops] at ht
        cases ht
        -- `x` is the only thread on the queue
        rw [hs.signalled] at hq
        cases hv : v.queue (.condvar mine) with
        | nil =>
          rw [hv] at hq
          cases hq
        | cons z zs =>
          rw [hv] at hq hnodup
          have hz : z = x := h.alone z (by rw [hv]; exact List.mem_cons_self)
          subst hz
          exact (List.nodup_cons.mp hnodup).1 hq

/-- A step of anyone else. -/
theorem third (h : Half data mine other x y pcx pcy stuck v) (hux : x ≠ u) (huy : y ≠ u)
    (hmine : mine = data.notFull ∨ mine = data.notEmpty) (hu : SparesAll data (v.task u))
    (hg : Sync.Guarded (.user data.lock) v) (hs : Sync.Step u act v v') :
    Half data mine other x y pcx pcy stuck v' := by
  obtain ⟨b, hseat⟩ := h.seat
  have hold : ∀ t ∈ v'.queue (.condvar mine), t ∈ v.queue (.condvar mine) := by
    intro t ht
    rcases hs.joins_condvar ht with hq | ⟨-, m, ops, htask⟩
    · exact hq
    · rw [htask] at hu
      exact absurd List.mem_cons_self (hu.not_wait hmine)
  refine ⟨⟨b, hseat.other_step hg hs hux⟩, fun t ht ↦ h.alone t (hold t ht), ?_, fun hq ↦ ?_⟩
  · rw [hs.task_of_ne hux]
    exact h.committed
  · rw [hs.task_of_ne huy]
    exact h.owed (hold x hq)

/-- A statement of its own. -/
theorem statement (h : Half data mine other x y pcx pcy stuck v) (hf : v.Free x)
    (hc : ∀ inside, Seat data mine other x pcx inside v → Control data mine other pc' ops inside)
    (hstuck : pc' = .wait ∨ ops = [.condvarWait mine (.user data.lock)] → stuck') :
    Half data mine other x y pc' pcy stuck' (v.setTask x ops) := by
  obtain ⟨inside, hseat⟩ := h.seat
  refine ⟨⟨inside, hseat.statement hf (hc inside hseat)⟩, h.alone, ?_, fun hq ↦ absurd hq (hf _)⟩
  have htask : (v.setTask x ops).task x = ops := Function.update_self _ _ _
  rw [htask]
  exact hstuck

/-- A statement of the partner. -/
theorem partner_statement (h : Half data mine other x y pcx pcy stuck v) (hxy : x ≠ y)
    (hc : pcx = .wait ∨ v.task x = [.condvarWait mine (.user data.lock)] → stuck → stuck')
    (howed : stuck → stuck' ∨ Pending mine pc' ops)
    (hp : Pending mine pcy (v.task y) → Pending mine pc' ops) :
    Half data mine other x y pcx pc' stuck' (v.setTask y ops) := by
  obtain ⟨inside, hseat⟩ := h.seat
  refine ⟨⟨inside, hseat.setTask_ne hxy⟩, h.alone, ?_, fun hq ↦ ?_⟩
  · have htask : (v.setTask y ops).task x = v.task x := Function.update_of_ne hxy _ _
    rw [htask]
    exact fun hw ↦ hc hw (h.committed hw)
  · have htask : (v.setTask y ops).task y = ops := Function.update_self _ _ _
    rw [htask]
    rcases h.owed hq with hstuck | hpending
    · exact howed hstuck
    · exact .inr (hp hpending)

end Half

end

/-! ## The two of them and the others -/

/-- `full` and `empty` say when the producer and the consumer are stuck. -/
structure Handshake (data : TestCondvar) (pair : Pair) (pcp pcc : Pc) (full empty : Prop) (v : Sync) :
    Prop where
  guarded : Sync.Guarded (.user data.lock) v
  others : ∀ u, u ≠ pair.producer → u ≠ pair.consumer → SparesAll data (v.task u)
  outsiders : ∀ u, v.holder (.user data.lock) = some u → u = pair.producer ∨ u = pair.consumer
  producer : Half data data.notFull data.notEmpty pair.producer pair.consumer pcp pcc full v
  consumer : Half data data.notEmpty data.notFull pair.consumer pair.producer pcc pcp empty v

section

variable {data : TestCondvar} {pair : Pair} {mine other : Nat} {x y u : Tid} {pcp pcc pcx pcy : Pc}
  {inside : Bool} {full empty stuck : Prop} {v v' : Sync} {act : Act}

/-- The step lemma for the kernel. -/
theorem Handshake.step (h : Handshake data pair pcp pcc full empty v)
    (hxy : pair.producer ≠ pair.consumer) (hne : data.notFull ≠ data.notEmpty)
    (hnodup : ∀ c, (v.queue (.condvar c)).Nodup) (hs : Sync.Step u act v v')
    (hact : ∀ c, act = .call c → Spares data c ∧
      (u = pair.producer → pcp = .finished) ∧ (u = pair.consumer → pcc = .finished)) :
    Handshake data pair pcp pcc full empty v' := by
  obtain ⟨hg, hothers, hout, hp, hc⟩ := h
  obtain ⟨bp, hseatp⟩ := id hp.seat
  obtain ⟨bc, hseatc⟩ := id hc.seat
  refine ⟨hg.step hs, fun t h₁ h₂ ↦ ?_, fun t ht ↦ ?_, ?_, ?_⟩
  · by_cases hu : t = u
    · subst hu
      exact (hothers t h₁ h₂).step hs fun c hc ↦ (hact c hc).1
    · rw [hs.task_of_ne hu]
      exact hothers t h₁ h₂
  · by_contra hn
    obtain ⟨h₁, h₂⟩ := not_or.mp hn
    have hfree : v.holder (.user data.lock) ≠ some t := fun hh ↦ hn (hout t hh)
    by_cases hu : t = u
    · subst hu
      exact hs.stays_out hg (hothers t h₁ h₂).phaseOf hfree ht
    · exact hs.not_holder hg hu hfree ht
  · by_cases h₁ : pair.producer = u
    · subst h₁
      cases act with
      | call c =>
        obtain ⟨hsp, hfin, -⟩ := hact c rfl
        rw [hfin rfl] at hp ⊢
        exact hp.call (.inl rfl) hs hsp
      | exec op => exact hp.exec (.inl rfl) hg hs
    · by_cases h₂ : pair.consumer = u
      · subst h₂
        exact hp.partner hseatc hxy hne (.inl rfl) hg (hnodup _) hs fun c hc ↦ (hact c hc).2.2 rfl
      · exact hp.third h₁ h₂ (.inl rfl) (hothers u (Ne.symm h₁) (Ne.symm h₂)) hg hs
  · by_cases h₂ : pair.consumer = u
    · subst h₂
      cases act with
      | call c =>
        obtain ⟨hsp, -, hfin⟩ := hact c rfl
        rw [hfin rfl] at hc ⊢
        exact hc.call (.inr rfl) hs hsp
      | exec op => exact hc.exec (.inr rfl) hg hs
    · by_cases h₁ : pair.producer = u
      · subst h₁
        exact hc.partner hseatp hxy.symm hne.symm (.inr rfl) hg (hnodup _) hs
          fun c hc ↦ (hact c hc).2.1 rfl
      · exact hc.third h₂ h₁ (.inr rfl) (hothers u (Ne.symm h₁) (Ne.symm h₂)) hg hs

/-! ## Why they cannot both sleep -/

/-- A thread that has the lock, or has been granted it, is neither done nor in a queue. -/
theorem Seat.not_owner {owner : Option Tid} (h : Seat data other mine y pcy inside v)
    (ho : (v.lock (.user data.lock)).Token owner)
    (hy : pcy = .finished ∨ ∃ q, y ∈ v.queue q) : owner ≠ some y := by
  intro hown
  have hphase : (v.lock (.user data.lock)).phase y = phaseOf (.user data.lock) (v.task y) := rfl
  have hcontrol := h.control
  by_cases hfin : pcy = .finished
  · subst hfin
    have hout := Seat.outside_of_finished hcontrol
    subst hout
    have haway : phaseOf (.user data.lock) (v.task y) = .away := by
      generalize v.task y = ops at hcontrol
      cases hcontrol with
      | outside => rfl
      | finished hsp => exact hsp.phaseOf
    rcases ho.owner y hown with hh | hp | hp
    · cases h.holder.mp hh
    · rw [hphase, haway] at hp
      cases hp
    · rw [hphase, haway] at hp
      cases hp
  · obtain ⟨q, hq⟩ := hy.resolve_left hfin
    rcases h.queued hfin q hq with ⟨rfl, -⟩ | ⟨-, htask⟩
    · exact (ho.queued y hq).2 hown
    · rcases ho.owner y hown with hh | hp | hp
      · rw [htask, h.holder.mp hh] at hcontrol
        cases hcontrol
      · rw [hphase, htask] at hp
        cases hp
      · rw [hphase, htask] at hp
        cases hp

theorem Control.ready {ops : List Op} (h : Control data mine other pcx ops inside)
    (hp : pcx = .verify ∨ pcx = .signal) : ops = [] := by
  rcases hp with rfl | rfl
  · cases h with
    | outside hp => cases hp
    | inside => rfl
    | releases hp => rcases hp with hp | hp <;> cases hp
  · cases h with
    | outside hp => cases hp
    | inside => rfl
    | releases hp => rcases hp with hp | hp <;> cases hp

/-- A thread that has promised a signal is neither done nor in a queue. -/
theorem Seat.not_pending (h : Seat data other mine y pcy inside v)
    (hy : pcy = .finished ∨ ∃ q, y ∈ v.queue q) : ¬ Pending mine pcy (v.task y) := by
  intro hp
  by_cases hfin : pcy = .finished
  · subst hfin
    rcases hp with hp | hp | ⟨hp, -⟩ <;> cases hp
  · obtain ⟨q, hq⟩ := hy.resolve_left hfin
    have hcontrol := h.control
    have hready : ∀ {ops : List Op}, v.task y = ops → (ops = [] ∨ ops = [.condvarSignal mine]) →
        False := by
      intro ops ht hops
      rcases h.queued hfin q hq with ⟨-, hphase⟩ | ⟨-, htask⟩
      · rw [ht] at hphase
        rcases hops with rfl | rfl <;> cases hphase
      · rw [ht] at htask
        rcases hops with rfl | rfl <;> cases htask
    rcases hp with rfl | rfl | ⟨rfl, hops⟩
    · exact hready (hcontrol.ready (.inl rfl)) (.inl rfl)
    · exact hready (hcontrol.ready (.inr rfl)) (.inl rfl)
    · exact hready hops (.inr rfl)

/-- A thread that sleeps while its partner cannot go on waits for the buffer. -/
theorem Half.stuck_of_blocked {q : WaitQueue} (h : Half data mine other x y pcx pcy stuck v)
    (hy : Seat data other mine y pcy inside v) (hg : Sync.Guarded (.user data.lock) v)
    (hothers : ∀ u, u ≠ x → u ≠ y → SparesAll data (v.task u))
    (hout : ∀ u, v.holder (.user data.lock) = some u → u = x ∨ u = y)
    (hpx : pcx ≠ .finished) (hq : x ∈ v.queue q)
    (hblocked : pcy = .finished ∨ ∃ q, y ∈ v.queue q) : stuck ∧ pcx = .check := by
  obtain ⟨b, hx⟩ := h.seat
  obtain ⟨-, owner, ho⟩ := hg
  rcases hx.queued hpx q hq with ⟨rfl, -⟩ | ⟨rfl, htask⟩
  · -- the lock has an owner, and that is nobody
    exfalso
    have hnot : owner ≠ some x := (ho.queued x hq).2
    cases hown : owner with
    | none =>
      have hempty := ho.free hown
      have hmem : x ∈ (v.lock (.user data.lock)).queue := hq
      rw [hempty] at hmem
      cases hmem
    | some o =>
      by_cases hoy : o = y
      · exact hy.not_owner ho hblocked (by rw [hown, hoy])
      · have hox : o ≠ x := fun he ↦ hnot (by rw [hown, he])
        have haway : (v.lock (.user data.lock)).phase o = .away := (hothers o hox hoy).phaseOf
        rcases ho.owner o hown with hh | hp | hp
        · exact (hout o hh).elim hox hoy
        · rw [haway] at hp
          cases hp
        · rw [haway] at hp
          cases hp
  · have hcontrol := hx.control
    rw [htask] at hcontrol
    refine ⟨(h.owed hq).resolve_right (hy.not_pending hblocked), ?_⟩
    cases hcontrol with
    | waiting => rfl
    | finished => exact absurd rfl hpx

/-- If both are asleep or done, the one that sleeps waits for the buffer. -/
theorem Handshake.sleepers (h : Handshake data pair pcp pcc full empty v)
    (hp : pcp = .finished ∨ ∃ q, pair.producer ∈ v.queue q)
    (hc : pcc = .finished ∨ ∃ q, pair.consumer ∈ v.queue q) :
    (pcp = .finished ∨ full ∧ pcp = .check) ∧ (pcc = .finished ∨ empty ∧ pcc = .check) := by
  obtain ⟨bp, hseatp⟩ := h.producer.seat
  obtain ⟨bc, hseatc⟩ := h.consumer.seat
  constructor
  · by_cases hfin : pcp = .finished
    · exact .inl hfin
    · obtain ⟨q, hq⟩ := hp.resolve_left hfin
      exact .inr (h.producer.stuck_of_blocked hseatc h.guarded h.others h.outsiders hfin hq hc)
  · by_cases hfin : pcc = .finished
    · exact .inl hfin
    · obtain ⟨q, hq⟩ := hc.resolve_left hfin
      exact .inr (h.consumer.stuck_of_blocked hseatp h.guarded
        (fun u h₁ h₂ ↦ h.others u h₂ h₁) (fun u hu ↦ (h.outsiders u hu).symm) hfin hq hp)

end

end AlienOS.Test
