import AlienOS.Kernel.Grip
import AlienOS.Kernel.Ledger
import AlienOS.Test.BoundedBuffer

/-!
# Program — code for some threads of the kernel

A thread of a program runs one statement at a time, whenever it has the processor and is not inside
the kernel.  What holds of a program over the synchronisation objects alone holds on the machine.
-/

open AlienOS.Lib

namespace AlienOS.Test

open AlienOS.Kernel

/-- What the next statement of a thread does to the data of the program, and what it asks the kernel
for. -/
structure Program (σ : Type) where
  statement : Tid → σ → Except Halt (σ × Option Call)
  /-- the thread has no statement left, or never had one -/
  Done : σ → Tid → Prop
  /-- the call goes to an object that belongs to the program -/
  Owns : Call → Prop
  quiet : ∀ {t d d' c}, statement t d = .ok (d', some c) → c.Quiet

namespace Program

variable {σ : Type}

structure World (σ : Type) where
  state : State
  data : σ

def next (p : Program σ) (w : World σ) : Move → Except Halt (World σ)
  | .machine a => do
    let state ← Kernel.next w.state a
    .ok { w with state }
  | .statement => do
    let (data, c) ← p.statement w.state.currentThread w.data
    .ok ⟨asked w.state c, data⟩

def Enabled (p : Program σ) (w : World σ) : Move → Prop
  | .machine a => Kernel.Enabled w.state a ∧ ∀ c, a = .call c →
      c.Quiet ∧ ¬ p.Owns c ∧ p.Done w.data w.state.currentThread
  | .statement => w.state.stack = [] ∧ ¬ p.Done w.data w.state.currentThread

/-- The states that the program and all other threads can lead to. -/
inductive Reachable (p : Program σ) (w₀ : World σ) : World σ → Prop where
  | start : Reachable p w₀ w₀
  | step {w w' : World σ} {m : Move} (h : Reachable p w₀ w) (he : p.Enabled w m)
    (hs : p.next w m = .ok w') : Reachable p w₀ w'

def start (idle main : Tid) (threads : List Tid) (count : Nat → Nat) (data : σ) : World σ where
  state := boot idle main threads count
  data

/-- `t` runs a statement. -/
def Runs (p : Program σ) (t : Tid) (d d' : σ) (c : Option Call) : Prop :=
  ¬ p.Done d t ∧ p.statement t d = .ok (d', c)

/-! ## Without the scheduler -/

/-- A step of the program over the synchronisation objects: any thread that waits for nobody may take
it. -/
inductive Step (p : Program σ) : Sync → σ → Sync → σ → Prop where
  | kernel {v v' : Sync} {d : σ} {t : Tid} {act : Act} (hs : Sync.Step t act v v')
    (hc : ∀ c, act = .call c → ¬ p.Owns c ∧ p.Done d t) : Step p v d v' d
  | statement {v : Sync} {d d' : σ} {t : Tid} {c : Option Call} (hf : v.Free t)
    (ht : v.task t = []) (hr : p.Runs t d d' c) : Step p v d (v.setTask t (askedOps c)) d'

/-- `idle` runs no statement. -/
def Rests (p : Program σ) (idle : Tid) : Prop := ∀ d, p.Done d idle

section

variable {p : Program σ} {idle main : Tid} {threads : List Tid} {count : Nat → Nat} {v : Sync}
  {t : Tid} {mutex : MutexRef} {c : Option Call} {w₀ w w' : World σ} {d₀ d : σ} {m : Move}

@[simp] theorem askedOps_none : askedOps none = [] := rfl

@[simp] theorem askedOps_down (n : Nat) :
    askedOps (some (.semaphoreDown n)) = [.semaphoreDown (.user n)] := rfl

@[simp] theorem askedOps_up (n : Nat) :
    askedOps (some (.semaphoreUp n)) = [.semaphoreUp (.user n)] := rfl

theorem asked_spares_semaphore {n : Nat} {k : Call} (h : ¬ k.OnSemaphore n) :
    ∀ op ∈ askedOps (some k), ¬ op.OnSemaphore n :=
  fun op ho ↦ call_spares_semaphore h op ((List.dropWhile_sublist _).subset ho)

/-- A call to a semaphore is one operation. -/
theorem asked_single {n : Nat} : ∀ op ∈ askedOps c, op.OnSemaphore n → askedOps c = [op] := by
  intro op ho hon
  cases c with
  | none => cases ho
  | some k =>
    have hk : op ∈ k.ops := (List.dropWhile_sublist _).subset ho
    cases k with
    | semaphoreDown m | semaphoreTryDown m | semaphoreUp m =>
      cases List.mem_singleton.mp hk
      rfl
    | _ => exact absurd hon (call_spares_semaphore id op hk)

theorem asked_spares_mutex {n : Nat} {k : Call} (h : ¬ k.OnMutex n) :
    ∀ op ∈ askedOps (some k), ¬ op.OnMutex (.user n) :=
  fun op ho ↦ call_spares_mutex h op ((List.dropWhile_sublist _).subset ho)

theorem Runs.quiet {d' : σ} (h : p.Runs t d d' c) : ∀ k, c = some k → k.Quiet := by
  rintro k rfl
  exact p.quiet h.2

theorem guarded_asked (h : Sync.Guarded mutex v) (hf : v.Free t) (ht : v.task t = [])
    (hq : ∀ k, c = some k → k.Quiet) : Sync.Guarded mutex (v.setTask t (askedOps c)) := by
  cases c with
  | none =>
    have hsame : v.setTask t [] = v := by
      rw [← ht]
      simp [Sync.setTask]
    show Sync.Guarded mutex (v.setTask t [])
    rwa [hsame]
  | some k => exact h.step (Sync.Step.call (hq k rfl) hf ht)

/-- A thread at a statement waits for nobody and has nothing left to do in the kernel. -/
theorem statement_free (hc : Calm idle threads w.state) (hp : p.Rests idle)
    (he : p.Enabled w .statement) :
    w.state.currentThread ≠ w.state.idleThread ∧ w.state.sync.Free w.state.currentThread ∧
      w.state.sync.task w.state.currentThread = [] := by
  obtain ⟨hst, hd⟩ := he
  refine ⟨fun hi ↦ hd ?_, hc.sync_free (hc.running_nil hst), ?_⟩
  · rw [hi, hc.idle_eq]
    exact hp w.data
  · rw [sync_task_current, hst]
    rfl

/-- The machine does what the synchronisation objects do, or what they do not see. -/
theorem step_sync (hc : Calm idle threads w.state) (hp : p.Rests idle) (he : p.Enabled w m)
    (hs : p.next w m = .ok w') :
    Calm idle threads w'.state ∧ (w'.state.sync = w.state.sync ∧ w'.data = w.data ∨
      p.Step w.state.sync w.data w'.state.sync w'.data) := by
  cases m with
  | machine a =>
    obtain ⟨hen, hcall⟩ := he
    obtain ⟨s', hrun, hw⟩ := bind_eq_ok.mp hs
    cases hw
    have hq : Quiet w.state a := fun c hc ↦ (hcall c hc).1
    obtain ⟨hc', hseen⟩ := hc.step hq hen hrun
    refine ⟨hc', ?_⟩
    rcases hseen with hsame | ⟨act, hact, hstep⟩
    · exact .inl ⟨hsame, rfl⟩
    · refine .inr (.kernel hstep fun c hcall' ↦ ?_)
      subst hcall'
      cases a with
      | call k =>
        cases hact
        exact (hcall _ rfl).2
      | exec =>
        have hhead : (w.state.stack.head?.map Act.exec) = some (.call c) := hact
        cases hst : w.state.stack <;> simp [hst] at hhead
      | interrupt => cases hact
      | alloc t => cases hact
  | statement =>
    obtain ⟨hidle, hfree, htask⟩ := statement_free hc hp he
    obtain ⟨hst, hd⟩ := he
    obtain ⟨⟨d', c⟩, hrun, hw⟩ := bind_eq_ok.mp hs
    cases hw
    have hr : p.Runs w.state.currentThread w.data d' c := ⟨hd, hrun⟩
    obtain ⟨hc', hsync, -⟩ := asked_calm hc hst hidle hr.quiet
    refine ⟨hc', .inr ?_⟩
    show p.Step w.state.sync w.data (asked w.state c).sync d'
    rw [hsync]
    exact .statement hfree htask hr

theorem queue_nodup {s : State} (hc : Calm idle threads s) (q : WaitQueue) :
    (s.sync.queue q).Nodup := by
  rw [State.sync_queue]
  exact hc.placed.rep.nodup _

/-- What every step of the program over the synchronisation objects keeps holds on the machine. -/
theorem Reachable.invariant {I : Sync → σ → Prop} (hd : Distinct idle main threads)
    (hp : p.Rests idle) (hr : p.Reachable (Program.start idle main threads count d₀) w)
    (h₀ : I (Sync.start idle count) d₀)
    (hstep : ∀ {v d v' d'}, (∀ q, (v.queue q).Nodup) → I v d → p.Step v d v' d' → I v' d') :
    Calm idle (threads.reverse ++ [main]) w.state ∧ I w.state.sync w.data := by
  induction hr with
  | start =>
    refine ⟨calm_boot count hd, ?_⟩
    show I (boot idle main threads count).sync d₀
    rwa [boot_sync count hd]
  | step _ he hs ih =>
    obtain ⟨hc, hi⟩ := ih
    obtain ⟨hc', hsync⟩ := step_sync hc hp he hs
    refine ⟨hc', ?_⟩
    rcases hsync with ⟨hv, hdata⟩ | hst
    · rw [hv, hdata]
      exact hi
    · exact hstep (queue_nodup hc) hi hst

end

/-! ## What the calls of a program say about its objects -/

/-- `stance d t`: where the calls of `t` so far leave it at a mutex. -/
structure Pairs (p : Program σ) (n : Nat) (stance : σ → Tid → Stance) : Prop where
  owns : ∀ c, c.OnMutex n → p.Owns c
  reach : ∀ {t d d' c}, p.Runs t d d' c → Reach n (stance d t) (askedOps c) (stance d' t)
  same : ∀ {t d d' c u}, p.Runs t d d' c → u ≠ t → stance d' u = stance d u

/-- `called d t`: the ups less the downs of a semaphore in the calls of `t` so far, as long as the
data are `right`; `down` and `up` say where a thread is while its last call may be one of them. -/
structure Counts (p : Program σ) (right : σ → Prop) (n : Nat) (team : List Tid)
    (down up : σ → Tid → Prop) (called : σ → Tid → Int) : Prop where
  owns : ∀ c, c.OnSemaphore n → p.Owns c
  nodup : team.Nodup
  mem : ∀ {t d d' c}, p.Runs t d d' c → t ∈ team
  tries : ∀ {t d d' c}, p.Runs t d d' c → .semaphoreTryDown (.user n) ∉ askedOps c
  downs : ∀ {t d d' c}, p.Runs t d d' c → .semaphoreDown (.user n) ∈ askedOps c → down d' t
  ups : ∀ {t d d' c}, p.Runs t d d' c → .semaphoreUp (.user n) ∈ askedOps c → up d' t
  asks : ∀ {t d d' c}, right d → p.Runs t d d' c → called d' t = called d t - dues n (askedOps c)
  same : ∀ {t d d' c u}, p.Runs t d d' c → u ≠ t →
    called d' u = called d u ∧ (down d u → down d' u) ∧ (up d u → up d' u)

/-- `spots d t`: the queues in which `t` can be. -/
structure Parks (p : Program σ) (spots : σ → Tid → WaitQueue → Prop) : Prop where
  calls : ∀ {t d d' c q}, p.Runs t d d' c → ∀ op ∈ askedOps c, op.Leads q → spots d' t q
  same : ∀ {t d d' c u q}, p.Runs t d d' c → u ≠ t → spots d u q → spots d' u q
  done : ∀ {t d q}, p.Done d t → spots d t q

/-- No thread is in another queue, or about to be. -/
def Parked (spots : Tid → WaitQueue → Prop) (v : Sync) : Prop :=
  ∀ t q, t ∈ v.queue q ∨ (∃ op ∈ v.task t, op.Leads q) → spots t q

section

variable {p : Program σ} {n : Nat} {stance : σ → Tid → Stance} {called : σ → Tid → Int} {k : Int}
  {right : σ → Prop} {team : List Tid} {down up : σ → Tid → Prop} {v v' : Sync} {d d' : σ}

theorem Pairs.step (hp : p.Pairs n stance) (h : Grips n (stance d) v) (hs : p.Step v d v' d') :
    Grips n (stance d') v' := by
  cases hs with
  | kernel hs hc => exact h.step hs fun c hact hon ↦ (hc c hact).1 (hp.owns c hon)
  | statement hf ht hr =>
    exact h.statement ht (guarded_asked h.guarded hf ht hr.quiet) (hp.reach hr)
      fun u hu ↦ hp.same hr hu

theorem Counts.step (hp : p.Counts right n team down up called) (hd : right d)
    (h : Ledger n k team (down d) (up d) (called d) v) (hs : p.Step v d v' d') :
    Ledger n k team (down d') (up d') (called d') v' := by
  cases hs with
  | kernel hs hc => exact h.step hp.nodup hs fun c hact hon ↦ (hc c hact).1 (hp.owns c hon)
  | statement hf ht hr =>
    exact h.statement hp.nodup (hp.mem hr) ht hf (hp.tries hr) asked_single (hp.downs hr) (hp.ups hr)
      (hp.asks hd hr) fun u hu ↦ hp.same hr hu

theorem Parks.step {spots : σ → Tid → WaitQueue → Prop} (hp : p.Parks spots)
    (h : Parked (spots d) v) (hs : p.Step v d v' d') : Parked (spots d') v' := by
  cases hs with
  | @kernel _ _ u act hs hc =>
    rintro t q (hq | ⟨op, ho, hop⟩)
    · rcases hs.joins hq with hq | ⟨rfl, op, hact, hj⟩
      · exact h t q (.inl hq)
      · subst hact
        obtain ⟨b, ops, ht, -⟩ := hs.task_self
        refine h t q (.inr ⟨op, ?_, .inl hj⟩)
        rw [ht]
        exact List.mem_cons_self
    · by_cases ht : t = u
      · subst ht
        rcases hs.mem_task ho with ho | ⟨b, o, ho, hpush⟩ | ⟨c, hact, -⟩
        · exact h t q (.inr ⟨op, ho, hop⟩)
        · exact h t q (.inr ⟨o, ho, pushes_lead hpush hop⟩)
        · exact hp.done (hc c hact).2
      · rw [hs.task_of_ne ht] at ho
        exact h t q (.inr ⟨op, ho, hop⟩)
  | @statement _ _ u c hf ht hr =>
    rintro t q hq
    by_cases htu : t = u
    · subst htu
      rcases hq with hq | ⟨op, ho, hop⟩
      · exact absurd hq (hf q)
      · have hself : (v.setTask t (askedOps c)).task t = askedOps c := Function.update_self _ _ _
        rw [hself] at ho
        exact hp.calls hr op ho hop
    · have hne : (v.setTask u (askedOps c)).task t = v.task t := Function.update_of_ne htu _ _
      rw [hne] at hq
      exact hp.same hr htu (h t q hq)

end

theorem parked_start (spots : Tid → WaitQueue → Prop) (idle : Tid) (count : Nat → Nat) :
    Parked spots (Sync.start idle count) := by
  rintro t q (hq | ⟨op, ho, hop⟩)
  · cases hq
  · by_cases ht : t = idle
    · subst ht
      have hidle : op = .cpuIdleLoop := by simpa [Sync.start] using ho
      subst hidle
      rcases leads_of hop with ⟨_, h⟩ | ⟨_, h⟩ | ⟨_, _, h⟩ <;> cases h
    · simp [Sync.start, ht] at ho

/-- The threads of the start state, in the order of their list. -/
theorem mem_boot {main t : Tid} {threads : List Tid} (h : t ∈ main :: threads) :
    t ∈ threads.reverse ++ [main] := by
  rcases List.mem_cons.mp h with rfl | h
  · simp
  · simp [h]

/-- A blocked thread is in a queue. -/
theorem queued_of_blocked {idle t : Tid} {threads : List Tid} {s : State} (h : Calm idle threads s)
    (ht : t ∈ threads) (hb : s.status t = .blocked) : ∃ q, t ∈ s.sync.queue q := by
  obtain ⟨q, hq⟩ := h.waits_of_blocked (.inr ht) hb
  refine ⟨q, ?_⟩
  rw [State.sync_queue]
  exact (h.placed.agrees _ _).mpr hq

end Program

end AlienOS.Test
