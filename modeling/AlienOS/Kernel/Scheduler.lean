import AlienOS.Kernel.Handler

/-!
# Scheduler — a fixed set of threads, partitioned over the lists and served in order
-/

open AlienOS.Lib

namespace AlienOS.Kernel

/-- The pointers spell the sequences `L`, and every thread that is not current is once on the one
list that its status calls for. -/
structure Partition (s : State) (threads : List Tid) (L : ListId → List Tid) : Prop where
  linked : s.lists.Rep ListId.Tailed (fun _ ↦ none) L
  once : ∀ i, (L i).Nodup
  apart : ∀ {i j t}, t ∈ L i → t ∈ L j → i = j
  status : ∀ t ∈ threads, t ≠ s.currentThread →
    s.status t = .ready ∧ t ∈ L .readyThreads ∨ s.status t = .sleeping ∧ t ∈ L .sleepingThreads ∨
      s.status t = .blocked ∧ ∃ q, t ∈ L (.waitQueue q)
  mem : ∀ i, ∀ t ∈ L i, t ∈ threads
  idle : ∀ i, s.idleThread ∉ L i

/-- What `scheduler_next` makes of `s`. -/
structure Dispatched (s : State) (threads : List Tid) (s' : State) : Prop where
  running : s'.status s'.currentThread = .running
  only : ∀ t, t ∈ threads ∨ t = s'.idleThread → t ≠ s'.currentThread → s'.status t ≠ .running
  off : ∀ i, s'.currentThread ∉ listsOf s'.trace i
  /-- the idle thread runs only for want of another -/
  idle : s'.currentThread = s.idleThread → s.currentThread ≠ s.idleThread →
    listsOf s.trace .readyThreads = [] ∧ s.status s.currentThread ≠ .running
  /-- a thread goes on only if nobody is ready -/
  stays : s'.currentThread = s.currentThread → listsOf s.trace .readyThreads = []
  /-- any other thread is the one that has been on `ready_threads` longest -/
  oldest : s'.currentThread ≠ s.currentThread → s'.currentThread ≠ s.idleThread →
    ∃ ys, listsOf s.trace .readyThreads = ys ++ [s'.currentThread]

section

variable {idle : Tid} {threads : List Tid} {s s' : State} {ops : List Op}

theorem Calm.partition (h : Calm idle threads s) : Partition s threads (listsOf s.trace) := by
  have hst := h.placed.standing
  refine ⟨?_, h.placed.rep.nodup, h.placed.rep.disjoint, fun t ht hc ↦ ?_, fun i t ht ↦ ?_,
    fun i ↦ h.placed.not_mem hst.home_idle i⟩
  · have := h.placed.rep
    rwa [pending_none] at this
  · cases hh : homeOf s.trace t with
    | none => exact absurd hh (hst.listed (by rwa [h.threads_eq]) hc)
    | some i =>
      have hmem := (h.placed.agrees i t).mpr hh
      have hs := hst.status_eq hh
      cases i with
      | readyThreads => exact .inl ⟨hs, hmem⟩
      | sleepingThreads => exact .inr (.inl ⟨hs, hmem⟩)
      | waitQueue q => exact .inr (.inr ⟨hs, q, hmem⟩)
      | zombieThreads => exact absurd hs (h.alive t)
  · rw [← h.threads_eq]
    exact hst.mem (h.placed.home_of_mem ht)

/-- Nobody but the current thread is `Running`. -/
theorem Calm.not_running (h : Calm idle threads s) {t : Tid} (ht : t ∈ threads ∨ t = s.idleThread)
    (hc : t ≠ s.currentThread) : s.status t ≠ .running := by
  rcases ht with ht | rfl
  · rcases h.partition.status t ht hc with hs | hs | hs
    · rw [hs.1]
      decide
    · rw [hs.1]
      decide
    · rw [hs.1]
      decide
  · rw [h.placed.standing.idle_ready hc]
    decide

/-- The two outcomes of `schedule`. -/
theorem Calm.dispatch_cases (h : Calm idle threads s) {entered : ThreadStatus}
    (hst : s.stack = .cleanZombies none entered :: ops) (hs : next s .exec = .ok s') :
    (listsOf s.trace .readyThreads = [] ∧ s.status s.currentThread = .running ∧
      s'.currentThread = s.currentThread ∧ s'.status = s.status) ∨
    ∃ x lists, s' = ({ s with stack := ops } : State).switched x lists ∧ x ≠ s.currentThread ∧
      (x = s.idleThread ∧ listsOf s.trace .readyThreads = [] ∧
          s.status s.currentThread ≠ .running ∨
        x ≠ s.idleThread ∧ ∃ ys, listsOf s.trace .readyThreads = ys ++ [x]) := by
  have hp : Placed { s with stack := ops } none :=
    ⟨h.placed.rep, h.placed.agrees, h.placed.standing⟩
  have hnext : next s .exec = cleanZombies none entered { s with stack := ops } := by
    simp only [next, hst]
    rfl
  rw [hnext] at hs
  by_cases hstay : listsOf s.trace .readyThreads = [] ∧ s.status s.currentThread = .running
  · rw [cleanZombies_stay entered hp hstay.1 hstay.2] at hs
    cases hs
    exact .inl ⟨hstay.1, hstay.2, rfl, rfl⟩
  · obtain ⟨x, lists, hrun, -, hne, hx⟩ := cleanZombies_switch entered hp hstay
    rw [hrun] at hs
    cases hs
    refine .inr ⟨x, lists, rfl, hne, hx.imp_left fun h ↦ ⟨h.1, h.2, fun hr ↦ hstay ⟨h.2, hr⟩⟩⟩

theorem Calm.dispatched (h : Calm idle threads s) {entered : ThreadStatus}
    (hst : s.stack = .cleanZombies none entered :: ops) (hs : next s .exec = .ok s') :
    Dispatched s threads s' := by
  have he : Enabled s .exec := by simp [Enabled, hst]
  have hc : Calm idle threads s' := (h.step (fun _ hc ↦ by cases hc) he hs).1
  have hcases := h.dispatch_cases hst hs
  have hrunning : s'.status s'.currentThread = .running := by
    rcases hcases with ⟨-, hr, hcur, hstatus⟩ | ⟨x, lists, rfl, -⟩
    · rw [hcur, hstatus]
      exact hr
    · simp [State.switched]
  refine ⟨hrunning, fun t ht hn ↦ hc.not_running ht hn, hc.placed.free hrunning, fun hi hci ↦ ?_,
    fun hcur ↦ ?_, fun hcur hi ↦ ?_⟩
  · rcases hcases with ⟨-, -, hcur, -⟩ | ⟨x, lists, rfl, hne, ⟨-, hL⟩ | ⟨hx, -⟩⟩
    · exact absurd (hcur ▸ hi) hci
    · exact hL
    · exact absurd hi hx
  · rcases hcases with ⟨hL, -⟩ | ⟨x, lists, rfl, hne, -⟩
    · exact hL
    · exact absurd hcur hne
  · rcases hcases with ⟨-, -, he, -⟩ | ⟨x, lists, rfl, hne, ⟨hx, -⟩ | ⟨-, hys⟩⟩
    · exact absurd he hcur
    · exact absurd hx hi
    · exact hys

/-- The messages of the two assertions of `mutex_release`. -/
def mutexReleasePanics : List Halt :=
  [.panic "mutex_release(): Owner thread must release the lock", .panic "mutex_release(): Overflow"]

theorem mutexRelease_error {mutex : MutexRef} {e : Halt}
    (hn : ¬ s.sync.Holds mutex s.currentThread) (hs : mutexRelease mutex s = .error e) :
    e ∈ mutexReleasePanics := by
  by_cases hh : s.holder mutex = some s.currentThread
  · have hz : s.recursionCount mutex = 0 := by
      by_contra hz
      exact hn ⟨hh, hz⟩
    simp only [mutexRelease, kernelAssert, hh, hz, beq_self_eq_true, if_true, ok_bind] at hs
    simp at hs
    simp [mutexReleasePanics, ← hs]
  · simp only [mutexRelease, kernelAssert, beq_iff_eq, hh, if_false, error_bind] at hs
    cases hs
    simp [mutexReleasePanics]

theorem State.Misused.panics (hm : s.Misused) {e : Halt} (hs : next s .exec = .error e) :
    e ∈ mutexReleasePanics := by
  obtain ⟨op, ops, mutex, hst, hrel, hn⟩ := hm
  simp only [next, hst] at hs
  cases op with
  | mutexRelease m =>
    cases hrel
    exact mutexRelease_error (s := { s with stack := ops }) hn hs
  | condvarWait c m =>
    cases hrel
    rcases bind_eq_error.mp hs with hs | ⟨_, -, hs⟩
    · have hmem := mutexRelease_error (e := e) ?_ hs
      · exact hmem
      · exact hn
    · cases hs
  | _ => cases hrel

/-- Nothing but the assertions of `mutex_release` can fail, and they only by misuse. -/
theorem Calm.error (h : Calm idle threads s) {a : Action} {e : Halt} (hq : Quiet s a)
    (he : Enabled s a) (hs : next s a = .error e) : a = .exec ∧ s.Misused ∧ e ∈ mutexReleasePanics := by
  have hm : a = .exec ∧ s.Misused := by
    by_contra hn
    obtain ⟨s', hrun, -⟩ := h.progress hq he fun ha hm ↦ hn ⟨ha, hm⟩
    rw [hs] at hrun
    cases hrun
  obtain ⟨rfl, hm⟩ := hm
  exact ⟨rfl, hm, hm.panics hs⟩

end

end AlienOS.Kernel
