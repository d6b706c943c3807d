import AlienOS.Kernel.Job
import AlienOS.Kernel.Reaper

/-!
# Kfree — the heap's lock when nobody contends for it

A heap operation then never blocks, so that the calls of `kfree` in `clean_zombies` go through on
behalf of whatever thread was interrupted.
-/

open AlienOS.Lib

namespace AlienOS.Kernel

/-- How far the current thread is with `free_list_lock`. -/
inductive HeapPhase where
  | free | granted | held
  deriving DecidableEq, Repr

def heapPhase : List Op → HeapPhase
  | .mutexAcquired .freeListLock _ :: _ => .granted
  | .heapStart :: _ | .heapEnd _ :: _ | .mutexRelease .freeListLock :: _ => .held
  | _ => .free

/-- Nobody waits for the lock, and nobody has it but the current thread. -/
structure State.LockIs (s : State) (p : HeapPhase) : Prop where
  queue : s.lists.head (.waitQueue (.semaphore (.ofMutex .freeListLock))) = none
  count : s.count (.ofMutex .freeListLock) = if p = .free then 1 else 0
  holder : s.holder .freeListLock = if p = .held then some s.currentThread else none
  depth : p = .held → s.recursionCount .freeListLock = 1

/-- The threads and their lists are the same. -/
structure Alike (s s' : State) : Prop where
  current : s'.currentThread = s.currentThread
  idle : s'.idleThread = s.idleThread
  status : s'.status = s.status
  esp : s'.esp = s.esp
  lists : s'.lists = s.lists
  allThreads : s'.allThreads = s.allThreads
  listsOf : listsOf s'.trace = listsOf s.trace
  homeOf : homeOf s'.trace = homeOf s.trace
  threadsOf : threadsOf s'.trace = threadsOf s.trace

/-- What an operation on the heap leaves on the stack, when the interrupt flag was `enabled`. -/
def Op.heapLeaves (enabled : Bool) : Op → List Op
  | .mutexAcquire mutex => [.mutexAcquired mutex enabled]
  | _ => []

/-- What it makes of the flag. -/
def Op.heapFlag (enabled : Bool) : Op → Bool
  | .mutexAcquire _ => false
  | .mutexAcquired _ restored => restored
  | _ => enabled

def Op.freed : Op → Option Tid
  | .heapEnd freed => freed
  | _ => none

/-- An operation on the heap that found the lock as it should be. -/
structure HeapStepped (s : State) (op : Op) (rest : List Op) (s' : State) : Prop where
  alike : Alike s s'
  lock : s'.LockIs (heapPhase s'.stack)
  stack : s'.stack = op.heapLeaves s.interrupts ++ rest
  allocated : s'.allocated = op.freed.elim s.allocated fun t ↦ Function.update s.allocated t false
  interrupts : s'.interrupts = op.heapFlag s.interrupts

section

variable {s s' : State} {op : Op} {rest ops : List Op}

theorem Closed.heapPhase (h : Closed ops) : heapPhase ops = .free := by
  cases ops with
  | nil => rfl
  | cons op ops =>
    have hop := (h op rfl).1
    cases op with
    | mutexAcquired m b =>
      cases m <;> first | rfl | cases hop
    | mutexRelease m =>
      cases m <;> first | rfl | cases hop
    | heapStart => cases hop
    | heapEnd => cases hop
    | _ => rfl

/-- The lock is free, and the thread that calls `mutex_acquire` has it without waiting. -/
theorem mutexAcquire_free (h : s.LockIs .free) : mutexAcquire .freeListLock s = { s with
    interrupts := false
    blockedOn := Function.update s.blockedOn s.currentThread (some (.mutex .freeListLock))
    blockerType := Function.update s.blockerType s.currentThread .mutex
    count := Function.update s.count (.ofMutex .freeListLock) 0
    stack := .mutexAcquired .freeListLock s.interrupts :: s.stack
    trace := .granted (.ofMutex .freeListLock) s.currentThread :: s.trace } := by
  have hh : s.holder .freeListLock = none := h.holder
  have hc : s.count (.ofMutex .freeListLock) = 1 := h.count
  simp [mutexAcquire, semaphoreDown, hh, hc, State.push, State.log]

/-- The last release with nobody waiting. -/
theorem mutexRelease_held (h : s.LockIs .held) : mutexRelease .freeListLock s = .ok { s with
    recursionCount := Function.update s.recursionCount .freeListLock 0
    holder := Function.update s.holder .freeListLock none
    count := Function.update s.count (.ofMutex .freeListLock) 1
    trace := .upped (.ofMutex .freeListLock) s.currentThread ::
      .released .freeListLock s.currentThread :: s.trace } := by
  have hh : s.holder .freeListLock = some s.currentThread := h.holder
  have hc : s.count (.ofMutex .freeListLock) = 0 := h.count
  have hd := h.depth rfl
  have hm : s.sync.Holds .freeListLock s.currentThread := ⟨hh, by
    show s.recursionCount .freeListLock ≠ 0
    rw [hd]
    decide⟩
  rw [mutexRelease_eq hm, hd, if_pos (by decide)]
  simp [semaphoreUp, State.log, h.queue, hc]

/-- One lemma for all operations on the heap. -/
theorem exec_heap (hl : s.LockIs (heapPhase s.stack)) (hst : s.stack = op :: rest)
    (hf : op.HeapFits rest) :
    ∃ s', exec op { s with stack := rest } = .ok s' ∧ HeapStepped s op rest s' := by
  rw [hst] at hl
  cases hf with
  | acquire rest =>
    refine ⟨_, congrArg Except.ok (mutexAcquire_free (s := { s with stack := .heapStart :: rest })
      ⟨hl.queue, hl.count, hl.holder, hl.depth⟩), ⟨rfl, rfl, rfl, rfl, rfl, rfl, rfl, rfl, rfl⟩,
      ⟨hl.queue, ?_, hl.holder, fun h ↦ by cases h⟩, rfl, rfl, rfl⟩
    simp [heapPhase]
  | acquired enabled rest =>
    refine ⟨_, rfl, ⟨rfl, rfl, rfl, rfl, rfl, rfl, rfl, rfl, rfl⟩, ⟨hl.queue, hl.count, ?_, ?_⟩, rfl,
      rfl, rfl⟩
    · simp [mutexAcquired, heapPhase, State.log]
    · simp [mutexAcquired, State.log]
  | start freed rest =>
    exact ⟨_, rfl, ⟨rfl, rfl, rfl, rfl, rfl, rfl, rfl, rfl, rfl⟩,
      ⟨hl.queue, hl.count, hl.holder, hl.depth⟩, rfl, rfl, rfl⟩
  | finish freed rest =>
    exact ⟨_, rfl, ⟨rfl, rfl, rfl, rfl, rfl, rfl, rfl, rfl, rfl⟩,
      ⟨hl.queue, hl.count, hl.holder, hl.depth⟩, rfl, rfl, rfl⟩
  | release hc =>
    refine ⟨_, mutexRelease_held (s := { s with stack := rest })
      ⟨hl.queue, hl.count, hl.holder, hl.depth⟩, ⟨rfl, rfl, rfl, rfl, rfl, rfl, rfl, rfl, rfl⟩, ?_,
      rfl, rfl, rfl⟩
    show State.LockIs _ (Kernel.heapPhase rest)
    rw [hc.heapPhase]
    refine ⟨hl.queue, ?_, ?_, fun h ↦ by cases h⟩
    · simp
    · simp

end

/-! ## A call of `kfree` -/

/-- The next `n` operations. -/
def execs : Nat → State → Except Halt State
  | 0, s => .ok s
  | n + 1, s => do
    let s ← next s .exec
    execs n s

section

variable {s s' s'' : State} {m n : Nat} {op : Op} {rest ops : List Op} {freed : Option Tid}

theorem execs_trans (h : execs m s = .ok s') (h' : execs n s' = .ok s'') :
    execs (m + n) s = .ok s'' := by
  induction m generalizing s with
  | zero =>
    cases h
    rwa [Nat.zero_add]
  | succ m ih =>
    obtain ⟨s₁, h₁, h₂⟩ := bind_eq_ok.mp h
    rw [Nat.succ_add]
    exact bind_eq_ok.mpr ⟨s₁, h₁, ih h₂⟩

theorem execs_cons (hst : s.stack = op :: rest) (h : exec op { s with stack := rest } = .ok s')
    (h' : execs n s' = .ok s'') : execs (n + 1) s = .ok s'' := by
  refine bind_eq_ok.mpr ⟨s', ?_, h'⟩
  simp only [next, hst]
  exact h

theorem Alike.trans (h : Alike s s') (h' : Alike s' s'') : Alike s s'' :=
  ⟨h'.current.trans h.current, h'.idle.trans h.idle, h'.status.trans h.status, h'.esp.trans h.esp,
    h'.lists.trans h.lists, h'.allThreads.trans h.allThreads, h'.listsOf.trans h.listsOf,
    h'.homeOf.trans h.homeOf, h'.threadsOf.trans h.threadsOf⟩

/-- A whole call of `kfree` takes five steps. -/
theorem execs_kfreeOps (hl : s.LockIs .free) (hst : s.stack = kfreeOps freed ++ ops)
    (hi : s.interrupts = false) (hc : Closed ops) :
    ∃ s', execs 5 s = .ok s' ∧ Alike s s' ∧ s'.LockIs .free ∧ s'.stack = ops ∧
      s'.interrupts = false ∧
      s'.allocated = freed.elim s.allocated fun t ↦ Function.update s.allocated t false := by
  have hl₀ : s.LockIs (heapPhase s.stack) := by rwa [hst]
  obtain ⟨s₁, h₁, r₁⟩ := exec_heap hl₀ hst (.acquire _)
  obtain ⟨s₂, h₂, r₂⟩ := exec_heap r₁.lock r₁.stack (.acquired _ _)
  obtain ⟨s₃, h₃, r₃⟩ := exec_heap r₂.lock r₂.stack (.start _ _)
  obtain ⟨s₄, h₄, r₄⟩ := exec_heap r₃.lock r₃.stack (.finish _ _)
  obtain ⟨s₅, h₅, r₅⟩ := exec_heap r₄.lock r₄.stack (.release hc)
  refine ⟨s₅, execs_cons hst h₁ (execs_cons r₁.stack h₂ (execs_cons r₂.stack h₃
    (execs_cons r₃.stack h₄ (execs_cons r₄.stack h₅ rfl)))),
    r₁.alike.trans (r₂.alike.trans (r₃.alike.trans (r₄.alike.trans r₅.alike))), ?_, r₅.stack, ?_, ?_⟩
  · have hlock := r₅.lock
    have hstack : s₅.stack = ops := r₅.stack
    rwa [hstack, hc.heapPhase] at hlock
  · rw [r₅.interrupts, r₄.interrupts, r₃.interrupts, r₂.interrupts, hi]
    rfl
  · rw [r₅.allocated, r₄.allocated, r₃.allocated, r₂.allocated, r₁.allocated]
    rfl

end

/-! ## The loop of `clean_zombies` -/

/-- What the loop works on. -/
def State.reaper (s : State) (freed : List Block) : Reaper where
  currentThread := s.currentThread
  idleThread := s.idleThread
  status := s.status
  lists := s.lists
  allThreads := s.allThreads
  freed := freed

/-- From the loop at one place to its end, with `freed` given back on the way. -/
structure Cleaned (s : State) (entered : ThreadStatus) (ops : List Op) (freed : List Block)
    (s' : State) : Prop where
  stack : s'.stack = .cleanZombies none entered :: ops
  lock : s'.LockIs .free
  interrupts : s'.interrupts = false
  esp : s'.esp = s.esp
  allocated : ∀ t, s'.allocated t = (s.allocated t && decide (Block.thread t ∉ freed))

section

variable {s : State} {x : Tid} {entered : ThreadStatus} {ops : List Op} {freed : List Block}
  {zombie : Option Tid} {lists : Links ListId Tid} {all : Links Unit Tid}

theorem cleanZombies_keep (entered : ThreadStatus) (hd : s.status s.currentThread = .zombie)
    (hi : s.currentThread ≠ s.idleThread) : cleanZombies (some s.currentThread) entered s =
      .ok (s.push [.cleanZombies (s.lists.next s.currentThread) entered]) := by
  simp [cleanZombies, kernelAssert, hd, hi, State.push]

theorem cleanZombies_unlink (entered : ThreadStatus) (hd : s.status x = .zombie)
    (hi : x ≠ s.idleThread)
    (hc : x ≠ s.currentThread) (hl : threadListRemove .zombieThreads x s.lists = .ok lists)
    (ha : threadListRemove () x s.allThreads = .ok all) : cleanZombies (some x) entered s =
      .ok (s.unlinked x (s.lists.next x) entered lists all) := by
  simp [cleanZombies, kernelAssert, hd, hi, hc, hl, ha, State.push, State.unlinked]

theorem reaper_threadListRemove {ι : Type} [DecidableEq ι] {i : ι} {l l' : Links ι Tid} {r : Reaper}
    (h : r.threadListRemove i x l = .ok l') : threadListRemove i x l = .ok l' := by
  obtain ⟨-, -, h⟩ := bind_eq_ok.mp h
  exact mapError_eq_ok.mp h

theorem reaper_kfree {b : Block} {r r' : Reaper} (h : r.kfree b = .ok r') :
    r' = { r with freed := b :: r.freed } := by
  unfold Reaper.kfree at h
  split at h
  · cases h
  · cases h
    rfl

/-- Where the checked loop comes to its end without a fault, the machine does the same. -/
theorem execs_cleanZombies : ∀ {n : Nat} {zombie : Option Tid} {s : State}
    (freed : List Block) {r' : Reaper}, s.stack = .cleanZombies zombie entered :: ops → s.LockIs .free →
    s.interrupts = false → (s.reaper freed).cleanZombiesLoop n zombie = .ok r' →
    ∃ k s' new, execs k s = .ok s' ∧ s'.reaper r'.freed = r' ∧ r'.freed = new ++ freed ∧
      Cleaned s entered ops new s' := by
  intro n
  induction n with
  | zero =>
    intro zombie s freed r' hst hl hi hrun
    cases zombie with
    | none =>
      cases hrun
      exact ⟨0, s, [], rfl, rfl, rfl, hst, hl, hi, rfl, fun t ↦ by simp⟩
    | some x => cases hrun
  | succ n ih =>
    intro zombie s freed r' hst hl hi hrun
    cases zombie with
    | none =>
      cases hrun
      exact ⟨0, s, [], rfl, rfl, rfl, hst, hl, hi, rfl, fun t ↦ by simp⟩
    | some x =>
      unfold Reaper.cleanZombiesLoop at hrun
      obtain ⟨-, -, hrun⟩ := bind_eq_ok.mp hrun
      obtain ⟨_, h₁, hrun⟩ := bind_eq_ok.mp hrun
      obtain ⟨_, h₂, hrun⟩ := bind_eq_ok.mp hrun
      have hd : s.status x = .zombie := by
        simpa [State.reaper] using kernelAssert_eq_ok.mp (mapError_eq_ok.mp h₁)
      have hidle : x ≠ s.idleThread := by
        simpa [State.reaper] using kernelAssert_eq_ok.mp (mapError_eq_ok.mp h₂)
      by_cases hc : x = s.currentThread
      · subst hc
        have hself : ¬ s.currentThread ≠ (s.reaper freed).currentThread := fun hn ↦ hn rfl
        rw [if_neg hself] at hrun
        have hstep := cleanZombies_keep (s := { s with stack := ops }) entered hd hidle
        obtain ⟨k, s', new, hex, hr, hnew, hcl⟩ := ih (s := { s with
          stack := .cleanZombies (s.lists.next s.currentThread) entered :: ops }) _ rfl
          ⟨hl.queue, hl.count, hl.holder, hl.depth⟩ hi hrun
        exact ⟨k + 1, s', new, execs_cons hst hstep hex, hr, hnew, hcl.stack, hcl.lock,
          hcl.interrupts, hcl.esp, hcl.allocated⟩
      · have hne : x ≠ (s.reaper freed).currentThread := hc
        rw [if_pos hne] at hrun
        obtain ⟨lists, h₃, hrun⟩ := bind_eq_ok.mp hrun
        obtain ⟨all, h₄, hrun⟩ := bind_eq_ok.mp hrun
        obtain ⟨-, -, hrun⟩ := bind_eq_ok.mp hrun
        obtain ⟨_, h₅, hrun⟩ := bind_eq_ok.mp hrun
        obtain ⟨_, h₆, hrun⟩ := bind_eq_ok.mp hrun
        have hl₁ := reaper_threadListRemove h₃
        have ha₁ := reaper_threadListRemove h₄
        cases reaper_kfree h₅
        cases reaper_kfree h₆
        have hstep := cleanZombies_unlink (s := { s with stack := ops }) entered hd hidle hc
          hl₁ ha₁
        have hqueue : lists.head (.waitQueue (.semaphore (.ofMutex .freeListLock))) = none :=
          (threadListRemove_other hl₁ (by simp)).1.trans hl.queue
        -- the stack, and then the thread
        obtain ⟨s₁, he₁, a₁, l₁, st₁, i₁, al₁⟩ := execs_kfreeOps
          (s := ({ s with stack := ops } : State).unlinked x (s.lists.next x) entered lists all)
          ⟨hqueue, hl.count, hl.holder, hl.depth⟩ (by simp [State.unlinked]; rfl) hi (.cons rfl rfl)
        obtain ⟨s₂, he₂, a₂, l₂, st₂, i₂, al₂⟩ := execs_kfreeOps l₁ st₁ i₁ (.cons rfl rfl)
        have ha := a₁.trans a₂
        obtain ⟨k, s', new, hex, hr, hnew, hcl⟩ := ih (s := s₂)
          (.thread x :: .stackBase x :: freed) st₂ l₂ i₂ (by
            have hr₂ : s₂.reaper (.thread x :: .stackBase x :: freed) =
                ⟨s.currentThread, s.idleThread, s.status, lists, all,
                  .thread x :: .stackBase x :: freed⟩ := by
              unfold State.reaper
              rw [ha.current, ha.idle, ha.status, ha.lists, ha.allThreads]
              rfl
            rw [hr₂]
            exact hrun)
        refine ⟨_, s', new ++ [.thread x, .stackBase x], execs_cons hst hstep
          (execs_trans he₁ (execs_trans he₂ hex)), hr, by simp [hnew], hcl.stack, hcl.lock,
          hcl.interrupts, hcl.esp.trans ha.esp, fun t ↦ ?_⟩
        rw [hcl.allocated, al₂, al₁]
        by_cases ht : t = x
        · simp [ht]
        · simp [ht, State.unlinked]

end

end AlienOS.Kernel
