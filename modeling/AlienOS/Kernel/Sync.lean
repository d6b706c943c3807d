import AlienOS.Kernel.Placement

/-!
# Sync — semaphores, mutexes and condition variables without the scheduler

What a thread does to the synchronisation objects does not depend on who runs when.  Here any thread
that is on no wait queue may take the next step of its task, and the lists are read off the history.
-/

open AlienOS.Lib

namespace AlienOS.Kernel

/-- The interrupt frame and what leads into the handler: nothing here touches a synchronisation
object. -/
def Op.IsSkip : Op → Bool
  | .interruptRestore _ | .iret _ | .threadYield | .cleanZombies _ _ => true
  | _ => false

/-- What is left of a stack apart from interrupt handling on top. -/
def strip (ops : List Op) : List Op := ops.dropWhile Op.IsSkip

theorem strip_skip {o : Op} (h : o.IsSkip) (ops : List Op) : strip (o :: ops) = strip ops := by
  simp [strip, h]

theorem strip_of_not_skip {op : Op} (h : op.IsSkip = false) (ops : List Op) :
    strip (op :: ops) = op :: ops := by
  simp [strip, h]

theorem strip_cons (op : Op) (ops : List Op) :
    strip (op :: ops) = if op.IsSkip then strip ops else op :: ops := List.dropWhile_cons

@[simp] theorem strip_nil : strip [] = [] := rfl

/-- The events that say something about synchronisation objects. -/
def Event.IsSync : Event → Bool
  | .added (.waitQueue _) _ | .removed (.waitQueue _) _ | .granted _ _ | .upped _ _
  | .acquired _ _ | .released _ _ | .waited _ _ _ | .signalled _ _ | .broadcasted _ _
  | .returned _ _ _ => true
  | _ => false

@[ext] structure Sync where
  count : SemRef → Int
  holder : MutexRef → Option Tid
  recursionCount : MutexRef → Word
  blockerType : Tid → BlockerType
  blockedOn : Tid → Option Blocker
  /-- what each thread still has to do -/
  task : Tid → List Op
  /-- history, latest event first -/
  log : List Event

namespace Sync

def queue (v : Sync) (q : WaitQueue) : List Tid := listsOf v.log (.waitQueue q)

/-- `t` waits for nobody. -/
def Free (v : Sync) (t : Tid) : Prop := ∀ q, t ∉ v.queue q

def setTask (v : Sync) (t : Tid) (ops : List Op) : Sync :=
  { v with task := Function.update v.task t ops }

def push (v : Sync) (t : Tid) (ops : List Op) : Sync := v.setTask t (ops ++ v.task t)

def logged (v : Sync) (e : Event) : Sync := { v with log := e :: v.log }

def setRecord (v : Sync) (t : Tid) (type : BlockerType) (on : Option Blocker) : Sync :=
  { v with
    blockerType := Function.update v.blockerType t type
    blockedOn := Function.update v.blockedOn t on }

/-- `x` comes off `queue` and goes on. -/
def woken (v : Sync) (queue : WaitQueue) (x : Tid) : Sync :=
  (v.setRecord x .none none).logged (.removed (.waitQueue queue) x)

def wake (queue : WaitQueue) (v : Sync) : Sync :=
  match v.queue queue with
  | [] => v
  | x :: _ => v.woken queue x

def wakeAll (queue : WaitQueue) (v : Sync) : Sync :=
  (v.queue queue).foldl (fun v x ↦ v.woken queue x) v

def setCount (v : Sync) (sem : SemRef) (n : Int) : Sync :=
  { v with count := Function.update v.count sem n }

def setHolder (v : Sync) (mutex : MutexRef) (t : Option Tid) : Sync :=
  { v with holder := Function.update v.holder mutex t }

def setRecursion (v : Sync) (mutex : MutexRef) (n : Word) : Sync :=
  { v with recursionCount := Function.update v.recursionCount mutex n }

/-- What `semaphore_down` keeps of an existing record. -/
def note (sem : SemRef) (t : Tid) (v : Sync) : Sync :=
  if v.blockerType t = .none then v.setRecord t .semaphore (some (.semaphore sem)) else v

def down (sem : SemRef) (t : Tid) (v : Sync) : Sync :=
  if v.count sem - 1 < 0 then
    ((note sem t v).setCount sem (v.count sem - 1)).logged (.added (.waitQueue (.semaphore sem)) t)
  else (v.setCount sem (v.count sem - 1)).logged (.granted sem t)

def up (sem : SemRef) (t : Tid) (v : Sync) : Sync :=
  wake (.semaphore sem) ((v.setCount sem (v.count sem + 1)).logged (.upped sem t))

def acquire (mutex : MutexRef) (t : Tid) (enabled : Bool) (v : Sync) : Sync :=
  if v.holder mutex = some t then
    (v.setRecursion mutex (v.recursionCount mutex + 1)).logged (.acquired mutex t)
  else down (.ofMutex mutex) t
    ((v.push t [.mutexAcquired mutex enabled]).setRecord t .mutex (some (.mutex mutex)))

/-- `t` releases a mutex that it holds. -/
def release (mutex : MutexRef) (t : Tid) (v : Sync) : Sync :=
  let n := v.recursionCount mutex - 1
  let v := (v.setRecursion mutex n).logged (.released mutex t)
  if n = 0 then up (.ofMutex mutex) t (v.setHolder mutex none) else v

/-- Nobody has done anything yet, and the idle thread never will. -/
def start (idle : Tid) (count : Nat → Nat) : Sync where
  count
    | .user n => count n
    | .ofMutex _ => 1
  holder _ := none
  recursionCount _ := 0
  blockerType _ := .none
  blockedOn _ := none
  task := Function.update (fun _ ↦ []) idle [.cpuIdleLoop]
  log := []

/-- Functions that look at no task. -/
def Blind (F : Sync → Sync) : Prop := ∀ v t ops, F (v.setTask t ops) = (F v).setTask t ops

theorem blind_woken (queue : WaitQueue) (x : Tid) : Blind fun v ↦ v.woken queue x :=
  fun _ _ _ ↦ rfl

theorem blind_wake (queue : WaitQueue) : Blind (wake queue) := by
  intro v t ops
  unfold wake
  have hq : (v.setTask t ops).queue queue = v.queue queue := rfl
  rw [hq]
  cases v.queue queue <;> rfl

theorem blind_wakeAll (queue : WaitQueue) : Blind (wakeAll queue) := by
  intro v t ops
  have h : ∀ (xs : List Tid) (v : Sync), xs.foldl (fun v x ↦ v.woken queue x) (v.setTask t ops) =
      (xs.foldl (fun v x ↦ v.woken queue x) v).setTask t ops := by
    intro xs
    induction xs with
    | nil => exact fun v ↦ rfl
    | cons x xs ih => exact fun v ↦ ih (v.woken queue x)
  exact h _ v

theorem blind_note (sem : SemRef) (t : Tid) : Blind (note sem t) := by
  intro v u ops
  unfold note
  by_cases hr : v.blockerType t = .none
  · have hr' : (v.setTask u ops).blockerType t = .none := hr
    rw [if_pos hr, if_pos hr']
    rfl
  · have hr' : ¬ (v.setTask u ops).blockerType t = .none := hr
    rw [if_neg hr, if_neg hr']

theorem blind_down (sem : SemRef) (t : Tid) : Blind (down sem t) := by
  intro v u ops
  unfold down
  rw [blind_note]
  by_cases hn : v.count sem - 1 < 0
  · have hn' : (v.setTask u ops).count sem - 1 < 0 := hn
    rw [if_pos hn, if_pos hn']
    rfl
  · have hn' : ¬ (v.setTask u ops).count sem - 1 < 0 := hn
    rw [if_neg hn, if_neg hn']
    rfl

theorem blind_up (sem : SemRef) (t : Tid) : Blind (up sem t) :=
  fun v u ops ↦ blind_wake _ ((v.setCount sem (v.count sem + 1)).logged (.upped sem t)) u ops

theorem blind_release (mutex : MutexRef) (t : Tid) : Blind (release mutex t) := by
  intro v u ops
  unfold release
  by_cases hn : v.recursionCount mutex - 1 = 0
  · have hn' : (v.setTask u ops).recursionCount mutex - 1 = 0 := hn
    simp only [if_pos hn, if_pos hn']
    exact blind_up _ _ (((v.setRecursion mutex (v.recursionCount mutex - 1)).logged
      (.released mutex t)).setHolder mutex none) u ops
  · have hn' : ¬ (v.setTask u ops).recursionCount mutex - 1 = 0 := hn
    simp only [if_neg hn, if_neg hn']
    rfl

theorem Blind.task {F : Sync → Sync} (hF : Blind F) (v : Sync) (t : Tid) :
    (F v).task t = v.task t := by
  have h : v.setTask t (v.task t) = v := by
    unfold setTask
    rw [Function.update_eq_self]
  rw [← h, hF]
  simp [setTask]

/-- What an operation of `t` does; `enabled` is the interrupt flag it finds. -/
def exec (t : Tid) (enabled : Bool) (op : Op) (v : Sync) : Sync :=
  match op with
  | .semaphoreDown sem => down sem t v
  | .semaphoreTryDown sem =>
    if v.count sem > 0 then (v.setCount sem (v.count sem - 1)).logged (.granted sem t) else v
  | .semaphoreUp sem => up sem t v
  | .mutexAcquire mutex => acquire mutex t enabled v
  | .mutexAcquired mutex _ =>
    ((v.setHolder mutex (some t)).setRecursion mutex 1).logged (.acquired mutex t)
  | .mutexRelease mutex => release mutex t v
  | .tryTest mutex =>
    v.push t [if v.holder mutex = some t then .tryIncrement mutex else .tryDown mutex]
  | .tryIncrement mutex =>
    (v.setRecursion mutex (v.recursionCount mutex + 1)).logged (.acquired mutex t)
  | .tryDown mutex =>
    if v.count (.ofMutex mutex) > 0 then
      ((v.setCount (.ofMutex mutex) (v.count (.ofMutex mutex) - 1)).logged
        (.granted (.ofMutex mutex) t)).push t [.trySetHolder mutex, .trySetCount mutex]
    else v
  | .trySetHolder mutex => v.setHolder mutex (some t)
  | .trySetCount mutex => (v.setRecursion mutex 1).logged (.acquired mutex t)
  | .condvarWait cond mutex =>
    (release mutex t (((v.setRecord t .condVar (some (.condVar cond))).logged
      (.added (.waitQueue (.condvar cond)) t)).logged (.waited cond mutex t))).push t
        [.mutexAcquire mutex, .condvarReturn cond mutex]
  | .condvarReturn cond mutex => v.logged (.returned cond mutex t)
  | .condvarSignal cond => wake (.condvar cond) (v.logged (.signalled cond t))
  | .condvarBroadcast cond => wakeAll (.condvar cond) (v.logged (.broadcasted cond t))
  | .cpuIdleLoop => v.push t [.cpuIdleLoop]
  | _ => v

/-- The operations that one leaves to its thread. -/
def pushes (t : Tid) (enabled : Bool) (op : Op) (v : Sync) : List Op :=
  match op with
  | .mutexAcquire mutex =>
    if v.holder mutex = some t then [] else [.mutexAcquired mutex enabled]
  | .tryTest mutex => [if v.holder mutex = some t then .tryIncrement mutex else .tryDown mutex]
  | .tryDown mutex =>
    if v.count (.ofMutex mutex) > 0 then [.trySetHolder mutex, .trySetCount mutex] else []
  | .condvarWait cond mutex => [.mutexAcquire mutex, .condvarReturn cond mutex]
  | .cpuIdleLoop => [.cpuIdleLoop]
  | _ => []

/-- What an operation does apart from the task of its thread does not depend on that task. -/
theorem exec_settle (t : Tid) (enabled : Bool) (op : Op) (v : Sync) (ops : List Op) :
    (exec t enabled op (v.setTask t ops)).setTask t
        (strip ((exec t enabled op (v.setTask t ops)).task t)) =
      (exec t enabled op v).setTask t (strip (pushes t enabled op v ++ ops)) := by
  have hblind : ∀ F : Sync → Sync, Blind F → (F (v.setTask t ops)).setTask t
      (strip ((F (v.setTask t ops)).task t)) = (F v).setTask t (strip ops) := by
    intro F hF
    rw [hF.task, hF]
    simp [setTask]
  cases op with
  | semaphoreDown sem => exact hblind _ (blind_down sem t)
  | semaphoreTryDown sem =>
    refine hblind (exec t enabled (.semaphoreTryDown sem)) fun v u ops ↦ ?_
    by_cases hn : v.count sem > 0
    · have hn' : (v.setTask u ops).count sem > 0 := hn
      simp only [exec, if_pos hn, if_pos hn']
      rfl
    · have hn' : ¬ (v.setTask u ops).count sem > 0 := hn
      simp only [exec, if_neg hn, if_neg hn']
  | semaphoreUp sem => exact hblind _ (blind_up sem t)
  | mutexAcquire mutex =>
    by_cases hh : v.holder mutex = some t
    · have hh' : (v.setTask t ops).holder mutex = some t := hh
      simp only [exec, acquire, pushes, if_pos hh, if_pos hh']
      simp [logged, setRecursion, setTask]
    · have hh' : ¬ (v.setTask t ops).holder mutex = some t := hh
      simp only [exec, acquire, pushes, if_neg hh, if_neg hh']
      have hd := blind_down (.ofMutex mutex) t
      rw [hd.task, ← hd, ← hd]
      congr 1
      simp [push, setTask, setRecord]
  | mutexRelease mutex => exact hblind _ (blind_release mutex t)
  | tryTest mutex =>
    by_cases hh : v.holder mutex = some t
    · simp [exec, pushes, push, setTask, hh]
    · simp [exec, pushes, push, setTask, hh]
  | tryDown mutex =>
    by_cases hn : v.count (.ofMutex mutex) > 0
    · have hn' : (v.setTask t ops).count (.ofMutex mutex) > 0 := hn
      simp only [exec, pushes, if_pos hn, if_pos hn']
      simp [push, setTask, logged, setCount]
    · have hn' : ¬ (v.setTask t ops).count (.ofMutex mutex) > 0 := hn
      simp only [exec, pushes, if_neg hn, if_neg hn']
      simp [setTask]
  | condvarWait cond mutex =>
    let F : Sync → Sync := fun v ↦ release mutex t (((v.setRecord t .condVar
      (some (.condVar cond))).logged (.added (.waitQueue (.condvar cond)) t)).logged
        (.waited cond mutex t))
    have hF : Blind F := fun v u r ↦ blind_release mutex t (((v.setRecord t .condVar
      (some (.condVar cond))).logged (.added (.waitQueue (.condvar cond)) t)).logged
        (.waited cond mutex t)) u r
    show ((F (v.setTask t ops)).push t [.mutexAcquire mutex, .condvarReturn cond mutex]).setTask t
      (strip (((F (v.setTask t ops)).push t
        [.mutexAcquire mutex, .condvarReturn cond mutex]).task t)) =
      ((F v).push t [.mutexAcquire mutex, .condvarReturn cond mutex]).setTask t
        (strip ([.mutexAcquire mutex, .condvarReturn cond mutex] ++ ops))
    simp only [push, hF.task]
    rw [hF]
    simp [setTask]
  | condvarSignal cond =>
    exact hblind (fun v ↦ wake (.condvar cond) (v.logged (.signalled cond t)))
      fun v u r ↦ blind_wake _ (v.logged (.signalled cond t)) u r
  | condvarBroadcast cond =>
    exact hblind (fun v ↦ wakeAll (.condvar cond) (v.logged (.broadcasted cond t)))
      fun v u r ↦ blind_wakeAll _ (v.logged (.broadcasted cond t)) u r
  | _ => simp [exec, pushes, push, setTask, logged, setHolder, setRecursion]

/-- `mutex_release` asserts that its caller holds the mutex and that the count does not wrap. -/
def Holds (v : Sync) (mutex : MutexRef) (t : Tid) : Prop :=
  v.holder mutex = some t ∧ v.recursionCount mutex ≠ 0

/-- The mutex an operation releases. -/
def Releases : Op → Option MutexRef
  | .mutexRelease mutex => some mutex
  | .condvarWait _ mutex => some mutex
  | _ => none

end Sync

/-- What a thread does next, as far as synchronisation goes. -/
inductive Act where
  | call (c : Call)
  | exec (op : Op)
  deriving DecidableEq, Repr

/-- A call that neither ends a thread nor makes one. -/
def Call.Quiet (c : Call) : Prop := c ≠ .threadExit ∧ c ≠ .threadCreateArg

/-- A step of thread `t`. -/
inductive Sync.Step (t : Tid) : Act → Sync → Sync → Prop where
  | call {v : Sync} {c : Call} (hc : c.Quiet) (hf : v.Free t) (ht : v.task t = []) :
    Step t (.call c) v (v.setTask t (strip c.ops))
  | exec {v v' : Sync} {op : Op} {ops : List Op} (enabled : Bool) (hf : v.Free t)
    (ht : v.task t = op :: ops) (hr : ∀ mutex, Sync.Releases op = some mutex → v.Holds mutex t)
    (he : v' = Sync.exec t enabled op (v.setTask t ops)) :
    Step t (.exec op) v (v'.setTask t (strip (v'.task t)))

/-! ## Who joins a queue -/

/-- The operation puts its thread on the queue, if on any. -/
def Op.Joins (op : Op) : WaitQueue → Prop
  | .semaphore (.ofMutex mutex) => op = .semaphoreDown (.ofMutex mutex) ∨ op = .mutexAcquire mutex
  | .semaphore (.user n) => op = .semaphoreDown (.user n)
  | .condvar cond => ∃ mutex, op = .condvarWait cond mutex

theorem joins_acquire {mutex : MutexRef} {q : WaitQueue} (h : (Op.mutexAcquire mutex).Joins q) :
    q = .semaphore (.ofMutex mutex) := by
  cases q with
  | semaphore sem =>
    cases sem with
    | user n => cases h
    | ofMutex m =>
      rcases h with h | h
      · cases h
      · cases h
        rfl
  | condvar c =>
    obtain ⟨m, h⟩ := h
    cases h

theorem joins_wait {cond : Nat} {mutex : MutexRef} {q : WaitQueue}
    (h : (Op.condvarWait cond mutex).Joins q) : q = .condvar cond := by
  cases q with
  | semaphore sem =>
    cases sem with
    | user n => cases h
    | ofMutex m => rcases h with h | h <;> cases h
  | condvar c =>
    obtain ⟨m, h⟩ := h
    cases h
    rfl

/-- The operations that can block are few. -/
theorem joins_of {op : Op} {q : WaitQueue} (h : op.Joins q) :
    (∃ sem, op = .semaphoreDown sem) ∨ (∃ mutex, op = .mutexAcquire mutex) ∨
      ∃ cond mutex, op = .condvarWait cond mutex := by
  cases q with
  | semaphore sem =>
    cases sem with
    | user n => exact .inl ⟨_, h⟩
    | ofMutex m => exact h.imp (fun h ↦ ⟨_, h⟩) fun h ↦ .inl ⟨_, h⟩
  | condvar c => exact .inr (.inr ⟨c, h⟩)

namespace Sync

variable {v v' : Sync} {t u x : Tid} {q : WaitQueue}

theorem mem_queue_logged {e : Event} (h : x ∈ (v.logged e).queue q) :
    x ∈ v.queue q ∨ e = .added (.waitQueue q) x := by
  cases e with
  | added i y =>
    cases i with
    | waitQueue p =>
      by_cases hp : q = p
      · subst hp
        simp only [queue, logged, listsOf, Event.onLists, Function.update_self, List.mem_append,
          List.mem_singleton] at h
        exact h.imp_right fun hx ↦ by rw [hx]
      · simp only [queue, logged, listsOf, Event.onLists, ListId.waitQueue.injEq, hp, ne_eq,
          not_false_eq_true, Function.update_of_ne] at h
        exact .inl h
    | _ => exact .inl h
  | removed i y =>
    by_cases hi : ListId.waitQueue q = i
    · subst hi
      simp only [queue, logged, listsOf, Event.onLists, Function.update_self] at h
      exact .inl (List.mem_of_mem_erase h)
    · simp only [queue, logged, listsOf, Event.onLists, hi, ne_eq, not_false_eq_true,
        Function.update_of_ne] at h
      exact .inl h
  | _ => exact .inl h

theorem mem_queue_neutral {e : Event} (he : ∀ y, e ≠ .added (.waitQueue q) y)
    (h : x ∈ (v.logged e).queue q) : x ∈ v.queue q :=
  (mem_queue_logged h).resolve_right (he x)

theorem mem_queue_woken {p : WaitQueue} {y : Tid} (h : x ∈ (v.woken p y).queue q) : x ∈ v.queue q :=
  mem_queue_neutral (v := v.setRecord y .none none) (by simp) h

theorem mem_queue_wake {p : WaitQueue} (h : x ∈ (wake p v).queue q) : x ∈ v.queue q := by
  unfold wake at h
  split at h
  · exact h
  · exact mem_queue_woken h

theorem mem_queue_wakeAll {p : WaitQueue} (h : x ∈ (wakeAll p v).queue q) : x ∈ v.queue q := by
  have hall : ∀ (ys : List Tid) (v : Sync),
      x ∈ (ys.foldl (fun v y ↦ v.woken p y) v).queue q → x ∈ v.queue q := by
    intro ys
    induction ys with
    | nil => exact fun _ h ↦ h
    | cons y ys ih => exact fun v h ↦ mem_queue_woken (ih _ h)
  exact hall _ v h

theorem mem_queue_down {sem : SemRef} (h : x ∈ (down sem t v).queue q) :
    x ∈ v.queue q ∨ q = .semaphore sem ∧ x = t := by
  unfold down at h
  split at h
  · rcases mem_queue_logged h with h | he
    · left
      have hnote : (note sem t v).queue = v.queue := by
        unfold note
        split <;> rfl
      rw [← hnote]
      exact h
    · cases he
      exact .inr ⟨rfl, rfl⟩
  · have h' := mem_queue_neutral (v := v.setCount sem (v.count sem - 1)) (by simp) h
    exact .inl h'

theorem mem_queue_up {sem : SemRef} (h : x ∈ (up sem t v).queue q) : x ∈ v.queue q := by
  have h' := mem_queue_neutral (v := v.setCount sem (v.count sem + 1)) (by simp) (mem_queue_wake h)
  exact h'

theorem mem_queue_release {mutex : MutexRef} (h : x ∈ (release mutex t v).queue q) :
    x ∈ v.queue q := by
  have hlog : x ∈ ((v.setRecursion mutex (v.recursionCount mutex - 1)).logged
      (.released mutex t)).queue q := by
    unfold release at h
    simp only at h
    split at h
    · have hup := mem_queue_up h
      exact hup
    · exact h
  have h' := mem_queue_neutral (by simp) hlog
  exact h'

theorem mem_queue_exec {b : Bool} {op : Op} (h : x ∈ (exec t b op v).queue q) :
    x ∈ v.queue q ∨ x = t ∧ op.Joins q := by
  cases op with
  | semaphoreDown sem =>
    rcases mem_queue_down h with h | ⟨rfl, rfl⟩
    · exact .inl h
    · cases sem with
      | user n => exact .inr ⟨rfl, rfl⟩
      | ofMutex m => exact .inr ⟨rfl, .inl rfl⟩
  | semaphoreTryDown sem =>
    unfold exec at h
    simp only at h
    split at h
    · have h' := mem_queue_neutral (v := v.setCount sem (v.count sem - 1)) (by simp) h
      exact .inl h'
    · exact .inl h
  | semaphoreUp sem => exact .inl (mem_queue_up h)
  | mutexAcquire m =>
    unfold exec acquire at h
    simp only at h
    split at h
    · have h' := mem_queue_neutral (v := v.setRecursion m (v.recursionCount m + 1)) (by simp) h
      exact .inl h'
    · rcases mem_queue_down h with h | ⟨rfl, rfl⟩
      · exact .inl h
      · exact .inr ⟨rfl, .inr rfl⟩
  | mutexRelease m => exact .inl (mem_queue_release h)
  | tryDown m =>
    unfold exec at h
    simp only at h
    split at h
    · have h' := mem_queue_neutral (v := v.setCount (.ofMutex m) (v.count (.ofMutex m) - 1))
        (e := .granted (.ofMutex m) t) (by simp) h
      exact .inl h'
    · exact .inl h
  | condvarWait c m =>
    have h₁ := mem_queue_release (v := ((v.setRecord t .condVar (some (.condVar c))).logged
      (.added (.waitQueue (.condvar c)) t)).logged (.waited c m t)) h
    rcases mem_queue_logged (mem_queue_neutral (by simp) h₁) with h₂ | he
    · exact .inl h₂
    · cases he
      exact .inr ⟨rfl, m, rfl⟩
  | condvarSignal c => exact .inl (mem_queue_neutral (by simp) (mem_queue_wake h))
  | condvarBroadcast c => exact .inl (mem_queue_neutral (by simp) (mem_queue_wakeAll h))
  | mutexAcquired m b' | tryIncrement m | trySetCount m | condvarReturn c m =>
    exact .inl (mem_queue_neutral (by simp) h)
  | _ => exact .inl h

/-- Nobody is put on a queue by another. -/
theorem Step.joins {act : Act} (hs : Sync.Step u act v v') (h : x ∈ v'.queue q) :
    x ∈ v.queue q ∨ x = u ∧ ∃ op, act = .exec op ∧ op.Joins q := by
  cases hs with
  | call => exact .inl h
  | @exec _ w op ops b hf ht hr he =>
    subst he
    exact (mem_queue_exec (v := v.setTask u ops) h).imp_right fun ⟨hx, hj⟩ ↦ ⟨hx, op, rfl, hj⟩

end Sync

/-! ## The machine seen this way -/

def State.sync (s : State) : Sync where
  count := s.count
  holder := s.holder
  recursionCount := s.recursionCount
  blockerType := s.blockerType
  blockedOn := s.blockedOn
  task t := strip (s.stackOf t)
  log := s.trace.filter Event.IsSync

theorem listsOf_sync (tr : List Event) (q : WaitQueue) :
    listsOf (tr.filter Event.IsSync) (.waitQueue q) = listsOf tr (.waitQueue q) := by
  induction tr with
  | nil => rfl
  | cons e tr ih =>
    rw [List.filter_cons]
    cases e with
    | added i x =>
      cases i with
      | waitQueue p =>
        by_cases hp : p = q
        · subst hp
          simp [Event.IsSync, listsOf, Event.onLists, ih]
        · have hq : ListId.waitQueue q ≠ .waitQueue p := by
            intro he
            cases he
            exact hp rfl
          simp [Event.IsSync, listsOf, Event.onLists, Function.update_of_ne hq, ih]
      | _ => simp [Event.IsSync, listsOf, Event.onLists, ih]
    | removed i x =>
      cases i with
      | waitQueue p =>
        by_cases hp : p = q
        · subst hp
          simp [Event.IsSync, listsOf, Event.onLists, ih]
        · have hq : ListId.waitQueue q ≠ .waitQueue p := by
            intro he
            cases he
            exact hp rfl
          simp [Event.IsSync, listsOf, Event.onLists, Function.update_of_ne hq, ih]
      | _ => simp [Event.IsSync, listsOf, Event.onLists, ih]
    | _ => simp [Event.IsSync, listsOf, Event.onLists, ih]

theorem State.sync_queue (s : State) (q : WaitQueue) :
    s.sync.queue q = listsOf s.trace (.waitQueue q) := listsOf_sync _ _

/-- What a step of the machine is for the synchronisation objects. -/
def State.act (s : State) : Action → Option Act
  | .call c => some (.call c)
  | .exec => s.stack.head?.map .exec
  | _ => none

end AlienOS.Kernel
