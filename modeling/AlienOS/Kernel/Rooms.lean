import Mathlib.Data.List.Nodup
import AlienOS.Kernel.Sync

/-!
# Rooms — who waits on which condition variable

This is read off the history: a thread is queued by its `condvar_wait` and popped by a signal or
broadcast after it.
-/

open AlienOS.Lib

namespace AlienOS.Kernel

/-- How far a thread has come with its latest `condvar_wait`. -/
inductive Waiting where
  | no
  | queued (cond : Nat) (mutex : MutexRef)
  | popped (cond : Nat) (mutex : MutexRef)
  deriving DecidableEq, Repr

def Waiting.pop (cond : Nat) : Waiting → Waiting
  | .queued c mutex => if c = cond then .popped c mutex else .queued c mutex
  | w => w

def Event.onWaiting (t : Tid) (e : Event) (w : Waiting) : Waiting :=
  match e with
  | .waited c mutex u => if u = t then .queued c mutex else w
  | .removed (.waitQueue (.condvar c)) u => if u = t then w.pop c else w
  | .returned _ _ u => if u = t then .no else w
  | _ => w

def waitOf (t : Tid) : List Event → Waiting
  | [] => .no
  | e :: tr => e.onWaiting t (waitOf t tr)

theorem waitOf_sync (t : Tid) (tr : List Event) : waitOf t (tr.filter Event.IsSync) = waitOf t tr := by
  induction tr with
  | nil => rfl
  | cons e tr ih =>
    rw [List.filter_cons]
    cases e with
    | removed i x =>
      cases i with
      | waitQueue q => cases q <;> simp [Event.IsSync, waitOf, Event.onWaiting, ih]
      | _ => simp [Event.IsSync, waitOf, Event.onWaiting, ih]
    | added i x => cases i <;> simp [Event.IsSync, waitOf, Event.onWaiting, ih]
    | _ => simp [Event.IsSync, waitOf, Event.onWaiting, ih]

/-! ## The condition variables by themselves -/

@[ext] structure Rooms where
  queue : Nat → List Tid
  wait : Tid → Waiting

namespace Rooms

def enter (r : Rooms) (t : Tid) (c : Nat) (mutex : MutexRef) : Rooms where
  queue := Function.update r.queue c (r.queue c ++ [t])
  wait := Function.update r.wait t (.queued c mutex)

def woken (r : Rooms) (c : Nat) (x : Tid) : Rooms where
  queue := Function.update r.queue c ((r.queue c).erase x)
  wait := Function.update r.wait x ((r.wait x).pop c)

def wake (c : Nat) (r : Rooms) : Rooms :=
  match r.queue c with
  | [] => r
  | x :: _ => r.woken c x

def wakeAll (c : Nat) (r : Rooms) : Rooms := (r.queue c).foldl (fun r x ↦ r.woken c x) r

def leave (r : Rooms) (t : Tid) : Rooms := { r with wait := Function.update r.wait t .no }

/-- Whoever has called `condvar_wait` and has not been popped is in the queue, once. -/
structure Right (r : Rooms) : Prop where
  nodup : ∀ c, (r.queue c).Nodup
  mem_iff : ∀ t c, t ∈ r.queue c ↔ ∃ mutex, r.wait t = .queued c mutex

variable {r : Rooms} {t x : Tid} {c : Nat} {mutex : MutexRef}

theorem Right.wait_ne (h : r.Right) (hf : ∀ c, t ∉ r.queue c) (c : Nat) (mutex : MutexRef) :
    r.wait t ≠ .queued c mutex := fun he ↦ hf c ((h.mem_iff t c).mpr ⟨mutex, he⟩)

theorem Right.enter (h : r.Right) (hf : ∀ c, t ∉ r.queue c) : (r.enter t c mutex).Right := by
  have hne := h.wait_ne hf
  obtain ⟨h₁, h₂⟩ := h
  constructor
  · intro c'
    by_cases hc : c' = c
    · subst hc
      have hdis : (r.queue c' ++ [t]).Nodup := by
        apply List.nodup_append.mpr
        refine ⟨h₁ c', List.nodup_singleton t, fun y hy z hz he ↦ hf c' ?_⟩
        rwa [he, List.mem_singleton.mp hz] at hy
      simpa [Rooms.enter] using hdis
    · simpa [Rooms.enter, hc] using h₁ c'
  · intro u c'
    by_cases hu : u = t
    · subst hu
      by_cases hc : c' = c
      · subst hc
        simp [Rooms.enter]
      · simp [Rooms.enter, hc, hf c', Ne.symm hc]
    · by_cases hc : c' = c
      · subst hc
        simpa [Rooms.enter, hu] using h₂ u c'
      · simpa [Rooms.enter, hu, hc] using h₂ u c'

theorem Right.woken (h : r.Right) (hx : x ∈ r.queue c) : (r.woken c x).Right := by
  obtain ⟨h₁, h₂⟩ := h
  obtain ⟨m, hm⟩ := (h₂ x c).mp hx
  constructor
  · intro c'
    by_cases hc : c' = c
    · subst hc
      simpa [Rooms.woken] using (h₁ c').erase x
    · simpa [Rooms.woken, hc] using h₁ c'
  · intro u c'
    by_cases hu : u = x
    · subst hu
      by_cases hc : c' = c
      · subst hc
        simp [Rooms.woken, hm, Waiting.pop, (h₁ c').mem_erase_iff]
      · have hnot : u ∉ r.queue c' := by
          intro hmem
          obtain ⟨m', hm'⟩ := (h₂ u c').mp hmem
          rw [hm] at hm'
          cases hm'
          exact hc rfl
        simp [Rooms.woken, hc, hm, Waiting.pop, hnot]
    · by_cases hc : c' = c
      · subst hc
        simpa [Rooms.woken, hu, (h₁ c').mem_erase_iff] using h₂ u c'
      · simpa [Rooms.woken, hu, hc] using h₂ u c'

theorem Right.leave (h : r.Right) (hf : ∀ c, t ∉ r.queue c) : (r.leave t).Right := by
  refine ⟨h.nodup, fun u c ↦ ?_⟩
  by_cases hu : u = t
  · subst hu
    simp [Rooms.leave, hf c]
  · simpa [Rooms.leave, hu] using h.mem_iff u c

theorem Right.wakeAll (h : r.Right) (c : Nat) : (r.wakeAll c).Right := by
  have hall : ∀ (xs : List Tid) (r : Rooms), r.Right → (∀ x ∈ xs, x ∈ r.queue c) → xs.Nodup →
      (xs.foldl (fun r x ↦ r.woken c x) r).Right := by
    intro xs
    induction xs with
    | nil => exact fun r h _ _ ↦ h
    | cons x xs ih =>
      intro r h hx hnd
      obtain ⟨hn, hnd⟩ := List.nodup_cons.mp hnd
      apply ih _ (h.woken (hx x List.mem_cons_self)) _ hnd
      intro y hy
      have hyx : y ≠ x := by
        rintro rfl
        exact hn hy
      simpa [Rooms.woken, (h.nodup c).mem_erase_iff, hyx] using hx y (List.mem_cons_of_mem _ hy)
  exact hall _ r h (fun _ hx ↦ hx) (h.nodup c)

/-- Only a thread itself comes to wait, and only itself is done with it. -/
structure Stays (r r' : Rooms) (t : Tid) : Prop where
  queue : ∀ c, t ∈ r'.queue c → t ∈ r.queue c
  wait : r'.wait t = r.wait t ∨ ∃ c mutex, r.wait t = .queued c mutex ∧ r'.wait t = .popped c mutex

theorem Stays.refl (r : Rooms) (t : Tid) : r.Stays r t := ⟨fun _ h ↦ h, .inl rfl⟩

theorem Stays.trans {r₁ r₂ r₃ : Rooms} (h : r₁.Stays r₂ t) (h' : r₂.Stays r₃ t) :
    r₁.Stays r₃ t := by
  refine ⟨fun c hm ↦ h.queue c (h'.queue c hm), ?_⟩
  rcases h.wait with h₁ | ⟨c, m, h₁, h₂⟩ <;> rcases h'.wait with h₃ | ⟨c', m', h₃, h₄⟩
  · exact .inl (h₃.trans h₁)
  · exact .inr ⟨c', m', h₁.symm.trans h₃, h₄⟩
  · exact .inr ⟨c, m, h₁, h₃.trans h₂⟩
  · rw [h₂] at h₃
    cases h₃

theorem stays_woken (r : Rooms) (c : Nat) (x t : Tid) : r.Stays (r.woken c x) t := by
  constructor
  · intro c' hm
    by_cases hc : c' = c
    · subst hc
      simp only [Rooms.woken, Function.update_self] at hm
      exact List.mem_of_mem_erase hm
    · simpa [Rooms.woken, hc] using hm
  · by_cases hx : t = x
    · subst hx
      cases hw : r.wait t with
      | queued c' m =>
        by_cases hc : c' = c
        · subst hc
          exact .inr ⟨c', m, rfl, by simp [Rooms.woken, Waiting.pop, hw]⟩
        · left
          simp [Rooms.woken, Waiting.pop, hw, hc]
      | _ =>
        left
        simp [Rooms.woken, Waiting.pop, hw]
    · left
      simp [Rooms.woken, hx]

theorem stays_wake (r : Rooms) (c : Nat) (t : Tid) : r.Stays (r.wake c) t := by
  unfold Rooms.wake
  split
  · exact .refl r t
  · exact stays_woken r c _ t

theorem stays_wakeAll (r : Rooms) (c : Nat) (t : Tid) : r.Stays (r.wakeAll c) t := by
  unfold Rooms.wakeAll
  generalize r.queue c = xs
  induction xs generalizing r with
  | nil => exact .refl r t
  | cons x xs ih => exact (stays_woken r c x t).trans (ih _)

/-- A step of thread `t`, which is in no queue. -/
inductive Step (t : Tid) (r : Rooms) : Rooms → Prop where
  | enter (c : Nat) (mutex : MutexRef) : Step t r (r.enter t c mutex)
  | leave : Step t r (r.leave t)
  | wake (c : Nat) : Step t r (r.wake c)
  | wakeAll (c : Nat) : Step t r (r.wakeAll c)

variable {r' : Rooms} {u : Tid}

theorem Right.step (h : r.Right) (hf : ∀ c, t ∉ r.queue c) (hs : Step t r r') : r'.Right := by
  cases hs with
  | enter c m => exact h.enter hf
  | leave => exact h.leave hf
  | wake c =>
    unfold Rooms.wake
    split
    · exact h
    · rename_i hq
      exact h.woken (by simp [hq])
  | wakeAll c => exact h.wakeAll c

theorem Step.stays (hs : Step u r r') (hu : t ≠ u) : r.Stays r' t := by
  cases hs with
  | enter c m =>
    refine ⟨fun c' hm ↦ ?_, .inl (by simp [Rooms.enter, hu])⟩
    by_cases hc : c' = c
    · subst hc
      simpa [Rooms.enter, hu] using hm
    · simpa [Rooms.enter, hc] using hm
  | leave => exact ⟨fun c hm ↦ hm, .inl (by simp [Rooms.leave, hu])⟩
  | wake c => exact stays_wake r c t
  | wakeAll c => exact stays_wakeAll r c t

end Rooms

/-- What an operation of `t` is to the condition variables. -/
def Op.onRooms (t : Tid) (r : Rooms) : Op → Rooms
  | .condvarWait c mutex => r.enter t c mutex
  | .condvarReturn _ _ => r.leave t
  | .condvarSignal c => r.wake c
  | .condvarBroadcast c => r.wakeAll c
  | _ => r

/-- The events about condition variables. -/
def Event.IsRoom : Event → Bool
  | .added (.waitQueue (.condvar _)) _ | .removed (.waitQueue (.condvar _)) _
  | .waited _ _ _ | .returned _ _ _ => true
  | _ => false

namespace Sync

def rooms (v : Sync) : Rooms where
  queue c := v.queue (.condvar c)
  wait t := waitOf t v.log

section

variable {v v' : Sync} {t u : Tid} {act : Act} {mutex : MutexRef} {c : Nat}

theorem rooms_logged {e : Event} (he : e.IsRoom = false) : (v.logged e).rooms = v.rooms := by
  ext1
  · funext c
    apply listsOf_other
    · rintro u rfl
      cases he
    · rintro u rfl
      cases he
  · funext u
    cases e with
    | removed i x =>
      cases i with
      | waitQueue q =>
        cases q with
        | condvar c => cases he
        | semaphore => rfl
      | _ => rfl
    | waited | returned => cases he
    | _ => rfl

theorem rooms_note (sem : SemRef) : (note sem t v).rooms = v.rooms := by
  unfold note
  split <;> rfl

theorem rooms_down (sem : SemRef) : (down sem t v).rooms = v.rooms := by
  unfold down
  split
  · rw [rooms_logged rfl]
    exact rooms_note sem
  · rw [rooms_logged rfl]
    rfl

theorem rooms_wake_semaphore (sem : SemRef) : (wake (.semaphore sem) v).rooms = v.rooms := by
  unfold wake
  split
  · rfl
  · unfold woken
    rw [rooms_logged rfl]
    rfl

theorem rooms_up (sem : SemRef) : (up sem t v).rooms = v.rooms := by
  unfold up
  rw [rooms_wake_semaphore, rooms_logged rfl]
  rfl

theorem rooms_release : (release mutex t v).rooms = v.rooms := by
  unfold release
  simp only
  split
  · rw [rooms_up]
    exact rooms_logged rfl
  · exact rooms_logged rfl

theorem rooms_acquire (b : Bool) : (acquire mutex t b v).rooms = v.rooms := by
  unfold acquire
  split
  · exact rooms_logged rfl
  · rw [rooms_down]
    rfl

theorem rooms_woken (x : Tid) : (v.woken (.condvar c) x).rooms = v.rooms.woken c x := by
  ext1
  · funext c'
    by_cases hc : c' = c
    · subst hc
      simp [rooms, Rooms.woken, woken, setRecord, logged, queue, listsOf, Event.onLists]
    · simp [rooms, Rooms.woken, woken, setRecord, logged, queue, listsOf, Event.onLists, hc]
  · funext u
    by_cases hu : u = x
    · subst hu
      simp [rooms, Rooms.woken, woken, setRecord, logged, waitOf, Event.onWaiting]
    · simp [rooms, Rooms.woken, woken, setRecord, logged, waitOf, Event.onWaiting, hu, Ne.symm hu]

theorem rooms_wake : (wake (.condvar c) v).rooms = v.rooms.wake c := by
  have hq : v.rooms.queue c = v.queue (.condvar c) := rfl
  unfold wake Rooms.wake
  rw [hq]
  cases v.queue (.condvar c) with
  | nil => rfl
  | cons x xs => exact rooms_woken x

theorem rooms_wakeAll : (wakeAll (.condvar c) v).rooms = v.rooms.wakeAll c := by
  have hall : ∀ (xs : List Tid) (v : Sync), (xs.foldl (fun v x ↦ v.woken (.condvar c) x) v).rooms =
      xs.foldl (fun r x ↦ r.woken c x) v.rooms := by
    intro xs
    induction xs with
    | nil => exact fun v ↦ rfl
    | cons x xs ih =>
      intro v
      rw [List.foldl_cons, ih, rooms_woken]
      rfl
  exact hall _ v

theorem rooms_enter : (((v.setRecord t .condVar (some (.condVar c))).logged
      (.added (.waitQueue (.condvar c)) t)).logged (.waited c mutex t)).rooms =
        v.rooms.enter t c mutex := by
  ext1
  · funext c'
    by_cases hc : c' = c
    · subst hc
      simp [rooms, Rooms.enter, setRecord, logged, queue, listsOf, Event.onLists]
    · simp [rooms, Rooms.enter, setRecord, logged, queue, listsOf, Event.onLists, hc]
  · funext u
    by_cases hu : u = t
    · subst hu
      simp [rooms, Rooms.enter, setRecord, logged, waitOf, Event.onWaiting]
    · simp [rooms, Rooms.enter, setRecord, logged, waitOf, Event.onWaiting, hu, Ne.symm hu]

theorem rooms_exec (b : Bool) (op : Op) : (exec t b op v).rooms = op.onRooms t v.rooms := by
  cases op with
  | semaphoreDown sem => exact rooms_down sem
  | semaphoreTryDown sem =>
    unfold exec
    simp only
    split
    · rw [rooms_logged rfl]
      rfl
    · rfl
  | semaphoreUp sem => exact rooms_up sem
  | mutexAcquire m => exact rooms_acquire b
  | mutexAcquired m b' | tryIncrement m | trySetCount m =>
    unfold exec
    rw [rooms_logged rfl]
    rfl
  | mutexRelease m => exact rooms_release
  | tryDown m =>
    unfold exec
    simp only
    split
    · have h := rooms_logged (v := v.setCount (.ofMutex m) (v.count (.ofMutex m) - 1))
        (e := .granted (.ofMutex m) t) rfl
      exact h
    · rfl
  | condvarWait c m =>
    let w := ((v.setRecord t .condVar (some (.condVar c))).logged
      (.added (.waitQueue (.condvar c)) t)).logged (.waited c m t)
    have h : (release m t w).rooms = w.rooms := rooms_release
    exact h.trans rooms_enter
  | condvarReturn c m =>
    ext1
    · funext c'
      exact listsOf_other (e := .returned c m t) v.log (by simp) (by simp)
    · funext u
      by_cases hu : u = t
      · subst hu
        simp [rooms, exec, Op.onRooms, Rooms.leave, logged, waitOf, Event.onWaiting]
      · simp [rooms, exec, Op.onRooms, Rooms.leave, logged, waitOf, Event.onWaiting, hu,
          Ne.symm hu]
  | condvarSignal c =>
    unfold exec
    rw [rooms_wake, rooms_logged rfl]
    rfl
  | condvarBroadcast c =>
    unfold exec
    rw [rooms_wakeAll, rooms_logged rfl]
    rfl
  | _ => rfl

theorem rooms_call {k : Call} (hs : Sync.Step t (.call k) v v') : v'.rooms = v.rooms := by
  cases hs
  rfl

theorem rooms_after {op : Op} (hs : Sync.Step t (.exec op) v v') :
    v'.rooms = op.onRooms t v.rooms := by
  cases hs with
  | exec b hf ht hr he =>
    subst he
    exact rooms_exec b op

end

end Sync

end AlienOS.Kernel
