import AlienOS.Kernel.Machine

/-!
# Placement — where every thread is

The history says which list each thread is on and in what order; `Standing` ties that to the status
fields, and `Placed` ties the pointers to both.
-/

open AlienOS.Lib

namespace AlienOS.Kernel

/-! ## Reading the history -/

/-- Wait queues grow at the back, the other lists at the front. -/
def Event.onLists (e : Event) (L : ListId → List Tid) : ListId → List Tid :=
  match e with
  | .added (.waitQueue q) t => Function.update L (.waitQueue q) (L (.waitQueue q) ++ [t])
  | .added list t => Function.update L list (t :: L list)
  | .removed list t => Function.update L list ((L list).erase t)
  | _ => L

def listsOf : List Event → ListId → List Tid
  | [] => fun _ ↦ []
  | e :: tr => e.onLists (listsOf tr)

/-- Events about other lists. -/
theorem listsOf_other {e : Event} {i : ListId} (tr : List Event) (ha : ∀ t, e ≠ .added i t)
    (hr : ∀ t, e ≠ .removed i t) : listsOf (e :: tr) i = listsOf tr i := by
  cases e with
  | added j x =>
    have hi : i ≠ j := by
      rintro rfl
      exact ha x rfl
    cases j <;> simp [listsOf, Event.onLists, Function.update_of_ne hi]
  | removed j x =>
    have hi : i ≠ j := by
      rintro rfl
      exact hr x rfl
    simp [listsOf, Event.onLists, Function.update_of_ne hi]
  | _ => rfl

def Event.onHome (e : Event) (home : Tid → Option ListId) : Tid → Option ListId :=
  match e with
  | .added list t => Function.update home t (some list)
  | .removed _ t => Function.update home t none
  | _ => home

/-- The list each thread is on. -/
def homeOf : List Event → Tid → Option ListId
  | [] => fun _ ↦ none
  | e :: tr => e.onHome (homeOf tr)

def Event.onThreads (e : Event) (threads : List Tid) : List Tid :=
  match e with
  | .created t => t :: threads
  | .reaped t => threads.filter (· ≠ t)
  | _ => threads

/-- The threads created and not yet reaped, the idle thread apart. -/
def threadsOf : List Event → List Tid
  | [] => []
  | e :: tr => e.onThreads (threadsOf tr)

/-- The threads that were put on a list, from the first to the latest. -/
def joined (i : ListId) : List Event → List Tid
  | [] => []
  | .added j t :: tr => if j = i then joined i tr ++ [t] else joined i tr
  | _ :: tr => joined i tr

/-- The threads that were taken off it. -/
def departed (i : ListId) : List Event → List Tid
  | [] => []
  | .removed j t :: tr => if j = i then departed i tr ++ [t] else departed i tr
  | _ :: tr => departed i tr

/-- A list with its oldest entry in front. -/
def ListId.oldestFirst : ListId → List Tid → List Tid
  | .waitQueue _, ts => ts
  | _, ts => ts.reverse

/-- Whoever joined first has left first. -/
def Fifo (i : ListId) (tr : List Event) : Prop :=
  joined i tr = departed i tr ++ i.oldestFirst (listsOf tr i)

namespace Fifo

variable {i j : ListId} {t x : Tid} {tr : List Event} {e : Event}

theorem nil : Fifo i [] := by
  cases i <;> rfl

theorem added (h : Fifo i tr) : Fifo i (.added j t :: tr) := by
  by_cases hj : j = i
  · subst hj
    unfold Fifo at h ⊢
    cases j <;> simp [joined, departed, listsOf, Event.onLists, ListId.oldestFirst, h]
  · have hl : listsOf (.added j t :: tr) i = listsOf tr i := by
      cases j <;> simp [listsOf, Event.onLists, Function.update_of_ne (Ne.symm hj)]
    unfold Fifo at h ⊢
    rw [hl]
    simpa [joined, departed, hj] using h

theorem removed_other (h : Fifo i tr) (hj : j ≠ i) : Fifo i (.removed j t :: tr) := by
  unfold Fifo at h ⊢
  simpa [joined, departed, hj, listsOf, Event.onLists, Function.update_of_ne hj.symm] using h

theorem removed_wait {q : WaitQueue} {xs : List Tid} (h : Fifo (.waitQueue q) tr)
    (hx : listsOf tr (.waitQueue q) = x :: xs) :
    Fifo (.waitQueue q) (.removed (.waitQueue q) x :: tr) := by
  unfold Fifo at h ⊢
  simp only [hx, ListId.oldestFirst] at h
  simp [joined, departed, listsOf, Event.onLists, ListId.oldestFirst, h, hx]

theorem removed_ready {xs : List Tid} (h : Fifo .readyThreads tr)
    (hx : listsOf tr .readyThreads = xs ++ [x]) (hn : x ∉ xs) :
    Fifo .readyThreads (.removed .readyThreads x :: tr) := by
  unfold Fifo at h ⊢
  simp only [hx, ListId.oldestFirst] at h
  simp [joined, departed, listsOf, Event.onLists, ListId.oldestFirst, h, hx,
    List.erase_append_right _ hn]

end Fifo

/-! ## Status and list -/

/-- What the status of a thread says about where it is.  The current thread is on no list unless it
has blocked and not yet given the processor away. -/
structure Standing (idle cur : Tid) (status : Tid → ThreadStatus) (home : Tid → Option ListId)
    (threads : List Tid) : Prop where
  status_eq : ∀ {t i}, home t = some i → status t = i.status
  mem : ∀ {t i}, home t = some i → t ∈ threads
  listed : ∀ {t}, t ∈ threads → t ≠ cur → home t ≠ none
  idle_not_mem : idle ∉ threads
  idle_ready : idle ≠ cur → status idle = .ready
  idle_running : idle = cur → status idle = .running
  cur_mem : cur = idle ∨ cur ∈ threads
  cur_waits : ∀ {i}, home cur = some i → ∃ q, i = .waitQueue q
  cur_blocked : status cur = .blocked → home cur ≠ none
  cur_not_ready : status cur ≠ .ready

namespace Standing

variable {idle cur x : Tid} {status : Tid → ThreadStatus} {home : Tid → Option ListId}
  {threads : List Tid} {q : WaitQueue}

theorem home_idle (h : Standing idle cur status home threads) : home idle = none := by
  cases hi : home idle with
  | none => rfl
  | some i => exact absurd (h.mem hi) h.idle_not_mem

theorem home_cur (h : Standing idle cur status home threads) (hs : status cur ≠ .blocked) :
    home cur = none := by
  cases hi : home cur with
  | none => rfl
  | some i =>
    obtain ⟨q, rfl⟩ := h.cur_waits hi
    exact absurd (h.status_eq hi) hs

/-- What is no thread is not current and on no list. -/
theorem outside (h : Standing idle cur status home threads) (hx : x ∉ threads) (hi : x ≠ idle) :
    x ≠ cur ∧ home x = none := by
  constructor
  · rintro rfl
    exact h.cur_mem.elim hi hx
  · cases hh : home x with
    | none => rfl
    | some i => exact absurd (h.mem hh) hx

/-- The current thread goes to sleep or dies. -/
theorem leave (h : Standing idle cur status home threads) (hs : status cur ≠ .blocked)
    (hi : cur ≠ idle) {st : ThreadStatus} (h₁ : st ≠ .blocked) (h₂ : st ≠ .ready) :
    Standing idle cur (Function.update status cur st) home threads := by
  have hc := h.home_cur hs
  refine ⟨fun {t i} ht ↦ ?_, h.mem, h.listed, h.idle_not_mem, fun hn ↦ ?_, fun he ↦ ?_, h.cur_mem,
    h.cur_waits, ?_, ?_⟩
  · have : t ≠ cur := by
      rintro rfl
      rw [hc] at ht
      cases ht
    rw [Function.update_of_ne this]
    exact h.status_eq ht
  · rw [Function.update_of_ne hn]
    exact h.idle_ready hn
  · exact absurd he.symm hi
  · simpa using fun he ↦ absurd he h₁
  · simpa using h₂

theorem block (h : Standing idle cur status home threads) (hs : status cur ≠ .blocked)
    (hi : cur ≠ idle) : Standing idle cur (Function.update status cur .blocked)
      (Function.update home cur (some (.waitQueue q))) threads := by
  have hc : cur ∈ threads := h.cur_mem.resolve_left hi
  refine ⟨fun {t i} ht ↦ ?_, fun {t i} ht ↦ ?_, fun {t} ht hn ↦ ?_, h.idle_not_mem, fun hn ↦ ?_,
    fun he ↦ absurd he.symm hi, h.cur_mem, fun {i} ht ↦ ?_, fun _ ↦ ?_, ?_⟩
  · by_cases he : t = cur
    · subst he
      rw [Function.update_self] at ht ⊢
      cases ht
      rfl
    · rw [Function.update_of_ne he] at ht ⊢
      exact h.status_eq ht
  · by_cases he : t = cur
    · rwa [he]
    · rw [Function.update_of_ne he] at ht
      exact h.mem ht
  · rw [Function.update_of_ne hn]
    exact h.listed ht hn
  · rw [Function.update_of_ne hn]
    exact h.idle_ready hn
  · rw [Function.update_self] at ht
    exact ⟨q, by cases ht; rfl⟩
  · simp
  · simp

/-- A thread that is not running moves to `ready_threads`. -/
theorem ready (h : Standing idle cur status home threads) {i : ListId} (hx : home x = some i)
    (hc : x ≠ cur) : Standing idle cur (Function.update status x .ready)
      (Function.update home x (some .readyThreads)) threads := by
  have hix : idle ≠ x := by
    rintro rfl
    exact h.idle_not_mem (h.mem hx)
  refine ⟨fun {t j} ht ↦ ?_, fun {t j} ht ↦ ?_, fun {t} ht hn ↦ ?_, h.idle_not_mem, fun hn ↦ ?_,
    fun he ↦ ?_, h.cur_mem, fun {i} ht ↦ ?_, fun hb ↦ ?_, ?_⟩
  · by_cases he : t = x
    · subst he
      rw [Function.update_self] at ht ⊢
      cases ht
      rfl
    · rw [Function.update_of_ne he] at ht ⊢
      exact h.status_eq ht
  · by_cases he : t = x
    · rw [he]
      exact h.mem hx
    · rw [Function.update_of_ne he] at ht
      exact h.mem ht
  · by_cases he : t = x
    · rw [he, Function.update_self]
      simp
    · rw [Function.update_of_ne he]
      exact h.listed ht hn
  · rw [Function.update_of_ne hix]
    exact h.idle_ready hn
  · rw [Function.update_of_ne hix]
    exact h.idle_running he
  · rw [Function.update_of_ne hc.symm] at ht
    exact h.cur_waits ht
  · rw [Function.update_of_ne hc.symm] at hb ⊢
    exact h.cur_blocked hb
  · rw [Function.update_of_ne hc.symm]
    exact h.cur_not_ready

/-- A zombie is unlinked. -/
theorem reap (h : Standing idle cur status home threads) (hx : home x = some .zombieThreads) :
    Standing idle cur status (Function.update home x none) (threads.filter (· ≠ x)) := by
  have hc : cur ≠ x := by
    rintro rfl
    obtain ⟨q, hq⟩ := h.cur_waits hx
    cases hq
  have hn : ∀ {t i}, Function.update home x none t = some i → t ≠ x ∧ home t = some i := by
    intro t i ht
    by_cases he : t = x
    · subst he
      simp at ht
    · rw [Function.update_of_ne he] at ht
      exact ⟨he, ht⟩
  refine ⟨fun ht ↦ h.status_eq (hn ht).2, fun ht ↦ ?_, fun {t} ht hc ↦ ?_, fun hm ↦ ?_,
    h.idle_ready, h.idle_running, ?_, fun ht ↦ h.cur_waits (hn ht).2, fun hb ↦ ?_,
    h.cur_not_ready⟩
  · simpa using ⟨h.mem (hn ht).2, (hn ht).1⟩
  · obtain ⟨ht, hx⟩ : t ∈ threads ∧ t ≠ x := by simpa using ht
    rw [Function.update_of_ne hx]
    exact h.listed ht hc
  · exact h.idle_not_mem (List.mem_filter.mp hm).1
  · exact h.cur_mem.imp_right fun hm ↦ by simpa using ⟨hm, hc⟩
  · rw [Function.update_of_ne hc]
    exact h.cur_blocked hb

/-- The status of what is not yet a thread does not matter. -/
theorem other (h : Standing idle cur status home threads) (hx : x ∉ threads) (hi : x ≠ idle)
    (st : ThreadStatus) : Standing idle cur (Function.update status x st) home threads := by
  have hc : cur ≠ x := by
    rintro rfl
    exact h.cur_mem.elim hi hx
  refine ⟨fun {t i} ht ↦ ?_, h.mem, h.listed, h.idle_not_mem, fun hn ↦ ?_, fun he ↦ ?_, h.cur_mem,
    h.cur_waits, ?_, ?_⟩
  · have : t ≠ x := by
      rintro rfl
      exact hx (h.mem ht)
    rw [Function.update_of_ne this]
    exact h.status_eq ht
  · rw [Function.update_of_ne hi.symm]
    exact h.idle_ready hn
  · rw [Function.update_of_ne hi.symm]
    exact h.idle_running he
  · rw [Function.update_of_ne hc]
    exact h.cur_blocked
  · rw [Function.update_of_ne hc]
    exact h.cur_not_ready

/-- A new thread is put on `ready_threads`. -/
theorem create (h : Standing idle cur status home threads) (hx : x ∉ threads) (hi : x ≠ idle)
    (hs : status x = .ready) :
    Standing idle cur status (Function.update home x (some .readyThreads)) (x :: threads) := by
  have hc : cur ≠ x := by
    rintro rfl
    exact h.cur_mem.elim hi hx
  refine ⟨fun {t i} ht ↦ ?_, fun {t i} ht ↦ ?_, fun {t} ht hc ↦ ?_, ?_, h.idle_ready,
    h.idle_running, ?_, fun {i} ht ↦ ?_, fun hb ↦ ?_, h.cur_not_ready⟩
  · by_cases he : t = x
    · subst he
      rw [Function.update_self] at ht
      cases ht
      exact hs
    · rw [Function.update_of_ne he] at ht
      exact h.status_eq ht
  · by_cases he : t = x
    · rw [he]
      exact List.mem_cons_self
    · rw [Function.update_of_ne he] at ht
      exact List.mem_cons_of_mem _ (h.mem ht)
  · by_cases he : t = x
    · rw [he, Function.update_self]
      simp
    · rw [Function.update_of_ne he]
      exact h.listed ((List.mem_cons.mp ht).resolve_left he) hc
  · simpa using ⟨hi.symm, h.idle_not_mem⟩
  · exact h.cur_mem.imp_right fun hm ↦ List.mem_cons_of_mem _ hm
  · rw [Function.update_of_ne hc] at ht
    exact h.cur_waits ht
  · rw [Function.update_of_ne hc]
    exact h.cur_blocked hb

end Standing

/-- Between two threads: everyone is on a list, the idle thread apart. -/
structure Parked (idle : Tid) (status : Tid → ThreadStatus) (home : Tid → Option ListId)
    (threads : List Tid) : Prop where
  status_eq : ∀ {t i}, home t = some i → status t = i.status
  mem : ∀ {t i}, home t = some i → t ∈ threads
  listed : ∀ {t}, t ∈ threads → home t ≠ none
  idle_not_mem : idle ∉ threads
  idle_ready : status idle = .ready

section

variable {idle cur x : Tid} {status : Tid → ThreadStatus} {home : Tid → Option ListId}
  {threads : List Tid}

namespace Standing

theorem park_idle (h : Standing idle idle status home threads) :
    Parked idle (Function.update status idle .ready) home threads := by
  refine ⟨fun {t i} ht ↦ ?_, h.mem, fun {t} ht ↦ h.listed ht ?_, h.idle_not_mem, by simp⟩
  · have : t ≠ idle := by
      rintro rfl
      exact h.idle_not_mem (h.mem ht)
    rw [Function.update_of_ne this]
    exact h.status_eq ht
  · rintro rfl
    exact h.idle_not_mem ht

theorem park_blocked (h : Standing idle cur status home threads) (hi : cur ≠ idle)
    (hs : status cur = .blocked) : Parked idle status home threads := by
  refine ⟨h.status_eq, h.mem, fun {t} ht ↦ ?_, h.idle_not_mem, h.idle_ready hi.symm⟩
  by_cases he : t = cur
  · rw [he]
    exact h.cur_blocked hs
  · exact h.listed ht he

theorem park (h : Standing idle cur status home threads) (hi : cur ≠ idle)
    (i : ListId) : Parked idle (Function.update status cur i.status)
      (Function.update home cur (some i)) threads := by
  refine ⟨fun {t j} ht ↦ ?_, fun {t j} ht ↦ ?_, fun {t} ht ↦ ?_, h.idle_not_mem, ?_⟩
  · by_cases he : t = cur
    · subst he
      rw [Function.update_self] at ht ⊢
      cases ht
      rfl
    · rw [Function.update_of_ne he] at ht ⊢
      exact h.status_eq ht
  · by_cases he : t = cur
    · rw [he]
      exact h.cur_mem.resolve_left hi
    · rw [Function.update_of_ne he] at ht
      exact h.mem ht
  · by_cases he : t = cur
    · rw [he, Function.update_self]
      simp
    · rw [Function.update_of_ne he]
      exact h.listed ht he
  · rw [Function.update_of_ne hi.symm]
    exact h.idle_ready hi.symm

end Standing

namespace Parked

theorem dispatch (h : Parked idle status home threads) (hx : home x = some .readyThreads) :
    Standing idle x (Function.update status x .running) (Function.update home x none) threads := by
  have hi : idle ≠ x := by
    rintro rfl
    exact h.idle_not_mem (h.mem hx)
  have hn : ∀ {t i}, Function.update home x none t = some i → t ≠ x ∧ home t = some i := by
    intro t i ht
    by_cases he : t = x
    · subst he
      simp at ht
    · rw [Function.update_of_ne he] at ht
      exact ⟨he, ht⟩
  refine ⟨fun {t i} ht ↦ ?_, fun ht ↦ h.mem (hn ht).2, fun {t} ht hc ↦ ?_, h.idle_not_mem,
    fun _ ↦ ?_, fun he ↦ absurd he hi, Or.inr (h.mem hx), fun ht ↦ ?_, ?_, ?_⟩
  · rw [Function.update_of_ne (hn ht).1]
    exact h.status_eq (hn ht).2
  · rw [Function.update_of_ne hc]
    exact h.listed ht
  · rw [Function.update_of_ne hi]
    exact h.idle_ready
  · exact absurd rfl (hn ht).1
  · simp
  · simp

theorem dispatch_idle (h : Parked idle status home threads) :
    Standing idle idle (Function.update status idle .running) home threads := by
  refine ⟨fun {t i} ht ↦ ?_, h.mem, fun ht _ ↦ h.listed ht, h.idle_not_mem,
    fun hn ↦ absurd rfl hn, fun _ ↦ by simp, Or.inl rfl, fun ht ↦ ?_, ?_, ?_⟩
  · have : t ≠ idle := by
      rintro rfl
      exact h.idle_not_mem (h.mem ht)
    rw [Function.update_of_ne this]
    exact h.status_eq ht
  · exact absurd (h.mem ht) h.idle_not_mem
  · simp
  · simp

end Parked

end

end AlienOS.Kernel
