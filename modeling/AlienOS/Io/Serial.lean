import AlienOS.Heap.Kmalloc
import AlienOS.Lib.Except
import Mathlib.Data.Nat.Find
import Mathlib.Order.Monotone.Basic

/-!
# Serial — `io_serial_nextinb`

The call waits in a loop that yields until `timer_ticks` has reached a deadline computed at the
start.  Both are 32-bit numbers that wrap, and the loop does not look at the port.
-/

open AlienOS.Lib

namespace AlienOS.Io

def MAX_SPIN_TICKS : Word := 0xFFFF

/-- What goes on around a call: time passes while the lock is acquired and at every yield, and a
first byte may arrive. -/
structure Timeline where
  /-- `timer_ticks` at the call -/
  start : Word
  /-- the ticks since the call at each check of the loop -/
  elapsed : Nat → Nat
  increasing : StrictMono elapsed
  /-- when the first byte arrives, in ticks since the call -/
  arrival : Option (Nat × BitVec 8)

namespace Timeline

variable (l : Timeline)

/-- `timer_ticks` at a check. -/
def timerTicks (k : Nat) : Word := l.start + BitVec.ofNat 32 (l.elapsed k)

/-- `END_TICKS` -/
def endTicks : Word := l.start + MAX_SPIN_TICKS

/-- `io_serial_data_ready` at a check. -/
def dataReady (k : Nat) : Bool := l.arrival.any fun a ↦ a.1 ≤ l.elapsed k

end Timeline

inductive LockEvent where
  | acquire | release
  deriving DecidableEq, Repr

/-- The outcome of a call: what it stores in `*data` if it returns `true`, the check that ended the
loop, and what it did to the lock of the port. -/
structure Answer where
  data : Option (BitVec 8)
  check : Nat
  lock : List LockEvent
  deriving DecidableEq, Repr

/-- `while (timer_ticks < END_TICKS)` from check `k` on. -/
def spin (l : Timeline) : Nat → Nat → Except Halt Nat
  | 0, _ => .error .spin
  | fuel + 1, k => if l.timerTicks k < l.endTicks then spin l fuel (k + 1) else .ok k

/-- `fuel` bounds the checks of the loop. -/
def ioSerialNextinb (initialized : Bool) (l : Timeline) (fuel : Nat) : Except Halt Answer := do
  kernelAssert initialized "io_serial_nextinb(): Serial locks are not initialized"
  let lock := [LockEvent.acquire]
  let k ← spin l fuel 0
  if !l.dataReady k then
    .ok ⟨none, k, lock ++ [.release]⟩
  else
    .ok ⟨l.arrival.map Prod.snd, k, lock ++ [.release]⟩

/-- A byte that a check before the deadline finds is returned at the first such check; the call
gives up only after the deadline and without a byte; and it gives the lock back once. -/
structure TimedRead (l : Timeline) : Prop where
  prompt : ∀ k, l.dataReady k → (∀ j < k, ¬ l.dataReady j) → l.elapsed k < MAX_SPIN_TICKS.toNat →
    ∃ fuel a, ioSerialNextinb true l fuel = .ok a ∧ a.check = k ∧
      a.data = l.arrival.map Prod.snd ∧ a.data ≠ none
  patient : ∀ fuel a, ioSerialNextinb true l fuel = .ok a → a.data = none →
    MAX_SPIN_TICKS.toNat ≤ l.elapsed a.check ∧ ¬ l.dataReady a.check
  lock : ∀ fuel a, ioSerialNextinb true l fuel = .ok a → a.lock = [.acquire, .release]

/-- The deadline has wrapped, and at the first check the counter has not. -/
def Timeline.DeadlineWraps (l : Timeline) : Prop :=
  l.start.toNat + l.elapsed 0 < 2 ^ 32 ∧ 2 ^ 32 ≤ l.start.toNat + MAX_SPIN_TICKS.toNat

instance (l : Timeline) : Decidable l.DeadlineWraps := inferInstanceAs (Decidable (_ ∧ _))

/-- If the deadline has wrapped the first check finds the byte; otherwise no check before the
deadline finds one. -/
def Timeline.Served (l : Timeline) : Prop :=
  if l.DeadlineWraps then l.dataReady 0 = true
  else ∀ k, l.elapsed k < MAX_SPIN_TICKS.toNat → ¬ l.dataReady k

section

variable {l : Timeline} {k n fuel : Nat}

theorem timerTicks_toNat (l : Timeline) (k : Nat) :
    (l.timerTicks k).toNat = (l.start.toNat + l.elapsed k) % 2 ^ 32 := by
  simp [Timeline.timerTicks, BitVec.toNat_add]

theorem endTicks_toNat (l : Timeline) :
    (l.endTicks).toNat = (l.start.toNat + MAX_SPIN_TICKS.toNat) % 2 ^ 32 := by
  unfold Timeline.endTicks
  rw [BitVec.toNat_add]

/-- The loop stops at the first check that finds the deadline passed. -/
theorem spin_eq_ok : ∀ {fuel k : Nat}, spin l fuel k = .ok n →
    l.endTicks ≤ l.timerTicks n ∧ k ≤ n ∧ ∀ j, k ≤ j → j < n → l.timerTicks j < l.endTicks := by
  intro fuel
  induction fuel with
  | zero =>
    intro k h
    cases h
  | succ fuel ih =>
    intro k h
    unfold spin at h
    split at h
    · rename_i hlt
      obtain ⟨h₁, h₂, h₃⟩ := ih h
      refine ⟨h₁, by omega, fun j hj hjn ↦ ?_⟩
      by_cases he : j = k
      · subst he
        exact hlt
      · exact h₃ j (by omega) hjn
    · rename_i hge
      cases h
      exact ⟨BitVec.not_lt.mp hge, le_refl n, fun j hj hjn ↦ by omega⟩

/-- And it does stop if there is one. -/
theorem spin_stops (hn : l.endTicks ≤ l.timerTicks n) : ∀ {fuel k : Nat}, k ≤ n → n < k + fuel →
    ∃ m, spin l fuel k = .ok m := by
  intro fuel
  induction fuel with
  | zero =>
    intro k h₁ h₂
    omega
  | succ fuel ih =>
    intro k h₁ h₂
    unfold spin
    split
    · rename_i hlt
      have hne : k ≠ n := by
        intro he
        rw [he] at hlt
        exact absurd hn (BitVec.not_le.mpr hlt)
      exact ih (by omega) (by omega)
    · exact ⟨k, rfl⟩

/-- Unless the deadline has wrapped before the counter, the loop waits long enough. -/
theorem elapsed_of_passed (hw : ¬ l.DeadlineWraps) (h : l.endTicks ≤ l.timerTicks k) :
    MAX_SPIN_TICKS.toNat ≤ l.elapsed k := by
  have h' : (l.endTicks).toNat ≤ (l.timerTicks k).toNat := h
  have hmono : l.elapsed 0 ≤ l.elapsed k := l.increasing.monotone (Nat.zero_le k)
  have hlt := l.start.isLt
  have hmax : MAX_SPIN_TICKS.toNat = 0xFFFF := rfl
  rw [timerTicks_toNat, endTicks_toNat] at h'
  unfold Timeline.DeadlineWraps at hw
  omega

/-- If it has, the loop is over at once. -/
theorem passed_of_wraps (hw : l.DeadlineWraps) :
    l.endTicks ≤ l.timerTicks 0 ∧ l.elapsed 0 < MAX_SPIN_TICKS.toNat := by
  obtain ⟨h₁, h₂⟩ := hw
  have hlt := l.start.isLt
  have hmax : MAX_SPIN_TICKS.toNat = 0xFFFF := rfl
  constructor
  · show (l.endTicks).toNat ≤ (l.timerTicks 0).toNat
    rw [timerTicks_toNat, endTicks_toNat]
    omega
  · omega

/-- What the call answers is settled by the check that ends the loop. -/
theorem ioSerialNextinb_eq_ok {a : Answer} : ioSerialNextinb true l fuel = .ok a ↔
    ∃ k, spin l fuel 0 = .ok k ∧
      a = ⟨if l.dataReady k then l.arrival.map Prod.snd else none, k, [.acquire, .release]⟩ := by
  unfold ioSerialNextinb
  simp only [kernelAssert, if_true, ok_bind, bind_eq_ok]
  apply exists_congr
  intro k
  apply and_congr_right
  intro _
  cases l.dataReady k
  · exact ⟨fun h ↦ (Except.ok.inj h).symm, fun h ↦ congrArg Except.ok h.symm⟩
  · exact ⟨fun h ↦ (Except.ok.inj h).symm, fun h ↦ congrArg Except.ok h.symm⟩

/-- A byte that is there can be read. -/
theorem map_snd_ne_none (h : l.dataReady k = true) : l.arrival.map Prod.snd ≠ none := by
  intro hn
  have hnone : l.arrival = none := by simpa using hn
  simp [Timeline.dataReady, hnone] at h

/-- The call returns exactly if some check finds the deadline passed. -/
theorem ioSerialNextinb_returns : (∃ fuel a, ioSerialNextinb true l fuel = .ok a) ↔
    ∃ k, l.endTicks ≤ l.timerTicks k := by
  constructor
  · intro ⟨fuel, a, h⟩
    obtain ⟨k, hk, -⟩ := ioSerialNextinb_eq_ok.mp h
    exact ⟨k, (spin_eq_ok hk).1⟩
  · intro ⟨n, hn⟩
    have hspin : ∃ m, spin l (n + 1) 0 = .ok m := spin_stops hn (Nat.zero_le n) (by omega)
    obtain ⟨m, hm⟩ := hspin
    exact ⟨n + 1, _, ioSerialNextinb_eq_ok.mpr ⟨m, hm, rfl⟩⟩

/-- With a wrapped deadline the call is over at the first check. -/
theorem spin_of_wraps (hw : l.DeadlineWraps) (hk : spin l fuel 0 = .ok k) : k = 0 := by
  by_contra hne
  have hlt := (spin_eq_ok hk).2.2 0 (le_refl 0) (by omega)
  exact absurd (passed_of_wraps hw).1 (BitVec.not_le.mpr hlt)

theorem TimedRead.of_wraps (hw : l.DeadlineWraps) : TimedRead l ↔ l.dataReady 0 = true := by
  have hspin : spin l 1 0 = .ok 0 := by
    unfold spin
    rw [if_neg (BitVec.not_lt.mpr (passed_of_wraps hw).1)]
  constructor
  · intro h
    by_contra hready
    have hrun := ioSerialNextinb_eq_ok.mpr ⟨0, hspin, rfl⟩
    have hlate := (h.patient 1 _ hrun (by simp [hready])).1
    exact absurd (passed_of_wraps hw).2 (Nat.not_lt.mpr hlate)
  · intro hready
    constructor
    case prompt =>
      intro k _ hfirst _
      have hzero : k = 0 := by
        by_contra hne
        exact hfirst 0 (by omega) hready
      refine ⟨1, _, ioSerialNextinb_eq_ok.mpr ⟨0, hspin, rfl⟩, hzero.symm, ?_⟩
      simp only [hready, if_true]
      exact ⟨trivial, map_snd_ne_none hready⟩
    case patient =>
      intro fuel a hrun hnone
      obtain ⟨k, hk, rfl⟩ := ioSerialNextinb_eq_ok.mp hrun
      rw [spin_of_wraps hw hk] at hnone
      simp only [hready, if_true] at hnone
      exact absurd hnone (map_snd_ne_none hready)
    case lock =>
      intro fuel a hrun
      obtain ⟨k, -, rfl⟩ := ioSerialNextinb_eq_ok.mp hrun
      rfl

theorem TimedRead.of_not_wraps (hw : ¬ l.DeadlineWraps) :
    TimedRead l ↔ ∀ k, l.elapsed k < MAX_SPIN_TICKS.toNat → ¬ l.dataReady k := by
  constructor
  · intro h j hj hready
    -- the first check that finds the byte is not the one that ends the loop
    classical
    have hex : ∃ i, l.dataReady i := ⟨j, hready⟩
    have hmono : l.elapsed (Nat.find hex) ≤ l.elapsed j :=
      l.increasing.monotone (Nat.find_min' hex hready)
    obtain ⟨fuel, a, hrun, hcheck, -⟩ := h.prompt (Nat.find hex) (Nat.find_spec hex)
      (fun i hi ↦ Nat.find_min hex hi) (by omega)
    obtain ⟨k, hk, rfl⟩ := ioSerialNextinb_eq_ok.mp hrun
    have hlate := elapsed_of_passed hw (spin_eq_ok hk).1
    have hsame : k = Nat.find hex := hcheck
    rw [← hsame] at hmono
    omega
  · intro hquiet
    constructor
    case prompt => exact fun k hready _ hk ↦ absurd hready (hquiet k hk)
    case patient =>
      intro fuel a hrun hnone
      obtain ⟨k, hk, rfl⟩ := ioSerialNextinb_eq_ok.mp hrun
      refine ⟨elapsed_of_passed hw (spin_eq_ok hk).1, fun hready ↦ ?_⟩
      simp only at hready hnone
      simp only [hready, if_true] at hnone
      exact map_snd_ne_none hready hnone
    case lock =>
      intro fuel a hrun
      obtain ⟨k, -, rfl⟩ := ioSerialNextinb_eq_ok.mp hrun
      rfl

/-- The call does what it promises exactly on the timelines that are `Served`. -/
theorem serial_nextinb_iff (l : Timeline) : TimedRead l ↔ l.Served := by
  unfold Timeline.Served
  by_cases hw : l.DeadlineWraps
  · rw [if_pos hw]
    exact TimedRead.of_wraps hw
  · rw [if_neg hw]
    exact TimedRead.of_not_wraps hw

end

/-- A call one tick before the counter wraps, with nothing on the line. -/
def beforeWrap : Timeline := ⟨0xFFFFFFFF, id, strictMono_id, none⟩

/-- A call with a byte waiting, on a machine where a yield takes `0x10000` ticks. -/
def byteWaiting : Timeline :=
  ⟨0, fun k ↦ 0x10000 * k, fun _ _ h ↦ by simpa using h, some (0, 0xAB)⟩

/-- The one gives up at once, and the other finds its byte only after the deadline. -/
theorem serial_nextinb_fails :
    (ioSerialNextinb true beforeWrap 1 = .ok ⟨none, 0, [.acquire, .release]⟩ ∧
      beforeWrap.elapsed 0 = 0) ∧
    (byteWaiting.dataReady 0 = true ∧
      ioSerialNextinb true byteWaiting 2 = .ok ⟨some 0xAB, 1, [.acquire, .release]⟩) ∧
    ¬ TimedRead beforeWrap ∧ ¬ TimedRead byteWaiting := by
  refine ⟨⟨rfl, rfl⟩, ⟨rfl, rfl⟩, fun h ↦ ?_, fun h ↦ ?_⟩
  · have hready := (TimedRead.of_wraps (by decide)).mp h
    cases hready
  · have hquiet := (TimedRead.of_not_wraps (by decide)).mp h
    exact hquiet 0 (by decide) rfl

end AlienOS.Io
