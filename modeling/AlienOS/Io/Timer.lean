import AlienOS.Io.Pic
import AlienOS.Lib.Bits

/-!
# Timer — `timer_init`, `timer_set_reload` and `timer_read_count`

A channel of the 8254 takes and gives its 16 bits byte by byte through one port, and which byte is
meant depends on the accesses before.  Between any two accesses its counter goes on.
-/

open AlienOS.Lib

namespace AlienOS.Io

/-! ## Command words -/

inductive Command where
  | channel0 | channel1 | channel2 | readBack
  deriving DecidableEq, Repr

inductive AccessMode where
  | latchCount | loByte | hiByte | bothBytes
  deriving DecidableEq, Repr

inductive OperatingMode where
  | mode0 | mode1 | mode2 | mode3 | mode4 | mode5 | mode6 | mode7
  deriving DecidableEq, Repr

inductive EncodingMode where
  | binary | bcd
  deriving DecidableEq, Repr

def Command.code : Command → BitVec 2
  | .channel0 => 0b00
  | .channel1 => 0b01
  | .channel2 => 0b10
  | .readBack => 0b11

def AccessMode.code : AccessMode → BitVec 2
  | .latchCount => 0b00
  | .loByte => 0b01
  | .hiByte => 0b10
  | .bothBytes => 0b11

def OperatingMode.code : OperatingMode → BitVec 3
  | .mode0 => 0b000
  | .mode1 => 0b001
  | .mode2 => 0b010
  | .mode3 => 0b011
  | .mode4 => 0b100
  | .mode5 => 0b101
  | .mode6 => 0b110
  | .mode7 => 0b111

def EncodingMode.code : EncodingMode → BitVec 1
  | .binary => 0
  | .bcd => 1

def commandInit (channel : Command) (access : AccessMode) (mode : OperatingMode)
    (encoding : EncodingMode) : BitVec 8 :=
  let cmd : BitVec 8 := 0
  let cmd := cmd ||| channel.code.setWidth 8 <<< 6
  let cmd := cmd ||| access.code.setWidth 8 <<< 4
  let cmd := cmd ||| mode.code.setWidth 8 <<< 1
  cmd ||| encoding.code.setWidth 8

/-- Every field of a command word can be read back. -/
theorem commandInit_fields (channel : Command) (access : AccessMode) (mode : OperatingMode)
    (encoding : EncodingMode) :
    (commandInit channel access mode encoding).extractLsb' 6 2 = channel.code ∧
      (commandInit channel access mode encoding).extractLsb' 4 2 = access.code ∧
      (commandInit channel access mode encoding).extractLsb' 1 3 = mode.code ∧
      (commandInit channel access mode encoding).extractLsb' 0 1 = encoding.code := by
  have hall : ∀ (c a : BitVec 2) (m : BitVec 3) (e : BitVec 1),
      let cmd : BitVec 8 := (((0#8 ||| c.setWidth 8 <<< 6) ||| a.setWidth 8 <<< 4) |||
        m.setWidth 8 <<< 1) ||| e.setWidth 8
      cmd.extractLsb' 6 2 = c ∧ cmd.extractLsb' 4 2 = a ∧ cmd.extractLsb' 1 3 = m ∧
        cmd.extractLsb' 0 1 = e := by
    decide +kernel
  exact hall channel.code access.code mode.code encoding.code

/-! ## The device -/

structure Channel where
  access : BitVec 2
  mode : BitVec 3
  encoding : BitVec 1
  /-- the next byte written is the high one -/
  writesHigh : Bool
  /-- the next byte read is the high one -/
  readsHigh : Bool
  /-- the low byte of a reload value of which the high one is still to come -/
  low : BitVec 8
  /-- none since the control word was written -/
  reload : Option (BitVec 16)
  /-- the count that is held for the next reads -/
  latch : Option (BitVec 16)
  deriving DecidableEq, Repr

namespace Channel

/-- The command word `val` for a channel whose counter shows `now`. -/
def control (now : BitVec 16) (val : BitVec 8) (c : Channel) : Channel :=
  let access := val.extractLsb' 4 2
  if access = AccessMode.latchCount.code then { c with latch := some (c.latch.getD now) }
  else
    { c with
      access := access
      mode := val.extractLsb' 1 3
      encoding := val.extractLsb' 0 1
      writesHigh := access = AccessMode.hiByte.code
      readsHigh := access = AccessMode.hiByte.code
      reload := none
      latch := none }

def write (val : BitVec 8) (c : Channel) : Channel :=
  if c.access = AccessMode.bothBytes.code then
    if c.writesHigh then { c with reload := some (val ++ c.low), writesHigh := false }
    else { c with low := val, writesHigh := true }
  else if c.writesHigh then { c with reload := some (val ++ 0#8) }
  else { c with reload := some (0#8 ++ val) }

def read (now : BitVec 16) (c : Channel) : BitVec 8 × Channel :=
  let value := c.latch.getD now
  if c.access = AccessMode.bothBytes.code then
    if c.readsHigh then (value.extractLsb' 8 8, { c with readsHigh := false, latch := none })
    else (value.extractLsb' 0 8, { c with readsHigh := true })
  else if c.readsHigh then (value.extractLsb' 8 8, { c with latch := none })
  else (value.extractLsb' 0 8, { c with latch := none })

end Channel

structure Timer where
  channel0 : Channel
  channel1 : Channel
  channel2 : Channel
  controllers : Controllers
  time : Nat
  deriving DecidableEq, Repr

def CHANNEL0_DATA_PORT : BitVec 16 := 0x40
def CHANNEL1_DATA_PORT : BitVec 16 := 0x41
def CHANNEL2_DATA_PORT : BitVec 16 := 0x42
def COMMAND_PORT : BitVec 16 := 0x43

def PIT_CLOCK_HZ : Nat := 1193182
def TIMER_FREQ_HZ : Nat := 1000

/-- What the counter of each channel shows at each time. -/
def Counts : Type := Command → Nat → BitVec 16

namespace Timer

/-- One access to a port takes one unit of time, at the least. -/
def outb (count : Counts) (port : BitVec 16) (val : BitVec 8) (t : Timer) : Timer :=
  let t' := { t with time := t.time + 1 }
  if port = COMMAND_PORT then
    if val.extractLsb' 6 2 = Command.channel0.code then
      { t' with channel0 := t.channel0.control (count .channel0 t.time) val }
    else if val.extractLsb' 6 2 = Command.channel1.code then
      { t' with channel1 := t.channel1.control (count .channel1 t.time) val }
    else if val.extractLsb' 6 2 = Command.channel2.code then
      { t' with channel2 := t.channel2.control (count .channel2 t.time) val }
    else t'
  else if port = CHANNEL0_DATA_PORT then { t' with channel0 := t.channel0.write val }
  else if port = CHANNEL1_DATA_PORT then { t' with channel1 := t.channel1.write val }
  else if port = CHANNEL2_DATA_PORT then { t' with channel2 := t.channel2.write val }
  else { t' with controllers := t.controllers.outb port val }

def inb (count : Counts) (port : BitVec 16) (t : Timer) : BitVec 8 × Timer :=
  let t' := { t with time := t.time + 1 }
  if port = CHANNEL0_DATA_PORT then
    let (value, c) := t.channel0.read (count .channel0 t.time)
    (value, { t' with channel0 := c })
  else if port = CHANNEL1_DATA_PORT then
    let (value, c) := t.channel1.read (count .channel1 t.time)
    (value, { t' with channel1 := c })
  else if port = CHANNEL2_DATA_PORT then
    let (value, c) := t.channel2.read (count .channel2 t.time)
    (value, { t' with channel2 := c })
  else (t.controllers.inb port, t')

/-- What the drivers of the interrupt controllers do leaves the channels alone. -/
def onControllers (f : Controllers → Controllers) (t : Timer) : Timer :=
  { t with controllers := f t.controllers }

end Timer

/-! ## `timer.c` -/

/-- The command word and both bytes of a reload value, low byte first. -/
def timerProgram (count : Counts) (reloadValue : BitVec 16) (t : Timer) : Timer :=
  let t := t.outb count COMMAND_PORT (commandInit .channel0 .bothBytes .mode3 .binary)
  let t := t.outb count CHANNEL0_DATA_PORT ((reloadValue &&& 0xFF).setWidth 8)
  t.outb count CHANNEL0_DATA_PORT (((reloadValue >>> 8) &&& 0xFF).setWidth 8)

def timerInit (count : Counts) (t : Timer) : Timer :=
  let (interrupt, c) := interruptDisable t.controllers
  let t := { t with controllers := c }
  let divisor := BitVec.ofNat 16 (PIT_CLOCK_HZ / TIMER_FREQ_HZ)
  let t := timerProgram count divisor t
  let t := t.onControllers (irqClearMask IRQ_PIT)
  t.onControllers (interruptRestore interrupt)

/-- C leaves open which of the two reads is made first; `leftFirst` is the choice of the compiler. -/
def timerReadCount (leftFirst : Bool) (count : Counts) (t : Timer) : Word × Timer :=
  let (interrupt, c) := interruptDisable t.controllers
  let t := { t with controllers := c }
  let t := t.outb count COMMAND_PORT (commandInit .channel0 .latchCount .mode0 .binary)
  let (first, t) := t.inb count CHANNEL0_DATA_PORT
  let (second, t) := t.inb count CHANNEL0_DATA_PORT
  let value : Word :=
    if leftFirst then first.setWidth 32 ||| second.setWidth 32 <<< 8
    else second.setWidth 32 ||| first.setWidth 32 <<< 8
  (value, t.onControllers (interruptRestore interrupt))

def timerSetReload (count : Counts) (reloadValue : BitVec 16) (t : Timer) : Timer :=
  let (interrupt, c) := interruptDisable t.controllers
  let t := { t with controllers := c }
  let t := timerProgram count reloadValue t
  t.onControllers (interruptRestore interrupt)

/-! ## What one call does -/

/-- The channel as the driver leaves it: the reload value is complete, and reads and writes start
over with the low byte. -/
structure Channel.Programmed (c : Channel) (reloadValue : BitVec 16) : Prop where
  access : c.access = AccessMode.bothBytes.code
  mode : c.mode = OperatingMode.mode3.code
  encoding : c.encoding = EncodingMode.binary.code
  writesLow : c.writesHigh = false
  readsLow : c.readsHigh = false
  reload : c.reload = some reloadValue
  latch : c.latch = none

section

variable {count : Counts} {t : Timer} {reloadValue : BitVec 16}

theorem low_byte (v : BitVec 16) : (v &&& 0xFF).setWidth 8 = v.extractLsb' 0 8 := by
  have hall : ∀ i < 8, (0xFF : BitVec 16).getLsbD i = true := by decide
  ext i hi
  simp only [BitVec.getElem_setWidth, BitVec.getElem_extractLsb', BitVec.getLsbD_and, hall i hi,
    Bool.and_true, Nat.zero_add]

theorem bytes_append (v : BitVec 16) : v.extractLsb' 8 8 ++ v.extractLsb' 0 8 = v := by
  have happend : v.extractLsb' 8 8 ++ v.extractLsb' 0 8 = v.extractLsb' 0 16 :=
    BitVec.extractLsb'_append_extractLsb'_eq_extractLsb' rfl
  rw [happend, BitVec.extractLsb'_eq_self]

/-- The two bytes that are written make up the value. -/
theorem bytes_written (v : BitVec 16) :
    ((v >>> 8) &&& 0xFF).setWidth 8 ++ (v &&& 0xFF).setWidth 8 = v := by
  rw [low_byte, low_byte, extract_shiftRight]
  exact bytes_append v

theorem bytes_or (high low : BitVec 8) :
    low.setWidth 32 ||| high.setWidth 32 <<< 8 = ((high ++ low).setWidth 32 : Word) := by
  apply BitVec.eq_of_getLsbD_eq
  intro i hi
  simp only [BitVec.getLsbD_or, BitVec.getLsbD_setWidth, BitVec.getLsbD_shiftLeft,
    BitVec.getLsbD_append]
  by_cases h : i < 8
  · simp [h, hi]
  · have hlow := BitVec.getLsbD_of_ge low i (by omega)
    simp [h, hi, hlow, show i - 8 < 32 by omega]

/-- From whatever state of the channel. -/
theorem timerProgram_eq (count : Counts) (reloadValue : BitVec 16) (t : Timer) :
    ∃ c : Channel, c.Programmed reloadValue ∧
      timerProgram count reloadValue t = { t with channel0 := c, time := t.time + 3 } := by
  refine ⟨_, ?_, rfl⟩
  exact ⟨rfl, rfl, rfl, rfl, rfl, congrArg some (bytes_written reloadValue), rfl⟩

theorem interruptRestore_eq (c : Controllers) (enabled : Bool) :
    interruptRestore enabled c = { c with interrupts := enabled } := by
  cases enabled <;> rfl

theorem timerSetReload_eq (count : Counts) (reloadValue : BitVec 16) (t : Timer) :
    ∃ c : Channel, c.Programmed reloadValue ∧
      timerSetReload count reloadValue t = { t with channel0 := c, time := t.time + 3 } := by
  obtain ⟨c, hc, ht⟩ := timerProgram_eq count reloadValue
    { t with controllers := (interruptDisable t.controllers).2 }
  refine ⟨c, hc, ?_⟩
  unfold timerSetReload
  dsimp only
  rw [ht]
  simp only [Timer.onControllers, interruptRestore_eq, interruptDisable]

/-- `irq_clear_mask` runs with interrupts off and leaves them off. -/
theorem timerInit_eq (count : Counts) (t : Timer) :
    ∃ c : Channel, c.Programmed 1193 ∧
      timerInit count t = { t with
        channel0 := c
        controllers := irqClearMask IRQ_PIT t.controllers
        time := t.time + 3 } := by
  obtain ⟨c, hc, ht⟩ := timerProgram_eq count 1193
    { t with controllers := (interruptDisable t.controllers).2 }
  refine ⟨c, hc, ?_⟩
  have hdivisor : BitVec.ofNat 16 (PIT_CLOCK_HZ / TIMER_FREQ_HZ) = 1193 := by decide
  have hclear : interruptRestore t.controllers.interrupts
      (irqClearMask IRQ_PIT (interruptDisable t.controllers).2) =
        irqClearMask IRQ_PIT t.controllers := by
    unfold irqClearMask irqChangeMask
    simp only [interruptDisable, interruptRestore_eq]
  unfold timerInit
  dsimp only
  rw [hdivisor, ht]
  exact congrArg (fun controllers ↦ { t with
    channel0 := c, controllers := controllers, time := t.time + 3 }) hclear

/-- The value that the two reads of `timer_read_count` make of a count. -/
def assembled (leftFirst : Bool) (now : BitVec 16) : Word :=
  if leftFirst then now.setWidth 32
  else (now.extractLsb' 0 8 ++ now.extractLsb' 8 8).setWidth 32

/-- Both reads are of the count that the command held, however the counter went on between them, and
they leave the channel as it was. -/
theorem timerReadCount_eq (leftFirst : Bool) (count : Counts)
    (h : t.channel0.Programmed reloadValue) :
    timerReadCount leftFirst count t =
      (assembled leftFirst (count .channel0 t.time), { t with time := t.time + 3 }) := by
  obtain ⟨⟨access, mode, encoding, writesHigh, readsHigh, low, reload, latch⟩, c₁, c₂, c, time⟩ := t
  obtain ⟨rfl, rfl, rfl, rfl, rfl, rfl, rfl⟩ := h
  have hrestore : interruptRestore c.interrupts (interruptDisable c).2 = c :=
    interruptRestore_eq _ _
  refine Prod.ext ?_ (congrArg (Timer.mk _ c₁ c₂ · (time + 3)) hrestore)
  cases leftFirst with
  | true =>
    have hvalue := bytes_or ((count .channel0 time).extractLsb' 8 8)
      ((count .channel0 time).extractLsb' 0 8)
    rw [bytes_append] at hvalue
    exact hvalue
  | false =>
    exact bytes_or ((count .channel0 time).extractLsb' 0 8) ((count .channel0 time).extractLsb' 8 8)

/-! ## Runs -/

/-- What happens to the timer and the controllers after `timer_init`: the driver is called, time
passes, and the controllers are used by others. -/
inductive TimerUse where
  | init
  | setReload (reloadValue : BitVec 16)
  | readCount
  | wait (n : Nat)
  | controllers (use : Use)

namespace TimerUse

def apply (leftFirst : Bool) (count : Counts) (t : Timer) : TimerUse → Timer
  | .init => timerInit count t
  | .setReload reloadValue => timerSetReload count reloadValue t
  | .readCount => (timerReadCount leftFirst count t).2
  | .wait n => { t with time := t.time + n }
  | .controllers use => t.onControllers fun c ↦ use.apply c

/-- The reload value that it asks for. -/
def reload : TimerUse → Option (BitVec 16)
  | .init => some 1193
  | .setReload reloadValue => some reloadValue
  | _ => none

/-- What the controllers see of it. -/
def use : TimerUse → Option Use
  | .init => some (.clearMask IRQ_PIT)
  | .controllers use => some use
  | _ => none

end TimerUse

/-- The last reload value asked for after `timer_init`. -/
def reloadAfter (uses : List TimerUse) : BitVec 16 :=
  (uses.reverse.findSome? TimerUse.reload).getD 1193

theorem timerUse_step (leftFirst : Bool) (count : Counts) (u : TimerUse)
    (h : t.channel0.Programmed reloadValue) :
    (u.apply leftFirst count t).channel0.Programmed (u.reload.getD reloadValue) ∧
      (u.apply leftFirst count t).channel1 = t.channel1 ∧
      (u.apply leftFirst count t).channel2 = t.channel2 ∧
      (u.apply leftFirst count t).controllers =
        u.use.toList.foldl Use.apply t.controllers := by
  cases u with
  | init =>
    obtain ⟨c, hc, ht⟩ := timerInit_eq count t
    rw [TimerUse.apply, ht]
    exact ⟨hc, rfl, rfl, rfl⟩
  | setReload reloadValue =>
    obtain ⟨c, hc, ht⟩ := timerSetReload_eq count reloadValue t
    rw [TimerUse.apply, ht]
    exact ⟨hc, rfl, rfl, rfl⟩
  | readCount =>
    rw [TimerUse.apply, timerReadCount_eq leftFirst count h]
    exact ⟨h, rfl, rfl, rfl⟩
  | wait n => exact ⟨h, rfl, rfl, rfl⟩
  | controllers use => exact ⟨h, rfl, rfl, rfl⟩

theorem timerUse_run (leftFirst : Bool) (count : Counts) (uses : List TimerUse)
    (h : t.channel0.Programmed reloadValue) :
    let t' := uses.foldl (TimerUse.apply leftFirst count) t
    t'.channel0.Programmed ((uses.reverse.findSome? TimerUse.reload).getD reloadValue) ∧
      t'.channel1 = t.channel1 ∧ t'.channel2 = t.channel2 ∧
      t'.controllers = (uses.filterMap TimerUse.use).foldl Use.apply t.controllers := by
  induction uses generalizing t reloadValue with
  | nil => exact ⟨h, rfl, rfl, rfl⟩
  | cons u uses ih =>
    obtain ⟨h₀, h₁, h₂, hc⟩ := timerUse_step leftFirst count u h
    obtain ⟨h₀', h₁', h₂', hc'⟩ := ih h₀
    refine ⟨?_, h₁'.trans h₁, h₂'.trans h₂, hc'.trans ?_⟩
    · rw [List.reverse_cons, List.findSome?_append]
      cases hs : uses.reverse.findSome? TimerUse.reload with
      | some v =>
        rw [hs] at h₀'
        exact h₀'
      | none =>
        rw [hs] at h₀'
        cases hu : u.reload with
        | none => simpa [hu] using h₀'
        | some v => simpa [hu] using h₀'
    · rw [hc]
      cases hu : u.use with
      | none => rw [List.filterMap_cons_none hu]; rfl
      | some use => rw [List.filterMap_cons_some hu]; rfl

/-- Whatever state the chip was in, after `timer_init` and any calls of the driver, with any delays
and whatever others do to the interrupt controllers: channel 0 counts from the last reload value
asked for, `timer_read_count` returns the count at the moment of its command or, if the compiler
makes the second read first, that count with its bytes swapped, never the bytes of two counts; and
the other channels are not touched.  To the controllers `timer_init` is one call of `irq_clear_mask`
and the other two are nothing. -/
theorem timer_driven (leftFirst : Bool) (count : Counts) (t₀ : Timer) (uses : List TimerUse) :
    let t := uses.foldl (TimerUse.apply leftFirst count) (timerInit count t₀)
    t.channel0.Programmed (reloadAfter uses) ∧
      timerReadCount leftFirst count t =
        (assembled leftFirst (count .channel0 t.time), { t with time := t.time + 3 }) ∧
      t.channel1 = t₀.channel1 ∧ t.channel2 = t₀.channel2 ∧
      t.controllers = (uses.filterMap TimerUse.use).foldl Use.apply
        (irqClearMask IRQ_PIT t₀.controllers) := by
  obtain ⟨c, hc, ht⟩ := timerInit_eq count t₀
  rw [ht]
  obtain ⟨h₀, h₁, h₂, hcontrollers⟩ := timerUse_run leftFirst count uses (t := { t₀ with
    channel0 := c, controllers := irqClearMask IRQ_PIT t₀.controllers, time := t₀.time + 3 }) hc
  exact ⟨h₀, timerReadCount_eq leftFirst count h₀, h₁, h₂, hcontrollers⟩

end

end AlienOS.Io
