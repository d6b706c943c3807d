import AlienOS.Io.Interrupt

/-!
# Pic — `pic_remap`, `irq_set_mask` and `irq_clear_mask`

The 8259 takes its initialisation words one after another on the data port, and after them the
interrupt mask; what a write to the data port means depends on what was written before.
-/

open AlienOS.Lib

namespace AlienOS.Io

/-! ## The controllers -/

/-- The word that a chip takes next on its data port. -/
inductive Awaits where
  | icw2 | icw3 | icw4 | mask
  deriving DecidableEq, Repr

structure Pic where
  chip : Chip
  mask : BitVec 8
  awaits : Awaits
  single : Bool
  wantsIcw4 : Bool
  /-- the upper five bits of the interrupt number -/
  offset : BitVec 8
  cascade : BitVec 8
  mode : BitVec 8
  deriving DecidableEq, Repr

namespace Pic

def outCommand (val : BitVec 8) (c : Pic) : Pic :=
  if val.getLsbD 4 then
    { c with
      chip := { c.chip with request := 0, readsInService := false }
      mask := 0
      awaits := .icw2
      single := val.getLsbD 1
      wantsIcw4 := val.getLsbD 0
      mode := if val.getLsbD 0 then c.mode else 0 }
  else { c with chip := c.chip.command val }

def outData (val : BitVec 8) (c : Pic) : Pic :=
  let afterCascade := if c.wantsIcw4 then Awaits.icw4 else .mask
  match c.awaits with
  | .icw2 => { c with
      offset := val &&& 0xF8
      awaits := if c.single then afterCascade else .icw3 }
  | .icw3 => { c with cascade := val, awaits := afterCascade }
  | .icw4 => { c with mode := val, awaits := .mask }
  | .mask => { c with mask := val }

/-- The interrupt number of a line that is not masked. -/
def number (c : Pic) (line : Fin 8) : Option (BitVec 8) :=
  if c.awaits = .mask ∧ c.mode.getLsbD 0 ∧ ¬ c.mask.getLsbD line.val then
    some (c.offset ||| BitVec.ofNat 8 line.val)
  else none

theorem identity_lt (c : Pic) : (c.cascade.extractLsb' 0 3).toNat < 8 :=
  (c.cascade.extractLsb' 0 3).isLt

/-- For a slave, the line of the master that it takes itself to be on. -/
def identity (c : Pic) : Fin 8 := ⟨(c.cascade.extractLsb' 0 3).toNat, identity_lt c⟩

end Pic

structure Controllers where
  master : Pic
  slave : Pic
  /-- the flag of the CPU -/
  interrupts : Bool
  deriving DecidableEq, Repr

def PIC1_DATA : BitVec 16 := 0x21
def PIC2_DATA : BitVec 16 := 0xA1

namespace Controllers

def outb (port : BitVec 16) (val : BitVec 8) (p : Controllers) : Controllers :=
  if port = PIC1_COMMAND then { p with master := p.master.outCommand val }
  else if port = PIC1_DATA then { p with master := p.master.outData val }
  else if port = PIC2_COMMAND then { p with slave := p.slave.outCommand val }
  else if port = PIC2_DATA then { p with slave := p.slave.outData val }
  else p

def inb (port : BitVec 16) (p : Controllers) : BitVec 8 :=
  if port = PIC1_COMMAND then p.master.chip.read
  else if port = PIC1_DATA then p.master.mask
  else if port = PIC2_COMMAND then p.slave.chip.read
  else if port = PIC2_DATA then p.slave.mask
  else 0

theorem onChip_lt (line : Fin 16) : line.val % 8 < 8 := Nat.mod_lt _ (by decide)

/-- The line of its chip that a line is. -/
def onChip (line : Fin 16) : Fin 8 := ⟨line.val % 8, onChip_lt line⟩

/-- The interrupt number with which a request on a line reaches the CPU if nothing is in service: a
line of the slave has to pass the line of the master to which it says it is connected. -/
def number (p : Controllers) (line : Fin 16) : Option (BitVec 8) :=
  if line.val < 8 then p.master.number (onChip line)
  else if p.master.cascade.getLsbD p.slave.identity.val ∧
      (p.master.number p.slave.identity).isSome then
    p.slave.number (onChip line)
  else none

end Controllers

/-! ## `interrupt.c` -/

def ICW1_ICW4 : BitVec 8 := 0x01
def ICW1_TAG : BitVec 8 := 0x10
def ICW4_8086 : BitVec 8 := 0x01
def IRQ_CASCADE : BitVec 8 := 2

def ioWait (p : Controllers) : Controllers := p.outb 0x80 0

def picRemap (offset1 offset2 : BitVec 8) (p : Controllers) : Controllers :=
  let p := p.outb PIC1_COMMAND (ICW1_TAG ||| ICW1_ICW4)
  let p := ioWait p
  let p := p.outb PIC2_COMMAND (ICW1_TAG ||| ICW1_ICW4)
  let p := ioWait p
  let p := p.outb PIC1_DATA offset1
  let p := ioWait p
  let p := p.outb PIC2_DATA offset2
  let p := ioWait p
  let p := p.outb PIC1_DATA (1#8 <<< IRQ_CASCADE.toNat)
  let p := ioWait p
  let p := p.outb PIC2_DATA IRQ_CASCADE
  let p := ioWait p
  let p := p.outb PIC1_DATA ICW4_8086
  let p := ioWait p
  let p := p.outb PIC2_DATA ICW4_8086
  -- the comment speaks of line 2, the constant leaves line 0
  let p := p.outb PIC1_DATA 0b11111110
  p.outb PIC2_DATA 0b11111111

def interruptDisable (p : Controllers) : Bool × Controllers :=
  (p.interrupts, { p with interrupts := false })

def interruptRestore (enabled : Bool) (p : Controllers) : Controllers :=
  if enabled then { p with interrupts := true } else { p with interrupts := false }

/-- `irq_set_mask` and `irq_clear_mask` differ in what they write back. -/
def irqChangeMask (change : BitVec 8 → BitVec 8 → BitVec 8) (irqline : BitVec 8)
    (p : Controllers) : Controllers :=
  let (interrupt, p) := interruptDisable p
  let port := if irqline < 8 then PIC1_DATA else PIC2_DATA
  let value := change (p.inb port) (1#8 <<< (irqline &&& 0b111).toNat)
  let p := p.outb port value
  interruptRestore interrupt p

def irqSetMask (irqline : BitVec 8) (p : Controllers) : Controllers :=
  irqChangeMask (fun value bit ↦ value ||| bit) irqline p

def irqClearMask (irqline : BitVec 8) (p : Controllers) : Controllers :=
  irqChangeMask (fun value bit ↦ value &&& ~~~bit) irqline p

/-! ## Masks -/

theorem lineOf_lt (irqline : BitVec 8) :
    (if irqline < 8 then irqline.toNat else 8 + irqline.toNat % 8) < 16 := by
  have hmod : irqline.toNat % 8 < 8 := Nat.mod_lt _ (by decide)
  split
  · rename_i h
    have hlt : irqline.toNat < 8 := h
    omega
  · omega

/-- The line that an argument stands for: from 8 on only three bits count. -/
def lineOf (irqline : BitVec 8) : Fin 16 :=
  ⟨if irqline < 8 then irqline.toNat else 8 + irqline.toNat % 8, lineOf_lt irqline⟩

namespace Controllers

def masked (p : Controllers) (line : Fin 16) : Bool :=
  if line.val < 8 then p.master.mask.getLsbD line.val else p.slave.mask.getLsbD (line.val - 8)

/-- Both chips have taken their initialisation words, and each knows the line between them. -/
structure Configured (offset1 offset2 : BitVec 8) (p : Controllers) : Prop where
  awaits : p.master.awaits = .mask ∧ p.slave.awaits = .mask
  mode : p.master.mode = ICW4_8086 ∧ p.slave.mode = ICW4_8086
  offset : p.master.offset = offset1 &&& 0xF8 ∧ p.slave.offset = offset2 &&& 0xF8
  cascade : p.master.cascade = 1#8 <<< 2 ∧ p.slave.cascade = 2

end Controllers

section

variable {p q : Controllers} {offset1 offset2 irqline : BitVec 8} {line : Fin 16}

/-- From whatever state: the first command resets the sequence of each chip. -/
theorem picRemap_configured (offset1 offset2 : BitVec 8) (p : Controllers) :
    (picRemap offset1 offset2 p).Configured offset1 offset2 :=
  ⟨⟨rfl, rfl⟩, ⟨rfl, rfl⟩, ⟨rfl, rfl⟩, ⟨rfl, rfl⟩⟩

theorem picRemap_masked (offset1 offset2 : BitVec 8) (p : Controllers) (line : Fin 16) :
    (picRemap offset1 offset2 p).masked line = decide (line.val ≠ 0) := by
  have hall : ∀ line : Fin 16, (if line.val < 8 then (0b11111110 : BitVec 8).getLsbD line.val
      else (0b11111111 : BitVec 8).getLsbD (line.val - 8)) = decide (line.val ≠ 0) := by decide
  exact hall line

theorem picRemap_kept (offset1 offset2 : BitVec 8) (p : Controllers) :
    (picRemap offset1 offset2 p).interrupts = p.interrupts ∧
      (picRemap offset1 offset2 p).master.chip.inService = p.master.chip.inService ∧
      (picRemap offset1 offset2 p).slave.chip.inService = p.slave.chip.inService :=
  ⟨rfl, rfl, rfl⟩

/-- Which lines reach the CPU, and under which number. -/
theorem number_eq (h : p.Configured offset1 offset2) (line : Fin 16) : p.number line =
    if p.masked line ∨ (8 ≤ line.val ∧ p.masked 2) then none
    else some ((if line.val < 8 then offset1 else offset2) &&& 0xF8 |||
      BitVec.ofNat 8 (line.val % 8)) := by
  have hmode : ICW4_8086.getLsbD 0 = true := by decide
  have hidentity : p.slave.identity.val = 2 := by
    show (p.slave.cascade.extractLsb' 0 3).toNat = 2
    rw [h.cascade.2]
    rfl
  have hcascade : (1#8 <<< 2).getLsbD 2 = true := by decide
  have htwo : (2 : Fin 16).val = 2 := rfl
  have hchip : (Controllers.onChip line).val = line.val % 8 := rfl
  obtain ⟨⟨ha₁, ha₂⟩, ⟨hm₁, hm₂⟩, ⟨ho₁, ho₂⟩, hc₁, -⟩ := h
  unfold Controllers.number Controllers.masked Pic.number
  simp only [ha₁, ha₂, hm₁, hm₂, ho₁, ho₂, hc₁, hmode, hidentity, htwo, hchip, hcascade, true_and]
  by_cases hline : line.val < 8
  · have hge : ¬ 8 ≤ line.val := Nat.not_le.mpr hline
    simp only [if_pos hline, hge, false_and, or_false, ite_not, Nat.mod_eq_of_lt hline]
  · have hge : 8 ≤ line.val := Nat.not_lt.mp hline
    have hmod : line.val % 8 = line.val - 8 := by omega
    simp only [if_neg hline, hge, true_and, hmod]
    generalize p.master.mask.getLsbD 2 = cascaded
    generalize p.slave.mask.getLsbD (line.val - 8) = own
    cases cascaded <;> cases own <;> rfl

theorem bit_getLsbD (k i : Fin 8) : (1#8 <<< k.val).getLsbD i.val = decide (i = k) := by
  revert k i
  decide

/-- The line is on the chip whose port is written, at the bit that is written. -/
theorem lineOf_val (irqline : BitVec 8) : (lineOf irqline).val =
    (if irqline < 8 then 0 else 8) + (irqline &&& 0b111).toNat := by
  have hall : ∀ irqline : BitVec 8, (lineOf irqline).val =
    (if irqline < 8 then 0 else 8) + (irqline &&& 0b111).toNat := by decide +kernel
  exact hall irqline

theorem irqChangeMask_configured (change : BitVec 8 → BitVec 8 → BitVec 8) (irqline : BitVec 8)
    (h : p.Configured offset1 offset2) : irqChangeMask change irqline p =
      if irqline < 8 then { p with master := { p.master with
        mask := change p.master.mask (1#8 <<< (irqline &&& 0b111).toNat) } }
      else { p with slave := { p.slave with
        mask := change p.slave.mask (1#8 <<< (irqline &&& 0b111).toNat) } } := by
  have hrestore : ∀ q : Controllers, q.interrupts = false →
      interruptRestore p.interrupts q = { q with interrupts := p.interrupts } := by
    intro q hq
    unfold interruptRestore
    cases p.interrupts <;> rfl
  unfold irqChangeMask
  by_cases hline : irqline < 8
  · simp only [if_pos hline, interruptDisable]
    unfold Controllers.outb Controllers.inb
    simp [PIC1_DATA, PIC1_COMMAND, Pic.outData, h.awaits.1, hrestore]
  · simp only [if_neg hline, interruptDisable]
    unfold Controllers.outb Controllers.inb
    simp [PIC1_DATA, PIC1_COMMAND, PIC2_DATA, PIC2_COMMAND, Pic.outData, h.awaits.2, hrestore]

/-- One bit is changed, and it is that of the line. -/
theorem masked_irqChangeMask {change : BitVec 8 → BitVec 8 → BitVec 8} {f : Bool → Bool → Bool}
    (irqline : BitVec 8)
    (hbit : ∀ value bit i, i < 8 →
      (change value bit).getLsbD i = f (value.getLsbD i) (bit.getLsbD i))
    (hf : ∀ b, f b false = b) (h : p.Configured offset1 offset2) (line : Fin 16) :
    (irqChangeMask change irqline p).masked line =
      if line = lineOf irqline then f (p.masked line) true else p.masked line := by
  rw [irqChangeMask_configured change irqline h]
  have hval := lineOf_val irqline
  have hlt : (irqline &&& 0b111).toNat < 8 := by
    rw [BitVec.toNat_and]
    exact Nat.lt_succ_of_le Nat.and_le_right
  generalize (irqline &&& 0b111).toNat = k at hval hlt
  have hchange : ∀ value i, i < 8 → (change value (1#8 <<< k)).getLsbD i =
      if i = k then f (value.getLsbD i) true else value.getLsbD i := by
    intro value i hi
    have hone := bit_getLsbD ⟨k, hlt⟩ ⟨i, hi⟩
    simp only [Fin.mk.injEq] at hone
    rw [hbit value _ i hi, hone]
    by_cases hik : i = k
    · rw [decide_eq_true hik, if_pos hik]
    · rw [decide_eq_false hik, if_neg hik, hf]
  have hline : line = lineOf irqline ↔ line.val = (if irqline < 8 then 0 else 8) + k := by
    rw [← hval]
    exact Fin.ext_iff
  unfold Controllers.masked
  by_cases hchip : irqline < 8
  · simp only [if_pos hchip, Nat.zero_add] at hline ⊢
    by_cases hlow : line.val < 8
    · simp only [if_pos hlow, hchange _ _ hlow, hline]
    · have hne : line.val ≠ k := by omega
      simp only [if_neg hlow, hline, hne, if_false]
  · simp only [if_neg hchip] at hline ⊢
    by_cases hlow : line.val < 8
    · have hne : line.val ≠ 8 + k := by omega
      simp only [if_pos hlow, hline, hne, if_false]
    · have hsub : line.val - 8 < 8 := by omega
      have hiff : line.val - 8 = k ↔ line.val = 8 + k := by omega
      simp only [if_neg hlow, hchange _ _ hsub, hiff, hline]

theorem masked_irqSetMask (h : p.Configured offset1 offset2) (line : Fin 16) :
    (irqSetMask irqline p).masked line = if line = lineOf irqline then true else p.masked line := by
  have hbit : ∀ value bit : BitVec 8, ∀ i < 8,
      (value ||| bit).getLsbD i = (value.getLsbD i || bit.getLsbD i) :=
    fun value bit i _ ↦ BitVec.getLsbD_or
  have hmasked := masked_irqChangeMask (f := or) irqline hbit Bool.or_false h line
  rwa [Bool.or_true] at hmasked

theorem masked_irqClearMask (h : p.Configured offset1 offset2) (line : Fin 16) :
    (irqClearMask irqline p).masked line =
      if line = lineOf irqline then false else p.masked line := by
  have hbit : ∀ value bit : BitVec 8, ∀ i < 8,
      (value &&& ~~~bit).getLsbD i = (value.getLsbD i && !bit.getLsbD i) := by
    intro value bit i hi
    rw [BitVec.getLsbD_and, BitVec.getLsbD_not, decide_eq_true hi, Bool.true_and]
  have hmasked := masked_irqChangeMask (f := fun a b ↦ a && !b) irqline hbit Bool.and_true h line
  rwa [Bool.not_true, Bool.and_false] at hmasked

theorem irqChangeMask_kept (change : BitVec 8 → BitVec 8 → BitVec 8) (irqline : BitVec 8)
    (h : p.Configured offset1 offset2) :
    (irqChangeMask change irqline p).Configured offset1 offset2 ∧
      (irqChangeMask change irqline p).interrupts = p.interrupts := by
  rw [irqChangeMask_configured change irqline h]
  by_cases hline : irqline < 8
  · rw [if_pos hline]
    exact ⟨⟨h.awaits, h.mode, h.offset, h.cascade⟩, rfl⟩
  · rw [if_neg hline]
    exact ⟨⟨h.awaits, h.mode, h.offset, h.cascade⟩, rfl⟩

/-! ## Runs -/

/-- What happens to the controllers after `pic_remap`: the masks change, `interrupt.c` sends a
command that starts no initialisation, and the registers of a chip change with the requests. -/
inductive Use where
  | setMask (irqline : BitVec 8)
  | clearMask (irqline : BitVec 8)
  | command (name : ChipName) (val : BitVec 8) (h : val.getLsbD 4 = false)
  | requests (name : ChipName) (inService request : BitVec 8)

namespace Use

def port : ChipName → BitVec 16
  | .master => PIC1_COMMAND
  | .slave => PIC2_COMMAND

def apply (p : Controllers) : Use → Controllers
  | .setMask irqline => irqSetMask irqline p
  | .clearMask irqline => irqClearMask irqline p
  | .command name val _ => p.outb (port name) val
  | .requests .master inService request => { p with master := { p.master with
      chip := { p.master.chip with inService := inService, request := request } } }
  | .requests .slave inService request => { p with slave := { p.slave with
      chip := { p.slave.chip with inService := inService, request := request } } }

/-- What it says about a line. -/
def masks (line : Fin 16) : Use → Option Bool
  | .setMask irqline => if line = lineOf irqline then some true else none
  | .clearMask irqline => if line = lineOf irqline then some false else none
  | _ => none

end Use

/-- The last call about the line decides, and at first all but line 0 are masked. -/
def maskedAfter (uses : List Use) (line : Fin 16) : Bool :=
  (uses.reverse.findSome? (·.masks line)).getD (decide (line.val ≠ 0))

theorem use_step (u : Use) (h : p.Configured offset1 offset2) :
    (u.apply p).Configured offset1 offset2 ∧ (u.apply p).interrupts = p.interrupts ∧
      ∀ line, (u.apply p).masked line = (u.masks line).getD (p.masked line) := by
  cases u with
  | setMask irqline =>
    obtain ⟨hc, hi⟩ := irqChangeMask_kept (fun value bit ↦ value ||| bit) irqline h
    refine ⟨hc, hi, fun line ↦ (masked_irqSetMask h line).trans ?_⟩
    show _ = (if line = lineOf irqline then some true else none).getD (p.masked line)
    split
    · rfl
    · rfl
  | clearMask irqline =>
    obtain ⟨hc, hi⟩ := irqChangeMask_kept (fun value bit ↦ value &&& ~~~bit) irqline h
    refine ⟨hc, hi, fun line ↦ (masked_irqClearMask h line).trans ?_⟩
    show _ = (if line = lineOf irqline then some false else none).getD (p.masked line)
    split
    · rfl
    · rfl
  | command name val hval =>
    -- only the registers of the chip change
    have hchip : ∀ c : Pic, c.outCommand val = { c with chip := c.chip.command val } := by
      intro c
      unfold Pic.outCommand
      rw [hval]
      rfl
    cases name with
    | master =>
      have hout : Use.apply p (.command .master val hval) =
          { p with master := { p.master with chip := p.master.chip.command val } } := by
        rw [← hchip]
        rfl
      rw [hout]
      exact ⟨⟨h.awaits, h.mode, h.offset, h.cascade⟩, rfl, fun _ ↦ rfl⟩
    | slave =>
      have hout : Use.apply p (.command .slave val hval) =
          { p with slave := { p.slave with chip := p.slave.chip.command val } } := by
        rw [← hchip]
        rfl
      rw [hout]
      exact ⟨⟨h.awaits, h.mode, h.offset, h.cascade⟩, rfl, fun _ ↦ rfl⟩
  | requests name inService request =>
    cases name with
    | master => exact ⟨⟨h.awaits, h.mode, h.offset, h.cascade⟩, rfl, fun _ ↦ rfl⟩
    | slave => exact ⟨⟨h.awaits, h.mode, h.offset, h.cascade⟩, rfl, fun _ ↦ rfl⟩

theorem use_run (uses : List Use) (h : p.Configured offset1 offset2) :
    (uses.foldl Use.apply p).Configured offset1 offset2 ∧
      (uses.foldl Use.apply p).interrupts = p.interrupts ∧
      ∀ line, (uses.foldl Use.apply p).masked line =
        (uses.reverse.findSome? (·.masks line)).getD (p.masked line) := by
  induction uses generalizing p with
  | nil => exact ⟨h, rfl, fun _ ↦ rfl⟩
  | cons u uses ih =>
    obtain ⟨hc, hi, hm⟩ := use_step u h
    obtain ⟨hc', hi', hm'⟩ := ih hc
    refine ⟨hc', hi'.trans hi, fun line ↦ ?_⟩
    rw [List.foldl_cons, hm', hm, List.reverse_cons, List.findSome?_append]
    cases uses.reverse.findSome? (·.masks line) with
    | some b => rfl
    | none => cases hu : u.masks line <;> simp [hu]

/-- Whatever state the chips were in, after `pic_remap` a request reaches the CPU under the number of
its line exactly if the last call about the line cleared its mask and, for a line of the slave, the
last call about line 2 did; before any call this is so of line 0 alone. -/
theorem masks_decide_lines (offset1 offset2 : BitVec 8) (p : Controllers) (uses : List Use)
    (line : Fin 16) :
    (uses.foldl Use.apply (picRemap offset1 offset2 p)).number line =
        (if maskedAfter uses line ∨ (8 ≤ line.val ∧ maskedAfter uses 2) then none
        else some ((if line.val < 8 then offset1 else offset2) &&& 0xF8 |||
          BitVec.ofNat 8 (line.val % 8))) ∧
      (uses.foldl Use.apply (picRemap offset1 offset2 p)).interrupts = p.interrupts := by
  obtain ⟨hc, hi, hm⟩ := use_run uses (picRemap_configured offset1 offset2 p)
  have hmasked : ∀ line, (uses.foldl Use.apply (picRemap offset1 offset2 p)).masked line =
      maskedAfter uses line := by
    intro line
    rw [hm, picRemap_masked]
    rfl
  constructor
  · rw [number_eq hc line, hmasked, hmasked]
  · rw [hi]
    exact (picRemap_kept offset1 offset2 p).1

end

end AlienOS.Io
