import AlienOS.Heap.Kmalloc

/-!
# Interrupt — `interrupt_handler` and the two interrupt controllers

The controllers are the 8259s that `interrupt.c` is written for: a delivered interrupt sets a bit of
an in-service register, and a non-specific end of interrupt clears the bit of highest priority.
-/

open AlienOS.Lib

namespace AlienOS.Io

/-! ## The controllers -/

def OCW2_EOI : BitVec 8 := 0x20
def OCW3_RIS : BitVec 8 := 0x01 ||| 0x08
def OCW3_RR : BitVec 8 := 0x02 ||| 0x08
def OCW3_READ_ISR : BitVec 8 := OCW3_RIS ||| OCW3_RR

structure Chip where
  inService : BitVec 8
  request : BitVec 8
  /-- which register the next read of the command port returns -/
  readsInService : Bool
  deriving DecidableEq, Repr

/-- Line 0 has the highest priority. -/
def Chip.highest (c : Chip) : Option (Fin 8) :=
  (List.finRange 8).find? fun i ↦ c.inService.getLsbD i

def Chip.set (c : Chip) (i : Fin 8) : Chip :=
  { c with inService := c.inService ||| 1#8 <<< i.val }

def Chip.nonSpecificEoi (c : Chip) : Chip :=
  match c.highest with
  | some i => { c with inService := c.inService &&& ~~~(1#8 <<< i.val) }
  | none => c

/-- A write to the command port. -/
def Chip.command (val : BitVec 8) (c : Chip) : Chip :=
  if val = OCW2_EOI then c.nonSpecificEoi
  else if val = OCW3_READ_ISR then { c with readsInService := true }
  else if val = OCW3_RR then { c with readsInService := false }
  else c

def Chip.read (c : Chip) : BitVec 8 := if c.readsInService then c.inService else c.request

inductive ChipName where
  | master | slave
  deriving DecidableEq, Repr

structure Pics where
  master : Chip
  slave : Chip
  /-- the ends of interrupt since the last delivery, each with the register it found -/
  eois : List (ChipName × BitVec 8)
  deriving DecidableEq, Repr

def PIC1_COMMAND : BitVec 16 := 0x20
def PIC2_COMMAND : BitVec 16 := 0xA0

def ioOutb (port : BitVec 16) (val : BitVec 8) (p : Pics) : Pics :=
  if port = PIC1_COMMAND then { p with
    master := p.master.command val
    eois := if val = OCW2_EOI then (.master, p.master.inService) :: p.eois else p.eois }
  else if port = PIC2_COMMAND then { p with
    slave := p.slave.command val
    eois := if val = OCW2_EOI then (.slave, p.slave.inService) :: p.eois else p.eois }
  else p

def ioInb (port : BitVec 16) (p : Pics) : BitVec 8 :=
  if port = PIC1_COMMAND then p.master.read
  else if port = PIC2_COMMAND then p.slave.read
  else 0

/-! ## `interrupt.c` -/

def IRQ_PIT : BitVec 8 := 0
def IRQ_SPURIOUS_MASTER : BitVec 8 := 7
def IRQ_SPURIOUS_SLAVE : BitVec 8 := 15
def PIC1_OFFSET : BitVec 32 := 0x20
def INT_ERR : BitVec 32 := 0xFF

/-- The register of the master is in the high byte. -/
def picReadIsr (p : Pics) : BitVec 16 × Pics :=
  let p := ioOutb PIC1_COMMAND (OCW3_RR ||| OCW3_READ_ISR) p
  let p := ioOutb PIC2_COMMAND (OCW3_RR ||| OCW3_READ_ISR) p
  (((ioInb PIC1_COMMAND p).setWidth 16 <<< 8) ||| (ioInb PIC2_COMMAND p).setWidth 16, p)

def picEoi (irq : BitVec 8) (p : Pics) : Pics :=
  let p := if irq ≥ 8 then ioOutb PIC2_COMMAND OCW2_EOI p else p
  ioOutb PIC1_COMMAND OCW2_EOI p

def picCheckSpurious (irq : BitVec 8) (p : Pics) : Bool × Pics :=
  if irq = IRQ_SPURIOUS_MASTER ∨ irq = IRQ_SPURIOUS_SLAVE then
    let (isr, p) := picReadIsr p
    if isr &&& (1#16 <<< irq.toNat) = 0 then
      (true, if irq = IRQ_SPURIOUS_SLAVE then ioOutb PIC1_COMMAND OCW2_EOI p else p)
    else (false, p)
  else (false, p)

def irqHandler (intno : BitVec 32) (p : Pics) : Except Halt Pics :=
  let irq := (intno - PIC1_OFFSET).setWidth 8
  if irq = IRQ_PIT then
    .error
      (.panic "interrupt_handler() received IRQ0, interrupt should be directed to irq0_handler()")
  else
    let (spurious, p) := picCheckSpurious irq p
    .ok (if spurious then p else picEoi irq p)

def interruptHandler (intno : BitVec 32) (p : Pics) : Except Halt Pics :=
  if intno = INT_ERR then .error (.panic "INT_ERR")
  else if PIC1_OFFSET ≤ intno ∧ intno ≤ PIC1_OFFSET + 15 then irqHandler intno p
  else .error (.panic "Invalid Interrupt Number %u\n")

/-! ## Interrupts one after another -/

/-- What the controllers deliver on the lines 1 to 15. -/
inductive Delivery where
  | real (line : Fin 16) (h : line ≠ 0)
  | spuriousMaster
  | spuriousSlave
  deriving DecidableEq

namespace Delivery

def line : Delivery → Fin 16
  | .real line _ => line
  | .spuriousMaster => 7
  | .spuriousSlave => 15

/-- The number that the stub of the line pushes. -/
def intno (d : Delivery) : BitVec 32 := PIC1_OFFSET + BitVec.ofNat 32 d.line.val

/-- The bit of a line in the register of a chip; the master has the slave on line 2. -/
def bit (d : Delivery) : ChipName → Option (Fin 8)
  | .master => some (if h : d.line.val < 8 then ⟨d.line.val, h⟩ else 2)
  | .slave => if 8 ≤ d.line.val then some (Fin.ofNat 8 (d.line.val - 8)) else none

/-- What delivery does to the registers. -/
def deliver (d : Delivery) (p : Pics) : Pics :=
  match d with
  | .real line _ =>
    if h : line.val < 8 then { p with master := p.master.set ⟨line.val, h⟩, eois := [] }
    else { p with
      slave := p.slave.set (Fin.ofNat 8 (line.val - 8))
      master := p.master.set 2
      eois := [] }
  | .spuriousMaster => { p with eois := [] }
  | .spuriousSlave => { p with master := p.master.set 2, eois := [] }

end Delivery

/-- The line of the first serial port. -/
def Delivery.com1 : Delivery := .real 4 (by decide)

def service (d : Delivery) (p : Pics) : Except Halt Pics := interruptHandler d.intno (d.deliver p)

/-- The registers are as they were before, and who was sent an end of interrupt had the bit. -/
structure Acknowledged (d : Delivery) (p p' : Pics) : Prop where
  master : p'.master.inService = p.master.inService
  slave : p'.slave.inService = p.slave.inService
  eois : ∀ e ∈ p'.eois, ∃ i, d.bit e.1 = some i ∧ e.2.getLsbD i = true

/-- Every interrupt of a run is acknowledged. -/
def AllAcknowledged : List Delivery → Pics → Prop
  | [], _ => True
  | d :: ds, p => ∃ p', service d p = .ok p' ∧ Acknowledged d p p' ∧ AllAcknowledged ds p'

/-- Nothing is in service. -/
def Pics.Quiet (p : Pics) : Prop := p.master.inService = 0 ∧ p.slave.inService = 0

/-- A real interrupt on one of the two lines that `pic_check_spurious` looks at. -/
def Delivery.Suspect (d : Delivery) : Prop := d = .real 7 (by decide) ∨ d = .real 15 (by decide)

section

variable {c : Chip} {i : Fin 8}

theorem highest_bit (h : c.inService = 1#8 <<< i.val) : c.highest = some i := by
  have hall : ∀ i : Fin 8,
      (List.finRange 8).find? (fun j : Fin 8 ↦ (1#8 <<< i.val).getLsbD j) = some i := by decide
  unfold Chip.highest
  rw [h]
  exact hall i

/-- The only bit in service is the one that an end of interrupt clears. -/
theorem nonSpecificEoi_bit (h : c.inService = 1#8 <<< i.val) : c.nonSpecificEoi.inService = 0 := by
  have hall : ∀ i : Fin 8, 1#8 <<< i.val &&& ~~~(1#8 <<< i.val) = 0 := by decide
  unfold Chip.nonSpecificEoi
  rw [highest_bit h]
  show c.inService &&& ~~~(1#8 <<< i.val) = 0
  rw [h]
  exact hall i

theorem set_inService (h : c.inService = 0) (i : Fin 8) : (c.set i).inService = 1#8 <<< i.val := by
  show c.inService ||| 1#8 <<< i.val = 1#8 <<< i.val
  rw [h]
  exact BitVec.zero_or

theorem set_getLsbD (c : Chip) (i : Fin 8) : (c.set i).inService.getLsbD i = true := by
  have hall : ∀ i : Fin 8, (1#8 <<< i.val).getLsbD i = true := by decide
  unfold Chip.set
  rw [BitVec.getLsbD_or, hall i, Bool.or_true]

end

section

variable {d : Delivery} {ds : List Delivery} {p p' : Pics}

/-- Which line it was comes through the interrupt number. -/
theorem irq_intno (d : Delivery) :
    (d.intno - PIC1_OFFSET).setWidth 8 = BitVec.ofNat 8 d.line.val := by
  have hall : ∀ line : Fin 16, (PIC1_OFFSET + BitVec.ofNat 32 line.val - PIC1_OFFSET).setWidth 8 =
      BitVec.ofNat 8 line.val := by decide
  exact hall d.line

theorem service_eq {irq : BitVec 8} (d : Delivery) (p : Pics)
    (hirq : irq = BitVec.ofNat 8 d.line.val) (h : d.line ≠ 0) :
    service d p = .ok (if (picCheckSpurious irq (d.deliver p)).1
      then (picCheckSpurious irq (d.deliver p)).2
      else picEoi irq (picCheckSpurious irq (d.deliver p)).2) := by
  have hrange : ∀ line : Fin 16, line ≠ 0 →
      PIC1_OFFSET + BitVec.ofNat 32 line.val ≠ INT_ERR ∧
        (PIC1_OFFSET ≤ PIC1_OFFSET + BitVec.ofNat 32 line.val ∧
          PIC1_OFFSET + BitVec.ofNat 32 line.val ≤ PIC1_OFFSET + 15) ∧
        BitVec.ofNat 8 line.val ≠ IRQ_PIT := by decide
  obtain ⟨h₁, h₂, h₃⟩ := hrange d.line h
  have h₁' : d.intno ≠ INT_ERR := h₁
  have h₂' : PIC1_OFFSET ≤ d.intno ∧ d.intno ≤ PIC1_OFFSET + 15 := h₂
  unfold service interruptHandler
  rw [if_neg h₁', if_pos h₂']
  unfold irqHandler
  simp only
  rw [irq_intno, if_neg h₃, ← hirq]

/-- A real interrupt that is not taken for a spurious one. -/
theorem service_real {line : Fin 16} (hl : line ≠ 0) (h : p.Quiet)
    (hs : ¬ (Delivery.real line hl).Suspect) :
    ∃ p', service (.real line hl) p = .ok p' ∧ p'.Quiet ∧
      Acknowledged (.real line hl) p p' := by
  have hirq : ∀ line : Fin 16, line ≠ 7 → line ≠ 15 →
      ¬ (BitVec.ofNat 8 line.val = IRQ_SPURIOUS_MASTER ∨
        BitVec.ofNat 8 line.val = IRQ_SPURIOUS_SLAVE) := by decide
  have hslave : ∀ line : Fin 16, BitVec.ofNat 8 line.val ≥ 8 ↔ ¬ line.val < 8 := by decide
  have h₇ : line ≠ 7 := by
    rintro rfl
    exact hs (.inl rfl)
  have h₁₅ : line ≠ 15 := by
    rintro rfl
    exact hs (.inr rfl)
  have hcheck : ∀ p, picCheckSpurious (BitVec.ofNat 8 line.val) p = (false, p) := by
    intro p
    unfold picCheckSpurious
    rw [if_neg (hirq line h₇ h₁₅)]
  rw [service_eq (.real line hl) p rfl hl]
  simp only [Delivery.line, hcheck, Bool.false_eq_true, if_false]
  refine ⟨_, rfl, ?_⟩
  by_cases hlt : line.val < 8
  · -- the master alone
    have hge : ¬ BitVec.ofNat 8 line.val ≥ 8 := fun hge ↦ (hslave line).mp hge hlt
    have hclear := nonSpecificEoi_bit (set_inService h.1 ⟨line.val, hlt⟩)
    have hset := set_getLsbD p.master ⟨line.val, hlt⟩
    unfold picEoi Delivery.deliver
    simp only [if_neg hge, dif_pos hlt]
    refine ⟨⟨hclear, h.2⟩, hclear.trans h.1.symm, rfl, fun e he ↦ ?_⟩
    have he' : e = (.master, (p.master.set ⟨line.val, hlt⟩).inService) := List.mem_singleton.mp he
    rw [he']
    refine ⟨⟨line.val, hlt⟩, ?_, hset⟩
    simp [Delivery.bit, Delivery.line, hlt]
  · -- the slave first, and the master for line 2
    have hge : BitVec.ofNat 8 line.val ≥ 8 := (hslave line).mpr hlt
    have hclear := nonSpecificEoi_bit (set_inService h.2 (Fin.ofNat 8 (line.val - 8)))
    have hclear' := nonSpecificEoi_bit (set_inService h.1 2)
    have hset := set_getLsbD p.slave (Fin.ofNat 8 (line.val - 8))
    have hset' := set_getLsbD p.master 2
    unfold picEoi Delivery.deliver
    simp only [if_pos hge, dif_neg hlt]
    refine ⟨⟨hclear', hclear⟩, hclear'.trans h.1.symm, hclear.trans h.2.symm, fun e he ↦ ?_⟩
    have he' : e = (.master, (p.master.set 2).inService) ∨
        e = (.slave, (p.slave.set (Fin.ofNat 8 (line.val - 8))).inService) := by
      rcases List.mem_cons.mp he with he | he
      · exact .inl he
      · exact .inr (List.mem_singleton.mp he)
    rcases he' with he | he
    · rw [he]
      refine ⟨2, ?_, hset'⟩
      simp [Delivery.bit, Delivery.line, hlt]
    · rw [he]
      refine ⟨Fin.ofNat 8 (line.val - 8), ?_, hset⟩
      simp [Delivery.bit, Delivery.line, Nat.le_of_not_lt hlt]

/-- Both chips set to return their in-service registers. -/
def Pics.selected (p : Pics) : Pics :=
  { p with
    master := { p.master with readsInService := true }
    slave := { p.slave with readsInService := true } }

theorem picReadIsr_eq (p : Pics) : picReadIsr p =
    (p.master.inService.setWidth 16 <<< 8 ||| p.slave.inService.setWidth 16, p.selected) := rfl

theorem and_bit_eq_zero {w : Nat} (x : BitVec w) {i : Nat} (hi : i < w) :
    x &&& (1#w <<< i) = 0 ↔ x.getLsbD i = false := by
  have h := BitVec.and_twoPow x i
  rw [BitVec.twoPow] at h
  rw [h]
  cases hx : x.getLsbD i with
  | false => simp
  | true =>
    apply iff_of_false
    · intro hz
      have hbit := congrArg (fun y : BitVec w ↦ y.getLsbD i) hz
      simp [hi] at hbit
    · decide

/-- For line 7 of the master the code tests bit 7 of the slave. -/
theorem picCheckSpurious_master (p : Pics) : picCheckSpurious 7 p =
    (!p.slave.inService.getLsbD 7, p.selected) := by
  have htest : (p.master.inService.setWidth 16 <<< 8 ||| p.slave.inService.setWidth 16) &&&
      (1#16 <<< (7 : BitVec 8).toNat) = 0 ↔ p.slave.inService.getLsbD 7 = false := by
    rw [show (7 : BitVec 8).toNat = 7 from rfl, and_bit_eq_zero _ (by decide)]
    simp
  unfold picCheckSpurious
  rw [if_pos (.inl rfl), picReadIsr_eq]
  simp only [htest]
  cases p.slave.inService.getLsbD 7 <;> rfl

/-- And for line 15 bit 7 of the master. -/
theorem picCheckSpurious_slave (p : Pics) : picCheckSpurious 15 p =
    if p.master.inService.getLsbD 7 then (false, p.selected)
    else (true, ioOutb PIC1_COMMAND OCW2_EOI p.selected) := by
  have htest : (p.master.inService.setWidth 16 <<< 8 ||| p.slave.inService.setWidth 16) &&&
      (1#16 <<< (15 : BitVec 8).toNat) = 0 ↔ p.master.inService.getLsbD 7 = false := by
    rw [show (15 : BitVec 8).toNat = 15 from rfl, and_bit_eq_zero _ (by decide)]
    simp
  unfold picCheckSpurious
  rw [if_pos (.inr rfl), picReadIsr_eq]
  simp only [htest]
  cases p.master.inService.getLsbD 7 <;> rfl

/-- On line 7 nothing is done if the slave has nothing in service there. -/
theorem service_master (hd : d.line = 7) (hs : (d.deliver p).slave.inService.getLsbD 7 = false) :
    service d p = .ok (d.deliver p).selected := by
  have hirq : (7 : BitVec 8) = BitVec.ofNat 8 d.line.val := by
    rw [hd]
    rfl
  rw [service_eq d p hirq (by rw [hd]; decide), picCheckSpurious_master, hs]
  rfl

/-- On line 15 the master alone is sent an end of interrupt if it has nothing in service on line
7. -/
theorem service_slave (hd : d.line = 15) (hm : (d.deliver p).master.inService.getLsbD 7 = false) :
    service d p = .ok (ioOutb PIC1_COMMAND OCW2_EOI (d.deliver p).selected) := by
  have hirq : (15 : BitVec 8) = BitVec.ofNat 8 d.line.val := by
    rw [hd]
    rfl
  rw [service_eq d p hirq (by rw [hd]; decide), picCheckSpurious_slave, hm]
  rfl

/-- The step lemma. -/
theorem service_quiet (h : p.Quiet) (hd : ¬ d.Suspect) :
    ∃ p', service d p = .ok p' ∧ p'.Quiet ∧ Acknowledged d p p' := by
  cases d with
  | real line hl => exact service_real hl h hd
  | spuriousMaster =>
    refine ⟨_, service_master rfl ?_, h, rfl, rfl, fun e he ↦ by cases he⟩
    show p.slave.inService.getLsbD 7 = false
    rw [h.2]
    rfl
  | spuriousSlave =>
    have hclear := nonSpecificEoi_bit
      (c := (Delivery.spuriousSlave.deliver p).selected.master) (set_inService h.1 2)
    refine ⟨_, service_slave rfl ?_, ⟨hclear, h.2⟩, hclear.trans h.1.symm, rfl, fun e he ↦ ?_⟩
    · show (p.master.inService ||| 1#8 <<< 2).getLsbD 7 = false
      rw [h.1]
      rfl
    · have he' : e = (.master, (p.master.set 2).inService) := List.mem_singleton.mp he
      rw [he']
      exact ⟨2, rfl, set_getLsbD p.master 2⟩

/-- The test looks at the other chip's half of the word: a real interrupt is taken for a spurious
one, and its bit stays in service. -/
theorem service_suspect (h : p.Quiet) (hd : d.Suspect) :
    ∃ p', service d p = .ok p' ∧ ¬ Acknowledged d p p' := by
  rcases hd with rfl | rfl
  · refine ⟨_, service_master rfl ?_, fun ha ↦ ?_⟩
    · show p.slave.inService.getLsbD 7 = false
      rw [h.2]
      rfl
    · have hm : p.master.inService ||| 1#8 <<< 7 = p.master.inService := ha.master
      rw [h.1] at hm
      exact absurd hm (by decide)
  · refine ⟨_, service_slave rfl ?_, fun ha ↦ ?_⟩
    · show (p.master.inService ||| 1#8 <<< 2).getLsbD 7 = false
      rw [h.1]
      rfl
    · have hs : p.slave.inService ||| 1#8 <<< 7 = p.slave.inService := ha.slave
      rw [h.2] at hs
      exact absurd hs (by decide)

/-- The interrupts of a run are all acknowledged correctly if and only if none of them is a real
one on line 7 or 15. -/
theorem all_acknowledged_iff (h : p.Quiet) :
    AllAcknowledged ds p ↔ ∀ d ∈ ds, ¬ d.Suspect := by
  induction ds generalizing p with
  | nil => exact iff_of_true trivial (by simp)
  | cons d ds ih =>
    rw [List.forall_mem_cons]
    by_cases hd : d.Suspect
    · apply iff_of_false
      · rintro ⟨p', hs, ha, -⟩
        obtain ⟨p'', hs', hn⟩ := service_suspect h hd
        rw [hs] at hs'
        cases hs'
        exact hn ha
      · exact fun hn ↦ hn.1 hd
    · obtain ⟨p', hs, hq, ha⟩ := service_quiet h hd
      rw [and_iff_right hd, ← ih hq]
      constructor
      · rintro ⟨p'', hs', -, hall⟩
        rw [hs] at hs'
        cases hs'
        exact hall
      · exact fun hall ↦ ⟨p', hs, ha, hall⟩

end

/-- Nothing in service, nothing requested. -/
def Pics.start : Pics := ⟨⟨0, 0, false⟩, ⟨0, 0, false⟩, []⟩

theorem all_acknowledged_iff_start : Pics.start.Quiet ∧
    (AllAcknowledged [.real 1 (by decide), .spuriousSlave] Pics.start ↔
      ∀ d ∈ [Delivery.real 1 (by decide), .spuriousSlave], ¬ d.Suspect) :=
  have hq : Pics.start.Quiet := ⟨rfl, rfl⟩
  ⟨hq, all_acknowledged_iff hq⟩

/-- A real interrupt on line 7 leaves its bit in service. -/
theorem real_seven_not_acknowledged : ∃ p', service (.real 7 (by decide)) Pics.start = .ok p' ∧
    Pics.start.master.inService = 0 ∧ p'.master.inService = 0x80 ∧ p'.eois = [] ∧
    ¬ AllAcknowledged [.real 7 (by decide)] Pics.start := by
  refine ⟨_, rfl, rfl, rfl, rfl, ?_⟩
  rintro ⟨p', hs, ha, -⟩
  cases hs
  exact absurd ha.master (by decide)

end AlienOS.Io
