import AlienOS.Io.Pic
import AlienOS.Kernel.Context
import AlienOS.Lib.Bits

/-!
# Idt — `idt_init` and the gates it fills

The stubs of `interruptasm.s` go by their mnemonics; where they lie in memory is a parameter.
-/

open AlienOS.Lib AlienOS.Kernel.Context

namespace AlienOS.Io

/-! ## `interruptasm.s` -/

inductive Isr where
  | ERR | DE | DB | NMI | BP | OF | BR | UD | NM | DF | MP | TS | NP | SS | GP | PF | MF | AC | MC
  | XM | VE | CP | HV | VC | SX | SYS
  | IRQ0 | IRQ1 | IRQ2 | IRQ3 | IRQ4 | IRQ5 | IRQ6 | IRQ7 | IRQ8 | IRQ9 | IRQ10 | IRQ11 | IRQ12
  | IRQ13 | IRQ14 | IRQ15
  deriving DecidableEq, Repr

/-- The stubs made with the macro `isrer`. -/
def Isr.expectsErrorCode : Isr → Bool
  | .DF | .TS | .NP | .SS | .GP | .PF | .AC | .CP | .VC | .SX => true
  | _ => false

/-- The interrupt number that a stub pushes; `isr_IRQ0` is no such stub. -/
def Isr.intnum : Isr → Option Word
  | .ERR => some 0xFF
  | .DE => some 0x00
  | .DB => some 0x01
  | .NMI => some 0x02
  | .BP => some 0x03
  | .OF => some 0x04
  | .BR => some 0x05
  | .UD => some 0x06
  | .NM => some 0x07
  | .DF => some 0x08
  | .MP => some 0x09
  | .TS => some 0x0A
  | .NP => some 0x0B
  | .SS => some 0x0C
  | .GP => some 0x0D
  | .PF => some 0x0E
  | .MF => some 0x10
  | .AC => some 0x11
  | .MC => some 0x12
  | .XM => some 0x13
  | .VE => some 0x14
  | .CP => some 0x15
  | .HV => some 0x1C
  | .VC => some 0x1D
  | .SX => some 0x1E
  | .SYS => some 0x80
  | .IRQ0 => none
  | .IRQ1 => some 0x21
  | .IRQ2 => some 0x22
  | .IRQ3 => some 0x23
  | .IRQ4 => some 0x24
  | .IRQ5 => some 0x25
  | .IRQ6 => some 0x26
  | .IRQ7 => some 0x27
  | .IRQ8 => some 0x28
  | .IRQ9 => some 0x29
  | .IRQ10 => some 0x2A
  | .IRQ11 => some 0x2B
  | .IRQ12 => some 0x2C
  | .IRQ13 => some 0x2D
  | .IRQ14 => some 0x2E
  | .IRQ15 => some 0x2F

/-! ## `interrupt.c` -/

def InterruptPrivilege_Ring0 : Word := 0
def InterruptPrivilege_Ring3 : Word := 3
def InterruptType_32bit_Interrupt : Word := 0xE

structure GateDescriptor where
  d0 : Word
  d1 : Word
  deriving DecidableEq, Repr

def fillEntry (offset : Word) (segmentSelector : BitVec 16) (type privilege : Word)
    (present : Bool) : GateDescriptor :=
  let d0 : Word := 0
  let d1 : Word := 0
  let d0 := d0 ||| offset &&& 0xFFFF
  let d0 := d0 ||| segmentSelector.setWidth 32 <<< 16
  let d1 := d1 ||| (type &&& 0b1111) <<< 8
  let d1 := d1 ||| (privilege &&& 0b11) <<< 13
  let d1 := d1 ||| (BitVec.ofBool present).setWidth 32 <<< 15
  let d1 := d1 ||| offset &&& 0xFFFF0000
  ⟨d0, d1⟩

def fillInterrupt (offset : Word) : GateDescriptor :=
  fillEntry offset (segselectorInit SegmentKernelCode TableIndex_GDT SegmentPrivilege_Ring0)
    InterruptType_32bit_Interrupt InterruptPrivilege_Ring0 true

abbrev IDT_ENTRIES : Nat := 256

/-- The calls of `fill_interrupt` after the loop. -/
def stubs : List (Fin IDT_ENTRIES × Isr) :=
  [(0x00, .DE), (0x01, .DB), (0x02, .NMI), (0x03, .BP), (0x04, .OF), (0x05, .BR), (0x06, .UD),
    (0x07, .NM), (0x08, .DF), (0x09, .MP), (0x0A, .TS), (0x0B, .NP), (0x0C, .SS), (0x0D, .GP),
    (0x0E, .PF), (0x10, .MF), (0x11, .AC), (0x12, .MC), (0x13, .XM), (0x14, .VE), (0x15, .CP),
    (0x1C, .HV), (0x1D, .VC), (0x1E, .SX), (0x20, .IRQ0), (0x21, .IRQ1), (0x22, .IRQ2),
    (0x23, .IRQ3), (0x24, .IRQ4), (0x25, .IRQ5), (0x26, .IRQ6), (0x27, .IRQ7), (0x28, .IRQ8),
    (0x29, .IRQ9), (0x2A, .IRQ10), (0x2B, .IRQ11), (0x2C, .IRQ12), (0x2D, .IRQ13),
    (0x2E, .IRQ14), (0x2F, .IRQ15)]

def PIC2_OFFSET : BitVec 8 := 0x28

structure IdtState where
  init : Bool
  idt : Vector GateDescriptor IDT_ENTRIES
  idtrSize : BitVec 16
  idtrOffset : Word
  pics : Controllers

/-- The entries, with `symbol` for the addresses of the stubs. -/
def idtFill (symbol : Isr → Word) (idt : Vector GateDescriptor IDT_ENTRIES) :
    Vector GateDescriptor IDT_ENTRIES :=
  let idt := (List.finRange IDT_ENTRIES).foldl
    (fun idt i ↦ idt.set i.val (fillInterrupt (symbol .ERR)) i.isLt) idt
  let idt := stubs.foldl (fun idt e ↦ idt.set e.1.val (fillInterrupt (symbol e.2)) e.1.isLt) idt
  idt.set 0x80 (fillEntry (symbol .SYS)
    (segselectorInit SegmentKernelCode TableIndex_GDT SegmentPrivilege_Ring0)
    InterruptType_32bit_Interrupt InterruptPrivilege_Ring3 true) (by decide)

/-- `idt` is the address of the table. -/
def idtInit (symbol : Isr → Word) (idt : Word) (s : IdtState) : Except Halt IdtState := do
  kernelAssert (!s.init) "Already initialized IDT"
  return {
    init := true
    idt := idtFill symbol s.idt
    idtrSize := BitVec.ofNat 16 (IDT_ENTRIES * 8) - 1
    idtrOffset := idt
    pics := picRemap (PIC1_OFFSET.setWidth 8) PIC2_OFFSET s.pics }

/-! ## What the CPU reads -/

structure Gate where
  offset : Word
  selector : BitVec 16
  type : BitVec 4
  privilege : BitVec 2
  present : Bool
  deriving DecidableEq, Repr

def GateDescriptor.gate (g : GateDescriptor) : Gate where
  offset := g.d1.extractLsb' 16 16 ++ g.d0.extractLsb' 0 16
  selector := g.d0.extractLsb' 16 16
  type := g.d1.extractLsb' 8 4
  privilege := g.d1.extractLsb' 13 2
  present := g.d1.extractLsb' 15 1 == 1#1

def IdtState.gate (s : IdtState) (v : Fin IDT_ENTRIES) : Gate := s.idt[v].gate

/-- Whatever `fill_entry` is given is what the CPU reads. -/
theorem gate_fillEntry (offset : Word) (segmentSelector : BitVec 16) (type privilege : Word)
    (present : Bool) : (fillEntry offset segmentSelector type privilege present).gate =
      ⟨offset, segmentSelector, type.setWidth 4, privilege.setWidth 2, present⟩ := by
  have h₁ : (0xFFFF : Word) = fieldMask 32 0 16 := by decide
  have h₂ : (0b1111 : Word) = fieldMask 32 0 4 := by decide
  have h₃ : (0b11 : Word) = fieldMask 32 0 2 := by decide
  have h₄ : (0xFFFF0000 : Word) = fieldMask 32 16 16 := by decide
  unfold fillEntry GateDescriptor.gate
  simp (disch := omega) only [h₁, h₂, h₃, h₄, BitVec.extractLsb'_or, extract_mask,
    extract_mask_apart, extract_shiftLeft, extract_shiftLeft_below, extract_setWidth_above]
  simp only [BitVec.ofNat_eq_ofNat, BitVec.extractLsb'_zero, BitVec.zero_or, BitVec.or_zero,
    Gate.mk.injEq]
  refine ⟨?_, ?_, ?_, ?_, ?_⟩
  · rw [BitVec.extractLsb'_append_extractLsb'_eq_extractLsb' (by decide)]
    exact BitVec.extractLsb'_eq_self
  · rw [BitVec.extractLsb'_setWidth_of_le (by decide)]
    exact BitVec.extractLsb'_eq_self
  · ext i hi
    simp
  · ext i hi
    simp
  · cases present <;> decide

/-! ## The table -/

/-- The stub of an interrupt number. -/
def stubOf (v : Fin IDT_ENTRIES) : Isr :=
  if v = 0x80 then .SYS else ((stubs.find? (·.1 = v)).map Prod.snd).getD .ERR

section

variable {α β : Type} {n : Nat}

theorem get_set (v : Vector α n) (i j : Fin n) (a : α) :
    (v.set i.val a i.isLt)[j] = if i = j then a else v[j] := by
  rw [Fin.getElem_fin, Fin.getElem_fin, Vector.getElem_set]
  simp only [Fin.ext_iff]

/-- Entries set one after another, each at an index of its own. -/
theorem foldl_set_get (key : β → Fin n) (value : β → α) (i : Fin n) :
    ∀ (l : List β) (v : Vector α n), (l.map key).Nodup →
      (l.foldl (fun v e ↦ v.set (key e).val (value e) (key e).isLt) v)[i] =
        ((l.find? (key · = i)).map value).getD v[i] := by
  intro l
  induction l with
  | nil => exact fun _ _ ↦ rfl
  | cons e l ih =>
    intro v hnodup
    rw [List.map_cons, List.nodup_cons] at hnodup
    rw [List.foldl_cons, ih _ hnodup.2, List.find?_cons, get_set]
    by_cases he : key e = i
    · -- no later one has the index
      have hnone : l.find? (key · = i) = none := by
        rw [List.find?_eq_none]
        intro e' he' hkey
        have hkey' : key e' = i := of_decide_eq_true hkey
        exact hnodup.1 (List.mem_map.mpr ⟨e', he', hkey'.trans he.symm⟩)
      rw [hnone, decide_eq_true he, if_pos he]
      rfl
    · rw [decide_eq_false he, if_neg he]

end

theorem get_idtFill (symbol : Isr → Word) (idt : Vector GateDescriptor IDT_ENTRIES)
    (v : Fin IDT_ENTRIES) : (idtFill symbol idt)[v] =
      if v = 0x80 then fillEntry (symbol .SYS) kernelCodeSegment InterruptType_32bit_Interrupt
        InterruptPrivilege_Ring3 true
      else fillInterrupt (symbol (stubOf v)) := by
  have hkeys : (stubs.map Prod.fst).Nodup := by decide
  have hfound : ((List.finRange IDT_ENTRIES).find? (id · = v)).isSome = true := by
    rw [List.find?_isSome]
    exact ⟨v, List.mem_finRange v, decide_eq_true rfl⟩
  obtain ⟨i, hi⟩ := Option.isSome_iff_exists.mp hfound
  unfold idtFill
  refine (get_set _ 0x80 v _).trans ?_
  by_cases hv : v = 0x80
  · rw [if_pos hv.symm, if_pos hv]
    rfl
  · rw [if_neg (Ne.symm hv), if_neg hv]
    refine (foldl_set_get Prod.fst (fun e ↦ fillInterrupt (symbol e.2)) v stubs _ hkeys).trans ?_
    unfold stubOf
    rw [if_neg hv]
    cases stubs.find? (Prod.fst · = v) with
    | some e => rfl
    | none =>
      -- only the loop has set it
      refine (foldl_set_get id (fun _ ↦ fillInterrupt (symbol .ERR)) v _ idt
        (by rw [List.map_id]; exact List.nodup_finRange _)).trans ?_
      rw [hi]
      rfl

/-- The gate of an interrupt number leads to its stub, in the kernel code segment, with interrupts
off; only that of `int 0x80` may be called from ring 3. -/
theorem gate_idtFill (symbol : Isr → Word) (idt : Vector GateDescriptor IDT_ENTRIES)
    (v : Fin IDT_ENTRIES) : (idtFill symbol idt)[v].gate =
      ⟨symbol (stubOf v), kernelCodeSegment, 0xE, if v.val = 0x80 then 3 else 0, true⟩ := by
  rw [get_idtFill]
  by_cases hv : v = 0x80
  · have hval : v.val = 0x80 := congrArg Fin.val hv
    rw [if_pos hv, if_pos hval, gate_fillEntry]
    have hstub : stubOf v = .SYS := by
      rw [hv]
      rfl
    rw [hstub]
    rfl
  · have hval : v.val ≠ 0x80 := fun h ↦ hv (Fin.ext h)
    rw [if_neg hv, if_neg hval]
    unfold fillInterrupt
    rw [gate_fillEntry]
    rfl

end AlienOS.Io
