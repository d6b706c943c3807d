import AlienOS.Heap.Kmalloc
import AlienOS.Kernel.Context
import AlienOS.Lib.Bits

/-!
# Gdt — `gdt_init` and the descriptors it builds

What the CPU reads out of a descriptor is `GDTEntry.descriptor`; it is written from the layout of
the two words, and `gdt_insert` is compared with it.
-/

open AlienOS.Lib AlienOS.Kernel.Context

namespace AlienOS.Mem

/-! ## `gdt.h` -/

def SegmentNull : Word := 0
def SegmentUserCode : Word := 3
def SegmentUserData : Word := 4
def SegmentTaskState : Word := 5

def SegmentPrivilege_Ring3 : Word := 3

def SegmentDC_DirectionUp : Word := 0
def SegmentDC_ConformStrict : Word := 0
def SegmentDC_ConformLoose : Word := 0

def SegmentRW_ReadEnable : Word := 1
def SegmentRW_WriteEnable : Word := 1

def SystemSegmentType_32bit_Available : Word := 0x9

def SegmentGranularityFlag_Page : Word := 1

def SegmentSizeFlag_32bit : Word := 1
def SegmentSizeFlag_64bit : Word := 2

structure SegmentDescriptor where
  base : Word
  limit : Word
  access : BitVec 8
  flags : BitVec 8
  deriving DecidableEq, Repr

/-- `sizeof (struct TSS)` -/
def TSS_SIZE : Word := 104

/-! ## `gdt.c` -/

structure GDTEntry where
  data0 : Word
  data1 : Word
  deriving DecidableEq, Repr

/-- A flag as the byte 0 or 1. -/
def flagByte (b : Bool) : BitVec 8 := (BitVec.ofBool b).setWidth 8

def gdtInitsegAccess (present : Bool) (dpl : Word) (executable : Bool) (dc rw : Word)
    (accessed : Bool) : BitVec 8 :=
  let accessByte : BitVec 8 := 0
  let accessByte := accessByte ||| flagByte present <<< 7
  let accessByte := accessByte ||| dpl.setWidth 8 <<< 5
  let accessByte := accessByte ||| 1 <<< 4
  let accessByte := accessByte ||| flagByte executable <<< 3
  let accessByte := accessByte ||| dc.setWidth 8 <<< 2
  let accessByte := accessByte ||| rw.setWidth 8 <<< 1
  accessByte ||| flagByte accessed

def gdtInitFlags (g size : Word) : BitVec 8 :=
  let (db, l) := if size = SegmentSizeFlag_64bit then (false, true) else (size != 0, false)
  let flags : BitVec 8 := 0
  let flags := flags ||| g.setWidth 8 <<< 3
  let flags := flags ||| flagByte db <<< 2
  flags ||| flagByte l <<< 1

def gdtInitsysegAccess (present : Bool) (dpl type : Word) : BitVec 8 :=
  let accessByte : BitVec 8 := 0
  let accessByte := accessByte ||| flagByte present <<< 7
  let accessByte := accessByte ||| dpl.setWidth 8 <<< 5
  accessByte ||| type.setWidth 8

def gdtInsert (segment : SegmentDescriptor) : GDTEntry :=
  let data0 : Word := 0
  let data1 : Word := 0
  let data0 := data0 ||| segment.limit &&& 0xFFFF
  let data0 := data0 ||| (segment.base &&& 0xFFFF) <<< 16
  let data1 := data1 ||| segment.base >>> 16 &&& 0xFF
  let data1 := data1 ||| (segment.access.setWidth 32 &&& 0xFF) <<< 8
  let data1 := data1 ||| segment.limit &&& 0xF0000
  let data1 := data1 ||| (segment.flags.setWidth 32 &&& 0xF) <<< 20
  let data1 := data1 ||| segment.base &&& 0xFF000000
  ⟨data0, data1⟩

/-- The segment registers, the task register and the descriptor table register of the CPU. -/
structure Segments where
  gdtrSize : BitVec 16
  gdtrOffset : Word
  tr : BitVec 16
  cs : BitVec 16
  ds : BitVec 16
  es : BitVec 16
  fs : BitVec 16
  gs : BitVec 16
  ss : BitVec 16
  deriving DecidableEq, Repr

def reloadSegments (cpu : Segments) : Segments :=
  let cpu := { cpu with cs := 0x08 }
  { cpu with ds := 0x10, es := 0x10, fs := 0x10, gs := 0x10, ss := 0x10 }

def gdtrInit (size : BitVec 16) (offset : Word) (cpu : Segments) : Segments :=
  reloadSegments { cpu with gdtrSize := size, gdtrOffset := offset }

def tssFlush (selector : BitVec 16) (cpu : Segments) : Segments := { cpu with tr := selector }

/-- The code and data segments differ in these. -/
def wholeMemory (dpl : Word) (executable : Bool) (dc rw : Word) : SegmentDescriptor where
  base := 0
  limit := 0xFFFFF
  access := gdtInitsegAccess true dpl executable dc rw false
  flags := gdtInitFlags SegmentGranularityFlag_Page SegmentSizeFlag_32bit

def taskState (tss : Word) : SegmentDescriptor where
  base := tss
  limit := TSS_SIZE - 1
  access := gdtInitsysegAccess true SegmentPrivilege_Ring0 SystemSegmentType_32bit_Available
  flags := gdtInitFlags SegmentGranularityFlag_Page SegmentSizeFlag_32bit

structure GdtState where
  init : Bool
  gdt : Vector GDTEntry 6
  cpu : Segments
  deriving DecidableEq

/-- The six descriptors. -/
def gdtFill (tss : Word) (gdt : Vector GDTEntry 6) : Vector GDTEntry 6 :=
  let gdt := gdt.set SegmentNull.toNat ⟨0, 0⟩ (by decide)
  let gdt := gdt.set SegmentKernelCode.toNat
    (gdtInsert (wholeMemory SegmentPrivilege_Ring0 true SegmentDC_ConformStrict
      SegmentRW_ReadEnable)) (by decide)
  let gdt := gdt.set SegmentKernelData.toNat
    (gdtInsert (wholeMemory SegmentPrivilege_Ring0 false SegmentDC_DirectionUp
      SegmentRW_WriteEnable)) (by decide)
  let gdt := gdt.set SegmentUserCode.toNat
    (gdtInsert (wholeMemory SegmentPrivilege_Ring3 true SegmentDC_ConformLoose
      SegmentRW_ReadEnable)) (by decide)
  let gdt := gdt.set SegmentUserData.toNat
    (gdtInsert (wholeMemory SegmentPrivilege_Ring3 false SegmentDC_DirectionUp
      SegmentRW_WriteEnable)) (by decide)
  gdt.set SegmentTaskState.toNat (gdtInsert (taskState tss)) (by decide)

/-- `tss` and `gdt` are the addresses of the two. -/
def gdtInit (tss gdt : Word) (s : GdtState) : Except Halt GdtState := do
  kernelAssert (!s.init) "gdt_init() - Already initialized."
  let entries := gdtFill tss s.gdt
  let cpu := gdtrInit (6 * 8 - 1) gdt s.cpu
  let cpu := tssFlush (segselectorInit SegmentTaskState TableIndex_GDT SegmentPrivilege_Ring0) cpu
  return { init := true, gdt := entries, cpu := cpu }

/-! ## What the CPU reads -/

structure Descriptor where
  base : Word
  limit : BitVec 20
  access : BitVec 8
  flags : BitVec 4
  deriving DecidableEq, Repr

def GDTEntry.descriptor (e : GDTEntry) : Descriptor where
  base := e.data1.extractLsb' 24 8 ++ e.data1.extractLsb' 0 8 ++ e.data0.extractLsb' 16 16
  limit := e.data1.extractLsb' 16 4 ++ e.data0.extractLsb' 0 16
  access := e.data1.extractLsb' 8 8
  flags := e.data1.extractLsb' 20 4

namespace Descriptor

variable (d : Descriptor)

def present : Bool := d.access.getLsbD 7
def dpl : BitVec 2 := d.access.extractLsb' 5 2
def codeOrData : Bool := d.access.getLsbD 4
def executable : Bool := d.access.getLsbD 3
def readWrite : Bool := d.access.getLsbD 1
def systemType : BitVec 4 := d.access.extractLsb' 0 4
def pageGranular : Bool := d.flags.getLsbD 3
def is32bit : Bool := d.flags.getLsbD 2 && !d.flags.getLsbD 1

/-- The last offset in a segment that grows up. -/
def last : Word :=
  if d.pageGranular then d.limit.setWidth 32 <<< 12 ||| 0xFFF else d.limit.setWidth 32

/-- The linear address of an offset. -/
def translate (offset : Word) : Option Word :=
  if offset ≤ d.last then some (d.base + offset) else none

/-- A code or data segment of 4 GiB for one ring. -/
structure Flat (ring : BitVec 2) (code : Bool) : Prop where
  present : d.present = true
  dpl : d.dpl = ring
  codeOrData : d.codeOrData = true
  executable : d.executable = code
  readWrite : d.readWrite = true
  is32bit : d.is32bit = true
  translate : ∀ offset, d.translate offset = some offset

end Descriptor

/-- The descriptor that a selector selects: there is no local table, the first entry of the global
one is never used, and an entry must lie within the size in `gdtr`. -/
def GdtState.select (s : GdtState) (selector : BitVec 16) : Option Descriptor :=
  let index := (selector.extractLsb' 3 13).toNat
  if selector.getLsbD 2 ∨ index = 0 ∨ s.cpu.gdtrSize.toNat < 8 * index + 7 then none
  else s.gdt[index]?.map (·.descriptor)

/-- Whatever `gdt_insert` is given is what the CPU reads. -/
theorem descriptor_gdtInsert (s : SegmentDescriptor) : (gdtInsert s).descriptor =
    ⟨s.base, s.limit.setWidth 20, s.access, s.flags.setWidth 4⟩ := by
  have h₁ : (0xFFFF : Word) = fieldMask 32 0 16 := by decide
  have h₂ : (0xFF : Word) = fieldMask 32 0 8 := by decide
  have h₃ : (0xF0000 : Word) = fieldMask 32 16 4 := by decide
  have h₄ : (0xF : Word) = fieldMask 32 0 4 := by decide
  have h₅ : (0xFF000000 : Word) = fieldMask 32 24 8 := by decide
  unfold gdtInsert GDTEntry.descriptor
  simp (disch := omega) only [h₁, h₂, h₃, h₄, h₅, BitVec.extractLsb'_or, extract_mask,
    extract_mask_apart, extract_shiftLeft, extract_shiftLeft_below, extract_shiftRight]
  simp only [BitVec.ofNat_eq_ofNat, BitVec.extractLsb'_zero, BitVec.zero_or, BitVec.or_zero,
    Descriptor.mk.injEq]
  refine ⟨?_, ?_, ?_, ?_⟩
  · -- the base in its three parts
    rw [BitVec.extractLsb'_append_extractLsb'_eq_extractLsb' (by decide),
      BitVec.extractLsb'_append_extractLsb'_eq_extractLsb' (by decide)]
    exact BitVec.extractLsb'_eq_self
  · rw [BitVec.extractLsb'_append_extractLsb'_eq_extractLsb' (by decide)]
    ext i hi
    simp
  · rw [BitVec.extractLsb'_setWidth_of_le (by decide)]
    exact BitVec.extractLsb'_eq_self
  · rw [BitVec.extractLsb'_setWidth_of_le (by decide)]
    ext i hi
    simp

/-- The fields of a selector. -/
theorem segselectorInit_fields (segment tableIndex privilege : Word) :
    (segselectorInit segment tableIndex privilege).extractLsb' 3 13 = segment.extractLsb' 0 13 ∧
    (segselectorInit segment tableIndex privilege).extractLsb' 2 1 = tableIndex.extractLsb' 0 1 ∧
    (segselectorInit segment tableIndex privilege).extractLsb' 0 2 =
      privilege.extractLsb' 0 2 := by
  have h₁ : (0b11 : BitVec 16) = fieldMask 16 0 2 := by decide
  have h₂ : (0b1 : BitVec 16) = fieldMask 16 0 1 := by decide
  unfold segselectorInit
  simp (disch := omega) only [h₁, h₂, BitVec.extractLsb'_or, extract_mask, extract_mask_apart,
    extract_shiftLeft, extract_shiftLeft_below, BitVec.extractLsb'_setWidth_of_le]
  simp

/-- A selector of an entry finds what was inserted there. -/
theorem select_segselectorInit {s : GdtState} {segment : Word} {d : SegmentDescriptor} (rpl : Word)
    (h₀ : 0 < segment.toNat) (h₆ : segment.toNat < 6) (hsize : s.cpu.gdtrSize = 47)
    (hentry : s.gdt[segment.toNat]? = some (gdtInsert d)) :
    s.select (segselectorInit segment TableIndex_GDT rpl) =
      some ⟨d.base, d.limit.setWidth 20, d.access, d.flags.setWidth 4⟩ := by
  obtain ⟨hindex, htable, -⟩ := segselectorInit_fields segment TableIndex_GDT rpl
  have htable' : (segselectorInit segment TableIndex_GDT rpl).getLsbD 2 = false := by
    have hbit := congrArg (fun x : BitVec 1 ↦ x.getLsbD 0) htable
    simpa [TableIndex_GDT] using hbit
  have hnat : ((segselectorInit segment TableIndex_GDT rpl).extractLsb' 3 13).toNat =
      segment.toNat := by
    rw [hindex, BitVec.extractLsb'_toNat, Nat.shiftRight_zero]
    exact Nat.mod_eq_of_lt (by omega)
  have hsize' : s.cpu.gdtrSize.toNat = 47 := by
    rw [hsize]
    rfl
  unfold GdtState.select
  simp only [hnat, htable', hsize']
  rw [if_neg, hentry, Option.map_some, descriptor_gdtInsert]
  rintro (h | h | h)
  · cases h
  · omega
  · omega

/-- A segment of `0xFFFFF` pages from 0 on holds every offset. -/
theorem translate_whole (d : Descriptor) (hb : d.base = 0) (hl : d.limit = 0xFFFFF)
    (hp : d.pageGranular = true) (offset : Word) : d.translate offset = some offset := by
  have hlast : d.last = 0xFFFFFFFF := by
    unfold Descriptor.last
    rw [if_pos hp, hl]
    decide
  have hle : offset ≤ (0xFFFFFFFF : Word) := by
    rw [BitVec.le_def]
    exact Nat.le_of_lt_succ offset.isLt
  unfold Descriptor.translate
  rw [hlast, if_pos hle, hb]
  exact congrArg some (BitVec.zero_add offset)

theorem select_wholeMemory {s : GdtState} {segment : Word} {ring : BitVec 2} {code : Bool}
    (rpl : Word) (h₀ : 0 < segment.toNat) (h₆ : segment.toNat < 6) (hsize : s.cpu.gdtrSize = 47)
    (hentry : s.gdt[segment.toNat]? = some (gdtInsert (wholeMemory (ring.setWidth 32) code 0 1))) :
    ∃ d, s.select (segselectorInit segment TableIndex_GDT rpl) = some d ∧ d.Flat ring code := by
  have haccess : ∀ (ring : BitVec 2) (code : Bool),
      let access := (wholeMemory (ring.setWidth 32) code 0 1).access
      access.getLsbD 7 = true ∧ access.extractLsb' 5 2 = ring ∧ access.getLsbD 4 = true ∧
        access.getLsbD 3 = code ∧ access.getLsbD 1 = true := by decide
  have hflags : (wholeMemory (ring.setWidth 32) code 0 1).flags = 0b1100 := by
    show gdtInitFlags SegmentGranularityFlag_Page SegmentSizeFlag_32bit = 0b1100
    decide
  obtain ⟨hpresent, hdpl, hordinary, hcode, hrw⟩ := haccess ring code
  refine ⟨_, select_segselectorInit rpl h₀ h₆ hsize hentry, ?_⟩
  have hpages : ((0b1100 : BitVec 8).setWidth 4).getLsbD 3 = true := by decide
  have hsize32 : (((0b1100 : BitVec 8).setWidth 4).getLsbD 2 &&
      !((0b1100 : BitVec 8).setWidth 4).getLsbD 1) = true := by decide
  rw [hflags]
  exact ⟨hpresent, hdpl, hordinary, hcode, hrw, hsize32, translate_whole _ rfl rfl hpages⟩

/-- Every selector of an entry finds a segment with all memory. -/
def SelectsFlat (s : GdtState) (segment : Word) (ring : BitVec 2) (code : Bool) : Prop :=
  ∀ rpl, ∃ d, s.select (segselectorInit segment TableIndex_GDT rpl) = some d ∧ d.Flat ring code

/-- The segments that `gdt_init` leaves. -/
structure Described (tss gdt : Word) (s : GdtState) : Prop where
  kernelCode : SelectsFlat s SegmentKernelCode 0 true
  kernelData : SelectsFlat s SegmentKernelData 0 false
  userCode : SelectsFlat s SegmentUserCode 3 true
  userData : SelectsFlat s SegmentUserData 3 false
  null : ∀ rpl, s.select (segselectorInit SegmentNull TableIndex_GDT rpl) = none
  /-- the limit counts pages, so the segment reaches far beyond its 104 bytes -/
  taskState : ∃ d, s.select s.cpu.tr = some d ∧ d.base = tss ∧ d.present = true ∧
    d.codeOrData = false ∧ d.systemType = 0x9 ∧ d.last = 0x67FFF
  table : s.cpu.gdtrOffset = gdt
  code : s.cpu.cs = kernelCodeSegment
  data : ∀ r ∈ [s.cpu.ds, s.cpu.es, s.cpu.fs, s.cpu.gs, s.cpu.ss], r = kernelDataSegment

theorem gdtFill_eq (tss : Word) (gdt : Vector GDTEntry 6) : gdtFill tss gdt =
    #v[⟨0, 0⟩, gdtInsert (wholeMemory 0 true 0 1), gdtInsert (wholeMemory 0 false 0 1),
      gdtInsert (wholeMemory 3 true 0 1), gdtInsert (wholeMemory 3 false 0 1),
      gdtInsert (taskState tss)] := by
  have h₀ : SegmentNull.toNat = 0 := rfl
  have h₁ : SegmentKernelCode.toNat = 1 := rfl
  have h₂ : SegmentKernelData.toNat = 2 := rfl
  have h₃ : SegmentUserCode.toNat = 3 := rfl
  have h₄ : SegmentUserData.toNat = 4 := rfl
  have h₅ : SegmentTaskState.toNat = 5 := rfl
  ext i hi
  unfold gdtFill
  simp only [h₀, h₁, h₂, h₃, h₄, h₅, Vector.getElem_set]
  match i, hi with
  | 0, _ => rfl
  | 1, _ => rfl
  | 2, _ => rfl
  | 3, _ => rfl
  | 4, _ => rfl
  | 5, _ => rfl

theorem gdtInit_described (tss gdt : Word) {s : GdtState} (h : s.init = false) :
    ∃ s', gdtInit tss gdt s = .ok s' ∧ s'.init = true ∧ Described tss gdt s' := by
  unfold gdtInit
  simp only [h, kernelAssert, Bool.not_false, if_true, gdtFill_eq]
  refine ⟨_, rfl, rfl, ?_⟩
  constructor
  · exact fun rpl ↦ select_wholeMemory rpl (by decide) (by decide) rfl rfl
  · exact fun rpl ↦ select_wholeMemory rpl (by decide) (by decide) rfl rfl
  · exact fun rpl ↦ select_wholeMemory rpl (by decide) (by decide) rfl rfl
  · exact fun rpl ↦ select_wholeMemory rpl (by decide) (by decide) rfl rfl
  · intro rpl
    obtain ⟨hindex, -, -⟩ := segselectorInit_fields SegmentNull TableIndex_GDT rpl
    unfold GdtState.select
    rw [if_pos]
    right; left
    rw [hindex]
    rfl
  · refine ⟨_, select_segselectorInit SegmentPrivilege_Ring0 (by decide) (by decide) rfl rfl,
      rfl, ?_⟩
    have haccess : (taskState tss).access = 0x89 := by
      show gdtInitsysegAccess true SegmentPrivilege_Ring0 SystemSegmentType_32bit_Available = 0x89
      decide
    have hflags : (taskState tss).flags = 0b1100 := by
      show gdtInitFlags SegmentGranularityFlag_Page SegmentSizeFlag_32bit = 0b1100
      decide
    have hlimit : (taskState tss).limit = 103 := by
      show TSS_SIZE - 1 = 103
      decide
    simp only [haccess, hflags, hlimit]
    refine ⟨?_, ?_, ?_, ?_⟩
    · show (0x89 : BitVec 8).getLsbD 7 = true
      decide
    · show (0x89 : BitVec 8).getLsbD 4 = false
      decide
    · show (0x89 : BitVec 8).extractLsb' 0 4 = 0x9
      decide
    · have hpages : ((0b1100 : BitVec 8).setWidth 4).getLsbD 3 = true := by decide
      refine (if_pos hpages).trans ?_
      show ((103 : Word).setWidth 20).setWidth 32 <<< 12 ||| (0xFFF : Word) = 0x67FFF
      decide
  · rfl
  · show (0x08 : BitVec 16) = kernelCodeSegment
    decide
  · intro r hr
    simp only [List.mem_cons, List.not_mem_nil, or_false] at hr
    rcases hr with rfl | rfl | rfl | rfl | rfl <;> rfl

theorem gdtInit_again (tss gdt : Word) {s : GdtState} (h : s.init = true) :
    gdtInit tss gdt s = .error (.panic "gdt_init() - Already initialized.") := by
  unfold gdtInit
  rw [h]
  rfl

/-- Before `gdt_init` the CPU has the segments of the boot loader. -/
def bootGdt : GdtState where
  init := false
  gdt := Vector.replicate 6 ⟨0, 0⟩
  cpu := ⟨0x27, 0x9000, 0, 0x10, 0x18, 0x18, 0x18, 0x18, 0x18⟩

end AlienOS.Mem
