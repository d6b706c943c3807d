import AlienOS.Lib.Stack
import Mathlib.Data.Set.Insert
import Mathlib.Logic.Function.Basic
import Mathlib.Logic.Relation

/-!
# Context — `isr_IRQ0` and `internal_thread_init`

The registers of a thread that is not running are the words on its stack from the `esp` in its
`thread_t` upwards, which is at offset 4.
-/

open AlienOS.Lib

namespace AlienOS.Kernel.Context

/-! ## The handler -/

def THREAD_STACK_SPACE : Nat := 1 <<< 16
def EFLAGS_DEFAULT : Word := 0x202
def EFLAGS_IF : Word := 1 <<< 9

structure Registers where
  eax : Word
  ecx : Word
  edx : Word
  ebx : Word
  ebp : Word
  esi : Word
  edi : Word
  ds : BitVec 16
  es : BitVec 16
  fs : BitVec 16
  gs : BitVec 16
  eip : Word
  cs : BitVec 16
  eflags : Word
  esp : Word
  deriving DecidableEq, Repr

structure Machine where
  regs : Registers
  mem : Memory
  /-- the address in `current_thread` -/
  currentThread : Word

namespace Machine

/-- The machine with another stack. -/
def withStack (m : Machine) (s : Memory × Word) : Machine :=
  { m with mem := s.1, regs := { m.regs with esp := s.2 } }

def push (get : Registers → Word) (m : Machine) : Machine :=
  m.withStack (Lib.push (get m.regs) (m.mem, m.regs.esp))

/-- The upper half of the word is zero. -/
def pushSegment (get : Registers → BitVec 16) (m : Machine) : Machine :=
  m.push fun r ↦ (get r).setWidth 32

def pop (load : Word → Registers → Registers) (m : Machine) : Machine :=
  { m with regs := load (readWord m.mem m.regs.esp) { m.regs with esp := m.regs.esp + 4 } }

/-- What the CPU does before it enters the handler through an interrupt gate. -/
def interrupt (m : Machine) : Machine :=
  let m := m.push (·.eflags)
  let m := m.pushSegment (·.cs)
  let m := m.push (·.eip)
  { m with regs := { m.regs with eflags := m.regs.eflags &&& ~~~EFLAGS_IF } }

def save (m : Machine) : Machine :=
  let m := m.push (·.eax)
  let m := m.push (·.ecx)
  let m := m.push (·.edx)
  let m := m.push (·.ebx)
  let m := m.push (·.ebp)
  let m := m.push (·.esi)
  let m := m.push (·.edi)
  let m := m.pushSegment (·.ds)
  let m := m.pushSegment (·.es)
  let m := m.pushSegment (·.fs)
  m.pushSegment (·.gs)

def restore (m : Machine) : Machine :=
  let m := m.pop fun w r ↦ { r with gs := w.setWidth 16 }
  let m := m.pop fun w r ↦ { r with fs := w.setWidth 16 }
  let m := m.pop fun w r ↦ { r with es := w.setWidth 16 }
  let m := m.pop fun w r ↦ { r with ds := w.setWidth 16 }
  let m := m.pop fun w r ↦ { r with edi := w }
  let m := m.pop fun w r ↦ { r with esi := w }
  let m := m.pop fun w r ↦ { r with ebp := w }
  let m := m.pop fun w r ↦ { r with ebx := w }
  let m := m.pop fun w r ↦ { r with edx := w }
  let m := m.pop fun w r ↦ { r with ecx := w }
  m.pop fun w r ↦ { r with eax := w }

def iret (m : Machine) : Machine :=
  let m := m.pop fun w r ↦ { r with eip := w }
  let m := m.pop fun w r ↦ { r with cs := w.setWidth 16 }
  m.pop fun w r ↦ { r with eflags := w }

end Machine

/-- The handler up to the return of `scheduler_next`; `timerCallback` and `schedulerNext` stand for
what the two calls do to the machine. -/
def isrIRQ0Suspend (timerCallback schedulerNext : Machine → Machine) (m : Machine) : Machine :=
  let m := m.interrupt.save
  let m := timerCallback m
  let m := { m with regs := { m.regs with eax := m.currentThread } }
  let m := { m with mem := writeWord m.mem (m.regs.eax + 4) m.regs.esp }
  let m := { m with regs := { m.regs with eax := m.regs.eax &&& ~~~0xFF ||| 0x20 } }
  schedulerNext m

def isrIRQ0 (timerCallback schedulerNext : Machine → Machine) (m : Machine) : Machine :=
  let m := isrIRQ0Suspend timerCallback schedulerNext m
  let m := { m with regs := { m.regs with eax := m.currentThread } }
  let m := { m with regs := { m.regs with esp := readWord m.mem (m.regs.eax + 4) } }
  m.restore.iret

/-! ## A new thread -/

def SegmentKernelCode : Word := 1
def SegmentKernelData : Word := 2
def TableIndex_GDT : Word := 0
def SegmentPrivilege_Ring0 : Word := 0

def segselectorInit (segment tableIndex privilege : Word) : BitVec 16 :=
  let ss : BitVec 16 := 0
  let ss := ss ||| privilege.setWidth 16 &&& 0b11
  let ss := ss ||| (tableIndex.setWidth 16 &&& 0b1) <<< 2
  ss ||| segment.setWidth 16 <<< 3

def kernelCodeSegment : BitVec 16 :=
  segselectorInit SegmentKernelCode TableIndex_GDT SegmentPrivilege_Ring0

def kernelDataSegment : BitVec 16 :=
  segselectorInit SegmentKernelData TableIndex_GDT SegmentPrivilege_Ring0

/-- What it does to memory; of the fields of `thread` only `esp` matters to the handler. -/
def internalThreadInit (threadExit entryPoint arg stackptr thread : Word) (mem : Memory) : Memory :=
  let stack := (mem, stackptr)
  let stack := push arg stack
  let stack := push threadExit stack
  let stack := push EFLAGS_DEFAULT stack
  let stack := push (kernelCodeSegment.setWidth 32) stack
  let stack := push entryPoint stack
  let stack := push 0 stack
  let stack := push 0 stack
  let stack := push 0 stack
  let stack := push 0 stack
  let stack := push 0 stack
  let stack := push 0 stack
  let stack := push 0 stack
  let stack := push (kernelDataSegment.setWidth 32) stack
  let stack := push (kernelDataSegment.setWidth 32) stack
  let stack := push (kernelDataSegment.setWidth 32) stack
  let stack := push (kernelDataSegment.setWidth 32) stack
  writeWord stack.1 (thread + 4) stack.2

/-! ## Frames -/

/-- The words that stand for registers, the lowest first. -/
def Registers.frame (r : Registers) : List Word :=
  [r.gs.setWidth 32, r.fs.setWidth 32, r.es.setWidth 32, r.ds.setWidth 32, r.edi, r.esi, r.ebp,
    r.ebx, r.edx, r.ecx, r.eax, r.eip, r.cs.setWidth 32, r.eflags]

theorem frame_length (r : Registers) : r.frame.length = 14 := rfl

section

variable {m : Machine} {r : Registers}

theorem push_withStack (m : Machine) (s : Memory × Word) (get : Registers → Word) :
    (m.withStack s).push get =
      m.withStack (Lib.push (get { m.regs with esp := s.2 }) s) := rfl

/-- The words pushed on entry, in the order they are pushed. -/
theorem interrupt_save (m : Machine) : m.interrupt.save =
    { m with regs := { m.regs with eflags := m.regs.eflags &&& ~~~EFLAGS_IF } }.withStack
      (pushAll m.regs.frame.reverse (m.mem, m.regs.esp)) := by
  have hinterrupt : m.interrupt =
      { m with regs := { m.regs with eflags := m.regs.eflags &&& ~~~EFLAGS_IF } }.withStack
        (pushAll [m.regs.eflags, m.regs.cs.setWidth 32, m.regs.eip] (m.mem, m.regs.esp)) := rfl
  rw [hinterrupt]
  unfold Machine.save Machine.pushSegment
  simp only [push_withStack]
  simp only [Registers.frame, List.reverse_cons, List.reverse_nil, List.nil_append,
    List.cons_append, pushAll, List.foldl_cons, List.foldl_nil]

/-- The pops take the words in the order the frame has them. -/
theorem restore_iret (h : HoldsWords m.mem m.regs.esp r.frame) :
    m.restore.iret = { m with regs := { r with esp := m.regs.esp + 56 } } := by
  have hsegment : ∀ s : BitVec 16, (s.setWidth 32).setWidth 16 = s := by
    intro s
    rw [BitVec.setWidth_setWidth_of_le _ (by decide), BitVec.setWidth_eq]
  obtain ⟨hgs, hfs, hes, hds, hedi, hesi, hebp, hebx, hedx, hecx, heax, heip, hcs, heflags, -⟩ := h
  have hesp : m.regs.esp + 4 + 4 + 4 + 4 + 4 + 4 + 4 + 4 + 4 + 4 + 4 + 4 + 4 + 4 =
      m.regs.esp + 56 := by
    bv_omega
  unfold Machine.restore Machine.iret Machine.pop
  simp only [hgs, hfs, hes, hds, hedi, hesi, hebp, hebx, hedx, hecx, heax, heip, hcs, heflags,
    hsegment, hesp]

end

/-! ## Runs -/

/-- The registers with which a new thread starts. -/
def firstRegisters (entryPoint stackptr : Word) : Registers :=
  { eax := 0, ecx := 0, edx := 0, ebx := 0, ebp := 0, esi := 0, edi := 0
    ds := kernelDataSegment, es := kernelDataSegment, fs := kernelDataSegment
    gs := kernelDataSegment, eip := entryPoint, cs := kernelCodeSegment
    eflags := EFLAGS_DEFAULT, esp := stackptr - 8 }

theorem firstRegisters_esp (entryPoint stackptr : Word) :
    (firstRegisters entryPoint stackptr).esp = stackptr - 8 := rfl

/-- How a thread came to wait: it was interrupted with some registers and some memory, or it has not
run since it was built. -/
inductive Suspension where
  | interrupted (regs : Registers) (mem : Memory)
  | fabricated (entryPoint arg : Word)

/-- The field `esp` of a `thread_t`. -/
def espField (thread : Word) : Region := .word (thread + 4)

/-- The stack that `thread_create_arg` allocates. -/
def stackSpace (stackBase : Word) : Region := ⟨stackBase, THREAD_STACK_SPACE, by decide⟩

/-- A machine and its threads, which go by the addresses of their `thread_t`. -/
structure System where
  machine : Machine
  threads : Set Word
  stack : Word → Region
  suspended : Word → Suspension

namespace System

variable (σ : System)

def current : Word := σ.machine.currentThread

/-- What belongs to the threads that are not running. -/
def others : Set Word :=
  {a | ∃ p ∈ σ.threads, p ≠ σ.current ∧ (a ∈ σ.stack p ∨ a ∈ espField p)}

end System

/-- No two threads share memory. -/
structure Layout (threads : Set Word) (stack : Word → Region) : Prop where
  disjoint : ∀ p ∈ threads, ∀ q ∈ threads, p ≠ q → (stack p).Disjoint (stack q)
  fields : ∀ p ∈ threads, ∀ q ∈ threads, p ≠ q → (espField p).Disjoint (espField q)
  apart : ∀ p ∈ threads, ∀ q ∈ threads, (stack p).Disjoint (espField q)

/-- A C function called by the handler returns with `esp` as it was; it writes to no other thread's
stack, and to the running thread's only below `esp`. -/
structure Called (σ : System) (m m' : Machine) : Prop where
  esp : m'.regs.esp = m.regs.esp
  others : AgreeOn σ.others m.mem m'.mem
  above : AgreeOn (((σ.stack σ.current).above m.regs.esp)) m.mem m'.mem
  field : AgreeOn {a | a ∈ espField σ.current} m.mem m'.mem

/-- An entry to the handler: there is room for the frame, and any thread may be picked. -/
inductive Switch (σ : System) : System → Prop where
  | mk (timerCallback schedulerNext : Machine → Machine) :
      56 ≤ (σ.stack σ.current).offset σ.machine.regs.esp →
      (σ.stack σ.current).offset σ.machine.regs.esp ≤ (σ.stack σ.current).size →
      (∀ m, Called σ m (timerCallback m) ∧ (timerCallback m).currentThread = m.currentThread) →
      (∀ m, Called σ m (schedulerNext m) ∧ (schedulerNext m).currentThread ∈ σ.threads) →
      Switch σ { σ with
        machine := isrIRQ0 timerCallback schedulerNext σ.machine
        suspended := Function.update σ.suspended σ.current
          (.interrupted σ.machine.regs σ.machine.mem) }

/-- The running thread does what it likes with the registers and with its own memory, builds a
thread in memory of its own, or is interrupted; and a thread that does not run may go. -/
inductive Step (threadExit : Word) (σ : System) : System → Prop where
  | run (m : Machine) :
      m.currentThread = σ.current → AgreeOn σ.others σ.machine.mem m.mem →
      Step threadExit σ { σ with machine := m }
  | create (thread stackBase entryPoint arg : Word) :
      thread ∉ σ.threads →
      Layout (insert thread σ.threads) (Function.update σ.stack thread (stackSpace stackBase)) →
      Step threadExit σ
        { machine := { σ.machine with
            mem := internalThreadInit threadExit entryPoint arg
              (stackBase + BitVec.ofNat 32 THREAD_STACK_SPACE) thread σ.machine.mem }
          threads := insert thread σ.threads
          stack := Function.update σ.stack thread (stackSpace stackBase)
          suspended := Function.update σ.suspended thread (.fabricated entryPoint arg) }
  | reap (thread : Word) :
      thread ≠ σ.current → Step threadExit σ { σ with threads := σ.threads \ {thread} }
  | switch {σ' : System} : Switch σ σ' → Step threadExit σ σ'

/-- A single thread runs. -/
structure Start (σ : System) : Prop where
  threads : σ.threads = {σ.current}
  layout : Layout σ.threads σ.stack

/-! ## Suspended threads -/

/-- The frame of `regs` lies right below their `esp`, and the `thread_t` points to it. -/
structure FrameAt (mem : Memory) (p : Word) (r : Region) (regs : Registers) : Prop where
  esp : readWord mem (p + 4) = regs.esp - 56
  frame : HoldsWords mem (regs.esp - 56) regs.frame
  room : 56 ≤ r.offset regs.esp
  le : r.offset regs.esp ≤ r.size

/-- The registers a thread on the stack `r` is to go on with. -/
def Suspension.registers (r : Region) : Suspension → Registers
  | .interrupted regs _ => regs
  | .fabricated entryPoint _ =>
    firstRegisters entryPoint (r.base + BitVec.ofNat 32 THREAD_STACK_SPACE)

/-- And what it is to find above its `esp`. -/
def Suspension.Kept (threadExit : Word) (r : Region) (mem : Memory) : Suspension → Prop
  | .interrupted regs before => AgreeOn (r.above regs.esp) before mem
  | .fabricated _ arg =>
    r = stackSpace r.base ∧
      HoldsWords mem (r.base + BitVec.ofNat 32 THREAD_STACK_SPACE - 8) [threadExit, arg]

/-- A thread that waits on the stack `r`. -/
structure Parked (threadExit : Word) (mem : Memory) (p : Word) (r : Region) (u : Suspension) :
    Prop where
  frame : FrameAt mem p r (u.registers r)
  kept : u.Kept threadExit r mem

section

variable {threadExit p : Word} {r : Region} {mem mem' : Memory} {regs : Registers}

/-- The frame of a new thread and the two words above it are on its stack. -/
theorem mem_stackSpace {stackBase x : Word}
    (hx : (x - (stackBase + BitVec.ofNat 32 THREAD_STACK_SPACE - 64)).toNat < 64) :
    x ∈ stackSpace stackBase := by
  show (x - stackBase).toNat < THREAD_STACK_SPACE
  have hspace : THREAD_STACK_SPACE = 65536 := rfl
  rw [hspace] at hx ⊢
  bv_omega

theorem mem_of_frame (h₁ : 56 ≤ r.offset regs.esp) (h₂ : r.offset regs.esp ≤ r.size) {x : Word}
    (hx : (x - (regs.esp - 56)).toNat < 56) : x ∈ r := by
  show (x - r.base).toNat < r.size
  have h₁' : 56 ≤ (regs.esp - r.base).toNat := h₁
  have h₂' : (regs.esp - r.base).toNat ≤ r.size := h₂
  bv_omega

theorem offset_le_of_frame (h₁ : 56 ≤ r.offset regs.esp) {x : Word}
    (hx : (x - (regs.esp - 56)).toNat < 56) : r.offset (regs.esp - 56) ≤ r.offset x := by
  show (regs.esp - 56 - r.base).toNat ≤ (x - r.base).toNat
  have h₁' : 56 ≤ (regs.esp - r.base).toNat := h₁
  bv_omega

theorem FrameAt.agree (h : FrameAt mem p r regs)
    (hag : AgreeOn {a | a ∈ r ∨ a ∈ espField p} mem mem') : FrameAt mem' p r regs where
  esp := by
    rw [readWord_agree hag fun x hx ↦ .inr hx]
    exact h.esp
  frame := h.frame.agree hag (by rw [frame_length]; decide) fun x hx ↦
    .inl (mem_of_frame h.room h.le hx)
  room := h.room
  le := h.le

/-- The frame is below what is in use. -/
theorem le_of_above (h₁ : 56 ≤ r.offset regs.esp) {x : Word} (hx : x ∈ r.above regs.esp) :
    56 ≤ (x - (regs.esp - 56)).toNat := by
  have h₁' : 56 ≤ (regs.esp - r.base).toNat := h₁
  have hx' : (regs.esp - r.base).toNat ≤ (x - r.base).toNat := hx.2
  bv_omega

theorem above_sub (h₁ : 56 ≤ r.offset regs.esp) : r.above regs.esp ⊆ r.above (regs.esp - 56) := by
  intro x hx
  refine ⟨hx.1, ?_⟩
  show (regs.esp - 56 - r.base).toNat ≤ (x - r.base).toNat
  have h₁' : 56 ≤ (regs.esp - r.base).toNat := h₁
  have hx' : (regs.esp - r.base).toNat ≤ (x - r.base).toNat := hx.2
  bv_omega

/-- A thread stays parked as long as nobody writes to its stack and its `esp`. -/
theorem Parked.agree {u : Suspension} (h : Parked threadExit mem p r u)
    (hag : AgreeOn {a | a ∈ r ∨ a ∈ espField p} mem mem') : Parked threadExit mem' p r u := by
  refine ⟨h.frame.agree hag, ?_⟩
  have hkept := h.kept
  cases u with
  | interrupted regs before => exact hkept.trans (hag.mono fun a ha ↦ .inl ha.1)
  | fabricated entryPoint arg =>
    refine ⟨hkept.1, hkept.2.agree hag (by simp) fun x hx ↦ .inl ?_⟩
    rw [hkept.1]
    have hx' : (x - (r.base + BitVec.ofNat 32 THREAD_STACK_SPACE - 8)).toNat < 8 := hx
    exact mem_stackSpace (by bv_omega)

/-! ## Building a thread -/

/-- The words of a new stack, in the order they are pushed. -/
def firstWords (threadExit entryPoint arg : Word) : List Word :=
  [arg, threadExit] ++ (firstRegisters entryPoint 0).frame.reverse

theorem internalThreadInit_eq (threadExit entryPoint arg stackptr thread : Word) (mem : Memory) :
    internalThreadInit threadExit entryPoint arg stackptr thread mem =
      writeWord (pushAll (firstWords threadExit entryPoint arg) (mem, stackptr)).1 (thread + 4)
        (pushAll (firstWords threadExit entryPoint arg) (mem, stackptr)).2 := rfl

/-- Nothing outside the new stack and the `esp` of the new thread is written. -/
theorem internalThreadInit_agree (threadExit entryPoint arg stackBase thread : Word)
    (mem : Memory) :
    AgreeOn {a | a ∉ stackSpace stackBase ∧ a ∉ espField thread} mem
      (internalThreadInit threadExit entryPoint arg
        (stackBase + BitVec.ofNat 32 THREAD_STACK_SPACE) thread mem) := by
  rw [internalThreadInit_eq]
  intro x hx
  have hstack : ¬ (x - stackBase).toNat < 65536 := hx.1
  rw [agreeOn_writeWord _ _ _ x hx.2]
  refine pushAll_agree (by simp [firstWords, Registers.frame]) x ?_
  rw [pushAll_esp]
  show 64 ≤ (x - (stackBase + BitVec.ofNat 32 65536 - BitVec.ofNat 32 64)).toNat
  bv_omega

theorem pushAll_firstWords (threadExit entryPoint arg stackptr : Word) (mem : Memory) :
    HoldsWords (pushAll (firstWords threadExit entryPoint arg) (mem, stackptr)).1 (stackptr - 64)
      ((firstRegisters entryPoint stackptr).frame ++ [threadExit, arg]) := by
  have hlen : (firstWords threadExit entryPoint arg).length = 16 := rfl
  have hheld : HoldsWords (pushAll (firstWords threadExit entryPoint arg) (mem, stackptr)).1
      (pushAll (firstWords threadExit entryPoint arg) (mem, stackptr)).2
      ((firstWords threadExit entryPoint arg).reverse ++ []) :=
    pushAll_holds (HoldsWords.nil mem stackptr) (by rw [hlen]; decide)
  rwa [pushAll_esp, hlen] at hheld

/-- What it builds is a parked thread. -/
theorem internalThreadInit_parked {threadExit entryPoint arg stackBase thread : Word}
    (hd : (stackSpace stackBase).Disjoint (espField thread)) (mem : Memory) :
    Parked threadExit (internalThreadInit threadExit entryPoint arg
      (stackBase + BitVec.ofNat 32 THREAD_STACK_SPACE) thread mem) thread (stackSpace stackBase)
      (.fabricated entryPoint arg) := by
  have hbase : (stackSpace stackBase).base = stackBase := rfl
  rw [internalThreadInit_eq, pushAll_esp]
  generalize htop : stackBase + BitVec.ofNat 32 THREAD_STACK_SPACE = top
  have hoffset : top - stackBase = 65536#32 := by
    rw [← htop, show BitVec.ofNat 32 THREAD_STACK_SPACE = 65536#32 from rfl]
    bv_omega
  -- the field is not on the stack
  have hagree : AgreeOn {a | a ∈ stackSpace stackBase}
      (pushAll (firstWords threadExit entryPoint arg) (mem, top)).1
      (writeWord (pushAll (firstWords threadExit entryPoint arg) (mem, top)).1 (thread + 4)
        (top - 64)) :=
    (agreeOn_writeWord _ (thread + 4) (top - 64)).mono fun a ha ↦ hd a ha
  have hlen : ((firstRegisters entryPoint top).frame ++ [threadExit, arg]).length = 16 := rfl
  have hheld := (pushAll_firstWords threadExit entryPoint arg top mem).agree hagree
    (by rw [hlen]; decide) fun x hx ↦ by
      rw [hlen, ← htop] at hx
      exact mem_stackSpace hx
  have hesp : (firstRegisters entryPoint top).esp = top - 8 := rfl
  have hlow : top - 8 - 56 = top - 64 := by bv_omega
  have hhigh : top - 64 + BitVec.ofNat 32 (4 * 14) = top - 8 := by bv_omega
  have hregs : (Suspension.fabricated entryPoint arg).registers (stackSpace stackBase) =
      firstRegisters entryPoint top := by
    rw [← htop]
    rfl
  refine ⟨?_, rfl, ?_⟩
  · rw [hregs]
    refine ⟨?_, ?_, ?_, ?_⟩
    · rw [hesp, hlow]
      exact readWord_writeWord _ _ _
    · rw [hesp, hlow]
      exact hheld.append_left
    · show 56 ≤ (top - 8 - stackBase).toNat
      bv_omega
    · show (top - 8 - stackBase).toNat ≤ 65536
      bv_omega
  · have hwords := hheld.append_right
    rw [frame_length, hhigh] at hwords
    rw [hbase, htop]
    exact hwords

end

/-! ## Switching -/

section

variable {threadExit : Word} {σ σ' : System} {timerCallback schedulerNext : Machine → Machine}

/-- What a thread that waits needs of memory is not what the running thread may write. -/
theorem others_disjoint (hl : Layout σ.threads σ.stack) (hc : σ.current ∈ σ.threads) {a : Word}
    (ha : a ∈ σ.others) : a ∉ σ.stack σ.current ∧ a ∉ espField σ.current := by
  obtain ⟨p, hp, hne, h⟩ := ha
  cases h with
  | inl hstack => exact ⟨hl.disjoint p hp _ hc hne a hstack, hl.apart p hp _ hc a hstack⟩
  | inr hfield =>
    exact ⟨fun h ↦ hl.apart _ hc p hp a h hfield, hl.fields p hp _ hc hne a hfield⟩

/-- The machine right before `scheduler_next` is called. -/
theorem isrIRQ0Suspend_eq (timerCallback schedulerNext : Machine → Machine) (m : Machine) :
    ∃ m', isrIRQ0Suspend timerCallback schedulerNext m = schedulerNext m' ∧
      m'.regs.esp = (timerCallback m.interrupt.save).regs.esp ∧
      m'.mem = writeWord (timerCallback m.interrupt.save).mem
        ((timerCallback m.interrupt.save).currentThread + 4)
        (timerCallback m.interrupt.save).regs.esp :=
  ⟨_, rfl, rfl, rfl⟩

/-- The pushes of the handler. -/
theorem interrupt_save_spec (m : Machine) :
    m.interrupt.save.regs.esp = m.regs.esp - 56 ∧
    m.interrupt.save.currentThread = m.currentThread ∧
    HoldsWords m.interrupt.save.mem (m.regs.esp - 56) m.regs.frame ∧
    AgreeOn {x | 56 ≤ (x - (m.regs.esp - 56)).toNat} m.mem m.interrupt.save.mem := by
  have hlen : m.regs.frame.reverse.length = 14 := rfl
  have hesp := pushAll_esp m.regs.frame.reverse (m.mem, m.regs.esp)
  have hheld : HoldsWords (pushAll m.regs.frame.reverse (m.mem, m.regs.esp)).1
      (pushAll m.regs.frame.reverse (m.mem, m.regs.esp)).2 (m.regs.frame.reverse.reverse ++ []) :=
    pushAll_holds (HoldsWords.nil m.mem m.regs.esp) (by rw [hlen]; decide)
  have hagree : AgreeOn _ m.mem (pushAll m.regs.frame.reverse (m.mem, m.regs.esp)).1 :=
    pushAll_agree (by rw [hlen]; decide)
  rw [hlen] at hesp
  rw [hesp, List.append_nil, List.reverse_reverse] at hheld
  rw [hlen, hesp] at hagree
  rw [interrupt_save]
  exact ⟨hesp, rfl, hheld, hagree⟩

section

variable (hl : Layout σ.threads σ.stack) (hc : σ.current ∈ σ.threads)
  (hroom : 56 ≤ (σ.stack σ.current).offset σ.machine.regs.esp)
  (hle : (σ.stack σ.current).offset σ.machine.regs.esp ≤ (σ.stack σ.current).size)
  (hcallback : ∀ m, Called σ m (timerCallback m) ∧
    (timerCallback m).currentThread = m.currentThread)
  (hnext : ∀ m, Called σ m (schedulerNext m) ∧ (schedulerNext m).currentThread ∈ σ.threads)

include hl hc hroom hle hcallback hnext

/-- Nothing that belongs to another thread is written. -/
theorem suspend_others :
    AgreeOn σ.others σ.machine.mem
      (isrIRQ0Suspend timerCallback schedulerNext σ.machine).mem := by
  obtain ⟨hesp, hcur, -, hsave⟩ := interrupt_save_spec σ.machine
  obtain ⟨hcall, hsame⟩ := hcallback σ.machine.interrupt.save
  obtain ⟨m', hrun, -, hmem⟩ := isrIRQ0Suspend_eq timerCallback schedulerNext σ.machine
  rw [hrun]
  have hpush : AgreeOn σ.others σ.machine.mem σ.machine.interrupt.save.mem := by
    refine hsave.mono fun a ha ↦ ?_
    by_contra hlt
    exact (others_disjoint hl hc ha).1 (mem_of_frame hroom hle (Nat.not_le.mp hlt))
  have hwrite : AgreeOn σ.others (timerCallback σ.machine.interrupt.save).mem m'.mem := by
    rw [hmem, hsame, hcur]
    exact (agreeOn_writeWord _ _ _).mono fun a ha ↦ (others_disjoint hl hc ha).2
  exact ((hpush.trans hcall.others).trans hwrite).trans (hnext m').1.others

/-- The interrupted thread is parked with the registers it had. -/
theorem suspend_current :
    FrameAt (isrIRQ0Suspend timerCallback schedulerNext σ.machine).mem σ.current
      (σ.stack σ.current) σ.machine.regs ∧
    AgreeOn ((σ.stack σ.current).above σ.machine.regs.esp) σ.machine.mem
      (isrIRQ0Suspend timerCallback schedulerNext σ.machine).mem := by
  obtain ⟨hesp, hcur, hframe, hsave⟩ := interrupt_save_spec σ.machine
  obtain ⟨hcall, hsame⟩ := hcallback σ.machine.interrupt.save
  obtain ⟨m', hrun, hesp', hmem⟩ := isrIRQ0Suspend_eq timerCallback schedulerNext σ.machine
  have hnext' := (hnext m').1
  rw [hcall.esp, hesp] at hesp' hmem
  rw [hsame, hcur] at hmem
  have habove := hcall.above
  have habove' := hnext'.above
  rw [hesp] at habove
  rw [hesp'] at habove'
  have hlow : ∀ x, (x - (σ.machine.regs.esp - 56)).toNat < 56 →
      x ∈ (σ.stack σ.current).above (σ.machine.regs.esp - 56) :=
    fun x hx ↦ ⟨mem_of_frame hroom hle hx, offset_le_of_frame hroom hx⟩
  -- the write of the field does not touch the stack
  have hwrite : AgreeOn ((σ.stack σ.current).above (σ.machine.regs.esp - 56))
      (timerCallback σ.machine.interrupt.save).mem m'.mem := by
    rw [hmem]
    exact (agreeOn_writeWord _ _ _).mono fun a ha ↦ hl.apart _ hc _ hc a ha.1
  have hkept := (habove.trans hwrite).trans habove'
  rw [hrun]
  refine ⟨⟨?_, ?_, hroom, hle⟩, ?_⟩
  · rw [readWord_agree hnext'.field fun x hx ↦ hx, hmem]
    exact readWord_writeWord _ _ _
  · exact hframe.agree hkept (by rw [frame_length]; decide) fun x hx ↦ hlow x hx
  · have hsaved : AgreeOn ((σ.stack σ.current).above σ.machine.regs.esp) σ.machine.mem
        σ.machine.interrupt.save.mem :=
      hsave.mono fun x hx ↦ le_of_above hroom hx
    exact hsaved.trans (hkept.mono (above_sub hroom))

end

/-- The pops give back the registers of the thread that was picked. -/
theorem isrIRQ0_eq {m : Machine} {r : Region} {regs : Registers}
    (h : FrameAt (isrIRQ0Suspend timerCallback schedulerNext m).mem
      (isrIRQ0Suspend timerCallback schedulerNext m).currentThread r regs) :
    isrIRQ0 timerCallback schedulerNext m =
      { isrIRQ0Suspend timerCallback schedulerNext m with regs := regs } := by
  unfold isrIRQ0
  generalize isrIRQ0Suspend timerCallback schedulerNext m = m' at h ⊢
  have hesp : regs.esp - 56 + 56 = regs.esp := BitVec.sub_add_cancel _ _
  rw [restore_iret (r := regs)]
  · simp only [h.esp, hesp]
  · simp only [h.esp]
    exact h.frame

/-! ## The invariant -/

/-- Every thread that does not run is parked. -/
structure Inv (threadExit : Word) (σ : System) : Prop where
  current : σ.current ∈ σ.threads
  layout : Layout σ.threads σ.stack
  parked : ∀ p ∈ σ.threads, p ≠ σ.current →
    Parked threadExit σ.machine.mem p (σ.stack p) (σ.suspended p)

theorem Start.inv (h : Start σ) : Inv threadExit σ where
  current := by
    rw [h.threads]
    exact Set.mem_singleton _
  layout := h.layout
  parked p hp hne := by
    rw [h.threads] at hp
    exact absurd hp hne

theorem agree_others {mem mem' : Memory} (h : AgreeOn σ.others mem mem') {p : Word}
    (hp : p ∈ σ.threads) (hne : p ≠ σ.current) :
    AgreeOn {a | a ∈ σ.stack p ∨ a ∈ espField p} mem mem' :=
  h.mono fun _ ha ↦ ⟨p, hp, hne, ha⟩

/-- When `scheduler_next` returns all threads are parked, the interrupted one among them, and the
pops give the one that was picked its registers back. -/
theorem Inv.switched (hi : Inv threadExit σ) (hs : Switch σ σ') :
    σ'.threads = σ.threads ∧ σ'.stack = σ.stack ∧ σ'.current ∈ σ.threads ∧
    (∀ p ∈ σ.threads, Parked threadExit σ'.machine.mem p (σ.stack p) (σ'.suspended p)) ∧
    σ'.machine.regs = (σ'.suspended σ'.current).registers (σ.stack σ'.current) := by
  cases hs with
  | mk timerCallback schedulerNext hroom hle hcallback hnext =>
    have hothers := suspend_others hi.layout hi.current hroom hle hcallback hnext
    obtain ⟨hframe, habove⟩ :=
      suspend_current hi.layout hi.current hroom hle hcallback hnext
    have hpicked : (isrIRQ0Suspend timerCallback schedulerNext σ.machine).currentThread ∈
        σ.threads := by
      obtain ⟨m', hrun, -⟩ := isrIRQ0Suspend_eq timerCallback schedulerNext σ.machine
      rw [hrun]
      exact (hnext m').2
    have hparked : ∀ p ∈ σ.threads,
        Parked threadExit (isrIRQ0Suspend timerCallback schedulerNext σ.machine).mem p (σ.stack p)
          (Function.update σ.suspended σ.current
            (.interrupted σ.machine.regs σ.machine.mem) p) := by
      intro p hp
      by_cases hne : p = σ.current
      · rw [hne, Function.update_self]
        exact ⟨hframe, habove⟩
      · rw [Function.update_of_ne hne]
        exact (hi.parked p hp hne).agree (agree_others hothers hp hne)
    have hrun := isrIRQ0_eq (hparked _ hpicked).frame
    unfold System.current
    simp only [hrun]
    exact ⟨trivial, trivial, hpicked, hparked, rfl⟩

theorem Inv.step (hi : Inv threadExit σ) (hs : Step threadExit σ σ') : Inv threadExit σ' := by
  cases hs with
  | run m hm hag =>
    refine ⟨?_, hi.layout, fun p hp hne ↦ ?_⟩
    · show m.currentThread ∈ σ.threads
      rw [hm]
      exact hi.current
    · have hne' : p ≠ σ.current := by
        rw [← hm]
        exact hne
      exact (hi.parked p hp hne').agree (agree_others hag hp hne')
  | create thread stackBase entryPoint arg hfresh hlayout =>
    have hmem : ∀ q ∈ σ.threads, q ∈ insert thread σ.threads :=
      fun q hq ↦ Set.mem_insert_of_mem _ hq
    have hnew : thread ∈ insert thread σ.threads := Set.mem_insert _ _
    refine ⟨hmem _ hi.current, hlayout, fun p hp hne ↦ ?_⟩
    by_cases hp' : p = thread
    · subst hp'
      have hd := hlayout.apart p hnew p hnew
      simp only [Function.update_self] at hd ⊢
      exact internalThreadInit_parked hd _
    · have hold : p ∈ σ.threads := Set.mem_of_mem_insert_of_ne hp hp'
      simp only [Function.update_of_ne hp']
      refine (hi.parked p hold hne).agree
        ((internalThreadInit_agree _ _ _ _ _ _).mono fun a ha ↦ ?_)
      -- what is written belongs to the new thread
      have hstack := hlayout.disjoint p hp thread hnew hp' a
      have hfields := hlayout.fields p hp thread hnew hp' a
      have hleft := hlayout.apart p hp thread hnew a
      have hright := hlayout.apart thread hnew p hp a
      simp only [Function.update_self, Function.update_of_ne hp'] at hstack hleft hright
      cases ha with
      | inl ha => exact ⟨hstack ha, hleft ha⟩
      | inr ha => exact ⟨fun h ↦ hright h ha, hfields ha⟩
  | reap thread hne =>
    have hsub : ∀ q, q ∈ σ.threads \ {thread} → q ∈ σ.threads := fun q hq ↦ hq.1
    exact ⟨⟨hi.current, fun h ↦ hne h.symm⟩,
      ⟨fun p hp q hq ↦ hi.layout.disjoint p hp.1 q hq.1,
        fun p hp q hq ↦ hi.layout.fields p hp.1 q hq.1,
        fun p hp q hq ↦ hi.layout.apart p hp.1 q hq.1⟩,
      fun p hp ↦ hi.parked p hp.1⟩
  | switch hs =>
    obtain ⟨hthreads, hstack, hcurrent, hparked, -⟩ := hi.switched hs
    refine ⟨?_, ?_, fun p hp _ ↦ ?_⟩
    · rw [hthreads]
      exact hcurrent
    · rw [hthreads, hstack]
      exact hi.layout
    · rw [hstack]
      exact hparked p (hthreads ▸ hp)

theorem Inv.run (hi : Inv threadExit σ) (hr : Relation.ReflTransGen (Step threadExit) σ σ') :
    Inv threadExit σ' := by
  induction hr with
  | refl => exact hi
  | tail _ hs ih => exact ih.step hs

/-- What a thread finds when it is picked: what it had when it was interrupted, or what
`internal_thread_init` left for it. -/
def Resumed (threadExit : Word) (r : Region) (m : Machine) : Suspension → Prop
  | .interrupted regs before => m.regs = regs ∧ AgreeOn (r.above regs.esp) before m.mem
  | .fabricated entryPoint arg =>
    m.regs = firstRegisters entryPoint (r.base + BitVec.ofNat 32 THREAD_STACK_SPACE) ∧
      m.regs.eflags &&& EFLAGS_IF ≠ 0 ∧ readWord m.mem m.regs.esp = threadExit ∧
      readWord m.mem (m.regs.esp + 4) = arg ∧
      r.size = THREAD_STACK_SPACE ∧ ∀ x, (x - (m.regs.esp - 56)).toNat < 64 → x ∈ r

/-- Whatever ran in between, a thread goes on with what it was suspended with; and a new thread is
built from writes to its own stack and its own `esp`. -/
theorem resumes_as_suspended {threadExit : Word} {σ₀ σ σ' : System} (h₀ : Start σ₀)
    (hr : Relation.ReflTransGen (Step threadExit) σ₀ σ) (hs : Switch σ σ') :
    Resumed threadExit (σ'.stack σ'.current) σ'.machine (σ'.suspended σ'.current) ∧
    ∀ entryPoint arg stackBase thread mem,
      AgreeOn {a | a ∉ stackSpace stackBase ∧ a ∉ espField thread} mem
        (internalThreadInit threadExit entryPoint arg
          (stackBase + BitVec.ofNat 32 THREAD_STACK_SPACE) thread mem) := by
  refine ⟨?_, fun entryPoint arg stackBase thread mem ↦
    internalThreadInit_agree threadExit entryPoint arg stackBase thread mem⟩
  obtain ⟨-, hstack, hcurrent, hparked, hregs⟩ := (Inv.run h₀.inv hr).switched hs
  have hkept := (hparked _ hcurrent).kept
  rw [hstack]
  cases hu : σ'.suspended σ'.current with
  | interrupted regs before =>
    rw [hu] at hregs hkept
    exact ⟨hregs, hkept⟩
  | fabricated entryPoint arg =>
    rw [hu] at hregs hkept
    obtain ⟨hspace, hexit, harg, -⟩ := hkept
    have hfirst : σ'.machine.regs = firstRegisters entryPoint
        ((σ.stack σ'.current).base + BitVec.ofNat 32 THREAD_STACK_SPACE) := hregs
    have hesp : σ'.machine.regs.esp =
        (σ.stack σ'.current).base + BitVec.ofNat 32 THREAD_STACK_SPACE - 8 := by
      rw [hfirst, firstRegisters_esp]
    have hflags : σ'.machine.regs.eflags = EFLAGS_DEFAULT := by
      rw [hfirst]
      rfl
    have hlow : ∀ top : Word, top - 8 - 56 = top - 64 := fun top ↦ by bv_omega
    refine ⟨hfirst, ?_, ?_, ?_, ?_, fun x hx ↦ ?_⟩
    · rw [hflags]
      decide
    · rw [hesp]
      exact hexit
    · rw [hesp]
      exact harg
    · rw [hspace]
      rfl
    · rw [hesp, hlow] at hx
      rw [hspace]
      exact mem_stackSpace hx

end

/-! ## A run -/

/-- The thread at `0x1000` runs, with its stack from `0x2000` on. -/
def oneThread : System where
  machine := ⟨{ firstRegisters 0x100000 0x3000 with esp := 0x2800 }, ⟨fun _ ↦ 0⟩, 0x1000⟩
  threads := {0x1000}
  stack _ := ⟨0x2000, 0x1000, by decide⟩
  suspended _ := .fabricated 0 0

theorem oneThread_start : Start oneThread := by
  refine ⟨rfl, ?_, ?_, ?_⟩
  · intro p hp q hq hne
    exact absurd (hp.trans hq.symm) hne
  · intro p hp q hq hne
    exact absurd (hp.trans hq.symm) hne
  · intro p _ q hq a ha ha'
    have hq' : q = 0x1000 := hq
    subst hq'
    have h₁ : (a - 0x2000).toNat < 0x1000 := ha
    have h₂ : (a - (0x1000 + 4)).toNat < 4 := ha'
    bv_omega

/-- It builds the thread at `0x1100`, with its stack from `0x10000` on. -/
def twoThreads : System where
  machine := { oneThread.machine with
    mem := internalThreadInit 0x123456 0x200000 7 (0x10000 + BitVec.ofNat 32 THREAD_STACK_SPACE)
      0x1100 oneThread.machine.mem }
  threads := insert 0x1100 oneThread.threads
  stack := Function.update oneThread.stack 0x1100 (stackSpace 0x10000)
  suspended := Function.update oneThread.suspended 0x1100 (.fabricated 0x200000 7)

theorem oneThread_step : Step 0x123456 oneThread twoThreads := by
  refine .create 0x1100 0x10000 0x200000 7 ?_ ⟨?_, ?_, ?_⟩
  · show ¬ (0x1100 : Word) = 0x1000
    decide
  · rintro p (rfl | rfl) q (rfl | rfl) hne a ha ha'
    · exact hne rfl
    · have h₁ : (a - 0x10000).toNat < 0x10000 := ha
      have h₂ : (a - 0x2000).toNat < 0x1000 := ha'
      bv_omega
    · have h₁ : (a - 0x2000).toNat < 0x1000 := ha
      have h₂ : (a - 0x10000).toNat < 0x10000 := ha'
      bv_omega
    · exact hne rfl
  · rintro p (rfl | rfl) q (rfl | rfl) hne a ha ha'
    · exact hne rfl
    · have h₁ : (a - (0x1100 + 4)).toNat < 4 := ha
      have h₂ : (a - (0x1000 + 4)).toNat < 4 := ha'
      bv_omega
    · have h₁ : (a - (0x1000 + 4)).toNat < 4 := ha
      have h₂ : (a - (0x1100 + 4)).toNat < 4 := ha'
      bv_omega
    · exact hne rfl
  · rintro p (rfl | rfl) q (rfl | rfl) a ha ha'
    · have h₁ : (a - 0x10000).toNat < 0x10000 := ha
      have h₂ : (a - (0x1100 + 4)).toNat < 4 := ha'
      bv_omega
    · have h₁ : (a - 0x10000).toNat < 0x10000 := ha
      have h₂ : (a - (0x1000 + 4)).toNat < 4 := ha'
      bv_omega
    · have h₁ : (a - 0x2000).toNat < 0x1000 := ha
      have h₂ : (a - (0x1100 + 4)).toNat < 4 := ha'
      bv_omega
    · have h₁ : (a - 0x2000).toNat < 0x1000 := ha
      have h₂ : (a - (0x1000 + 4)).toNat < 4 := ha'
      bv_omega

theorem called_refl (σ : System) (m m' : Machine) (hesp : m'.regs.esp = m.regs.esp)
    (hmem : m'.mem = m.mem) : Called σ m m' := by
  refine ⟨hesp, ?_, ?_, ?_⟩ <;>
  · rw [hmem]
    exact .refl _ _

theorem resumes_as_suspended_twoThreads : ∃ σ', Switch twoThreads σ' ∧
    Resumed 0x123456 (σ'.stack σ'.current) σ'.machine (σ'.suspended σ'.current) := by
  have hs := Switch.mk (σ := twoThreads) id (fun m ↦ { m with currentThread := 0x1100 })
    (by decide +kernel) (by decide +kernel)
    (fun m ↦ ⟨called_refl _ _ _ rfl rfl, rfl⟩)
    (fun m ↦ ⟨called_refl _ _ _ rfl rfl, Set.mem_insert _ _⟩)
  exact ⟨_, hs, (resumes_as_suspended oneThread_start (.single oneThread_step) hs).1⟩

end AlienOS.Kernel.Context
