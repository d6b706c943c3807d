import AlienOS.Io.Idt
import AlienOS.Mem.Gdt

/-!
# Delivery — an interrupt from the gate to `interrupt_handler` and back

The CPU reads the gate and the segment, pushes its part of the frame and jumps; the stub and
`isr_wrapper` push the rest.  What the compiled handler does to the registers and to memory is a
parameter.
-/

open AlienOS.Lib AlienOS.Mem
open AlienOS.Kernel.Context hiding restore_iret

namespace AlienOS.Io

/-! ## The CPU -/

/-- The exceptions with which the CPU pushes an error code. -/
def pushesErrorCode (v : Fin IDT_ENTRIES) : Bool :=
  decide (v.val ∈ [0x08, 0x0A, 0x0B, 0x0C, 0x0D, 0x0E, 0x11, 0x15, 0x1D, 0x1E])

/-- The pushes and the jump of an interrupt through a gate. -/
def atStub (v : Fin IDT_ENTRIES) (errorCode : Word) (selector : BitVec 16) (linear : Word)
    (m : Machine) : Machine :=
  let m := m.interrupt
  let m := if pushesErrorCode v then m.push fun _ ↦ errorCode else m
  { m with regs := { m.regs with cs := selector, eip := linear } }

/-- An interrupt or exception, if the gate and its segment allow it. -/
def enter (gdt : GdtState) (idt : IdtState) (v : Fin IDT_ENTRIES) (errorCode : Word)
    (m : Machine) : Option Machine :=
  let gate := idt.gate v
  if 8 * v.val + 7 ≤ idt.idtrSize.toNat ∧ gate.present ∧ gate.type = 0xE then
    match gdt.select gate.selector with
    | none => none
    | some segment =>
      if segment.present ∧ segment.codeOrData ∧ segment.executable then
        (segment.translate gate.offset).map fun linear ↦
          atStub v errorCode gate.selector linear m
      else none
  else none

/-! ## `interruptasm.s` -/

def EFLAGS_DF : Word := 1 <<< 10

def pushal (m : Machine) : Machine :=
  let esp := m.regs.esp
  let m := m.push (·.eax)
  let m := m.push (·.ecx)
  let m := m.push (·.edx)
  let m := m.push (·.ebx)
  let m := m.push fun _ ↦ esp
  let m := m.push (·.ebp)
  let m := m.push (·.esi)
  m.push (·.edi)

/-- The word that holds `esp` is skipped. -/
def popal (m : Machine) : Machine :=
  let m := m.pop fun w r ↦ { r with edi := w }
  let m := m.pop fun w r ↦ { r with esi := w }
  let m := m.pop fun w r ↦ { r with ebp := w }
  let m := m.pop fun _ r ↦ r
  let m := m.pop fun w r ↦ { r with ebx := w }
  let m := m.pop fun w r ↦ { r with edx := w }
  let m := m.pop fun w r ↦ { r with ecx := w }
  m.pop fun w r ↦ { r with eax := w }

def cld (m : Machine) : Machine :=
  { m with regs := { m.regs with eflags := m.regs.eflags &&& ~~~EFLAGS_DF } }

/-- The flags that it sets do not survive the `iret`. -/
def addlEsp (n : Word) (m : Machine) : Machine :=
  { m with regs := { m.regs with esp := m.regs.esp + n } }

/-- A stub up to its jump to `isr_wrapper`. -/
def stub (i : Isr) (intnum : Word) (m : Machine) : Machine :=
  let m := if i.expectsErrorCode then m else m.push fun _ ↦ 0
  m.push fun _ ↦ intnum

/-- `isr_wrapper` up to the first instruction of `interrupt_handler`; `ret` is the address after the
call. -/
def wrapperEnter (ret : Word) (m : Machine) : Machine :=
  let m := pushal m
  let m := m.push (·.esp)
  let m := cld m
  m.push fun _ ↦ ret

/-- `isr_wrapper` from the return of `interrupt_handler` on. -/
def wrapperLeave (m : Machine) : Machine :=
  let m := addlEsp 4 m
  let m := popal m
  let m := addlEsp 8 m
  m.iret

/-! ## The frame -/

/-- `struct InterruptFrame`, without the two words that need a change of privilege. -/
def interruptFrame (r : Registers) (intno errcode : Word) : List Word :=
  [r.edi, r.esi, r.ebp, r.esp - 20, r.ebx, r.edx, r.ecx, r.eax, intno, errcode, r.eip,
    r.cs.setWidth 32, r.eflags]

/-- The words on the stack when `interrupt_handler` is entered, the lowest first. -/
def handlerStack (ret : Word) (r : Registers) (intno errcode : Word) : List Word :=
  ret :: (r.esp - 52) :: interruptFrame r intno errcode

theorem interruptFrame_length (r : Registers) (intno errcode : Word) :
    (interruptFrame r intno errcode).length = 13 := rfl

theorem handlerStack_length (ret : Word) (r : Registers) (intno errcode : Word) :
    (handlerStack ret r intno errcode).length = 15 := rfl

section

variable {m : Machine} {v : Fin IDT_ENTRIES} {i : Isr} {intnum errorCode ret : Word}

/-- A push onto pushes. -/
theorem push_pushAll (k : Machine) (ws : List Word) (s : Memory × Word)
    (get : Registers → Word) : (k.withStack (pushAll ws s)).push get =
      k.withStack (pushAll (ws ++ [get { k.regs with
        esp := s.2 - BitVec.ofNat 32 (4 * ws.length) }]) s) := by
  rw [push_withStack, pushAll_esp]
  unfold pushAll
  rw [List.foldl_append]
  rfl

theorem wrapperEnter_withStack (k : Machine) (ws : List Word) (mem : Memory) (esp ret : Word) :
    wrapperEnter ret (k.withStack (pushAll ws (mem, esp))) =
      (cld k).withStack (pushAll (ws ++ [k.regs.eax, k.regs.ecx, k.regs.edx, k.regs.ebx,
        esp - BitVec.ofNat 32 (4 * ws.length), k.regs.ebp, k.regs.esi, k.regs.edi,
        esp - BitVec.ofNat 32 (4 * ws.length) - 32, ret]) (mem, esp)) := by
  have hesp : esp - BitVec.ofNat 32 (4 * (ws.length + 8)) =
      esp - BitVec.ofNat 32 (4 * ws.length) - 32 := by bv_omega
  have htop : (k.withStack (pushAll ws (mem, esp))).regs.esp =
      esp - BitVec.ofNat 32 (4 * ws.length) := pushAll_esp ws (mem, esp)
  have hcld : ∀ s, cld (k.withStack s) = (cld k).withStack s := fun _ ↦ rfl
  unfold wrapperEnter pushal
  simp only [htop, push_pushAll, hcld, List.append_assoc, List.length_append, List.length_cons,
    List.length_nil, Nat.zero_add, Nat.reduceAdd, hesp, List.cons_append, List.nil_append]

/-- Its registers, but for `esp`. -/
def jumped (selector : BitVec 16) (linear : Word) (m : Machine) : Machine :=
  { m with regs := { m.regs with
    cs := selector, eip := linear, eflags := m.regs.eflags &&& ~~~EFLAGS_IF } }

/-- Whoever pushes the error code, five words are there when `isr_wrapper` starts. -/
theorem stub_eq (hcode : i.expectsErrorCode = pushesErrorCode v) (selector : BitVec 16)
    (linear : Word) : stub i intnum (atStub v errorCode selector linear m) =
      (jumped selector linear m).withStack (pushAll
        [m.regs.eflags, m.regs.cs.setWidth 32, m.regs.eip,
          if pushesErrorCode v then errorCode else 0, intnum] (m.mem, m.regs.esp)) := by
  have hthree : m.interrupt =
      { m with regs := { m.regs with eflags := m.regs.eflags &&& ~~~EFLAGS_IF } }.withStack
        (pushAll [m.regs.eflags, m.regs.cs.setWidth 32, m.regs.eip] (m.mem, m.regs.esp)) := rfl
  have hjump : ∀ s, { { m with regs := { m.regs with
      eflags := m.regs.eflags &&& ~~~EFLAGS_IF } }.withStack s with
        regs := { ({ m with regs := { m.regs with
          eflags := m.regs.eflags &&& ~~~EFLAGS_IF } }.withStack s).regs with
            cs := selector, eip := linear } } = (jumped selector linear m).withStack s :=
    fun _ ↦ rfl
  unfold stub atStub
  rw [hcode, hthree]
  cases pushesErrorCode v with
  | true => simp only [if_true, push_pushAll, hjump, List.cons_append, List.nil_append]
  | false =>
    simp only [Bool.false_eq_true, if_false, push_pushAll, hjump, List.cons_append,
      List.nil_append]

/-- Everything that is pushed, in the order it is pushed. -/
theorem entry_eq (hcode : i.expectsErrorCode = pushesErrorCode v) (selector : BitVec 16)
    (linear : Word) : wrapperEnter ret (stub i intnum (atStub v errorCode selector linear m)) =
      (cld (jumped selector linear m)).withStack (pushAll (handlerStack ret m.regs intnum
        (if pushesErrorCode v then errorCode else 0)).reverse (m.mem, m.regs.esp)) := by
  have h₂₀ : m.regs.esp - BitVec.ofNat 32 (4 * 5) = m.regs.esp - 20 := rfl
  have h₅₂ : m.regs.esp - 20 - 32 = m.regs.esp - 52 := by bv_omega
  rw [stub_eq hcode, wrapperEnter_withStack]
  simp only [List.length_cons, List.length_nil, Nat.zero_add, Nat.reduceAdd, h₂₀, h₅₂]
  rfl

/-- The pops of `isr_wrapper` find the registers again. -/
theorem wrapperLeave_eq {r : Registers} {intno errcode : Word} {m' : Machine}
    (h : HoldsWords m'.mem (m'.regs.esp + 4) (interruptFrame r intno errcode)) :
    wrapperLeave m' = { m' with regs := { m'.regs with
      edi := r.edi, esi := r.esi, ebp := r.ebp, ebx := r.ebx, edx := r.edx, ecx := r.ecx
      eax := r.eax, eip := r.eip, cs := r.cs, eflags := r.eflags
      esp := m'.regs.esp + 56 } } := by
  have hsegment : (r.cs.setWidth 32).setWidth 16 = r.cs := by
    rw [BitVec.setWidth_setWidth_of_le _ (by decide), BitVec.setWidth_eq]
  obtain ⟨hedi, hesi, hebp, -, hebx, hedx, hecx, heax, -, -, heip, hcs, heflags, -⟩ := h
  have h₈ : m'.regs.esp + 4 + 4 + 4 + 4 + 4 + 4 + 4 + 4 + 4 + 8 =
      m'.regs.esp + 4 + 4 + 4 + 4 + 4 + 4 + 4 + 4 + 4 + 4 + 4 := by bv_omega
  have hesp : m'.regs.esp + 4 + 4 + 4 + 4 + 4 + 4 + 4 + 4 + 4 + 4 + 4 + 4 + 4 + 4 =
      m'.regs.esp + 56 := by bv_omega
  unfold wrapperLeave addlEsp popal Machine.iret Machine.pop
  simp only [hedi, hesi, hebp, hebx, hedx, hecx, heax, h₈, heip, hcs, heflags, hsegment, hesp]

end

/-! ## Return -/

/-- What an interrupted program may still read: not what belongs to the handler, and on its stack
nothing below `esp`. -/
def live (own : Set Word) (r : Region) (esp : Word) : Set Word :=
  {a | a ∉ own ∧ (a ∈ r → r.offset esp ≤ r.offset a)}

/-- `interrupt_handler`, entered with the machine `m`, has returned with `m'`: it keeps what a C
function keeps, and its argument is its own. -/
structure HandlerReturns (own : Set Word) (r : Region) (m m' : Machine) : Prop where
  esp : m'.regs.esp = m.regs.esp + 4
  segments : (m'.regs.ds, m'.regs.es, m'.regs.fs, m'.regs.gs) =
    (m.regs.ds, m.regs.es, m.regs.fs, m.regs.gs)
  thread : m'.currentThread = m.currentThread
  mem : AgreeOn (live own r (m.regs.esp + 8)) m.mem m'.mem

/-- The program cannot tell the two machines apart. -/
structure SameView (own : Set Word) (r : Region) (m m' : Machine) : Prop where
  regs : m'.regs = m.regs
  thread : m'.currentThread = m.currentThread
  mem : AgreeOn (live own r m.regs.esp) m.mem m'.mem

/-- There is room on the stack for what is pushed before `interrupt_handler`. -/
structure Room (own : Set Word) (r : Region) (esp : Word) : Prop where
  below : 60 ≤ r.offset esp
  le : r.offset esp ≤ r.size
  apart : ∀ a ∈ own, a ∉ r

section

variable {own : Set Word} {r : Region} {esp x : Word} {m m' : Machine} {v : Fin IDT_ENTRIES}
  {i : Isr} {intnum errorCode ret linear : Word} {selector : BitVec 16}

theorem live_mono (h : Room own r esp) : live own r esp ⊆ live own r (esp - 52) := by
  have hbelow : 60 ≤ (esp - r.base).toNat := h.below
  intro a ha
  refine ⟨ha.1, fun har ↦ ?_⟩
  have hle : (esp - r.base).toNat ≤ (a - r.base).toNat := ha.2 har
  show (esp - 52 - r.base).toNat ≤ (a - r.base).toNat
  bv_omega

theorem frame_live (h : Room own r esp) (hx : (x - (esp - 52)).toNat < 52) :
    x ∈ live own r (esp - 52) := by
  have hbelow : 60 ≤ (esp - r.base).toNat := h.below
  have hle : (esp - r.base).toNat ≤ r.size := h.le
  have hin : x ∈ r := by
    show (x - r.base).toNat < r.size
    bv_omega
  refine ⟨fun ho ↦ h.apart x ho hin, fun _ ↦ ?_⟩
  show (esp - 52 - r.base).toNat ≤ (x - r.base).toNat
  bv_omega

/-- The pushes write below `esp`. -/
theorem pushAll_live {ws : List Word} (hws : ws.length = 15) (h : Room own r esp) (mem : Memory) :
    AgreeOn (live own r esp) mem (pushAll ws (mem, esp)).1 := by
  have hbelow : 60 ≤ (esp - r.base).toNat := h.below
  have hle : (esp - r.base).toNat ≤ r.size := h.le
  intro a ha
  refine pushAll_agree (by rw [hws]; decide) a ?_
  show 4 * ws.length ≤ (a - (pushAll ws (mem, esp)).2).toNat
  rw [pushAll_esp, hws]
  by_contra hlt
  have hlt' : (a - (esp - 60)).toNat < 60 := Nat.not_le.mp hlt
  have hin : a ∈ r := by
    show (a - r.base).toNat < r.size
    bv_omega
  have hge : (esp - r.base).toNat ≤ (a - r.base).toNat := ha.2 hin
  bv_omega

/-- What `interrupt_handler` finds on the stack, and what it finds elsewhere. -/
theorem entry_holds (errorCode ret intnum linear : Word) (selector : BitVec 16) (m : Machine)
    (hcode : i.expectsErrorCode = pushesErrorCode v) :
    let e := wrapperEnter ret (stub i intnum (atStub v errorCode selector linear m))
    e.regs.esp = m.regs.esp - 60 ∧ HoldsWords e.mem (m.regs.esp - 60)
      (handlerStack ret m.regs intnum (if pushesErrorCode v then errorCode else 0)) := by
  intro e
  have he : e = _ := entry_eq hcode selector linear
  rw [he]
  generalize hws : handlerStack ret m.regs intnum
    (if pushesErrorCode v then errorCode else 0) = ws
  have hlen : ws.length = 15 := by
    rw [← hws]
    rfl
  have hesp : (pushAll ws.reverse (m.mem, m.regs.esp)).2 = m.regs.esp - 60 := by
    rw [pushAll_esp, List.length_reverse, hlen]
    rfl
  have hheld : HoldsWords (pushAll ws.reverse (m.mem, m.regs.esp)).1
      (pushAll ws.reverse (m.mem, m.regs.esp)).2 (ws.reverse.reverse ++ []) :=
    pushAll_holds (HoldsWords.nil m.mem m.regs.esp) (by simp [hlen])
  rw [List.reverse_reverse, List.append_nil, hesp] at hheld
  exact ⟨hesp, hheld⟩

theorem entry_sameMemory (errorCode ret intnum linear : Word) (selector : BitVec 16)
    (hcode : i.expectsErrorCode = pushesErrorCode v) (hroom : Room own r m.regs.esp) :
    AgreeOn (live own r m.regs.esp) m.mem
      (wrapperEnter ret (stub i intnum (atStub v errorCode selector linear m))).mem := by
  rw [entry_eq hcode selector linear]
  exact pushAll_live (by rw [List.length_reverse, handlerStack_length]) hroom m.mem

/-- The interrupted program goes on as if nothing had happened. -/
theorem leave_sameView (hcode : i.expectsErrorCode = pushesErrorCode v)
    (hroom : Room own r m.regs.esp)
    (h : HandlerReturns own r
      (wrapperEnter ret (stub i intnum (atStub v errorCode selector linear m))) m') :
    SameView own r m (wrapperLeave m') := by
  obtain ⟨hesp, hwords⟩ := entry_holds errorCode ret intnum linear selector m hcode
  have hentry := entry_sameMemory errorCode ret intnum linear selector hcode hroom
  have hsegments := h.segments
  have hthread := h.thread
  have hmem := h.mem
  have hesp' := h.esp
  rw [hesp] at hesp' hmem
  have h₅₂ : m.regs.esp - 60 + 8 = m.regs.esp - 52 := by bv_omega
  have h₅₆ : m.regs.esp - 60 + 4 = m.regs.esp - 56 := by bv_omega
  rw [h₅₂] at hmem
  rw [h₅₆] at hesp'
  -- the frame is still there
  have hlow : m.regs.esp - 60 + 4 + 4 = m.regs.esp - 52 := by bv_omega
  have hframe := hwords.2.2.agree hmem (by rw [interruptFrame_length]; decide) fun x hx ↦
    frame_live hroom (hlow ▸ hx)
  have hat : m.regs.esp - 60 + 4 + 4 = m'.regs.esp + 4 := by
    rw [hesp']
    bv_omega
  rw [hat] at hframe
  have hback : m'.regs.esp + 56 = m.regs.esp := by
    rw [hesp']
    bv_omega
  have hleave := wrapperLeave_eq hframe
  rw [hback] at hleave
  simp only [Prod.mk.injEq] at hsegments
  obtain ⟨hds, hes, hfs, hgs⟩ := hsegments
  refine ⟨?_, ?_, ?_⟩
  · rw [hleave]
    simp only [hds, hes, hfs, hgs]
    rw [entry_eq hcode selector linear]
    rfl
  · rw [hleave]
    show m'.currentThread = m.currentThread
    rw [hthread, entry_eq hcode selector linear]
    rfl
  · rw [hleave]
    exact hentry.trans (hmem.mono (live_mono hroom))

end

/-! ## After the initialisation -/

theorem stubOf_expectsErrorCode (v : Fin IDT_ENTRIES) :
    (stubOf v).expectsErrorCode = pushesErrorCode v := by
  revert v
  decide +kernel

/-- The number that the stub pushes is that of its gate, or says that there is no stub. -/
theorem stubOf_intnum (v : Fin IDT_ENTRIES) : (stubOf v).intnum =
    if v = 0x20 then none
    else some (if stubOf v = .ERR then INT_ERR else BitVec.ofNat 32 v.val) := by
  revert v
  decide +kernel

/-- What is left by `gdt_init` and `idt_init`. -/
structure Booted (symbol : Isr → Word) (gdt : GdtState) (idt : IdtState) : Prop where
  segment : SelectsFlat gdt SegmentKernelCode 0 true
  size : idt.idtrSize = 2047
  gates : ∀ v : Fin IDT_ENTRIES, idt.gate v =
    ⟨symbol (stubOf v), kernelCodeSegment, 0xE, if v.val = 0x80 then 3 else 0, true⟩

theorem booted {symbol : Isr → Word} {tss gdtAddr idtAddr : Word} {gdt gdt' : GdtState}
    {idt idt' : IdtState} (hgdt : gdtInit tss gdtAddr gdt = .ok gdt')
    (hidt : idtInit symbol idtAddr idt = .ok idt') :
    Booted symbol gdt' idt' ∧ idt'.pics = picRemap 0x20 0x28 idt.pics := by
  have hgdt₀ : gdt.init = false := by
    cases h : gdt.init with
    | false => rfl
    | true =>
      rw [gdtInit_again tss gdtAddr h] at hgdt
      cases hgdt
  obtain ⟨s', hs', -, hd⟩ := gdtInit_described tss gdtAddr hgdt₀
  rw [hgdt] at hs'
  cases hs'
  unfold idtInit at hidt
  cases h : idt.init with
  | true =>
    rw [h] at hidt
    cases hidt
  | false =>
    rw [h] at hidt
    cases hidt
    exact ⟨⟨hd.kernelCode, rfl, gate_idtFill symbol idt.idt⟩, rfl⟩

theorem enter_booted {symbol : Isr → Word} {gdt : GdtState} {idt : IdtState}
    (h : Booted symbol gdt idt) (v : Fin IDT_ENTRIES) (errorCode : Word) (m : Machine) :
    enter gdt idt v errorCode m =
      some (atStub v errorCode kernelCodeSegment (symbol (stubOf v)) m) := by
  obtain ⟨d, hselect, hd⟩ := h.segment SegmentPrivilege_Ring0
  have hselect' : gdt.select kernelCodeSegment = some d := hselect
  have hsize : idt.idtrSize.toNat = 2047 := by
    rw [h.size]
    rfl
  have hv : 8 * v.val + 7 ≤ idt.idtrSize.toNat := by
    have hlt : v.val < 256 := v.isLt
    omega
  unfold enter
  simp only [h.gates v, hv, if_true, hselect', hd.present, hd.codeOrData,
    hd.executable, and_self, hd.translate, Option.map_some]

theorem atStub_interrupts_off (v : Fin IDT_ENTRIES) (errorCode : Word) (selector : BitVec 16)
    (linear : Word) (m : Machine) :
    (atStub v errorCode selector linear m).regs.eflags &&& EFLAGS_IF = 0 := by
  have hflags : (atStub v errorCode selector linear m).regs.eflags =
      m.regs.eflags &&& ~~~EFLAGS_IF := by
    unfold atStub
    cases pushesErrorCode v with
    | true => rfl
    | false => rfl
  rw [hflags, BitVec.and_assoc, BitVec.not_and_self]
  exact BitVec.and_zero

/-- After `gdt_init` and `idt_init`, wherever the stubs lie, every interrupt number leads to its stub
with interrupts off; `interrupt_handler` then finds on its stack a frame with that number, the error
code and the registers of the interrupted program, and if it returns as a C function does, the
program goes on with its registers and its memory. -/
theorem interrupt_transparent {symbol : Isr → Word} {tss gdtAddr idtAddr : Word}
    {gdt gdt' : GdtState} {idt idt' : IdtState} (hgdt : gdtInit tss gdtAddr gdt = .ok gdt')
    (hidt : idtInit symbol idtAddr idt = .ok idt') (v : Fin IDT_ENTRIES) (errorCode ret : Word)
    (m : Machine) :
    ∃ m₁, enter gdt' idt' v errorCode m = some m₁ ∧ m₁.regs.eip = symbol (stubOf v) ∧
      m₁.regs.eflags &&& EFLAGS_IF = 0 ∧
      ((stubOf v).intnum = none ↔ v = 0x20) ∧
      ∀ intnum, (stubOf v).intnum = some intnum →
        let e := wrapperEnter ret (stub (stubOf v) intnum m₁)
        HoldsWords e.mem e.regs.esp (handlerStack ret m.regs
          (if stubOf v = .ERR then INT_ERR else BitVec.ofNat 32 v.val)
          (if pushesErrorCode v then errorCode else 0)) ∧
        ∀ own r m', Room own r m.regs.esp → HandlerReturns own r e m' →
          SameView own r m (wrapperLeave m') := by
  have hboot := (booted hgdt hidt).1
  have hcode := stubOf_expectsErrorCode v
  have hnum := stubOf_intnum v
  refine ⟨_, enter_booted hboot v errorCode m, rfl, atStub_interrupts_off _ _ _ _ _, ?_, ?_⟩
  · rw [hnum]
    split <;> simp_all
  · intro intnum hintnum e
    have hintnum' : intnum = if stubOf v = .ERR then INT_ERR else BitVec.ofNat 32 v.val := by
      rw [hintnum] at hnum
      split at hnum
      · cases hnum
      · exact Option.some.inj hnum
    obtain ⟨hesp, hwords⟩ := entry_holds errorCode ret intnum (symbol (stubOf v))
      kernelCodeSegment m hcode
    constructor
    · rw [← hintnum', hesp]
      exact hwords
    · exact fun own r m' hroom hm' ↦ leave_sameView hcode hroom hm'

/-! ## An exception -/

def placedAt (i : Isr) : Word := BitVec.ofNat 32 (0x100000 + 16 * i.ctorIdx)

def bootIdt : IdtState where
  init := false
  idt := Vector.replicate IDT_ENTRIES ⟨0, 0⟩
  idtrSize := 0
  idtrOffset := 0
  pics := ⟨⟨⟨0, 0, false⟩, 0, .mask, false, false, 8, 4, 1⟩,
    ⟨⟨0, 0, false⟩, 0, .mask, false, false, 0x70, 2, 1⟩, false⟩

def filledGdt : GdtState :=
  ⟨true, gdtFill 0x108000 bootGdt.gdt,
    tssFlush (segselectorInit SegmentTaskState TableIndex_GDT SegmentPrivilege_Ring0)
      (gdtrInit (6 * 8 - 1) 0x108080 bootGdt.cpu)⟩

def filledIdt : IdtState :=
  ⟨true, idtFill placedAt bootIdt.idt, BitVec.ofNat 16 (IDT_ENTRIES * 8) - 1, 0x109000,
    picRemap (PIC1_OFFSET.setWidth 8) PIC2_OFFSET bootIdt.pics⟩

/-- A page fault with the error code 2. -/
theorem interrupt_transparent_pageFault :
    ∃ m₁, enter filledGdt filledIdt 0x0E 2 oneThread.machine = some m₁ ∧
      m₁.regs.eip = placedAt .PF ∧
      HoldsWords (wrapperEnter 0x100800 (stub .PF 0x0E m₁)).mem
        (wrapperEnter 0x100800 (stub .PF 0x0E m₁)).regs.esp
        (handlerStack 0x100800 oneThread.machine.regs 0x0E 2) := by
  have hgdt : gdtInit 0x108000 0x108080 bootGdt = .ok filledGdt := rfl
  have hidt : idtInit placedAt 0x109000 bootIdt = .ok filledIdt := rfl
  obtain ⟨m₁, henter, heip, -, -, hstub⟩ :=
    interrupt_transparent hgdt hidt 0x0E 2 0x100800 oneThread.machine
  exact ⟨m₁, henter, heip, (hstub 0x0E rfl).1⟩

end AlienOS.Io
