import AlienOS.Io.Delivery

/-!
# Unnoticed — a program between interrupts

A program runs in steps, and between any two of them the controllers may deliver an interrupt on the
lines 1 to 15.
-/

open AlienOS.Lib AlienOS.Mem AlienOS.Kernel.Context

namespace AlienOS.Io

/-! ## Runs -/

/-- The tables, and where the stubs and the code after the call of `interrupt_handler` lie. -/
structure Image where
  gdt : GdtState
  idt : IdtState
  symbol : Isr → Word
  /-- the stub that starts at an address -/
  code : Word → Option Isr
  ret : Word

/-- An interrupt from the gate to the `iret`; `body` is what the compiled `interrupt_handler` does to
the machine, and the number that it acts on is read from the frame. -/
def Image.interrupt (k : Image) (body : Machine → Machine) (v : Fin IDT_ENTRIES)
    (errorCode : Word) (m : Machine) (p : Pics) : Option (Except Halt (Machine × Pics)) := do
  let m ← enter k.gdt k.idt v errorCode m
  let isr ← k.code m.regs.eip
  let intnum ← isr.intnum
  let m := wrapperEnter k.ret (stub isr intnum m)
  let frame := readWord m.mem (m.regs.esp + 4)
  let intno := readWord m.mem (frame + 32)
  return (interruptHandler intno p).map fun p ↦ (wrapperLeave (body m), p)

theorem vector_lt (d : Delivery) : 0x20 + d.line.val < IDT_ENTRIES := by
  have hlt := d.line.isLt
  show 0x20 + d.line.val < 256
  omega

/-- The interrupt number of a line. -/
def Delivery.vector (d : Delivery) : Fin IDT_ENTRIES := ⟨0x20 + d.line.val, vector_lt d⟩

inductive Event where
  | step (f : Machine → Machine)
  | interrupt (d : Delivery) (body : Machine → Machine)

/-- The program alone. -/
def alone : List Event → Machine → Machine
  | [], m => m
  | .step f :: events, m => alone events (f m)
  | .interrupt _ _ :: events, m => alone events m

/-- The program and the interrupts. -/
def Image.run (k : Image) : List Event → Machine × Pics →
    Option (Except Halt (Machine × Pics))
  | [], s => some (.ok s)
  | .step f :: events, (m, p) => k.run events (f m, p)
  | .interrupt d body :: events, (m, p) =>
    match k.interrupt body d.vector 0 m (d.deliver p) with
    | some (.ok s) => k.run events s
    | stuck => stuck

def deliveries : List Event → List Delivery
  | [] => []
  | .step _ :: events => deliveries events
  | .interrupt d _ :: events => d :: deliveries events

/-- What a run relies on: a step does not depend on what the program may not read; a delivery is one
that `pic_check_spurious` takes for what it is; `interrupt_handler` returns as a C function does; and
where the program is interrupted there is room on its stack. -/
def Fits (own : Set Word) (r : Region) : List Event → Machine → Prop
  | [], _ => True
  | .step f :: events, m =>
    (∀ m m', SameView own r m m' → SameView own r (f m) (f m')) ∧ Fits own r events (f m)
  | .interrupt d body :: events, m =>
    ¬ d.Suspect ∧ Room own r m.regs.esp ∧
      (∀ e, e.regs.esp = m.regs.esp - 60 → HandlerReturns own r e (body e)) ∧ Fits own r events m

section

variable {own : Set Word} {r : Region} {m m' m'' : Machine} {p : Pics} {d : Delivery}
  {k : Image} {events : List Event}

theorem SameView.refl (own : Set Word) (r : Region) (m : Machine) : SameView own r m m :=
  ⟨rfl, rfl, .refl _ _⟩

theorem SameView.trans (h : SameView own r m m') (h' : SameView own r m' m'') :
    SameView own r m m'' := by
  have hmem := h'.mem
  rw [h.regs] at hmem
  exact ⟨h'.regs.trans h.regs, h'.thread.trans h.thread, h.mem.trans hmem⟩

/-- The stub of a line pushes the number that the controllers were told to use. -/
theorem vector_stub (d : Delivery) (h : d.line ≠ 0) :
    (stubOf d.vector).intnum = some d.intno := by
  have hall : ∀ line : Fin 16, line ≠ 0 →
      (stubOf (Fin.ofNat IDT_ENTRIES (0x20 + line.val))).intnum =
        some (PIC1_OFFSET + BitVec.ofNat 32 line.val) := by decide
  have hvector : d.vector = Fin.ofNat IDT_ENTRIES (0x20 + d.line.val) :=
    Fin.ext (Nat.mod_eq_of_lt (vector_lt d)).symm
  rw [hvector]
  exact hall d.line h

theorem line_ne_zero (d : Delivery) : d.line ≠ 0 := by
  cases d with
  | real line h => exact h
  | spuriousMaster => decide
  | spuriousSlave => decide

/-- The step lemma. -/
theorem interrupt_step {body : Machine → Machine} (hk : Booted k.symbol k.gdt k.idt)
    (hcode : ∀ i, k.code (k.symbol i) = some i) (hp : p.Quiet) (hd : ¬ d.Suspect)
    (hroom : Room own r m.regs.esp)
    (hbody : ∀ e, e.regs.esp = m.regs.esp - 60 → HandlerReturns own r e (body e)) :
    ∃ m' p', k.interrupt body d.vector 0 m (d.deliver p) = some (.ok (m', p')) ∧
      SameView own r m m' ∧ service d p = .ok p' ∧ p'.Quiet ∧ Acknowledged d p p' := by
  obtain ⟨p', hservice, hquiet, hack⟩ := service_quiet hp hd
  have herror := stubOf_expectsErrorCode d.vector
  have hnum := vector_stub d (line_ne_zero d)
  have hentry := entry_holds 0 k.ret d.intno (k.symbol (stubOf d.vector)) kernelCodeSegment m herror
  have hback : ∀ m', HandlerReturns own r (wrapperEnter k.ret (stub (stubOf d.vector) d.intno
      (atStub d.vector 0 kernelCodeSegment (k.symbol (stubOf d.vector)) m))) m' →
      SameView own r m (wrapperLeave m') := fun m' hm' ↦ leave_sameView herror hroom hm'
  have heip : (atStub d.vector 0 kernelCodeSegment (k.symbol (stubOf d.vector)) m).regs.eip =
      k.symbol (stubOf d.vector) := rfl
  unfold Image.interrupt
  simp only [enter_booted hk, Option.bind_eq_bind, Option.bind_some, heip, hcode, hnum]
  generalize wrapperEnter k.ret (stub (stubOf d.vector) d.intno
    (atStub d.vector 0 kernelCodeSegment (k.symbol (stubOf d.vector)) m)) = e at hentry hback
  obtain ⟨hesp, hwords⟩ := hentry
  -- the number is the ninth word of the frame
  obtain ⟨-, hframe, -, -, -, -, -, -, -, -, hintno, -⟩ := hwords
  have h₃₂ : m.regs.esp - 60 + 4 + 4 + 4 + 4 + 4 + 4 + 4 + 4 + 4 + 4 = m.regs.esp - 52 + 32 := by
    bv_omega
  rw [h₃₂] at hintno
  have hservice' : interruptHandler d.intno (d.deliver p) = .ok p' := hservice
  rw [hesp, hframe, hintno, hservice']
  exact ⟨_, _, rfl, hback _ (hbody e hesp), hservice, hquiet, hack⟩

/-- The run lemma. -/
theorem run_sameView (hk : Booted k.symbol k.gdt k.idt)
    (hcode : ∀ i, k.code (k.symbol i) = some i) :
    ∀ (events : List Event) (m a : Machine) (p : Pics), SameView own r a m → p.Quiet →
      Fits own r events a →
      ∃ m' p', k.run events (m, p) = some (.ok (m', p')) ∧ SameView own r (alone events a) m' ∧
        p'.Quiet ∧ AllAcknowledged (deliveries events) p := by
  intro events
  induction events with
  | nil => exact fun m a p hm hp _ ↦ ⟨m, p, rfl, hm, hp, trivial⟩
  | cons event events ih =>
    intro m a p hm hp hfits
    cases event with
    | step f => exact ih (f m) (f a) p (hfits.1 a m hm) hp hfits.2
    | interrupt d body =>
      obtain ⟨hd, hroom, hbody, hrest⟩ := hfits
      rw [← hm.regs] at hroom hbody
      obtain ⟨m₁, p₁, hrun, hview, hservice, hquiet, hack⟩ :=
        interrupt_step hk hcode hp hd hroom hbody
      obtain ⟨m', p', hrun', hview', hquiet', hall⟩ :=
        ih m₁ a p₁ (hm.trans hview) hquiet hrest
      refine ⟨m', p', ?_, hview', hquiet', p₁, hservice, hack, hall⟩
      show (match k.interrupt body d.vector 0 m (d.deliver p) with
        | some (.ok s) => k.run events s
        | stuck => stuck) = _
      rw [hrun]
      exact hrun'

/-- Interrupts on the lines 1 to 15, as many and wherever they come, change nothing that the program
can read; each is acknowledged, and none halts the kernel. -/
theorem interrupts_unnoticed {tss gdtAddr idtAddr : Word} {gdt : GdtState} {idt : IdtState}
    (hgdt : gdtInit tss gdtAddr gdt = .ok k.gdt)
    (hidt : idtInit k.symbol idtAddr idt = .ok k.idt)
    (hcode : ∀ i, k.code (k.symbol i) = some i) (hp : p.Quiet) (hfits : Fits own r events m) :
    ∃ m' p', k.run events (m, p) = some (.ok (m', p')) ∧ SameView own r (alone events m) m' ∧
      p'.Quiet ∧ AllAcknowledged (deliveries events) p :=
  run_sameView (booted hgdt hidt).1 hcode events m m p (.refl own r m) hp hfits

end

/-! ## A run -/

def bootImage : Image where
  gdt := filledGdt
  idt := filledIdt
  symbol := placedAt
  code a := (.ERR :: .SYS :: stubs.map Prod.snd).find? (placedAt · = a)
  ret := 0x100800

/-- The program counts in `eax`, which the handler overwrites. -/
def count (m : Machine) : Machine :=
  { m with regs := { m.regs with eax := m.regs.eax + 1 } }

def overwrite (m : Machine) : Machine :=
  { m with regs := { m.regs with eax := 0x20, esp := m.regs.esp + 4 } }

def countEvents : List Event :=
  [.step count, .interrupt .com1 overwrite, .step count]

theorem interrupts_unnoticed_count :
    ∃ m' p', bootImage.run countEvents (oneThread.machine, ⟨⟨0, 0, false⟩, ⟨0, 0, false⟩, []⟩) =
        some (.ok (m', p')) ∧
      SameView ∅ (oneThread.stack 0) (alone countEvents oneThread.machine) m' ∧ p'.Quiet ∧
      AllAcknowledged (deliveries countEvents) ⟨⟨0, 0, false⟩, ⟨0, 0, false⟩, []⟩ := by
  have hcount : ∀ m m', SameView ∅ (oneThread.stack 0) m m' →
      SameView ∅ (oneThread.stack 0) (count m) (count m') := by
    intro m m' h
    refine ⟨?_, h.thread, h.mem⟩
    unfold count
    rw [h.regs]
  have hgdt : gdtInit 0x108000 0x108080 bootGdt = .ok bootImage.gdt := rfl
  have hidt : idtInit bootImage.symbol 0x109000 bootIdt = .ok bootImage.idt := rfl
  have hcode : ∀ i, bootImage.code (bootImage.symbol i) = some i := by
    intro i
    cases i <;> decide
  refine interrupts_unnoticed hgdt hidt hcode ⟨rfl, rfl⟩ ⟨hcount, ?_, ?_, ?_, hcount, trivial⟩
  · rintro (h | h) <;> cases h
  · exact ⟨by decide, by decide, fun a ha ↦ ha.elim⟩
  · exact fun e _ ↦ ⟨rfl, rfl, rfl, .refl _ _⟩

end AlienOS.Io
