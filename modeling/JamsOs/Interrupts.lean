-- The interrupt controllers and the table of handlers (`pic.c`, `interrupts.c`, and the gates of
-- `idt_tss.c`). An 8259 takes its initialization words and its mask on one data port, so the model
-- of the device keeps which word comes next.
import Mathlib.Tactic

namespace JamsOs

/-! ## The two 8259 -/

def PIC1_VECTOR : BitVec 8 := 0x20
def PIC2_VECTOR : BitVec 8 := 0x28
def PIC1_COMMAND : BitVec 16 := 0x20
def PIC1_DATA : BitVec 16 := 0x21
def PIC2_COMMAND : BitVec 16 := 0xA0
def PIC2_DATA : BitVec 16 := 0xA1
def PIC_EOI : BitVec 8 := 0x20
def ICW1_ICW4 : BitVec 8 := 0x01
def ICW1_SINGLE : BitVec 8 := 0x02
def ICW1_INIT : BitVec 8 := 0x10
def ICW4_8086 : BitVec 8 := 0x01

/-- What the data port of an 8259 takes next: its mask, or an initialization word. -/
inductive PicPhase where
  | mask
  | icw2 (single icw4 : Bool)
  | icw3 (icw4 : Bool)
  | icw4
  deriving DecidableEq

/-- One 8259: its mask, and what the initialization words have set. -/
structure Pic where
  phase : PicPhase
  mask : BitVec 8
  offset : BitVec 8
  cascade : BitVec 8
  mode : BitVec 8
  deriving DecidableEq

def Pic.command (val : BitVec 8) (p : Pic) : Pic :=
  if val &&& ICW1_INIT ≠ 0 then
    { p with
      phase := .icw2 (decide (val &&& ICW1_SINGLE ≠ 0)) (decide (val &&& ICW1_ICW4 ≠ 0))
      mask := 0 }
  -- an operation command, such as the end of an interrupt
  else p

def Pic.data (val : BitVec 8) (p : Pic) : Pic :=
  let last (icw4 : Bool) : PicPhase := if icw4 then .icw4 else .mask
  match p.phase with
  | .mask => { p with mask := val }
  | .icw2 single icw4 =>
    { p with offset := val, phase := if single then last icw4 else .icw3 icw4 }
  | .icw3 icw4 => { p with cascade := val, phase := last icw4 }
  | .icw4 => { p with mode := val, phase := .mask }

/-! ## The state -/

structure isr_c_entry where
  arg : Option Nat
  handler : Option Nat

structure idt_entry where
  offset1 : BitVec 16
  select : BitVec 16
  IST : BitVec 3
  type : BitVec 4
  DPL : BitVec 2
  pres : BitVec 1
  offset2 : BitVec 16
  offset3 : BitVec 32

/-- The two controllers, the two tables, and the interrupt flag of the processor. -/
structure Irqs where
  pic1 : Pic
  pic2 : Pic
  isr_table : Nat → isr_c_entry
  idt : Nat → idt_entry
  interrupts : Bool

/-- The static tables are zero before `interrupts_init`. The controllers are as the firmware left
them. -/
def Irqs.boot (pic1 pic2 : Pic) : Irqs where
  pic1 := pic1
  pic2 := pic2
  isr_table := fun _ => ⟨none, none⟩
  idt := fun _ => ⟨0, 0, 0, 0, 0, 0, 0, 0⟩
  interrupts := false

/-! ## `pic.c` -/

def inb (port : BitVec 16) (s : Irqs) : BitVec 8 :=
  if port = PIC1_DATA then s.pic1.mask
  else if port = PIC2_DATA then s.pic2.mask
  else 0xFF

def outb (port : BitVec 16) (val : BitVec 8) (s : Irqs) : Irqs :=
  if port = PIC1_COMMAND then { s with pic1 := s.pic1.command val }
  else if port = PIC1_DATA then { s with pic1 := s.pic1.data val }
  else if port = PIC2_COMMAND then { s with pic2 := s.pic2.command val }
  else if port = PIC2_DATA then { s with pic2 := s.pic2.data val }
  else s

/-- A write to an unused port. -/
def io_wait (s : Irqs) : Irqs := outb 0x80 0 s

def PIC_remap (offset1 offset2 : BitVec 8) (s : Irqs) : Irqs :=
  let s := io_wait (outb PIC1_COMMAND (ICW1_INIT ||| ICW1_ICW4) s)
  let s := io_wait (outb PIC2_COMMAND (ICW1_INIT ||| ICW1_ICW4) s)
  let s := io_wait (outb PIC1_DATA offset1 s)
  let s := io_wait (outb PIC2_DATA offset2 s)
  let s := io_wait (outb PIC1_DATA 4 s)
  let s := io_wait (outb PIC2_DATA 2 s)
  let s := io_wait (outb PIC1_DATA ICW4_8086 s)
  let s := io_wait (outb PIC2_DATA ICW4_8086 s)
  outb PIC2_DATA 0 (outb PIC1_DATA 0 s)

/-- The data port and the bit of a line. -/
def irq_port (irq_line : BitVec 8) : BitVec 16 × BitVec 8 :=
  if irq_line < 8 then (PIC1_DATA, irq_line) else (PIC2_DATA, irq_line - 8)

def IRQ_set_mask (irq_line : BitVec 8) (s : Irqs) : Irqs :=
  let (port, irq_line) := irq_port irq_line
  outb port (inb port s ||| ((1 : BitVec 8) <<< irq_line.toNat)) s

def IRQ_clear_mask (irq_line : BitVec 8) (s : Irqs) : Irqs :=
  let (port, irq_line) := irq_port irq_line
  outb port (inb port s &&& ~~~((1 : BitVec 8) <<< irq_line.toNat)) s

/-- 1 when the line is masked, 0 when it is open. -/
def IRQ_get_mask (irq_line : BitVec 8) (s : Irqs) : BitVec 8 :=
  let (port, irq_line) := irq_port irq_line
  (inb port s >>> irq_line.toNat) &&& 1

def IRQ_end_of_interrupt (vector : BitVec 8) (s : Irqs) : Irqs :=
  let s := if PIC2_VECTOR ≤ vector ∧ vector < PIC2_VECTOR + 8 then outb PIC2_COMMAND PIC_EOI s else s
  if PIC1_VECTOR ≤ vector ∧ vector < PIC1_VECTOR + 16 then outb PIC1_COMMAND PIC_EOI s else s

/-- The loop of `PIC_init` from the line `i` on. -/
def mask_loop : Nat → Nat → Irqs → Irqs
  | 0, _, s => s
  | n + 1, i, s => mask_loop n (i + 1) (if i ≠ 2 then IRQ_set_mask (BitVec.ofNat 8 i) s else s)

def PIC_init (s : Irqs) : Irqs := mask_loop 15 0 (PIC_remap PIC1_VECTOR PIC2_VECTOR s)

/-! ## The gates and the handlers -/

def NUM_ISRS : Nat := 256
def STUB_SIZE : BitVec 64 := 9
def KERNEL_CS : BitVec 16 := 0x08
def TYPE_INTRGATE : BitVec 8 := 0xE

/-- `isr0` is the address of the first stub. -/
def add_idt_entry (isr0 : BitVec 64) (vector : Nat) (IST type DPL : BitVec 8) (s : Irqs) : Irqs :=
  let addr := isr0 + BitVec.ofNat 64 vector * STUB_SIZE
  let entry : idt_entry := {
    offset1 := addr.setWidth 16
    select := KERNEL_CS &&& ~~~0x3
    IST := IST.setWidth 3
    type := type.setWidth 4
    DPL := (DPL &&& 0x3).setWidth 2
    pres := 1
    offset2 := (addr >>> 16).setWidth 16
    offset3 := (addr >>> 32).setWidth 32 }
  { s with idt := Function.update s.idt vector entry }

/-- The loop of `idt_init` from the vector `i` on. -/
def idt_loop (isr0 : BitVec 64) : Nat → Nat → Irqs → Irqs
  | 0, _, s => s
  | n + 1, i, s => idt_loop isr0 n (i + 1) (add_idt_entry isr0 i 0 TYPE_INTRGATE 0 s)

def idt_init (isr0 : BitVec 64) (s : Irqs) : Irqs := idt_loop isr0 NUM_ISRS 0 s

/-- The arguments of one call of `register_interrupt`. -/
structure Registration where
  vector : Int
  IST : BitVec 8
  type : BitVec 8
  DPL : BitVec 8
  handler : Option Nat
  arg : Option Nat

/-- A call that is refused returns with interrupts off. -/
def register_interrupt (isr0 : BitVec 64) (c : Registration) (s : Irqs) : Irqs :=
  let s := { s with interrupts := false }
  if (NUM_ISRS : Int) ≤ c.vector ∨ c.vector < 0 ∨ (s.isr_table c.vector.toNat).handler ≠ none then s
  else
    let vector := c.vector.toNat
    let s := add_idt_entry isr0 vector c.IST c.type c.DPL s
    let s := { s with isr_table := Function.update s.isr_table vector ⟨c.arg, c.handler⟩ }
    let s :=
      if PIC1_VECTOR.toNat ≤ vector ∧ vector < PIC2_VECTOR.toNat + 8 then
        IRQ_clear_mask (BitVec.ofNat 8 (vector - PIC1_VECTOR.toNat)) s
      else s
    { s with interrupts := true }

/-- The addresses of the stubs and of the two handlers of `interrupts.c`. -/
structure IsrCode where
  isr0 : BitVec 64
  ISR8_double_fault : Nat
  ISR13_general_protection : Nat

def interrupts_init (code : IsrCode) (s : Irqs) : Irqs :=
  let s := PIC_init (idt_init code.isr0 { s with interrupts := false })
  let s := { s with interrupts := true }
  let s := register_interrupt code.isr0
    ⟨8, 1, TYPE_INTRGATE, 0, some code.ISR8_double_fault, none⟩ s
  register_interrupt code.isr0
    ⟨13, 2, TYPE_INTRGATE, 0, some code.ISR13_general_protection, none⟩ s

/-- The call of a handler. -/
structure IsrCall where
  handler : Nat
  vector : BitVec 8
  err : BitVec 32
  arg : Nat
  deriving DecidableEq

/-- The handler that is called, and the state once it has returned and left the state alone. `none`
when the vector has no handler and the processor halts. -/
def c_isr_handler (vector : BitVec 8) (err : BitVec 32) (rsp : Nat) (s : Irqs) :
    Option (IsrCall × Irqs) :=
  match (s.isr_table vector.toNat).handler with
  | none => none
  | some handler =>
    let arg := ((s.isr_table vector.toNat).arg).getD rsp
    some (⟨handler, vector, err, arg⟩, IRQ_end_of_interrupt vector s)

/-! ## What the processor sees -/

/-- The vector that the processor gets when the device on line `k` asks for an interrupt, or `none`
when no interrupt arrives. A line of the second controller comes through a line of the first, its
cascade identity. -/
def Irqs.delivers (s : Irqs) (k : Nat) : Option (BitVec 8) :=
  if k < 8 then
    if s.pic1.cascade.getLsbD k ∨ s.pic1.mask.getLsbD k then none
    else some ((s.pic1.offset &&& 0xF8) + BitVec.ofNat 8 k)
  else
    if s.pic2.mask.getLsbD (k - 8) ∨ s.pic1.mask.getLsbD (s.pic2.cascade &&& 7).toNat then none
    else some ((s.pic2.offset &&& 0xF8) + BitVec.ofNat 8 (k - 8))

/-- The address in a gate. -/
def idt_entry.address (e : idt_entry) : BitVec 64 := e.offset3 ++ e.offset2 ++ e.offset1

def Irqs.handled (s : Irqs) (vector : Nat) : Prop := (s.isr_table vector).handler ≠ none

instance (s : Irqs) (vector : Nat) : Decidable (s.handled vector) :=
  inferInstanceAs (Decidable ((s.isr_table vector).handler ≠ none))

/-- The state after `interrupts_init` and the calls `cs`, first call first. -/
def Irqs.after (code : IsrCode) (pic1 pic2 : Pic) (cs : List Registration) : Irqs :=
  cs.foldl (fun s c => register_interrupt code.isr0 c s) (interrupts_init code (.boot pic1 pic2))

end JamsOs
