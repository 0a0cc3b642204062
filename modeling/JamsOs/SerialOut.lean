-- Output over the serial port (`serial_out.c`). Bytes go through a bounded buffer to the holding
-- register of the UART, which the caller fills when it finds it empty, and the interrupt handler when
-- the UART says that it is.
--
-- The functions run with interrupts off, and so each is one step, but an interrupt or another caller
-- may come between the two parts of `serial_display_char`.
import JamsOs.Bbuf
import JamsOs.Runs

namespace JamsOs

open RingBuffers Runs

/-! ## The driver and the UART -/

def IIR_NO_PENDING : BitVec 8 := 1
def IIR_MASK : BitVec 8 := 0x0E
def IIR_THR_EMPTY : BitVec 8 := 0x02
def LSR_THR_EMPTY : BitVec 8 := 0x20

def SER_BUFFER_SIZE : Nat := 2048

/-- The driver's variables, the UART with its holding register and the other bits of its line
status, and how many calls of `serial_display_char` have added their byte and not yet called `transmit`.
The history is in the last three fields: the bytes that were accepted and those that were written to
the port, both in order, and whether a byte was ever written while the holding register was full. -/
structure Serial where
  ser_active : Int
  ser_st : Bbuf
  holding : Option (BitVec 8)
  line_status : BitVec 8
  calls : Nat
  accepted : List (BitVec 8)
  written : List (BitVec 8)
  overrun : Bool

/-- The line status register. Its bit for the holding register is set when that is empty. -/
def Serial.lsr (s : Serial) : BitVec 8 :=
  if s.holding.isNone then s.line_status ||| LSR_THR_EMPTY else s.line_status &&& ~~~LSR_THR_EMPTY

/-- `outb(PORT, c)`. -/
def Serial.outb (s : Serial) (c : BitVec 8) : Serial :=
  { s with holding := some c, written := s.written ++ [c], overrun := s.overrun || s.holding.isSome }

def transmit_empty (s : Serial) : Bool := s.lsr &&& LSR_THR_EMPTY ≠ 0

/-- The interrupt flag comes with the call, and is given back. -/
def transmit (s : Serial) (ints : Bool) : Serial × Bool :=
  let (enable_ints, ints) := save_and_clear ints
  let s := if s.ser_active ≠ 0 ∧ transmit_empty s then { s with ser_active := 0 } else s
  if s.ser_active = 0 then
    match bbuf_try_consume s.ser_st true ints with
    | (0, some c, ser_st, ints) =>
      (Serial.outb { s with ser_st := ser_st, ser_active := 1 } c, set_again enable_ints ints)
    | (_, _, ser_st, ints) => ({ s with ser_st := ser_st }, set_again enable_ints ints)
  else (s, set_again enable_ints ints)

/-- The first part of `serial_display_char`. -/
def display_add (c : BitVec 8) (s : Serial) (ints : Bool) : Serial × Bool :=
  match bbuf_try_add s.ser_st c ints with
  | (ret, ser_st, ints) =>
    ({ s with
       ser_st := ser_st
       calls := s.calls + 1
       accepted := if ret = 0 then s.accepted ++ [c] else s.accepted }, ints)

/-- The second part. -/
def display_transmit (s : Serial) (ints : Bool) : Serial × Bool :=
  transmit { s with calls := s.calls - 1 } ints

def serial_display_char (c : BitVec 8) (s : Serial) (ints : Bool) : Serial × Bool :=
  let (s, ints) := display_add c s ints
  display_transmit s ints

/-- The cause that the handler looks for. -/
def thr_empty_cause (iir : BitVec 8) : Bool :=
  iir &&& IIR_NO_PENDING = 0 ∧ iir &&& IIR_MASK = IIR_THR_EMPTY

/-- The handler runs with interrupts off. -/
def ISR36_IRQ4_serial (iir : BitVec 8) (s : Serial) : Serial :=
  if iir &&& IIR_NO_PENDING ≠ 0 then s
  else if iir &&& IIR_MASK = IIR_THR_EMPTY then (transmit { s with ser_active := 0 } false).1
  else s

/-- The state that `serial_init` sets up. The array `ser_buf` may hold anything. -/
def serial_init (ser_buf : Nat → BitVec 8) (line_status : BitVec 8) : Serial where
  ser_active := 0
  ser_st := bbuf_init ⟨fun _ => 0, 0, 0, 0⟩ ser_buf SER_BUFFER_SIZE
  holding := none
  line_status := line_status
  calls := 0
  accepted := []
  written := []
  overrun := false

/-! ## Runs -/

/-- What can happen: a call of `serial_display_char` adds its byte, one that has goes on to `transmit`,
each with interrupts on or off; an interrupt comes, with what the UART says of its cause; the UART sends
the byte of its holding register; or other bits of its line status change. -/
inductive SerialEvent where
  | add (c : BitVec 8) (ints : Bool)
  | transmit (ints : Bool)
  | interrupt (iir : BitVec 8)
  | drain
  | line_status (v : BitVec 8)
  deriving DecidableEq, Repr

/-- The UART names an empty holding register as the cause only if it is empty. -/
def serial_step : SerialEvent → Serial → Option Serial
  | .add c ints, s => some (display_add c s ints).1
  | .transmit ints, s => if 0 < s.calls then some (display_transmit s ints).1 else none
  | .interrupt iir, s =>
    if thr_empty_cause iir ∧ s.holding ≠ none then none else some (ISR36_IRQ4_serial iir s)
  | .drain, s => some { s with holding := none }
  | .line_status v, s => some { s with line_status := v }

/-! ## What every step keeps -/

/-- The bytes are where they should be, and the driver is idle only when the UART is. -/
structure Serial.Sound (s : Serial) : Prop where
  valid : s.ser_st.Valid
  size : s.ser_st.size = SER_BUFFER_SIZE
  active : s.ser_active = 0 ∨ s.ser_active = 1
  bytes : s.written ++ s.ser_st.items = s.accepted
  overrun : s.overrun = false
  idle : s.ser_active = 0 → s.holding = none

/-- Buffered bytes have someone to send them: the interrupt to come, or a call that has not yet called
`transmit`. -/
def Serial.Flows (s : Serial) : Prop := s.ser_st.items ≠ [] → s.ser_active = 1 ∨ 0 < s.calls

theorem transmit_empty_iff (s : Serial) : transmit_empty s = true ↔ s.holding = none := by
  unfold transmit_empty Serial.lsr LSR_THR_EMPTY
  rcases s.holding with _ | c
  · have h : ∀ v : BitVec 8, (v ||| 0x20) &&& 0x20 ≠ 0 := by decide
    simpa using h s.line_status
  · have h : ∀ v : BitVec 8, (v &&& ~~~0x20) &&& 0x20 = 0 := by decide
    simpa using h s.line_status

/-- What `transmit` does to a sound state: afterwards nothing is buffered unless the driver is active,
whether or not it was so before. -/
theorem transmit.spec {s : Serial} (h : s.Sound) (ints : Bool) :
    (transmit s ints).1.Sound ∧
      ((transmit s ints).1.ser_st.items ≠ [] → (transmit s ints).1.ser_active = 1) ∧
      (transmit s ints).1.accepted = s.accepted ∧ (transmit s ints).1.calls = s.calls ∧
      (transmit s ints).2 = ints := by
  -- the first test: from here on the driver is idle only if the holding register is empty
  obtain ⟨s₁, hs₁⟩ : ∃ s₁, (if s.ser_active ≠ 0 ∧ transmit_empty s then { s with ser_active := 0 }
    else s) = s₁ := ⟨_, rfl⟩
  have h₁ : s₁.Sound ∧ s₁.accepted = s.accepted ∧ s₁.calls = s.calls := by
    rw [← hs₁]
    split
    · next hc => exact ⟨{ h with active := .inl rfl, idle := fun _ => (transmit_empty_iff s).mp hc.2 },
        rfl, rfl⟩
    · exact ⟨h, rfl, rfl⟩
  obtain ⟨hsound, haccepted, hcalls⟩ := h₁
  unfold transmit
  dsimp only
  rw [hs₁]
  by_cases hidle : s₁.ser_active = 0
  · rw [if_pos hidle]
    rcases bbuf_try_consume.spec hsound.valid (save_and_clear ints).2 with ⟨hempty, hret⟩ |
      ⟨c, hret, hvalid, hitems⟩
    · rw [hret]
      exact ⟨hsound, fun hne => absurd hempty hne, haccepted, hcalls, set_again_saved ints⟩
    · rw [hret]
      have hholding := hsound.idle hidle
      refine ⟨?_, fun _ => rfl, haccepted, hcalls, set_again_saved ints⟩
      constructor
      case valid => exact hvalid
      case size => exact hsound.size
      case active => exact .inr rfl
      case bytes =>
        have hbytes := hsound.bytes
        rw [hitems] at hbytes
        change s₁.written ++ [c] ++ s₁.ser_st.drop.items = s₁.accepted
        rw [List.append_assoc]
        exact hbytes
      case overrun =>
        change (s₁.overrun || s₁.holding.isSome) = false
        rw [hsound.overrun, hholding]
        rfl
      case idle =>
        intro hc
        exact absurd (show (1 : Int) = 0 from hc) (by decide)
  · rw [if_neg hidle]
    have hone := hsound.active.resolve_left hidle
    exact ⟨hsound, fun _ => hone, haccepted, hcalls, set_again_saved ints⟩

/-- What adding a byte does. -/
theorem display_add.sound {s : Serial} (h : s.Sound) (c : BitVec 8) (ints : Bool) :
    (display_add c s ints).1.Sound ∧ 0 < (display_add c s ints).1.calls := by
  unfold display_add
  rcases bbuf_try_add.spec h.valid c ints with ⟨-, hret⟩ | ⟨-, hret, hvalid, hitems⟩
  · rw [hret]
    exact ⟨{ h with }, Nat.succ_pos _⟩
  · rw [hret]
    refine ⟨{ h with valid := hvalid, bytes := ?_ }, Nat.succ_pos _⟩
    change s.written ++ (s.ser_st.put c).items = s.accepted ++ [c]
    rw [hitems, ← List.append_assoc, h.bytes]

theorem serial_step.keeps (e : SerialEvent) (s s' : Serial) (h : s.Sound ∧ s.Flows)
    (hstep : serial_step e s = some s') : s'.Sound ∧ s'.Flows := by
  obtain ⟨hsound, hflows⟩ := h
  cases e with
  | add c ints =>
    cases hstep
    obtain ⟨hsound', hcalls⟩ := display_add.sound hsound c ints
    exact ⟨hsound', fun _ => .inr hcalls⟩
  | transmit ints =>
    simp only [serial_step] at hstep
    split at hstep
    · cases hstep
      obtain ⟨hsound', hsent, -⟩ := transmit.spec (s := { s with calls := s.calls - 1 })
        { hsound with } ints
      exact ⟨hsound', fun hne => .inl (hsent hne)⟩
    · cases hstep
  | interrupt iir =>
    simp only [serial_step] at hstep
    split at hstep
    · cases hstep
    · next hcause =>
      cases hstep
      unfold ISR36_IRQ4_serial
      split
      · exact ⟨hsound, hflows⟩
      · next hpending =>
        split
        · next hthr =>
          -- the cause is an empty holding register, which is what an idle driver claims
          have hholding : s.holding = none := by
            by_contra hfull
            apply hcause
            refine ⟨?_, hfull⟩
            unfold thr_empty_cause
            exact decide_eq_true ⟨not_not.mp hpending, hthr⟩
          obtain ⟨hsound', hsent, -⟩ := transmit.spec (s := { s with ser_active := 0 })
            { hsound with active := .inl rfl, idle := fun _ => hholding } false
          exact ⟨hsound', fun hne => .inl (hsent hne)⟩
        · exact ⟨hsound, hflows⟩
  | drain =>
    cases hstep
    exact ⟨{ hsound with idle := fun _ => rfl }, hflows⟩
  | line_status v =>
    cases hstep
    exact ⟨{ hsound with }, hflows⟩

theorem serial_init.sound (ser_buf : Nat → BitVec 8) (line_status : BitVec 8) :
    (serial_init ser_buf line_status).Sound ∧ (serial_init ser_buf line_status).Flows := by
  have hst : (serial_init ser_buf line_status).ser_st = ⟨ser_buf, 2048, 0, 0⟩ := rfl
  have hvalid : (serial_init ser_buf line_status).ser_st.Valid := by
    rw [hst]
    exact ⟨by norm_num, by norm_num, by norm_num⟩
  refine ⟨⟨hvalid, rfl, .inl rfl, rfl, rfl, fun _ => rfl⟩, ?_⟩
  intro hne
  exact absurd rfl hne

/-! ## Serial output -/

/-- Serial output neither loses, duplicates, reorders nor stalls. In every state that a run reaches,
the bytes written to the port and those still buffered are the accepted ones, in order; no byte was
written while the holding register was full; a further byte would be refused only if 2047 are buffered;
and unless a call is between its two parts, bytes are buffered only while the driver is active. -/
theorem serial_output_is_exact (ser_buf : Nat → BitVec 8) (line_status : BitVec 8)
    (es : List SerialEvent) (s : Serial)
    (h : run serial_step es (serial_init ser_buf line_status) = some s) :
    s.written ++ s.ser_st.items = s.accepted ∧ s.overrun = false ∧
    (∀ c ints, (bbuf_try_add s.ser_st c ints).1 ≠ 0 → s.ser_st.items.length = 2047) ∧
    (s.calls = 0 → s.ser_st.items ≠ [] → s.ser_active = 1) := by
  obtain ⟨hsound, hflows⟩ := run_keeps (I := fun s => s.Sound ∧ s.Flows)
    (fun e s s' hs hstep => serial_step.keeps e s s' hs hstep) (serial_init.sound ser_buf line_status) h
  refine ⟨hsound.bytes, hsound.overrun, ?_, ?_⟩
  · intro c ints hrefused
    rcases bbuf_try_add.spec hsound.valid c ints with ⟨hfull, -⟩ | ⟨-, hret, -⟩
    · rw [hfull, hsound.size]
      rfl
    · rw [hret] at hrefused
      exact absurd rfl hrefused
  · intro hcalls hne
    exact (hflows hne).resolve_right (by omega)

/-- Two calls, the second of which finds the holding register full, and an interrupt when it is empty
again. -/
theorem serial_output_is_exact_two_bytes :
    ∃ s, run serial_step [.add 0x41 true, .transmit true, .add 0x42 true, .transmit true, .drain,
        .interrupt 0x02] (serial_init (fun _ => 0) 0) = some s ∧
      s.written = [0x41, 0x42] ∧ s.written ++ s.ser_st.items = s.accepted := by
  obtain ⟨s, hs⟩ := Option.isSome_iff_exists.mp (show (run serial_step [.add 0x41 true,
    .transmit true, .add 0x42 true, .transmit true, .drain, .interrupt 0x02]
    (serial_init (fun _ => 0) 0)).isSome by decide +kernel)
  have hwritten : (run serial_step [.add 0x41 true, .transmit true, .add 0x42 true, .transmit true,
    .drain, .interrupt 0x02] (serial_init (fun _ => 0) 0)).all
      (fun s => s.written = [0x41, 0x42]) := by decide +kernel
  rw [hs, Option.all_some, decide_eq_true_iff] at hwritten
  exact ⟨s, hs, hwritten, (serial_output_is_exact (fun _ => 0) 0 _ s hs).1⟩

end JamsOs
