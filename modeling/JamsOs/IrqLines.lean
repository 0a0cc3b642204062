-- Which interrupt lines are open. A line is opened by the call that registers its vector, and
-- only then, but `PIC_init` leaves line 15 open: an interrupt on it has no handler.
import JamsOs.Interrupts

namespace JamsOs

/-- The bit of line `k` in the two masks. -/
def Irqs.masked (s : Irqs) (k : Nat) : Bool :=
  if k < 8 then s.pic1.mask.getLsbD k else s.pic2.mask.getLsbD (k - 8)

/-- Both controllers are set up as `PIC_remap` sets them up, and take masks. -/
structure Mapped (s : Irqs) : Prop where
  first : s.pic1 = ⟨.mask, s.pic1.mask, PIC1_VECTOR, 4, ICW4_8086⟩
  second : s.pic2 = ⟨.mask, s.pic2.mask, PIC2_VECTOR, 2, ICW4_8086⟩

section

variable {s : Irqs} {i j k n : Nat}

/-! ## One line -/

theorem irq_port_first (hj : j < 8) : irq_port (BitVec.ofNat 8 j) = (PIC1_DATA, BitVec.ofNat 8 j) := by
  have hlt : BitVec.ofNat 8 j < 8 := by
    rw [BitVec.lt_def, BitVec.toNat_ofNat, Nat.mod_eq_of_lt (by omega)]
    exact hj
  rw [irq_port, if_pos hlt]

theorem irq_port_second (hj : 8 ≤ j) (hj' : j < 16) :
    irq_port (BitVec.ofNat 8 j) = (PIC2_DATA, BitVec.ofNat 8 (j - 8)) := by
  have hle : ¬ BitVec.ofNat 8 j < 8 := by
    rw [BitVec.lt_def, BitVec.toNat_ofNat, Nat.mod_eq_of_lt (by omega)]
    exact Nat.not_lt.mpr hj
  rw [irq_port, if_neg hle]
  congr 1
  exact BitVec.ofNat_sub_ofNat_of_le j 8 (show 8 < 2 ^ 8 by decide) hj

/-- A line is read, changed by `f` and written back, and so is no other line. -/
theorem Mapped.edit (h : Mapped s) (hj : j < 16) (f : Nat → BitVec 8 → BitVec 8)
    (g : Bool → Bool)
    (hf : ∀ b c m, b < 8 → c < 8 → (f b m).getLsbD c = if c = b then g (m.getLsbD c) else m.getLsbD c) :
    let port := (irq_port (BitVec.ofNat 8 j)).1
    let s' := outb port (f (irq_port (BitVec.ofNat 8 j)).2.toNat (inb port s)) s
    Mapped s' ∧ s'.isr_table = s.isr_table ∧ s'.idt = s.idt ∧
      ∀ k < 16, s'.masked k = if k = j then g (s.masked k) else s.masked k := by
  obtain ⟨h1, h2⟩ := h
  rcases Nat.lt_or_ge j 8 with hlow | hhigh
  · have hs' : outb PIC1_DATA (f j (inb PIC1_DATA s)) s =
        { s with pic1 := ⟨.mask, f j s.pic1.mask, PIC1_VECTOR, 4, ICW4_8086⟩ } := by
      have hrun : outb PIC1_DATA (f j (inb PIC1_DATA s)) s =
        { s with pic1 := s.pic1.data (f j s.pic1.mask) } := rfl
      rw [hrun, h1]
      rfl
    simp only [irq_port_first hlow, BitVec.toNat_ofNat, Nat.mod_eq_of_lt (show j < 2 ^ 8 by omega)]
    rw [hs']
    refine ⟨⟨rfl, h2⟩, rfl, rfl, fun k hk => ?_⟩
    unfold Irqs.masked
    dsimp only
    split
    · exact hf j k _ hlow (by assumption)
    · rw [if_neg (by omega)]
  · have hs' : outb PIC2_DATA (f (j - 8) (inb PIC2_DATA s)) s =
        { s with pic2 := ⟨.mask, f (j - 8) s.pic2.mask, PIC2_VECTOR, 2, ICW4_8086⟩ } := by
      have hrun : outb PIC2_DATA (f (j - 8) (inb PIC2_DATA s)) s =
        { s with pic2 := s.pic2.data (f (j - 8) s.pic2.mask) } := rfl
      rw [hrun, h2]
      rfl
    simp only [irq_port_second hhigh hj, BitVec.toNat_ofNat,
      Nat.mod_eq_of_lt (show j - 8 < 2 ^ 8 by omega)]
    rw [hs']
    refine ⟨⟨h1, rfl⟩, rfl, rfl, fun k hk => ?_⟩
    unfold Irqs.masked
    dsimp only
    split
    · rw [if_neg (by omega)]
    · rw [hf (j - 8) (k - 8) _ (by omega) (by omega)]
      congr 1
      exact propext ⟨fun he => by omega, fun he => by omega⟩

theorem getLsbD_one_shiftLeft (b c : Nat) (hb : b < 8) :
    ((1 : BitVec 8) <<< b).getLsbD c = decide (c = b) := by
  rw [show (1 : BitVec 8) = 1#8 from rfl, ← BitVec.twoPow_eq, BitVec.getLsbD_twoPow]
  simp only [hb, decide_true, Bool.true_and]
  exact decide_eq_decide.mpr eq_comm

/-- `IRQ_set_mask` masks one line. -/
theorem IRQ_set_mask.spec (h : Mapped s) (hj : j < 16) :
    let s' := IRQ_set_mask (BitVec.ofNat 8 j) s
    Mapped s' ∧ s'.isr_table = s.isr_table ∧ s'.idt = s.idt ∧
      ∀ k < 16, s'.masked k = (s.masked k || decide (k = j)) := by
  obtain ⟨h1, h2, h3, h4⟩ := h.edit hj (fun b m => m ||| ((1 : BitVec 8) <<< b)) (fun _ => true) (by
    intro b c m hb hc
    rw [BitVec.getLsbD_or, getLsbD_one_shiftLeft b c hb]
    by_cases hcb : c = b
    · simp [hcb]
    · simp [hcb])
  refine ⟨h1, h2, h3, fun k hk => (h4 k hk).trans ?_⟩
  by_cases hkj : k = j
  · simp [hkj]
  · simp [hkj]

/-- `IRQ_clear_mask` opens one line. -/
theorem IRQ_clear_mask.spec (h : Mapped s) (hj : j < 16) :
    let s' := IRQ_clear_mask (BitVec.ofNat 8 j) s
    Mapped s' ∧ s'.isr_table = s.isr_table ∧ s'.idt = s.idt ∧
      ∀ k < 16, s'.masked k = (s.masked k && !decide (k = j)) := by
  obtain ⟨h1, h2, h3, h4⟩ := h.edit hj (fun b m => m &&& ~~~((1 : BitVec 8) <<< b)) (fun _ => false) (by
    intro b c m hb hc
    rw [BitVec.getLsbD_and, BitVec.getLsbD_not, getLsbD_one_shiftLeft b c hb]
    by_cases hcb : c = b
    · simp [hcb]
    · simp [hcb, hc])
  refine ⟨h1, h2, h3, fun k hk => (h4 k hk).trans ?_⟩
  by_cases hkj : k = j
  · simp [hkj]
  · simp [hkj]

theorem IRQ_get_mask.spec (s : Irqs) (hk : k < 16) :
    IRQ_get_mask (BitVec.ofNat 8 k) s = 0 ↔ s.masked k = false := by
  have hbit : ∀ (m : BitVec 8) (b : Nat), b < 8 →
      ((m >>> (BitVec.ofNat 8 b).toNat) &&& 1 = 0 ↔ m.getLsbD b = false) := by
    intro m b hb
    rw [BitVec.toNat_ofNat, Nat.mod_eq_of_lt (by omega), show (1 : BitVec 8) = 1#8 from rfl,
      BitVec.and_one_eq_setWidth_ofBool_getLsbD, BitVec.getLsbD_ushiftRight, Nat.add_zero]
    cases m.getLsbD b <;> decide
  unfold IRQ_get_mask Irqs.masked
  rcases Nat.lt_or_ge k 8 with hlow | hhigh
  · rw [irq_port_first hlow, if_pos hlow]
    exact hbit s.pic1.mask k hlow
  · rw [irq_port_second hhigh hk, if_neg (by omega)]
    exact hbit s.pic2.mask (k - 8) (by omega)

/-! ## The start -/

theorem PIC_remap_eq (s : Irqs) : PIC_remap PIC1_VECTOR PIC2_VECTOR s =
    { s with
      pic1 := ⟨.mask, 0, PIC1_VECTOR, 4, ICW4_8086⟩
      pic2 := ⟨.mask, 0, PIC2_VECTOR, 2, ICW4_8086⟩ } := rfl

/-- The loop masks the lines it passes, all but the cascade. -/
theorem mask_loop.spec (h : Mapped s) (hn : i + n ≤ 16) :
    Mapped (mask_loop n i s) ∧ (mask_loop n i s).isr_table = s.isr_table ∧
      (mask_loop n i s).idt = s.idt ∧
      ∀ k < 16, (mask_loop n i s).masked k = (s.masked k || decide (i ≤ k ∧ k < i + n ∧ k ≠ 2)) := by
  induction n generalizing i s with
  | zero =>
    refine ⟨h, rfl, rfl, fun k hk => ?_⟩
    have hno : decide (i ≤ k ∧ k < i + 0 ∧ k ≠ 2) = false := decide_eq_false (by omega)
    rw [hno, Bool.or_false]
    rfl
  | succ n ih =>
    rw [mask_loop]
    by_cases hi : i = 2
    · rw [if_neg (by simpa using hi)]
      obtain ⟨h1, h2, h3, h4⟩ := ih (i := i + 1) h (by omega)
      refine ⟨h1, h2, h3, fun k hk => ?_⟩
      rw [h4 k hk]
      congr 1
      exact decide_eq_decide.mpr ⟨fun he => by omega, fun he => by omega⟩
    · rw [if_pos hi]
      obtain ⟨g1, g2, g3, g4⟩ := IRQ_set_mask.spec h (j := i) (by omega)
      obtain ⟨h1, h2, h3, h4⟩ := ih (i := i + 1) g1 (by omega)
      refine ⟨h1, h2.trans g2, h3.trans g3, fun k hk => ?_⟩
      rw [h4 k hk, g4 k hk, Bool.or_assoc]
      congr 1
      rw [← Bool.decide_or]
      exact decide_eq_decide.mpr ⟨fun he => by omega, fun he => by omega⟩

/-- `PIC_init` leaves two lines open, the cascade and line 15, whatever the masks were before. -/
theorem PIC_init.spec (s : Irqs) :
    Mapped (PIC_init s) ∧ (PIC_init s).isr_table = s.isr_table ∧ (PIC_init s).idt = s.idt ∧
      ∀ k < 16, (PIC_init s).masked k = false ↔ k = 2 ∨ k = 15 := by
  have hmapped : Mapped (PIC_remap PIC1_VECTOR PIC2_VECTOR s) := by
    rw [PIC_remap_eq]
    exact ⟨rfl, rfl⟩
  obtain ⟨h1, h2, h3, h4⟩ := mask_loop.spec (i := 0) (n := 15) hmapped (by omega)
  refine ⟨h1, h2, h3, fun k hk => ?_⟩
  have hopen : (PIC_remap PIC1_VECTOR PIC2_VECTOR s).masked k = false := by
    rw [PIC_remap_eq]
    unfold Irqs.masked
    simp
  rw [PIC_init, h4 k hk, hopen, Bool.false_or, decide_eq_false_iff_not]
  omega

/-! ## The gates -/

/-- The three parts of an address, put together again. -/
theorem address_parts (addr : BitVec 64) :
    (addr >>> 32).setWidth 32 ++ (addr >>> 16).setWidth 16 ++ addr.setWidth 16 = addr := by
  apply BitVec.eq_of_getLsbD_eq
  intro i hi
  simp only [BitVec.getLsbD_append, BitVec.getLsbD_setWidth, BitVec.getLsbD_ushiftRight]
  split
  · simp [*]
  · split
    · rw [show 16 + (i - 16) = i by omega]
      simp [*]
    · rw [show 32 + (i - 16 - 16) = i by omega]
      have hlt : i - 16 - 16 < 32 := by omega
      simp [hlt]

/-- The gate of a vector is present and leads to the stub of that vector. -/
def Gate (isr0 : BitVec 64) (s : Irqs) (v : Nat) : Prop :=
  (s.idt v).pres = 1 ∧ (s.idt v).address = isr0 + BitVec.ofNat 64 v * STUB_SIZE

theorem add_idt_entry.spec (isr0 : BitVec 64) (IST type DPL : BitVec 8) (v : Nat) (s : Irqs) :
    Gate isr0 (add_idt_entry isr0 v IST type DPL s) v ∧
      ∀ w, Gate isr0 s w → Gate isr0 (add_idt_entry isr0 v IST type DPL s) w := by
  have hv : Gate isr0 (add_idt_entry isr0 v IST type DPL s) v := by
    unfold Gate add_idt_entry
    simp only [Function.update_self]
    exact ⟨trivial, address_parts _⟩
  refine ⟨hv, fun w hw => ?_⟩
  by_cases hvw : w = v
  · exact hvw ▸ hv
  · unfold Gate add_idt_entry
    simp only [Function.update_of_ne hvw]
    exact hw

theorem idt_loop.spec (isr0 : BitVec 64) (n i : Nat) (s : Irqs) (h : ∀ v < i, Gate isr0 s v) :
    (∀ v < i + n, Gate isr0 (idt_loop isr0 n i s) v) ∧
      (idt_loop isr0 n i s).isr_table = s.isr_table := by
  induction n generalizing i s with
  | zero => exact ⟨h, rfl⟩
  | succ n ih =>
    obtain ⟨hi, hkeep⟩ := add_idt_entry.spec isr0 0 TYPE_INTRGATE 0 i s
    obtain ⟨h1, h2⟩ := ih (i + 1) (add_idt_entry isr0 i 0 TYPE_INTRGATE 0 s) (by
      intro v hv
      rcases Nat.lt_or_eq_of_le (Nat.le_of_lt_succ hv) with hlt | rfl
      · exact hkeep v (h v hlt)
      · exact hi)
    exact ⟨fun v hv => h1 v (by omega), h2⟩

end

/-! ## Registrations -/

/-- The state after the calls `cs`: which lines are open, which vectors have a handler, and where
the gates lead. -/
structure Lines (isr0 : BitVec 64) (s : Irqs) (cs : List Registration) : Prop where
  mapped : Mapped s
  opened : ∀ k < 16, s.masked k = false ↔ k = 2 ∨ k = 15 ∨ ∃ c ∈ cs, c.vector = 32 + k
  handlers : ∀ v < NUM_ISRS, s.handled v ↔ ∃ c ∈ cs, c.vector = v ∧ c.handler ≠ none
  gates : ∀ v < NUM_ISRS, Gate isr0 s v

section

variable {isr0 : BitVec 64} {s : Irqs} {cs : List Registration} {c : Registration}

theorem Lines.congr {s' : Irqs} (h : Lines isr0 s cs) (h1 : s'.pic1 = s.pic1) (h2 : s'.pic2 = s.pic2)
    (htable : s'.isr_table = s.isr_table) (hidt : s'.idt = s.idt) : Lines isr0 s' cs := by
  obtain ⟨pic1, pic2, table, idt, flag⟩ := s
  obtain ⟨pic1', pic2', table', idt', flag'⟩ := s'
  cases h1
  cases h2
  cases htable
  cases hidt
  exact ⟨⟨h.mapped.first, h.mapped.second⟩, h.opened, h.handlers, h.gates⟩

/-- A refused call changes neither the lines nor the handlers: its vector is out of range, or has
its handler and its open line already. -/
theorem Lines.refused (h : Lines isr0 s cs)
    (hno : (NUM_ISRS : Int) ≤ c.vector ∨ c.vector < 0 ∨ s.handled c.vector.toNat) :
    Lines isr0 s (cs ++ [c]) := by
  have hrange : (256 : Int) ≤ c.vector ∨ c.vector < 0 ∨
      ∃ c' ∈ cs, c'.vector = c.vector ∧ c'.handler ≠ none := by
    rcases hno with hhigh | hlow | hhandled
    · exact Or.inl hhigh
    · exact Or.inr (Or.inl hlow)
    · by_cases hin : 0 ≤ c.vector ∧ c.vector < 256
      · have hv : c.vector.toNat < NUM_ISRS := by
          unfold NUM_ISRS
          omega
        obtain ⟨c', hc', hvec, hhand⟩ := (h.handlers _ hv).mp hhandled
        exact Or.inr (Or.inr ⟨c', hc', by omega, hhand⟩)
      · omega
  refine ⟨h.mapped, fun k hk => ?_, fun v hv => ?_, h.gates⟩
  · rw [h.opened k hk]
    simp only [List.mem_append, List.mem_singleton, or_and_right, exists_or, exists_eq_left]
    constructor
    · rintro (h2 | h15 | hc)
      · exact Or.inl h2
      · exact Or.inr (Or.inl h15)
      · exact Or.inr (Or.inr (Or.inl hc))
    · rintro (h2 | h15 | hc | hc)
      · exact Or.inl h2
      · exact Or.inr (Or.inl h15)
      · exact Or.inr (Or.inr hc)
      · rcases hrange with hhigh | hlow | ⟨c', hc', hvec, -⟩
        · omega
        · omega
        · exact Or.inr (Or.inr ⟨c', hc', hvec.trans hc⟩)
  · rw [h.handlers v hv]
    simp only [List.mem_append, List.mem_singleton, or_and_right, exists_or, exists_eq_left]
    constructor
    · exact Or.inl
    · rintro (hc | ⟨hvec, hhand⟩)
      · exact hc
      · unfold NUM_ISRS at hv
        rcases hrange with hhigh | hlow | ⟨c', hc', hvec', hhand'⟩
        · omega
        · omega
        · exact ⟨c', hc', hvec'.trans hvec, hhand'⟩

/-- The lines after a call for the vector `v`. -/
theorem opens_line {t t' : Irqs} {v : Nat} (ht : Mapped t)
    (hrun : t' = if PIC1_VECTOR.toNat ≤ v ∧ v < PIC2_VECTOR.toNat + 8 then
      IRQ_clear_mask (BitVec.ofNat 8 (v - PIC1_VECTOR.toNat)) t else t) :
    Mapped t' ∧ t'.isr_table = t.isr_table ∧ t'.idt = t.idt ∧
      ∀ k < 16, t'.masked k = false ↔ t.masked k = false ∨ v = 32 + k := by
  have h1 : PIC1_VECTOR.toNat = 32 := rfl
  have h2 : PIC2_VECTOR.toNat = 40 := rfl
  rw [h1, h2] at hrun
  split at hrun
  · obtain ⟨g1, g2, g3, g4⟩ := IRQ_clear_mask.spec ht (j := v - 32) (by omega)
    subst hrun
    refine ⟨g1, g2, g3, fun k hk => ?_⟩
    rw [g4 k hk, Bool.and_eq_false_iff, Bool.not_eq_false', decide_eq_true_iff]
    exact or_congr_right ⟨fun he => by omega, fun he => by omega⟩
  · subst hrun
    refine ⟨ht, rfl, rfl, fun k hk => ?_⟩
    exact ⟨Or.inl, fun hor => hor.resolve_right (by omega)⟩

/-- One call of `register_interrupt`. -/
theorem register_interrupt.lines (h : Lines isr0 s cs) :
    Lines isr0 (register_interrupt isr0 c s) (cs ++ [c]) := by
  unfold register_interrupt
  dsimp only
  split
  · rename_i hno
    exact (h.refused hno).congr rfl rfl rfl rfl
  · rename_i hyes
    simp only [not_or, not_not] at hyes
    obtain ⟨hhigh, hlow, hfree⟩ := hyes
    have hvec : c.vector = c.vector.toNat := by omega
    have hv : c.vector.toNat < NUM_ISRS := by omega
    have hnone : (s.isr_table c.vector.toNat).handler = none := hfree
    generalize c.vector.toNat = v at hvec hv hnone ⊢
    -- the two tables, before the line is opened
    generalize hmid : ({ add_idt_entry isr0 v c.IST c.type c.DPL { s with interrupts := false } with
      isr_table := Function.update
        (add_idt_entry isr0 v c.IST c.type c.DPL { s with interrupts := false }).isr_table v
        ⟨c.arg, c.handler⟩ } : Irqs) = t
    have htable : t.isr_table = Function.update s.isr_table v ⟨c.arg, c.handler⟩ := by
      rw [← hmid]
      rfl
    have hlines : ∀ k, t.masked k = s.masked k := by
      intro k
      rw [← hmid]
      rfl
    have hmapped : Mapped t := by
      rw [← hmid]
      exact ⟨h.mapped.first, h.mapped.second⟩
    have hgates : ∀ w < NUM_ISRS, Gate isr0 t w := by
      intro w hw
      rw [← hmid]
      exact (add_idt_entry.spec isr0 c.IST c.type c.DPL v { s with interrupts := false }).2 w
        (h.gates w hw)
    generalize hrun : (if PIC1_VECTOR.toNat ≤ v ∧ v < PIC2_VECTOR.toNat + 8 then
      IRQ_clear_mask (BitVec.ofNat 8 (v - PIC1_VECTOR.toNat)) t else t) = t'
    obtain ⟨g1, g2, g3, g4⟩ := opens_line hmapped hrun.symm
    have hend : Lines isr0 t' (cs ++ [c]) := by
      refine ⟨g1, fun k hk => ?_, fun w hw => ?_, fun w hw => ?_⟩
      · rw [g4 k hk, hlines, h.opened k hk]
        simp only [List.mem_append, List.mem_singleton, or_and_right, exists_or, exists_eq_left]
        have hk' : v = 32 + k ↔ c.vector = 32 + (k : Int) := by omega
        rw [hk', or_assoc, or_assoc]
      · unfold Irqs.handled
        rw [g2, htable]
        simp only [List.mem_append, List.mem_singleton, or_and_right, exists_or, exists_eq_left]
        by_cases hwv : w = v
        · subst hwv
          have hnot : ¬ s.handled w := fun hh => hh hnone
          rw [Function.update_self, ← h.handlers w hw]
          simp [hnot, hvec]
        · have hne : c.vector ≠ w := by omega
          rw [Function.update_of_ne hwv]
          simp only [hne, false_and, or_false]
          exact h.handlers w hw
      · unfold Gate
        rw [g3]
        exact hgates w hw
    exact hend.congr rfl rfl rfl rfl

/-- The two handlers that `interrupts_init` registers itself. -/
def init_registrations (code : IsrCode) : List Registration :=
  [⟨8, 1, TYPE_INTRGATE, 0, some code.ISR8_double_fault, none⟩,
    ⟨13, 2, TYPE_INTRGATE, 0, some code.ISR13_general_protection, none⟩]

theorem interrupts_init.lines (code : IsrCode) (pic1 pic2 : Pic) :
    Lines code.isr0 (interrupts_init code (.boot pic1 pic2)) (init_registrations code) := by
  obtain ⟨hgates, htable⟩ := idt_loop.spec code.isr0 NUM_ISRS 0 (.boot pic1 pic2) nofun
  obtain ⟨g1, g2, g3, g4⟩ := PIC_init.spec (idt_init code.isr0 (.boot pic1 pic2))
  have hstart : Lines code.isr0 (PIC_init (idt_init code.isr0 (.boot pic1 pic2))) [] := by
    refine ⟨g1, fun k hk => ?_, fun v hv => ?_, fun v hv => ?_⟩
    · rw [g4 k hk]
      simp
    · unfold Irqs.handled
      rw [g2, idt_init, htable]
      simp [Irqs.boot]
    · unfold Gate
      rw [g3]
      exact hgates v (by omega)
  have hboot : { Irqs.boot pic1 pic2 with interrupts := false } = .boot pic1 pic2 := rfl
  unfold interrupts_init
  rw [hboot]
  generalize PIC_init (idt_init code.isr0 (.boot pic1 pic2)) = s at hstart ⊢
  have hflag : Lines code.isr0 { s with interrupts := true } [] := hstart.congr rfl rfl rfl rfl
  exact register_interrupt.lines (register_interrupt.lines hflag)

/-- Every run of calls. -/
theorem after.lines (code : IsrCode) (pic1 pic2 : Pic) (cs : List Registration) :
    Lines code.isr0 (.after code pic1 pic2 cs) (init_registrations code ++ cs) := by
  induction cs using List.reverseRecOn with
  | nil =>
    rw [List.append_nil]
    exact interrupts_init.lines code pic1 pic2
  | append_singleton cs c ih =>
    unfold Irqs.after at ih ⊢
    rw [List.foldl_concat, ← List.append_assoc]
    exact register_interrupt.lines ih

/-! ## Interrupts that arrive -/

/-- An interrupt arrives from every open line but the cascade, under the vector of the line. -/
theorem Mapped.delivers {k : Nat} (h : Mapped s) (hk : k < 16) (h2 : s.masked 2 = false) :
    s.delivers k = if k = 2 ∨ s.masked k then none else some (BitVec.ofNat 8 (32 + k)) := by
  have h2 : s.pic1.mask.getLsbD 2 = false := h2
  unfold Irqs.delivers Irqs.masked
  rw [h.first, h.second]
  dsimp only
  rw [show ((2 : BitVec 8) &&& 7).toNat = 2 from rfl, h2]
  by_cases hlow : k < 8
  · have hbit : ((4 : BitVec 8).getLsbD k = true) ↔ k = 2 := by
      interval_cases k <;> decide
    have hvec : (PIC1_VECTOR &&& 0xF8) + BitVec.ofNat 8 k = BitVec.ofNat 8 (32 + k) := by
      rw [BitVec.ofNat_add]
      rfl
    simp only [hlow, if_true, hbit, hvec]
  · have hne : k ≠ 2 := by omega
    have hvec : (PIC2_VECTOR &&& 0xF8) + BitVec.ofNat 8 (k - 8) = BitVec.ofNat 8 (32 + k) := by
      rw [show 32 + k = 40 + (k - 8) by omega, BitVec.ofNat_add]
      rfl
    simp only [hlow, hne, if_false, hvec, Bool.false_eq_true, or_false, false_or]

/-- After any calls, the lines that are open are those with a handler, and the cascade, exactly
when line 15 was given a handler and no line was given a null handler only. -/
theorem open_lines_are_handled_iff (code : IsrCode) (pic1 pic2 : Pic) (cs : List Registration) :
    ((∀ k < 16, IRQ_get_mask (BitVec.ofNat 8 k) (.after code pic1 pic2 cs) = 0 ↔
        k = 2 ∨ (Irqs.after code pic1 pic2 cs).handled (32 + k)) ∧
      ∀ k < 16, ∀ v err rsp, (Irqs.after code pic1 pic2 cs).delivers k = some v →
        c_isr_handler v err rsp (.after code pic1 pic2 cs) ≠ none) ↔
    (∃ c ∈ cs, c.vector = 47 ∧ c.handler ≠ none) ∧
      ∀ k : Nat, k < 16 → k ≠ 2 → (∃ c ∈ cs, c.vector = 32 + k) →
        ∃ c ∈ cs, c.vector = 32 + k ∧ c.handler ≠ none := by
  have hlines := after.lines code pic1 pic2 cs
  generalize Irqs.after code pic1 pic2 cs = s at hlines ⊢
  have hopen : ∀ k < 16, IRQ_get_mask (BitVec.ofNat 8 k) s = 0 ↔
      k = 2 ∨ k = 15 ∨ ∃ c ∈ cs, c.vector = 32 + k := by
    intro k hk
    rw [IRQ_get_mask.spec s hk, hlines.opened k hk]
    have h8 : (8 : Int) ≠ 32 + k := by omega
    have h13 : (13 : Int) ≠ 32 + k := by omega
    simp [init_registrations, h8, h13]
  have hhandled : ∀ k < 16, s.handled (32 + k) ↔ ∃ c ∈ cs, c.vector = 32 + k ∧ c.handler ≠ none := by
    intro k hk
    have hv : 32 + k < NUM_ISRS := by
      unfold NUM_ISRS
      omega
    rw [hlines.handlers (32 + k) hv]
    have h8 : (8 : Int) ≠ 32 + k := by omega
    have h13 : (13 : Int) ≠ 32 + k := by omega
    simp [init_registrations, h8, h13]
  constructor
  · rintro ⟨hiff, -⟩
    have hmust : ∀ k : Nat, k < 16 → k ≠ 2 → (k = 15 ∨ ∃ c ∈ cs, c.vector = 32 + k) →
        ∃ c ∈ cs, c.vector = 32 + k ∧ c.handler ≠ none := by
      intro k hk hne hor
      have hmask := (hopen k hk).mpr (Or.inr hor)
      exact (hhandled k hk).mp (((hiff k hk).mp hmask).resolve_left hne)
    exact ⟨hmust 15 (by omega) (by omega) (Or.inl rfl), fun k hk hne hc => hmust k hk hne (Or.inr hc)⟩
  · rintro ⟨h15, hall⟩
    have hiff : ∀ k < 16, IRQ_get_mask (BitVec.ofNat 8 k) s = 0 ↔ k = 2 ∨ s.handled (32 + k) := by
      intro k hk
      rw [hopen k hk, hhandled k hk]
      constructor
      · rintro (rfl | rfl | hc)
        · exact Or.inl rfl
        · exact Or.inr h15
        · by_cases hne : k = 2
          · exact Or.inl hne
          · exact Or.inr (hall k hk hne hc)
      · rintro (rfl | ⟨c, hc, hvec, -⟩)
        · exact Or.inl rfl
        · exact Or.inr (Or.inr ⟨c, hc, hvec⟩)
    refine ⟨hiff, fun k hk v err rsp hdel hhalt => ?_⟩
    have h2 : s.masked 2 = false := (hlines.opened 2 (by omega)).mpr (Or.inl rfl)
    rw [hlines.mapped.delivers hk h2, Option.ite_none_left_eq_some] at hdel
    obtain ⟨hno, hv⟩ := hdel
    simp only [not_or, Bool.not_eq_true] at hno
    have hh := ((hiff k hk).mp ((IRQ_get_mask.spec s hk).mpr hno.2)).resolve_left hno.1
    have hvec : v.toNat = 32 + k := by
      rw [← Option.some.inj hv, BitVec.toNat_ofNat]
      omega
    obtain ⟨handler, hhandler⟩ := Option.ne_none_iff_exists'.mp hh
    rw [c_isr_handler, hvec, hhandler] at hhalt
    cases hhalt

end

/-- All lines are masked before `interrupts_init`. After it line 15 is open, and an interrupt on it
finds no handler and halts the processor. -/
theorem line_15_is_open_unhandled :
    let s := Irqs.after ⟨0, 1, 2⟩ ⟨.mask, 0xFF, 0, 4, 1⟩ ⟨.mask, 0xFF, 0, 2, 1⟩ []
    IRQ_get_mask 15 s = 0 ∧ ¬ s.handled 47 ∧ s.delivers 15 = some 47 ∧ c_isr_handler 47 0 0 s = none := by
  have hlines := after.lines ⟨0, 1, 2⟩ ⟨.mask, 0xFF, 0, 4, 1⟩ ⟨.mask, 0xFF, 0, 2, 1⟩ []
  generalize Irqs.after ⟨0, 1, 2⟩ ⟨.mask, 0xFF, 0, 4, 1⟩ ⟨.mask, 0xFF, 0, 2, 1⟩ [] = s at hlines ⊢
  have h2 : s.masked 2 = false := (hlines.opened 2 (by omega)).mpr (Or.inl rfl)
  have h15 : s.masked 15 = false := (hlines.opened 15 (by omega)).mpr (Or.inr (Or.inl rfl))
  have hno : ¬ s.handled 47 := by
    rw [hlines.handlers 47 (by decide)]
    simp [init_registrations]
  refine ⟨(IRQ_get_mask.spec s (k := 15) (by omega)).mpr h15, hno, ?_, ?_⟩
  · rw [hlines.mapped.delivers (by omega) h2, h15]
    rfl
  · have hnone : (s.isr_table 47).handler = none := not_not.mp hno
    rw [c_isr_handler, show (47 : BitVec 8).toNat = 47 from rfl, hnone]

end JamsOs
