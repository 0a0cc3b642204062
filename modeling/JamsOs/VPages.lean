-- The page tables (`vpages.c`): the walk over the four levels, reserving pages on
-- demand, backing them in the page fault handler, the kernel heap pages, and the
-- making, cloning and tearing down of user address spaces.
--
-- A pointer to a table entry is the frame of the table and the index in it, and `none`
-- stands for `INVALID_FRAME_ADDR`. A status is `true` for the return value 0 and `false`
-- for -1. A function that may stop the CPU with `hlt` gives `none` when it does. `printk`
-- changes none of this state and is left out.
import JamsOs.Frames

namespace JamsOs

open Words

/-! ## Layout -/

def VA_KHEAP_BASE : Word := 0x010000000000
def VA_USER_BASE : Word := 0x100000000000
def VA_USTACK_BASE : Word := 0x110000000000

def PAGE_MASK : Word := ~~~(PAGE_SIZE - 1)

/-- `(va >> shift) & 0x1FF`. -/
def table_index (shift : Nat) (va : Word) : Fin 512 :=
  ⟨va.toNat / 2 ^ shift % 512, Nat.mod_lt _ (by decide)⟩

def PML4_INDEX (va : Word) : Fin 512 := table_index 39 va
def PDP_INDEX (va : Word) : Fin 512 := table_index 30 va
def PD_INDEX (va : Word) : Fin 512 := table_index 21 va
def PT_INDEX (va : Word) : Fin 512 := table_index 12 va

/-! ## Entries

The four structs `p4_entry` to `p1_entry` have the same layout. Bit 9 is `allocated` in
the upper three and `demand` in `p1_entry`, and the 40 bits from bit 12 on are `p3_addr`,
`p2_addr`, `p1_addr` and `phys_addr`. -/

def present (w : Word) : Bool := getFlag w 0
def rw (w : Word) : Bool := getFlag w 1
def us (w : Word) : Bool := getFlag w 2
def big_page (w : Word) : Bool := getFlag w 7
def allocated (w : Word) : Bool := getFlag w 9
def demand (w : Word) : Bool := getFlag w 9

/-- The frame number in an entry. -/
def pfn (w : Word) : Nat := (getBits w 12 40).toNat

/-- The entry with its frame number replaced. The field keeps 40 bits. -/
def set_pfn (w : Word) (f : Nat) : Word := setBits w 12 (BitVec.ofNat 40 f)

/-- The table entry at `tables[index]`. -/
abbrev EntryPtr := Nat × Fin 512

def Machine.entry (s : Machine) (e : EntryPtr) : Word := s.mem e.1 e.2

def Machine.set_entry (s : Machine) (e : EntryPtr) (w : Word) : Machine :=
  { s with mem := setWord s.mem e.1 e.2 w }

/-- `memset(frame, 0, PAGE_SIZE)`. -/
def Machine.zero_frame (s : Machine) (f : Nat) : Machine :=
  { s with mem := Function.update s.mem f fun _ => 0 }

def phys_to_pfn (p : Word) : Nat := frameOf p
def pfn_to_phys (f : Nat) : Word := frameAddr f

def CLI (s : Machine) : Machine := { s with interrupts := false }

/-- `if (ints_enabled) STI();` -/
def restore_interrupts (ints_enabled : Bool) (s : Machine) : Machine :=
  if ints_enabled then { s with interrupts := true } else s

/-! ## The walk -/

/-- The entry after it was linked to a new table. A `p4_entry` has no `big_page` field to
clear. -/
def link_entry (has_big : Bool) (w frame : Word) (user : Bool) : Word :=
  let w := set_pfn w (phys_to_pfn frame)
  let w := setFlag w 0 true
  let w := setFlag w 1 true
  let w := setFlag w 2 user
  let w := if has_big then setFlag w 7 false else w
  setFlag w 9 true

/-- The table that an entry points to, with a new zeroed table when it has none. -/
def get_or_alloc_entry (has_big : Bool) (e : EntryPtr) (user : Bool) (s : Machine) :
    Option Nat × Machine :=
  if !present (s.entry e) then
    let (frame, s) := MMU_pf_alloc s
    if frame = INVALID_FRAME_ADDR then (none, s)
    else
      let s := s.zero_frame (phys_to_pfn frame)
      let s := s.set_entry e (link_entry has_big (s.entry e) frame user)
      (some (pfn (s.entry e)), s)
  else (some (pfn (s.entry e)), s)

def get_or_alloc_PDPT_entry := get_or_alloc_entry false
def get_or_alloc_PD_entry := get_or_alloc_entry true
def get_or_alloc_PT_entry := get_or_alloc_entry true

/-- One level of the walk: a table entry that maps a huge page ends it, and a missing table
is made only in `CREATE_MODE`. -/
def travel_level (has_big : Bool)
    (get_or_alloc : EntryPtr → Bool → Machine → Option Nat × Machine) (create : Bool)
    (e : EntryPtr) (user : Bool) (s : Machine) : Option Nat × Machine :=
  if has_big && present (s.entry e) && big_page (s.entry e) then (none, s)
  else if !present (s.entry e) then
    if create then get_or_alloc e user s else (none, s)
  else get_or_alloc e user s

def travel_pagetable_in (cr3 va : Word) (create : Bool) (s : Machine) :
    Option EntryPtr × Machine :=
  let is_user := decide (VA_USER_BASE ≤ va)
  match travel_level false get_or_alloc_PDPT_entry create (frameOf cr3, PML4_INDEX va) is_user s with
  | (none, s) => (none, s)
  | (some pdpt, s) =>
    match travel_level true get_or_alloc_PD_entry create (pdpt, PDP_INDEX va) is_user s with
    | (none, s) => (none, s)
    | (some pd, s) =>
      match travel_level true get_or_alloc_PT_entry create (pd, PD_INDEX va) is_user s with
      | (none, s) => (none, s)
      | (some pt, s) => (some (pt, PT_INDEX va), s)

def travel_pagetable (va : Word) (create : Bool) (s : Machine) : Option EntryPtr × Machine :=
  travel_pagetable_in s.cr3 va create s

/-! ## Reserving and backing pages -/

/-- A page-table entry after it was reserved. -/
def reserved_entry (w : Word) : Word := set_pfn (setFlag (setFlag w 9 true) 0 false) 0

def demand_page_in (cr3 va : Word) (s : Machine) : Bool × Machine :=
  match travel_pagetable_in cr3 va true s with
  | (none, s) => (false, s)
  | (some p1, s) =>
    if demand (s.entry p1) || present (s.entry p1) then (false, s)
    else (true, s.set_entry p1 (reserved_entry (s.entry p1)))

def demand_page (va : Word) (s : Machine) : Bool × Machine := demand_page_in s.cr3 va s

/-- The loop of `reserve_pages_at` over the pages `i`, ..., `i + n - 1`. -/
def reserve_loop (cr3 base : Word) (i : Nat) : Nat → Machine → Bool × Machine
  | 0, s => (true, s)
  | n + 1, s =>
    match demand_page_in cr3 (base + BitVec.ofNat 64 i * PAGE_SIZE) s with
    | (true, s) => reserve_loop cr3 base (i + 1) n s
    | (false, s) => (false, s)

/-- The number of pages is an `int`: the quotient keeps its low 32 bits, and a negative
number makes no turn of the loop. The result is the base, or 0 for NULL. -/
def reserve_pages_at (cr3 vaddr size : Word) (s : Machine) : Word × Machine :=
  let base := vaddr &&& PAGE_MASK
  let last := (vaddr + size + PAGE_SIZE - 1) &&& PAGE_MASK
  let num_pages := (((last - base) / PAGE_SIZE).setWidth 32).toInt
  match reserve_loop cr3 base 0 num_pages.toNat s with
  | (true, s) => (base, s)
  | (false, s) => (0, s)

/-- A page-table entry after it got its frame. -/
def backed_entry (w frame va : Word) : Word :=
  let w := set_pfn w (phys_to_pfn frame)
  let w := setFlag w 0 true
  let w := setFlag w 1 true
  let w := setFlag w 2 (decide (VA_USER_BASE ≤ va))
  setFlag w 9 false

def make_page_present (p1 : Option EntryPtr) (va : Word) (s : Machine) : Bool × Machine :=
  match p1 with
  | none => (false, s)
  | some e =>
    if present (s.entry e) then (true, s)
    else if !demand (s.entry e) then (false, s)
    else
      let (frame, s) := MMU_pf_alloc s
      if frame = INVALID_FRAME_ADDR then (false, s)
      else
        let s := s.zero_frame (phys_to_pfn frame)
        (true, s.set_entry e (backed_entry (s.entry e) frame va))

/-! ## Writing to a range of another address space -/

/-- The memory with the bytes `off`, ..., `off + n - 1` of frame `f` replaced. -/
def write_bytes (mem : Nat → Frame) (f off n : Nat) (src : Nat → BitVec 8) : Nat → Frame :=
  Function.update mem f fun j =>
    patch (fun k => if off ≤ 8 * j.val + k ∧ 8 * j.val + k < off + n then
      some (src (8 * j.val + k - off)) else none) (mem f j) 8

/-- The loop of `write_user_range_as`, one page or part of a page at a time. -/
def write_user_loop (cr3 dst : Word) (src : Nat → BitVec 8) (len done : Nat) (s : Machine) :
    Bool × Machine :=
  if h : done < len then
    let va := dst + BitVec.ofNat 64 done
    let page_offset := va.toNat % 4096
    let chunk := min (4096 - page_offset) (len - done)
    match travel_pagetable_in cr3 va false s with
    | (none, s) => (false, s)
    | (some p1, s) =>
      match make_page_present (some p1) va s with
      | (false, s) => (false, s)
      | (true, s) =>
        have : len - (done + chunk) < len - done := by
          have : va.toNat % 4096 < 4096 := Nat.mod_lt _ (by decide)
          omega
        let bytes := fun k => src (done + k)
        write_user_loop cr3 dst src len (done + chunk)
          { s with mem := write_bytes s.mem (pfn (s.entry p1)) page_offset chunk bytes }
  else (true, s)
termination_by len - done

/-- `src` is the source buffer, or `none` for NULL. -/
def write_user_range_as (cr3 dst : Word) (src : Option (Nat → BitVec 8)) (len : Word) (zero : Bool)
    (s : Machine) : Bool × Machine :=
  if !zero && src.isNone && len ≠ 0 then (false, s)
  else
    let bytes := if zero then fun _ => 0 else src.getD fun _ => 0
    write_user_loop cr3 dst bytes len.toNat 0 s

def MMU_alloc_at_as (cr3 vaddr size : Word) (s : Machine) : Word × Machine :=
  let ints_enabled := s.interrupts
  let (base, s) := reserve_pages_at cr3 vaddr size (CLI s)
  (base, restore_interrupts ints_enabled s)

def MMU_copy_to_user_as (cr3 dst : Word) (src : Option (Nat → BitVec 8)) (len : Word)
    (s : Machine) : Bool × Machine :=
  let ints_enabled := s.interrupts
  let (ret, s) := write_user_range_as cr3 dst src len false (CLI s)
  (ret, restore_interrupts ints_enabled s)

def MMU_zero_user_as (cr3 dst len : Word) (s : Machine) : Bool × Machine :=
  let ints_enabled := s.interrupts
  let (ret, s) := write_user_range_as cr3 dst none len true (CLI s)
  (ret, restore_interrupts ints_enabled s)

/-! ## The kernel heap pages -/

def MMU_alloc_page (s : Machine) : Word × Machine :=
  let ints_enabled := s.interrupts
  let va := s.kernel_va
  match demand_page va (CLI s) with
  | (false, s) => (0, restore_interrupts ints_enabled s)
  | (true, s) =>
    (va, restore_interrupts ints_enabled { s with kernel_va := s.kernel_va + PAGE_SIZE })

/-- The loop of `MMU_alloc_pages`, under the page table in CR3. -/
def alloc_pages_loop (base : Word) (i : Nat) : Nat → Machine → Bool × Machine
  | 0, s => (true, s)
  | n + 1, s =>
    match demand_page (base + BitVec.ofNat 64 i * PAGE_SIZE) s with
    | (true, s) => alloc_pages_loop base (i + 1) n s
    | (false, s) => (false, s)

/-- `num` is an `int`, so a negative number reserves nothing and moves `kernel_va` back. -/
def MMU_alloc_pages (num : BitVec 32) (s : Machine) : Word × Machine :=
  let ints_enabled := s.interrupts
  let base := s.kernel_va
  match alloc_pages_loop base 0 num.toInt.toNat (CLI s) with
  | (false, s) => (0, restore_interrupts ints_enabled s)
  | (true, s) =>
    (base, restore_interrupts ints_enabled
      { s with kernel_va := s.kernel_va + num.signExtend 64 * PAGE_SIZE })

/-- All 512 entries are 0. -/
def page_table_empty (t : Frame) : Bool := (List.finRange 512).all fun i => t i == 0

def free_empty_tables (va : Word) (s : Machine) : Machine :=
  let e4 := (frameOf s.cr3, PML4_INDEX va)
  if !present (s.entry e4) || !allocated (s.entry e4) then s
  else
    let pdpt := pfn (s.entry e4)
    let e3 := (pdpt, PDP_INDEX va)
    if !present (s.entry e3) || big_page (s.entry e3) || !allocated (s.entry e3) then s
    else
      let pd := pfn (s.entry e3)
      let e2 := (pd, PD_INDEX va)
      if !present (s.entry e2) || big_page (s.entry e2) || !allocated (s.entry e2) then s
      else
        let pt := pfn (s.entry e2)
        let s := if page_table_empty (s.mem pt) then
          (MMU_pf_free (pfn_to_phys pt) s).set_entry e2 0 else s
        let s := if page_table_empty (s.mem pd) then
          (MMU_pf_free (pfn_to_phys pd) s).set_entry e3 0 else s
        if page_table_empty (s.mem pdpt) then
          (MMU_pf_free (pfn_to_phys pdpt) s).set_entry e4 0 else s

def MMU_free_page (vaddr : Word) (s : Machine) : Machine :=
  let va := vaddr &&& PAGE_MASK
  match travel_pagetable va false s with
  | (none, s) => s
  | (some p1, s) =>
    let s := if present (s.entry p1) then MMU_pf_free (pfn_to_phys (pfn (s.entry p1))) s else s
    free_empty_tables va (s.set_entry p1 0)

def free_pages_loop (base : Word) (i : Nat) : Nat → Machine → Machine
  | 0, s => s
  | n + 1, s => free_pages_loop base (i + 1) n (MMU_free_page (base + BitVec.ofNat 64 i * PAGE_SIZE) s)

def MMU_free_pages (vaddr : Word) (num : BitVec 32) (s : Machine) : Machine :=
  free_pages_loop (vaddr &&& PAGE_MASK) 0 num.toInt.toNat s

/-! ## Making an address space -/

/-- The P4 entries of user space: `for (i = PML4_INDEX(VA_USER_BASE); i < 512; i++)`. -/
def user_slots : List (Fin 512) := (List.finRange 512).filter (PML4_INDEX VA_USER_BASE ≤ ·)

/-- The frame of the static table `ptable_p4`, whose address `MMU_init` keeps in
`kernel_cr3`. -/
def Machine.ptable_p4 (s : Machine) : Nat := frameOf s.kernel_cr3

/-- An entry of the static table `ptable_p3_identity`: a huge page of 1 GB. -/
def identity_entry (i : Fin 512) : Word :=
  let phys1gb : Word := BitVec.ofNat 64 (i.val * 2 ^ 30)
  let w := setFlag (setFlag (setFlag 0 0 true) 1 true) 2 false
  setFlag (set_pfn (setFlag w 7 true) (phys_to_pfn phys1gb)) 9 true

/-- The static tables `ptable_p4` and `ptable_p3_identity` are the frames `p4` and `p3`. -/
def make_identity_map (p4 p3 : Nat) (s : Machine) : Machine :=
  let new_p4 : Frame := fun i => if i = 0 then link_entry false 0 (pfn_to_phys p3) false else 0
  { s with
    mem := Function.update (Function.update s.mem p4 new_p4) p3 identity_entry
    kernel_cr3 := pfn_to_phys p4
    cr3 := pfn_to_phys p4 }

def MMU_init (p4 p3 : Nat) (s : Machine) : Machine :=
  { make_identity_map p4 p3 s with kernel_va := VA_KHEAP_BASE }

/-- The new P4 is zeroed and then gets the entries of the kernel below user space. -/
def MMU_create_user_p4 (s : Machine) : Word × Machine :=
  let (p4, s) := MMU_pf_alloc s
  if p4 = INVALID_FRAME_ADDR then (0, s)
  else
    let s := s.zero_frame (frameOf p4)
    let new_p4 : Frame := fun i =>
      if i < PML4_INDEX VA_USER_BASE then s.mem s.ptable_p4 i else s.mem (frameOf p4) i
    (p4, { s with mem := Function.update s.mem (frameOf p4) new_p4 })

def MMU_get_kernel_p4 (s : Machine) : Word := s.kernel_cr3
def MMU_current_p4 (s : Machine) : Word := s.cr3
def MMU_switch_p4 (cr3 : Word) (s : Machine) : Machine := { s with cr3 := cr3 }

/-! ## Tearing down an address space -/

/-- One turn of the loop of `destroy_userspace_PT`. -/
def destroy_page (pt : Nat) (s : Machine) (i : Fin 512) : Machine :=
  if !present (s.mem pt i) && !demand (s.mem pt i) then s
  else
    let s := if present (s.mem pt i) then MMU_pf_free (pfn_to_phys (pfn (s.mem pt i))) s else s
    s.set_entry (pt, i) 0

def destroy_userspace_PT (pt : Nat) (s : Machine) : Option Machine :=
  some ((List.finRange 512).foldl (destroy_page pt) s)

/-- One turn of the loops over a table of tables: the table below is emptied and freed, and
then the entry is cleared. -/
def destroy_table (has_big : Bool) (destroy_below : Nat → Machine → Option Machine) (table : Nat)
    (s : Machine) (i : Fin 512) : Option Machine :=
  if !present (s.mem table i) then some s
  else if has_big && big_page (s.mem table i) then none
  else do
    let below := pfn (s.mem table i)
    let s ← destroy_below below s
    some ((MMU_pf_free (pfn_to_phys below) s).set_entry (table, i) 0)

def destroy_userspace_PD (pd : Nat) (s : Machine) : Option Machine :=
  (List.finRange 512).foldlM (destroy_table true destroy_userspace_PT pd) s

def destroy_userspace_PDPT (pdpt : Nat) (s : Machine) : Option Machine :=
  (List.finRange 512).foldlM (destroy_table true destroy_userspace_PD pdpt) s

def MMU_destroy_userspace (cr3 : Word) (s : Machine) : Option Machine :=
  let ints_enabled := s.interrupts
  let s := CLI s
  if cr3 &&& PAGE_MASK = 0 then some (restore_interrupts ints_enabled s)
  else if cr3 &&& PAGE_MASK = s.kernel_cr3 &&& PAGE_MASK then
    some (restore_interrupts ints_enabled s)
  else if cr3 &&& PAGE_MASK = s.cr3 &&& PAGE_MASK then
    some (restore_interrupts ints_enabled s)
  else do
    let p4_phys := cr3 &&& PAGE_MASK
    let s ← user_slots.foldlM (destroy_table false destroy_userspace_PDPT (frameOf p4_phys)) s
    some (restore_interrupts ints_enabled (MMU_pf_free p4_phys s))

/-! ## Cloning an address space -/

/-- A loop over the entries of a table that stops at the first failure. -/
def entries_loop (body : Fin 512 → Machine → Bool × Machine) :
    List (Fin 512) → Machine → Bool × Machine
  | [], s => (true, s)
  | i :: is, s =>
    match body i s with
    | (true, s) => entries_loop body is s
    | (false, s) => (false, s)

/-- One turn of the loop of `clone_userspace_PT`. -/
def clone_page (dst src : Nat) (i : Fin 512) (s : Machine) : Bool × Machine :=
  if !present (s.mem src i) && !demand (s.mem src i) then (true, s)
  else
    let s := s.set_entry (dst, i) (s.mem src i)
    if present (s.mem src i) then
      let (new_frame, s) := MMU_pf_alloc s
      if new_frame = INVALID_FRAME_ADDR then (false, s.set_entry (dst, i) 0)
      else
        let s := { s with
          mem := Function.update s.mem (frameOf new_frame) (s.mem (pfn (s.mem src i))) }
        (true, s.set_entry (dst, i) (set_pfn (s.mem dst i) (phys_to_pfn new_frame)))
    else (true, s)

def clone_userspace_PT (dst src : Nat) (s : Machine) : Bool × Machine :=
  entries_loop (clone_page dst src) (List.finRange 512) s

/-- One turn of the loops over a table of tables: the new table is linked before it is
filled. -/
def clone_table (has_big : Bool) (clone_below : Nat → Nat → Machine → Bool × Machine)
    (dst src : Nat) (i : Fin 512) (s : Machine) : Bool × Machine :=
  if !present (s.mem src i) then (true, s)
  else if has_big && big_page (s.mem src i) then (false, s)
  else
    let (frame, s) := MMU_pf_alloc s
    if frame = INVALID_FRAME_ADDR then (false, s)
    else
      let s := s.zero_frame (frameOf frame)
      let s := s.set_entry (dst, i) (set_pfn (s.mem src i) (phys_to_pfn frame))
      clone_below (frameOf frame) (pfn (s.mem src i)) s

def clone_userspace_PD (dst src : Nat) (s : Machine) : Bool × Machine :=
  entries_loop (clone_table true clone_userspace_PT dst src) (List.finRange 512) s

def clone_userspace_PDPT (dst src : Nat) (s : Machine) : Bool × Machine :=
  entries_loop (clone_table true clone_userspace_PD dst src) (List.finRange 512) s

/-- The result is the CR3 value of the child, or 0. -/
def MMU_clone_userspace (cr3 : Word) (s : Machine) : Option (Word × Machine) :=
  let ints_enabled := s.interrupts
  let s := CLI s
  if cr3 &&& PAGE_MASK = 0 ∨ cr3 &&& PAGE_MASK = s.kernel_cr3 &&& PAGE_MASK then
    some (0, restore_interrupts ints_enabled s)
  else
    let (child_cr3, s) := MMU_create_user_p4 s
    if child_cr3 = 0 then some (0, restore_interrupts ints_enabled s)
    else
      match entries_loop (clone_table false clone_userspace_PDPT (frameOf child_cr3) (frameOf cr3))
          user_slots s with
      | (true, s) => some (child_cr3, restore_interrupts ints_enabled s)
      | (false, s) => do
        let s ← MMU_destroy_userspace child_cr3 s
        some (0, restore_interrupts ints_enabled s)

/-! ## The page fault handler -/

/-- `fault_va` is the value of CR2. -/
def ISR14_PAGE_FAULT_HANDLER (fault_va : Word) (s : Machine) : Option Machine :=
  match travel_pagetable fault_va false s with
  | (none, _) => none
  | (some p1, s) =>
    if demand (s.entry p1) && !present (s.entry p1) then
      match make_page_present (some p1) fault_va s with
      | (true, s) => some s
      | (false, _) => none
    else none

end JamsOs
