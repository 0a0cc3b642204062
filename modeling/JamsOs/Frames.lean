-- The physical memory of the machine and its frame allocator (`frames.c`): the
-- table of usable regions, the list of freed frames that is kept inside the frames
-- themselves, and the three functions on them.
import Mathlib.Logic.Function.Basic
import JamsOs.Words

namespace JamsOs

/-- A `uint64_t`. -/
abbrev Word := BitVec 64

instance Word.instLawfulBEq : LawfulBEq Word := inferInstance

/-- The 4096 bytes of one frame, as 512 little-endian words. -/
abbrev Frame := Fin 512 → Word

instance Frame.instNeZero : NeZero 512 := ⟨by decide⟩

def PAGE_SIZE : Word := 4096

def INVALID_FRAME_ADDR : Word := 0xDEADBEEF

/-- `struct mem_region`. -/
structure MemRegion where
  addr : Word
  size : Word
  valid : Bool
  deriving DecidableEq, Repr

/-- The state that the memory code reads and writes: the physical memory by frame
number, the static variables of `frames.c` and `vpages.c`, the register CR3, and the
interrupt flag of the CPU. -/
structure Machine where
  mem : Nat → Frame
  usable_regions : List MemRegion
  free_frames : Word
  kernel_cr3 : Word
  kernel_va : Word
  cr3 : Word
  interrupts : Bool

/-! ## Memory access

The first 512 GB of physical memory are mapped at the same virtual addresses, so the
kernel reads and writes a frame at its physical address. -/

/-- The frame that holds the byte at a physical address. -/
def frameOf (p : Word) : Nat := p.toNat / 4096

/-- The word of its frame that stands at an 8-byte aligned address. -/
def wordOf (p : Word) : Fin 512 := ⟨p.toNat % 4096 / 8, by omega⟩

/-- The physical address of a frame. -/
def frameAddr (f : Nat) : Word := BitVec.ofNat 64 (f * 4096)

/-- The memory with word `i` of frame `f` replaced. -/
def setWord (mem : Nat → Frame) (f : Nat) (i : Fin 512) (v : Word) : Nat → Frame :=
  Function.update mem f (Function.update (mem f) i v)

def Machine.load (s : Machine) (p : Word) : Word := s.mem (frameOf p) (wordOf p)

def Machine.store (s : Machine) (p v : Word) : Machine :=
  { s with mem := setWord s.mem (frameOf p) (wordOf p) v }

/-! ## The allocator -/

/-- The loop of `MMU_pf_alloc` over the regions: the first valid region gives its first
frame, and becomes invalid when that was its last one. -/
def take_region : List MemRegion → Option (Word × List MemRegion)
  | [] => none
  | r :: rest =>
    if !r.valid then
      (take_region rest).map fun (frame, rest) => (frame, r :: rest)
    else if r.size = PAGE_SIZE then
      some (r.addr, { r with valid := false } :: rest)
    else
      some (r.addr, { r with addr := r.addr + PAGE_SIZE, size := r.size - PAGE_SIZE } :: rest)

def MMU_pf_alloc (s : Machine) : Word × Machine :=
  if s.free_frames ≠ INVALID_FRAME_ADDR then
    (s.free_frames, { s with free_frames := s.load s.free_frames })
  else
    match take_region s.usable_regions with
    | some (frame, regions) => (frame, { s with usable_regions := regions })
    | none => (INVALID_FRAME_ADDR, s)

/-- The `next` field is the first word of `struct pf_header`, so of the freed frame. -/
def MMU_pf_free (pf : Word) (s : Machine) : Machine :=
  if pf = INVALID_FRAME_ADDR then s
  else { s.store pf s.free_frames with free_frames := pf }

/-- The first loop of `MMU_pf_free_count`. -/
def count_regions : List MemRegion → Word → Word
  | [], count => count
  | r :: rest, count =>
    count_regions rest (if r.valid then count + r.size / PAGE_SIZE else count)

/-- The second loop, which ends only when it meets the end marker: `none` stands for a
walk that is not over after `fuel` turns. -/
def count_free_list (s : Machine) : Nat → Word → Word → Option Word
  | 0, _, _ => none
  | fuel + 1, node, count =>
    if node = INVALID_FRAME_ADDR then some count
    else count_free_list s fuel (s.load node) (count + 1)

def MMU_pf_free_count (fuel : Nat) (s : Machine) : Option Word :=
  count_free_list s fuel s.free_frames (count_regions s.usable_regions 0)

end JamsOs
