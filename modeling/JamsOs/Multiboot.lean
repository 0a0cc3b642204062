-- The boot information (`frames.c`): the walk over the Multiboot2 tags, which puts the usable
-- entries of the memory map into the table of regions and takes the sections of the kernel out.
--
-- The boot information is given by its bytes, at their distance from `mboot_header`. `none` stands
-- for a division by zero, or for a walk that never ends.
import JamsOs.Frames

namespace JamsOs

open Words

/-! ## The structures -/

/-- The bytes of the boot information. -/
abbrev BootInfo := Nat → BitVec 8

def total_size (b : BootInfo) : BitVec 32 := u32 b 0

def sizeof_mboot_fixed : Nat := 8

/-- The first fields of every tag. -/
def tag_type (b : BootInfo) (tag : Nat) : BitVec 32 := u32 b tag

def tag_size (b : BootInfo) (tag : Nat) : BitVec 32 := u32 b (tag + 4)

def TAG_TYPE_MMAP : BitVec 32 := 6

def TAG_TYPE_ELF : BitVec 32 := 9

def REGION_OS_USE : BitVec 32 := 1

def entry_size (b : BootInfo) (tag : Nat) : BitVec 32 := u32 b (tag + 8)

def sizeof_mmap_tag : Nat := 16

/-- `struct mmap_entry`. -/
structure MmapEntry where
  addr : Word
  size : Word
  type : BitVec 32
  deriving DecidableEq

def MmapEntry.ofBytes (b : BootInfo) (off : Nat) : MmapEntry where
  addr := u64 b off
  size := u64 b (off + 8)
  type := u32 b (off + 16)

def sizeof_mmap_entry : Nat := 24

def num_sect (b : BootInfo) (tag : Nat) : BitVec 32 := u32 b (tag + 8)

def size_sect (b : BootInfo) (tag : Nat) : BitVec 32 := u32 b (tag + 12)

def sizeof_elf_tag : Nat := 20

/-- The fields of `struct sect_head` that are read. -/
structure SectHead where
  addr : Word
  size : Word
  deriving DecidableEq

def SectHead.ofBytes (b : BootInfo) (off : Nat) : SectHead where
  addr := u64 b (off + 16)
  size := u64 b (off + 32)

def sizeof_sect_head : Nat := 64

/-! ## The table of regions -/

def MAX_REGIONS : Nat := 64

/-- A slot of the table that was never used. -/
def no_region : MemRegion := ⟨0, 0, false⟩

/-- The table of regions at boot. -/
def no_regions : List MemRegion := List.replicate MAX_REGIONS no_region

def add_usable_region (addr size : Word) (entry : Nat) (regions : List MemRegion) : List MemRegion :=
  let start := (addr + PAGE_SIZE - 1) &&& ~~~(PAGE_SIZE - 1)
  let fin := (addr + size) &&& ~~~(PAGE_SIZE - 1)
  if fin ≤ start then regions
  else if MAX_REGIONS ≤ entry then regions
  else regions.set entry ⟨start, fin - start, true⟩

/-- One turn of the loop of `remove_region`, with the addresses rounded to pages. -/
def remove_from_slot (start fin : Word) (regions : List MemRegion) (i : Nat) : List MemRegion :=
  let r := regions.getD i no_region
  if !r.valid then regions
  else
    let reg_start := r.addr
    let reg_end := reg_start + r.size
    if fin ≤ reg_start ∨ reg_end ≤ start then regions
    else if start ≤ reg_start ∧ reg_end ≤ fin then regions.set i { r with valid := false }
    else if start ≤ reg_start ∧ fin < reg_end then
      regions.set i { r with addr := fin, size := reg_end - fin }
    else if reg_start < start ∧ reg_end ≤ fin then regions.set i { r with size := start - reg_start }
    else
      -- the kernel lies within the region, which is split
      let regions := regions.set i { r with addr := reg_start, size := start - reg_start }
      match regions.findIdx? (!·.valid) with
      | some j => add_usable_region fin (reg_end - fin) j regions
      | none => regions

def remove_region (start fin : Word) (regions : List MemRegion) : List MemRegion :=
  let start := start &&& ~~~(PAGE_SIZE - 1)
  let fin := (fin + PAGE_SIZE - 1) &&& ~~~(PAGE_SIZE - 1)
  (List.range MAX_REGIONS).foldl (remove_from_slot start fin) regions

/-! ## The tags -/

/-- One turn of the loop of `parse_mmap_tag`. -/
def parse_mmap_entry (b : BootInfo) (tag : Nat) (regions : List MemRegion) (i : Nat) :
    List MemRegion :=
  let entry := MmapEntry.ofBytes b (tag + sizeof_mmap_tag + i * sizeof_mmap_entry)
  if entry.type = REGION_OS_USE then add_usable_region entry.addr entry.size i regions else regions

/-- The number of entries is computed with 64 bits, and kept as an `int`. -/
def mmap_num (b : BootInfo) (tag : Nat) : Int :=
  ((((tag_size b tag).setWidth 64 - BitVec.ofNat 64 sizeof_mmap_tag) /
    (entry_size b tag).setWidth 64 : Word).setWidth 32).toInt

def parse_mmap_tag (b : BootInfo) (tag : Nat) (regions : List MemRegion) : Option (List MemRegion) :=
  if entry_size b tag = 0 then none
  else some ((List.range (mmap_num b tag).toNat).foldl (parse_mmap_entry b tag) regions)

/-- One turn of the loop of `parse_elf_tag`. -/
def parse_section (b : BootInfo) (tag : Nat) (regions : List MemRegion) (i : Nat) :
    List MemRegion :=
  let header := SectHead.ofBytes b (tag + sizeof_elf_tag + i * sizeof_sect_head)
  remove_region header.addr (header.addr + header.size) regions

def parse_elf_tag (b : BootInfo) (tag : Nat) (regions : List MemRegion) : List MemRegion :=
  (List.range (num_sect b tag).toNat).foldl (parse_section b tag) regions

def parse_tag (b : BootInfo) (regions : List MemRegion) (tag : Nat) : Option (List MemRegion) :=
  if tag_type b tag = TAG_TYPE_MMAP then parse_mmap_tag b tag regions
  else if tag_type b tag = TAG_TYPE_ELF then some (parse_elf_tag b tag regions)
  else some regions

/-- The distance to the next tag, `(tag->tag_size + 7) & (~7)`, in 32 bits. -/
def tag_step (b : BootInfo) (tag : Nat) : Nat := ((tag_size b tag + 7) &&& ~~~7).toNat

/-- The loop over the tags. -/
def parse_tags (b : BootInfo) (end_addr : Nat) : Nat → Nat → List MemRegion → Option (List MemRegion)
  | 0, _, _ => none
  | fuel + 1, tag_addr, regions =>
    if tag_addr < end_addr then
      (parse_tag b regions tag_addr).bind (parse_tags b end_addr fuel (tag_addr + tag_step b tag_addr))
    else some regions

/-- The walk is over after as many turns as there are bytes, or never. -/
def parse_mboot_tags (b : BootInfo) (s : Machine) : Option Machine :=
  (parse_tags b (total_size b).toNat ((total_size b).toNat + 1) sizeof_mboot_fixed
    s.usable_regions).map fun regions => { s with usable_regions := regions }

end JamsOs
