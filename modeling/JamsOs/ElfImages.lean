-- From the name of a program to its image in memory. A load that succeeds has put the segments of the
-- file where the program headers say, if the `int` of `lseek` can hold the positions in the file.
import JamsOs.ElfLoads
import JamsOs.ElfRefines

namespace JamsOs.ElfOnDisk

open Words Ownership Placements
open Ext2 (Io Inode Buf DirOf Entry live_entries block_of find_file_cb file_byte)
open Ext2.Owned (Vnode OpenFile)

/-! ## The file that has the name -/

/-- The inode with a number, as the volume has it. -/
def inode_of (drv : Ext2.Driver) (disk : Word → Buf) (num : BitVec 32) : Inode where
  drv := drv
  ino_num := num
  size := u32 (drv.inode_bytes disk num) 4
  mode := (u16 (drv.inode_bytes disk num) 0).setWidth 32
  raw := drv.inode_bytes disk num

/-- The inode of the first live entry of the root directory that has the name. -/
def file_named (root : Inode) (disk : Word → Buf) (xs : Nat → List Nat) (filename : List (BitVec 8)) :
    Option Inode :=
  ((live_entries root disk (block_of root disk) xs).find? (Entry.named filename)).map fun e =>
    inode_of root.drv disk e.num

section

variable {root node node' : Inode} {disk : Word → Buf} {xs : Nat → List Nat} {m : Nat} {io : Io}

end

/-! ## What a load that succeeds has done -/

/-- The file has no triply indirect blocks, the positions of the program headers and of their data
are not behind its end and fit in an `int`, and the segments are not larger in the file than in
memory, end below 2^48 and have a number of pages that is an `int`. -/
structure Plain (disk : Word → Buf) (node : Inode) : Prop where
  map : node.block 14 = 0 ∨ node.size.toNat ≤ node.drv.third_tree
  headers : ∀ i < (ELF64_head.ofBytes (file_byte node disk)).prog_ent_num.toNat,
    Seekable node.size (header_pos (.ofBytes (file_byte node disk)) i)
  segments : ∀ ph ∈ loadable (file_byte node disk) (.ofBytes (file_byte node disk)) 0
      (ELF64_head.ofBytes (file_byte node disk)).prog_ent_num.toNat,
    Seekable node.size ph.file_offset ∧ ph.WellSized

section

variable {root node node' : Inode} {disk : Word → Buf} {xs : Nat → List Nat} {m : Nat} {h : Ownership.Heap}

end

/-- A program of 120 bytes, with one segment of 16 bytes at `VA_USER_BASE`. The first 8 of them are in
the file, at 0 or where one byte of `file_offset` puts them. -/
def program_bytes (file_offset_4 : BitVec 8) (k : Nat) : BitVec 8 :=
  if k = 76 then file_offset_4 else if k = 104 then 16 else (one_segment 1 0x10 0).bytes k

/-- Block 6 is the root directory, with the file `a`, which is inode 12. The inode table starts at
block 4, and the file is block 3. -/
def program_disk (bytes : Nat → BitVec 8) : Io where
  sectors := fun w j =>
    if w = 75 then
      if j = 0 then 12 else if j = 5 then 4 else if j = 6 then 1 else if j = 8 then 0x61 else 0
    else if w = 67 then if j = 8 then 4 else 0
    else if w = 73 then
      if j = 385 then 0x80 else if j = 388 then 120 else if j = 424 then 3 else 0
    else if w = 69 then bytes j
    else 0
  fails := fun _ => false
  junk := fun _ _ => 0
  reads := 0
  allocs := 0
  log := []

def program_root : Inode where
  drv := Ext2.small_drv
  ino_num := 2
  size := 1024
  mode := 0x4000
  raw := fun j => if j = 40 then 6 else 0

/-- The program on the volume, and the memory of `heaped`. -/
def program (file_offset_4 : BitVec 8) : System := (program_disk (program_bytes file_offset_4), heaped)

def program_node (file_offset_4 : BitVec 8) : Inode :=
  inode_of Ext2.small_drv (program file_offset_4).1.sectors 12

/-- What the volume has. -/
structure OnVolume (b : BitVec 8) : Prop where
  entries : live_entries program_root (program b).1.sectors
    (block_of program_root (program b).1.sectors) (fun _ => [0]) = [⟨[0x61], 12⟩]
  size : (program_node b).size = 120
  map : (program_node b).block 14 = 0
  bytes : ∀ x < 120, file_byte (program_node b) (program b).1.sectors x = program_bytes b x

theorem OnVolume.named {b : BitVec 8} (h : OnVolume b) :
    file_named program_root (program b).1.sectors (fun _ => [0]) [0x61] = some (program_node b) := by
  unfold file_named
  rw [h.entries]
  rfl

theorem OnVolume.header {b : BitVec 8} (h : OnVolume b) :
    ELF64_head.ofBytes (file_byte (program_node b) (program b).1.sectors) =
      .ofBytes (program_bytes b) :=
  head_congr fun j hj => h.bytes j (Nat.lt_trans hj (by decide))

theorem OnVolume.header_at {b : BitVec 8} (h : OnVolume b)
    (hpos : header_pos (.ofBytes (program_bytes b)) 0 = 64) :
    header_at (file_byte (program_node b) (program b).1.sectors) (.ofBytes (program_bytes b)) 0 =
      .ofBytes fun k => program_bytes b (64 + k) := by
  unfold JamsOs.header_at
  rw [hpos]
  refine prog_head_congr fun j hj => h.bytes _ ?_
  have hj : j < 56 := hj
  have h64 : (64 : Word).toNat = 64 := rfl
  omega

end JamsOs.ElfOnDisk
