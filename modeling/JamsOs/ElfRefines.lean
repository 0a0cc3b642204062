-- The loader over the disk does what the loader over the bytes of a file does, on a device whose
-- reads do not fail. The bytes are those that the block map of the driver gives.
import JamsOs.ElfOnDisk
import JamsOs.LoadedImage

namespace JamsOs.ElfOnDisk

open Words Ownership
open Ext2 (Io Inode Buf)
open Ext2.Owned (Vnode OpenFile)

/-- The file, as the loader over bytes sees it. -/
def view (bytes : Nat → BitVec 8) (f : OpenFile) : File where
  size := f.file.inode.size
  bytes := bytes
  offset := f.file.offset

section

variable {disk : Word → Buf} {bytes : Nat → BitVec 8} {io : Io} {f : OpenFile} {m : Nat}
  {s : Machine}

/-- What is left of the file and of the machine after a part of a load. -/
structure Loaded (disk : Word → Buf) (bytes : Nat → BitVec 8) (f : OpenFile)
    (v : Bool × File × Machine) (r : Bool × OpenFile) (s' : System) : Prop where
  ret : r.1 = v.1
  file : view bytes r.2 = v.2.1
  machine : s'.2 = v.2.2
  inode : r.2.file.inode = f.file.inode
  shows : s'.1.Shows disk

theorem prog_head_congr {b b' : Nat → BitVec 8} (h : ∀ j < sizeof_prog_head, b j = b' j) :
    ELF64_prog_head.ofBytes b = ELF64_prog_head.ofBytes b' := by
  have hlt : ∀ j, j < 56 → b j = b' j := h
  simp [ELF64_prog_head.ofBytes, little_endian, hlt]

theorem head_congr {b b' : Nat → BitVec 8} (h : ∀ j < sizeof_head, b j = b' j) :
    ELF64_head.ofBytes b = ELF64_head.ofBytes b' := by
  have hlt : ∀ j, j < 64 → b j = b' j := h
  simp [ELF64_head.ofBytes, little_endian, hlt]

end

end JamsOs.ElfOnDisk
