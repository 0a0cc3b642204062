-- The ext2 driver (`ext2.c`) over a partition of a disk (`mbr.c`): mounting, reading inodes,
-- listing directories, and reading files through the block map.
--
-- A buffer is a function of which the first bytes count, and a fresh one from `kmalloc` holds
-- anything. A read of the disk may fail, and leaves its destination unchanged then. A function that
-- divides by zero gives `none` for its result. `kmalloc` is taken to succeed where the code does not
-- look at its result.
import JamsOs.Frames

namespace JamsOs.Ext2

open Words

/-! ## The disk -/

abbrev Buf := Nat → BitVec 8

/-- The disk and the heap, as the driver sees them: the bytes of each sector, which of the reads
fail, what fresh buffers hold, and how many reads and buffers there were. The history is in `log`, the
sectors that were asked for, the latest first. -/
structure Io where
  sectors : Word → Buf
  fails : Nat → Bool
  junk : Nat → Buf
  reads : Nat
  allocs : Nat
  log : List Word

/-- `kmalloc` of a buffer. -/
def Io.buffer (io : Io) : Buf × Io := (io.junk io.allocs, { io with allocs := io.allocs + 1 })

/-- The fields of `struct partition_dev` that are used. -/
structure BlockDev where
  blk_size : BitVec 32
  tot_length : Word
  fs_type : BitVec 8
  lba_offset : BitVec 32

/-- `read_block` of the disk. The result is the return value, 0 or not, and the destination. -/
def disk_read_block (blk_size : BitVec 32) (blk_num : Word) (dst : Buf) (io : Io) : Bool × Buf × Io :=
  let io' := { io with reads := io.reads + 1, log := blk_num :: io.log }
  if io.fails io.reads then (false, dst, io')
  else (true, fun j => if j < blk_size.toNat then io.sectors blk_num j else dst j, io')

def partition_read_block (dev : BlockDev) (blk_num : Word) (dst : Buf) (io : Io) : Bool × Buf × Io :=
  let real_blk := blk_num + dev.lba_offset.setWidth 64
  disk_read_block dev.blk_size real_blk dst io

/-! ## Partitions -/

def MBR_SIGNATURE : BitVec 16 := 0xAA55

/-- The device for entry `i` of the partition table. -/
def partition_of (blk_size : BitVec 32) (mbr : Buf) (i : Nat) : BlockDev where
  blk_size := blk_size
  tot_length := (u32 mbr (446 + 16 * i + 12)).setWidth 64
  fs_type := mbr (446 + 16 * i + 4)
  lba_offset := u32 mbr (446 + 16 * i + 8)

/-- The partitions that `MBR_init` registers. The results of its calls of `kmalloc` are `heap`. -/
def MBR_init (blk_size : BitVec 32) (heap : Nat → Bool) (io : Io) : List BlockDev × Io :=
  if !heap 0 then ([], io)
  else
    let (mbr, io) := io.buffer
    match disk_read_block blk_size 0 mbr io with
    | (false, _, io) => ([], io)
    | (true, mbr, io) =>
      if u16 mbr 510 ≠ MBR_SIGNATURE then ([], io)
      else
        (((List.range 4).filter fun i => mbr (446 + 16 * i + 4) ≠ 0 ∧ heap (i + 1)).map
          (partition_of blk_size mbr), io)

/-! ## Blocks -/

/-- The fields of `ext2_driver` and of its superblock that are used. -/
structure Driver where
  dev : BlockDev
  block_size : BitVec 32
  block_start : BitVec 32
  inodes_per_group : BitVec 32
  rev_level : BitVec 32
  inodes_size : BitVec 32

def Driver.sect_per_blk (drv : Driver) : BitVec 32 := drv.block_size / drv.dev.blk_size

/-- One turn of the loop of `ext2_read_block`. The result of the read is not looked at. -/
def read_sector (drv : Driver) (start_sect : Word) (buf : Buf × Io) (i : Nat) : Buf × Io :=
  let offset := (BitVec.ofNat 32 i * drv.dev.blk_size).toNat
  let (_, part, io) := partition_read_block drv.dev (start_sect + BitVec.ofNat 64 i)
    (fun j => buf.1 (offset + j)) buf.2
  (fun j => if offset ≤ j then part (j - offset) else buf.1 j, io)

def ext2_read_block (drv : Driver) (block_num : BitVec 32) (buf : Buf) (io : Io) : Buf × Io :=
  let start_sect := block_num.setWidth 64 * drv.sect_per_blk.setWidth 64
  (List.range drv.sect_per_blk.toNat).foldl (read_sector drv start_sect) (buf, io)

/-! ## Inodes -/

/-- `struct inode`, with its driver and the bytes of the raw inode. -/
structure Inode where
  drv : Driver
  ino_num : BitVec 32
  size : BitVec 32
  mode : BitVec 32
  raw : Buf

/-- The field `block` of `ext2_inode`. -/
def Inode.block (inode : Inode) (i : Nat) : BitVec 32 := u32 inode.raw (40 + 4 * i)

def sizeof_group : BitVec 32 := 32

def Driver.inode_size (drv : Driver) : BitVec 32 :=
  if 1 ≤ drv.rev_level then drv.inodes_size else 128

def ext2_read_inode (drv : Driver) (inode_num : BitVec 32) (io : Io) : Option Inode × Io :=
  let idx := inode_num - 1
  if drv.inodes_per_group = 0 then (none, io)
  else
    let group := idx / drv.inodes_per_group
    let group_index := idx % drv.inodes_per_group
    let (bg_buf, io) := io.buffer
    let descriptors_per_block := drv.block_size / sizeof_group
    if descriptors_per_block = 0 then (none, io)
    else
      let bg_block_offset := group / descriptors_per_block
      let bg_index_in_block := group % descriptors_per_block
      let (bg_buf, io) := ext2_read_block drv (drv.block_start + bg_block_offset) bg_buf io
      let inode_table_block := u32 bg_buf (bg_index_in_block.toNat * 32 + 8)
      if drv.inode_size = 0 ∨ drv.block_size / drv.inode_size = 0 then (none, io)
      else
        let inodes_per_block := drv.block_size / drv.inode_size
        let table_block_offset := group_index / inodes_per_block
        let index_in_block := group_index % inodes_per_block
        let (inode_block_buf, io) := io.buffer
        let (inode_block_buf, io) :=
          ext2_read_block drv (inode_table_block + table_block_offset) inode_block_buf io
        let raw_node : Buf := fun j => inode_block_buf ((index_in_block * drv.inode_size).toNat + j)
        let (priv_data, io) := io.buffer
        (some {
          drv := drv
          ino_num := inode_num
          size := u32 raw_node 4
          mode := (u16 raw_node 0).setWidth 32
          raw := fun j => if j < drv.inode_size.toNat then raw_node j else priv_data j }, io)

/-! ## The block map -/

def ext2_get_block_number (inode : Inode) (logic_blk : BitVec 32) (io : Io) :
    Option (BitVec 32) × Io :=
  let drv := inode.drv
  let p := drv.block_size / 4
  if logic_blk < 12 then (some (inode.block logic_blk.toNat), io)
  else
    let logic_blk := logic_blk - 12
    if logic_blk < p then
      if inode.block 12 = 0 then (some 0, io)
      else
        let (block_buf, io) := io.buffer
        let (block_buf, io) := ext2_read_block drv (inode.block 12) block_buf io
        (some (u32 block_buf (4 * logic_blk.toNat)), io)
    else
      let logic_blk := logic_blk - p
      if logic_blk < p * p then
        if inode.block 13 = 0 then (some 0, io)
        else
          let idx_1 := logic_blk / p
          let idx_2 := logic_blk % p
          let (block_buf, io) := io.buffer
          let (block_buf, io) := ext2_read_block drv (inode.block 13) block_buf io
          let indirect_block := u32 block_buf (4 * idx_1.toNat)
          if indirect_block = 0 then (some 0, io)
          else
            let (block_buf, io) := ext2_read_block drv indirect_block block_buf io
            (some (u32 block_buf (4 * idx_2.toNat)), io)
      else if inode.block 14 = 0 then (some 0, io)
      -- `p * p` is taken modulo 2^32, and may be 0 for the block size of a corrupted superblock
      else if p * p = 0 then (none, io)
      else
        -- unlike in the cases before, `logic_blk` still counts the doubly indirect blocks
        let idx_1 := logic_blk / (p * p)
        let rem := logic_blk % (p * p)
        let idx_2 := rem / p
        let idx_3 := rem % p
        let (block_buf, io) := io.buffer
        let (block_buf, io) := ext2_read_block drv (inode.block 14) block_buf io
        let indirect_block_1 := u32 block_buf (4 * idx_1.toNat)
        if indirect_block_1 = 0 then (some 0, io)
        else
          let (block_buf, io) := ext2_read_block drv indirect_block_1 block_buf io
          let indirect_block_2 := u32 block_buf (4 * idx_2.toNat)
          if indirect_block_2 = 0 then (some 0, io)
          else
            let (block_buf, io) := ext2_read_block drv indirect_block_2 block_buf io
            (some (u32 block_buf (4 * idx_3.toNat)), io)

/-! ## Mounting -/

def EXT2_SIGNATURE : BitVec 16 := 0xEF53

def EXT2_ROOT_INODE : BitVec 32 := 2

/-- The driver that `ext2_probe` sets up from the bytes of a superblock. The shift count is taken
modulo 32, as the processor does. -/
def Driver.of_superblock (dev : BlockDev) (sb : Buf) : Driver :=
  let block_size : BitVec 32 := 1024 <<< ((u32 sb 24).toNat % 32)
  { dev := dev
    block_size := block_size
    block_start := if block_size = 1024 then 2 else 1
    inodes_per_group := u32 sb 40
    rev_level := u32 sb 76
    inodes_size := u32 sb 88 }

structure Superblock where
  drv : Driver
  root_inode : Inode

/-- The inner `none` is the null pointer: there is no ext2 on the device. The results of the two
reads are not looked at. -/
def ext2_probe (dev : BlockDev) (io : Io) : Option (Option Superblock) × Io :=
  let (buf, io) := io.buffer
  let (_, buf, io) := partition_read_block dev 2 buf io
  let (_, part, io) := partition_read_block dev 3 (fun j => buf (512 + j)) io
  let sb : Buf := fun j => if 512 ≤ j then part (j - 512) else buf j
  if u16 sb 56 ≠ EXT2_SIGNATURE then (some none, io)
  else
    let drv := Driver.of_superblock dev sb
    match ext2_read_inode drv EXT2_ROOT_INODE io with
    | (none, io) => (none, io)
    | (some root_inode, io) => (some (some ⟨drv, root_inode⟩), io)

/-! ## Directories -/

def S_IFDIR : BitVec 32 := 0x4000

/-- What a directory walk comes to: its callback asked to stop, it went on to the end, or the
processor stopped at a division. -/
inductive Walk where
  | stopped | finished | fault
  deriving DecidableEq, Repr

/-- The loop over the entries of one block. The callback sees the name and the inode of a child. -/
def dentry_loop (drv : Driver) (cb : List (BitVec 8) → Inode → Bool) (block_buf : Buf)
    (block_bytes : BitVec 32) : Nat → BitVec 32 → Io → Walk × Io
  | 0, _, io => (.finished, io)
  | fuel + 1, offset, io =>
    if ¬ offset < block_bytes then (.finished, io)
    else
      let dentry : Buf := fun j => block_buf (offset.toNat + j)
      let rec_len := (u16 dentry 4).setWidth 32
      if rec_len < 8 ∨ rec_len % 4 ≠ 0 then (.finished, io)
      else if block_bytes < offset + rec_len then (.finished, io)
      else if u32 dentry 0 = 0 then
        dentry_loop drv cb block_buf block_bytes fuel (offset + rec_len) io
      else
        let name := (List.range (dentry 6).toNat).map fun j => dentry (8 + j)
        match ext2_read_inode drv (u32 dentry 0) io with
        | (none, io) => (.fault, io)
        | (some child, io) =>
          if cb name child then (.stopped, io)
          else dentry_loop drv cb block_buf block_bytes fuel (offset + rec_len) io

/-- The loop over the blocks of a directory, from block `blk` on; `n` blocks are left. -/
def readdir_loop (inode : Inode) (cb : List (BitVec 8) → Inode → Bool) :
    Nat → BitVec 32 → BitVec 32 → Buf → Io → Walk × Io
  | 0, _, _, _, io => (.finished, io)
  | n + 1, blk, bytes_left, block_buf, io =>
    let drv := inode.drv
    match ext2_get_block_number inode blk io with
    | (none, io) => (.fault, io)
    | (some phys_block, io) =>
      let block_bytes := if bytes_left < drv.block_size then bytes_left else drv.block_size
      if phys_block = 0 then
        readdir_loop inode cb n (blk + 1) (bytes_left - block_bytes) block_buf io
      else
        let (block_buf, io) := ext2_read_block drv phys_block block_buf io
        match dentry_loop drv cb block_buf block_bytes block_bytes.toNat 0 io with
        | (.finished, io) =>
          readdir_loop inode cb n (blk + 1) (bytes_left - block_bytes) block_buf io
        | (w, io) => (w, io)

/-- The return value is -1 or 0, and `none` at a division by zero. -/
def ext2_readdir (inode : Inode) (cb : List (BitVec 8) → Inode → Bool) (io : Io) : Option Int × Io :=
  if inode.mode &&& S_IFDIR = 0 then (some (-1), io)
  else
    let drv := inode.drv
    let (block_buf, io) := io.buffer
    if drv.block_size = 0 then (none, io)
    else
      let total_blocks := (inode.size + drv.block_size - 1) / drv.block_size
      match readdir_loop inode cb total_blocks.toNat 0 inode.size block_buf io with
      | (.fault, io) => (none, io)
      | (_, io) => (some 0, io)

/-! ## Files -/

structure File where
  inode : Inode
  offset : Word

/-- `heap` tells whether `kmalloc` succeeds. -/
def ext2_open (inode : Inode) (heap : Bool) : Option File :=
  if heap then some ⟨inode, 0⟩ else none

/-- What the loop of `ext2_file_read` changes: the caller's buffer and the place in it, the position
in the file, what is left to read and what was read, and the block buffer. -/
structure Reading where
  buf : Buf
  out : Nat
  offset : Word
  len : BitVec 32
  bytes_read : BitVec 32
  temp_block : Buf

/-- `to_read` bytes are copied to the caller's buffer, and the loop's variables move on. -/
def Reading.copy (r : Reading) (source : Buf) (to_read : BitVec 32) (temp_block : Buf) : Reading where
  buf := fun j => if r.out ≤ j ∧ j < r.out + to_read.toNat then source (j - r.out) else r.buf j
  out := r.out + to_read.toNat
  offset := r.offset + to_read.setWidth 64
  len := r.len - to_read
  bytes_read := r.bytes_read + to_read
  temp_block := temp_block

/-- One turn of the loop. -/
def read_turn (inode : Inode) (r : Reading) (io : Io) : Option Reading × Io :=
  let drv := inode.drv
  if drv.block_size = 0 then (none, io)
  else
    let logical_block := (r.offset / drv.block_size.setWidth 64).setWidth 32
    let block_offset := (r.offset % drv.block_size.setWidth 64).setWidth 32
    let to_read :=
      if r.len < drv.block_size - block_offset then r.len else drv.block_size - block_offset
    match ext2_get_block_number inode logical_block io with
    | (none, io) => (none, io)
    | (some phys_block, io) =>
      if phys_block = 0 then (some (r.copy (fun _ => 0) to_read r.temp_block), io)
      else
        let (temp_block, io) := ext2_read_block drv phys_block r.temp_block io
        (some (r.copy (fun j => temp_block (block_offset.toNat + j)) to_read temp_block), io)

/-- The loop, which ends when `len` is not positive as a signed number. Each turn reads a byte or
more, so that `len` turns are enough. -/
def read_loop (inode : Inode) : Nat → Reading → Io → Option Reading × Io
  | 0, r, io => (some r, io)
  | fuel + 1, r, io =>
    if r.len.toInt ≤ 0 then (some r, io)
    else
      match read_turn inode r io with
      | (none, io) => (none, io)
      | (some r, io) => read_loop inode fuel r io

/-- The return value, the caller's buffer and the file. There is no file at a null pointer. -/
def ext2_file_read (f : Option File) (buf : Buf) (len : BitVec 32) (io : Io) :
    Option (BitVec 32 × Buf × Option File) × Io :=
  match f with
  | none => (some (-1, buf, none), io)
  | some f =>
    let inode := f.inode
    if inode.size.setWidth 64 ≤ f.offset then (some (0, buf, some f), io)
    else
      let len :=
        if inode.size.setWidth 64 < f.offset + len.signExtend 64 then
          (inode.size.setWidth 64 - f.offset).setWidth 32
        else len
      let (temp_block, io) := io.buffer
      match read_loop inode len.toNat ⟨buf, 0, f.offset, len, 0, temp_block⟩ io with
      | (none, io) => (none, io)
      | (some r, io) => (some (r.bytes_read, r.buf, some { f with offset := r.offset }), io)

/-- The comparison is between unsigned numbers. -/
def ext2_file_lseek (f : File) (offset : BitVec 32) : Int × File :=
  if f.inode.size < offset then (-1, f) else (0, { f with offset := offset.signExtend 64 })

end JamsOs.Ext2
