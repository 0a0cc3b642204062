-- Which sectors of the disk are asked for through a partition. On a device that does not fail they are
-- those of the blocks that the numbers on the volume name, and nothing in the driver or in the
-- partition's device compares these numbers with the size of the partition.
import JamsOs.DirectoryReads
import JamsOs.Ext2Mount

namespace JamsOs.Ext2

open Words

/-! ## The sectors of a partition -/

/-- A sector of the parent device belongs to the partition. -/
def BlockDev.Holds (dev : BlockDev) (s : Word) : Prop :=
  dev.lba_offset.toNat ≤ s.toNat ∧ s.toNat < dev.lba_offset.toNat + dev.tot_length.toNat

instance BlockDev.decidable_holds (dev : BlockDev) (s : Word) : Decidable (dev.Holds s) :=
  inferInstanceAs (Decidable (dev.lba_offset.toNat ≤ s.toNat ∧
    s.toNat < dev.lba_offset.toNat + dev.tot_length.toNat))

/-- The sectors that were asked for from `io` to `io'`, the latest first. -/
def Io.asked (io io' : Io) : List Word := io'.log.take (io'.log.length - io.log.length)

/-- Everything that was asked for belongs to the partition. -/
def StaysInside (dev : BlockDev) (io io' : Io) : Prop := ∀ s ∈ io.asked io', dev.Holds s

/-- Block `b` ends before the partition does. -/
def Driver.Within (drv : Driver) (b : BitVec 32) : Prop :=
  (b.toNat + 1) * drv.sect_per_blk.toNat ≤ drv.dev.tot_length.toNat

instance Driver.decidable_within (drv : Driver) (b : BitVec 32) : Decidable (drv.Within b) :=
  inferInstanceAs (Decidable ((b.toNat + 1) * drv.sect_per_blk.toNat ≤ drv.dev.tot_length.toNat))

theorem Io.Took.asked_eq {io io' : Io} {ss : List Word} (h : io.Took io' ss) :
    io.asked io' = ss.reverse := by
  unfold Io.asked
  rw [h.log, List.length_append, Nat.add_sub_cancel]
  exact List.take_left

theorem Io.Took.inside_iff {io io' : Io} {ss : List Word} (h : io.Took io' ss) (dev : BlockDev) :
    StaysInside dev io io' ↔ ∀ s ∈ ss, dev.Holds s := by
  unfold StaysInside
  rw [h.asked_eq]
  simp only [List.mem_reverse]

/-- On a device that does not fail, the driver asks for the sectors of the path. -/
theorem Follows.clean {α : Type} {io : Io} {r : α × Io} {path : List Word} {Q : α → Prop}
    (h : Follows io r path Q) (hgood : ∀ i, io.fails i = false) : io.Took r.2 path ∧ Q r.1 := by
  obtain ⟨ss, htook, hclean⟩ := h
  obtain ⟨rfl, hQ⟩ := hclean (.inl fun _ _ => hgood _)
  exact ⟨htook, hQ⟩

section

variable {drv : Driver}

/-- The number of a sector does not wrap. -/
theorem block_sector_toNat (drv : Driver) (b : BitVec 32) {i : Nat} (hi : i < drv.sect_per_blk.toNat) :
    (block_sector drv b i).toNat =
      drv.dev.lba_offset.toNat + (b.toNat * drv.sect_per_blk.toNat + i) := by
  have hb := b.isLt
  have hspb := drv.sect_per_blk.isLt
  have hlba := drv.dev.lba_offset.isLt
  have hmul : b.toNat * drv.sect_per_blk.toNat ≤ (2 ^ 32 - 1) * (2 ^ 32 - 1) :=
    Nat.mul_le_mul (by omega) (by omega)
  unfold block_sector
  rw [BitVec.toNat_add, BitVec.toNat_add, BitVec.toNat_mul, BitVec.toNat_ofNat,
    BitVec.toNat_setWidth_of_le (by decide), BitVec.toNat_setWidth_of_le (by decide),
    BitVec.toNat_setWidth_of_le (by decide)]
  omega

/-- The sectors of a block belong to the partition if and only if the last one does. -/
theorem block_sectors_inside_iff (hpos : 0 < drv.sect_per_blk.toNat) (b : BitVec 32) :
    (∀ s ∈ block_sectors drv b, drv.dev.Holds s) ↔ drv.Within b := by
  unfold block_sectors Driver.Within BlockDev.Holds
  simp only [List.mem_map, List.mem_range, forall_exists_index, and_imp, forall_apply_eq_imp_iff₂]
  rw [Nat.succ_mul]
  constructor
  · intro h
    have hlast := (h (drv.sect_per_blk.toNat - 1) (by omega)).2
    rw [block_sector_toNat drv b (by omega)] at hlast
    omega
  · intro h i hi
    rw [block_sector_toNat drv b hi]
    omega

theorem sectors_of_inside_iff (hpos : 0 < drv.sect_per_blk.toNat) (bs : List (BitVec 32)) :
    (∀ s ∈ sectors_of drv bs, drv.dev.Holds s) ↔ ∀ b ∈ bs, drv.Within b := by
  unfold sectors_of
  simp only [List.mem_flatMap, forall_exists_index, and_imp]
  constructor
  · intro h b hb
    exact (block_sectors_inside_iff hpos b).mp fun s hs => h s b hb hs
  · intro h s b hb hs
    exact (block_sectors_inside_iff hpos b).mpr (h b hb) s hs

theorem sectors_of_append (drv : Driver) (bs bs' : List (BitVec 32)) :
    sectors_of drv (bs ++ bs') = sectors_of drv bs ++ sectors_of drv bs' :=
  List.flatMap_append

theorem Driver.Fits.sect_pos (hfit : drv.Fits) (hsize : drv.block_size ≠ 0) :
    0 < drv.sect_per_blk.toNat := by
  apply Nat.pos_of_ne_zero
  intro h0
  have hmul := hfit.mul
  rw [h0, Nat.zero_mul] at hmul
  exact hsize (BitVec.eq_of_toNat_eq hmul.symm)

theorem Driver.Sized.sect_pos {m : Nat} (hs : drv.Sized m) : 0 < drv.sect_per_blk.toNat :=
  hs.toFits.sect_pos hs.size_ne_zero

end

/-! ## The blocks of a file -/

/-- The indirect blocks on the way to a leaf. -/
def tree_blocks (drv : Driver) (disk : Word → Buf) : Nat → BitVec 32 → Nat → List (BitVec 32)
  | 0, _, _ => []
  | d + 1, b, i =>
    if b = 0 then []
    else b :: tree_blocks drv disk d (entry drv disk b (i / drv.fanout ^ d)) (i % drv.fanout ^ d)

/-- The blocks that are read for block `n` of a file: the indirect ones on the way to it, and the
block itself unless the file has a hole there. -/
def file_blocks (inode : Inode) (disk : Word → Buf) (n : Nat) : List (BitVec 32) :=
  tree_blocks inode.drv disk (place inode n).1 (inode.block (place inode n).2.1) (place inode n).2.2 ++
    if mapped inode disk n = 0 then [] else [mapped inode disk n]

/-- The blocks that are read for `len` bytes from a position on, in at most `fuel` turns. -/
def read_blocks (inode : Inode) (disk : Word → Buf) : Nat → Nat → Nat → List (BitVec 32)
  | 0, _, _ => []
  | fuel + 1, off, len =>
    if len = 0 then []
    else file_blocks inode disk (off / inode.drv.block_size.toNat) ++
      read_blocks inode disk fuel (off + inode.drv.chunk off len) (len - inode.drv.chunk off len)

/-- How much is read after the clamp, as the loop counts it. -/
def File.clamped (f : File) (len : BitVec 32) : BitVec 32 :=
  if f.inode.size.setWidth 64 < f.offset + len.signExtend 64 then
    (f.inode.size.setWidth 64 - f.offset).setWidth 32
  else len

/-- The blocks that a read of a file reads. -/
def File.blocks (f : File) (disk : Word → Buf) (len : BitVec 32) : List (BitVec 32) :=
  if f.inode.size.setWidth 64 ≤ f.offset ∨ (f.clamped len).toInt ≤ 0 then []
  else read_blocks f.inode disk (f.clamped len).toNat f.offset.toNat (f.clamped len).toNat

theorem tree_path_eq (drv : Driver) (disk : Word → Buf) (d : Nat) (b : BitVec 32) (i : Nat) :
    tree_path drv disk d b i = sectors_of drv (tree_blocks drv disk d b i) := by
  induction d generalizing b i with
  | zero => rfl
  | succ d ih =>
    unfold tree_path tree_blocks
    split
    · rfl
    · rw [ih]
      exact (List.flatMap_cons ..).symm

theorem file_block_path_eq (inode : Inode) (disk : Word → Buf) (n : Nat) :
    file_block_path inode disk n = sectors_of inode.drv (file_blocks inode disk n) := by
  unfold file_block_path file_blocks mapped_path
  rw [sectors_of_append, tree_path_eq]
  congr 1
  split
  · rfl
  · exact (List.flatMap_singleton ..).symm

theorem read_path_eq (inode : Inode) (disk : Word → Buf) (fuel off len : Nat) :
    read_path inode disk fuel off len =
      sectors_of inode.drv (read_blocks inode disk fuel off len) := by
  induction fuel generalizing off len with
  | zero => rfl
  | succ fuel ih =>
    unfold read_path read_blocks
    split
    · rfl
    · rw [sectors_of_append, file_block_path_eq, ih]

/-- A read of a positive length stays below the size of the file, and so below `2^32`. -/
theorem File.clamped_bounds {f : File} {len : BitVec 32}
    (hoff : f.offset.toNat < f.inode.size.toNat) (hpos : 0 < (f.clamped len).toInt) :
    f.offset.toNat + (f.clamped len).toNat < 2 ^ 32 ∧ (f.clamped len).toNat < 2 ^ 31 := by
  have hsize := f.inode.size.isLt
  have h64 : (f.inode.size.setWidth 64).toNat = f.inode.size.toNat :=
    BitVec.toNat_setWidth_of_le (by decide)
  have hhalf : (f.clamped len).toNat < 2 ^ 31 := by
    have := BitVec.toInt_pos_iff.mp hpos.le
    omega
  refine ⟨?_, hhalf⟩
  unfold File.clamped at hpos hhalf ⊢
  split
  · have hsub : (f.inode.size.setWidth 64 - f.offset).toNat =
        f.inode.size.toNat - f.offset.toNat := by
      rw [BitVec.toNat_sub_of_le (BitVec.le_def.mpr (by omega)), h64]
    rw [BitVec.toNat_setWidth, hsub, Nat.mod_eq_of_lt (by omega)]
    omega
  · next hfits =>
    rw [if_neg hfits] at hpos hhalf
    have hext : (len.signExtend 64).toNat = len.toNat := by
      rw [BitVec.signExtend_eq_setWidth_of_msb_false
        (BitVec.msb_eq_false_iff_two_mul_lt.mpr (by omega))]
      exact BitVec.toNat_setWidth_of_le (by decide)
    rw [BitVec.lt_def, h64, BitVec.toNat_add, hext] at hfits
    omega

/-- A file read asks for the sectors of its blocks, whatever its length is. -/
theorem ext2_file_read.asks {f : File} {m : Nat} (hs : f.inode.drv.Sized m) (buf : Buf)
    (len : BitVec 32) (io : Io) :
    Follows io (ext2_file_read (some f) buf len io)
      (sectors_of f.inode.drv (f.blocks io.sectors len)) fun _ => True := by
  unfold ext2_file_read File.blocks
  dsimp only
  by_cases hend : f.inode.size.setWidth 64 ≤ f.offset
  · rw [if_pos hend, if_pos (.inl hend)]
    exact Follows.pure (Io.Took.refl io) trivial
  rw [if_neg hend]
  apply Follows.after_buffer
  have hclamped : (if f.inode.size.setWidth 64 < f.offset + len.signExtend 64 then
      (f.inode.size.setWidth 64 - f.offset).setWidth 32 else len) = f.clamped len := rfl
  rw [hclamped]
  by_cases hneg : (f.clamped len).toInt ≤ 0
  · have hloop : read_loop f.inode (f.clamped len).toNat ⟨buf, 0, f.offset, f.clamped len, 0,
        io.buffer.1⟩ io.buffer.2 = (some ⟨buf, 0, f.offset, f.clamped len, 0, io.buffer.1⟩,
        io.buffer.2) := by
      cases (f.clamped len).toNat with
      | zero => rfl
      | succ fuel => rw [read_loop, if_pos hneg]
    rw [hloop, if_pos (.inr hneg)]
    exact Follows.pure (Io.Took.refl _) trivial
  obtain ⟨hsum, hhalf⟩ := File.clamped_bounds (File.inside hend) (not_le.mp hneg)
  have hloop := read_loop.follows hs (f.clamped len).toNat ⟨buf, 0, f.offset, f.clamped len, 0,
    io.buffer.1⟩ io.buffer.2 hsum hhalf le_rfl
  rw [if_neg (not_or.mpr ⟨hend, hneg⟩), ← read_path_eq]
  rcases hv : read_loop f.inode (f.clamped len).toNat ⟨buf, 0, f.offset, f.clamped len, 0,
    io.buffer.1⟩ io.buffer.2 with ⟨_ | r, io'⟩
  · rw [hv] at hloop
    exact hloop.map (fun _ => none) fun _ => trivial
  · rw [hv] at hloop
    exact hloop.map (fun _ => some (r.bytes_read, r.buf, some (⟨f.inode, r.offset⟩ : File)))
      fun _ => trivial

/-! ## The blocks of a directory -/

/-- The blocks that are read for the entry at `x`: those of its inode. -/
def entry_blocks (drv : Driver) (disk : Word → Buf) (block : Buf) (bytes x : Nat) : List (BitVec 32) :=
  if Accepted block bytes x ∧ inode_at block x ≠ 0 then drv.inode_blocks disk (inode_at block x)
  else []

/-- The blocks that are read for the entries from `x` on. -/
def entries_blocks (drv : Driver) (disk : Word → Buf) (block : Buf) (bytes fuel x : Nat) :
    List (BitVec 32) :=
  (positions block bytes fuel x).flatMap (entry_blocks drv disk block bytes)

/-- The blocks that are read for block `n` of a directory, and for the entries in it. -/
def Inode.dir_blocks (dir : Inode) (disk : Word → Buf) (n : Nat) : List (BitVec 32) :=
  file_blocks dir disk n ++
    if mapped dir disk n = 0 then []
    else entries_blocks dir.drv disk (block_bytes dir.drv disk (mapped dir disk n)) (dir.part n)
      (dir.part n) 0

/-- The blocks that a listing reads that is not stopped. -/
def Inode.blocks (dir : Inode) (disk : Word → Buf) : List (BitVec 32) :=
  if dir.mode &&& S_IFDIR = 0 then []
  else (List.range' 0 dir.total_blocks).flatMap (dir.dir_blocks disk)

/-- What a walk comes to on a device that does not fail: it asks for a part of `path`, and for all
of it unless it was stopped. -/
structure Walks (cb : List (BitVec 8) → Inode → Bool) (io : Io) (path : List Word) (r : Walk × Io) :
    Prop where
  no_fault : r.1 ≠ .fault
  part : ∃ ss, io.Took r.2 ss ∧ ss <+: path ∧ (r.1 = .finished → ss = path)
  goes_on : (∀ name child, cb name child = false) → r.1 = .finished

section

variable {drv : Driver} {cb : List (BitVec 8) → Inode → Bool} {io io' : Io} {ss path : List Word}
  {r : Walk × Io}

theorem Walks.done : Walks cb io [] (.finished, io) where
  no_fault := by simp
  part := ⟨[], Io.Took.refl io, List.prefix_rfl, fun _ => rfl⟩
  goes_on _ := rfl

theorem Walks.after (h : Walks cb io' path r) (htook : io.Took io' ss) :
    Walks cb io (ss ++ path) r where
  no_fault := h.no_fault
  part := by
    obtain ⟨ss', htook', hpart, hwhole⟩ := h.part
    refine ⟨ss ++ ss', htook.trans htook', (List.prefix_append_right_inj ss).mpr hpart, ?_⟩
    intro hfin
    rw [hwhole hfin]
  goes_on := h.goes_on

theorem Walks.stop {name : List (BitVec 8)} {child : Inode} (hcb : cb name child = true)
    (htook : io.Took io' ss) (path : List Word) : Walks cb io (ss ++ path) (.stopped, io') where
  no_fault := by simp
  part := ⟨ss, htook, List.prefix_append ss path, by simp⟩
  goes_on h := absurd hcb (by rw [h]; decide)

/-- A walk that was stopped does not read what comes after. -/
theorem Walks.stopped (h : Walks cb io path (.stopped, io')) (more : List Word) :
    Walks cb io (path ++ more) (.stopped, io') where
  no_fault := h.no_fault
  part := by
    obtain ⟨ss, htook, hpart, -⟩ := h.part
    exact ⟨ss, htook, hpart.trans (List.prefix_append path more), by simp⟩
  goes_on := h.goes_on

theorem Walks.took (h : Walks cb io path r) (hfin : r.1 = .finished) : io.Took r.2 path := by
  obtain ⟨ss, htook, -, hwhole⟩ := h.part
  exact hwhole hfin ▸ htook

/-- The walk over the entries of one block. -/
theorem dentry_loop.walks (hfit : drv.Fits) (hd : drv.ReadsInodes)
    (cb : List (BitVec 8) → Inode → Bool) (block_buf : Buf) {block_bytes : BitVec 32}
    (hbytes : block_bytes.toNat ≤ 2 ^ 31) (fuel : Nat) (offset : BitVec 32) (io : Io)
    (hgood : ∀ i, io.fails i = false) :
    Walks cb io (sectors_of drv (entries_blocks drv io.sectors block_buf block_bytes.toNat fuel
      offset.toNat)) (dentry_loop drv cb block_buf block_bytes fuel offset io) := by
  induction fuel generalizing offset io with
  | zero => exact Walks.done
  | succ fuel ih =>
    unfold entries_blocks at ih ⊢
    by_cases hlt : offset < block_bytes
    swap
    · rw [dentry_loop, if_pos hlt, positions.nil (Nat.le_of_not_lt hlt)]
      exact Walks.done
    have hnext : (offset + (u16 (dentry_at block_buf offset.toNat) 4).setWidth 32).toNat = _ :=
      next_offset hbytes hlt
    unfold dentry_at at hnext
    rw [dentry_loop, if_neg (not_not.mpr hlt)]
    dsimp only
    rw [checks_eq hbytes hlt]
    by_cases hacc : Accepted block_buf block_bytes.toNat offset.toNat
    swap
    · -- one of the two checks fails, and nothing is read
      have hnone : entry_blocks drv io.sectors block_buf block_bytes.toNat offset.toNat = [] :=
        if_neg fun h => hacc h.1
      rw [positions.last hlt hacc, List.flatMap_singleton, hnone, if_neg hacc]
      exact Walks.done
    rw [if_pos hacc, positions.cons hlt hacc, List.flatMap_cons, sectors_of_append]
    by_cases hfree : inode_at block_buf offset.toNat = 0
    · have hnone : entry_blocks drv io.sectors block_buf block_bytes.toNat offset.toNat = [] :=
        if_neg fun h => h.2 hfree
      have hrest := ih (offset + (u16 (fun j => block_buf (offset.toNat + j)) 4).setWidth 32) io hgood
      rw [hnext] at hrest
      unfold inode_at dentry_at at hfree
      rw [if_pos hfree, hnone]
      exact hrest
    · have hblocks : entry_blocks drv io.sectors block_buf block_bytes.toNat offset.toNat =
          drv.inode_blocks io.sectors (inode_at block_buf offset.toNat) := if_pos ⟨hacc, hfree⟩
      obtain ⟨child, io₁, hchild, -⟩ := hd (inode_at block_buf offset.toNat) io
      have htook := ((ext2_read_inode.asks hfit (inode_at block_buf offset.toNat) io).clean hgood).1
      rw [hchild] at htook
      rw [hblocks]
      unfold inode_at dentry_at at hfree hchild
      rw [if_neg hfree, hchild]
      dsimp only
      split
      · next hcb => exact Walks.stop hcb htook _
      · have hrest := ih (offset + (u16 (fun j => block_buf (offset.toNat + j)) 4).setWidth 32) io₁
          fun i => by rw [htook.fails, hgood]
        rw [hnext, show io₁.sectors = io.sectors from htook.sectors] at hrest
        exact hrest.after htook

theorem entries_blocks_congr {disk : Word → Buf} {block block' : Buf} {size bytes : Nat}
    (h : ∀ j < size, block j = block' j) (hbytes : bytes ≤ size) (fuel x : Nat) :
    entries_blocks drv disk block bytes fuel x = entries_blocks drv disk block' bytes fuel x := by
  unfold entries_blocks
  rw [positions_congr h hbytes]
  congr 1
  funext y
  unfold entry_blocks
  by_cases hacc : Accepted block bytes y
  · rw [hacc.inode_eq h hbytes]
    simp only [hacc, (accepted_congr h hbytes).mp hacc]
  · rw [if_neg fun hc => hacc hc.1, if_neg fun hc => hacc ((accepted_congr h hbytes).mpr hc.1)]

end

section

variable {dir : Inode} {m : Nat}

/-- The walk over the blocks from `blk` on. -/
theorem readdir_loop.walks (hs : dir.drv.Sized m) (hd : dir.drv.ReadsInodes)
    (cb : List (BitVec 8) → Inode → Bool) (n : Nat) (blk bytes_left : BitVec 32) (block_buf : Buf)
    (io : Io) (hgood : ∀ i, io.fails i = false) (hn : blk.toNat + n ≤ dir.total_blocks)
    (hleft : bytes_left.toNat = dir.size.toNat - blk.toNat * dir.drv.block_size.toNat) :
    Walks cb io (sectors_of dir.drv ((List.range' blk.toNat n).flatMap (dir.dir_blocks io.sectors)))
      (readdir_loop dir cb n blk bytes_left block_buf io) := by
  induction n generalizing blk bytes_left block_buf io with
  | zero => exact Walks.done
  | succ n ih =>
    have hblk := Inode.next_block hn
    obtain ⟨hpart, hrest⟩ := Inode.part_step hleft
    have hsize : dir.part blk.toNat ≤ dir.drv.block_size.toNat := Nat.min_le_right _ _
    obtain ⟨htook, hmap⟩ := (ext2_get_block_number.follows hs blk io
      (dir.total_blocks_mul_lt (n := blk.toNat) (by omega))).clean hgood
    rcases hget : ext2_get_block_number dir blk io with ⟨v, io₁⟩
    rw [hget] at htook hmap
    obtain rfl : v = _ := hmap
    rw [readdir_loop, hget]
    dsimp only
    rw [← hblk] at hrest
    have hgood₁ : ∀ i, io₁.fails i = false := fun i => by rw [htook.fails, hgood]
    have hdisk₁ : io₁.sectors = io.sectors := htook.sectors
    rw [List.range'_succ, List.flatMap_cons, sectors_of_append]
    unfold mapped_path at htook
    rw [tree_path_eq] at htook
    by_cases hhole : mapped dir io.sectors blk.toNat = 0
    · have hnext := ih (blk + 1) _ block_buf io₁ hgood₁ (by omega) hrest
      rw [hblk, hdisk₁] at hnext
      rw [if_pos hhole, Inode.dir_blocks, file_blocks, if_pos hhole, if_pos hhole, List.append_nil,
        List.append_nil]
      exact hnext.after htook
    rw [if_neg hhole]
    obtain ⟨htook₂, hbuf⟩ := (ext2_read_block.follows hs.toFits (mapped dir io.sectors blk.toNat)
      block_buf io₁).clean hgood₁
    rcases hblock : ext2_read_block dir.drv (mapped dir io.sectors blk.toNat) block_buf io₁ with
      ⟨buf, io₂⟩
    rw [hblock] at htook₂ hbuf
    have hgood₂ : ∀ i, io₂.fails i = false := fun i => by rw [htook₂.fails, hgood₁]
    have hdisk₂ : io₂.sectors = io.sectors := htook₂.sectors.trans hdisk₁
    have hsame : ∀ j < dir.drv.block_size.toNat, buf j =
        block_bytes dir.drv io.sectors (mapped dir io.sectors blk.toNat) j := by
      intro j hj
      have hread := hbuf j
      rwa [if_pos hj, hdisk₁] at hread
    generalize (if bytes_left < dir.drv.block_size then bytes_left else dir.drv.block_size) = part
      at hpart hrest ⊢
    have hwalk := dentry_loop.walks hs.toFits hd cb buf (hpart.trans_le (hsize.trans hs.half))
      part.toNat 0 io₂ hgood₂
    rw [hdisk₂, hpart, entries_blocks_congr hsame hsize] at hwalk
    have hblocks : sectors_of dir.drv (dir.dir_blocks io.sectors blk.toNat) =
        (sectors_of dir.drv (tree_blocks dir.drv io.sectors (place dir blk.toNat).1
          (dir.block (place dir blk.toNat).2.1) (place dir blk.toNat).2.2) ++
        block_sectors dir.drv (mapped dir io.sectors blk.toNat)) ++
        sectors_of dir.drv (entries_blocks dir.drv io.sectors
          (block_bytes dir.drv io.sectors (mapped dir io.sectors blk.toNat)) (dir.part blk.toNat)
          (dir.part blk.toNat) 0) := by
      rw [Inode.dir_blocks, file_blocks, if_neg hhole, if_neg hhole, sectors_of_append,
        sectors_of_append]
      congr 2
      exact List.flatMap_singleton ..
    have hfirst := hwalk.after (htook.trans htook₂)
    rw [hpart, hblocks]
    rcases hloop : dentry_loop dir.drv cb buf part (dir.part blk.toNat) 0 io₂ with ⟨w, io₃⟩
    rw [hloop] at hfirst
    cases w with
    | fault => exact absurd rfl hfirst.no_fault
    | stopped => exact hfirst.stopped _
    | finished =>
      have htook₃ := hfirst.took rfl
      have hnext := ih (blk + 1) _ buf io₃ (fun i => by rw [htook₃.fails, hgood]) (by omega) hrest
      rw [hblk, show io₃.sectors = io.sectors from htook₃.sectors] at hnext
      exact hnext.after htook₃

/-- A listing stays inside whatever its callback does, if and only if it does so when it is not
stopped. -/
theorem ext2_readdir.inside_iff (hs : dir.drv.Sized m) (hd : dir.drv.ReadsInodes) (io : Io)
    (hgood : ∀ i, io.fails i = false) :
    (∀ cb, StaysInside dir.drv.dev io (ext2_readdir dir cb io).2) ↔
      ∀ b ∈ dir.blocks io.sectors, dir.drv.Within b := by
  unfold Inode.blocks
  by_cases hdir : dir.mode &&& S_IFDIR = 0
  · have hnothing : ∀ cb, StaysInside dir.drv.dev io (ext2_readdir dir cb io).2 := by
      intro cb
      rw [ext2_readdir, if_pos hdir]
      exact ((Io.Took.refl io).inside_iff _).mpr (by simp)
    simp [hnothing, hdir]
  have hwalks : ∀ cb, ∃ w, Walks cb io (sectors_of dir.drv ((List.range' 0 dir.total_blocks).flatMap
      (dir.dir_blocks io.sectors))) (w, (ext2_readdir dir cb io).2) := by
    intro cb
    have hloop := (readdir_loop.walks hs hd cb dir.total_blocks 0 dir.size io.buffer.1 io.buffer.2
      hgood (Nat.le_of_eq (Nat.zero_add _)) (by simp)).after (Io.buffer.took io)
    rw [ext2_readdir, if_neg hdir]
    dsimp only
    rw [if_neg hs.size_ne_zero]
    rcases hv : readdir_loop dir cb dir.total_blocks 0 dir.size io.buffer.1 io.buffer.2 with ⟨w, io'⟩
    rw [hv] at hloop
    unfold Inode.total_blocks at hv
    rw [hv]
    refine ⟨w, ?_⟩
    cases w <;> exact hloop
  rw [if_neg hdir, ← sectors_of_inside_iff hs.sect_pos]
  constructor
  · intro h
    obtain ⟨w, hwalk⟩ := hwalks fun _ _ => false
    have htook := hwalk.took (hwalk.goes_on fun _ _ => rfl)
    exact (htook.inside_iff _).mp (h fun _ _ => false)
  · intro h cb
    obtain ⟨w, hwalk⟩ := hwalks cb
    obtain ⟨ss, htook, hpart, -⟩ := hwalk.part
    exact (htook.inside_iff _).mpr fun s hin => h s (hpart.subset hin)

end

/-! ## Mounting -/

/-- The driver of a volume, as the sector with the first half of its superblock describes it. -/
def mount_driver (dev : BlockDev) (disk : Word → Buf) : Driver :=
  .of_superblock dev (disk (2 + dev.lba_offset.setWidth 64))

/-- The blocks that mounting reads after the superblock: those of the root's inode, if there is an
ext2 on the device. -/
def mount_blocks (dev : BlockDev) (disk : Word → Buf) : List (BitVec 32) :=
  if u16 (disk (2 + dev.lba_offset.setWidth 64)) 56 ≠ EXT2_SIGNATURE then []
  else (mount_driver dev disk).inode_blocks disk EXT2_ROOT_INODE

section

variable {dev : BlockDev}

theorem partition_read_block.clean (b : Word) (dst : Buf) (io : Io) (h : io.fails io.reads = false) :
    partition_read_block dev b dst io =
      (true, fun j => if j < dev.blk_size.toNat then io.sectors (b + dev.lba_offset.setWidth 64) j
        else dst j,
        { io with reads := io.reads + 1, log := (b + dev.lba_offset.setWidth 64) :: io.log }) :=
  if_neg (by rw [h]; decide)

/-- The superblock as `ext2_probe` sees it. -/
theorem probe_superblock.reads (hblk : dev.blk_size = 512) {io : Io}
    (hgood : ∀ i, io.fails i = false) :
    io.Took (probe_superblock dev io).2
      [2 + dev.lba_offset.setWidth 64, 3 + dev.lba_offset.setWidth 64] ∧
    ∀ j < 512, (probe_superblock dev io).1 j = io.sectors (2 + dev.lba_offset.setWidth 64) j := by
  unfold probe_superblock
  dsimp only
  rw [partition_read_block.clean _ _ io.buffer.2 (hgood _)]
  dsimp only
  rw [partition_read_block.clean _ _ _ (by exact hgood _)]
  refine ⟨⟨rfl, rfl, rfl, rfl⟩, ?_⟩
  intro j hj
  have hfirst : j < dev.blk_size.toNat := by
    rw [hblk]
    exact hj
  rw [if_neg (by omega), if_pos hfirst]
  rfl

/-- The driver comes from the first half of the superblock. -/
theorem Driver.of_superblock_congr {sb sb' : Buf} (h : ∀ j < 512, sb j = sb' j) :
    Driver.of_superblock dev sb = Driver.of_superblock dev sb' := by
  have hu32 : ∀ off, off + 4 ≤ 512 → u32 sb off = u32 sb' off :=
    fun off hoff => u32_congr fun j hj => h _ (by omega)
  unfold Driver.of_superblock
  rw [hu32 24 (by decide), hu32 40 (by decide), hu32 76 (by decide), hu32 88 (by decide)]

/-- A block of 1024 bytes or more, or of none after the wrap of the shift, is a whole number of
sectors. -/
theorem Driver.of_superblock_fits (hblk : dev.blk_size = 512) (sb : Buf) :
    (Driver.of_superblock dev sb).Fits := by
  have hdvd : ∀ l < 32, 512 ∣ ((1024 : BitVec 32) <<< l).toNat := by decide
  constructor
  · show 0 < dev.blk_size.toNat
    rw [hblk]
    decide
  · show dev.blk_size.toNat ∣ _
    rw [hblk]
    exact hdvd _ (Nat.mod_lt _ (by decide))

/-- What mounting asks for. -/
theorem ext2_probe.asks (hblk : dev.blk_size = 512) {io : Io} (hgood : ∀ i, io.fails i = false) :
    io.Took (ext2_probe dev io).2 ([2 + dev.lba_offset.setWidth 64, 3 + dev.lba_offset.setWidth 64] ++
      sectors_of (mount_driver dev io.sectors) (mount_blocks dev io.sectors)) := by
  obtain ⟨htook, hsb⟩ := probe_superblock.reads hblk hgood
  rw [ext2_probe_eq]
  rcases hp : probe_superblock dev io with ⟨sb, io₁⟩
  rw [hp] at htook hsb
  have hmagic : u16 sb 56 = u16 (io.sectors (2 + dev.lba_offset.setWidth 64)) 56 :=
    u16_congr fun j hj => hsb _ (by omega)
  have hdrv : Driver.of_superblock dev sb = mount_driver dev io.sectors :=
    Driver.of_superblock_congr hsb
  unfold mount_blocks
  dsimp only
  rw [hmagic, hdrv]
  split
  · exact htook
  · have hinode := ((ext2_read_inode.asks (hdrv ▸ Driver.of_superblock_fits hblk sb) EXT2_ROOT_INODE
      io₁).clean fun i => by rw [htook.fails, hgood]).1
    rw [show io₁.sectors = io.sectors from htook.sectors] at hinode
    split
    · next heq =>
      rw [heq] at hinode
      exact htook.trans hinode
    · next heq =>
      rw [heq] at hinode
      exact htook.trans hinode

/-- The first four sectors belong to a partition of four sectors or more. -/
theorem superblock_inside_iff (dev : BlockDev) :
    (∀ s ∈ [2 + dev.lba_offset.setWidth 64, 3 + dev.lba_offset.setWidth 64], dev.Holds s) ↔
      4 ≤ dev.tot_length.toNat := by
  have hlba := dev.lba_offset.isLt
  have hnum : ∀ n : Nat, n < 4 → (BitVec.ofNat 64 n + dev.lba_offset.setWidth 64).toNat =
      n + dev.lba_offset.toNat := by
    intro n hn
    rw [BitVec.toNat_add, BitVec.toNat_ofNat, BitVec.toNat_setWidth_of_le (by decide)]
    omega
  have h2 := hnum 2 (by decide)
  have h3 := hnum 3 (by decide)
  unfold BlockDev.Holds
  simp only [List.mem_cons, List.not_mem_nil, or_false, forall_eq_or_imp, forall_eq]
  rw [show (2 : Word) = BitVec.ofNat 64 2 from rfl, show (3 : Word) = BitVec.ofNat 64 3 from rfl, h2, h3]
  omega

theorem Driver.inode_blocks_within_iff {drv : Driver} (hfit : drv.Fits) (disk : Word → Buf)
    (num : BitVec 32) :
    (∀ s ∈ sectors_of drv (drv.inode_blocks disk num), drv.dev.Holds s) ↔
      ∀ b ∈ drv.inode_blocks disk num, drv.Within b := by
  by_cases hsize : drv.block_size = 0
  · have hnone : drv.inode_blocks disk num = [] := if_pos (.inr (by rw [hsize]; rfl))
    simp [hnone, sectors_of]
  · exact sectors_of_inside_iff (hfit.sect_pos hsize) _

/-- What a mounted volume has, however its superblock looks. -/
theorem ext2_probe.mounted (hblk : dev.blk_size = 512) {io io' : Io} {sb : Superblock}
    (h : ext2_probe dev io = (some (some sb), io')) :
    sb.drv.dev = dev ∧ (∃ m, sb.drv.Sized m) ∧ sb.drv.ReadsInodes := by
  rw [ext2_probe_eq] at h
  split at h
  · simp at h
  · split at h
    · simp at h
    · next root_inode _ heq =>
      simp only [Prod.mk.injEq, Option.some.injEq] at h
      obtain ⟨rfl, -⟩ := h
      have hfit := Driver.of_superblock_fits hblk (probe_superblock dev io).1
      have hsome := (ext2_read_inode.returns EXT2_ROOT_INODE (probe_superblock dev io).2).mp
        (by rw [heq]; exact Option.some_ne_none root_inode)
      refine ⟨rfl, ?_, ?_⟩
      · have hshift : ∀ l < 32, ((1024 : BitVec 32) <<< l) / sizeof_group ≠ 0 →
            ((1024 : BitVec 32) <<< l).toNat = 2 ^ (10 + l) := by decide
        exact ⟨_, hfit, hshift _ (Nat.mod_lt _ (by decide)) hsome.2.1, Nat.le_add_right _ _⟩
      · intro num io
        obtain ⟨child, hchild⟩ := Option.ne_none_iff_exists'.mp
          ((ext2_read_inode.returns num io).mpr hsome)
        obtain ⟨ss, htook, -⟩ := ext2_read_inode.asks hfit num io
        exact ⟨child, _, Prod.ext hchild rfl, ss, htook⟩

end

/-! ## Reads through a partition -/

theorem MBR_init.blk_size_eq {blk_size : BitVec 32} {heap : Nat → Bool} {io : Io} {dev : BlockDev}
    (h : dev ∈ (MBR_init blk_size heap io).1) : dev.blk_size = blk_size := by
  unfold MBR_init at h
  dsimp only at h
  split at h
  · simp at h
  · split at h
    · simp at h
    · split at h
      · simp at h
      · obtain ⟨i, -, rfl⟩ := List.mem_map.mp h
        rfl

/-- For every partition that `MBR_init` registers on a disk with sectors of 512 bytes, and every
content of a disk that does not fail: mounting, reading an inode, listing a directory and reading a
file ask only for sectors of the partition if and only if the blocks that they are led to by the
volume end before the partition does. -/
theorem reads_stay_in_partition_iff (heap : Nat → Bool) (boot : Io) (dev : BlockDev)
    (hdev : dev ∈ (MBR_init 512 heap boot).1) :
    (∀ io : Io, (∀ i, io.fails i = false) →
      (StaysInside dev io (ext2_probe dev io).2 ↔ 4 ≤ dev.tot_length.toNat ∧
        ∀ b ∈ mount_blocks dev io.sectors, (mount_driver dev io.sectors).Within b)) ∧
    ∀ (sb : Superblock) (io io' : Io), ext2_probe dev io = (some (some sb), io') →
      ∀ io₁ : Io, (∀ i, io₁.fails i = false) →
      (∀ num, StaysInside dev io₁ (ext2_read_inode sb.drv num io₁).2 ↔
        ∀ b ∈ sb.drv.inode_blocks io₁.sectors num, sb.drv.Within b) ∧
      (∀ dir : Inode, dir.drv = sb.drv →
        ((∀ cb, StaysInside dev io₁ (ext2_readdir dir cb io₁).2) ↔
          ∀ b ∈ dir.blocks io₁.sectors, sb.drv.Within b)) ∧
      ∀ (f : File) (buf : Buf) (len : BitVec 32), f.inode.drv = sb.drv →
        (StaysInside dev io₁ (ext2_file_read (some f) buf len io₁).2 ↔
          ∀ b ∈ f.blocks io₁.sectors len, sb.drv.Within b) := by
  have hblk := MBR_init.blk_size_eq hdev
  constructor
  · intro io hgood
    rw [(ext2_probe.asks hblk hgood).inside_iff, ← superblock_inside_iff]
    simp only [List.mem_append, or_imp, forall_and]
    refine and_congr_right fun _ => ?_
    have hfit : (mount_driver dev io.sectors).Fits := Driver.of_superblock_fits hblk _
    unfold mount_blocks
    split
    · simp [sectors_of]
    · exact Driver.inode_blocks_within_iff hfit _ _
  · intro sb io io' hmount io₁ hgood
    obtain ⟨rfl, ⟨m, hs⟩, hd⟩ := ext2_probe.mounted hblk hmount
    refine ⟨?_, ?_, ?_⟩
    · intro num
      rw [((ext2_read_inode.asks hs.toFits num io₁).clean hgood).1.inside_iff]
      exact sectors_of_inside_iff hs.sect_pos _
    · intro dir hdrv
      rw [← hdrv] at hs hd ⊢
      exact ext2_readdir.inside_iff hs hd io₁ hgood
    · intro f buf len hdrv
      rw [← hdrv] at hs ⊢
      rw [((ext2_file_read.asks hs buf len io₁).clean hgood).1.inside_iff]
      exact sectors_of_inside_iff hs.sect_pos _

/-- A disk with one partition, of 16 sectors from sector 63 on, and an ext2 on it with blocks of 1024
bytes, 32 inodes in a group, and its inodes from block `table` on. -/
def one_partition_disk (table : BitVec 16) : Io where
  sectors := fun w j =>
    if w = 0 then
      if j = 450 then 0x83 else if j = 454 then 63 else if j = 458 then 16
      else if j = 510 then 0x55 else if j = 511 then 0xAA else 0
    else if w = 65 then
      if j = 40 then 32 else if j = 56 then 0x53 else if j = 57 then 0xEF else 0
    else if w = 67 then
      if j = 8 then table.setWidth 8 else if j = 9 then (table >>> 8).setWidth 8 else 0
    else 0
  fails := fun _ => false
  junk := fun _ _ => 0
  reads := 0
  allocs := 0
  log := []

deriving instance DecidableEq for BlockDev, Driver

/-- The partition of that disk. -/
def one_partition : BlockDev :=
  { blk_size := 512, tot_length := 16, fs_type := 0x83, lba_offset := 63 }

/-- The driver of its volume. -/
def one_partition_drv : Driver where
  dev := one_partition
  block_size := 1024
  block_start := 2
  inodes_per_group := 32
  rev_level := 0
  inodes_size := 0

theorem one_partition_mounts :
    mount_driver one_partition (one_partition_disk 5).sectors = one_partition_drv ∧
      mount_blocks one_partition (one_partition_disk 5).sectors = [2, 5] := by
  have hdrv : mount_driver one_partition (one_partition_disk 5).sectors = one_partition_drv := by
    decide +kernel
  have hmagic : ¬ u16 ((one_partition_disk 5).sectors
      (2 + one_partition.lba_offset.setWidth 64)) 56 ≠ EXT2_SIGNATURE := by
    decide +kernel
  refine ⟨hdrv, ?_⟩
  unfold mount_blocks
  rw [if_neg hmagic, hdrv]
  decide +kernel

/-- With its inodes in block 5 the volume is mounted without leaving the partition. -/
theorem reads_stay_in_partition_five :
    one_partition ∈ (MBR_init 512 (fun _ => true) (one_partition_disk 5)).1 ∧
      StaysInside one_partition (one_partition_disk 5)
        (ext2_probe one_partition (one_partition_disk 5)).2 := by
  have hdev : one_partition ∈ (MBR_init 512 (fun _ => true) (one_partition_disk 5)).1 := by
    decide +kernel
  refine ⟨hdev, ((reads_stay_in_partition_iff (fun _ => true) (one_partition_disk 5) one_partition
    hdev).1 (one_partition_disk 5) fun _ => rfl).mpr ⟨by decide, ?_⟩⟩
  rw [one_partition_mounts.1, one_partition_mounts.2]
  intro b hb
  rcases List.mem_pair.mp hb with rfl | rfl <;> decide

/-- With its inodes in block 1000, mounting asks for sector 2063 of the disk, far behind the end of the
partition. -/
theorem mounting_reads_outside_the_partition :
    one_partition ∈ (MBR_init 512 (fun _ => true) (one_partition_disk 1000)).1 ∧
      (ext2_probe one_partition (one_partition_disk 1000)).1.isSome ∧
      2063 ∈ (one_partition_disk 1000).asked (ext2_probe one_partition (one_partition_disk 1000)).2 ∧
      ¬ one_partition.Holds 2063 ∧
      ¬ StaysInside one_partition (one_partition_disk 1000)
        (ext2_probe one_partition (one_partition_disk 1000)).2 := by
  have hasked : 2063 ∈ (one_partition_disk 1000).asked
      (ext2_probe one_partition (one_partition_disk 1000)).2 := by decide +kernel
  have hout : ¬ one_partition.Holds 2063 := by decide
  exact ⟨by decide +kernel, by decide +kernel, hasked, hout,
    fun hall => hout (hall 2063 hasked)⟩

end JamsOs.Ext2
