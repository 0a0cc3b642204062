-- The block map and the reading of files, against what an ext2 volume says a file holds.
import JamsOs.Ext2Volume

namespace JamsOs.Ext2

open Words

/-! ## Trees of indirect blocks -/

/-- Entry `i` of an indirect block. -/
def entry (drv : Driver) (disk : Word → Buf) (b : BitVec 32) (i : Nat) : BitVec 32 :=
  u32 (block_bytes drv disk b) (4 * i)

/-- The number of entries of an indirect block. -/
def Driver.fanout (drv : Driver) : Nat := drv.block_size.toNat / 4

/-- Leaf `i` of the tree of indirect blocks of a depth below block `b`. Block 0 stands for none. -/
def tree (drv : Driver) (disk : Word → Buf) : Nat → BitVec 32 → Nat → BitVec 32
  | 0, b, _ => b
  | d + 1, b, i =>
    if b = 0 then 0
    else tree drv disk d (entry drv disk b (i / drv.fanout ^ d)) (i % drv.fanout ^ d)

/-- The sectors that are read on the way to a leaf. -/
def tree_path (drv : Driver) (disk : Word → Buf) : Nat → BitVec 32 → Nat → List Word
  | 0, _, _ => []
  | d + 1, b, i =>
    if b = 0 then []
    else block_sectors drv b ++
      tree_path drv disk d (entry drv disk b (i / drv.fanout ^ d)) (i % drv.fanout ^ d)

/-- Block `n` of a file, as ext2 lays files out: twelve direct blocks, then the leaves of a tree
of depth one, of one of depth two, and of one of depth three. -/
def block_of (inode : Inode) (disk : Word → Buf) (n : Nat) : BitVec 32 :=
  let p := inode.drv.fanout
  if n < 12 then inode.block n
  else if n < 12 + p then tree inode.drv disk 1 (inode.block 12) (n - 12)
  else if n < 12 + p + p ^ 2 then tree inode.drv disk 2 (inode.block 13) (n - 12 - p)
  else tree inode.drv disk 3 (inode.block 14) (n - 12 - p - p ^ 2)

/-- The tree, and the place in it, where the driver looks for block `n`: its depth, the number of
the pointer in the inode and the leaf. In the last tree the leaf is `p ^ 2` too far on. -/
def place (inode : Inode) (n : Nat) : Nat × Nat × Nat :=
  let p := inode.drv.fanout
  if n < 12 then (0, n, 0)
  else if n < 12 + p then (1, 12, n - 12)
  else if n < 12 + p + p ^ 2 then (2, 13, n - 12 - p)
  else (3, 14, n - 12 - p)

def mapped (inode : Inode) (disk : Word → Buf) (n : Nat) : BitVec 32 :=
  tree inode.drv disk (place inode n).1 (inode.block (place inode n).2.1) (place inode n).2.2

def mapped_path (inode : Inode) (disk : Word → Buf) (n : Nat) : List Word :=
  tree_path inode.drv disk (place inode n).1 (inode.block (place inode n).2.1) (place inode n).2.2

/-- The driver's map is that of ext2 up to the triply indirect blocks. -/
theorem mapped_eq_block_of {inode : Inode} {disk : Word → Buf} {n : Nat}
    (h : inode.block 14 = 0 ∨ n < 12 + inode.drv.fanout + inode.drv.fanout ^ 2) :
    mapped inode disk n = block_of inode disk n := by
  unfold mapped block_of place
  dsimp only
  split
  · rfl
  · split
    · rfl
    · split
      · rfl
      · have h14 : inode.block 14 = 0 := h.resolve_right (by omega)
        simp only [tree, h14, if_true]

/-! ## The block map -/

/-- A block size that a superblock can give. -/
structure Driver.Sized (drv : Driver) (m : Nat) : Prop extends drv.Fits where
  size : drv.block_size.toNat = 2 ^ m
  least : 10 ≤ m

theorem Driver.Sized.lt {drv : Driver} {m : Nat} (h : drv.Sized m) : m < 32 := by
  have hlt := drv.block_size.isLt
  rw [h.size] at hlt
  exact (Nat.pow_lt_pow_iff_right (by omega)).mp hlt

theorem Driver.Sized.fanout_eq {drv : Driver} {m : Nat} (h : drv.Sized m) :
    drv.fanout = 2 ^ (m - 2) := by
  have hm : m = m - 2 + 2 := by have := h.least; omega
  unfold Driver.fanout
  rw [h.size]
  nth_rewrite 1 [hm]
  rw [Nat.pow_add]
  exact Nat.mul_div_cancel _ (by decide)

theorem Driver.Sized.four_mul {drv : Driver} {m : Nat} (h : drv.Sized m) :
    4 * drv.fanout = drv.block_size.toNat := by
  have hm : m = m - 2 + 2 := by have := h.least; omega
  rw [h.fanout_eq, h.size]
  nth_rewrite 2 [hm]
  rw [Nat.pow_add, Nat.mul_comm]

theorem u32_congr {b b' : Buf} {off : Nat} (h : ∀ j < 4, b (off + j) = b' (off + j)) :
    u32 b off = u32 b' off := by
  unfold u32
  congr 1
  have h0 := h 0 (by decide)
  have h1 := h 1 (by decide)
  have h2 := h 2 (by decide)
  have h3 := h 3 (by decide)
  simp only [Nat.add_zero] at h0
  simp only [little_endian, Nat.add_assoc, h0, h1, h2, h3, Nat.reduceAdd]

theorem tree.leaf (drv : Driver) (io : Io) (e : BitVec 32) (i : Nat) :
    Follows io (some e, io) (tree_path drv io.sectors 0 e i)
      (fun v => v = some (tree drv io.sectors 0 e i)) :=
  Follows.pure ⟨rfl, rfl, rfl, rfl⟩ rfl

theorem tree.hole (drv : Driver) (io : Io) {b : BitVec 32} (hb : b = 0) (d i : Nat) :
    Follows io (some 0, io) (tree_path drv io.sectors (d + 1) b i)
      (fun v => v = some (tree drv io.sectors (d + 1) b i)) := by
  simp only [tree_path, tree, if_pos hb]
  exact Follows.pure ⟨rfl, rfl, rfl, rfl⟩ rfl

/-- Going down one level: if the rest of the way is right from the entry that was read, the whole
way is. -/
theorem tree.descend {drv : Driver} {m : Nat} (hs : drv.Sized m) {d i : Nat} {b : BitVec 32}
    (hb : b ≠ 0) (hi : i / drv.fanout ^ d < drv.fanout) {buf : Buf} {io : Io}
    {r : Option (BitVec 32) × Io}
    (h : ∀ e, e = u32 (ext2_read_block drv b buf io).1 (4 * (i / drv.fanout ^ d)) →
      Follows (ext2_read_block drv b buf io).2 r
        (tree_path drv (ext2_read_block drv b buf io).2.sectors d e (i % drv.fanout ^ d))
        (fun v => v = some
          (tree drv (ext2_read_block drv b buf io).2.sectors d e (i % drv.fanout ^ d)))) :
    Follows io r (tree_path drv io.sectors (d + 1) b i)
      (fun v => v = some (tree drv io.sectors (d + 1) b i)) := by
  simp only [tree_path, tree, if_neg hb]
  apply Follows.bind (ext2_read_block.follows hs.toFits b buf io) (h _ rfl)
  intro hdisk hbuf
  have he : u32 (ext2_read_block drv b buf io).1 (4 * (i / drv.fanout ^ d)) =
      entry drv io.sectors b (i / drv.fanout ^ d) := by
    apply u32_congr
    intro j hj
    have hfour := hs.four_mul
    rw [hbuf, if_pos (by omega)]
  rw [he, hdisk]
  exact ⟨rfl, id⟩

/-- A file of less than 2^32 bytes has no block past the last tree, and only a volume whose `p * p`
fits in 32 bits has files that go past the first. -/
theorem Driver.Sized.bounds {drv : Driver} {m n : Nat} (h : drv.Sized m)
    (hn : n * drv.block_size.toNat < 2 ^ 32) :
    n < drv.fanout ^ 3 ∧ (drv.fanout ≤ n → drv.fanout ^ 2 < 2 ^ 32) := by
  rw [h.size] at hn
  rw [h.fanout_eq]
  have hlo := h.least
  have hhi := h.lt
  interval_cases m <;> simp only [Nat.reduceSub, Nat.reducePow] at hn ⊢ <;> omega

theorem ext2_get_block_number.follows {inode : Inode} {m : Nat} (hs : inode.drv.Sized m)
    (logic_blk : BitVec 32) (io : Io)
    (hn : logic_blk.toNat * inode.drv.block_size.toNat < 2 ^ 32) :
    Follows io (ext2_get_block_number inode logic_blk io)
      (mapped_path inode io.sectors logic_blk.toNat)
      (fun v => v = some (mapped inode io.sectors logic_blk.toNat)) := by
  obtain ⟨hcube, hsquare⟩ := hs.bounds hn
  have hp : (inode.drv.block_size / 4).toNat = inode.drv.fanout := by
    rw [BitVec.toNat_udiv]
    rfl
  have hpos : 0 < inode.drv.fanout := by
    rw [hs.fanout_eq]
    exact Nat.two_pow_pos _
  unfold ext2_get_block_number mapped mapped_path place
  dsimp only
  by_cases h12 : logic_blk.toNat < 12
  · rw [if_pos (show logic_blk < 12 from h12), if_pos h12]
    exact Follows.pure ⟨rfl, rfl, rfl, rfl⟩ rfl
  have hsub : (logic_blk - 12).toNat = logic_blk.toNat - 12 :=
    BitVec.toNat_sub_of_le (BitVec.le_def.mpr (by simpa using h12))
  rw [if_neg (show ¬ logic_blk < 12 from h12), if_neg h12]
  by_cases h1 : logic_blk.toNat < 12 + inode.drv.fanout
  · -- one level
    rw [if_pos (BitVec.lt_def.mpr (by rw [hsub, hp]; omega)), if_pos h1]
    by_cases hb : inode.block 12 = 0
    · rw [if_pos hb]
      exact tree.hole _ io hb _ _
    rw [if_neg hb]
    apply Follows.after_buffer
    apply tree.descend hs hb (by rw [Nat.pow_zero, Nat.div_one]; dsimp only; omega)
    rintro e rfl
    rw [hsub, Nat.pow_zero, Nat.div_one]
    exact tree.leaf _ _ _ _
  have hsub' : (logic_blk - 12 - inode.drv.block_size / 4).toNat =
      logic_blk.toNat - 12 - inode.drv.fanout := by
    rw [BitVec.toNat_sub_of_le (BitVec.le_def.mpr (by rw [hsub, hp]; omega)), hsub, hp]
  have hpp : (inode.drv.block_size / 4 * (inode.drv.block_size / 4)).toNat =
      inode.drv.fanout ^ 2 := by
    rw [BitVec.toNat_mul, hp, ← Nat.pow_two]
    exact Nat.mod_eq_of_lt (hsquare (by omega))
  rw [if_neg (fun h => by have := BitVec.lt_def.mp h; rw [hsub, hp] at this; omega), if_neg h1]
  by_cases h2 : logic_blk.toNat < 12 + inode.drv.fanout + inode.drv.fanout ^ 2
  · -- two levels
    rw [if_pos (BitVec.lt_def.mpr (by rw [hsub', hpp]; omega)), if_pos h2]
    by_cases hb : inode.block 13 = 0
    · rw [if_pos hb]
      exact tree.hole _ io hb _ _
    rw [if_neg hb]
    apply Follows.after_buffer
    apply tree.descend hs hb
    · rw [Nat.pow_one]
      apply Nat.div_lt_of_lt_mul
      rw [← Nat.pow_two]
      dsimp only
      omega
    rintro e rfl
    rw [BitVec.toNat_udiv, BitVec.toNat_umod, hsub', hp, Nat.pow_one]
    split
    · next he => exact tree.hole _ _ he _ _
    next he =>
    apply tree.descend hs he (by rw [Nat.pow_zero, Nat.div_one]; exact Nat.mod_lt _ hpos)
    rintro e rfl
    rw [Nat.pow_zero, Nat.div_one]
    exact tree.leaf _ _ _ _
  -- three levels
  have hpp0 : inode.drv.block_size / 4 * (inode.drv.block_size / 4) ≠ 0 := by
    intro h0
    rw [h0] at hpp
    have := Nat.pow_pos (n := 2) hpos
    simp at hpp
    omega
  rw [if_neg (fun h => by have := BitVec.lt_def.mp h; rw [hsub', hpp] at this; omega), if_neg h2]
  by_cases hb : inode.block 14 = 0
  · rw [if_pos hb]
    exact tree.hole _ io hb _ _
  rw [if_neg hb, if_neg hpp0]
  apply Follows.after_buffer
  apply tree.descend hs hb
  · apply Nat.div_lt_of_lt_mul
    rw [← Nat.pow_succ]
    change logic_blk.toNat - 12 - inode.drv.fanout < inode.drv.fanout ^ 3
    omega
  rintro e rfl
  simp only [BitVec.toNat_udiv, BitVec.toNat_umod, hsub', hp, hpp]
  split
  · next he => exact tree.hole _ _ he _ _
  next he =>
  apply tree.descend hs he
  · rw [Nat.pow_one]
    apply Nat.div_lt_of_lt_mul
    rw [← Nat.pow_two]
    exact Nat.mod_lt _ (Nat.pow_pos hpos)
  rintro e rfl
  rw [Nat.pow_one]
  split
  · next he' => exact tree.hole _ _ he' _ _
  next he' =>
  apply tree.descend hs he' (by rw [Nat.pow_zero, Nat.div_one]; exact Nat.mod_lt _ hpos)
  rintro e rfl
  rw [Nat.pow_zero, Nat.div_one]
  exact tree.leaf _ _ _ _

/-! ## The bytes of a file -/

/-- Byte `j` of block `b` of a volume, where block 0 stands for a hole. -/
def byte_of_block (drv : Driver) (disk : Word → Buf) (b : BitVec 32) (j : Nat) : BitVec 8 :=
  if b = 0 then 0 else block_bytes drv disk b j

/-- Byte `x` of a file, as ext2 lays files out. -/
def file_byte (inode : Inode) (disk : Word → Buf) (x : Nat) : BitVec 8 :=
  let bs := inode.drv.block_size.toNat
  byte_of_block inode.drv disk (block_of inode disk (x / bs)) (x % bs)

/-- Byte `x` of a file, through the driver's map. -/
def mapped_byte (inode : Inode) (disk : Word → Buf) (x : Nat) : BitVec 8 :=
  let bs := inode.drv.block_size.toNat
  byte_of_block inode.drv disk (mapped inode disk (x / bs)) (x % bs)

/-- The sectors that are read for block `n` of a file. -/
def file_block_path (inode : Inode) (disk : Word → Buf) (n : Nat) : List Word :=
  mapped_path inode disk n ++
    if mapped inode disk n = 0 then [] else block_sectors inode.drv (mapped inode disk n)

/-- How much one turn of the loop reads at a position. -/
def Driver.chunk (drv : Driver) (off len : Nat) : Nat :=
  min len (drv.block_size.toNat - off % drv.block_size.toNat)

/-- The sectors that are read for `len` bytes from a position on, in at most `fuel` turns. -/
def read_path (inode : Inode) (disk : Word → Buf) : Nat → Nat → Nat → List Word
  | 0, _, _ => []
  | fuel + 1, off, len =>
    if len = 0 then []
    else file_block_path inode disk (off / inode.drv.block_size.toNat) ++
      read_path inode disk fuel (off + inode.drv.chunk off len) (len - inode.drv.chunk off len)

/-- From `r` the loop went on to `r'` over `n` bytes. -/
structure Reading.Moved (r r' : Reading) (n : Nat) : Prop where
  out : r'.out = r.out + n
  offset : r'.offset.toNat = r.offset.toNat + n
  len : r'.len.toNat = r.len.toNat - n
  bytes_read : r'.bytes_read = r.bytes_read + BitVec.ofNat 32 n

/-- And it stored these bytes of the file, and nothing else. -/
structure Reading.Stored (inode : Inode) (disk : Word → Buf) (r r' : Reading) (n : Nat) : Prop
    extends Reading.Moved r r' n where
  buf : ∀ j, r'.buf j =
    if r.out ≤ j ∧ j < r.out + n then mapped_byte inode disk (r.offset.toNat + (j - r.out))
    else r.buf j

theorem Reading.Stored.refl (inode : Inode) (disk : Word → Buf) (r : Reading) :
    Reading.Stored inode disk r r 0 where
  out := rfl
  offset := rfl
  len := rfl
  bytes_read := by simp
  buf j := by rw [if_neg (by omega)]

theorem Reading.Stored.trans {inode : Inode} {disk : Word → Buf} {r r' r'' : Reading} {n n' : Nat}
    (h : Reading.Stored inode disk r r' n) (h' : Reading.Stored inode disk r' r'' n') :
    Reading.Stored inode disk r r'' (n + n') where
  out := by rw [h'.out, h.out, Nat.add_assoc]
  offset := by rw [h'.offset, h.offset, Nat.add_assoc]
  len := by rw [h'.len, h.len, Nat.sub_sub]
  bytes_read := by rw [h'.bytes_read, h.bytes_read, BitVec.ofNat_add, BitVec.add_assoc]
  buf j := by
    rw [h'.buf, h.buf, h.out, h.offset]
    by_cases hj : r.out ≤ j ∧ j < r.out + n
    · rw [if_neg (by omega), if_pos hj, if_pos (by omega)]
    · by_cases hj' : r.out + n ≤ j ∧ j < r.out + n + n'
      · rw [if_pos hj', if_pos (by omega)]
        congr 1
        omega
      · rw [if_neg hj', if_neg hj, if_neg (by omega)]

/-- The positions of one block are mapped together. -/
theorem mapped_byte_add (inode : Inode) (disk : Word → Buf) {x i : Nat}
    (h : x % inode.drv.block_size.toNat + i < inode.drv.block_size.toNat) :
    mapped_byte inode disk (x + i) = byte_of_block inode.drv disk
      (mapped inode disk (x / inode.drv.block_size.toNat)) (x % inode.drv.block_size.toNat + i) := by
  have hx := Nat.div_add_mod x inode.drv.block_size.toNat
  have hsum : x + i = x % inode.drv.block_size.toNat + i +
      inode.drv.block_size.toNat * (x / inode.drv.block_size.toNat) := by omega
  unfold mapped_byte
  dsimp only
  rw [hsum, Nat.add_mul_div_left _ _ (by omega), Nat.add_mul_mod_self_left, Nat.div_eq_of_lt h,
    Nat.mod_eq_of_lt h, Nat.zero_add]

theorem Reading.Moved.of_copy {r : Reading} {to_read : BitVec 32} {source temp : Buf}
    (hle : to_read.toNat ≤ r.len.toNat) (hoff : r.offset.toNat + r.len.toNat < 2 ^ 32) :
    r.Moved (r.copy source to_read temp) to_read.toNat where
  out := rfl
  offset := by
    unfold Reading.copy
    rw [BitVec.toNat_add, BitVec.toNat_setWidth_of_le (by decide)]
    exact Nat.mod_eq_of_lt (by omega)
  len := BitVec.toNat_sub_of_le (BitVec.le_def.mpr hle)
  bytes_read := by
    rw [BitVec.ofNat_toNat, BitVec.setWidth_eq]
    rfl

theorem Reading.Stored.of_copy {inode : Inode} {disk : Word → Buf} {r : Reading}
    {to_read : BitVec 32} {source temp : Buf} (hle : to_read.toNat ≤ r.len.toNat)
    (hoff : r.offset.toNat + r.len.toNat < 2 ^ 32)
    (hsource : ∀ i < to_read.toNat, source i = mapped_byte inode disk (r.offset.toNat + i)) :
    Reading.Stored inode disk r (r.copy source to_read temp) to_read.toNat where
  toMoved := Reading.Moved.of_copy hle hoff
  buf j := by
    unfold Reading.copy
    dsimp only
    split
    · exact hsource _ (by omega)
    · rfl

/-- The numbers of one turn: the block and the place in it, and how much is read there. -/
theorem read_turn.numbers {drv : Driver} (hbs : 0 < drv.block_size.toNat) {offset : Word}
    {len : BitVec 32} (hoff : offset.toNat + len.toNat < 2 ^ 32) :
    ((offset / drv.block_size.setWidth 64).setWidth 32 : BitVec 32).toNat =
      offset.toNat / drv.block_size.toNat ∧
    ((offset % drv.block_size.setWidth 64).setWidth 32 : BitVec 32).toNat =
      offset.toNat % drv.block_size.toNat ∧
    (if len < drv.block_size - (offset % drv.block_size.setWidth 64).setWidth 32 then len
      else drv.block_size - (offset % drv.block_size.setWidth 64).setWidth 32).toNat =
      drv.chunk offset.toNat len.toNat := by
  have h64 : (drv.block_size.setWidth 64).toNat = drv.block_size.toNat :=
    BitVec.toNat_setWidth_of_le (by decide)
  have hmod := Nat.mod_lt offset.toNat hbs
  have hbo : ((offset % drv.block_size.setWidth 64).setWidth 32 : BitVec 32).toNat =
      offset.toNat % drv.block_size.toNat := by
    rw [BitVec.toNat_setWidth, BitVec.toNat_umod, h64]
    exact Nat.mod_eq_of_lt (hmod.trans drv.block_size.isLt)
  have hroom : (drv.block_size - (offset % drv.block_size.setWidth 64).setWidth 32).toNat =
      drv.block_size.toNat - offset.toNat % drv.block_size.toNat := by
    rw [BitVec.toNat_sub_of_le (BitVec.le_def.mpr (by rw [hbo]; omega)), hbo]
  refine ⟨?_, hbo, ?_⟩
  · rw [BitVec.toNat_setWidth, BitVec.toNat_udiv, h64]
    exact Nat.mod_eq_of_lt ((Nat.div_le_self _ _).trans_lt (by omega))
  · unfold Driver.chunk
    rw [← hroom]
    split
    · next h => exact (Nat.min_eq_left (BitVec.lt_def.mp h).le).symm
    · next h =>
      have hle := Nat.le_of_not_lt (fun hlt => h (BitVec.lt_def.mpr hlt))
      exact (Nat.min_eq_right hle).symm

theorem Driver.Sized.pos_size {drv : Driver} {m : Nat} (h : drv.Sized m) :
    0 < drv.block_size.toNat := by
  rw [h.size]
  exact Nat.two_pow_pos _

theorem Driver.Sized.size_ne_zero {drv : Driver} {m : Nat} (h : drv.Sized m) : drv.block_size ≠ 0 := by
  intro h0
  have hpos := h.pos_size
  rw [h0] at hpos
  exact absurd hpos (by decide)

theorem Driver.Sized.half {drv : Driver} {m : Nat} (h : drv.Sized m) :
    drv.block_size.toNat ≤ 2 ^ 31 := by
  rw [h.size]
  exact Nat.pow_le_pow_right (n := 2) (by decide) (Nat.le_of_lt_succ h.lt)

/-- A turn reads something, and not more than is left. -/
theorem Driver.Sized.chunk_bounds {drv : Driver} {m len : Nat} (h : drv.Sized m) (off : Nat)
    (hlen : 0 < len) : 0 < drv.chunk off len ∧ drv.chunk off len ≤ len := by
  have hmod := Nat.mod_lt off h.pos_size
  unfold Driver.chunk
  omega

/-- What one turn of the loop does. -/
theorem read_turn.follows {inode : Inode} {m : Nat} (hs : inode.drv.Sized m) (r : Reading) (io : Io)
    (hoff : r.offset.toNat + r.len.toNat < 2 ^ 32) :
    Follows io (read_turn inode r io)
      (file_block_path inode io.sectors (r.offset.toNat / inode.drv.block_size.toNat))
      (fun v => ∃ r', v = some r' ∧
        Reading.Stored inode io.sectors r r' (inode.drv.chunk r.offset.toNat r.len.toNat)) := by
  have hbs := hs.pos_size
  have hbs0 : inode.drv.block_size ≠ 0 := by
    intro h0
    rw [h0] at hbs
    exact absurd hbs (by decide)
  obtain ⟨hblk, hbo, hchunk⟩ := read_turn.numbers hbs hoff
  unfold read_turn
  dsimp only
  rw [if_neg hbs0]
  generalize (if r.len < inode.drv.block_size -
      (r.offset % inode.drv.block_size.setWidth 64).setWidth 32 then r.len
      else inode.drv.block_size - (r.offset % inode.drv.block_size.setWidth 64).setWidth 32)
    = to_read at hchunk ⊢
  rw [← hchunk]
  have hle : to_read.toNat ≤ r.len.toNat := by
    rw [hchunk]
    exact Nat.min_le_left _ _
  have hfit : r.offset.toNat % inode.drv.block_size.toNat + to_read.toNat ≤
      inode.drv.block_size.toNat := by
    have hmod := Nat.mod_lt r.offset.toNat hbs
    unfold Driver.chunk at hchunk
    omega
  have hget := ext2_get_block_number.follows hs
    ((r.offset / inode.drv.block_size.setWidth 64).setWidth 32) io (by
      rw [hblk]
      exact (Nat.div_mul_le_self _ _).trans_lt (by omega))
  rw [hblk] at hget
  unfold file_block_path
  rcases hv : ext2_get_block_number inode
    ((r.offset / inode.drv.block_size.setWidth 64).setWidth 32) io with ⟨_ | phys, io'⟩
  · rw [hv] at hget
    exact hget.absurd (Io.Took.refl io') nofun
  rw [hv] at hget
  dsimp only
  by_cases h0 : phys = 0
  · rw [if_pos h0]
    apply Follows.bind hget (Follows.pure (Q := fun _ => True) (Io.Took.refl io') trivial)
    intro _ hphys
    cases hphys
    refine ⟨(if_pos h0).symm, fun _ => ⟨_, rfl, Reading.Stored.of_copy hle hoff ?_⟩⟩
    intro i hi
    rw [mapped_byte_add _ _ (by omega), h0]
    rfl
  · rw [if_neg h0]
    have hread : Follows io' (some (r.copy (fun j =>
          (ext2_read_block inode.drv phys r.temp_block io').1
            (((r.offset % inode.drv.block_size.setWidth 64).setWidth 32 : BitVec 32).toNat + j))
          to_read (ext2_read_block inode.drv phys r.temp_block io').1),
          (ext2_read_block inode.drv phys r.temp_block io').2)
        (block_sectors inode.drv phys)
        (fun v => io'.sectors = io.sectors →
          phys = mapped inode io.sectors (r.offset.toNat / inode.drv.block_size.toNat) →
          ∃ r', v = some r' ∧ Reading.Stored inode io.sectors r r' to_read.toNat) := by
      apply (ext2_read_block.follows hs.toFits phys r.temp_block io').map (fun temp_block =>
        some (r.copy (fun j => temp_block
          (((r.offset % inode.drv.block_size.setWidth 64).setWidth 32 : BitVec 32).toNat + j))
          to_read temp_block))
      intro hbuf hdisk hphys
      refine ⟨_, rfl, Reading.Stored.of_copy hle hoff ?_⟩
      intro i hi
      rw [hbo, hbuf, if_pos (by omega), mapped_byte_add _ _ (by omega), ← hphys, hdisk]
      exact (if_neg h0).symm
    apply Follows.bind hget hread
    intro hdisk hphys
    cases hphys
    exact ⟨(if_neg h0).symm, fun h => h hdisk rfl⟩

/-- A turn moves on by the same amount whatever the reads gave. -/
theorem read_turn.moved {inode : Inode} {m : Nat} (hs : inode.drv.Sized m) {r r' : Reading}
    {io io' : Io} (hoff : r.offset.toNat + r.len.toNat < 2 ^ 32)
    (h : read_turn inode r io = (some r', io')) :
    r.Moved r' (inode.drv.chunk r.offset.toNat r.len.toNat) := by
  obtain ⟨-, -, hchunk⟩ := read_turn.numbers hs.pos_size hoff
  rw [← hchunk]
  have hle := hchunk.trans_le (Nat.min_le_left _ _)
  unfold read_turn at h
  dsimp only at h
  split at h
  · cases h
  · split at h
    · cases h
    · split at h
      · cases h
        exact Reading.Moved.of_copy hle hoff
      · cases h
        exact Reading.Moved.of_copy hle hoff

/-- The loop reads what is left, in as many turns as there are bytes at most. -/
theorem read_loop.follows {inode : Inode} {m : Nat} (hs : inode.drv.Sized m) (fuel : Nat)
    (r : Reading) (io : Io) (hoff : r.offset.toNat + r.len.toNat < 2 ^ 32)
    (hlen : r.len.toNat < 2 ^ 31) (hfuel : r.len.toNat ≤ fuel) :
    Follows io (read_loop inode fuel r io)
      (read_path inode io.sectors fuel r.offset.toNat r.len.toNat)
      (fun v => ∃ r', v = some r' ∧ Reading.Stored inode io.sectors r r' r.len.toNat) := by
  induction fuel generalizing r io with
  | zero =>
    have h0 : r.len.toNat = 0 := by omega
    apply Follows.pure (Io.Took.refl io)
    rw [h0]
    exact ⟨r, rfl, Reading.Stored.refl _ _ r⟩
  | succ fuel ih =>
    have hint : r.len.toInt = r.len.toNat := BitVec.toInt_eq_toNat_of_lt (by omega)
    unfold read_loop read_path
    by_cases h0 : r.len.toNat = 0
    · rw [if_pos (by omega), if_pos h0]
      apply Follows.pure (Io.Took.refl io)
      rw [h0]
      exact ⟨r, rfl, Reading.Stored.refl _ _ r⟩
    rw [if_neg (by omega), if_neg h0]
    have hchunk := hs.chunk_bounds r.offset.toNat (Nat.pos_of_ne_zero h0)
    have hturn := read_turn.follows hs r io hoff
    rcases hv : read_turn inode r io with ⟨_ | r', io'⟩
    · rw [hv] at hturn
      exact hturn.absurd (Io.Took.refl io') (by rintro ⟨_, ⟨⟩, _⟩)
    · rw [hv] at hturn
      have hmoved := read_turn.moved hs hoff hv
      have hoff' := hmoved.offset
      have hlen' := hmoved.len
      dsimp only
      apply Follows.bind hturn (ih r' io' (by omega) (by omega) (by omega))
      intro hdisk hstored
      rw [hoff', hlen', show io'.sectors = io.sectors from hdisk]
      refine ⟨rfl, ?_⟩
      rintro ⟨r'', hr'', hrest⟩
      obtain ⟨_, ⟨⟩, hfirst⟩ := hstored
      refine ⟨r'', hr'', ?_⟩
      have hall := hfirst.trans hrest
      rwa [Nat.add_sub_cancel' hchunk.2] at hall

/-! ## Reading a file -/

/-- How much a read of `len` bytes can give at the position of a file. -/
def File.available (f : File) (len : Nat) : Nat := min len (f.inode.size.toNat - f.offset.toNat)

/-- The sectors that a read of `len` bytes asks for. -/
def File.path (f : File) (disk : Word → Buf) (len : Nat) : List Word :=
  read_path f.inode disk (f.available len) f.offset.toNat (f.available len)

/-- The clamp of the length, for a length that is not negative. -/
theorem File.clamp {f : File} {len : BitVec 32} (hlen : 0 ≤ len.toInt)
    (hoff : f.offset.toNat < f.inode.size.toNat) :
    (if f.inode.size.setWidth 64 < f.offset + len.signExtend 64 then
      (f.inode.size.setWidth 64 - f.offset).setWidth 32 else len : BitVec 32).toNat =
      f.available len.toNat ∧ f.available len.toNat < 2 ^ 31 := by
  have hmsb : len.msb = false := by
    rw [BitVec.msb_eq_toInt]
    simpa using hlen
  have hlt : len.toNat < 2 ^ 31 := by
    have := BitVec.msb_eq_false_iff_two_mul_lt.mp hmsb
    omega
  have hsize := f.inode.size.isLt
  have h64 : (f.inode.size.setWidth 64).toNat = f.inode.size.toNat :=
    BitVec.toNat_setWidth_of_le (by decide)
  have hend : (f.offset + len.signExtend 64).toNat = f.offset.toNat + len.toNat := by
    rw [BitVec.signExtend_eq_setWidth_of_msb_false hmsb, BitVec.toNat_add,
      BitVec.toNat_setWidth_of_le (by decide)]
    exact Nat.mod_eq_of_lt (by omega)
  unfold File.available
  split
  · next h =>
    have hless := BitVec.lt_def.mp h
    rw [h64, hend] at hless
    rw [BitVec.toNat_setWidth, BitVec.toNat_sub_of_le (BitVec.le_def.mpr (by rw [h64]; omega)), h64]
    omega
  · next h =>
    have hless := Nat.le_of_not_lt (fun hc => h (BitVec.lt_def.mpr hc))
    rw [h64, hend] at hless
    omega

theorem File.inside {f : File} (h : ¬ f.inode.size.setWidth 64 ≤ f.offset) :
    f.offset.toNat < f.inode.size.toNat := by
  have hlt := Nat.lt_of_not_le fun hc => h (BitVec.le_def.mpr hc)
  rwa [BitVec.toNat_setWidth_of_le (by decide)] at hlt

theorem File.available_end {f : File} (h : f.offset.toNat < f.inode.size.toNat) (n : Nat) :
    f.offset.toNat + f.available n < 2 ^ 32 := by
  have := f.inode.size.isLt
  unfold File.available
  omega

/-- A read gives as much as there is, and the bytes that the driver's map gives. -/
theorem ext2_file_read.follows {f : File} {m : Nat} (hs : f.inode.drv.Sized m) (buf : Buf)
    (len : BitVec 32) (io : Io) (hlen : 0 ≤ len.toInt) :
    Follows io (ext2_file_read (some f) buf len io) (f.path io.sectors len.toNat)
      (fun v => v = some (BitVec.ofNat 32 (f.available len.toNat),
        (fun j => if j < f.available len.toNat then
          mapped_byte f.inode io.sectors (f.offset.toNat + j) else buf j),
        some { f with offset := f.offset + BitVec.ofNat 64 (f.available len.toNat) })) := by
  unfold ext2_file_read File.path
  dsimp only
  by_cases hend : f.inode.size.setWidth 64 ≤ f.offset
  · have hle := BitVec.le_def.mp hend
    rw [BitVec.toNat_setWidth_of_le (by decide)] at hle
    have h0 : f.available len.toNat = 0 := by
      unfold File.available
      omega
    rw [if_pos hend, h0]
    apply Follows.pure (Io.Took.refl io)
    simp
  obtain ⟨hclamp, hpositive⟩ := File.clamp hlen (File.inside hend)
  have hsum := File.available_end (File.inside hend) len.toNat
  rw [if_neg hend]
  generalize (if f.inode.size.setWidth 64 < f.offset + len.signExtend 64 then
    (f.inode.size.setWidth 64 - f.offset).setWidth 32 else len : BitVec 32) = n at hclamp ⊢
  apply Follows.after_buffer
  have hloop := read_loop.follows hs n.toNat ⟨buf, 0, f.offset, n, 0, io.buffer.1⟩ io.buffer.2
    (by dsimp only; omega) (by dsimp only; omega) le_rfl
  dsimp only at hloop
  rw [hclamp] at hloop ⊢
  have hdisk : io.buffer.2.sectors = io.sectors := rfl
  rw [hdisk] at hloop
  rcases hv : read_loop f.inode (f.available len.toNat) ⟨buf, 0, f.offset, n, 0, io.buffer.1⟩
    io.buffer.2 with ⟨_ | r, io'⟩
  · rw [hv] at hloop
    apply hloop.map (fun _ => none)
    rintro ⟨_, ⟨⟩, _⟩
  · rw [hv] at hloop
    apply hloop.map (fun _ => some (r.bytes_read, r.buf, some (⟨f.inode, r.offset⟩ : File)))
    rintro ⟨_, ⟨⟩, hstored⟩
    have hbuf : r.buf = fun j => if j < f.available len.toNat then
        mapped_byte f.inode io.sectors (f.offset.toNat + j) else buf j := by
      funext j
      simpa using hstored.buf j
    have hoffset : r.offset = f.offset + BitVec.ofNat 64 (f.available len.toNat) := by
      apply BitVec.eq_of_toNat_eq
      rw [hstored.offset, BitVec.toNat_add, BitVec.toNat_ofNat]
      dsimp only
      omega
    rw [hbuf, hoffset, hstored.bytes_read]
    simp

end JamsOs.Ext2
