-- Where inodes are on a volume, by the flat formula of ext2: the table of group descriptors is one
-- array, and so is the inode table of each group. The divisions of `ext2_read_inode` find the right
-- block and the right place in it because the sizes are powers of two.
import JamsOs.Ext2Inodes
import JamsOs.Ext2Reads

namespace JamsOs.Ext2

open Words

/-! ## The volume as one array of bytes -/

/-- Byte `x` of the volume. -/
def volume_byte (drv : Driver) (disk : Word → Buf) (x : Nat) : BitVec 8 :=
  block_bytes drv disk (BitVec.ofNat 32 (x / drv.block_size.toNat)) (x % drv.block_size.toNat)

/-- The volume from byte `x` on. -/
def volume_from (drv : Driver) (disk : Word → Buf) (x : Nat) : Buf := fun j =>
  volume_byte drv disk (x + j)

/-- The group of inode `n`, and its number in the group. -/
def Driver.group (drv : Driver) (n : Nat) : Nat := (n - 1) / drv.inodes_per_group.toNat

def Driver.group_index (drv : Driver) (n : Nat) : Nat := (n - 1) % drv.inodes_per_group.toNat

/-- Where the descriptor of group `g` is. -/
def Driver.descriptor_offset (drv : Driver) (g : Nat) : Nat :=
  drv.block_start.toNat * drv.block_size.toNat + g * 32

/-- Where the inode table of group `g` is, by the field `inode_table` of its descriptor. -/
def Driver.table_offset (drv : Driver) (disk : Word → Buf) (g : Nat) : Nat :=
  (u32 (volume_from drv disk (drv.descriptor_offset g)) 8).toNat * drv.block_size.toNat

/-- Where inode `n` is. -/
def Driver.inode_offset (drv : Driver) (disk : Word → Buf) (n : Nat) : Nat :=
  drv.table_offset disk (drv.group n) + drv.group_index n * drv.inode_size.toNat

/-- The end of the inode table of group `g`. -/
def Driver.table_end (drv : Driver) (disk : Word → Buf) (g : Nat) : Nat :=
  drv.table_offset disk g + drv.inodes_per_group.toNat * drv.inode_size.toNat

/-- The geometry of a volume: a block size of 1 KB to 64 KB, inodes of 128 bytes or a larger power
of two up to the block size, and the place of the descriptors that goes with the block size. -/
structure Driver.Legal (drv : Driver) (k : Nat) : Prop extends drv.Fits where
  size : drv.block_size.toNat = 1024 * 2 ^ k
  most : k ≤ 6
  start : drv.block_start = if drv.block_size = 1024 then 2 else 1
  groups : drv.inodes_per_group ≠ 0
  power : ∃ a, 7 ≤ a ∧ drv.inode_size.toNat = 2 ^ a
  inodes : drv.inode_size.toNat ≤ drv.block_size.toNat

section

variable {drv : Driver} {k : Nat} {disk : Word → Buf} {num : BitVec 32}

theorem Driver.Legal.sized (h : drv.Legal k) : drv.Sized (10 + k) := by
  refine { h.toFits with size := ?_, least := by omega }
  rw [h.size, Nat.pow_add]

theorem Driver.Legal.room (h : drv.Legal k) : 128 ≤ drv.inode_size.toNat := by
  obtain ⟨a, ha, hsize⟩ := h.power
  rw [hsize]
  exact Nat.pow_le_pow_right (n := 2) (by decide) ha

theorem Driver.Legal.divides (h : drv.Legal k) : drv.Divides :=
  ⟨h.groups, by have := h.room; omega, h.inodes⟩

/-- The inodes of a block fill it. -/
theorem Driver.Legal.fills (h : drv.Legal k) : drv.inode_size.toNat ∣ drv.block_size.toNat := by
  obtain ⟨a, ha, hsize⟩ := h.power
  have hle := h.inodes
  rw [hsize, h.sized.size] at hle ⊢
  exact Nat.pow_dvd_pow 2 ((Nat.pow_le_pow_iff_right (by decide)).mp hle)

theorem Driver.Legal.start_le (h : drv.Legal k) : drv.block_start.toNat ≤ 2 := by
  rw [h.start]
  split <;> decide

/-! ## Arrays of records -/

/-- Record `i` of an array that starts at block `t`: which block it is in, and where. -/
theorem record_place {B S : Nat} (hB : 0 < B) (hdvd : S ∣ B) (t i : Nat) :
    (t * B + i * S) / B = t + i / (B / S) ∧ (t * B + i * S) % B = i % (B / S) * S := by
  obtain ⟨c, rfl⟩ := hdvd
  have hS : 0 < S := Nat.pos_of_mul_pos_right hB
  have hc : 0 < c := Nat.pos_of_mul_pos_left hB
  rw [Nat.mul_div_cancel_left _ hS]
  have hlt : i % c * S < S * c := by
    rw [Nat.mul_comm]
    exact (Nat.mul_lt_mul_left hS).mpr (Nat.mod_lt i hc)
  have hsum : t * (S * c) + i * S = i % c * S + S * c * (t + i / c) := by
    have hi := Nat.div_add_mod i c
    calc t * (S * c) + i * S = t * (S * c) + (c * (i / c) + i % c) * S := by rw [hi]
      _ = i % c * S + S * c * (t + i / c) := by ring
  rw [hsum]
  constructor
  · rw [Nat.add_mul_div_left _ _ hB, Nat.div_eq_of_lt hlt, Nat.zero_add]
  · rw [Nat.add_mul_mod_self_left, Nat.mod_eq_of_lt hlt]

/-- Two records of one array do not overlap. -/
theorem records_apart {i j : Nat} (S : Nat) (h : i ≠ j) : i * S + S ≤ j * S ∨ j * S + S ≤ i * S := by
  rw [← Nat.succ_mul, ← Nat.succ_mul]
  rcases Nat.lt_or_gt_of_ne h with hlt | hlt
  · exact Or.inl (Nat.mul_le_mul_right S hlt)
  · exact Or.inr (Nat.mul_le_mul_right S hlt)

/-- The bytes of the volume that lie in the block of byte `x`. -/
theorem volume_byte_add {x i : Nat}
    (h : x % drv.block_size.toNat + i < drv.block_size.toNat) :
    volume_byte drv disk (x + i) = block_bytes drv disk
      (BitVec.ofNat 32 (x / drv.block_size.toNat)) (x % drv.block_size.toNat + i) := by
  have hx := Nat.div_add_mod x drv.block_size.toNat
  have hsum : x + i = x % drv.block_size.toNat + i +
      drv.block_size.toNat * (x / drv.block_size.toNat) := by omega
  unfold volume_byte
  rw [hsum, Nat.add_mul_div_left _ _ (by omega), Nat.add_mul_mod_self_left, Nat.div_eq_of_lt h,
    Nat.mod_eq_of_lt h, Nat.zero_add]

theorem u32_eq {b b' : Buf} {off off' : Nat} (h : ∀ j < 4, b (off + j) = b' (off' + j)) :
    u32 b off = u32 b' off' := by
  have h0 := h 0 (by decide)
  have h1 := h 1 (by decide)
  have h2 := h 2 (by decide)
  have h3 := h 3 (by decide)
  simp only [Nat.add_zero] at h0
  simp only [u32, little_endian, Nat.add_assoc, Nat.reduceAdd, h0, h1, h2, h3]

/-! ## The divisions of `ext2_read_inode` -/

theorem num_sub_one (h : 1 ≤ num.toNat) : (num - 1).toNat = num.toNat - 1 :=
  BitVec.toNat_sub_of_le (BitVec.le_def.mpr h)

/-- The descriptor of the group is read from its block, and the number of the block does not wrap. -/
theorem Driver.Legal.descriptor (h : drv.Legal k) (hnum : 1 ≤ num.toNat) :
    (drv.descriptor_block num).toNat =
      drv.descriptor_offset (drv.group num.toNat) / drv.block_size.toNat ∧
    ((num - 1) / drv.inodes_per_group % (drv.block_size / sizeof_group)).toNat * 32 =
      drv.descriptor_offset (drv.group num.toNat) % drv.block_size.toNat := by
  have h32 : 32 ∣ drv.block_size.toNat := by
    rw [h.size]
    exact Dvd.dvd.mul_right (by decide) _
  have hper : (drv.block_size / sizeof_group).toNat = drv.block_size.toNat / 32 := by
    rw [BitVec.toNat_udiv]
    rfl
  have hgroup : ((num - 1) / drv.inodes_per_group).toNat = drv.group num.toNat := by
    rw [BitVec.toNat_udiv, num_sub_one hnum]
    rfl
  obtain ⟨hdiv, hmod⟩ := record_place h.sized.pos_size h32 drv.block_start.toNat (drv.group num.toNat)
  unfold Driver.descriptor_offset
  rw [hdiv, hmod, BitVec.toNat_umod, hgroup, hper]
  refine ⟨?_, rfl⟩
  have hstart := h.start_le
  have hg : drv.group num.toNat < 2 ^ 32 := by
    rw [← hgroup]
    exact BitVec.isLt _
  have hsmall : drv.group num.toNat / (drv.block_size.toNat / 32) ≤ drv.group num.toNat / 32 := by
    refine Nat.div_le_div_left ?_ (by decide)
    have := h.room
    have := h.inodes
    have hlarge : 1024 ≤ drv.block_size.toNat := by
      rw [h.size]
      exact Nat.le_mul_of_pos_right _ (Nat.two_pow_pos k)
    omega
  rw [Driver.descriptor_block, BitVec.toNat_add, BitVec.toNat_udiv, hgroup, hper]
  exact Nat.mod_eq_of_lt (by omega)

/-- The bytes of the descriptor. -/
theorem Driver.Legal.table (h : drv.Legal k) (hnum : 1 ≤ num.toNat) (disk : Word → Buf) :
    (u32 (block_bytes drv disk (drv.descriptor_block num))
      (((num - 1) / drv.inodes_per_group % (drv.block_size / sizeof_group)).toNat * 32 + 8)).toNat *
      drv.block_size.toNat = drv.table_offset disk (drv.group num.toNat) := by
  obtain ⟨hblock, hplace⟩ := h.descriptor hnum
  obtain ⟨hdesc, -, -⟩ := h.divides.nonzero h.sized
  have hend := Driver.slot_le hdesc ((num - 1) / drv.inodes_per_group)
  unfold Driver.table_offset
  congr 2
  apply u32_eq
  intro j hj
  unfold volume_from
  rw [hplace] at hend ⊢
  rw [volume_byte_add (by omega), ← hblock, BitVec.ofNat_toNat, BitVec.setWidth_eq, Nat.add_assoc]

/-- The inode is read from its block, and the number of the block does not wrap when the inode table
of the group lies on the volume. -/
theorem Driver.Legal.inode (h : drv.Legal k) (hnum : 1 ≤ num.toNat)
    (hend : drv.table_end disk (drv.group num.toNat) ≤ 2 ^ 32 * drv.block_size.toNat) :
    (drv.inode_block disk num).toNat =
      drv.inode_offset disk num.toNat / drv.block_size.toNat ∧
    drv.inode_place num = drv.inode_offset disk num.toNat % drv.block_size.toNat := by
  have htable := h.table hnum disk
  have hpos := h.sized.pos_size
  have hipg : 0 < drv.inodes_per_group.toNat :=
    Nat.pos_of_ne_zero fun h0 => h.groups (BitVec.eq_of_toNat_eq h0)
  have hindex : ((num - 1) % drv.inodes_per_group).toNat = drv.group_index num.toNat := by
    rw [BitVec.toNat_umod, num_sub_one hnum]
    rfl
  have hper : (drv.block_size / drv.inode_size).toNat =
      drv.block_size.toNat / drv.inode_size.toNat := BitVec.toNat_udiv
  unfold Driver.inode_block Driver.inode_place Driver.inode_offset
  unfold Driver.table_end at hend
  dsimp only
  rw [← htable] at hend ⊢
  generalize u32 (block_bytes drv disk (drv.descriptor_block num))
    (((num - 1) / drv.inodes_per_group % (drv.block_size / sizeof_group)).toNat * 32 + 8) = t
    at hend ⊢
  obtain ⟨hdiv, hmod⟩ := record_place hpos h.fills t.toNat (drv.group_index num.toNat)
  rw [hdiv, hmod, BitVec.toNat_umod, hindex, hper]
  refine ⟨?_, rfl⟩
  -- the block of the inode lies in the table
  have hin : drv.group_index num.toNat < drv.inodes_per_group.toNat := Nat.mod_lt _ hipg
  have hlt : t.toNat * drv.block_size.toNat + drv.group_index num.toNat * drv.inode_size.toNat <
      2 ^ 32 * drv.block_size.toNat := by
    have hmul : drv.group_index num.toNat * drv.inode_size.toNat <
        drv.inodes_per_group.toNat * drv.inode_size.toNat :=
      Nat.mul_lt_mul_of_pos_right hin (by have := h.room; omega)
    omega
  have hblk := (Nat.div_lt_iff_lt_mul hpos).mpr hlt
  rw [hdiv] at hblk
  rw [BitVec.toNat_add, BitVec.toNat_udiv, hindex, hper]
  exact Nat.mod_eq_of_lt hblk

/-- The record of an inode, read from the flat volume. -/
theorem Driver.Legal.record (h : drv.Legal k) (hnum : 1 ≤ num.toNat)
    (hend : drv.table_end disk (drv.group num.toNat) ≤ 2 ^ 32 * drv.block_size.toNat) {j : Nat}
    (hj : j < drv.inode_size.toNat) :
    drv.inode_bytes disk num j = volume_byte drv disk (drv.inode_offset disk num.toNat + j) := by
  obtain ⟨hblock, hplace⟩ := h.inode hnum hend
  obtain ⟨-, -, hper⟩ := h.divides.nonzero h.sized
  obtain ⟨hle, -⟩ := Driver.place_le hper num
  unfold Driver.inode_bytes
  rw [hplace] at hle ⊢
  rw [volume_byte_add (by omega), ← hblock, BitVec.ofNat_toNat, BitVec.setWidth_eq]

/-- The records of two inodes do not overlap, when the inode tables of two groups do not. -/
theorem Driver.Legal.records_apart (h : drv.Legal k) {n n' : Nat} (hn : 1 ≤ n) (hn' : 1 ≤ n')
    (hne : n ≠ n')
    (htables : drv.group n ≠ drv.group n' →
      drv.table_end disk (drv.group n) ≤ drv.table_offset disk (drv.group n') ∨
      drv.table_end disk (drv.group n') ≤ drv.table_offset disk (drv.group n)) :
    drv.inode_offset disk n + drv.inode_size.toNat ≤ drv.inode_offset disk n' ∨
      drv.inode_offset disk n' + drv.inode_size.toNat ≤ drv.inode_offset disk n := by
  have hipg : 0 < drv.inodes_per_group.toNat :=
    Nat.pos_of_ne_zero fun h0 => h.groups (BitVec.eq_of_toNat_eq h0)
  -- a record lies in the table of its group
  have hin : ∀ m, drv.inode_offset disk m + drv.inode_size.toNat ≤
      drv.table_end disk (drv.group m) := by
    intro m
    have hlt : drv.group_index m < drv.inodes_per_group.toNat := Nat.mod_lt _ hipg
    have hmul := Nat.mul_le_mul_right drv.inode_size.toNat hlt
    rw [Nat.succ_mul] at hmul
    unfold Driver.inode_offset Driver.table_end
    omega
  have hlow : ∀ m, drv.table_offset disk (drv.group m) ≤ drv.inode_offset disk m :=
    fun m => Nat.le_add_right _ _
  by_cases hg : drv.group n = drv.group n'
  · have hindex : drv.group_index n ≠ drv.group_index n' := by
      intro hi
      have h1 := Nat.div_add_mod (n - 1) drv.inodes_per_group.toNat
      have h2 := Nat.div_add_mod (n' - 1) drv.inodes_per_group.toNat
      unfold Driver.group at hg
      unfold Driver.group_index at hi
      rw [hg, hi] at h1
      omega
    have := Ext2.records_apart drv.inode_size.toNat hindex
    unfold Driver.inode_offset
    rw [hg]
    omega
  · have h1 := hin n
    have h2 := hin n'
    have h3 := hlow n
    have h4 := hlow n'
    rcases htables hg with ht | ht
    · exact Or.inl (by omega)
    · exact Or.inr (by omega)

end

/-- For every legal geometry and every inode whose table lies on the volume, `ext2_read_inode` reads
the block of the descriptor of its group and the block of its record, neither number wraps, the record
lies in its block, and the inode holds the bytes at the place that the flat formula gives. The
records of different inodes do not overlap when the inode tables of different groups do not. -/
theorem inode_lookup_hits_its_place (drv : Driver) (k : Nat) (num : BitVec 32) (io : Io)
    (h : drv.Legal k) (hnum : 1 ≤ num.toNat)
    (hend : drv.table_end io.sectors (drv.group num.toNat) ≤ 2 ^ 32 * drv.block_size.toNat)
    (hgood : ∀ i, io.fails i = false) :
    (∃ inode io', ext2_read_inode drv num io = (some inode, io') ∧
      io'.log = (sectors_of drv
        [BitVec.ofNat 32 (drv.descriptor_offset (drv.group num.toNat) / drv.block_size.toNat),
          BitVec.ofNat 32 (drv.inode_offset io.sectors num.toNat / drv.block_size.toNat)]).reverse ++
        io.log ∧
      inode.ino_num = num ∧
      inode.size = u32 (volume_from drv io.sectors (drv.inode_offset io.sectors num.toNat)) 4 ∧
      inode.mode = (u16 (volume_from drv io.sectors
        (drv.inode_offset io.sectors num.toNat)) 0).setWidth 32 ∧
      ∀ j < drv.inode_size.toNat,
        inode.raw j = volume_byte drv io.sectors (drv.inode_offset io.sectors num.toNat + j)) ∧
    drv.descriptor_offset (drv.group num.toNat) / drv.block_size.toNat < 2 ^ 32 ∧
    drv.inode_offset io.sectors num.toNat / drv.block_size.toNat < 2 ^ 32 ∧
    drv.descriptor_offset (drv.group num.toNat) % drv.block_size.toNat + 32 ≤
      drv.block_size.toNat ∧
    drv.inode_offset io.sectors num.toNat % drv.block_size.toNat + drv.inode_size.toNat ≤
      drv.block_size.toNat ∧
    ∀ num' : BitVec 32, 1 ≤ num'.toNat → num' ≠ num →
      (drv.group num.toNat ≠ drv.group num'.toNat →
        drv.table_end io.sectors (drv.group num.toNat) ≤
          drv.table_offset io.sectors (drv.group num'.toNat) ∨
        drv.table_end io.sectors (drv.group num'.toNat) ≤
          drv.table_offset io.sectors (drv.group num.toNat)) →
      drv.inode_offset io.sectors num.toNat + drv.inode_size.toNat ≤
        drv.inode_offset io.sectors num'.toNat ∨
      drv.inode_offset io.sectors num'.toNat + drv.inode_size.toNat ≤
        drv.inode_offset io.sectors num.toNat := by
  obtain ⟨hdesc, hdplace⟩ := h.descriptor hnum
  obtain ⟨hblock, hplace⟩ := h.inode hnum hend
  obtain ⟨hdpb, -, hper⟩ := h.divides.nonzero h.sized
  have hroom := h.room
  obtain ⟨ss, htook, hclean⟩ := ext2_read_inode.follows h.sized h.divides num io
  obtain ⟨hss, inode, hvalue, hon⟩ := hclean (.inl fun _ _ => hgood _)
  refine ⟨⟨inode, (ext2_read_inode drv num io).2, ?_, ?_, hon.ino_num, ?_, ?_, ?_⟩,
    ?_, ?_, ?_, ?_, ?_⟩
  · rw [← hvalue]
  · rw [htook.log, hss, ← hdesc, ← hblock]
    simp [sectors_of, Driver.inode_path]
  · rw [hon.size]
    apply u32_congr
    intro j hj
    exact h.record hnum hend (by omega)
  · rw [hon.mode]
    congr 1
    apply u16_congr
    intro j hj
    exact h.record hnum hend (by omega)
  · intro j hj
    rw [hon.raw j hj]
    exact h.record hnum hend hj
  · rw [← hdesc]
    exact BitVec.isLt _
  · rw [← hblock]
    exact BitVec.isLt _
  · rw [← hdplace]
    exact Driver.slot_le hdpb _
  · rw [← hplace]
    exact (Driver.place_le hper num).1
  · intro num' hnum' hne htables
    exact h.records_apart hnum hnum' (fun he => hne (BitVec.eq_of_toNat_eq he.symm)) htables

/-- The root inode of a volume with blocks of 1024 bytes, on a disk of zeros: it is the second record
of the table at block 0. -/
theorem inode_lookup_hits_its_place_root :
    ∃ inode io', ext2_read_inode small_drv 2 ⟨fun _ _ => 0, fun _ => false, fun _ _ => 7, 0, 0, []⟩ =
        (some inode, io') ∧ inode.ino_num = 2 ∧
      ∀ j < 128, inode.raw j = volume_byte small_drv (fun _ _ => 0) (128 + j) := by
  have hlegal : small_drv.Legal 0 :=
    ⟨⟨by decide, by decide⟩, by decide, by decide, by decide, by decide, ⟨7, by decide, by decide⟩,
      by decide⟩
  obtain ⟨⟨inode, io', hrun, -, hnum, -, -, hraw⟩, -⟩ := inode_lookup_hits_its_place small_drv 0 2
    ⟨fun _ _ => 0, fun _ => false, fun _ _ => 7, 0, 0, []⟩ hlegal (by decide) (by decide) fun _ => rfl
  exact ⟨inode, io', hrun, hnum, hraw⟩

end JamsOs.Ext2
