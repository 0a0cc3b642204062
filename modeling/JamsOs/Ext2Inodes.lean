-- Inodes: where the volume keeps them, and what `ext2_read_inode` returns.
import JamsOs.Ext2Files

namespace JamsOs.Ext2

open Words

/-! ## Where an inode is -/

/-- The block of the descriptor of the group that an inode is in. -/
def Driver.descriptor_block (drv : Driver) (num : BitVec 32) : BitVec 32 :=
  drv.block_start + (num - 1) / drv.inodes_per_group / (drv.block_size / sizeof_group)

/-- The block of the inode table that an inode is in. -/
def Driver.inode_block (drv : Driver) (disk : Word → Buf) (num : BitVec 32) : BitVec 32 :=
  let slot := ((num - 1) / drv.inodes_per_group % (drv.block_size / sizeof_group)).toNat
  u32 (block_bytes drv disk (drv.descriptor_block num)) (slot * 32 + 8) +
    (num - 1) % drv.inodes_per_group / (drv.block_size / drv.inode_size)

/-- The place of an inode in its block. -/
def Driver.inode_place (drv : Driver) (num : BitVec 32) : Nat :=
  ((num - 1) % drv.inodes_per_group % (drv.block_size / drv.inode_size)).toNat * drv.inode_size.toNat

/-- The bytes of an inode on the disk. -/
def Driver.inode_bytes (drv : Driver) (disk : Word → Buf) (num : BitVec 32) : Buf := fun j =>
  block_bytes drv disk (drv.inode_block disk num) (drv.inode_place num + j)

/-- An inode in memory has the fields of the inode on the disk. -/
structure Inode.OnDisk (inode : Inode) (drv : Driver) (disk : Word → Buf) (num : BitVec 32) :
    Prop where
  drv_eq : inode.drv = drv
  ino_num : inode.ino_num = num
  size : inode.size = u32 (drv.inode_bytes disk num) 4
  mode : inode.mode = (u16 (drv.inode_bytes disk num) 0).setWidth 32
  raw : ∀ j < drv.inode_size.toNat, inode.raw j = drv.inode_bytes disk num j

/-- The sectors that are read for an inode. -/
def Driver.inode_path (drv : Driver) (disk : Word → Buf) (num : BitVec 32) : List Word :=
  block_sectors drv (drv.descriptor_block num) ++ block_sectors drv (drv.inode_block disk num)

/-- The blocks that are read for an inode. There is none, or only the first, if the next division is
by zero. -/
def Driver.inode_blocks (drv : Driver) (disk : Word → Buf) (num : BitVec 32) : List (BitVec 32) :=
  if drv.inodes_per_group = 0 ∨ drv.block_size / sizeof_group = 0 then []
  else if drv.inode_size = 0 ∨ drv.block_size / drv.inode_size = 0 then [drv.descriptor_block num]
  else [drv.descriptor_block num, drv.inode_block disk num]

/-- The numbers of the superblock by which `ext2_read_inode` divides, and room in an inode for the
fields that it reads. -/
structure Driver.Divides (drv : Driver) : Prop where
  groups : drv.inodes_per_group ≠ 0
  room : 8 ≤ drv.inode_size.toNat
  inodes : drv.inode_size.toNat ≤ drv.block_size.toNat

theorem u16_congr {b b' : Buf} {off : Nat} (h : ∀ j < 2, b (off + j) = b' (off + j)) :
    u16 b off = u16 b' off := by
  unfold u16
  congr 1
  have h0 := h 0 (by decide)
  have h1 := h 1 (by decide)
  simp only [Nat.add_zero] at h0
  simp only [little_endian, h0, h1]

/-! ## Reading an inode -/

/-- An inode lies in its block. -/
theorem Driver.place_le {drv : Driver} (h : drv.block_size / drv.inode_size ≠ 0) (num : BitVec 32) :
    drv.inode_place num + drv.inode_size.toNat ≤ drv.block_size.toNat ∧
      ((num - 1) % drv.inodes_per_group % (drv.block_size / drv.inode_size) * drv.inode_size).toNat =
        drv.inode_place num := by
  have hper : 0 < drv.block_size.toNat / drv.inode_size.toNat := by
    rw [← BitVec.toNat_udiv]
    exact Nat.pos_of_ne_zero fun h0 => h (BitVec.eq_of_toNat_eq h0)
  have hslot : ((num - 1) % drv.inodes_per_group % (drv.block_size / drv.inode_size)).toNat <
      drv.block_size.toNat / drv.inode_size.toNat := by
    rw [BitVec.toNat_umod (y := drv.block_size / drv.inode_size), BitVec.toNat_udiv]
    exact Nat.mod_lt _ hper
  have hend : drv.inode_place num + drv.inode_size.toNat ≤ drv.block_size.toNat := by
    unfold Driver.inode_place
    rw [← Nat.succ_mul]
    exact (Nat.mul_le_mul_right _ hslot).trans (Nat.div_mul_le_self _ _)
  refine ⟨hend, ?_⟩
  have hpos : 0 < drv.inode_size.toNat := by
    by_contra h0
    rw [Nat.eq_zero_of_not_pos h0, Nat.div_zero] at hper
    omega
  have := drv.block_size.isLt
  rw [BitVec.toNat_mul]
  exact Nat.mod_eq_of_lt (by unfold Driver.inode_place at hend; omega)

/-- The descriptor of a group lies in its block. -/
theorem Driver.slot_le {drv : Driver} (h : drv.block_size / sizeof_group ≠ 0) (group : BitVec 32) :
    (group % (drv.block_size / sizeof_group)).toNat * 32 + 32 ≤ drv.block_size.toNat := by
  have hdesc : (drv.block_size / sizeof_group).toNat = drv.block_size.toNat / 32 := by
    rw [BitVec.toNat_udiv]
    rfl
  have hpos : 0 < (drv.block_size / sizeof_group).toNat :=
    Nat.pos_of_ne_zero fun h0 => h (BitVec.eq_of_toNat_eq h0)
  have hlt := Nat.mod_lt group.toNat hpos
  rw [BitVec.toNat_umod]
  omega

/-- Which blocks are asked for, and what an inode that is returned holds. -/
theorem ext2_read_inode.asks {drv : Driver} (hfit : drv.Fits) (num : BitVec 32) (io : Io) :
    Follows io (ext2_read_inode drv num io) (sectors_of drv (drv.inode_blocks io.sectors num))
      (fun v => ∀ inode, v = some inode → 8 ≤ drv.inode_size.toNat →
        inode.OnDisk drv io.sectors num) := by
  unfold ext2_read_inode Driver.inode_blocks
  dsimp only
  by_cases hgroups : drv.inodes_per_group = 0
  · rw [if_pos hgroups, if_pos (.inl hgroups)]
    exact Follows.pure (Io.Took.refl io) nofun
  by_cases hdesc : drv.block_size / sizeof_group = 0
  · rw [if_neg hgroups, if_pos hdesc, if_pos (.inr hdesc)]
    exact Follows.pure (Io.buffer.took io) nofun
  rw [if_neg hgroups, if_neg hdesc, if_neg (not_or.mpr ⟨hgroups, hdesc⟩)]
  apply Follows.after_buffer
  have hfirst := ext2_read_block.follows hfit (drv.descriptor_block num) io.buffer.1 io.buffer.2
  by_cases hzero : drv.inode_size = 0 ∨ drv.block_size / drv.inode_size = 0
  · rw [if_pos hzero, if_pos hzero, sectors_of, List.flatMap_singleton]
    exact hfirst.map (fun _ => none) (fun _ => nofun)
  rw [if_neg hzero, if_neg hzero, sectors_of, List.flatMap_cons, List.flatMap_singleton]
  obtain ⟨hplace, hprod⟩ := Driver.place_le (not_or.mp hzero).2 num
  have hslot := Driver.slot_le hdesc ((num - 1) / drv.inodes_per_group)
  generalize hr₁ : ext2_read_block drv (drv.descriptor_block num) io.buffer.1 io.buffer.2 = r₁ at hfirst
  -- the block of the inode as it was read, which is the right one if no read failed
  obtain ⟨table, htable⟩ : ∃ t, u32 r₁.1 (((num - 1) / drv.inodes_per_group %
      (drv.block_size / sizeof_group)).toNat * 32 + 8) +
      (num - 1) % drv.inodes_per_group / (drv.block_size / drv.inode_size) = t := ⟨_, rfl⟩
  have hsecond := ext2_read_block.follows hfit table r₁.2.buffer.1 r₁.2.buffer.2
  unfold Driver.descriptor_block at hr₁
  simp only [hr₁, htable]
  apply Follows.bind hfirst (Follows.after_buffer (hsecond.then_buffer _))
  intro hdisk hbuf
  have hright : table = drv.inode_block io.sectors num := by
    rw [← htable]
    unfold Driver.inode_block
    dsimp only
    congr 1
    apply u32_congr
    intro j hj
    rw [hbuf, if_pos (by omega)]
    rfl
  refine ⟨by rw [hright], ?_⟩
  rintro hbuf' inode ⟨⟩ hroom
  have hraw : ∀ j < drv.inode_size.toNat,
      (ext2_read_block drv table r₁.2.buffer.1 r₁.2.buffer.2).1 (drv.inode_place num + j) =
        drv.inode_bytes io.sectors num j := by
    intro j hj
    rw [hbuf', if_pos (by omega), show r₁.2.buffer.2.sectors = io.sectors from hdisk, hright]
    rfl
  constructor
  case drv_eq => rfl
  case ino_num => rfl
  case size =>
    dsimp only
    rw [hprod]
    apply u32_congr
    intro j hj
    exact hraw _ (by omega)
  case mode =>
    dsimp only
    rw [hprod]
    congr 1
    apply u16_congr
    intro j hj
    exact hraw _ (by omega)
  case raw =>
    intro j hj
    dsimp only
    rw [if_pos hj, hprod]
    exact hraw j hj

/-- Whatever the reads give, an inode is returned unless a division is by zero. -/
theorem ext2_read_inode.returns {drv : Driver} (num : BitVec 32) (io : Io) :
    (ext2_read_inode drv num io).1 ≠ none ↔
      drv.inodes_per_group ≠ 0 ∧ drv.block_size / sizeof_group ≠ 0 ∧ drv.inode_size ≠ 0 ∧
        drv.block_size / drv.inode_size ≠ 0 := by
  unfold ext2_read_inode
  dsimp only
  split
  · next h => simp [h]
  · next h =>
    split
    · next h' => simp [h']
    · next h' =>
      split
      · next h'' => rcases h'' with h'' | h'' <;> simp [h'']
      · next h'' =>
        obtain ⟨h₁, h₂⟩ := not_or.mp h''
        exact ⟨fun _ => ⟨h, h', h₁, h₂⟩, fun _ => Option.some_ne_none _⟩

theorem Driver.Divides.nonzero {drv : Driver} {m : Nat} (h : drv.Divides) (hs : drv.Sized m) :
    drv.block_size / sizeof_group ≠ 0 ∧ drv.inode_size ≠ 0 ∧
      drv.block_size / drv.inode_size ≠ 0 := by
  have hlarge : 1024 ≤ drv.block_size.toNat := by
    rw [hs.size]
    exact Nat.pow_le_pow_right (n := 2) (by decide) hs.least
  have hroom := h.room
  have hdiv : ∀ d : BitVec 32, 0 < d.toNat → d.toNat ≤ drv.block_size.toNat →
      drv.block_size / d ≠ 0 := by
    intro d hd hle h0
    have hpos := Nat.div_pos hle hd
    rw [← BitVec.toNat_udiv, h0] at hpos
    exact absurd hpos (by decide)
  refine ⟨hdiv _ (by decide) (by change 32 ≤ _; omega), ?_, hdiv _ (by omega) h.inodes⟩
  intro h0
  rw [h0] at hroom
  exact absurd hroom (by decide)

theorem ext2_read_inode.follows {drv : Driver} {m : Nat} (hs : drv.Sized m) (hd : drv.Divides)
    (num : BitVec 32) (io : Io) :
    Follows io (ext2_read_inode drv num io) (drv.inode_path io.sectors num)
      (fun v => ∃ inode, v = some inode ∧ inode.OnDisk drv io.sectors num) := by
  obtain ⟨hdesc, hsize, hper⟩ := hd.nonzero hs
  have hasks := ext2_read_inode.asks hs.toFits num io
  unfold Driver.inode_blocks at hasks
  rw [if_neg (not_or.mpr ⟨hd.groups, hdesc⟩), if_neg (not_or.mpr ⟨hsize, hper⟩), sectors_of,
    List.flatMap_cons, List.flatMap_singleton] at hasks
  apply hasks.map id
  intro hvalue
  obtain ⟨inode, hinode⟩ := Option.ne_none_iff_exists'.mp
    ((ext2_read_inode.returns num io).mpr ⟨hd.groups, hdesc, hsize, hper⟩)
  exact ⟨inode, hinode, hvalue inode hinode hd.room⟩

end JamsOs.Ext2
