-- The arithmetic of mounting. `ext2_probe` checks the signature of a superblock and nothing else,
-- and `ext2_read_inode` divides by its numbers and offsets pointers by them. Here both functions keep
-- a record of each division, each shift and each access to a block buffer, and the superblocks for
-- which all of these are safe are described exactly.
import JamsOs.Ext2Inodes

namespace JamsOs.Ext2

open Words

/-! ## The two functions with a record of what they do -/

/-- A division or remainder by a number, a shift of an `int`, or an access to `len` bytes of a
buffer of `size` bytes. -/
inductive Op where
  | div (divisor : BitVec 32)
  | shift (count : BitVec 32)
  | access (size off len : Nat)
  deriving DecidableEq

def Op.Safe : Op → Prop
  | .div divisor => divisor ≠ 0
  | .shift count => count.toNat < 32
  | .access size off len => off + len ≤ size

instance (op : Op) : Decidable op.Safe :=
  match op with
  | .div divisor => inferInstanceAs (Decidable (divisor ≠ 0))
  | .shift count => inferInstanceAs (Decidable (count.toNat < 32))
  | .access size off len => inferInstanceAs (Decidable (off + len ≤ size))

/-- The record ends at a division by zero. -/
def ext2_read_inode_ops (drv : Driver) (inode_num : BitVec 32) (io : Io) :
    List Op × Option Inode × Io :=
  let idx := inode_num - 1
  let ops := [.div drv.inodes_per_group]
  if drv.inodes_per_group = 0 then (ops, none, io)
  else
    let group := idx / drv.inodes_per_group
    let group_index := idx % drv.inodes_per_group
    let (bg_buf, io) := io.buffer
    let descriptors_per_block := drv.block_size / sizeof_group
    let ops := ops ++ [.div descriptors_per_block]
    if descriptors_per_block = 0 then (ops, none, io)
    else
      let bg_block_offset := group / descriptors_per_block
      let bg_index_in_block := group % descriptors_per_block
      let (bg_buf, io) := ext2_read_block drv (drv.block_start + bg_block_offset) bg_buf io
      let inode_table_block := u32 bg_buf (bg_index_in_block.toNat * 32 + 8)
      let ops := ops ++ [.div drv.dev.blk_size,
        .access drv.block_size.toNat (bg_index_in_block.toNat * 32) 32, .div drv.inode_size]
      if drv.inode_size = 0 then (ops, none, io)
      else
        let inodes_per_block := drv.block_size / drv.inode_size
        let ops := ops ++ [.div inodes_per_block]
        if inodes_per_block = 0 then (ops, none, io)
        else
          let table_block_offset := group_index / inodes_per_block
          let index_in_block := group_index % inodes_per_block
          let (inode_block_buf, io) := io.buffer
          let (inode_block_buf, io) :=
            ext2_read_block drv (inode_table_block + table_block_offset) inode_block_buf io
          let raw_off := (index_in_block * drv.inode_size).toNat
          let raw_node : Buf := fun j => inode_block_buf (raw_off + j)
          let (priv_data, io) := io.buffer
          -- `size`, `mode` and the copy of the raw inode
          (ops ++ [.div drv.dev.blk_size, .access drv.block_size.toNat (raw_off + 4) 4,
            .access drv.block_size.toNat raw_off 2,
            .access drv.block_size.toNat raw_off drv.inode_size.toNat], some {
            drv := drv
            ino_num := inode_num
            size := u32 raw_node 4
            mode := (u16 raw_node 0).setWidth 32
            raw := fun j => if j < drv.inode_size.toNat then raw_node j else priv_data j }, io)

/-- The bytes that `ext2_probe` takes for the superblock. -/
def probe_superblock (dev : BlockDev) (io : Io) : Buf × Io :=
  let (buf, io) := io.buffer
  let (_, buf, io) := partition_read_block dev 2 buf io
  let (_, part, io) := partition_read_block dev 3 (fun j => buf (512 + j)) io
  (fun j => if 512 ≤ j then part (j - 512) else buf j, io)

def ext2_probe_ops (dev : BlockDev) (io : Io) : List Op × Option (Option Superblock) × Io :=
  let (sb, io) := probe_superblock dev io
  if u16 sb 56 ≠ EXT2_SIGNATURE then ([], some none, io)
  else
    let drv := Driver.of_superblock dev sb
    match ext2_read_inode_ops drv EXT2_ROOT_INODE io with
    | (ops, none, io) => (.shift (u32 sb 24) :: ops, none, io)
    | (ops, some root_inode, io) => (.shift (u32 sb 24) :: ops, some (some ⟨drv, root_inode⟩), io)

/-- Without the record they are the functions of the driver. -/
theorem ext2_read_inode_ops_snd (drv : Driver) (num : BitVec 32) (io : Io) :
    (ext2_read_inode_ops drv num io).2 = ext2_read_inode drv num io := by
  unfold ext2_read_inode_ops ext2_read_inode
  dsimp only
  split
  · rfl
  split
  · rfl
  by_cases hsize : drv.inode_size = 0
  · rw [if_pos hsize, if_pos (Or.inl hsize)]
  rw [if_neg hsize]
  by_cases hper : drv.block_size / drv.inode_size = 0
  · rw [if_pos hper, if_pos (Or.inr hper)]
  · rw [if_neg hper, if_neg (not_or.mpr ⟨hsize, hper⟩)]

theorem ext2_probe_eq (dev : BlockDev) (io : Io) : ext2_probe dev io =
    if u16 (probe_superblock dev io).1 56 ≠ EXT2_SIGNATURE then
      (some none, (probe_superblock dev io).2)
    else
      match ext2_read_inode (.of_superblock dev (probe_superblock dev io).1) EXT2_ROOT_INODE
        (probe_superblock dev io).2 with
      | (none, io') => (none, io')
      | (some root_inode, io') =>
        (some (some ⟨.of_superblock dev (probe_superblock dev io).1, root_inode⟩), io') := rfl

theorem ext2_probe_ops_snd (dev : BlockDev) (io : Io) :
    (ext2_probe_ops dev io).2 = ext2_probe dev io := by
  rw [ext2_probe_eq]
  unfold ext2_probe_ops
  dsimp only
  generalize probe_superblock dev io = sb
  split
  · rfl
  · rw [← ext2_read_inode_ops_snd]
    rcases ext2_read_inode_ops (Driver.of_superblock dev sb.1) EXT2_ROOT_INODE sb.2 with
      ⟨ops, _ | root, io'⟩ <;> rfl

/-! ## Safe superblocks -/

/-- What a superblock must say. The last line is about inodes of less than 8 bytes: the field `size`
of the last one of a block lies in the block. -/
structure Driver.Safe (drv : Driver) : Prop where
  groups : drv.inodes_per_group ≠ 0
  descriptors : 32 ≤ drv.block_size.toNat
  inode : drv.inode_size ≠ 0
  inodes : drv.inode_size.toNat ≤ drv.block_size.toNat
  fields : (min drv.inodes_per_group.toNat (drv.block_size.toNat / drv.inode_size.toNat) - 1) *
    drv.inode_size.toNat + 8 ≤ drv.block_size.toNat

section

variable {drv : Driver} {num : BitVec 32} {io : Io}

theorem udiv_ne_zero_iff {a b : BitVec 32} (hb : b ≠ 0) : a / b ≠ 0 ↔ b.toNat ≤ a.toNat := by
  have hpos : 0 < b.toNat := Nat.pos_of_ne_zero fun h0 => hb (BitVec.eq_of_toNat_eq h0)
  rw [← Nat.div_pos_iff.trans (and_iff_right hpos), ← BitVec.toNat_udiv, Nat.pos_iff_ne_zero]
  exact not_congr ⟨fun h0 => congrArg BitVec.toNat h0, fun h0 => BitVec.eq_of_toNat_eq h0⟩

/-- The place of an inode in its block, in numbers. -/
theorem raw_off_eq (hper : drv.block_size / drv.inode_size ≠ 0) (num : BitVec 32) :
    ((num - 1) % drv.inodes_per_group % (drv.block_size / drv.inode_size) * drv.inode_size).toNat =
      (num - 1).toNat % drv.inodes_per_group.toNat %
        (drv.block_size.toNat / drv.inode_size.toNat) * drv.inode_size.toNat := by
  rw [(Driver.place_le hper num).2, Driver.inode_place, BitVec.toNat_umod, BitVec.toNat_umod,
    BitVec.toNat_udiv]

/-- The record of a call that reaches its end. -/
theorem ext2_read_inode_ops_fst (hgroups : drv.inodes_per_group ≠ 0)
    (hdesc : drv.block_size / sizeof_group ≠ 0) (hsize : drv.inode_size ≠ 0)
    (hper : drv.block_size / drv.inode_size ≠ 0) :
    (ext2_read_inode_ops drv num io).1 = [.div drv.inodes_per_group,
      .div (drv.block_size / sizeof_group), .div drv.dev.blk_size,
      .access drv.block_size.toNat
        (((num - 1) / drv.inodes_per_group % (drv.block_size / sizeof_group)).toNat * 32) 32,
      .div drv.inode_size, .div (drv.block_size / drv.inode_size), .div drv.dev.blk_size,
      .access drv.block_size.toNat (((num - 1) % drv.inodes_per_group %
        (drv.block_size / drv.inode_size) * drv.inode_size).toNat + 4) 4,
      .access drv.block_size.toNat ((num - 1) % drv.inodes_per_group %
        (drv.block_size / drv.inode_size) * drv.inode_size).toNat 2,
      .access drv.block_size.toNat ((num - 1) % drv.inodes_per_group %
        (drv.block_size / drv.inode_size) * drv.inode_size).toNat drv.inode_size.toNat] := by
  unfold ext2_read_inode_ops
  dsimp only
  rw [if_neg hgroups, if_neg hdesc, if_neg hsize, if_neg hper]
  rfl

/-- A call whose divisions are safe divides by no zero. -/
theorem ext2_read_inode_ops.divisors
    (h : ∀ op ∈ (ext2_read_inode_ops drv num io).1, op.Safe) :
    drv.inodes_per_group ≠ 0 ∧ drv.block_size / sizeof_group ≠ 0 ∧ drv.inode_size ≠ 0 ∧
      drv.block_size / drv.inode_size ≠ 0 := by
  unfold ext2_read_inode_ops at h
  dsimp only at h
  have hgroups : drv.inodes_per_group ≠ 0 := by
    intro h0
    rw [if_pos h0] at h
    exact h _ (List.mem_singleton_self _) h0
  rw [if_neg hgroups] at h
  have hdesc : drv.block_size / sizeof_group ≠ 0 := by
    intro h0
    rw [if_pos h0] at h
    exact h (.div _) (by simp) h0
  rw [if_neg hdesc] at h
  have hsize : drv.inode_size ≠ 0 := by
    intro h0
    rw [if_pos h0] at h
    exact h (.div drv.inode_size) (by simp) h0
  rw [if_neg hsize] at h
  refine ⟨hgroups, hdesc, hsize, fun h0 => ?_⟩
  rw [if_pos h0] at h
  exact h (.div _) (by simp) h0

/-- Every call is safe if and only if the numbers of the superblock are. -/
theorem ext2_read_inode_safe_iff (hdev : drv.dev.blk_size ≠ 0) :
    (∀ num io, ∀ op ∈ (ext2_read_inode_ops drv num io).1, op.Safe) ↔ drv.Safe := by
  have h32 : ∀ a : BitVec 32, a / sizeof_group ≠ 0 ↔ 32 ≤ a.toNat := fun a =>
    udiv_ne_zero_iff (by decide)
  constructor
  · intro h
    obtain ⟨hgroups, hdesc, hsize, hper⟩ := ext2_read_inode_ops.divisors
      (h 1 ⟨fun _ _ => 0, fun _ => false, fun _ _ => 0, 0, 0, []⟩)
    have hle := (udiv_ne_zero_iff hsize).mp hper
    refine ⟨hgroups, (h32 _).mp hdesc, hsize, hle, ?_⟩
    -- the last inode of a block that there is
    obtain ⟨m, hm⟩ : ∃ m, min drv.inodes_per_group.toNat
        (drv.block_size.toNat / drv.inode_size.toNat) - 1 = m := ⟨_, rfl⟩
    have hipg : 0 < drv.inodes_per_group.toNat :=
      Nat.pos_of_ne_zero fun h0 => hgroups (BitVec.eq_of_toNat_eq h0)
    have hlt := drv.inodes_per_group.isLt
    have hipb : 0 < drv.block_size.toNat / drv.inode_size.toNat :=
      Nat.div_pos hle (Nat.pos_of_ne_zero fun h0 => hsize (BitVec.eq_of_toNat_eq h0))
    have hnum : (BitVec.ofNat 32 (m + 1) - 1).toNat = m := by
      rw [BitVec.toNat_sub_of_le]
      · rw [BitVec.toNat_ofNat, Nat.mod_eq_of_lt (by omega)]
        rfl
      · rw [BitVec.le_def, BitVec.toNat_ofNat, Nat.mod_eq_of_lt (by omega)]
        exact Nat.le_add_left 1 m
    have hsafe := h (BitVec.ofNat 32 (m + 1)) ⟨fun _ _ => 0, fun _ => false, fun _ _ => 0, 0, 0, []⟩
    rw [ext2_read_inode_ops_fst hgroups hdesc hsize hper, raw_off_eq hper, hnum,
      Nat.mod_eq_of_lt (a := m) (by omega), Nat.mod_eq_of_lt (a := m) (by omega)] at hsafe
    have hfield := hsafe (.access drv.block_size.toNat (m * drv.inode_size.toNat + 4) 4) (by simp)
    rw [hm]
    exact hfield
  · intro h num io op hop
    have hdesc := (h32 _).mpr h.descriptors
    have hper := (udiv_ne_zero_iff h.inode).mpr h.inodes
    rw [ext2_read_inode_ops_fst h.groups hdesc h.inode hper] at hop
    have hslot := Driver.slot_le hdesc ((num - 1) / drv.inodes_per_group)
    obtain ⟨hend, hprod⟩ := Driver.place_le hper num
    have hfields := h.fields
    have hplace := raw_off_eq hper num
    have hipg : 0 < drv.inodes_per_group.toNat :=
      Nat.pos_of_ne_zero fun h0 => h.groups (BitVec.eq_of_toNat_eq h0)
    have hipb : 0 < drv.block_size.toNat / drv.inode_size.toNat :=
      Nat.div_pos h.inodes (Nat.pos_of_ne_zero fun h0 => h.inode (BitVec.eq_of_toNat_eq h0))
    -- the number of the inode in its block
    obtain ⟨i, hi⟩ : ∃ i, (num - 1).toNat % drv.inodes_per_group.toNat %
        (drv.block_size.toNat / drv.inode_size.toNat) = i := ⟨_, rfl⟩
    have hilt : i ≤ min drv.inodes_per_group.toNat
        (drv.block_size.toNat / drv.inode_size.toNat) - 1 := by
      have h1 := Nat.mod_lt ((num - 1).toNat % drv.inodes_per_group.toNat) hipb
      have h2 := Nat.mod_le ((num - 1).toNat % drv.inodes_per_group.toNat)
        (drv.block_size.toNat / drv.inode_size.toNat)
      have h3 := Nat.mod_lt (num - 1).toNat hipg
      omega
    rw [hi] at hplace
    have hmul := Nat.mul_le_mul_right drv.inode_size.toNat hilt
    rw [← hprod] at hend
    rw [hplace] at hop hend
    simp only [List.mem_cons, List.not_mem_nil, or_false] at hop
    rcases hop with rfl | rfl | rfl | rfl | rfl | rfl | rfl | rfl | rfl | rfl
    · exact h.groups
    · exact hdesc
    · exact hdev
    · exact hslot
    · exact h.inode
    · exact hper
    · exact hdev
    · change _ ≤ _
      omega
    · change _ ≤ _
      omega
    · exact hend

end

/-! ## Mounting -/

/-- The block size for a shift that is not too wide. -/
theorem block_size_of_log {log : BitVec 32} (h : log.toNat < 32) :
    32 ≤ ((1024 : BitVec 32) <<< (log.toNat % 32)).toNat ↔ log.toNat ≤ 21 := by
  generalize log.toNat = l at h
  interval_cases l <;> decide

/-- For every superblock that `ext2_probe` accepts: the probe and every later `ext2_read_inode` divide
by no zero, shift no further than an `int` is wide, and stay in the block buffers, if and only if the
numbers of the superblock allow it. -/
theorem mounting_is_safe_iff (dev : BlockDev) (io : Io) (hdev : dev.blk_size ≠ 0)
    (hmagic : u16 (probe_superblock dev io).1 56 = EXT2_SIGNATURE) :
    ((∀ op ∈ (ext2_probe_ops dev io).1, op.Safe) ∧
      ∀ num io', ∀ op ∈
        (ext2_read_inode_ops (.of_superblock dev (probe_superblock dev io).1) num io').1, op.Safe) ↔
    (u32 (probe_superblock dev io).1 24).toNat ≤ 21 ∧
      u32 (probe_superblock dev io).1 40 ≠ 0 ∧
      let drv := Driver.of_superblock dev (probe_superblock dev io).1
      drv.inode_size ≠ 0 ∧ drv.inode_size.toNat ≤ drv.block_size.toNat ∧
      (min drv.inodes_per_group.toNat (drv.block_size.toNat / drv.inode_size.toNat) - 1) *
        drv.inode_size.toNat + 8 ≤ drv.block_size.toNat := by
  have hprobe : (ext2_probe_ops dev io).1 = .shift (u32 (probe_superblock dev io).1 24) ::
      (ext2_read_inode_ops (.of_superblock dev (probe_superblock dev io).1) EXT2_ROOT_INODE
        (probe_superblock dev io).2).1 := by
    unfold ext2_probe_ops
    dsimp only
    rw [if_neg (not_not.mpr hmagic)]
    rcases ext2_read_inode_ops (.of_superblock dev (probe_superblock dev io).1) EXT2_ROOT_INODE
      (probe_superblock dev io).2 with ⟨ops, _ | root, io'⟩ <;> rfl
  rw [hprobe]
  generalize probe_superblock dev io = sb
  have hdrv : (Driver.of_superblock dev sb.1).dev.blk_size ≠ 0 := hdev
  have hiff := ext2_read_inode_safe_iff hdrv
  have hlog := @block_size_of_log (u32 sb.1 24)
  constructor
  · rintro ⟨hfirst, hall⟩
    have hsafe := hiff.mp hall
    have hshift : (u32 sb.1 24).toNat < 32 := hfirst _ List.mem_cons_self
    exact ⟨(hlog hshift).mp hsafe.descriptors, hsafe.groups, hsafe.inode, hsafe.inodes, hsafe.fields⟩
  · rintro ⟨hsmall, hgroups, hinode, hinodes, hfields⟩
    have hshift : (u32 sb.1 24).toNat < 32 := by omega
    have hall := hiff.mpr ⟨hgroups, (hlog hshift).mpr hsmall, hinode, hinodes, hfields⟩
    refine ⟨fun op hop => ?_, hall⟩
    rcases List.mem_cons.mp hop with rfl | hop
    · exact hshift
    · exact hall _ _ op hop

/-- A disk whose sectors all hold a superblock with the signature and with `ipg` inodes in a group,
and zeros elsewhere. -/
def superblock_disk (ipg : BitVec 8) : Io where
  sectors := fun _ j => if j = 56 then 0x53 else if j = 57 then 0xEF else if j = 40 then ipg else 0
  fails := fun _ => false
  junk := fun _ _ => 7
  reads := 0
  allocs := 0
  log := []

/-- The device of the partition that starts at sector 63. -/
def first_partition : BlockDev :=
  { blk_size := 512, tot_length := 4194304, fs_type := 0x83, lba_offset := 63 }

/-- A superblock with 32 inodes in a group, blocks of 1024 bytes and inodes of 128 bytes. -/
theorem mounting_is_safe_32 :
    (∀ op ∈ (ext2_probe_ops first_partition (superblock_disk 32)).1, op.Safe) ∧
      ∀ num io', ∀ op ∈ (ext2_read_inode_ops (.of_superblock first_partition
        (probe_superblock first_partition (superblock_disk 32)).1) num io').1, op.Safe :=
  (mounting_is_safe_iff first_partition (superblock_disk 32) (by decide) (by decide)).mpr
    ⟨by decide, by decide, by decide, by decide, by decide⟩

/-- A superblock with the signature, and without inodes in its groups. The probe divides by zero. -/
theorem mounting_divides_by_zero :
    u16 (probe_superblock first_partition (superblock_disk 0)).1 56 = EXT2_SIGNATURE ∧
      Op.div 0 ∈ (ext2_probe_ops first_partition (superblock_disk 0)).1 ∧
      (ext2_probe first_partition (superblock_disk 0)).1.isNone := by
  decide

end JamsOs.Ext2
