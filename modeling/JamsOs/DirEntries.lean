-- The entries of a directory block: where they are, and which of them `ext2_readdir` takes. The
-- walk over them is the same for all who look at it.
import JamsOs.Ext2Inodes

namespace JamsOs.Ext2

open Words

/-! ## One entry -/

/-- `ext2_directory` at a place in a block. -/
def dentry_at (block : Buf) (x : Nat) : Buf := fun j => block (x + j)

def rec_len_at (block : Buf) (x : Nat) : Nat := (u16 (dentry_at block x) 4).toNat

def inode_at (block : Buf) (x : Nat) : BitVec 32 := u32 (dentry_at block x) 0

def name_len_at (block : Buf) (x : Nat) : Nat := (dentry_at block x 6).toNat

def name_at (block : Buf) (x : Nat) : List (BitVec 8) :=
  (List.range (name_len_at block x)).map fun j => dentry_at block x (8 + j)

/-- The entry at `x` passes the checks of its `rec_len`. The block has `bytes` bytes of directory. -/
structure Accepted (block : Buf) (bytes x : Nat) : Prop where
  least : 8 ≤ rec_len_at block x
  aligned : 4 ∣ rec_len_at block x
  fits : x + rec_len_at block x ≤ bytes

instance (block : Buf) (bytes x : Nat) : Decidable (Accepted block bytes x) :=
  decidable_of_iff (8 ≤ rec_len_at block x ∧ 4 ∣ rec_len_at block x ∧ x + rec_len_at block x ≤ bytes)
    ⟨fun h => ⟨h.1, h.2.1, h.2.2⟩, fun h => ⟨h.least, h.aligned, h.fits⟩⟩

/-- Where the walk looks for entries, from `x` on. The last one may be one that is not accepted. -/
def positions (block : Buf) (bytes : Nat) : Nat → Nat → List Nat
  | 0, _ => []
  | fuel + 1, x =>
    if x < bytes then
      if Accepted block bytes x then x :: positions block bytes fuel (x + rec_len_at block x) else [x]
    else []

/-! ## The checks of the code -/

section

variable {block block' : Buf} {offset block_bytes : BitVec 32} {bytes x : Nat}

theorem rec_len_lt (block : Buf) (x : Nat) : rec_len_at block x < 2 ^ 16 := BitVec.isLt _

theorem rec_len_toNat (block : Buf) (x : Nat) :
    ((u16 (dentry_at block x) 4).setWidth 32 : BitVec 32).toNat = rec_len_at block x :=
  BitVec.toNat_setWidth_of_le (by decide)

/-- The sum of an offset and a `rec_len` does not wrap. -/
theorem next_offset (hbytes : block_bytes.toNat ≤ 2 ^ 31) (hlt : offset < block_bytes) :
    (offset + (u16 (dentry_at block offset.toNat) 4).setWidth 32).toNat =
      offset.toNat + rec_len_at block offset.toNat := by
  have hlt' : offset.toNat < block_bytes.toNat := hlt
  have hrec := rec_len_lt block offset.toNat
  rw [BitVec.toNat_add, rec_len_toNat]
  exact Nat.mod_eq_of_lt (by omega)

theorem refused_iff (block : Buf) (x : Nat) :
    ((u16 (dentry_at block x) 4).setWidth 32 < (8 : BitVec 32) ∨
      (u16 (dentry_at block x) 4).setWidth 32 % (4 : BitVec 32) ≠ 0) ↔
    ¬ (8 ≤ rec_len_at block x ∧ 4 ∣ rec_len_at block x) := by
  have hlt : (u16 (dentry_at block x) 4).setWidth 32 < (8 : BitVec 32) ↔ rec_len_at block x < 8 := by
    rw [BitVec.lt_def, rec_len_toNat]
    rfl
  have hmod : (u16 (dentry_at block x) 4).setWidth 32 % (4 : BitVec 32) = 0 ↔
      4 ∣ rec_len_at block x := by
    rw [← BitVec.toNat_inj, BitVec.toNat_umod, rec_len_toNat]
    exact (Nat.dvd_iff_mod_eq_zero).symm
  rw [hlt, ne_eq, hmod]
  omega

theorem too_long_iff (block : Buf) (hbytes : block_bytes.toNat ≤ 2 ^ 31) (hlt : offset < block_bytes) :
    block_bytes < offset + (u16 (dentry_at block offset.toNat) 4).setWidth 32 ↔
      ¬ offset.toNat + rec_len_at block offset.toNat ≤ block_bytes.toNat := by
  rw [BitVec.lt_def, next_offset hbytes hlt]
  omega

/-- The two checks of an entry together, whatever is done with it. -/
theorem checks_eq {α : Type} (hbytes : block_bytes.toNat ≤ 2 ^ 31) (hlt : offset < block_bytes)
    (a b : α) :
    (if (u16 (fun j => block (offset.toNat + j)) 4).setWidth 32 < (8 : BitVec 32) ∨
        (u16 (fun j => block (offset.toNat + j)) 4).setWidth 32 % (4 : BitVec 32) ≠ 0 then a
      else if block_bytes < offset + (u16 (fun j => block (offset.toNat + j)) 4).setWidth 32 then a
      else b) = if Accepted block block_bytes.toNat offset.toNat then b else a := by
  have hrefused := refused_iff block offset.toNat
  have hlong := too_long_iff block hbytes hlt
  unfold dentry_at at hrefused hlong
  simp only [hrefused, hlong]
  by_cases hacc : Accepted block block_bytes.toNat offset.toNat
  · rw [if_neg (not_not.mpr ⟨hacc.least, hacc.aligned⟩), if_neg (not_not.mpr hacc.fits), if_pos hacc]
  · rw [if_neg hacc]
    split
    · rfl
    · next hshape =>
      rw [if_pos fun hfits => hacc ⟨(not_not.mp hshape).1, (not_not.mp hshape).2, hfits⟩]

/-! ## Positions -/

theorem positions.cons {fuel : Nat} (hlt : x < bytes) (h : Accepted block bytes x) :
    positions block bytes (fuel + 1) x =
      x :: positions block bytes fuel (x + rec_len_at block x) := by
  rw [positions, if_pos hlt, if_pos h]

theorem positions.last {fuel : Nat} (hlt : x < bytes) (h : ¬ Accepted block bytes x) :
    positions block bytes (fuel + 1) x = [x] := by
  rw [positions, if_pos hlt, if_neg h]

theorem positions.nil {fuel : Nat} (hle : bytes ≤ x) : positions block bytes fuel x = [] := by
  cases fuel with
  | zero => rfl
  | succ fuel => rw [positions, if_neg (by omega)]

end

/-! ## Buffers with the same block -/

section

variable {block block' : Buf} {size bytes x : Nat}

section

variable (h : ∀ j < size, block j = block' j)

include h

theorem rec_len_congr (hx : x + 6 ≤ size) :
    rec_len_at block x = rec_len_at block' x := by
  unfold rec_len_at
  congr 1
  exact u16_congr fun j hj => h _ (by omega)

/-- Behind the end of the block there is no entry that would be accepted. -/
theorem accepted_congr (hbytes : bytes ≤ size) :
    Accepted block bytes x ↔ Accepted block' bytes x := by
  by_cases hx : x + 6 ≤ size
  · have hrec := rec_len_congr h hx
    constructor
    · rintro ⟨h1, h2, h3⟩
      exact ⟨hrec ▸ h1, hrec ▸ h2, hrec ▸ h3⟩
    · rintro ⟨h1, h2, h3⟩
      exact ⟨hrec ▸ h1, hrec ▸ h2, hrec ▸ h3⟩
  · constructor
    · rintro ⟨h1, -, h3⟩
      omega
    · rintro ⟨h1, -, h3⟩
      omega

theorem Accepted.rec_len_eq (hbytes : bytes ≤ size) (hacc : Accepted block bytes x) :
    rec_len_at block x = rec_len_at block' x :=
  rec_len_congr h (by have := hacc.least; have := hacc.fits; omega)

theorem Accepted.inode_eq (hbytes : bytes ≤ size) (hacc : Accepted block bytes x) :
    inode_at block x = inode_at block' x := by
  have hleast := hacc.least
  have hfits := hacc.fits
  exact u32_congr fun j hj => h _ (by omega)

theorem Accepted.name_len_eq (hbytes : bytes ≤ size) (hacc : Accepted block bytes x) :
    name_len_at block x = name_len_at block' x := by
  have hleast := hacc.least
  have hfits := hacc.fits
  unfold name_len_at dentry_at
  rw [h _ (by omega)]

theorem positions_congr (hbytes : bytes ≤ size) (fuel : Nat) :
    positions block bytes fuel x = positions block' bytes fuel x := by
  induction fuel generalizing x with
  | zero => rfl
  | succ fuel ih =>
    by_cases hlt : x < bytes
    · by_cases hacc : Accepted block bytes x
      · rw [positions.cons hlt hacc, positions.cons hlt ((accepted_congr h hbytes).mp hacc), ih,
          hacc.rec_len_eq h hbytes]
      · rw [positions.last hlt hacc, positions.last hlt fun h' => hacc ((accepted_congr h hbytes).mpr h')]
    · rw [positions.nil (by omega), positions.nil (by omega)]

end

end

end JamsOs.Ext2
