-- The block map as arithmetic: which pointer of the inode and which slots of indirect blocks
-- `ext2_get_block_number` uses for a block of a file. The slots are in range, no number wraps, and
-- different blocks have different slots, but the slots are those of ext2 only up to the triply
-- indirect blocks.
import JamsOs.Ext2Reads

namespace JamsOs.Ext2

open Words

/-! ## The slots of a block -/

/-- The pointer of the inode, and the indices into the indirect blocks from it on, as the driver
computes them. `p` is the number of pointers in a block. -/
def block_slot (p logic_blk : BitVec 32) : Nat × List (BitVec 32) :=
  if logic_blk < 12 then (logic_blk.toNat, [])
  else
    let logic_blk := logic_blk - 12
    if logic_blk < p then (12, [logic_blk])
    else
      let logic_blk := logic_blk - p
      if logic_blk < p * p then (13, [logic_blk / p, logic_blk % p])
      else (14, [logic_blk / (p * p), logic_blk % (p * p) / p, logic_blk % (p * p) % p])

/-- The way down from block `b` along some indices. The buffer is used again at each level. -/
def follow (drv : Driver) : List (BitVec 32) → BitVec 32 → Buf → Io → BitVec 32 × Io
  | [], b, _, io => (b, io)
  | i :: is, b, buf, io =>
    if b = 0 then (0, io)
    else
      let (buf, io) := ext2_read_block drv b buf io
      follow drv is (u32 buf (4 * i.toNat)) buf io

/-- The block map is the way down along the slots of the block. -/
theorem ext2_get_block_number_eq (inode : Inode) (logic_blk : BitVec 32) (io : Io)
    (hpp : inode.drv.block_size / 4 * (inode.drv.block_size / 4) ≠ 0) :
    ext2_get_block_number inode logic_blk io =
      let slot := block_slot (inode.drv.block_size / 4) logic_blk
      if slot.2 = [] ∨ inode.block slot.1 = 0 then (some (inode.block slot.1), io)
      else
        let found := follow inode.drv slot.2 (inode.block slot.1) io.buffer.1 io.buffer.2
        (some found.1, found.2) := by
  have hgo : ∀ (i : BitVec 32) (is : List (BitVec 32)) (b : BitVec 32), b ≠ 0 →
      ¬ (i :: is = [] ∨ b = 0) := fun i is b hb => not_or.mpr ⟨List.cons_ne_nil i is, hb⟩
  unfold ext2_get_block_number block_slot
  dsimp only
  split
  · simp
  split
  · by_cases h : inode.block 12 = 0
    · simp [h]
    · rw [if_neg h, if_neg (hgo _ _ _ h)]
      simp only [follow, h, if_false]
  split
  · by_cases h : inode.block 13 = 0
    · simp [h]
    · rw [if_neg h, if_neg (hgo _ _ _ h)]
      simp only [follow, h, if_false]
      split <;> rfl
  · by_cases h : inode.block 14 = 0
    · simp [h]
    · rw [if_neg h, if_neg (hgo _ _ _ h)]
      simp only [follow, h, if_false]
      split
      · rfl
      · split <;> rfl

/-! ## The same computation without wrapping -/

def checked_sub (a b : Nat) : Option Nat := if b ≤ a then some (a - b) else none

def checked_mul (a b : Nat) : Option Nat := if a * b < 2 ^ 32 then some (a * b) else none

/-- The computation of `block_slot`, which comes to nothing where a difference is negative or a
product takes more than 32 bits. -/
def checked_slot (p logic_blk : Nat) : Option (Nat × List Nat) :=
  if logic_blk < 12 then some (logic_blk, [])
  else
    (checked_sub logic_blk 12).bind fun logic_blk =>
      if logic_blk < p then some (12, [logic_blk])
      else
        (checked_sub logic_blk p).bind fun logic_blk => (checked_mul p p).bind fun pp =>
          if logic_blk < pp then some (13, [logic_blk / p, logic_blk % p])
          else some (14, [logic_blk / pp, logic_blk % pp / p, logic_blk % pp % p])

/-- The slots of a block in numbers. -/
def slot_numbers (slot : Nat × List (BitVec 32)) : Nat × List Nat := (slot.1, slot.2.map BitVec.toNat)

theorem checked_sub_toNat {a b : BitVec 32} (h : ¬ a < b) :
    checked_sub a.toNat b.toNat = some (a - b).toNat := by
  have hle : b.toNat ≤ a.toNat := Nat.le_of_not_lt fun hlt => h (BitVec.lt_def.mpr hlt)
  rw [checked_sub, if_pos hle, BitVec.toNat_sub_of_le (BitVec.le_def.mpr hle)]

/-- No number wraps as long as `p * p` fits in 32 bits. -/
theorem checked_slot_eq {p : BitVec 32} (hp : p.toNat * p.toNat < 2 ^ 32) (logic_blk : BitVec 32) :
    checked_slot p.toNat logic_blk.toNat = some (slot_numbers (block_slot p logic_blk)) := by
  have hpp : (p * p).toNat = p.toNat * p.toNat := by
    rw [BitVec.toNat_mul, Nat.mod_eq_of_lt hp]
  have hlt : ∀ a b : BitVec 32, a < b ↔ a.toNat < b.toNat := fun a b => BitVec.lt_def
  unfold checked_slot block_slot
  dsimp only
  by_cases h1 : logic_blk < 12
  · have h1' : logic_blk.toNat < 12 := h1
    rw [if_pos h1, if_pos h1']
    rfl
  have h1' : ¬ logic_blk.toNat < 12 := h1
  have hsub : checked_sub logic_blk.toNat 12 = some (logic_blk - 12).toNat := checked_sub_toNat h1
  rw [if_neg h1, if_neg h1', hsub, Option.bind_some]
  by_cases h2 : logic_blk - 12 < p
  · rw [if_pos h2, if_pos ((hlt _ _).mp h2)]
    rfl
  rw [if_neg h2, if_neg fun h => h2 ((hlt _ _).mpr h), checked_sub_toNat h2, Option.bind_some,
    checked_mul, if_pos hp, Option.bind_some, ← hpp]
  by_cases h3 : logic_blk - 12 - p < p * p
  · rw [if_pos h3, if_pos ((hlt _ _).mp h3)]
    simp [slot_numbers, BitVec.toNat_udiv, BitVec.toNat_umod]
  · rw [if_neg h3, if_neg fun h => h3 ((hlt _ _).mpr h)]
    simp only [slot_numbers, List.map_cons, List.map_nil, BitVec.toNat_udiv, BitVec.toNat_umod]

/-- The slots of a block in plain numbers. -/
theorem checked_slot_cases {p n : Nat} {slot : Nat × List Nat} (h : checked_slot p n = some slot) :
    (n < 12 ∧ slot = (n, [])) ∨ (12 ≤ n ∧ n < 12 + p ∧ slot = (12, [n - 12])) ∨
    (12 + p ≤ n ∧ n < 12 + p + p * p ∧ slot = (13, [(n - 12 - p) / p, (n - 12 - p) % p])) ∨
    (12 + p + p * p ≤ n ∧ slot = (14, [(n - 12 - p) / (p * p), (n - 12 - p) % (p * p) / p,
      (n - 12 - p) % (p * p) % p])) := by
  unfold checked_slot checked_sub checked_mul at h
  by_cases h1 : n < 12
  · rw [if_pos h1] at h
    exact Or.inl ⟨h1, (Option.some.inj h).symm⟩
  rw [if_neg h1, if_pos (by omega), Option.bind_some] at h
  by_cases h2 : n - 12 < p
  · rw [if_pos h2] at h
    exact Or.inr (Or.inl ⟨by omega, by omega, (Option.some.inj h).symm⟩)
  rw [if_neg h2, if_pos (by omega), Option.bind_some] at h
  obtain ⟨pp, hpp, h⟩ := Option.bind_eq_some_iff.mp h
  obtain rfl := Option.some.inj (Option.ite_none_right_eq_some.mp hpp).2
  by_cases h3 : n - 12 - p < p * p
  · rw [if_pos h3] at h
    exact Or.inr (Or.inr (Or.inl ⟨by omega, by omega, (Option.some.inj h).symm⟩))
  · rw [if_neg h3] at h
    exact Or.inr (Or.inr (Or.inr ⟨by omega, (Option.some.inj h).symm⟩))

/-- Every index is one of an indirect block. -/
theorem checked_slot_lt {p n : Nat} {slot : Nat × List Nat} (h : checked_slot p n = some slot)
    (hpos : 0 < p) (hn : n < p ^ 3) : ∀ i ∈ slot.2, i < p := by
  intro i hi
  rcases checked_slot_cases h with ⟨-, rfl⟩ | ⟨hle, hlt, rfl⟩ | ⟨hle, hlt, rfl⟩ | ⟨hle, rfl⟩
  · cases hi
  · rw [List.mem_singleton] at hi
    omega
  · rcases List.mem_pair.mp hi with rfl | rfl
    · exact Nat.div_lt_of_lt_mul (by omega)
    · exact Nat.mod_lt _ hpos
  · have hcube : p ^ 3 = p * p * p := by rw [Nat.pow_succ, Nat.pow_two]
    simp only [List.mem_cons, List.not_mem_nil, or_false] at hi
    rcases hi with rfl | rfl | rfl
    · exact Nat.div_lt_of_lt_mul (by omega)
    · exact Nat.div_lt_of_lt_mul (Nat.mod_lt _ (Nat.mul_pos hpos hpos))
    · exact Nat.mod_lt _ hpos

/-- A number is known by its quotient and its remainder. -/
theorem eq_of_div_mod {a b p : Nat} (hdiv : a / p = b / p) (hmod : a % p = b % p) : a = b := by
  rw [← Nat.div_add_mod a p, ← Nat.div_add_mod b p, hdiv, hmod]

/-- Different blocks have different slots. -/
theorem checked_slot_injective {p n n' : Nat} {slot : Nat × List Nat}
    (h : checked_slot p n = some slot) (h' : checked_slot p n' = some slot) : n = n' := by
  rcases checked_slot_cases h with ⟨hlt, rfl⟩ | ⟨hle, hlt, rfl⟩ | ⟨hle, hlt, rfl⟩ | ⟨hle, rfl⟩
  · rcases checked_slot_cases h' with ⟨hlt', hs⟩ | ⟨_, _, hs⟩ | ⟨_, _, hs⟩ | ⟨_, hs⟩
    · exact (Prod.mk.inj hs).1
    all_goals simp at hs
  · rcases checked_slot_cases h' with ⟨_, hs⟩ | ⟨hle', hlt', hs⟩ | ⟨_, _, hs⟩ | ⟨_, hs⟩
    · simp at hs
    · simp only [Prod.mk.injEq, List.cons.injEq, and_true, true_and] at hs
      omega
    all_goals simp at hs
  · rcases checked_slot_cases h' with ⟨_, hs⟩ | ⟨_, _, hs⟩ | ⟨hle', hlt', hs⟩ | ⟨_, hs⟩
    · simp at hs
    · simp at hs
    · simp only [Prod.mk.injEq, List.cons.injEq, and_true, true_and] at hs
      have := eq_of_div_mod hs.1 hs.2
      omega
    · simp at hs
  · rcases checked_slot_cases h' with ⟨_, hs⟩ | ⟨_, _, hs⟩ | ⟨_, _, hs⟩ | ⟨hle', hs⟩
    · simp at hs
    · simp at hs
    · simp at hs
    · simp only [Prod.mk.injEq, List.cons.injEq, and_true, true_and] at hs
      have hrem := eq_of_div_mod hs.2.1 hs.2.2
      have := eq_of_div_mod hs.1 hrem
      omega

/-! ## The map of ext2 -/

/-- The number of blocks below a doubly indirect block is not 0, as long as it does not wrap. -/
theorem Driver.Sized.square_ne_zero {drv : Driver} {m : Nat} (hs : drv.Sized m)
    (hsq : drv.fanout ^ 2 < 2 ^ 32) : drv.block_size / 4 * (drv.block_size / 4) ≠ 0 := by
  have hp : (drv.block_size / 4).toNat = drv.fanout := by
    rw [BitVec.toNat_udiv]
    rfl
  intro h0
  have hzero := congrArg BitVec.toNat h0
  rw [BitVec.toNat_mul, hp, ← Nat.pow_two, Nat.mod_eq_of_lt hsq, hs.fanout_eq] at hzero
  exact absurd hzero (Nat.pos_iff_ne_zero.mp (Nat.pow_pos (Nat.two_pow_pos _)))

/-- The block that the driver finds, on a device that does not fail. -/
theorem ext2_get_block_number.result {inode : Inode} {m : Nat} (hs : inode.drv.Sized m)
    {logic_blk : BitVec 32} {io : Io}
    (hn : logic_blk.toNat * inode.drv.block_size.toNat < 2 ^ 32) (hgood : ∀ n, io.fails n = false) :
    (ext2_get_block_number inode logic_blk io).1 = some (mapped inode io.sectors logic_blk.toNat) := by
  obtain ⟨ss, -, hclean⟩ := ext2_get_block_number.follows hs logic_blk io hn
  exact (hclean (.inl fun _ _ => hgood _)).2

/-- Whether reads fail or not, the map gives a number: it does not divide by zero. -/
theorem ext2_get_block_number.returns {inode : Inode} {m : Nat} (hs : inode.drv.Sized m)
    {logic_blk : BitVec 32} {io : Io}
    (hn : logic_blk.toNat * inode.drv.block_size.toNat < 2 ^ 32) :
    (ext2_get_block_number inode logic_blk io).1 ≠ none := by
  have hp : (inode.drv.block_size / 4).toNat = inode.drv.fanout := by
    rw [BitVec.toNat_udiv]
    rfl
  by_cases hlarge : inode.drv.fanout ≤ logic_blk.toNat
  · rw [ext2_get_block_number_eq inode logic_blk io (hs.square_ne_zero ((hs.bounds hn).2 hlarge))]
    dsimp only
    split <;> exact Option.some_ne_none _
  · -- a direct block, or one with a single indirection
    have hsmall : ¬ logic_blk < 12 → logic_blk - 12 < inode.drv.block_size / 4 := by
      intro h12
      have h12' : (12 : BitVec 32) ≤ logic_blk := Nat.le_of_not_lt h12
      rw [BitVec.lt_def, hp, BitVec.toNat_sub_of_le h12']
      omega
    unfold ext2_get_block_number
    dsimp only
    split
    · exact Option.some_ne_none _
    · next h12 =>
      rw [if_pos (hsmall h12)]
      split <;> exact Option.some_ne_none _

/-- For every block size from 1 KB to 64 KB and every block of a file of less than 4 GB: the driver
takes the way down along the slots of the block, the slots are in range, no number wraps, and no
other block has the same slots. The block it finds is that of ext2, on every volume, if and only if it
is not a triply indirect one. -/
theorem block_map_is_ext2_iff (drv : Driver) (k : Nat) (n : BitVec 32) (hfit : drv.Fits)
    (hsize : drv.block_size.toNat = 1024 * 2 ^ k) (hk : k ≤ 6)
    (hn : n.toNat * drv.block_size.toNat < 2 ^ 32) :
    (∀ (inode : Inode) (io : Io), inode.drv = drv → ext2_get_block_number inode n io =
      let slot := block_slot (drv.block_size / 4) n
      if slot.2 = [] ∨ inode.block slot.1 = 0 then (some (inode.block slot.1), io)
      else
        let found := follow drv slot.2 (inode.block slot.1) io.buffer.1 io.buffer.2
        (some found.1, found.2)) ∧
    checked_slot drv.fanout n.toNat = some (slot_numbers (block_slot (drv.block_size / 4) n)) ∧
    (∀ i ∈ (block_slot (drv.block_size / 4) n).2, i.toNat < drv.fanout) ∧
    (∀ n' : BitVec 32, n'.toNat * drv.block_size.toNat < 2 ^ 32 → n' ≠ n →
      block_slot (drv.block_size / 4) n' ≠ block_slot (drv.block_size / 4) n) ∧
    ((∀ (inode : Inode) (io : Io), inode.drv = drv → (∀ i, io.fails i = false) →
      (ext2_get_block_number inode n io).1 = some (block_of inode io.sectors n.toNat)) ↔
      n.toNat < 12 + drv.fanout + drv.fanout ^ 2) ∧
    (∀ (inode : Inode) (io : Io), inode.drv = drv → inode.block 14 = 0 → (∀ i, io.fails i = false) →
      (ext2_get_block_number inode n io).1 = some (block_of inode io.sectors n.toNat)) := by
  have hs : drv.Sized (10 + k) := by
    refine { hfit with size := ?_, least := by omega }
    rw [hsize, Nat.pow_add]
  have hp : (drv.block_size / 4).toNat = drv.fanout := by
    rw [BitVec.toNat_udiv]
    rfl
  have hfan : drv.fanout = 2 ^ (10 + k - 2) := hs.fanout_eq
  have hpos : 0 < drv.fanout := by
    rw [hfan]
    exact Nat.two_pow_pos _
  have hsq : drv.fanout * drv.fanout < 2 ^ 32 := by
    rw [hfan, ← Nat.pow_add]
    exact Nat.pow_lt_pow_right (by decide) (by omega)
  have hpp := hs.square_ne_zero ((Nat.pow_two _).trans_lt hsq)
  have hslot : ∀ b : BitVec 32, checked_slot drv.fanout b.toNat =
      some (slot_numbers (block_slot (drv.block_size / 4) b)) := by
    intro b
    rw [← hp] at hsq ⊢
    exact checked_slot_eq hsq b
  refine ⟨?_, hslot n, fun i hi => ?_, ?_, ⟨fun hall => ?_, ?_⟩, ?_⟩
  · rintro inode io rfl
    exact ext2_get_block_number_eq inode n io hpp
  · exact checked_slot_lt (hslot n) hpos (hs.bounds hn).1 _ (List.mem_map_of_mem hi)
  · intro n' _ hne heq
    have h' := hslot n'
    rw [heq] at h'
    exact hne (BitVec.eq_of_toNat_eq (checked_slot_injective h' (hslot n)))
  · by_contra hpast
    obtain ⟨s, hmapped, hblock⟩ := echo_map_wrong hs 0 (Nat.le_of_not_lt hpast) hn
    have hgood : ∀ i, (Io.mk (echo_disk drv s) (fun _ => false) (fun _ _ => 0) 0 0 []).fails i = false :=
      fun _ => rfl
    have hvalue := hall (echo_inode drv 0) _ rfl hgood
    have hechoed : (echo_inode drv 0).drv.Sized (10 + k) := hs
    rw [ext2_get_block_number.result hechoed hn hgood] at hvalue
    have hwrong := (Option.some.inj hvalue).symm.trans hmapped
    rw [hblock] at hwrong
    exact absurd hwrong (by decide)
  · rintro hbelow inode io rfl hgood
    rw [ext2_get_block_number.result hs hn hgood, mapped_eq_block_of (Or.inr hbelow)]
  · rintro inode io rfl h14 hgood
    rw [ext2_get_block_number.result hs hn hgood, mapped_eq_block_of (Or.inl h14)]

/-- The first doubly indirect block of a volume with blocks of 1024 bytes. -/
theorem block_map_is_ext2_small :
    (∀ i ∈ (block_slot 256 268).2, i.toNat < 256) ∧
    (∀ (inode : Inode) (io : Io), inode.drv = small_drv → (∀ i, io.fails i = false) →
      (ext2_get_block_number inode 268 io).1 = some (block_of inode io.sectors 268)) := by
  obtain ⟨-, -, hlt, -, hright, -⟩ := block_map_is_ext2_iff small_drv 0 268 ⟨by decide, by decide⟩
    (by decide) (by decide) (by decide)
  exact ⟨hlt, hright.mpr (by decide)⟩

/-- The first triply indirect block is in slot 0 of the first indirect block, where the volume has a
block, and the driver looks in slot 1. -/
theorem block_map_misses_third_tree :
    block_slot 256 65804 = (14, [1, 0, 0]) ∧
    (ext2_get_block_number (echo_inode small_drv 0) 65804
      ⟨echo_disk small_drv 0, fun _ => false, fun _ _ => 0, 0, 0, []⟩).1 = some 0 ∧
    block_of (echo_inode small_drv 0) (echo_disk small_drv 0) 65804 = echo := by
  decide +kernel

end JamsOs.Ext2
