-- Reading a file returns the file, up to the triply indirect blocks. There the driver looks in
-- the wrong place: `ext2_get_block_number` does not take the doubly indirect blocks off.
import JamsOs.Ext2Files

namespace JamsOs.Ext2

open Words

/-! ## Right reads -/

/-- The position where the triply indirect blocks of a file start. -/
def Driver.third_tree (drv : Driver) : Nat :=
  (12 + drv.fanout + drv.fanout ^ 2) * drv.block_size.toNat

/-- The read returns as much as there is, stores the bytes of the file and moves the position on
by as much, and neither the rest of the buffer nor the disk changes. -/
def ReadsRight (f : File) (buf : Buf) (len : BitVec 32) (io : Io) : Prop :=
  (ext2_file_read (some f) buf len io).1 = some (BitVec.ofNat 32 (f.available len.toNat),
    (fun j => if j < f.available len.toNat then file_byte f.inode io.sectors (f.offset.toNat + j)
      else buf j),
    some { f with offset := f.offset + BitVec.ofNat 64 (f.available len.toNat) }) ∧
  (ext2_file_read (some f) buf len io).2.sectors = io.sectors

theorem mapped_byte_eq_file_byte {inode : Inode} {disk : Word → Buf} {x : Nat}
    (h : inode.block 14 = 0 ∨ x < inode.drv.third_tree) :
    mapped_byte inode disk x = file_byte inode disk x := by
  unfold mapped_byte file_byte
  dsimp only
  rw [mapped_eq_block_of]
  apply h.imp_right
  intro hx
  exact Nat.div_lt_of_lt_mul (by rwa [Nat.mul_comm])

/-- What a read gives when the device does not fail. -/
theorem ext2_file_read.result {f : File} {m : Nat} (hs : f.inode.drv.Sized m) (buf : Buf)
    {len : BitVec 32} {io : Io} (hlen : 0 ≤ len.toInt) (hgood : ∀ n, io.fails n = false) :
    (ext2_file_read (some f) buf len io).1 = some (BitVec.ofNat 32 (f.available len.toNat),
      (fun j => if j < f.available len.toNat then
        mapped_byte f.inode io.sectors (f.offset.toNat + j) else buf j),
      some { f with offset := f.offset + BitVec.ofNat 64 (f.available len.toNat) }) ∧
    (ext2_file_read (some f) buf len io).2.sectors = io.sectors ∧
    (ext2_file_read (some f) buf len io).2.fails = io.fails := by
  obtain ⟨ss, htook, hclean⟩ := ext2_file_read.follows hs buf len io hlen
  exact ⟨(hclean (.inl fun _ _ => hgood _)).2, htook.sectors, htook.fails⟩

theorem reads_right_of_below {f : File} {m : Nat} (hs : f.inode.drv.Sized m) (buf : Buf)
    {len : BitVec 32} {io : Io} (hlen : 0 ≤ len.toInt) (hgood : ∀ n, io.fails n = false)
    (h : f.inode.block 14 = 0 ∨ f.available len.toNat = 0 ∨
      f.offset.toNat + f.available len.toNat ≤ f.inode.drv.third_tree) :
    ReadsRight f buf len io := by
  obtain ⟨hvalue, hdisk, -⟩ := ext2_file_read.result hs buf hlen hgood
  refine ⟨hvalue.trans ?_, hdisk⟩
  congr 3
  funext j
  split
  · next hj =>
    apply mapped_byte_eq_file_byte
    rcases h with h | h | h
    · exact .inl h
    · omega
    · exact .inr (by omega)
  · rfl

/-! ## Volumes that are read wrong -/

/-- Byte `j` of an array of equal numbers. -/
def byte_of (e : BitVec 32) (j : Nat) : BitVec 8 := (e >>> (8 * (j % 4))).setWidth 8

/-- A volume with two blocks. Block 1 is an indirect block with one entry, in slot `s`, for block
`e`, of which each entry is its own number. -/
def self_disk (drv : Driver) (e : BitVec 32) (s : Nat) : Word → Buf := fun w j =>
  let t := (w - drv.dev.lba_offset.setWidth 64).toNat
  let b := t / drv.sect_per_blk.toNat
  let off := t % drv.sect_per_blk.toNat * drv.dev.blk_size.toNat + j
  if b = e.toNat then byte_of e off
  else if b = 1 ∧ off / 4 = s then byte_of e off
  else 0

theorem u32_byte_of {e : BitVec 32} {b : Buf} {i : Nat}
    (h : ∀ j < 4, b (4 * i + j) = byte_of e (4 * i + j)) : u32 b (4 * i) = e := by
  have hbyte : ∀ j < 4, (b (4 * i + j)).toNat = e.toNat / 2 ^ (8 * j) % 256 := by
    intro j hj
    rw [h j hj, byte_of, Nat.mul_add_mod, Nat.mod_eq_of_lt hj, BitVec.toNat_setWidth,
      BitVec.toNat_ushiftRight, Nat.shiftRight_eq_div_pow]
  have h0 := hbyte 0 (by decide)
  have h1 := hbyte 1 (by decide)
  have h2 := hbyte 2 (by decide)
  have h3 := hbyte 3 (by decide)
  have he := e.isLt
  apply BitVec.eq_of_toNat_eq
  simp only [Nat.add_zero, Nat.mul_zero, Nat.pow_zero, Nat.div_one, Nat.reduceMul, Nat.reducePow]
    at h0 h1 h2 h3
  simp only [u32, little_endian, BitVec.toNat_ofNat, Nat.add_assoc, Nat.reduceAdd, h0, h1, h2, h3,
    Nat.mul_zero, Nat.add_zero]
  omega

theorem u32_zeros (off : Nat) : u32 (fun _ => 0) off = 0 := by
  simp [u32, little_endian]

section

variable {drv : Driver} {m : Nat} {e : BitVec 32}

theorem self_disk_bytes (hs : drv.Sized m) (s : Nat) (b : BitVec 32) {j : Nat}
    (hj : j < drv.block_size.toNat) :
    block_bytes drv (self_disk drv e s) b j =
      if b = e then byte_of e j else if b = 1 ∧ j / 4 = s then byte_of e j else 0 := by
  have hsect : j / drv.dev.blk_size.toNat < drv.sect_per_blk.toNat := by
    apply Nat.div_lt_of_lt_mul
    rw [Nat.mul_comm, hs.mul]
    exact hj
  have hb := b.isLt
  have hspb := drv.sect_per_blk.isLt
  have hprod : b.toNat * drv.sect_per_blk.toNat + drv.sect_per_blk.toNat ≤ 2 ^ 32 * 2 ^ 32 := by
    calc b.toNat * drv.sect_per_blk.toNat + drv.sect_per_blk.toNat
        = (b.toNat + 1) * drv.sect_per_blk.toNat := by rw [Nat.succ_mul]
      _ ≤ 2 ^ 32 * 2 ^ 32 := Nat.mul_le_mul hb hspb.le
  have ht : (block_sector drv b (j / drv.dev.blk_size.toNat) -
      drv.dev.lba_offset.setWidth 64).toNat =
      j / drv.dev.blk_size.toNat + drv.sect_per_blk.toNat * b.toNat := by
    unfold block_sector
    rw [BitVec.add_sub_cancel, BitVec.toNat_add, BitVec.toNat_mul,
      BitVec.toNat_setWidth_of_le (by decide), BitVec.toNat_setWidth_of_le (by decide),
      BitVec.toNat_ofNat, Nat.add_mod_mod, Nat.mod_add_mod,
      Nat.mod_eq_of_lt (by omega), Nat.mul_comm b.toNat]
    omega
  unfold block_bytes self_disk
  dsimp only
  rw [ht, Nat.add_mul_div_left _ _ (Nat.zero_lt_of_lt hsect), Nat.add_mul_mod_self_left, Nat.div_eq_of_lt hsect,
    Nat.mod_eq_of_lt hsect, Nat.zero_add, Nat.div_add_mod']
  have hself : b.toNat = e.toNat ↔ b = e := BitVec.toNat_inj
  have hone : b.toNat = 1 ↔ b = 1 := by
    rw [← BitVec.toNat_inj]
    rfl
  simp only [hself, hone]

theorem self_entry (hs : drv.Sized m) (he : (1 : BitVec 32) ≠ e) (s : Nat) {i : Nat}
    (hi : i < drv.fanout) :
    entry drv (self_disk drv e s) e i = e ∧
      entry drv (self_disk drv e s) 1 i = if i = s then e else 0 := by
  have hfour := hs.four_mul
  have hslot : ∀ j < 4, (4 * i + j) / 4 = i := by
    intro j hj
    rw [Nat.mul_add_div (by decide), Nat.div_eq_of_lt hj, Nat.add_zero]
  constructor
  · apply u32_byte_of
    intro j hj
    rw [self_disk_bytes hs s e (by omega), if_pos rfl]
  · split
    · next his =>
      apply u32_byte_of
      intro j hj
      rw [self_disk_bytes hs s 1 (by omega), if_neg he, if_pos ⟨rfl, (hslot j hj).trans his⟩]
    · next his =>
      refine (u32_congr fun j hj => ?_).trans (u32_zeros (4 * i))
      rw [self_disk_bytes hs s 1 (by omega), if_neg he, if_neg fun hc => his ((hslot j hj).symm.trans hc.2)]

/-- Leaf `i` of the tree below block 1, three levels down. -/
theorem self_tree (hs : drv.Sized m) (he : (1 : BitVec 32) ≠ e) (s : Nat) {i : Nat}
    (hi : i < drv.fanout ^ 3) :
    tree drv (self_disk drv e s) 3 1 i = if i / drv.fanout ^ 2 = s then e else 0 := by
  have hpos : 0 < drv.fanout := by
    rw [hs.fanout_eq]
    exact Nat.two_pow_pos _
  have hsq : 0 < drv.fanout ^ 2 := Nat.pow_pos hpos
  have hslot : i / drv.fanout ^ 2 < drv.fanout := Nat.div_lt_of_lt_mul (by rwa [← Nat.pow_succ])
  rw [tree, if_neg (by decide), (self_entry hs he s hslot).2]
  split
  · by_cases h0 : e = 0
    · rw [tree, if_pos h0, h0]
    · rw [tree, if_neg h0, (self_entry hs he s ?_).1, tree, if_neg h0, (self_entry hs he s ?_).1, tree]
      · rw [Nat.pow_zero, Nat.div_one, Nat.pow_one]
        exact Nat.mod_lt _ hpos
      · apply Nat.div_lt_of_lt_mul
        rw [Nat.pow_one, ← Nat.pow_two]
        exact Nat.mod_lt _ hsq
  · rw [tree, if_pos rfl]

variable {inode : Inode} {n : Nat}

/-- A triply indirect block is looked up wrong: the driver looks one slot too far on in the first
indirect block. -/
theorem self_third_tree (hs : inode.drv.Sized m) (he : (1 : BitVec 32) ≠ e)
    (h14 : inode.block 14 = 1) (s i : Nat)
    (hi : (12 + inode.drv.fanout + inode.drv.fanout ^ 2 + i) * inode.drv.block_size.toNat < 2 ^ 32) :
    let n := 12 + inode.drv.fanout + inode.drv.fanout ^ 2 + i
    mapped inode (self_disk inode.drv e s) n = (if i / inode.drv.fanout ^ 2 + 1 = s then e else 0) ∧
      block_of inode (self_disk inode.drv e s) n = if i / inode.drv.fanout ^ 2 = s then e else 0 := by
  have hcube := (hs.bounds hi).1
  have hsq : 0 < inode.drv.fanout ^ 2 := by
    rw [hs.fanout_eq]
    exact Nat.pow_pos (Nat.two_pow_pos _)
  constructor
  · have hplace : place inode (12 + inode.drv.fanout + inode.drv.fanout ^ 2 + i) =
        (3, 14, i + inode.drv.fanout ^ 2) := by
      unfold place
      dsimp only
      rw [if_neg (by omega), if_neg (by omega), if_neg (by omega)]
      congr 2
      omega
    unfold mapped
    rw [hplace, h14]
    dsimp only
    rw [self_tree hs he s (by omega), Nat.add_div_right _ hsq]
  · unfold block_of
    dsimp only
    rw [if_neg (by omega), if_neg (by omega), if_neg (by omega), h14,
      show 12 + inode.drv.fanout + inode.drv.fanout ^ 2 + i - 12 - inode.drv.fanout -
        inode.drv.fanout ^ 2 = i by omega, self_tree hs he s (by omega)]

end

/-- The number of a block whose bytes all are those of its own number. -/
def echo : BitVec 32 := 0x02020202

/-- A volume with two blocks. Block 1 is an indirect block with one entry, in slot `s`, for the
other block, of which each entry is its own number and each byte is 2. -/
def echo_disk (drv : Driver) (s : Nat) : Word → Buf := fun w j =>
  let t := (w - drv.dev.lba_offset.setWidth 64).toNat
  let b := t / drv.sect_per_blk.toNat
  if b = echo.toNat then 2
  else if b = 1 ∧ (t % drv.sect_per_blk.toNat * drv.dev.blk_size.toNat + j) / 4 = s then 2
  else 0

/-- A file whose triply indirect block is block 1, and that has no other. -/
def echo_inode (drv : Driver) (size : BitVec 32) : Inode where
  drv := drv
  ino_num := 12
  size := size
  mode := 0x8000
  raw := fun j => if j = 96 then 1 else 0

theorem byte_of_echo (j : Nat) : byte_of echo j = 2 := by
  have hall : ∀ i < 4, (echo >>> (8 * i)).setWidth 8 = (2 : BitVec 8) := by decide
  exact hall _ (Nat.mod_lt j (by decide))

theorem echo_disk_eq (drv : Driver) (s : Nat) : echo_disk drv s = self_disk drv echo s := by
  unfold echo_disk self_disk
  simp only [byte_of_echo]

theorem echo_map_wrong {drv : Driver} {m : Nat} (hs : drv.Sized m) (size : BitVec 32) {n : Nat}
    (hnlow : 12 + drv.fanout + drv.fanout ^ 2 ≤ n) (hnhigh : n * drv.block_size.toNat < 2 ^ 32) :
    ∃ s, mapped (echo_inode drv size) (echo_disk drv s) n = 0 ∧
      block_of (echo_inode drv size) (echo_disk drv s) n = echo := by
  have h14 : (echo_inode drv size).block 14 = 1 := by
    simp [Inode.block, echo_inode, u32, little_endian]
  obtain ⟨i, rfl⟩ := Nat.exists_eq_add_of_le hnlow
  have hechoed : (echo_inode drv size).drv.Sized m := hs
  have hne : (1 : BitVec 32) ≠ echo := by decide
  obtain ⟨hmapped, hblock⟩ := self_third_tree hechoed hne h14 (i / drv.fanout ^ 2) i hnhigh
  refine ⟨i / drv.fanout ^ 2, ?_, ?_⟩
  · rw [echo_disk_eq]
    exact hmapped.trans (if_neg (Nat.succ_ne_self _))
  · rw [echo_disk_eq]
    exact hblock.trans (if_pos rfl)

/-- A position past the start of the triply indirect blocks is read wrong. -/
theorem echo_read_wrong {drv : Driver} {m : Nat} (hs : drv.Sized m) (size : BitVec 32) {x : Nat}
    (hx : x < size.toNat) (hthird : drv.third_tree ≤ x) :
    ∃ s, mapped_byte (echo_inode drv size) (echo_disk drv s) x ≠
      file_byte (echo_inode drv size) (echo_disk drv s) x := by
  have hbs := hs.pos_size
  have hnlow : 12 + drv.fanout + drv.fanout ^ 2 ≤ x / drv.block_size.toNat :=
    (Nat.le_div_iff_mul_le hbs).mpr hthird
  have hnhigh : x / drv.block_size.toNat * drv.block_size.toNat < 2 ^ 32 := by
    have := size.isLt
    have := Nat.div_mul_le_self x drv.block_size.toNat
    omega
  obtain ⟨s, hmapped, hblock⟩ := echo_map_wrong hs size hnlow hnhigh
  have hecho : echo ≠ 0 := by decide
  refine ⟨s, ?_⟩
  unfold mapped_byte file_byte byte_of_block
  change (if mapped _ _ (x / drv.block_size.toNat) = 0 then (0 : BitVec 8) else _) ≠
    if block_of _ _ (x / drv.block_size.toNat) = 0 then 0 else
      block_bytes drv _ (block_of _ _ (x / drv.block_size.toNat)) (x % drv.block_size.toNat)
  rw [hmapped, hblock, if_pos rfl, if_neg hecho, echo_disk_eq, self_disk_bytes hs _ _ (Nat.mod_lt _ hbs),
    if_pos rfl, byte_of_echo]
  decide

/-! ## Sequences of reads -/

/-- The bytes that reads of the given lengths return, one after another. -/
def read_sequence : File → List (BitVec 32) → Io → Option (List (BitVec 8))
  | _, [], _ => some []
  | f, len :: lens, io =>
    match ext2_file_read (some f) (fun _ => 0) len io with
    | (some (n, buf, some f'), io') =>
      (read_sequence f' lens io').map ((List.range n.toNat).map buf ++ ·)
    | _ => none

/-- The bytes of a file from a position on, `n` of them. -/
def file_bytes (inode : Inode) (disk : Word → Buf) (off n : Nat) : List (BitVec 8) :=
  (List.range n).map fun j => file_byte inode disk (off + j)

theorem file_bytes_append (inode : Inode) (disk : Word → Buf) (off n n' : Nat) :
    file_bytes inode disk off n ++ file_bytes inode disk (off + n) n' =
      file_bytes inode disk off (n + n') := by
  unfold file_bytes
  rw [List.range_add, List.map_append, List.map_map]
  simp only [Function.comp_def, Nat.add_assoc]

/-- A sequence of reads gives the bytes from the position on, as many as were asked for in all, or
as there are. -/
theorem read_sequence_eq {inode : Inode} {m : Nat} (hs : inode.drv.Sized m)
    (hbelow : inode.block 14 = 0 ∨ inode.size.toNat ≤ inode.drv.third_tree)
    (lens : List (BitVec 32)) (hlens : ∀ len ∈ lens, 0 ≤ len.toInt) (offset : Word)
    (hoff : offset.toNat ≤ inode.size.toNat) (io : Io) (hgood : ∀ n, io.fails n = false) :
    read_sequence ⟨inode, offset⟩ lens io = some (file_bytes inode io.sectors offset.toNat
      (min (lens.map BitVec.toNat).sum (inode.size.toNat - offset.toNat))) := by
  induction lens generalizing offset io with
  | nil => simp [read_sequence, file_bytes]
  | cons len lens ih =>
    have hlen := hlens len (List.mem_cons_self ..)
    have havail : (File.mk inode offset).available len.toNat =
        min len.toNat (inode.size.toNat - offset.toNat) := rfl
    have hsize := inode.size.isLt
    obtain ⟨hvalue, hdisk⟩ := reads_right_of_below (f := ⟨inode, offset⟩) hs (fun _ => 0) hlen
      hgood (hbelow.imp_right fun h => .inr (by dsimp only; omega))
    have hfails := (ext2_file_read.result (f := ⟨inode, offset⟩) hs (fun _ => 0) hlen hgood).2.2
    rcases hv : ext2_file_read (some ⟨inode, offset⟩) (fun _ => 0) len io with ⟨v, io'⟩
    rw [hv] at hvalue hdisk hfails
    dsimp only at hvalue hdisk hfails
    subst hvalue
    have hnext : (offset + BitVec.ofNat 64 ((File.mk inode offset).available len.toNat)).toNat =
        offset.toNat + (File.mk inode offset).available len.toNat := by
      rw [BitVec.toNat_add, BitVec.toNat_ofNat]
      omega
    simp only [read_sequence, hv]
    rw [ih (fun l hl => hlens l (List.mem_cons_of_mem _ hl)) _ (by omega) io'
      (fun n => by rw [hfails]; exact hgood n), hdisk, hnext, Option.map_some]
    have hfirst : (List.range (BitVec.ofNat 32 ((File.mk inode offset).available len.toNat)).toNat).map
        (fun j => if j < (File.mk inode offset).available len.toNat then
          file_byte inode io.sectors (offset.toNat + j) else 0) =
        file_bytes inode io.sectors offset.toNat ((File.mk inode offset).available len.toNat) := by
      rw [BitVec.toNat_ofNat, Nat.mod_eq_of_lt (by omega)]
      apply List.map_congr_left
      intro j hj
      rw [if_pos (List.mem_range.mp hj)]
    rw [hfirst, file_bytes_append, List.map_cons, List.sum_cons]
    congr 2
    omega

/-! ## Reading returns the file -/

/-- On a device whose reads succeed, the reads of a length at a position are right on every volume
if and only if they do not go past the start of the triply indirect blocks. A file without such
blocks is read right everywhere, and any two sequences of reads from the start of a file that ask
for as much, or for all there is, give the same bytes, those of the file. -/
theorem file_reads_return_the_file {drv : Driver} {k : Nat} (hfit : drv.Fits)
    (hsize : drv.block_size.toNat = 1024 * 2 ^ k) :
    (∀ (size : BitVec 32) (offset : Word) (len : BitVec 32), 0 ≤ len.toInt →
      ((∀ (inode : Inode) (buf : Buf) (io : Io), inode.drv = drv → inode.size = size →
          (∀ n, io.fails n = false) → ReadsRight ⟨inode, offset⟩ buf len io) ↔
        min len.toNat (size.toNat - offset.toNat) = 0 ∨
          offset.toNat + min len.toNat (size.toNat - offset.toNat) ≤ drv.third_tree)) ∧
    (∀ (inode : Inode) (offset : Word) (buf : Buf) (len : BitVec 32) (io : Io), inode.drv = drv →
      inode.block 14 = 0 → 0 ≤ len.toInt → (∀ n, io.fails n = false) →
      ReadsRight ⟨inode, offset⟩ buf len io) ∧
    (∀ (inode : Inode) (f : File) (lens : List (BitVec 32)) (io : Io), inode.drv = drv →
      ext2_open inode true = some f →
      inode.block 14 = 0 ∨ inode.size.toNat ≤ drv.third_tree →
      (∀ len ∈ lens, 0 ≤ len.toInt) → (∀ n, io.fails n = false) →
      read_sequence f lens io = some (file_bytes inode io.sectors 0
        (min (lens.map BitVec.toNat).sum inode.size.toNat)) ∧
      ∀ whole : BitVec 32, 0 ≤ whole.toInt →
        min whole.toNat inode.size.toNat = min (lens.map BitVec.toNat).sum inode.size.toNat →
        read_sequence f lens io = read_sequence f [whole] io) := by
  have hs : drv.Sized (10 + k) := by
    refine { hfit with size := ?_, least := by omega }
    rw [hsize, Nat.pow_add]
  refine ⟨?_, ?_, ?_⟩
  · intro size offset len hlen
    constructor
    · intro hright
      by_contra hpast
      obtain ⟨hn, hend⟩ := not_or.mp hpast
      -- the last byte that is read
      obtain ⟨s, hwrong⟩ := echo_read_wrong hs size
        (x := offset.toNat + (min len.toNat (size.toNat - offset.toNat) - 1)) (by omega) (by omega)
      have hgood : ∀ n, (Io.mk (echo_disk drv s) (fun _ => false) (fun _ _ => 0) 0 0 []).fails n =
        false := fun _ => rfl
      have hvalue := (hright (echo_inode drv size) (fun _ => 0) _ rfl rfl hgood).1
      rw [(ext2_file_read.result (f := ⟨echo_inode drv size, offset⟩) hs (fun _ => 0) hlen hgood).1]
        at hvalue
      have hbuf := congrFun (congrArg (fun v => v.2.1) (Option.some.inj hvalue))
        (min len.toNat (size.toNat - offset.toNat) - 1)
      have hlast : min len.toNat (size.toNat - offset.toNat) - 1 <
          (File.mk (echo_inode drv size) offset).available len.toNat := by
        change _ < min len.toNat (size.toNat - offset.toNat)
        omega
      dsimp only at hbuf
      rw [if_pos hlast, if_pos hlast] at hbuf
      exact hwrong hbuf
    · rintro hbelow inode buf io rfl rfl hgood
      exact reads_right_of_below hs buf hlen hgood (.inr hbelow)
  · rintro inode offset buf len io rfl h14 hlen hgood
    exact reads_right_of_below hs buf hlen hgood (.inl h14)
  · rintro inode f lens io rfl hopen hbelow hlens hgood
    cases hopen
    have hseq := fun ls hls => read_sequence_eq hs hbelow ls hls 0 (Nat.zero_le _) io hgood
    refine ⟨hseq lens hlens, ?_⟩
    intro whole hwhole hsame
    rw [hseq lens hlens, hseq [whole] (by simpa using hwhole)]
    simp only [List.map_cons, List.map_nil, List.sum_cons, List.sum_nil, Nat.add_zero]
    rw [show (0 : Word).toNat = 0 from rfl, Nat.sub_zero, hsame]

/-- A volume with blocks of 1024 bytes on a partition that starts at sector 63. -/
def small_drv : Driver where
  dev := { blk_size := 512, tot_length := 4194304, fs_type := 0x83, lba_offset := 63 }
  block_size := 1024
  block_start := 2
  inodes_per_group := 128
  rev_level := 0
  inodes_size := 128

theorem file_reads_return_the_file_small :
    small_drv.Fits ∧ small_drv.block_size.toNat = 1024 * 2 ^ 0 ∧
    ((∀ (inode : Inode) (buf : Buf) (io : Io), inode.drv = small_drv → inode.size = 3000 →
        (∀ n, io.fails n = false) → ReadsRight ⟨inode, 1000⟩ buf 5000 io) ↔
      min 5000 2000 = 0 ∨ 1000 + min 5000 2000 ≤ small_drv.third_tree) :=
  ⟨⟨by decide, by decide⟩, by decide,
    (file_reads_return_the_file (k := 0) ⟨by decide, by decide⟩ (by decide)).1 3000 1000 5000
      (by decide)⟩

/-- The first byte of the triply indirect blocks is 2 on this volume, and is read as 0. -/
theorem triply_indirect_block_is_lost :
    (ext2_file_read (some ⟨echo_inode small_drv 67384320, 67383296⟩) (fun _ => 7) 1
      ⟨echo_disk small_drv 0, fun _ => false, fun _ _ => 0, 0, 0, []⟩).1.map
        (fun v => (v.1, v.2.1 0)) = some (1, 0) ∧
    file_byte (echo_inode small_drv 67384320) (echo_disk small_drv 0) 67383296 = 2 := by
  decide +kernel

end JamsOs.Ext2
