-- What the driver's reads of blocks come to: which sectors they ask for, in order, and, when
-- none of the reads fails, that the buffer holds the block of the volume.
import JamsOs.Ext2

namespace JamsOs.Ext2

open Words

variable {α β : Type}

/-! ## Following a path of sectors -/

/-- The driver went from `io` to `io'` by asking for the sectors `ss`, in this order. -/
structure Io.Took (io io' : Io) (ss : List Word) : Prop where
  sectors : io'.sectors = io.sectors
  fails : io'.fails = io.fails
  reads : io'.reads = io.reads + ss.length
  log : io'.log = ss.reverse ++ io.log

/-- None of the next `n` reads fails. -/
def Io.Good (io : Io) (n : Nat) : Prop := ∀ i < n, io.fails (io.reads + i) = false

/-- The result `r` was reached from `io` by asking for some sectors. As long as no read fails,
whether among those or among the sectors of `path`, they are those of `path`, and the value is as
`Q` says. -/
def Follows (io : Io) (r : α × Io) (path : List Word) (Q : α → Prop) : Prop :=
  ∃ ss, io.Took r.2 ss ∧ (io.Good ss.length ∨ io.Good path.length → ss = path ∧ Q r.1)

theorem Io.Took.trans {io io' io'' : Io} {ss ss' : List Word} (h : io.Took io' ss)
    (h' : io'.Took io'' ss') : io.Took io'' (ss ++ ss') where
  sectors := h'.sectors.trans h.sectors
  fails := h'.fails.trans h.fails
  reads := by rw [h'.reads, h.reads, List.length_append, Nat.add_assoc]
  log := by rw [h'.log, h.log, List.reverse_append, List.append_assoc]

theorem Io.Good.left {io : Io} {m n : Nat} (h : io.Good (m + n)) : io.Good m :=
  fun i hi => h i (by omega)

theorem Io.Took.good {io io' : Io} {ss : List Word} {n : Nat} (h : io.Took io' ss)
    (hg : io.Good (ss.length + n)) : io'.Good n := by
  intro i hi
  rw [h.fails, h.reads, Nat.add_assoc]
  exact hg (ss.length + i) (by omega)

theorem Follows.pure {io : Io} {r : α × Io} {Q : α → Prop} (h : io.Took r.2 []) (hQ : Q r.1) :
    Follows io r [] Q :=
  ⟨[], h, fun _ => ⟨rfl, hQ⟩⟩

/-- The path of the second part may depend on the value of the first, which is the right one only
if the first part met no failure. -/
theorem Follows.bind {io : Io} {r : α × Io} {r' : β × Io} {path path₁ path' : List Word}
    {Q : α → Prop} {Q₁ Q' : β → Prop} (h : Follows io r path Q) (h' : Follows r.2 r' path₁ Q₁)
    (hc : r.2.sectors = io.sectors → Q r.1 → path₁ = path' ∧ (Q₁ r'.1 → Q' r'.1)) :
    Follows io r' (path ++ path') Q' := by
  obtain ⟨ss, htook, hgood⟩ := h
  obtain ⟨ss', htook', hgood'⟩ := h'
  refine ⟨ss ++ ss', htook.trans htook', ?_⟩
  simp only [List.length_append]
  intro hg
  obtain ⟨rfl, hQ⟩ := hgood (hg.imp Io.Good.left Io.Good.left)
  obtain ⟨rfl, himp⟩ := hc htook.sectors hQ
  obtain ⟨rfl, hQ₁⟩ := hgood' (hg.imp htook.good htook.good)
  exact ⟨rfl, himp hQ₁⟩

/-- What is computed from the value alone asks for nothing. -/
theorem Follows.map {io : Io} {r : α × Io} {path : List Word} {Q : α → Prop} {Q' : β → Prop}
    (h : Follows io r path Q) (g : α → β) (hQ : Q r.1 → Q' (g r.1)) :
    Follows io (g r.1, r.2) path Q' := by
  obtain ⟨ss, htook, hgood⟩ := h
  exact ⟨ss, htook, fun hg => ⟨(hgood hg).1, hQ (hgood hg).2⟩⟩

/-- A value that is wrong unless a read failed needs no further account. -/
theorem Follows.absurd {io : Io} {r : α × Io} {r' : β × Io} {path path' : List Word} {Q : α → Prop}
    {Q' : β → Prop} (h : Follows io r path Q) (h' : r.2.Took r'.2 []) (hQ : ¬ Q r.1) :
    Follows io r' (path ++ path') Q' :=
  h.bind (Follows.pure (Q := fun _ => True) h' trivial) fun _ hq => (hQ hq).elim

theorem Io.Took.refl (io : Io) : io.Took io [] := ⟨rfl, rfl, rfl, rfl⟩

/-- A fresh buffer asks for nothing. -/
theorem Io.buffer.took (io : Io) : io.Took io.buffer.2 [] := ⟨rfl, rfl, rfl, rfl⟩

theorem Follows.after_buffer {io : Io} {r : α × Io} {path : List Word} {Q : α → Prop}
    (h : Follows io.buffer.2 r path Q) : Follows io r path Q := by
  obtain ⟨ss, htook, hgood⟩ := h
  exact ⟨ss, (Io.buffer.took io).trans htook, hgood⟩

/-- A buffer that is made at the end, for a value to be stored in. -/
theorem Follows.then_buffer {io : Io} {r : α × Io} {path : List Word} {Q : α → Prop}
    (h : Follows io r path Q) (v : β) : Follows io (v, r.2.buffer.2) path (fun _ => Q r.1) := by
  obtain ⟨ss, htook, hgood⟩ := h
  refine ⟨ss, ?_, hgood⟩
  simpa using htook.trans (Io.buffer.took r.2)

/-! ## One block -/

/-- Sector `i` of a block, as the parent device numbers it. -/
def block_sector (drv : Driver) (b : BitVec 32) (i : Nat) : Word :=
  b.setWidth 64 * drv.sect_per_blk.setWidth 64 + BitVec.ofNat 64 i + drv.dev.lba_offset.setWidth 64

def block_sectors (drv : Driver) (b : BitVec 32) : List Word :=
  (List.range drv.sect_per_blk.toNat).map (block_sector drv b)

/-- The sectors of some blocks, in order. -/
def sectors_of (drv : Driver) (bs : List (BitVec 32)) : List Word := bs.flatMap (block_sectors drv)

/-- The bytes of block `b` of the volume. -/
def block_bytes (drv : Driver) (disk : Word → Buf) (b : BitVec 32) : Buf := fun j =>
  disk (block_sector drv b (j / drv.dev.blk_size.toNat)) (j % drv.dev.blk_size.toNat)

/-- A block is a whole number of sectors. -/
structure Driver.Fits (drv : Driver) : Prop where
  pos : 0 < drv.dev.blk_size.toNat
  dvd : drv.dev.blk_size.toNat ∣ drv.block_size.toNat

theorem Driver.Fits.mul {drv : Driver} (h : drv.Fits) :
    drv.sect_per_blk.toNat * drv.dev.blk_size.toNat = drv.block_size.toNat := by
  unfold Driver.sect_per_blk
  rw [BitVec.toNat_udiv]
  exact Nat.div_mul_cancel h.dvd

theorem read_sector.follows (drv : Driver) (b : BitVec 32) (buf : Buf) (io : Io) (i : Nat)
    (hi : i * drv.dev.blk_size.toNat < 2 ^ 32) :
    Follows io
      (read_sector drv (b.setWidth 64 * drv.sect_per_blk.setWidth 64) (buf, io) i)
      [block_sector drv b i]
      (fun buf' => ∀ j, buf' j =
        if i * drv.dev.blk_size.toNat ≤ j ∧
            j < i * drv.dev.blk_size.toNat + drv.dev.blk_size.toNat then
          io.sectors (block_sector drv b i) (j - i * drv.dev.blk_size.toNat)
        else buf j) := by
  have hoff : (BitVec.ofNat 32 i * drv.dev.blk_size).toNat = i * drv.dev.blk_size.toNat := by
    rw [BitVec.toNat_mul, BitVec.toNat_ofNat, Nat.mod_mul_mod]
    exact Nat.mod_eq_of_lt hi
  unfold read_sector partition_read_block disk_read_block
  simp only [hoff]
  by_cases hf : io.fails io.reads = true
  · rw [if_pos hf]
    refine ⟨[block_sector drv b i], ⟨rfl, rfl, rfl, rfl⟩, ?_⟩
    intro hg
    have h0 : io.fails (io.reads + 0) = false := by
      rcases hg with hg | hg <;> exact hg 0 (by simp)
    simp [hf] at h0
  · rw [if_neg hf]
    refine ⟨[block_sector drv b i], ⟨rfl, rfl, rfl, rfl⟩, fun _ => ⟨rfl, ?_⟩⟩
    intro j
    dsimp only
    by_cases hj : i * drv.dev.blk_size.toNat ≤ j
    · by_cases hj' : j < i * drv.dev.blk_size.toNat + drv.dev.blk_size.toNat
      · rw [if_pos hj, if_pos (by omega), if_pos ⟨hj, hj'⟩]
        rfl
      · rw [if_pos hj, if_neg (by omega), if_neg (by omega)]
        congr 1
        omega
    · rw [if_neg hj, if_neg (by omega)]

/-- After `n` turns of the loop the first `n` sectors are there. -/
theorem read_sectors.follows {drv : Driver} (hfit : drv.Fits) (b : BitVec 32) (buf : Buf) (io : Io)
    (n : Nat) (hn : n ≤ drv.sect_per_blk.toNat) :
    Follows io
      ((List.range n).foldl (read_sector drv (b.setWidth 64 * drv.sect_per_blk.setWidth 64))
        (buf, io))
      ((List.range n).map (block_sector drv b))
      (fun buf' => ∀ j, buf' j =
        if j < n * drv.dev.blk_size.toNat then block_bytes drv io.sectors b j else buf j) := by
  induction n with
  | zero =>
    apply Follows.pure
    · exact ⟨rfl, rfl, rfl, rfl⟩
    · intro j
      simp
  | succ n ih =>
    have hpos := hfit.pos
    have hlt : n * drv.dev.blk_size.toNat < 2 ^ 32 := by
      have hle := Nat.mul_le_mul_right drv.dev.blk_size.toNat (show n ≤ drv.sect_per_blk.toNat by omega)
      rw [hfit.mul] at hle
      exact hle.trans_lt drv.block_size.isLt
    rw [List.range_succ, List.foldl_append, List.map_append]
    apply Follows.bind (ih (by omega)) (read_sector.follows drv b _ _ n hlt)
    intro hdisk hbuf
    refine ⟨rfl, ?_⟩
    intro hturn j
    rw [hturn j, hdisk, hbuf j, Nat.succ_mul]
    by_cases hlo : j < n * drv.dev.blk_size.toNat
    · rw [if_neg (by omega), if_pos hlo, if_pos (by omega)]
    · by_cases hhi : j < n * drv.dev.blk_size.toNat + drv.dev.blk_size.toNat
      · -- the new sector: `j` lies in sector `n` of the block
        have hdiv : j / drv.dev.blk_size.toNat = n := by
          apply Nat.div_eq_of_lt_le
          · omega
          · rw [Nat.succ_mul]
            exact hhi
        have hmod : j % drv.dev.blk_size.toNat = j - n * drv.dev.blk_size.toNat := by
          rw [Nat.mod_eq_sub_div_mul, hdiv]
        rw [if_pos (by omega), if_pos hhi]
        unfold block_bytes
        rw [hdiv, hmod]
      · rw [if_neg (by omega), if_neg hlo, if_neg hhi]

theorem ext2_read_block.follows {drv : Driver} (hfit : drv.Fits) (b : BitVec 32) (buf : Buf)
    (io : Io) :
    Follows io (ext2_read_block drv b buf io) (block_sectors drv b)
      (fun buf' => ∀ j, buf' j =
        if j < drv.block_size.toNat then block_bytes drv io.sectors b j else buf j) := by
  have h := read_sectors.follows hfit b buf io drv.sect_per_blk.toNat le_rfl
  rw [hfit.mul] at h
  exact h

end JamsOs.Ext2
