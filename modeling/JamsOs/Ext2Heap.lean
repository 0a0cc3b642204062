-- The ext2 driver (`ext2.c`) with the blocks of the heap that it takes and gives back: block
-- buffers, inodes with their private copies, open files, and the requests of the disk driver
-- (`ata_read_block`). Apart from the heap, each function does what its model in `Ext2` does.
import JamsOs.DirEntries
import JamsOs.BlockMap
import JamsOs.Ownership

namespace JamsOs.Ext2.Owned

open Words Ownership

/-! ## Blocks -/

/-- `kmalloc` of a buffer, where the code does not look at its result. -/
def kmalloc_buf : Prog Io (Nat × Buf) := do
  let a ← alloc
  let buf ← lift Io.buffer
  pure (a, buf)

/-- A read of the disk fails when there is no memory for the request. Otherwise the request is
released when the data has come. -/
def read_sector (drv : Driver) (start_sect : Word) (buf : Buf) (i : Nat) : Prog Io Buf := do
  let refused ← lift fun io => (io.fails io.reads, io)
  if refused then lift fun io => Ext2.read_sector drv start_sect (buf, io) i
  else do
    let req ← alloc
    let buf ← lift fun io => Ext2.read_sector drv start_sect (buf, io) i
    free req
    pure buf

def ext2_read_block (drv : Driver) (block_num : BitVec 32) (buf : Buf) : Prog Io Buf :=
  let start_sect := block_num.setWidth 64 * drv.sect_per_blk.setWidth 64
  (List.range drv.sect_per_blk.toNat).foldlM (read_sector drv start_sect) buf

/-! ## Inodes -/

/-- `struct inode` and its private data, with their places in the heap. -/
structure Vnode where
  addr : Nat
  priv_data : Nat
  inode : Inode

def Vnode.blocks (vnode : Vnode) : List Nat := [vnode.priv_data, vnode.addr]

def ext2_read_inode (drv : Driver) (inode_num : BitVec 32) : Prog Io Vnode :=
  let idx := inode_num - 1
  if drv.inodes_per_group = 0 then fault
  else do
    let group := idx / drv.inodes_per_group
    let group_index := idx % drv.inodes_per_group
    let (bg, bg_buf) ← kmalloc_buf
    let descriptors_per_block := drv.block_size / sizeof_group
    if descriptors_per_block = 0 then fault
    else do
      let bg_block_offset := group / descriptors_per_block
      let bg_index_in_block := group % descriptors_per_block
      let bg_buf ← ext2_read_block drv (drv.block_start + bg_block_offset) bg_buf
      let inode_table_block := u32 bg_buf (bg_index_in_block.toNat * 32 + 8)
      if drv.inode_size = 0 ∨ drv.block_size / drv.inode_size = 0 then fault
      else do
        let inodes_per_block := drv.block_size / drv.inode_size
        let table_block_offset := group_index / inodes_per_block
        let index_in_block := group_index % inodes_per_block
        let (inode_block, inode_block_buf) ← kmalloc_buf
        let inode_block_buf ←
          ext2_read_block drv (inode_table_block + table_block_offset) inode_block_buf
        let raw_node : Buf := fun j => inode_block_buf ((index_in_block * drv.inode_size).toNat + j)
        let vnode ← alloc
        let (priv_data, priv_buf) ← kmalloc_buf
        free bg
        free inode_block
        pure {
          addr := vnode
          priv_data := priv_data
          inode := {
            drv := drv
            ino_num := inode_num
            size := u32 raw_node 4
            mode := (u16 raw_node 0).setWidth 32
            raw := fun j => if j < drv.inode_size.toNat then raw_node j else priv_buf j } }

/-! ## The block map -/

def ext2_get_block_number (inode : Inode) (logic_blk : BitVec 32) : Prog Io (BitVec 32) :=
  let drv := inode.drv
  let p := drv.block_size / 4
  if logic_blk < 12 then pure (inode.block logic_blk.toNat)
  else
    let logic_blk := logic_blk - 12
    if logic_blk < p then
      if inode.block 12 = 0 then pure 0
      else do
        let (a, block_buf) ← kmalloc_buf
        let block_buf ← ext2_read_block drv (inode.block 12) block_buf
        free a
        pure (u32 block_buf (4 * logic_blk.toNat))
    else
      let logic_blk := logic_blk - p
      if logic_blk < p * p then
        if inode.block 13 = 0 then pure 0
        else do
          let idx_1 := logic_blk / p
          let idx_2 := logic_blk % p
          let (a, block_buf) ← kmalloc_buf
          let block_buf ← ext2_read_block drv (inode.block 13) block_buf
          let indirect_block := u32 block_buf (4 * idx_1.toNat)
          if indirect_block = 0 then do
            free a
            pure 0
          else do
            let block_buf ← ext2_read_block drv indirect_block block_buf
            free a
            pure (u32 block_buf (4 * idx_2.toNat))
      else if inode.block 14 = 0 then pure 0
      else if p * p = 0 then fault
      else do
        let idx_1 := logic_blk / (p * p)
        let rem := logic_blk % (p * p)
        let idx_2 := rem / p
        let idx_3 := rem % p
        let (a, block_buf) ← kmalloc_buf
        let block_buf ← ext2_read_block drv (inode.block 14) block_buf
        let indirect_block_1 := u32 block_buf (4 * idx_1.toNat)
        if indirect_block_1 = 0 then do
          free a
          pure 0
        else do
          let block_buf ← ext2_read_block drv indirect_block_1 block_buf
          let indirect_block_2 := u32 block_buf (4 * idx_2.toNat)
          if indirect_block_2 = 0 then do
            free a
            pure 0
          else do
            let block_buf ← ext2_read_block drv indirect_block_2 block_buf
            free a
            pure (u32 block_buf (4 * idx_3.toNat))

/-! ## Directories -/

/-- The callback of a directory walk, with the data `p` that it may change. It gets the name and the
inode of a child, and stops the walk with `true`. -/
abbrev Callback (σ : Type) := σ → List (BitVec 8) → Vnode → Bool × σ

/-- The loop over the entries of one block. The result has the child on which the callback stopped. -/
def dentry_loop {σ : Type} (drv : Driver) (cb : Callback σ) (block_buf : Buf)
    (block_bytes : BitVec 32) : Nat → BitVec 32 → σ → Prog Io (σ × Option Vnode)
  | 0, _, p => pure (p, none)
  | fuel + 1, offset, p =>
    if ¬ offset < block_bytes then pure (p, none)
    else
      let dentry : Buf := fun j => block_buf (offset.toNat + j)
      let rec_len := (u16 dentry 4).setWidth 32
      if rec_len < 8 ∨ rec_len % 4 ≠ 0 then pure (p, none)
      else if block_bytes < offset + rec_len then pure (p, none)
      else if u32 dentry 0 = 0 then
        dentry_loop drv cb block_buf block_bytes fuel (offset + rec_len) p
      else do
        let name := (List.range (dentry 6).toNat).map fun j => dentry (8 + j)
        let child ← ext2_read_inode drv (u32 dentry 0)
        let r := cb p name child
        if r.1 then pure (r.2, some child)
        else do
          free child.priv_data
          free child.addr
          dentry_loop drv cb block_buf block_bytes fuel (offset + rec_len) r.2

/-- The loop over the blocks of a directory, from block `blk` on; `n` blocks are left. -/
def readdir_loop {σ : Type} (inode : Inode) (cb : Callback σ) :
    Nat → BitVec 32 → BitVec 32 → Buf → σ → Prog Io (σ × Option Vnode)
  | 0, _, _, _, p => pure (p, none)
  | n + 1, blk, bytes_left, block_buf, p => do
    let drv := inode.drv
    let phys_block ← ext2_get_block_number inode blk
    let block_bytes := if bytes_left < drv.block_size then bytes_left else drv.block_size
    if phys_block = 0 then
      readdir_loop inode cb n (blk + 1) (bytes_left - block_bytes) block_buf p
    else do
      let block_buf ← ext2_read_block drv phys_block block_buf
      let r ← dentry_loop drv cb block_buf block_bytes block_bytes.toNat 0 p
      match r with
      | (p, some child) => pure (p, some child)
      | (p, none) => readdir_loop inode cb n (blk + 1) (bytes_left - block_bytes) block_buf p

/-- The return value, the callback's data, and the child on which it stopped. -/
def ext2_readdir {σ : Type} (inode : Inode) (cb : Callback σ) (p : σ) :
    Prog Io (Int × σ × Option Vnode) :=
  if inode.mode &&& S_IFDIR = 0 then pure (-1, p, none)
  else do
    let drv := inode.drv
    let (a, block_buf) ← kmalloc_buf
    if drv.block_size = 0 then fault
    else do
      let total_blocks := (inode.size + drv.block_size - 1) / drv.block_size
      let r ← readdir_loop inode cb total_blocks.toNat 0 inode.size block_buf p
      free a
      pure (0, r)

/-! ## Files -/

/-- `struct file`, with its place in the heap. -/
structure OpenFile where
  addr : Nat
  file : File

def ext2_open (inode : Inode) : Prog Io (Option OpenFile) := do
  let f ← try_alloc
  pure (f.map fun addr => ⟨addr, inode, 0⟩)

def read_turn (inode : Inode) (r : Reading) : Prog Io Reading :=
  let drv := inode.drv
  if drv.block_size = 0 then fault
  else do
    let logical_block := (r.offset / drv.block_size.setWidth 64).setWidth 32
    let block_offset := (r.offset % drv.block_size.setWidth 64).setWidth 32
    let to_read :=
      if r.len < drv.block_size - block_offset then r.len else drv.block_size - block_offset
    let phys_block ← ext2_get_block_number inode logical_block
    if phys_block = 0 then pure (r.copy (fun _ => 0) to_read r.temp_block)
    else do
      let temp_block ← ext2_read_block drv phys_block r.temp_block
      pure (r.copy (fun j => temp_block (block_offset.toNat + j)) to_read temp_block)

def read_loop (inode : Inode) : Nat → Reading → Prog Io Reading
  | 0, r => pure r
  | fuel + 1, r =>
    if r.len.toInt ≤ 0 then pure r
    else do
      let r ← read_turn inode r
      read_loop inode fuel r

def ext2_file_read (f : OpenFile) (buf : Buf) (len : BitVec 32) :
    Prog Io (BitVec 32 × Buf × OpenFile) :=
  let inode := f.file.inode
  if inode.size.setWidth 64 ≤ f.file.offset then pure (0, buf, f)
  else do
    let len :=
      if inode.size.setWidth 64 < f.file.offset + len.signExtend 64 then
        (inode.size.setWidth 64 - f.file.offset).setWidth 32
      else len
    let (a, temp_block) ← kmalloc_buf
    let r ← read_loop inode len.toNat ⟨buf, 0, f.file.offset, len, 0, temp_block⟩
    free a
    pure (r.bytes_read, r.buf, ⟨f.addr, { f.file with offset := r.offset }⟩)

def ext2_file_lseek (f : OpenFile) (offset : BitVec 32) : Int × OpenFile :=
  let r := Ext2.ext2_file_lseek f.file offset
  (r.1, ⟨f.addr, r.2⟩)

def ext2_file_close (f : OpenFile) : Prog Io Unit := free f.addr

/-! ## Without the heap -/

section

variable {io io' : Io}

theorem kmalloc_buf.returns (io : Io) :
    Returns kmalloc_buf io fun r io' => r.2 = io.buffer.1 ∧ io' = io.buffer.2 :=
  fun _ => ⟨_, _, _, rfl, rfl, rfl, rfl⟩

theorem read_sector.returns (drv : Driver) (start_sect : Word) (buf : Buf) (i : Nat) (io : Io) :
    Returns (read_sector drv start_sect buf i) io fun buf' io' =>
      buf' = (Ext2.read_sector drv start_sect (buf, io) i).1 ∧
      io' = (Ext2.read_sector drv start_sect (buf, io) i).2 := by
  intro h
  unfold read_sector
  rw [bind_eq]
  dsimp only [lift, Option.bind_some]
  split <;> exact ⟨_, _, _, rfl, rfl, rfl, rfl⟩

theorem ext2_read_block.returns (drv : Driver) (b : BitVec 32) (buf : Buf) (io : Io) :
    Returns (ext2_read_block drv b buf) io fun buf' io' =>
      buf' = (Ext2.ext2_read_block drv b buf io).1 ∧ io' = (Ext2.ext2_read_block drv b buf io).2 := by
  unfold ext2_read_block Ext2.ext2_read_block
  dsimp only
  generalize List.range drv.sect_per_blk.toNat = l
  induction l generalizing buf io with
  | nil => exact Returns.pure ⟨rfl, rfl⟩
  | cons i l ih =>
    refine (read_sector.returns drv _ buf i io).bind ?_
    rintro _ _ ⟨rfl, rfl⟩
    exact ih _ _

/-- What comes after a buffer was made. -/
theorem kmalloc_buf.does {α β : Type} {view : α → β} {r : Option β × Io} {f : Nat × Buf → Prog Io α}
    (h : ∀ a, Does view r (f (a, io.buffer.1)) io.buffer.2) : Does view r (kmalloc_buf >>= f) io := by
  refine Does.bind (kmalloc_buf.returns io) ?_
  rintro ⟨a, _⟩ _ ⟨rfl, rfl⟩
  exact h a

/-- What comes after a block was read. -/
theorem ext2_read_block.does {α β : Type} {view : α → β} {r : Option β × Io} {f : Buf → Prog Io α}
    {drv : Driver} {b : BitVec 32} {buf : Buf}
    (h : Does view r (f (Ext2.ext2_read_block drv b buf io).1) (Ext2.ext2_read_block drv b buf io).2) :
    Does view r (ext2_read_block drv b buf >>= f) io := by
  refine Does.bind (ext2_read_block.returns drv b buf io) ?_
  rintro _ _ ⟨rfl, rfl⟩
  exact h

theorem ext2_read_inode.does (drv : Driver) (num : BitVec 32) (io : Io) :
    Does Vnode.inode (Ext2.ext2_read_inode drv num io) (ext2_read_inode drv num) io := by
  unfold Ext2.ext2_read_inode ext2_read_inode
  refine Does.ite (fun _ => Does.fault) fun _ => kmalloc_buf.does fun bg => ?_
  refine Does.ite (fun _ => Does.fault) fun _ => ext2_read_block.does ?_
  refine Does.ite (fun _ => Does.fault) fun _ => kmalloc_buf.does fun ib => ext2_read_block.does ?_
  exact fun h => ⟨_, _, _, rfl, rfl, rfl, rfl⟩

theorem ext2_get_block_number.does (inode : Inode) (logic_blk : BitVec 32) (io : Io) :
    Does id (Ext2.ext2_get_block_number inode logic_blk io) (ext2_get_block_number inode logic_blk)
      io := by
  unfold Ext2.ext2_get_block_number ext2_get_block_number
  refine Does.ite (fun _ => Does.pure _) fun _ => ?_
  refine Does.ite (fun _ => ?_) fun _ => Does.ite (fun _ => ?_) fun _ => ?_
  · refine Does.ite (fun _ => Does.pure _) fun _ => kmalloc_buf.does fun a => ext2_read_block.does ?_
    exact (Does.pure _).after_free a
  · refine Does.ite (fun _ => Does.pure _) fun _ => kmalloc_buf.does fun a => ext2_read_block.does ?_
    refine Does.ite (fun _ => (Does.pure _).after_free a) fun _ => ext2_read_block.does ?_
    exact (Does.pure _).after_free a
  · refine Does.ite (fun _ => Does.pure _) fun _ => Does.ite (fun _ => Does.fault) fun _ => ?_
    refine kmalloc_buf.does fun a => ext2_read_block.does ?_
    refine Does.ite (fun _ => (Does.pure _).after_free a) fun _ => ext2_read_block.does ?_
    refine Does.ite (fun _ => (Does.pure _).after_free a) fun _ => ext2_read_block.does ?_
    exact (Does.pure _).after_free a

theorem read_turn.does (inode : Inode) (r : Reading) (io : Io) :
    Does id (Ext2.read_turn inode r io) (read_turn inode r) io := by
  unfold Ext2.read_turn read_turn
  refine Does.ite (fun _ => Does.fault) fun _ => ?_
  have hmap := ext2_get_block_number.does inode
    ((r.offset / inode.drv.block_size.setWidth 64).setWidth 32) io
  rcases hb : Ext2.ext2_get_block_number inode
    ((r.offset / inode.drv.block_size.setWidth 64).setWidth 32) io with ⟨_ | b, io₁⟩ <;>
    dsimp only <;> rw [hb]
  · exact hmap.stops (congrArg Prod.fst hb)
  refine Does.bind (hmap.returns hb) ?_
  rintro _ _ ⟨rfl, rfl⟩
  exact Does.ite (fun _ => Does.pure _) fun _ => ext2_read_block.does (Does.pure _)

theorem read_loop.does (inode : Inode) (fuel : Nat) (r : Reading) (io : Io) :
    Does id (Ext2.read_loop inode fuel r io) (read_loop inode fuel r) io := by
  induction fuel generalizing r io with
  | zero => exact Does.pure r
  | succ fuel ih =>
    unfold Ext2.read_loop read_loop
    refine Does.ite (fun _ => Does.pure _) fun _ => ?_
    have hturn := read_turn.does inode r io
    rcases hr : Ext2.read_turn inode r io with ⟨_ | r₁, io₁⟩ <;> dsimp only
    · exact hturn.stops (congrArg Prod.fst hr)
    · refine Does.bind (hturn.returns hr) ?_
      rintro _ _ ⟨rfl, rfl⟩
      exact ih _ _

theorem ext2_file_read.returns {f f' : File} {buf buf' : Buf} {len n : BitVec 32}
    (hrun : Ext2.ext2_file_read (some f) buf len io = (some (n, buf', some f'), io')) (addr : Nat) :
    Returns (ext2_file_read ⟨addr, f⟩ buf len) io fun v s => v = (n, buf', ⟨addr, f'⟩) ∧ s = io' := by
  unfold Ext2.ext2_file_read at hrun
  unfold ext2_file_read
  dsimp only at hrun ⊢
  split at hrun
  · next hend =>
    cases hrun
    rw [if_pos hend]
    exact Returns.pure ⟨rfl, rfl⟩
  next hinside =>
  rw [if_neg hinside]
  split at hrun
  · cases hrun
  next r io₁ hloop =>
  cases hrun
  refine (kmalloc_buf.returns io).bind ?_
  rintro ⟨a, _⟩ _ ⟨rfl, rfl⟩
  refine ((read_loop.does _ _ _ _).returns hloop).bind ?_
  rintro _ _ ⟨rfl, rfl⟩
  exact (Returns.pure ⟨rfl, rfl⟩).after_free a

end

/-! ## Walks whose callback does not look at its data -/

section

variable {σ : Type} {cb : Callback σ} {f : List (BitVec 8) → Inode → Bool}

/-- What a walk with such a callback does, in the model without the heap. -/
def Mirrors (w : Walk × Io) (r : Option ((σ × Option Vnode) × Io × Heap)) : Prop :=
  match w.1 with
  | .fault => r = none
  | .finished => ∃ p h, r = some ((p, none), w.2, h)
  | .stopped => ∃ p child h, r = some ((p, some child), w.2, h)

theorem dentry_loop.mirrors (hcb : ∀ p name child, (cb p name child).1 = f name child.inode)
    (drv : Driver) (block_buf : Buf) (block_bytes : BitVec 32) (fuel : Nat) (offset : BitVec 32)
    (p : σ) (io : Io) (h : Heap) :
    Mirrors (Ext2.dentry_loop drv f block_buf block_bytes fuel offset io)
      (dentry_loop drv cb block_buf block_bytes fuel offset p io h) := by
  induction fuel generalizing offset p io h with
  | zero => exact ⟨p, h, rfl⟩
  | succ fuel ih =>
    unfold Ext2.dentry_loop dentry_loop
    dsimp only
    split
    · exact ⟨p, h, rfl⟩
    split
    · exact ⟨p, h, rfl⟩
    split
    · exact ⟨p, h, rfl⟩
    split
    · exact ih _ _ _ _
    rcases hread : Ext2.ext2_read_inode drv
      (u32 (fun j => block_buf (offset.toNat + j)) 0) io with ⟨_ | inode, io₁⟩
    · exact (ext2_read_inode.does _ _ _).stops (congrArg Prod.fst hread) h
    · obtain ⟨child, _, h₁, hchild, -, rfl, rfl⟩ := (ext2_read_inode.does _ _ _).returns hread h
      rw [bind_some hchild]
      dsimp only
      rw [hcb]
      split
      · exact ⟨_, child, h₁, rfl⟩
      · exact ih _ _ _ _

theorem readdir_loop.mirrors (hcb : ∀ p name child, (cb p name child).1 = f name child.inode)
    (inode : Inode) (n : Nat) (blk bytes_left : BitVec 32) (block_buf : Buf) (p : σ) (io : Io)
    (h : Heap) :
    Mirrors (Ext2.readdir_loop inode f n blk bytes_left block_buf io)
      (readdir_loop inode cb n blk bytes_left block_buf p io h) := by
  induction n generalizing blk bytes_left block_buf p io h with
  | zero => exact ⟨p, h, rfl⟩
  | succ n ih =>
    unfold Ext2.readdir_loop readdir_loop
    dsimp only
    rcases hmap : Ext2.ext2_get_block_number inode blk io with ⟨_ | b, io₁⟩
    · exact (ext2_get_block_number.does _ _ _).stops (congrArg Prod.fst hmap) h
    obtain ⟨_, _, h₁, hb, -, rfl, rfl⟩ := (ext2_get_block_number.does _ _ _).returns hmap h
    rw [bind_some hb]
    dsimp only [id]
    split
    · exact ih _ _ _ _ _ _
    obtain ⟨_, _, h₂, hblock, -, rfl, rfl⟩ := ext2_read_block.returns inode.drv _ block_buf _ h₁
    rw [bind_some hblock]
    generalize Ext2.ext2_read_block inode.drv _ block_buf _ = block
    have hwalk := dentry_loop.mirrors hcb inode.drv block.1
      (if bytes_left < inode.drv.block_size then bytes_left else inode.drv.block_size)
      (if bytes_left < inode.drv.block_size then bytes_left else inode.drv.block_size).toNat 0 p
      block.2 h₂
    rcases hw : Ext2.dentry_loop inode.drv f block.1
      (if bytes_left < inode.drv.block_size then bytes_left else inode.drv.block_size)
      (if bytes_left < inode.drv.block_size then bytes_left else inode.drv.block_size).toNat 0 block.2
      with ⟨w, io₃⟩
    rw [hw] at hwalk
    cases w with
    | fault =>
      have hnone : _ = none := hwalk
      show _ = none
      rw [bind_eq, hnone]
      rfl
    | stopped =>
      obtain ⟨p', child, h₃, hrun⟩ := hwalk
      rw [bind_some hrun]
      exact ⟨p', child, h₃, rfl⟩
    | finished =>
      obtain ⟨p', h₃, hrun⟩ := hwalk
      rw [bind_some hrun]
      exact ih _ _ _ _ _ _

end

/-! ## What the functions own -/

theorem kmalloc_buf.holds (own : List Nat) : Holds own kmalloc_buf fun r => r.1 :: own := by
  unfold kmalloc_buf
  refine (Holds.alloc own).bind fun a => ?_
  refine ((Holds.lift _).beside (a :: own)).bind fun buf => ?_
  exact Holds.pure (a, buf) rfl

theorem read_sector.holds (drv : Driver) (start_sect : Word) (buf : Buf) (i : Nat) :
    Holds [] (read_sector drv start_sect buf i) fun _ => [] := by
  unfold read_sector
  refine (Holds.lift _).bind fun refused => Holds.ite (fun _ => Holds.lift _) fun _ => ?_
  refine (Holds.alloc []).bind fun req => ?_
  refine ((Holds.lift _).beside [req]).bind fun buf => ?_
  exact (Holds.free req []).bind fun _ => Holds.pure buf rfl

theorem ext2_read_block.holds (drv : Driver) (b : BitVec 32) (buf : Buf) :
    Holds [] (ext2_read_block drv b buf) fun _ => [] :=
  Holds.foldlM (fun buf i => read_sector.holds drv _ buf i) _ buf

theorem ext2_read_inode.holds (drv : Driver) (num : BitVec 32) :
    Holds [] (ext2_read_inode drv num) Vnode.blocks := by
  unfold ext2_read_inode
  refine Holds.ite (fun _ => Holds.fault _ _) fun _ => ?_
  refine (kmalloc_buf.holds []).bind fun bg => ?_
  refine Holds.ite (fun _ => Holds.fault _ _) fun _ => ?_
  refine ((ext2_read_block.holds _ _ _).beside [bg.1]).bind fun _ => ?_
  refine Holds.ite (fun _ => Holds.fault _ _) fun _ => ?_
  refine (kmalloc_buf.holds [bg.1]).bind fun ib => ?_
  refine ((ext2_read_block.holds _ _ _).beside [ib.1, bg.1]).bind fun _ => ?_
  refine (Holds.alloc [ib.1, bg.1]).bind fun vnode => ?_
  refine (kmalloc_buf.holds [vnode, ib.1, bg.1]).bind fun priv => ?_
  -- the two buffers are given back in the order in which they were made
  have hlast : ([priv.1, vnode, ib.1, bg.1] : List Nat).Perm [bg.1, ib.1, priv.1, vnode] := by
    have h : ([priv.1, vnode] ++ [ib.1, bg.1]).Perm ([ib.1, bg.1] ++ [priv.1, vnode]) :=
      List.perm_append_comm
    exact h.trans (List.Perm.swap _ _ _)
  refine ((Holds.free bg.1 [ib.1, priv.1, vnode]).conseq hlast fun _ => List.Perm.refl _).bind
    fun _ => ?_
  exact (Holds.free ib.1 [priv.1, vnode]).bind fun _ => Holds.pure _ rfl

theorem ext2_get_block_number.holds (inode : Inode) (logic_blk : BitVec 32) :
    Holds [] (ext2_get_block_number inode logic_blk) fun _ => [] := by
  have hread : ∀ a b buf, Holds [a] (ext2_read_block inode.drv b buf) fun _ => [a] := fun a b buf =>
    (ext2_read_block.holds _ _ _).beside [a]
  have hlast : ∀ (a : Nat) (v : BitVec 32), Holds [a] (free a >>= fun _ => pure v : Prog Io _)
      fun _ => [] := fun a v => (Holds.free a []).bind fun _ => Holds.pure v rfl
  unfold ext2_get_block_number
  refine Holds.ite (fun _ => Holds.pure _ rfl) fun _ => ?_
  refine Holds.ite (fun _ => ?_) fun _ => Holds.ite (fun _ => ?_) fun _ => ?_
  · refine Holds.ite (fun _ => Holds.pure _ rfl) fun _ => ?_
    refine (kmalloc_buf.holds []).bind fun r => ?_
    exact (hread r.1 _ _).bind fun _ => hlast _ _
  · refine Holds.ite (fun _ => Holds.pure _ rfl) fun _ => ?_
    refine (kmalloc_buf.holds []).bind fun r => ?_
    refine (hread r.1 _ _).bind fun _ => Holds.ite (fun _ => hlast _ _) fun _ => ?_
    exact (hread r.1 _ _).bind fun _ => hlast _ _
  · refine Holds.ite (fun _ => Holds.pure _ rfl) fun _ => ?_
    refine Holds.ite (fun _ => Holds.fault _ _) fun _ => ?_
    refine (kmalloc_buf.holds []).bind fun r => ?_
    refine (hread r.1 _ _).bind fun _ => Holds.ite (fun _ => hlast _ _) fun _ => ?_
    refine (hread r.1 _ _).bind fun _ => Holds.ite (fun _ => hlast _ _) fun _ => ?_
    exact (hread r.1 _ _).bind fun _ => hlast _ _

/-- The blocks of the child on which the callback stopped. -/
def kept {σ : Type} (r : σ × Option Vnode) : List Nat := r.2.elim [] Vnode.blocks

section

variable {σ : Type} (cb : Callback σ)

theorem dentry_loop.holds (drv : Driver) (block_buf : Buf) (block_bytes : BitVec 32) (fuel : Nat)
    (offset : BitVec 32) (p : σ) :
    Holds [] (dentry_loop drv cb block_buf block_bytes fuel offset p) kept := by
  induction fuel generalizing offset p with
  | zero => exact Holds.pure _ rfl
  | succ fuel ih =>
    unfold dentry_loop
    refine Holds.ite (fun _ => Holds.pure _ rfl) fun _ => ?_
    refine Holds.ite (fun _ => Holds.pure _ rfl) fun _ => ?_
    refine Holds.ite (fun _ => Holds.pure _ rfl) fun _ => ?_
    refine Holds.ite (fun _ => ih _ _) fun _ => ?_
    refine (ext2_read_inode.holds drv _).bind fun child => ?_
    refine Holds.ite (fun _ => Holds.pure _ rfl) fun _ => ?_
    refine (Holds.free child.priv_data [child.addr]).bind fun _ => ?_
    exact (Holds.free child.addr []).bind fun _ => ih _ _

theorem readdir_loop.holds (inode : Inode) (n : Nat) (blk bytes_left : BitVec 32) (block_buf : Buf)
    (p : σ) : Holds [] (readdir_loop inode cb n blk bytes_left block_buf p) kept := by
  induction n generalizing blk bytes_left block_buf p with
  | zero => exact Holds.pure _ rfl
  | succ n ih =>
    unfold readdir_loop
    refine (ext2_get_block_number.holds inode blk).bind fun phys_block => ?_
    refine Holds.ite (fun _ => ih _ _ _ _) fun _ => ?_
    refine (ext2_read_block.holds _ _ _).bind fun block_buf => ?_
    refine (dentry_loop.holds cb _ _ _ _ _ _).bind fun r => ?_
    rcases r with ⟨p, _ | child⟩
    · exact ih _ _ _ _
    · exact Holds.pure _ rfl

/-- A walk gives back all that it takes, except the child on which the callback stopped. -/
theorem ext2_readdir.holds (inode : Inode) (p : σ) :
    Holds [] (ext2_readdir inode cb p) fun r => kept r.2 := by
  unfold ext2_readdir
  refine Holds.ite (fun _ => Holds.pure _ rfl) fun _ => ?_
  refine (kmalloc_buf.holds []).bind fun a => Holds.ite (fun _ => Holds.fault _ _) fun _ => ?_
  refine ((readdir_loop.holds cb inode _ _ _ _ p).frame [a.1]).bind fun r => ?_
  have hfirst : (kept r ++ [a.1]).Perm (a.1 :: kept r) := List.perm_append_comm
  refine ((Holds.free a.1 (kept r)).conseq hfirst fun _ => List.Perm.refl _).bind fun _ => ?_
  exact Holds.pure _ rfl

end

theorem ext2_open.holds (inode : Inode) :
    Holds [] (ext2_open inode) fun f => (f.map OpenFile.addr).toList := by
  unfold ext2_open
  refine (Holds.try_alloc []).bind fun f => Holds.pure _ ?_
  cases f <;> rfl

theorem read_turn.holds (inode : Inode) (r : Reading) :
    Holds [] (read_turn inode r) fun _ => [] := by
  unfold read_turn
  refine Holds.ite (fun _ => Holds.fault _ _) fun _ => ?_
  refine (ext2_get_block_number.holds inode _).bind fun _ => ?_
  refine Holds.ite (fun _ => Holds.pure _ rfl) fun _ => ?_
  exact (ext2_read_block.holds _ _ _).bind fun _ => Holds.pure _ rfl

theorem read_loop.holds (inode : Inode) (fuel : Nat) (r : Reading) :
    Holds [] (read_loop inode fuel r) fun _ => [] := by
  induction fuel generalizing r with
  | zero => exact Holds.pure _ rfl
  | succ fuel ih =>
    unfold read_loop
    refine Holds.ite (fun _ => Holds.pure _ rfl) fun _ => ?_
    exact (read_turn.holds inode r).bind fun r => ih r

/-- The file stays at its place. -/
theorem ext2_file_read.holds (f : OpenFile) (buf : Buf) (len : BitVec 32) (own : List Nat) :
    Holds (f.addr :: own) (ext2_file_read f buf len) fun r => r.2.2.addr :: own := by
  unfold ext2_file_read
  refine Holds.ite (fun _ => Holds.pure _ rfl) fun _ => ?_
  refine (kmalloc_buf.holds (f.addr :: own)).bind fun a => ?_
  refine ((read_loop.holds _ _ _).beside (a.1 :: f.addr :: own)).bind fun r => ?_
  exact (Holds.free a.1 (f.addr :: own)).bind fun _ => Holds.pure _ rfl

end JamsOs.Ext2.Owned
