-- What `ext2_readdir` reads of the entries of a directory, for any bytes in its blocks. The walk
-- ends, but it trusts two things that it does not check: that an entry does not start in the last
-- four bytes of a block, and that a name ends before its entry does.
import JamsOs.DirEntries
import JamsOs.BlockMap

namespace JamsOs.Ext2

open Words

/-! ## The walk with a record of what it reads -/

/-- The `rec_len` of an entry, which the walk reads before it can know how long the entry is, or a
field of an entry of which it has accepted the `rec_len`. -/
inductive Look where
  | rec_len (entry : Nat)
  | field (entry record off len : Nat)
  deriving DecidableEq

/-- What is read lies inside the block, and inside the entry if there is one. -/
def Look.Safe (block_size : Nat) : Look → Prop
  | .rec_len entry => entry + 4 + 2 ≤ block_size
  | .field entry record off len => off + len ≤ record ∧ entry + off + len ≤ block_size

instance Look.decidable_safe (block_size : Nat) (l : Look) : Decidable (l.Safe block_size) :=
  match l with
  | .rec_len entry => inferInstanceAs (Decidable (entry + 4 + 2 ≤ block_size))
  | .field entry record off len =>
    inferInstanceAs (Decidable (off + len ≤ record ∧ entry + off + len ≤ block_size))

/-- `dentry_loop`. Without a result, the loop would go on when the fuel is used up. -/
def dentry_loop_looks (drv : Driver) (cb : List (BitVec 8) → Inode → Bool) (block_buf : Buf)
    (block_bytes : BitVec 32) : Nat → BitVec 32 → Io → List Look × Option Walk × Io
  | 0, offset, io => ([], if offset < block_bytes then none else some .finished, io)
  | fuel + 1, offset, io =>
    if ¬ offset < block_bytes then ([], some .finished, io)
    else
      let dentry : Buf := fun j => block_buf (offset.toNat + j)
      let rec_len := (u16 dentry 4).setWidth 32
      let first := Look.rec_len offset.toNat
      if rec_len < 8 ∨ rec_len % 4 ≠ 0 then ([first], some .finished, io)
      else if block_bytes < offset + rec_len then ([first], some .finished, io)
      else
        let field := Look.field offset.toNat rec_len.toNat
        if u32 dentry 0 = 0 then
          let rest := dentry_loop_looks drv cb block_buf block_bytes fuel (offset + rec_len) io
          ([first, field 0 4, field 4 2] ++ rest.1, rest.2)
        else
          let name_len := (dentry 6).toNat
          let name := (List.range name_len).map fun j => dentry (8 + j)
          let looks := [first, field 0 4, field 6 1, field 8 name_len]
          match ext2_read_inode drv (u32 dentry 0) io with
          | (none, io) => (looks, some .fault, io)
          | (some child, io) =>
            if cb name child then (looks, some .stopped, io)
            else
              let rest := dentry_loop_looks drv cb block_buf block_bytes fuel (offset + rec_len) io
              (looks ++ field 4 2 :: rest.1, rest.2)

def readdir_loop_looks (inode : Inode) (cb : List (BitVec 8) → Inode → Bool) :
    Nat → BitVec 32 → BitVec 32 → Buf → Io → List Look × Option Walk × Io
  | 0, _, _, _, io => ([], some .finished, io)
  | n + 1, blk, bytes_left, block_buf, io =>
    let drv := inode.drv
    match ext2_get_block_number inode blk io with
    | (none, io) => ([], some .fault, io)
    | (some phys_block, io) =>
      let block_bytes := if bytes_left < drv.block_size then bytes_left else drv.block_size
      if phys_block = 0 then
        readdir_loop_looks inode cb n (blk + 1) (bytes_left - block_bytes) block_buf io
      else
        let (block_buf, io) := ext2_read_block drv phys_block block_buf io
        match dentry_loop_looks drv cb block_buf block_bytes block_bytes.toNat 0 io with
        | (looks, some .finished, io) =>
          let rest := readdir_loop_looks inode cb n (blk + 1) (bytes_left - block_bytes) block_buf io
          (looks ++ rest.1, rest.2)
        | r => r

def ext2_readdir_looks (inode : Inode) (cb : List (BitVec 8) → Inode → Bool) (io : Io) :
    List Look × Option (Option Int) × Io :=
  if inode.mode &&& S_IFDIR = 0 then ([], some (some (-1)), io)
  else
    let drv := inode.drv
    let (block_buf, io) := io.buffer
    if drv.block_size = 0 then ([], some none, io)
    else
      let total_blocks := (inode.size + drv.block_size - 1) / drv.block_size
      match readdir_loop_looks inode cb total_blocks.toNat 0 inode.size block_buf io with
      | (looks, none, io) => (looks, none, io)
      | (looks, some .fault, io) => (looks, some none, io)
      | (looks, some _, io) => (looks, some (some 0), io)

/-! ## The entries of one block -/

/-- What the walk reads of the entry at `x`, if the callback does not stop there. -/
def looks_at (block : Buf) (bytes x : Nat) : List Look :=
  let field := Look.field x (rec_len_at block x)
  if Accepted block bytes x then
    if inode_at block x = 0 then [.rec_len x, field 0 4, field 4 2]
    else [.rec_len x, field 0 4, field 6 1, field 8 (name_len_at block x), field 4 2]
  else [.rec_len x]

/-- What a walk over some entries comes to: it ends, without a fault; what it read is a part of
`all`, and all of it unless it was stopped; and it is stopped only if the callback can stop. -/
structure Walked (cb : List (BitVec 8) → Inode → Bool) (all looks : List Look) (w : Walk) : Prop where
  no_fault : w ≠ .fault
  part : looks <+: all
  whole : w = .finished → looks = all
  goes_on : (∀ name child, cb name child = false) → w = .finished

section

variable {drv : Driver} {cb : List (BitVec 8) → Inode → Bool} {all looks more : List Look} {w : Walk}

theorem Walked.done : Walked cb all all .finished :=
  ⟨nofun, List.prefix_rfl, fun _ => rfl, fun _ => rfl⟩

theorem Walked.append (looks : List Look) (h : Walked cb all more w) :
    Walked cb (looks ++ all) (looks ++ more) w where
  no_fault := h.no_fault
  part := (List.prefix_append_right_inj looks).mpr h.part
  whole hw := by rw [h.whole hw]
  goes_on := h.goes_on

theorem Walked.stop {name : List (BitVec 8)} {child : Inode} (hcb : cb name child = true)
    (looks more : List Look) : Walked cb (looks ++ more) looks .stopped where
  no_fault := nofun
  part := List.prefix_append looks more
  whole := nofun
  goes_on h := absurd hcb (by rw [h]; decide)

/-- A walk that was stopped does not read what comes after. -/
theorem Walked.stopped (h : Walked cb all looks .stopped) (more : List Look) :
    Walked cb (all ++ more) looks .stopped where
  no_fault := h.no_fault
  part := h.part.trans (List.prefix_append all more)
  whole := nofun
  goes_on := h.goes_on

/-- A driver that can read every inode. -/
def Driver.ReadsInodes (drv : Driver) : Prop :=
  ∀ num io, ∃ child io', ext2_read_inode drv num io = (some child, io') ∧
    ∃ ss, io.Took io' ss

theorem Driver.Sized.reads_inodes {m : Nat} (hs : drv.Sized m) (hd : drv.Divides) :
    drv.ReadsInodes := by
  intro num io
  obtain ⟨hdesc, hsize, hper⟩ := hd.nonzero hs
  have hreturns := (ext2_read_inode.returns num io).mpr ⟨hd.groups, hdesc, hsize, hper⟩
  obtain ⟨ss, htook, -⟩ := ext2_read_inode.asks hs.toFits num io
  obtain ⟨child, hchild⟩ := Option.ne_none_iff_exists'.mp hreturns
  exact ⟨child, _, Prod.ext hchild rfl, ss, htook⟩

/-- The walk over one block does what `dentry_loop` does, and reads the entries in their order. -/
theorem dentry_loop_looks.walked (hd : drv.ReadsInodes) (cb : List (BitVec 8) → Inode → Bool)
    (block_buf : Buf) {block_bytes : BitVec 32}
    (hbytes : block_bytes.toNat ≤ 2 ^ 31) (fuel : Nat) (offset : BitVec 32) (io : Io)
    (hfuel : block_bytes.toNat ≤ offset.toNat + fuel) :
    ∃ looks w io', dentry_loop_looks drv cb block_buf block_bytes fuel offset io =
        (looks, some w, io') ∧
      dentry_loop drv cb block_buf block_bytes fuel offset io = (w, io') ∧ (∃ ss, io.Took io' ss) ∧
      Walked cb ((positions block_buf block_bytes.toNat fuel offset.toNat).flatMap
        (looks_at block_buf block_bytes.toNat)) looks w := by
  induction fuel generalizing offset io with
  | zero =>
    have hge : ¬ offset < block_bytes := fun hlt => by
      have : offset.toNat < block_bytes.toNat := hlt
      omega
    refine ⟨[], .finished, io, ?_, rfl, ⟨[], Io.Took.refl io⟩, Walked.done⟩
    rw [dentry_loop_looks, if_neg hge]
  | succ fuel ih =>
    by_cases hlt : offset < block_bytes
    swap
    · refine ⟨[], .finished, io, ?_, ?_, ⟨[], Io.Took.refl io⟩, ?_⟩
      · rw [dentry_loop_looks, if_pos hlt]
      · rw [dentry_loop, if_pos hlt]
      · have hge : block_bytes.toNat ≤ offset.toNat := Nat.le_of_not_lt hlt
        rw [positions.nil hge]
        exact Walked.done
    have hnext : (offset + (u16 (dentry_at block_buf offset.toNat) 4).setWidth 32).toNat = _ :=
      next_offset hbytes hlt
    have hrec := rec_len_toNat block_buf offset.toNat
    unfold dentry_at at hnext hrec
    rw [dentry_loop_looks, dentry_loop, if_neg (not_not.mpr hlt), if_neg (not_not.mpr hlt)]
    dsimp only
    rw [checks_eq hbytes hlt, checks_eq hbytes hlt]
    by_cases hacc : Accepted block_buf block_bytes.toNat offset.toNat
    swap
    · have hlooks : looks_at block_buf block_bytes.toNat offset.toNat = [.rec_len offset.toNat] :=
        if_neg hacc
      rw [positions.last hlt hacc, List.flatMap_singleton, hlooks, if_neg hacc, if_neg hacc]
      exact ⟨_, _, io, rfl, rfl, ⟨[], Io.Took.refl io⟩, Walked.done⟩
    rw [if_pos hacc, if_pos hacc, positions.cons hlt hacc, List.flatMap_cons]
    have hfuel' : block_bytes.toNat ≤
        (offset + (u16 (fun j => block_buf (offset.toNat + j)) 4).setWidth 32).toNat + fuel := by
      have := hacc.least
      omega
    by_cases hfree : inode_at block_buf offset.toNat = 0
    · obtain ⟨looks, w, io', hrun, hloop, htook, hwalked⟩ := ih _ io hfuel'
      rw [hnext] at hwalked
      refine ⟨_, w, io', ?_, ?_, htook, hwalked.append _⟩
      · rw [looks_at, if_pos hacc, if_pos hfree]
        unfold inode_at dentry_at at hfree
        rw [if_pos hfree, hrun, hrec]
      · unfold inode_at dentry_at at hfree
        rw [if_pos hfree, hloop]
    · obtain ⟨child, io₁, hchild, ss, htook⟩ := hd (inode_at block_buf offset.toNat) io
      have hfree' := hfree
      unfold inode_at dentry_at at hfree' hchild
      rw [if_neg hfree', if_neg hfree', hchild]
      dsimp only
      have hlooks : looks_at block_buf block_bytes.toNat offset.toNat =
          [.rec_len offset.toNat, .field offset.toNat (rec_len_at block_buf offset.toNat) 0 4,
            .field offset.toNat (rec_len_at block_buf offset.toNat) 6 1,
            .field offset.toNat (rec_len_at block_buf offset.toNat) 8
              (name_len_at block_buf offset.toNat)] ++
          [.field offset.toNat (rec_len_at block_buf offset.toNat) 4 2] := by
        rw [looks_at, if_pos hacc, if_neg hfree]
        rfl
      rw [hlooks, hrec]
      rcases hcb : cb ((List.range (block_buf (offset.toNat + 6)).toNat).map
        fun j => block_buf (offset.toNat + (8 + j))) child with _ | _
      · obtain ⟨looks, w, io', hrun, hloop, ⟨ss', htook'⟩, hwalked⟩ := ih _ io₁ hfuel'
        rw [hnext] at hwalked
        refine ⟨_, w, io', ?_, ?_, ⟨_, htook.trans htook'⟩, hwalked.append _⟩
        · rw [hrun]
          rfl
        · exact hloop
      · rw [List.append_assoc]
        exact ⟨_, _, io₁, rfl, rfl, ⟨ss, htook⟩, Walked.stop hcb _ _⟩

/-! ## The blocks of a directory -/

/-- The number of blocks that the walk looks for. The sum wraps for the largest sizes. -/
def Inode.total_blocks (inode : Inode) : Nat :=
  ((inode.size + inode.drv.block_size - 1) / inode.drv.block_size).toNat

/-- How much of block `n` belongs to the directory. -/
def Inode.part (inode : Inode) (n : Nat) : Nat :=
  min (inode.size.toNat - n * inode.drv.block_size.toNat) inode.drv.block_size.toNat

/-- What the walk reads in block `n`. -/
def looks_in (inode : Inode) (disk : Word → Buf) (n : Nat) : List Look :=
  if mapped inode disk n = 0 then []
  else
    let block := block_bytes inode.drv disk (mapped inode disk n)
    (positions block (inode.part n) (inode.part n) 0).flatMap (looks_at block (inode.part n))

theorem looks_at_congr {block block' : Buf} {size bytes : Nat} (h : ∀ j < size, block j = block' j)
    (hbytes : bytes ≤ size) (x : Nat) : looks_at block bytes x = looks_at block' bytes x := by
  by_cases hacc : Accepted block bytes x
  · have hacc' := (accepted_congr h hbytes).mp hacc
    simp only [looks_at, if_pos hacc, if_pos hacc', hacc.rec_len_eq h hbytes, hacc.inode_eq h hbytes,
      hacc.name_len_eq h hbytes]
  · have hacc' := fun h' => hacc ((accepted_congr h hbytes).mpr h')
    simp only [looks_at, if_neg hacc, if_neg hacc']

variable {inode : Inode} {m : Nat}

theorem Inode.total_blocks_mul_lt (inode : Inode) {n : Nat} (hn : n < inode.total_blocks) :
    n * inode.drv.block_size.toNat < 2 ^ 32 := by
  have hsum := (inode.size + inode.drv.block_size - 1).isLt
  have hle := Nat.div_mul_le_self (inode.size + inode.drv.block_size - 1).toNat
    inode.drv.block_size.toNat
  unfold Inode.total_blocks at hn
  rw [BitVec.toNat_udiv] at hn
  exact lt_of_le_of_lt (Nat.mul_le_mul_right _ hn.le) (by omega)

/-- The number of the next block does not wrap. -/
theorem Inode.next_block {blk : BitVec 32} {n : Nat} (hn : blk.toNat + (n + 1) ≤ inode.total_blocks) :
    (blk + 1).toNat = blk.toNat + 1 := by
  have htotal : inode.total_blocks < 2 ^ 32 := BitVec.isLt _
  rw [BitVec.toNat_add]
  exact Nat.mod_eq_of_lt (by show blk.toNat + 1 < 2 ^ 32; omega)

/-- The block map gives a number for every block of a directory, whether reads fail or not. -/
theorem Driver.Sized.maps_block (hs : inode.drv.Sized m) {blk : BitVec 32}
    (hn : blk.toNat * inode.drv.block_size.toNat < 2 ^ 32) (io : Io) :
    ∃ b io', ext2_get_block_number inode blk io = (some b, io') ∧ (∃ ss, io.Took io' ss) ∧
      ((∀ i, io.fails i = false) → b = mapped inode io.sectors blk.toNat) := by
  obtain ⟨ss, htook, hclean⟩ := ext2_get_block_number.follows hs blk io hn
  obtain ⟨b, hb⟩ : ∃ b, (ext2_get_block_number inode blk io).1 = some b :=
    Option.ne_none_iff_exists'.mp (ext2_get_block_number.returns hs hn)
  refine ⟨b, _, Prod.ext hb rfl, ⟨ss, htook⟩, fun hgood => ?_⟩
  exact Option.some.inj (hb.symm.trans (hclean (.inl fun _ _ => hgood _)).2)

/-- The part of the next block, as the loop counts it down. -/
theorem Inode.part_step {n : Nat} {bytes_left : BitVec 32}
    (hleft : bytes_left.toNat = inode.size.toNat - n * inode.drv.block_size.toNat) :
    (if bytes_left < inode.drv.block_size then bytes_left else inode.drv.block_size).toNat =
      inode.part n ∧
    (bytes_left - if bytes_left < inode.drv.block_size then bytes_left
      else inode.drv.block_size).toNat = inode.size.toNat - (n + 1) * inode.drv.block_size.toNat := by
  unfold Inode.part
  rw [Nat.succ_mul]
  split
  · next hlt =>
    have hlt' : bytes_left.toNat < inode.drv.block_size.toNat := hlt
    rw [BitVec.sub_self]
    exact ⟨by omega, by show 0 = _; omega⟩
  · next hge =>
    have hge' : inode.drv.block_size.toNat ≤ bytes_left.toNat := Nat.le_of_not_lt hge
    rw [BitVec.toNat_sub_of_le (BitVec.le_def.mpr hge')]
    omega

/-- The walk over the blocks from `blk` on. -/
theorem readdir_loop_looks.walked (hs : inode.drv.Sized m) (hd : inode.drv.ReadsInodes)
    (cb : List (BitVec 8) → Inode → Bool) (n : Nat)
    (blk bytes_left : BitVec 32) (block_buf : Buf) (io : Io) (hn : blk.toNat + n ≤ inode.total_blocks)
    (hleft : bytes_left.toNat = inode.size.toNat - blk.toNat * inode.drv.block_size.toNat) :
    ∃ looks w io', readdir_loop_looks inode cb n blk bytes_left block_buf io =
        (looks, some w, io') ∧
      readdir_loop inode cb n blk bytes_left block_buf io = (w, io') ∧ w ≠ .fault ∧
      ((∀ i, io.fails i = false) →
        Walked cb ((List.range' blk.toNat n).flatMap (looks_in inode io.sectors)) looks w) := by
  induction n generalizing blk bytes_left block_buf io with
  | zero => exact ⟨[], .finished, io, rfl, rfl, nofun, fun _ => Walked.done⟩
  | succ n ih =>
    have hblk := Inode.next_block hn
    obtain ⟨hpart, hrest⟩ := Inode.part_step hleft
    have hsize : inode.part blk.toNat ≤ inode.drv.block_size.toNat := Nat.min_le_right _ _
    obtain ⟨b, io₁, hmap, ⟨ss, htook⟩, hmapped⟩ :=
      hs.maps_block (inode.total_blocks_mul_lt (n := blk.toNat) (by omega)) io
    rw [readdir_loop_looks, readdir_loop, hmap]
    dsimp only
    rw [← hblk] at hrest
    by_cases hhole : b = 0
    · obtain ⟨looks, w, io', hrun, hloop, hfault, hwalked⟩ := ih (blk + 1) _ block_buf io₁
        (by omega) hrest
      rw [if_pos hhole, if_pos hhole]
      refine ⟨looks, w, io', hrun, hloop, hfault, fun hgood => ?_⟩
      have hnone : looks_in inode io.sectors blk.toNat = [] := if_pos (hmapped hgood ▸ hhole)
      rw [List.range'_succ, List.flatMap_cons, hnone, List.nil_append, ← hblk, ← htook.sectors]
      exact hwalked fun i => by rw [htook.fails, hgood]
    · rw [if_neg hhole, if_neg hhole]
      obtain ⟨ss₂, htook₂, hclean⟩ := ext2_read_block.follows hs.toFits b block_buf io₁
      rcases hblock : ext2_read_block inode.drv b block_buf io₁ with ⟨buf, io₂⟩
      rw [hblock] at htook₂ hclean
      obtain ⟨looks, w, io₃, hrun, hloop, ⟨ss₃, htook₃⟩, hwalked⟩ :=
        dentry_loop_looks.walked hd cb buf (hpart.trans_le (hsize.trans hs.half)) _ 0 io₂
          (Nat.le_add_left _ _)
      rw [hrun, hloop]
      have hall : (∀ i, io.fails i = false) →
          Walked cb (looks_in inode io.sectors blk.toNat) looks w := by
        intro hgood
        have hgood₁ : ∀ i, io₁.fails i = false := fun i => by rw [htook.fails, hgood]
        have hbuf : ∀ j < inode.drv.block_size.toNat, buf j =
            block_bytes inode.drv io.sectors (mapped inode io.sectors blk.toNat) j := by
          intro j hj
          have hread := (hclean (.inl fun _ _ => hgood₁ _)).2 j
          rw [if_pos hj] at hread
          rw [← hmapped hgood, ← htook.sectors]
          exact hread
        rw [hpart] at hwalked
        have hmap0 : mapped inode io.sectors blk.toNat ≠ 0 := hmapped hgood ▸ hhole
        have hlooks : looks_at buf (inode.part blk.toNat) = looks_at _ (inode.part blk.toNat) :=
          funext fun x => looks_at_congr hbuf hsize x
        rw [positions_congr hbuf hsize, hlooks] at hwalked
        rw [looks_in, if_neg hmap0]
        exact hwalked
      cases w with
      | fault => exact absurd rfl hwalked.no_fault
      | stopped =>
        refine ⟨looks, _, io₃, rfl, rfl, nofun, fun hgood => ?_⟩
        rw [List.range'_succ, List.flatMap_cons]
        exact (hall hgood).stopped _
      | finished =>
        obtain ⟨more, w, io', hrun', hloop', hfault, hwalked'⟩ := ih (blk + 1) _ buf io₃ (by omega) hrest
        refine ⟨looks ++ more, w, io', ?_, hloop', hfault, fun hgood => ?_⟩
        · dsimp only
          rw [hrun']
        · have hsectors : io₃.sectors = io.sectors :=
            htook₃.sectors.trans (htook₂.sectors.trans htook.sectors)
          have hfails : io₃.fails = io.fails := htook₃.fails.trans (htook₂.fails.trans htook.fails)
          rw [List.range'_succ, List.flatMap_cons, ← (hall hgood).whole rfl, ← hblk, ← hsectors]
          exact (hwalked' fun i => by rw [hfails, hgood]).append looks

end

/-! ## Safe walks -/

theorem looks_at_safe_iff {block : Buf} {size bytes x : Nat} (hbytes : bytes ≤ size) :
    (∀ l ∈ looks_at block bytes x, l.Safe size) ↔
      x + 6 ≤ size ∧ (Accepted block bytes x → inode_at block x ≠ 0 →
        8 + name_len_at block x ≤ rec_len_at block x) := by
  by_cases hacc : Accepted block bytes x
  swap
  · simp [looks_at, hacc, Look.Safe, Nat.add_assoc]
  have hleast := hacc.least
  have hfits := hacc.fits
  by_cases hfree : inode_at block x = 0
  · simp only [looks_at, if_pos hacc, if_pos hfree, List.mem_cons, List.not_mem_nil, or_false,
      forall_eq_or_imp, forall_eq, Look.Safe]
    constructor
    · rintro ⟨h, -⟩
      exact ⟨h, fun _ h' => absurd hfree h'⟩
    · rintro ⟨h, -⟩
      omega
  · simp only [looks_at, if_pos hacc, if_neg hfree, List.mem_cons, List.not_mem_nil, or_false,
      forall_eq_or_imp, forall_eq, Look.Safe]
    constructor
    · rintro ⟨h, -, -, hname, -⟩
      exact ⟨h, fun _ _ => hname.1⟩
    · rintro ⟨h, hname⟩
      have hname' := hname hacc hfree
      omega

/-- For every directory inode and every content of its blocks, whether reads of the device fail or
not, the walk ends and does what `ext2_readdir` does. When reads do not fail, it reads inside the block
and inside the entry for every callback if and only if in each of its blocks no entry starts in the
last four bytes, and the name of each live entry ends within its `rec_len`. -/
theorem directory_walk_is_safe_iff (inode : Inode) (m : Nat) (io : Io) (hs : inode.drv.Sized m)
    (hd : inode.drv.Divides) (hdir : inode.mode &&& S_IFDIR ≠ 0) :
    (∀ cb, ∃ looks io', ext2_readdir_looks inode cb io = (looks, some (some 0), io') ∧
      ext2_readdir inode cb io = (some 0, io')) ∧
    ((∀ i, io.fails i = false) →
      ((∀ cb, ∀ l ∈ (ext2_readdir_looks inode cb io).1, l.Safe inode.drv.block_size.toNat) ↔
        ∀ n < inode.total_blocks, mapped inode io.sectors n ≠ 0 →
          let block := block_bytes inode.drv io.sectors (mapped inode io.sectors n)
          ∀ x ∈ positions block (inode.part n) (inode.part n) 0,
            x + 6 ≤ inode.drv.block_size.toNat ∧
            (Accepted block (inode.part n) x → inode_at block x ≠ 0 →
              8 + name_len_at block x ≤ rec_len_at block x))) := by
  have hbs : inode.drv.block_size ≠ 0 := fun h0 => by
    have hpos := hs.pos_size
    rw [h0] at hpos
    exact absurd hpos (by decide)
  have hloop := fun cb => readdir_loop_looks.walked hs (hs.reads_inodes hd) cb
    inode.total_blocks 0 inode.size io.buffer.1 io.buffer.2 (by show 0 + _ ≤ _; omega)
    (by show _ = _ - 0 * _; omega)
  have hrun : ∀ cb, ∃ looks w io', ext2_readdir_looks inode cb io = (looks, some (some 0), io') ∧
      ext2_readdir inode cb io = (some 0, io') ∧ ((∀ i, io.fails i = false) →
        Walked cb ((List.range inode.total_blocks).flatMap (looks_in inode io.sectors)) looks w) := by
    intro cb
    obtain ⟨looks, w, io', hlooks, hplain, hfault, hwalked⟩ := hloop cb
    refine ⟨looks, w, io', ?_, ?_, fun hgood => ?_⟩
    · unfold ext2_readdir_looks
      dsimp only
      rw [if_neg hdir, if_neg hbs]
      unfold Inode.total_blocks at hlooks
      rw [hlooks]
      cases w with
      | fault => exact absurd rfl hfault
      | stopped => rfl
      | finished => rfl
    · unfold ext2_readdir
      dsimp only
      rw [if_neg hdir, if_neg hbs]
      unfold Inode.total_blocks at hplain
      rw [hplain]
      cases w with
      | fault => exact absurd rfl hfault
      | stopped => rfl
      | finished => rfl
    · rw [List.range_eq_range']
      exact hwalked hgood
  refine ⟨fun cb => ?_, fun hgood => ?_⟩
  · obtain ⟨looks, -, io', hlooks, hplain, -⟩ := hrun cb
    exact ⟨looks, io', hlooks, hplain⟩
  -- all that any callback can make the walk read
  have hall : (∀ cb, ∀ l ∈ (ext2_readdir_looks inode cb io).1, l.Safe inode.drv.block_size.toNat) ↔
      ∀ l ∈ (List.range inode.total_blocks).flatMap (looks_in inode io.sectors),
        l.Safe inode.drv.block_size.toNat := by
    constructor
    · intro h
      obtain ⟨looks, w, io', hlooks, -, hwalked⟩ := hrun fun _ _ => false
      rw [← (hwalked hgood).whole ((hwalked hgood).goes_on fun _ _ => rfl)]
      have := h fun _ _ => false
      rwa [hlooks] at this
    · intro h cb l hl
      obtain ⟨looks, w, io', hlooks, -, hwalked⟩ := hrun cb
      rw [hlooks] at hl
      exact h l ((hwalked hgood).part.subset hl)
  rw [hall]
  simp only [List.mem_flatMap, List.mem_range, forall_exists_index, and_imp]
  have hpart : ∀ n, inode.part n ≤ inode.drv.block_size.toNat := fun n => Nat.min_le_right _ _
  constructor
  · intro h n hn hmapped x hx
    refine (looks_at_safe_iff (hpart n)).mp fun l hl => h l n hn ?_
    rw [looks_in, if_neg hmapped]
    exact List.mem_flatMap.mpr ⟨x, hx, hl⟩
  · intro h l n hn hl
    by_cases hmapped : mapped inode io.sectors n = 0
    · rw [looks_in, if_pos hmapped] at hl
      cases hl
    · rw [looks_in, if_neg hmapped] at hl
      obtain ⟨x, hx, hl⟩ := List.mem_flatMap.mp hl
      exact (looks_at_safe_iff (hpart n)).mpr (h n hn hmapped x hx) l hl

/-- A directory of one block, which is block 1. -/
def one_block_dir : Inode where
  drv := small_drv
  ino_num := 2
  size := 1024
  mode := 0x4000
  raw := fun j => if j = 40 then 1 else 0

/-- A volume whose block 1 starts with one entry, for inode 12, and is empty after it. -/
def one_entry_disk (rec_len : BitVec 16) (name_len : BitVec 8) : Io where
  sectors := fun w j =>
    if w = 65 ∧ j = 0 then 12
    else if w = 65 ∧ j = 4 then rec_len.setWidth 8
    else if w = 65 ∧ j = 5 then (rec_len >>> 8).setWidth 8
    else if w = 65 ∧ j = 6 then name_len
    else 0
  fails := fun _ => false
  junk := fun _ _ => 0
  reads := 0
  allocs := 0
  log := []

theorem directory_walk_is_safe_one_entry :
    positions (block_bytes small_drv (one_entry_disk 1024 5).sectors 1) 1024 1024 0 = [0] ∧
    ∀ cb, ∀ l ∈ (ext2_readdir_looks one_block_dir cb (one_entry_disk 1024 5)).1, l.Safe 1024 := by
  have hs : small_drv.Sized 10 := ⟨⟨by decide, by decide⟩, by decide, by decide⟩
  have hd : small_drv.Divides := ⟨by decide, by decide, by decide⟩
  refine ⟨by decide +kernel, ((directory_walk_is_safe_iff one_block_dir 10 (one_entry_disk 1024 5) hs
    hd (by decide)).2 fun _ => rfl).mpr ?_⟩
  decide +kernel

/-- An entry of 1020 bytes is followed by four bytes, and the walk looks for a `rec_len` behind the
block. The name of an entry of 8 bytes is read from the entries after it. -/
theorem directory_walk_reads_outside :
    Look.rec_len 1020 ∈ (ext2_readdir_looks one_block_dir (fun _ _ => false)
      (one_entry_disk 1020 5)).1 ∧ ¬ (Look.rec_len 1020).Safe 1024 ∧
    Look.field 0 8 8 5 ∈ (ext2_readdir_looks one_block_dir (fun _ _ => false)
      (one_entry_disk 8 5)).1 ∧ ¬ (Look.field 0 8 8 5).Safe 1024 := by
  decide +kernel

end JamsOs.Ext2
