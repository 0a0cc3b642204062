-- Listing a directory and looking up a name in it. `ext2_readdir` shows the live entries of a
-- well-formed directory to its callback, in their order, and gives back all inodes except the one on
-- which the callback stops. Blocks that are triply indirect are looked up in the wrong place here too.
import JamsOs.Ext2Heap
import JamsOs.DirectoryReads

namespace JamsOs.Ext2

open Words Ownership

/-! ## Well-formed directories -/

/-- An entry as a callback sees it: its name, and the number of its inode. -/
structure Entry where
  name : List (BitVec 8)
  num : BitVec 32
  deriving DecidableEq

/-- From `x` to the end of a block of `size` bytes there are entries at the places `xs`, each as long
as its `rec_len`, with room for its name. -/
inductive EntryChain (block : Buf) (size : Nat) : Nat → List Nat → Prop
  | done : EntryChain block size size []
  | entry {x : Nat} {xs : List Nat} (aligned : 4 ∣ rec_len_at block x)
      (room : 8 + name_len_at block x ≤ rec_len_at block x)
      (rest : EntryChain block size (x + rec_len_at block x) xs) : EntryChain block size x (x :: xs)

/-- The entries at some places of a block that are not deleted. -/
def live_at (block : Buf) (xs : List Nat) : List Entry :=
  (xs.filter fun x => inode_at block x ≠ 0).map fun x => ⟨name_at block x, inode_at block x⟩

/-- A directory of whole blocks, of which those that are there are chains of entries at the places
`xs`. -/
structure DirOf (inode : Inode) (disk : Word → Buf) (xs : Nat → List Nat) : Prop where
  dir : inode.mode &&& S_IFDIR ≠ 0
  whole : inode.drv.block_size.toNat ∣ inode.size.toNat
  chain : ∀ n < inode.size.toNat / inode.drv.block_size.toNat, block_of inode disk n ≠ 0 →
    EntryChain (block_bytes inode.drv disk (block_of inode disk n)) inode.drv.block_size.toNat 0 (xs n)

/-- The live entries of a directory, in their order. The blocks are where `map` says. -/
def live_entries (inode : Inode) (disk : Word → Buf) (map : Nat → BitVec 32) (xs : Nat → List Nat) :
    List Entry :=
  (List.range (inode.size.toNat / inode.drv.block_size.toNat)).flatMap fun n =>
    if map n = 0 then [] else live_at (block_bytes inode.drv disk (map n)) (xs n)

section

variable {block block' : Buf} {size x : Nat} {xs : List Nat}

theorem EntryChain.le (h : EntryChain block size x xs) : x ≤ size := by
  induction h with
  | done => exact le_rfl
  | entry _ _ _ ih => exact (Nat.le_add_right _ _).trans ih

theorem EntryChain.first (h : EntryChain block size x xs) :
    (x = size ∧ xs = []) ∨ (x < size ∧ ∃ xs', xs = x :: xs' ∧ 4 ∣ rec_len_at block x ∧
      8 + name_len_at block x ≤ rec_len_at block x ∧
      EntryChain block size (x + rec_len_at block x) xs') := by
  cases h with
  | done => exact .inl ⟨rfl, rfl⟩
  | entry aligned room rest =>
    have hle := rest.le
    exact .inr ⟨by omega, _, rfl, aligned, room, rest⟩

theorem live_at_skip (h : inode_at block x = 0) (xs : List Nat) :
    live_at block (x :: xs) = live_at block xs := by
  unfold live_at
  rw [List.filter_cons_of_neg (by simpa using h)]

theorem live_at_show (h : inode_at block x ≠ 0) (xs : List Nat) :
    live_at block (x :: xs) = ⟨name_at block x, inode_at block x⟩ :: live_at block xs := by
  unfold live_at
  rw [List.filter_cons_of_pos (by simpa using h), List.map_cons]

theorem EntryChain.accepted (h : EntryChain block size x xs) {y : Nat} (hy : y ∈ xs) :
    Accepted block size y ∧ y + 8 + name_len_at block y ≤ size := by
  induction h with
  | done => cases hy
  | entry aligned room rest ih =>
    have hle := rest.le
    rcases List.mem_cons.mp hy with rfl | hy
    · exact ⟨⟨by omega, aligned, hle⟩, by omega⟩
    · exact ih hy

theorem EntryChain.congr (hchain : EntryChain block size x xs) (h : ∀ j < size, block j = block' j) :
    EntryChain block' size x xs := by
  induction hchain with
  | done => exact .done
  | @entry x xs aligned room rest ih =>
    have hacc : Accepted block size x := ⟨by omega, aligned, rest.le⟩
    have hrec := hacc.rec_len_eq h le_rfl
    rw [hrec] at aligned room ih
    rw [hacc.name_len_eq h le_rfl] at room
    exact .entry aligned room ih

theorem live_at_congr (h : ∀ j < size, block j = block' j)
    (hxs : ∀ y ∈ xs, Accepted block size y ∧ y + 8 + name_len_at block y ≤ size) :
    live_at block xs = live_at block' xs := by
  have hname : ∀ y ∈ xs, name_at block y = name_at block' y := by
    intro y hy
    obtain ⟨hacc, hend⟩ := hxs y hy
    unfold name_at
    rw [← hacc.name_len_eq h le_rfl]
    apply List.map_congr_left
    intro j hj
    have hj' := List.mem_range.mp hj
    exact h _ (by omega)
  have hnum : ∀ y ∈ xs, inode_at block y = inode_at block' y := fun y hy =>
    (hxs y hy).1.inode_eq h le_rfl
  unfold live_at
  rw [List.filter_congr fun y hy => by rw [hnum y hy]]
  apply List.map_congr_left
  intro y hy
  have hy' := List.mem_of_mem_filter hy
  rw [hname y hy', hnum y hy']

end

/-! ## What a walk shows -/

open Owned (Vnode Callback kept)

/-- The callback is called for the entries in their order, each with an inode that has the fields of
the inode of that number, until it stops or there are no more. `r` has its data at the end, and the
inode on which it stopped. -/
inductive Visits {σ : Type} (drv : Driver) (disk : Word → Buf) (cb : Callback σ) :
    List Entry → σ → σ × Option Vnode → Prop
  | done {p : σ} : Visits drv disk cb [] p (p, none)
  | stop {e : Entry} {es : List Entry} {p p' : σ} {child : Vnode}
      (hchild : child.inode.OnDisk drv disk e.num) (hcb : cb p e.name child = (true, p')) :
      Visits drv disk cb (e :: es) p (p', some child)
  | next {e : Entry} {es : List Entry} {p p' : σ} {child : Vnode} {r : σ × Option Vnode}
      (hchild : child.inode.OnDisk drv disk e.num) (hcb : cb p e.name child = (false, p'))
      (rest : Visits drv disk cb es p' r) : Visits drv disk cb (e :: es) p r

/-- A device with this disk, whose reads do not fail. -/
structure Io.Shows (io : Io) (disk : Word → Buf) : Prop where
  sectors : io.sectors = disk
  good : ∀ i, io.fails i = false

section

variable {σ : Type} {drv : Driver} {disk : Word → Buf} {cb : Callback σ} {es es' : List Entry}
  {p p' : σ} {r : σ × Option Vnode} {io io' : Io}

theorem Visits.append (h : Visits drv disk cb es p (p', none)) (h' : Visits drv disk cb es' p' r) :
    Visits drv disk cb (es ++ es') p r := by
  generalize hr : ((p', none) : σ × Option Vnode) = r' at h
  induction h with
  | done =>
    cases hr
    exact h'
  | stop => cases hr
  | next hchild hcb _ ih => exact .next hchild hcb (ih hr)

theorem Visits.stopped {child : Vnode} (h : Visits drv disk cb es p (p', some child))
    (es' : List Entry) : Visits drv disk cb (es ++ es') p (p', some child) := by
  generalize hr : ((p', some child) : σ × Option Vnode) = r' at h ⊢
  induction h with
  | done => cases hr
  | stop hchild hcb => exact .stop hchild hcb
  | next hchild hcb _ ih => exact .next hchild hcb (ih hr)

theorem Io.Shows.took {ss : List Word} (h : io.Shows disk) (htook : io.Took io' ss) : io'.Shows disk :=
  ⟨htook.sectors.trans h.sectors, fun i => by rw [htook.fails, h.good]⟩

variable {m : Nat}

/-- Reading an inode, on a device whose reads do not fail. -/
theorem read_inode_shows (hs : drv.Sized m) (hd : drv.Divides) (hio : io.Shows disk) (num : BitVec 32) :
    Returns (Owned.ext2_read_inode drv num) io fun child io' =>
      child.inode.OnDisk drv disk num ∧ io'.Shows disk := by
  obtain ⟨ss, htook, hclean⟩ := ext2_read_inode.follows hs hd num io
  obtain ⟨-, inode, hinode, hon⟩ := hclean (.inl fun _ _ => hio.good _)
  rw [hio.sectors] at hon
  refine ((Owned.ext2_read_inode.does _ _ _).returns (Prod.ext hinode rfl)).mono ?_
  rintro child _ ⟨rfl, rfl⟩
  exact ⟨hon, hio.took htook⟩

/-- The entries of one block. -/
theorem dentry_loop_visits (hs : drv.Sized m) (hd : drv.Divides) (block_buf : Buf)
    {block_bytes : BitVec 32} (hbytes : block_bytes.toNat ≤ 2 ^ 31) {xs : List Nat} (fuel : Nat)
    (offset : BitVec 32) (p : σ) (hio : io.Shows disk)
    (hchain : EntryChain block_buf block_bytes.toNat offset.toNat xs)
    (hfuel : block_bytes.toNat ≤ offset.toNat + fuel) :
    Returns (Owned.dentry_loop drv cb block_buf block_bytes fuel offset p) io fun r io' =>
      Visits drv disk cb (live_at block_buf xs) p r ∧ io'.Shows disk := by
  induction fuel generalizing offset p io xs with
  | zero =>
    rcases hchain.first with ⟨-, rfl⟩ | ⟨hlt, -⟩
    · exact Returns.pure ⟨.done, hio⟩
    · omega
  | succ fuel ih =>
    unfold Owned.dentry_loop
    rcases hchain.first with ⟨hend, rfl⟩ | ⟨hlt, xs, rfl, aligned, room, rest⟩
    · have hout : ¬ offset < block_bytes := by
        rw [BitVec.lt_def]
        omega
      rw [if_pos hout]
      exact Returns.pure ⟨.done, hio⟩
    have hin : offset < block_bytes := hlt
    rw [if_neg (not_not.mpr hin)]
    have hnext : (offset + (u16 (dentry_at block_buf offset.toNat) 4).setWidth 32).toNat = _ :=
      next_offset hbytes hin
    unfold dentry_at at hnext
    dsimp only
    rw [checks_eq hbytes hin, if_pos ⟨by omega, aligned, rest.le⟩]
    rw [← hnext] at rest
    have hfuel' : block_bytes.toNat ≤ (offset +
        (u16 (fun j => block_buf (offset.toNat + j)) 4).setWidth 32).toNat + fuel := by omega
    by_cases hfree : inode_at block_buf offset.toNat = 0
    · rw [live_at_skip hfree]
      unfold inode_at dentry_at at hfree
      rw [if_pos hfree]
      exact ih _ p hio rest hfuel'
    · rw [live_at_show hfree]
      unfold inode_at dentry_at at hfree
      rw [if_neg hfree]
      refine (read_inode_shows hs hd hio _).bind ?_
      rintro child io₁ ⟨hon, hio₁⟩
      rcases hcb : cb p (name_at block_buf offset.toNat) child with ⟨_ | _, p'⟩
      · have hcb' := hcb
        unfold name_at name_len_at dentry_at at hcb'
        rw [hcb', if_neg Bool.false_ne_true]
        refine Returns.after_free _ (Returns.after_free _ ((ih _ p' hio₁ rest hfuel').mono ?_))
        rintro r io' ⟨hvisits, hio'⟩
        exact ⟨.next hon hcb hvisits, hio'⟩
      · have hcb' := hcb
        unfold name_at name_len_at dentry_at at hcb'
        rw [hcb', if_pos rfl]
        exact Returns.pure ⟨.stop hon hcb, hio₁⟩

/-! ## The blocks of a directory -/

variable {inode : Inode} {xs : Nat → List Nat}

/-- A directory of whole blocks has as many as its size says, and they are full. -/
theorem DirOf.blocks (h : DirOf inode disk xs) (hs : inode.drv.Sized m) :
    inode.total_blocks = inode.size.toNat / inode.drv.block_size.toNat ∧
    ∀ n < inode.total_blocks, inode.part n = inode.drv.block_size.toNat := by
  have hpos := hs.pos_size
  obtain ⟨c, hc⟩ := h.whole
  have hsize := inode.size.isLt
  have hlarge : 1024 ≤ inode.drv.block_size.toNat := by
    rw [hs.size]
    exact Nat.pow_le_pow_right (n := 2) (by decide) hs.least
  have hdvd : inode.drv.block_size.toNat ∣ 2 ^ 32 := by
    rw [hs.size]
    exact Nat.pow_dvd_pow 2 hs.lt.le
  have hroom : inode.size.toNat + inode.drv.block_size.toNat ≤ 2 ^ 32 := by
    obtain ⟨d, hd⟩ := hdvd
    rw [hc] at hsize ⊢
    rw [hd] at hsize ⊢
    have hlt : c < d := Nat.lt_of_mul_lt_mul_left hsize
    rw [← Nat.mul_succ]
    exact Nat.mul_le_mul_left _ hlt
  have htotal : inode.total_blocks = c := by
    unfold Inode.total_blocks
    have hsum : (inode.size + inode.drv.block_size - 1).toNat =
        inode.drv.block_size.toNat - 1 + inode.drv.block_size.toNat * c := by
      rw [BitVec.toNat_sub, BitVec.toNat_add]
      have h1 : (1 : BitVec 32).toNat = 1 := rfl
      rw [h1]
      omega
    rw [BitVec.toNat_udiv, hsum, Nat.add_mul_div_left _ _ hpos, Nat.div_eq_of_lt (by omega),
      Nat.zero_add]
  have hdiv : inode.size.toNat / inode.drv.block_size.toNat = c := by
    rw [hc, Nat.mul_div_cancel_left _ hpos]
  refine ⟨htotal.trans hdiv.symm, fun n hn => ?_⟩
  rw [htotal] at hn
  unfold Inode.part
  rw [hc, Nat.mul_comm n, ← Nat.mul_sub]
  apply Nat.min_eq_right
  exact Nat.le_mul_of_pos_right _ (by omega)

/-- The blocks from `blk` on. What the walk shows is in the blocks that the driver's map gives. -/
theorem readdir_loop_visits (hs : inode.drv.Sized m) (hd : inode.drv.Divides) (n : Nat)
    (blk bytes_left : BitVec 32) (block_buf : Buf) (p : σ) (hio : io.Shows disk)
    (hn : blk.toNat + n ≤ inode.total_blocks)
    (hpart : ∀ n < inode.total_blocks, inode.part n = inode.drv.block_size.toNat)
    (hchain : ∀ n < inode.total_blocks, mapped inode disk n ≠ 0 →
      EntryChain (block_bytes inode.drv disk (mapped inode disk n)) inode.drv.block_size.toNat 0 (xs n))
    (hleft : bytes_left.toNat = inode.size.toNat - blk.toNat * inode.drv.block_size.toNat) :
    Returns (Owned.readdir_loop inode cb n blk bytes_left block_buf p) io fun r io' =>
      Visits inode.drv disk cb ((List.range' blk.toNat n).flatMap fun n =>
        if mapped inode disk n = 0 then []
        else live_at (block_bytes inode.drv disk (mapped inode disk n)) (xs n)) p r ∧
      io'.Shows disk := by
  induction n generalizing blk bytes_left block_buf p io with
  | zero => exact Returns.pure ⟨.done, hio⟩
  | succ n ih =>
    have hblk := Inode.next_block hn
    obtain ⟨hbytes, hrest⟩ := Inode.part_step hleft
    rw [hpart _ (by omega)] at hbytes
    rw [← hblk] at hrest
    obtain ⟨b, io₁, hmap, ⟨ss, htook⟩, hmapped⟩ :=
      hs.maps_block (inode.total_blocks_mul_lt (n := blk.toNat) (by omega)) io
    have hb := hmapped hio.good
    rw [hio.sectors] at hb
    have hio₁ := hio.took htook
    unfold Owned.readdir_loop
    refine ((Owned.ext2_get_block_number.does _ _ _).returns hmap).bind ?_
    rintro phys_block io' ⟨hphys, hnow⟩
    rw [show phys_block = b from hphys, hnow]
    rw [List.range'_succ, List.flatMap_cons, ← hblk]
    by_cases hhole : b = 0
    · have hnone : mapped inode disk blk.toNat = 0 := hb ▸ hhole
      rw [if_pos hhole, if_pos hnone, List.nil_append]
      exact ih (blk + 1) _ block_buf p hio₁ (by omega) hrest
    · have hsome : mapped inode disk blk.toNat ≠ 0 := hb ▸ hhole
      rw [if_neg hhole, if_neg hsome]
      refine (Owned.ext2_read_block.returns inode.drv b block_buf io₁).bind ?_
      rintro _ _ ⟨rfl, rfl⟩
      obtain ⟨ss₂, htook₂, hclean⟩ := ext2_read_block.follows hs.toFits b block_buf io₁
      rcases hblock : ext2_read_block inode.drv b block_buf io₁ with ⟨buf, io₂⟩
      rw [hblock] at htook₂ hclean
      have hbuf : ∀ j < inode.drv.block_size.toNat,
          block_bytes inode.drv disk (mapped inode disk blk.toNat) j = buf j := by
        intro j hj
        have hread := (hclean (.inl fun _ _ => hio₁.good _)).2 j
        rw [if_pos hj, hio₁.sectors, hb] at hread
        exact hread.symm
      have hwf := hchain blk.toNat (by omega) hsome
      have hsame := live_at_congr hbuf fun y hy => hwf.accepted hy
      have hwf' := hwf.congr hbuf
      rw [hsame]
      refine (dentry_loop_visits hs hd buf (hbytes.trans_le hs.half) _ 0 p (hio₁.took htook₂)
        (hbytes ▸ hwf') (Nat.le_add_left _ _)).bind ?_
      rintro ⟨p', _ | child⟩ io₃ ⟨hvisits, hio₃⟩
      · refine (ih (blk + 1) _ buf p' hio₃ (by omega) hrest).mono ?_
        rintro r io' ⟨hmore, hio'⟩
        exact ⟨hvisits.append hmore, hio'⟩
      · exact Returns.pure ⟨hvisits.stopped _, hio₃⟩

/-- What a walk of a directory of whole blocks comes to. -/
theorem ext2_readdir_visits (hs : inode.drv.Sized m) (hd : inode.drv.Divides) (p : σ)
    (hio : io.Shows disk) (hdir : DirOf inode disk xs)
    (hchain : ∀ n < inode.total_blocks, mapped inode disk n ≠ 0 →
      EntryChain (block_bytes inode.drv disk (mapped inode disk n)) inode.drv.block_size.toNat 0
        (xs n)) :
    Returns (Owned.ext2_readdir inode cb p) io fun r io' => io'.Shows disk ∧ r.1 = 0 ∧
      Visits inode.drv disk cb (live_entries inode disk (mapped inode disk) xs) p r.2 := by
  obtain ⟨htotal, hpart⟩ := hdir.blocks hs
  unfold Owned.ext2_readdir
  rw [if_neg hdir.dir]
  refine (Owned.kmalloc_buf.returns io).bind ?_
  rintro ⟨a, _⟩ _ ⟨rfl, rfl⟩
  dsimp only
  rw [if_neg hs.size_ne_zero]
  refine (readdir_loop_visits hs hd inode.total_blocks 0 inode.size _ p (hio.took (Io.buffer.took io))
    (by show 0 + _ ≤ _; omega) hpart hchain (by show _ = _ - 0 * _; omega)).bind ?_
  rintro r io' ⟨hvisits, hio'⟩
  refine (Returns.pure ⟨hio', rfl, ?_⟩).after_free a
  unfold live_entries
  rw [← htotal, List.range_eq_range']
  exact hvisits

end

/-! ## Looking up a name -/

/-- `strcmp` of two strings. The byte after a list is the terminating 0. -/
def strcmp : List (BitVec 8) → List (BitVec 8) → Int
  | [], s2 => 0 - ((s2.headD 0).toNat : Int)
  | c :: s1, s2 =>
    if c ≠ 0 ∧ c = s2.headD 0 then strcmp s1 s2.tail else (c.toNat : Int) - ((s2.headD 0).toNat : Int)

/-- The string in a buffer, up to the first 0. -/
def c_str (s : List (BitVec 8)) : List (BitVec 8) := s.takeWhile (· ≠ 0)

theorem c_str_cons {c : BitVec 8} (h : c ≠ 0) (s : List (BitVec 8)) : c_str (c :: s) = c :: c_str s :=
  List.takeWhile_cons_of_pos (by simpa using h)

theorem c_str_eq_nil_iff (s : List (BitVec 8)) : c_str s = [] ↔ s.headD 0 = 0 := by
  cases s with
  | nil => exact ⟨fun _ => rfl, fun _ => rfl⟩
  | cons c s =>
    by_cases h : c = 0
    · exact ⟨fun _ => h, fun _ => List.takeWhile_cons_of_neg (by simpa using h)⟩
    · rw [c_str_cons h]
      exact ⟨nofun, fun h' => absurd h' h⟩

theorem strcmp_eq_zero_iff (s1 s2 : List (BitVec 8)) : strcmp s1 s2 = 0 ↔ c_str s1 = c_str s2 := by
  have hsub : ∀ a b : BitVec 8, (a.toNat : Int) - (b.toNat : Int) = 0 ↔ a = b := by
    intro a b
    rw [← BitVec.toNat_inj]
    omega
  induction s1 generalizing s2 with
  | nil =>
    have hnil : strcmp [] s2 = 0 ↔ (0 : BitVec 8) = s2.headD 0 := hsub 0 (s2.headD 0)
    rw [hnil, eq_comm, ← c_str_eq_nil_iff, eq_comm]
    rfl
  | cons c s1 ih =>
    rw [strcmp]
    by_cases h0 : c = 0
    · have hempty : c_str (c :: s1) = [] := (c_str_eq_nil_iff (c :: s1)).mpr h0
      rw [if_neg (fun h => h.1 h0), hsub, hempty, eq_comm, h0, ← c_str_eq_nil_iff, eq_comm]
    · rw [c_str_cons h0]
      cases s2 with
      | nil =>
        rw [if_neg (fun h => h0 h.2), hsub]
        exact ⟨fun h => absurd h h0, nofun⟩
      | cons d s2 =>
        by_cases hd : c = d
        · subst hd
          rw [if_pos ⟨h0, rfl⟩, c_str_cons h0, List.cons_inj_right]
          exact ih s2
        · rw [if_neg (fun h => hd h.2), hsub]
          refine ⟨fun h => absurd h hd, fun h => ?_⟩
          by_cases hd0 : d = 0
          · rw [(c_str_eq_nil_iff (d :: s2)).mpr hd0] at h
            cases h
          · rw [c_str_cons hd0] at h
            exact absurd (List.cons.inj h).1 hd

/-- The callback of the program loader. Its data is `result` of `struct find_ctx`. -/
def find_file_cb (target : List (BitVec 8)) : Callback (Option Vnode) := fun result name inode =>
  if strcmp name target = 0 then (true, some inode) else (false, result)

def Entry.named (target : List (BitVec 8)) (e : Entry) : Bool := c_str e.name = c_str target

/-- The search stops at the first entry with the name. -/
theorem Visits.find {drv : Driver} {disk : Word → Buf} {target : List (BitVec 8)} {es : List Entry}
    {p : Option Vnode} {r : Option Vnode × Option Vnode}
    (h : Visits drv disk (find_file_cb target) es p r) :
    match es.find? (Entry.named target) with
    | none => r = (p, none)
    | some e => ∃ child, r = (some child, some child) ∧ child.inode.OnDisk drv disk e.num := by
  induction h with
  | done => rfl
  | @stop e es p p' child hchild hcb =>
    unfold find_file_cb at hcb
    split at hcb
    · next hname =>
      have hnamed : Entry.named target e = true := decide_eq_true ((strcmp_eq_zero_iff _ _).mp hname)
      rw [List.find?_cons_of_pos hnamed]
      cases hcb
      exact ⟨child, rfl, hchild⟩
    · cases hcb
  | @next e es p p' child r hchild hcb _ ih =>
    unfold find_file_cb at hcb
    split at hcb
    · cases hcb
    · next hname =>
      have hnamed : ¬ Entry.named target e = true := fun hn =>
        hname ((strcmp_eq_zero_iff _ _).mpr (of_decide_eq_true hn))
      rw [List.find?_cons_of_neg hnamed]
      cases hcb
      exact ih

/-! ## Listing is exact -/

/-- A walk of the directory, with any callback and on any heap: it returns 0, shows the live entries
to the callback, and gives back once each block of the heap that it took, except those of the inode on
which the callback stopped. -/
def ListsRight (inode : Inode) (xs : Nat → List Nat) (io : Io) : Prop :=
  ∀ (σ : Type) (cb : Callback σ) (p : σ) (h : Heap), h.Ok →
    ∃ r io' h', Owned.ext2_readdir inode cb p io h = some ((0, r), io', h') ∧
      Visits inode.drv io.sectors cb
        (live_entries inode io.sectors (block_of inode io.sectors) xs) p r ∧
      h'.Ok ∧ h'.held.Perm (kept r ++ h.held)

/-- A search for a name finds the first live entry that has it, if there is one. -/
def FindsRight (inode : Inode) (xs : Nat → List Nat) (io : Io) : Prop :=
  ∀ (target : List (BitVec 8)) (h : Heap), h.Ok →
    ∃ found io' h', Owned.ext2_readdir inode (find_file_cb target) none io h =
        some ((0, found, found), io', h') ∧
      match (live_entries inode io.sectors (block_of inode io.sectors) xs).find?
        (Entry.named target) with
      | none => found = none
      | some e => ∃ child, found = some child ∧ child.inode.OnDisk inode.drv io.sectors e.num

theorem ListsRight.finds {inode : Inode} {xs : Nat → List Nat} {io : Io} (h : ListsRight inode xs io) :
    FindsRight inode xs io := by
  intro target heap hok
  obtain ⟨r, io', h', hrun, hvisits, -⟩ := h _ (find_file_cb target) none heap hok
  have hfind := hvisits.find
  split at hfind
  · subst hfind
    exact ⟨none, io', h', hrun, rfl⟩
  · obtain ⟨child, rfl, hon⟩ := hfind
    exact ⟨some child, io', h', hrun, child, rfl, hon⟩

theorem live_entries_congr {inode : Inode} {disk : Word → Buf} {map map' : Nat → BitVec 32}
    (h : ∀ n < inode.size.toNat / inode.drv.block_size.toNat, map n = map' n)
    (xs : Nat → List Nat) : live_entries inode disk map xs = live_entries inode disk map' xs := by
  unfold live_entries
  simp only [List.flatMap_def]
  congr 1
  apply List.map_congr_left
  intro n hn
  rw [h n (List.mem_range.mp hn)]

/-- What a walk comes to, where the driver's map of the directory is right. -/
theorem readdir_visits_right {σ : Type} (cb : Callback σ) (p : σ) {inode : Inode} {m : Nat}
    (hs : inode.drv.Sized m) (hd : inode.drv.Divides) {xs : Nat → List Nat} {disk : Word → Buf}
    {io : Io} (hio : io.Shows disk) (hdir : DirOf inode disk xs)
    (hmap : ∀ n < inode.total_blocks, mapped inode disk n = block_of inode disk n) :
    Returns (Owned.ext2_readdir inode cb p) io fun r io' => io'.Shows disk ∧ r.1 = 0 ∧
      Visits inode.drv disk cb (live_entries inode disk (block_of inode disk) xs) p r.2 := by
  have htotal := (hdir.blocks hs).1
  rw [← live_entries_congr (fun n hn => hmap n (htotal ▸ hn))]
  refine ext2_readdir_visits hs hd p hio hdir fun n hn hsome => ?_
  rw [hmap n hn] at hsome ⊢
  exact hdir.chain n (htotal ▸ hn) hsome

theorem lists_right {inode : Inode} {m : Nat} (hs : inode.drv.Sized m) (hd : inode.drv.Divides)
    {xs : Nat → List Nat} {io : Io} (hgood : ∀ i, io.fails i = false)
    (hdir : DirOf inode io.sectors xs)
    (hmap : ∀ n < inode.total_blocks, mapped inode io.sectors n = block_of inode io.sectors n) :
    ListsRight inode xs io := by
  intro σ cb p h hok
  obtain ⟨⟨ret, r⟩, io', h', hrun, ⟨-, hret, hvisits⟩, hok', hperm⟩ :=
    (readdir_visits_right cb p hs hd ⟨rfl, hgood⟩ hdir hmap).owned
      (Owned.ext2_readdir.holds cb inode p) hok
  dsimp only at hret
  subst hret
  exact ⟨r, io', h', hrun, hvisits, hok', hperm⟩

/-! ## A directory that is listed wrong -/

/-- The number of a block that is a chain of entries of 16 bytes, when all its words are this number.
Each entry has a name of one byte. -/
def chain_word : BitVec 32 := 0x00010010

/-- A directory that has only the triply indirect block 1. -/
def chain_dir (drv : Driver) (size : BitVec 32) : Inode where
  drv := drv
  ino_num := 2
  size := size
  mode := 0x4000
  raw := fun j => if j = 96 then 1 else 0

theorem chain_word_entry {block : Buf} {i : Nat}
    (h : ∀ j < 16, block (16 * i + j) = byte_of chain_word (16 * i + j)) :
    rec_len_at block (16 * i) = 16 ∧ name_len_at block (16 * i) = 1 ∧
      inode_at block (16 * i) = chain_word := by
  have hbyte : ∀ j < 16, block (16 * i + j) = byte_of chain_word j := by
    intro j hj
    rw [h j hj, byte_of, byte_of, show (16 * i + j) % 4 = j % 4 by omega]
  refine ⟨?_, ?_, ?_⟩
  · have h4 : dentry_at block (16 * i) 4 = 0x10 := hbyte 4 (by decide)
    have h5 : dentry_at block (16 * i) 5 = 0 := hbyte 5 (by decide)
    simp [rec_len_at, u16, little_endian, h4, h5]
  · have h6 : dentry_at block (16 * i) 6 = 1 := hbyte 6 (by decide)
    rw [name_len_at, h6]
    rfl
  · have h0 : dentry_at block (16 * i) 0 = 0x10 := hbyte 0 (by decide)
    have h1 : dentry_at block (16 * i) 1 = 0 := hbyte 1 (by decide)
    have h2 : dentry_at block (16 * i) 2 = 1 := hbyte 2 (by decide)
    have h3 : dentry_at block (16 * i) 3 = 0 := hbyte 3 (by decide)
    simp [inode_at, u32, little_endian, h0, h1, h2, h3, chain_word]

theorem chain_word_chain {block : Buf} {k : Nat}
    (h : ∀ j < 16 * k, block j = byte_of chain_word j) (i n : Nat) (hk : i + n = k) :
    EntryChain block (16 * k) (16 * i) ((List.range' i n).map (16 * ·)) := by
  induction n generalizing i with
  | zero =>
    have hik : i = k := hk
    subst hik
    exact .done
  | succ n ih =>
    obtain ⟨hrec, hname, -⟩ : rec_len_at block (16 * i) = 16 ∧ _ :=
      chain_word_entry fun j hj => h _ (by omega)
    rw [List.range'_succ, List.map_cons]
    refine .entry (by rw [hrec]; decide) (by rw [hrec, hname]; decide) ?_
    rw [hrec]
    exact ih (i + 1) (by omega)

section

variable {drv : Driver} {m : Nat} {size : BitVec 32}

theorem blocks_mul_lt {n : Nat} (hn : n < size.toNat / drv.block_size.toNat) :
    n * drv.block_size.toNat < 2 ^ 32 := by
  have hsize := size.isLt
  have hle := Nat.div_mul_le_self size.toNat drv.block_size.toNat
  exact lt_of_le_of_lt (Nat.mul_le_mul_right _ hn.le) (by omega)

/-- The places of the entries of the directory. -/
def chain_places (drv : Driver) (_ : Nat) : List Nat :=
  (List.range' 0 (drv.block_size.toNat / 16)).map (16 * ·)

theorem Driver.Sized.sixteen (hs : drv.Sized m) :
    16 * (drv.block_size.toNat / 16) = drv.block_size.toNat := by
  have h16 : 16 ∣ drv.block_size.toNat := by
    rw [hs.size]
    exact (Nat.pow_dvd_pow 2 (by have := hs.least; omega : 4 ≤ m))
  exact Nat.mul_div_cancel' h16

/-- The driver sees no block of the directory. Block 0 of the third tree is a chain of entries, and
every block that is there is the same one. -/
theorem chain_dir_blocks (hs : drv.Sized m) (size : BitVec 32) {n : Nat}
    (hn : n * drv.block_size.toNat < 2 ^ 32) :
    mapped (chain_dir drv size) (self_disk drv chain_word 0) n = 0 ∧
    (block_of (chain_dir drv size) (self_disk drv chain_word 0) n = 0 ∨
      block_of (chain_dir drv size) (self_disk drv chain_word 0) n = chain_word) ∧
    (n = 12 + drv.fanout + drv.fanout ^ 2 →
      block_of (chain_dir drv size) (self_disk drv chain_word 0) n = chain_word) := by
  have h14 : (chain_dir drv size).block 14 = 1 := by
    simp [Inode.block, chain_dir, u32, little_endian]
  have hother : ∀ i < 14, (chain_dir drv size).block i = 0 := by
    intro i hi
    refine (u32_congr fun j hj => ?_).trans (u32_zeros (40 + 4 * i))
    exact if_neg (by omega)
  have hdir : (chain_dir drv size).drv.Sized m := hs
  have hne : (1 : BitVec 32) ≠ chain_word := by decide
  by_cases hlow : n < 12 + drv.fanout + drv.fanout ^ 2
  · have hhole : block_of (chain_dir drv size) (self_disk drv chain_word 0) n = 0 := by
      unfold block_of
      dsimp only
      split
      · exact hother n (by omega)
      split
      · rw [hother 12 (by decide), tree, if_pos rfl]
      split
      · rw [hother 13 (by decide), tree, if_pos rfl]
      · exact absurd hlow ‹_›
    refine ⟨?_, .inl hhole, fun h => absurd h hlow.ne⟩
    rw [mapped_eq_block_of (.inr hlow), hhole]
  · obtain ⟨i, rfl⟩ := Nat.exists_eq_add_of_le (Nat.le_of_not_lt hlow)
    obtain ⟨hmapped, hblock⟩ := self_third_tree hdir hne h14 0 i hn
    refine ⟨hmapped.trans (if_neg (Nat.succ_ne_zero _)), ?_, fun h => ?_⟩
    · by_cases hi : i / drv.fanout ^ 2 = 0
      · exact .inr (hblock.trans (if_pos hi))
      · exact .inl (hblock.trans (if_neg hi))
    · have hi : i = 0 := by omega
      subst hi
      exact hblock.trans (if_pos (Nat.zero_div _))

theorem chain_dir_is_dir (hs : drv.Sized m) (hdvd : drv.block_size.toNat ∣ size.toNat) :
    DirOf (chain_dir drv size) (self_disk drv chain_word 0) (chain_places drv) where
  dir := by
    show (0x4000 : BitVec 32) &&& S_IFDIR ≠ 0
    decide
  whole := hdvd
  chain n hn hsome := by
    have hn' : n * drv.block_size.toNat < 2 ^ 32 := blocks_mul_lt hn
    obtain ⟨-, hblock | hblock, -⟩ := chain_dir_blocks hs size hn'
    · exact absurd hblock hsome
    · rw [hblock]
      have hbytes : ∀ j < 16 * (drv.block_size.toNat / 16),
          block_bytes drv (self_disk drv chain_word 0) chain_word j = byte_of chain_word j := by
        intro j hj
        rw [hs.sixteen] at hj
        rw [self_disk_bytes hs 0 chain_word hj, if_pos rfl]
      have hchain := chain_word_chain hbytes 0 _ (Nat.zero_add _)
      rw [hs.sixteen] at hchain
      exact hchain

/-- The directory has an entry as soon as it has a triply indirect block. -/
theorem chain_dir_live (hs : drv.Sized m)
    (hlarge : 12 + drv.fanout + drv.fanout ^ 2 < size.toNat / drv.block_size.toNat) :
    live_entries (chain_dir drv size) (self_disk drv chain_word 0)
      (block_of (chain_dir drv size) (self_disk drv chain_word 0)) (chain_places drv) ≠ [] := by
  have hblock := (chain_dir_blocks hs size (blocks_mul_lt hlarge)).2.2 rfl
  have hpos : 0 < drv.block_size.toNat / 16 := by
    have := hs.sixteen
    have := hs.pos_size
    omega
  have hbyte : ∀ j < 16, block_bytes drv (self_disk drv chain_word 0) chain_word (16 * 0 + j) =
      byte_of chain_word (16 * 0 + j) := by
    intro j hj
    rw [self_disk_bytes hs 0 chain_word (by omega), if_pos rfl]
  have hnum := (chain_word_entry hbyte).2.2
  intro hnone
  have hall := List.flatMap_eq_nil_iff.mp hnone _ (List.mem_range.mpr hlarge)
  rw [hblock, if_neg (by decide)] at hall
  unfold chain_places at hall
  obtain ⟨k, hk⟩ : ∃ k, drv.block_size.toNat / 16 = k + 1 := ⟨_, (Nat.succ_pred_eq_of_pos hpos).symm⟩
  rw [hk, List.range'_succ, List.map_cons] at hall
  change live_at (block_bytes drv (self_disk drv chain_word 0) chain_word) _ = [] at hall
  rw [live_at_show (by rw [hnum]; decide)] at hall
  cases hall

/-- The calls of the callback are counted. -/
def count_cb : Callback Nat := fun p _ _ => (false, p + 1)

theorem Visits.count {disk : Word → Buf} {es : List Entry} {p : Nat} {r : Nat × Option Vnode}
    (h : Visits drv disk count_cb es p r) : r.1 = p + es.length := by
  induction h with
  | done => rfl
  | stop _ hcb => cases hcb
  | next _ hcb _ ih =>
    cases hcb
    rw [ih, List.length_cons]
    omega

/-- The walk of this directory calls no callback. -/
theorem chain_dir_listed (hs : drv.Sized m) (hd : drv.Divides)
    (hdvd : drv.block_size.toNat ∣ size.toNat) {io : Io}
    (hio : io.Shows (self_disk drv chain_word 0)) :
    Returns (Owned.ext2_readdir (chain_dir drv size) count_cb 0) io fun r _ => r.1 = 0 ∧ r.2.1 = 0 := by
  have hdir := chain_dir_is_dir hs hdvd
  have hsized : (chain_dir drv size).drv.Sized m := hs
  have htotal := (hdir.blocks hsized).1
  have hhole : ∀ n < (chain_dir drv size).size.toNat / (chain_dir drv size).drv.block_size.toNat,
      mapped (chain_dir drv size) (self_disk drv chain_word 0) n = 0 :=
    fun n hn => (chain_dir_blocks hs size (blocks_mul_lt hn)).1
  refine (ext2_readdir_visits hsized hd 0 hio hdir fun n hn hsome =>
    absurd (hhole n (htotal ▸ hn)) hsome).mono ?_
  rintro r io' ⟨-, hret, hvisits⟩
  refine ⟨hret, ?_⟩
  have hnone : live_entries (chain_dir drv size) (self_disk drv chain_word 0)
      (mapped (chain_dir drv size) (self_disk drv chain_word 0)) (chain_places drv) = [] :=
    List.flatMap_eq_nil_iff.mpr fun n hn => if_pos (hhole n (List.mem_range.mp hn))
  rw [hvisits.count, hnone]
  rfl

end

/-- On a device whose reads do not fail, and for directories of a size: every well-formed directory is
listed right with every callback on every heap, and names are looked up right, if and only if it has
no triply indirect blocks. So is every larger directory that has a hole in their place. -/
theorem directory_decoding_is_exact_iff (drv : Driver) (m : Nat) (size : BitVec 32) (hs : drv.Sized m)
    (hd : drv.Divides) (hdvd : drv.block_size.toNat ∣ size.toNat) :
    ((∀ (inode : Inode) (io : Io) (xs : Nat → List Nat), inode.drv = drv → inode.size = size →
        (∀ i, io.fails i = false) → DirOf inode io.sectors xs →
        ListsRight inode xs io ∧ FindsRight inode xs io) ↔
      size.toNat / drv.block_size.toNat ≤ 12 + drv.fanout + drv.fanout ^ 2) ∧
    (∀ (inode : Inode) (io : Io) (xs : Nat → List Nat), inode.drv = drv → inode.block 14 = 0 →
      (∀ i, io.fails i = false) → DirOf inode io.sectors xs →
      ListsRight inode xs io ∧ FindsRight inode xs io) := by
  refine ⟨⟨fun hall => ?_, ?_⟩, ?_⟩
  · by_contra hlarge
    have hlt := Nat.lt_of_not_le hlarge
    let io : Io := ⟨self_disk drv chain_word 0, fun _ => false, fun _ _ => 0, 0, 0, []⟩
    let heap : Heap := ⟨[], 0, fun _ => false, 0, true⟩
    have hok : heap.Ok := ⟨List.nodup_nil, nofun, rfl⟩
    have hio : io.Shows (self_disk drv chain_word 0) := ⟨rfl, fun _ => rfl⟩
    obtain ⟨hlists, -⟩ := hall (chain_dir drv size) io (chain_places drv) rfl rfl (fun _ => rfl)
      (chain_dir_is_dir hs hdvd)
    obtain ⟨r, io', h', hrun, hvisits, -⟩ := hlists Nat count_cb 0 heap hok
    obtain ⟨r', io'', h'', hrun', -, -, hzero⟩ := chain_dir_listed hs hd hdvd hio heap
    rw [hrun] at hrun'
    cases hrun'
    have hcount := hvisits.count
    dsimp only at hzero
    rw [hzero, Nat.zero_add] at hcount
    exact chain_dir_live hs hlt (List.length_eq_zero_iff.mp hcount.symm)
  · rintro hsmall inode io xs rfl rfl hgood hdir
    have hlists := lists_right hs hd hgood hdir fun n hn => mapped_eq_block_of (.inr (by
      rw [(hdir.blocks hs).1] at hn
      omega))
    exact ⟨hlists, hlists.finds⟩
  · rintro inode io xs rfl h14 hgood hdir
    have hlists := lists_right hs hd hgood hdir fun n _ => mapped_eq_block_of (.inl h14)
    exact ⟨hlists, hlists.finds⟩

/-- A directory of one block, with one entry of 1024 bytes. -/
theorem directory_decoding_is_exact_one_entry :
    ListsRight one_block_dir (fun _ => [0]) (one_entry_disk 1024 5) ∧
      FindsRight one_block_dir (fun _ => [0]) (one_entry_disk 1024 5) := by
  have hs : small_drv.Sized 10 := ⟨⟨by decide, by decide⟩, by decide, by decide⟩
  have hd : small_drv.Divides := ⟨by decide, by decide, by decide⟩
  have hdir : DirOf one_block_dir (one_entry_disk 1024 5).sectors fun _ => [0] := by
    refine ⟨by decide, by decide, fun n hn _ => ?_⟩
    have hn0 : n = 0 := Nat.lt_one_iff.mp hn
    subst hn0
    exact .entry (by decide +kernel) (by decide +kernel) .done
  exact (directory_decoding_is_exact_iff small_drv 10 1024 hs hd (by decide)).1.mpr (by decide)
    one_block_dir (one_entry_disk 1024 5) _ rfl rfl (fun _ => rfl) hdir

/-- The directory has 65805 blocks. The last one is its only triply indirect block, and has the
entries. -/
theorem third_tree_entries_are_lost :
    DirOf (chain_dir small_drv 67384320) (self_disk small_drv chain_word 0) (chain_places small_drv) ∧
    live_entries (chain_dir small_drv 67384320) (self_disk small_drv chain_word 0)
      (block_of (chain_dir small_drv 67384320) (self_disk small_drv chain_word 0))
      (chain_places small_drv) ≠ [] ∧
    ∃ io' h' kept, Owned.ext2_readdir (chain_dir small_drv 67384320) count_cb 0
      ⟨self_disk small_drv chain_word 0, fun _ => false, fun _ _ => 0, 0, 0, []⟩
      ⟨[], 0, fun _ => false, 0, true⟩ = some ((0, 0, kept), io', h') := by
  have hs : small_drv.Sized 10 := ⟨⟨by decide, by decide⟩, by decide, by decide⟩
  have hd : small_drv.Divides := ⟨by decide, by decide, by decide⟩
  have hdvd : small_drv.block_size.toNat ∣ (67384320 : BitVec 32).toNat := by decide
  refine ⟨chain_dir_is_dir hs hdvd, chain_dir_live hs (by decide), ?_⟩
  have hio : (Io.mk (self_disk small_drv chain_word 0) (fun _ => false) (fun _ _ => 0) 0 0 []).Shows
      (self_disk small_drv chain_word 0) := ⟨rfl, fun _ => rfl⟩
  obtain ⟨⟨ret, calls, kept⟩, io', h', hrun, -, hret, hcalls⟩ := chain_dir_listed hs hd hdvd hio
    ⟨[], 0, fun _ => false, 0, true⟩
  dsimp only at hret hcalls
  subst hret hcalls
  exact ⟨io', h', kept, hrun⟩

end JamsOs.Ext2
