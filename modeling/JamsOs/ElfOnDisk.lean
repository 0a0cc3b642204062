-- The program loader (`elf64.c`) over the ext2 driver, with the heap: from the name of a file in the
-- root directory to the image. The heap is as before a load, except that the inode of the file is
-- never released.
import JamsOs.Directories
import JamsOs.Elf64

namespace JamsOs.ElfOnDisk

open Words Ownership
open Ext2 (Io Inode Buf strcmp find_file_cb)
open Ext2.Owned (Vnode OpenFile)

/-! ## The loader -/

/-- The disk and the memory. -/
abbrev System := Io × Machine

def disk {α : Type} (p : Prog Io α) : Prog System α := on_left p

/-- A call of the memory manager, which takes no memory from the heap. -/
def mmu {α : Type} (f : Machine → α × Machine) : Prog System α :=
  lift fun s => ((f s.2).1, s.1, (f s.2).2)

/-- The file, and the inode that the search found. -/
def elf_open_file (root : Inode) (filename : List (BitVec 8)) :
    Prog Io (Option OpenFile × Option Vnode) := do
  let (_, result, found) ← Ext2.Owned.ext2_readdir root (find_file_cb filename) none
  match result with
  | none => pure (none, found)
  | some inode => do
    let f ← Ext2.Owned.ext2_open inode.inode
    pure (f, found)

/-- The header is cleared before. -/
def elf_read_header (f : OpenFile) : Prog Io (Option ELF64_head × OpenFile) := do
  let (n, b, f) ← Ext2.Owned.ext2_file_read f (fun _ => 0) (BitVec.ofNat 32 sizeof_head)
  if n ≠ BitVec.ofNat 32 sizeof_head then pure (none, f)
  else
    let header := ELF64_head.ofBytes b
    if header.magic ≠ ELF_MAGIC then pure (none, f) else pure (some header, f)

/-- The loop of `elf_load_segment`. -/
def load_loop (cr3 : Word) (bounce : Buf) (remaining : Nat) (dst : Word) (f : OpenFile) :
    Prog System (Bool × OpenFile) :=
  if 0 < remaining then do
    let chunk := min remaining 4096
    let (n, bounce, f) ← disk (Ext2.Owned.ext2_file_read f bounce (BitVec.ofNat 32 chunk))
    if n ≠ BitVec.ofNat 32 chunk then pure (false, f)
    else do
      let copied ← mmu (MMU_copy_to_user_as cr3 dst (some bounce) (BitVec.ofNat 64 chunk))
      if copied then load_loop cr3 bounce (remaining - chunk) (dst + BitVec.ofNat 64 chunk) f
      else pure (false, f)
  else pure (true, f)
termination_by remaining

/-- The bounce buffer, which is made only for a segment that has bytes in the file. -/
def kmalloc_bounce (file_size : Word) : Prog System (Option Nat) :=
  if 0 < file_size then try_alloc else pure none

/-- `elf_load_segment` from the bounce buffer on. -/
def load_data (bounce : Option Nat) (f : OpenFile) (ph : ELF64_prog_head) (cr3 : Word) :
    Prog System (Bool × OpenFile) := do
  let buf ← disk (lift Io.buffer)
  let (read, f) ← load_loop cr3 buf ph.file_size.toNat ph.load_addr f
  if !read then do
    free_opt bounce
    pure (false, f)
  else if ph.file_size < ph.mem_size then do
    let zeroed ← mmu
      (MMU_zero_user_as cr3 (ph.load_addr + ph.file_size) (ph.mem_size - ph.file_size))
    free_opt bounce
    pure (zeroed, f)
  else do
    free_opt bounce
    pure (true, f)

def elf_load_segment (f : OpenFile) (ph : ELF64_prog_head) (cr3 : Word) :
    Prog System (Bool × OpenFile) := do
  let base ← mmu (MMU_alloc_at_as cr3 ph.load_addr ph.mem_size)
  if base = 0 then pure (false, f)
  else do
    let f := (Ext2.Owned.ext2_file_lseek f (ph.file_offset.setWidth 32)).2
    let bounce ← kmalloc_bounce ph.file_size
    if 0 < ph.file_size ∧ bounce = none then pure (false, f)
    else load_data bounce f ph cr3

/-- The loop of `elf_load_segments`, with `n` program headers left. The header on the stack is
overwritten by each read. -/
def segments_loop (header : ELF64_head) (cr3 : Word) :
    Nat → Word → Buf → OpenFile → Prog System (Bool × OpenFile)
  | 0, _, _, f => pure (true, f)
  | n + 1, current_ph_pos, b, f => do
    let f := (Ext2.Owned.ext2_file_lseek f (current_ph_pos.setWidth 32)).2
    let (k, b, f) ← disk (Ext2.Owned.ext2_file_read f b (BitVec.ofNat 32 sizeof_prog_head))
    if k ≠ BitVec.ofNat 32 sizeof_prog_head then pure (false, f)
    else do
      let ph := ELF64_prog_head.ofBytes b
      let next := current_ph_pos + header.prog_ent_size.setWidth 64
      if ph.type = PT_LOAD then do
        let (loaded, f) ← elf_load_segment f ph cr3
        if loaded then segments_loop header cr3 n next b f else pure (false, f)
      else segments_loop header cr3 n next b f

def elf_load_segments (f : OpenFile) (header : ELF64_head) (cr3 : Word) :
    Prog System (Bool × OpenFile) := do
  let b ← disk (lift Io.buffer)
  segments_loop header cr3 header.prog_ent_num.toNat header.prog_table_pos b f

/-- The tear-down may stop the CPU. -/
def destroy (cr3 : Word) : Prog System Unit := fun s h =>
  (MMU_destroy_userspace cr3 s.2).map fun machine => ((), (s.1, machine), h)

def close (f : OpenFile) : Prog System Unit := disk (Ext2.Owned.ext2_file_close f)

/-- `elf_load_program` from the open file on. -/
def load_file (file : Option OpenFile) : Prog System (Option elf_image) :=
  match file with
  | none => pure none
  | some f => do
    let (header, f) ← disk (elf_read_header f)
    match header with
    | none => do
      close f
      pure none
    | some header => do
      let user_cr3 ← mmu MMU_create_user_p4
      if user_cr3 = 0 then do
        close f
        pure none
      else do
        let (loaded, f) ← elf_load_segments f header user_cr3
        if !loaded then do
          destroy user_cr3
          close f
          pure none
        else do
          let ustack ← mmu (elf_alloc_user_stack user_cr3)
          match ustack with
          | none => do
            destroy user_cr3
            close f
            pure none
          | some (ustack_base, ustack_top) => do
            close f
            pure (some ⟨user_cr3, header.prog_entry_pos, ustack_base, ustack_top⟩)

/-- The image, or `none` for the return value -1, and the inode that the search found. -/
def elf_load_program (root : Option Inode) (filename : Option (List (BitVec 8))) :
    Prog System (Option elf_image × Option Vnode) :=
  match root, filename with
  | some root, some filename => do
    let (file, found) ← disk (elf_open_file root filename)
    let image ← load_file file
    pure (image, found)
  | _, _ => pure (none, none)

/-! ## What the loader owns -/

/-- The blocks of the inode that was found. -/
def leaked (found : Option Vnode) : List Nat := found.elim [] Vnode.blocks

theorem mmu.holds {α : Type} (own : List Nat) (f : Machine → α × Machine) :
    Holds own (mmu f) fun _ => own :=
  (Holds.lift _).beside own

theorem destroy.holds (own : List Nat) (cr3 : Word) : Holds own (destroy cr3) fun _ => own := by
  intro s h rest hok hperm a s' h' hrun
  obtain ⟨machine, -, heq⟩ := Option.map_eq_some_iff.mp hrun
  cases heq
  exact ⟨hok, hperm⟩

theorem close.holds (f : OpenFile) (own : List Nat) :
    Holds (f.addr :: own) (close f) fun _ => own :=
  (Holds.free f.addr own).on_left

theorem buffer.holds (own : List Nat) : Holds own (disk (lift Io.buffer)) fun _ => own :=
  ((Holds.lift _).beside own).on_left

theorem elf_open_file.holds (root : Inode) (filename : List (BitVec 8)) :
    Holds [] (elf_open_file root filename) fun r =>
      (r.1.map OpenFile.addr).toList ++ leaked r.2 := by
  unfold elf_open_file
  refine (Ext2.Owned.ext2_readdir.holds _ root none).bind fun r => ?_
  rcases r with ⟨ret, _ | inode, found⟩
  · exact Holds.pure _ rfl
  · refine ((Ext2.Owned.ext2_open.holds inode.inode).frame (leaked found)).bind fun f => ?_
    exact Holds.pure _ rfl

theorem elf_read_header.holds (f : OpenFile) (own : List Nat) :
    Holds (f.addr :: own) (elf_read_header f) fun r => r.2.addr :: own := by
  unfold elf_read_header
  refine (Ext2.Owned.ext2_file_read.holds f _ _ own).bind fun r => ?_
  refine Holds.ite (fun _ => Holds.pure _ rfl) fun _ => ?_
  exact Holds.ite (fun _ => Holds.pure _ rfl) fun _ => Holds.pure _ rfl

theorem load_loop.holds (cr3 : Word) (own : List Nat) (bounce : Buf) (remaining : Nat) (dst : Word)
    (f : OpenFile) :
    Holds (f.addr :: own) (load_loop cr3 bounce remaining dst f) fun r => r.2.addr :: own := by
  induction remaining using Nat.strongRecOn generalizing bounce dst f with
  | ind remaining ih =>
    unfold load_loop
    refine Holds.ite (fun hmore => ?_) fun _ => Holds.pure _ rfl
    refine (Ext2.Owned.ext2_file_read.holds f _ _ own).on_left.bind fun r => ?_
    refine Holds.ite (fun _ => Holds.pure _ rfl) fun _ => ?_
    refine (mmu.holds (r.2.2.addr :: own) _).bind fun copied => ?_
    exact Holds.ite (fun _ => ih _ (by omega) _ _ _) fun _ => Holds.pure _ rfl

theorem kmalloc_bounce.holds (file_size : Word) (f : Nat) (own : List Nat) :
    Holds (f :: own) (kmalloc_bounce file_size) fun a => f :: (a.toList ++ own) := by
  unfold kmalloc_bounce
  refine Holds.ite (fun _ => ?_) fun _ => Holds.pure _ rfl
  exact (Holds.try_alloc (f :: own)).conseq (List.Perm.refl _) fun a => List.perm_middle

theorem load_data.holds (a : Option Nat) (f : OpenFile) (ph : ELF64_prog_head) (cr3 : Word)
    (own : List Nat) :
    Holds (f.addr :: (a.toList ++ own)) (load_data a f ph cr3) fun r => r.2.addr :: own := by
  unfold load_data
  refine (buffer.holds _).bind fun buf => ?_
  refine (load_loop.holds cr3 (a.toList ++ own) buf _ _ f).bind fun r => ?_
  -- the buffer goes back, whatever the result is
  have hlast : ∀ ret : Bool, Holds (r.2.addr :: (a.toList ++ own))
      (free_opt a >>= fun _ => pure (ret, r.2) : Prog System (Bool × OpenFile))
      fun r => r.2.addr :: own := by
    intro ret
    have hfree : Holds _ (free_opt a : Prog System Unit) _ := Holds.free_opt a (r.2.addr :: own)
    exact (hfree.conseq List.perm_middle.symm fun _ => List.Perm.refl _).bind fun _ =>
      Holds.pure _ rfl
  refine Holds.ite (fun _ => hlast false) fun _ => ?_
  refine Holds.ite (fun _ => ?_) fun _ => hlast true
  exact (mmu.holds _ _).bind fun zeroed => hlast zeroed

theorem elf_load_segment.holds (f : OpenFile) (ph : ELF64_prog_head) (cr3 : Word)
    (own : List Nat) :
    Holds (f.addr :: own) (elf_load_segment f ph cr3) fun r => r.2.addr :: own := by
  unfold elf_load_segment
  refine (mmu.holds (f.addr :: own) _).bind fun base => ?_
  refine Holds.ite (fun _ => Holds.pure _ rfl) fun _ => ?_
  refine (kmalloc_bounce.holds ph.file_size f.addr own).bind fun a => ?_
  by_cases hnone : 0 < ph.file_size ∧ a = none
  · rw [if_pos hnone, hnone.2]
    exact Holds.pure _ rfl
  · rw [if_neg hnone]
    exact load_data.holds a (Ext2.Owned.ext2_file_lseek f (ph.file_offset.setWidth 32)).2 ph cr3 own

theorem segments_loop.holds (header : ELF64_head) (cr3 : Word) (own : List Nat) (n : Nat)
    (current_ph_pos : Word) (b : Buf) (f : OpenFile) :
    Holds (f.addr :: own) (segments_loop header cr3 n current_ph_pos b f)
      fun r => r.2.addr :: own := by
  induction n generalizing current_ph_pos b f with
  | zero => exact Holds.pure _ rfl
  | succ n ih =>
    unfold segments_loop
    refine (Ext2.Owned.ext2_file_read.holds (Ext2.Owned.ext2_file_lseek f _).2 _ _ own).on_left.bind
      fun r => ?_
    refine Holds.ite (fun _ => Holds.pure _ rfl) fun _ => ?_
    refine Holds.ite (fun _ => ?_) fun _ => ih _ _ _
    refine (elf_load_segment.holds _ _ cr3 own).bind fun r => ?_
    exact Holds.ite (fun _ => ih _ _ _) fun _ => Holds.pure _ rfl

theorem elf_load_segments.holds (f : OpenFile) (header : ELF64_head) (cr3 : Word) (own : List Nat) :
    Holds (f.addr :: own) (elf_load_segments f header cr3) fun r => r.2.addr :: own := by
  unfold elf_load_segments
  exact (buffer.holds _).bind fun b => segments_loop.holds header cr3 own _ _ b f

theorem load_file.holds (file : Option OpenFile) :
    Holds (file.map OpenFile.addr).toList (load_file file) fun _ => [] := by
  unfold load_file
  rcases file with _ | f
  · exact Holds.pure _ rfl
  have hlast : ∀ (f : OpenFile) (image : Option elf_image), Holds [f.addr]
      (close f >>= fun _ => pure image : Prog System _) fun _ => [] :=
    fun f image => (close.holds f _).bind fun _ => Holds.pure _ rfl
  refine (elf_read_header.holds f []).on_left.bind fun r => ?_
  rcases r with ⟨_ | header, f⟩
  · exact hlast f none
  refine (mmu.holds _ _).bind fun user_cr3 => Holds.ite (fun _ => hlast f none) fun _ => ?_
  refine (elf_load_segments.holds f header user_cr3 _).bind fun r => ?_
  refine Holds.ite (fun _ => (destroy.holds _ _).bind fun _ => hlast r.2 none) fun _ => ?_
  refine (mmu.holds _ _).bind fun ustack => ?_
  rcases ustack with _ | ⟨ustack_base, ustack_top⟩
  · exact (destroy.holds _ _).bind fun _ => hlast r.2 none
  · exact hlast r.2 _

/-- A load gives back all that it takes from the heap, except the inode that it found. -/
theorem elf_load_program.holds (root : Option Inode) (filename : Option (List (BitVec 8))) :
    Holds [] (elf_load_program root filename) fun r => leaked r.2 := by
  unfold elf_load_program
  split
  · refine (elf_open_file.holds _ _).on_left.bind fun r => ?_
    exact ((load_file.holds r.1).frame (leaked r.2)).bind fun image => Holds.pure _ rfl
  · exact Holds.pure _ rfl

/-! ## When the inode is found -/

/-- What `find_file_cb` decides. -/
def is_file (filename : List (BitVec 8)) : List (BitVec 8) → Inode → Bool := fun name _ =>
  strcmp name filename = 0

/-- The walk of the root directory comes to an entry with the name of the file. -/
def directory_has (root : Inode) (filename : List (BitVec 8)) (io : Io) : Prop :=
  root.mode &&& Ext2.S_IFDIR ≠ 0 ∧
    (Ext2.readdir_loop root (is_file filename)
      ((root.size + root.drv.block_size - 1) / root.drv.block_size).toNat 0 root.size io.buffer.1
      io.buffer.2).1 = .stopped

theorem elf_open_file.found_iff {root : Inode} {filename : List (BitVec 8)} {io io' : Io} {h h' : Ownership.Heap}
    {file : Option OpenFile} {found : Option Vnode}
    (hrun : elf_open_file root filename io h = some ((file, found), io', h')) :
    found ≠ none ↔ directory_has root filename io := by
  unfold elf_open_file at hrun
  obtain ⟨⟨ret, result, stopped⟩, io₁, h₁, hwalk, hopen⟩ := bind_eq_some_iff.mp hrun
  have hfound : stopped = found := by
    cases result with
    | none =>
      cases hopen
      rfl
    | some inode =>
      obtain ⟨f, io₂, h₂, -, hlast⟩ := bind_eq_some_iff.mp hopen
      cases hlast
      rfl
  subst hfound
  unfold Ext2.Owned.ext2_readdir at hwalk
  unfold directory_has
  split at hwalk
  · next hfile =>
    cases hwalk
    exact ⟨fun h => absurd rfl h, fun h => absurd hfile h.1⟩
  next hdir =>
  obtain ⟨⟨a, buf⟩, io₂, h₂, hbuf, hwalk⟩ := bind_eq_some_iff.mp hwalk
  cases hbuf
  dsimp only at hwalk
  split at hwalk
  · cases hwalk
  obtain ⟨⟨p, r⟩, io₃, h₃, hloop, hlast⟩ := bind_eq_some_iff.mp hwalk
  have hcb : ∀ p name (child : Vnode), (find_file_cb filename p name child).1 =
      is_file filename name child.inode := by
    intro p name child
    unfold find_file_cb
    split
    · exact (decide_eq_true ‹_›).symm
    · exact (decide_eq_false ‹_›).symm
  have hmirror := Ext2.Owned.readdir_loop.mirrors hcb root
    ((root.size + root.drv.block_size - 1) / root.drv.block_size).toNat 0 root.size io.buffer.1 none
    io.buffer.2 { h with held := h.next :: h.held, next := h.next + 1 }
  have hloop' : Ext2.Owned.readdir_loop root (find_file_cb filename) _ 0 root.size io.buffer.1 none
    io.buffer.2 _ = _ := hloop
  rw [hloop'] at hmirror
  cases hlast
  generalize Ext2.readdir_loop root _ _ 0 root.size io.buffer.1 io.buffer.2 = w at hmirror ⊢
  obtain ⟨w, io₄⟩ := w
  cases w with
  | fault => cases hmirror
  | finished =>
    obtain ⟨p', h', heq⟩ := hmirror
    cases heq
    exact ⟨fun h => absurd rfl h, fun h => nomatch h.2⟩
  | stopped =>
    obtain ⟨p', child, h', heq⟩ := hmirror
    cases heq
    exact ⟨fun _ => ⟨hdir, rfl⟩, fun _ => Option.some_ne_none _⟩

/-- For every state of the disk, whether reads fail or not, every heap and every memory: when a load
returns, with an image or without, each block of the heap that it took was given back once, except
the two blocks of the inode of the file if the search found one. So the heap is as before if and only
if the directory does not have the name. -/
theorem load_is_heap_neutral_iff (root : Inode) (filename : List (BitVec 8)) (s s' : System)
    (h h' : Ownership.Heap) (image : Option elf_image) (found : Option Vnode) (hok : h.Ok)
    (hrun : elf_load_program (some root) (some filename) s h = some ((image, found), s', h')) :
    h'.Ok ∧ h'.held.Perm (leaked found ++ h.held) ∧
      (h'.held.Perm h.held ↔ ¬ directory_has root filename s.1) := by
  obtain ⟨hok', hperm⟩ := elf_load_program.holds (some root) (some filename) s h h.held hok
    (List.Perm.refl _) _ _ _ hrun
  refine ⟨hok', hperm, ?_⟩
  have hfound : found ≠ none ↔ directory_has root filename s.1 := by
    obtain ⟨⟨file, found₁⟩, s₁, h₁, hopen, hrest⟩ := bind_eq_some_iff.mp hrun
    obtain ⟨image₁, s₂, h₂, -, hlast⟩ := bind_eq_some_iff.mp hrest
    cases hlast
    obtain ⟨⟨r, io₁, h₃⟩, hopen', heq⟩ := Option.map_eq_some_iff.mp hopen
    cases heq
    exact elf_open_file.found_iff hopen'
  rw [← hfound, not_not]
  constructor
  · intro hsame
    have hlen := (hperm.symm.trans hsame).length_eq
    cases found with
    | none => rfl
    | some vnode =>
      rw [List.length_append] at hlen
      change 2 + h.held.length = h.held.length at hlen
      omega
  · rintro rfl
    exact hperm

/-- A volume whose root directory has one entry, an empty file with the name `a`, and a machine
without memory. -/
def one_file : System :=
  ({ Ext2.one_entry_disk 1024 1 with
      sectors := fun w j =>
        if w = 65 ∧ j = 8 then 0x61 else (Ext2.one_entry_disk 1024 1).sectors w j },
    ⟨fun _ _ => 0, [], 0, 0, 0, 0, false⟩)

def empty_heap : Ownership.Heap := ⟨[], 0, fun _ => false, 0, true⟩

theorem load_is_heap_neutral_no_file :
    ∃ r s' h', elf_load_program (some Ext2.one_block_dir) (some [0x62]) one_file empty_heap =
      some (r, s', h') ∧ h'.held.Perm [] := by
  have hreturns : (elf_load_program (some Ext2.one_block_dir) (some [0x62]) one_file
      empty_heap).isSome = true := by decide +kernel
  have hok : empty_heap.Ok := ⟨List.nodup_nil, nofun, rfl⟩
  obtain ⟨⟨⟨image, found⟩, s', h'⟩, hrun⟩ := Option.isSome_iff_exists.mp hreturns
  refine ⟨_, s', h', hrun, ?_⟩
  refine (load_is_heap_neutral_iff Ext2.one_block_dir [0x62] one_file s' empty_heap h' image found hok
    hrun).2.2.mpr fun hhas => ?_
  have hnot : (Ext2.readdir_loop Ext2.one_block_dir (is_file [0x62])
      ((Ext2.one_block_dir.size + Ext2.one_block_dir.drv.block_size - 1) /
        Ext2.one_block_dir.drv.block_size).toNat 0 Ext2.one_block_dir.size one_file.1.buffer.1
      one_file.1.buffer.2).1 ≠ .stopped := by decide +kernel
  exact hnot hhas.2

/-- The file is found, and is not a program. The inode and its private data stay in the heap. -/
theorem load_leaks_the_inode :
    (elf_load_program (some Ext2.one_block_dir) (some [0x61]) one_file empty_heap).map
      (fun r => (r.1.1.isSome, r.2.2.held.length)) = some (false, 2) := by
  decide +kernel

end JamsOs.ElfOnDisk
