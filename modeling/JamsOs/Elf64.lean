-- The program loader (`elf64.c`): it reads the ELF header and the program headers of a
-- file, maps each loadable segment into a new address space, and reserves the user stack.
--
-- The file comes from `elf_open_file`, and `none` stands for NULL. What the file system
-- gives are the bytes of the file, so only the offsets and lengths of `ext2_file_read`
-- and `ext2_file_lseek` are modeled here. Whether `kmalloc` has a bounce buffer for
-- segment `i` is `heap i`. The buffers are apart from the memory of the machine.
import JamsOs.VPages

namespace JamsOs

open Words

/-! ## Files -/

/-- `struct file`, with the size and the bytes of its inode. -/
structure File where
  size : BitVec 32
  bytes : Nat → BitVec 8
  offset : Word

/-- The result is the number of bytes read, the buffer, and the file. The buffer is a function,
of which only the first bytes count. -/
def ext2_file_read (len : Nat) (f : File) : Nat × (Nat → BitVec 8) × File :=
  if f.size.toNat ≤ f.offset.toNat then (0, fun _ => 0, f)
  else
    let len := min len (f.size.toNat - f.offset.toNat)
    (len, fun k => f.bytes (f.offset.toNat + k), { f with offset := f.offset + BitVec.ofNat 64 len })

/-- The offset is an `int`. It is compared with the size as an unsigned number, and then
sign-extended. -/
def ext2_file_lseek (offset : BitVec 32) (f : File) : Bool × File :=
  if f.size < offset then (false, f) else (true, { f with offset := offset.signExtend 64 })

/-! ## The headers -/

/-- The fields of `struct ELF64_head` that the loader uses. -/
structure ELF64_head where
  magic : List (BitVec 8)
  prog_entry_pos : Word
  prog_table_pos : Word
  prog_ent_size : BitVec 16
  prog_ent_num : BitVec 16

def sizeof_head : Nat := 64

def ELF64_head.ofBytes (b : Nat → BitVec 8) : ELF64_head where
  magic := [b 0, b 1, b 2, b 3]
  prog_entry_pos := BitVec.ofNat 64 (little_endian b 24 8)
  prog_table_pos := BitVec.ofNat 64 (little_endian b 32 8)
  prog_ent_size := BitVec.ofNat 16 (little_endian b 54 2)
  prog_ent_num := BitVec.ofNat 16 (little_endian b 56 2)

/-- The fields of `struct ELF64_prog_head` that the loader uses. -/
structure ELF64_prog_head where
  type : BitVec 32
  file_offset : Word
  load_addr : Word
  file_size : Word
  mem_size : Word
  deriving DecidableEq

def sizeof_prog_head : Nat := 56

def ELF64_prog_head.ofBytes (b : Nat → BitVec 8) : ELF64_prog_head where
  type := BitVec.ofNat 32 (little_endian b 0 4)
  file_offset := BitVec.ofNat 64 (little_endian b 8 8)
  load_addr := BitVec.ofNat 64 (little_endian b 16 8)
  file_size := BitVec.ofNat 64 (little_endian b 32 8)
  mem_size := BitVec.ofNat 64 (little_endian b 40 8)

/-- `struct elf_image`. -/
structure elf_image where
  cr3 : Word
  entry : Word
  ustack_base : Word
  ustack_top : Word

def ELF_MAGIC : List (BitVec 8) := [0x7F, 0x45, 0x4C, 0x46]

def elf_read_header (f : File) : Option ELF64_head × File :=
  match ext2_file_read sizeof_head f with
  | (n, b, f) =>
    if n ≠ sizeof_head then (none, f)
    else
      let header := ELF64_head.ofBytes b
      if header.magic ≠ ELF_MAGIC then (none, f) else (some header, f)

/-! ## Segments -/

/-- The loop of `elf_load_segment`, one bounce buffer at a time. -/
def load_loop (cr3 : Word) (remaining : Nat) (dst : Word) (f : File) (s : Machine) :
    Bool × File × Machine :=
  if 0 < remaining then
    let chunk := min remaining 4096
    match ext2_file_read chunk f with
    | (n, bounce, f) =>
      if n ≠ chunk then (false, f, s)
      else
        match MMU_copy_to_user_as cr3 dst (some bounce) (BitVec.ofNat 64 chunk) s with
        | (false, s) => (false, f, s)
        | (true, s) => load_loop cr3 (remaining - chunk) (dst + BitVec.ofNat 64 chunk) f s
  else (true, f, s)
termination_by remaining

def elf_load_segment (ph : ELF64_prog_head) (cr3 : Word) (kmalloc_ok : Bool) (f : File)
    (s : Machine) : Bool × File × Machine :=
  let (base, s) := MMU_alloc_at_as cr3 ph.load_addr ph.mem_size s
  if base = 0 then (false, f, s)
  else
    let f := (ext2_file_lseek (ph.file_offset.setWidth 32) f).2
    if 0 < ph.file_size && !kmalloc_ok then (false, f, s)
    else
      match load_loop cr3 ph.file_size.toNat ph.load_addr f s with
      | (false, f, s) => (false, f, s)
      | (true, f, s) =>
        if ph.file_size < ph.mem_size then
          let (ret, s) :=
            MMU_zero_user_as cr3 (ph.load_addr + ph.file_size) (ph.mem_size - ph.file_size) s
          (ret, f, s)
        else (true, f, s)

def PT_LOAD : BitVec 32 := 1

/-- The loop of `elf_load_segments` from program header `i` on, with `n` of them left. -/
def segments_loop (header : ELF64_head) (cr3 : Word) (heap : Nat → Bool) (i : Nat) :
    Nat → Word → File → Machine → Bool × File × Machine
  | 0, _, f, s => (true, f, s)
  | n + 1, current_ph_pos, f, s =>
    let f := (ext2_file_lseek (current_ph_pos.setWidth 32) f).2
    match ext2_file_read sizeof_prog_head f with
    | (k, b, f) =>
      if k ≠ sizeof_prog_head then (false, f, s)
      else
        let ph := ELF64_prog_head.ofBytes b
        let next := current_ph_pos + header.prog_ent_size.setWidth 64
        if ph.type = PT_LOAD then
          match elf_load_segment ph cr3 (heap i) f s with
          | (false, f, s) => (false, f, s)
          | (true, f, s) => segments_loop header cr3 heap (i + 1) n next f s
        else segments_loop header cr3 heap (i + 1) n next f s

def elf_load_segments (f : File) (header : ELF64_head) (cr3 : Word) (heap : Nat → Bool)
    (s : Machine) : Bool × File × Machine :=
  segments_loop header cr3 heap 0 header.prog_ent_num.toNat header.prog_table_pos f s

/-! ## Loading a program -/

def DEFAULT_STACK_BYTES : Word := 8 * 1024

/-- The base and the top of the user stack. -/
def elf_alloc_user_stack (cr3 : Word) (s : Machine) : Option (Word × Word) × Machine :=
  let (ustack, s) := MMU_alloc_at_as cr3 VA_USTACK_BASE DEFAULT_STACK_BYTES s
  if ustack = 0 then (none, s)
  else (some (ustack, (ustack + DEFAULT_STACK_BYTES) &&& ~~~(16 - 1)), s)

/-- The image, or `none` for the return value -1. The tear-down may stop the CPU, and then there
is no result at all. -/
def elf_load_program (file : Option File) (heap : Nat → Bool) (s : Machine) :
    Option (Option elf_image × Machine) :=
  match file with
  | none => some (none, s)
  | some f =>
    match elf_read_header f with
    | (none, _) => some (none, s)
    | (some header, f) =>
      let (user_cr3, s) := MMU_create_user_p4 s
      if user_cr3 = 0 then some (none, s)
      else
        match elf_load_segments f header user_cr3 heap s with
        | (false, _, s) => (MMU_destroy_userspace user_cr3 s).map fun s => (none, s)
        | (true, _, s) =>
          match elf_alloc_user_stack user_cr3 s with
          | (none, s) => (MMU_destroy_userspace user_cr3 s).map fun s => (none, s)
          | (some (ustack_base, ustack_top), s) =>
            some (some ⟨user_cr3, header.prog_entry_pos, ustack_base, ustack_top⟩, s)

end JamsOs
