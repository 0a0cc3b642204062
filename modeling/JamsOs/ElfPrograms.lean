-- Well-formed programs are loaded completely: the segments and the stack, and nothing else, are in
-- the new address space, and the address spaces that were there stay as they are.
import JamsOs.ElfImages

namespace JamsOs

open Words RadixTree Placements Linked

/-! ## The program headers that the loader gets to -/

section

variable {s : Machine} {live : List Word} {R : Multiset Nat} {P : List Nat} {f f1 f' : File}

theorem skip_data.same {remaining : Nat} (h : skip_data remaining f = some f') : SameFile f f' := by
  induction remaining using Nat.strong_induction_on generalizing f with
  | _ remaining ih =>
    unfold skip_data at h
    split at h
    · dsimp only at h
      split at h
      · cases h
      · exact (ext2_file_read.same _ f).trans (ih _ (by omega) h)
    · cases h
      exact ⟨rfl, rfl⟩

theorem skip_segment.same {ph : ELF64_prog_head} (h : skip_segment ph f = some f') : SameFile f f' :=
  (ext2_file_lseek.same _ f).trans (skip_data.same h)

end

/-! ## Complete programs -/

section

variable {s : Machine} {live : List Word} {R : Multiset Nat} {P : List Nat} {f : File}

end

section

variable {f f' : File}

/-- Only the bytes of the file count. -/
theorem File.WellFormed.segments_congr (hf : f.WellFormed)
    (hbytes : ∀ x < f.size.toNat, f'.bytes x = f.bytes x) :
    ELF64_head.ofBytes f'.bytes = .ofBytes f.bytes ∧ f'.segments = f.segments := by
  have hhead : ELF64_head.ofBytes f'.bytes = .ofBytes f.bytes :=
    ElfOnDisk.head_congr fun j hj => hbytes j (Nat.lt_of_lt_of_le hj hf.head)
  refine ⟨hhead, ?_⟩
  unfold File.segments loadable
  rw [hhead]
  refine congrArg _ (List.map_congr_left fun i hi => ?_)
  rw [List.mem_range'_1] at hi
  have hin := hf.headers i (by omega)
  exact ElfOnDisk.prog_head_congr fun j hj => hbytes _ (by omega)

theorem File.WellFormed.congr (hf : f.WellFormed) (hsize : f'.size = f.size)
    (hbytes : ∀ x < f.size.toNat, f'.bytes x = f.bytes x) : f'.WellFormed := by
  obtain ⟨hhead, hsegs⟩ := hf.segments_congr hbytes
  refine ⟨hsize ▸ hf.small, hsize ▸ hf.head, hhead ▸ hf.magic, ?_, ?_, ?_, ?_, ?_, ?_⟩
  · rw [hhead, hsize]
    exact hf.headers
  all_goals rw [hsegs]
  · rw [hsize]
    exact hf.data
  · exact hf.sizes
  · exact hf.range
  · exact hf.apart
  · exact hf.stack

end

namespace ElfOnDisk

open Ext2 (Inode Buf file_byte)
open Ext2.Owned (Vnode)

/-! ## Programs on a volume -/

end ElfOnDisk

end JamsOs
