-- Errors of the device. `ext2_read_block` does not look at the results of its reads, so that no
-- operation reports a failed one: what it returns is right only if no read on its way fails.
import JamsOs.Ext2Reads
import JamsOs.Ext2Inodes

namespace JamsOs.Ext2

open Words

/-! ## No operation reports an error -/

theorem read_loop.moved {inode : Inode} {m : Nat} (hs : inode.drv.Sized m) (fuel : Nat)
    {r r' : Reading} {io io' : Io} (hoff : r.offset.toNat + r.len.toNat < 2 ^ 32)
    (hlen : r.len.toNat < 2 ^ 31) (hfuel : r.len.toNat ≤ fuel)
    (h : read_loop inode fuel r io = (some r', io')) :
    r'.bytes_read = r.bytes_read + r.len := by
  induction fuel generalizing r io with
  | zero =>
    have h0 : r.len = 0 := BitVec.eq_of_toNat_eq (Nat.le_zero.mp hfuel)
    cases h
    rw [h0]
    exact (BitVec.add_zero _).symm
  | succ fuel ih =>
    have hint : r.len.toInt = r.len.toNat := BitVec.toInt_eq_toNat_of_lt (by omega)
    unfold read_loop at h
    split at h
    · next hstop =>
      have h0 : r.len = 0 := BitVec.eq_of_toNat_eq (show r.len.toNat = 0 by omega)
      cases h
      rw [h0]
      exact (BitVec.add_zero _).symm
    · next hgo =>
      rcases hv : read_turn inode r io with ⟨_ | r₁, io₁⟩
      · rw [hv] at h
        cases h
      · rw [hv] at h
        have hmoved := read_turn.moved hs hoff hv
        have hoff' := hmoved.offset
        have hlen' := hmoved.len
        have hchunk := hs.chunk_bounds r.offset.toNat (show 0 < r.len.toNat by omega)
        rw [ih (by omega) (by omega) (by omega) h, hmoved.bytes_read, BitVec.add_assoc]
        congr 1
        apply BitVec.eq_of_toNat_eq
        rw [BitVec.toNat_add, BitVec.toNat_ofNat, hlen']
        have := r.len.isLt
        omega

/-- Whatever the reads gave, a file read that returns does not return an error. -/
theorem ext2_file_read.nonneg {f : File} {m : Nat} (hs : f.inode.drv.Sized m) {buf : Buf}
    {len : BitVec 32} {io : Io} (hlen : 0 ≤ len.toInt) {v : BitVec 32 × Buf × Option File}
    (h : (ext2_file_read (some f) buf len io).1 = some v) : 0 ≤ v.1.toInt := by
  unfold ext2_file_read at h
  dsimp only at h
  split at h
  · cases h
    exact Int.le_refl 0
  · next hend =>
    obtain ⟨hclamp, hpositive⟩ := File.clamp hlen (File.inside hend)
    have hsum := File.available_end (File.inside hend) len.toNat
    generalize (if f.inode.size.setWidth 64 < f.offset + len.signExtend 64 then
      (f.inode.size.setWidth 64 - f.offset).setWidth 32 else len : BitVec 32) = n at hclamp h
    rcases hv : read_loop f.inode n.toNat ⟨buf, 0, f.offset, n, 0, io.buffer.1⟩ io.buffer.2 with
      ⟨_ | r, io'⟩
    · rw [hv] at h
      cases h
    · rw [hv] at h
      cases h
      have hbytes : r.bytes_read = 0#32 + n :=
        read_loop.moved hs n.toNat (by dsimp only; omega) (by dsimp only; omega) le_rfl hv
      dsimp only
      rw [hbytes, BitVec.zero_add, BitVec.toInt_eq_toNat_of_lt (by omega)]
      exact Int.natCast_nonneg _

/-! ## Errors as data -/

/-- One of the reads between two states failed. -/
def Io.Failed (io io' : Io) : Prop := ∃ i, io.reads ≤ i ∧ i < io'.reads ∧ io.fails i = true

/-- What a file read owes its caller: the bytes that it says it stored are those of the file, and
after a failed read of the device it returns an error. -/
def FileErrorsReported (f : File) (buf : Buf) (len : BitVec 32) (io : Io) : Prop :=
  (∀ v, (ext2_file_read (some f) buf len io).1 = some v → 0 < v.1.toInt →
    ∀ j < v.1.toNat, v.2.1 j = file_byte f.inode io.sectors (f.offset.toNat + j)) ∧
  (io.Failed (ext2_file_read (some f) buf len io).2 →
    ∃ v, (ext2_file_read (some f) buf len io).1 = some v ∧ v.1.toInt < 0)

/-- What reading an inode owes its caller: an inode that it returns has the fields of the inode on
the disk, and after a failed read of the device there is none. -/
def InodeErrorsReported (drv : Driver) (num : BitVec 32) (io : Io) : Prop :=
  (∀ inode, (ext2_read_inode drv num io).1 = some inode → inode.OnDisk drv io.sectors num) ∧
  (io.Failed (ext2_read_inode drv num io).2 → (ext2_read_inode drv num io).1 = none)

/-- No read failed exactly if those made were good. -/
theorem Io.Took.not_failed_iff {io io' : Io} {ss : List Word} (h : io.Took io' ss) :
    ¬ io.Failed io' ↔ io.Good ss.length := by
  constructor
  · intro hnone i hi
    by_contra hfail
    apply hnone
    refine ⟨io.reads + i, by omega, by rw [h.reads]; omega, ?_⟩
    simpa using hfail
  · rintro hgood ⟨i, hlo, hhi, hfail⟩
    rw [h.reads] at hhi
    have := hgood (i - io.reads) (by omega)
    rw [Nat.add_sub_cancel' hlo, hfail] at this
    cases this

/-- Device errors are not turned into data exactly if there are none: a file read, within the part
of the map that the driver has right, and the reading of an inode do what they owe their callers if
and only if no read on the way to the data fails. -/
theorem device_errors_not_turned_into_data {drv : Driver} {m : Nat} (hs : drv.Sized m) (io : Io) :
    (∀ (f : File) (buf : Buf) (len : BitVec 32), f.inode.drv = drv → 0 ≤ len.toInt →
      f.inode.block 14 = 0 ∨ f.available len.toNat = 0 ∨
        f.offset.toNat + f.available len.toNat ≤ drv.third_tree →
      (FileErrorsReported f buf len io ↔ io.Good (f.path io.sectors len.toNat).length)) ∧
    (∀ num : BitVec 32, drv.Divides →
      (InodeErrorsReported drv num io ↔ io.Good (drv.inode_path io.sectors num).length)) := by
  constructor
  · rintro f buf len rfl hlen hbelow
    obtain ⟨ss, htook, hclean⟩ := ext2_file_read.follows hs buf len io hlen
    constructor
    · intro hreported
      have hgood : io.Good ss.length := by
        rw [← htook.not_failed_iff]
        intro hfailed
        obtain ⟨v, hv, hneg⟩ := hreported.2 hfailed
        have := ext2_file_read.nonneg hs hlen hv
        omega
      obtain ⟨rfl, -⟩ := hclean (.inl hgood)
      exact hgood
    · intro hgood
      obtain ⟨rfl, hvalue⟩ := hclean (.inr hgood)
      refine ⟨?_, fun hfailed => absurd hfailed (htook.not_failed_iff.mpr hgood)⟩
      intro v hv _ j hj
      rw [hvalue] at hv
      cases hv
      have hj' : j < f.available len.toNat :=
        hj.trans_le (by rw [BitVec.toNat_ofNat]; exact Nat.mod_le _ _)
      dsimp only
      rw [if_pos hj']
      apply mapped_byte_eq_file_byte
      rcases hbelow with h | h | h
      · exact .inl h
      · omega
      · exact .inr (by omega)
  · intro num hd
    obtain ⟨ss, htook, hclean⟩ := ext2_read_inode.follows hs hd num io
    constructor
    · intro hreported
      have hgood : io.Good ss.length := by
        rw [← htook.not_failed_iff]
        intro hfailed
        exact (ext2_read_inode.returns num io).mpr ⟨hd.groups, hd.nonzero hs⟩ (hreported.2 hfailed)
      obtain ⟨rfl, -⟩ := hclean (.inl hgood)
      exact hgood
    · intro hgood
      obtain ⟨rfl, inode, hvalue, hdisk⟩ := hclean (.inr hgood)
      refine ⟨?_, fun hfailed => absurd hfailed (htook.not_failed_iff.mpr hgood)⟩
      intro inode' hinode'
      rw [hvalue] at hinode'
      cases hinode'
      exact hdisk

/-- A file of one byte, in block 1 of a small volume. -/
def one_byte_file : File where
  inode :=
    { drv := small_drv
      ino_num := 12
      size := 1
      mode := 0x8000
      raw := fun j => if j = 40 then 1 else 0 }
  offset := 0

/-- A disk of zeros, of which the first read fails or not, and a heap whose buffers are not
cleared. -/
def zero_disk (fails : Bool) : Io where
  sectors := fun _ _ => 0
  fails := fun n => fails && n == 0
  junk := fun _ _ => 0xAA
  reads := 0
  allocs := 0
  log := []

theorem device_errors_not_turned_into_data_small :
    small_drv.Sized 10 ∧ small_drv.Divides ∧
    (FileErrorsReported one_byte_file (fun _ => 0) 1 (zero_disk false) ↔
      (zero_disk false).Good (one_byte_file.path (zero_disk false).sectors 1).length) ∧
    (InodeErrorsReported small_drv 2 (zero_disk false) ↔
      (zero_disk false).Good (small_drv.inode_path (zero_disk false).sectors 2).length) :=
  have hs : small_drv.Sized 10 := ⟨⟨by decide, by decide⟩, by decide, by decide⟩
  have hd : small_drv.Divides := ⟨by decide, by decide, by decide⟩
  ⟨hs, hd,
    (device_errors_not_turned_into_data hs (zero_disk false)).1 one_byte_file (fun _ => 0) 1 rfl
      (by decide) (.inl (by decide)),
    (device_errors_not_turned_into_data hs (zero_disk false)).2 2 hd⟩

/-- If the first read of the device fails, `ext2_file_read` returns one byte, which is what the heap
had in the block buffer. If all reads fail, an inode is returned with a size that is not on the
disk. -/
theorem failed_read_gives_old_heap_bytes :
    (zero_disk true).fails 0 = true ∧
    (ext2_file_read (some one_byte_file) (fun _ => 0) 1 (zero_disk true)).1.map
      (fun v => (v.1, v.2.1 0)) = some (1, 0xAA) ∧
    (ext2_file_read (some one_byte_file) (fun _ => 0) 1 (zero_disk true)).2.reads = 2 ∧
    file_byte one_byte_file.inode (zero_disk true).sectors 0 = 0 ∧
    ((ext2_read_inode small_drv 2 { zero_disk true with fails := fun _ => true }).1.map
      fun inode => inode.size) = some 0xAAAAAAAA ∧
    u32 (small_drv.inode_bytes (zero_disk true).sectors 2) 4 = 0 := by
  decide +kernel

end JamsOs.Ext2
