-- The laws of writing to another address space. A copy or a fill of a range of user pages
-- is seen through the page tables of that address space, byte by byte, and needs a free
-- frame for each page of the range that was not touched before.
import JamsOs.Reservations

namespace JamsOs

open Words RadixTree

/-! ## Bytes of pages -/

/-- A byte of a frame. -/
def frame_byte (x : Frame) (off : Nat) : BitVec 8 :=
  getByte (x ⟨off / 8 % 512, Nat.mod_lt _ (by decide)⟩) (off % 8)

/-- A byte of a page. A page that is reserved and not touched yet reads as zeros. -/
def page_byte (v : Word × Option Frame) (off : Nat) : Option (BitVec 8) :=
  match v.2 with
  | some x => some (frame_byte x off)
  | none => if demand v.1 then some 0 else none

/-- The byte at an address, or nothing when the page is not reserved. -/
def space_byte (m : Nat → Frame) (p4 : Nat) (va : Word) : Option (BitVec 8) :=
  page_byte (page_view m p4 va) (va.toNat % 4096)

/-- The numbers of the pages that have a byte of `a`, ..., `b - 1`. -/
def page_numbers (a b : Nat) : Finset Nat :=
  if a < b then Finset.Icc (a / 4096) ((b - 1) / 4096) else ∅

def page_addr (q : Nat) : Word := BitVec.ofNat 64 (q * 4096)

/-- The number of pages with a byte of `a`, ..., `b - 1` that have no frame yet. -/
def untouched (m : Nat → Frame) (p4 a b : Nat) : Nat :=
  ((page_numbers a b).filter fun q => present (page_word m p4 (page_addr q)) = false).card

section

variable {T : Tree} {s s1 s' : Machine} {P P' : List Nat} {m m' : Nat → Frame} {va va' : Word}
  {e : EntryPtr} {a b c q p4 off n : Nat}

theorem frame_byte_zero (off : Nat) : frame_byte (fun _ => 0) off = 0 := getBits_zero _ _

/-- The bytes of a frame after a write to a part of it. -/
theorem frame_byte_write (mem : Nat → Frame) (f : Nat) (src : Nat → BitVec 8) (hoff : a < 4096) :
    frame_byte (write_bytes mem f off n src f) a =
      if off ≤ a ∧ a < off + n then src (a - off) else frame_byte (mem f) a := by
  have ha : 8 * (a / 8 % 512) + a % 8 = a := by omega
  unfold frame_byte write_bytes
  rw [Function.update_self, getByte_patch _ _ _ _ (Nat.mod_lt _ (by decide)) le_rfl]
  simp only [ha]
  split
  · rfl
  · rfl

theorem page_word_of_none (h : lookup m p4 va = none) : page_word m p4 va = 0 := by
  rw [page_word, h]

theorem reserved_zero : reserved 0 = false := by
  decide

theorem page_word_of_path (h : page_path va = page_path va') :
    page_word m p4 va = page_word m p4 va' := by
  rw [page_word, page_word, lookup_of_path h]

theorem page_path_of_div (h : va.toNat / 4096 = va'.toNat / 4096) : page_path va = page_path va' := by
  rw [page_path_eq_iff, h]

/-- Below 2^48 different page numbers are different pages. -/
theorem page_path_ne_of_div (h1 : va.toNat < 2 ^ 48) (h2 : va'.toNat < 2 ^ 48)
    (h : va.toNat / 4096 ≠ va'.toNat / 4096) : page_path va ≠ page_path va' := by
  rw [ne_eq, page_path_eq_iff]
  omega

/-! ## The pages of a range -/

theorem page_numbers_of_le (h : b ≤ a) : page_numbers a b = ∅ := if_neg (by omega)

/-- The page of the first byte, and the pages behind it. -/
theorem page_numbers_split (h : a < b) (hc : c = min (4096 - a % 4096) (b - a)) :
    page_numbers a b = insert (a / 4096) (page_numbers (a + c) b) ∧
      ∀ q ∈ page_numbers (a + c) b, a / 4096 < q := by
  have hmem : ∀ q, q ∈ page_numbers (a + c) b ↔ a / 4096 < q ∧ q ≤ (b - 1) / 4096 := by
    intro q
    unfold page_numbers
    split
    · rw [Finset.mem_Icc]
      omega
    · simp only [Finset.notMem_empty, false_iff]
      omega
  refine ⟨?_, fun q hq => ((hmem q).mp hq).1⟩
  ext q
  rw [Finset.mem_insert, hmem, page_numbers, if_pos h, Finset.mem_Icc]
  omega

theorem page_addr_toNat (h : q < 2 ^ 52) : (page_addr q).toNat = q * 4096 := by
  rw [page_addr, BitVec.toNat_ofNat]
  omega

theorem mem_page_numbers (hq : q ∈ page_numbers a b) : a / 4096 ≤ q ∧ q * 4096 < b := by
  unfold page_numbers at hq
  split at hq
  · rw [Finset.mem_Icc] at hq
    omega
  · exact absurd hq (Finset.notMem_empty q)

theorem untouched_of_le (h : b ≤ a) : untouched m p4 a b = 0 := by
  rw [untouched, page_numbers_of_le h]
  rfl

/-- The count for the first page and for those behind it, where these have not changed. -/
theorem untouched_split (h : a < b) (hb : b ≤ 2 ^ 48) (hva : va.toNat = a)
    (hc : c = min (4096 - a % 4096) (b - a))
    (hsame : ∀ va', a ≤ va'.toNat → va'.toNat < b → page_path va' ≠ page_path va →
      page_word m' p4 va' = page_word m p4 va') :
    untouched m p4 a b =
      (if present (page_word m p4 va) then 0 else 1) + untouched m' p4 (a + c) b := by
  obtain ⟨hsplit, hafter⟩ := page_numbers_split h hc
  have hfirst : page_word m p4 (page_addr (a / 4096)) = page_word m p4 va := by
    refine page_word_of_path (page_path_of_div ?_)
    rw [page_addr_toNat (by omega), hva]
    omega
  have hrest : (page_numbers (a + c) b).filter
      (fun q => present (page_word m p4 (page_addr q)) = false) =
      (page_numbers (a + c) b).filter
        fun q => present (page_word m' p4 (page_addr q)) = false := by
    refine Finset.filter_congr fun q hq => ?_
    have hlt := hafter q hq
    obtain ⟨_, hqb⟩ := mem_page_numbers hq
    have hq52 : q < 2 ^ 52 := by omega
    have hne : page_path (page_addr q) ≠ page_path va := by
      refine page_path_ne_of_div ?_ (by omega) ?_
      · rw [page_addr_toNat hq52]
        omega
      · rw [page_addr_toNat hq52, hva]
        omega
    rw [hsame (page_addr q) (by rw [page_addr_toNat hq52]; omega)
      (by rw [page_addr_toNat hq52]; exact hqb) hne]
  have hnew : a / 4096 ∉ (page_numbers (a + c) b).filter
      fun q => present (page_word m' p4 (page_addr q)) = false := by
    intro hm
    exact lt_irrefl _ (hafter _ (Finset.mem_filter.mp hm).1)
  unfold untouched
  rw [hsplit, Finset.filter_insert, hfirst, hrest]
  rcases present (page_word m p4 va) with _ | _
  · rw [if_pos rfl, Finset.card_insert_of_notMem hnew]
    simp
    omega
  · simp

/-! ## Backing a page -/

/-- Giving a reserved page its frame changes no byte. -/
theorem make_page_present.views (h : Owns T s P) (hva : PML4_INDEX va ∈ T.slots)
    (hlook : lookup s.mem T.root va = some e) :
    ∃ r s' P', make_page_present (some e) va s = (r, s') ∧ Edit T s P s' P' ∧
      (r = true ↔ reserved (page_word s.mem T.root va) = true ∧
        (if present (page_word s.mem T.root va) then 0 else 1) ≤ P.length) ∧
      SameBut T va s.mem s'.mem ∧ lookup s'.mem T.root va = some e ∧
      (∀ off, page_byte (page_view s'.mem T.root va) off =
        page_byte (page_view s.mem T.root va) off) ∧
      (r = true → present (page_word s'.mem T.root va) = true ∧
        P.length = (if present (page_word s.mem T.root va) then 0 else 1) + P'.length) := by
  have hword : page_word s.mem T.root va = s.entry e := page_word_of_lookup hlook
  have hslot := slot_of_lookup hva hlook
  have hrefl : SameBut T va s.mem s.mem := fun _ _ _ => rfl
  rw [hword]
  rcases make_page_present.cases h hslot va with
    ⟨hp, hrun⟩ | ⟨habs, ⟨hd, hrun⟩ | ⟨hd, ⟨rfl, hrun⟩ | hnew⟩⟩
  · refine ⟨true, s, P, hrun, Edit.refl h, ?_, hrefl, hlook, fun _ => rfl, fun _ => ⟨?_, ?_⟩⟩
    · simp [reserved, hp]
    · rw [hword]
      exact hp
    · simp [hp]
  · refine ⟨false, s, P, hrun, Edit.refl h, ?_, hrefl, hlook, fun _ => rfl, by simp⟩
    simp [reserved, hd, habs]
  · refine ⟨false, s, [], hrun, Edit.refl h, ?_, hrefl, hlook, fun _ => rfl, by simp⟩
    simp [habs]
  · obtain ⟨c, P', s', rfl, hrun, hl, hchild⟩ := hnew
    have hct := h.table_ne hslot
    have hedit := hl.edit h hslot (childOf_of_absent habs) hchild fun hbig => by cases hbig
    obtain ⟨hbut, hlook'⟩ := sameBut_of_page h hva hlook hedit.owns.plain (hl.row hct)
      fun f hf hft _ => hl.off f hft (h.notMem_pool hf)
    have hword' : page_word s'.mem T.root va = backed_entry (s.entry e) (frameAddr c) va := by
      rw [page_word_of_lookup hlook', hl.entry]
    refine ⟨true, s', P', hrun, hedit, ?_, hbut, hlook', ?_, fun _ => ⟨?_, ?_⟩⟩
    · simp [reserved, hd, habs]
    · intro off
      have hview : page_view s.mem T.root va = (s.entry e, none) := by
        rw [page_view, hword, childOf_of_absent habs]
        rfl
      have hview' : (page_view s'.mem T.root va).2 = some fun _ => 0 := by
        rw [page_view, hword', hchild, Option.map_some, hl.zero hct]
      unfold page_byte
      rw [hview, hview']
      simp only [frame_byte_zero, hd, if_true]
    · rw [hword']
      exact present_backed_entry _ _ _
    · simp [habs]
      omega

/-- A write to a part of a page with a frame changes these bytes and no others. -/
theorem write_page.views (h : Owns T s P) (hva : PML4_INDEX va ∈ T.slots)
    (hlook : lookup s.mem T.root va = some e) (hp : present (page_word s.mem T.root va) = true)
    (src : Nat → BitVec 8) (off n : Nat) :
    SameBut T va s.mem (write_bytes s.mem (pfn (s.entry e)) off n src) ∧
      page_word (write_bytes s.mem (pfn (s.entry e)) off n src) T.root va =
        page_word s.mem T.root va ∧
      ∀ a < 4096, page_byte (page_view (write_bytes s.mem (pfn (s.entry e)) off n src) T.root va) a =
        if off ≤ a ∧ a < off + n then some (src (a - off))
        else page_byte (page_view s.mem T.root va) a := by
  have hword : page_word s.mem T.root va = s.entry e := page_word_of_lookup hlook
  rw [hword] at hp
  have hslot := slot_of_lookup hva hlook
  have hne := h.table_ne_pfn hslot hp
  have hedit := edit_of_write_bytes h hslot hp off n src
  obtain ⟨hbut, hlook'⟩ := sameBut_of_page h hva hlook hedit.owns.plain
    (fun j _ => by
      simp only [write_bytes]
      rw [Function.update_of_ne hne])
    (fun f _ _ hf => by
      rw [sub_of_page hp, Multiset.mem_singleton] at hf
      exact Function.update_of_ne hf _ _)
  have hword' : page_word (write_bytes s.mem (pfn (s.entry e)) off n src) T.root va = s.entry e := by
    have hsame : write_bytes s.mem (pfn (s.entry e)) off n src e.1 e.2 = s.mem e.1 e.2 := by
      unfold write_bytes
      rw [Function.update_of_ne hne]
    rw [page_word_of_lookup hlook']
    exact hsame
  refine ⟨hbut, by rw [hword', hword], ?_⟩
  intro a ha
  have hchild : childOf (s.entry e) = some (pfn (s.entry e)) := childOf_of_present hp
  unfold page_byte page_view
  simp only [hword', hword, hchild, Option.map_some]
  rw [frame_byte_write s.mem _ src ha]
  split
  · rfl
  · rfl

/-! ## The loop -/

theorem add_toNat {dst : Word} {j : Nat} (h : dst.toNat + j < 2 ^ 64) :
    (dst + BitVec.ofNat 64 j).toNat = dst.toNat + j := by
  rw [BitVec.toNat_add, BitVec.toNat_ofNat]
  omega

/-- What the loop has done to the pages when it ends well: the bytes of the range are those of the
source, and their pages have frames. -/
structure Wrote (T : Tree) (dst : Word) (src : Nat → BitVec 8) (len done : Nat) (m m' : Nat → Frame) :
    Prop where
  present : ∀ j, done ≤ j → j < len →
    present (page_word m' T.root (dst + BitVec.ofNat 64 j)) = true
  bytes : ∀ va : Word, va.toNat < 2 ^ 48 → PML4_INDEX va ∈ T.slots →
    space_byte m' T.root va =
      if dst.toNat + done ≤ va.toNat ∧ va.toNat < dst.toNat + len then
        some (src (va.toNat - dst.toNat))
      else space_byte m T.root va

/-- The pages of the range are reserved and there are enough frames for those without one. -/
structure CanWrite (T : Tree) (dst : Word) (len done : Nat) (m : Nat → Frame) (P : List Nat) : Prop where
  reserved : ∀ j, done ≤ j → j < len →
    reserved (page_word m T.root (dst + BitVec.ofNat 64 j)) = true
  frames : untouched m T.root (dst.toNat + done) (dst.toNat + len) ≤ P.length

/-- Pages without a byte of the range look the same. -/
def SameOutside (T : Tree) (dst : Word) (len done : Nat) (m m' : Nat → Frame) : Prop :=
  ∀ va, PML4_INDEX va ∈ T.slots →
    (∀ j, done ≤ j → j < len → page_path va ≠ page_path (dst + BitVec.ofNat 64 j)) →
    page_view m' T.root va = page_view m T.root va

section

variable {cr3 dst : Word} {src : Nat → BitVec 8} {len done chunk : Nat}

section

variable (hend : dst.toNat + len ≤ 2 ^ 48) (hlt : done < len)
  (hchunk : chunk = min (4096 - (dst.toNat + done) % 4096) (len - done))

include hend hlt hchunk

theorem page_path_of_chunk {j : Nat} (h1 : done ≤ j) (h2 : j < len) :
    page_path (dst + BitVec.ofNat 64 j) = page_path (dst + BitVec.ofNat 64 done) ↔
      j < done + chunk := by
  rw [page_path_eq_iff, add_toNat (by omega), add_toNat (by omega)]
  omega

/-- The first page of the range, when it can be written. -/
theorem write_first_page (h : Owns T s P) (hva : PML4_INDEX (dst + BitVec.ofNat 64 done) ∈ T.slots)
    (hlook : lookup s.mem T.root (dst + BitVec.ofNat 64 done) = some e) (src : Nat → BitVec 8) :
    ∃ r s1 P1, make_page_present (some e) (dst + BitVec.ofNat 64 done) s = (r, s1) ∧
      Edit T s P s1 P1 ∧
      (r = true ↔ reserved (page_word s.mem T.root (dst + BitVec.ofNat 64 done)) = true ∧
        (if present (page_word s.mem T.root (dst + BitVec.ofNat 64 done)) then 0 else 1) ≤ P.length) ∧
      SameBut T (dst + BitVec.ofNat 64 done) s.mem s1.mem ∧
      (r = true → ∀ m2, m2 = write_bytes s1.mem (pfn (s1.entry e)) ((dst.toNat + done) % 4096) chunk
          (fun k => src (done + k)) →
        Edit T s P { s1 with mem := m2 } P1 ∧ SameBut T (dst + BitVec.ofNat 64 done) s.mem m2 ∧
        P.length = (if present (page_word s.mem T.root (dst + BitVec.ofNat 64 done)) then 0 else 1) +
          P1.length ∧
        Wrote T dst src (done + chunk) done s.mem m2) := by
  obtain ⟨r, s1, P1, hrun, hedit1, hcan, hbut1, hlook1, hbytes1, hok⟩ :=
    make_page_present.views h hva hlook
  refine ⟨r, s1, P1, hrun, hedit1, hcan, hbut1, ?_⟩
  intro hr m2 hm2
  obtain ⟨hp1, hcount⟩ := hok hr
  obtain ⟨hbut2, hword2, hbytes2⟩ := write_page.views hedit1.owns hva hlook1 hp1
    (fun k => src (done + k)) ((dst.toNat + done) % 4096) chunk
  have hp1' : present (s1.entry e) = true := by
    rw [page_word_of_lookup hlook1] at hp1
    exact hp1
  have hedit2 := edit_of_write_bytes hedit1.owns (slot_of_lookup hva hlook1) hp1'
    ((dst.toNat + done) % 4096) chunk fun k => src (done + k)
  rw [← hm2] at hbut2 hword2 hbytes2 hedit2
  have hbut : SameBut T (dst + BitVec.ofNat 64 done) s.mem m2 := fun va' hva' hne =>
    (hbut2 va' hva' hne).trans (hbut1 va' hva' hne)
  refine ⟨hedit1.trans hedit2, hbut, hcount, ?_, ?_⟩
  · intro j h1 h2
    rw [page_word_of_path ((page_path_of_chunk hend hlt hchunk h1 (by omega)).mpr h2), hword2]
    exact hp1
  · intro va' h48 hva'
    have hdst : (dst + BitVec.ofNat 64 done).toNat = dst.toNat + done := add_toNat (by omega)
    unfold space_byte
    by_cases hsame : va'.toNat / 4096 = (dst.toNat + done) / 4096
    · have hpath : page_path va' = page_path (dst + BitVec.ofNat 64 done) :=
        page_path_of_div (by rw [hdst]; exact hsame)
      rw [page_view_of_path hpath, page_view_of_path hpath, hbytes2 _ (Nat.mod_lt _ (by decide)),
        hbytes1]
      by_cases hin : dst.toNat + done ≤ va'.toNat ∧ va'.toNat < dst.toNat + (done + chunk)
      · rw [if_pos hin, if_pos (by omega)]
        congr 2
        omega
      · rw [if_neg hin, if_neg (by omega)]
    · rw [hbut va' hva' (page_path_ne_of_div h48 (by omega) (by rw [hdst]; exact hsame)),
        if_neg (by omega)]

/-- The frames that the first page needs, and those that the pages behind it need. -/
theorem untouched_first (hva : ∀ j < len, PML4_INDEX (dst + BitVec.ofNat 64 j) ∈ T.slots)
    (hbut : SameBut T (dst + BitVec.ofNat 64 done) m m') :
    untouched m T.root (dst.toNat + done) (dst.toNat + len) =
      (if present (page_word m T.root (dst + BitVec.ofNat 64 done)) then 0 else 1) +
        untouched m' T.root (dst.toNat + (done + chunk)) (dst.toNat + len) := by
  rw [← Nat.add_assoc]
  refine untouched_split (by omega) hend (add_toNat (by omega)) (by omega) ?_
  intro va' h1 h2 hne
  have heq : va' = dst + BitVec.ofNat 64 (va'.toNat - dst.toNat) := by
    apply BitVec.eq_of_toNat_eq
    rw [add_toNat (by omega)]
    omega
  refine hbut.word ?_ hne
  rw [heq]
  exact hva _ (by omega)

/-- The first page and then the pages behind it can be written. -/
theorem canWrite_iff (hva : ∀ j < len, PML4_INDEX (dst + BitVec.ofNat 64 j) ∈ T.slots)
    (hbut : SameBut T (dst + BitVec.ofNat 64 done) m m')
    (hcount : P.length =
      (if present (page_word m T.root (dst + BitVec.ofNat 64 done)) then 0 else 1) + P'.length)
    (hres : reserved (page_word m T.root (dst + BitVec.ofNat 64 done)) = true) :
    CanWrite T dst len done m P ↔ CanWrite T dst len (done + chunk) m' P' := by
  have hsplit := untouched_first hend hlt hchunk hva hbut
  have hword : ∀ j, done + chunk ≤ j → j < len →
      page_word m' T.root (dst + BitVec.ofNat 64 j) = page_word m T.root (dst + BitVec.ofNat 64 j) := by
    intro j h1 h2
    refine hbut.word (hva j h2) ?_
    rw [ne_eq, page_path_of_chunk hend hlt hchunk (by omega) h2]
    omega
  constructor
  · rintro ⟨hall, hframes⟩
    refine ⟨fun j h1 h2 => ?_, by omega⟩
    rw [hword j h1 h2]
    exact hall j (by omega) h2
  · rintro ⟨hall, hframes⟩
    refine ⟨fun j h1 h2 => ?_, by omega⟩
    by_cases hj : j < done + chunk
    · rw [page_word_of_path ((page_path_of_chunk hend hlt hchunk h1 h2).mpr hj)]
      exact hres
    · rw [← hword j (by omega) h2]
      exact hall j (by omega) h2

/-- A range is written page by page. -/
theorem Wrote.append {m2 : Nat → Frame}
    (hva : ∀ j < len, PML4_INDEX (dst + BitVec.ofNat 64 j) ∈ T.slots)
    (h1 : Wrote T dst src (done + chunk) done m m2) (h2 : Wrote T dst src len (done + chunk) m2 m')
    (hsame : SameOutside T dst len (done + chunk) m2 m') : Wrote T dst src len done m m' := by
  refine ⟨?_, ?_⟩
  · intro j hj1 hj2
    by_cases hj : j < done + chunk
    · have hview := hsame (dst + BitVec.ofNat 64 j) (hva j hj2) fun j' h1' h2' hpath => by
        rw [(page_path_of_chunk hend hlt hchunk hj1 hj2).mpr hj] at hpath
        have := (page_path_of_chunk hend hlt hchunk (by omega) h2').mp hpath.symm
        omega
      have hword : page_word m' T.root (dst + BitVec.ofNat 64 j) =
          page_word m2 T.root (dst + BitVec.ofNat 64 j) := congrArg Prod.fst hview
      rw [hword]
      exact h1.present j hj1 hj
    · exact h2.present j (by omega) hj2
  · intro va h48 hslot
    rw [h2.bytes va h48 hslot, h1.bytes va h48 hslot]
    split_ifs <;> first | rfl | omega

end

/-- The loop ends well exactly when the rest of the range can be written, and then the bytes of the
rest are written and each page without a frame has taken one. It never changes another page. -/
theorem write_user_loop.views (src : Nat → BitVec 8) (hroot : frameOf cr3 = T.root)
    (hend : dst.toNat + len ≤ 2 ^ 48)
    (hva : ∀ j < len, PML4_INDEX (dst + BitVec.ofNat 64 j) ∈ T.slots) (done : Nat)
    (h : Owns T s P) :
    ∃ r s' P', write_user_loop cr3 dst src len done s = (r, s') ∧ Edit T s P s' P' ∧
      (r = true ↔ CanWrite T dst len done s.mem P) ∧ SameOutside T dst len done s.mem s'.mem ∧
      (r = true → Wrote T dst src len done s.mem s'.mem ∧
        P.length = untouched s.mem T.root (dst.toNat + done) (dst.toNat + len) + P'.length) := by
  induction hn : len - done using Nat.strong_induction_on generalizing done s P with
  | _ n ih =>
    unfold write_user_loop
    by_cases hlt : done < len
    swap
    · rw [dif_neg hlt]
      refine ⟨true, s, P, rfl, Edit.refl h, ⟨fun _ => ⟨fun j h1 h2 => by omega, ?_⟩, fun _ => rfl⟩,
        fun _ _ _ => rfl, fun _ => ⟨⟨fun j h1 h2 => by omega, fun va _ _ => ?_⟩, ?_⟩⟩
      · rw [untouched_of_le (by omega)]
        exact Nat.zero_le _
      · rw [if_neg (by omega)]
      · rw [untouched_of_le (by omega), Nat.zero_add]
    have hdst : (dst + BitVec.ofNat 64 done).toNat = dst.toNat + done := add_toNat (by omega)
    have hslot := hva done hlt
    rw [dif_pos hlt]
    simp only [travel_pagetable_in.of_lookup, hroot, hdst]
    rcases hlook : lookup s.mem T.root (dst + BitVec.ofNat 64 done) with _ | e
    · refine ⟨false, s, P, rfl, Edit.refl h, ⟨by simp, fun hc => ?_⟩, fun _ _ _ => rfl, by simp⟩
      have hres := hc.reserved done le_rfl hlt
      rw [page_word_of_none hlook, reserved_zero] at hres
      cases hres
    obtain ⟨chunk, hchunk⟩ : ∃ chunk, chunk =
      min (4096 - (dst.toNat + done) % 4096) (len - done) := ⟨_, rfl⟩
    have hmod : (dst.toNat + done) % 4096 < 4096 := Nat.mod_lt _ (by decide)
    obtain ⟨r1, s1, P1, hrun1, hedit1, hcan1, hbut1, hok1⟩ :=
      write_first_page hend hlt hchunk h hslot hlook src
    simp only [hrun1, ← hchunk]
    cases r1 with
    | false =>
      refine ⟨false, s1, P1, rfl, hedit1, ⟨by simp, fun hc => ?_⟩, ?_, by simp⟩
      · refine absurd (hcan1.mpr ⟨hc.reserved done le_rfl hlt, ?_⟩) (by simp)
        have hframes := hc.frames
        rw [untouched_first hend hlt hchunk hva fun _ _ _ => rfl] at hframes
        omega
      · intro va hva' hne
        exact hbut1 va hva' (hne done le_rfl hlt)
    | true =>
      obtain ⟨hedit2, hbut2, hcount, hwrote⟩ := hok1 rfl _ rfl
      have hres := (hcan1.mp rfl).1
      obtain ⟨r, s', P', hrun, hedit, hcan, hsame, hok⟩ := ih (len - (done + chunk)) (by omega)
        (done + chunk) hedit2.owns rfl
      refine ⟨r, s', P', hrun, hedit2.trans hedit, ?_, ?_, ?_⟩
      · rw [hcan, canWrite_iff hend hlt hchunk hva hbut2 hcount hres]
      · intro va hva' hne
        rw [hsame va hva' fun j h1 h2 => hne j (by omega) h2]
        exact hbut2 va hva' (hne done le_rfl hlt)
      · intro hr
        obtain ⟨hrest, hleft⟩ := hok hr
        refine ⟨hwrote.append hend hlt hchunk hva hrest hsame, ?_⟩
        rw [untouched_first hend hlt hchunk hva hbut2, hcount, Nat.add_assoc]
        exact congrArg _ hleft

end

end

/-! ## The calls -/

/-- The frame of a page is what the word for the page names. -/
theorem page_eq (m : Nat → Frame) (p4 : Nat) (va : Word) :
    page 4 m p4 va = childOf (page_word m p4 va) := by
  have hlevel : ∀ k t, page (k + 1) m t va =
      (nextTable k (m t (table_index (12 + 9 * k) va))).bind fun c => page k m c va := by
    intro k t
    simp only [page, nextTable]
    split
    · rfl
    · rfl
  have hleaf : ∀ w, nextTable 0 w = childOf w := by
    intro w
    simp [nextTable, childOf, leads, hasBig]
  have hend : ∀ t, page 1 m t va = childOf (m t (PT_INDEX va)) := by
    intro t
    rw [hlevel 0, hleaf]
    exact Option.bind_fun_some _
  have hpath : page 4 m p4 va = (lookup m p4 va).bind fun e => childOf (m e.1 e.2) := by
    rw [hlevel 3]
    simp only [hlevel 2, hlevel 1, hend, lookup, lookup_below, Option.bind_eq_bind,
      Option.bind_assoc, Option.bind_some]
    rfl
  rw [hpath]
  rcases hlook : lookup m p4 va with _ | e
  · rw [page_word_of_none hlook]
    rfl
  · rw [page_word_of_lookup hlook]
    rfl

/-- What a call that writes `bytes` to the range has to do. The address space `cr3` is one of
`live`, and `P` are the free frames. -/
structure ExactWrite (s : Machine) (live : List Word) (P : List Nat) (cr3 dst len : Word)
    (bytes : Nat → BitVec 8) (ok : Bool) (s' : Machine) : Prop where
  returns : ok = true ↔ (∀ j < len.toNat, Reserved s cr3 (dst + BitVec.ofNat 64 j)) ∧
    untouched s.mem (frameOf cr3) dst.toNat (dst.toNat + len.toNat) ≤ P.length
  written : ok = true → ∀ j < len.toNat, ∃ f,
    page 4 s'.mem (frameOf cr3) (dst + BitVec.ofNat 64 j) = some f ∧
      frame_byte (s'.mem f) ((dst + BitVec.ofNat 64 j).toNat % 4096) = bytes j
  kept : ok = true → ∀ va : Word, va.toNat < 2 ^ 48 → PML4_INDEX va ∈ userSlots →
    ¬(dst.toNat ≤ va.toNat ∧ va.toNat < dst.toNat + len.toNat) →
    space_byte s'.mem (frameOf cr3) va = space_byte s.mem (frameOf cr3) va
  others : ∀ T ∈ trees s.ptable_p4 live, T ≠ userTree (frameOf cr3) →
    ∀ f ∈ treeFrames s.mem T, s'.mem f = s.mem f

section

variable {s s' : Machine} {live : List Word} {R : Multiset Nat} {P : List Nat} {cr3 dst len : Word}
  {bytes : Nat → BitVec 8} {ok : Bool}

theorem exactWrite_of_loop (h : Sound s live R P) (hcr3 : cr3 ∈ live) (hrange : UserRange dst len)
    (hrun : write_user_loop cr3 dst bytes len.toNat 0 (CLI s) = (ok, s')) :
    ExactWrite s live P cr3 dst len bytes ok (restore_interrupts s.interrupts s') := by
  have hT := userTree_mem s.ptable_p4 hcr3
  have hhigh := hrange.high
  obtain ⟨r, s1, P1, hrun1, hedit, hcan, _, hok⟩ := write_user_loop.views
    (T := userTree (frameOf cr3)) bytes rfl (by omega) hrange.writesIn 0 (h.owns hT).CLI
  rw [hrun] at hrun1
  cases hrun1
  have hmem := restore_interrupts_mem s.interrupts s'
  refine ⟨?_, ?_, ?_, ?_⟩
  · rw [hcan]
    exact ⟨fun hc => ⟨fun j hj => hc.reserved j (Nat.zero_le j) hj, hc.frames⟩,
      fun hc => ⟨fun j _ hj => hc.1 j hj, hc.2⟩⟩
  · intro hr j hj
    have hwrote := (hok hr).1
    have hdst : (dst + BitVec.ofNat 64 j).toNat = dst.toNat + j := add_toNat (by omega)
    have hp := hwrote.present j (Nat.zero_le j) hj
    have hb := hwrote.bytes (dst + BitVec.ofNat 64 j) (by omega) (hrange.writesIn j hj)
    rw [if_pos (by omega), hdst, Nat.add_sub_cancel_left] at hb
    rw [hmem]
    refine ⟨_, (page_eq _ _ _).trans (childOf_of_present hp), ?_⟩
    unfold space_byte page_view at hb
    rw [childOf_of_present hp, Option.map_some, hdst] at hb
    rw [hdst]
    exact Option.some.inj hb
  · intro hr va h48 hva hout
    have hb := (hok hr).1.bytes va h48 hva
    rw [if_neg (by omega)] at hb
    rw [hmem]
    exact hb
  · intro U hU hne f hf
    rw [hmem]
    exact hedit.off f (trees_apart h.grove_nodup hU hT hne.symm hf) (h.tree_notMem_pool hU hf)

end

/-- A copy to a range of user pages of a live address space, or a fill with zeros, succeeds exactly
when the pages of the range are reserved and there are frames for those that have none. Every
byte of the range then reads as written, every other byte of user space as before, and the
kernel and the other address spaces are left alone. -/
theorem user_writes_are_exact (s : Machine) (live : List Word) (R : Multiset Nat) (P : List Nat)
    (cr3 dst len : Word) (src : Nat → BitVec 8) (h : Sound s live R P) (hcr3 : cr3 ∈ live)
    (hrange : UserRange dst len) :
    ExactWrite s live P cr3 dst len src (MMU_copy_to_user_as cr3 dst (some src) len s).1
        (MMU_copy_to_user_as cr3 dst (some src) len s).2 ∧
      ExactWrite s live P cr3 dst len (fun _ => 0) (MMU_zero_user_as cr3 dst len s).1
        (MMU_zero_user_as cr3 dst len s).2 :=
  ⟨exactWrite_of_loop h hcr3 hrange rfl, exactWrite_of_loop h hcr3 hrange rfl⟩

/-- A machine with one address space, in which one page is reserved and not touched. -/
def oneReserved : Machine :=
  (MMU_alloc_at_as 0x20000 VA_USER_BASE 0x1000 (MMU_create_user_p4 booted).2).2

theorem oneReserved_sound :
    ∃ R P, Sound oneReserved [0x20000] R P ∧ P ≠ [] ∧
      ∀ va, page_path va = page_path VA_USER_BASE → Reserved oneReserved 0x20000 va := by
  obtain ⟨cr3, s, R, P, hcreate, ⟨hs, -, -⟩⟩ := MMU_create_user_p4.sound booted_sound
  have hcr3 : (MMU_create_user_p4 booted).1 = 0x20000 := by
    decide +kernel
  rw [hcreate] at hcr3
  have hcr3 : cr3 = 0x20000 := hcr3
  rw [hcr3, if_neg (by decide)] at hs
  have hbase : (MMU_alloc_at_as 0x20000 VA_USER_BASE 0x1000 (MMU_create_user_p4 booted).2).1 ≠ 0 := by
    decide +kernel
  have hmore : (MMU_pf_alloc oneReserved).1 ≠ INVALID_FRAME_ADDR := by
    decide +kernel
  rw [hcreate] at hbase
  obtain ⟨_, _, hafter⟩ := MMU_alloc_at_as.reserves
    (hs.wholeSpace (List.mem_singleton_self _)) VA_USER_BASE 0x1000 hbase
  obtain ⟨r, s', P', hrun, hedit⟩ := MMU_alloc_at_as.spec
    (hs.owns (userTree_mem _ (List.mem_singleton_self _))) rfl
    ((show UserRange VA_USER_BASE 0x1000 by decide).reservesIn.mono fun _ hi => Or.inl hi)
  have hs' := hs.edit_user (List.mem_singleton_self _) hedit
  have hone : oneReserved = s' := by
    unfold oneReserved
    rw [hcreate, hrun]
  rw [hone] at hmore ⊢
  refine ⟨R, P', hs', fun hP => hmore ((MMU_pf_alloc.fails_iff hs'.pool).mpr hP), ?_⟩
  intro va hpath
  rw [hrun] at hafter
  exact (hafter va).mpr (Or.inr ⟨0, by decide, hpath⟩)

/-- Three bytes in the middle of the page. -/
theorem user_writes_are_exact_reserved :
    (MMU_copy_to_user_as 0x20000 0x100000000005 (some fun _ => 7) 3 oneReserved).1 = true := by
  obtain ⟨R, P, hs, hP, hres⟩ := oneReserved_sound
  obtain ⟨hcopy, _⟩ := user_writes_are_exact oneReserved [0x20000] R P 0x20000 0x100000000005 3
    (fun _ => 7) hs (by decide) (by decide)
  refine hcopy.returns.mpr ⟨fun j hj => hres _ ?_, ?_⟩
  · have hj : j < 3 := hj
    interval_cases j <;> decide
  · have hpages : (page_numbers (0x100000000005 : Word).toNat
        ((0x100000000005 : Word).toNat + (3 : Word).toNat)).card = 1 := by
      decide
    exact ((Finset.card_filter_le _ _).trans hpages.le).trans (List.length_pos_iff.mpr hP)

end JamsOs
