-- The laws of the kernel heap. The heap is laid out in spans: one for each free block and one for
-- each allocation with its header. An operation takes a span in hand, writes only there, and puts it
-- to its new use.
import JamsOs.Chain
import JamsOs.FramePool
import JamsOs.Kmalloc
import JamsOs.Spans

namespace JamsOs

open Linked Runs Spans Words

variable {h h' : Heap} {L : PoolId → List Nat} {hand l : List Span} {i j : PoolId} {a : Alloc}
  {s : Span} {b x page num size : Nat} {l' : List Nat} {ok : Bool}

/-! ## The sizes of the pools -/

theorem max_size_cases (i : PoolId) : max_size i = 32 ∨ max_size i = 64 ∨ max_size i = 128 ∨
    max_size i = 512 ∨ max_size i = 1024 ∨ max_size i = 2048 := by
  revert i
  decide

theorem max_size_pos (i : PoolId) : 0 < max_size i := by
  have := max_size_cases i
  omega

theorem best_pool_some {total : Nat} (hp : best_pool total = some i) : total ≤ max_size i := by
  have := List.find?_some hp
  simpa using this

theorem pool_at_pool_ptr (i : PoolId) : pool_at (pool_ptr i) = some i := by
  revert i
  decide

theorem pool_ptr_ne_zero (i : PoolId) : pool_ptr i ≠ 0 := by
  revert i
  decide

/-! ## Memory -/

@[simp] theorem load_store_self (h : Heap) (x : Nat) (v : Word) : (h.store x v).load x = v :=
  Function.update_self _ _ _

theorem load_store_of_ne (v : Word) (hne : b / 8 ≠ x / 8) : (h.store x v).load b = h.load b :=
  Function.update_of_ne hne _ _

@[simp] theorem set_pool_self (h : Heap) (i : PoolId) (pool : KmallocPool) :
    (h.set_pool i pool).pools i = pool := Function.update_self _ _ _

theorem set_pool_of_ne (pool : KmallocPool) (hne : j ≠ i) :
    (h.set_pool i pool).pools j = h.pools j := Function.update_of_ne hne _ _

/-! ## The layout of the heap -/

/-- The span of an allocation, from its header to the end of its block or of its pages. -/
def Alloc.span (a : Alloc) : Span where
  base := a.ptr - sizeof_extra
  len := match best_pool (a.size + sizeof_extra) with
    | some i => max_size i
    | none => pages_for (a.size + sizeof_extra) * 4096

/-- The span of a free block. -/
def block_span (i : PoolId) (b : Nat) : Span := ⟨b, max_size i⟩

def free_spans (L : PoolId → List Nat) : List Span :=
  (List.finRange NUM_POOLS).flatMap fun i => (L i).map (block_span i)

/-- A block of the pool, in one of its pages. -/
def Heap.IsBlock (h : Heap) (i : PoolId) (b : Nat) : Prop := b % max_size i = 0 ∧ b / 4096 ∈ h.pages i

/-- The header of an allocation tells where it came from. -/
structure Header (h : Heap) (a : Alloc) : Prop where
  ptr : sizeof_extra ≤ a.ptr
  size : 0 < a.size ∧ a.size < 2 ^ 32
  small : ∀ i, best_pool (a.size + sizeof_extra) = some i →
    h.load a.span.base = pool_ptr i ∧ h.IsBlock i a.span.base
  large : best_pool (a.size + sizeof_extra) = none →
    h.load a.span.base = 0 ∧ h.load (a.span.base + 8) = BitVec.ofNat 64 a.size ∧
      a.span.base % 4096 = 0

/-- The heap with the free blocks `L`, and some spans in hand that are neither free nor allocated. -/
structure LaidOut (h : Heap) (L : PoolId → List Nat) (hand : List Span) : Prop where
  chain : ∀ i, Chain (BitVec.ofNat 64) 0 h.load (h.pools i).head (L i)
  block : ∀ i, ∀ b ∈ L i, h.IsBlock i b
  live : ∀ a ∈ h.live, Header h a
  layout : Layout (hand ++ (free_spans L ++ h.live.map Alloc.span))
  mapped : ∀ s ∈ hand ++ (free_spans L ++ h.live.map Alloc.span),
    ∀ x, s.Has x → h.reserved (x / 4096)
  bounds : ∀ s ∈ hand ++ (free_spans L ++ h.live.map Alloc.span),
    VA_KHEAP_BASE.toNat ≤ s.base ∧ s.base + s.len ≤ h.kernel_va
  va : h.kernel_va % 4096 = 0 ∧ VA_KHEAP_BASE.toNat ≤ h.kernel_va ∧ h.kernel_va ≤ 2 ^ 48

/-- The counters of the pools, as 32-bit numbers. -/
def Counted (h : Heap) (L : PoolId → List Nat) : Prop :=
  ∀ i, (h.pools i).avail = BitVec.ofNat 32 (L i).length

theorem mem_free_spans : s ∈ free_spans L ↔ ∃ i, ∃ b ∈ L i, s = block_span i b := by
  simp [free_spans, eq_comm]

/-- A block joins the front of a list. -/
theorem free_spans_cons (L : PoolId → List Nat) (i : PoolId) (b : Nat) (l : List Nat) :
    (free_spans (Function.update L i (b :: l))).Perm
      (block_span i b :: free_spans (Function.update L i l)) := by
  have hsplit : (List.finRange NUM_POOLS).Perm (i :: (List.finRange NUM_POOLS).erase i) :=
    List.perm_cons_erase (List.mem_finRange i)
  have hrest : ∀ l', ((List.finRange NUM_POOLS).erase i).flatMap
      (fun j => (Function.update L i l' j).map (block_span j)) =
      ((List.finRange NUM_POOLS).erase i).flatMap fun j => (L j).map (block_span j) := by
    intro l'
    refine List.flatMap_congr fun j hj => ?_
    have hne : j ≠ i := ((List.nodup_finRange NUM_POOLS).mem_erase_iff.mp hj).1
    rw [Function.update_of_ne hne]
  have hperm : ∀ l', (free_spans (Function.update L i l')).Perm
      (l'.map (block_span i) ++
        ((List.finRange NUM_POOLS).erase i).flatMap fun j => (L j).map (block_span j)) := by
    intro l'
    refine (hsplit.flatMap_right _).trans ?_
    rw [List.flatMap_cons, Function.update_self, hrest]
  exact (hperm (b :: l)).trans ((hperm l).symm.cons _)

/-- Another use of the same spans. -/
theorem LaidOut.spans_perm {hand' : List Span} {L' : PoolId → List Nat} {live' : List Alloc}
    (hl : LaidOut h L hand)
    (hp : (hand ++ (free_spans L ++ h.live.map Alloc.span)).Perm
      (hand' ++ (free_spans L' ++ live'.map Alloc.span))) :
    Layout (hand' ++ (free_spans L' ++ live'.map Alloc.span)) ∧
    (∀ s ∈ hand' ++ (free_spans L' ++ live'.map Alloc.span), ∀ x, s.Has x → h.reserved (x / 4096)) ∧
    ∀ s ∈ hand' ++ (free_spans L' ++ live'.map Alloc.span),
      VA_KHEAP_BASE.toNat ≤ s.base ∧ s.base + s.len ≤ h.kernel_va :=
  ⟨hl.layout.perm hp, fun s hs => hl.mapped s (hp.mem_iff.mpr hs),
    fun s hs => hl.bounds s (hp.mem_iff.mpr hs)⟩

theorem block_mod_eight (hb : h.IsBlock i b) : b % 8 = 0 := by
  have h1 := hb.1
  rcases max_size_cases i with h2 | h2 | h2 | h2 | h2 | h2 <;> rw [h2] at h1 <;> omega

theorem Header.base_mod (hh : Header h a) : a.span.base % 32 = 0 := by
  cases hp : best_pool (a.size + sizeof_extra) with
  | some i =>
    have h1 := (hh.small i hp).2.1
    rcases max_size_cases i with h2 | h2 | h2 | h2 | h2 | h2 <;> rw [h2] at h1 <;> omega
  | none =>
    have := (hh.large hp).2.2
    omega

theorem Header.congr (hh : Header h a) (hmem : h'.mem = h.mem)
    (hpages : ∀ i, h.pages i ⊆ h'.pages i) : Header h' a := by
  have hload : h'.load = h.load := by
    unfold Heap.load
    rw [hmem]
  refine { hh with small := fun i hp => ?_, large := fun hp => ?_ }
  · obtain ⟨h1, h2, h3⟩ := hh.small i hp
    exact ⟨hload ▸ h1, h2, hpages i h3⟩
  · rw [hload]
    exact hh.large hp

theorem Alloc.size_le_span (a : Alloc) : a.size + sizeof_extra ≤ a.span.len := by
  unfold Alloc.span
  cases hp : best_pool (a.size + sizeof_extra) with
  | some i => exact best_pool_some hp
  | none =>
    unfold pages_for
    simp only
    omega

/-- Only the links of the free blocks and the headers of the allocations count. -/
theorem LaidOut.of_loads (hl : LaidOut h L hand) {mem : Nat → Word}
    (hfree : ∀ i, ∀ b ∈ L i, mem (b / 8) = h.load b)
    (hlive : ∀ a ∈ h.live, mem (a.span.base / 8) = h.load a.span.base ∧
      mem ((a.span.base + 8) / 8) = h.load (a.span.base + 8)) :
    LaidOut { h with mem := mem } L hand := by
  refine { hl with
    chain := fun i => (hl.chain i).congr fun b hb => hfree i b hb
    live := fun a ha => { hl.live a ha with small := fun i hp => ?_, large := fun hp => ?_ } }
  · obtain ⟨hload, hblock⟩ := (hl.live a ha).small i hp
    exact ⟨(hlive a ha).1.trans hload, hblock⟩
  · obtain ⟨h0, hsize, hmod⟩ := (hl.live a ha).large hp
    exact ⟨(hlive a ha).1.trans h0, (hlive a ha).2.trans hsize, hmod⟩

/-- A write into a span in hand. -/
theorem LaidOut.store (hl : LaidOut h L (s :: hand)) (hx : s.Has x) (v : Word) :
    LaidOut (h.store x v) L (s :: hand) := by
  have hother := (layout_cons.mp hl.layout).1
  have hne : ∀ t ∈ hand ++ (free_spans L ++ h.live.map Alloc.span), ∀ y, y % 8 = 0 → t.base ≤ y →
      y + 8 ≤ t.base + t.len → y / 8 ≠ x / 8 := by
    intro t ht y hy h1 h2 he
    exact hother t ht x hx ⟨by omega, by omega⟩
  refine hl.of_loads (fun i b hb => ?_) fun a ha => ?_
  · refine load_store_of_ne v (hne (block_span i b) ?_ b (block_mod_eight (hl.block i b hb))
      le_rfl ?_)
    · exact List.mem_append_right _ (List.mem_append_left _ (mem_free_spans.mpr ⟨i, b, hb, rfl⟩))
    · have := max_size_cases i
      simp only [block_span]
      omega
  · have hbase := (hl.live a ha).base_mod
    have hsize := a.size_le_span
    unfold sizeof_extra at hsize
    have hmem : a.span ∈ hand ++ (free_spans L ++ h.live.map Alloc.span) :=
      List.mem_append_right _ (List.mem_append_right _ (List.mem_map_of_mem ha))
    exact ⟨load_store_of_ne v (hne _ hmem _ (by omega) le_rfl (by omega)),
      load_store_of_ne v (hne _ hmem _ (by omega) (by omega) (by omega))⟩

/-- A span in hand is forgotten. -/
theorem LaidOut.drop (hl : LaidOut h L (s :: hand)) : LaidOut h L hand :=
  { hl with
    layout := (layout_cons.mp hl.layout).2
    mapped := fun t ht => hl.mapped t (List.mem_cons_of_mem _ ht)
    bounds := fun t ht => hl.bounds t (List.mem_cons_of_mem _ ht) }

/-- A span in hand is cut. -/
theorem LaidOut.cut (hl : LaidOut h L (s :: hand)) (hlayout : Layout l)
    (hin : ∀ t ∈ l, t.Within s ∧ s.base ≤ t.base ∧ t.base + t.len ≤ s.base + s.len) :
    LaidOut h L (l ++ hand) := by
  have hs := List.mem_cons_self (a := s) (l := hand ++ (free_spans L ++ h.live.map Alloc.span))
  refine { hl with
    layout := ?_
    mapped := fun t ht => ?_
    bounds := fun t ht => ?_ }
  · rw [List.append_assoc]
    exact hl.layout.cut hlayout fun t ht => (hin t ht).1
  · rw [List.append_assoc] at ht
    rcases List.mem_append.mp ht with ht | ht
    · exact fun x hx => hl.mapped s hs x ((hin t ht).1 x hx)
    · exact hl.mapped t (List.mem_cons_of_mem _ ht)
  · rw [List.append_assoc] at ht
    rcases List.mem_append.mp ht with ht | ht
    · have := hl.bounds s hs
      have := (hin t ht).2
      omega
    · exact hl.bounds t (List.mem_cons_of_mem _ ht)

theorem push_perm (L : PoolId → List Nat) (i : PoolId) (b : Nat) (hand l : List Span) :
    (block_span i b :: (hand ++ (free_spans L ++ l))).Perm
      (hand ++ (free_spans (Function.update L i (b :: L i)) ++ l)) := by
  have hcons := free_spans_cons L i b (L i)
  rw [Function.update_eq_self] at hcons
  exact List.perm_middle.symm.trans ((hcons.append_right l).symm.append_left hand)

/-- A block in hand goes to the front of the list of its pool. -/
theorem LaidOut.push (hl : LaidOut h L (block_span i b :: hand)) (hb : h.IsBlock i b)
    (avail : BitVec 32) :
    LaidOut ((h.store b (h.pools i).head).set_pool i ⟨avail, BitVec.ofNat 64 b⟩)
      (Function.update L i (b :: L i)) hand := by
  have hst := hl.store ⟨le_rfl, Nat.lt_add_of_pos_right (max_size_pos i)⟩ (h.pools i).head
  obtain ⟨hlayout, hmapped, hbounds⟩ := hst.spans_perm (push_perm L i b hand _)
  refine ⟨fun j => ?_, fun j c hc => ?_, fun a ha => (hst.live a ha).congr rfl fun _ _ hp => hp,
    hlayout, hmapped, hbounds, hst.va⟩
  · by_cases hj : j = i
    · subst hj
      rw [set_pool_self, Function.update_self, chain_cons_iff]
      refine ⟨rfl, ?_⟩
      have hnext : ((h.store b (h.pools j).head).set_pool j ⟨avail, BitVec.ofNat 64 b⟩).load b =
          (h.pools j).head := load_store_self h b _
      rw [hnext]
      exact hst.chain j
    · rw [set_pool_of_ne _ hj, Function.update_of_ne hj]
      exact hst.chain j
  · by_cases hj : j = i
    · subst hj
      rw [Function.update_self] at hc
      rcases List.mem_cons.mp hc with rfl | hc
      · exact hb
      · exact hl.block j c hc
    · rw [Function.update_of_ne hj] at hc
      exact hl.block j c hc

theorem LaidOut.block_lt (hl : LaidOut h L hand) (hb : b ∈ L i) :
    VA_KHEAP_BASE.toNat ≤ b ∧ b + max_size i ≤ h.kernel_va :=
  hl.bounds (block_span i b)
    (List.mem_append_right _ (List.mem_append_left _ (mem_free_spans.mpr ⟨i, b, hb, rfl⟩)))

/-- The first block of a list comes in hand. -/
theorem LaidOut.take (hl : LaidOut h L hand) (hL : L i = b :: l') :
    take_block i h = (b, h.set_pool i ⟨(h.pools i).avail - 1, h.load b⟩) ∧
      LaidOut (take_block i h).2 (Function.update L i l') (block_span i b :: hand) := by
  have hb : b ∈ L i := by
    rw [hL]
    exact List.mem_cons_self
  have hchain := hl.chain i
  rw [hL, chain_cons_iff] at hchain
  have hhead : (h.pools i).head.toNat = b := by
    have h1 := (hl.block_lt hb).2
    have h2 := hl.va.2.2
    rw [hchain.1, BitVec.toNat_ofNat]
    exact Nat.mod_eq_of_lt (by omega)
  have htake : take_block i h = (b, h.set_pool i ⟨(h.pools i).avail - 1, h.load b⟩) := by
    unfold take_block
    rw [hhead]
  have hperm : (hand ++ (free_spans L ++ h.live.map Alloc.span)).Perm
      (block_span i b :: hand ++ (free_spans (Function.update L i l') ++ h.live.map Alloc.span)) := by
    have hpush := push_perm (Function.update L i l') i b hand (h.live.map Alloc.span)
    rw [Function.update_self, Function.update_idem, ← hL, Function.update_eq_self] at hpush
    exact hpush.symm
  obtain ⟨hlayout, hmapped, hbounds⟩ := hl.spans_perm hperm
  refine ⟨htake, ?_⟩
  rw [htake]
  refine ⟨fun j => ?_, fun j c hc => ?_, fun a ha => (hl.live a ha).congr rfl fun _ _ hp => hp,
    hlayout, hmapped, hbounds, hl.va⟩
  · by_cases hj : j = i
    · subst hj
      rw [set_pool_self, Function.update_self]
      exact hchain.2
    · rw [set_pool_of_ne _ hj, Function.update_of_ne hj]
      exact hl.chain j
  · by_cases hj : j = i
    · subst hj
      rw [Function.update_self] at hc
      exact hl.block j c (hL ▸ List.mem_cons_of_mem _ hc)
    · rw [Function.update_of_ne hj] at hc
      exact hl.block j c hc

/-- New pages come in hand. -/
theorem LaidOut.alloc_pages (hl : LaidOut h L hand) (num : Nat) (ok : Bool) :
    h.alloc_pages num ok = (0, h) ∧ ¬(ok ∧ h.kernel_va + num * 4096 ≤ 2 ^ 48) ∨
    ∃ reserved, h.alloc_pages num ok = (h.kernel_va,
        { h with reserved := reserved, kernel_va := h.kernel_va + num * 4096 }) ∧
      LaidOut { h with reserved := reserved, kernel_va := h.kernel_va + num * 4096 } L
        (⟨h.kernel_va, num * 4096⟩ :: hand) := by
  have hva := hl.va
  unfold Heap.alloc_pages
  split
  · rename_i hroom
    refine Or.inr ⟨_, rfl, hl.chain, hl.block,
      fun a ha => (hl.live a ha).congr rfl fun _ _ hp => hp, ?_, fun s hs x hx => ?_,
      fun s hs => ?_, ?_⟩
    · refine layout_cons.mpr ⟨fun t ht => Span.Apart.symm (apart_of_le ?_), hl.layout⟩
      exact (hl.bounds t ht).2
    · rcases List.mem_cons.mp hs with rfl | hs
      · unfold Span.Has at hx
        simp only [Bool.or_eq_true, decide_eq_true_eq]
        right
        simp only at hx
        omega
      · simp only [Bool.or_eq_true]
        exact Or.inl (hl.mapped s hs x hx)
    · rcases List.mem_cons.mp hs with rfl | hs
      · exact ⟨hva.2.1, le_rfl⟩
      · have := hl.bounds s hs
        simp only
        omega
    · simp only
      omega
  · rename_i hroom
    exact Or.inl ⟨rfl, hroom⟩

theorem allot_perm (s : Span) (hand l l' : List Span) :
    (s :: hand ++ (l ++ l')).Perm (hand ++ (l ++ s :: l')) := by
  have hmiddle : (hand ++ l ++ s :: l').Perm (s :: (hand ++ l ++ l')) := List.perm_middle
  rw [List.append_assoc, List.append_assoc] at hmiddle
  exact hmiddle.symm

/-- A span in hand with a header becomes an allocation. -/
theorem LaidOut.allot (hl : LaidOut h L (a.span :: hand)) (ha : Header h a) :
    LaidOut { h with live := a :: h.live } L hand := by
  have hperm : (a.span :: hand ++ (free_spans L ++ h.live.map Alloc.span)).Perm
      (hand ++ (free_spans L ++ (a :: h.live).map Alloc.span)) := allot_perm _ _ _ _
  obtain ⟨hlayout, hmapped, hbounds⟩ := hl.spans_perm hperm
  refine ⟨hl.chain, hl.block, fun a' ha' => ?_, hlayout, hmapped, hbounds, hl.va⟩
  refine Header.congr (h := h) ?_ rfl fun _ _ hp => hp
  rcases List.mem_cons.mp ha' with rfl | ha'
  · exact ha
  · exact hl.live a' ha'

/-- An allocation comes in hand. -/
theorem LaidOut.reclaim (hl : LaidOut h L hand) (ha : a ∈ h.live) :
    LaidOut { h with live := h.live.erase a } L (a.span :: hand) := by
  have hlive : (h.live.map Alloc.span).Perm (a.span :: (h.live.erase a).map Alloc.span) := by
    rw [← List.map_cons]
    exact (List.perm_cons_erase ha).map _
  have hperm : (hand ++ (free_spans L ++ h.live.map Alloc.span)).Perm
      (a.span :: hand ++ (free_spans L ++ (h.live.erase a).map Alloc.span)) := by
    exact ((hlive.append_left _).append_left hand).trans (allot_perm a.span hand _ _).symm
  obtain ⟨hlayout, hmapped, hbounds⟩ := hl.spans_perm hperm
  refine ⟨hl.chain, hl.block, fun a' ha' => ?_, hlayout, hmapped, hbounds, hl.va⟩
  exact (hl.live a' (List.mem_of_mem_erase ha')).congr rfl fun _ _ hp => hp

/-- The order of the allocations does not matter. -/
theorem LaidOut.live_perm {live : List Alloc} (hl : LaidOut h L hand) (hp : h.live.Perm live) :
    LaidOut { h with live := live } L hand := by
  obtain ⟨hlayout, hmapped, hbounds⟩ :=
    hl.spans_perm (((hp.map Alloc.span).append_left _).append_left hand)
  refine ⟨hl.chain, hl.block, fun a ha => ?_, hlayout, hmapped, hbounds, hl.va⟩
  exact (hl.live a (hp.mem_iff.mpr ha)).congr rfl fun _ _ hp => hp

/-- Whole pages in hand are given back. -/
theorem LaidOut.free_pages (hl : LaidOut h L (⟨b, num * 4096⟩ :: hand)) (hb : b % 4096 = 0) :
    LaidOut (h.free_pages b num) L hand := by
  have hdrop := hl.drop
  refine { hdrop with
    live := fun a ha => (hl.live a ha).congr rfl fun _ _ hp => hp
    mapped := fun s hs x hx => ?_ }
  have hapart := (layout_cons.mp hl.layout).1 s hs
  have hout : ¬(b / 4096 ≤ x / 4096 ∧ x / 4096 < b / 4096 + num) := by
    intro hin
    refine hapart x ?_ hx
    unfold Span.Has
    simp only
    omega
  unfold Heap.free_pages
  simp only [Bool.and_eq_true, Bool.not_eq_true', decide_eq_false_iff_not]
  exact ⟨hdrop.mapped s hs x hx, hout⟩

/-! ## The pools grow -/

/-- The address of block `k` of a page. -/
def block_addr (i : PoolId) (page k : Nat) : Nat := page + k * max_size i

/-- Blocks in hand are linked one after another. -/
theorem LaidOut.link_blocks {ks : List Nat}
    (hl : LaidOut h L (ks.map (fun k => block_span i (block_addr i page k)) ++ hand))
    (hb : ∀ k ∈ ks, h.IsBlock i (block_addr i page k)) :
    LaidOut (ks.foldl (link_block i page) h)
      (Function.update L i ((ks.map (block_addr i page)).reverse ++ L i)) hand := by
  induction ks generalizing h L with
  | nil =>
    simp only [List.map_nil, List.reverse_nil, List.nil_append, Function.update_eq_self]
    exact hl
  | cons k ks ih =>
    have hpush := hl.push (hb k List.mem_cons_self) (h.pools i).avail
    have hrest := ih hpush fun k' hk' => hb k' (List.mem_cons_of_mem _ hk')
    rw [Function.update_self, Function.update_idem] at hrest
    simp only [List.map_cons, List.reverse_cons, List.append_assoc, List.singleton_append]
    exact hrest

/-- Linking blocks changes the memory and the head of the pool. -/
theorem link_blocks_frame (i : PoolId) (page : Nat) (ks : List Nat) (h : Heap) :
    ∃ mem head, ks.foldl (link_block i page) h =
      { h with mem := mem, pools := Function.update h.pools i ⟨(h.pools i).avail, head⟩ } := by
  induction ks generalizing h with
  | nil => exact ⟨h.mem, (h.pools i).head, by rw [Function.update_eq_self]; rfl⟩
  | cons k ks ih =>
    obtain ⟨mem, head, he⟩ := ih (link_block i page h k)
    refine ⟨mem, head, he.trans ?_⟩
    simp only [link_block, Heap.set_pool, Heap.store, Function.update_self, Function.update_idem]

theorem block_addr_isBlock (hpage : page % 4096 = 0) (hin : page / 4096 ∈ h.pages i)
    {k : Nat} (hk : k < 4096 / max_size i) : h.IsBlock i (block_addr i page k) := by
  have hdiv : block_addr i page k / 4096 = page / 4096 := by
    unfold block_addr
    rcases max_size_cases i with h2 | h2 | h2 | h2 | h2 | h2 <;> rw [h2] at hk ⊢ <;> omega
  refine ⟨?_, hdiv ▸ hin⟩
  unfold block_addr
  rcases max_size_cases i with h2 | h2 | h2 | h2 | h2 | h2 <;> rw [h2] <;> omega

/-- A pool gets one more page. -/
theorem LaidOut.add_page (hl : LaidOut h L hand) (i : PoolId) (p : Nat) :
    LaidOut { h with pages := Function.update h.pages i (p :: h.pages i) } L hand := by
  have hsub : ∀ j, h.pages j ⊆ Function.update h.pages i (p :: h.pages i) j := by
    intro j q hq
    by_cases hj : j = i
    · subst hj
      rw [Function.update_self]
      exact List.mem_cons_of_mem _ hq
    · rwa [Function.update_of_ne hj]
  exact { hl with
    block := fun j b hb => ⟨(hl.block j b hb).1, hsub j (hl.block j b hb).2⟩
    live := fun a ha => (hl.live a ha).congr rfl hsub }

/-- The counters play no part in the layout. -/
theorem LaidOut.set_avail (hl : LaidOut h L hand) (i : PoolId) (avail : BitVec 32) :
    LaidOut (h.set_pool i { h.pools i with avail := avail }) L hand := by
  refine { hl with
    chain := fun j => ?_
    live := fun a ha => (hl.live a ha).congr rfl fun _ _ hp => hp }
  by_cases hj : j = i
  · subst hj
    rw [set_pool_self]
    exact hl.chain j
  · rw [set_pool_of_ne _ hj]
    exact hl.chain j

/-- A page in hand becomes blocks of the pool. -/
theorem LaidOut.link_page (hl : LaidOut h L (⟨page, 4096⟩ :: hand)) (hpage : page % 4096 = 0)
    (hin : page / 4096 ∈ h.pages i) :
    LaidOut ((List.range (4096 / max_size i)).foldl (link_block i page) h)
      (Function.update L i
        (((List.range (4096 / max_size i)).map (block_addr i page)).reverse ++ L i)) hand := by
  have hsize : 4096 / max_size i * max_size i = 4096 := by
    rcases max_size_cases i with h2 | h2 | h2 | h2 | h2 | h2 <;> rw [h2]
  refine LaidOut.link_blocks ?_ fun k hk => block_addr_isBlock hpage hin (List.mem_range.mp hk)
  refine hl.cut layout_blocks fun t ht => ?_
  obtain ⟨k, hk, rfl⟩ := List.mem_map.mp ht
  rw [List.mem_range] at hk
  have hle : (k + 1) * max_size i ≤ 4096 / max_size i * max_size i := Nat.mul_le_mul_right _ hk
  have hbounds : page + k * max_size i + max_size i ≤ page + 4096 := by linarith
  exact ⟨within_of_bounds (Nat.le_add_right _ _) hbounds, Nat.le_add_right _ _, hbounds⟩

/-- The pool gets the blocks of a new page, or stays as it is. -/
theorem expand_pool.spec (hl : LaidOut h L []) (hc : Counted h L) (i : PoolId) (ok : Bool) :
    expand_pool i ok h = h ∧ ¬(ok ∧ h.kernel_va + 4096 ≤ 2 ^ 48) ∨
    ∃ bs, bs.length = 4096 / max_size i ∧
      LaidOut (expand_pool i ok h) (Function.update L i (bs ++ L i)) [] ∧
      Counted (expand_pool i ok h) (Function.update L i (bs ++ L i)) ∧
      (expand_pool i ok h).live = h.live ∧
      (expand_pool i ok h).kernel_va = h.kernel_va + 4096 := by
  have hva := hl.va
  have hpos : VA_KHEAP_BASE.toNat ≠ 0 := by decide
  unfold expand_pool Heap.alloc_page
  rcases hl.alloc_pages 1 ok with ⟨hfail, hroom⟩ | ⟨reserved, hpages, hnew⟩
  · left
    rw [hfail]
    exact ⟨rfl, hroom⟩
  · right
    rw [hpages]
    simp only
    rw [if_neg (by omega)]
    have hpage := (hnew.add_page i (h.kernel_va / 4096)).link_page (i := i) hva.1 (by simp)
    obtain ⟨mem, head, hframe⟩ := link_blocks_frame i h.kernel_va (List.range (4096 / max_size i))
      { h with
        reserved := reserved
        kernel_va := h.kernel_va + 1 * 4096
        pages := Function.update h.pages i (h.kernel_va / 4096 :: h.pages i) }
    rw [hframe] at hpage ⊢
    refine ⟨_, by simp, hpage.set_avail i _, fun j => ?_, rfl, rfl⟩
    by_cases hj : j = i
    · subst hj
      simp only [set_pool_self, Function.update_self, List.length_append, hc j, List.length_reverse,
        List.length_map, List.length_range]
      rw [Nat.add_comm, BitVec.ofNat_add]
    · simp only [set_pool_of_ne _ hj, Function.update_of_ne hj]
      exact hc j

/-! ## Allocating and freeing -/

theorem LaidOut.set_interrupts (hl : LaidOut h L hand) (interrupts : Bool) :
    LaidOut { h with interrupts := interrupts } L hand :=
  { hl with live := fun a ha => (hl.live a ha).congr rfl fun _ _ hp => hp }

/-- The header of a span in hand is written, and the span is an allocation. -/
theorem kmalloc_block.spec (pool : Word) (ints : Bool) (hl : LaidOut h L (a.span :: hand))
    (hptr : a.ptr = b + sizeof_extra) (hb : b % 32 = 0) (hsize : 0 < a.size ∧ a.size < 2 ^ 32)
    (hsmall : ∀ i, best_pool (a.size + sizeof_extra) = some i → pool = pool_ptr i ∧ h.IsBlock i b)
    (hlarge : best_pool (a.size + sizeof_extra) = none → pool = 0 ∧ b % 4096 = 0) :
    (kmalloc_block b pool a.size ints h).1 = a.ptr ∧
      LaidOut { (kmalloc_block b pool a.size ints h).2 with live := a :: h.live } L hand := by
  have hbase : a.span.base = b := by
    simp only [Alloc.span, hptr, Nat.add_sub_cancel]
  have hlen := a.size_le_span
  unfold sizeof_extra at hlen
  have hpool : LaidOut (h.store b pool) L (a.span :: hand) := hl.store ⟨hbase.le, by omega⟩ pool
  have hst : LaidOut ((h.store b pool).store (b + 8) (BitVec.ofNat 64 a.size)) L (a.span :: hand) :=
    hpool.store ⟨by omega, by omega⟩ _
  refine ⟨hptr.symm, (hst.allot ⟨?_, hsize, fun i hp => ?_, fun hp => ?_⟩).set_interrupts _⟩
  · rw [hptr]
    exact Nat.le_add_left _ _
  · rw [hbase, load_store_of_ne _ (by omega), load_store_self]
    exact ⟨(hsmall i hp).1, (hsmall i hp).2⟩
  · rw [hbase, load_store_of_ne (b := b) _ (by omega), load_store_self, load_store_self]
    exact ⟨(hlarge hp).1, rfl, (hlarge hp).2⟩

/-- The pool has a block, after it has grown where it had to. -/
theorem block_or_full (hl : LaidOut h L []) (hc : Counted h L) (i : PoolId) (ok : Bool) :
    let h1 := if (h.pools i).avail = 0 then expand_pool i ok h else h
    (h1.pools i).avail = 0 ∧ h1 = h ∧ ¬(ok ∧ h.kernel_va + 4096 ≤ 2 ^ 48) ∨
    (h1.pools i).avail ≠ 0 ∧ h1.live = h.live ∧ h1.kernel_va ≤ h.kernel_va + 4096 ∧
      ∃ L1 b l', LaidOut h1 L1 [] ∧ Counted h1 L1 ∧ L1 i = b :: l' ∧
        ((L1 i).length = (L i).length ∨
          (h.pools i).avail = 0 ∧ (L1 i).length = 4096 / max_size i + (L i).length) := by
  simp only
  by_cases h0 : (h.pools i).avail = 0
  · rw [if_pos h0]
    rcases expand_pool.spec hl hc i ok with ⟨hsame, hroom⟩ | ⟨bs, hlen, hl1, hc1, hlive, hva⟩
    · rw [hsame]
      exact Or.inl ⟨h0, rfl, hroom⟩
    · have hpos : 0 < bs.length ∧ bs.length < 2 ^ 32 := by
        rw [hlen]
        rcases max_size_cases i with h2 | h2 | h2 | h2 | h2 | h2 <;> rw [h2] <;> decide
      have hL1 : Function.update L i (bs ++ L i) i = bs ++ L i := Function.update_self _ _ _
      have hlen1 : (Function.update L i (bs ++ L i) i).length = 4096 / max_size i + (L i).length := by
        rw [hL1, List.length_append, hlen]
      obtain ⟨b, bs, rfl⟩ := List.exists_cons_of_length_pos hpos.1
      refine Or.inr ⟨?_, hlive, hva.le, _, b, bs ++ L i, hl1, hc1, hL1, Or.inr ⟨h0, hlen1⟩⟩
      rw [hc1 i, Function.update_self, List.length_append, BitVec.ofNat_add, ← hc i, h0]
      intro he
      have hzero := congrArg BitVec.toNat he
      rw [BitVec.toNat_add, BitVec.toNat_ofNat, Nat.mod_eq_of_lt hpos.2] at hzero
      simp only [BitVec.ofNat_eq_ofNat, BitVec.toNat_ofNat] at hzero
      omega
  · rw [if_neg h0]
    refine Or.inr ⟨h0, rfl, by omega, ?_⟩
    cases hL : L i with
    | nil =>
      rw [hc i, hL] at h0
      exact absurd rfl h0
    | cons b l' => exact ⟨L, b, l', hl, hc, hL, Or.inl (by rw [hL])⟩

/-- A block of a pool is taken and becomes an allocation. -/
theorem take_block.spec (ints : Bool) (hl : LaidOut h L []) (hc : Counted h L) (hL : L i = b :: l')
    (hsize : 0 < size ∧ size < 2 ^ 32) (hp : best_pool (size + sizeof_extra) = some i) :
    let r := kmalloc_block (take_block i h).1 (pool_ptr i) size ints (take_block i h).2
    r.1 = b + sizeof_extra ∧ Counted r.2 (Function.update L i l') ∧ r.2.live = h.live ∧
      LaidOut { r.2 with live := ⟨b + sizeof_extra, size⟩ :: h.live } (Function.update L i l') [] := by
  obtain ⟨htake, hhand⟩ := hl.take hL
  have hblock : h.IsBlock i b := hl.block i b (by rw [hL]; exact List.mem_cons_self)
  have hb : b % 32 = 0 := by
    have h1 := hblock.1
    rcases max_size_cases i with h2 | h2 | h2 | h2 | h2 | h2 <;> rw [h2] at h1 <;> omega
  have hspan : Alloc.span ⟨b + sizeof_extra, size⟩ = block_span i b := by
    simp only [Alloc.span, block_span, hp, Nat.add_sub_cancel]
  rw [htake] at hhand ⊢
  rw [← hspan] at hhand
  refine ⟨rfl, fun j => ?_, rfl, (kmalloc_block.spec (pool_ptr i) ints hhand rfl hb hsize
    (fun j hj => ?_) fun hn => ?_).2⟩
  · have hpools : (kmalloc_block b (pool_ptr i) size ints
        (h.set_pool i ⟨(h.pools i).avail - 1, h.load b⟩)).2.pools =
        (h.set_pool i ⟨(h.pools i).avail - 1, h.load b⟩).pools := rfl
    rw [hpools]
    by_cases hj : j = i
    · subst hj
      rw [set_pool_self, Function.update_self, hc j, hL, List.length_cons, BitVec.ofNat_add]
      exact BitVec.add_sub_cancel _ _
    · rw [set_pool_of_ne _ hj, Function.update_of_ne hj]
      exact hc j
  · obtain rfl : i = j := Option.some.inj (hp.symm.trans hj)
    exact ⟨rfl, hblock⟩
  · rw [hp] at hn
    cases hn

/-- An allocation from a pool takes a free block, or fails for want of a page. -/
theorem kmalloc.spec_small (hl : LaidOut h L []) (hc : Counted h L)
    (hsize : 0 < size ∧ size < 2 ^ 32) (hp : best_pool (size + sizeof_extra) = some i) (ok : Bool) :
    kmalloc size ok h = (0, { h with interrupts := false }) ∧
      ¬(ok ∧ h.kernel_va + 4096 ≤ 2 ^ 48) ∨
    (kmalloc size ok h).1 ≠ 0 ∧ (kmalloc size ok h).2.live = h.live ∧
      (kmalloc size ok h).2.kernel_va ≤ h.kernel_va + 4096 ∧ ∃ L',
        Counted (kmalloc size ok h).2 L' ∧
        LaidOut { (kmalloc size ok h).2 with
          live := ⟨(kmalloc size ok h).1, size⟩ :: h.live } L' [] ∧
        ((L' i).length + 1 = (L i).length ∨
          (h.pools i).avail = 0 ∧ (L' i).length + 1 = 4096 / max_size i + (L i).length) := by
  have hoff := hl.set_interrupts false
  have hcoff : Counted { h with interrupts := false } L := hc
  unfold kmalloc
  rw [if_neg (by omega)]
  simp only [hp]
  rcases block_or_full hoff hcoff i ok with ⟨h0, hsame, hroom⟩ |
    ⟨h0, hlive, hva, L1, b, l', hl1, hc1, hL1, hlen⟩
  · left
    rw [if_pos h0, hsame]
    exact ⟨rfl, hroom⟩
  · obtain ⟨hptr, hc2, hlive2, hl2⟩ := take_block.spec h.interrupts hl1 hc1 hL1 hsize hp
    rw [if_neg h0, hptr]
    refine Or.inr ⟨?_, hlive2.trans hlive, hva, _, hc2, ?_, ?_⟩
    · unfold sizeof_extra
      omega
    · rw [hlive] at hl2
      exact hl2
    · rw [Function.update_self]
      rw [hL1, List.length_cons] at hlen
      exact hlen

/-- A large allocation takes new pages, or fails. -/
theorem kmalloc.spec_large (hl : LaidOut h L []) (hc : Counted h L)
    (hsize : 0 < size ∧ size < 2 ^ 32) (hp : best_pool (size + sizeof_extra) = none) (ok : Bool) :
    kmalloc size ok h = (0, { h with interrupts := false }) ∨
    (kmalloc size ok h).1 ≠ 0 ∧ (kmalloc size ok h).2.live = h.live ∧
      Counted (kmalloc size ok h).2 L ∧
      LaidOut { (kmalloc size ok h).2 with live := ⟨(kmalloc size ok h).1, size⟩ :: h.live } L [] := by
  have hoff := hl.set_interrupts false
  have hva := hl.va
  have hpos : VA_KHEAP_BASE.toNat ≠ 0 := by decide
  unfold kmalloc
  rw [if_neg (by omega)]
  simp only [hp]
  rcases hoff.alloc_pages (pages_for (size + sizeof_extra)) ok with ⟨hfail, _⟩ | ⟨reserved, hpages, hnew⟩
  · left
    rw [hfail]
    rfl
  · right
    have hspan : Alloc.span ⟨h.kernel_va + sizeof_extra, size⟩ =
        ⟨h.kernel_va, pages_for (size + sizeof_extra) * 4096⟩ := by
      simp only [Alloc.span, hp, Nat.add_sub_cancel]
    simp only [← hspan] at hnew
    rw [hpages]
    simp only
    rw [if_neg (by omega)]
    obtain ⟨hptr, hl2⟩ := kmalloc_block.spec 0 h.interrupts hnew rfl (by omega) hsize
      (fun i hi => by rw [hp] at hi; cases hi) fun _ => ⟨rfl, hva.1⟩
    refine ⟨?_, rfl, hc, hl2⟩
    rw [hptr]
    simp only [sizeof_extra]
    omega

/-- A block goes back to the pool that it came from. -/
theorem kfree.spec_small (hl : LaidOut h L []) (hc : Counted h L) (ha : a ∈ h.live)
    (hp : best_pool (a.size + sizeof_extra) = some i) :
    ∃ h', kfree a.ptr h = some h' ∧ h'.live = h.live ∧ h'.reserved = h.reserved ∧
      h.IsBlock i a.span.base ∧
      LaidOut { h' with live := h.live.erase a } (Function.update L i (a.span.base :: L i)) [] ∧
      Counted h' (Function.update L i (a.span.base :: L i)) := by
  have hh := hl.live a ha
  obtain ⟨hload, hblock⟩ := hh.small i hp
  have hspan : a.span = block_span i a.span.base := by
    simp only [Alloc.span, block_span, hp]
  have hhand := (hl.reclaim ha).set_interrupts false
  rw [hspan] at hhand
  have hpush := (hhand.push hblock ((h.pools i).avail + 1)).set_interrupts (h.interrupts || false)
  have hload' : ({ h with interrupts := false } : Heap).load (a.ptr - sizeof_extra) = pool_ptr i := hload
  have hptr : a.ptr ≠ 0 := by
    have := hh.ptr
    unfold sizeof_extra at this
    omega
  unfold kfree
  rw [if_neg hptr]
  simp only [hload', pool_at_pool_ptr, Option.map_some]
  rw [if_pos (pool_ptr_ne_zero i)]
  refine ⟨_, rfl, rfl, rfl, hblock, hpush, fun j => ?_⟩
  by_cases hj : j = i
  · subst hj
    simp only [set_pool_self, Function.update_self, List.length_cons]
    rw [BitVec.ofNat_add, ← hc j]
    rfl
  · simp only [set_pool_of_ne _ hj, Function.update_of_ne hj]
    exact hc j

/-- The pages of a large allocation, and no others, are released. -/
theorem kfree.spec_large (hl : LaidOut h L []) (hc : Counted h L) (ha : a ∈ h.live)
    (hp : best_pool (a.size + sizeof_extra) = none) :
    ∃ h', kfree a.ptr h = some h' ∧ h'.live = h.live ∧ h'.pools = h.pools ∧
      h'.reserved = (h.free_pages a.span.base (pages_for (a.size + sizeof_extra))).reserved ∧
      LaidOut { h' with live := h.live.erase a } L [] ∧ Counted h' L := by
  have hh := hl.live a ha
  obtain ⟨h0, hsize, hmod⟩ := hh.large hp
  have hspan : a.span = ⟨a.span.base, pages_for (a.size + sizeof_extra) * 4096⟩ := by
    simp only [Alloc.span, hp]
  have hhand := (hl.reclaim ha).set_interrupts false
  rw [hspan] at hhand
  have hfree := (hhand.free_pages hmod).set_interrupts (h.interrupts || false)
  have hload : ({ h with interrupts := false } : Heap).load (a.ptr - sizeof_extra) = 0 := h0
  have hload' : ({ h with interrupts := false } : Heap).load (a.ptr - sizeof_extra + 8) =
    BitVec.ofNat 64 a.size := hsize
  have htotal : ((BitVec.ofNat 64 a.size).toNat + sizeof_extra) % 2 ^ 64 = a.size + sizeof_extra := by
    have := hh.size.2
    unfold sizeof_extra
    rw [BitVec.toNat_ofNat]
    omega
  have hptr : a.ptr ≠ 0 := by
    have := hh.ptr
    unfold sizeof_extra at this
    omega
  unfold kfree
  rw [if_neg hptr]
  simp only [hload, hload', htotal]
  rw [if_neg (not_not_intro rfl)]
  exact ⟨_, rfl, rfl, rfl, rfl, hfree, hc⟩

/-- A client writes a byte of what it holds. -/
theorem LaidOut.write (hl : LaidOut h L []) (ha : a ∈ h.live) (hx : a.ptr ≤ x ∧ x < a.ptr + a.size)
    (v : Word) : LaidOut (h.store x v) L [] := by
  have hh := hl.live a ha
  have hbase : a.span.base + sizeof_extra = a.ptr := Nat.sub_add_cancel hh.ptr
  have hlen := a.size_le_span
  have hmod := hh.base_mod
  unfold sizeof_extra at hbase hlen
  -- the allocation comes in hand for the write, and goes back with the same header
  have hst := (hl.reclaim ha).store (x := x) ⟨by omega, by omega⟩ v
  have hload : ∀ y, y / 8 ≠ x / 8 → (h.store x v).load y = h.load y := fun _ hy => load_store_of_ne v hy
  have hback := hst.allot (a := a) { hh with
    small := fun i hp => ⟨(hload _ (by omega)).trans (hh.small i hp).1, (hh.small i hp).2⟩
    large := fun hp => ⟨(hload _ (by omega)).trans (hh.large hp).1,
      (hload _ (by omega)).trans (hh.large hp).2.1, (hh.large hp).2.2⟩ }
  exact hback.live_perm (List.perm_cons_erase ha).symm

theorem kmalloc_step_laid_out (e : KmallocEvent) (h h' : Heap)
    (hl : ∃ L, LaidOut h L [] ∧ Counted h L) (hstep : kmalloc_step e h = some h') :
    ∃ L, LaidOut h' L [] ∧ Counted h' L := by
  obtain ⟨L, hl, hc⟩ := hl
  cases e with
  | kmalloc size ok =>
    simp only [kmalloc_step] at hstep
    split at hstep
    · rename_i hsize
      cases hstep
      cases hp : best_pool (size + sizeof_extra) with
      | some i =>
        rcases kmalloc.spec_small hl hc hsize hp ok with ⟨hfail, _⟩ | ⟨hptr, hlive, _, L', hc', hl', _⟩
        · rw [hfail]
          exact ⟨L, hl.set_interrupts false, hc⟩
        · simp only [if_neg hptr, hlive]
          exact ⟨L', hl', hc'⟩
      | none =>
        rcases kmalloc.spec_large hl hc hsize hp ok with hfail | ⟨hptr, hlive, hc', hl'⟩
        · rw [hfail]
          exact ⟨L, hl.set_interrupts false, hc⟩
        · simp only [if_neg hptr, hlive]
          exact ⟨L, hl', hc'⟩
    · cases hstep
  | kfree addr =>
    obtain ⟨a, hfind, hstep⟩ := Option.bind_eq_some_iff.mp hstep
    obtain ⟨h1, hfree, rfl⟩ := Option.map_eq_some_iff.mp hstep
    have ha := List.mem_of_find?_eq_some hfind
    obtain rfl : a.ptr = addr := by simpa using List.find?_some hfind
    cases hp : best_pool (a.size + sizeof_extra) with
    | some i =>
      obtain ⟨h2, hk, hlive, _, _, hl', hc'⟩ := kfree.spec_small hl hc ha hp
      obtain rfl := Option.some.inj (hfree.symm.trans hk)
      rw [hlive]
      exact ⟨_, hl', hc'⟩
    | none =>
      obtain ⟨h2, hk, hlive, _, _, hl', hc'⟩ := kfree.spec_large hl hc ha hp
      obtain rfl := Option.some.inj (hfree.symm.trans hk)
      rw [hlive]
      exact ⟨_, hl', hc'⟩
  | write addr v =>
    simp only [kmalloc_step] at hstep
    split at hstep
    · rename_i hany
      cases hstep
      obtain ⟨a, ha, hx⟩ := List.any_eq_true.mp hany
      exact ⟨L, hl.write ha (of_decide_eq_true hx) _, hc⟩
    · cases hstep

/-! ## The integrity of the heap -/

/-- The bytes that the client may use. -/
def Alloc.bytes (a : Alloc) : Span := ⟨a.ptr, a.size⟩

/-- The header in front of them. -/
def Alloc.header (a : Alloc) : Span := ⟨a.ptr - sizeof_extra, sizeof_extra⟩

/-- What `kfree` does: a block goes back to its pool, or the pages of the allocation, and no
others, are released. -/
def Frees (h : Heap) (L : PoolId → List Nat) (a : Alloc) (h' : Heap) : Prop :=
  match best_pool (a.size + sizeof_extra) with
  | some i => h.IsBlock i a.header.base ∧ h'.reserved = h.reserved ∧
      ∀ j, Chain (BitVec.ofNat 64) 0 h'.load (h'.pools j).head
        (if j = i then a.header.base :: L j else L j)
  | none => h'.pools = h.pools ∧ ∀ p, h'.reserved p = true ↔ h.reserved p = true ∧
      ¬(a.header.base / 4096 ≤ p ∧ p < a.header.base / 4096 + pages_for (a.size + sizeof_extra))

/-- The heap with the free blocks `L` is sound. -/
structure HeapIntegrity (h : Heap) (L : PoolId → List Nat) : Prop where
  aligned : ∀ a ∈ h.live, a.ptr % 16 = 0
  mapped : ∀ a ∈ h.live, ∀ x, a.bytes.Has x → h.reserved (x / 4096)
  apart : h.live.Pairwise fun a a' => a.bytes.Apart a'.bytes
  headers : ∀ a ∈ h.live, ∀ a' ∈ h.live, a.bytes.Apart a'.header
  free : ∀ a ∈ h.live, ∀ i, ∀ b ∈ L i, a.bytes.Apart (block_span i b) ∧ a.header.Apart (block_span i b)
  chain : ∀ i, Chain (BitVec.ofNat 64) 0 h.load (h.pools i).head (L i)
  nodup : ∀ i, (L i).Nodup
  block : ∀ i, ∀ b ∈ L i, h.IsBlock i b
  avail : ∀ i, (h.pools i).avail.toInt = (L i).length
  freed : ∀ a ∈ h.live, ∃ h', kfree a.ptr h = some h' ∧ Frees h L a h'

theorem Header.bytes_within (hh : Header h a) : a.bytes.Within a.span := by
  have hlen := a.size_le_span
  have hptr := hh.ptr
  have hbase : a.span.base = a.ptr - sizeof_extra := rfl
  refine within_of_bounds ?_ ?_
  · simp only [Alloc.bytes]
    omega
  · simp only [Alloc.bytes]
    omega

theorem Alloc.header_within (a : Alloc) : a.header.Within a.span := by
  have hlen := a.size_le_span
  have hbase : a.span.base = a.ptr - sizeof_extra := rfl
  refine within_of_bounds le_rfl ?_
  simp only [Alloc.header]
  omega

theorem Header.bytes_apart_header (hh : Header h a) : a.bytes.Apart a.header := by
  refine Span.Apart.symm (apart_of_le ?_)
  have hptr := hh.ptr
  simp only [Alloc.header, Alloc.bytes]
  omega

theorem LaidOut.live_apart {a' : Alloc} (hl : LaidOut h L []) (ha : a ∈ h.live) (ha' : a' ∈ h.live)
    (hne : a' ≠ a) : a.span.Apart a'.span := by
  have hhand := (layout_cons.mp (hl.reclaim ha).layout).1
  refine hhand a'.span (List.mem_append_right _ (List.mem_append_right _ ?_))
  exact List.mem_map_of_mem ((List.mem_erase_of_ne hne).mpr ha')

theorem LaidOut.live_apart_free (hl : LaidOut h L []) (ha : a ∈ h.live) (hb : b ∈ L i) :
    a.span.Apart (block_span i b) := by
  have hhand := (layout_cons.mp (hl.reclaim ha).layout).1
  exact hhand _ (List.mem_append_right _ (List.mem_append_left _ (mem_free_spans.mpr ⟨i, b, hb, rfl⟩)))

theorem LaidOut.nodup (hl : LaidOut h L []) (i : PoolId) : (L i).Nodup := by
  have hlayout : Layout (free_spans L ++ h.live.map Alloc.span) := hl.layout
  have hfree := (List.pairwise_append.mp hlayout).1
  have hi := (List.pairwise_flatMap.mp hfree).1 i (List.mem_finRange i)
  rw [List.pairwise_map] at hi
  refine hi.imp fun {b c} hapart he => ?_
  subst he
  exact hapart b ⟨le_rfl, Nat.lt_add_of_pos_right (max_size_pos i)⟩
    ⟨le_rfl, Nat.lt_add_of_pos_right (max_size_pos i)⟩

theorem LaidOut.frees (hl : LaidOut h L []) (hc : Counted h L) (ha : a ∈ h.live) :
    ∃ h', kfree a.ptr h = some h' ∧ Frees h L a h' := by
  unfold Frees
  cases hp : best_pool (a.size + sizeof_extra) with
  | some i =>
    obtain ⟨h', hk, _, hres, hblock, hl', _⟩ := kfree.spec_small hl hc ha hp
    refine ⟨h', hk, hblock, hres, fun j => ?_⟩
    have hchain := hl'.chain j
    split
    · rename_i hj
      subst hj
      rw [Function.update_self] at hchain
      exact hchain
    · rename_i hj
      rw [Function.update_of_ne hj] at hchain
      exact hchain
  | none =>
    obtain ⟨h', hk, _, hpools, hres, _, _⟩ := kfree.spec_large hl hc ha hp
    refine ⟨h', hk, hpools, fun p => ?_⟩
    rw [hres]
    unfold Heap.free_pages
    simp only [Bool.and_eq_true, Bool.not_eq_true', decide_eq_false_iff_not]
    rfl

/-- Fewer than 2^31 blocks fit into less than 64 GiB. -/
theorem LaidOut.length_lt (hl : LaidOut h L []) (hva : h.kernel_va < VA_KHEAP_BASE.toNat + 2 ^ 36)
    (i : PoolId) : (L i).length < 2 ^ 31 := by
  have hblock : ∀ b ∈ L i, b % 32 = 0 ∧ VA_KHEAP_BASE.toNat ≤ b ∧ b + 32 ≤ h.kernel_va := by
    intro b hb
    have h1 := (hl.block i b hb).1
    have h2 := hl.block_lt hb
    rcases max_size_cases i with hm | hm | hm | hm | hm | hm <;> rw [hm] at h1 h2 <;> omega
  -- the blocks are told apart by the number of 32-byte pieces below them
  have hnd : ((L i).map fun b => (b - VA_KHEAP_BASE.toNat) / 32).Nodup := by
    refine (List.nodup_map_iff_inj_on (hl.nodup i)).mpr fun b hb c hc he => ?_
    have hbase : VA_KHEAP_BASE.toNat % 32 = 0 := by decide
    have h1 := hblock b hb
    have h2 := hblock c hc
    omega
  have hsub : ((L i).map fun b => (b - VA_KHEAP_BASE.toNat) / 32) ⊆ List.range (2 ^ 31 - 1) := by
    intro q hq
    obtain ⟨b, hb, rfl⟩ := List.mem_map.mp hq
    have h1 := hblock b hb
    rw [List.mem_range]
    omega
  have hlen := (hnd.subperm hsub).length_le
  rw [List.length_map, List.length_range] at hlen
  omega

theorem LaidOut.integrity (hl : LaidOut h L []) (hc : Counted h L)
    (hva : h.kernel_va < VA_KHEAP_BASE.toNat + 2 ^ 36) : HeapIntegrity h L := by
  have hlayout : Layout (free_spans L ++ h.live.map Alloc.span) := hl.layout
  refine ⟨fun a ha => ?_, fun a ha x hx => ?_, ?_, fun a ha a' ha' => ?_, fun a ha i b hb => ?_,
    hl.chain, hl.nodup, hl.block, fun i => ?_, fun a ha => hl.frees hc ha⟩
  · have h1 := (hl.live a ha).base_mod
    have h2 := (hl.live a ha).ptr
    have hbase : a.span.base = a.ptr - sizeof_extra := rfl
    unfold sizeof_extra at h2 hbase
    omega
  · have hmem : a.span ∈ free_spans L ++ h.live.map Alloc.span :=
      List.mem_append_right _ (List.mem_map_of_mem ha)
    exact hl.mapped a.span hmem x ((hl.live a ha).bytes_within x hx)
  · have hlive := (List.pairwise_append.mp hlayout).2.1
    rw [List.pairwise_map] at hlive
    refine hlive.imp_of_mem fun {a a'} ha ha' hapart => ?_
    exact Span.Apart.symm (Span.Apart.mono (Span.Apart.symm (hapart.mono (hl.live a ha).bytes_within))
      (hl.live a' ha').bytes_within)
  · by_cases he : a' = a
    · subst he
      exact (hl.live a' ha).bytes_apart_header
    · have hapart := hl.live_apart ha ha' he
      exact Span.Apart.symm (Span.Apart.mono (Span.Apart.symm (hapart.mono (hl.live a ha).bytes_within))
        a'.header_within)
  · have hapart := hl.live_apart_free ha hb
    exact ⟨hapart.mono (hl.live a ha).bytes_within, hapart.mono a.header_within⟩
  · have hlt := hl.length_lt hva i
    rw [hc i, BitVec.toInt_eq_toNat_of_lt (by rw [BitVec.toNat_ofNat]; omega), BitVec.toNat_ofNat,
      Nat.mod_eq_of_lt (by omega)]

theorem fresh_heap_laid_out (mem : Nat → Word) (interrupts : Bool) :
    LaidOut (fresh_heap mem interrupts) (fun _ => []) [] ∧
      Counted (fresh_heap mem interrupts) (fun _ => []) := by
  have hnone : ∀ s, s ∉ [] ++ (free_spans (fun _ => []) ++
      (fresh_heap mem interrupts).live.map Alloc.span) := by
    intro s hs
    simp [free_spans, fresh_heap] at hs
  refine ⟨⟨fun _ => .nil, nofun, nofun, ?_, fun s hs => absurd hs (hnone s),
    fun s hs => absurd hs (hnone s), ?_, le_rfl, ?_⟩, fun _ => rfl⟩
  · rw [List.eq_nil_iff_forall_not_mem.mpr hnone]
    exact List.Pairwise.nil
  · exact (by decide : VA_KHEAP_BASE.toNat % 4096 = 0)
  · exact (by decide : VA_KHEAP_BASE.toNat ≤ 2 ^ 48)

theorem kmalloc_run_laid_out {mem : Nat → Word} {interrupts : Bool} {es : List KmallocEvent}
    (hrun : run kmalloc_step es (fresh_heap mem interrupts) = some h) :
    ∃ L, LaidOut h L [] ∧ Counted h L :=
  run_keeps kmalloc_step_laid_out ⟨_, fresh_heap_laid_out mem interrupts⟩ hrun

/-- Whatever the clients allocate, free and write, the heap is sound, as long as it has got less than
64 GiB of addresses. -/
theorem heap_integrity (mem : Nat → Word) (interrupts : Bool) (es : List KmallocEvent) (h : Heap)
    (hrun : run kmalloc_step es (fresh_heap mem interrupts) = some h)
    (hva : h.kernel_va < VA_KHEAP_BASE.toNat + 2 ^ 36) : ∃ L, HeapIntegrity h L := by
  obtain ⟨L, hl, hc⟩ := kmalloc_run_laid_out hrun
  exact ⟨L, hl.integrity hc hva⟩

/-- A block and two pages are allocated, a byte of the block is written, and both are freed. -/
theorem heap_integrity_alloc_free :
    ∃ h, run kmalloc_step [.kmalloc 16 true, .kmalloc 5000 true, .write 0x10000000FF5 7,
      .kfree 0x10000000FF0, .kfree 0x10000001010] (fresh_heap (fun _ => 0) true) = some h ∧
      ∃ L, HeapIntegrity h L := by
  obtain ⟨h, hh⟩ := Option.isSome_iff_exists.mp (show (run kmalloc_step [.kmalloc 16 true,
    .kmalloc 5000 true, .write 0x10000000FF5 7, .kfree 0x10000000FF0, .kfree 0x10000001010]
    (fresh_heap (fun _ => 0) true)).isSome by decide +kernel)
  have hva : (run kmalloc_step [.kmalloc 16 true, .kmalloc 5000 true, .write 0x10000000FF5 7,
      .kfree 0x10000000FF0, .kfree 0x10000001010] (fresh_heap (fun _ => 0) true)).all (fun h =>
      h.kernel_va < VA_KHEAP_BASE.toNat + 2 ^ 36) := by
    decide +kernel
  rw [hh, Option.all_some, decide_eq_true_iff] at hva
  exact ⟨h, hh, heap_integrity _ _ _ h hh hva⟩

/-! ## A pool with 2^31 free blocks -/

/-- The pool of 32-byte blocks. -/
def first_pool : PoolId := ⟨0, by decide⟩

theorem best_pool_sixteen : best_pool (16 + sizeof_extra) = some first_pool := by decide

/-- Small blocks can be allocated as long as there are pages, and the pool grows only when its list
is empty. -/
theorem many_allocations (n : Nat) (hn : n ≤ 2 ^ 31) :
    ∃ es h L, run kmalloc_step es (fresh_heap (fun _ => 0) true) = some h ∧ LaidOut h L [] ∧
      Counted h L ∧ h.live.length = n ∧ (∀ a ∈ h.live, a.size = 16) ∧ (L first_pool).length ≤ 127 ∧
      h.kernel_va ≤ VA_KHEAP_BASE.toNat + n * 4096 := by
  induction n with
  | zero =>
    obtain ⟨hl, hc⟩ := fresh_heap_laid_out (fun _ => 0) true
    exact ⟨[], _, _, rfl, hl, hc, rfl, nofun, Nat.zero_le _, le_rfl⟩
  | succ n ih =>
    obtain ⟨es, h, L, hrun, hl, hc, hlen, hsize, hfree, hva⟩ := ih (by omega)
    have hbase : VA_KHEAP_BASE.toNat = 2 ^ 40 := by decide
    have hstep : kmalloc_step (.kmalloc 16 true) h =
        some (if (kmalloc 16 true h).1 = 0 then (kmalloc 16 true h).2 else
          { (kmalloc 16 true h).2 with
            live := ⟨(kmalloc 16 true h).1, 16⟩ :: (kmalloc 16 true h).2.live }) := rfl
    rcases kmalloc.spec_small hl hc (by omega) best_pool_sixteen true with
      ⟨_, hroom⟩ | ⟨hptr, hlive, hva', L', hc', hl', hL'⟩
    · exact absurd ⟨rfl, by omega⟩ hroom
    · rw [if_neg hptr, hlive] at hstep
      refine ⟨es ++ [.kmalloc 16 true], _, L', ?_, hl', hc', ?_, ?_, ?_, ?_⟩
      · rw [run_append, hrun]
        simp only [Option.bind_some, run, hstep]
      · simp only [List.length_cons, hlen]
      · intro a ha
        rcases List.mem_cons.mp ha with rfl | ha
        · rfl
        · exact hsize a ha
      · rcases hL' with hL' | ⟨h0, hL'⟩
        · omega
        · have hzero := congrArg BitVec.toNat (h0.symm.trans (hc first_pool))
          rw [BitVec.toNat_ofNat, Nat.mod_eq_of_lt (by omega)] at hzero
          have hmax : 4096 / max_size first_pool = 128 := by decide
          simp at hzero
          rw [hmax, ← hzero] at hL'
          omega
      · simp only
        omega

/-- Allocations are freed one after another, and the list of the pool gets longer. -/
theorem many_frees (n : Nat) {h : Heap} {L : PoolId → List Nat} (hl : LaidOut h L [])
    (hc : Counted h L) (hn : n ≤ h.live.length) (hsize : ∀ a ∈ h.live, a.size = 16) :
    ∃ es h' L', run kmalloc_step es h = some h' ∧ LaidOut h' L' [] ∧ Counted h' L' ∧
      (L' first_pool).length = (L first_pool).length + n := by
  induction n generalizing h L with
  | zero => exact ⟨[], h, L, rfl, hl, hc, rfl⟩
  | succ n ih =>
    obtain ⟨a, rest, hlive⟩ := List.exists_cons_of_length_pos (l := h.live) (by omega)
    have ha : a ∈ h.live := hlive ▸ List.mem_cons_self
    have hp : best_pool (a.size + sizeof_extra) = some first_pool := by
      rw [hsize a ha]
      exact best_pool_sixteen
    obtain ⟨h1, hk, hlive1, _, _, hl1, hc1⟩ := kfree.spec_small hl hc ha hp
    have hstep : kmalloc_step (.kfree a.ptr) h = some { h1 with live := h.live.erase a } := by
      have hfind : h.live.find? (·.ptr = a.ptr) = some a := by
        rw [hlive]
        exact List.find?_cons_of_pos (by simp)
      simp only [kmalloc_step, hfind, Option.bind_some, hk, Option.map_some, hlive1]
    obtain ⟨es, h', L', hrun, hl', hc', hlen⟩ := ih (h := { h1 with live := h.live.erase a }) hl1 hc1
      (by simp only [List.length_erase_of_mem ha]; omega) fun a' ha' => hsize a' (List.mem_of_mem_erase ha')
    refine ⟨.kfree a.ptr :: es, h', L', ?_, hl', hc', ?_⟩
    · rw [run, hstep]
      exact hrun
    · rw [hlen, Function.update_self, List.length_cons]
      omega

/-- 2^31 blocks of 32 bytes are allocated and as many freed as make 2^31 free blocks. The counter of
the pool is then negative. -/
theorem avail_overflows :
    ∃ es h, run kmalloc_step es (fresh_heap (fun _ => 0) true) = some h ∧ ∀ L, ¬HeapIntegrity h L := by
  obtain ⟨es, h, L, hrun, hl, hc, hlen, hsize, hfree, _⟩ := many_allocations (2 ^ 31) le_rfl
  obtain ⟨es', h', L', hrun', hl', hc', hlen'⟩ :=
    many_frees (2 ^ 31 - (L first_pool).length) hl hc (by omega) hsize
  refine ⟨es ++ es', h', ?_, fun L'' hi => ?_⟩
  · rw [run_append, hrun]
    exact hrun'
  · have havail := hi.avail first_pool
    rw [hc' first_pool, hlen', show (L first_pool).length + (2 ^ 31 - (L first_pool).length) = 2 ^ 31 by omega] at havail
    have hneg : (BitVec.ofNat 32 (2 ^ 31)).toInt = -2 ^ 31 := by decide
    rw [hneg] at havail
    omega

end JamsOs
