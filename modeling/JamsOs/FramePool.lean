-- The laws of the frame allocator. Whatever the regions and the list of freed frames
-- look like, the allocator is a stack of frames: `MMU_pf_alloc` takes the top one and
-- `MMU_pf_free` puts one on top.
import JamsOs.Chain
import JamsOs.Frames
import JamsOs.Runs

namespace JamsOs

open Linked

/-! ## Frames and their addresses -/

theorem frameOf_lt (p : Word) : frameOf p < 2 ^ 52 := by
  have := p.isLt
  unfold frameOf
  omega

theorem frameAddr_toNat {f : Nat} (h : f < 2 ^ 52) : (frameAddr f).toNat = f * 4096 := by
  unfold frameAddr
  rw [BitVec.toNat_ofNat, Nat.mod_eq_of_lt (by omega)]

@[simp] theorem frameOf_frameAddr {f : Nat} (h : f < 2 ^ 52) : frameOf (frameAddr f) = f := by
  unfold frameOf
  rw [frameAddr_toNat h]
  omega

@[simp] theorem wordOf_frameAddr {f : Nat} (h : f < 2 ^ 52) : wordOf (frameAddr f) = 0 := by
  unfold wordOf
  apply Fin.ext
  simp [frameAddr_toNat h]

theorem frameAddr_frameOf {p : Word} (h : p.toNat % 4096 = 0) : frameAddr (frameOf p) = p := by
  have hlt := frameOf_lt p
  apply BitVec.eq_of_toNat_eq
  rw [frameAddr_toNat hlt]
  unfold frameOf
  omega

theorem frameAddr_injective {f g : Nat} (hf : f < 2 ^ 52) (hg : g < 2 ^ 52)
    (h : frameAddr f = frameAddr g) : f = g := by
  rw [← frameOf_frameAddr hf, h, frameOf_frameAddr hg]

/-- The end marker is not page aligned, so it is the address of no frame. -/
theorem frameAddr_ne_invalid {f : Nat} (h : f < 2 ^ 52) : frameAddr f ≠ INVALID_FRAME_ADDR := by
  intro he
  have h1 := frameAddr_toNat h
  have h2 : INVALID_FRAME_ADDR.toNat = 0xDEADBEEF := rfl
  rw [he, h2] at h1
  omega

/-! ## Writes to single words -/

@[simp] theorem setWord_same (mem : Nat → Frame) (f : Nat) (i : Fin 512) (v : Word) :
    setWord mem f i v f i = v := by
  simp [setWord]

theorem setWord_of_ne {mem : Nat → Frame} {f g : Nat} (h : g ≠ f) (i : Fin 512) (v : Word) :
    setWord mem f i v g = mem g := by
  simp [setWord, h]

theorem setWord_word_of_ne (mem : Nat → Frame) (f : Nat) {i j : Fin 512} (h : j ≠ i) (v : Word) :
    setWord mem f i v f j = mem f j := by
  simp [setWord, h]

/-! ## The frames of the regions -/

/-- The frames of a region, first to last, with the addresses modulo 2^64. -/
def MemRegion.frames (r : MemRegion) : List Nat :=
  if r.valid then
    (List.range (r.size.toNat / 4096)).map fun i => frameOf (r.addr + BitVec.ofNat 64 (i * 4096))
  else []

/-- A valid region is page aligned and holds a positive number of whole pages. -/
structure MemRegion.Ok (r : MemRegion) : Prop where
  aligned : r.valid = true → r.addr.toNat % 4096 = 0
  whole : r.valid = true → r.size.toNat % 4096 = 0
  nonempty : r.valid = true → 0 < r.size.toNat

def regionFrames (rs : List MemRegion) : List Nat := rs.flatMap MemRegion.frames

theorem regionFrames_cons (r : MemRegion) (rs : List MemRegion) :
    regionFrames (r :: rs) = r.frames ++ regionFrames rs := by
  simp [regionFrames]

theorem frames_of_invalid {r : MemRegion} (h : r.valid = false) : r.frames = [] := by
  simp [MemRegion.frames, h]

theorem PAGE_SIZE_toNat : PAGE_SIZE.toNat = 4096 := rfl

/-- The last frame of a region: the region then holds no frame at all. -/
theorem frames_of_last {r : MemRegion} (hv : r.valid = true) (hs : r.size = PAGE_SIZE) :
    r.frames = [frameOf r.addr] := by
  simp [MemRegion.frames, hv, hs, PAGE_SIZE_toNat]

theorem resized_size {r : MemRegion} (hr : r.Ok) (hv : r.valid = true) (hs : r.size ≠ PAGE_SIZE) :
    r.size.toNat ≠ 4096 ∧ (r.size - PAGE_SIZE).toNat = r.size.toNat - 4096 := by
  have hw := hr.whole hv
  have hn := hr.nonempty hv
  refine ⟨fun h => hs (BitVec.eq_of_toNat_eq h), ?_⟩
  rw [BitVec.toNat_sub_of_le (by rw [BitVec.le_def, PAGE_SIZE_toNat]; omega), PAGE_SIZE_toNat]

/-- A region of more than one frame: its first frame, then those of the resized region. -/
theorem frames_of_first {r : MemRegion} (hr : r.Ok) (hv : r.valid = true)
    (hs : r.size ≠ PAGE_SIZE) :
    r.frames = frameOf r.addr ::
      ({ r with addr := r.addr + PAGE_SIZE, size := r.size - PAGE_SIZE } : MemRegion).frames := by
  have hw := hr.whole hv
  have hn := hr.nonempty hv
  obtain ⟨hne, hsub⟩ := resized_size hr hv hs
  have hlen : r.size.toNat / 4096 = (r.size.toNat - 4096) / 4096 + 1 := by omega
  simp only [MemRegion.frames, hv, if_true, hsub]
  rw [hlen, List.range_succ_eq_map, List.map_cons, List.map_map]
  refine congrArg₂ List.cons ?_ ?_
  · simp
  · apply List.map_congr_left
    intro i _
    have hi : BitVec.ofNat 64 ((i + 1) * 4096) = PAGE_SIZE + BitVec.ofNat 64 (i * 4096) := by
      rw [show (i + 1) * 4096 = 4096 + i * 4096 by omega, BitVec.ofNat_add]
      rfl
    simp only [Function.comp, Nat.succ_eq_add_one, hi, BitVec.add_assoc]

theorem ok_of_resized {r : MemRegion} (hr : r.Ok) (hv : r.valid = true) (hs : r.size ≠ PAGE_SIZE) :
    ({ r with addr := r.addr + PAGE_SIZE, size := r.size - PAGE_SIZE } : MemRegion).Ok := by
  have ha := hr.aligned hv
  have hw := hr.whole hv
  have hn := hr.nonempty hv
  obtain ⟨hne, hsub⟩ := resized_size hr hv hs
  refine ⟨fun _ => ?_, fun _ => ?_, fun _ => ?_⟩
  · simp only [BitVec.toNat_add, PAGE_SIZE_toNat]
    omega
  · simp only [hsub]
    omega
  · simp only [hsub]
    omega

/-- `take_region` gives the first frame of all regions, and takes only that one away. -/
theorem take_region.spec (rs : List MemRegion) (h : ∀ r ∈ rs, r.Ok) :
    match take_region rs with
    | none => regionFrames rs = []
    | some (p, rs') => ∃ f < 2 ^ 52, p = frameAddr f ∧
        regionFrames rs = f :: regionFrames rs' ∧ ∀ r ∈ rs', r.Ok := by
  induction rs with
  | nil => simp [take_region, regionFrames]
  | cons r rest ih =>
    have hr := h r List.mem_cons_self
    have hrest : ∀ r ∈ rest, r.Ok := fun x hx => h x (List.mem_cons_of_mem _ hx)
    unfold take_region
    by_cases hv : r.valid = true
    · rw [if_neg (by simp [hv])]
      by_cases hs : r.size = PAGE_SIZE
      · rw [if_pos hs]
        refine ⟨frameOf r.addr, frameOf_lt _, (frameAddr_frameOf (hr.aligned hv)).symm, ?_, ?_⟩
        · rw [regionFrames_cons, regionFrames_cons, frames_of_last hv hs, frames_of_invalid rfl]
          rfl
        · intro x hx
          rcases List.mem_cons.mp hx with rfl | hx
          · exact ⟨fun h => absurd h (by simp), fun h => absurd h (by simp),
              fun h => absurd h (by simp)⟩
          · exact hrest x hx
      · rw [if_neg hs]
        refine ⟨frameOf r.addr, frameOf_lt _, (frameAddr_frameOf (hr.aligned hv)).symm, ?_, ?_⟩
        · rw [regionFrames_cons, regionFrames_cons, frames_of_first hr hv hs]
          rfl
        · intro x hx
          rcases List.mem_cons.mp hx with rfl | hx
          · exact ok_of_resized hr hv hs
          · exact hrest x hx
    · have hv' : r.valid = false := by simpa using hv
      simp only [hv', Bool.not_false, if_true]
      have ih := ih hrest
      rcases ht : take_region rest with _ | ⟨p, rs'⟩
      · simp only [ht, Option.map_none] at ih ⊢
        rw [regionFrames_cons, frames_of_invalid hv', ih]
        rfl
      · simp only [ht, Option.map_some] at ih ⊢
        obtain ⟨f, hf, hp, hfr, hok⟩ := ih
        refine ⟨f, hf, hp, ?_, ?_⟩
        · rw [regionFrames_cons, regionFrames_cons, frames_of_invalid hv', hfr]
          rfl
        · intro x hx
          rcases List.mem_cons.mp hx with rfl | hx
          · exact hr
          · exact hok x hx

/-! ## The pool -/

/-- The list of freed frames: from `free_frames` on, each frame holds the address of the
next one in its first word, and the last one holds the end marker. -/
def FreeList (s : Machine) (chain : List Nat) : Prop :=
  Chain frameAddr INVALID_FRAME_ADDR (fun f => s.mem f 0) s.free_frames chain

/-- The free frames, in the order in which `MMU_pf_alloc` hands them out: first those of
the list of freed frames, then those of the regions. -/
structure Pool (s : Machine) (P : List Nat) : Prop where
  small : ∀ f ∈ P, f < 2 ^ 52
  regions_ok : ∀ r ∈ s.usable_regions, r.Ok
  listed : ∃ chain, FreeList s chain ∧ P = chain ++ regionFrames s.usable_regions

/-- The pool reads the two static variables and the first word of each free frame. -/
theorem Pool.congr {s s' : Machine} {P : List Nat} (h : Pool s P)
    (hf : s'.free_frames = s.free_frames) (hr : s'.usable_regions = s.usable_regions)
    (hm : ∀ f ∈ P, s'.mem f = s.mem f) : Pool s' P := by
  obtain ⟨hs, hok, chain, hc, hP⟩ := h
  refine ⟨hs, by rw [hr]; exact hok, chain, ?_, by rw [hr]; exact hP⟩
  unfold FreeList at hc ⊢
  rw [hf]
  apply hc.congr
  intro b hb
  simp only [hm b (by rw [hP]; exact List.mem_append_left _ hb)]

/-- The machine decides its pool. -/
theorem Pool.unique {s : Machine} {P P' : List Nat} (h : Pool s P) (h' : Pool s P') : P = P' := by
  obtain ⟨hs, _, chain, hc, hP⟩ := h
  obtain ⟨hs', _, chain', hc', hP'⟩ := h'
  have hmem : ∀ f ∈ chain, f < 2 ^ 52 := fun f hf =>
    hs f (by rw [hP]; exact List.mem_append_left _ hf)
  have hmem' : ∀ f ∈ chain', f < 2 ^ 52 := fun f hf =>
    hs' f (by rw [hP']; exact List.mem_append_left _ hf)
  have : chain = chain' := Chain.unique
    (fun a ha b hb => frameAddr_injective (hmem a ha) (hmem' b hb))
    (fun a ha => frameAddr_ne_invalid (hmem a ha))
    (fun a ha => frameAddr_ne_invalid (hmem' a ha)) hc hc'
  rw [hP, hP', this]

theorem MMU_pf_alloc.spec_nil {s : Machine} (h : Pool s []) :
    MMU_pf_alloc s = (INVALID_FRAME_ADDR, s) := by
  obtain ⟨_, hok, chain, hc, hP⟩ := h
  obtain ⟨hchain, hreg⟩ : chain = [] ∧ regionFrames s.usable_regions = [] := by
    simpa using hP.symm
  subst hchain
  have hff : s.free_frames = INVALID_FRAME_ADDR := chain_nil_iff.mp hc
  have ht := take_region.spec s.usable_regions hok
  unfold MMU_pf_alloc
  rw [if_neg (by simp [hff])]
  rcases he : take_region s.usable_regions with _ | ⟨p, rs'⟩
  · rfl
  · rw [he] at ht
    obtain ⟨f, _, _, hfr, _⟩ := ht
    rw [hreg] at hfr
    simp at hfr

/-- An allocation takes the top of the pool, and changes no memory. -/
theorem MMU_pf_alloc.spec_cons {s : Machine} {f : Nat} {P : List Nat} (h : Pool s (f :: P)) :
    ∃ ff rs, MMU_pf_alloc s =
        (frameAddr f, { s with free_frames := ff, usable_regions := rs }) ∧
      Pool { s with free_frames := ff, usable_regions := rs } P := by
  obtain ⟨hs, hok, chain, hc, hP⟩ := h
  have hsP : ∀ g ∈ P, g < 2 ^ 52 := fun g hg => hs g (List.mem_cons_of_mem _ hg)
  have hf := hs f List.mem_cons_self
  unfold MMU_pf_alloc
  cases chain with
  | nil =>
    have hff : s.free_frames = INVALID_FRAME_ADDR := chain_nil_iff.mp hc
    have ht := take_region.spec s.usable_regions hok
    rw [if_neg (by simp [hff])]
    rcases he : take_region s.usable_regions with _ | ⟨p, rs'⟩
    · rw [he] at ht
      simp only [ht] at hP
      simp at hP
    · rw [he] at ht
      obtain ⟨g, _, hp, hfr, hok'⟩ := ht
      rw [hfr, List.nil_append, List.cons.injEq] at hP
      obtain ⟨rfl, hP⟩ := hP
      subst hp
      exact ⟨s.free_frames, rs', rfl, hsP, hok', [], hc, hP⟩
  | cons g chain =>
    obtain ⟨hff, hc⟩ := chain_cons_iff.mp hc
    rw [List.cons_append, List.cons.injEq] at hP
    obtain ⟨rfl, hP⟩ := hP
    rw [if_pos (by rw [hff]; exact frameAddr_ne_invalid hf)]
    refine ⟨s.load s.free_frames, s.usable_regions, by rw [hff], hsP, hok, chain, ?_, hP⟩
    have hload : s.load s.free_frames = s.mem f 0 := by
      unfold Machine.load
      rw [hff, frameOf_frameAddr hf, wordOf_frameAddr hf]
    unfold FreeList
    simp only [hload]
    exact hc

/-- A free puts the frame on top of the pool, and writes only its first word. -/
theorem MMU_pf_free.spec {s : Machine} {f : Nat} {P : List Nat} (h : Pool s P) (hf : f < 2 ^ 52)
    (hfP : f ∉ P) :
    MMU_pf_free (frameAddr f) s =
        { s with mem := setWord s.mem f 0 s.free_frames, free_frames := frameAddr f } ∧
      Pool (MMU_pf_free (frameAddr f) s) (f :: P) := by
  have heq : MMU_pf_free (frameAddr f) s =
      { s with mem := setWord s.mem f 0 s.free_frames, free_frames := frameAddr f } := by
    unfold MMU_pf_free Machine.store
    rw [if_neg (frameAddr_ne_invalid hf), frameOf_frameAddr hf, wordOf_frameAddr hf]
  refine ⟨heq, ?_⟩
  rw [heq]
  obtain ⟨hs, hok, chain, hc, hP⟩ := h
  refine ⟨?_, hok, f :: chain, ?_, by rw [hP]; rfl⟩
  · intro g hg
    rcases List.mem_cons.mp hg with rfl | hg
    · exact hf
    · exact hs g hg
  · apply Chain.push hc
    · intro hmem
      exact hfP (by rw [hP]; exact List.mem_append_left _ hmem)
    · simp
    · intro b hb
      simp only [setWord_of_ne hb]

/-! ## Counting the free frames -/

theorem count_regions_toNat (rs : List MemRegion) (count : Word)
    (h : count.toNat + (regionFrames rs).length < 2 ^ 64) :
    (count_regions rs count).toNat = count.toNat + (regionFrames rs).length := by
  induction rs generalizing count with
  | nil => simp [count_regions, regionFrames]
  | cons r rest ih =>
    rw [regionFrames_cons, List.length_append] at h ⊢
    unfold count_regions
    by_cases hv : r.valid = true
    · have hlen : r.frames.length = r.size.toNat / 4096 := by simp [MemRegion.frames, hv]
      have hadd : (count + r.size / PAGE_SIZE).toNat = count.toNat + r.frames.length := by
        rw [BitVec.toNat_add, BitVec.toNat_udiv, PAGE_SIZE_toNat, hlen]
        exact Nat.mod_eq_of_lt (by omega)
      rw [if_pos hv, ih _ (by omega), hadd]
      omega
    · have hv' : r.valid = false := by simpa using hv
      rw [if_neg (by simp [hv']), ih _ (by omega), frames_of_invalid hv']
      simp

theorem count_free_list_toNat {s : Machine} {p : Word} {chain : List Nat} (count : Word)
    (hc : Chain frameAddr INVALID_FRAME_ADDR (fun f => s.mem f 0) p chain)
    (hsmall : ∀ f ∈ chain, f < 2 ^ 52) (hlt : count.toNat + chain.length < 2 ^ 64)
    (fuel : Nat) (hfuel : chain.length < fuel) :
    ∃ c, count_free_list s fuel p count = some c ∧ c.toNat = count.toNat + chain.length := by
  induction chain generalizing p count fuel with
  | nil =>
    obtain ⟨n, rfl⟩ : ∃ n, fuel = n + 1 := ⟨fuel - 1, by omega⟩
    refine ⟨count, ?_, by simp⟩
    unfold count_free_list
    rw [if_pos (chain_nil_iff.mp hc)]
  | cons f chain ih =>
    obtain ⟨n, rfl⟩ : ∃ n, fuel = n + 1 := ⟨fuel - 1, by omega⟩
    obtain ⟨rfl, hrest⟩ := chain_cons_iff.mp hc
    have hf := hsmall f List.mem_cons_self
    simp only [List.length_cons] at hlt hfuel
    have hone : (count + 1).toNat = count.toNat + 1 := by
      rw [BitVec.toNat_add]
      exact Nat.mod_eq_of_lt (by simp; omega)
    have hload : s.load (frameAddr f) = s.mem f 0 := by
      unfold Machine.load
      rw [frameOf_frameAddr hf, wordOf_frameAddr hf]
    obtain ⟨c, hrun, hval⟩ := ih (count + 1) hrest (fun g hg => hsmall g (List.mem_cons_of_mem _ hg))
      (by omega) n (by omega)
    refine ⟨c, ?_, by rw [hval, hone, List.length_cons]; omega⟩
    unfold count_free_list
    rw [if_neg (frameAddr_ne_invalid hf), hload]
    exact hrun

/-- Frames that stand once each, all below 2^52, are fewer than 2^64. -/
theorem length_lt_of_small {L : List Nat} (hnd : L.Nodup) (hs : ∀ f ∈ L, f < 2 ^ 52) :
    L.length < 2 ^ 64 := by
  have hsub : L ⊆ List.range (2 ^ 52) := fun f hf => List.mem_range.mpr (hs f hf)
  have := (hnd.subperm hsub).length_le
  rw [List.length_range] at this
  omega

/-- The count of the free frames is the size of the pool, given turns enough. -/
theorem MMU_pf_free_count.spec {s : Machine} {P chain : List Nat} (h : Pool s P) (hnd : P.Nodup)
    (hc : FreeList s chain) (hP : P = chain ++ regionFrames s.usable_regions)
    (fuel : Nat) (hfuel : chain.length < fuel) :
    ∃ c, MMU_pf_free_count fuel s = some c ∧ c.toNat = P.length := by
  have hlen := length_lt_of_small hnd h.small
  rw [hP, List.length_append] at hlen
  have hreg : (count_regions s.usable_regions 0).toNat =
      (regionFrames s.usable_regions).length := by
    rw [count_regions_toNat _ _ (by simp; omega)]
    simp
  have hchain : ∀ f ∈ chain, f < 2 ^ 52 := fun f hf =>
    h.small f (by rw [hP]; exact List.mem_append_left _ hf)
  obtain ⟨c, hrun, hval⟩ := count_free_list_toNat (count_regions s.usable_regions 0) hc hchain
    (by rw [hreg]; omega) fuel hfuel
  refine ⟨c, hrun, ?_⟩
  rw [hval, hreg, hP, List.length_append]
  omega

/-- The allocator fails just when the pool is empty. -/
theorem MMU_pf_alloc.fails_iff {s : Machine} {P : List Nat} (h : Pool s P) :
    (MMU_pf_alloc s).1 = INVALID_FRAME_ADDR ↔ P = [] := by
  cases P with
  | nil => simp [MMU_pf_alloc.spec_nil h]
  | cons f P =>
    obtain ⟨ff, rs, heq, _⟩ := MMU_pf_alloc.spec_cons h
    simp [heq, frameAddr_ne_invalid (h.small f List.mem_cons_self)]

/-! ## Clients of the allocator -/

/-- What the clients of the allocator do: take a frame, give one back, and write a word at
some address. -/
inductive ClientEvent where
  | alloc
  | free (pf : Word)
  | write (p v : Word)

/-- The machine and the frames that are out, by the pointers that `MMU_pf_alloc` gave. -/
structure Clients where
  machine : Machine
  outstanding : List Word

/-- The frames that are out. -/
def Clients.frames (c : Clients) : List Nat := c.outstanding.map frameOf

/-- One event. Only a frame that is out is freed or written. -/
def client_step : ClientEvent → Clients → Option Clients
  | .alloc, c =>
    let (pf, s) := MMU_pf_alloc c.machine
    if pf = INVALID_FRAME_ADDR then some { c with machine := s }
    else some { machine := s, outstanding := pf :: c.outstanding }
  | .free pf, c =>
    if pf ∈ c.outstanding then
      some { machine := MMU_pf_free pf c.machine, outstanding := c.outstanding.erase pf }
    else none
  | .write p v, c =>
    if frameOf p ∈ c.frames then some { c with machine := c.machine.store p v } else none

/-- The pool and the frames that are out are together the frames of the start, each one
once. -/
structure Partition (all : List Nat) (c : Clients) (P : List Nat) : Prop where
  pool : Pool c.machine P
  aligned : ∀ pf ∈ c.outstanding, pf = frameAddr (frameOf pf)
  perm : (c.frames ++ P).Perm all

theorem client_step_keeps_the_partition {all : List Nat} (hnd : all.Nodup) (e : ClientEvent)
    (c c' : Clients) (h : ∃ P, Partition all c P) (hstep : client_step e c = some c') :
    ∃ P, Partition all c' P := by
  obtain ⟨P, hpool, hal, hperm⟩ := h
  have hnd' : (c.frames ++ P).Nodup := hperm.nodup_iff.mpr hnd
  cases e with
  | alloc =>
    cases P with
    | nil =>
      simp only [client_step, MMU_pf_alloc.spec_nil hpool, if_true, Option.some.injEq] at hstep
      subst hstep
      exact ⟨[], hpool, hal, hperm⟩
    | cons f P =>
      have hf := hpool.small f List.mem_cons_self
      obtain ⟨ff, rs, heq, hpool'⟩ := MMU_pf_alloc.spec_cons hpool
      simp only [client_step, heq, frameAddr_ne_invalid hf, if_false, Option.some.injEq] at hstep
      subst hstep
      refine ⟨P, hpool', ?_, ?_⟩
      · intro pf hpf
        rcases List.mem_cons.mp hpf with rfl | hpf
        · rw [frameOf_frameAddr hf]
        · exact hal pf hpf
      · simp only [Clients.frames, List.map_cons, frameOf_frameAddr hf, List.cons_append]
        exact List.perm_middle.symm.trans hperm
  | free pf =>
    simp only [client_step] at hstep
    split at hstep
    · rename_i hpf
      cases hstep
      have hmem : frameOf pf ∈ c.frames := List.mem_map_of_mem hpf
      have hout : frameOf pf ∉ P := by
        intro hP
        exact (List.nodup_append.mp hnd').2.2 _ hmem _ hP rfl
      have hspec := MMU_pf_free.spec hpool (frameOf_lt pf) hout
      rw [← hal pf hpf] at hspec
      refine ⟨frameOf pf :: P, hspec.2, ?_, ?_⟩
      · intro q hq
        exact hal q (List.mem_of_mem_erase hq)
      · have herase : (pf :: c.outstanding.erase pf).Perm c.outstanding :=
          (List.perm_cons_erase hpf).symm
        have hmap := (herase.map frameOf).append_right P
        simp only [List.map_cons, List.cons_append] at hmap
        exact List.perm_middle.trans (hmap.trans hperm)
    · cases hstep
  | write p v =>
    simp only [client_step] at hstep
    split at hstep
    · rename_i hp
      cases hstep
      have hout : ∀ f ∈ P, f ≠ frameOf p := by
        rintro f hf rfl
        exact (List.nodup_append.mp hnd').2.2 _ hp _ hf rfl
      refine ⟨P, hpool.congr rfl rfl ?_, hal, hperm⟩
      intro f hf
      exact setWord_of_ne (hout f hf) _ _
    · cases hstep

/-- No frame of the one region is a frame of the other. -/
def MemRegion.Apart (r r' : MemRegion) : Prop := ∀ f ∈ r.frames, f ∉ r'.frames

theorem frames_nodup {r : MemRegion} (h : r.Ok) : r.frames.Nodup := by
  unfold MemRegion.frames
  split
  · rename_i hv
    have ha := h.aligned hv
    have hsize := r.size.isLt
    refine (List.nodup_map_iff_inj_on List.nodup_range).mpr ?_
    intro i hi j hj hij
    rw [List.mem_range] at hi hj
    simp only [frameOf, BitVec.toNat_add, BitVec.toNat_ofNat] at hij
    omega
  · exact List.nodup_nil

theorem regionFrames_nodup {rs : List MemRegion} (hok : ∀ r ∈ rs, r.Ok)
    (hap : rs.Pairwise MemRegion.Apart) : (regionFrames rs).Nodup := by
  unfold regionFrames
  rw [List.nodup_flatMap]
  exact ⟨fun r hr => frames_nodup (hok r hr), hap⟩

/-- A run of the clients from a machine without freed frames keeps the partition. -/
theorem client_run_keeps_the_partition {s : Machine} {es : List ClientEvent} {c : Clients}
    (hempty : s.free_frames = INVALID_FRAME_ADDR) (hok : ∀ r ∈ s.usable_regions, r.Ok)
    (hap : s.usable_regions.Pairwise MemRegion.Apart)
    (hrun : Runs.run client_step es { machine := s, outstanding := [] } = some c) :
    ∃ P, Partition (regionFrames s.usable_regions) c P := by
  have hstart : Partition (regionFrames s.usable_regions) { machine := s, outstanding := [] }
      (regionFrames s.usable_regions) := by
    refine ⟨⟨?_, hok, [], ?_, rfl⟩, by simp, by simp [Clients.frames]⟩
    · intro f hf
      obtain ⟨r, _, hfr⟩ := List.mem_flatMap.mp hf
      unfold MemRegion.frames at hfr
      split at hfr
      · obtain ⟨i, _, rfl⟩ := List.mem_map.mp hfr
        exact frameOf_lt _
      · simp at hfr
    · exact chain_nil_iff.mpr hempty
  exact Runs.run_keeps (I := fun c => ∃ P, Partition (regionFrames s.usable_regions) c P)
    (client_step_keeps_the_partition (regionFrames_nodup hok hap)) ⟨_, hstart⟩ hrun

/-- Whatever the clients do, the frames that are out, those on the list of freed frames and
those of the valid regions are the frames of the start, each one exactly once. The list of
freed frames ends at the end marker, the count of the free frames is the start count less
the frames that are out, and the allocator fails just when that count is 0. -/
theorem frame_allocator_partition (s : Machine) (es : List ClientEvent) (c : Clients)
    (hempty : s.free_frames = INVALID_FRAME_ADDR) (hok : ∀ r ∈ s.usable_regions, r.Ok)
    (hap : s.usable_regions.Pairwise MemRegion.Apart)
    (hrun : Runs.run client_step es { machine := s, outstanding := [] } = some c) :
    (∀ pf ∈ c.outstanding, pf = frameAddr (frameOf pf)) ∧
    ∃ chain, FreeList c.machine chain ∧
      (c.frames ++ chain ++ regionFrames c.machine.usable_regions).Nodup ∧
      (∀ f, f ∈ c.frames ++ chain ++ regionFrames c.machine.usable_regions ↔
        f ∈ regionFrames s.usable_regions) ∧
      (∀ fuel > chain.length, ∃ count, MMU_pf_free_count fuel c.machine = some count ∧
        count.toNat = (regionFrames s.usable_regions).length - c.outstanding.length) ∧
      ((MMU_pf_alloc c.machine).1 = INVALID_FRAME_ADDR ↔
        (regionFrames s.usable_regions).length - c.outstanding.length = 0) := by
  have hnd := regionFrames_nodup hok hap
  obtain ⟨P, hpool, hal, hperm⟩ := client_run_keeps_the_partition hempty hok hap hrun
  obtain ⟨chain, hc, hP⟩ := hpool.listed
  have hall : c.frames ++ chain ++ regionFrames c.machine.usable_regions = c.frames ++ P := by
    rw [hP, List.append_assoc]
  have hnd' : (c.frames ++ P).Nodup := hperm.nodup_iff.mpr hnd
  have hlen : P.length = (regionFrames s.usable_regions).length - c.outstanding.length := by
    have := hperm.length_eq
    simp only [List.length_append, Clients.frames, List.length_map] at this
    omega
  refine ⟨hal, chain, hc, by rw [hall]; exact hnd', ?_, ?_, ?_⟩
  · intro f
    rw [hall]
    exact hperm.mem_iff
  · intro fuel hfuel
    rw [← hlen]
    exact MMU_pf_free_count.spec hpool (List.nodup_append.mp hnd').2.1 hc hP fuel hfuel
  · rw [MMU_pf_alloc.fails_iff hpool, ← hlen]
    exact List.length_eq_zero_iff.symm

/-- A machine with frame 0 and frame 1 in one region, frame 4 in another, and an unused
slot between them. -/
def threeFrames : Machine where
  mem := fun _ _ => 0
  usable_regions := [⟨0, 8192, true⟩, ⟨0, 0, false⟩, ⟨0x4000, 4096, true⟩]
  free_frames := INVALID_FRAME_ADDR
  kernel_cr3 := 0x100000
  kernel_va := 0x010000000000
  cr3 := 0x100000
  interrupts := false

theorem threeFrames_ok : ∀ r ∈ threeFrames.usable_regions, r.Ok := by
  intro r hr
  simp only [threeFrames, List.mem_cons, List.not_mem_nil, or_false] at hr
  rcases hr with rfl | rfl | rfl
  · exact ⟨fun _ => by decide, fun _ => by decide, fun _ => by decide⟩
  · exact ⟨fun h => by simp at h, fun h => by simp at h, fun h => by simp at h⟩
  · exact ⟨fun _ => by decide, fun _ => by decide, fun _ => by decide⟩

theorem threeFrames_apart : threeFrames.usable_regions.Pairwise MemRegion.Apart := by
  unfold MemRegion.Apart
  decide

/-- Two frames are taken, the first one, frame 0, is written and given back: two of the
three frames are then free. -/
theorem frame_allocator_partition_threeFrames :
    ∃ c, Runs.run client_step [.alloc, .alloc, .write 0x8 7, .free 0]
        { machine := threeFrames, outstanding := [] } = some c ∧
      ∃ chain, FreeList c.machine chain ∧ ∀ fuel > chain.length, ∃ count,
        MMU_pf_free_count fuel c.machine = some count ∧ count.toNat = 3 - 1 := by
  refine ⟨_, rfl, ?_⟩
  obtain ⟨_, chain, hc, _, _, hcount, _⟩ := frame_allocator_partition threeFrames
    [.alloc, .alloc, .write 0x8 7, .free 0] _ rfl threeFrames_ok threeFrames_apart rfl
  exact ⟨chain, hc, hcount⟩

end JamsOs
