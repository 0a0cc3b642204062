-- The kernel heap (`kmalloc.c`): six pools of blocks, whose free blocks are linked through their
-- first word, and whole pages for what is too large for the pools. A header of two words stands in
-- front of each allocation.
--
-- Addresses are numbers below 2^48, and 0 is NULL. The memory of the heap is given by its 8-byte
-- words. Whether the page tables have room for the pages of an allocation is `ok`. The address of
-- `pools[i]` is some word other than 0, and is taken to be `i + 1`.
import JamsOs.VPages

namespace JamsOs

open Words

/-! ## The state -/

def NUM_POOLS : Nat := 6

abbrev PoolId := Fin NUM_POOLS

/-- The field `max_size` of the pools, which no code writes. -/
def max_size : PoolId → Nat := ![32, 64, 128, 512, 1024, 2048]

/-- The other fields of `struct kmalloc_pool`. -/
structure KmallocPool where
  avail : BitVec 32
  head : Word

/-- An allocation that a client holds. -/
structure Alloc where
  ptr : Nat
  size : Nat
  deriving DecidableEq

/-- The state of the heap. The history is in `pages`, the numbers of the pages that each pool has
got, and in `live`, the allocations that were not freed. -/
structure Heap where
  mem : Nat → Word
  pools : PoolId → KmallocPool
  kernel_va : Nat
  reserved : Nat → Bool
  interrupts : Bool
  pages : PoolId → List Nat
  live : List Alloc

def Heap.load (h : Heap) (a : Nat) : Word := h.mem (a / 8)

def Heap.store (a : Nat) (v : Word) (h : Heap) : Heap :=
  { h with mem := Function.update h.mem (a / 8) v }

def Heap.set_pool (i : PoolId) (pool : KmallocPool) (h : Heap) : Heap :=
  { h with pools := Function.update h.pools i pool }

/-! ## Pages -/

/-- `MMU_alloc_pages` for the heap. A page at 2^48 or above would be one of the identity map, where
no page can be reserved. -/
def Heap.alloc_pages (num : Nat) (ok : Bool) (h : Heap) : Nat × Heap :=
  if ok ∧ h.kernel_va + num * 4096 ≤ 2 ^ 48 then
    (h.kernel_va, { h with
      reserved := fun p => h.reserved p || decide (h.kernel_va / 4096 ≤ p ∧ p < h.kernel_va / 4096 + num)
      kernel_va := h.kernel_va + num * 4096 })
  else (0, h)

/-- `MMU_alloc_page` for the heap. -/
def Heap.alloc_page (ok : Bool) (h : Heap) : Nat × Heap := h.alloc_pages 1 ok

/-- `MMU_free_pages` for the heap. -/
def Heap.free_pages (vaddr num : Nat) (h : Heap) : Heap :=
  { h with reserved := fun p => h.reserved p && !decide (vaddr / 4096 ≤ p ∧ p < vaddr / 4096 + num) }

/-! ## The pools -/

/-- One turn of the loop of `expand_pool`: block `k` of the page goes to the front of the list. -/
def link_block (i : PoolId) (page : Nat) (h : Heap) (k : Nat) : Heap :=
  let block := page + k * max_size i
  (h.store block (h.pools i).head).set_pool i { h.pools i with head := BitVec.ofNat 64 block }

def expand_pool (i : PoolId) (ok : Bool) (h : Heap) : Heap :=
  let (page, h) := h.alloc_page ok
  if page = 0 then h
  else
    let h := { h with pages := Function.update h.pages i (page / 4096 :: h.pages i) }
    let num_blocks := 4096 / max_size i
    let h := (List.range num_blocks).foldl (link_block i page) h
    h.set_pool i { h.pools i with avail := (h.pools i).avail + BitVec.ofNat 32 num_blocks }

/-- The pool with the smallest blocks that have room for the size. -/
def best_pool (total_size : Nat) : Option PoolId :=
  (List.finRange NUM_POOLS).find? fun i => total_size ≤ max_size i

def sizeof_extra : Nat := 16

def pool_ptr (i : PoolId) : Word := BitVec.ofNat 64 (i.val + 1)

/-- The pool at an address. -/
def pool_at (w : Word) : Option PoolId := (List.finRange NUM_POOLS).find? fun i => pool_ptr i = w

def pages_for (total_size : Nat) : Nat := (total_size + 4096 - 1) / 4096

/-- The end of `kmalloc`: the header is written, and the interrupts are restored. -/
def kmalloc_block (block : Nat) (pool : Word) (size : Nat) (ints_enabled : Bool) (h : Heap) :
    Nat × Heap :=
  let h := (h.store block pool).store (block + 8) (BitVec.ofNat 64 size)
  (block + sizeof_extra, { h with interrupts := ints_enabled || h.interrupts })

/-- The first block of a pool leaves its list. -/
def take_block (i : PoolId) (h : Heap) : Nat × Heap :=
  let block := (h.pools i).head.toNat
  (block, h.set_pool i ⟨(h.pools i).avail - 1, h.load block⟩)

/-- When there is no memory, the interrupts stay off. -/
def kmalloc (size : Nat) (ok : Bool) (h : Heap) : Nat × Heap :=
  if size = 0 then (0, h)
  else
    let ints_enabled := h.interrupts
    let h := { h with interrupts := false }
    let total_size := size + sizeof_extra
    match best_pool total_size with
    | some i =>
      let h := if (h.pools i).avail = 0 then expand_pool i ok h else h
      if (h.pools i).avail = 0 then (0, h)
      else
        let (block, h) := take_block i h
        kmalloc_block block (pool_ptr i) size ints_enabled h
    | none =>
      let (block, h) := h.alloc_pages (pages_for total_size) ok
      if block = 0 then (0, h) else kmalloc_block block 0 size ints_enabled h

/-- `none` stands for a header whose pool is no pool. -/
def kfree (addr : Nat) (h : Heap) : Option Heap :=
  if addr = 0 then some h
  else
    let ints_enabled := h.interrupts
    let h := { h with interrupts := false }
    let header := addr - sizeof_extra
    let restore := fun h : Heap => { h with interrupts := ints_enabled || h.interrupts }
    if h.load header ≠ 0 then
      (pool_at (h.load header)).map fun i =>
        restore ((h.store header (h.pools i).head).set_pool i
          ⟨(h.pools i).avail + 1, BitVec.ofNat 64 header⟩)
    else
      let total_size := ((h.load (header + 8)).toNat + sizeof_extra) % 2 ^ 64
      some (restore (h.free_pages header (pages_for total_size)))

/-! ## The clients -/

/-- What clients do: allocate, free what they hold, and write a byte of what they hold. -/
inductive KmallocEvent where
  | kmalloc (size : Nat) (ok : Bool)
  | kfree (addr : Nat)
  | write (addr : Nat) (v : BitVec 8)

def kmalloc_step : KmallocEvent → Heap → Option Heap
  | .kmalloc size ok, h =>
    if 0 < size ∧ size < 2 ^ 32 then
      let (ptr, h) := kmalloc size ok h
      some (if ptr = 0 then h else { h with live := ⟨ptr, size⟩ :: h.live })
    else none
  | .kfree addr, h =>
    (h.live.find? (·.ptr = addr)).bind fun a =>
      (kfree addr h).map fun h => { h with live := h.live.erase a }
  | .write addr v, h =>
    if h.live.any (fun a => a.ptr ≤ addr ∧ addr < a.ptr + a.size) then
      some (h.store addr (setByte (h.load addr) (addr % 8) v))
    else none

/-- The heap at boot. -/
def fresh_heap (mem : Nat → Word) (interrupts : Bool) : Heap where
  mem := mem
  pools := fun _ => ⟨0, 0⟩
  kernel_va := VA_KHEAP_BASE.toNat
  reserved := fun _ => false
  interrupts := interrupts
  pages := fun _ => []
  live := []

end JamsOs
