import LightOS.Layout
import LightOS.Lib.Spans

/-!
# The kernel heap

The allocator of `kernel/mem/kalloc.rs`. Free blocks form a linked list that lives
in the free memory itself: the size of a block stands in its first word and the
address of the next block in its second. Both loops follow these links in raw
memory, so on a damaged list they need not end; a loop that has followed more links
than there are addresses counts as spinning forever. What the page allocator
answers to a request for more memory is an input.
-/
namespace LightOS.Kalloc
open Lib

abbrev minBlock : ℕ := 16
abbrev initialHeapPages : ℕ := 1024

/-- `core::alloc::Layout`: the alignment is a power of two and the size rounded up
to it fits in an `isize`. -/
structure Layout where
  size : ℕ
  align : ℕ
  pow : ∃ k, align = 2 ^ k
  fits : size + align ≤ 2 ^ 63

instance : DecidableEq Layout := fun a b =>
  decidable_of_iff (a.size = b.size ∧ a.align = b.align) (by
    cases a
    cases b
    simp)

/-- Effective block size for a layout: padded to 16 bytes, at least 16. -/
def blockSize (l : Layout) : ℕ := max minBlock ((l.size + (minBlock - 1)) / minBlock * minBlock)

/-- The memory that holds the blocks, and the head of the list; 0 is null. -/
structure FreeList where
  mem : Mem
  head : ℕ

/-- The allocator stops by a panic, or never comes back from a loop. -/
inductive HeapStop where
  | fault (f : Fault)
  | spins

abbrev HeapM := Prog FreeList HeapStop

def heapAdd (a b : ℕ) : HeapM ℕ := Prog.ofExcept ((checkedAdd a b).mapError .fault)

def sizeOf (mem : Mem) (block : ℕ) : ℕ := readWord mem block
def nextOf (mem : Mem) (block : ℕ) : ℕ := readWord mem (block + 8)

def setSize (block v : ℕ) : HeapM Unit := modify fun h => { h with mem := writeWord h.mem block v }
def setNext (block v : ℕ) : HeapM Unit :=
  modify fun h => { h with mem := writeWord h.mem (block + 8) v }

/-- Links followed before a loop counts as endless. -/
@[irreducible] def linkBound : ℕ := usizeBound

/-- The search loop of `insert`: the last block below `addr` and the one after. -/
def seek (mem : Mem) (addr : ℕ) : ℕ → ℕ → ℕ → Option (ℕ × ℕ)
  | 0, _, _ => none
  | n + 1, prev, cur =>
    if cur ≠ 0 ∧ cur < addr then seek mem addr n cur (nextOf mem cur) else some (prev, cur)

namespace FreeList

/-- Merge the new block with the next one if they touch. -/
def mergeForward (addr size cur : ℕ) : HeapM Unit := do
  if cur ≠ 0 then
    if (← heapAdd addr size) = cur then
      let h ← get
      setSize addr (← heapAdd (sizeOf h.mem addr) (sizeOf h.mem cur))
      setNext addr (nextOf h.mem cur)

/-- Hang the new block behind `prev`, or merge the two if they touch. -/
def linkBehind (prev addr : ℕ) : HeapM Unit := do
  if prev = 0 then modify fun h => { h with head := addr }
  else
    let h ← get
    if (← heapAdd prev (sizeOf h.mem prev)) = addr then
      setSize prev (← heapAdd (sizeOf h.mem prev) (sizeOf h.mem addr))
      setNext prev (nextOf h.mem addr)
    else setNext prev addr

/-- Insert a free block, keeping the list address-ordered and merging with adjacent
neighbours. -/
def insert (addr size : ℕ) : HeapM Unit := do
  let h ← get
  match seek h.mem addr linkBound 0 h.head with
  | none => Prog.stop .spins
  | some (prev, cur) =>
    setSize addr size
    setNext addr cur
    mergeForward addr size cur
    linkBehind prev addr

def unlink (prev next : ℕ) : HeapM Unit :=
  if prev = 0 then modify fun h => { h with head := next } else setNext prev next

/-- Return the front padding of a block, if any. -/
def givePad (start pad : ℕ) : HeapM Unit := if pad > 0 then insert start pad else pure ()

/-- Return the tail remainder of a block, if any. -/
def giveTail (aligned size tail : ℕ) : HeapM Unit :=
  if tail > 0 then do
    insert (← heapAdd aligned size) tail
  else pure ()

/-- Take `cur` out of the list and give its front padding and its tail back. -/
def carve (prev cur aligned pad size : ℕ) : HeapM ℕ := do
  let h ← get
  let total := sizeOf h.mem cur
  unlink prev (nextOf h.mem cur)
  givePad cur pad
  giveTail aligned size (total - pad - size)
  return aligned

/-- The first-fit loop. -/
def takeLoop (size align : ℕ) : ℕ → ℕ → ℕ → HeapM ℕ
  | 0, _, _ => Prog.stop .spins
  | n + 1, prev, cur => do
    if cur = 0 then return 0
    else
      -- `(start + align - 1) & !(align - 1)` for a power of two
      let aligned := ((← heapAdd cur align) - 1) / align * align
      let pad := aligned - cur
      let h ← get
      if (← heapAdd pad size) ≤ sizeOf h.mem cur then carve prev cur aligned pad size
      else takeLoop size align n cur (nextOf h.mem cur)

/-- First-fit search for `size` bytes at `align`; null if no block fits. -/
def take (size align : ℕ) : HeapM ℕ := do
  let h ← get
  takeLoop size align linkBound 0 h.head

end FreeList

/-- `page_alloc` zeroes the region that it hands out. -/
def donate (addr pages : ℕ) : HeapM Unit := do
  modify fun h => { h with mem := fillZero h.mem addr (pages * pageSize) }
  FreeList.insert addr (pages * pageSize)

/-- Pages requested when no free block fits. -/
def requestPages (l : Layout) : ℕ :=
  max ((blockSize l + max l.align minBlock) / pageSize + 1) 16

/-- `GlobalAlloc::alloc`; `grown` is what `page_alloc` returns if it is called. -/
def heapAlloc (l : Layout) (grown : Option ℕ) : HeapM ℕ := do
  let size := blockSize l
  let align := max l.align minBlock
  let p ← FreeList.take size align
  if p ≠ 0 then return p
  else
    match grown with
    | none => return 0
    | some addr =>
      donate addr (requestPages l)
      FreeList.take size align

/-- `GlobalAlloc::dealloc`. -/
def heapDealloc (p : ℕ) (l : Layout) : HeapM Unit := FreeList.insert p (blockSize l)

/-- Seed the heap with the initial region. -/
def heapInit (addr : ℕ) : HeapM Unit := donate addr initialHeapPages

end LightOS.Kalloc
