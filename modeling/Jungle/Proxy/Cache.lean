import Jungle.Lib.Loop
import Jungle.Lib.MachineInt
import Jungle.Lib.Store

/-!
# The cache of the proxy

The cache of `webproxy-lab/proxy.c` and the parts of `handle_client` that work on it: the lookup, the
eviction loop and the insertion. The store holds the `cache_block_t` cells; an operation faults,
with `none`, where it follows a null or dangling pointer. The bytes behind `data` belong to one
block from its allocation to its release, so the block holds them itself. C strings are lists of
characters without the terminator.
-/

set_option autoImplicit false
set_option relaxedAutoImplicit false

namespace Jungle.Proxy

open Jungle.Lib

/-- `MAXLINE` -/
def maxLine : ℕ := 8192

/-- `MAX_CACHE_SIZE` -/
def maxCacheSize : ℤ := 1049000

/-- `MAX_OBJECT_SIZE` -/
def maxObjectSize : ℤ := 102400

/-- The fields of a `cache_block_t` but the links. -/
structure CacheObject where
  url : List Char
  data : List UInt8
  size : ℤ
  referenceBit : ℤ
deriving DecidableEq, Repr

/-- `cache_block_t` -/
structure CacheBlock extends CacheObject where
  prev : Option ℕ
  next : Option ℕ
deriving DecidableEq, Repr

/-- `cache_t`, less its unused lock, and the cells of the blocks. -/
structure Cache where
  head : Option ℕ
  tail : Option ℕ
  totalSize : ℤ
  blocks : Store CacheBlock

/-- `cache_init` -/
def cacheInit (blocks : Store CacheBlock) : Cache := ⟨none, none, 0, blocks⟩

namespace Cache

/-- Changes the block at an address. -/
def updateBlock (c : Cache) (a : ℕ) (change : CacheBlock → CacheBlock) : Option Cache := do
  let blocks ← c.blocks.update? a change
  return { c with blocks := blocks }

/-- `a->next = next` -/
def setNext (c : Cache) (a : ℕ) (next : Option ℕ) : Option Cache :=
  c.updateBlock a fun b ↦ { b with next := next }

/-- `a->prev = prev` -/
def setPrev (c : Cache) (a : ℕ) (prev : Option ℕ) : Option Cache :=
  c.updateBlock a fun b ↦ { b with prev := prev }

/-- `a->reference_bit = bit` -/
def setReferenceBit (c : Cache) (a : ℕ) (bit : ℤ) : Option Cache :=
  c.updateBlock a fun b ↦ { b with referenceBit := bit }

end Cache

/-! ### The lookup -/

/-- One round of the loop over the list. -/
def lookupBody (c : Cache) (fullUrl : List Char) :
    Option ℕ → Option (Option ℕ ⊕ Option ℕ)
  | none => some (.inr none)
  | some temp => do
    let b ← c.blocks temp
    if fullUrl = b.url then return .inr (some temp) else return .inl b.next

/-- The lookup: the block found, and the cache with its reference bit set. -/
def lookup (fuel : ℕ) (c : Cache) (fullUrl : List Char) : Option (Option ℕ × Cache) := do
  match ← whileLoop (lookupBody c fullUrl) fuel c.head with
  | none => return (none, c)
  | some temp => return (some temp, ← c.setReferenceBit temp 1)

/-! ### The eviction loop -/

/-- `cache.tail = tail->prev; if (cache.tail) cache.tail->next = NULL` -/
def detachTail (c : Cache) (tail : ℕ) : Option Cache := do
  let t ← c.blocks tail
  let c := { c with tail := t.prev }
  match c.tail with
  | some a => c.setNext a none
  | none => return c

/-- Linking a block in before the head: `t->prev = NULL; t->next = cache.head;
if (cache.head) cache.head->prev = t; cache.head = t` -/
def pushHead (c : Cache) (t : ℕ) : Option Cache := do
  let c ← c.setPrev t none
  let c ← c.setNext t c.head
  let c ← match c.head with
    | some a => c.setPrev a (some t)
    | none => some c
  return { c with head := some t }

/-- The second chance of a tail whose reference bit is set: it moves to the head. -/
def secondChance (c : Cache) (tail : ℕ) : Option Cache := do
  let c ← c.setReferenceBit tail 0
  let c ← detachTail c tail
  let c ← pushHead c tail
  if c.tail = none then return { c with tail := some tail } else return c

/-- The removal of a tail whose reference bit is not set. -/
def removeTail (c : Cache) (tail : ℕ) : Option Cache := do
  let c ← detachTail c tail
  let c := if c.tail = none then { c with head := none } else c
  let t ← c.blocks tail
  return { c with totalSize := int32 (c.totalSize - t.size), blocks := c.blocks.free tail }

/-- One round of the eviction loop. -/
def evictBody (totalBytes : ℤ) (c : Cache) : Option (Cache ⊕ Cache) :=
  if int32 (c.totalSize + totalBytes) > maxCacheSize then
    match c.tail with
    | none => some (.inr c)
    | some tail => do
      let t ← c.blocks tail
      if t.referenceBit = 1 then return .inl (← secondChance c tail)
      else return .inl (← removeTail c tail)
  else some (.inr c)

/-! ### The insertion -/

/-- The new block of an object, linked in before the head. -/
def insertBlock (c : Cache) (fullUrl : List Char) (data : List UInt8) (totalBytes : ℤ) (t : ℕ) :
    Option Cache := do
  let c := { c with blocks := c.blocks.put t ⟨⟨fullUrl, data, totalBytes, 1⟩, none, c.head⟩ }
  let c ← match c.head with
    | some a => c.setPrev a (some t)
    | none => some { c with tail := some t }
  return { c with head := some t, totalSize := int32 (c.totalSize + totalBytes) }

/-- The part of `handle_client` that caches an object that is small enough, `t` being the address
`malloc` returns. -/
def cacheObject (fuel : ℕ) (c : Cache) (fullUrl : List Char) (data : List UInt8)
    (totalBytes : ℤ) (t : ℕ) : Option Cache := do
  let c ← whileLoop (evictBody totalBytes) fuel c
  insertBlock c fullUrl data totalBytes t

end Jungle.Proxy
