import Jungle.KernelList.Runs
import Mathlib.Algebra.Group.Nat.Defs

/-!
# Hash tables

`pintos/lib/kernel/hash.c`. An element is the address of its `struct hash_elem`, which is a cell of a
kernel list, and a table is an array of lists. `hash` and `less` are the functions of the table, with
its auxiliary data. `mem` is what `malloc` returns for a size. A call faults, with `none`, where an
`ASSERT` fails and where it follows a pointer to no cell. The elements are at different addresses, so
that no count of them overflows. `fuel` bounds the rounds of the loops whose rounds are not counted.
-/

set_option autoImplicit false
set_option relaxedAutoImplicit false

namespace Jungle.Hash

open Jungle.Lib Jungle.KernelList

/-- `struct hash`, without its functions. -/
structure Table where
  elemCnt : ℕ
  bucketCnt : ℕ
  buckets : ℕ
deriving DecidableEq, Repr

/-- `sizeof (struct list_elem)` -/
def elemSize : ℕ := 16

/-- `sizeof (struct list)` -/
def listSize : ℕ := 2 * elemSize

/-- `&buckets[i]` -/
def bucketAt (buckets i : ℕ) : KList :=
  ⟨buckets + listSize * i, buckets + listSize * i + elemSize⟩

/-- The address of a head or a tail in an array of lists. -/
def InArray (buckets n a : ℕ) : Prop :=
  buckets ≤ a ∧ a < buckets + listSize * n ∧ (a - buckets) % elemSize = 0

instance (buckets n a : ℕ) : Decidable (InArray buckets n a) := by
  unfold InArray
  infer_instance

/-- The cells with an array of lists allocated. -/
def allocLists (m : Elems) (buckets n : ℕ) : Elems := fun a ↦
  if InArray buckets n a then some ⟨none, none⟩ else m a

/-- `free (buckets)` -/
def freeLists (m : Elems) (buckets n : ℕ) : Elems := fun a ↦
  if InArray buckets n a then none else m a

/-- `hash_clear (h, NULL)` -/
def hashClear (m : Elems) (h : Table) : Option (Elems × Table) := do
  let m ← initLists (bucketAt h.buckets) m (List.range h.bucketCnt)
  return (m, { h with elemCnt := 0 })

/-- `hash_init (h, hash, less, aux)`: `none` inside where it returns false. -/
def hashInit (mem : ℕ → Option ℕ) (m : Elems) : Option (Option (Elems × Table)) :=
  match mem (listSize * 4) with
  | none => some none
  | some buckets => (hashClear (allocLists m buckets 4) ⟨0, 4, buckets⟩).map some

/-- `find_bucket (h, e)` -/
def findBucket (hash : ℕ → UInt64) (h : Table) (e : ℕ) : KList :=
  bucketAt h.buckets ((hash e).toNat &&& (h.bucketCnt - 1))

/-- A round of the loop of `find_elem`. -/
def findBody (less : ℕ → ℕ → Bool) (m : Elems) (bucket : KList) (e : ℕ) (i : Option ℕ) :
    Option (Option ℕ ⊕ Option ℕ) :=
  if i = some (listEnd bucket) then some (.inr none)
  else do
    let hi ← i
    if !less hi e && !less e hi then return .inr (some hi)
    else return .inl (← listNext m hi)

/-- `find_elem (h, bucket, e)` -/
def findElem (less : ℕ → ℕ → Bool) (fuel : ℕ) (m : Elems) (bucket : KList) (e : ℕ) :
    Option (Option ℕ) := do
  whileLoop (findBody less m bucket e) fuel (← listBegin m bucket)

/-- `turn_off_least_1bit (x)` -/
def turnOffLeast1bit (x : ℕ) : ℕ := x &&& (x - 1)

/-- `is_power_of_2 (x)` -/
def isPowerOf2 (x : ℕ) : Bool := x ≠ 0 ∧ turnOffLeast1bit x = 0

/-- `BEST_ELEMS_PER_BUCKET` -/
def bestElemsPerBucket : ℕ := 2

/-- A round of the first loop of `rehash`. -/
def roundBody (n : ℕ) : Option (ℕ ⊕ ℕ) :=
  if isPowerOf2 n then some (.inr n) else some (.inl (turnOffLeast1bit n))

/-- The number of buckets that `rehash` wants. -/
def newBucketCnt (fuel elemCnt : ℕ) : Option ℕ :=
  let n := elemCnt / bestElemsPerBucket
  whileLoop roundBody fuel (if n < 4 then 4 else n)

/-- A round of the loop of `rehash` over an old bucket. -/
def moveBody (hash : ℕ → UInt64) (h : Table) (oldBucket : KList) :
    Elems × Option ℕ → Option ((Elems × Option ℕ) ⊕ Elems)
  | (m, elem) =>
    if elem = some (listEnd oldBucket) then some (.inr m)
    else do
      let elem ← elem
      let newBucket := findBucket hash h elem
      let next ← listNext m elem
      let (_, m) ← listRemove m elem
      let m ← listPushFront m newBucket elem
      return .inl (m, next)

/-- A round of the loop of `rehash` over the old buckets. -/
def moveBucket (hash : ℕ → UInt64) (h : Table) (oldBuckets fuel : ℕ) (m : Elems) (i : ℕ) :
    Option Elems := do
  let oldBucket := bucketAt oldBuckets i
  whileLoop (moveBody hash h oldBucket) fuel (m, ← listBegin m oldBucket)

/-- `rehash (h)` -/
def rehash (hash : ℕ → UInt64) (mem : ℕ → Option ℕ) (fuel : ℕ) (m : Elems) (h : Table) :
    Option (Elems × Table) := do
  let newCnt ← newBucketCnt fuel h.elemCnt
  if newCnt = h.bucketCnt then return (m, h)
  else
    match mem (listSize * newCnt) with
    | none => return (m, h)
    | some newBuckets =>
      let m ← initLists (bucketAt newBuckets) (allocLists m newBuckets newCnt) (List.range newCnt)
      let h' := { h with buckets := newBuckets, bucketCnt := newCnt }
      let m ← (List.range h.bucketCnt).foldlM (moveBucket hash h' h.buckets fuel) m
      return (freeLists m h.buckets h.bucketCnt, h')

/-- `insert_elem (h, bucket, e)` -/
def insertElem (m : Elems) (h : Table) (bucket : KList) (e : ℕ) : Option (Elems × Table) := do
  let m ← listPushFront m bucket e
  return (m, { h with elemCnt := h.elemCnt + 1 })

/-- `remove_elem (h, e)` -/
def removeElem (m : Elems) (h : Table) (e : ℕ) : Option (Elems × Table) := do
  let (_, m) ← listRemove m e
  return (m, { h with elemCnt := h.elemCnt - 1 })

section

variable (hash : ℕ → UInt64) (less : ℕ → ℕ → Bool) (mem : ℕ → Option ℕ) (fuel : ℕ) (m : Elems)
  (h : Table)

/-- `hash_insert (h, new)`: the old element, the cells and the table. -/
def hashInsert (new : ℕ) : Option (Option ℕ × Elems × Table) := do
  let bucket := findBucket hash h new
  let old ← findElem less fuel m bucket new
  let (m, h) ← if old = none then insertElem m h bucket new else some (m, h)
  let (m, h) ← rehash hash mem fuel m h
  return (old, m, h)

/-- `hash_replace (h, new)`: the old element, the cells and the table. -/
def hashReplace (new : ℕ) : Option (Option ℕ × Elems × Table) := do
  let bucket := findBucket hash h new
  let old ← findElem less fuel m bucket new
  let (m, h) ← match old with
    | some old => removeElem m h old
    | none => some (m, h)
  let (m, h) ← insertElem m h bucket new
  let (m, h) ← rehash hash mem fuel m h
  return (old, m, h)

/-- `hash_find (h, e)` -/
def hashFind (e : ℕ) : Option (Option ℕ) := findElem less fuel m (findBucket hash h e) e

/-- `hash_delete (h, e)`: the element found, the cells and the table. -/
def hashDelete (e : ℕ) : Option (Option ℕ × Elems × Table) := do
  let found ← findElem less fuel m (findBucket hash h e) e
  match found with
  | some old =>
    let (m, h) ← removeElem m h old
    let (m, h) ← rehash hash mem fuel m h
    return (found, m, h)
  | none => return (found, m, h)

end

end Jungle.Hash
