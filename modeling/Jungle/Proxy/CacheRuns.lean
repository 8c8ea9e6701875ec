import Jungle.Lib.Run
import Jungle.Proxy.Eviction

/-!
# Sequential runs of the cache

A run starts with `cache_init` and continues with lookups and insertions of objects of at most
`MAX_OBJECT_SIZE` bytes. `run_intact` says that in every cache a run reaches the two chains link the
same blocks, in opposite orders, that `total_size` is the sum of their sizes and within
`MAX_CACHE_SIZE`, that the next lookup, eviction loop and insertion terminate, and that the loop gives
no second chance to an only block.
-/

set_option autoImplicit false
set_option relaxedAutoImplicit false

namespace Jungle.Proxy

open Jungle.Lib Cache

/-- The calls of a run; `t` is what `malloc` returns for the new block. -/
inductive CacheCall
  | lookup (url : List Char)
  | insert (url : List Char) (data : List UInt8) (t : ℕ)

/-- The eviction loop for an object of `totalBytes` bytes ends in the cache `c'`. -/
def EvictsTo (totalBytes : ℤ) (c c' : Cache) : Prop :=
  Returns (fun fuel ↦ whileLoop (evictBody totalBytes) fuel c) c'

/-- `malloc`, called after the eviction loop, returns an address that is not in use then. -/
def Fresh (totalBytes : ℤ) (c : Cache) (t : ℕ) : Prop :=
  ∀ c', EvictsTo totalBytes c c' → c'.blocks t = none

/-- One call that returns. -/
def CacheStep (c : Cache) (call : CacheCall) (c' : Cache) : Prop :=
  match call with
  | .lookup url => ∃ found, Returns (fun fuel ↦ lookup fuel c url) (found, c')
  | .insert url data t => (data.length : ℤ) ≤ maxObjectSize ∧ Fresh data.length c t ∧
      Returns (fun fuel ↦ cacheObject fuel c url data data.length t) c'

/-- The chains of the cache list the same allocated blocks in opposite orders, none of them twice,
and the total size counts them. -/
structure Intact (c : Cache) (entries : List (ℕ × CacheObject)) : Prop where
  forward : Segment CacheBlock.toCacheObject CacheBlock.next c.blocks c.head entries none
  backward : Segment CacheBlock.toCacheObject CacheBlock.prev c.blocks c.tail entries.reverse none
  nodup : (entries.map Prod.fst).Nodup
  allocated : ∀ entry ∈ entries, c.blocks entry.1 ≠ none
  total : c.totalSize = sizes entries
  bounded : c.totalSize ≤ maxCacheSize

/-- The eviction loop terminates and gives no second chance to an only block. -/
def EvictsSafely (totalBytes : ℤ) (c : Cache) : Prop :=
  (∃ c', EvictsTo totalBytes c c') ∧ ∀ c' tail, Rounds (evictBody totalBytes) c c' →
    GivesSecondChance totalBytes c' tail → c'.head ≠ some tail

variable {c c' : Cache} {entries : List (ℕ × CacheObject)}

theorem holds_cacheInit (blocks : Store CacheBlock) : Holds (cacheInit blocks) [] where
  cache := ⟨⟨links_cons_cons.mpr ⟨⟨rfl, rfl⟩, links_singleton⟩, List.nodup_nil⟩,
    fun _ hentry ↦ absurd hentry List.not_mem_nil, rfl⟩
  sized _ hentry := absurd hentry List.not_mem_nil
  small _ hentry := absurd hentry List.not_mem_nil
  bounded := by decide

theorem Holds.intact (h : Holds c entries) : Intact c entries where
  forward := h.cache.forward
  backward := h.cache.backward
  nodup := h.cache.linked.nodup
  allocated entry hentry hnone := by
    have hsome := h.cache.linked.isSome (List.mem_map_of_mem hentry)
    rw [hnone] at hsome
    exact Bool.false_ne_true hsome
  total := h.cache.total
  bounded := h.cache.total.trans_le h.bounded

/-- Setting a reference bit keeps the bounds. -/
theorem Holds.withBit {front back : List (ℕ × CacheObject)} {a : ℕ} {o : CacheObject}
    (h : Holds c (front ++ (a, o) :: back)) (bit : ℤ) :
    Holds (c.withBit a bit) (front ++ (a, o.withBit bit) :: back) := by
  have hmem : ∀ entry ∈ front ++ (a, o.withBit bit) :: back,
      entry ∈ front ++ (a, o) :: back ∨ entry = (a, o.withBit bit) := by
    intro entry hentry
    rw [List.mem_append, List.mem_cons] at hentry ⊢
    tauto
  refine ⟨h.cache.withBit bit, fun entry hentry ↦ ?_, fun entry hentry ↦ ?_, ?_⟩
  · rcases hmem entry hentry with hold | rfl
    · exact h.sized entry hold
    · exact h.sized (a, o) (by simp)
  · rcases hmem entry hentry with hold | rfl
    · exact h.small entry hold
    · exact h.small (a, o) (by simp)
  · have htotal := (h.cache.withBit bit).total
    rw [← htotal]
    exact h.cache.total.trans_le h.bounded

/-- The first entry with a key, if there is one. -/
theorem exists_first (entries : List (ℕ × CacheObject)) (url : List Char) :
    (∀ entry ∈ entries, entry.2.url ≠ url) ∨ ∃ front a o back, entries = front ++ (a, o) :: back ∧
      o.url = url ∧ ∀ entry ∈ front, entry.2.url ≠ url := by
  induction entries with
  | nil => exact Or.inl fun entry hentry ↦ absurd hentry List.not_mem_nil
  | cons entry entries ih =>
    by_cases hurl : entry.2.url = url
    · exact Or.inr ⟨[], entry.1, entry.2, entries, rfl, hurl,
        fun other hother ↦ absurd hother List.not_mem_nil⟩
    · rcases ih with habsent | ⟨front, a, o, back, rfl, ho, hfront⟩
      · exact Or.inl (List.forall_mem_cons.mpr ⟨hurl, habsent⟩)
      · exact Or.inr ⟨entry :: front, a, o, back, rfl, ho, List.forall_mem_cons.mpr ⟨hurl, hfront⟩⟩

/-- The lookup returns, and the cache holds objects with the same bounds. -/
theorem lookup_returns (h : Holds c entries) (url : List Char) : ∃ found c' entries',
    Returns (fun fuel ↦ lookup fuel c url) (found, c') ∧ Holds c' entries' := by
  rcases exists_first entries url with habsent | ⟨front, a, o, back, rfl, rfl, hfront⟩
  · exact ⟨none, c, entries, lookup_eq_none h.cache habsent, h⟩
  · exact ⟨some a, _, _, lookup_eq_some h.cache hfront, h.withBit 1⟩

/-- The insertion of a small object returns, and the object comes first in the cache. -/
theorem cacheObject_returns (h : Holds c entries) (url : List Char) {data : List UInt8}
    (hsize : (data.length : ℤ) ≤ maxObjectSize) {t : ℕ} (hfresh : Fresh data.length c t) :
    ∃ c', Returns (fun fuel ↦ cacheObject fuel c url data data.length t) c' ∧
      Holds c' ((t, ⟨url, data, data.length, 1⟩) :: survivors data.length entries) := by
  have hmin : (0 : ℤ) ≤ data.length := Int.natCast_nonneg _
  obtain ⟨c₁, hevict, hholds, hfits⟩ := evict_returns h hmin hsize
  have hint : int32 (c₁.totalSize + data.length) = c₁.totalSize + data.length := by
    rw [hholds.int32_add hmin hsize, hholds.cache.total]
  obtain ⟨c', hinsert, hcache⟩ := insertBlock_eq hholds.cache (hfresh c₁ hevict) hint
  obtain ⟨bound, hbound⟩ := hevict
  refine ⟨c', ⟨bound, fun fuel hfuel ↦ ?_⟩, hcache, ?_, ?_, ?_⟩
  · simp only [cacheObject, hbound fuel hfuel, Option.bind_eq_bind, Option.bind_some, hinsert]
  · exact List.forall_mem_cons.mpr ⟨rfl, hholds.sized⟩
  · exact List.forall_mem_cons.mpr ⟨hsize, hholds.small⟩
  · rw [sizes_cons, add_comm]
    exact hfits

/-- A call keeps the bounds. -/
theorem holds_step {call : CacheCall} (h : ∃ entries, Holds c entries)
    (hstep : CacheStep c call c') : ∃ entries, Holds c' entries := by
  obtain ⟨entries, hholds⟩ := h
  cases call with
  | lookup url =>
    obtain ⟨found, hreturns⟩ := hstep
    obtain ⟨found', c₁, entries', hreturns', hholds'⟩ := lookup_returns hholds url
    obtain rfl : c' = c₁ := congrArg Prod.snd (hreturns.unique hreturns')
    exact ⟨entries', hholds'⟩
  | insert url data t =>
    obtain ⟨hsize, hfresh, hreturns⟩ := hstep
    obtain ⟨c₁, hreturns', hholds'⟩ := cacheObject_returns hholds url hsize hfresh
    obtain rfl : c' = c₁ := hreturns.unique hreturns'
    exact ⟨_, hholds'⟩

/-- Every cache that a run reaches is intact; lookups and insertions into it terminate, and the
eviction loop gives no second chance to an only block. -/
theorem run_intact {blocks : Store CacheBlock} {calls : List CacheCall}
    (hrun : Run CacheStep (cacheInit blocks) calls c) :
    (∃ entries, Intact c entries) ∧
      (∀ url, ∃ result, Returns (fun fuel ↦ lookup fuel c url) result) ∧
      ∀ (url : List Char) (data : List UInt8), (data.length : ℤ) ≤ maxObjectSize →
        EvictsSafely data.length c ∧ ∀ t, Fresh data.length c t →
          ∃ c', Returns (fun fuel ↦ cacheObject fuel c url data data.length t) c' := by
  have hstep : ∀ (c : Cache) (call : CacheCall) (c' : Cache), (∃ entries, Holds c entries) →
      CacheStep c call c' → ∃ entries, Holds c' entries := fun _ _ _ ↦ holds_step
  obtain ⟨entries, h⟩ := hrun.invariant hstep ⟨[], holds_cacheInit blocks⟩
  refine ⟨⟨entries, h.intact⟩, fun url ↦ ?_, fun url data hsize ↦ ⟨⟨?_, ?_⟩, fun t hfresh ↦ ?_⟩⟩
  · obtain ⟨found, c', -, hreturns, -⟩ := lookup_returns h url
    exact ⟨_, hreturns⟩
  · obtain ⟨c', hevict, -⟩ := evict_returns h (Int.natCast_nonneg _) hsize
    exact ⟨c', hevict⟩
  · intro c' tail hrounds hchance
    have hmin : (0 : ℤ) ≤ data.length := Int.natCast_nonneg _
    obtain ⟨entries', h'⟩ := holds_rounds h hmin hsize hrounds
    exact head_ne_of_second_chance h' hmin hsize hchance
  · obtain ⟨c', hreturns, -⟩ := cacheObject_returns h url hsize hfresh
    exact ⟨c', hreturns⟩

/-- With nothing allocated every address is fresh. -/
theorem fresh_cacheInit {n : ℕ} (hsize : (n : ℤ) ≤ maxObjectSize) (t : ℕ) :
    Fresh n (cacheInit Store.empty) t := by
  intro c' hevict
  have hfits : sizes [] + (n : ℤ) ≤ maxCacheSize := by
    rw [sizes_nil, zero_add]
    exact hsize.trans (by decide)
  have hleave := evictBody_leave (holds_cacheInit Store.empty) (Int.natCast_nonneg n) hsize hfits
  obtain rfl := hevict.unique (returns_leave hleave)
  rfl

/-- A run that caches one object in the empty cache. -/
theorem run_intact_insert : ∃ c entries, Intact c entries := by
  have hsize : (([7] : List UInt8).length : ℤ) ≤ maxObjectSize := by decide
  obtain ⟨c, hreturns, -⟩ := cacheObject_returns (holds_cacheInit Store.empty) ['a'] hsize
    (fresh_cacheInit hsize 1)
  have hstep : CacheStep (cacheInit Store.empty) (.insert ['a'] [7] 1) c :=
    ⟨hsize, fresh_cacheInit hsize 1, hreturns⟩
  exact ⟨c, (run_intact (Run.single hstep)).1⟩

end Jungle.Proxy
