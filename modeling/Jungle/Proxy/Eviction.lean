import Jungle.Proxy.Linked
import Mathlib.Algebra.Order.BigOperators.Group.List

/-!
# The lookup and the eviction loop on the listed objects

`clockRound` is what one round of the eviction loop does to the listed objects, provided there are
two or more of them. `Holds` adds to `IsCache` the bounds on the sizes; with them the loop runs only
while there are ten blocks or more, so that every round is a `clockRound` (`evictBody_continue`),
and the number of blocks and of set reference bits falls with every round (`evict_returns`). The
lookup finds the first block with the key and sets its reference bit (`lookup_returns`).
-/

set_option autoImplicit false
set_option relaxedAutoImplicit false

namespace Jungle.Proxy

open Jungle.Lib Cache

/-- One round of the clock: the last object has its reference bit cleared and moves to the front, or
leaves. -/
def clockRound (entries : List (ℕ × CacheObject)) : List (ℕ × CacheObject) :=
  match entries.getLast? with
  | none => []
  | some (t, o) =>
    if o.referenceBit = 1 then (t, o.withBit 0) :: entries.dropLast else entries.dropLast

/-- The listed objects and their set reference bits. -/
def weight (entries : List (ℕ × CacheObject)) : ℕ :=
  entries.length + entries.countP fun entry ↦ entry.2.referenceBit = 1

/-- The cache holds the listed objects within the bounds on their sizes. -/
structure Holds (c : Cache) (entries : List (ℕ × CacheObject)) : Prop where
  cache : IsCache c entries
  sized : ∀ entry ∈ entries, entry.2.size = entry.2.data.length
  small : ∀ entry ∈ entries, entry.2.size ≤ maxObjectSize
  bounded : sizes entries ≤ maxCacheSize

/-- Rounds of the clock until an object of `totalBytes` bytes fits. -/
def clockUntil (totalBytes : ℤ) : ℕ → List (ℕ × CacheObject) → List (ℕ × CacheObject)
  | 0, entries => entries
  | n + 1, entries =>
    if sizes entries + totalBytes ≤ maxCacheSize then entries
    else clockUntil totalBytes n (clockRound entries)

/-- The objects the clock keeps to make room for `totalBytes` bytes. -/
def survivors (totalBytes : ℤ) (entries : List (ℕ × CacheObject)) : List (ℕ × CacheObject) :=
  clockUntil totalBytes (weight entries) entries

variable {c c' : Cache} {entries : List (ℕ × CacheObject)} {t : ℕ} {o : CacheObject}
  {totalBytes : ℤ}

/-! ### The clock -/

theorem clockRound_of_set (h : o.referenceBit = 1) :
    clockRound (entries ++ [(t, o)]) = (t, o.withBit 0) :: entries := by
  rw [clockRound, List.getLast?_concat, List.dropLast_concat]
  exact if_pos h

theorem clockRound_of_clear (h : o.referenceBit ≠ 1) :
    clockRound (entries ++ [(t, o)]) = entries := by
  rw [clockRound, List.getLast?_concat, List.dropLast_concat]
  exact if_neg h

/-- Every round of the clock clears a bit or drops an object. -/
theorem weight_clockRound_lt (hne : entries ≠ []) : weight (clockRound entries) < weight entries := by
  obtain ⟨front, ⟨t, o⟩, rfl⟩ := (List.eq_nil_or_concat' entries).resolve_left hne
  by_cases hbit : o.referenceBit = 1
  · rw [clockRound_of_set hbit]
    simp only [weight, List.length_cons, List.length_append, List.countP_cons, List.countP_append,
      CacheObject.withBit, List.countP_nil, hbit]
    simp
  · rw [clockRound_of_clear hbit]
    simp only [weight, List.length_append, List.countP_append, List.length_singleton]
    omega

/-- A round of the clock keeps objects but for their reference bits. -/
theorem mem_clockRound {entry : ℕ × CacheObject} (h : entry ∈ clockRound entries) :
    entry ∈ entries ∨ ∃ o, (entry.1, o) ∈ entries ∧ entry.2 = o.withBit 0 := by
  rcases List.eq_nil_or_concat' entries with rfl | ⟨front, ⟨t, o⟩, rfl⟩
  · exact absurd h List.not_mem_nil
  · by_cases hbit : o.referenceBit = 1
    · rw [clockRound_of_set hbit] at h
      rcases List.mem_cons.mp h with rfl | h
      · exact Or.inr ⟨o, by simp, rfl⟩
      · exact Or.inl (List.mem_append_left _ h)
    · rw [clockRound_of_clear hbit] at h
      exact Or.inl (List.mem_append_left _ h)

/-- Two objects are the same but for their reference bits. -/
def CacheObject.Same (o o' : CacheObject) : Prop :=
  o.url = o'.url ∧ o.data = o'.data ∧ o.size = o'.size

/-- The clock keeps objects but for their reference bits. -/
theorem mem_clockUntil {n : ℕ} {entry : ℕ × CacheObject}
    (h : entry ∈ clockUntil totalBytes n entries) : ∃ o, (entry.1, o) ∈ entries ∧ o.Same entry.2 := by
  induction n generalizing entries with
  | zero => exact ⟨entry.2, h, rfl, rfl, rfl⟩
  | succ n ih =>
    rw [clockUntil] at h
    split_ifs at h with hfits
    · exact ⟨entry.2, h, rfl, rfl, rfl⟩
    · obtain ⟨o, ho, hurl, hdata, hsize⟩ := ih h
      rcases mem_clockRound ho with hold | ⟨o', hold, rfl⟩
      · exact ⟨o, hold, hurl, hdata, hsize⟩
      · exact ⟨o', hold, hurl, hdata, hsize⟩

/-- The clock does not add to the sizes. -/
theorem sizes_clockRound_le (h : ∀ entry ∈ entries, 0 ≤ entry.2.size) :
    sizes (clockRound entries) ≤ sizes entries := by
  rcases List.eq_nil_or_concat' entries with rfl | ⟨front, ⟨t, o⟩, rfl⟩
  · exact le_rfl
  · have ho : 0 ≤ o.size := h (t, o) (by simp)
    by_cases hbit : o.referenceBit = 1
    · rw [clockRound_of_set hbit, sizes_cons, sizes_concat, add_comm]
      exact le_rfl
    · rw [clockRound_of_clear hbit, sizes_concat]
      omega

theorem sizes_nonneg (h : ∀ entry ∈ entries, 0 ≤ entry.2.size) : 0 ≤ sizes entries :=
  List.sum_nonneg fun size hmem ↦ by
    obtain ⟨entry, hentry, rfl⟩ := List.mem_map.mp hmem
    exact h entry hentry

/-! ### The eviction loop -/

theorem Holds.size_nonneg (h : Holds c entries) : ∀ entry ∈ entries, 0 ≤ entry.2.size :=
  fun entry hentry ↦ by
    rw [h.sized entry hentry]
    exact Int.natCast_nonneg _

/-- The sizes of few objects do not fill the cache. -/
theorem sizes_le_length (h : ∀ entry ∈ entries, entry.2.size ≤ maxObjectSize) :
    sizes entries ≤ entries.length * maxObjectSize := by
  induction entries with
  | nil => exact le_rfl
  | cons entry entries ih =>
    have hentry := h entry List.mem_cons_self
    have hrest := ih fun other hother ↦ h other (List.mem_cons_of_mem _ hother)
    rw [sizes_cons, List.length_cons]
    push_cast
    rw [add_mul, one_mul]
    omega

/-- A round goes on only where there are ten blocks or more. -/
theorem Holds.length_ge (h : Holds c entries) (hsize : totalBytes ≤ maxObjectSize)
    (hover : maxCacheSize < sizes entries + totalBytes) : 10 ≤ entries.length := by
  have hle := sizes_le_length h.small
  unfold maxObjectSize at hle hsize
  unfold maxCacheSize at hover
  omega

/-- The bounds survive a round of the clock. -/
theorem Holds.clockRound (h : Holds c entries) (hcache : IsCache c' (clockRound entries)) :
    Holds c' (clockRound entries) where
  cache := hcache
  sized entry hentry := by
    rcases mem_clockRound hentry with hold | ⟨o, hold, ho⟩
    · exact h.sized entry hold
    · rw [ho]
      exact h.sized _ hold
  small entry hentry := by
    rcases mem_clockRound hentry with hold | ⟨o, hold, ho⟩
    · exact h.small entry hold
    · rw [ho]
      exact h.small _ hold
  bounded := (sizes_clockRound_le h.size_nonneg).trans h.bounded

/-- Sums of sizes do not overflow. -/
theorem Holds.int32_add (h : Holds c entries) (hmin : 0 ≤ totalBytes)
    (hsize : totalBytes ≤ maxObjectSize) :
    int32 (c.totalSize + totalBytes) = sizes entries + totalBytes := by
  have hbounded := h.bounded
  have hnonneg := sizes_nonneg h.size_nonneg
  rw [h.cache.total]
  unfold maxObjectSize at hsize
  unfold maxCacheSize at hbounded
  exact int32_of_mem (by unfold intMin; omega) (by unfold intMax; omega)

/-- The block the loop works on. -/
theorem Lists.tail_eq (h : Lists c (entries ++ [(t, o)])) : c.tail = some t := by
  have hlinked := h.linked
  rw [List.map_append] at hlinked
  exact hlinked.tail_concat

/-- A round that finds the reference bit of the tail set gives the tail its second chance. -/
theorem evictBody_pass (h : Lists c (entries ++ [(t, o)])) (hne : entries ≠ [])
    (hover : int32 (c.totalSize + totalBytes) > maxCacheSize) (hset : o.referenceBit = 1) :
    ∃ c', evictBody totalBytes c = some (.inl c') ∧ Lists c' ((t, o.withBit 0) :: entries) ∧
      c'.totalSize = c.totalSize := by
  obtain ⟨b, hb, rfl⟩ := Option.map_eq_some_iff.mp (h.objects (t, o) (by simp))
  obtain ⟨c', hcall, hrest⟩ := secondChance_eq h hne
  refine ⟨c', ?_, hrest⟩
  simp only [evictBody, if_pos hover, h.tail_eq, hb, Option.bind_eq_bind, Option.bind_some,
    if_pos hset, hcall, Option.pure_def]

/-- A round that finds the reference bit of the tail not set frees the tail. -/
theorem evictBody_free (h : Lists c (entries ++ [(t, o)])) (hne : entries ≠ [])
    (hover : int32 (c.totalSize + totalBytes) > maxCacheSize) (hclear : o.referenceBit ≠ 1) :
    ∃ c', evictBody totalBytes c = some (.inl c') ∧ Lists c' entries ∧
      c'.totalSize = int32 (c.totalSize - o.size) ∧ c'.blocks t = none := by
  obtain ⟨b, hb, rfl⟩ := Option.map_eq_some_iff.mp (h.objects (t, o) (by simp))
  obtain ⟨c', hcall, hrest⟩ := removeTail_eq h hne
  refine ⟨c', ?_, hrest⟩
  simp only [evictBody, if_pos hover, h.tail_eq, hb, Option.bind_eq_bind, Option.bind_some,
    if_neg hclear, hcall, Option.pure_def]

/-- A round that goes on is a round of the clock. -/
theorem evictBody_continue (h : Holds c entries) (hmin : 0 ≤ totalBytes)
    (hsize : totalBytes ≤ maxObjectSize) (hover : maxCacheSize < sizes entries + totalBytes) :
    ∃ c', evictBody totalBytes c = some (.inl c') ∧ Holds c' (Proxy.clockRound entries) := by
  have hlength := h.length_ge hsize hover
  have hcond : int32 (c.totalSize + totalBytes) > maxCacheSize := by
    rw [h.int32_add hmin hsize]
    exact hover
  obtain ⟨front, ⟨t, o⟩, rfl⟩ := (List.eq_nil_or_concat' entries).resolve_left fun hnil ↦ by
    rw [hnil] at hlength
    exact absurd hlength (by simp)
  have hne : front ≠ [] := fun hnil ↦ by
    rw [hnil] at hlength
    exact absurd hlength (by simp)
  have htotal : c.totalSize = sizes front + o.size := h.cache.total.trans (sizes_concat t o front)
  by_cases hset : o.referenceBit = 1
  · obtain ⟨c', hbody, hlists, htotal'⟩ := evictBody_pass h.cache.lists hne hcond hset
    have hsizes : c'.totalSize = sizes ((t, o.withBit 0) :: front) := by
      rw [htotal', htotal, sizes_cons, add_comm]
      rfl
    have hcache : IsCache c' ((t, o.withBit 0) :: front) := ⟨hlists.linked, hlists.objects, hsizes⟩
    rw [← clockRound_of_set hset] at hcache
    exact ⟨c', hbody, h.clockRound hcache⟩
  · obtain ⟨c', hbody, hlists, htotal', -⟩ := evictBody_free h.cache.lists hne hcond hset
    have hsizes : c'.totalSize = sizes front := by
      have hbounded := h.bounded
      have ho : 0 ≤ o.size := h.size_nonneg (t, o) (by simp)
      have hnonneg : 0 ≤ sizes front :=
        sizes_nonneg fun entry hentry ↦ h.size_nonneg entry (List.mem_append_left _ hentry)
      rw [sizes_concat] at hbounded
      rw [htotal', htotal, add_sub_cancel_right]
      unfold maxCacheSize at hbounded
      exact int32_of_mem (by unfold intMin; omega) (by unfold intMax; omega)
    have hcache : IsCache c' front := ⟨hlists.linked, hlists.objects, hsizes⟩
    have hround : Proxy.clockRound (front ++ [(t, o)]) = front := clockRound_of_clear hset
    rw [← hround] at hcache
    exact ⟨c', hbody, h.clockRound hcache⟩

/-- The loop is left when the object fits. -/
theorem evictBody_leave (h : Holds c entries) (hmin : 0 ≤ totalBytes)
    (hsize : totalBytes ≤ maxObjectSize) (hfits : sizes entries + totalBytes ≤ maxCacheSize) :
    evictBody totalBytes c = some (.inr c) := by
  rw [evictBody, if_neg]
  rw [h.int32_add hmin hsize]
  exact not_lt.mpr hfits

/-- The eviction loop runs the clock until the object fits. -/
theorem evict_returns (h : Holds c entries) (hmin : 0 ≤ totalBytes)
    (hsize : totalBytes ≤ maxObjectSize) : ∃ c', Returns
      (fun fuel ↦ whileLoop (evictBody totalBytes) fuel c) c' ∧
        Holds c' (survivors totalBytes entries) ∧
        sizes (survivors totalBytes entries) + totalBytes ≤ maxCacheSize := by
  have hrounds : ∀ n (c : Cache) (entries : List (ℕ × CacheObject)), Holds c entries →
      weight entries ≤ n → ∃ c', Returns (fun fuel ↦ whileLoop (evictBody totalBytes) fuel c) c' ∧
        Holds c' (clockUntil totalBytes n entries) ∧
        sizes (clockUntil totalBytes n entries) + totalBytes ≤ maxCacheSize := by
    intro n
    induction n with
    | zero =>
      intro c entries h hweight
      obtain rfl : entries = [] := List.length_eq_zero_iff.mp (by unfold weight at hweight; omega)
      have hfits : sizes [] + totalBytes ≤ maxCacheSize := by
        rw [sizes_nil, zero_add]
        exact hsize.trans (by decide)
      exact ⟨c, returns_leave (evictBody_leave h hmin hsize hfits), h, hfits⟩
    | succ n ih =>
      intro c entries h hweight
      rw [clockUntil]
      split_ifs with hfits
      · exact ⟨c, returns_leave (evictBody_leave h hmin hsize hfits), h, hfits⟩
      · have hover := not_le.mp hfits
        obtain ⟨c₁, hbody, hholds⟩ := evictBody_continue h hmin hsize hover
        have hne : entries ≠ [] := fun hnil ↦ by
          have hlength := h.length_ge hsize hover
          rw [hnil] at hlength
          exact absurd hlength (by simp)
        have hlt := weight_clockRound_lt hne
        obtain ⟨c', hreturns, hrest⟩ := ih c₁ _ hholds (by omega)
        exact ⟨c', returns_continue hbody hreturns, hrest⟩
  exact hrounds _ c entries h le_rfl

/-- The eviction loop keeps the bounds in all its states. -/
theorem holds_rounds (h : Holds c entries) (hmin : 0 ≤ totalBytes)
    (hsize : totalBytes ≤ maxObjectSize) (hrounds : Rounds (evictBody totalBytes) c c') :
    ∃ entries', Holds c' entries' := by
  have hbody : ∀ s s' : Cache, (∃ entries', Holds s entries') →
      evictBody totalBytes s = some (.inl s') → ∃ entries', Holds s' entries' := by
    rintro s s' ⟨entries', hholds⟩ hgo
    rcases le_or_gt (sizes entries' + totalBytes) maxCacheSize with hfits | hover
    · rw [evictBody_leave hholds hmin hsize hfits] at hgo
      exact absurd hgo (by simp)
    · obtain ⟨s₁, hgo', hholds'⟩ := evictBody_continue hholds hmin hsize hover
      obtain rfl : s₁ = s' := by simpa [hgo'] using hgo
      exact ⟨_, hholds'⟩
  exact hrounds.invariant hbody ⟨entries, h⟩

/-- The eviction loop gives the tail of the cache a second chance. -/
def GivesSecondChance (totalBytes : ℤ) (c : Cache) (tail : ℕ) : Prop :=
  int32 (c.totalSize + totalBytes) > maxCacheSize ∧ c.tail = some tail ∧
    ∃ b, c.blocks tail = some b ∧ b.referenceBit = 1

/-- A block that gets a second chance is not the only one. -/
theorem head_ne_of_second_chance (h : Holds c entries) (hmin : 0 ≤ totalBytes)
    (hsize : totalBytes ≤ maxObjectSize) (hchance : GivesSecondChance totalBytes c t) :
    c.head ≠ some t := by
  obtain ⟨hover, htail, -⟩ := hchance
  rw [h.int32_add hmin hsize] at hover
  have hlength := h.length_ge hsize hover
  have hne : entries ≠ [] := fun hnil ↦ by
    rw [hnil] at hlength
    exact absurd hlength (by simp)
  obtain ⟨⟨a, o⟩, rest, rfl⟩ := List.exists_cons_of_ne_nil hne
  obtain ⟨front, ⟨u, o'⟩, rfl⟩ := (List.eq_nil_or_concat' rest).resolve_left fun hnil ↦ by
    rw [hnil] at hlength
    exact absurd hlength (by simp)
  have hlinked := h.cache.linked
  rw [← List.cons_append, List.map_append] at hlinked
  obtain rfl : u = t := Option.some.inj (hlinked.tail_concat.symm.trans htail)
  intro hhead
  have hau : a = u := Option.some.inj (hlinked.head_eq.symm.trans hhead)
  have hcache : IsCache c (((a, o) :: front) ++ [(u, o')]) := h.cache
  exact hcache.lists.ne_of_mem List.mem_cons_self hau

/-! ### The lookup -/

/-- The loop over blocks without the key ends at the null pointer. -/
theorem lookupLoop_eq_none {x : Option ℕ} {url : List Char}
    (h : Segment CacheBlock.toCacheObject CacheBlock.next c.blocks x entries none)
    (habsent : ∀ entry ∈ entries, entry.2.url ≠ url) {fuel : ℕ} (hfuel : entries.length < fuel) :
    whileLoop (lookupBody c url) fuel x = some none := by
  obtain ⟨fuel, rfl⟩ : ∃ n, fuel = n + 1 := ⟨fuel - 1, by omega⟩
  induction entries generalizing x fuel with
  | nil =>
    obtain rfl : x = none := h
    exact whileLoop_leave rfl fuel
  | cons entry entries ih =>
    obtain ⟨rfl, b, hb, hbo, hrest⟩ := h
    have hne : url ≠ b.url := fun heq ↦
      habsent entry List.mem_cons_self ((congrArg CacheObject.url hbo).symm.trans heq.symm)
    have hbody : lookupBody c url (some entry.1) = some (.inl b.next) := by
      simp only [lookupBody, hb, Option.bind_eq_bind, Option.bind_some, if_neg hne,
        Option.pure_def]
    rw [List.length_cons] at hfuel
    obtain ⟨fuel, rfl⟩ : ∃ n, fuel = n + 1 := ⟨fuel - 1, by omega⟩
    rw [whileLoop_continue hbody]
    exact ih hrest (fun other hother ↦ habsent other (List.mem_cons_of_mem _ hother)) fuel
      (by omega)

/-- The loop ends at the first block with the key. -/
theorem lookupLoop_eq_some {x : Option ℕ} {front back : List (ℕ × CacheObject)} {a : ℕ}
    (h : Segment CacheBlock.toCacheObject CacheBlock.next c.blocks x (front ++ (a, o) :: back) none)
    (hfront : ∀ entry ∈ front, entry.2.url ≠ o.url) {fuel : ℕ} (hfuel : front.length < fuel) :
    whileLoop (lookupBody c o.url) fuel x = some (some a) := by
  obtain ⟨fuel, rfl⟩ : ∃ n, fuel = n + 1 := ⟨fuel - 1, by omega⟩
  induction front generalizing x fuel with
  | nil =>
    obtain ⟨rfl, b, hb, hbo, -⟩ := h
    have hbody : lookupBody c o.url (some a) = some (.inr (some a)) := by
      simp only [lookupBody, hb, Option.bind_eq_bind, Option.bind_some, ← hbo, if_true,
        Option.pure_def]
    exact whileLoop_leave hbody fuel
  | cons entry front ih =>
    obtain ⟨rfl, b, hb, hbo, hrest⟩ := h
    have hne : o.url ≠ b.url := fun heq ↦
      hfront entry List.mem_cons_self ((congrArg CacheObject.url hbo).symm.trans heq.symm)
    have hbody : lookupBody c o.url (some entry.1) = some (.inl b.next) := by
      simp only [lookupBody, hb, Option.bind_eq_bind, Option.bind_some, if_neg hne,
        Option.pure_def]
    rw [List.length_cons] at hfuel
    obtain ⟨fuel, rfl⟩ : ∃ n, fuel = n + 1 := ⟨fuel - 1, by omega⟩
    rw [whileLoop_continue hbody]
    exact ih hrest (fun other hother ↦ hfront other (List.mem_cons_of_mem _ hother)) fuel
      (by omega)

/-- The lookup of a key without a block finds nothing. -/
theorem lookup_eq_none (h : IsCache c entries) {url : List Char}
    (habsent : ∀ entry ∈ entries, entry.2.url ≠ url) :
    Returns (fun fuel ↦ lookup fuel c url) (none, c) := by
  refine ⟨entries.length, fun fuel hfuel ↦ ?_⟩
  simp only [lookup, lookupLoop_eq_none h.forward habsent hfuel, Option.bind_eq_bind,
    Option.bind_some, Option.pure_def]

/-- The lookup of a key finds the first block with it and sets its reference bit. -/
theorem lookup_eq_some {front back : List (ℕ × CacheObject)} {a : ℕ}
    (h : IsCache c (front ++ (a, o) :: back)) (hfront : ∀ entry ∈ front, entry.2.url ≠ o.url) :
    Returns (fun fuel ↦ lookup fuel c o.url) (some a, c.withBit a 1) := by
  have hobject : c.object a = some o := h.objects (a, o) (by simp)
  refine ⟨front.length, fun fuel hfuel ↦ ?_⟩
  simp only [lookup, lookupLoop_eq_some h.forward hfront hfuel, Option.bind_eq_bind,
    Option.bind_some, setReferenceBit_eq (by rw [hobject]; rfl), Option.pure_def]

/-- Setting the reference bit of a listed block. -/
theorem IsCache.withBit {front back : List (ℕ × CacheObject)} {a : ℕ}
    (h : IsCache c (front ++ (a, o) :: back)) (bit : ℤ) :
    IsCache (c.withBit a bit) (front ++ (a, o.withBit bit) :: back) := by
  have hobject : c.object a = some o := h.objects (a, o) (by simp)
  have hnodup := h.linked.nodup
  rw [List.map_append, List.map_cons, List.nodup_middle, List.nodup_cons] at hnodup
  have hne : ∀ entry ∈ front ++ back, entry.1 ≠ a := fun entry hentry ↦ by
    rw [← List.map_append] at hnodup
    exact ne_of_mem_of_not_mem (List.mem_map_of_mem hentry) hnodup.1
  refine ⟨?_, fun entry hentry ↦ ?_, ?_⟩
  · have hlinked := h.linked.congr (after_withBit c a bit) (before_withBit c a bit)
    simpa using hlinked
  · rw [List.mem_append, List.mem_cons] at hentry
    rcases hentry with hentry | rfl | hentry
    · rw [object_withBit_of_ne (hne entry (List.mem_append_left _ hentry))]
      exact h.objects entry (List.mem_append_left _ hentry)
    · exact object_withBit_self hobject bit
    · rw [object_withBit_of_ne (hne entry (List.mem_append_right _ hentry))]
      exact h.objects entry (List.mem_append_right _ (List.mem_cons_of_mem _ hentry))
  · refine Eq.trans (h.total : c.totalSize = _) ?_
    simp [sizes, CacheObject.withBit]

end Jungle.Proxy
