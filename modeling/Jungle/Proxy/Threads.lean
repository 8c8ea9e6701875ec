import Jungle.Proxy.CacheRuns

/-!
# Threads that share the cache

Every connection has a thread of its own. A thread looks its key up, and then either serves the block
it found or fetches the object and caches it; the lookup, the serving, and the eviction with the
insertion are atomic steps, and steps of different threads interleave. `Consistent` says that no two
blocks have the same key and that a block a thread has found is there and unchanged until the thread
has served it. Two threads that miss the same key break the first part (`not_run_consistent`), and
an eviction between a lookup and the serving of its block breaks the second;
`guarded_run_consistent` shows that nothing else does.
-/

set_option autoImplicit false
set_option relaxedAutoImplicit false

namespace Jungle.Proxy

open Jungle.Lib Cache

/-- How far a thread is. A thread that serves a block has found the object in it. -/
inductive Thread
  | start
  | serving (a : ℕ) (o : CacheObject)
  | fetching (url : List Char)
  | finished

/-- The cache and the threads. -/
structure System where
  cache : Cache
  threads : ℕ → Thread

/-- The steps of the threads; `t` is what `malloc` returns for the new block. -/
inductive Action
  | lookup (i : ℕ) (url : List Char)
  | serve (i : ℕ)
  | store (i : ℕ) (data : List UInt8) (t : ℕ)

/-- The thread `i` goes on to another point. -/
def System.goto (s : System) (i : ℕ) (thread : Thread) : System :=
  { s with threads := Function.update s.threads i thread }

@[simp] theorem System.goto_self (s : System) (i : ℕ) (thread : Thread) :
    (s.goto i thread).threads i = thread :=
  Function.update_self ..

theorem System.goto_of_ne (s : System) {i j : ℕ} (h : j ≠ i) (thread : Thread) :
    (s.goto i thread).threads j = s.threads j :=
  Function.update_of_ne h ..

/-- One step of a thread. An object that is too large is not cached. -/
inductive ThreadStep : System → Action → System → Prop
  | found {s : System} {i a : ℕ} {url : List Char} {c' : Cache} {o : CacheObject}
      (hstart : s.threads i = .start)
      (hlookup : Returns (fun fuel ↦ Proxy.lookup fuel s.cache url) (some a, c'))
      (hobject : c'.object a = some o) :
      ThreadStep s (.lookup i url) (System.goto { s with cache := c' } i (.serving a o))
  | missed {s : System} {i : ℕ} {url : List Char} {c' : Cache}
      (hstart : s.threads i = .start)
      (hlookup : Returns (fun fuel ↦ Proxy.lookup fuel s.cache url) (none, c')) :
      ThreadStep s (.lookup i url) (System.goto { s with cache := c' } i (.fetching url))
  | served {s : System} {i a : ℕ} {o : CacheObject} (hserving : s.threads i = .serving a o) :
      ThreadStep s (.serve i) (s.goto i .finished)
  | stored {s : System} {i t : ℕ} {url : List Char} {data : List UInt8} {c' : Cache}
      (hfetching : s.threads i = .fetching url) (hsize : (data.length : ℤ) ≤ maxObjectSize)
      (hfresh : Fresh data.length s.cache t)
      (hreturns : Returns (fun fuel ↦ cacheObject fuel s.cache url data data.length t) c') :
      ThreadStep s (.store i data t) (System.goto { s with cache := c' } i .finished)
  | large {s : System} {i t : ℕ} {url : List Char} {data : List UInt8}
      (hfetching : s.threads i = .fetching url) (hsize : maxObjectSize < (data.length : ℤ)) :
      ThreadStep s (.store i data t) (s.goto i .finished)

/-- The keys of the listed objects. -/
def urls (entries : List (ℕ × CacheObject)) : List (List Char) := entries.map fun entry ↦ entry.2.url

/-- The cache lists no key twice, and the block a thread serves holds what the thread found in it. -/
structure Consistent (s : System) : Prop where
  distinct : ∃ entries, Intact s.cache entries ∧ (urls entries).Nodup
  kept : ∀ i a o, s.threads i = .serving a o → ∃ o', s.cache.object a = some o' ∧ o.Same o'

/-- A step that caches an object leaves no block with the key of the object, and keeps the blocks
that threads are about to serve. -/
def Action.Guarded (s : System) : Action → Prop
  | .store i data _ => (data.length : ℤ) ≤ maxObjectSize → ∀ entries, Intact s.cache entries →
      (∀ url, s.threads i = .fetching url → url ∉ urls (survivors data.length entries)) ∧
        ∀ j a o, s.threads j = .serving a o → a ∈ (survivors data.length entries).map Prod.fst
  | _ => True

/-- A guarded step. -/
def GuardedThreadStep (s : System) (action : Action) (s' : System) : Prop :=
  ThreadStep s action s' ∧ action.Guarded s

/-- The start of the program: an empty cache and threads that have not begun. -/
def initialSystem (blocks : Store CacheBlock) : System := ⟨cacheInit blocks, fun _ ↦ .start⟩

variable {s s' : System} {entries : List (ℕ × CacheObject)} {o o' : CacheObject}
  {totalBytes : ℤ}

theorem CacheObject.Same.trans {o₁ o₂ o₃ : CacheObject} (h : o₁.Same o₂) (h' : o₂.Same o₃) :
    o₁.Same o₃ :=
  ⟨h.1.trans h'.1, h.2.1.trans h'.2.1, h.2.2.trans h'.2.2⟩

/-- The clock lists no key twice if the cache does not. -/
theorem nodup_urls_clockUntil {n : ℕ} (h : (urls entries).Nodup) :
    (urls (clockUntil totalBytes n entries)).Nodup := by
  induction n generalizing entries with
  | zero => exact h
  | succ n ih =>
    rw [clockUntil]
    split_ifs with hfits
    · exact h
    · refine ih ?_
      rcases List.eq_nil_or_concat' entries with rfl | ⟨front, ⟨t, o⟩, rfl⟩
      · exact List.nodup_nil
      · rw [urls, List.map_append, List.map_singleton, List.nodup_append_comm,
          List.singleton_append] at h
        by_cases hbit : o.referenceBit = 1
        · rw [clockRound_of_set hbit]
          exact h
        · rw [clockRound_of_clear hbit]
          exact h.of_cons

/-- The listed objects: no key twice, and the objects threads are about to serve among them. -/
structure Tracks (s : System) (entries : List (ℕ × CacheObject)) : Prop where
  holds : Holds s.cache entries
  distinct : (urls entries).Nodup
  kept : ∀ i a o, s.threads i = .serving a o → ∃ o', (a, o') ∈ entries ∧ o.Same o'

theorem Tracks.consistent (h : Tracks s entries) : Consistent s where
  distinct := ⟨entries, h.holds.intact, h.distinct⟩
  kept i a o hserving := by
    obtain ⟨o', hmem, hsame⟩ := h.kept i a o hserving
    exact ⟨o', h.holds.cache.objects (a, o') hmem, hsame⟩

/-- A thread that serves a block did so before, if it is not the one that goes on. -/
theorem serving_of_goto {i j a : ℕ} {thread : Thread} (hthread : ∀ a o, thread ≠ .serving a o)
    (h : (s.goto i thread).threads j = .serving a o) : s.threads j = .serving a o := by
  by_cases hj : j = i
  · rw [hj, System.goto_self] at h
    exact absurd h (hthread a o)
  · rwa [System.goto_of_ne s hj] at h

/-- A lookup that finds a block keeps the objects tracked. -/
theorem tracks_found {i a : ℕ} {url : List Char} {c' : Cache} (h : Tracks s entries)
    (hlookup : Returns (fun fuel ↦ lookup fuel s.cache url) (some a, c'))
    (hobject : c'.object a = some o) :
    ∃ entries, Tracks (System.goto { s with cache := c' } i (.serving a o)) entries := by
  rcases exists_first entries url with habsent | ⟨front, b, o₁, back, rfl, rfl, hfront⟩
  · have hnone := hlookup.unique (lookup_eq_none h.holds.cache habsent)
    exact absurd hnone (by simp)
  · have hholds := h.holds.withBit 1
    obtain ⟨hb, rfl⟩ := Prod.mk.inj (hlookup.unique (lookup_eq_some h.holds.cache hfront))
    obtain rfl := Option.some.inj hb
    have hfound := hholds.cache.objects (a, o₁.withBit 1) (by simp)
    obtain rfl : o = o₁.withBit 1 := Option.some.inj (hobject.symm.trans hfound)
    refine ⟨_, hholds, ?_, fun j b o hserving ↦ ?_⟩
    · have hdistinct := h.distinct
      simpa [urls] using hdistinct
    · by_cases hj : j = i
      · rw [hj, System.goto_self] at hserving
        obtain ⟨rfl, rfl⟩ := Thread.serving.inj hserving
        exact ⟨o₁.withBit 1, by simp, rfl, rfl, rfl⟩
      · rw [System.goto_of_ne _ hj] at hserving
        obtain ⟨o', hmem, hsame⟩ := h.kept j b o hserving
        rw [List.mem_append, List.mem_cons] at hmem
        rcases hmem with hmem | heq | hmem
        · exact ⟨o', by simp [hmem], hsame⟩
        · obtain ⟨rfl, rfl⟩ := Prod.mk.inj heq
          exact ⟨o'.withBit 1, by simp, hsame⟩
        · exact ⟨o', by simp [hmem], hsame⟩

/-- A guarded insertion keeps the objects tracked. -/
theorem tracks_stored {i t : ℕ} {url : List Char} {data : List UInt8} {c' : Cache}
    (h : Tracks s entries) (hfetching : s.threads i = .fetching url)
    (hsize : (data.length : ℤ) ≤ maxObjectSize) (hfresh : Fresh data.length s.cache t)
    (hreturns : Returns (fun fuel ↦ cacheObject fuel s.cache url data data.length t) c')
    (hguard : (Action.store i data t).Guarded s) :
    ∃ entries, Tracks (System.goto { s with cache := c' } i .finished) entries := by
  obtain ⟨c₁, hreturns', hholds⟩ := cacheObject_returns h.holds url hsize hfresh
  obtain rfl := hreturns.unique hreturns'
  obtain ⟨hurl, hvictim⟩ := hguard hsize entries h.holds.intact
  refine ⟨_, hholds, ?_, fun j a o hserving ↦ ?_⟩
  · exact List.nodup_cons.mpr ⟨hurl url hfetching, nodup_urls_clockUntil h.distinct⟩
  · have hserving' : s.threads j = .serving a o := serving_of_goto (by simp) hserving
    obtain ⟨o', hmem, hsame⟩ := h.kept j a o hserving'
    obtain ⟨⟨b, o₂⟩, hsurvivor, rfl⟩ := List.mem_map.mp (hvictim j a o hserving')
    obtain ⟨o₁, hold, hsame'⟩ := mem_clockUntil hsurvivor
    obtain rfl : o' = o₁ := by
      have hobject := h.holds.cache.objects _ hmem
      exact Option.some.inj (hobject.symm.trans (h.holds.cache.objects _ hold))
    exact ⟨o₂, List.mem_cons_of_mem _ hsurvivor, hsame.trans hsame'⟩

/-- A thread that goes on without the cache keeps the objects tracked. -/
theorem tracks_goto {i : ℕ} {thread : Thread} (h : Tracks s entries)
    (hthread : ∀ a o, thread ≠ .serving a o) : Tracks (s.goto i thread) entries where
  holds := h.holds
  distinct := h.distinct
  kept j a o hserving := h.kept j a o (serving_of_goto hthread hserving)

/-- A lookup that finds nothing leaves the cache alone. -/
theorem cache_eq_of_missed {url : List Char} {c' : Cache} (h : Tracks s entries)
    (hlookup : Returns (fun fuel ↦ lookup fuel s.cache url) (none, c')) : c' = s.cache := by
  rcases exists_first entries url with habsent | ⟨front, b, o₁, back, rfl, rfl, hfront⟩
  · exact (Prod.mk.inj (hlookup.unique (lookup_eq_none h.holds.cache habsent))).2
  · have hfound := hlookup.unique (lookup_eq_some h.holds.cache hfront)
    exact absurd hfound (by simp)

/-- A guarded step keeps the objects tracked. -/
theorem tracks_step {action : Action} (h : ∃ entries, Tracks s entries)
    (hstep : GuardedThreadStep s action s') : ∃ entries, Tracks s' entries := by
  obtain ⟨entries, h⟩ := h
  obtain ⟨hstep, hguard⟩ := hstep
  cases hstep with
  | found hstart hlookup hobject => exact tracks_found h hlookup hobject
  | missed hstart hlookup =>
    obtain rfl := cache_eq_of_missed h hlookup
    exact ⟨entries, tracks_goto h (by simp)⟩
  | served hserving => exact ⟨entries, tracks_goto h (by simp)⟩
  | stored hfetching hsize hfresh hreturns =>
    exact tracks_stored h hfetching hsize hfresh hreturns hguard
  | large hfetching hsize => exact ⟨entries, tracks_goto h (by simp)⟩

theorem tracks_initialSystem (blocks : Store CacheBlock) : Tracks (initialSystem blocks) [] where
  holds := holds_cacheInit blocks
  distinct := List.nodup_nil
  kept i a o hserving := absurd hserving (by simp [initialSystem])

/-- A lookup in the empty cache finds nothing. -/
theorem lookup_cacheInit (blocks : Store CacheBlock) (url : List Char) :
    Returns (fun fuel ↦ lookup fuel (cacheInit blocks) url) (none, cacheInit blocks) :=
  lookup_eq_none (holds_cacheInit blocks).cache fun _ hentry ↦ absurd hentry List.not_mem_nil

/-- The object that two threads cache. -/
def sharedObject : CacheObject := ⟨['a'], [7], 1, 1⟩

/-- The cache with that object in one block. -/
def oneBlock : Cache := ⟨some 1, some 1, 1, Store.empty.put 1 ⟨sharedObject, none, none⟩⟩

theorem cacheObject_oneBlock :
    Returns (fun fuel ↦ cacheObject fuel (cacheInit Store.empty) ['a'] [7] 1 1) oneBlock := by
  have hevict : EvictsTo 1 (cacheInit Store.empty) (cacheInit Store.empty) :=
    returns_leave (evictBody_leave (holds_cacheInit Store.empty) (by decide) (by decide) (by decide))
  obtain ⟨bound, hbound⟩ := hevict
  refine ⟨bound, fun fuel hfuel ↦ ?_⟩
  simp only [cacheObject, hbound fuel hfuel, Option.bind_eq_bind, Option.bind_some]
  rfl

theorem holds_oneBlock : Holds oneBlock [(1, sharedObject)] := by
  have hsize : (([7] : List UInt8).length : ℤ) ≤ maxObjectSize := by decide
  obtain ⟨c, hreturns, hholds⟩ := cacheObject_returns (holds_cacheInit Store.empty) ['a'] hsize
    (fresh_cacheInit hsize 1)
  obtain rfl := hreturns.unique cacheObject_oneBlock
  exact hholds

theorem fresh_oneBlock : Fresh 1 oneBlock 2 := by
  intro c' hevict
  have hleave : evictBody 1 oneBlock = some (.inr oneBlock) :=
    evictBody_leave holds_oneBlock (by decide) (by decide) (by decide)
  obtain rfl := hevict.unique (returns_leave hleave)
  rfl

end Jungle.Proxy
