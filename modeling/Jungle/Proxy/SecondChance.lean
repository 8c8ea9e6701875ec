import Jungle.Proxy.Eviction

/-!
# The clock policy

`EvictionRound` follows the eviction loop until it frees a block, whatever the sizes are.
`SecondChance` says which block of a list the clock policy frees and what it leaves. A round of a
cache of two or more blocks is one step of the policy (`eviction_follows_clock`).
-/

set_option autoImplicit false
set_option relaxedAutoImplicit false

namespace Jungle.Proxy

open Jungle.Lib Cache

/-- The loop goes round until the tail it works on is freed. -/
inductive EvictionRound (totalBytes : ℤ) : Cache → ℕ → Cache → Prop
  | pass {c c₁ c' : Cache} {u t : ℕ} (htail : c.tail = some u)
      (hbody : evictBody totalBytes c = some (.inl c₁)) (hkept : (c₁.blocks u).isSome)
      (hround : EvictionRound totalBytes c₁ t c') : EvictionRound totalBytes c t c'
  | free {c c' : Cache} {t : ℕ} (htail : c.tail = some t)
      (hbody : evictBody totalBytes c = some (.inl c')) (hfreed : c'.blocks t = none) :
      EvictionRound totalBytes c t c'

/-- A listed object with its reference bit cleared. -/
def clearBit (entry : ℕ × CacheObject) : ℕ × CacheObject := (entry.1, entry.2.withBit 0)

/-- The policy: it frees the object nearest the tail whose reference bit is not set, and the objects
behind that one come to the front in their order with their bits cleared; where all bits are set,
all are cleared and the tail is freed. -/
inductive SecondChance :
    List (ℕ × CacheObject) → ℕ × CacheObject → List (ℕ × CacheObject) → Prop
  | clear {front passed : List (ℕ × CacheObject)} {victim : ℕ × CacheObject}
      (hclear : victim.2.referenceBit ≠ 1) (hset : ∀ entry ∈ passed, entry.2.referenceBit = 1) :
      SecondChance (front ++ victim :: passed) victim (passed.map clearBit ++ front)
  | wrap {front : List (ℕ × CacheObject)} {victim : ℕ × CacheObject}
      (hset : ∀ entry ∈ front ++ [victim], entry.2.referenceBit = 1) :
      SecondChance (front ++ [victim]) victim (front.map clearBit)

variable {c c' c₁ c₂ : Cache} {entries front passed : List (ℕ × CacheObject)} {t t₁ t₂ : ℕ}
  {o : CacheObject} {totalBytes : ℤ}

/-- The loop frees one block by one way only. -/
theorem EvictionRound.unique (h₁ : EvictionRound totalBytes c t₁ c₁)
    (h₂ : EvictionRound totalBytes c t₂ c₂) : t₁ = t₂ ∧ c₁ = c₂ := by
  induction h₁ with
  | pass htail hbody hkept _ ih =>
    cases h₂ with
    | pass htail' hbody' hkept' hround' =>
      rw [hbody] at hbody'
      obtain rfl := Sum.inl.inj (Option.some.inj hbody')
      exact ih hround'
    | free htail' hbody' hfreed' =>
      rw [hbody] at hbody'
      rw [htail] at htail'
      obtain rfl := Sum.inl.inj (Option.some.inj hbody')
      obtain rfl := Option.some.inj htail'
      rw [hfreed'] at hkept
      exact absurd hkept Bool.false_ne_true
  | free htail hbody hfreed =>
    cases h₂ with
    | pass htail' hbody' hkept' hround' =>
      rw [hbody] at hbody'
      rw [htail] at htail'
      obtain rfl := Sum.inl.inj (Option.some.inj hbody')
      obtain rfl := Option.some.inj htail'
      rw [hfreed] at hkept'
      exact absurd hkept' Bool.false_ne_true
    | free htail' hbody' hfreed' =>
      rw [hbody] at hbody'
      rw [htail] at htail'
      exact ⟨Option.some.inj htail', Sum.inl.inj (Option.some.inj hbody')⟩

/-- A listed block is allocated. -/
theorem Lists.isSome (h : Lists c entries) {entry : ℕ × CacheObject} (hentry : entry ∈ entries) :
    (c.blocks entry.1).isSome :=
  h.linked.isSome (List.mem_map_of_mem hentry)

/-- Objects at the tail with set bits come to the front one by one. -/
theorem passes_eq (h : Lists c (front ++ passed)) (hlength : 2 ≤ (front ++ passed).length)
    (hover : int32 (c.totalSize + totalBytes) > maxCacheSize)
    (hset : ∀ entry ∈ passed, entry.2.referenceBit = 1) :
    ∃ c₁, Lists c₁ (passed.map clearBit ++ front) ∧ c₁.totalSize = c.totalSize ∧
      ∀ t c', EvictionRound totalBytes c₁ t c' → EvictionRound totalBytes c t c' := by
  induction passed using List.reverseRecOn generalizing c front with
  | nil =>
    rw [List.append_nil] at h
    exact ⟨c, h, rfl, fun t c' hround ↦ hround⟩
  | append_singleton passed entry ih =>
    obtain ⟨u, o⟩ := entry
    have hbit : o.referenceBit = 1 := hset (u, o) (by simp)
    rw [← List.append_assoc] at h hlength
    have hne : front ++ passed ≠ [] := fun hnil ↦ by
      rw [hnil] at hlength
      exact absurd hlength (by simp)
    obtain ⟨c₁, hbody, hlists₁, htotal₁⟩ := evictBody_pass h hne hover hbit
    have hlength₁ : 2 ≤ (((u, o.withBit 0) :: front) ++ passed).length := by
      rw [List.length_append, List.length_singleton] at hlength
      rw [List.cons_append, List.length_cons]
      exact hlength
    have hmoved : Lists c₁ (((u, o.withBit 0) :: front) ++ passed) := hlists₁
    obtain ⟨c₂, hlists₂, htotal₂, hround₂⟩ := ih hmoved hlength₁ (by rwa [htotal₁])
      fun entry hentry ↦ hset entry (List.mem_append_left _ hentry)
    refine ⟨c₂, ?_, htotal₂.trans htotal₁, fun t c' hround ↦ ?_⟩
    · rw [List.map_append, List.append_assoc]
      exact hlists₂
    · exact .pass h.tail_eq hbody (hlists₁.isSome List.mem_cons_self) (hround₂ t c' hround)

/-- A tail without its bit set ends the round. -/
theorem free_round (h : Lists c (entries ++ [(t, o)])) (hne : entries ≠ [])
    (hover : int32 (c.totalSize + totalBytes) > maxCacheSize) (hclear : o.referenceBit ≠ 1) :
    ∃ c', EvictionRound totalBytes c t c' ∧ Lists c' entries ∧
      c'.totalSize = int32 (c.totalSize - o.size) := by
  obtain ⟨c', hbody, hlists, htotal, hfreed⟩ := evictBody_free h hne hover hclear
  exact ⟨c', .free h.tail_eq hbody hfreed, hlists, htotal⟩

/-- The policy frees an object of every list that is not empty. -/
theorem secondChance_total (hne : entries ≠ []) :
    ∃ victim entries', SecondChance entries victim entries' := by
  have hsplit : ∀ passed front : List (ℕ × CacheObject), (∀ entry ∈ passed,
      entry.2.referenceBit = 1) → front ++ passed ≠ [] →
        ∃ victim entries', SecondChance (front ++ passed) victim entries' := by
    intro passed front
    induction front using List.reverseRecOn generalizing passed with
    | nil =>
      intro hset hne
      obtain ⟨front, victim, rfl⟩ := (List.eq_nil_or_concat' passed).resolve_left hne
      exact ⟨victim, front.map clearBit, .wrap hset⟩
    | append_singleton front entry ih =>
      intro hset hne
      rw [List.append_assoc, List.singleton_append] at hne ⊢
      by_cases hbit : entry.2.referenceBit = 1
      · exact ih (entry :: passed) (List.forall_mem_cons.mpr ⟨hbit, hset⟩) hne
      · exact ⟨entry, passed.map clearBit ++ front, .clear hbit hset⟩
  have hall := hsplit [] entries (fun entry hentry ↦ absurd hentry List.not_mem_nil)
  rw [List.append_nil] at hall
  exact hall hne

/-- The eviction loop does what the policy says. -/
theorem SecondChance.round {victim : ℕ × CacheObject} {entries' : List (ℕ × CacheObject)}
    (hpolicy : SecondChance entries victim entries') (h : Lists c entries)
    (hlength : 2 ≤ entries.length) (hover : int32 (c.totalSize + totalBytes) > maxCacheSize) :
    ∃ c', EvictionRound totalBytes c victim.1 c' ∧ Lists c' entries' ∧
      c'.totalSize = int32 (c.totalSize - victim.2.size) := by
  cases hpolicy with
  | @clear front passed _ hclear hset =>
    rw [List.append_cons] at h hlength
    obtain ⟨c₁, hlists₁, htotal₁, hround₁⟩ := passes_eq h hlength hover hset
    rw [← List.append_assoc] at hlists₁
    have hne : passed.map clearBit ++ front ≠ [] := fun hnil ↦ by
      have hpassed := congrArg List.length hnil
      rw [List.length_append, List.length_map, List.length_nil] at hpassed
      rw [List.length_append, List.length_append, List.length_singleton] at hlength
      omega
    obtain ⟨c', hround, hlists, htotal⟩ := free_round hlists₁ hne (by rwa [htotal₁]) hclear
    exact ⟨c', hround₁ _ _ hround, hlists, htotal₁ ▸ htotal⟩
  | @wrap front _ hset =>
    have hempty : Lists c ([] ++ (front ++ [victim])) := h
    obtain ⟨c₁, hlists₁, htotal₁, hround₁⟩ := passes_eq hempty hlength hover hset
    rw [List.append_nil, List.map_append] at hlists₁
    have hne : front.map clearBit ≠ [] := fun hnil ↦ by
      rw [List.map_eq_nil_iff] at hnil
      rw [hnil] at hlength
      exact absurd hlength (by simp)
    have hclear : (victim.2.withBit 0).referenceBit ≠ 1 := zero_ne_one
    obtain ⟨c', hround, hlists, htotal⟩ := free_round hlists₁ hne (by rwa [htotal₁]) hclear
    exact ⟨c', hround₁ _ _ hround, hlists, htotal₁ ▸ htotal⟩

/-- One eviction round is one step of the clock policy. -/
theorem eviction_follows_clock (h : Lists c entries) (hlength : 2 ≤ entries.length)
    (hover : int32 (c.totalSize + totalBytes) > maxCacheSize) :
    ∃ victim entries' c', SecondChance entries victim entries' ∧
      (∀ t c₁, EvictionRound totalBytes c t c₁ ↔ t = victim.1 ∧ c₁ = c') ∧
      Lists c' entries' ∧ c'.totalSize = int32 (c.totalSize - victim.2.size) := by
  have hne : entries ≠ [] := fun hnil ↦ by
    rw [hnil] at hlength
    exact absurd hlength (by simp)
  obtain ⟨victim, entries', hpolicy⟩ := secondChance_total hne
  obtain ⟨c', hround, hlists, htotal⟩ := hpolicy.round h hlength hover
  refine ⟨victim, entries', c', hpolicy, fun t c₁ ↦ ⟨fun hother ↦ hother.unique hround, ?_⟩,
    hlists, htotal⟩
  rintro ⟨rfl, rfl⟩
  exact hround

/-- A cache of a block without and a block with its reference bit set, the latter being the tail. -/
def twoBlocks : Cache where
  head := some 1
  tail := some 2
  totalSize := 3
  blocks := (Store.empty.put 1 ⟨⟨['a'], [7], 1, 0⟩, none, some 2⟩).put 2
    ⟨⟨['b'], [8, 9], 2, 1⟩, some 1, none⟩

/-- A round that passes one block and frees the other. -/
theorem eviction_follows_clock_two : ∃ victim entries' c',
    SecondChance [(1, ⟨['a'], [7], 1, 0⟩), (2, ⟨['b'], [8, 9], 2, 1⟩)] victim entries' ∧
      (∀ t c₁, EvictionRound 1049000 twoBlocks t c₁ ↔ t = victim.1 ∧ c₁ = c') ∧
      Lists c' entries' ∧ c'.totalSize = int32 (twoBlocks.totalSize - victim.2.size) := by
  have hlinked : Linked twoBlocks [1, 2] := by
    refine ⟨?_, by decide⟩
    simp [ring, links_cons_cons, twoBlocks, Cache.after, Cache.before, Store.put_apply]
  have hlists : Lists twoBlocks [(1, ⟨['a'], [7], 1, 0⟩), (2, ⟨['b'], [8, 9], 2, 1⟩)] :=
    ⟨hlinked, by decide⟩
  exact eviction_follows_clock hlists le_rfl (by decide)

end Jungle.Proxy
