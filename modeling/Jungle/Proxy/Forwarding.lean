import Jungle.Proxy.RequestRuns

/-!
# Forwarding a response

A response of any length, in chunks of any sizes, is forwarded whole, and what the cache holds
afterwards are its bytes if it fits and nothing if it does not: as long as the bytes can be counted in
an `int`, and no longer (`forwards_iff`).
-/

set_option autoImplicit false
set_option relaxedAutoImplicit false

namespace Jungle.Proxy

open Jungle.Lib Cache

/-- The lookup of the request finds a block with the bytes and their number. -/
def Caches (c : Cache) (r : Request) (bytes : List UInt8) : Prop :=
  ∃ a b c', Returns (fun fuel ↦ lookup fuel c (fullUrl r)) (some a, c') ∧ c.blocks a = some b ∧
    b.data = bytes ∧ b.size = bytes.length

/-- No copy leaves the response buffer, the client gets all bytes, and they are cached if and only if
they fit. -/
def Forwards (c : Cache) (r : Request) (chunks : List (List UInt8)) (stack : ℕ → UInt8) (t : ℕ) :
    Prop :=
  ∃ c', Returns (fun fuel ↦ handleClient fuel c r chunks stack t) (.forwarded chunks.flatten, c') ∧
    ((chunks.flatten.length : ℤ) ≤ maxObjectSize → Caches c' r chunks.flatten) ∧
    (maxObjectSize < (chunks.flatten.length : ℤ) → Misses c' r)

variable {c : Cache} {entries : List (ℕ × CacheObject)} {r : Request} {chunks : List (List UInt8)}
  {t : ℕ}

/-- The object at the head of the cache is found. -/
theorem caches_head {o : CacheObject} (h : Holds c ((t, o) :: entries)) (hurl : o.url = fullUrl r) :
    Caches c r o.data := by
  have hhead : (t, o) ∈ (t, o) :: entries := List.mem_cons_self
  have hcache : IsCache c ([] ++ (t, o) :: entries) := h.cache
  have hlookup := lookup_eq_some hcache fun entry hentry ↦ absurd hentry List.not_mem_nil
  obtain ⟨b, hb, rfl⟩ := Option.map_eq_some_iff.mp (h.cache.objects _ hhead)
  rw [hurl] at hlookup
  exact ⟨t, b, _, hlookup, hb, rfl, h.sized _ hhead⟩

/-- A response is forwarded and cached faithfully if and only if its bytes can be counted. -/
theorem forwards_iff (h : Holds c entries) (hmisses : ∀ entry ∈ entries, entry.2.url ≠ fullUrl r)
    (hchunks : ∀ chunk ∈ chunks, 1 ≤ chunk.length ∧ chunk.length ≤ maxLine)
    (hfresh : (chunks.flatten.length : ℤ) ≤ maxObjectSize → Fresh chunks.flatten.length c t)
    (stack : ℕ → UInt8) : Forwards c r chunks stack t ↔ (chunks.flatten.length : ℤ) ≤ intMax := by
  constructor
  · rintro ⟨c', hreturns, -⟩
    by_contra hcount
    exact handleClient_overflow h hmisses (fun chunk hchunk ↦ (hchunks chunk hchunk).2)
      (not_le.mp hcount) hreturns
  · intro hcount
    obtain ⟨c', hreturns, ⟨hlarge, rfl⟩ | ⟨hsmall, o, hurl, hdata, hholds⟩⟩ :=
      handleClient_miss h hmisses hcount hfresh stack
    · exact ⟨c', hreturns, fun hsmall ↦ absurd hsmall (not_le.mpr hlarge),
        fun _ ↦ lookup_eq_none h.cache hmisses⟩
    · have hcaches := caches_head hholds hurl
      rw [hdata] at hcaches
      exact ⟨c', hreturns, fun _ ↦ hcaches, fun hlarge ↦ absurd hsmall (not_le.mpr hlarge)⟩

/-- A response of one byte. -/
theorem forwards_iff_one : Forwards (cacheInit Store.empty) ⟨[], [], [], []⟩ [[7]] (fun _ ↦ 0) 1 ↔
    (([[7]] : List (List UInt8)).flatten.length : ℤ) ≤ intMax :=
  forwards_iff (holds_cacheInit Store.empty) (fun _ hentry ↦ absurd hentry List.not_mem_nil)
    (by decide) (fun hsize ↦ fresh_cacheInit hsize 1) _

/-- A response of 2 GiB in full chunks is not forwarded: the count wraps, and a copy leaves the
buffer. -/
theorem not_forwards : ¬∀ (c : Cache) (entries : List (ℕ × CacheObject)) (r : Request)
    (chunks : List (List UInt8)) (stack : ℕ → UInt8) (t : ℕ), Holds c entries →
      (∀ entry ∈ entries, entry.2.url ≠ fullUrl r) →
      (∀ chunk ∈ chunks, 1 ≤ chunk.length ∧ chunk.length ≤ maxLine) →
      ((chunks.flatten.length : ℤ) ≤ maxObjectSize → Fresh chunks.flatten.length c t) →
      Forwards c r chunks stack t := by
  intro hall
  have hsize : ∀ chunk ∈ List.replicate 262144 (List.replicate 8192 (0 : UInt8)),
      chunk.length = 8192 := by
    intro chunk hchunk
    rw [List.eq_of_mem_replicate hchunk, List.length_replicate]
  have hlength : (List.replicate 262144 (List.replicate 8192 (0 : UInt8))).flatten.length =
      2147483648 := by
    rw [List.length_flatten, List.map_replicate, List.sum_replicate, List.length_replicate]
    rfl
  obtain ⟨c', hreturns, -⟩ := hall (cacheInit Store.empty) [] ⟨[], [], [], []⟩
    (List.replicate 262144 (List.replicate 8192 0)) (fun _ ↦ 0) 1 (holds_cacheInit Store.empty)
    (fun _ hentry ↦ absurd hentry List.not_mem_nil)
    (fun chunk hchunk ↦ by rw [hsize chunk hchunk]; decide)
    (fun hsmall ↦ by rw [hlength] at hsmall; exact absurd hsmall (by decide))
  refine handleClient_overflow (holds_cacheInit Store.empty)
    (fun _ hentry ↦ absurd hentry List.not_mem_nil) (fun chunk hchunk ↦ ?_) ?_ hreturns
  · rw [hsize chunk hchunk]
    decide
  · rw [hlength]
    decide

end Jungle.Proxy
