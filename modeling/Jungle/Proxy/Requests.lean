import Jungle.Proxy.CacheRuns

/-!
# Requests served one after another

`handleClient` is `handle_client` of `webproxy-lab/proxy.c` from the lookup on, for a request whose
line and headers are parsed. A request that is not in the cache is sent to the origin, whose bytes
arrive in chunks of up to `MAXLINE`. They are forwarded and, up to `MAX_OBJECT_SIZE` of them,
collected in `response_buf`, which starts out as what the stack held; a copy to a place outside the
buffer faults. `run_serves_origin` says which bytes a cached answer consists of.
-/

set_option autoImplicit false
set_option relaxedAutoImplicit false

namespace Jungle.Proxy

open Jungle.Lib Cache

/-- What `handle_client` parses from the request line and the headers. -/
structure Request where
  method : List Char
  host : List Char
  port : List Char
  path : List Char
deriving DecidableEq, Repr

/-- `snprintf(full_url, MAXLINE, "%s:%s%s", host, port, path)` -/
def fullUrl (r : Request) : List Char :=
  (r.host ++ ':' :: (r.port ++ r.path)).take (maxLine - 1)

/-- `memcpy(buf + offset, source, n)` -/
def memcpy (buf : ℕ → UInt8) (offset : ℕ) (source : List UInt8) : ℕ → UInt8 :=
  fun i ↦ if offset ≤ i then source.getD (i - offset) (buf i) else buf i

/-- One round of the loop that forwards the response. -/
def accumulate : (ℕ → UInt8) × ℤ → List UInt8 → Option ((ℕ → UInt8) × ℤ)
  | (responseBuf, totalBytes), chunk =>
    if int32 (totalBytes + chunk.length) ≤ maxObjectSize then
      if 0 ≤ totalBytes ∧ totalBytes + chunk.length ≤ maxObjectSize then
        some (memcpy responseBuf totalBytes.toNat chunk, int32 (totalBytes + chunk.length))
      else none
    else some (responseBuf, int32 (totalBytes + chunk.length))

/-- The first bytes of a buffer. -/
def firstBytes (buf : ℕ → UInt8) (n : ℕ) : List UInt8 := (List.range n).map buf

/-- What the client is sent: the bytes of a block, or those the origin sends. -/
inductive Answer
  | cached (bytes : List UInt8)
  | forwarded (bytes : List UInt8)
deriving DecidableEq, Repr

/-- `handle_client` from the lookup on: the origin sends `chunks`, `stack` is what is in
`response_buf` at first, and `malloc` returns `t`. -/
def handleClient (fuel : ℕ) (c : Cache) (r : Request) (chunks : List (List UInt8))
    (stack : ℕ → UInt8) (t : ℕ) : Option (Answer × Cache) := do
  match ← lookup fuel c (fullUrl r) with
  | (some temp, c) =>
    let b ← c.blocks temp
    return (.cached (b.data.take b.size.toNat), c)
  | (none, c) =>
    let (responseBuf, totalBytes) ← chunks.foldlM accumulate (stack, 0)
    if totalBytes ≤ maxObjectSize then
      let data := firstBytes responseBuf totalBytes.toNat
      let c ← cacheObject fuel c (fullUrl r) data totalBytes t
      return (.forwarded chunks.flatten, c)
    else return (.forwarded chunks.flatten, c)

variable {c c' : Cache} {entries : List (ℕ × CacheObject)} {r : Request}

/-! ### The response buffer -/

/-- Copying bytes behind the first bytes of a buffer. -/
theorem firstBytes_memcpy (buf : ℕ → UInt8) (n : ℕ) (source : List UInt8) :
    firstBytes (memcpy buf n source) (n + source.length) = firstBytes buf n ++ source := by
  refine List.ext_getElem (by simp [firstBytes]) fun i hi hi' ↦ ?_
  have hbound : i < n + source.length := by simpa [firstBytes] using hi
  rw [List.getElem_append]
  by_cases hin : i < n
  · simp [firstBytes, memcpy, hin, Nat.not_le.mpr hin]
  · have hsource : i - n < source.length := by omega
    simp [firstBytes, memcpy, hin, Nat.not_lt.mp hin, hsource]

/-- The bytes so far are counted and, as long as they fit, collected. -/
def Collected (state : (ℕ → UInt8) × ℤ) (bytes : List UInt8) : Prop :=
  state.2 = bytes.length ∧
    ((bytes.length : ℤ) ≤ maxObjectSize → firstBytes state.1 bytes.length = bytes)

/-- A round collects a chunk as long as the bytes can be counted. -/
theorem accumulate_eq {state : (ℕ → UInt8) × ℤ} {bytes chunk : List UInt8}
    (h : Collected state bytes) (hcount : ((bytes ++ chunk).length : ℤ) ≤ intMax) :
    ∃ state', accumulate state chunk = some state' ∧ Collected state' (bytes ++ chunk) := by
  obtain ⟨buf, total⟩ := state
  obtain ⟨rfl, hbytes⟩ : total = bytes.length ∧ _ := h
  rw [List.length_append] at hcount
  push_cast at hcount
  have hint : int32 (bytes.length + chunk.length) = bytes.length + chunk.length :=
    int32_of_mem (by unfold intMin; omega) hcount
  rcases le_or_gt ((bytes.length : ℤ) + chunk.length) maxObjectSize with hfits | hover
  · refine ⟨(memcpy buf bytes.length chunk, bytes.length + chunk.length), ?_, ?_, fun _ ↦ ?_⟩
    · simp only [accumulate, hint, if_pos hfits, if_pos (And.intro (Int.natCast_nonneg _) hfits),
        Int.toNat_natCast]
    · rw [List.length_append]
      push_cast
      rfl
    · rw [List.length_append, firstBytes_memcpy, hbytes (by omega)]
  · refine ⟨(buf, bytes.length + chunk.length), ?_, ?_, fun hfits ↦ ?_⟩
    · simp only [accumulate, hint, if_neg (not_le.mpr hover)]
    · rw [List.length_append]
      push_cast
      rfl
    · rw [List.length_append] at hfits
      push_cast at hfits
      exact absurd hfits (not_le.mpr hover)

/-- A round faults when the count overflows. -/
theorem accumulate_eq_none {state : (ℕ → UInt8) × ℤ} {bytes chunk : List UInt8}
    (h : Collected state bytes) (hbytes : (bytes.length : ℤ) ≤ intMax)
    (hchunk : chunk.length ≤ maxLine) (hcount : intMax < ((bytes ++ chunk).length : ℤ)) :
    accumulate state chunk = none := by
  obtain ⟨buf, total⟩ := state
  obtain ⟨rfl, -⟩ : total = bytes.length ∧ _ := h
  rw [List.length_append] at hcount
  push_cast at hcount
  unfold intMax at hbytes hcount
  unfold maxLine at hchunk
  have hwrap : int32 (bytes.length + chunk.length) ≤ maxObjectSize := by
    unfold int32 intMin maxObjectSize
    omega
  have hover : ¬((0 : ℤ) ≤ bytes.length ∧ (bytes.length : ℤ) + chunk.length ≤ maxObjectSize) := by
    unfold maxObjectSize
    omega
  simp only [accumulate, if_pos hwrap, if_neg hover]

/-- The loop collects the chunks as long as the bytes can be counted. -/
theorem foldlM_accumulate_eq {state : (ℕ → UInt8) × ℤ} {bytes : List UInt8}
    (h : Collected state bytes) {chunks : List (List UInt8)}
    (hcount : ((bytes ++ chunks.flatten).length : ℤ) ≤ intMax) :
    ∃ state', chunks.foldlM accumulate state = some state' ∧
      Collected state' (bytes ++ chunks.flatten) := by
  induction chunks generalizing state bytes with
  | nil => exact ⟨state, rfl, by rwa [List.flatten_nil, List.append_nil]⟩
  | cons chunk chunks ih =>
    rw [List.flatten_cons, ← List.append_assoc] at hcount ⊢
    have hchunk : ((bytes ++ chunk).length : ℤ) ≤ intMax := by
      rw [List.length_append] at hcount
      omega
    obtain ⟨state', hstep, hcollected⟩ := accumulate_eq h hchunk
    rw [List.foldlM_cons, hstep, Option.bind_eq_bind, Option.bind_some]
    exact ih hcollected hcount

/-- The loop faults when the count overflows. -/
theorem foldlM_accumulate_eq_none {state : (ℕ → UInt8) × ℤ} {bytes : List UInt8}
    (h : Collected state bytes) (hbytes : (bytes.length : ℤ) ≤ intMax)
    {chunks : List (List UInt8)} (hchunks : ∀ chunk ∈ chunks, chunk.length ≤ maxLine)
    (hcount : intMax < ((bytes ++ chunks.flatten).length : ℤ)) :
    chunks.foldlM accumulate state = none := by
  induction chunks generalizing state bytes with
  | nil =>
    rw [List.flatten_nil, List.append_nil] at hcount
    omega
  | cons chunk chunks ih =>
    obtain ⟨hchunk, hrest⟩ := List.forall_mem_cons.mp hchunks
    rw [List.flatten_cons, ← List.append_assoc] at hcount
    rw [List.foldlM_cons, Option.bind_eq_bind]
    rcases le_or_gt ((bytes ++ chunk).length : ℤ) intMax with hfits | hover
    · obtain ⟨state', hstep, hcollected⟩ := accumulate_eq h hfits
      rw [hstep, Option.bind_some]
      exact ih hcollected hfits hrest hcount
    · rw [accumulate_eq_none h hbytes hchunk hover, Option.bind_none]

/-! ### One request -/

/-- A request with a block in the cache is answered with its bytes. -/
theorem handleClient_hit {front back : List (ℕ × CacheObject)} {a : ℕ} {o : CacheObject}
    (h : Holds c (front ++ (a, o) :: back)) (hurl : o.url = fullUrl r)
    (hfront : ∀ entry ∈ front, entry.2.url ≠ fullUrl r) (chunks : List (List UInt8))
    (stack : ℕ → UInt8) (t : ℕ) : Returns (fun fuel ↦ handleClient fuel c r chunks stack t)
      (.cached o.data, c.withBit a 1) := by
  rw [← hurl] at hfront
  obtain ⟨bound, hbound⟩ := lookup_eq_some h.cache hfront
  refine ⟨bound, fun fuel hfuel ↦ ?_⟩
  have hmem : (a, o.withBit 1) ∈ front ++ (a, o.withBit 1) :: back := by simp
  obtain ⟨b, hb, hbo⟩ := Option.map_eq_some_iff.mp ((h.withBit 1).cache.objects _ hmem)
  have hdata : b.toCacheObject.data = (o.withBit 1).data := congrArg CacheObject.data hbo
  have hsize : b.toCacheObject.size = (o.withBit 1).size := congrArg CacheObject.size hbo
  have hlength : o.size = (o.data.length : ℤ) := h.sized (a, o) (by simp)
  simp only [handleClient, ← hurl, hbound fuel hfuel, Option.bind_eq_bind, Option.bind_some, hb,
    hdata, hsize, CacheObject.withBit_data, CacheObject.withBit_size, hlength, Int.toNat_natCast,
    List.take_length, Option.pure_def]

/-- A request without a block in the cache is answered with the bytes of the origin. -/
theorem handleClient_miss (h : Holds c entries)
    (habsent : ∀ entry ∈ entries, entry.2.url ≠ fullUrl r) {chunks : List (List UInt8)}
    (hcount : (chunks.flatten.length : ℤ) ≤ intMax) {t : ℕ}
    (hfresh : (chunks.flatten.length : ℤ) ≤ maxObjectSize → Fresh chunks.flatten.length c t)
    (stack : ℕ → UInt8) :
    ∃ c', Returns (fun fuel ↦ handleClient fuel c r chunks stack t)
        (.forwarded chunks.flatten, c') ∧
      (maxObjectSize < (chunks.flatten.length : ℤ) ∧ c' = c ∨
        (chunks.flatten.length : ℤ) ≤ maxObjectSize ∧ ∃ o, o.url = fullUrl r ∧
          o.data = chunks.flatten ∧
          Holds c' ((t, o) :: survivors chunks.flatten.length entries)) := by
  obtain ⟨bound, hlookup⟩ := lookup_eq_none h.cache habsent
  have hempty : Collected (stack, 0) [] := ⟨rfl, fun _ ↦ rfl⟩
  obtain ⟨⟨buf, total⟩, hfold, htotal, hbytes⟩ := foldlM_accumulate_eq hempty hcount
  obtain rfl : total = chunks.flatten.length := htotal
  rw [List.nil_append] at hbytes
  by_cases hfits : (chunks.flatten.length : ℤ) ≤ maxObjectSize
  · obtain ⟨c', ⟨bound', hcache⟩, hholds⟩ :=
      cacheObject_returns h (fullUrl r) hfits (hfresh hfits)
    refine ⟨c', ⟨bound + bound', fun fuel hfuel ↦ ?_⟩,
      Or.inr ⟨hfits, _, rfl, rfl, hholds⟩⟩
    simp only [handleClient, hlookup fuel (by omega), Option.bind_eq_bind, Option.bind_some, hfold,
      if_pos hfits, Int.toNat_natCast, hbytes hfits, hcache fuel (by omega), Option.pure_def]
  · refine ⟨c, ⟨bound, fun fuel hfuel ↦ ?_⟩, Or.inl ⟨not_le.mp hfits, rfl⟩⟩
    simp only [handleClient, hlookup fuel hfuel, Option.bind_eq_bind, Option.bind_some, hfold,
      if_neg hfits, Option.pure_def]

/-- A request without a block in the cache is not answered if the origin sends more bytes than can be
counted. -/
theorem handleClient_overflow (h : Holds c entries)
    (habsent : ∀ entry ∈ entries, entry.2.url ≠ fullUrl r) {chunks : List (List UInt8)}
    (hchunks : ∀ chunk ∈ chunks, chunk.length ≤ maxLine)
    (hcount : intMax < (chunks.flatten.length : ℤ)) {stack : ℕ → UInt8} {t : ℕ}
    {result : Answer × Cache} :
    ¬Returns (fun fuel ↦ handleClient fuel c r chunks stack t) result := by
  rintro ⟨bound, hanswer⟩
  obtain ⟨bound', hlookup⟩ := lookup_eq_none h.cache habsent
  have hempty : Collected (stack, 0) [] := ⟨rfl, fun _ ↦ rfl⟩
  have hfault : chunks.foldlM accumulate (stack, 0) = none :=
    foldlM_accumulate_eq_none hempty (by decide) hchunks hcount
  have hcall := hanswer (bound + bound' + 1) (by omega)
  simp only [handleClient, hlookup (bound + bound' + 1) (by omega), Option.bind_eq_bind,
    Option.bind_some, hfault, Option.bind_none] at hcall
  exact absurd hcall (by simp)

end Jungle.Proxy
