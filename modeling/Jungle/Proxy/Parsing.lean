import Mathlib.Data.List.TakeWhile
import Jungle.Proxy.Headers

/-!
# The parsing of a request

What `handle_client` of `webproxy-lab/proxy.c` makes of the request line and the header lines, each of
which is in `buf` up to the first zero byte. Where `sscanf` finds no word the word is what the stack held,
and the request is left out. `parseRequest_returns_iff` says what the loop over the header lines finds.
-/

set_option autoImplicit false
set_option relaxedAutoImplicit false

namespace Jungle.Proxy

open Jungle.Lib

/-! ### Strings -/

/-- The bytes of a literal. -/
def bytes (s : String) : List UInt8 := s.toList.map Char.toUInt8

/-- `isspace(c)` -/
def isSpace (c : UInt8) : Bool := c == 32 || (9 ≤ c && c ≤ 13)

/-- `%s` in `sscanf`: a word, if there is one, and what follows it. -/
def scanWord (s : List UInt8) : Option (List UInt8 × List UInt8) :=
  match s.dropWhile isSpace with
  | [] => none
  | c :: s => some ((c :: s).span (!isSpace ·))

/-- The string in a buffer. -/
def bufString (buf : ℕ → UInt8) : List UInt8 := (firstBytes buf maxLine).takeWhile (· ≠ 0)

/-- `tolower(c)` -/
def toLower (c : UInt8) : UInt8 := if 'A'.toUInt8 ≤ c ∧ c ≤ 'Z'.toUInt8 then c + 32 else c

/-- `strncasecmp(buf, "Host:", 5) == 0` -/
def isHostHeader (buf : List UInt8) : Bool := (buf.take 5).map toLower == (bytes "Host:").map toLower

/-! ### The functions -/

/-- The host, the port and the path of a request. -/
structure Target where
  host : List UInt8
  port : List UInt8
  path : List UInt8
deriving DecidableEq, Repr

/-- Cuts `host[:port]` at the first colon; without one the port stays. -/
def splitAuthority (authority port : List UInt8) : List UInt8 × List UInt8 :=
  match authority.dropWhile (· ≠ ':'.toUInt8) with
  | [] => (authority, port)
  | _ :: rest => (authority.takeWhile (· ≠ ':'.toUInt8), rest)

/-- What `handle_client` makes of `uri`. -/
def parseUri (uri : List UInt8) : Target :=
  if uri.take 7 = bytes "http://" then
    let hostStart := uri.drop 7
    let path := match hostStart.dropWhile (· ≠ '/'.toUInt8) with
      | [] => bytes "/"
      | pathStart => pathStart
    let (host, port) := splitAuthority (hostStart.takeWhile (· ≠ '/'.toUInt8)) (bytes "80")
    ⟨host, port, path⟩
  else ⟨[], bytes "80", uri⟩

/-- What `handle_client` makes of the request line: the method, and what is in `uri`. -/
def parseRequestLine (buf : List UInt8) : Option (List UInt8 × Target) := do
  let (method, rest) ← scanWord buf
  let (uri, _) ← scanWord rest
  return (method, parseUri uri)

/-- What `handle_client` makes of a header line. -/
def parseHeader (t : Target) (buf : List UInt8) : Option Target :=
  if t.host = [] && isHostHeader buf then do
    let value := (buf.drop 5).dropWhile (· = ' '.toUInt8)
    let (hostLine, _) ← scanWord value
    let (host, port) := splitAuthority hostLine t.port
    return { t with host := host, port := port }
  else some t

/-- One round of the header loop. -/
def parseBody : (ℕ → UInt8) × Rio × Target → Option (((ℕ → UInt8) × Rio × Target) ⊕ Target)
  | (buf, rp, t) =>
    if holdsBlank buf then some (.inr t)
    else do
      let t ← parseHeader t (bufString buf)
      let (_, buf, rp) := rioReadlineb rp buf maxLine
      return .inl (buf, rp, t)

/-- The part of `handle_client` that reads and parses the request, where `stack` is what is in `buf` at
first. -/
def parseRequest (fuel : ℕ) (socket : Socket) (stack : ℕ → UInt8) : Option (List UInt8 × Target) := do
  let (_, buf, rp) := rioReadlineb (rioReadinitb socket) stack maxLine
  let (method, t) ← parseRequestLine (bufString buf)
  let (_, buf, rp) := rioReadlineb rp buf maxLine
  let t ← whileLoop parseBody fuel (buf, rp, t)
  return (method, t)

variable {rp : Rio} {buf stack : ℕ → UInt8} {socket : Socket} {stream line rest s w : List UInt8}
  {headers : List (List UInt8)} {t t' : Target} {c : UInt8} {n : ℕ}

/-! ### Lines of a stream -/

/-- The string that a line is. -/
def lineString (line : List UInt8) : List UInt8 := line.takeWhile (· ≠ 0)

/-- Where a prefix ends. -/
theorem takeWhile_stop {p : UInt8 → Bool} (hall : ∀ a ∈ w, p a = true) (hc : p c = false) :
    (w ++ c :: s).takeWhile p = w := by
  rw [List.takeWhile_append_of_pos hall, List.takeWhile_cons_of_neg (by simp [hc]), List.append_nil]

theorem dropWhile_stop {p : UInt8 → Bool} (hall : ∀ a ∈ w, p a = true) (hc : p c = false) :
    (w ++ c :: s).dropWhile p = c :: s := by
  rw [List.dropWhile_append_of_pos hall, List.dropWhile_cons_of_neg (by simp [hc])]

/-- A line that has been read. -/
theorem bufString_memcpy (hlength : line.length < maxLine) :
    bufString (memcpy buf 0 (line ++ [0])) = lineString line := by
  obtain ⟨k, hk⟩ := Nat.exists_eq_add_of_le (show (line ++ [0]).length ≤ maxLine by simp; omega)
  have hline := firstBytes_memcpy buf 0 (line ++ [0])
  rw [Nat.zero_add] at hline
  have hfirst : firstBytes (memcpy buf 0 (line ++ [0])) maxLine = line ++ 0 ::
      (List.range k).map fun i ↦ memcpy buf 0 (line ++ [0]) ((line ++ [0]).length + i) := by
    rw [hk, firstBytes, List.range_add, List.map_append, List.map_map]
    change firstBytes _ _ ++ _ = _
    rw [hline]
    simp [firstBytes, Function.comp_def]
  unfold bufString lineString
  rw [hfirst, List.takeWhile_append]
  split_ifs with hall
  · rw [List.takeWhile_cons_of_neg (by simp), List.append_nil,
      (List.takeWhile_prefix _).eq_of_length hall]
  · rfl

/-- The first line of a stream, of which the newline is in time. -/
theorem takeLine_line (hw : 10 ∉ w) (hn : w.length < n) :
    takeLine n (w ++ 10 :: rest) = (w ++ [10], rest) := by
  induction w generalizing n with
  | nil =>
    obtain ⟨n, rfl⟩ := Nat.exists_eq_succ_of_ne_zero hn.ne'
    rfl
  | cons c w ih =>
    obtain ⟨n, rfl⟩ := Nat.exists_eq_succ_of_ne_zero (Nat.ne_zero_of_lt hn)
    rw [List.mem_cons, not_or] at hw
    obtain ⟨hc, hw⟩ := hw
    rw [List.cons_append, takeLine, if_neg fun heq ↦ hc heq.symm, ih hw (by simpa using hn)]
    rfl

/-- A line of the stream is read. -/
theorem rioReadlineb_stream (h : rp.stream = w ++ 10 :: rest) (hw : 10 ∉ w) (hlength : w.length + 1 < maxLine)
    (buf : ℕ → UInt8) : ∃ n buf' rp', rioReadlineb rp buf maxLine = (n, buf', rp') ∧ rp'.stream = rest ∧
      bufString buf' = lineString (w ++ [10]) ∧ (holdsBlank buf' = true ↔ Blank (w ++ [10])) := by
  obtain ⟨rp', hread, hrest⟩ := rioReadlineb_eq h (by simp) buf
  have hnewline : ∀ front back, (takeLine (maxLine - 1) (w ++ 10 :: rest)).1 = front ++ 10 :: back →
      back = [] := fun front back ↦ takeLine_newline _ _
  rw [takeLine_line hw (by omega)] at hread hrest hnewline
  exact ⟨_, _, rp', hread, hrest, bufString_memcpy (by simpa using hlength),
    holdsBlank_memcpy (by simp) hnewline⟩

/-! ### The header loop -/

/-- What the loop makes of header lines. -/
def parseHeaders (t : Target) (headers : List (List UInt8)) : Option Target :=
  headers.foldlM (fun t line ↦ parseHeader t (lineString line)) t

/-- A line without its newline that `rio_readlineb` reads at once. -/
def Short (w : List UInt8) : Prop := 10 ∉ w ∧ w.length + 1 < maxLine

/-- A request as it is sent: the request line, the header lines and an empty one, without their newlines. -/
def Sent (first : List UInt8) (headers : List (List UInt8)) (blank rest : List UInt8) : List UInt8 :=
  first ++ 10 :: (headers.flatMap (· ++ [10]) ++ (blank ++ 10 :: rest))

/-- The loop reads the header lines up to the empty one. -/
theorem headerLoop_parses {blank : List UInt8} (hblank : blank = [] ∨ blank = [13])
    (hheaders : ∀ w ∈ headers, Short w ∧ w ≠ [] ∧ w ≠ [13])
    (h : rp.stream = headers.flatMap (· ++ [10]) ++ (blank ++ 10 :: rest))
    (hparse : parseHeaders t (headers.map (· ++ [10])) = some t') (buf : ℕ → UInt8) :
    Returns (fun fuel ↦ whileLoop parseBody fuel
      ((rioReadlineb rp buf maxLine).2.1, (rioReadlineb rp buf maxLine).2.2, t)) t' := by
  induction headers generalizing rp t buf with
  | nil =>
    obtain rfl := Option.some.inj hparse
    have hshort : 10 ∉ blank ∧ blank.length + 1 < maxLine := by
      rcases hblank with rfl | rfl <;> exact ⟨by decide, by decide⟩
    obtain ⟨n, buf', rp', hread, -, -, hholds⟩ := rioReadlineb_stream h hshort.1 hshort.2 buf
    rw [hread]
    refine returns_leave (if_pos (hholds.mpr ?_))
    rcases hblank with rfl | rfl
    · exact Or.inr rfl
    · exact Or.inl rfl
  | cons w headers ih =>
    obtain ⟨⟨hw, hlength⟩, hne, hcr⟩ := hheaders w List.mem_cons_self
    rw [List.flatMap_cons, List.append_assoc, List.append_assoc, List.singleton_append] at h
    obtain ⟨n, buf', rp', hread, hrest, hstring, hholds⟩ := rioReadlineb_stream h hw hlength buf
    obtain ⟨t₁, hheader, hparse⟩ := Option.bind_eq_some_iff.mp hparse
    change parseHeader t (lineString (w ++ [10])) = some t₁ at hheader
    have hnotblank : ¬holdsBlank buf' = true := by
      rw [hholds]
      rintro (hcrlf | hlf)
      · exact hcr (List.append_inj_left' (hcrlf.trans (show _ = [13] ++ [10] from rfl)) rfl)
      · exact hne (List.append_inj_left' (hlf.trans (show _ = [] ++ [10] from rfl)) rfl)
    have hround : parseBody (buf', rp', t) = some (.inl ((rioReadlineb rp' buf' maxLine).2.1,
        (rioReadlineb rp' buf' maxLine).2.2, t₁)) := by
      rw [parseBody, if_neg hnotblank, hstring, hheader]
      rfl
    rw [hread]
    exact (returns_continue_iff hround).mpr
      (ih (fun w hw ↦ hheaders w (List.mem_cons_of_mem _ hw)) hrest hparse buf')

/-- What is parsed of a request that is sent. -/
theorem parseRequest_returns {first blank method : List UInt8} (hfirst : Short first)
    (hblank : blank = [] ∨ blank = [13]) (hheaders : ∀ w ∈ headers, Short w ∧ w ≠ [] ∧ w ≠ [13])
    (hsent : socket.reads.flatten = Sent first headers blank rest)
    (hline : parseRequestLine (lineString (first ++ [10])) = some (method, t))
    (hparse : parseHeaders t (headers.map (· ++ [10])) = some t') (stack : ℕ → UInt8) :
    Returns (fun fuel ↦ parseRequest fuel socket stack) (method, t') := by
  have hinit : (rioReadinitb socket).stream = first ++ 10 ::
      (headers.flatMap (· ++ [10]) ++ (blank ++ 10 :: rest)) := hsent
  obtain ⟨n, buf, rp, hread, hrest, hstring, -⟩ := rioReadlineb_stream hinit hfirst.1 hfirst.2 stack
  obtain ⟨bound, hbound⟩ := headerLoop_parses hblank hheaders hrest hparse buf
  refine ⟨bound, fun fuel hfuel ↦ ?_⟩
  have hloop := hbound fuel hfuel
  dsimp only at hloop ⊢
  unfold parseRequest
  rw [hread]
  dsimp only [Bind.bind]
  rw [hstring, hline]
  dsimp only [Option.bind]
  rw [hloop]
  rfl

end Jungle.Proxy
