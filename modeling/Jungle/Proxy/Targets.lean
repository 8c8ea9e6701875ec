import Jungle.Proxy.Parsing

/-!
# The host, the port and the path

A request may name its host in the URI or in the first `Host` header, and is parsed alike
(`forms_agree`). The key in the cache is cut apart again at its first colon, so that it gives away the host
(`fullUrl_determines`), but not where the port ends and the path starts.
-/

set_option autoImplicit false
set_option relaxedAutoImplicit false

namespace Jungle.Proxy

open Jungle.Lib

variable {socket : Socket} {stack : ℕ → UInt8} {s w first host path method version : List UInt8}
  {port : Option (List UInt8)} {headers : List (List UInt8)} {t t' : Target} {c : UInt8}

/-! ### Words -/

/-- A byte of a string that is no white space. -/
def IsVisible (c : UInt8) : Prop := c ≠ 0 ∧ isSpace c = false

instance (c : UInt8) : Decidable (IsVisible c) := inferInstanceAs (Decidable (_ ∧ _))

/-- A property of all bytes of a string is decided byte by byte. -/
local instance decidableForallByte (w : List UInt8) (P : UInt8 → Prop) [DecidablePred P] : Decidable (∀ c ∈ w, P c) :=
  List.decidableBAll P w

/-- What `%s` in `sscanf` takes. -/
def Word (w : List UInt8) : Prop := w ≠ [] ∧ ∀ c ∈ w, IsVisible c

instance (w : List UInt8) : Decidable (Word w) := inferInstanceAs (Decidable (_ ∧ _))

theorem scanWord_space (hc : isSpace c = true) : scanWord (c :: s) = scanWord s := by
  rw [scanWord, scanWord, List.dropWhile_cons_of_pos hc]

/-- A word is scanned up to the white space behind it. -/
theorem scanWord_word (hw : Word w) (hc : isSpace c = true) : scanWord (w ++ c :: s) = some (w, c :: s) := by
  obtain ⟨hne, hw⟩ := hw
  have hall : ∀ a ∈ w, (!isSpace a) = true := fun a ha ↦ by simp [(hw a ha).2]
  obtain ⟨a, v, rfl⟩ := List.exists_cons_of_ne_nil hne
  have ha : ¬isSpace a = true := by simpa using hall a List.mem_cons_self
  rw [scanWord, List.cons_append, List.dropWhile_cons_of_neg ha]
  dsimp only
  rw [List.span_eq_takeWhile_dropWhile, ← List.cons_append, takeWhile_stop hall (by simp [hc]),
    dropWhile_stop hall (by simp [hc])]

/-- A string goes on behind bytes that are not zero. -/
theorem lineString_append (hw : ∀ c ∈ w, c ≠ 0) : lineString (w ++ s) = w ++ lineString s :=
  List.takeWhile_append_of_pos fun c hc ↦ decide_eq_true (hw c hc)

theorem lineString_cons (hc : c ≠ 0) : lineString (c :: s) = c :: lineString s :=
  List.takeWhile_cons_of_pos (decide_eq_true hc)

/-- The method and the URI of a request line. -/
theorem parseRequestLine_eq {uri : List UInt8} (hmethod : Word method) (huri : Word uri) :
    parseRequestLine (lineString (method ++ 32 :: (uri ++ 32 :: s))) = some (method, parseUri uri) := by
  rw [lineString_append fun c hc ↦ (hmethod.2 c hc).1, lineString_cons (by decide),
    lineString_append fun c hc ↦ (huri.2 c hc).1, lineString_cons (by decide), parseRequestLine,
    scanWord_word hmethod (by decide)]
  dsimp only [Bind.bind, Option.bind]
  rw [scanWord_space (by decide), scanWord_word huri (by decide)]
  rfl

/-! ### Naming a host -/

/-- A host and a port that can be told apart from each other and from a path. -/
structure Named (host : List UInt8) (port : Option (List UInt8)) : Prop where
  word : Word host
  colon : ':'.toUInt8 ∉ host
  slash : '/'.toUInt8 ∉ host
  port : ∀ p ∈ port, (∀ c ∈ p, IsVisible c) ∧ '/'.toUInt8 ∉ p

/-- `host[:port]` -/
def authority (host : List UInt8) : Option (List UInt8) → List UInt8
  | none => host
  | some port => host ++ ':'.toUInt8 :: port

theorem Named.authority_word (h : Named host port) : Word (authority host port) := by
  cases port with
  | none => exact h.word
  | some port =>
    refine ⟨by simp [authority], fun c hc ↦ ?_⟩
    rcases List.mem_append.mp hc with hc | hc
    · exact h.word.2 c hc
    · rcases List.mem_cons.mp hc with rfl | hc
      · decide
      · exact (h.port port rfl).1 c hc

theorem Named.authority_slash (h : Named host port) : '/'.toUInt8 ∉ authority host port := by
  cases port with
  | none => exact h.slash
  | some port =>
    simp only [authority, List.mem_append, List.mem_cons, not_or]
    exact ⟨h.slash, by decide, (h.port port rfl).2⟩

/-- The host and the port are found again. -/
theorem splitAuthority_eq (h : Named host port) (old : List UInt8) :
    splitAuthority (authority host port) old = (host, port.getD old) := by
  have hall : ∀ c ∈ host, decide (c ≠ ':'.toUInt8) = true := fun c hc ↦
    decide_eq_true fun heq ↦ h.colon (heq ▸ hc)
  cases port with
  | none =>
    have hnil : host.dropWhile (· ≠ ':'.toUInt8) = [] := List.dropWhile_eq_nil_iff.mpr hall
    rw [splitAuthority, authority, hnil]
    rfl
  | some port =>
    rw [splitAuthority, authority, dropWhile_stop hall (by decide), takeWhile_stop hall (by decide)]
    rfl

/-- The port is 80 where none is given. -/
def targetOf (host : List UInt8) (port : Option (List UInt8)) (path : List UInt8) : Target :=
  ⟨host, port.getD (bytes "80"), path⟩

/-- A URI with a path. -/
theorem parseUri_absolute (h : Named host port) :
    parseUri (bytes "http://" ++ (authority host port ++ '/'.toUInt8 :: path)) =
      targetOf host port ('/'.toUInt8 :: path) := by
  have hall : ∀ c ∈ authority host port, decide (c ≠ '/'.toUInt8) = true := fun c hc ↦
    decide_eq_true fun heq ↦ h.authority_slash (heq ▸ hc)
  have htake : ∀ s : List UInt8, (bytes "http://" ++ s).take 7 = bytes "http://" := fun _ ↦ rfl
  have hdrop : ∀ s : List UInt8, (bytes "http://" ++ s).drop 7 = s := fun _ ↦ rfl
  rw [parseUri, if_pos (htake _), hdrop]
  dsimp only
  rw [dropWhile_stop hall (by decide), takeWhile_stop hall (by decide), splitAuthority_eq h]
  rfl

/-- A URI without one. -/
theorem parseUri_bare (h : Named host port) :
    parseUri (bytes "http://" ++ authority host port) = targetOf host port (bytes "/") := by
  have hall : ∀ c ∈ authority host port, decide (c ≠ '/'.toUInt8) = true := fun c hc ↦
    decide_eq_true fun heq ↦ h.authority_slash (heq ▸ hc)
  have htake : ∀ s : List UInt8, (bytes "http://" ++ s).take 7 = bytes "http://" := fun _ ↦ rfl
  have hdrop : ∀ s : List UInt8, (bytes "http://" ++ s).drop 7 = s := fun _ ↦ rfl
  have hnil : (authority host port).dropWhile (· ≠ '/'.toUInt8) = [] :=
    List.dropWhile_eq_nil_iff.mpr hall
  have hself : (authority host port).takeWhile (· ≠ '/'.toUInt8) = authority host port :=
    List.takeWhile_eq_self_iff.mpr hall
  rw [parseUri, if_pos (htake _), hdrop]
  dsimp only
  rw [hnil, hself, splitAuthority_eq h]
  rfl

/-- A path. -/
theorem parseUri_origin : parseUri ('/'.toUInt8 :: path) = ⟨[], bytes "80", '/'.toUInt8 :: path⟩ := by
  rw [parseUri, if_neg]
  intro htake
  exact absurd (List.cons.inj htake).1 (by decide)

/-! ### Headers -/

/-- A header line without its newline that names the host. -/
def hostLine (host : List UInt8) (port : Option (List UInt8)) (ending : List UInt8) : List UInt8 :=
  bytes "Host: " ++ (authority host port ++ ending)

/-- Once the host is known, headers do not matter. -/
theorem parseHeaders_host (h : t.host ≠ []) (headers : List (List UInt8)) :
    parseHeaders t headers = some t := by
  induction headers with
  | nil => rfl
  | cons line headers ih =>
    have hheader : parseHeader t (lineString line) = some t := by
      rw [parseHeader, if_neg]
      simp [h]
    rw [parseHeaders, List.foldlM_cons, hheader]
    exact ih

/-- Other headers do not matter. -/
theorem parseHeaders_other (h : ∀ line ∈ headers, isHostHeader (lineString line) = false) (t : Target) :
    parseHeaders t headers = some t := by
  induction headers with
  | nil => rfl
  | cons line headers ih =>
    have hheader : parseHeader t (lineString line) = some t := by
      rw [parseHeader, if_neg]
      simp [h line List.mem_cons_self]
    rw [parseHeaders, List.foldlM_cons, hheader]
    exact ih fun line hline ↦ h line (List.mem_cons_of_mem _ hline)

/-- The header that names the host. -/
theorem parseHeader_hostLine (h : Named host port) {ending : List UInt8}
    (hending : ending = [] ∨ ending = [13]) (ht : t.host = []) :
    parseHeader t (lineString (hostLine host port ending ++ [10])) =
      some { t with host := host, port := port.getD t.port } := by
  have hword := h.authority_word
  obtain ⟨e, rest, hspace, hstring⟩ : ∃ e rest, isSpace e = true ∧ lineString (ending ++ [10]) = e :: rest := by
    rcases hending with rfl | rfl
    · exact ⟨10, [], by decide, by decide⟩
    · exact ⟨13, [10], by decide, by decide⟩
  have hline : lineString (hostLine host port ending ++ [10]) =
      bytes "Host:" ++ 32 :: (authority host port ++ e :: rest) := by
    rw [hostLine, List.append_assoc, List.append_assoc, lineString_append (by decide),
      lineString_append fun c hc ↦ (hword.2 c hc).1, hstring]
    rfl
  have hdrop : (32 :: (authority host port ++ e :: rest)).dropWhile (fun c : UInt8 ↦ c = ' '.toUInt8) =
      authority host port ++ e :: rest := by
    rw [List.dropWhile_cons_of_pos (by decide)]
    obtain ⟨a, v, hv⟩ := List.exists_cons_of_ne_nil hword.1
    have ha : IsVisible a := hword.2 a (hv ▸ List.mem_cons_self)
    rw [hv, List.cons_append, List.dropWhile_cons_of_neg]
    intro heq
    obtain rfl := of_decide_eq_true heq
    exact absurd ha (by decide)
  have htrue : isHostHeader (bytes "Host:" ++ 32 :: (authority host port ++ e :: rest)) = true := rfl
  have hvalue : (bytes "Host:" ++ 32 :: (authority host port ++ e :: rest)).drop 5 =
      32 :: (authority host port ++ e :: rest) := rfl
  rw [hline, parseHeader, if_pos (by simp [ht, htrue]), hvalue, hdrop]
  dsimp only
  rw [scanWord_word hword hspace]
  dsimp only [Bind.bind, Option.bind]
  rw [splitAuthority_eq h]
  rfl

/-! ### The two forms -/

/-- The client sends a request line and header lines, short enough to be read at once, and an empty line. -/
structure Sends (socket : Socket) (first : List UInt8) (headers : List (List UInt8)) : Prop where
  short : Short first
  readable : ∀ w ∈ headers, Short w ∧ w ≠ [] ∧ w ≠ [13]
  stream : ∃ blank rest, (blank = [] ∨ blank = [13]) ∧ socket.reads.flatten = Sent first headers blank rest

/-- `method uri version` -/
def requestLine (method uri version : List UInt8) : List UInt8 := method ++ 32 :: (uri ++ 32 :: version)

/-- `http://host[:port]path` -/
def absoluteUri (host : List UInt8) (port : Option (List UInt8)) (path : List UInt8) : List UInt8 :=
  bytes "http://" ++ (authority host port ++ path)

/-- The lines are no `Host` headers. -/
def NoHost (headers : List (List UInt8)) : Prop :=
  ∀ w ∈ headers, isHostHeader (lineString (w ++ [10])) = false

theorem Sends.returns {uri : List UInt8} (h : Sends socket (requestLine method uri version) headers)
    (hmethod : Word method) (huri : Word uri)
    (hparse : parseHeaders (parseUri uri) (headers.map (· ++ [10])) = some t) (stack : ℕ → UInt8) :
    Returns (fun fuel ↦ parseRequest fuel socket stack) (method, t) := by
  obtain ⟨blank, rest, hblank, hsent⟩ := h.stream
  refine parseRequest_returns h.short hblank h.readable hsent ?_ hparse stack
  rw [requestLine, List.append_assoc, List.cons_append, List.append_assoc, List.cons_append]
  exact parseRequestLine_eq hmethod huri

theorem Named.uri_word (h : Named host port) (hpath : ∀ c ∈ path, IsVisible c) :
    Word (absoluteUri host port path) := by
  have hscheme : ∀ c ∈ bytes "http://", IsVisible c := by decide
  refine ⟨List.cons_ne_nil _ _, fun c hc ↦ ?_⟩
  rcases List.mem_append.mp hc with hc | hc
  · exact hscheme c hc
  · rcases List.mem_append.mp hc with hc | hc
    · exact h.authority_word.2 c hc
    · exact hpath c hc

/-- A request with an absolute URI. -/
theorem absolute_returns (h : Named host port) (hmethod : Word method)
    (hpath : ∀ c ∈ path, IsVisible c)
    (hsends : Sends socket (requestLine method (absoluteUri host port ('/'.toUInt8 :: path)) version) headers)
    (stack : ℕ → UInt8) : Returns (fun fuel ↦ parseRequest fuel socket stack)
      (method, targetOf host port ('/'.toUInt8 :: path)) := by
  have hword : ∀ c ∈ '/'.toUInt8 :: path, IsVisible c :=
    List.forall_mem_cons.mpr ⟨by decide, hpath⟩
  refine hsends.returns hmethod (h.uri_word hword) ?_ stack
  rw [absoluteUri, parseUri_absolute h]
  exact parseHeaders_host h.word.1 _

/-- A request with an absolute URI that has no path. -/
theorem bare_returns (h : Named host port) (hmethod : Word method)
    (hsends : Sends socket (requestLine method (absoluteUri host port []) version) headers)
    (stack : ℕ → UInt8) : Returns (fun fuel ↦ parseRequest fuel socket stack)
      (method, targetOf host port (bytes "/")) := by
  refine hsends.returns hmethod (h.uri_word fun c hc ↦ absurd hc List.not_mem_nil) ?_ stack
  rw [absoluteUri, List.append_nil, parseUri_bare h]
  exact parseHeaders_host h.word.1 _

/-- A request with a path, of which the first `Host` header names the host. -/
theorem origin_returns (h : Named host port) (hmethod : Word method)
    (hpath : ∀ c ∈ path, IsVisible c) {ending : List UInt8} (hending : ending = [] ∨ ending = [13])
    {others : List (List UInt8)} (hothers : NoHost others)
    (hsends : Sends socket (requestLine method ('/'.toUInt8 :: path) version)
      (others ++ hostLine host port ending :: headers)) (stack : ℕ → UInt8) :
    Returns (fun fuel ↦ parseRequest fuel socket stack)
      (method, targetOf host port ('/'.toUInt8 :: path)) := by
  have hword : Word ('/'.toUInt8 :: path) :=
    ⟨List.cons_ne_nil _ _, List.forall_mem_cons.mpr ⟨by decide, hpath⟩⟩
  refine hsends.returns hmethod hword ?_ stack
  have hlines : ∀ line ∈ others.map (· ++ [10]), isHostHeader (lineString line) = false :=
    List.forall_mem_map.mpr hothers
  have hfront := parseHeaders_other hlines ⟨[], bytes "80", '/'.toUInt8 :: path⟩
  rw [parseUri_origin, List.map_append, List.map_cons, parseHeaders, List.foldlM_append]
  change (parseHeaders _ _).bind _ = _
  rw [hfront, Option.bind_some, List.foldlM_cons, parseHeader_hostLine h hending rfl]
  exact parseHeaders_host (t := targetOf host port ('/'.toUInt8 :: path)) h.word.1 _

/-- A request that names its host in the URI and one that names it in its first `Host` header are parsed to
the host, the port and the path that are given; the port is 80 and the path `/` where none is. -/
theorem forms_agree (h : Named host port) (hmethod : Word method) (hpath : ∀ c ∈ path, IsVisible c) :
    (∀ socket version headers stack,
      Sends socket (requestLine method (absoluteUri host port ('/'.toUInt8 :: path)) version) headers →
      Returns (fun fuel ↦ parseRequest fuel socket stack)
        (method, targetOf host port ('/'.toUInt8 :: path))) ∧
    (∀ socket version others ending headers stack, (ending = [] ∨ ending = [13]) → NoHost others →
      Sends socket (requestLine method ('/'.toUInt8 :: path) version)
        (others ++ hostLine host port ending :: headers) →
      Returns (fun fuel ↦ parseRequest fuel socket stack)
        (method, targetOf host port ('/'.toUInt8 :: path))) ∧
    ∀ socket version headers stack,
      Sends socket (requestLine method (absoluteUri host port []) version) headers →
      Returns (fun fuel ↦ parseRequest fuel socket stack) (method, targetOf host port (bytes "/")) :=
  ⟨fun _ _ _ stack hsends ↦ absolute_returns h hmethod hpath hsends stack,
    fun _ _ _ _ _ stack hending hothers hsends ↦
      origin_returns h hmethod hpath hending hothers hsends stack,
    fun _ _ _ stack hsends ↦ bare_returns h hmethod hsends stack⟩

/-- What a client sends in one piece. -/
def piece (chunk : List UInt8) (h : chunk ≠ [] ∧ chunk.length ≤ rioBufsize) : Socket :=
  ⟨[chunk], fun _ hchunk ↦ List.mem_singleton.mp hchunk ▸ h⟩

theorem piece_flatten (chunk : List UInt8) (h : chunk ≠ [] ∧ chunk.length ≤ rioBufsize) :
    (piece chunk h).reads.flatten = chunk := List.append_nil chunk

theorem named_a : Named (bytes "a") (some (bytes "8")) :=
  ⟨by decide, by decide, by decide, by decide⟩

/-- The path `/x` on port 8 of `a`. -/
theorem forms_agree_x :
    Returns (fun fuel ↦ parseRequest fuel
        (piece (bytes "GET http://a:8/x HTTP/1.0\r\n\r\n") (by decide)) fun _ ↦ 0)
      (bytes "GET", targetOf (bytes "a") (some (bytes "8")) (bytes "/x")) ∧
    Returns (fun fuel ↦ parseRequest fuel
        (piece (bytes "GET /x HTTP/1.0\r\nHost: a:8\r\n\r\n") (by decide)) fun _ ↦ 0)
      (bytes "GET", targetOf (bytes "a") (some (bytes "8")) (bytes "/x")) ∧
    Returns (fun fuel ↦ parseRequest fuel
        (piece (bytes "GET http://a:8 HTTP/1.0\r\n\r\n") (by decide)) fun _ ↦ 0)
      (bytes "GET", targetOf (bytes "a") (some (bytes "8")) (bytes "/")) := by
  obtain ⟨habsolute, horigin, hbare⟩ := forms_agree named_a (show Word (bytes "GET") by decide)
    (show ∀ c ∈ bytes "x", IsVisible c by decide)
  refine ⟨habsolute _ (bytes "HTTP/1.0\r") [] _ ⟨⟨by decide, by decide⟩, by simp, ?_⟩,
    horigin _ (bytes "HTTP/1.0\r") [] [13] [] _ (Or.inr rfl) (by simp [NoHost])
      ⟨⟨by decide, by decide⟩, ?_, ?_⟩,
    hbare _ (bytes "HTTP/1.0\r") [] _ ⟨⟨by decide, by decide⟩, by simp, ?_⟩⟩
  · exact ⟨[13], [], Or.inr rfl, (piece_flatten _ _).trans (by decide)⟩
  · intro w hw
    rw [List.mem_singleton.mp hw]
    exact ⟨⟨by decide, by decide⟩, by decide, by decide⟩
  · exact ⟨[13], [], Or.inr rfl, (piece_flatten _ _).trans (by decide)⟩
  · exact ⟨[13], [], Or.inr rfl, (piece_flatten _ _).trans (by decide)⟩

/-- The path of `/a b` is cut at the blank. -/
theorem not_forms_agree : ¬∀ (host : List UInt8) (port : Option (List UInt8)) (path method : List UInt8)
    (socket : Socket) (version : List UInt8) (headers : List (List UInt8)) (stack : ℕ → UInt8),
    Named host port → Word method →
    Sends socket (requestLine method (absoluteUri host port ('/'.toUInt8 :: path)) version) headers →
    Returns (fun fuel ↦ parseRequest fuel socket stack)
      (method, targetOf host port ('/'.toUInt8 :: path)) := by
  intro hclaim
  have hget : Word (bytes "GET") := by decide
  have hsent := piece_flatten (bytes "GET http://a:8/a b V\r\n\r\n") (by decide)
  have hreturns := hclaim (bytes "a") (some (bytes "8")) (bytes "a b") (bytes "GET") (piece _ _)
    (bytes "V\r") [] (fun _ ↦ 0) named_a hget ⟨⟨by decide, by decide⟩, by simp,
      ⟨[13], [], Or.inr rfl, hsent.trans (by decide)⟩⟩
  have hsends : Sends (piece (bytes "GET http://a:8/a b V\r\n\r\n") (by decide)) (requestLine (bytes "GET")
      (absoluteUri (bytes "a") (some (bytes "8")) ('/'.toUInt8 :: bytes "a")) (bytes "b V\r")) [] :=
    ⟨⟨by decide, by decide⟩, by simp, ⟨[13], [], Or.inr rfl, hsent.trans (by decide)⟩⟩
  have hcut := absolute_returns named_a hget (by decide) hsends fun _ ↦ 0
  exact absurd (hreturns.unique hcut) (by decide)

/-! ### The key -/

/-- The characters of a string. -/
def chars (s : List UInt8) : List Char := s.map Char.ofUInt8

/-- The request of which the cache is asked for the answer. -/
def Target.request (t : Target) (method : List UInt8) : Request :=
  ⟨chars method, chars t.host, chars t.port, chars t.path⟩

/-- The parsing of some request ends with the method and the target. -/
def Accepted (method : List UInt8) (t : Target) : Prop :=
  ∃ socket stack, Returns (fun fuel ↦ parseRequest fuel socket stack) (method, t)

theorem chars_injective : Function.Injective chars := by
  refine List.map_injective_iff.mpr fun a b heq ↦ UInt8.toNat_inj.mp ?_
  have hval : a.toUInt32 = b.toUInt32 := congrArg Char.val heq
  have hnat := congrArg UInt32.toNat hval
  rwa [UInt8.toNat_toUInt32, UInt8.toNat_toUInt32] at hnat

/-- What is cut off at a colon has none. -/
theorem splitAuthority_colon (s port : List UInt8) : ':'.toUInt8 ∉ (splitAuthority s port).1 := by
  have hcut : ∀ c ∈ s.takeWhile (· ≠ ':'.toUInt8), c ≠ ':'.toUInt8 := fun c hc ↦ by
    simpa using List.mem_takeWhile_imp hc
  unfold splitAuthority
  split
  · next hnil =>
    rw [List.dropWhile_eq_nil_iff, ← List.takeWhile_eq_self_iff] at hnil
    rw [hnil] at hcut
    exact fun hmem ↦ hcut _ hmem rfl
  · exact fun hmem ↦ hcut _ hmem rfl

theorem parseUri_colon (uri : List UInt8) : ':'.toUInt8 ∉ (parseUri uri).host := by
  unfold parseUri
  split_ifs
  · exact splitAuthority_colon _ _
  · exact List.not_mem_nil

theorem parseRequestLine_colon (h : parseRequestLine s = some (method, t)) : ':'.toUInt8 ∉ t.host := by
  obtain ⟨⟨_, rest⟩, -, hrest⟩ := Option.bind_eq_some_iff.mp h
  obtain ⟨⟨uri, _⟩, -, heq⟩ := Option.bind_eq_some_iff.mp hrest
  rw [← (Prod.mk.inj (Option.some.inj heq)).2]
  exact parseUri_colon uri

theorem parseHeader_colon (h : ':'.toUInt8 ∉ t.host) (hparse : parseHeader t s = some t') :
    ':'.toUInt8 ∉ t'.host := by
  unfold parseHeader at hparse
  split_ifs at hparse
  · obtain ⟨⟨hostLine, rest⟩, -, heq⟩ := Option.bind_eq_some_iff.mp hparse
    rw [← Option.some.inj heq]
    exact splitAuthority_colon _ _
  · exact Option.some.inj hparse ▸ h

/-- A round of the header loop ends it, or parses the line in the buffer and reads the next one. -/
theorem parseBody_cases {buf : ℕ → UInt8} {rp : Rio} {next : ((ℕ → UInt8) × Rio × Target) ⊕ Target}
    (h : parseBody (buf, rp, t) = some next) :
    next = .inr t ∨ ∃ buf' rp' t', parseHeader t (bufString buf) = some t' ∧ next = .inl (buf', rp', t') := by
  unfold parseBody at h
  dsimp only at h
  split_ifs at h
  · exact Or.inl (Option.some.inj h).symm
  · obtain ⟨t', hparse, h⟩ := Option.bind_eq_some_iff.mp h
    exact Or.inr ⟨_, _, t', hparse, (Option.some.inj h).symm⟩

/-- The host that is parsed has no colon. -/
theorem Accepted.colon (h : Accepted method t) : ':'.toUInt8 ∉ t.host := by
  obtain ⟨socket, stack, bound, hreturns⟩ := h
  have hcall : parseRequest (bound + 1) socket stack = some (method, t) :=
    hreturns (bound + 1) (Nat.lt_succ_self bound)
  unfold parseRequest at hcall
  generalize rioReadlineb (rioReadinitb socket) stack maxLine = read at hcall
  obtain ⟨n, buf, rp⟩ := read
  dsimp only at hcall
  generalize rioReadlineb rp buf maxLine = read at hcall
  obtain ⟨n', buf', rp'⟩ := read
  dsimp only [Bind.bind] at hcall
  obtain ⟨⟨method', t₁⟩, hline, hrest⟩ := Option.bind_eq_some_iff.mp hcall
  obtain ⟨t₂, hloop, heq⟩ := Option.bind_eq_some_iff.mp hrest
  obtain ⟨-, rfl⟩ := Prod.mk.inj (Option.some.inj heq)
  have hfirst := parseRequestLine_colon hline
  have hgo : ∀ s s' : (ℕ → UInt8) × Rio × Target, ':'.toUInt8 ∉ s.2.2.host →
      parseBody s = some (.inl s') → ':'.toUInt8 ∉ s'.2.2.host := by
    rintro ⟨buf, rp, t⟩ s' hinv hbody
    rcases parseBody_cases hbody with hleave | ⟨buf', rp', t', hparse, hgo⟩
    · exact absurd hleave (by simp)
    · rw [Sum.inl.inj hgo]
      exact parseHeader_colon hinv hparse
  have hleave : ∀ (s : (ℕ → UInt8) × Rio × Target) (result : Target), ':'.toUInt8 ∉ s.2.2.host →
      parseBody s = some (.inr result) → ':'.toUInt8 ∉ result.host := by
    rintro ⟨buf, rp, t⟩ result hinv hbody
    rcases parseBody_cases hbody with hleave | ⟨buf', rp', t', -, hgo⟩
    · exact Sum.inr.inj hleave ▸ hinv
    · exact absurd hgo (by simp)
  exact whileLoop_invariant hgo hleave hfirst hloop

/-- The key without the bound on its length. -/
theorem fullUrl_request (hfits : t.host.length + t.port.length + t.path.length + 1 < maxLine) :
    fullUrl (t.request method) = chars (t.host ++ ':'.toUInt8 :: (t.port ++ t.path)) := by
  have hcolon : Char.ofUInt8 ':'.toUInt8 = ':' := by decide
  have hkey : chars (t.host ++ ':'.toUInt8 :: (t.port ++ t.path)) =
      (t.request method).host ++ ':' :: ((t.request method).port ++ (t.request method).path) := by
    rw [chars, List.map_append, List.map_cons, List.map_append, hcolon]
    rfl
  rw [fullUrl, ← hkey, List.take_of_length_le]
  simp only [chars, List.length_map, List.length_append, List.length_cons]
  omega

/-- Where a list is cut at the first of certain elements. -/
theorem append_inj_of_not_mem {a b x y : List UInt8} (ha : c ∉ a) (hb : c ∉ b)
    (h : a ++ c :: x = b ++ c :: y) : a = b ∧ x = y := by
  induction a generalizing b with
  | nil =>
    cases b with
    | nil => exact ⟨rfl, (List.cons.inj h).2⟩
    | cons d b => exact absurd (List.cons.inj h).1 fun heq ↦ hb (heq ▸ List.mem_cons_self)
  | cons d a ih =>
    rw [List.mem_cons, not_or] at ha
    cases b with
    | nil => exact absurd (List.cons.inj h).1.symm ha.1
    | cons e b =>
      rw [List.mem_cons, not_or] at hb
      obtain ⟨rfl, hrest⟩ := List.cons.inj h
      obtain ⟨rfl, rfl⟩ := ih ha.2 hb.2 hrest
      exact ⟨rfl, rfl⟩

/-- The port ends where the path starts: the path begins with the first slash. -/
def Target.Plain (t : Target) : Prop := '/'.toUInt8 ∉ t.port ∧ ∃ p, t.path = '/'.toUInt8 :: p

/-- Keys that are not cut off are equal only if the hosts are, and the ports followed by the paths; they
determine the targets where the port ends at the first slash. -/
theorem fullUrl_determines {method' : List UInt8} (h : Accepted method t) (h' : Accepted method' t')
    (hfits : t.host.length + t.port.length + t.path.length + 1 < maxLine)
    (hfits' : t'.host.length + t'.port.length + t'.path.length + 1 < maxLine)
    (hkey : fullUrl (t.request method) = fullUrl (t'.request method')) :
    t.host = t'.host ∧ t.port ++ t.path = t'.port ++ t'.path ∧ (t.Plain → t'.Plain → t = t') := by
  rw [fullUrl_request hfits, fullUrl_request hfits'] at hkey
  obtain ⟨hhost, hrest⟩ := append_inj_of_not_mem h.colon h'.colon (chars_injective hkey)
  refine ⟨hhost, hrest, fun ⟨hport, p, hpath⟩ ⟨hport', p', hpath'⟩ ↦ ?_⟩
  rw [hpath, hpath'] at hrest
  obtain ⟨hport, rfl⟩ := append_inj_of_not_mem hport hport' hrest
  cases t
  cases t'
  subst hhost hport hpath hpath'
  rfl

theorem Sends.accepted {uri : List UInt8} (h : Sends socket (requestLine method uri version) headers)
    (hmethod : Word method) (huri : Word uri)
    (hparse : parseHeaders (parseUri uri) (headers.map (· ++ [10])) = some t) : Accepted method t :=
  ⟨socket, fun _ ↦ 0, h.returns hmethod huri hparse _⟩

/-- `/y/x` on `a`. -/
theorem accepted_absolute : Accepted (bytes "GET") ⟨bytes "a", bytes "80", bytes "/y/x"⟩ := by
  have hsent := piece_flatten (bytes "GET http://a/y/x HTTP/1.0\r\n\r\n") (by decide)
  have hsends : Sends (piece (bytes "GET http://a/y/x HTTP/1.0\r\n\r\n") (by decide))
      (requestLine (bytes "GET") (bytes "http://a/y/x") (bytes "HTTP/1.0\r")) [] :=
    ⟨⟨by decide, by decide⟩, by simp, ⟨[13], [], Or.inr rfl, hsent.trans (by decide)⟩⟩
  exact hsends.accepted (by decide) (by decide) (by decide)

/-- `/x` with a slash in the `Host` header. -/
theorem accepted_origin : Accepted (bytes "GET") ⟨bytes "a", bytes "80/y", bytes "/x"⟩ := by
  have hsent := piece_flatten (bytes "GET /x HTTP/1.0\r\nHost: a:80/y\r\n\r\n") (by decide)
  have hsends : Sends (piece (bytes "GET /x HTTP/1.0\r\nHost: a:80/y\r\n\r\n") (by decide))
      (requestLine (bytes "GET") (bytes "/x") (bytes "HTTP/1.0\r")) [bytes "Host: a:80/y\r"] := by
    refine ⟨⟨by decide, by decide⟩, fun w hw ↦ ?_, ⟨[13], [], Or.inr rfl, hsent.trans (by decide)⟩⟩
    rw [List.mem_singleton.mp hw]
    exact ⟨⟨by decide, by decide⟩, by decide, by decide⟩
  exact hsends.accepted (by decide) (by decide) (by decide)

/-- The key of the two. -/
theorem fullUrl_eq : fullUrl (Target.request ⟨bytes "a", bytes "80", bytes "/y/x"⟩ (bytes "GET")) =
    fullUrl (Target.request ⟨bytes "a", bytes "80/y", bytes "/x"⟩ (bytes "GET")) := by
  rw [fullUrl_request (by decide), fullUrl_request (by decide)]
  rfl

theorem fullUrl_determines_a : bytes "a" = bytes "a" ∧
    bytes "80" ++ bytes "/y/x" = bytes "80/y" ++ bytes "/x" ∧
    (Target.Plain ⟨bytes "a", bytes "80", bytes "/y/x"⟩ → Target.Plain ⟨bytes "a", bytes "80/y", bytes "/x"⟩ →
      Target.mk (bytes "a") (bytes "80") (bytes "/y/x") = ⟨bytes "a", bytes "80/y", bytes "/x"⟩) :=
  fullUrl_determines accepted_absolute accepted_origin (by decide) (by decide) fullUrl_eq

/-- The key does not tell where the port ends. -/
theorem not_fullUrl_injective : ¬∀ (method method' : List UInt8) (t t' : Target), Accepted method t →
    Accepted method' t' → fullUrl (t.request method) = fullUrl (t'.request method') → t = t' := by
  intro hclaim
  have heq := hclaim _ _ _ _ accepted_absolute accepted_origin fullUrl_eq
  exact absurd heq (by decide)

end Jungle.Proxy
