import Jungle.WebServer.Basic

/-!
# Connections that are answered once

A connection is answered by one response at most, closed once, and followed by the next one, exactly if
its first line is one that is served (`connection_answersOnce_iff`). After a line that is refused, the
connection is closed and the next line is taken for a request line again.
-/

set_option autoImplicit false
set_option relaxedAutoImplicit false

namespace Jungle.WebServer

open Jungle.Lib
open Jungle.Proxy (bytes)

/-- A response: a text or a file with its head, or what a CGI program writes. -/
def Event.IsResponse : Event → Bool
  | .send _ | .run _ => true
  | _ => false

/-- At most one response, one `close`, no missing URL, and the next connection is accepted. -/
structure AnswersOnce (result : List Event × Ending) : Prop where
  responses : result.1.countP Event.IsResponse ≤ 1
  closes : result.1.count .close = 1
  url : .nullUrl ∉ result.1
  accepts : result.2 = .accepts

/-- The end of a line. -/
def IsEol (c : UInt8) : Bool := (bytes "\r\n").contains c

/-- The first line that is not empty, or nothing. -/
def firstLine (s : List UInt8) : List UInt8 := (s.dropWhile IsEol).takeWhile (!IsEol ·)

/-- The URL in a line that starts with `GET` and a space. -/
def lineUrl (line : List UInt8) : List UInt8 := (line.drop 4).takeWhile (· ≠ ' '.toUInt8)

/-- A URL that is served: the program can be run, the path has no `..`, or the file is there. -/
def UrlServed (w : World) (url : List UInt8) : Prop :=
  if strstr url (bytes "/cgi-bin/adder") then w.forks 0 = true
  else if strstr url (bytes ".html") then strstr (parsedUri url) (bytes "..") = false
  else if strstr url (bytes "/api/videos/sample.mp4") then True
  else w.opens 0 ≠ .missing

/-- A first line that is served: there is none, or it asks for a URL that is. -/
def Served (w : World) (line : List UInt8) : Prop :=
  line = [] ∨ bytes "GET " <+: line ∧ UrlServed w (lineUrl line)

instance (w : World) (url : List UInt8) : Decidable (UrlServed w url) := by
  unfold UrlServed
  infer_instance

variable {w : World} {s line url : List UInt8} {c : UInt8} {events later : List Event}

/-! ### Lines -/

theorem strsep_cons_mem {delim : List UInt8} (hc : c ∈ delim) (s : List UInt8) :
    strsep delim (some (c :: s)) = (some [], some s) := by
  have hstop : (!delim.contains c) = false := by rw [List.contains_iff_mem.mpr hc]; rfl
  simp only [strsep, List.takeWhile_cons, List.dropWhile_cons, hstop]
  rfl

theorem strsep_cons_not_mem {delim : List UInt8} (hc : c ∉ delim) (s : List UInt8) :
    strsep delim (some (c :: s)) =
      ((strsep delim (some s)).1.map (c :: ·), (strsep delim (some s)).2) := by
  have hgo : (!delim.contains c) = true := by
    rw [Bool.not_eq_true', ← Bool.not_eq_true, List.contains_iff_mem]
    exact hc
  simp only [strsep, List.takeWhile_cons, List.dropWhile_cons, hgo, if_true, Option.map_some]

/-- A token that is followed by a delimiter. -/
theorem strsep_append {delim token : List UInt8} (htoken : ∀ c ∈ token, c ∉ delim) (hc : c ∈ delim)
    (s : List UInt8) : strsep delim (some (token ++ c :: s)) = (some token, some s) := by
  induction token with
  | nil => exact strsep_cons_mem hc s
  | cons a token ih =>
    rw [List.cons_append, strsep_cons_not_mem (htoken a List.mem_cons_self),
      ih fun c hc ↦ htoken c (List.mem_cons_of_mem a hc), Option.map_some]

/-- The number of bytes that `strsep` may still go over. -/
def remaining : Option (List UInt8) → ℕ
  | none => 0
  | some s => s.length + 1

/-- `strsep` returns a token and goes on, or is at the end. -/
theorem strsep_some (delim s : List UInt8) :
    ∃ rest, strsep delim (some s) = (some (s.takeWhile (!delim.contains ·)), rest) ∧
      remaining rest < remaining (some s) := by
  refine ⟨_, rfl, ?_⟩
  have hle := (List.dropWhile_suffix (l := s) (!delim.contains ·)).length_le
  cases hdrop : s.dropWhile (!delim.contains ·) with
  | nil => exact Nat.succ_pos _
  | cons c rest =>
    rw [hdrop, List.length_cons] at hle
    exact Nat.lt_succ_of_le hle

theorem firstLine_nil : firstLine [] = [] := rfl

theorem firstLine_cons_eol (hc : IsEol c = true) (s : List UInt8) :
    firstLine (c :: s) = firstLine s := by
  rw [firstLine, List.dropWhile_cons_of_pos hc, firstLine]

theorem firstLine_cons (hc : IsEol c = false) (s : List UInt8) :
    firstLine (c :: s) = (c :: s).takeWhile (!IsEol ·) := by
  rw [firstLine, List.dropWhile_cons_of_neg (by rw [hc]; exact Bool.false_ne_true)]

/-! ### The loop -/

theorem after_eq_some {call : Option (List Event × Ending)} {ending : Ending}
    (h : call = some (later, ending)) (events : List Event) :
    after events call = some (events ++ later, ending) := by
  rw [h]
  rfl

/-- The loop returns. -/
theorem lineLoop_returns (rounds : ℕ) (w : World) (isFirstLine : Bool) (bufferPtr : Option (List UInt8))
    (hrounds : remaining bufferPtr < rounds) :
    ∃ result, lineLoop rounds w isFirstLine bufferPtr = some result := by
  induction rounds generalizing w isFirstLine bufferPtr with
  | zero => exact absurd hrounds (Nat.not_lt_zero _)
  | succ rounds ih =>
    cases bufferPtr with
    | none => exact ⟨_, rfl⟩
    | some s =>
      obtain ⟨rest, hsep, hless⟩ := strsep_some (bytes "\r\n") s
      have hih := fun w isFirstLine ↦ ih w isFirstLine rest (by omega)
      have hafter : ∀ events w isFirstLine, ∃ result,
          after events (lineLoop rounds w isFirstLine rest) = some result := fun events w isFirstLine ↦ by
        obtain ⟨result, hresult⟩ := hih w isFirstLine
        exact ⟨_, after_eq_some hresult events⟩
      rw [lineLoop, hsep]
      dsimp only
      split_ifs
      · exact hih w isFirstLine
      · obtain ⟨events, exit, w', token⟩ := requestLine w (s.takeWhile (!(bytes "\r\n").contains ·))
        cases exit with
        | falls => exact hafter _ _ _
        | continues => exact hafter _ _ _
        | breaks | returns | exits | faults => exact ⟨_, rfl⟩
      · exact hafter _ _ _

/-- More rounds do not change what the loop does. -/
theorem settles_lineLoop (w : World) (isFirstLine : Bool) (bufferPtr : Option (List UInt8)) :
    Settles fun fuel ↦ lineLoop fuel w isFirstLine bufferPtr := by
  intro fuel fuel' result hle h
  induction fuel generalizing fuel' w isFirstLine bufferPtr result with
  | zero => exact absurd h (Option.some_ne_none result).symm
  | succ fuel ih =>
    obtain ⟨fuel', rfl⟩ : ∃ n, fuel' = n + 1 := ⟨fuel' - 1, by omega⟩
    have hafter : ∀ events w isFirstLine bufferPtr,
        after events (lineLoop fuel w isFirstLine bufferPtr) = some result →
          after events (lineLoop fuel' w isFirstLine bufferPtr) = some result := by
      intro events w isFirstLine bufferPtr hcall
      obtain ⟨result', hresult, rfl⟩ := Option.map_eq_some_iff.mp hcall
      exact after_eq_some (ih w isFirstLine bufferPtr fuel' result' (by omega) hresult) events
    change lineLoop (fuel + 1) w isFirstLine bufferPtr = some result at h
    change lineLoop (fuel' + 1) w isFirstLine bufferPtr = some result
    rw [lineLoop] at h ⊢
    generalize strsep (bytes "\r\n") bufferPtr = sep at h ⊢
    obtain ⟨token, rest⟩ := sep
    cases token with
    | none => exact h
    | some token =>
      dsimp only at h ⊢
      by_cases hempty : token = []
      · rw [if_pos hempty] at h ⊢
        exact ih _ _ _ fuel' _ (by omega) h
      · rw [if_neg hempty] at h ⊢
        cases isFirstLine with
        | false => exact hafter _ _ _ _ h
        | true =>
          rw [if_pos rfl] at h ⊢
          generalize requestLine w token = request at h ⊢
          obtain ⟨events, exit, w', token⟩ := request
          cases exit with
          | falls => exact hafter _ _ _ _ h
          | continues => exact hafter _ _ _ _ h
          | breaks | returns | exits | faults => exact h

/-- The lines after the request line are printed. -/
theorem lineLoop_headers (rounds : ℕ) (w : World) (bufferPtr : Option (List UInt8))
    (hrounds : remaining bufferPtr < rounds) :
    ∃ lines : List (Option (List UInt8)),
      lineLoop rounds w false bufferPtr = some (lines.map .print, .accepts) := by
  induction rounds generalizing bufferPtr with
  | zero => exact absurd hrounds (Nat.not_lt_zero _)
  | succ rounds ih =>
    cases bufferPtr with
    | none => exact ⟨[], rfl⟩
    | some s =>
      obtain ⟨rest, hsep, hless⟩ := strsep_some (bytes "\r\n") s
      obtain ⟨lines, hlines⟩ := ih rest (by omega)
      rw [lineLoop, hsep]
      dsimp only
      split_ifs with hempty hfirst
      · exact ⟨lines, hlines⟩
      · exact hfirst.elim
      · exact ⟨some _ :: lines, after_eq_some hlines _⟩

/-- The loop gets to the first line. -/
theorem lineLoop_firstLine {rounds : ℕ} (hrounds : remaining (some s) < rounds) :
    (firstLine s = [] ∧ lineLoop rounds w true (some s) = some ([], .accepts)) ∨
      firstLine s ≠ [] ∧ ∃ rounds' s' rest,
        lineLoop rounds w true (some s) = lineLoop (rounds' + 1) w true (some s') ∧
        strsep (bytes "\r\n") (some s') = (some (firstLine s), rest) ∧ remaining rest < rounds' := by
  induction s generalizing rounds with
  | nil =>
    obtain ⟨rounds, rfl⟩ : ∃ n, rounds = n + 2 := ⟨rounds - 2, by change 1 < rounds at hrounds; omega⟩
    exact Or.inl ⟨rfl, rfl⟩
  | cons c s ih =>
    obtain ⟨rounds, rfl⟩ : ∃ n, rounds = n + 1 := ⟨rounds - 1, by omega⟩
    cases hc : IsEol c with
    | true =>
      have hskip : lineLoop (rounds + 1) w true (some (c :: s)) = lineLoop rounds w true (some s) := by
        rw [lineLoop, strsep_cons_mem (List.contains_iff_mem.mp hc)]
        rfl
      rw [firstLine_cons_eol hc, hskip]
      refine ih ?_
      change s.length + 1 < rounds
      change s.length + 1 + 1 < rounds + 1 at hrounds
      omega
    | false =>
      refine Or.inr ⟨?_, rounds, c :: s, ?_⟩
      · rw [firstLine_cons hc, List.takeWhile_cons_of_pos (by rw [hc]; rfl)]
        exact List.cons_ne_nil _ _
      · obtain ⟨rest, hsep, hless⟩ := strsep_some (bytes "\r\n") (c :: s)
        exact ⟨rest, rfl, by rw [hsep, firstLine_cons hc]; rfl, by omega⟩

/-! ### Request lines -/

/-- What is done for a line that is served: at most one response. -/
structure Quiet (events : List Event) : Prop where
  responses : events.countP Event.IsResponse ≤ 1
  close : .close ∉ events
  url : .nullUrl ∉ events

/-- A block that is left without an answer to the connection, or with a closed one. -/
def Refuses (events : List Event) (exit : Exit) : Prop :=
  exit = .continues ∧ .close ∈ events ∨ exit = .returns ∨ exit = .exits ∨ exit = .faults

theorem sendOpened_quiet (w : World) (contentType more : String) :
    ∃ events exit w', sendOpened w contentType more = (events, exit, w') ∧
      (exit = .falls ∨ exit = .breaks) ∧ Quiet events := by
  have hnone : Quiet [] := ⟨Nat.zero_le 1, List.not_mem_nil, List.not_mem_nil⟩
  rw [sendOpened]
  cases w.opens 0 with
  | missing | noStat | noMap => exact ⟨[], .breaks, w.opened, rfl, Or.inr rfl, hnone⟩
  | mapped size => exact ⟨_, .falls, w.opened, rfl, Or.inl rfl, ⟨Nat.le_refl 1, by simp, by simp⟩⟩

/-- A URL that is served. -/
theorem serveUrl_served (h : UrlServed w url) :
    ∃ events exit w', serveUrl w url = (events, exit, w') ∧ (exit = .falls ∨ exit = .breaks) ∧
      Quiet events := by
  rw [UrlServed] at h
  rw [serveUrl]
  split_ifs at h ⊢ with hcgi hhtml hvideo
  · rw [serveCgi, if_pos h]
    exact ⟨_, .falls, _, rfl, Or.inl rfl, ⟨Nat.le_refl 1, by simp, by simp⟩⟩
  · rw [serveHtml, h, if_neg Bool.false_ne_true]
    split_ifs
    · exact ⟨_, .breaks, _, rfl, Or.inr rfl, ⟨Nat.le_refl 1, by simp, by simp⟩⟩
    · exact sendOpened_quiet w _ _
  · exact sendOpened_quiet w _ _
  · rw [serveOther, if_neg h]
    exact sendOpened_quiet w _ _

/-- A URL that is not served. -/
theorem serveUrl_refused (h : ¬UrlServed w url) :
    ∃ events exit w', serveUrl w url = (events, exit, w') ∧ Refuses events exit := by
  rw [UrlServed] at h
  rw [serveUrl]
  split_ifs at h ⊢ with hcgi hhtml hvideo
  · rw [serveCgi, if_neg h]
    exact ⟨_, .exits, _, rfl, Or.inr (Or.inr (Or.inl rfl))⟩
  · rw [serveHtml, if_pos (by rwa [Bool.not_eq_false] at h)]
    exact ⟨_, .returns, _, rfl, Or.inr (Or.inl rfl)⟩
  · exact absurd trivial h
  · rw [serveOther, if_pos (not_not.mp h)]
    exact ⟨_, .continues, _, rfl, Or.inl ⟨rfl, by simp⟩⟩

/-- What is left where `strsep` has found a delimiter. -/
theorem eq_of_strsep {delim token rest : List UInt8}
    (h : strsep delim (some s) = (some token, some rest)) : ∃ c ∈ delim, s = token ++ c :: rest := by
  have hsplit := List.takeWhile_append_dropWhile (p := (!delim.contains ·)) (l := s)
  obtain ⟨htoken, hrest⟩ := Prod.mk.inj h
  obtain rfl := Option.some.inj htoken
  cases hdrop : s.dropWhile (!delim.contains ·) with
  | nil =>
    rw [hdrop] at hrest
    exact absurd hrest.symm (Option.some_ne_none rest)
  | cons c later =>
    rw [hdrop] at hrest hsplit
    obtain rfl := Option.some.inj hrest
    have hhead := List.head_dropWhile_not (!delim.contains ·) (l := s)
      (by rw [hdrop]; exact List.cons_ne_nil _ _)
    simp only [hdrop, List.head_cons, Bool.not_eq_false', List.contains_iff_mem] at hhead
    exact ⟨c, hhead, hsplit.symm⟩

/-- The block for a line whose method is `GET`. -/
theorem requestLine_get (w : World) (h : bytes "GET " <+: line) :
    ∃ token, requestLine w line = ((serveUrl w (lineUrl line)).1, (serveUrl w (lineUrl line)).2.1,
      (serveUrl w (lineUrl line)).2.2, token) := by
  obtain ⟨rest, rfl⟩ := h
  have hget : ∀ c ∈ bytes "GET", c ∉ bytes " " := fun c hc ↦ by
    have hall : (bytes "GET").all fun c ↦ !(bytes " ").contains c := rfl
    simpa using List.all_eq_true.mp hall c hc
  have hcut : strsep (bytes " ") (some (bytes "GET" ++ ' '.toUInt8 :: rest)) =
      (some (bytes "GET"), some rest) := strsep_append hget (by decide) rest
  have hmethod : strsep (bytes " ") (some (bytes "GET " ++ rest)) = (some (bytes "GET"), some rest) :=
    hcut
  obtain ⟨token, hurl, -⟩ := strsep_some (bytes " ") rest
  have hspace : ∀ c : UInt8, (!(bytes " ").contains c) = decide (c ≠ ' '.toUInt8) := fun c ↦ by
    rw [show bytes " " = [' '.toUInt8] from rfl, List.contains_cons, List.contains_nil, Bool.or_false,
      decide_not, Bool.beq_eq_decide_eq]
  have hline : lineUrl (bytes "GET " ++ rest) = rest.takeWhile (!(bytes " ").contains ·) := by
    simp only [hspace]
    rfl
  refine ⟨(strsep (bytes " ") token).2, ?_⟩
  rw [requestLine, hmethod, hline]
  dsimp only
  rw [hurl]
  dsimp only
  rw [if_neg (not_not.mpr rfl)]

/-- The block for any other line. -/
theorem requestLine_other (w : World) (h : ¬bytes "GET " <+: line) :
    ∃ events exit w' token, requestLine w line = (events, exit, w', token) ∧ Refuses events exit := by
  obtain ⟨rest, hsep, -⟩ := strsep_some (bytes " ") line
  rw [requestLine, hsep]
  dsimp only
  split_ifs with hmethod
  · exact ⟨_, _, _, _, rfl, Or.inl ⟨rfl, by simp⟩⟩
  · cases rest with
    | none => exact ⟨_, _, _, _, rfl, Or.inr (Or.inr (Or.inr rfl))⟩
    | some rest =>
      rw [not_not.mp hmethod] at hsep
      obtain ⟨c, hc, rfl⟩ := eq_of_strsep hsep
      obtain rfl : c = ' '.toUInt8 := List.mem_singleton.mp hc
      exact absurd (List.prefix_append (bytes "GET ") rest) h

/-! ### Connections -/

/-- The events of a connection that is answered once. -/
theorem Quiet.answersOnce (h : Quiet events) (lines : List (Option (List UInt8))) :
    AnswersOnce (events ++ lines.map .print ++ [.close], .accepts) where
  responses := by
    have hlines : (lines.map Event.print).countP Event.IsResponse = 0 := by
      rw [List.countP_eq_zero, List.forall_mem_map]
      exact fun _ _ ↦ Bool.false_ne_true
    rw [List.countP_append, List.countP_append, hlines]
    exact h.responses
  closes := by
    rw [List.count_append, List.count_append, List.count_eq_zero_of_not_mem h.close,
      List.count_eq_zero_of_not_mem (by simp)]
    rfl
  url := by simp [h.url]
  accepts := rfl

/-- `close` at the end of the loop, if it is reached. -/
def closing : List Event × Ending → List Event × Ending
  | (events, ending) => if ending = .accepts then (events ++ [.close], .accepts) else (events, ending)

/-- A connection that is closed already is not answered once. -/
theorem not_answersOnce_of_close (h : .close ∈ events) (later : List Event) (ending : Ending) :
    ¬AnswersOnce (closing (events ++ later, ending)) := by
  intro honce
  have hpos := List.count_pos_iff.mpr h
  by_cases hending : ending = .accepts
  · have hcloses := honce.closes
    rw [closing, if_pos hending] at hcloses
    rw [List.count_append, List.count_append, List.count_singleton_self] at hcloses
    omega
  · have haccepts := honce.accepts
    rw [closing, if_neg hending] at haccepts
    exact hending haccepts

/-- The loop answers once, up to the last `close`, exactly if the first line is served. -/
theorem lineLoop_answersOnce_iff {rounds : ℕ} (hrounds : remaining (some s) < rounds)
    {result : List Event × Ending} (h : lineLoop rounds w true (some s) = some result) :
    AnswersOnce (closing result) ↔ Served w (firstLine s) := by
  rcases lineLoop_firstLine (w := w) hrounds with ⟨hnone, hloop⟩ |
    ⟨hline, rounds', s', rest, hloop, hsep, hrest⟩
  · obtain rfl := Option.some.inj (h.symm.trans hloop)
    have hquiet : Quiet [] := ⟨Nat.zero_le 1, List.not_mem_nil, List.not_mem_nil⟩
    exact iff_of_true (hquiet.answersOnce []) (Or.inl hnone)
  · rw [hloop, lineLoop, hsep] at h
    dsimp only at h
    rw [if_neg hline, if_pos rfl] at h
    have hrefused : ∀ events exit w' token,
        requestLine w (firstLine s) = (events, exit, w', token) → Refuses events exit →
          ¬AnswersOnce (closing result) := by
      intro events exit w' token hrequest hrefuses
      rw [hrequest] at h
      rcases hrefuses with ⟨rfl, hclose⟩ | rfl | rfl | rfl
      · obtain ⟨⟨later, ending⟩, -, rfl⟩ := Option.map_eq_some_iff.mp h
        exact not_answersOnce_of_close hclose later ending
      all_goals
        obtain rfl := Option.some.inj h
        exact fun honce ↦ Ending.noConfusion honce.accepts
    by_cases hget : bytes "GET " <+: firstLine s
    · obtain ⟨token, hrequest⟩ := requestLine_get w hget
      by_cases hurl : UrlServed w (lineUrl (firstLine s))
      · refine iff_of_true ?_ (Or.inr ⟨hget, hurl⟩)
        obtain ⟨events, exit, w', hserve, hexit, hquiet⟩ := serveUrl_served hurl
        rw [hrequest, hserve] at h
        rcases hexit with rfl | rfl
        · obtain ⟨lines, hlines⟩ := lineLoop_headers rounds' w' rest hrest
          obtain rfl := Option.some.inj (h.symm.trans (after_eq_some hlines _))
          rw [List.append_assoc]
          exact hquiet.answersOnce (token :: lines)
        · obtain rfl := Option.some.inj h
          have honce := hquiet.answersOnce []
          rwa [List.map_nil, List.append_nil] at honce
      · obtain ⟨events, exit, w', hserve, hrefuses⟩ := serveUrl_refused hurl
        rw [hserve] at hrequest
        refine iff_of_false (hrefused _ _ _ _ hrequest hrefuses) ?_
        exact fun hserved ↦ hserved.elim hline fun hserved ↦ hurl hserved.2
    · obtain ⟨events, exit, w', token, hrequest, hrefuses⟩ := requestLine_other w hget
      refine iff_of_false (hrefused _ _ _ _ hrequest hrefuses) ?_
      exact fun hserved ↦ hserved.elim hline fun hserved ↦ hget hserved.1

/-- The string that is received. -/
def receivedString (received : List UInt8) : List UInt8 := received.takeWhile (· ≠ 0)

theorem connection_eq {received : List UInt8} (hreceived : received ≠ [])
    (hlength : received.length < BUFFER_SIZE) (fuel : ℕ) (w : World) :
    connection fuel w received =
      (lineLoop fuel w true (some (receivedString received))).map closing := by
  rw [connection, if_neg hreceived, bufferString, if_pos (Or.inl hlength), Option.bind_eq_bind,
    Option.bind_eq_bind, Option.bind_some, receivedString]
  cases lineLoop fuel w true (some (received.takeWhile (· ≠ 0))) <;> rfl

theorem connection_returns {received : List UInt8} {result : List Event × Ending} {fuel : ℕ}
    (hreceived : received ≠ []) (hlength : received.length < BUFFER_SIZE)
    (hloop : lineLoop fuel w true (some (receivedString received)) = some result) :
    Returns (fun fuel ↦ connection fuel w received) (closing result) := by
  obtain ⟨bound, hbound⟩ := (settles_lineLoop w true _).returns hloop
  refine ⟨bound, fun fuel hfuel ↦ (connection_eq hreceived hlength fuel w).trans ?_⟩
  exact (congrArg _ (hbound fuel hfuel)).trans (Option.map_some ..)

/-- A world where every file has ten bytes and every `fork` succeeds. -/
def tenBytes : World := ⟨fun _ ↦ .mapped 10, fun _ ↦ true⟩

end Jungle.WebServer
