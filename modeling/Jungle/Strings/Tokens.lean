import Jungle.Lib.Loop
import Jungle.Lib.Run
import Jungle.Lib.Store
import Jungle.Lib.Words

/-!
# `strtok_r`

`strchr` and `strtok_r` of `pintos/lib/string.c`. The store holds the bytes that may be read and written,
so that a call faults, with `none`, where it follows a pointer to another one. The pointers that must not be
`NULL` are addresses; where `s` may be `NULL` it is `none`. `fuel` bounds the rounds of the loops.
-/

set_option autoImplicit false
set_option relaxedAutoImplicit false

namespace Jungle.Strings

open Jungle.Lib

/-! ### The functions -/

/-- The bytes. -/
abbrev Chars := Store UInt8

/-- A round of the loop of `strchr`. -/
def strchrBody (m : Chars) (c : UInt8) (string : ℕ) : Option (ℕ ⊕ Option ℕ) := do
  let char ← m string
  if char = c then return .inr (some string)
  else if char = 0 then return .inr none
  else return .inl (string + 1)

/-- `strchr (string, c)` -/
def strchr (fuel : ℕ) (m : Chars) (string : ℕ) (c : UInt8) : Option (Option ℕ) :=
  whileLoop (strchrBody m c) fuel string

/-- A round of the first loop of `strtok_r`: it ends at the end of the string, with `true`, or at another
byte that is no delimiter. -/
def skipBody (m : Chars) (delimiters fuel s : ℕ) : Option (ℕ ⊕ (ℕ × Bool)) := do
  let char ← m s
  if (← strchr fuel m delimiters char) ≠ none then
    if char = 0 then return .inr (s, true) else return .inl (s + 1)
  else return .inr (s, false)

/-- A round of the second loop of `strtok_r`. -/
def tokenBody (m : Chars) (delimiters fuel s : ℕ) : Option (ℕ ⊕ ℕ) := do
  if (← strchr fuel m delimiters (← m s)) = none then return .inl (s + 1) else return .inr s

/-- `strtok_r (s, delimiters, save_ptr)`, where `saved` is `*save_ptr`: what it returns, the bytes and
`*save_ptr`. -/
def strtokR (fuel : ℕ) (m : Chars) (s : Option ℕ) (delimiters : ℕ) (saved : Option ℕ) :
    Option (Option ℕ × Chars × ℕ) := do
  let s ← s.or saved
  let (s, atEnd) ← whileLoop (skipBody m delimiters fuel) fuel s
  if atEnd then return (none, m, s)
  else
    let token := s
    let s ← whileLoop (tokenBody m delimiters fuel) fuel s
    if (← m s) ≠ 0 then return (some token, m.put s 0, s + 1)
    else return (some token, m, s)

/-! ### Strings -/

/-- The bytes of a string, followed by the null byte. -/
def IsString (m : Chars) : ℕ → List UInt8 → Prop
  | a, [] => m a = some 0
  | a, c :: s => m a = some c ∧ c ≠ 0 ∧ IsString m (a + 1) s

variable {m m' : Chars} {a b d p : ℕ} {s w back delims : List UInt8} {c : UInt8}

/-- The rest of a string. -/
theorem IsString.drop (h : IsString m a (w ++ back)) : IsString m (a + w.length) back := by
  induction w generalizing a with
  | nil => exact h
  | cons c w ih =>
    have hrest := ih h.2.2
    rwa [Nat.add_assoc, Nat.add_comm 1] at hrest

/-- The bytes of a string depend on its cells. -/
theorem IsString.frame (h : IsString m a s)
    (hsame : ∀ x, a ≤ x → x ≤ a + s.length → m' x = m x) : IsString m' a s := by
  induction s generalizing a with
  | nil => exact (hsame a (Nat.le_refl a) (Nat.le_refl a)).trans h
  | cons c s ih =>
    refine ⟨(hsame a (Nat.le_refl a) (by omega)).trans h.1, h.2.1, ih h.2.2 fun x hle hlt ↦ ?_⟩
    exact hsame x (by omega) (by rw [List.length_cons]; omega)

/-- A part of a string becomes a string where a null byte is put behind it. -/
theorem IsString.cut (h : IsString m a (w ++ c :: back)) :
    IsString (m.put (a + w.length) 0) a w := by
  induction w generalizing a with
  | nil => exact Store.put_self ..
  | cons e w ih =>
    have hrest := ih h.2.2
    rw [Nat.add_assoc, Nat.add_comm 1] at hrest
    refine ⟨?_, h.2.1, hrest⟩
    rw [Store.put_of_ne _ (by rw [List.length_cons]; omega)]
    exact h.1

/-! ### One call -/

/-- The bytes at which both loops of `strtok_r` stop. -/
def isDelim (delims : List UInt8) (c : UInt8) : Bool := decide (c ∈ delims)

/-- `strchr` finds the bytes of a string and the null byte behind it. -/
theorem strchr_returns (h : IsString m d delims) (c : UInt8) : ∃ r,
    Returns (fun fuel ↦ strchr fuel m d c) r ∧ (r ≠ none ↔ c = 0 ∨ c ∈ delims) := by
  induction delims generalizing d with
  | nil =>
    have hd : m d = some 0 := h
    by_cases hc : c = 0
    · refine ⟨some d, returns_leave ?_, by simp [hc]⟩
      simp [strchrBody, hd, hc]
    · refine ⟨none, returns_leave ?_, by simp [hc]⟩
      simp [strchrBody, hd, Ne.symm hc]
  | cons e delims ih =>
    obtain ⟨hd, he, hrest⟩ := h
    by_cases hec : e = c
    · refine ⟨some d, returns_leave ?_, by simp [hec]⟩
      simp [strchrBody, hd, hec]
    · obtain ⟨r, hreturns, hr⟩ := ih hrest
      refine ⟨r, returns_continue ?_ hreturns, ?_⟩
      · simp [strchrBody, hd, hec, he]
      · rw [hr, List.mem_cons, or_left_comm, or_iff_right (Ne.symm hec)]

/-- A round of the first loop at a delimiter. -/
theorem skipBody_delim (h : IsString m d delims) (hp : m p = some c) (hc : c ≠ 0)
    (hdelim : c ∈ delims) : Returns (fun fuel ↦ skipBody m d fuel p) (.inl (p + 1)) := by
  obtain ⟨r, hreturns, hr⟩ := strchr_returns h c
  have hfound : r ≠ none := hr.mpr (Or.inr hdelim)
  simp only [skipBody, hp, Option.bind_eq_bind, Option.bind_some]
  refine hreturns.bind ?_
  simp only [if_pos hfound, if_neg hc]
  exact returns_const rfl

/-- A round of the first loop at the end. -/
theorem skipBody_end (h : IsString m d delims) (hp : m p = some 0) :
    Returns (fun fuel ↦ skipBody m d fuel p) (.inr (p, true)) := by
  obtain ⟨r, hreturns, hr⟩ := strchr_returns h 0
  have hfound : r ≠ none := hr.mpr (Or.inl rfl)
  simp only [skipBody, hp, Option.bind_eq_bind, Option.bind_some]
  refine hreturns.bind ?_
  simp only [if_pos hfound]
  exact returns_const rfl

/-- A round of the first loop at a byte of a token. -/
theorem skipBody_token (h : IsString m d delims) (hp : m p = some c) (hc : c ≠ 0)
    (hdelim : c ∉ delims) : Returns (fun fuel ↦ skipBody m d fuel p) (.inr (p, false)) := by
  obtain ⟨r, hreturns, hr⟩ := strchr_returns h c
  have hfound : ¬r ≠ none := fun hne ↦ (hr.mp hne).elim hc hdelim
  simp only [skipBody, hp, Option.bind_eq_bind, Option.bind_some]
  refine hreturns.bind ?_
  simp only [if_neg hfound]
  exact returns_const rfl

/-- The first loop skips delimiters. -/
theorem skip_loop {w : List UInt8} {result : ℕ × Bool} (h : IsString m d delims)
    (hs : IsString m p (w ++ back)) (hw : ∀ c ∈ w, c ∈ delims)
    (hrest : NestedReturns (skipBody m d) (p + w.length) result) :
    NestedReturns (skipBody m d) p result := by
  induction w generalizing p with
  | nil => exact hrest
  | cons c w ih =>
    rw [List.forall_mem_cons] at hw
    refine nested_continue (skipBody_delim h hs.1 hs.2.1 hw.1) (ih hs.2.2 hw.2 ?_)
    rwa [Nat.add_assoc, Nat.add_comm 1]

/-- The second loop goes to the end of a token. -/
theorem token_loop (h : IsString m d delims) (hs : IsString m p (w ++ back))
    (hw : ∀ c ∈ w, c ∉ delims) (hback : ∀ c ∈ back.head?, c ∈ delims) :
    NestedReturns (tokenBody m d) p (p + w.length) := by
  induction w generalizing p with
  | nil =>
    obtain ⟨c, hp, hc⟩ : ∃ c, m p = some c ∧ (c = 0 ∨ c ∈ delims) := by
      cases back with
      | nil => exact ⟨0, hs, Or.inl rfl⟩
      | cons c back => exact ⟨c, hs.1, Or.inr (hback c rfl)⟩
    obtain ⟨r, hreturns, hr⟩ := strchr_returns h c
    have hfound : ¬r = none := hr.mpr hc
    refine nested_leave ?_
    simp only [tokenBody, hp, Option.bind_eq_bind, Option.bind_some]
    refine hreturns.bind ?_
    simp only [if_neg hfound]
    exact returns_const rfl
  | cons c w ih =>
    rw [List.forall_mem_cons] at hw
    have hrest := ih hs.2.2 hw.2
    rw [Nat.add_assoc, Nat.add_comm 1] at hrest
    obtain ⟨r, hreturns, hr⟩ := strchr_returns h c
    have hfound : r = none := by
      by_contra hne
      exact (hr.mp hne).elim hs.2.1 hw.1
    refine nested_continue ?_ hrest
    simp only [tokenBody, hs.1, Option.bind_eq_bind, Option.bind_some]
    refine hreturns.bind ?_
    simp only [if_pos hfound]
    exact returns_const rfl

section Calls

variable {start saved : Option ℕ} {front : List UInt8}

/-- The call that finds delimiters only. -/
theorem strtokR_none (h : IsString m d delims) (hstart : start.or saved = some p)
    (hs : IsString m p front) (hfront : ∀ c ∈ front, c ∈ delims) :
    Returns (fun fuel ↦ strtokR fuel m start d saved) (none, m, p + front.length) := by
  have hfull : IsString m p (front ++ []) := by rwa [List.append_nil]
  have hloop := skip_loop h hfull hfront (nested_leave (skipBody_end h hfull.drop))
  simp only [strtokR, hstart, Option.bind_eq_bind, Option.bind_some]
  refine hloop.returns.bind ?_
  exact returns_const rfl

/-- The loops of a call that finds a token. -/
theorem strtokR_loops (h : IsString m d delims) (hstart : start.or saved = some p)
    (hs : IsString m p (front ++ (w ++ back))) (hfront : ∀ c ∈ front, c ∈ delims) (hne : w ≠ [])
    (hw : ∀ c ∈ w, c ∉ delims) (hback : ∀ c ∈ back.head?, c ∈ delims)
    {result : Option ℕ × Chars × ℕ}
    (hrest : (do
      if (← m (p + front.length + w.length)) ≠ 0 then
        return (some (p + front.length), m.put (p + front.length + w.length) 0,
          p + front.length + w.length + 1)
      else return (some (p + front.length), m, p + front.length + w.length)) = some result) :
    Returns (fun fuel ↦ strtokR fuel m start d saved) result := by
  have htoken := hs.drop
  obtain ⟨c, v, rfl⟩ := List.exists_cons_of_ne_nil hne
  have hleave := skipBody_token h htoken.1 htoken.2.1 (hw c List.mem_cons_self)
  have hfirst := skip_loop h hs hfront (nested_leave hleave)
  have hsecond := token_loop h htoken hw hback
  simp only [strtokR, hstart, Option.bind_eq_bind, Option.bind_some]
  refine hfirst.returns.bind ?_
  simp only [Bool.false_eq_true, if_false]
  exact hsecond.returns.bind (returns_const hrest)

/-- The call that finds a token at the end. -/
theorem strtokR_last (h : IsString m d delims) (hstart : start.or saved = some p)
    (hs : IsString m p (front ++ w)) (hfront : ∀ c ∈ front, c ∈ delims) (hne : w ≠ [])
    (hw : ∀ c ∈ w, c ∉ delims) : Returns (fun fuel ↦ strtokR fuel m start d saved)
      (some (p + front.length), m, p + front.length + w.length) := by
  have hfull : IsString m p (front ++ (w ++ [])) := by rwa [List.append_nil]
  refine strtokR_loops h hstart hfull hfront hne hw nofun ?_
  have hend : m (p + front.length + w.length) = some 0 := hfull.drop.drop
  simp [hend]

/-- The call that finds a token in front of a delimiter. -/
theorem strtokR_token (h : IsString m d delims) (hstart : start.or saved = some p)
    (hs : IsString m p (front ++ (w ++ c :: back))) (hfront : ∀ c ∈ front, c ∈ delims) (hne : w ≠ [])
    (hw : ∀ c ∈ w, c ∉ delims) (hc : c ∈ delims) :
    Returns (fun fuel ↦ strtokR fuel m start d saved)
      (some (p + front.length), m.put (p + front.length + w.length) 0,
        p + front.length + w.length + 1) := by
  refine strtokR_loops h hstart hs hfront hne hw (fun x hx ↦ Option.some.inj hx ▸ hc) ?_
  have hend := hs.drop.drop
  simp [hend.1, hend.2.1]

end Calls

/-! ### Runs -/

/-- The bytes, the argument `s` of the next call, `*save_ptr`, and what the calls have returned. -/
structure State where
  m : Chars
  s : Option ℕ
  saved : Option ℕ
  results : List (Option ℕ)

/-- A call with the delimiters at some address, after which `s` is `NULL`; between the calls the bytes
that are not those of the string may change in any way. -/
inductive Step (delims : List UInt8) (a length : ℕ) : State → Option (Option ℕ) → State → Prop
  | call {st : State} {d : ℕ} {r : Option ℕ} {m : Chars} {p : ℕ} (hd : IsString st.m d delims)
      (hreturns : Returns (fun fuel ↦ strtokR fuel st.m st.s d st.saved) (r, m, p)) :
      Step delims a length st (some r) ⟨m, none, some p, st.results ++ [r]⟩
  | other {st : State} {m : Chars} (hsame : ∀ x, a ≤ x → x ≤ a + length → m x = st.m x) :
      Step delims a length st none ⟨m, st.s, st.saved, st.results⟩

/-- The tokens of a string, with their positions. -/
def tokens (delims s : List UInt8) : List (ℕ × List UInt8) := words (isDelim delims) 0 s

/-- What the call of the given number returns. -/
def expected (delims s : List UInt8) (a k : ℕ) : Option ℕ :=
  (tokens delims s)[k]?.map fun t ↦ a + t.1

/-- The next call starts inside the string, with the words of the rest still to come. The calls so far
have returned the words before it, and these are strings now. -/
structure Stands (delims s : List UInt8) (a : ℕ) (st : State) (i : ℕ) (rest : List UInt8) : Prop where
  start : st.s.or st.saved = some (a + i)
  length : i + rest.length = s.length
  string : IsString st.m (a + i) rest
  later : words (isDelim delims) i rest = (tokens delims s).drop st.results.length
  results : ∀ k < st.results.length, st.results[k]? = some (expected delims s a k)
  done : ∀ t ∈ (tokens delims s).take st.results.length,
    IsString st.m (a + t.1) t.2 ∧ (t.1 + t.2.length < i ∨ i = s.length)

variable {st : State} {i n : ℕ} {rest : List UInt8}

/-- The next item of a list. -/
theorem of_drop_eq_cons {α : Type*} {l later : List α} {t : α} (h : l.drop n = t :: later) :
    l[n]? = some t ∧ l.drop (n + 1) = later ∧ l.take (n + 1) = l.take n ++ [t] := by
  have hget : l[n]? = some t := by rw [← List.head?_drop, h, List.head?_cons]
  refine ⟨hget, ?_, ?_⟩
  · rw [← List.tail_drop, h, List.tail_cons]
  · rw [List.take_add_one, hget, Option.toList_some]

/-- One more result. -/
theorem results_append {results : List (Option ℕ)}
    (h : ∀ k < results.length, results[k]? = some (expected delims s a k)) :
    ∀ k < (results ++ [expected delims s a results.length]).length,
      (results ++ [expected delims s a results.length])[k]? = some (expected delims s a k) := by
  intro k hk
  rw [List.length_append, List.length_singleton] at hk
  rcases Nat.lt_succ_iff_lt_or_eq.mp hk with hlt | rfl
  · rw [List.getElem?_append_left hlt, h k hlt]
  · rw [List.getElem?_concat_length]

/-- The tokens are in the string. -/
theorem le_length_of_mem_tokens {t : ℕ × List UInt8} (h : t ∈ tokens delims s) :
    t.1 + t.2.length ≤ s.length := by
  obtain ⟨j, w⟩ := t
  obtain ⟨k, rfl, -, -, front, back, rfl, rfl, -⟩ := mem_words.mp h
  simp only [List.length_append]
  omega

namespace Stands

/-- The delimiters in front of a string, and a word behind them. -/
theorem exists_split (delims rest : List UInt8) : ∃ front,
    (∀ c ∈ front, c ∈ delims) ∧ (rest = front ∨ ∃ w back, rest = front ++ (w ++ back) ∧ w ≠ [] ∧
      (∀ c ∈ w, c ∉ delims) ∧ ∀ c ∈ back.head?, c ∈ delims) := by
  obtain ⟨front, tail, rfl, hfront, htail⟩ := exists_seps (isDelim delims) rest
  refine ⟨front, fun c hc ↦ by simpa [isDelim] using hfront c hc, ?_⟩
  cases tail with
  | nil => exact Or.inl (List.append_nil front)
  | cons c tail =>
    obtain ⟨w, back, hw, hne, hfree, hback⟩ := exists_word (isDelim delims) (htail c rfl) tail
    refine Or.inr ⟨w, back, by rw [hw], hne, fun c hc ↦ ?_, fun c hc ↦ ?_⟩
    · simpa [isDelim] using hfree c hc
    · simpa [isDelim] using hback c hc

/-- A call returns the next token, or `NULL` if there is none, and writes inside the string only. -/
theorem call (h : Stands delims s a st i rest) (hd : IsString st.m d delims) : ∃ m' p' i' rest',
    Returns (fun fuel ↦ strtokR fuel st.m st.s d st.saved)
      (expected delims s a st.results.length, m', p') ∧
    (∀ x, ¬(a ≤ x ∧ x < a + s.length) → m' x = st.m x) ∧
    Stands delims s a
      ⟨m', none, some p', st.results ++ [expected delims s a st.results.length]⟩ i' rest' := by
  obtain ⟨front, hfront, hsplit⟩ := exists_split delims rest
  have hseps : ∀ c ∈ front, isDelim delims c = true := fun c hc ↦ by
    simpa [isDelim] using hfront c hc
  have hlength := h.length
  rcases hsplit with rfl | ⟨w, back, rfl, hne, hw, hback⟩
  · have hnil : (tokens delims s).drop st.results.length = [] := by
      rw [← h.later, ← List.append_nil rest, words_append_seps hseps, words_nil]
    have hexpected : expected delims s a st.results.length = none := by
      rw [expected, ← List.head?_drop, hnil]
      rfl
    refine ⟨st.m, a + (i + rest.length), i + rest.length, [], ?_, fun _ _ ↦ rfl, ?_⟩
    · rw [hexpected, ← Nat.add_assoc]
      exact strtokR_none hd h.start h.string hfront
    · have hshort : (tokens delims s).length ≤ st.results.length := List.drop_eq_nil_iff.mp hnil
      refine ⟨rfl, hlength, ?_, ?_, results_append h.results, fun t ht ↦ ?_⟩
      · have hend : IsString st.m (a + i) (rest ++ []) := by
          rw [List.append_nil]
          exact h.string
        rw [← Nat.add_assoc]
        exact hend.drop
      · rw [List.length_append, List.drop_of_length_le (by omega), words_nil]
      · refine ⟨(h.done t ?_).1, Or.inr hlength⟩
        rwa [List.take_of_length_le (by rw [List.length_append]; omega),
          ← List.take_of_length_le hshort] at ht
  · have hfree : ∀ c ∈ w, isDelim delims c = false := fun c hc ↦ by simpa [isDelim] using hw c hc
    cases back with
    | nil =>
      have hwords := h.later
      rw [words_append_seps hseps, List.append_nil, words_of_free hne hfree] at hwords
      obtain ⟨hget, hdrop, htake⟩ := of_drop_eq_cons hwords.symm
      have hexpected : expected delims s a st.results.length = some (a + i + front.length) := by
        rw [expected, hget, Nat.add_assoc]
        rfl
      rw [List.append_nil] at hlength
      rw [List.length_append] at hlength
      have hstring := h.string
      rw [List.append_nil] at hstring
      refine ⟨st.m, a + (i + front.length + w.length), i + front.length + w.length, [], ?_,
        fun _ _ ↦ rfl, rfl, by simpa using by omega, ?_, ?_, results_append h.results, fun t ht ↦ ?_⟩
      · rw [hexpected, ← Nat.add_assoc, ← Nat.add_assoc]
        exact strtokR_last hd h.start hstring hfront hne hw
      · have hend := h.string.drop.drop
        rwa [Nat.add_assoc, Nat.add_assoc, ← Nat.add_assoc i] at hend
      · rw [List.length_append, List.length_singleton, hdrop, words_nil]
      · rw [List.length_append, List.length_singleton, htake, List.mem_append,
          List.mem_singleton] at ht
        refine ⟨?_, Or.inr (by omega)⟩
        rcases ht with ht | rfl
        · exact (h.done t ht).1
        · have hword := hstring.drop
          rwa [Nat.add_assoc] at hword
    | cons c back =>
      have hc : c ∈ delims := hback c rfl
      have hwords := h.later
      rw [words_append_seps hseps, words_append_cons hne hfree (by simpa [isDelim] using hc)] at hwords
      obtain ⟨hget, hdrop, htake⟩ := of_drop_eq_cons hwords.symm
      have hexpected : expected delims s a st.results.length = some (a + i + front.length) := by
        rw [expected, hget, Nat.add_assoc]
        rfl
      simp only [List.length_append, List.length_cons] at hlength
      refine ⟨st.m.put (a + i + front.length + w.length) 0, a + (i + front.length + w.length + 1),
        i + front.length + w.length + 1, back, ?_, fun x hx ↦ ?_, rfl, by omega, ?_, ?_,
        results_append h.results, fun t ht ↦ ?_⟩
      · have hcall := strtokR_token hd h.start h.string hfront hne hw hc
        rw [hexpected]
        rwa [show a + i + front.length + w.length + 1 = a + (i + front.length + w.length + 1) by
          omega] at hcall
      · exact Store.put_of_ne _ (by omega) _
      · have hend := h.string.drop.drop.2.2
        rw [show a + i + front.length + w.length + 1 = a + (i + front.length + w.length + 1) by
          omega] at hend
        exact hend.frame fun x hle _ ↦ Store.put_of_ne _ (by omega) _
      · rw [List.length_append, List.length_singleton, hdrop]
      · rw [List.length_append, List.length_singleton, htake, List.mem_append,
          List.mem_singleton] at ht
        rcases ht with ht | rfl
        · obtain ⟨hstring, hbefore⟩ := h.done t ht
          have hlt : t.1 + t.2.length < i := by omega
          exact ⟨hstring.frame fun x _ hle ↦ Store.put_of_ne _ (by omega) _, Or.inl (by omega)⟩
        · have hword := h.string.drop.cut
          rw [Nat.add_assoc a i front.length] at hword
          refine ⟨?_, Or.inl (by simp only; omega)⟩
          rwa [Nat.add_assoc a i front.length]

/-- A step keeps the position in the string. -/
theorem step {st' : State} {label : Option (Option ℕ)} (h : ∃ i rest, Stands delims s a st i rest)
    (hstep : Step delims a s.length st label st') : ∃ i rest, Stands delims s a st' i rest := by
  obtain ⟨i, rest, h⟩ := h
  cases hstep with
  | call hd hreturns =>
    obtain ⟨m', p', i', rest', hreturns', -, hstands⟩ := h.call hd
    obtain ⟨rfl, rfl, rfl⟩ := Prod.mk.inj (hreturns.unique hreturns') |>.imp id Prod.mk.inj
    exact ⟨i', rest', hstands⟩
  | other hsame =>
    have hlength := h.length
    refine ⟨i, rest, h.start, h.length, h.string.frame fun x hle hle' ↦ hsame x (by omega) (by omega),
      h.later, h.results, fun t ht ↦ ?_⟩
    obtain ⟨hstring, hbefore⟩ := h.done t ht
    have hend := le_length_of_mem_tokens (List.mem_of_mem_take ht)
    exact ⟨hstring.frame fun x _ _ ↦ hsame x (by omega) (by omega), hbefore⟩

end Stands

/-- The tokens of a string are its maximal parts without delimiters, in their order. Whatever happens to
other bytes between the calls, each call returns the next token, and `NULL` after the last one; the tokens
returned are strings then. A call reads the string and the delimiters only, and writes before the null
byte only. -/
theorem strtokR_tokens (hs : IsString m a s) (delims : List UInt8) (saved : Option ℕ) :
    (tokens delims s).Pairwise (fun t t' ↦ t.1 + t.2.length < t'.1) ∧
    (∀ i w, (i, w) ∈ tokens delims s ↔ IsWord (isDelim delims) s i w) ∧
    ∀ (labels : List (Option (Option ℕ))) (st : State),
      Run (Step delims a s.length) ⟨m, some a, saved, []⟩ labels st →
        (∀ k < st.results.length, st.results[k]? = some (expected delims s a k)) ∧
        (∀ t ∈ (tokens delims s).take st.results.length, IsString st.m (a + t.1) t.2) ∧
        ∀ d, IsString st.m d delims → ∃ m' p',
          Returns (fun fuel ↦ strtokR fuel st.m st.s d st.saved)
            (expected delims s a st.results.length, m', p') ∧
          ∀ x, ¬(a ≤ x ∧ x < a + s.length) → m' x = st.m x := by
  refine ⟨words_pairwise .., fun i w ↦ ?_, fun labels st hrun ↦ ?_⟩
  · rw [tokens, mem_words]
    exact ⟨fun ⟨n, hn, h⟩ ↦ by rwa [hn, Nat.zero_add], fun h ↦ ⟨i, (Nat.zero_add i).symm, h⟩⟩
  · have hinit : Stands delims s a ⟨m, some a, saved, []⟩ 0 s :=
      ⟨rfl, Nat.zero_add _, hs, rfl, nofun, nofun⟩
    have hkeep : ∀ st label st', (∃ i rest, Stands delims s a st i rest) →
        Step delims a s.length st label st' → ∃ i rest, Stands delims s a st' i rest :=
      fun _ _ _ ↦ Stands.step
    obtain ⟨i, rest, h⟩ := Run.invariant hkeep hrun ⟨0, s, hinit⟩
    refine ⟨h.results, fun t ht ↦ (h.done t ht).1, fun d hd ↦ ?_⟩
    obtain ⟨m', p', -, -, hreturns, hsame, -⟩ := h.call hd
    exact ⟨m', p', hreturns, hsame⟩

/-- The string `" a"` and the delimiters `" "`. -/
def spaceA : Chars
  | 1 => some 32
  | 2 => some 97
  | 3 => some 0
  | 8 => some 32
  | 9 => some 0
  | _ => none

/-- The first call on `" a"` returns its letter. -/
theorem strtokR_tokens_spaceA : ∃ m' p',
    Returns (fun fuel ↦ strtokR fuel spaceA (some 1) 8 none) (some 2, m', p') := by
  have hs : IsString spaceA 1 [32, 97] := ⟨rfl, by decide, rfl, by decide, rfl⟩
  have hd : IsString spaceA 8 [32] := ⟨rfl, by decide, rfl⟩
  obtain ⟨m', p', hreturns, -⟩ := ((strtokR_tokens hs [32] none).2.2 [] _ (Run.nil _)).2.2 8 hd
  exact ⟨m', p', hreturns⟩

end Jungle.Strings
