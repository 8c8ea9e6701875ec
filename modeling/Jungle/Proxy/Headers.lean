import Jungle.Proxy.Rio

/-!
# The header loop

The reading part of `handle_client` in `webproxy-lab/proxy.c`: the request line and then one line
after the other until the buffer holds an empty one. The parsing of the lines does not touch the buffer
and is left out. At the end of the stream the buffer keeps the last line, so the loop ends if and only
if it finds an empty line there or on its way (`readRequest_returns_iff`).
-/

set_option autoImplicit false
set_option relaxedAutoImplicit false

namespace Jungle.Proxy

open Jungle.Lib

/-- `strcmp(buf, s) == 0`, where `s` is a literal. -/
def strcmpEq (buf : ℕ → UInt8) : List UInt8 → Bool
  | [] => buf 0 = 0
  | c :: s => buf 0 = c && strcmpEq (fun i ↦ buf (i + 1)) s

/-- The condition under which the header loop is left: the buffer holds `"\r\n"` or `"\n"`. -/
def holdsBlank (buf : ℕ → UInt8) : Bool := strcmpEq buf [13, 10] || strcmpEq buf [10]

/-- One round of the header loop. -/
def headerBody : (ℕ → UInt8) × Rio → Option (((ℕ → UInt8) × Rio) ⊕ ((ℕ → UInt8) × Rio))
  | (buf, rp) =>
    if holdsBlank buf then some (.inr (buf, rp))
    else
      let (_, buf, rp) := rioReadlineb rp buf maxLine
      some (.inl (buf, rp))

/-- What `handle_client` reads from the client, where `stack` is what is in `buf` at first. -/
def readRequest (fuel : ℕ) (socket : Socket) (stack : ℕ → UInt8) :
    Option ((ℕ → UInt8) × Rio) :=
  let (_, buf, rp) := rioReadlineb (rioReadinitb socket) stack maxLine
  let (_, buf, rp) := rioReadlineb rp buf maxLine
  whileLoop headerBody fuel (buf, rp)

/-- A line without characters, with either line end. -/
def Blank (line : List UInt8) : Prop := line = [13, 10] ∨ line = [10]

instance (line : List UInt8) : Decidable (Blank line) := inferInstanceAs (Decidable (_ ∨ _))

/-- The client sends an empty line where the header loop looks for one: among the lines after the first
one, or in the first one if there is no other; or nothing at all, if the buffer happens to hold an
empty line. -/
def Terminates (stack : ℕ → UInt8) (stream : List UInt8) : Prop :=
  match lines stream with
  | [] => holdsBlank stack
  | [requestLine] => Blank requestLine
  | _ :: headers => ∃ line ∈ headers, Blank line

variable {rp : Rio} {buf : ℕ → UInt8} {stream : List UInt8}

/-! ### Lines in the buffer -/

theorem holdsBlank_iff : holdsBlank buf = true ↔
    (buf 0 = 13 ∧ buf 1 = 10 ∧ buf 2 = 0) ∨ buf 0 = 10 ∧ buf 1 = 0 := by
  simp only [holdsBlank, strcmpEq, Bool.or_eq_true, Bool.and_eq_true, decide_eq_true_eq]

/-- The buffer with a line in it holds an empty line if and only if the line is one. -/
theorem holdsBlank_memcpy {line : List UInt8} (hnil : line ≠ [])
    (hnewline : ∀ front back, line = front ++ 10 :: back → back = []) :
    holdsBlank (memcpy buf 0 (line ++ [0])) = true ↔ Blank line := by
  have hget : ∀ i, memcpy buf 0 (line ++ [0]) i = (line ++ [0]).getD i (buf i) := fun _ ↦ rfl
  rw [holdsBlank_iff, hget, hget, hget, Blank]
  match line, hnil, hnewline with
  | [a], _, _ => simp
  | [a, b], _, hnewline =>
    have hfirst : a ≠ 10 := by
      rintro rfl
      exact absurd (hnewline [] [b] rfl) (List.cons_ne_nil _ _)
    simp [hfirst]
  | a :: b :: c :: rest, _, hnewline =>
    have hfirst : a ≠ 10 := by
      rintro rfl
      exact absurd (hnewline [] (b :: c :: rest) rfl) (List.cons_ne_nil _ _)
    have hsecond : b ≠ 10 := by
      rintro rfl
      exact absurd (hnewline [a] (c :: rest) rfl) (List.cons_ne_nil _ _)
    simp [hfirst, hsecond]

/-- The next line of the stream, in the buffer. -/
theorem rioReadlineb_line (h : rp.stream = stream) (hstream : stream ≠ []) (buf : ℕ → UInt8) :
    ∃ n buf' rp' line rest, rioReadlineb rp buf maxLine = (n, buf', rp') ∧ rp'.stream = rest ∧
      lines stream = line :: lines rest ∧ rest.length < stream.length ∧
      (holdsBlank buf' = true ↔ Blank line) := by
  obtain ⟨rp', hread, hrest⟩ := rioReadlineb_eq h hstream buf
  have hline : (takeLine (maxLine - 1) stream).1 ≠ [] := takeLine_ne_nil 8190 hstream
  have hlength := congrArg List.length (takeLine_append (maxLine - 1) stream)
  have hpos := List.length_pos_of_ne_nil hline
  rw [List.length_append] at hlength
  exact ⟨_, _, rp', _, _, hread, hrest, lines_of_ne_nil hstream, by omega,
    holdsBlank_memcpy hline fun front back ↦ takeLine_newline (maxLine - 1) stream⟩

/-! ### The loop -/

/-- At the end of the stream, the loop ends at once or never. -/
theorem headerLoop_end (h : rp.stream = []) (hblank : ¬holdsBlank buf) (fuel : ℕ) :
    whileLoop headerBody fuel (buf, rp) = none := by
  induction fuel generalizing rp with
  | zero => rfl
  | succ fuel ih =>
    obtain ⟨rp', hread, hrest⟩ := rioReadlineb_end h buf
    have hround : headerBody (buf, rp) = some (.inl (buf, rp')) := by
      simp only [headerBody, if_neg hblank, hread]
    rw [whileLoop_continue hround]
    exact ih hrest

/-- The loop ends if and only if the buffer holds an empty line or the stream has one. -/
theorem headerLoop_returns_iff (h : rp.stream = stream) (buf : ℕ → UInt8) :
    (∃ result, Returns (fun fuel ↦ whileLoop headerBody fuel (buf, rp)) result) ↔
      holdsBlank buf = true ∨ ∃ line ∈ lines stream, Blank line := by
  induction hn : stream.length using Nat.strongRecOn generalizing stream rp buf with
  | ind n ih =>
    by_cases hblank : holdsBlank buf = true
    · exact ⟨fun _ ↦ Or.inl hblank, fun _ ↦ ⟨(buf, rp), returns_leave (if_pos hblank)⟩⟩
    by_cases hstream : stream = []
    · subst hstream
      refine ⟨?_, fun hlines ↦ ?_⟩
      · rintro ⟨result, bound, hbound⟩
        have hnone := headerLoop_end h hblank (bound + 1)
        exact absurd (hnone.symm.trans (hbound (bound + 1) (Nat.lt_succ_self bound))) (by simp)
      · simp [hblank] at hlines
    · obtain ⟨m, buf', rp', line, rest, hread, hrest, hlines, hshorter, hline⟩ :=
        rioReadlineb_line h hstream buf
      have hround : headerBody (buf, rp) = some (.inl (buf', rp')) := by
        simp only [headerBody, if_neg hblank, hread]
      simp only [returns_continue_iff hround]
      rw [ih rest.length (by omega) hrest buf' rfl, hline, hlines,
        List.exists_mem_cons_iff, or_iff_right hblank]

/-- The header loop ends if and only if the client sends an empty line in time. -/
theorem readRequest_returns_iff (socket : Socket) (stack : ℕ → UInt8) :
    (∃ result, Returns (fun fuel ↦ readRequest fuel socket stack) result) ↔
      Terminates stack socket.reads.flatten := by
  have hinit : (rioReadinitb socket).stream = socket.reads.flatten := rfl
  unfold Terminates readRequest
  by_cases hempty : socket.reads.flatten = []
  · rw [hempty] at hinit ⊢
    obtain ⟨rp₁, hread₁, hrest₁⟩ := rioReadlineb_end hinit stack
    obtain ⟨rp₂, hread₂, hrest₂⟩ := rioReadlineb_end hrest₁ stack
    simp only [hread₁, hread₂, headerLoop_returns_iff hrest₂, lines_nil, List.not_mem_nil,
      false_and, exists_false, or_false]
  · obtain ⟨n₁, buf₁, rp₁, requestLine, rest₁, hread₁, hrest₁, hlines₁, -, hblank₁⟩ :=
      rioReadlineb_line hinit hempty stack
    by_cases hlast : rest₁ = []
    · rw [hlast] at hrest₁ hlines₁
      obtain ⟨rp₂, hread₂, hrest₂⟩ := rioReadlineb_end hrest₁ buf₁
      simp only [hread₁, hread₂, headerLoop_returns_iff hrest₂, hlines₁, lines_nil, hblank₁,
        List.not_mem_nil, false_and, exists_false, or_false]
    · obtain ⟨n₂, buf₂, rp₂, line, rest₂, hread₂, hrest₂, hlines₂, -, hblank₂⟩ :=
        rioReadlineb_line hrest₁ hlast buf₁
      simp only [hread₁, hread₂, headerLoop_returns_iff hrest₂, hlines₁, hlines₂, hblank₂,
        List.exists_mem_cons_iff]

/-- A request of one line, after which the client closes its side, keeps the loop busy for ever. -/
theorem not_readRequest_returns : ¬∀ (socket : Socket) (stack : ℕ → UInt8),
    ∃ result, Returns (fun fuel ↦ readRequest fuel socket stack) result := by
  intro hall
  have hreturns := hall ⟨[[71, 69, 84, 32, 47, 32, 72, 13, 10]], by decide⟩ fun _ ↦ 0
  have hinit : (rioReadinitb ⟨[[71, 69, 84, 32, 47, 32, 72, 13, 10]], by decide⟩).stream =
      [71, 69, 84, 32, 47, 32, 72, 13, 10] := rfl
  obtain ⟨rp₁, hread₁, hrest₁⟩ := rioReadlineb_eq hinit (List.cons_ne_nil _ _) fun _ ↦ 0
  obtain ⟨rp₂, hread₂, hrest₂⟩ := rioReadlineb_end hrest₁ (memcpy (fun _ ↦ 0) 0
    [71, 69, 84, 32, 47, 32, 72, 13, 10, 0])
  have hline : (takeLine (maxLine - 1) [71, 69, 84, 32, 47, 32, 72, 13, 10]).1 ++ [0] =
      [71, 69, 84, 32, 47, 32, 72, 13, 10, 0] := rfl
  rw [hline] at hread₁
  simp only [readRequest, hread₁, hread₂, headerLoop_returns_iff hrest₂, lines_nil,
    List.not_mem_nil, false_and, exists_false, or_false] at hreturns
  exact absurd hreturns (by decide)

end Jungle.Proxy
