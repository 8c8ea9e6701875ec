import Jungle.Lib.Brackets
import Jungle.LinkedLists.Stacks

/-!
# Balanced brackets

`balanced` reads a string with a stack of the brackets that are open. `BracketWord` is the grammar of the
words it is to accept. As long as the index is in the range of an `int`, a round of the loop reads
one character the way `readSymbol` does (`round_reads`); at the character with the index
`INT_MAX` the index wraps and the next read is out of bounds.
-/

set_option autoImplicit false
set_option relaxedAutoImplicit false

namespace Jungle.LinkedLists

open Jungle.Lib

/-- `getClosingBracket(open)` -/
def getClosingBracket : Char → Char
  | '(' => ')'
  | '{' => '}'
  | '[' => ']'
  | _ => '\x00'

/-- `expression[i]`, the string being followed by its terminator. -/
def charAt (expression : List Char) (i : ℤ) : Option Char :=
  if 0 ≤ i then (expression ++ ['\x00'])[i.toNat]? else none

/-- A `char` as an `int` -/
def charToInt (c : Char) : ℤ := c.toNat

/-- An `int` as a `char` -/
def intToChar (x : ℤ) : Char := Char.ofNat x.toNat

/-- The test for an opening bracket. -/
def opens (c : Char) : Bool := c = '(' ∨ c = '{' ∨ c = '['

/-- One round of the loop of `balanced`, which is left with whether it has read the whole string. -/
def balancedBody (malloc : Memory → ℕ) (s : ℕ) (expression : List Char) :
    Memory × ℤ → Option ((Memory × ℤ) ⊕ (Bool × Memory))
  | (m, i) => do
    let c ← charAt expression i
    if c = '\x00' then return .inr (true, m)
    else if opens c then
      let m ← push m s (charToInt c) (malloc m)
      return .inl (m, int32 (i + 1))
    else if ← isEmptyStack m s then return .inr (false, m)
    else if getClosingBracket (intToChar (← peek m s)) = c then
      let (_, m) ← pop m s
      return .inl (m, int32 (i + 1))
    else return .inr (false, m)

/-- The memory with the local stack of `balanced`. -/
def withStack (m : Memory) (s : ℕ) : Memory := { m with lists := m.lists.put s ⟨0, none⟩ }

/-- `balanced(expression)`: the returned number and the memory; `s` is the address of the local
stack. -/
def balanced (malloc : Memory → ℕ) (fuel : ℕ) (m : Memory) (s : ℕ) (expression : List Char) :
    Option (ℤ × Memory) := do
  let (finished, m) ← whileLoop (balancedBody malloc s expression) fuel (withStack m s, 0)
  if finished then
    if ← isEmptyStack m s then return (1, m) else return (0, m)
  else return (0, m)

/-- The grammar `S -> empty | ( S ) S | [ S ] S | { S } S`. -/
inductive BracketWord : List Char → Prop
  | empty : BracketWord []
  | round {inner rest : List Char} (hinner : BracketWord inner) (hrest : BracketWord rest) :
      BracketWord ('(' :: inner ++ ')' :: rest)
  | square {inner rest : List Char} (hinner : BracketWord inner) (hrest : BracketWord rest) :
      BracketWord ('[' :: inner ++ ']' :: rest)
  | curly {inner rest : List Char} (hinner : BracketWord inner) (hrest : BracketWord rest) :
      BracketWord ('{' :: inner ++ '}' :: rest)

/-- The call does not peek at an empty stack and does not pop one: where a round finds the stack not
empty, it has a head. -/
def NeverEmpty (malloc : Memory → ℕ) (m : Memory) (s : ℕ) (expression : List Char) : Prop :=
  ∀ m' i, Rounds (balancedBody malloc s expression) (withStack m s, 0) (m', i) →
    isEmptyStack m' s = some false → ∃ l a, m'.lists s = some l ∧ l.head = some a

/-- The call decides whether a string is a word of the grammar. -/
def Decides (malloc : Memory → ℕ) (m : Memory) (s : ℕ) (expression : List Char) : Prop :=
  (∃ code m', Returns (fun fuel ↦ balanced malloc fuel m s expression) (code, m') ∧
    (code = 0 ∨ code = 1) ∧ (code = 1 ↔ BracketWord expression)) ∧
  NeverEmpty malloc m s expression

/-- The closing bracket of an opening one. -/
def partner (c : Char) : Option Char := if opens c then some (getClosingBracket c) else none

variable {malloc : Memory → ℕ} {m m' : Memory} {s : ℕ} {i : ℤ} {c o : Char}
  {stack stack' expression front word rest : List Char}

/-! ### The grammar -/

theorem opens_iff : opens c = true ↔ c = '(' ∨ c = '{' ∨ c = '[' := by
  simp [opens]

theorem partner_closing (o c : Char) (h : partner o = some c) : partner c = none := by
  unfold partner at h
  split_ifs at h with hopen
  obtain rfl := Option.some.inj h
  rcases opens_iff.mp hopen with rfl | rfl | rfl <;> rfl

/-- The grammar is the language of nested brackets. -/
theorem bracketWord_iff : BracketWord word ↔ Nested partner word := by
  constructor
  · intro h
    induction h with
    | empty => exact .nil
    | round _ _ ihInner ihRest => exact .wrap rfl ihInner ihRest
    | square _ _ ihInner ihRest => exact .wrap rfl ihInner ihRest
    | curly _ _ ihInner ihRest => exact .wrap rfl ihInner ihRest
  · intro h
    induction h with
    | nil => exact .empty
    | wrap hpartner _ _ ihInner ihRest =>
      unfold partner at hpartner
      split_ifs at hpartner with hopen
      obtain rfl := Option.some.inj hpartner
      rcases opens_iff.mp hopen with rfl | rfl | rfl
      · exact .round ihInner ihRest
      · exact .curly ihInner ihRest
      · exact .square ihInner ihRest

/-! ### A round -/

/-- The stack holds the characters, and there is room for more nodes. -/
def HoldsStack (m : Memory) (s : ℕ) (stack : List Char) : Prop :=
  Spacious m ∧ ∃ entries, IsList m s entries ∧ entries.map Prod.snd = stack.map charToInt

theorem charAt_length (front : List Char) (c : Char) (rest : List Char) :
    charAt (front ++ c :: rest) front.length = some c := by
  rw [charAt, if_pos (Int.natCast_nonneg _), Int.toNat_natCast, List.append_assoc, List.cons_append]
  simp

theorem charAt_end (expression : List Char) :
    charAt expression expression.length = some '\x00' := by
  rw [charAt, if_pos (Int.natCast_nonneg _), Int.toNat_natCast]
  simp

theorem charAt_intMin (expression : List Char) : charAt expression intMin = none :=
  if_neg (by decide)

theorem intToChar_charToInt (c : Char) : intToChar (charToInt c) = c := by
  rw [intToChar, charToInt, Int.toNat_natCast, Char.ofNat_toNat]

/-- Only an opening bracket has a closing one. -/
theorem getClosingBracket_of_not_opens (h : opens o = false) : getClosingBracket o = '\x00' := by
  unfold getClosingBracket
  split
  · exact absurd h (by decide)
  · exact absurd h (by decide)
  · exact absurd h (by decide)
  · rfl

theorem getClosingBracket_eq_iff (hc : c ≠ '\x00') :
    getClosingBracket o = c ↔ partner o = some c := by
  unfold partner
  cases hopen : opens o with
  | true => simp
  | false =>
    rw [getClosingBracket_of_not_opens hopen]
    simp [hc.symm]

/-- A round at a character. -/
theorem round_eq (h : HoldsStack m s stack) (hc : charAt expression i = some c) (hne : c ≠ '\x00') :
    balancedBody malloc s expression (m, i) =
      if opens c then
        (push m s (charToInt c) (malloc m)).map fun m' ↦ .inl (m', int32 (i + 1))
      else
        match stack with
        | [] => some (.inr (false, m))
        | o :: _ =>
          if partner o = some c then (pop m s).map fun r ↦ .inl (r.2, int32 (i + 1))
          else some (.inr (false, m)) := by
  obtain ⟨-, entries, hlist, hitems⟩ := h
  simp only [balancedBody, hc, Option.bind_eq_bind, Option.bind_some, if_neg hne,
    isEmptyStack_eq hlist, Option.pure_def]
  split_ifs with hopen hempty
  · cases push m s (charToInt c) (malloc m) <;> rfl
  · cases stack with
    | nil => rfl
    | cons o stack =>
      rw [of_decide_eq_true hempty] at hitems
      exact absurd hitems.symm (List.cons_ne_nil _ _)
  · cases entries with
    | nil => exact absurd rfl hempty
    | cons e entries =>
      cases stack with
      | nil => exact absurd hitems (List.cons_ne_nil _ _)
      | cons o stack =>
        obtain ⟨a, v⟩ := e
        obtain ⟨rfl, -⟩ := List.cons_eq_cons.mp hitems
        rw [peek_eq hlist, Option.bind_some, intToChar_charToInt]
        simp only [getClosingBracket_eq_iff hne]
        split_ifs
        · cases pop m s <;> rfl
        · rfl

theorem isSome_partner (c : Char) : (partner c).isSome = opens c := by
  unfold partner
  cases opens c <;> rfl

theorem HoldsStack.push (hmalloc : Allocates malloc) (h : HoldsStack m s stack)
    (hroom : (stack.length : ℤ) < intMax) (c : Char) :
    ∃ m', push m s (charToInt c) (malloc m) = some m' ∧ HoldsStack m' s (c :: stack) := by
  obtain ⟨hspacious, entries, hlist, hitems⟩ := h
  have hlength := congrArg List.length hitems
  rw [List.length_map, List.length_map] at hlength
  have hnew : m.nodes (malloc m) = none := hmalloc m hspacious.nonempty
  obtain ⟨m', hpush, hlist', htouch⟩ := push_eq hlist (hlength ▸ hroom) (charToInt c) hnew
  refine ⟨m', hpush, (htouch.staysFree_cons hlist).spacious hspacious, _, hlist', ?_⟩
  rw [List.map_cons, List.map_cons, hitems]

theorem HoldsStack.pop (h : HoldsStack m s (o :: stack))
    (hsmall : ((o :: stack).length : ℤ) ≤ intMax) :
    ∃ v m', pop m s = some (v, m') ∧ HoldsStack m' s stack := by
  obtain ⟨hspacious, entries, hlist, hitems⟩ := h
  have hlength := congrArg List.length hitems
  rw [List.length_map, List.length_map] at hlength
  cases entries with
  | nil => exact absurd hitems.symm (List.cons_ne_nil _ _)
  | cons e entries =>
    obtain ⟨a, v⟩ := e
    obtain ⟨m', hpop, hlist', htouch, -⟩ := pop_eq hlist (hlength ▸ hsmall)
    refine ⟨v, m', hpop, (htouch.staysFree hlist).spacious hspacious, entries, hlist', ?_⟩
    exact (List.cons_eq_cons.mp hitems).2

/-- A round reads a character that fits. -/
theorem round_reads (hmalloc : Allocates malloc) (h : HoldsStack m s stack)
    (hroom : (stack.length : ℤ) < intMax) (hc : charAt expression i = some c) (hne : c ≠ '\x00')
    (hread : readSymbol partner stack c = some stack') :
    ∃ m', balancedBody malloc s expression (m, i) = some (.inl (m', int32 (i + 1))) ∧
      HoldsStack m' s stack' := by
  rw [round_eq h hc hne]
  unfold readSymbol at hread
  rw [isSome_partner] at hread
  split_ifs at hread ⊢ with hopen
  · obtain rfl := Option.some.inj hread
    obtain ⟨m', hpush, hholds⟩ := h.push hmalloc hroom c
    exact ⟨m', by rw [hpush, Option.map_some], hholds⟩
  · cases stack with
    | nil => exact absurd hread.symm (Option.some_ne_none stack')
    | cons o stack =>
      dsimp only at hread ⊢
      split_ifs at hread ⊢
      obtain rfl := Option.some.inj hread
      obtain ⟨v, m', hpop, hholds⟩ := h.pop hroom.le
      exact ⟨m', by rw [hpop, Option.map_some], hholds⟩

/-- A character that does not fit ends the loop. -/
theorem round_mismatch (h : HoldsStack m s stack) (hc : charAt expression i = some c)
    (hne : c ≠ '\x00') (hread : readSymbol partner stack c = none) :
    balancedBody malloc s expression (m, i) = some (.inr (false, m)) := by
  rw [round_eq h hc hne]
  unfold readSymbol at hread
  rw [isSome_partner] at hread
  split_ifs at hread ⊢
  cases stack with
  | nil => rfl
  | cons o stack =>
    dsimp only at hread ⊢
    split_ifs at hread ⊢
    rfl

/-- A round at a character that fits does not leave the loop. -/
theorem round_goes_on (h : HoldsStack m s stack) (hc : charAt expression i = some c)
    (hne : c ≠ '\x00') (hread : readSymbol partner stack c = some stack') :
    balancedBody malloc s expression (m, i) = none ∨ ∃ m',
      balancedBody malloc s expression (m, i) = some (.inl (m', int32 (i + 1))) := by
  rw [round_eq h hc hne]
  unfold readSymbol at hread
  rw [isSome_partner] at hread
  split_ifs at hread ⊢ with hopen
  · cases push m s (charToInt c) (malloc m) with
    | none => exact Or.inl rfl
    | some m' => exact Or.inr ⟨m', rfl⟩
  · cases stack with
    | nil => exact absurd hread.symm (Option.some_ne_none stack')
    | cons o stack =>
      dsimp only at hread ⊢
      split_ifs at hread ⊢
      cases pop m s with
      | none => exact Or.inl rfl
      | some r => exact Or.inr ⟨r.2, rfl⟩

/-! ### The loop -/

/-- The loop of `balanced` from a memory and an index. -/
abbrev loopFrom (malloc : Memory → ℕ) (s : ℕ) (expression : List Char) (m : Memory) (i : ℤ) :
    ℕ → Option (Bool × Memory) :=
  fun fuel ↦ whileLoop (balancedBody malloc s expression) fuel (m, i)

/-- The loop reads a part of the string. -/
theorem loop_reads (hmalloc : Allocates malloc) (h : HoldsStack m s stack)
    (hexpression : expression = front ++ word ++ rest) (hnul : '\x00' ∉ word)
    (hstack : stack.length ≤ front.length) (hint : ((front ++ word).length : ℤ) ≤ intMax)
    (hread : readWord partner stack word = some stack') :
    ∃ m', HoldsStack m' s stack' ∧ ∀ r,
      Returns (loopFrom malloc s expression m front.length) r ↔
        Returns (loopFrom malloc s expression m' (front ++ word).length) r := by
  induction word generalizing front m stack with
  | nil =>
    obtain rfl := Option.some.inj hread
    rw [List.append_nil]
    exact ⟨m, h, fun r ↦ Iff.rfl⟩
  | cons c word ih =>
    rw [List.mem_cons, not_or] at hnul
    rw [readWord_cons] at hread
    obtain ⟨stack₁, hsymbol, hword⟩ := Option.bind_eq_some_iff.mp hread
    have hat : charAt expression front.length = some c := by
      rw [hexpression, List.append_assoc]
      exact charAt_length front c (word ++ rest)
    rw [List.append_cons] at hexpression hint ⊢
    simp only [List.length_append, List.length_singleton] at hint
    obtain ⟨m₁, hbody, hholds₁⟩ := round_reads hmalloc h (by omega) hat (Ne.symm hnul.1) hsymbol
    have hindex : int32 ((front.length : ℤ) + 1) = (front ++ [c]).length := by
      rw [List.length_append, List.length_singleton]
      exact int32_of_mem (by unfold intMin; omega) (by omega)
    rw [hindex] at hbody
    have hstack₁ : stack₁.length ≤ (front ++ [c]).length := by
      have hlength := length_readSymbol_le hsymbol
      rw [List.length_append, List.length_singleton]
      omega
    obtain ⟨m', hholds, hreturns⟩ := ih hholds₁ hexpression hnul.2 hstack₁
      (by simp only [List.length_append, List.length_singleton]; omega) hword
    exact ⟨m', hholds, fun r ↦ (returns_continue_iff hbody).trans (hreturns r)⟩

/-- The loop is left at the first character that does not fit. -/
theorem loop_mismatch (hmalloc : Allocates malloc) (h : HoldsStack m s [])
    (hexpression : expression = word ++ rest) (hnul : '\x00' ∉ word)
    (hint : (word.length : ℤ) ≤ intMax + 1) (hread : readWord partner [] word = none) :
    ∃ m', Returns (loopFrom malloc s expression m 0) (false, m') := by
  obtain ⟨front, c, back, stack, rfl, hfront, hc⟩ := exists_mismatch hread
  rw [List.mem_append, List.mem_cons, not_or, not_or] at hnul
  have hsplit : expression = [] ++ front ++ (c :: back ++ rest) := by
    rw [hexpression, List.append_assoc, List.nil_append]
  rw [List.length_append, List.length_cons] at hint
  obtain ⟨m₁, hholds₁, hreturns⟩ := loop_reads hmalloc h hsplit hnul.1 (Nat.zero_le _)
    (by rw [List.nil_append]; omega) hfront
  rw [List.nil_append] at hsplit hreturns
  refine ⟨m₁, (hreturns _).mpr (returns_leave (round_mismatch hholds₁ ?_ (Ne.symm hnul.2.1) hc))⟩
  rw [hsplit]
  exact charAt_length front c (back ++ rest)

/-- The loop reads a string whose length is an `int` to the end. -/
theorem loop_end (hmalloc : Allocates malloc) (h : HoldsStack m s [])
    (hnul : '\x00' ∉ expression) (hint : (expression.length : ℤ) ≤ intMax)
    (hread : readWord partner [] expression = some stack) :
    ∃ m', HoldsStack m' s stack ∧ Returns (loopFrom malloc s expression m 0) (true, m') := by
  have hsplit : expression = [] ++ expression ++ [] := by simp
  obtain ⟨m', hholds, hreturns⟩ := loop_reads hmalloc h hsplit hnul (Nat.zero_le _) hint hread
  refine ⟨m', hholds, (hreturns _).mpr (returns_leave ?_)⟩
  rw [List.nil_append, balancedBody, charAt_end]
  rfl

/-- The loop does not return from a string that is too long and fits as far as the index goes. -/
theorem loop_overflow (hmalloc : Allocates malloc) (h : HoldsStack m s [])
    (hexpression : expression = word ++ c :: rest) (hnul : '\x00' ∉ expression)
    (hint : (word.length : ℤ) = intMax) (hread : (readWord partner [] (word ++ [c])).isSome)
    (r : Bool × Memory) : ¬Returns (loopFrom malloc s expression m 0) r := by
  obtain ⟨stack', hstack'⟩ := Option.isSome_iff_exists.mp hread
  rw [readWord_append] at hstack'
  obtain ⟨stack, hword, hrest⟩ := Option.bind_eq_some_iff.mp hstack'
  obtain ⟨stack₁, hc, -⟩ := Option.bind_eq_some_iff.mp hrest
  have hsplit : expression = [] ++ word ++ c :: rest := hexpression
  have hnul' : '\x00' ∉ word ∧ c ≠ '\x00' := by
    rw [hexpression, List.mem_append, List.mem_cons, not_or, not_or] at hnul
    exact ⟨hnul.1, Ne.symm hnul.2.1⟩
  obtain ⟨m₁, hholds₁, hreturns⟩ := loop_reads hmalloc h hsplit hnul'.1 (Nat.zero_le _)
    (by rw [List.nil_append, hint]) hword
  rw [List.nil_append] at hreturns
  have hat : charAt expression word.length = some c := hexpression ▸ charAt_length word c rest
  intro hloop
  have hloop₁ := (hreturns r).mp hloop
  rcases round_goes_on hholds₁ hat hnul'.2 hc with hfault | ⟨m₂, hbody⟩
  · exact not_returns_of_fault hfault r hloop₁
  · rw [hint, int32_intMax_succ] at hbody
    unfold loopFrom at hloop₁
    rw [hint] at hloop₁
    refine not_returns_of_fault ?_ r ((returns_continue_iff hbody).mp hloop₁)
    rw [balancedBody, charAt_intMin]
    rfl

/-! ### The stack is a list -/

/-- The stack is a list, and there is room for more nodes. -/
def KeepsStack (s : ℕ) (state : Memory × ℤ) : Prop :=
  Spacious state.1 ∧ ∃ entries, IsList state.1 s entries ∧ (entries.length : ℤ) ≤ intMax

/-- `push` keeps a list, which it leaves alone if its counter is full. -/
theorem KeepsStack.push {v : ℤ} (hmalloc : Allocates malloc) (h : KeepsStack s (m, i))
    (hpush : push m s v (malloc m) = some m') : KeepsStack s (m', int32 (i + 1)) := by
  obtain ⟨hspacious, entries, hlist, hsmall⟩ := h
  rcases hsmall.lt_or_eq with hroom | hfull
  · have hnew : m.nodes (malloc m) = none := hmalloc m hspacious.nonempty
    obtain ⟨m₁, hpush₁, hlist₁, htouch⟩ := push_eq hlist hroom v hnew
    obtain rfl := Option.some.inj (hpush₁.symm.trans hpush)
    refine ⟨(htouch.staysFree_cons hlist).spacious hspacious, _, hlist₁, ?_⟩
    rw [List.length_cons]
    omega
  · obtain ⟨l, hl, -, hsize⟩ := id hlist
    have hguard : (0 : ℤ) < 0 ∨ 0 > int32 (l.size + 1) := by
      rw [hsize, hfull, int32_intMax_succ]
      exact Or.inr (by decide)
    rw [LinkedLists.push, insertNode_eq_of_guard hl hguard, Option.map_some] at hpush
    obtain rfl := Option.some.inj hpush
    exact ⟨hspacious, entries, hlist, hsmall⟩

/-- `pop` keeps a list that is not empty. -/
theorem KeepsStack.pop {v : ℤ} (h : KeepsStack s (m, i)) (hempty : isEmptyStack m s ≠ some true)
    (hpop : pop m s = some (v, m')) : KeepsStack s (m', int32 (i + 1)) := by
  obtain ⟨hspacious, entries, hlist, hsmall⟩ := h
  rw [isEmptyStack_eq hlist] at hempty
  cases entries with
  | nil => exact absurd rfl hempty
  | cons e entries =>
    obtain ⟨m₁, hpop₁, hlist₁, htouch, -⟩ := pop_eq hlist hsmall
    obtain rfl := congrArg Prod.snd (Option.some.inj (hpop₁.symm.trans hpop))
    refine ⟨(htouch.staysFree hlist).spacious hspacious, entries, hlist₁, ?_⟩
    rw [List.length_cons] at hsmall
    exact (Int.le_of_lt (Int.lt_succ _)).trans hsmall

/-- A round keeps the list. -/
theorem KeepsStack.balancedBody {state state' : Memory × ℤ} (hmalloc : Allocates malloc)
    (h : KeepsStack s state)
    (hbody : balancedBody malloc s expression state = some (.inl state')) :
    KeepsStack s state' := by
  obtain ⟨m, i⟩ := state
  obtain ⟨c, hc, hbody⟩ := Option.bind_eq_some_iff.mp hbody
  split_ifs at hbody
  · exact absurd (Option.some.inj hbody) Sum.inr_ne_inl
  · obtain ⟨m', hpush, hbody⟩ := Option.bind_eq_some_iff.mp hbody
    obtain rfl := Sum.inl.inj (Option.some.inj hbody)
    exact h.push hmalloc hpush
  · obtain ⟨empty, hempty, hbody⟩ := Option.bind_eq_some_iff.mp hbody
    split_ifs at hbody with hstack
    · exact absurd (Option.some.inj hbody) Sum.inr_ne_inl
    · obtain ⟨top, htop, hbody⟩ := Option.bind_eq_some_iff.mp hbody
      split_ifs at hbody
      · obtain ⟨⟨v, m'⟩, hpop, hbody⟩ := Option.bind_eq_some_iff.mp hbody
        obtain rfl := Sum.inl.inj (Option.some.inj hbody)
        exact h.pop (fun heq ↦ hstack (Option.some.inj (hempty.symm.trans heq))) hpop
      · exact absurd (Option.some.inj hbody) Sum.inr_ne_inl

/-- The local stack is empty at the start. -/
theorem isList_withStack (m : Memory) (s : ℕ) : IsList (withStack m s) s [] :=
  ⟨⟨0, none⟩, Store.put_self .., rfl, rfl⟩

theorem holdsStack_withStack (hfree : Spacious m) (s : ℕ) : HoldsStack (withStack m s) s [] :=
  ⟨hfree, [], isList_withStack m s, rfl⟩

/-- No empty stack is peeked at or popped, whatever the string is. -/
theorem neverEmpty (hmalloc : Allocates malloc) (hfree : Spacious m) (s : ℕ)
    (expression : List Char) : NeverEmpty malloc m s expression := by
  intro m' i hrounds hempty
  have hstart : KeepsStack s (withStack m s, 0) :=
    ⟨hfree, [], isList_withStack m s, by decide⟩
  obtain ⟨-, entries, hlist, -⟩ :=
    hrounds.invariant (fun _ _ hkeeps hbody ↦ hkeeps.balancedBody hmalloc hbody) hstart
  rw [isEmptyStack_eq hlist] at hempty
  obtain ⟨l, hl, hnodes, -⟩ := hlist
  cases entries with
  | nil => exact absurd hempty (by decide)
  | cons e entries => exact ⟨l, e.1, hl, hnodes.1⟩

/-! ### The answer -/

theorem not_bracketWord_of_mismatch (h : readWord partner [] word = none) :
    ¬BracketWord (word ++ rest) := by
  rw [bracketWord_iff, ← readWord_eq_nil_iff partner_closing, readWord_append, h]
  exact fun heq ↦ Option.some_ne_none _ heq.symm

/-- A string whose first `INT_MAX + 1` characters are read to the end is not decided if it is that
long. -/
theorem not_returns_of_long (hmalloc : Allocates malloc) (hfree : Spacious m)
    (hnul : '\x00' ∉ expression) (hlong : intMax < expression.length)
    (hread : (readWord partner [] (expression.take 2147483648)).isSome) (r : ℤ × Memory) :
    ¬Returns (fun fuel ↦ balanced malloc fuel m s expression) r := by
  rintro ⟨bound, hbound⟩
  have hcall : balanced malloc (bound + 1) m s expression = some r := hbound _ (Nat.lt_succ_self _)
  obtain ⟨result, hloop, -⟩ := Option.bind_eq_some_iff.mp hcall
  have hlt : 2147483647 < expression.length := by
    unfold intMax at hlong
    omega
  have hsplit : expression = expression.take 2147483647 ++ expression[2147483647] ::
      expression.drop 2147483648 := by
    rw [← List.drop_eq_getElem_cons hlt, List.take_append_drop]
  have hlength : ((expression.take 2147483647).length : ℤ) = intMax := by
    rw [List.length_take, min_eq_left hlt.le]
    rfl
  rw [List.take_succ_eq_append_getElem hlt] at hread
  exact loop_overflow hmalloc (holdsStack_withStack hfree s) hsplit hnul hlength hread result
    ((settles_whileLoop _).returns hloop)

/-- A mismatch among the characters that are read decides the string. -/
theorem returns_of_mismatch (hmalloc : Allocates malloc) (hfree : Spacious m)
    (hexpression : expression = word ++ rest) (hnul : '\x00' ∉ word)
    (hint : (word.length : ℤ) ≤ intMax + 1) (hread : readWord partner [] word = none) :
    ∃ m', Returns (fun fuel ↦ balanced malloc fuel m s expression) (0, m') := by
  obtain ⟨m', hloop⟩ := loop_mismatch hmalloc (holdsStack_withStack hfree s) hexpression hnul hint
    hread
  exact ⟨m', hloop.bind (returns_const rfl)⟩

/-- A string whose length is an `int` and that is read to the end is decided by the stack. -/
theorem returns_of_read (hmalloc : Allocates malloc) (hfree : Spacious m)
    (hnul : '\x00' ∉ expression) (hint : (expression.length : ℤ) ≤ intMax)
    (hread : readWord partner [] expression = some stack) :
    ∃ m', Returns (fun fuel ↦ balanced malloc fuel m s expression)
      (if stack = [] then 1 else 0, m') := by
  obtain ⟨m', ⟨-, entries, hlist, hitems⟩, hloop⟩ :=
    loop_end hmalloc (holdsStack_withStack hfree s) hnul hint hread
  refine ⟨m', hloop.bind (returns_const ?_)⟩
  have hempty : entries = [] ↔ stack = [] := by
    rw [← List.map_eq_nil_iff (f := Prod.snd), hitems, List.map_eq_nil_iff]
  simp only [if_true, isEmptyStack_eq hlist, Option.bind_eq_bind, Option.bind_some, hempty,
    decide_eq_true_eq, Option.pure_def]
  split_ifs <;> rfl

/-- `balanced` decides the grammar if and only if the length of the string is an `int` or no word of
the grammar begins with its first `INT_MAX + 1` characters. -/
theorem balanced_iff (hmalloc : Allocates malloc) (hfree : Spacious m) (s : ℕ)
    (hnul : '\x00' ∉ expression) : Decides malloc m s expression ↔
      (expression.length : ℤ) ≤ intMax ∨
        ¬∃ rest, BracketWord (expression.take 2147483648 ++ rest) := by
  simp only [bracketWord_iff, ← readWord_isSome_iff partner_closing]
  constructor
  · rintro ⟨⟨code, m', hreturns, -⟩, -⟩
    by_contra hnot
    rw [not_or, not_le, not_not] at hnot
    exact not_returns_of_long hmalloc hfree hnul hnot.1 hnot.2 _ hreturns
  · intro hcases
    refine ⟨?_, neverEmpty hmalloc hfree s expression⟩
    by_cases hint : (expression.length : ℤ) ≤ intMax
    · cases hread : readWord partner [] expression with
      | none =>
        have hsplit : expression = expression ++ [] := (List.append_nil _).symm
        obtain ⟨m', hreturns⟩ := returns_of_mismatch hmalloc hfree hsplit hnul (by omega) hread
        have hnot : ¬BracketWord (expression ++ []) := not_bracketWord_of_mismatch hread
        rw [List.append_nil] at hnot
        exact ⟨0, m', hreturns, Or.inl rfl, iff_of_false zero_ne_one hnot⟩
      | some stack =>
        obtain ⟨m', hreturns⟩ := returns_of_read hmalloc hfree hnul hint hread
        refine ⟨_, m', hreturns, ?_, ?_⟩
        · split_ifs
          · exact Or.inr rfl
          · exact Or.inl rfl
        · rw [bracketWord_iff, ← readWord_eq_nil_iff partner_closing, hread, Option.some.injEq]
          split_ifs with hstack
          · exact iff_of_true rfl hstack
          · exact iff_of_false zero_ne_one hstack
    · have hread := Option.not_isSome_iff_eq_none.mp (hcases.resolve_left hint)
      have hsplit := (List.take_append_drop 2147483648 expression).symm
      have hlength : ((expression.take 2147483648).length : ℤ) ≤ intMax + 1 := by
        rw [List.length_take]
        unfold intMax
        omega
      obtain ⟨m', hreturns⟩ := returns_of_mismatch hmalloc hfree hsplit
        (fun hmem ↦ hnul (List.mem_of_mem_take hmem)) hlength hread
      have hnot : ¬BracketWord expression := by
        rw [hsplit]
        exact not_bracketWord_of_mismatch hread
      exact ⟨0, m', hreturns, Or.inl rfl, iff_of_false zero_ne_one hnot⟩

theorem spacious_emptyMemory : Spacious emptyMemory :=
  Set.infinite_univ.mono fun _ _ ↦ rfl

/-- One pair of parentheses. -/
theorem balanced_iff_round : Decides firstFree emptyMemory 1 ['(', ')'] :=
  (balanced_iff allocates_firstFree spacious_emptyMemory 1 (by decide)).mpr (Or.inl (by decide))

theorem readWord_replicate (n : ℕ) (stack : List Char) :
    (readWord partner stack (List.replicate n '(')).isSome := by
  induction n generalizing stack with
  | zero => rfl
  | succ n ih => exact ih ('(' :: stack)

/-- After `INT_MAX + 1` opening parentheses the next read is out of bounds. -/
theorem not_balanced : ¬∀ (malloc : Memory → ℕ) (m : Memory) (s : ℕ) (expression : List Char),
    Allocates malloc → Spacious m → '\x00' ∉ expression → Decides malloc m s expression := by
  intro hall
  have hnul : '\x00' ∉ List.replicate 2147483648 '(' := fun hmem ↦
    absurd (List.eq_of_mem_replicate hmem) (by decide)
  obtain ⟨⟨code, m', hreturns, -⟩, -⟩ := hall firstFree emptyMemory 1 _ allocates_firstFree
    spacious_emptyMemory hnul
  refine not_returns_of_long allocates_firstFree spacious_emptyMemory hnul ?_ ?_ _ hreturns
  · rw [List.length_replicate]
    decide
  · rw [List.take_replicate, min_self]
    exact readWord_replicate _ []

end Jungle.LinkedLists
