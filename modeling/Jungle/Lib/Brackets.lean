import Mathlib.Data.List.Basic
import Mathlib.Data.Nat.Notation

/-!
# Words of brackets

`partner` gives an opening bracket its closing one, and `none` to every other symbol. `Nested` is the
language of the words in which brackets of all kinds are nested. `readWord` reads a word with a stack
of open brackets and stops at a symbol that does not fit. Provided that no closing bracket opens, it
reads exactly the words of the language to the end with an empty stack (`readWord_eq_nil_iff`).
-/

set_option autoImplicit false
set_option relaxedAutoImplicit false

namespace Jungle.Lib

variable {Symbol : Type*}

/-- The words of nested brackets. -/
inductive Nested (partner : Symbol → Option Symbol) : List Symbol → Prop
  | nil : Nested partner []
  | wrap {o c : Symbol} {inner rest : List Symbol} (hpartner : partner o = some c)
      (hinner : Nested partner inner) (hrest : Nested partner rest) :
      Nested partner (o :: inner ++ c :: rest)

variable {partner : Symbol → Option Symbol} {stack word inner rest : List Symbol} {o c s : Symbol}

/-- A word that ends with the stack closed: nested words with the closing brackets of the stack between
them. -/
inductive Closes (partner : Symbol → Option Symbol) : List Symbol → List Symbol → Prop
  | nil {word : List Symbol} (hword : Nested partner word) : Closes partner [] word
  | cons {o c : Symbol} {stack inner rest : List Symbol} (hpartner : partner o = some c)
      (hinner : Nested partner inner) (hrest : Closes partner stack rest) :
      Closes partner (o :: stack) (inner ++ c :: rest)

/-- A bracket that is opened is closed later on. -/
theorem Closes.open (h : Closes partner (o :: stack) word) :
    Closes partner stack (o :: word) := by
  cases h with
  | @cons _ c _ inner rest hpartner hinner hrest =>
    cases hrest with
    | nil hword => exact .nil (.wrap hpartner hinner hword)
    | @cons o' c' stack' inner' rest' hpartner' hinner' hrest' =>
      have hnested : Nested partner (o :: inner ++ c :: inner') := .wrap hpartner hinner hinner'
      have hcloses : Closes partner (o' :: stack') ((o :: inner ++ c :: inner') ++ c' :: rest') :=
        .cons hpartner' hnested hrest'
      rw [List.append_assoc, List.cons_append, List.cons_append] at hcloses
      exact hcloses

variable [DecidableEq Symbol]

/-- Reads a symbol: the stack of the open brackets afterwards, unless the symbol does not fit. -/
def readSymbol (partner : Symbol → Option Symbol) (stack : List Symbol) (s : Symbol) :
    Option (List Symbol) :=
  if (partner s).isSome then some (s :: stack)
  else
    match stack with
    | [] => none
    | o :: stack => if partner o = some s then some stack else none

/-- Reads a word: the stack of the open brackets afterwards, unless a symbol does not fit. -/
def readWord (partner : Symbol → Option Symbol) (stack word : List Symbol) : Option (List Symbol) :=
  word.foldlM (readSymbol partner) stack

@[simp] theorem readWord_nil : readWord partner stack [] = some stack := rfl

theorem readWord_cons : readWord partner stack (s :: word) =
    (readSymbol partner stack s).bind fun stack ↦ readWord partner stack word := rfl

theorem readWord_append : readWord partner stack (word ++ rest) =
    (readWord partner stack word).bind fun stack ↦ readWord partner stack rest :=
  List.foldlM_append

theorem readSymbol_open (h : partner s = some c) : readSymbol partner stack s = some (s :: stack) := by
  unfold readSymbol
  rw [h]
  rfl

theorem readSymbol_close (h : partner o = some c) (hclosing : partner c = none) :
    readSymbol partner (o :: stack) c = some stack := by
  unfold readSymbol
  rw [hclosing]
  exact if_pos h

/-- A symbol opens one bracket at most. -/
theorem length_readSymbol_le {stack' : List Symbol} (h : readSymbol partner stack s = some stack') :
    stack'.length ≤ stack.length + 1 := by
  unfold readSymbol at h
  split_ifs at h
  · obtain rfl := Option.some.inj h
    exact Nat.le_refl _
  · split at h
    · exact absurd h.symm (Option.some_ne_none stack')
    · split_ifs at h
      obtain rfl := Option.some.inj h
      rw [List.length_cons]
      omega

/-- A word of nested brackets leaves the stack as it is. -/
theorem Nested.readWord_eq (hclosing : ∀ o c, partner o = some c → partner c = none)
    (h : Nested partner word) (stack : List Symbol) : readWord partner stack word = some stack := by
  induction h generalizing stack with
  | nil => rfl
  | @wrap o c inner rest hpartner _ _ ihInner ihRest =>
    rw [List.cons_append, readWord_cons, readSymbol_open hpartner, Option.bind_some, readWord_append,
      ihInner, Option.bind_some, readWord_cons, readSymbol_close hpartner (hclosing o c hpartner),
      Option.bind_some, ihRest]

/-- A word after which the stack is empty closes the stack. -/
theorem closes_of_readWord (h : readWord partner stack word = some []) :
    Closes partner stack word := by
  induction word generalizing stack with
  | nil =>
    obtain rfl : stack = [] := Option.some.inj h
    exact .nil .nil
  | cons s word ih =>
    rw [readWord_cons] at h
    obtain ⟨stack', hread, hrest⟩ := Option.bind_eq_some_iff.mp h
    have hcloses := ih hrest
    unfold readSymbol at hread
    split_ifs at hread with hopen
    · obtain rfl := Option.some.inj hread
      exact hcloses.open
    · split at hread
      · exact absurd hread.symm (Option.some_ne_none stack')
      · split_ifs at hread with hpartner
        obtain rfl := Option.some.inj hread
        exact .cons hpartner .nil hcloses

/-- The words after which the stack is empty are those of nested brackets. -/
theorem readWord_eq_nil_iff (hclosing : ∀ o c, partner o = some c → partner c = none) :
    readWord partner [] word = some [] ↔ Nested partner word := by
  constructor
  · intro h
    cases closes_of_readWord h with
    | nil hword => exact hword
  · exact fun h ↦ h.readWord_eq hclosing []

/-- A word that is not read to the end has a first symbol that does not fit. -/
theorem exists_mismatch (h : readWord partner stack word = none) : ∃ front s rest stack',
    word = front ++ s :: rest ∧ readWord partner stack front = some stack' ∧
      readSymbol partner stack' s = none := by
  induction word generalizing stack with
  | nil => exact absurd h (Option.some_ne_none stack)
  | cons s word ih =>
    cases hread : readSymbol partner stack s with
    | none => exact ⟨[], s, word, stack, rfl, rfl, hread⟩
    | some stack₁ =>
      rw [readWord_cons, hread, Option.bind_some] at h
      obtain ⟨front, s', rest, stack', rfl, hfront, hmismatch⟩ := ih h
      refine ⟨s :: front, s', rest, stack', rfl, ?_, hmismatch⟩
      rw [readWord_cons, hread, Option.bind_some, hfront]

/-! ### Words that can be continued -/

/-- Only opening brackets are on the stack. -/
theorem readWord_open (hstack : ∀ o ∈ stack, (partner o).isSome) {stack' : List Symbol}
    (h : readWord partner stack word = some stack') : ∀ o ∈ stack', (partner o).isSome := by
  induction word generalizing stack with
  | nil =>
    obtain rfl := Option.some.inj h
    exact hstack
  | cons s word ih =>
    rw [readWord_cons] at h
    obtain ⟨stack₁, hread, hrest⟩ := Option.bind_eq_some_iff.mp h
    refine ih ?_ hrest
    unfold readSymbol at hread
    split_ifs at hread with hopen
    · obtain rfl := Option.some.inj hread
      exact List.forall_mem_cons.mpr ⟨hopen, hstack⟩
    · split at hread
      · exact absurd hread.symm (Option.some_ne_none stack₁)
      · split_ifs at hread
        obtain rfl := Option.some.inj hread
        exact (List.forall_mem_cons.mp hstack).2

/-- The closing brackets of the stack empty it. -/
theorem exists_closing (hclosing : ∀ o c, partner o = some c → partner c = none)
    (hstack : ∀ o ∈ stack, (partner o).isSome) : ∃ word, readWord partner stack word = some [] := by
  induction stack with
  | nil => exact ⟨[], rfl⟩
  | cons o stack ih =>
    obtain ⟨ho, hstack⟩ := List.forall_mem_cons.mp hstack
    obtain ⟨c, hc⟩ := Option.isSome_iff_exists.mp ho
    obtain ⟨word, hword⟩ := ih hstack
    refine ⟨c :: word, ?_⟩
    rw [readWord_cons, readSymbol_close hc (hclosing o c hc), Option.bind_some, hword]

/-- A word is read to the end if and only if a word of the language begins with it. -/
theorem readWord_isSome_iff (hclosing : ∀ o c, partner o = some c → partner c = none) :
    (readWord partner [] word).isSome ↔ ∃ rest, Nested partner (word ++ rest) := by
  constructor
  · intro h
    obtain ⟨stack, hstack⟩ := Option.isSome_iff_exists.mp h
    have hopen := readWord_open (fun o ho ↦ absurd ho List.not_mem_nil) hstack
    obtain ⟨rest, hrest⟩ := exists_closing hclosing hopen
    refine ⟨rest, (readWord_eq_nil_iff hclosing).mp ?_⟩
    rw [readWord_append, hstack, Option.bind_some, hrest]
  · rintro ⟨rest, hrest⟩
    have hread := hrest.readWord_eq hclosing []
    rw [readWord_append] at hread
    obtain ⟨stack, hstack, -⟩ := Option.bind_eq_some_iff.mp hread
    exact Option.isSome_iff_exists.mpr ⟨stack, hstack⟩

end Jungle.Lib
