import Mathlib.Data.List.Basic
import Mathlib.Data.List.TakeWhile
import Mathlib.Tactic.SplitIfs

/-!
# Words

The words of a list are its maximal parts that are not empty and have no separator in them. `words`
splits a list at its separators and gives each word with its position; `mem_words` says that these are
the words, and `words_pairwise` that they are in order.
-/

set_option autoImplicit false
set_option relaxedAutoImplicit false

namespace Jungle.Lib

variable {α : Type*}

/-- The parts that are not empty, with their positions; there is one item between two parts. -/
def place (i : ℕ) : List (List α) → List (ℕ × List α)
  | [] => []
  | w :: parts =>
    if w = [] then place (i + 1) parts else (i, w) :: place (i + w.length + 1) parts

/-- The words of a list whose first item has the position `i`. -/
def words (sep : α → Bool) (i : ℕ) (l : List α) : List (ℕ × List α) := place i (l.splitOnP sep)

/-- A maximal part without separators. -/
structure IsWord (sep : α → Bool) (l : List α) (i : ℕ) (w : List α) : Prop where
  nonempty : w ≠ []
  free : ∀ c ∈ w, sep c = false
  split : ∃ front back, l = front ++ (w ++ back) ∧ front.length = i ∧
    (∀ c ∈ front.getLast?, sep c = true) ∧ ∀ c ∈ back.head?, sep c = true

variable {sep : α → Bool} {i k n : ℕ} {l w v back : List α} {c : α} {parts : List (List α)}

/-! ### The words of a list -/

@[simp] theorem words_nil : words sep i [] = [] := rfl

/-- A separator in front. -/
theorem words_cons_sep (hc : sep c = true) : words sep i (c :: l) = words sep (i + 1) l := by
  have hsplit := List.splitOnP_append_cons [] l hc
  rw [List.nil_append, List.splitOnP_nil, List.singleton_append] at hsplit
  rw [words, hsplit, place, if_pos rfl, words]

/-- A word in front of a separator. -/
theorem words_append_cons (hw : w ≠ []) (hfree : ∀ c ∈ w, sep c = false) (hc : sep c = true) :
    words sep i (w ++ c :: l) = (i, w) :: words sep (i + w.length + 1) l := by
  rw [words, List.splitOnP_append_cons_of_forall_mem hfree c hc, place, if_neg hw, words]

/-- A word at the end. -/
theorem words_of_free (hw : w ≠ []) (hfree : ∀ c ∈ w, sep c = false) : words sep i w = [(i, w)] := by
  rw [words, List.splitOnP_eq_singleton hfree, place, if_neg hw, place]

/-- Every list begins with separators, followed by nothing or by a word. -/
theorem exists_seps (sep : α → Bool) (l : List α) : ∃ front rest, l = front ++ rest ∧
    (∀ c ∈ front, sep c = true) ∧ ∀ c ∈ rest.head?, sep c = false := by
  refine ⟨l.takeWhile sep, l.dropWhile sep, List.takeWhile_append_dropWhile.symm, ?_, ?_⟩
  · exact fun c hc ↦ List.mem_takeWhile_imp hc
  · intro c hc
    have hnot := List.head?_dropWhile_not sep l
    rw [Option.mem_def.mp hc] at hnot
    simpa using hnot

theorem words_append_seps (hsep : ∀ c ∈ w, sep c = true) :
    words sep i (w ++ l) = words sep (i + w.length) l := by
  induction w generalizing i with
  | nil => rfl
  | cons c w ih =>
    rw [List.forall_mem_cons] at hsep
    rw [List.cons_append, words_cons_sep hsep.1, ih hsep.2, List.length_cons, Nat.add_assoc,
      Nat.add_comm 1]

/-! ### Positions -/

theorem le_of_mem_place (h : (k, w) ∈ place i parts) : i ≤ k := by
  induction parts generalizing i with
  | nil => exact absurd h List.not_mem_nil
  | cons v parts ih =>
    rw [place] at h
    split_ifs at h
    · exact Nat.le_of_succ_le (ih h)
    · rcases List.mem_cons.mp h with heq | h
      · exact (Prod.mk.inj heq).1.ge
      · exact Nat.le_trans (by omega) (ih h)

theorem place_pairwise (i : ℕ) (parts : List (List α)) :
    (place i parts).Pairwise fun a b ↦ a.1 + a.2.length < b.1 := by
  induction parts generalizing i with
  | nil => exact List.Pairwise.nil
  | cons w parts ih =>
    rw [place]
    split_ifs
    · exact ih (i + 1)
    · exact List.pairwise_cons.mpr ⟨fun b hb ↦ le_of_mem_place hb, ih _⟩

/-- The words stand in their order, and apart. -/
theorem words_pairwise (sep : α → Bool) (i : ℕ) (l : List α) :
    (words sep i l).Pairwise fun a b ↦ a.1 + a.2.length < b.1 :=
  place_pairwise i _

/-! ### Maximal parts -/

theorem not_isWord_nil : ¬IsWord sep ([] : List α) k v := by
  rintro ⟨hne, -, front, back, hl, -⟩
  exact hne (List.append_eq_nil_iff.mp (List.append_eq_nil_iff.mp hl.symm).2).1

/-- The last item of what is in front of a part. -/
theorem getLast?_cons_sep (hc : sep c = true) :
    (∀ x ∈ (c :: l).getLast?, sep x = true) ↔ ∀ x ∈ l.getLast?, sep x = true := by
  cases l with
  | nil => simp [hc]
  | cons a l => rw [List.getLast?_cons_cons]

/-- The words behind a separator. -/
theorem isWord_cons_sep (hc : sep c = true) :
    IsWord sep (c :: l) k v ↔ ∃ n, k = n + 1 ∧ IsWord sep l n v := by
  constructor
  · rintro ⟨hne, hfree, front, back, hl, rfl, hfront, hback⟩
    cases front with
    | nil =>
      obtain ⟨a, v, rfl⟩ := List.exists_cons_of_ne_nil hne
      obtain rfl : c = a := (List.cons.inj hl).1
      exact absurd (hc.symm.trans (hfree c List.mem_cons_self)) (by decide)
    | cons a front =>
      obtain ⟨rfl, hrest⟩ := List.cons.inj hl
      exact ⟨front.length, rfl, hne, hfree, front, back, hrest, rfl,
        (getLast?_cons_sep hc).mp hfront, hback⟩
  · rintro ⟨n, rfl, hne, hfree, front, back, rfl, rfl, hfront, hback⟩
    exact ⟨hne, hfree, c :: front, back, rfl, rfl, (getLast?_cons_sep hc).mpr hfront, hback⟩

/-- Two parts without separators that end at a separator or at the end are one. -/
theorem free_unique {back' : List α} (hl : w ++ back = v ++ back') (hw : ∀ c ∈ w, sep c = false)
    (hv : ∀ c ∈ v, sep c = false) (hback : ∀ c ∈ back.head?, sep c = true)
    (hback' : ∀ c ∈ back'.head?, sep c = true) : w = v := by
  induction w generalizing v with
  | nil =>
    cases v with
    | nil => rfl
    | cons a v =>
      rw [List.nil_append, List.cons_append] at hl
      have ha := hback a (by rw [hl]; rfl)
      exact absurd (ha.symm.trans (hv a List.mem_cons_self)) (by decide)
  | cons c w ih =>
    cases v with
    | nil =>
      rw [List.nil_append, List.cons_append] at hl
      have hc := hback' c (by rw [← hl]; rfl)
      exact absurd (hc.symm.trans (hw c List.mem_cons_self)) (by decide)
    | cons a v =>
      obtain ⟨rfl, hrest⟩ := List.cons.inj hl
      rw [List.forall_mem_cons] at hw hv
      rw [ih hrest hw.2 hv.2]

/-- The words of a list that begins with one. -/
theorem isWord_append (hw : w ≠ []) (hfree : ∀ c ∈ w, sep c = false)
    (hback : ∀ c ∈ back.head?, sep c = true) : IsWord sep (w ++ back) k v ↔
      (k = 0 ∧ v = w) ∨ ∃ n, k = w.length + n ∧ n ≠ 0 ∧ IsWord sep back n v := by
  constructor
  · rintro ⟨hne, hfree', front, back', hl, rfl, hfront, hback'⟩
    cases front with
    | nil =>
      exact Or.inl ⟨rfl, (free_unique (v := v) hl hfree hfree' hback hback').symm⟩
    | cons a front =>
      refine Or.inr ?_
      rcases List.append_eq_append_iff.mp hl with ⟨mid, hmid, hrest⟩ | ⟨mid, hmid, hrest⟩
      · cases mid with
        | nil =>
          rw [List.append_nil] at hmid
          obtain ⟨init, z, hz⟩ := List.eq_nil_or_concat' w |>.resolve_left hw
          have hsepz := hfront z (by rw [hmid, hz]; simp)
          exact absurd (hsepz.symm.trans (hfree z (by rw [hz]; simp))) (by decide)
        | cons d mid =>
          refine ⟨(d :: mid).length, by rw [hmid, List.length_append], by simp, hne, hfree',
            d :: mid, back', hrest, rfl, fun x hx ↦ hfront x ?_, hback'⟩
          rw [hmid]
          exact List.mem_getLast?_append_of_mem_getLast? hx
      · obtain ⟨init, z, hz⟩ := List.eq_nil_or_concat' (a :: front) |>.resolve_left (by simp)
        have hsepz := hfront z (by rw [hz]; simp)
        have hmem : z ∈ w := by
          rw [hmid, hz]
          simp
        exact absurd (hsepz.symm.trans (hfree z hmem)) (by decide)
  · rintro (⟨rfl, rfl⟩ | ⟨n, rfl, hn, hne, hfree', front, back', rfl, rfl, hfront, hback'⟩)
    · exact ⟨hw, hfree, [], back, rfl, rfl, nofun, hback⟩
    · refine ⟨hne, hfree', w ++ front, back', by rw [List.append_assoc], by simp, fun x hx ↦ ?_,
        hback'⟩
      obtain ⟨init, z, hz⟩ := List.eq_nil_or_concat' front |>.resolve_left (by simpa using hn)
      exact hfront x (by simpa [hz] using hx)

/-- A list that begins with no separator begins with a word. -/
theorem exists_word (sep : α → Bool) (hc : sep c = false) (l : List α) : ∃ w back,
    c :: l = w ++ back ∧ w ≠ [] ∧ (∀ c ∈ w, sep c = false) ∧ ∀ c ∈ back.head?, sep c = true := by
  obtain ⟨w, back, hl, hw, hback⟩ := exists_seps (fun c ↦ !sep c) l
  refine ⟨c :: w, back, by rw [hl, List.cons_append], List.cons_ne_nil c w, ?_, fun x hx ↦ ?_⟩
  · exact List.forall_mem_cons.mpr ⟨hc, fun x hx ↦ by simpa using hw x hx⟩
  · simpa using hback x hx

/-- `words` gives the words of a list. -/
theorem mem_words : (k, v) ∈ words sep i l ↔ ∃ n, k = i + n ∧ IsWord sep l n v := by
  induction hn : l.length using Nat.strongRecOn generalizing l i with
  | ind n ih =>
    cases l with
    | nil => exact ⟨nofun, fun ⟨n, _, hword⟩ ↦ absurd hword not_isWord_nil⟩
    | cons c l =>
      cases hc : sep c with
      | true =>
        rw [words_cons_sep hc, ih l.length (by simp [← hn]) rfl]
        simp only [isWord_cons_sep hc]
        constructor
        · rintro ⟨n, rfl, hword⟩
          exact ⟨n + 1, by omega, n, rfl, hword⟩
        · rintro ⟨_, rfl, n, rfl, hword⟩
          exact ⟨n, by omega, hword⟩
      | false =>
        obtain ⟨w, back, hl, hw, hfree, hback⟩ := exists_word sep hc l
        rw [hl]
        simp only [isWord_append hw hfree hback]
        cases back with
        | nil =>
          rw [List.append_nil, words_of_free hw hfree, List.mem_singleton, Prod.mk.injEq]
          constructor
          · rintro ⟨rfl, rfl⟩
            exact ⟨0, rfl, Or.inl ⟨rfl, rfl⟩⟩
          · rintro ⟨_, rfl, ⟨rfl, rfl⟩ | ⟨_, rfl, -, hword⟩⟩
            · exact ⟨rfl, rfl⟩
            · exact absurd hword not_isWord_nil
        | cons d back =>
          have hd := hback d rfl
          have hlength : back.length < n := by
            rw [← hn, hl, List.length_append, List.length_cons]
            omega
          rw [words_append_cons hw hfree hd, List.mem_cons, Prod.mk.injEq, ih _ hlength rfl]
          simp only [isWord_cons_sep hd]
          constructor
          · rintro (⟨rfl, rfl⟩ | ⟨n, rfl, hword⟩)
            · exact ⟨0, rfl, Or.inl ⟨rfl, rfl⟩⟩
            · exact ⟨w.length + (n + 1), by omega, Or.inr ⟨n + 1, rfl, by omega, n, rfl, hword⟩⟩
          · rintro ⟨_, rfl, ⟨rfl, rfl⟩ | ⟨_, rfl, -, n, rfl, hword⟩⟩
            · exact Or.inl ⟨rfl, rfl⟩
            · exact Or.inr ⟨n, by omega, hword⟩

end Jungle.Lib
