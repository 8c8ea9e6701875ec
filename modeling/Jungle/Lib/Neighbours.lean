import Mathlib.Data.List.SplitBy
import Mathlib.Data.List.Basic

/-!
# Classes of neighbours

For an equivalence, a list splits into maximal runs of neighbours of one class. `firsts` keeps the first
item of each run and `repeats` the others. Dropping the second item of a run changes the first items of
no run, which is the step of a loop that drops repeats one after the other.
-/

set_option autoImplicit false
set_option relaxedAutoImplicit false

namespace Jungle.Lib

variable {α : Type*}

/-- The first item of each run of neighbours. -/
def firsts (same : α → α → Bool) (l : List α) : List α := (l.splitBy same).filterMap List.head?

/-- The items of runs of neighbours that are not the first ones. -/
def repeats (same : α → α → Bool) (l : List α) : List α := (l.splitBy same).flatMap List.tail

variable {same : α → α → Bool} {l : List α} {a b c : α}

/-- The first run of a list. -/
theorem exists_splitBy_cons (same : α → α → Bool) (a : α) (l : List α) :
    ∃ g gs, (a :: l).splitBy same = (a :: g) :: gs := by
  cases hsplit : (a :: l).splitBy same with
  | nil => exact absurd (List.splitBy_eq_nil.mp hsplit) (List.cons_ne_nil a l)
  | cons g gs =>
    obtain ⟨hflat, hnil, -⟩ := List.splitBy_eq_iff.mp hsplit
    cases g with
    | nil => exact absurd List.mem_cons_self hnil
    | cons b g =>
      obtain rfl : a = b := (List.cons.inj hflat).1
      exact ⟨g, gs, rfl⟩

/-! ### Two neighbours in front -/

theorem splitBy_cons_of_ne (hab : same a b = false) :
    (a :: b :: l).splitBy same = [a] :: (b :: l).splitBy same := by
  have happend := List.splitBy_append_cons (l := [a]) (a := b) l fun x hx ↦ by
    obtain rfl := Option.some.inj hx
    exact hab
  exact happend

theorem firsts_cons_of_ne (hab : same a b = false) :
    firsts same (a :: b :: l) = a :: firsts same (b :: l) := by
  rw [firsts, splitBy_cons_of_ne hab]
  rfl

theorem repeats_cons_of_ne (hab : same a b = false) :
    repeats same (a :: b :: l) = repeats same (b :: l) := by
  rw [repeats, splitBy_cons_of_ne hab]
  rfl

section Equivalence

variable (hsymm : ∀ a b, same a b → same b a) (htrans : ∀ a b c, same a b → same b c → same a c)

include hsymm htrans

/-- A repeat of the first item goes into its run. -/
theorem splitBy_cons_of_same (hab : same a b) {g : List α} {gs : List (List α)}
    (hsplit : (a :: l).splitBy same = (a :: g) :: gs) :
    (a :: b :: l).splitBy same = (a :: b :: g) :: gs := by
  obtain ⟨hflat, hnil, hchain, hapart⟩ := List.splitBy_eq_iff.mp hsplit
  rw [List.mem_cons, not_or] at hnil
  rw [List.forall_mem_cons] at hchain
  refine List.splitBy_eq_iff.mpr ⟨?_, ?_, ?_, ?_⟩
  · rw [List.flatten_cons, List.cons_append] at hflat ⊢
    rw [(List.cons.inj hflat).2]
    rfl
  · rw [List.mem_cons, not_or]
    exact ⟨nofun, hnil.2⟩
  · rw [List.forall_mem_cons]
    refine ⟨List.isChain_cons_cons.mpr ⟨hab, ?_⟩, hchain.2⟩
    cases g with
    | nil => exact List.isChain_singleton b
    | cons c g =>
      obtain ⟨hac, hrest⟩ := List.isChain_cons_cons.mp hchain.1
      exact List.isChain_cons_cons.mpr ⟨htrans b a c (hsymm a b hab) hac, hrest⟩
  · cases gs with
    | nil => exact List.isChain_singleton _
    | cons m gs =>
      obtain ⟨⟨hg, hm, hlast⟩, hrest⟩ := List.isChain_cons_cons.mp hapart
      refine List.isChain_cons_cons.mpr ⟨⟨List.cons_ne_nil _ _, hm, ?_⟩, hrest⟩
      cases g with
      | nil =>
        rw [List.getLast_singleton] at hlast
        rw [List.getLast_cons_cons, List.getLast_singleton]
        by_contra hb
        have ha := htrans a b _ hab ((Bool.not_eq_false _).mp hb)
        exact absurd (hlast.symm.trans ha) Bool.false_ne_true
      | cons c g =>
        rw [List.getLast_cons_cons] at hlast
        rwa [List.getLast_cons_cons, List.getLast_cons_cons]

theorem firsts_cons_of_same (hab : same a b) : firsts same (a :: b :: l) = firsts same (a :: l) := by
  obtain ⟨g, gs, hsplit⟩ := exists_splitBy_cons same a l
  rw [firsts, firsts, splitBy_cons_of_same hsymm htrans hab hsplit, hsplit]
  rfl

theorem repeats_cons_of_same (hab : same a b) :
    repeats same (a :: b :: l) = b :: repeats same (a :: l) := by
  obtain ⟨g, gs, hsplit⟩ := exists_splitBy_cons same a l
  rw [repeats, repeats, splitBy_cons_of_same hsymm htrans hab hsplit, hsplit]
  rfl

/-- The first items of runs stand in the list in their order. -/
theorem firsts_sublist (a : α) (l : List α) : (firsts same (a :: l)).Sublist (a :: l) := by
  induction l generalizing a with
  | nil => exact List.Sublist.refl [a]
  | cons b l ih =>
    by_cases hab : same a b = true
    · rw [firsts_cons_of_same hsymm htrans hab]
      exact (ih a).trans ((List.sublist_cons_self b l).cons_cons a)
    · rw [firsts_cons_of_ne ((Bool.not_eq_true _).mp hab)]
      exact (ih b).cons_cons a

/-- In a list in order no two first items of runs are of one class. -/
theorem firsts_pairwise {le : α → α → Prop} (hle : ∀ a b c, le a b → le b c → same a c → same a b)
    (l : List α) (hsorted : l.Pairwise le) :
    (firsts same l).Pairwise fun a b ↦ same a b = false := by
  cases l with
  | nil => exact List.Pairwise.nil
  | cons a l =>
    induction l generalizing a with
    | nil => exact List.pairwise_singleton _ a
    | cons b l ih =>
      obtain ⟨ha, hrest⟩ := List.pairwise_cons.mp hsorted
      by_cases hab : same a b = true
      · rw [firsts_cons_of_same hsymm htrans hab]
        exact ih a (hsorted.sublist ((List.sublist_cons_self b l).cons_cons a))
      · rw [firsts_cons_of_ne ((Bool.not_eq_true _).mp hab)]
        refine List.pairwise_cons.mpr ⟨fun c hc ↦ ?_, ih b hrest⟩
        by_contra hac
        have hmem := (firsts_sublist hsymm htrans b l).subset hc
        refine hab ?_
        rcases List.mem_cons.mp hmem with rfl | hmem
        · exact (Bool.not_eq_false _).mp hac
        · exact hle a b c (ha b List.mem_cons_self) ((List.pairwise_cons.mp hrest).1 c hmem)
            ((Bool.not_eq_false _).mp hac)

end Equivalence

end Jungle.Lib
