import Jungle.KernelList.Families
import Jungle.Scheduler.Basic

/-!
# The lists of threads

What the lists of the scheduler hold, said of threads instead of their `elem`. Putting a thread on a
list, taking the first one off and freeing the page of a thread in no list keep it.
-/

set_option autoImplicit false
set_option relaxedAutoImplicit false

namespace Jungle.Scheduler

open Jungle.Lib Jungle.KernelList

/-- The elements of the threads of each list. -/
def elemsOf (Q : ListName → List ℕ) (list : ListName) : List ℕ := (Q list).map elemOf

/-- A cell is no head and no tail of a list. -/
def NoHeader (lists : ListName → KList) (a : ℕ) : Prop :=
  ∀ list, a ≠ (lists list).head ∧ a ≠ (lists list).tail

/-- The lists hold the given threads, and the `elem` of a thread is a cell of its own. -/
structure Queues (lists : ListName → KList) (s : Kernel) (Q : ListName → List ℕ) : Prop where
  holds : Holds lists s.elems (elemsOf Q)
  cells : ∀ t, (s.status t).isSome → (s.elems (elemOf t)).isSome ∧ NoHeader lists (elemOf t)
  threads : ∀ list, ∀ t ∈ Q list, (s.status t).isSome

variable {lists : ListName → KList} {s s' : Kernel} {Q : ListName → List ℕ} {t u : ℕ}
  {list : ListName} {B : List ℕ}

theorem elemOf_inj : elemOf t = elemOf u ↔ t = u := Nat.add_right_cancel_iff

@[simp] theorem threadOf_elemOf (t : ℕ) : threadOf (elemOf t) = t := Nat.add_sub_cancel ..

theorem mem_elemsOf : elemOf t ∈ elemsOf Q list ↔ t ∈ Q list := by
  constructor
  · intro h
    obtain ⟨u, hu, heq⟩ := List.mem_map.mp h
    exact elemOf_inj.mp heq ▸ hu
  · exact List.mem_map_of_mem

theorem elemsOf_update (Q : ListName → List ℕ) (list : ListName) (threads : List ℕ) :
    elemsOf (Function.update Q list threads) =
      Function.update (elemsOf Q) list (threads.map elemOf) := by
  ext1 other
  by_cases h : other = list
  · subst h
    rw [elemsOf, Function.update_self, Function.update_self]
  · rw [elemsOf, Function.update_of_ne h, Function.update_of_ne h, elemsOf]

/-- The element of a thread in no list. -/
theorem inNoList (h : NoHeader lists (elemOf t)) (hout : ∀ list, t ∉ Q list) :
    InNoList lists (elemsOf Q) (elemOf t) := by
  intro list hmem
  rw [nodes, List.mem_cons, List.mem_append, List.mem_singleton, mem_elemsOf] at hmem
  rcases hmem with hhead | hin | htail
  · exact (h list).1 hhead
  · exact hout list hin
  · exact (h list).2 htail

namespace Queues

theorem nodup (h : Queues lists s Q) (list : ListName) : (Q list).Nodup :=
  List.Nodup.of_map elemOf (h.holds.wellFormed.nodup list)

/-- A thread is in one list at most. -/
theorem unique (h : Queues lists s Q) {list' : ListName} (ht : t ∈ Q list) (ht' : t ∈ Q list') :
    list = list' := by
  by_contra hne
  exact h.holds.wellFormed.disjoint list list' hne (mem_elemsOf.mpr ht) (mem_elemsOf.mpr ht')

/-- Setting the status of threads that exist keeps the lists. -/
theorem congr (h : Queues lists s Q) (helems : s'.elems = s.elems)
    (hstatus : ∀ t, (s'.status t).isSome = (s.status t).isSome) : Queues lists s' Q where
  holds := helems ▸ h.holds
  cells t ht := by
    rw [helems]
    exact h.cells t (hstatus t ▸ ht)
  threads list t ht := by
    rw [hstatus]
    exact h.threads list t ht

/-- `list_push_back` of a thread in no list. -/
theorem pushBack (h : Queues lists s Q) (ht : (s.status t).isSome) (hout : ∀ list, t ∉ Q list)
    (list : ListName) : ∃ m, pushBack lists s list t = some { s with elems := m } ∧
      Queues lists { s with elems := m } (Function.update Q list (Q list ++ [t])) := by
  obtain ⟨hcell, hheader⟩ := h.cells t ht
  obtain ⟨m, hcall, hholds⟩ := holds_pushBack (i := list) h.holds hcell (inNoList hheader hout)
  refine ⟨m, ?_, ?_, fun u hu ↦ ?_, fun other u hu ↦ ?_⟩
  · simp only [Scheduler.pushBack, hcall, Option.bind_eq_bind, Option.bind_some, Option.pure_def]
  · rw [elemsOf_update, List.map_append]
    exact hholds
  · rw [listPushBack_allocated hcall]
    exact h.cells u hu
  · by_cases hother : other = list
    · subst hother
      rw [Function.update_self, List.mem_append, List.mem_singleton] at hu
      rcases hu with hu | rfl
      · exact h.threads _ u hu
      · exact ht
    · rw [Function.update_of_ne hother] at hu
      exact h.threads other u hu

/-- `list_pop_front` takes the first thread off a list. -/
theorem popFront (h : Queues lists s Q) (hQ : Q list = t :: B) : ∃ m,
    popFront lists s list = some (t, { s with elems := m }) ∧
      Queues lists { s with elems := m } (Function.update Q list B) := by
  have hσ : elemsOf Q list = elemOf t :: B.map elemOf := by
    rw [elemsOf, hQ, List.map_cons]
  obtain ⟨m, hcall, hholds⟩ := holds_popFront h.holds hσ
  refine ⟨m, ?_, ?_, fun u hu ↦ ?_, fun other u hu ↦ ?_⟩
  · simp only [Scheduler.popFront, hcall, Option.bind_eq_bind, Option.bind_some, Option.pure_def,
      threadOf_elemOf]
  · rw [elemsOf_update]
    exact hholds
  · rw [listPopFront_allocated hcall]
    exact h.cells u hu
  · by_cases hother : other = list
    · subst hother
      rw [Function.update_self] at hu
      exact h.threads _ u (hQ ▸ List.mem_cons_of_mem t hu)
    · rw [Function.update_of_ne hother] at hu
      exact h.threads other u hu

/-- `list_empty` tells whether there are threads in a list. -/
theorem listEmpty_eq (h : Queues lists s Q) (list : ListName) :
    listEmpty s.elems (lists list) = some (decide (Q list = [])) := by
  rw [h.holds.listEmpty_eq]
  exact congrArg some (decide_eq_decide.mpr List.map_eq_nil_iff)

/-- The cells of the lists are not those of a thread in no list. -/
theorem frame (h : Queues lists s Q) {m : Elems} (hheader : NoHeader lists (elemOf t))
    (hout : ∀ list, t ∉ Q list) (hsame : ∀ a, a ≠ elemOf t → m a = s.elems a) :
    Holds lists m (elemsOf Q) where
  ring list := (h.holds.ring list).frame fun a ha ↦ hsame a fun heq ↦
    inNoList hheader hout list (heq ▸ ha)
  nodup := h.holds.nodup
  disjoint := h.holds.disjoint

/-- `palloc_free_page` of the page of a thread in no list. -/
theorem freePage (h : Queues lists s Q) (ht : (s.status t).isSome) (hout : ∀ list, t ∉ Q list) :
    Queues lists (freePage s t) Q where
  holds := h.frame (h.cells t ht).2 hout fun a ha ↦ Store.free_of_ne _ ha
  cells u hu := by
    have hne : u ≠ t := by
      rintro rfl
      simp [Scheduler.freePage] at hu
    have hstatus : (Scheduler.freePage s t).status u = s.status u := Function.update_of_ne hne ..
    have helem : elemOf u ≠ elemOf t := fun heq ↦ hne (elemOf_inj.mp heq)
    have hcell : (Scheduler.freePage s t).elems (elemOf u) = s.elems (elemOf u) :=
      Store.free_of_ne _ helem
    rw [hcell]
    exact h.cells u (hstatus ▸ hu)
  threads list u hu := by
    have hne : u ≠ t := fun heq ↦ hout list (heq ▸ hu)
    have hstatus : (Scheduler.freePage s t).status u = s.status u := Function.update_of_ne hne ..
    rw [hstatus]
    exact h.threads list u hu

/-- `thread_create` makes a thread in no list. -/
theorem create (h : Queues lists s Q) (ht : s.status t = none) (hheader : NoHeader lists (elemOf t)) :
    Queues lists (threadCreate s (some t)) Q := by
  have hout : ∀ list, t ∉ Q list := by
    intro list hmem
    simpa [ht] using h.threads list t hmem
  refine ⟨h.frame hheader hout fun a ha ↦ Store.put_of_ne _ ha _, fun u hu ↦ ?_, fun list u hu ↦ ?_⟩
  · by_cases hne : u = t
    · subst hne
      exact ⟨by simp [threadCreate], hheader⟩
    · have hstatus : (threadCreate s (some t)).status u = s.status u :=
        Function.update_of_ne hne ..
      have helem : elemOf u ≠ elemOf t := fun heq ↦ hne (elemOf_inj.mp heq)
      have hcell : (threadCreate s (some t)).elems (elemOf u) = s.elems (elemOf u) :=
        Store.put_of_ne _ helem _
      rw [hcell]
      exact h.cells u (hstatus ▸ hu)
  · have hne : u ≠ t := fun heq ↦ hout list (heq ▸ hu)
    have hstatus : (threadCreate s (some t)).status u = s.status u := Function.update_of_ne hne ..
    rw [hstatus]
    exact h.threads list u hu

end Queues

end Jungle.Scheduler
