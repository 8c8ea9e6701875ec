import Jungle.Paging.Entries

/-!
# Walks through owned tables

Every page that is used as a table below the top level has a level, counted from the last one, and
an owner (`Owned`): its entries lead to tables of the level below with the same owner. A walk that
creates tables either gives back all it took (`walk_spec`), or reaches a last-level table of its
owner, where a walk that creates nothing then ends, too; it changes tables of its owner only.
-/

set_option autoImplicit false
set_option relaxedAutoImplicit false

namespace Jungle.Paging

open Jungle.Lib

/-- The walk from a table with the listed indices, which ends at the entry `leaf`. -/
def walk (leaf : ℕ) (create : Bool) : List ℕ → Machine → ℕ → Option (Option Slot × Machine)
  | [], s, table => some (some ⟨table, leaf⟩, s)
  | idx :: indices, s, table => walkLevel (walk leaf create indices) s table idx create

/-- What a walk that creates nothing finds. -/
def find (leaf : ℕ) : List ℕ → Machine → ℕ → Option (Option Slot)
  | [], _, table => some (some ⟨table, leaf⟩)
  | idx :: indices, s, table =>
    if table = 0 then some none
    else do
      let entry ← readEntry s table idx
      if present entry then find leaf indices s (ptov (pteAddr entry)) else some none

/-- The indices of an address above the last level. -/
def indices (va : ℕ) : List ℕ := [pml4 va, Paging.pdpe va, pdx va]

theorem pml4eWalk_eq (s : Machine) (pml4e va : ℕ) (create : Bool) :
    pml4eWalk s pml4e va create = walk (ptx va) create (indices va) s pml4e := rfl

/-- A walk that creates nothing finds the entry and leaves the machine alone. -/
theorem walk_false (leaf : ℕ) (indices : List ℕ) (s : Machine) (table : ℕ) :
    walk leaf false indices s table = (find leaf indices s table).map fun pte ↦ (pte, s) := by
  induction indices generalizing table with
  | nil => rfl
  | cons idx indices ih =>
    rw [walk, find, walkLevel]
    by_cases htable : table = 0
    · rw [if_pos htable, if_pos htable]
      rfl
    · rw [if_neg htable, if_neg htable]
      cases readEntry s table idx with
      | none => rfl
      | some entry =>
        simp only [Option.bind_eq_bind, Option.bind_some, Bool.false_eq_true, if_false]
        by_cases hpresent : present entry
        · rw [if_pos hpresent, if_pos hpresent]
          exact ih _
        · rw [if_neg hpresent, if_neg hpresent]
          rfl

/-! ### One level -/

theorem readEntry_eq {s : Machine} {table : ℕ} {entries : ℕ → ℕ}
    (h : s.pages table = some entries) (idx : ℕ) : readEntry s table idx = some (entries idx) := by
  rw [readEntry, h, Option.map_some]

theorem writeEntry_eq {s : Machine} {table : ℕ} {entries : ℕ → ℕ}
    (h : s.pages table = some entries) (idx entry : ℕ) : writeEntry s table idx entry =
      some { s with pages := s.pages.put table (Function.update entries idx entry) } := by
  simp only [writeEntry, h, Option.bind_eq_bind, Option.bind_some, Option.pure_def]

/-- A write changes one entry. -/
theorem readEntry_put {s : Machine} {pte : Slot} {entries : ℕ → ℕ}
    (hentries : s.pages pte.table = some entries) (entry' : ℕ) :
    readEntry { s with pages := s.pages.put pte.table (Function.update entries pte.idx entry') }
        pte.table pte.idx = some entry' ∧
      ∀ table idx, ¬(table = pte.table ∧ idx = pte.idx) →
        readEntry { s with pages := s.pages.put pte.table (Function.update entries pte.idx entry') }
          table idx = readEntry s table idx := by
  unfold readEntry
  dsimp only
  constructor
  · rw [Store.put_self, Option.map_some, Function.update_self]
  · intro table idx hother
    by_cases htable : table = pte.table
    · subst htable
      have hidx : idx ≠ pte.idx := fun hidx ↦ hother ⟨rfl, hidx⟩
      rw [Store.put_self, Option.map_some, Function.update_of_ne hidx, hentries, Option.map_some]
    · rw [Store.put_of_ne _ htable]

/-- `palloc_get_page` returns `NULL` or a free page, filled with zeros. -/
theorem pallocGetPage_cases {s s' : Machine} {page? : Option ℕ}
    (h : pallocGetPage s = some (page?, s')) : page? = none ∧ s'.pages = s.pages ∨
      ∃ page, page? = some page ∧ IsFreePage s page ∧ s'.pages = s.pages.put page fun _ ↦ 0 := by
  unfold pallocGetPage at h
  split at h
  · obtain ⟨rfl, rfl⟩ := Prod.mk.inj (Option.some.inj h)
    exact Or.inl ⟨rfl, rfl⟩
  · obtain ⟨rfl, rfl⟩ := Prod.mk.inj (Option.some.inj h)
    exact Or.inl ⟨rfl, rfl⟩
  · split_ifs at h with hfree
    obtain ⟨rfl, rfl⟩ := Prod.mk.inj (Option.some.inj h)
    exact Or.inr ⟨_, rfl, hfree, rfl⟩

/-- The memory after a new table has been put behind an entry. -/
def linkPage (s : Machine) (table idx page : ℕ) (entries : ℕ → ℕ) : Store (ℕ → ℕ) :=
  (s.pages.put page fun _ ↦ 0).put table
    (Function.update entries idx (vtop page ||| pteU ||| pteW ||| pteP))

/-- The ways a walk that creates tables goes on from a table: to the table that is there; nowhere,
without memory; or to a new table, which is given back if the walk fails there. -/
theorem walkLevel_cases {next : Machine → ℕ → Option (Option Slot × Machine)} {s s' : Machine}
    {table idx : ℕ} {entries : ℕ → ℕ} {pte : Option Slot} (htable : table ≠ 0)
    (hentries : s.pages table = some entries)
    (hwalk : walkLevel next s table idx true = some (pte, s')) :
    (present (entries idx) ∧ next s (ptov (pteAddr (entries idx))) = some (pte, s')) ∨
      (¬present (entries idx) ∧ pte = none ∧ s'.pages = s.pages) ∨
      ¬present (entries idx) ∧ ∃ page s₁ s₂, IsFreePage s page ∧
        s₁.pages = linkPage s table idx page entries ∧ next s₁ page = some (pte, s₂) ∧
        ((∃ slot, pte = some slot ∧ s' = s₂) ∨ pte = none ∧ ∃ last, s₂.pages table = some last ∧
          s'.pages = (s₂.pages.free (ptov (pteAddr (last idx)))).put table
            (Function.update last idx 0)) := by
  rw [walkLevel, if_neg htable] at hwalk
  simp only [readEntry_eq hentries, Option.bind_eq_bind, Option.bind_some, if_true] at hwalk
  by_cases hpresent : present (entries idx)
  · rw [if_pos hpresent] at hwalk
    exact Or.inl ⟨hpresent, hwalk⟩
  · rw [if_neg hpresent] at hwalk
    refine Or.inr ?_
    obtain ⟨⟨page?, s₁⟩, halloc, hwalk⟩ := Option.bind_eq_some_iff.mp hwalk
    rcases pallocGetPage_cases halloc with ⟨rfl, hsame⟩ | ⟨page, rfl, hfree, hpages⟩
    · obtain ⟨rfl, rfl⟩ := Prod.mk.inj (Option.some.inj hwalk)
      exact Or.inl ⟨hpresent, rfl, hsame⟩
    · refine Or.inr ⟨hpresent, page, ?_⟩
      have hne : table ≠ page := by
        rintro rfl
        rw [hfree.2.2.2] at hentries
        exact absurd hentries (by simp)
      have hentries₁ : s₁.pages table = some entries := by
        rw [hpages, Store.put_of_ne _ hne, hentries]
      obtain ⟨s₁', hwrite, hwalk⟩ := Option.bind_eq_some_iff.mp hwalk
      rw [writeEntry_eq hentries₁] at hwrite
      obtain rfl := Option.some.inj hwrite
      have hlinked : ∀ e, (s₁.pages.put table (Function.update entries idx e)) table =
          some (Function.update entries idx e) := fun e ↦ Store.put_self ..
      obtain ⟨entry, hread, hwalk⟩ := Option.bind_eq_some_iff.mp hwalk
      rw [readEntry_eq (hlinked _), Function.update_self] at hread
      obtain rfl := Option.some.inj hread
      rw [(table_entry hfree.isKernelPage).1] at hwalk
      obtain ⟨⟨pte', s₂⟩, hnext, hwalk⟩ := Option.bind_eq_some_iff.mp hwalk
      cases pte' with
      | some slot =>
        obtain ⟨rfl, rfl⟩ := Prod.mk.inj (Option.some.inj hwalk)
        exact ⟨_, s₂, hfree, by rw [linkPage, ← hpages], hnext, Or.inl ⟨slot, rfl, rfl⟩⟩
      | none =>
        obtain ⟨entry, hread, hwalk⟩ := Option.bind_eq_some_iff.mp hwalk
        obtain ⟨last, hlast, rfl⟩ := Option.map_eq_some_iff.mp hread
        obtain ⟨s₃, hfreed, hwalk⟩ := Option.bind_eq_some_iff.mp hwalk
        obtain ⟨s₄, hzero, hwalk⟩ := Option.bind_eq_some_iff.mp hwalk
        obtain ⟨rfl, rfl⟩ := Prod.mk.inj (Option.some.inj hwalk)
        refine ⟨_, s₂, hfree, by rw [linkPage, ← hpages], hnext, Or.inr ⟨rfl, last, hlast, ?_⟩⟩
        obtain ⟨-, -, hfreed⟩ := Option.bind_eq_some_iff.mp hfreed
        obtain rfl := Option.some.inj hfreed
        obtain ⟨entries', hentries', hzero⟩ := Option.bind_eq_some_iff.mp hzero
        obtain rfl := Option.some.inj hzero
        change (s₂.pages.free (ptov (pteAddr (last idx)))) table = some entries' at hentries'
        have hkept : table ≠ ptov (pteAddr (last idx)) := fun heq ↦ by
          rw [← heq, Store.free_self] at hentries'
          exact absurd hentries' (by simp)
        rw [Store.free_of_ne _ hkept, hlast] at hentries'
        rw [Option.some.inj hentries']

/-! ### Ownership -/

/-- Who owns a table: an entry of the kernel's top-level table, or an entry of another one. -/
inductive Owner
  | shared (idx : ℕ)
  | own (pml4 idx : ℕ)
deriving DecidableEq

/-- The levels and the owners of the tables below the top level, the last level being 0. -/
abbrev Labels := ℕ → Option (ℕ × Owner)

/-- The entries of a table lead to tables of the level below with the same owner, each of them to
another one. -/
structure Owned (s : Machine) (label : Labels) : Prop where
  page : ∀ p x, label p = some x → p ≠ 0 ∧ (s.pages p).isSome
  entry : ∀ p n o entries idx, label p = some (n + 1, o) → s.pages p = some entries →
    entries idx = 0 ∨
      present (entries idx) ∧ label (ptov (pteAddr (entries idx))) = some (n, o)
  single : ∀ p q n n' o o' entries entries' i j, label p = some (n + 1, o) →
    label q = some (n' + 1, o') → s.pages p = some entries → s.pages q = some entries' →
    present (entries i) → present (entries' j) →
    ptov (pteAddr (entries i)) = ptov (pteAddr (entries' j)) → p = q ∧ i = j

/-- The labels of `label` stay, and new ones name the owner and are of pages that were free. -/
structure Extends (s : Machine) (label label' : Labels) (o : Owner) : Prop where
  keeps : ∀ p x, label p = some x → label' p = some x
  adds : ∀ p n o', label' p = some (n, o') → label p = some (n, o') ∨ o' = o ∧ s.pages p = none

variable {s s' : Machine} {label label' : Labels} {n leaf table : ℕ} {o : Owner}

theorem Extends.refl (s : Machine) (label : Labels) (o : Owner) : Extends s label label o :=
  ⟨fun _ _ h ↦ h, fun _ _ _ h ↦ Or.inl h⟩

theorem Owned.not_labelled {page : ℕ} (h : Owned s label) (hfree : IsFreePage s page) :
    label page = none := by
  refine Option.eq_none_iff_forall_ne_some.mpr fun x hx ↦ ?_
  have hsome := (h.page page x hx).2
  rw [hfree.2.2.2] at hsome
  exact Bool.false_ne_true hsome

theorem IsFreePage.ne {page : ℕ} {entries : ℕ → ℕ} (hfree : IsFreePage s page)
    (hentries : s.pages table = some entries) : table ≠ page := by
  rintro rfl
  rw [hfree.2.2.2] at hentries
  exact absurd hentries (by simp)

theorem IsFreePage.ne_zero {page : ℕ} (hfree : IsFreePage s page) : page ≠ 0 := by
  have hkernel := hfree.1
  unfold kernBase at hkernel
  omega

/-- Labelling a free page. -/
theorem Owned.extends_update {page : ℕ} (h : Owned s label) (hfree : IsFreePage s page) :
    Extends s label (Function.update label page (some (n, o))) o where
  keeps p x hp := by
    rw [Function.update_of_ne, hp]
    rintro rfl
    exact absurd (hp.symm.trans (h.not_labelled hfree)) (by simp)
  adds p m o' hp := by
    by_cases heq : p = page
    · rw [heq, Function.update_self] at hp
      exact Or.inr ⟨(Prod.mk.inj (Option.some.inj hp)).2.symm, heq ▸ hfree.2.2.2⟩
    · rw [Function.update_of_ne heq] at hp
      exact Or.inl hp

/-- An entry of a labelled table that is present leads to a labelled page. -/
theorem Owned.child {p idx : ℕ} {entries : ℕ → ℕ} (h : Owned s label)
    (hp : label p = some (n + 1, o)) (hentries : s.pages p = some entries)
    (hpresent : present (entries idx)) : label (ptov (pteAddr (entries idx))) = some (n, o) :=
  ((h.entry p n o entries idx hp hentries).resolve_left fun hzero ↦
    not_present_zero (hzero ▸ hpresent)).2

/-- The present entries of the labelled tables after a new table has been put behind an entry: the
new one, and the old ones. -/
theorem linkPage_entry {page idx p i : ℕ} {entries es : ℕ → ℕ} {x : ℕ × Owner}
    (hfree : IsFreePage s page) (hentries : s.pages table = some entries)
    (hp : Function.update label page (some (n, o)) p = some x)
    (hes : linkPage s table idx page entries p = some es) (hpresent : present (es i)) :
    label p = some x ∧ ((p = table ∧ i = idx ∧ ptov (pteAddr (es i)) = page) ∨
      ∃ es', s.pages p = some es' ∧ es' i = es i) := by
  have hne : p ≠ page := by
    rintro rfl
    rw [linkPage, Store.put_of_ne _ (hfree.ne hentries).symm, Store.put_self] at hes
    obtain rfl := Option.some.inj hes
    exact not_present_zero hpresent
  rw [Function.update_of_ne hne] at hp
  refine ⟨hp, ?_⟩
  by_cases htable : p = table
  · subst htable
    rw [linkPage, Store.put_self] at hes
    obtain rfl := Option.some.inj hes
    by_cases hi : i = idx
    · rw [hi, Function.update_self]
      exact Or.inl ⟨rfl, rfl, (table_entry hfree.isKernelPage).1⟩
    · exact Or.inr ⟨entries, hentries, (Function.update_of_ne hi ..).symm⟩
  · rw [linkPage, Store.put_of_ne _ htable, Store.put_of_ne _ hne] at hes
    exact Or.inr ⟨es, hes, rfl⟩

/-- A new table behind an entry of a table of its owner. -/
theorem Owned.linkPage {page idx : ℕ} {entries : ℕ → ℕ} {s₁ : Machine} (h : Owned s label)
    (hfree : IsFreePage s page) (hentries : s.pages table = some entries)
    (htable : ∀ m o', label table = some (m, o') → m = n + 1 ∧ o' = o)
    (hpages : s₁.pages = linkPage s table idx page entries) :
    Owned s₁ (Function.update label page (some (n, o))) := by
  have hne : table ≠ page := hfree.ne hentries
  have hpages' : ∀ p, p ≠ table → p ≠ page → s₁.pages p = s.pages p := fun p hp hp' ↦ by
    rw [hpages, Paging.linkPage, Store.put_of_ne _ hp, Store.put_of_ne _ hp']
  have hself : s₁.pages page = some fun _ ↦ 0 := by
    rw [hpages, Paging.linkPage, Store.put_of_ne _ hne.symm, Store.put_self]
  have htable₁ : s₁.pages table =
      some (Function.update entries idx (vtop page ||| pteU ||| pteW ||| pteP)) := by
    rw [hpages, Paging.linkPage, Store.put_self]
  have hold : ∀ c m o', label c = some (m, o') →
      Function.update label page (some (n, o)) c = some (m, o') :=
    fun c m o' hc ↦ (h.extends_update hfree).keeps c _ hc
  refine ⟨?_, ?_, fun p q m m' o' o'' es es' i j hp hq hes hes' hi hj hsame ↦ ?_⟩
  · intro p x hp
    by_cases hpp : p = page
    · rw [hpp, hself]
      exact ⟨hfree.ne_zero, rfl⟩
    · rw [Function.update_of_ne hpp] at hp
      refine ⟨(h.page p x hp).1, ?_⟩
      by_cases hpt : p = table
      · rw [hpt, htable₁]
        rfl
      · rw [hpages' p hpt hpp]
        exact (h.page p x hp).2
  · intro p m o' pg i hp hpg
    by_cases hpp : p = page
    · rw [hpp, hself] at hpg
      exact Or.inl (congrFun (Option.some.inj hpg) i).symm
    · rw [Function.update_of_ne hpp] at hp
      by_cases hpt : p = table
      · subst hpt
        obtain ⟨hm, rfl⟩ := htable _ _ hp
        obtain rfl : m = n := Nat.succ.inj hm
        obtain rfl := Option.some.inj (htable₁.symm.trans hpg)
        by_cases hi : i = idx
        · rw [hi, Function.update_self, (table_entry hfree.isKernelPage).1, Function.update_self]
          exact Or.inr ⟨(table_entry hfree.isKernelPage).2, rfl⟩
        · rw [Function.update_of_ne hi]
          exact (h.entry p m o' entries i hp hentries).imp_right fun hchild ↦
            ⟨hchild.1, hold _ _ _ hchild.2⟩
      · rw [hpages' p hpt hpp] at hpg
        exact (h.entry p m o' pg i hp hpg).imp_right fun hchild ↦
          ⟨hchild.1, hold _ _ _ hchild.2⟩
  · rw [hpages] at hes hes'
    obtain ⟨hp, hpcases⟩ := linkPage_entry hfree hentries hp hes hi
    obtain ⟨hq, hqcases⟩ := linkPage_entry hfree hentries hq hes' hj
    rcases hpcases with ⟨rfl, rfl, htarget⟩ | ⟨old, hold, hold'⟩
    · rcases hqcases with ⟨rfl, rfl, -⟩ | ⟨old, hold, hold'⟩
      · exact ⟨rfl, rfl⟩
      · have hchild := h.child hq hold (hold' ▸ hj)
        rw [hold', ← hsame, htarget, h.not_labelled hfree] at hchild
        exact absurd hchild (by simp)
    · rcases hqcases with ⟨rfl, rfl, htarget⟩ | ⟨old', hold₂, hold₂'⟩
      · have hchild := h.child hp hold (hold' ▸ hi)
        rw [hold', hsame, htarget, h.not_labelled hfree] at hchild
        exact absurd hchild (by simp)
      · exact h.single p q m m' o' o'' old old' i j hp hq hold hold₂ (hold' ▸ hi) (hold₂' ▸ hj)
          (by rw [hold', hold₂', hsame])

theorem linkPage_of_ne {page idx p : ℕ} {entries : ℕ → ℕ} (htable : p ≠ table) (hpage : p ≠ page) :
    linkPage s table idx page entries p = s.pages p := by
  rw [linkPage, Store.put_of_ne _ htable, Store.put_of_ne _ hpage]

/-- Labels that extend those with a new table extend the old ones. -/
theorem Extends.of_linkPage {page idx : ℕ} {entries : ℕ → ℕ} {s₁ : Machine} (h : Owned s label)
    (hfree : IsFreePage s page) (hpages : s₁.pages = linkPage s table idx page entries)
    (hext : Extends s₁ (Function.update label page (some (n, o))) label' o) :
    Extends s label label' o where
  keeps p x hp := hext.keeps p x ((h.extends_update hfree).keeps p x hp)
  adds p m o' hp := by
    rcases hext.adds p m o' hp with hold | ⟨ho, hnone⟩
    · exact (h.extends_update hfree).adds p m o' hold
    · refine Or.inr ⟨ho, ?_⟩
      by_cases hpage : p = page
      · rw [hpage, hfree.2.2.2]
      · rw [hpages] at hnone
        by_cases htable : p = table
        · rw [htable, linkPage, Store.put_self] at hnone
          exact absurd hnone (by simp)
        · rwa [linkPage_of_ne htable hpage] at hnone

/-- The memory is as it was once a new table is given back and its entry cleared. -/
theorem unlinkPage {page idx : ℕ} {entries : ℕ → ℕ} (hfree : IsFreePage s page)
    (hentries : s.pages table = some entries) (hzero : entries idx = 0) :
    ((linkPage s table idx page entries).free page).put table
      (Function.update (Function.update entries idx (vtop page ||| pteU ||| pteW ||| pteP)) idx 0) =
        s.pages := by
  have hne : table ≠ page := hfree.ne hentries
  ext1 p
  by_cases hpt : p = table
  · rw [hpt, Store.put_self, hentries, Function.update_idem, ← hzero, Function.update_eq_self]
  · rw [Store.put_of_ne _ hpt]
    by_cases hpp : p = page
    · rw [hpp, Store.free_self, hfree.2.2.2]
    · rw [Store.free_of_ne _ hpp, linkPage, Store.put_of_ne _ hpt, Store.put_of_ne _ hpp]

/-- A walk that creates nothing goes on behind an entry that is present. -/
theorem find_cons {idx : ℕ} {indices : List ℕ} {entries : ℕ → ℕ} (htable : table ≠ 0)
    (hentries : s.pages table = some entries) (hpresent : present (entries idx)) :
    find leaf (idx :: indices) s table = find leaf indices s (ptov (pteAddr (entries idx))) := by
  rw [find, if_neg htable, readEntry_eq hentries, Option.bind_eq_bind, Option.bind_some,
    if_pos hpresent]

/-- What a walk that creates tables leads to: a last-level table of the owner, which a walk that
creates nothing finds, too, behind an entry of the first table that is the old one or a new one. -/
structure Reaches (s s' : Machine) (label label' : Labels) (o : Owner) (leaf table idx : ℕ)
    (indices : List ℕ) (entries : ℕ → ℕ) (last : ℕ) : Prop where
  owned : Owned s' label'
  ext : Extends s label label' o
  level : label' last = some (0, o)
  same : ∀ p, p ≠ table → (∀ m ≤ indices.length, label' p ≠ some (m, o)) → s'.pages p = s.pages p
  entry : ∃ entry, s'.pages table = some (Function.update entries idx entry) ∧ present entry ∧
    label' (ptov (pteAddr entry)) = some (indices.length, o) ∧
    (entry = entries idx ∨ ¬present (entries idx))
  find : find leaf (idx :: indices) s' table = some (some ⟨last, leaf⟩)

/-- A walk that creates tables and starts at an owned table gives back all it took, or reaches a
last-level table. -/
def WalkSpec (leaf : ℕ) (indices : List ℕ) : Prop :=
  ∀ (s s' : Machine) (label : Labels) (o : Owner) (table : ℕ) (pte : Option Slot), Owned s label →
    label table = some (indices.length, o) → walk leaf true indices s table = some (pte, s') →
      pte = none ∧ s'.pages = s.pages ∨ ∃ last label', pte = some ⟨last, leaf⟩ ∧ Owned s' label' ∧
        Extends s label label' o ∧ label' last = some (0, o) ∧
        (∀ p, (∀ m ≤ indices.length, label' p ≠ some (m, o)) → s'.pages p = s.pages p) ∧
        find leaf indices s' table = some (some ⟨last, leaf⟩)

/-- One more level. -/
theorem walkLevel_spec {idx : ℕ} {indices : List ℕ} {pte : Option Slot} {entries : ℕ → ℕ}
    (hspec : WalkSpec leaf indices) (h : Owned s label) (hnonzero : table ≠ 0)
    (hentries : s.pages table = some entries)
    (hentry : entries idx = 0 ∨ present (entries idx) ∧
      label (ptov (pteAddr (entries idx))) = some (indices.length, o))
    (htable : ∀ m o', label table = some (m, o') → m = indices.length + 1 ∧ o' = o)
    (hwalk : walk leaf true (idx :: indices) s table = some (pte, s')) :
    pte = none ∧ s'.pages = s.pages ∨ ∃ last label', pte = some ⟨last, leaf⟩ ∧
      Reaches s s' label label' o leaf table idx indices entries last := by
  have hkeep : ∀ label', Extends s label label' o → ∀ m ≤ indices.length,
      label' table ≠ some (m, o) := by
    intro label' hext m hm heq
    rcases hext.adds table m o heq with hold | ⟨-, hnone⟩
    · have hlevel := (htable m o hold).1
      omega
    · rw [hentries] at hnone
      exact absurd hnone (by simp)
  rcases walkLevel_cases hnonzero hentries hwalk with ⟨hpresent, hnext⟩ | ⟨-, hpte, hsame⟩ |
    ⟨habsent, page, s₁, s₂, hfree, hpages, hnext, hresult⟩
  · have hchild := (hentry.resolve_left fun hzero ↦ not_present_zero (hzero ▸ hpresent)).2
    rcases hspec _ _ _ _ _ _ h hchild hnext with
      hnone | ⟨last, label', hpte, howned, hext, hlast, hkept, hfind⟩
    · exact Or.inl hnone
    · have hentries' : s'.pages table = some entries := by
        rw [hkept table (hkeep label' hext), hentries]
      refine Or.inr ⟨last, label', hpte, howned, hext, hlast, fun p _ hp ↦ hkept p hp,
        ⟨entries idx, ?_, hpresent, hext.keeps _ _ hchild, Or.inl rfl⟩, ?_⟩
      · rw [Function.update_eq_self, hentries']
      · rw [find_cons hnonzero hentries' hpresent, hfind]
  · exact Or.inl ⟨hpte, hsame⟩
  · have hzero := hentry.resolve_right fun hchild ↦ habsent hchild.1
    have hne : table ≠ page := hfree.ne hentries
    have htable₁ : s₁.pages table =
        some (Function.update entries idx (vtop page ||| pteU ||| pteW ||| pteP)) := by
      rw [hpages, linkPage, Store.put_self]
    have hlabel₁ : Function.update label page (some (indices.length, o)) page =
        some (indices.length, o) := Function.update_self ..
    rcases hspec _ _ _ _ _ _ (h.linkPage hfree hentries htable hpages) hlabel₁ hnext with
      ⟨rfl, hsame⟩ | ⟨last, label', rfl, howned, hext, hlast, hkept, hfind⟩
    · obtain ⟨-, entries', hentries', hs'⟩ := hresult.resolve_left (by simp)
      rw [hsame] at hentries' hs'
      obtain rfl := Option.some.inj (htable₁.symm.trans hentries')
      rw [Function.update_self, (table_entry hfree.isKernelPage).1, hpages,
        unlinkPage hfree hentries hzero] at hs'
      exact Or.inl ⟨rfl, hs'⟩
    · obtain ⟨-, -, rfl⟩ := hresult.resolve_right (by simp)
      have hext' : Extends s label label' o := .of_linkPage h hfree hpages hext
      have hpage : label' page = some (indices.length, o) := hext.keeps _ _ hlabel₁
      have hentries' := (hkept table (hkeep label' hext')).trans htable₁
      refine Or.inr ⟨last, label', rfl, howned, hext', hlast, fun p hpt hp ↦ ?_,
        ⟨_, hentries', (table_entry hfree.isKernelPage).2, ?_, Or.inr habsent⟩, ?_⟩
      · have hpp : p ≠ page := by
          rintro rfl
          exact hp _ (Nat.le_refl _) hpage
        rw [hkept p hp, hpages, linkPage_of_ne hpt hpp]
      · rw [(table_entry hfree.isKernelPage).1]
        exact hpage
      · rw [find_cons hnonzero hentries', Function.update_self, (table_entry hfree.isKernelPage).1]
        · exact hfind
        · rw [Function.update_self]
          exact (table_entry hfree.isKernelPage).2

/-- Walks through any number of levels. -/
theorem walk_spec (leaf : ℕ) (indices : List ℕ) : WalkSpec leaf indices := by
  induction indices with
  | nil =>
    intro s s' label o table pte h htable hwalk
    obtain ⟨rfl, rfl⟩ := Prod.mk.inj (Option.some.inj hwalk)
    exact Or.inr ⟨table, label, rfl, h, .refl s label o, htable, fun _ _ ↦ rfl, rfl⟩
  | cons idx indices ih =>
    intro s s' label o table pte h htable hwalk
    obtain ⟨hnonzero, hsome⟩ := h.page table _ htable
    obtain ⟨entries, hentries⟩ := Option.isSome_iff_exists.mp hsome
    have hentry := h.entry table _ o entries idx htable hentries
    have hlabel : ∀ m o', label table = some (m, o') → m = indices.length + 1 ∧ o' = o := by
      intro m o' hm
      obtain ⟨rfl, rfl⟩ := Prod.mk.inj (Option.some.inj (htable.symm.trans hm))
      exact ⟨rfl, rfl⟩
    rcases walkLevel_spec ih h hnonzero hentries hentry hlabel hwalk with
      hnone | ⟨last, label', hpte, hreaches⟩
    · exact Or.inl hnone
    · refine Or.inr ⟨last, label', hpte, hreaches.owned, hreaches.ext, hreaches.level,
        fun p hp ↦ hreaches.same p ?_ fun m hm ↦ hp m (Nat.le_succ_of_le hm), hreaches.find⟩
      rintro rfl
      exact hp _ (Nat.le_refl _) (hreaches.ext.keeps _ _ htable)

end Jungle.Paging
