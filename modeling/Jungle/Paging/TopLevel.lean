import Jungle.Paging.Walks

/-!
# Top-level tables

The entries of a top-level table are zero or lead to tables of their owners (`TopLevel`). A table
made by `pml4_create` has the entries of the kernel's table, which lead to tables that all top-level
tables share, and entries of its own in the other places (`Layout`). The operations keep the layout,
and say which pages they change; a lookup reads the top-level table and the tables of one owner.
-/

set_option autoImplicit false
set_option relaxedAutoImplicit false

namespace Jungle.Paging

open Jungle.Lib

variable {s s' : Machine} {label label' : Labels} {root : ℕ} {owners : ℕ → Owner}
  {entries : ℕ → ℕ}

/-- A top-level table, whose entries are zero or lead to tables of their owners. -/
structure TopLevel (s : Machine) (label : Labels) (root : ℕ) (owners : ℕ → Owner)
    (entries : ℕ → ℕ) : Prop where
  nonzero : root ≠ 0
  unlabelled : label root = none
  page : s.pages root = some entries
  entry : ∀ idx, entries idx = 0 ∨
    present (entries idx) ∧ label (ptov (pteAddr (entries idx))) = some (2, owners idx)

/-- A walk from a top-level table gives back all it took, or reaches a last-level table. -/
theorem TopLevel.walk_spec {va : ℕ} {pte : Option Slot} (h : TopLevel s label root owners entries)
    (howned : Owned s label) (hwalk : pml4eWalk s root va true = some (pte, s')) :
    pte = none ∧ s'.pages = s.pages ∨ ∃ last label', pte = some ⟨last, ptx va⟩ ∧
      Reaches s s' label label' (owners (pml4 va)) (ptx va) root (pml4 va)
        [Paging.pdpe va, pdx va] entries last := by
  refine walkLevel_spec (Paging.walk_spec _ _) howned h.nonzero h.page (h.entry _) ?_ hwalk
  intro m o hroot
  rw [h.unlabelled] at hroot
  exact absurd hroot (by simp)

/-- A page in use without a label gets none. -/
theorem Extends.unlabelled {o : Owner} {p : ℕ} (hext : Extends s label label' o)
    (hlabel : label p = none) (hpage : (s.pages p).isSome) : label' p = none := by
  refine Option.eq_none_iff_forall_ne_some.mpr fun x hx ↦ ?_
  rcases hext.adds p x.1 x.2 hx with hold | ⟨-, hnone⟩
  · rw [hlabel] at hold
    exact absurd hold (by simp)
  · rw [hnone] at hpage
    exact Bool.false_ne_true hpage

section Reached

variable {o : Owner} {leaf table idx last : ℕ} {indices : List ℕ} {tableEntries : ℕ → ℕ}

/-- The table that a walk started from. -/
theorem Reaches.topLevel (hlength : indices.length = 2) (h : TopLevel s label root owners entries)
    (hreaches : Reaches s s' label label' (owners idx) leaf root idx indices entries last) :
    ∃ entry, TopLevel s' label' root owners (Function.update entries idx entry) ∧
      present entry ∧ (present (entries idx) → entry = entries idx) := by
  obtain ⟨entry, hpage, hpresent, hchild, hsame⟩ := hreaches.entry
  have hunlabelled := hreaches.ext.unlabelled h.unlabelled (h.page ▸ rfl)
  refine ⟨entry, ⟨h.nonzero, hunlabelled, hpage, fun i ↦ ?_⟩, hpresent,
    fun hold ↦ hsame.resolve_right fun habsent ↦ habsent hold⟩
  by_cases hi : i = idx
  · rw [hi, Function.update_self]
    exact Or.inr ⟨hpresent, hlength ▸ hchild⟩
  · rw [Function.update_of_ne hi]
    exact (h.entry i).imp_right fun hold ↦ ⟨hold.1, hreaches.ext.keeps _ _ hold.2⟩

/-- Another top-level table than the one that a walk started from. -/
theorem Reaches.other (hne : root ≠ table) (h : TopLevel s label root owners entries)
    (hreaches : Reaches s s' label label' o leaf table idx indices tableEntries last) :
    TopLevel s' label' root owners entries where
  nonzero := h.nonzero
  unlabelled := hreaches.ext.unlabelled h.unlabelled (h.page ▸ rfl)
  page := by
    rw [hreaches.same root hne fun m _ hlabel ↦ ?_, h.page]
    rw [hreaches.ext.unlabelled h.unlabelled (h.page ▸ rfl)] at hlabel
    exact absurd hlabel (by simp)
  entry i := (h.entry i).imp_right fun hold ↦ ⟨hold.1, hreaches.ext.keeps _ _ hold.2⟩

end Reached

/-! ### Entries of the last level -/

theorem Owned.of_pages (h : Owned s label) (hpages : s'.pages = s.pages) : Owned s' label := by
  refine ⟨fun p x hp ↦ ?_, fun p n o pg i hp hpg ↦ ?_, ?_⟩
  · rw [hpages]
    exact h.page p x hp
  · rw [hpages] at hpg
    exact h.entry p n o pg i hp hpg
  · rw [hpages]
    exact h.single

theorem TopLevel.of_pages (h : TopLevel s label root owners entries) (hpages : s'.pages = s.pages) :
    TopLevel s' label root owners entries :=
  ⟨h.nonzero, h.unlabelled, hpages ▸ h.page, h.entry⟩

section LastLevel

variable {last : ℕ} {page page' : ℕ → ℕ} {o : Owner}

theorem Owned.put_last (h : Owned s label) (hlabel : label last = some (0, o))
    (hpages : s'.pages = s.pages.put last page') : Owned s' label where
  page p x hp := by
    refine ⟨(h.page p x hp).1, ?_⟩
    by_cases hlast : p = last
    · rw [hpages, hlast, Store.put_self]
      rfl
    · rw [hpages, Store.put_of_ne _ hlast]
      exact (h.page p x hp).2
  entry p n o' pg i hp hpg := by
    have hne : p ≠ last := by
      rintro rfl
      rw [hlabel] at hp
      exact absurd (Prod.mk.inj (Option.some.inj hp)).1 (by simp)
    rw [hpages, Store.put_of_ne _ hne] at hpg
    exact h.entry p n o' pg i hp hpg
  single p q n n' o' o'' es es' i j hp hq hes hes' := by
    have hne : ∀ p n o', label p = some (n + 1, o') → p ≠ last := by
      rintro p n o' hp rfl
      rw [hlabel] at hp
      exact absurd (Prod.mk.inj (Option.some.inj hp)).1 (by simp)
    rw [hpages, Store.put_of_ne _ (hne p _ _ hp)] at hes
    rw [hpages, Store.put_of_ne _ (hne q _ _ hq)] at hes'
    exact h.single p q n n' o' o'' es es' i j hp hq hes hes'

theorem TopLevel.put_last (h : TopLevel s label root owners entries)
    (hlabel : label last = some (0, o)) (hpages : s'.pages = s.pages.put last page') :
    TopLevel s' label root owners entries where
  nonzero := h.nonzero
  unlabelled := h.unlabelled
  page := by
    rw [hpages, Store.put_of_ne, h.page]
    rintro rfl
    rw [h.unlabelled] at hlabel
    exact absurd hlabel (by simp)
  entry := h.entry

end LastLevel

/-! ### Lookups -/

section Lookups

variable {o : Owner} {leaf : ℕ} {pte : Slot}

/-- A lookup reads the tables of one owner above the last level. -/
theorem find_congr {indices : List ℕ} {table : ℕ} (h : Owned s label)
    (htable : label table = some (indices.length, o))
    (hsame : ∀ p n, label p = some (n + 1, o) → s'.pages p = s.pages p) :
    find leaf indices s' table = find leaf indices s table := by
  induction indices generalizing table with
  | nil => rfl
  | cons idx indices ih =>
    obtain ⟨hnonzero, hsome⟩ := h.page table _ htable
    obtain ⟨entries, hentries⟩ := Option.isSome_iff_exists.mp hsome
    have hentries' := (hsame table _ htable).trans hentries
    rw [find, find, if_neg hnonzero, if_neg hnonzero, readEntry_eq hentries,
      readEntry_eq hentries', Option.bind_eq_bind, Option.bind_some, Option.bind_some]
    by_cases hpresent : present (entries idx)
    · rw [if_pos hpresent, if_pos hpresent]
      exact ih ((h.entry table _ o entries idx htable hentries).resolve_left fun hzero ↦
        not_present_zero (hzero ▸ hpresent)).2
    · rw [if_neg hpresent, if_neg hpresent]

/-- A lookup ends at the last level, in a table of the owner. -/
theorem find_label {indices : List ℕ} {table : ℕ} (h : Owned s label)
    (htable : label table = some (indices.length, o))
    (hfind : find leaf indices s table = some (some pte)) :
    label pte.table = some (0, o) ∧ pte.idx = leaf := by
  induction indices generalizing table with
  | nil =>
    obtain rfl := Option.some.inj (Option.some.inj hfind)
    exact ⟨htable, rfl⟩
  | cons idx indices ih =>
    obtain ⟨hnonzero, hsome⟩ := h.page table _ htable
    obtain ⟨entries, hentries⟩ := Option.isSome_iff_exists.mp hsome
    rw [find, if_neg hnonzero, readEntry_eq hentries, Option.bind_eq_bind, Option.bind_some] at hfind
    split_ifs at hfind with hpresent
    · exact ih ((h.entry table _ o entries idx htable hentries).resolve_left fun hzero ↦
        not_present_zero (hzero ▸ hpresent)).2 hfind
    · exact absurd (Option.some.inj hfind) (by simp)

/-- The child of a top-level table behind an entry that is present. -/
theorem TopLevel.child {idx : ℕ} (h : TopLevel s label root owners entries)
    (hpresent : present (entries idx)) :
    label (ptov (pteAddr (entries idx))) = some (2, owners idx) :=
  ((h.entry idx).resolve_left fun hzero ↦ not_present_zero (hzero ▸ hpresent)).2

/-- A lookup from a top-level table. -/
theorem TopLevel.find_eq (h : TopLevel s label root owners entries) (va : ℕ) :
    find leaf (indices va) s root = if present (entries (pml4 va)) then
      find leaf [Paging.pdpe va, pdx va] s (ptov (pteAddr (entries (pml4 va)))) else some none := by
  rw [indices, find, if_neg h.nonzero, readEntry_eq h.page, Option.bind_eq_bind, Option.bind_some]

/-- A lookup from a top-level table reads the table and those of one owner above the last level. -/
theorem TopLevel.find_congr {va : ℕ} (h : TopLevel s label root owners entries)
    (h' : TopLevel s' label' root owners entries) (howned : Owned s label)
    (hsame : ∀ p n, label p = some (n + 1, owners (pml4 va)) → s'.pages p = s.pages p) :
    find leaf (indices va) s' root = find leaf (indices va) s root := by
  rw [h.find_eq, h'.find_eq]
  by_cases hpresent : present (entries (pml4 va))
  · rw [if_pos hpresent, if_pos hpresent]
    exact Paging.find_congr howned (h.child hpresent) hsame
  · rw [if_neg hpresent, if_neg hpresent]

/-- A lookup from a top-level table ends at the last level, in a table of the owner. -/
theorem TopLevel.find_label {va : ℕ} (h : TopLevel s label root owners entries)
    (howned : Owned s label) (hfind : find leaf (indices va) s root = some (some pte)) :
    label pte.table = some (0, owners (pml4 va)) ∧ pte.idx = leaf := by
  rw [h.find_eq] at hfind
  split_ifs at hfind with hpresent
  · exact Paging.find_label howned (h.child hpresent) hfind
  · exact absurd (Option.some.inj hfind) (by simp)

end Lookups

/-! ### Tables made from the kernel's -/

/-- Who owns the tables behind an entry of a table made by `pml4_create`. -/
def ownerOf (kernelEntries : ℕ → ℕ) (root idx : ℕ) : Owner :=
  if present (kernelEntries idx) then .shared idx else .own root idx

/-- The tables made by `pml4_create` have the kernel's entries, and entries of their own in the
other places. -/
structure Layout (s : Machine) (label : Labels) (base : ℕ) (kernelEntries : ℕ → ℕ)
    (roots : List ℕ) : Prop where
  owned : Owned s label
  kernel : TopLevel s label base .shared kernelEntries
  root : ∀ root ∈ roots, root ≠ base ∧ ∃ entries,
    TopLevel s label root (ownerOf kernelEntries root) entries ∧
      ∀ idx, present (kernelEntries idx) → entries idx = kernelEntries idx

/-- What a walk through a table of the layout changes: the table, and the tables of one owner. -/
def ChangesOnly (s s' : Machine) (label' : Labels) (root : ℕ) (o : Owner) : Prop :=
  ∀ p, p ≠ root → (∀ m, label' p ≠ some (m, o)) → s'.pages p = s.pages p

variable {base upage kpage : ℕ} {kernelEntries : ℕ → ℕ} {roots : List ℕ} {rw ok : Bool}


theorem Layout.of_pages (h : Layout s label base kernelEntries roots) (hpages : s'.pages = s.pages) :
    Layout s' label base kernelEntries roots where
  owned := h.owned.of_pages hpages
  kernel := h.kernel.of_pages hpages
  root root hroot := by
    obtain ⟨hne, entries, htop, hshared⟩ := h.root root hroot
    exact ⟨hne, entries, htop.of_pages hpages, hshared⟩

/-- What a walk through a table reaches keeps the layout, and so does a write to it. -/
theorem Layout.reaches {va last : ℕ} {s₁ : Machine} {page' : ℕ → ℕ}
    (h : Layout s label base kernelEntries roots) (hroot : root ∈ roots)
    (htop : TopLevel s label root (ownerOf kernelEntries root) entries)
    (hshared : ∀ idx, present (kernelEntries idx) → entries idx = kernelEntries idx)
    (hreaches : Reaches s s₁ label label' (ownerOf kernelEntries root (pml4 va)) (ptx va) root
      (pml4 va) [Paging.pdpe va, pdx va] entries last)
    (hpages : s'.pages = s₁.pages.put last page') :
    Layout s' label' base kernelEntries roots where
  owned := hreaches.owned.put_last hreaches.level hpages
  kernel := (hreaches.other (h.root root hroot).1.symm h.kernel).put_last hreaches.level hpages
  root other hother := by
    refine ⟨(h.root other hother).1, ?_⟩
    by_cases hne : other = root
    · obtain ⟨entry, htop', -, hkept⟩ := hreaches.topLevel rfl htop
      refine ⟨_, hne ▸ htop'.put_last hreaches.level hpages, fun idx hpresent ↦ ?_⟩
      by_cases hidx : idx = pml4 va
      · rw [hidx] at hpresent ⊢
        have hentry := hshared _ hpresent
        rw [Function.update_self, hkept (hentry ▸ hpresent), hentry]
      · rw [Function.update_of_ne hidx]
        exact hshared idx hpresent
    · obtain ⟨-, entries', htop', hshared'⟩ := h.root other hother
      exact ⟨entries', (hreaches.other hne htop').put_last hreaches.level hpages, hshared'⟩

/-- A walk through a table of the layout, and a write to the entry that it reaches. -/
theorem Layout.write_entry {va entry : ℕ} {s₁ : Machine} {pte : Slot}
    (h : Layout s label base kernelEntries roots) (hroot : root ∈ roots)
    (hwalk : pml4eWalk s root va true = some (some pte, s₁))
    (hwrite : writeEntry s₁ pte.table pte.idx entry = some s') :
    ∃ label', Layout s' label' base kernelEntries roots ∧
      Extends s label label' (ownerOf kernelEntries root (pml4 va)) ∧
      ChangesOnly s s' label' root (ownerOf kernelEntries root (pml4 va)) ∧
      find (ptx va) (indices va) s' root = some (some pte) ∧
      readEntry s' pte.table pte.idx = some entry := by
  obtain ⟨hne, entries, htop, hshared⟩ := h.root root hroot
  obtain ⟨last, label', hpte, hreaches⟩ :=
    (htop.walk_spec h.owned hwalk).resolve_left fun hnone ↦ by simp at hnone
  obtain rfl := Option.some.inj hpte
  obtain ⟨page, hpage⟩ := Option.isSome_iff_exists.mp (hreaches.owned.page last _ hreaches.level).2
  rw [writeEntry_eq hpage] at hwrite
  obtain rfl := Option.some.inj hwrite
  obtain ⟨entry', htop', -⟩ := hreaches.topLevel rfl htop
  have hlayout : Layout { s₁ with pages := s₁.pages.put last (Function.update page (ptx va) entry) }
      label' base kernelEntries roots := h.reaches hroot htop hshared hreaches rfl
  refine ⟨label', hlayout, hreaches.ext, fun p hp hlabel ↦ ?_, ?_, ?_⟩
  · have hlast : p ≠ last := fun heq ↦ hlabel 0 (heq ▸ hreaches.level)
    exact (Store.put_of_ne _ hlast _).trans (hreaches.same p hp fun m _ ↦ hlabel m)
  · rw [htop'.find_congr (htop'.put_last hreaches.level rfl) hreaches.owned fun p n hp ↦ ?_]
    · exact hreaches.find
    · refine Store.put_of_ne _ ?_ _
      rintro rfl
      rw [hreaches.level] at hp
      exact absurd (Prod.mk.inj (Option.some.inj hp)).1 (by simp)
  · rw [readEntry_eq (Store.put_self ..), Function.update_self]

/-- `pml4_set_page` fails and leaves the pages alone, or maps the page and changes the table and
the tables of one owner. -/
theorem Layout.setPage (h : Layout s label base kernelEntries roots) (hroot : root ∈ roots)
    (hset : pml4SetPage s base root upage kpage rw = some (ok, s')) :
    ok = false ∧ s'.pages = s.pages ∨ ∃ label', ok = true ∧
      Layout s' label' base kernelEntries roots ∧
      Extends s label label' (ownerOf kernelEntries root (pml4 upage)) ∧
      ChangesOnly s s' label' root (ownerOf kernelEntries root (pml4 upage)) ∧
      ∃ pte, find (ptx upage) (indices upage) s' root = some (some pte) ∧
        readEntry s' pte.table pte.idx =
          some (vtop kpage ||| pteP ||| (if rw then pteW else 0) ||| pteU) := by
  obtain ⟨-, -, hset⟩ := Option.bind_eq_some_iff.mp hset
  obtain ⟨⟨pte, s₁⟩, hwalk, hset⟩ := Option.bind_eq_some_iff.mp hset
  cases pte with
  | none =>
    obtain ⟨rfl, rfl⟩ := Prod.mk.inj (Option.some.inj hset)
    obtain ⟨-, entries, htop, -⟩ := h.root root hroot
    exact Or.inl ⟨rfl, ((htop.walk_spec h.owned hwalk).resolve_right fun ⟨_, _, hpte, _⟩ ↦ by
      simp at hpte).2⟩
  | some pte =>
    obtain ⟨-, -, hset⟩ := Option.bind_eq_some_iff.mp hset
    obtain ⟨s₂, hwrite, hset⟩ := Option.bind_eq_some_iff.mp hset
    obtain ⟨rfl, rfl⟩ := Prod.mk.inj (Option.some.inj hset)
    obtain ⟨label', hlayout, hext, hchanges, hfind, hread⟩ := h.write_entry hroot hwalk hwrite
    exact Or.inr ⟨label', rfl, hlayout, hext, hchanges, pte, hfind, hread⟩

/-- `pml4_clear_page` changes the tables of one owner. -/
theorem Layout.clearPage (h : Layout s label base kernelEntries roots) (hroot : root ∈ roots)
    (hclear : pml4ClearPage s root upage = some s') :
    Layout s' label base kernelEntries roots ∧
      ChangesOnly s s' label root (ownerOf kernelEntries root (pml4 upage)) := by
  obtain ⟨-, -, hclear⟩ := Option.bind_eq_some_iff.mp hclear
  obtain ⟨⟨pte, s₁⟩, hwalk, hclear⟩ := Option.bind_eq_some_iff.mp hclear
  rw [pml4eWalk_eq, walk_false] at hwalk
  obtain ⟨pte, hfind, hwalk⟩ := Option.map_eq_some_iff.mp hwalk
  obtain ⟨rfl, rfl⟩ := Prod.mk.inj hwalk
  cases pte with
  | none =>
    obtain rfl := Option.some.inj hclear
    exact ⟨h, fun _ _ _ ↦ rfl⟩
  | some pte =>
    obtain ⟨entry, hread, hclear⟩ := Option.bind_eq_some_iff.mp hclear
    obtain ⟨page, hpage, -⟩ := Option.map_eq_some_iff.mp hread
    obtain ⟨-, entries, htop, -⟩ := h.root root hroot
    have hlabel := (htop.find_label h.owned hfind).1
    split_ifs at hclear
    · rw [writeEntry_eq hpage] at hclear
      obtain rfl := Option.some.inj hclear
      refine ⟨⟨h.owned.put_last hlabel rfl, h.kernel.put_last hlabel rfl, fun other hother ↦ ?_⟩,
        fun p _ hp ↦ ?_⟩
      · obtain ⟨hne, entries', htop', hshared⟩ := h.root other hother
        exact ⟨hne, entries', htop'.put_last hlabel rfl, hshared⟩
      · refine Store.put_of_ne _ ?_ _
        rintro rfl
        exact hp 0 hlabel
    · obtain rfl := Option.some.inj hclear
      exact ⟨h, fun _ _ _ ↦ rfl⟩

theorem TopLevel.put_free {page : ℕ} {page' : ℕ → ℕ} (h : TopLevel s label root owners entries)
    (hfree : IsFreePage s page) (hpages : s'.pages = s.pages.put page page') :
    TopLevel s' label root owners entries where
  nonzero := h.nonzero
  unlabelled := h.unlabelled
  page := by rw [hpages, Store.put_of_ne _ (hfree.ne h.page), h.page]
  entry := h.entry

theorem Owned.put_free {page : ℕ} {page' : ℕ → ℕ} (h : Owned s label)
    (hfree : IsFreePage s page) (hpages : s'.pages = s.pages.put page page') : Owned s' label := by
  have hne : ∀ p x, label p = some x → p ≠ page := by
    rintro p x hp rfl
    rw [h.not_labelled hfree] at hp
    exact absurd hp (by simp)
  refine ⟨fun p x hp ↦ ?_, fun p n o pg i hp hpg ↦ ?_,
    fun p q n n' o o' es es' i j hp hq hes hes' ↦ ?_⟩
  · rw [hpages, Store.put_of_ne _ (hne p _ hp)]
    exact h.page p x hp
  · rw [hpages, Store.put_of_ne _ (hne p _ hp)] at hpg
    exact h.entry p n o pg i hp hpg
  · rw [hpages, Store.put_of_ne _ (hne p _ hp)] at hes
    rw [hpages, Store.put_of_ne _ (hne q _ hq)] at hes'
    exact h.single p q n n' o o' es es' i j hp hq hes hes'

/-- `pml4_create` adds a table to the layout. -/
theorem Layout.create {page : Option ℕ} (h : Layout s label base kernelEntries roots)
    (hcreate : pml4Create s base = some (page, s')) :
    Layout s' label base kernelEntries (page.toList ++ roots) := by
  obtain ⟨⟨page?, s₁⟩, halloc, hcreate⟩ := Option.bind_eq_some_iff.mp hcreate
  rcases pallocGetPage_cases halloc with ⟨rfl, hsame⟩ | ⟨root, rfl, hfree, hpages⟩
  · obtain ⟨rfl, rfl⟩ := Prod.mk.inj (Option.some.inj hcreate)
    exact h.of_pages hsame
  · obtain ⟨copied, hcopied, hcreate⟩ := Option.bind_eq_some_iff.mp hcreate
    obtain ⟨rfl, rfl⟩ := Prod.mk.inj (Option.some.inj hcreate)
    rw [hpages, Store.put_of_ne _ (hfree.ne h.kernel.page), h.kernel.page] at hcopied
    obtain rfl := Option.some.inj hcopied
    have hput : s₁.pages.put root kernelEntries = s.pages.put root kernelEntries := by
      rw [hpages, Store.put, Store.put, Store.put, Function.update_idem]
    refine ⟨h.owned.put_free hfree hput, h.kernel.put_free hfree hput, fun other hother ↦ ?_⟩
    rcases List.mem_cons.mp hother with rfl | hother
    · refine ⟨(hfree.ne h.kernel.page).symm, kernelEntries, ⟨hfree.ne_zero,
        h.owned.not_labelled hfree, Store.put_self .., fun idx ↦ ?_⟩, fun _ _ ↦ rfl⟩
      refine (h.kernel.entry idx).imp_right fun hentry ↦ ⟨hentry.1, ?_⟩
      rw [hentry.2, ownerOf, if_pos hentry.1]
    · obtain ⟨hne, entries, htop, hshared⟩ := h.root other hother
      exact ⟨hne, entries, htop.put_free hfree hput, hshared⟩

/-! ### Pages of users -/

/-- `pml4_get_page` as a lookup. -/
theorem pml4GetPage_eq {v : ℕ} (hv : isUserVaddr v) : pml4GetPage s root v =
    (find (ptx v) (indices v) s root).bind fun pte ↦ match pte with
      | none => some none
      | some pte => (readEntry s pte.table pte.idx).map fun entry ↦
        if present entry then some (ptov (pteAddr entry) + pgOfs v) else none := by
  rw [pml4GetPage, guard, if_pos hv, pml4eWalk_eq, walk_false]
  cases find (ptx v) (indices v) s root with
  | none => rfl
  | some pte =>
    cases pte with
    | none => rfl
    | some pte =>
      simp only [Option.pure_def, Option.bind_eq_bind, Option.bind_some, Option.map_some]
      cases readEntry s pte.table pte.idx with
      | none => rfl
      | some entry => exact apply_ite some _ _ _ |>.symm

/-- A lookup of a page reads the table and the tables of one owner. -/
theorem TopLevel.getPage_congr {v : ℕ} (h : TopLevel s label root owners entries)
    (h' : TopLevel s' label' root owners entries) (howned : Owned s label) (hv : isUserVaddr v)
    (hsame : ∀ p m, label p = some (m, owners (pml4 v)) → s'.pages p = s.pages p) :
    pml4GetPage s' root v = pml4GetPage s root v := by
  rw [pml4GetPage_eq hv, pml4GetPage_eq hv, h.find_congr h' howned fun p n ↦ hsame p (n + 1)]
  cases hfind : find (ptx v) (indices v) s root with
  | none => rfl
  | some pte =>
    cases pte with
    | none => rfl
    | some pte =>
      simp only [Option.bind_some, readEntry, hsame _ _ (h.find_label howned hfind).1]

/-- Two tables that share the entry for an address find the same page there. -/
theorem TopLevel.getPage_shared {v root' : ℕ} {owners' : ℕ → Owner} {entries' : ℕ → ℕ}
    (h : TopLevel s label root owners entries) (h' : TopLevel s label root' owners' entries')
    (hv : isUserVaddr v) (hentry : entries' (pml4 v) = entries (pml4 v)) :
    pml4GetPage s root' v = pml4GetPage s root v := by
  rw [pml4GetPage_eq hv, pml4GetPage_eq hv, h.find_eq, h'.find_eq, hentry]

end Jungle.Paging
