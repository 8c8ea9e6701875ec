import Jungle.Paging.Destroy
import Jungle.Paging.Updates

/-!
# Address spaces

What `pml4_create`, `setup_stack` and `pml4_destroy` make of the pages in use. A page belongs to the kernel, or
it is a table of one address space, or one entry of these tables maps it, or it has just been got (`Spaces`).
So the tables with the pages that they map are a forest (`Spaces.forest`), and the pages of an address space
are those that `pml4_destroy` gives back (`Spaces.holds_iff`). A page is one of one address space
(`Spaces.holds_apart`), and each page in use that is not the kernel's is one (`Spaces.used_iff`).
-/

set_option autoImplicit false
set_option relaxedAutoImplicit false

namespace Jungle.Paging

open Jungle.Lib

/-- The pages of an address space: its top-level table, the tables behind the first entry, and the pages that
they map. -/
def Holds (pages : Store (ℕ → ℕ)) (A page : ℕ) : Prop :=
  page = A ∨ ∃ c, LeadsTo pages A 0 c ∧ PagesBelow pages 3 c page

/-- An entry of a last-level table of an address space maps the page. -/
def Maps (s : Machine) (label : Labels) (A table i page : ℕ) : Prop :=
  label table = some (0, .own A 0) ∧ LeadsTo s.pages table i page

/-- The pages in use are those of the kernel, which stay as they are, the tables of the address spaces, the
pages that one entry of them maps, and perhaps a page that has just been got. -/
structure Spaces (kernelPages : Store (ℕ → ℕ)) (base : ℕ) (kernelEntries : ℕ → ℕ) (s : Machine)
    (label : Labels) (roots : List ℕ) (loose : Option ℕ) : Prop where
  layout : Layout s label base kernelEntries roots
  vacant : ¬present (kernelEntries 0)
  home : (kernelPages base).isSome
  mine : ∀ p n A i, label p = some (n, .own A i) → A ∈ roots ∧ i = 0 ∧ n ≤ 2
  parent : ∀ p n A, label p = some (n, .own A 0) → n < 2 →
    ∃ q i, label q = some (n + 1, .own A 0) ∧ LeadsTo s.pages q i p
  top : ∀ p A, label p = some (2, .own A 0) → LeadsTo s.pages A 0 p
  plain : ∀ A t i p, Maps s label A t i p →
    (s.pages p).isSome ∧ label p = none ∧ p ∉ roots ∧ loose ≠ some p ∧ kernelPages p = none
  once : ∀ A B t u i j p, Maps s label A t i p → Maps s label B u j p → t = u ∧ i = j
  kernel : ∀ p entries, kernelPages p = some entries →
    s.pages p = some entries ∧ p ∉ roots ∧ loose ≠ some p ∧ ∀ n A i, label p ≠ some (n, .own A i)
  spare : ∀ p, loose = some p → (s.pages p).isSome ∧ label p = none ∧ p ∉ roots
  used : ∀ p, (s.pages p).isSome → (kernelPages p).isSome ∨ p ∈ roots ∨ loose = some p ∨
    (∃ n A, label p = some (n, .own A 0)) ∨ ∃ A t i, Maps s label A t i p

variable {kernelPages : Store (ℕ → ℕ)} {base : ℕ} {kernelEntries entries : ℕ → ℕ} {s s' s₁ : Machine}
  {label label' : Labels} {roots : List ℕ} {loose : Option ℕ} {A B p q t i j n idx page table : ℕ}

/-! ### The forest -/

theorem LeadsTo.present {pages : Store (ℕ → ℕ)} (h : LeadsTo pages p i q) (hentries : pages p = some entries) :
    i < 512 ∧ present (entries i) ∧ ptov (pteAddr (entries i)) = q := by
  obtain ⟨entries', hentries', hi, hchild⟩ := h
  obtain rfl := Option.some.inj (hentries.symm.trans hentries')
  exact ⟨hi, childOf_eq_some.mp hchild⟩

theorem leadsTo_of_present {pages : Store (ℕ → ℕ)} (hentries : pages p = some entries) (hi : i < 512)
    (hpresent : present (entries i)) : LeadsTo pages p i (ptov (pteAddr (entries i))) :=
  ⟨entries, hentries, hi, if_pos hpresent⟩

/-- An entry of a table above the last level leads to one of the next level. -/
theorem Owned.leadsTo {o : Owner} (h : Owned s label) (hp : label p = some (n + 1, o))
    (hleads : LeadsTo s.pages p i q) : label q = some (n, o) := by
  obtain ⟨entries, hentries⟩ := Option.isSome_iff_exists.mp (h.page p _ hp).2
  obtain ⟨-, hpresent, rfl⟩ := hleads.present hentries
  exact h.child hp hentries hpresent

/-- The tables of all address spaces by their levels, and the pages that they map. -/
def Kind (s : Machine) (label : Labels) : ℕ → ℕ → Prop
  | 0, p => ∃ A t i, Maps s label A t i p
  | n + 1, p => ∃ A, label p = some (n, .own A 0)

theorem Spaces.forest (h : Spaces kernelPages base kernelEntries s label roots loose) :
    Forest childOf 512 s.pages (Kind s label) where
  used n p hp := by
    cases n with
    | zero =>
      obtain ⟨A, t, i, hmaps⟩ := hp
      exact (h.plain A t i p hmaps).1
    | succ n =>
      obtain ⟨A, hlabel⟩ := hp
      exact (h.layout.owned.page p _ hlabel).2
  height n m p hp hp' := by
    have hmapped : ∀ k, Kind s label 0 p → ¬Kind s label (k + 1) p := by
      rintro k ⟨A, t, i, hmaps⟩ ⟨B, hlabel⟩
      have hnone := (h.plain A t i p hmaps).2.1
      rw [hlabel] at hnone
      exact Option.some_ne_none _ hnone
    cases n with
    | zero =>
      cases m with
      | zero => rfl
      | succ m => exact absurd hp' (hmapped m hp)
    | succ n =>
      cases m with
      | zero => exact absurd hp (hmapped n hp')
      | succ m =>
        obtain ⟨A, hlabel⟩ := hp
        obtain ⟨B, hlabel'⟩ := hp'
        have heq := Option.some.inj (hlabel.symm.trans hlabel')
        exact congrArg (· + 1) (Prod.mk.inj heq).1
  next n p i q hp hleads := by
    obtain ⟨A, hlabel⟩ := hp
    cases n with
    | zero => exact ⟨A, p, i, hlabel, hleads⟩
    | succ n => exact ⟨A, h.layout.owned.leadsTo hlabel hleads⟩
  single n m p q i j c hp hq hleads hleads' := by
    obtain ⟨A, hlabel⟩ := hp
    obtain ⟨B, hlabel'⟩ := hq
    have howned := h.layout.owned
    have hmapped : ∀ {k x y i j A B}, label x = some (0, .own A 0) → LeadsTo s.pages x i c →
        label y = some (k + 1, .own B 0) → ¬LeadsTo s.pages y j c := by
      intro k x y i j A B hx hxc hy hyc
      have hnone := (h.plain A x i c ⟨hx, hxc⟩).2.1
      rw [howned.leadsTo hy hyc] at hnone
      exact Option.some_ne_none _ hnone
    cases n with
    | zero =>
      cases m with
      | zero => exact h.once A B p q i j c ⟨hlabel, hleads⟩ ⟨hlabel', hleads'⟩
      | succ m => exact absurd hleads' (hmapped hlabel hleads hlabel')
    | succ n =>
      cases m with
      | zero => exact absurd hleads (hmapped hlabel' hleads' hlabel)
      | succ m =>
        obtain ⟨es, hes⟩ := Option.isSome_iff_exists.mp (howned.page p _ hlabel).2
        obtain ⟨es', hes'⟩ := Option.isSome_iff_exists.mp (howned.page q _ hlabel').2
        obtain ⟨-, hpresent, hchild⟩ := LeadsTo.present hleads hes
        obtain ⟨-, hpresent', hchild'⟩ := LeadsTo.present hleads' hes'
        exact howned.single p q n m _ _ es es' i j hlabel hlabel' hes hes' hpresent hpresent'
          (hchild.trans hchild'.symm)

/-! ### The pages of an address space -/

/-- What is below a table of an address space. -/
theorem Owned.below (h : Owned s label) (hp : label p = some (n, .own A 0))
    (hbelow : PagesBelow s.pages (n + 1) p q) :
    (∃ m, label q = some (m, .own A 0)) ∨ ∃ t i, Maps s label A t i q := by
  induction n generalizing p with
  | zero =>
    rcases hbelow with rfl | ⟨i, c, hleads, rfl⟩
    · exact Or.inl ⟨0, hp⟩
    · exact Or.inr ⟨p, i, hp, hleads⟩
  | succ n ih =>
    rcases hbelow with rfl | ⟨i, c, hleads, hbelow⟩
    · exact Or.inl ⟨n + 1, hp⟩
    · exact ih (h.leadsTo hp hleads) hbelow

/-- The page that has just been got is not one of the kernel. -/
theorem Spaces.not_kernel (h : Spaces kernelPages base kernelEntries s label roots loose)
    (hp : loose = some p) : kernelPages p = none := by
  refine Option.eq_none_iff_forall_ne_some.mpr fun es hes ↦ ?_
  exact (h.kernel p es hes).2.2.1 hp

/-- The first entry of a top-level table leads to a table of the address space. -/
theorem Spaces.top_label (h : Spaces kernelPages base kernelEntries s label roots loose) (hA : A ∈ roots)
    (hleads : LeadsTo s.pages A 0 p) : label p = some (2, .own A 0) := by
  obtain ⟨-, entries, htop, -⟩ := h.layout.root A hA
  obtain ⟨-, hpresent, rfl⟩ := hleads.present htop.page
  rw [htop.child hpresent, ownerOf, if_neg h.vacant]

/-- The pages of an address space are its tables and the pages that they map. -/
theorem Spaces.holds_iff (h : Spaces kernelPages base kernelEntries s label roots loose) (hA : A ∈ roots) :
    Holds s.pages A p ↔ p = A ∨ (∃ n, label p = some (n, .own A 0)) ∨ ∃ t i, Maps s label A t i p := by
  refine or_congr_right ⟨?_, fun hkind ↦ ?_⟩
  · rintro ⟨c, hleads, hbelow⟩
    exact h.layout.owned.below (h.top_label hA hleads) hbelow
  · have htwo : ∀ q, label q = some (2, .own A 0) → LeadsTo s.pages A 0 q := fun q ↦ h.top q A
    have hone : ∀ q, label q = some (1, .own A 0) →
        ∃ c i, LeadsTo s.pages A 0 c ∧ LeadsTo s.pages c i q := by
      intro q hq
      obtain ⟨c, i, hc, hleads⟩ := h.parent q 1 A hq (by decide)
      exact ⟨c, i, htwo c hc, hleads⟩
    have hzero : ∀ q, label q = some (0, .own A 0) →
        ∃ c d i j, LeadsTo s.pages A 0 c ∧ LeadsTo s.pages c i d ∧ LeadsTo s.pages d j q := by
      intro q hq
      obtain ⟨d, j, hd, hleads⟩ := h.parent q 0 A hq (by decide)
      obtain ⟨c, i, hc, hleads'⟩ := hone d hd
      exact ⟨c, d, i, j, hc, hleads', hleads⟩
    rcases hkind with ⟨n, hlabel⟩ | ⟨t, k, ht, hleads⟩
    · have hn := (h.mine p n A 0 hlabel).2.2
      have hcases : n = 0 ∨ n = 1 ∨ n = 2 := by omega
      rcases hcases with rfl | rfl | rfl
      · obtain ⟨c, d, i, j, hc, hd, hp⟩ := hzero p hlabel
        exact ⟨c, hc, Or.inr ⟨i, d, hd, Or.inr ⟨j, p, hp, Or.inl rfl⟩⟩⟩
      · obtain ⟨c, i, hc, hp⟩ := hone p hlabel
        exact ⟨c, hc, Or.inr ⟨i, p, hp, Or.inl rfl⟩⟩
      · exact ⟨p, htwo p hlabel, Or.inl rfl⟩
    · obtain ⟨c, d, i, j, hc, hd, ht'⟩ := hzero t ht
      exact ⟨c, hc, Or.inr ⟨i, d, hd, Or.inr ⟨j, t, ht', Or.inr ⟨k, p, hleads, rfl⟩⟩⟩⟩

theorem Spaces.holds_of_label (h : Spaces kernelPages base kernelEntries s label roots loose)
    (hlabel : label p = some (n, .own A 0)) : A ∈ roots ∧ Holds s.pages A p := by
  have hA := (h.mine p n A 0 hlabel).1
  exact ⟨hA, (h.holds_iff hA).mpr (Or.inr (Or.inl ⟨n, hlabel⟩))⟩

theorem Spaces.holds_of_maps (h : Spaces kernelPages base kernelEntries s label roots loose)
    (hmaps : Maps s label A t i p) : A ∈ roots ∧ Holds s.pages A p := by
  have hA := (h.mine t 0 A 0 hmaps.1).1
  exact ⟨hA, (h.holds_iff hA).mpr (Or.inr (Or.inr ⟨t, i, hmaps⟩))⟩

theorem Spaces.root_used (h : Spaces kernelPages base kernelEntries s label roots loose) (hA : A ∈ roots) :
    (s.pages A).isSome ∧ label A = none := by
  obtain ⟨-, entries, htop, -⟩ := h.layout.root A hA
  exact ⟨htop.page ▸ rfl, htop.unlabelled⟩

/-- The pages of an address space are in use, and none of them is the kernel's. -/
theorem Spaces.holds_used (h : Spaces kernelPages base kernelEntries s label roots loose)
    (hA : A ∈ roots) (hp : Holds s.pages A p) : (s.pages p).isSome ∧ kernelPages p = none := by
  rcases (h.holds_iff hA).mp hp with rfl | ⟨n, hlabel⟩ | ⟨t, i, hmaps⟩
  · refine ⟨(h.root_used hA).1, Option.eq_none_iff_forall_ne_some.mpr fun es hes ↦ ?_⟩
    exact (h.kernel p es hes).2.1 hA
  · refine ⟨(h.layout.owned.page p _ hlabel).2, Option.eq_none_iff_forall_ne_some.mpr fun es hes ↦ ?_⟩
    exact (h.kernel p es hes).2.2.2 n A 0 hlabel
  · obtain ⟨hused, -, -, -, hkernel⟩ := h.plain A t i p hmaps
    exact ⟨hused, hkernel⟩

/-- A page is one of one address space. -/
theorem Spaces.holds_apart (h : Spaces kernelPages base kernelEntries s label roots loose)
    (hA : A ∈ roots) (hB : B ∈ roots) (hp : Holds s.pages A p) (hp' : Holds s.pages B p) : A = B := by
  have hroot : ∀ {n C}, p ∈ roots → label p ≠ some (n, .own C 0) := by
    intro n C hmem hlabel
    exact Option.some_ne_none _ (hlabel.symm.trans (h.root_used hmem).2)
  have hplain : ∀ {C t i}, Maps s label C t i p → label p = none ∧ p ∉ roots := by
    intro C t i hmaps
    obtain ⟨-, hlabel, hout, -⟩ := h.plain C t i p hmaps
    exact ⟨hlabel, hout⟩
  rcases (h.holds_iff hA).mp hp with rfl | ⟨n, hlabel⟩ | ⟨t, i, hmaps⟩
  · rcases (h.holds_iff hB).mp hp' with rfl | ⟨m, hlabel⟩ | ⟨u, j, hmaps⟩
    · rfl
    · exact absurd hlabel (hroot hA)
    · exact absurd hA (hplain hmaps).2
  · rcases (h.holds_iff hB).mp hp' with rfl | ⟨m, hlabel'⟩ | ⟨u, j, hmaps⟩
    · exact absurd hlabel (hroot hB)
    · exact (Owner.own.inj (Prod.mk.inj (Option.some.inj (hlabel.symm.trans hlabel'))).2).1
    · exact absurd (hlabel.symm.trans (hplain hmaps).1) (Option.some_ne_none _)
  · rcases (h.holds_iff hB).mp hp' with rfl | ⟨m, hlabel⟩ | ⟨u, j, hmaps'⟩
    · exact absurd hB (hplain hmaps).2
    · exact absurd (hlabel.symm.trans (hplain hmaps).1) (Option.some_ne_none _)
    · obtain ⟨rfl, -⟩ := h.once A B t u i j p hmaps hmaps'
      exact (Owner.own.inj (Prod.mk.inj (Option.some.inj (hmaps.1.symm.trans hmaps'.1))).2).1

/-- The pages in use. -/
theorem Spaces.used_iff (h : Spaces kernelPages base kernelEntries s label roots none) :
    (s.pages p).isSome ↔ (kernelPages p).isSome ∨ ∃ A ∈ roots, Holds s.pages A p := by
  constructor
  · intro hp
    rcases h.used p hp with hkernel | hroot | hloose | ⟨n, A, hlabel⟩ | ⟨A, t, i, hmaps⟩
    · exact Or.inl hkernel
    · exact Or.inr ⟨p, hroot, Or.inl rfl⟩
    · exact absurd hloose.symm (Option.some_ne_none p)
    · exact Or.inr ⟨A, h.holds_of_label hlabel⟩
    · exact Or.inr ⟨A, h.holds_of_maps hmaps⟩
  · rintro (hkernel | ⟨A, hA, hp⟩)
    · obtain ⟨es, hes⟩ := Option.isSome_iff_exists.mp hkernel
      exact (h.kernel p es hes).1 ▸ rfl
    · exact (h.holds_used hA hp).1

/-! ### Changes of the store -/

/-- The layout depends on the tables only. -/
theorem Layout.of_agree (h : Layout s label base kernelEntries roots)
    (hsame : ∀ p, (label p).isSome ∨ p = base ∨ p ∈ roots → s'.pages p = s.pages p) :
    Layout s' label base kernelEntries roots where
  owned := by
    have hlabelled : ∀ p x, label p = some x → s'.pages p = s.pages p := fun p x hp ↦
      hsame p (Or.inl (hp ▸ rfl))
    refine ⟨fun p x hp ↦ ?_, fun p n o es i hp hes ↦ ?_, fun p q n m o o' es es' i j hp hq hes hes' ↦ ?_⟩
    · rw [hlabelled p x hp]
      exact h.owned.page p x hp
    · rw [hlabelled p _ hp] at hes
      exact h.owned.entry p n o es i hp hes
    · rw [hlabelled p _ hp] at hes
      rw [hlabelled q _ hq] at hes'
      exact h.owned.single p q n m o o' es es' i j hp hq hes hes'
  kernel := ⟨h.kernel.nonzero, h.kernel.unlabelled,
    (hsame base (Or.inr (Or.inl rfl))).trans h.kernel.page, h.kernel.entry⟩
  root root hroot := by
    obtain ⟨hne, entries, htop, hshared⟩ := h.root root hroot
    exact ⟨hne, entries, ⟨htop.nonzero, htop.unlabelled,
      (hsame root (Or.inr (Or.inr hroot))).trans htop.page, htop.entry⟩, hshared⟩

theorem Layout.put_last {o : Owner} {contents : ℕ → ℕ} (h : Layout s label base kernelEntries roots)
    (hlabel : label table = some (0, o)) (hpages : s'.pages = s.pages.put table contents) :
    Layout s' label base kernelEntries roots where
  owned := h.owned.put_last hlabel hpages
  kernel := h.kernel.put_last hlabel hpages
  root root hroot := by
    obtain ⟨hne, entries, htop, hshared⟩ := h.root root hroot
    exact ⟨hne, entries, htop.put_last hlabel hpages, hshared⟩

/-- A page of zeros leads nowhere. -/
theorem leadsTo_put_zero {pages : Store (ℕ → ℕ)} (hfree : pages page = none) :
    LeadsTo (pages.put page fun _ ↦ 0) p i q ↔ LeadsTo pages p i q := by
  by_cases hp : p = page
  · subst hp
    refine iff_of_false (fun hleads ↦ ?_) fun hleads ↦ ?_
    · exact not_present_zero (hleads.present (Store.put_self ..)).2.1
    · obtain ⟨entries, hentries, -⟩ := hleads
      exact Option.some_ne_none entries (hentries.symm.trans hfree)
  · unfold LeadsTo HasChild
    rw [Store.put_of_ne _ hp]

/-- A new entry leads to its page. -/
theorem leadsTo_put_entry {pages : Store (ℕ → ℕ)} {entry : ℕ} (hentries : pages table = some entries)
    (habsent : ¬present (entries idx)) (hidx : idx < 512) (hpresent : present entry)
    (hchild : ptov (pteAddr entry) = page) :
    LeadsTo (pages.put table (Function.update entries idx entry)) p i q ↔
      (p = table ∧ i = idx ∧ q = page) ∨ LeadsTo pages p i q := by
  by_cases hp : p = table
  · subst hp
    by_cases hi : i = idx
    · subst hi
      constructor
      · intro hleads
        have hnew := (hleads.present (Store.put_self ..)).2.2
        rw [Function.update_self, hchild] at hnew
        exact Or.inl ⟨rfl, rfl, hnew.symm⟩
      · rintro (⟨-, -, rfl⟩ | hleads)
        · refine ⟨_, Store.put_self .., hidx, ?_⟩
          rw [childOf_eq_some, Function.update_self]
          exact ⟨hpresent, hchild⟩
        · exact absurd (hleads.present hentries).2.1 habsent
    · have hsame : childOf (Function.update entries idx entry) i = childOf entries i := by
        unfold childOf
        rw [Function.update_of_ne hi]
      constructor
      · rintro ⟨es, hes, hlt, hc⟩
        obtain rfl := Option.some.inj ((Store.put_self ..).symm.trans hes)
        exact Or.inr ⟨entries, hentries, hlt, hsame ▸ hc⟩
      · rintro (⟨-, heq, -⟩ | ⟨es, hes, hlt, hc⟩)
        · exact absurd heq hi
        · obtain rfl := Option.some.inj (hentries.symm.trans hes)
          exact ⟨_, Store.put_self .., hlt, hsame.trans hc⟩
  · unfold LeadsTo HasChild
    rw [Store.put_of_ne _ hp]
    exact (or_iff_right fun hnew ↦ hp hnew.1).symm

theorem IsFreePage.ne_of_used (hfree : IsFreePage s page) (hp : (s.pages p).isSome) : p ≠ page := by
  rintro rfl
  rw [hfree.2.2.2] at hp
  exact Bool.false_ne_true hp

theorem isSome_linkPage (hused : (s.pages p).isSome) : (linkPage s table idx page entries p).isSome := by
  rw [linkPage, Store.isSome_put, Store.isSome_put]
  exact Or.inr (Or.inr hused)

/-- A new table behind an entry. -/
theorem leadsTo_linkPage (hfree : IsFreePage s page) (hentries : s.pages table = some entries)
    (habsent : ¬present (entries idx)) (hidx : idx < 512) :
    LeadsTo (linkPage s table idx page entries) p i q ↔
      (p = table ∧ i = idx ∧ q = page) ∨ LeadsTo s.pages p i q := by
  have hentry := table_entry hfree.isKernelPage
  rw [linkPage, leadsTo_put_entry ((Store.put_of_ne _ (hfree.ne hentries) _).trans hentries) habsent hidx
    hentry.2 hentry.1, leadsTo_put_zero hfree.2.2.2]

/-! ### A new table -/

theorem TopLevel.keep {root : ℕ} {owners : ℕ → Owner} (h : TopLevel s label root owners entries)
    (hpage : s'.pages root = s.pages root) (hkeep : ∀ p x, label p = some x → label' p = some x)
    (hunlabelled : label' root = none) : TopLevel s' label' root owners entries :=
  ⟨h.nonzero, hunlabelled, hpage.trans h.page, fun idx ↦
    (h.entry idx).imp_right fun hentry ↦ ⟨hentry.1, hkeep _ _ hentry.2⟩⟩

/-- Where an address space gets a new table: behind the first entry of its top-level table, or behind an entry
of a table that it has. -/
def Place (label : Labels) (A n table idx : ℕ) : Prop :=
  (table = A ∧ idx = 0 ∧ n = 2) ∨ label table = some (n + 1, .own A 0)

theorem Layout.place_label {o : Owner} (h : Layout s label base kernelEntries roots) (hA : A ∈ roots)
    (hplace : Place label A n table idx) (hm : label table = some (j, o)) : j = n + 1 ∧ o = .own A 0 := by
  rcases hplace with ⟨rfl, -, -⟩ | hlabelled
  · obtain ⟨-, es, htop, -⟩ := h.root table hA
    exact absurd (hm.symm.trans htop.unlabelled) (Option.some_ne_none _)
  · exact Prod.mk.inj (Option.some.inj (hm.symm.trans hlabelled))

/-- The label of a new table leaves the others as they are. -/
theorem Owned.update_label {x y : ℕ × Owner} (h : Owned s label) (hfree : IsFreePage s page)
    (hp : label p = some x) : Function.update label page (some y) p = some x := by
  rw [Function.update_of_ne, hp]
  rintro rfl
  exact Option.some_ne_none x (hp.symm.trans (h.not_labelled hfree))

/-- A new table in its place keeps the layout. -/
theorem Layout.link (h : Layout s label base kernelEntries roots) (hvacant : ¬present (kernelEntries 0))
    (hA : A ∈ roots) (hfree : IsFreePage s page) (hentries : s.pages table = some entries)
    (hplace : Place label A n table idx) (hpages : s'.pages = linkPage s table idx page entries) :
    Layout s' (Function.update label page (some (n, .own A 0))) base kernelEntries roots := by
  have hne : table ≠ page := hfree.ne hentries
  have hkeep : ∀ p x, label p = some x → Function.update label page (some (n, .own A 0)) p = some x :=
    fun p x ↦ h.owned.update_label hfree
  have hother : ∀ {root owners es}, TopLevel s label root owners es → root ≠ table →
      TopLevel s' (Function.update label page (some (n, .own A 0))) root owners es := by
    intro root owners es htop hroot
    have hpage : root ≠ page := hfree.ne htop.page
    refine htop.keep ?_ hkeep ((Function.update_of_ne hpage ..).trans htop.unlabelled)
    rw [hpages, linkPage_of_ne hroot hpage]
  have hunlabelled : ∀ {root owners es}, TopLevel s label root owners es → root = table → table = A := by
    rintro root owners es htop rfl
    refine (hplace.resolve_right fun hlabelled ↦ ?_).1
    exact Option.some_ne_none _ (hlabelled.symm.trans htop.unlabelled)
  obtain ⟨hbase, -⟩ := h.root A hA
  refine ⟨h.owned.linkPage hfree hentries (fun m o' hm ↦ ?_) hpages, hother h.kernel fun heq ↦ ?_,
    fun root hroot ↦ ?_⟩
  · exact h.place_label hA hplace hm
  · exact hbase ((heq.trans (hunlabelled h.kernel heq)).symm)
  · obtain ⟨hroot', es, htop, hshared⟩ := h.root root hroot
    refine ⟨hroot', ?_⟩
    by_cases htable : root = table
    swap
    · exact ⟨es, hother htop htable, hshared⟩
    obtain rfl := hunlabelled htop htable
    subst htable
    obtain ⟨-, rfl, rfl⟩ := hplace.resolve_right fun hlabelled ↦
      Option.some_ne_none _ (hlabelled.symm.trans htop.unlabelled)
    obtain rfl := Option.some.inj (htop.page.symm.trans hentries)
    have hentry := table_entry hfree.isKernelPage
    refine ⟨Function.update es 0 (vtop page ||| pteU ||| pteW ||| pteP), ⟨htop.nonzero,
      (Function.update_of_ne hne ..).trans htop.unlabelled, ?_, fun j ↦ ?_⟩, fun j hj ↦ ?_⟩
    · rw [hpages, linkPage, Store.put_self]
    · by_cases hj : j = 0
      · rw [hj, Function.update_self, hentry.1, Function.update_self, ownerOf, if_neg hvacant]
        exact Or.inr ⟨hentry.2, rfl⟩
      · rw [Function.update_of_ne hj]
        exact (htop.entry j).imp_right fun hchild ↦ ⟨hchild.1, hkeep _ _ hchild.2⟩
    · have hj' : j ≠ 0 := by
        rintro rfl
        exact hvacant hj
      rw [Function.update_of_ne hj']
      exact hshared j hj

/-- A new table maps no page. -/
theorem Spaces.maps_link (h : Spaces kernelPages base kernelEntries s label roots loose) (hA : A ∈ roots)
    (hfree : IsFreePage s page) (hentries : s.pages table = some entries) (habsent : ¬present (entries idx))
    (hidx : idx < 512) (hplace : Place label A n table idx)
    (hpages : s'.pages = linkPage s table idx page entries) :
    Maps s' (Function.update label page (some (n, .own A 0))) B t i p ↔ Maps s label B t i p := by
  unfold Maps
  rw [hpages, leadsTo_linkPage hfree hentries habsent hidx]
  constructor
  · rintro ⟨ht, hold⟩
    have hne : t ≠ page := by
      rintro rfl
      rcases hold with ⟨rfl, -, -⟩ | ⟨es, hes, -⟩
      · exact hfree.ne hentries rfl
      · exact Option.some_ne_none es (hes.symm.trans hfree.2.2.2)
    rw [Function.update_of_ne hne] at ht
    refine ⟨ht, hold.resolve_left ?_⟩
    rintro ⟨rfl, -, -⟩
    exact absurd (h.layout.place_label hA hplace ht).1 (Nat.succ_ne_zero n).symm
  · rintro ⟨ht, hold⟩
    exact ⟨h.layout.owned.update_label hfree ht, Or.inr hold⟩

/-- A new table in its place. -/
theorem Spaces.link (h : Spaces kernelPages base kernelEntries s label roots loose) (hA : A ∈ roots)
    (hfree : IsFreePage s page) (hentries : s.pages table = some entries) (habsent : ¬present (entries idx))
    (hidx : idx < 512) (hplace : Place label A n table idx)
    (hpages : s'.pages = linkPage s table idx page entries) :
    Spaces kernelPages base kernelEntries s' (Function.update label page (some (n, .own A 0))) roots
      loose := by
  have hself : Function.update label page (some (n, Owner.own A 0)) page = some (n, .own A 0) :=
    Function.update_self ..
  have hother : ∀ p, p ≠ page → Function.update label page (some (n, .own A 0)) p = label p :=
    fun p hp ↦ Function.update_of_ne hp ..
  have hkeep : ∀ p x, label p = some x → Function.update label page (some (n, .own A 0)) p = some x :=
    fun p x ↦ h.layout.owned.update_label hfree
  have hused : ∀ p, (s.pages p).isSome → p ≠ page := fun p ↦ hfree.ne_of_used
  have hleads : ∀ {p i q}, LeadsTo s'.pages p i q ↔
      (p = table ∧ i = idx ∧ q = page) ∨ LeadsTo s.pages p i q := by
    intro p i q
    rw [hpages]
    exact leadsTo_linkPage hfree hentries habsent hidx
  have hleads' : ∀ {p i q}, LeadsTo s.pages p i q → LeadsTo s'.pages p i q := fun hold ↦
    hleads.mpr (Or.inr hold)
  have hmaps : ∀ {B t i p},
      Maps s' (Function.update label page (some (n, .own A 0))) B t i p ↔ Maps s label B t i p :=
    h.maps_link hA hfree hentries habsent hidx hplace hpages
  refine
    { layout := h.layout.link h.vacant hA hfree hentries hplace hpages
      vacant := h.vacant
      home := h.home
      mine := fun p m B i hp ↦ ?_
      parent := fun p m B hp hm ↦ ?_
      top := fun p B hp ↦ ?_
      plain := fun B t i p hp ↦ ?_
      once := fun B C t u i j p hp hp' ↦ h.once B C t u i j p (hmaps.mp hp) (hmaps.mp hp')
      kernel := fun p es hp ↦ ?_
      spare := fun p hp ↦ ?_
      used := fun p hp ↦ ?_ }
  · by_cases hpage : p = page
    · subst hpage
      obtain ⟨rfl, howner⟩ := Prod.mk.inj (Option.some.inj (hself.symm.trans hp))
      obtain ⟨rfl, rfl⟩ := Owner.own.inj howner
      refine ⟨hA, rfl, ?_⟩
      rcases hplace with ⟨-, -, rfl⟩ | hlabelled
      · exact Nat.le_refl 2
      · exact Nat.le_of_succ_le (h.mine table (n + 1) A 0 hlabelled).2.2
    · exact h.mine p m B i (hother p hpage ▸ hp)
  · by_cases hpage : p = page
    · subst hpage
      obtain ⟨rfl, howner⟩ := Prod.mk.inj (Option.some.inj (hself.symm.trans hp))
      obtain ⟨rfl, -⟩ := Owner.own.inj howner
      have hlabelled := hplace.resolve_left fun htop ↦ absurd (htop.2.2 ▸ hm) (Nat.lt_irrefl 2)
      exact ⟨table, idx, hkeep table _ hlabelled, hleads.mpr (Or.inl ⟨rfl, rfl, rfl⟩)⟩
    · obtain ⟨q, i, hq, hold⟩ := h.parent p m B (hother p hpage ▸ hp) hm
      exact ⟨q, i, hkeep q _ hq, hleads' hold⟩
  · by_cases hpage : p = page
    · subst hpage
      obtain ⟨rfl, howner⟩ := Prod.mk.inj (Option.some.inj (hself.symm.trans hp))
      obtain ⟨rfl, -⟩ := Owner.own.inj howner
      obtain ⟨rfl, rfl, -⟩ := hplace.resolve_right fun hlabelled ↦
        absurd (h.mine table 3 A 0 hlabelled).2.2 (by decide)
      exact hleads.mpr (Or.inl ⟨rfl, rfl, rfl⟩)
    · exact hleads' (h.top p B (hother p hpage ▸ hp))
  · obtain ⟨hsome, hrest⟩ := h.plain B t i p (hmaps.mp hp)
    rw [hother p (hused p hsome)]
    exact ⟨hpages ▸ isSome_linkPage hsome, hrest⟩
  · obtain ⟨hold, hroot, hloose, hown⟩ := h.kernel p es hp
    have hne : p ≠ page := hused p (hold ▸ rfl)
    have hne' : p ≠ table := by
      rintro rfl
      rcases hplace with ⟨rfl, -, -⟩ | hlabelled
      · exact hroot hA
      · exact hown _ _ _ hlabelled
    rw [hother p hne, hpages, linkPage_of_ne hne' hne]
    exact ⟨hold, hroot, hloose, hown⟩
  · obtain ⟨hsome, hrest⟩ := h.spare p hp
    rw [hother p (hused p hsome)]
    exact ⟨hpages ▸ isSome_linkPage hsome, hrest⟩
  · by_cases hpage : p = page
    · exact Or.inr (Or.inr (Or.inr (Or.inl ⟨n, A, hpage ▸ hself⟩)))
    · have hold : (s.pages p).isSome := by
        by_cases hpt : p = table
        · rw [hpt, hentries]
          rfl
        · rwa [hpages, linkPage_of_ne hpt hpage] at hp
      refine (h.used p hold).imp_right (Or.imp_right (Or.imp_right ?_))
      rintro (⟨m, B, hm⟩ | ⟨B, t, i, hold⟩)
      · exact Or.inl ⟨m, B, hkeep p _ hm⟩
      · exact Or.inr ⟨B, t, i, hmaps.mpr hold⟩

/-! ### Walks -/

/-- A step of a walk that does not fail: to the table behind the entry, or to a new one in its place. -/
theorem Spaces.walkLevel {next : Machine → ℕ → Option (Option Slot × Machine)} {slot : Slot}
    (h : Spaces kernelPages base kernelEntries s label roots loose) (hA : A ∈ roots) (htable : table ≠ 0)
    (hentries : s.pages table = some entries) (hidx : idx < 512) (hplace : Place label A n table idx)
    (hchild : present (entries idx) → label (ptov (pteAddr (entries idx))) = some (n, .own A 0))
    (hnext : ∀ s label table, Spaces kernelPages base kernelEntries s label roots loose →
      label table = some (n, .own A 0) → next s table = some (some slot, s') →
      ∃ label', Spaces kernelPages base kernelEntries s' label' roots loose ∧
        label' slot.table = some (0, .own A 0))
    (hwalk : Paging.walkLevel next s table idx true = some (some slot, s')) :
    ∃ label', Spaces kernelPages base kernelEntries s' label' roots loose ∧
      label' slot.table = some (0, .own A 0) := by
  rcases walkLevel_cases htable hentries hwalk with ⟨hpresent, hrest⟩ | ⟨-, hnone, -⟩ |
    ⟨habsent, page, s₁, s₂, hfree, hpages, hrest, hresult⟩
  · exact hnext s label _ h (hchild hpresent) hrest
  · exact absurd hnone (Option.some_ne_none slot)
  · rcases hresult with ⟨_, -, rfl⟩ | ⟨hnone, -⟩
    · exact hnext s₁ _ page (h.link hA hfree hentries habsent hidx hplace hpages)
        (Function.update_self ..) hrest
    · exact absurd hnone (Option.some_ne_none slot)

/-- A walk from a table of an address space that does not fail. -/
theorem Spaces.walk {slot : Slot} (leaf : ℕ) (indices : List ℕ) (hA : A ∈ roots)
    (hindices : ∀ i ∈ indices, i < 512) (h : Spaces kernelPages base kernelEntries s label roots loose)
    (htable : label table = some (indices.length, .own A 0))
    (hwalk : Paging.walk leaf true indices s table = some (some slot, s')) :
    ∃ label', Spaces kernelPages base kernelEntries s' label' roots loose ∧
      label' slot.table = some (0, .own A 0) := by
  induction indices generalizing s label table with
  | nil =>
    obtain ⟨hslot, rfl⟩ := Prod.mk.inj (Option.some.inj hwalk)
    obtain rfl := Option.some.inj hslot
    exact ⟨label, h, htable⟩
  | cons idx indices ih =>
    obtain ⟨hnonzero, hsome⟩ := h.layout.owned.page table _ htable
    obtain ⟨entries, hentries⟩ := Option.isSome_iff_exists.mp hsome
    exact h.walkLevel hA hnonzero hentries (hindices idx List.mem_cons_self) (Or.inr htable)
      (h.layout.owned.child htable hentries)
      (fun s label table ↦ ih fun i hi ↦ hindices i (List.mem_cons_of_mem idx hi)) hwalk

theorem index_lt (la shift : ℕ) : (la >>> shift) &&& 0x1FF < 512 := by
  rw [index_eq]
  exact Nat.mod_lt _ (by decide)

/-- A walk from a top-level table to an address behind the first entry that does not fail. -/
theorem Spaces.pml4eWalk {slot : Slot} {u : ℕ} (h : Spaces kernelPages base kernelEntries s label roots loose)
    (hA : A ∈ roots) (hu : pml4 u = 0) (hwalk : Paging.pml4eWalk s A u true = some (some slot, s')) :
    ∃ label', Spaces kernelPages base kernelEntries s' label' roots loose ∧
      label' slot.table = some (0, .own A 0) := by
  obtain ⟨-, entries, htop, -⟩ := h.layout.root A hA
  rw [pml4eWalk_eq, indices, hu] at hwalk
  refine h.walkLevel hA htop.nonzero htop.page (by decide) (n := 2) (Or.inl ⟨rfl, rfl, rfl⟩)
    (fun hpresent ↦ ?_) (fun s label table hs htable ↦ hs.walk (ptx u) [Paging.pdpe u, pdx u] hA ?_ htable)
    hwalk
  · rw [htop.child hpresent, ownerOf, if_neg h.vacant]
  · intro i hi
    rcases List.mem_cons.mp hi with rfl | hi
    · exact index_lt ..
    · rw [List.mem_singleton.mp hi]
      exact index_lt ..

end Jungle.Paging
