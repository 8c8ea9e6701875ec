import Jungle.Lib.Run
import Jungle.Paging.TopLevel
import Mathlib.Data.Option.Basic

/-!
# Isolation of page tables

Runs of the operations on the tables made by `pml4_create`, after `paging_init`. A table shares the
entries of the kernel's top-level table with all others; a user address behind such an entry is
mapped for all tables at once, and the mappings of the other user addresses are private
(`mappings_private`). `KERN_BASE` is not at the start of its entry, so there are user addresses
behind the entry that it is behind (`sharesEntry_iff`).
-/

set_option autoImplicit false
set_option relaxedAutoImplicit false

namespace Jungle.Paging

open Jungle.Lib

variable {s s' : Machine} {label : Labels} {base : ℕ} {kernelEntries : ℕ → ℕ} {roots : List ℕ}

/-! ### The kernel's table -/

/-- One round of `paging_init` makes at most the entry present that it walks through. -/
theorem Layout.mapKernelPage {kernel : Kernel} {pa : ℕ} (h : Layout s label base kernelEntries [])
    (hmap : mapKernelPage kernel base s pa = some s') : ∃ label' kernelEntries',
      Layout s' label' base kernelEntries' [] ∧
        ∀ idx, present (kernelEntries' idx) → present (kernelEntries idx) ∨ idx = pml4 (ptov pa) := by
  obtain ⟨⟨pte, s₁⟩, hwalk, hmap⟩ := Option.bind_eq_some_iff.mp hmap
  rcases h.kernel.walk_spec h.owned hwalk with ⟨rfl, hsame⟩ | ⟨last, label', rfl, hreaches⟩
  · obtain rfl := Option.some.inj hmap
    exact ⟨label, kernelEntries, h.of_pages hsame, fun _ ↦ Or.inl⟩
  · obtain ⟨page, hpage⟩ :=
      Option.isSome_iff_exists.mp (hreaches.owned.page last _ hreaches.level).2
    change writeEntry s₁ last _ _ = some s' at hmap
    rw [writeEntry_eq hpage] at hmap
    obtain rfl := Option.some.inj hmap
    obtain ⟨entry, htop, -, -⟩ := hreaches.topLevel rfl h.kernel
    refine ⟨label', _, ⟨hreaches.owned.put_last hreaches.level rfl,
      htop.put_last hreaches.level rfl, fun root hroot ↦ absurd hroot List.not_mem_nil⟩,
      fun idx hpresent ↦ ?_⟩
    by_cases hidx : idx = pml4 (ptov pa)
    · exact Or.inr hidx
    · rw [Function.update_of_ne hidx] at hpresent
      exact Or.inl hpresent

/-- Rounds of `paging_init` make at most the entries present that they walk through. -/
theorem Layout.mapKernelPages {kernel : Kernel} {pas : List ℕ}
    (h : Layout s label base kernelEntries [])
    (hmap : pas.foldlM (Paging.mapKernelPage kernel base) s = some s') : ∃ label' kernelEntries',
      Layout s' label' base kernelEntries' [] ∧ ∀ idx, present (kernelEntries' idx) →
        present (kernelEntries idx) ∨ ∃ pa ∈ pas, idx = pml4 (ptov pa) := by
  induction pas generalizing s label kernelEntries with
  | nil =>
    obtain rfl := Option.some.inj hmap
    exact ⟨label, kernelEntries, h, fun _ ↦ Or.inl⟩
  | cons pa pas ih =>
    rw [List.foldlM_cons] at hmap
    obtain ⟨s₁, hfirst, hrest⟩ := Option.bind_eq_some_iff.mp hmap
    obtain ⟨label₁, entries₁, h₁, hpresent₁⟩ := h.mapKernelPage hfirst
    obtain ⟨label', entries', h', hpresent'⟩ := ih h₁ hrest
    refine ⟨label', entries', h', fun idx hidx ↦ ?_⟩
    rcases hpresent' idx hidx with hold | ⟨pa', hpa', hwalked⟩
    · exact (hpresent₁ idx hold).imp_right fun hwalked ↦ ⟨pa, List.mem_cons_self, hwalked⟩
    · exact Or.inr ⟨pa', List.mem_cons_of_mem pa hpa', hwalked⟩

/-- After `paging_init`, the entries of the kernel's table that are present are those of addresses
of physical pages. -/
theorem pagingInit_layout {kernel : Kernel} {memEnd : ℕ}
    (hinit : pagingInit kernel s memEnd = some (base, s')) : ∃ label kernelEntries,
      Layout s' label base kernelEntries [] ∧ ∀ idx, present (kernelEntries idx) →
        ∃ pa ∈ physicalPages memEnd, idx = pml4 (ptov pa) := by
  obtain ⟨⟨page?, s₁⟩, halloc, hinit⟩ := Option.bind_eq_some_iff.mp hinit
  rcases pallocGetPage_cases halloc with ⟨rfl, -⟩ | ⟨page, rfl, hfree, hpages⟩
  · exact absurd hinit (by simp)
  · obtain ⟨s₂, hmap, hinit⟩ := Option.bind_eq_some_iff.mp hinit
    obtain ⟨rfl, rfl⟩ := Prod.mk.inj (Option.some.inj hinit)
    have hlayout : Layout s₁ (fun _ ↦ none) page (fun _ ↦ 0) [] := by
      refine ⟨⟨fun p x hp ↦ ?_, fun p n o _ _ hp ↦ ?_, fun p q n n' o o' _ _ _ _ hp ↦ ?_⟩,
        ⟨hfree.ne_zero, rfl, ?_, fun _ ↦ Or.inl rfl⟩,
        fun root hroot ↦ absurd hroot List.not_mem_nil⟩
      · exact absurd hp (by simp)
      · exact absurd hp (by simp)
      · exact absurd hp (by simp)
      · rw [hpages, Store.put_self]
    obtain ⟨label, entries, h, hpresent⟩ := hlayout.mapKernelPages hmap
    exact ⟨label, entries, h, fun idx hidx ↦
      (hpresent idx hidx).resolve_left not_present_zero⟩

/-! ### Runs -/

/-- The machine and the tables made by `pml4_create`. -/
structure System where
  machine : Machine
  tables : List ℕ

/-- The operations on page tables. -/
inductive Op
  | create
  | setPage (pml4 upage kpage : ℕ) (rw : Bool)
  | clearPage (pml4 upage : ℕ)

/-- The machine before an operation that gets the pages of the list. -/
def Machine.supplied (s : Machine) (supply : List (Option ℕ)) : Machine :=
  { s with supply := supply }

/-- The steps of the system. -/
inductive Step (base : ℕ) : System → Op → System → Prop
  | create {s s' : Machine} {tables : List ℕ} {supply : List (Option ℕ)} {pml4 : Option ℕ}
      (hcreate : pml4Create (s.supplied supply) base = some (pml4, s')) :
      Step base ⟨s, tables⟩ .create ⟨s', pml4.toList ++ tables⟩
  | setPage {s s' : Machine} {tables : List ℕ} {supply : List (Option ℕ)} {pml4 upage kpage : ℕ}
      {rw ok : Bool} (hpml4 : pml4 ∈ tables)
      (hset : pml4SetPage (s.supplied supply) base pml4 upage kpage rw = some (ok, s')) :
      Step base ⟨s, tables⟩ (.setPage pml4 upage kpage rw) ⟨s', tables⟩
  | clearPage {s s' : Machine} {tables : List ℕ} {supply : List (Option ℕ)} {pml4 upage : ℕ}
      (hpml4 : pml4 ∈ tables)
      (hclear : pml4ClearPage (s.supplied supply) pml4 upage = some s') :
      Step base ⟨s, tables⟩ (.clearPage pml4 upage) ⟨s', tables⟩

theorem Layout.supplied (h : Layout s label base kernelEntries roots)
    (supply : List (Option ℕ)) : Layout (s.supplied supply) label base kernelEntries roots :=
  h.of_pages rfl

/-- Every step keeps the layout and the kernel's entries. -/
theorem Step.layout {sys sys' : System} {op : Op}
    (h : ∃ label, Layout sys.machine label base kernelEntries sys.tables)
    (hstep : Step base sys op sys') :
    ∃ label, Layout sys'.machine label base kernelEntries sys'.tables := by
  obtain ⟨label, h⟩ := h
  cases hstep with
  | create hcreate => exact ⟨label, (h.supplied _).create hcreate⟩
  | setPage hpml4 hset =>
    rcases (h.supplied _).setPage hpml4 hset with ⟨-, hsame⟩ | ⟨label', -, h', -⟩
    · exact ⟨label, (h.supplied _).of_pages hsame⟩
    · exact ⟨label', h'⟩
  | clearPage hpml4 hclear => exact ⟨label, ((h.supplied _).clearPage hpml4 hclear).1⟩

/-- Every run after `paging_init` keeps the kernel's entries. -/
theorem run_layout {kernel : Kernel} {s₀ s₁ : Machine} {memEnd : ℕ} {ops : List Op} {sys : System}
    (hinit : pagingInit kernel s₀ memEnd = some (base, s₁))
    (hrun : Run (Step base) ⟨s₁, []⟩ ops sys) : ∃ label₁ label kernelEntries,
      Layout s₁ label₁ base kernelEntries [] ∧
      Layout sys.machine label base kernelEntries sys.tables ∧
      ∀ idx, present (kernelEntries idx) → ∃ pa ∈ physicalPages memEnd, idx = pml4 (ptov pa) := by
  obtain ⟨label₁, kernelEntries, h, hpresent⟩ := pagingInit_layout hinit
  have hstep : ∀ sys op sys', (∃ label, Layout sys.machine label base kernelEntries sys.tables) →
      Step base sys op sys' → ∃ label, Layout sys'.machine label base kernelEntries sys'.tables :=
    fun _ _ _ ↦ Step.layout
  obtain ⟨label, h'⟩ := hrun.invariant hstep ⟨label₁, h⟩
  exact ⟨label₁, label, kernelEntries, h, h', hpresent⟩

/-! ### Private mappings -/

/-- Whether the kernel's table has an entry for the address, which all tables share. -/
def sharesEntry (s : Machine) (base u : ℕ) : Bool := (readEntry s base (pml4 u)).any present

/-- Whether a table maps a page at the address. -/
def mapsPage (s : Machine) (pml4 va : ℕ) : Bool :=
  match pml4eWalk s pml4 va false with
  | some (some pte, s) => (readEntry s pte.table pte.idx).any present
  | _ => false

/-- Setting and clearing the page at an address of one table leaves the other table's pages
alone. -/
def PrivateAt (s : Machine) (base A B u : ℕ) : Prop :=
  ∀ (supply : List (Option ℕ)) (s' : Machine),
    (∃ kpage rw ok, pml4SetPage (s.supplied supply) base A u kpage rw = some (ok, s')) ∨
      pml4ClearPage (s.supplied supply) A u = some s' →
    ∀ v, isUserVaddr v → pml4GetPage s' B v = pml4GetPage s B v

theorem Layout.sharesEntry_eq (h : Layout s label base kernelEntries roots) (u : ℕ) :
    sharesEntry s base u = present (kernelEntries (pml4 u)) := by
  rw [sharesEntry, readEntry_eq h.kernel.page, Option.any_some]

theorem Layout.sharesEntry_of_mapsPage {u : ℕ} (h : Layout s label base kernelEntries roots)
    (hmaps : mapsPage s base u) : present (kernelEntries (pml4 u)) := by
  rw [mapsPage, pml4eWalk_eq, walk_false, h.kernel.find_eq] at hmaps
  by_contra habsent
  rw [if_neg habsent] at hmaps
  exact Bool.false_ne_true hmaps

/-- A change to the tables that one table owns does not show in another table. -/
theorem Layout.getPage_other {label' : Labels} {A B u v : ℕ}
    (h : Layout s label base kernelEntries roots) (h' : Layout s' label' base kernelEntries roots)
    (hkeeps : ∀ p x, label p = some x → label' p = some x)
    (hchanges : ChangesOnly s s' label' A (ownerOf kernelEntries A (pml4 u))) (hA : A ∈ roots)
    (hB : B ∈ roots) (hne : A ≠ B) (habsent : ¬present (kernelEntries (pml4 u)))
    (hv : isUserVaddr v) : pml4GetPage s' B v = pml4GetPage s B v := by
  obtain ⟨-, _, htopA, -⟩ := h'.root A hA
  obtain ⟨-, entries, htop, -⟩ := h.root B hB
  obtain ⟨-, entries', htop', -⟩ := h'.root B hB
  have howner : ownerOf kernelEntries A (pml4 u) = .own A (pml4 u) := if_neg habsent
  rw [howner] at hchanges
  have hpage : s'.pages B = s.pages B := by
    refine hchanges B hne.symm fun m hlabel ↦ ?_
    rw [htop'.unlabelled] at hlabel
    exact absurd hlabel (by simp)
  obtain rfl := Option.some.inj (htop'.page.symm.trans (hpage.trans htop.page))
  refine htop.getPage_congr htop' h.owned hv fun p m hp ↦ hchanges p ?_ fun m' hlabel ↦ ?_
  · rintro rfl
    have hlabel := hkeeps _ _ hp
    rw [htopA.unlabelled] at hlabel
    exact absurd hlabel (by simp)
  · rw [hkeeps p _ hp] at hlabel
    have hsame := (Prod.mk.inj (Option.some.inj hlabel)).2
    unfold ownerOf at hsame
    split_ifs at hsame
    exact hne (Owner.own.inj hsame).1.symm

/-- A mapping at an address without a shared entry is private. -/
theorem Layout.privateAt {A B u : ℕ} (h : Layout s label base kernelEntries roots) (hA : A ∈ roots)
    (hB : B ∈ roots) (hne : A ≠ B) (habsent : ¬present (kernelEntries (pml4 u))) :
    PrivateAt s base A B u := by
  rintro supply s' (⟨kpage, rw, ok, hset⟩ | hclear) v hv
  · rcases (h.supplied supply).setPage hA hset with
      ⟨-, hsame⟩ | ⟨label', -, h', hext, hchanges, -⟩
    · exact h.getPage_other (h.of_pages hsame) (fun _ _ ↦ id) (fun p _ _ ↦ congrFun hsame p)
        hA hB hne habsent hv
    · exact h.getPage_other h' hext.keeps hchanges hA hB hne habsent hv
  · obtain ⟨h', hchanges⟩ := (h.supplied supply).clearPage hA hclear
    exact h.getPage_other h' (fun _ _ ↦ id) hchanges hA hB hne habsent hv

/-- What a set that does not fault was given. -/
theorem pml4SetPage_guard {A u kpage : ℕ} {rw ok : Bool}
    (hset : pml4SetPage s base A u kpage rw = some (ok, s')) :
    pgOfs u = 0 ∧ pgOfs kpage = 0 ∧ isUserVaddr u ∧ A ≠ base := by
  obtain ⟨_, hguard, -⟩ := Option.bind_eq_some_iff.mp hset
  exact (Option.guard_eq_some' _).mp hguard

/-- A page set at an address with a shared entry is there for every table. -/
theorem Layout.getPage_set {A B u kpage : ℕ} {rw : Bool} (hkpage : IsKernelPage kpage)
    (h : Layout s label base kernelEntries roots) (hA : A ∈ roots) (hB : B ∈ roots)
    (hpresent : present (kernelEntries (pml4 u)))
    (hset : pml4SetPage s base A u kpage rw = some (true, s')) :
    pml4GetPage s' B u = some (some kpage) := by
  obtain ⟨hu, -, hv, -⟩ := pml4SetPage_guard hset
  obtain ⟨label', -, h', -, -, pte, hfind, hread⟩ :=
    (h.setPage hA hset).resolve_left fun hfail ↦ by simp at hfail
  obtain ⟨-, entriesA, htopA, hsharedA⟩ := h'.root A hA
  obtain ⟨-, entriesB, htopB, hsharedB⟩ := h'.root B hB
  rw [htopA.getPage_shared htopB hv (by rw [hsharedA _ hpresent, hsharedB _ hpresent]),
    pml4GetPage_eq hv, hfind, Option.bind_some]
  change (readEntry s' pte.table pte.idx).map _ = _
  rw [hread, Option.map_some, if_pos (page_entry hkpage rw).2, (page_entry hkpage rw).1, hu,
    Nat.add_zero]

/-- Where one page can be set, any other one can be. -/
theorem pml4SetPage_kpage {A u kpage kpage' : ℕ} {rw : Bool} (hkpage : IsKernelPage kpage')
    (hset : pml4SetPage s base A u kpage rw = some (true, s')) :
    ∃ s'', pml4SetPage s base A u kpage' rw = some (true, s'') := by
  obtain ⟨hu, -, hv, hA⟩ := pml4SetPage_guard hset
  have hofs : pgOfs kpage' = 0 := (pgOfs_eq kpage').trans hkpage.aligned
  obtain ⟨-, -, hset⟩ := Option.bind_eq_some_iff.mp hset
  obtain ⟨⟨pte, s₁⟩, hwalk, hset⟩ := Option.bind_eq_some_iff.mp hset
  rw [pml4SetPage, guard, if_pos ⟨hu, hofs, hv, hA⟩, hwalk]
  cases pte with
  | none => exact absurd hset (by simp)
  | some pte =>
    obtain ⟨-, -, hset⟩ := Option.bind_eq_some_iff.mp hset
    obtain ⟨s₂, hwrite, -⟩ := Option.bind_eq_some_iff.mp hset
    obtain ⟨page, hpage, -⟩ := Option.bind_eq_some_iff.mp hwrite
    simp only [Option.pure_def, Option.bind_eq_bind, Option.bind_some, guard,
      if_pos hkpage.kernel, writeEntry_eq hpage]
    exact ⟨_, rfl⟩

/-- A mapping at an address with a shared entry is not private, if it can be made. -/
theorem Layout.not_privateAt {A B u kpage : ℕ} {rw : Bool} {supply : List (Option ℕ)}
    (h : Layout s label base kernelEntries roots) (hA : A ∈ roots) (hB : B ∈ roots)
    (hpresent : present (kernelEntries (pml4 u)))
    (hset : pml4SetPage (s.supplied supply) base A u kpage rw = some (true, s')) :
    ¬PrivateAt s base A B u := by
  intro hprivate
  have hpage : ∀ kpage, IsKernelPage kpage → some (some kpage) = pml4GetPage s B u := by
    intro kpage' hkpage
    obtain ⟨s'', hset'⟩ := pml4SetPage_kpage hkpage hset
    rw [← hprivate supply s'' (Or.inl ⟨kpage', rw, true, hset'⟩) u (pml4SetPage_guard hset).2.2.1,
      (h.supplied supply).getPage_set hkpage hA hB hpresent hset']
  have hfirst := hpage kernBase ⟨by decide, by decide, by decide⟩
  have hsecond := hpage (kernBase + pgSize) ⟨by decide, by decide, by decide⟩
  exact absurd (hfirst.trans hsecond.symm) (by decide)

/-- With at most 512 GiB less 64 MiB of memory, of which a page is mapped, the user addresses with a
shared entry are those from `2 ^ 39` on. -/
theorem sharesEntry_iff {kernel : Kernel} {s₀ s₁ : Machine} {memEnd u pa : ℕ} {ops : List Op}
    {sys : System} (hmem : memEnd ≤ 2 ^ 40 - kernBase)
    (hinit : pagingInit kernel s₀ memEnd = some (base, s₁)) (hpa : pa ∈ physicalPages memEnd)
    (hmapped : mapsPage s₁ base (ptov pa)) (hrun : Run (Step base) ⟨s₁, []⟩ ops sys)
    (hu : isUserVaddr u) : sharesEntry sys.machine base u ↔ 2 ^ 39 ≤ u := by
  obtain ⟨label₁, label, kernelEntries, h₁, h, hpresent⟩ := run_layout hinit hrun
  have hone : ∀ pa ∈ physicalPages memEnd, pml4 (ptov pa) = 1 := by
    intro pa' hpa'
    obtain ⟨n, hn, rfl⟩ := List.mem_map.mp hpa'
    have hn := List.mem_range.mp hn
    unfold kernBase at hmem
    rw [pml4, index_eq, ptov]
    unfold pgSize kernBase at *
    omega
  have hshared := h₁.sharesEntry_of_mapsPage hmapped
  rw [hone pa hpa] at hshared
  have hindex : pml4 u = u / 2 ^ 39 % 512 := index_eq u 39
  have huser : u < kernBase := of_decide_eq_true hu
  unfold kernBase at huser
  rw [h.sharesEntry_eq]
  constructor
  · intro hshares
    obtain ⟨pa', hpa', hidx⟩ := hpresent _ hshares
    rw [hone pa' hpa'] at hidx
    omega
  · intro hle
    have hidx : pml4 u = 1 := by omega
    rw [hidx]
    exact hshared

/-- User mappings are private at the addresses without a shared entry and, where there is memory
for the mapping, at no others. -/
theorem mappings_private {kernel : Kernel} {s₀ s₁ : Machine} {memEnd A B u : ℕ} {ops : List Op}
    {sys : System} (hinit : pagingInit kernel s₀ memEnd = some (base, s₁))
    (hrun : Run (Step base) ⟨s₁, []⟩ ops sys) (hA : A ∈ sys.tables) (hB : B ∈ sys.tables)
    (hne : A ≠ B) :
    (¬sharesEntry sys.machine base u → PrivateAt sys.machine base A B u) ∧
      (sharesEntry sys.machine base u → (∃ supply kpage rw s', pml4SetPage
        (sys.machine.supplied supply) base A u kpage rw = some (true, s')) →
          ¬PrivateAt sys.machine base A B u) := by
  obtain ⟨-, label, kernelEntries, -, h, -⟩ := run_layout hinit hrun
  rw [h.sharesEntry_eq]
  constructor
  · exact h.privateAt hA hB hne
  · rintro hpresent ⟨supply, kpage, rw, s', hset⟩
    exact h.not_privateAt hA hB hpresent hset

/-- The page number `n` above the kernel. -/
def nthPage (n : ℕ) : ℕ := kernBase + 0x100000 + pgSize * n

/-- The machine before `paging_init`, with four pages of memory. -/
def bootMachine : Machine := ⟨.empty, (List.range 4).map fun n ↦ some (nthPage n)⟩

/-- Two tables made after `paging_init` has mapped one page of physical memory. -/
theorem exists_two_tables : ∃ base s₁ ops sys A B,
    pagingInit ⟨0, 0⟩ bootMachine pgSize = some (base, s₁) ∧ mapsPage s₁ base (ptov 0) ∧
      Run (Step base) ⟨s₁, []⟩ ops sys ∧ A ∈ sys.tables ∧ B ∈ sys.tables ∧ A ≠ B ∧
      ¬sharesEntry sys.machine base 0x400000 ∧ sharesEntry sys.machine base 0x8000000000 ∧
      ∃ supply kpage rw s', pml4SetPage (sys.machine.supplied supply) base A 0x8000000000 kpage rw =
        some (true, s') := by
  let boot := (pagingInit ⟨0, 0⟩ bootMachine pgSize).get (by decide +kernel)
  let first := (pml4Create (boot.2.supplied [some (nthPage 4)]) boot.1).get (by decide +kernel)
  let second := (pml4Create (first.2.supplied [some (nthPage 5)]) boot.1).get (by decide +kernel)
  let supply := [some (nthPage 6), some (nthPage 7)]
  let set := (pml4SetPage (second.2.supplied supply) boot.1 (nthPage 4) 0x8000000000 (nthPage 8)
    true).get (by decide +kernel)
  let tables := second.1.toList ++ (first.1.toList ++ [])
  have hboot : pagingInit ⟨0, 0⟩ bootMachine pgSize = some boot := (Option.some_get _).symm
  have hfirst : pml4Create (boot.2.supplied [some (nthPage 4)]) boot.1 = some first :=
    (Option.some_get _).symm
  have hsecond : pml4Create (first.2.supplied [some (nthPage 5)]) boot.1 = some second :=
    (Option.some_get _).symm
  have hset : pml4SetPage (second.2.supplied supply) boot.1 (nthPage 4) 0x8000000000 (nthPage 8)
      true = some set := (Option.some_get _).symm
  have hok : set.1 = true := by decide +kernel
  refine ⟨boot.1, boot.2, [.create, .create], ⟨second.2, tables⟩, nthPage 4, nthPage 5, hboot,
    by decide +kernel, .cons (.create hfirst) (.single (.create hsecond)), by decide +kernel,
    by decide +kernel, by decide +kernel, by decide +kernel, by decide +kernel, supply, nthPage 8,
    true, set.2, ?_⟩
  rw [hset, ← hok]

/-- A program's address is private to its table, and one page above the first 512 GiB is not. -/
theorem mappings_private_first : ∃ base s₁ ops sys A B,
    pagingInit ⟨0, 0⟩ bootMachine pgSize = some (base, s₁) ∧ Run (Step base) ⟨s₁, []⟩ ops sys ∧
      A ∈ sys.tables ∧ B ∈ sys.tables ∧ PrivateAt sys.machine base A B 0x400000 ∧
      ¬PrivateAt sys.machine base A B 0x8000000000 := by
  obtain ⟨base, s₁, ops, sys, A, B, hinit, -, hrun, hA, hB, hne, hown, hshared, hroom⟩ :=
    exists_two_tables
  exact ⟨base, s₁, ops, sys, A, B, hinit, hrun, hA, hB,
    (mappings_private hinit hrun hA hB hne).1 hown,
    (mappings_private hinit hrun hA hB hne).2 hshared hroom⟩

/-- Not all user mappings are private: those at `0x8000000000` are not. -/
theorem not_mappings_private : ¬∀ (kernel : Kernel) (s₀ s₁ : Machine) (memEnd base : ℕ)
    (ops : List Op) (sys : System) (A B u : ℕ),
    pagingInit kernel s₀ memEnd = some (base, s₁) →
      (∃ pa ∈ physicalPages memEnd, mapsPage s₁ base (ptov pa)) →
      Run (Step base) ⟨s₁, []⟩ ops sys → A ∈ sys.tables → B ∈ sys.tables → A ≠ B →
      pgOfs u = 0 → isUserVaddr u → PrivateAt sys.machine base A B u := by
  intro hclaim
  obtain ⟨base, s₁, ops, sys, A, B, hinit, hmaps, hrun, hA, hB, hne, -, hshared, hroom⟩ :=
    exists_two_tables
  obtain ⟨supply, kpage, rw, s', hset⟩ := hroom
  obtain ⟨-, label, kernelEntries, -, h, -⟩ := run_layout hinit hrun
  rw [h.sharesEntry_eq] at hshared
  exact h.not_privateAt hA hB hshared hset (hclaim _ _ _ _ _ _ _ A B 0x8000000000 hinit
    ⟨0, by decide, hmaps⟩ hrun hA hB hne (by decide) (by decide))

end Jungle.Paging
