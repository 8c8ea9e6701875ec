import Jungle.Paging.Spaces

/-!
# The pages of address spaces

What the calls of `process.c` and `mmu.c` do to the pages in use (`Spaces`): a page is got, filled, given back
or mapped, an address space is made from the kernel's top-level table, and one is destroyed, which gives back
its pages and no other ones (`Spaces.destroy`).
-/

set_option autoImplicit false
set_option relaxedAutoImplicit false

namespace Jungle.Paging

open Jungle.Lib

variable {kernelPages : Store (ℕ → ℕ)} {base : ℕ} {kernelEntries entries : ℕ → ℕ} {s s' : Machine}
  {label : Labels} {roots : List ℕ} {loose : Option ℕ} {A B p page table idx : ℕ}

/-! ### Pages that are not tables -/

/-- Another page may be in use or not, and hold anything. -/
theorem Spaces.of_agree {loose' : Option ℕ}
    (h : Spaces kernelPages base kernelEntries s label roots loose)
    (hsame : ∀ p, (label p).isSome ∨ p ∈ roots ∨ (kernelPages p).isSome → s'.pages p = s.pages p)
    (hmapped : ∀ B t i p, Maps s label B t i p → (s'.pages p).isSome ∧ loose' ≠ some p)
    (hspare : ∀ p, loose' = some p →
      (s'.pages p).isSome ∧ label p = none ∧ p ∉ roots ∧ kernelPages p = none)
    (hused : ∀ p, (s'.pages p).isSome → (s.pages p).isSome ∧ loose ≠ some p ∨ loose' = some p) :
    Spaces kernelPages base kernelEntries s' label roots loose' := by
  have hleads : ∀ {p i q}, (label p).isSome ∨ p ∈ roots → (LeadsTo s'.pages p i q ↔ LeadsTo s.pages p i q) := by
    intro p i q hp
    unfold LeadsTo HasChild
    rw [hsame p (hp.imp_right Or.inl)]
  have hmaps : ∀ {B t i p}, Maps s' label B t i p ↔ Maps s label B t i p := fun {B t i p} ↦
    and_congr_right fun ht ↦ hleads (Or.inl (ht ▸ rfl))
  refine
    { layout := h.layout.of_agree fun p hp ↦ hsame p ?_
      vacant := h.vacant
      home := h.home
      mine := h.mine
      parent := fun p n A hp hn ↦ ?_
      top := fun p A hp ↦ (hleads (Or.inr (h.mine p 2 A 0 hp).1)).mpr (h.top p A hp)
      plain := fun B t i p hp ↦ ?_
      once := fun B C t u i j p hp hp' ↦ h.once B C t u i j p (hmaps.mp hp) (hmaps.mp hp')
      kernel := fun p es hp ↦ ?_
      spare := fun p hp ↦ ⟨(hspare p hp).1, (hspare p hp).2.1, (hspare p hp).2.2.1⟩
      used := fun p hp ↦ ?_ }
  · rcases hp with hp | rfl | hp
    · exact Or.inl hp
    · exact Or.inr (Or.inr h.home)
    · exact Or.inr (Or.inl hp)
  · obtain ⟨q, i, hq, hold⟩ := h.parent p n A hp hn
    exact ⟨q, i, hq, (hleads (Or.inl (hq ▸ rfl))).mpr hold⟩
  · obtain ⟨-, hnone, hroot, -, hkernel⟩ := h.plain B t i p (hmaps.mp hp)
    obtain ⟨hsome, hloose⟩ := hmapped B t i p (hmaps.mp hp)
    exact ⟨hsome, hnone, hroot, hloose, hkernel⟩
  · obtain ⟨hold, hroot, -, hown⟩ := h.kernel p es hp
    refine ⟨(hsame p (Or.inr (Or.inr (hp ▸ rfl)))).trans hold, hroot, fun hloose ↦ ?_, hown⟩
    exact Option.some_ne_none es (hp.symm.trans (hspare p hloose).2.2.2)
  · rcases hused p hp with ⟨hold, hne⟩ | hloose
    · rcases h.used p hold with hkernel | hroot | hloose | hlabelled | ⟨B, t, i, hmapped⟩
      · exact Or.inl hkernel
      · exact Or.inr (Or.inl hroot)
      · exact absurd hloose hne
      · exact Or.inr (Or.inr (Or.inr (Or.inl hlabelled)))
      · exact Or.inr (Or.inr (Or.inr (Or.inr ⟨B, t, i, hmaps.mpr hmapped⟩)))
    · exact Or.inr (Or.inr (Or.inl hloose))

theorem Spaces.of_pages (h : Spaces kernelPages base kernelEntries s label roots loose)
    (hpages : s'.pages = s.pages) : Spaces kernelPages base kernelEntries s' label roots loose := by
  refine h.of_agree (fun p _ ↦ congrFun hpages p) (fun B t i p hp ↦ ?_) (fun p hp ↦ ?_) fun p hp ↦ ?_
  · obtain ⟨hsome, -, -, hloose, -⟩ := h.plain B t i p hp
    exact ⟨hpages ▸ hsome, hloose⟩
  · obtain ⟨hsome, hnone, hroot⟩ := h.spare p hp
    exact ⟨hpages ▸ hsome, hnone, hroot, h.not_kernel hp⟩
  · rw [hpages] at hp
    by_cases hloose : loose = some p
    · exact Or.inr hloose
    · exact Or.inl ⟨hp, hloose⟩

theorem Spaces.supplied (h : Spaces kernelPages base kernelEntries s label roots loose)
    (supply : List (Option ℕ)) :
    Spaces kernelPages base kernelEntries (s.supplied supply) label roots loose :=
  h.of_pages rfl

/-- `palloc_get_page` gets a page. -/
theorem Spaces.take {contents : ℕ → ℕ} (h : Spaces kernelPages base kernelEntries s label roots none)
    (hfree : IsFreePage s page) (hpages : s'.pages = s.pages.put page contents) :
    Spaces kernelPages base kernelEntries s' label roots (some page) := by
  have hold : ∀ p, (s.pages p).isSome → s'.pages p = s.pages p := by
    intro p hp
    rw [hpages, Store.put_of_ne _ (hfree.ne_of_used hp)]
  have hnew : ∀ p, some page = some p → ¬(s.pages p).isSome := fun p heq hp ↦
    hfree.ne_of_used hp (Option.some.inj heq).symm
  have hkernel : ∀ p, (kernelPages p).isSome → (s.pages p).isSome := fun p hp ↦
    h.used_iff.mpr (Or.inl hp)
  have hroot : ∀ p ∈ roots, (s.pages p).isSome := fun p hp ↦ (h.root_used hp).1
  refine h.of_agree (fun p hp ↦ hold p ?_) (fun B t i p hp ↦ ?_) (fun p hp ↦ ?_) fun p hp ↦ ?_
  · rcases hp with hp | hp | hp
    · obtain ⟨x, hx⟩ := Option.isSome_iff_exists.mp hp
      exact (h.layout.owned.page p x hx).2
    · exact hroot p hp
    · exact hkernel p hp
  · have hsome := (h.plain B t i p hp).1
    exact ⟨hold p hsome ▸ hsome, fun heq ↦ hnew p heq hsome⟩
  · obtain rfl := Option.some.inj hp
    refine ⟨hpages ▸ Store.put_self .. ▸ rfl, h.layout.owned.not_labelled hfree,
      fun hmem ↦ hnew page rfl (hroot page hmem), ?_⟩
    exact Option.not_isSome_iff_eq_none.mp fun hsome ↦ hnew page rfl (hkernel page hsome)
  · by_cases heq : p = page
    · exact Or.inr (heq ▸ rfl)
    · rw [hpages, Store.put_of_ne _ heq] at hp
      exact Or.inl ⟨hp, fun hnone ↦ Option.some_ne_none p hnone.symm⟩

/-- A page that is not a table may be written. -/
theorem Spaces.put {contents : ℕ → ℕ} (h : Spaces kernelPages base kernelEntries s label roots loose)
    (hused : (s.pages page).isSome) (hlabel : label page = none) (hroot : page ∉ roots)
    (hkernel : kernelPages page = none) (hpages : s'.pages = s.pages.put page contents) :
    Spaces kernelPages base kernelEntries s' label roots loose := by
  have hsome : ∀ p, (s'.pages p).isSome ↔ (s.pages p).isSome := by
    intro p
    rw [hpages, Store.isSome_put]
    refine or_iff_right_of_imp ?_
    rintro rfl
    exact hused
  refine h.of_agree (fun p hp ↦ ?_) (fun B t i p hp ↦ ?_) (fun p hp ↦ ?_) fun p hp ↦ ?_
  · rw [hpages, Store.put_of_ne]
    rintro rfl
    rw [hlabel, hkernel] at hp
    rcases hp with hp | hp | hp
    · exact Bool.false_ne_true hp
    · exact hroot hp
    · exact Bool.false_ne_true hp
  · obtain ⟨hold, -, -, hloose, -⟩ := h.plain B t i p hp
    exact ⟨(hsome p).mpr hold, hloose⟩
  · obtain ⟨hold, hnone, hout⟩ := h.spare p hp
    exact ⟨(hsome p).mpr hold, hnone, hout, h.not_kernel hp⟩
  · by_cases hloose : loose = some p
    · exact Or.inr hloose
    · exact Or.inl ⟨(hsome p).mp hp, hloose⟩

/-- The page that has just been got is given back. -/
theorem Spaces.give (h : Spaces kernelPages base kernelEntries s label roots (some page))
    (hpages : s'.pages = s.pages.free page) : Spaces kernelPages base kernelEntries s' label roots none := by
  obtain ⟨-, hlabel, hroot⟩ := h.spare page rfl
  have hkernel := h.not_kernel rfl
  have hold : ∀ p, p ≠ page → s'.pages p = s.pages p := by
    intro p hp
    rw [hpages, Store.free_of_ne _ hp]
  refine h.of_agree (fun p hp ↦ hold p ?_) (fun B t i p hp ↦ ?_) (fun p hp ↦ ?_) fun p hp ↦ ?_
  · rintro rfl
    rw [hlabel, hkernel] at hp
    rcases hp with hp | hp | hp
    · exact Bool.false_ne_true hp
    · exact hroot hp
    · exact Bool.false_ne_true hp
  · obtain ⟨hsome, -, -, hloose, -⟩ := h.plain B t i p hp
    have hne : p ≠ page := fun heq ↦ hloose (congrArg some heq.symm)
    exact ⟨hold p hne ▸ hsome, fun hnone ↦ Option.some_ne_none p hnone.symm⟩
  · exact absurd hp.symm (Option.some_ne_none p)
  · have hne : p ≠ page := by
      rintro rfl
      rw [hpages, Store.free_self] at hp
      exact Bool.false_ne_true hp
    exact Or.inl ⟨hold p hne ▸ hp, fun heq ↦ hne (Option.some.inj heq).symm⟩

/-- The page that has just been got is mapped. -/
theorem Spaces.map {entry : ℕ} (h : Spaces kernelPages base kernelEntries s label roots (some page))
    (htable : label table = some (0, .own A 0)) (hentries : s.pages table = some entries)
    (habsent : ¬present (entries idx)) (hidx : idx < 512) (hpresent : present entry)
    (hchild : ptov (pteAddr entry) = page)
    (hpages : s'.pages = s.pages.put table (Function.update entries idx entry)) :
    Spaces kernelPages base kernelEntries s' label roots none := by
  have hleads : ∀ {p i q}, LeadsTo s'.pages p i q ↔
      (p = table ∧ i = idx ∧ q = page) ∨ LeadsTo s.pages p i q := by
    intro p i q
    rw [hpages]
    exact leadsTo_put_entry hentries habsent hidx hpresent hchild
  have hmaps : ∀ {B t i p}, Maps s' label B t i p →
      (t = table ∧ i = idx ∧ p = page) ∨ Maps s label B t i p := fun hp ↦
    (hleads.mp hp.2).imp_right fun hold ↦ ⟨hp.1, hold⟩
  have hsome : ∀ p, (s.pages p).isSome → (s'.pages p).isSome := by
    intro p hp
    rw [hpages, Store.isSome_put]
    exact Or.inr hp
  have hold : ∀ {B t i}, ¬Maps s label B t i page := fun hp ↦ (h.plain _ _ _ page hp).2.2.2.1 rfl
  refine
    { layout := h.layout.put_last htable hpages
      vacant := h.vacant
      home := h.home
      mine := h.mine
      parent := fun p n B hp hn ↦ ?_
      top := fun p B hp ↦ hleads.mpr (Or.inr (h.top p B hp))
      plain := fun B t i p hp ↦ ?_
      once := fun B C t u i j p hp hp' ↦ ?_
      kernel := fun p es hp ↦ ?_
      spare := fun p hp ↦ absurd hp.symm (Option.some_ne_none p)
      used := fun p hp ↦ ?_ }
  · obtain ⟨q, i, hq, hchild⟩ := h.parent p n B hp hn
    exact ⟨q, i, hq, hleads.mpr (Or.inr hchild)⟩
  · have hnone : none ≠ some p := fun hnone ↦ Option.some_ne_none p hnone.symm
    rcases hmaps hp with ⟨-, -, rfl⟩ | hp
    · obtain ⟨hused, hlabel, hroot⟩ := h.spare p rfl
      exact ⟨hsome p hused, hlabel, hroot, hnone, h.not_kernel rfl⟩
    · obtain ⟨hused, hlabel, hroot, -, hkernel⟩ := h.plain B t i p hp
      exact ⟨hsome p hused, hlabel, hroot, hnone, hkernel⟩
  · rcases hmaps hp with ⟨rfl, rfl, rfl⟩ | hp
    · rcases hmaps hp' with ⟨rfl, rfl, -⟩ | hp'
      · exact ⟨rfl, rfl⟩
      · exact absurd hp' hold
    · rcases hmaps hp' with ⟨rfl, rfl, rfl⟩ | hp'
      · exact absurd hp hold
      · exact h.once B C t u i j p hp hp'
  · obtain ⟨hkept, hroot, -, hown⟩ := h.kernel p es hp
    refine ⟨?_, hroot, fun hnone ↦ Option.some_ne_none p hnone.symm, hown⟩
    rw [hpages, Store.put_of_ne, hkept]
    rintro rfl
    exact hown _ _ _ htable
  · have hused : (s.pages p).isSome := by
      rw [hpages, Store.isSome_put] at hp
      refine hp.elim (fun heq ↦ ?_) id
      rw [heq, hentries]
      rfl
    rcases h.used p hused with hkernel | hroot | hloose | hlabelled | ⟨B, t, i, ht, hmapped⟩
    · exact Or.inl hkernel
    · exact Or.inr (Or.inl hroot)
    · obtain rfl := Option.some.inj hloose
      exact Or.inr (Or.inr (Or.inr (Or.inr ⟨A, table, idx, htable, hleads.mpr (Or.inl ⟨rfl, rfl, rfl⟩)⟩)))
    · exact Or.inr (Or.inr (Or.inr (Or.inl hlabelled)))
    · exact Or.inr (Or.inr (Or.inr (Or.inr ⟨B, t, i, ht, hleads.mpr (Or.inr hmapped)⟩)))

/-- `pml4_set_page` at an address where nothing is mapped maps the page that has just been got, or fails. -/
theorem Spaces.setPage {u k : ℕ} {rw ok : Bool}
    (h : Spaces kernelPages base kernelEntries s label roots (some k)) (hA : A ∈ roots)
    (hk : IsKernelPage k) (hu : pml4 u = 0) (hnone : pml4GetPage s A u = some none)
    (hset : pml4SetPage s base A u k rw = some (ok, s')) :
    ok = false ∧ s'.pages = s.pages ∨
      ok = true ∧ ∃ label', Spaces kernelPages base kernelEntries s' label' roots none := by
  obtain ⟨-, -, huser, -⟩ := pml4SetPage_guard hset
  obtain ⟨-, topEntries, htop, -⟩ := h.layout.root A hA
  obtain ⟨-, -, hset⟩ := Option.bind_eq_some_iff.mp hset
  obtain ⟨⟨pte, s₁⟩, hwalk, hset⟩ := Option.bind_eq_some_iff.mp hset
  have hspec := htop.walk_spec h.layout.owned hwalk
  cases pte with
  | none =>
    obtain ⟨rfl, rfl⟩ := Prod.mk.inj (Option.some.inj hset)
    exact Or.inl ⟨rfl, (hspec.resolve_right fun ⟨_, _, hpte, _⟩ ↦ by simp at hpte).2⟩
  | some pte =>
    obtain ⟨-, -, hset⟩ := Option.bind_eq_some_iff.mp hset
    obtain ⟨s₂, hwrite, hset⟩ := Option.bind_eq_some_iff.mp hset
    obtain ⟨rfl, rfl⟩ := Prod.mk.inj (Option.some.inj hset)
    obtain ⟨last, label₁, hpte, hreaches⟩ := hspec.resolve_left fun hfail ↦ by simp at hfail
    obtain rfl := Option.some.inj hpte
    obtain ⟨label', h', hlast⟩ := h.pml4eWalk hA hu hwalk
    obtain ⟨entries, hentries⟩ := Option.isSome_iff_exists.mp (h'.layout.owned.page last _ hlast).2
    have habsent : ¬present (entries (ptx u)) := by
      have hentry : entryAt (ptx u) (indices u) s₁ A = entryAt (ptx u) (indices u) s A :=
        htop.walk_entryAt h.layout.owned hwalk
      rw [pml4GetPage_entryAt huser, ← hentry, entryAt, indices] at hnone
      intro hpresent
      rw [hreaches.find, Option.bind_some] at hnone
      dsimp only at hnone
      rw [readEntry_eq hentries, Option.map_some, if_pos hpresent] at hnone
      exact Option.some_ne_none _ (Option.some.inj hnone)
    rw [writeEntry_eq hentries] at hwrite
    obtain rfl := Option.some.inj hwrite
    have hentry := page_entry hk rw
    exact Or.inr ⟨rfl, label', h'.map hlast hentries habsent (index_lt ..) hentry.2 hentry.1 rfl⟩

/-! ### New address spaces -/

/-- `pml4_create` makes an address space of the page that has just been got. -/
theorem Spaces.create (h : Spaces kernelPages base kernelEntries s label roots none) {root : Option ℕ}
    (hcreate : pml4Create s base = some (root, s')) :
    Spaces kernelPages base kernelEntries s' label (root.toList ++ roots) none := by
  have hlayout := h.layout.create hcreate
  obtain ⟨⟨page?, s₁⟩, halloc, hcreate⟩ := Option.bind_eq_some_iff.mp hcreate
  rcases pallocGetPage_cases halloc with ⟨rfl, hsame⟩ | ⟨A, rfl, hfree, hpages⟩
  · obtain ⟨rfl, rfl⟩ := Prod.mk.inj (Option.some.inj hcreate)
    exact h.of_pages hsame
  · obtain ⟨copied, hcopied, hcreate⟩ := Option.bind_eq_some_iff.mp hcreate
    obtain ⟨rfl, rfl⟩ := Prod.mk.inj (Option.some.inj hcreate)
    have h₁ := h.take hfree hpages
    obtain ⟨-, hlabel, hroot⟩ := h₁.spare A rfl
    have h₂ : Spaces kernelPages base kernelEntries { s₁ with pages := s₁.pages.put A copied } label roots
        (some A) :=
      h₁.put (h₁.spare A rfl).1 hlabel hroot (h₁.not_kernel rfl) rfl
    refine
      { layout := hlayout
        vacant := h.vacant
        home := h.home
        mine := fun p n B i hp ↦ ?_
        parent := h₂.parent
        top := h₂.top
        plain := fun B t i p hp ↦ ?_
        once := h₂.once
        kernel := fun p es hp ↦ ?_
        spare := fun p hp ↦ absurd hp.symm (Option.some_ne_none p)
        used := fun p hp ↦ ?_ }
    · obtain ⟨hB, hrest⟩ := h₂.mine p n B i hp
      exact ⟨List.mem_cons_of_mem A hB, hrest⟩
    · obtain ⟨hused, hnone, hout, hloose, hkernel⟩ := h₂.plain B t i p hp
      exact ⟨hused, hnone, List.not_mem_cons_of_ne_of_not_mem (fun heq ↦ hloose (congrArg some heq.symm))
        hout, fun hnone ↦ Option.some_ne_none p hnone.symm, hkernel⟩
    · obtain ⟨hkept, hout, hloose, hown⟩ := h₂.kernel p es hp
      exact ⟨hkept, List.not_mem_cons_of_ne_of_not_mem (fun heq ↦ hloose (congrArg some heq.symm)) hout,
        fun hnone ↦ Option.some_ne_none p hnone.symm, hown⟩
    · rcases h₂.used p hp with hkernel | hroot | hloose | hrest
      · exact Or.inl hkernel
      · exact Or.inr (Or.inl (List.mem_cons_of_mem A hroot))
      · exact Or.inr (Or.inl (Option.some.inj hloose ▸ List.mem_cons_self))
      · exact Or.inr (Or.inr (Or.inr hrest))

/-! ### Fewer address spaces -/

/-- The labels of the tables that the kernel's entries and the listed top-level tables own. -/
def Labels.within (label : Labels) (roots : List ℕ) : Labels := fun p ↦
  (label p).filter fun x ↦ match x.2 with
    | .shared _ => true
    | .own A _ => decide (A ∈ roots)

theorem within_eq_some {n : ℕ} {o : Owner} : label.within roots p = some (n, o) ↔
    label p = some (n, o) ∧ ∀ A i, o = .own A i → A ∈ roots := by
  rw [Labels.within, Option.filter_eq_some_iff]
  refine and_congr_right fun _ ↦ ?_
  cases o with
  | shared i => exact iff_of_true rfl fun A j heq ↦ Owner.noConfusion heq
  | own A i =>
    rw [decide_eq_true_iff]
    constructor
    · rintro hA B j heq
      exact (Owner.own.inj heq).1 ▸ hA
    · exact fun hA ↦ hA A i rfl

theorem within_own {n i : ℕ} : label.within roots p = some (n, .own A i) ↔
    label p = some (n, .own A i) ∧ A ∈ roots := by
  rw [within_eq_some]
  refine and_congr_right fun _ ↦ ⟨fun hA ↦ hA A i rfl, fun hA B j heq ↦ ?_⟩
  exact (Owner.own.inj heq).1 ▸ hA

theorem within_none (h : label p = none) : label.within roots p = none := by
  rw [Labels.within, h, Option.filter_none]

theorem TopLevel.within {owners : ℕ → Owner} (h : TopLevel s label A owners entries)
    (howners : ∀ i B j, owners i = .own B j → B ∈ roots) :
    TopLevel s (label.within roots) A owners entries :=
  ⟨h.nonzero, within_none h.unlabelled, h.page, fun i ↦ (h.entry i).imp_right fun hentry ↦
    ⟨hentry.1, within_eq_some.mpr ⟨hentry.2, howners i⟩⟩⟩

/-- Some of the tables made from the kernel's. -/
theorem Layout.within {roots' : List ℕ} (h : Layout s label base kernelEntries roots)
    (hsub : ∀ A ∈ roots', A ∈ roots) : Layout s (label.within roots') base kernelEntries roots' where
  owned := by
    have hold : ∀ {p x}, label.within roots' p = some x → label p = some x := fun {p x} hp ↦
      (within_eq_some (n := x.1) (o := x.2).mp hp).1
    refine ⟨fun p x hp ↦ h.owned.page p x (hold hp), fun p n o es i hp hes ↦ ?_,
      fun p q n m o o' es es' i j hp hq ↦ h.owned.single p q n m o o' es es' i j (hold hp) (hold hq)⟩
    exact (h.owned.entry p n o es i (hold hp) hes).imp_right fun hentry ↦
      ⟨hentry.1, within_eq_some.mpr ⟨hentry.2, (within_eq_some.mp hp).2⟩⟩
  kernel := h.kernel.within fun i B j heq ↦ Owner.noConfusion heq
  root root hroot := by
    obtain ⟨hne, entries, htop, hshared⟩ := h.root root (hsub root hroot)
    refine ⟨hne, entries, htop.within fun i B j heq ↦ ?_, hshared⟩
    unfold ownerOf at heq
    split_ifs at heq
    exact (Owner.own.inj heq).1 ▸ hroot

/-- After `paging_init` there are the pages of the kernel. -/
theorem Spaces.init (h : Layout s label base kernelEntries []) (hvacant : ¬present (kernelEntries 0)) :
    Spaces s.pages base kernelEntries s (label.within []) [] none where
  layout := h.within fun _ ↦ id
  vacant := hvacant
  home := h.kernel.page ▸ rfl
  mine _ _ _ _ hp := absurd (within_own.mp hp).2 List.not_mem_nil
  parent _ _ _ hp := absurd (within_own.mp hp).2 List.not_mem_nil
  top _ _ hp := absurd (within_own.mp hp).2 List.not_mem_nil
  plain _ _ _ _ hp := absurd (within_own.mp hp.1).2 List.not_mem_nil
  once _ _ _ _ _ _ _ hp := absurd (within_own.mp hp.1).2 List.not_mem_nil
  kernel p _ hp := ⟨hp, List.not_mem_nil, fun hnone ↦ Option.some_ne_none p hnone.symm,
    fun _ _ _ hlabel ↦ absurd (within_own.mp hlabel).2 List.not_mem_nil⟩
  spare p hp := absurd hp.symm (Option.some_ne_none p)
  used _ hp := Or.inl hp

/-- `pml4_destroy` by what the first entry leads to. -/
theorem pml4Destroy_eq (hnonzero : A ≠ 0) (hbase : A ≠ base) (hentries : s.pages A = some entries) :
    pml4Destroy s base A = (if present (entries 0) then pdpeDestroy s (ptov (pteAddr (entries 0)))
      else some s).bind fun s ↦ pallocFreePage s A := by
  simp only [pml4Destroy, hnonzero, guard, hbase, readEntry_eq hentries, if_false, if_true, ne_eq,
    not_false_iff, Option.bind_eq_bind, Option.pure_def, Option.bind_some, present_ptov, pteAddr_ptov]
  by_cases hpresent : present (entries 0)
  · rw [if_pos hpresent, if_pos hpresent]
  · rw [if_neg hpresent, if_neg hpresent, Option.bind_some]

/-- `pml4_destroy` gives back the pages of the address space and leaves the others alone. -/
theorem Spaces.destroy_eq (h : Spaces kernelPages base kernelEntries s label roots loose) (hA : A ∈ roots) :
    ∃ s', pml4Destroy s base A = some s' ∧ (∀ p, Holds s.pages A p → s'.pages p = none) ∧
      ∀ p, ¬Holds s.pages A p → s'.pages p = s.pages p := by
  obtain ⟨hbase, entries, htop, -⟩ := h.layout.root A hA
  have hfree : ∀ {s₁ : Machine}, s₁.pages A = some entries →
      pallocFreePage s₁ A = some { s₁ with pages := s₁.pages.free A } := fun hpage ↦
    pallocFreePage_eq (hpage ▸ rfl)
  rw [pml4Destroy_eq htop.nonzero hbase htop.page, pdpeDestroy_eq]
  by_cases hpresent : present (entries 0)
  · rw [if_pos hpresent]
    have hleads := leadsTo_of_present htop.page (by decide) hpresent
    have hchild := h.top_label hA hleads
    obtain ⟨s₁, hdestroy, hgone, hsame⟩ := clears_destroyTable h.forest (n := 3) ⟨A, hchild⟩ s fun _ _ ↦ rfl
    have hpart : ∀ p, Holds s.pages A p ↔
        p = A ∨ PagesBelow s.pages 3 (ptov (pteAddr (entries 0))) p := by
      refine fun p ↦ or_congr_right ⟨?_, fun hbelow ↦ ⟨_, hleads, hbelow⟩⟩
      rintro ⟨c, hc, hbelow⟩
      obtain ⟨-, -, rfl⟩ := hc.present htop.page
      exact hbelow
    have hout : ¬PagesBelow s.pages 3 (ptov (pteAddr (entries 0))) A := by
      intro hbelow
      rcases h.layout.owned.below hchild hbelow with ⟨m, hlabel⟩ | ⟨t, i, hmaps⟩
      · exact Option.some_ne_none _ (hlabel.symm.trans htop.unlabelled)
      · exact (h.plain A t i A hmaps).2.2.1 hA
    have hpage : s₁.pages A = some entries := (hsame A hout).trans htop.page
    refine ⟨{ s₁ with pages := s₁.pages.free A }, ?_, fun p hp ↦ ?_, fun p hp ↦ ?_⟩
    · dsimp only at hdestroy
      rw [hdestroy, Option.bind_some]
      exact hfree hpage
    · by_cases heq : p = A
      · exact heq ▸ Store.free_self ..
      · exact (Store.free_of_ne _ heq).trans (hgone p (((hpart p).mp hp).resolve_left heq))
    · rw [hpart, not_or] at hp
      exact (Store.free_of_ne _ hp.1).trans (hsame p hp.2)
  · rw [if_neg hpresent, Option.bind_some]
    refine ⟨{ s with pages := s.pages.free A }, hfree htop.page, fun p hp ↦ ?_, fun p hp ↦ ?_⟩
    · rcases hp with rfl | ⟨c, hleads, -⟩
      · exact Store.free_self ..
      · exact absurd (hleads.present htop.page).2.1 hpresent
    · exact Store.free_of_ne _ fun heq ↦ hp (Or.inl heq)

/-- Without the pages of an address space there are the other address spaces. -/
theorem Spaces.destroy (h : Spaces kernelPages base kernelEntries s label roots none) (hA : A ∈ roots)
    (hgone : ∀ p, Holds s.pages A p → s'.pages p = none)
    (hsame : ∀ p, ¬Holds s.pages A p → s'.pages p = s.pages p) :
    Spaces kernelPages base kernelEntries s' (label.within (roots.filter (· ≠ A)))
      (roots.filter (· ≠ A)) none := by
  have hmem : ∀ {B}, B ∈ roots.filter (· ≠ A) ↔ B ∈ roots ∧ B ≠ A := by
    intro B
    rw [List.mem_filter, decide_eq_true_iff]
  have hapart : ∀ B ∈ roots.filter (· ≠ A), ∀ p, Holds s.pages B p → ¬Holds s.pages A p := by
    intro B hB p hp hp'
    exact (hmem.mp hB).2 (h.holds_apart (hmem.mp hB).1 hA hp hp')
  have hlabelled : ∀ p n o, label.within (roots.filter (· ≠ A)) p = some (n, o) → ¬Holds s.pages A p := by
    intro p n o hp hholds
    obtain ⟨hold, hown⟩ := within_eq_some.mp hp
    rcases (h.holds_iff hA).mp hholds with rfl | ⟨m, hlabel⟩ | ⟨t, i, hmaps⟩
    · exact Option.some_ne_none _ (hold.symm.trans (h.root_used hA).2)
    · have howner := (Prod.mk.inj (Option.some.inj (hold.symm.trans hlabel))).2
      exact (hmem.mp (hown A 0 howner)).2 rfl
    · exact Option.some_ne_none _ (hold.symm.trans (h.plain A t i p hmaps).2.1)
  have hroot : ∀ p ∈ roots.filter (· ≠ A), ¬Holds s.pages A p := fun p hp ↦
    hapart p hp p (Or.inl rfl)
  have hkernel : ∀ p, (kernelPages p).isSome → ¬Holds s.pages A p := by
    intro p hp hholds
    rw [(h.holds_used hA hholds).2] at hp
    exact Bool.false_ne_true hp
  have hleads : ∀ {p i q}, ¬Holds s.pages A p → (LeadsTo s'.pages p i q ↔ LeadsTo s.pages p i q) := by
    intro p i q hp
    unfold LeadsTo HasChild
    rw [hsame p hp]
  have hmaps : ∀ {B t i p}, Maps s' (label.within (roots.filter (· ≠ A))) B t i p ↔
      Maps s label B t i p ∧ B ∈ roots.filter (· ≠ A) := by
    intro B t i p
    constructor
    · rintro ⟨ht, hold⟩
      exact ⟨⟨(within_own.mp ht).1, (hleads (hlabelled t 0 _ ht)).mp hold⟩, (within_own.mp ht).2⟩
    · rintro ⟨⟨ht, hold⟩, hB⟩
      have ht' := within_own.mpr ⟨ht, hB⟩
      exact ⟨ht', (hleads (hlabelled t 0 _ ht')).mpr hold⟩
  have hmapped : ∀ {B t i p}, Maps s label B t i p → B ∈ roots.filter (· ≠ A) → ¬Holds s.pages A p := by
    intro B t i p hp hB
    exact hapart B hB p (h.holds_of_maps hp).2
  refine
    { layout := (h.layout.within fun B hB ↦ (hmem.mp hB).1).of_agree fun p hp ↦ hsame p ?_
      vacant := h.vacant
      home := h.home
      mine := fun p n B i hp ↦ ?_
      parent := fun p n B hp hn ↦ ?_
      top := fun p B hp ↦ ?_
      plain := fun B t i p hp ↦ ?_
      once := fun B C t u i j p hp hp' ↦ h.once B C t u i j p (hmaps.mp hp).1 (hmaps.mp hp').1
      kernel := fun p es hp ↦ ?_
      spare := fun p hp ↦ absurd hp.symm (Option.some_ne_none p)
      used := fun p hp ↦ ?_ }
  · rcases hp with hp | rfl | hp
    · obtain ⟨x, hx⟩ := Option.isSome_iff_exists.mp hp
      exact hlabelled p x.1 x.2 hx
    · exact hkernel p h.home
    · exact hroot p hp
  · obtain ⟨hp, hB⟩ := within_own.mp hp
    exact ⟨hB, (h.mine p n B i hp).2⟩
  · obtain ⟨hp, hB⟩ := within_own.mp hp
    obtain ⟨q, i, hq, hold⟩ := h.parent p n B hp hn
    have hq' := within_own.mpr ⟨hq, hB⟩
    exact ⟨q, i, hq', (hleads (hlabelled q _ _ hq')).mpr hold⟩
  · obtain ⟨hp, hB⟩ := within_own.mp hp
    exact (hleads (hroot B hB)).mpr (h.top p B hp)
  · obtain ⟨hp, hB⟩ := hmaps.mp hp
    obtain ⟨hused, hnone, hout, hloose, hrest⟩ := h.plain B t i p hp
    refine ⟨hsame p (hmapped hp hB) ▸ hused, within_none hnone, fun hmem' ↦ hout (hmem.mp hmem').1,
      hloose, hrest⟩
  · obtain ⟨hold, hout, hloose, hown⟩ := h.kernel p es hp
    refine ⟨(hsame p (hkernel p (hp ▸ rfl))).trans hold, fun hmem' ↦ hout (hmem.mp hmem').1, hloose,
      fun n B i hlabel ↦ hown n B i (within_own.mp hlabel).1⟩
  · have hout : ¬Holds s.pages A p := by
      intro hholds
      rw [hgone p hholds] at hp
      exact Bool.false_ne_true hp
    rw [hsame p hout] at hp
    have hother : ∀ {B}, B ∈ roots ∧ Holds s.pages B p → B ∈ roots.filter (· ≠ A) := by
      rintro B ⟨hB, hholds⟩
      refine hmem.mpr ⟨hB, ?_⟩
      rintro rfl
      exact hout hholds
    rcases h.used p hp with hkernel' | hroot' | hloose | ⟨n, B, hlabel⟩ | ⟨B, t, i, hp⟩
    · exact Or.inl hkernel'
    · exact Or.inr (Or.inl (hother ⟨hroot', Or.inl rfl⟩))
    · exact absurd hloose.symm (Option.some_ne_none p)
    · have hlabel' := within_own.mpr ⟨hlabel, hother (h.holds_of_label hlabel)⟩
      exact Or.inr (Or.inr (Or.inr (Or.inl ⟨n, B, hlabel'⟩)))
    · have hp' := hmaps.mpr ⟨hp, hother (h.holds_of_maps hp)⟩
      exact Or.inr (Or.inr (Or.inr (Or.inr ⟨B, t, i, hp'⟩)))

end Jungle.Paging
