import Jungle.Loader.Basic
import Jungle.Processes.Conservation

/-!
# Loading a program

Where the pages that `palloc_get_page` returns are free, `load` does not fault, whatever fails in it, and
changes no page that is in use (`load_spec`). So `process_cleanup` after it leaves the pages as they were before
(`run_load_undone`).
-/

set_option autoImplicit false
set_option relaxedAutoImplicit false

namespace Jungle.Processes

open Jungle.Lib Jungle.Paging

variable {kernelPages : Store (ℕ → ℕ)} {base : ℕ} {kernelEntries : ℕ → ℕ} {s s' s₁ : Machine}
  {label : Labels} {roots : List ℕ} {A B p u table idx : ℕ}

/-- The loader's `install_page`, which keeps the bytes of the pages apart from the tables. -/
theorem loader_installPage (process : Loader.Process) (upage kpage : ℕ) (writable : Bool) :
    Loader.installPage process upage kpage writable =
      (installPage process.machine process.basePml4 process.pml4 upage kpage writable).map
        fun result ↦ (result.1, { process with machine := result.2 }) := by
  unfold Loader.installPage installPage
  cases pml4GetPage process.machine process.pml4 upage with
  | none => rfl
  | some page? =>
    cases page? with
    | some page => rfl
    | none =>
      simp only [Option.bind_eq_bind, Option.bind_some]
      cases pml4SetPage process.machine process.basePml4 process.pml4 upage kpage writable with
      | none => rfl
      | some result => rfl

/-! ### Free pages -/

/-- The pages of the supply stay free where no page is taken. -/
theorem supplied_mono (h : Supplied s) (hsupply : s'.supply = s.supply)
    (hfree : ∀ p, s.pages p = none → s'.pages p = none) : Supplied s' := by
  refine ⟨fun page hpage ↦ ?_, hsupply ▸ h.2⟩
  obtain ⟨hkernel, hword, haligned, hnone⟩ := h.1 page (hsupply ▸ hpage)
  exact ⟨hkernel, hword, haligned, hfree page hnone⟩

/-- `palloc_get_page` takes the first of them. -/
theorem pallocGetPage_total (h : Supplied s) :
    ∃ page? s', pallocGetPage s = some (page?, s') ∧ Supplied s' := by
  obtain ⟨hfree, hpairs⟩ := h
  unfold pallocGetPage
  cases hsupply : s.supply with
  | nil => exact ⟨none, s, rfl, hfree, hpairs⟩
  | cons first supply =>
    rw [hsupply] at hfree hpairs
    obtain ⟨hfirst, hrest⟩ := List.pairwise_cons.mp hpairs
    cases first with
    | none => exact ⟨none, _, rfl, fun page hpage ↦ hfree page (List.mem_cons_of_mem _ hpage), hrest⟩
    | some page =>
      refine ⟨some page, _, if_pos (hfree page List.mem_cons_self), fun page' hpage' ↦ ?_, hrest⟩
      obtain ⟨hkernel, hword, haligned, hnone⟩ := hfree page' (List.mem_cons_of_mem _ hpage')
      have hne : page' ≠ page := fun heq ↦ (hfirst _ hpage').elim
        (fun hne ↦ hne (congrArg some heq.symm)) (Option.some_ne_none page)
      exact ⟨hkernel, hword, haligned, (Store.put_of_ne _ hne _).trans hnone⟩

theorem supplied_pallocGetPage {page? : Option ℕ} (h : Supplied s)
    (halloc : pallocGetPage s = some (page?, s')) : Supplied s' := by
  obtain ⟨_, _, halloc', hsupplied⟩ := pallocGetPage_total h
  obtain ⟨-, rfl⟩ := Prod.mk.inj (Option.some.inj (halloc.symm.trans halloc'))
  exact hsupplied

theorem supplied_writeEntry {entry : ℕ} (h : Supplied s) (hwrite : writeEntry s table idx entry = some s') :
    Supplied s' := by
  obtain ⟨page, hpage, hwrite⟩ := Option.bind_eq_some_iff.mp hwrite
  obtain rfl := Option.some.inj hwrite
  refine supplied_mono h rfl fun p hp ↦ (Store.put_of_ne _ ?_ _).trans hp
  rintro rfl
  exact Option.some_ne_none page (hpage.symm.trans hp)

theorem supplied_pallocFreePage (h : Supplied s) (hfree : pallocFreePage s p = some s') : Supplied s' := by
  obtain ⟨_, -, hfree⟩ := Option.bind_eq_some_iff.mp hfree
  obtain rfl := Option.some.inj hfree
  refine supplied_mono h rfl fun q hq ↦ ?_
  by_cases heq : q = p
  · exact heq ▸ Store.free_self ..
  · exact (Store.free_of_ne _ heq).trans hq

/-- A step of a walk leaves the rest of the supply free, if the rest of the walk does. -/
theorem supplied_walkLevel {next : Machine → ℕ → Option (Option Slot × Machine)} {create : Bool}
    {pte : Option Slot}
    (hnext : ∀ s table pte s', Supplied s → next s table = some (pte, s') → Supplied s') (h : Supplied s)
    (hwalk : walkLevel next s table idx create = some (pte, s')) : Supplied s' := by
  unfold walkLevel at hwalk
  by_cases htable : table = 0
  · rw [if_pos htable] at hwalk
    obtain ⟨-, rfl⟩ := Prod.mk.inj (Option.some.inj hwalk)
    exact h
  rw [if_neg htable] at hwalk
  obtain ⟨entry, -, hwalk⟩ := Option.bind_eq_some_iff.mp hwalk
  by_cases hpresent : present entry
  · rw [if_pos hpresent] at hwalk
    exact hnext _ _ _ _ h hwalk
  rw [if_neg hpresent] at hwalk
  by_cases hcreate : create
  · rw [if_pos hcreate] at hwalk
    obtain ⟨⟨page?, s₁⟩, halloc, hwalk⟩ := Option.bind_eq_some_iff.mp hwalk
    have h₁ := supplied_pallocGetPage h halloc
    cases page? with
    | none =>
      obtain ⟨-, rfl⟩ := Prod.mk.inj (Option.some.inj hwalk)
      exact h₁
    | some page =>
      obtain ⟨s₂, hlink, hwalk⟩ := Option.bind_eq_some_iff.mp hwalk
      obtain ⟨entry, -, hwalk⟩ := Option.bind_eq_some_iff.mp hwalk
      obtain ⟨⟨pte, s₃⟩, hrest, hwalk⟩ := Option.bind_eq_some_iff.mp hwalk
      have h₃ := hnext _ _ _ _ (supplied_writeEntry h₁ hlink) hrest
      cases pte with
      | some slot =>
        obtain ⟨-, rfl⟩ := Prod.mk.inj (Option.some.inj hwalk)
        exact h₃
      | none =>
        obtain ⟨entry, -, hwalk⟩ := Option.bind_eq_some_iff.mp hwalk
        obtain ⟨s₄, hfree, hwalk⟩ := Option.bind_eq_some_iff.mp hwalk
        obtain ⟨s₅, hclear, hwalk⟩ := Option.bind_eq_some_iff.mp hwalk
        obtain ⟨-, rfl⟩ := Prod.mk.inj (Option.some.inj hwalk)
        exact supplied_writeEntry (supplied_pallocFreePage h₃ hfree) hclear
  · rw [if_neg hcreate] at hwalk
    obtain ⟨-, rfl⟩ := Prod.mk.inj (Option.some.inj hwalk)
    exact h

theorem supplied_walk (leaf : ℕ) (create : Bool) (indices : List ℕ) {pte : Option Slot} (h : Supplied s)
    (hwalk : walk leaf create indices s table = some (pte, s')) : Supplied s' := by
  induction indices generalizing s s' table pte with
  | nil =>
    obtain ⟨-, rfl⟩ := Prod.mk.inj (Option.some.inj hwalk)
    exact h
  | cons idx indices ih => exact supplied_walkLevel (fun _ _ _ _ ↦ ih) h hwalk

theorem supplied_setPage {k : ℕ} {rw ok : Bool} (h : Supplied s)
    (hset : pml4SetPage s base A u k rw = some (ok, s')) : Supplied s' := by
  obtain ⟨-, -, hset⟩ := Option.bind_eq_some_iff.mp hset
  obtain ⟨⟨pte, s₁⟩, hwalk, hset⟩ := Option.bind_eq_some_iff.mp hset
  rw [pml4eWalk_eq] at hwalk
  have h₁ := supplied_walk _ _ _ h hwalk
  cases pte with
  | none =>
    obtain ⟨-, rfl⟩ := Prod.mk.inj (Option.some.inj hset)
    exact h₁
  | some pte =>
    obtain ⟨-, -, hset⟩ := Option.bind_eq_some_iff.mp hset
    obtain ⟨s₂, hwrite, hset⟩ := Option.bind_eq_some_iff.mp hset
    obtain ⟨-, rfl⟩ := Prod.mk.inj (Option.some.inj hset)
    exact supplied_writeEntry h₁ hwrite

/-! ### What is left alone -/

/-- The pages in use that are not the address space's stay as they are. -/
def KeepsOthers (A : ℕ) (s s' : Machine) : Prop :=
  ∀ p, (s.pages p).isSome → ¬Holds s.pages A p → s'.pages p = s.pages p

/-- The pages of an address space go by these pages. -/
theorem holds_congr (hsame : ∀ q, Holds s.pages B q → s'.pages q = s.pages q) :
    Holds s'.pages B p ↔ Holds s.pages B p := by
  have hleads : ∀ c, LeadsTo s'.pages B 0 c ↔ LeadsTo s.pages B 0 c := by
    intro c
    unfold LeadsTo HasChild
    rw [hsame B (Or.inl rfl)]
  refine or_congr_right (exists_congr fun c ↦ ?_)
  rw [hleads c]
  exact and_congr_right fun hc ↦ Below.congr fun q hq ↦ hsame q (Or.inr ⟨c, hc, hq⟩)

/-- The other address spaces have the same pages then. -/
theorem KeepsOthers.holds (hkeeps : KeepsOthers A s s')
    (h : Spaces kernelPages base kernelEntries s label roots none) (hA : A ∈ roots) (hB : B ∈ roots)
    (hne : B ≠ A) : Holds s'.pages B p ↔ Holds s.pages B p :=
  holds_congr fun q hq ↦ hkeeps q (h.holds_used hB hq).1 fun hq' ↦ hne (h.holds_apart hB hA hq hq')

/-- A page that is not the address space's before is none of its pages after. -/
theorem KeepsOthers.not_holds {label' : Labels} (hkeeps : KeepsOthers A s s')
    (h : Spaces kernelPages base kernelEntries s label roots none)
    (h' : Spaces kernelPages base kernelEntries s' label' roots none) (hA : A ∈ roots)
    (hp : (s.pages p).isSome) (hout : ¬Holds s.pages A p) : ¬Holds s'.pages A p := by
  intro hin
  rcases h.used_iff.mp hp with hkernel | ⟨B, hB, hholds⟩
  · rw [(h'.holds_used hA hin).2] at hkernel
    exact Bool.false_ne_true hkernel
  · have hne : B ≠ A := by
      rintro rfl
      exact hout hholds
    exact hne (h'.holds_apart hB hA ((hkeeps.holds h hA hB hne).mpr hholds) hin)

theorem KeepsOthers.trans {label' : Labels} (hfirst : KeepsOthers A s s₁) (hrest : KeepsOthers A s₁ s')
    (h : Spaces kernelPages base kernelEntries s label roots none)
    (h₁ : Spaces kernelPages base kernelEntries s₁ label' roots none) (hA : A ∈ roots) :
    KeepsOthers A s s' := by
  intro p hp hout
  have hsame := hfirst p hp hout
  rw [hrest p (hsame ▸ hp) (hfirst.not_holds h h₁ hA hp hout), hsame]

/-- `pml4_set_page` leaves the pages in use alone that are no tables of the address space. -/
theorem setPage_keeps {k : ℕ} {rw ok : Bool} {loose : Option ℕ}
    (h : Spaces kernelPages base kernelEntries s label roots loose) (hA : A ∈ roots) (hu : u < 2 ^ 39)
    (hset : pml4SetPage s base A u k rw = some (ok, s')) (hp : (s.pages p).isSome) (hroot : p ≠ A)
    (hlabel : ∀ n, label p ≠ some (n, .own A 0)) : s'.pages p = s.pages p := by
  rcases h.layout.setPage hA hset with ⟨-, hsame⟩ | ⟨label', -, -, hext, hchanges, -⟩
  · exact congrFun hsame p
  · rw [pml4_eq_zero hu, ownerOf, if_neg h.vacant] at hext hchanges
    refine hchanges p hroot fun m hnew ↦ ?_
    rcases hext.adds p m _ hnew with hold | ⟨-, hnone⟩
    · exact hlabel m hold
    · rw [hnone] at hp
      exact Bool.false_ne_true hp

/-- The address spaces are accounted for, the supply is free, and the pages of the others are as they were. -/
structure Loads (kernelPages : Store (ℕ → ℕ)) (base : ℕ) (kernelEntries : ℕ → ℕ) (roots : List ℕ) (A : ℕ)
    (s s' : Machine) : Prop where
  spaces : ∃ label, Spaces kernelPages base kernelEntries s' label roots none
  supplied : Supplied s'
  keeps : KeepsOthers A s s'

theorem Loads.refl (h : Spaces kernelPages base kernelEntries s label roots none) (hsupplied : Supplied s) :
    Loads kernelPages base kernelEntries roots A s s :=
  ⟨⟨label, h⟩, hsupplied, fun _ _ _ ↦ rfl⟩

theorem Loads.trans (hfirst : Loads kernelPages base kernelEntries roots A s s₁)
    (hrest : Loads kernelPages base kernelEntries roots A s₁ s')
    (h : Spaces kernelPages base kernelEntries s label roots none) (hA : A ∈ roots) :
    Loads kernelPages base kernelEntries roots A s s' := by
  obtain ⟨label', h₁⟩ := hfirst.spaces
  exact ⟨hrest.spaces, hrest.supplied, hfirst.keeps.trans hrest.keeps h h₁ hA⟩

/-! ### Calls -/

theorem isUserVaddr_of_lt (hu : u < 2 ^ 39) : isUserVaddr u := by
  refine decide_eq_true ?_
  unfold kernBase
  omega

/-- `pml4_get_page` does not fault. -/
theorem getPage_total (h : Layout s label base kernelEntries roots) (hA : A ∈ roots)
    (hu : isUserVaddr u) : ∃ page?, pml4GetPage s A u = some page? := by
  obtain ⟨-, entries, htop, -⟩ := h.root A hA
  obtain ⟨pte?, hfind⟩ : ∃ pte?, find (ptx u) (indices u) s A = some pte? := by
    rw [htop.find_eq]
    by_cases hpresent : present (entries (pml4 u))
    · rw [if_pos hpresent]
      exact find_total h.owned (htop.child hpresent)
    · exact ⟨none, if_neg hpresent⟩
  rw [pml4GetPage_eq hu, hfind, Option.bind_some]
  cases pte? with
  | none => exact ⟨none, rfl⟩
  | some pte =>
    obtain ⟨es, hes⟩ := Option.isSome_iff_exists.mp
      (h.owned.page _ _ (htop.find_label h.owned hfind).1).2
    dsimp only
    rw [readEntry_eq hes, Option.map_some]
    exact ⟨_, rfl⟩

/-- `install_page` does not fault. -/
theorem installPage_total {k : ℕ} {loose : Option ℕ}
    (h : Spaces kernelPages base kernelEntries s label roots loose) (hA : A ∈ roots) (hu : u < 2 ^ 39)
    (haligned : pgOfs u = 0) (hk : IsKernelPage k) (hsupplied : Supplied s) (writable : Bool) :
    ∃ ok s', installPage s base A u k writable = some (ok, s') ∧ Supplied s' ∧
      ∀ p, (s.pages p).isSome → p ≠ A → (∀ n, label p ≠ some (n, .own A 0)) → s'.pages p = s.pages p := by
  obtain ⟨page?, hget⟩ := getPage_total h.layout hA (isUserVaddr_of_lt hu)
  unfold installPage
  rw [hget]
  cases page? with
  | some page => exact ⟨false, s, rfl, hsupplied, fun _ _ _ _ ↦ rfl⟩
  | none =>
    obtain ⟨ok, s', hset⟩ := h.layout.setPage_total hA haligned (isUserVaddr_of_lt hu) hk hsupplied writable
    exact ⟨ok, s', hset, supplied_setPage hsupplied hset, fun p ↦ setPage_keeps h hA hu hset⟩

/-- `palloc_free_page` of a page in use does not fault. -/
theorem pallocFreePage_total (h : Supplied s) (hp : (s.pages p).isSome) :
    ∃ s', pallocFreePage s p = some s' ∧ Supplied s' ∧ ∀ q, q ≠ p → s'.pages q = s.pages q := by
  have hfree := pallocFreePage_eq hp
  exact ⟨_, hfree, supplied_pallocFreePage h hfree, fun q hq ↦ Store.free_of_ne _ hq⟩

/-- Adding a page does not fault. -/
theorem addPage_total {fill : Option (ℕ → ℕ)} (h : Spaces kernelPages base kernelEntries s label roots none)
    (hA : A ∈ roots) (hu : u < 2 ^ 39) (haligned : pgOfs u = 0) (hsupplied : Supplied s) (writable : Bool) :
    ∃ ok s', addPage s base A u fill writable = some (ok, s') ∧ Supplied s' ∧ KeepsOthers A s s' := by
  obtain ⟨page?, s₁, halloc, hsupplied₁⟩ := pallocGetPage_total hsupplied
  unfold addPage
  rw [halloc]
  rcases pallocGetPage_cases halloc with ⟨rfl, hsame⟩ | ⟨k, rfl, hfree, hpages⟩
  · exact ⟨false, s₁, rfl, hsupplied₁, fun p _ _ ↦ congrFun hsame p⟩
  have hold : ∀ p, (s.pages p).isSome → p ≠ k := fun p ↦ hfree.ne_of_used
  have h₁ := h.take hfree hpages
  obtain ⟨hused, hlabel, hroot⟩ := h₁.spare k rfl
  cases fill with
  | none =>
    obtain ⟨s₂, hgive, hsupplied₂, hsame⟩ := pallocFreePage_total hsupplied₁ hused
    refine ⟨false, s₂, ?_, hsupplied₂, fun p hp _ ↦ ?_⟩
    · simp only [Option.bind_eq_bind, Option.bind_some, hgive, Option.pure_def]
    · rw [hsame p (hold p hp), hpages, Store.put_of_ne _ (hold p hp)]
  | some contents =>
    have h₂ : Spaces kernelPages base kernelEntries { s₁ with pages := s₁.pages.put k contents } label roots
        (some k) :=
      h₁.put hused hlabel hroot (h₁.not_kernel rfl) rfl
    have hsupplied₂ : Supplied { s₁ with pages := s₁.pages.put k contents } := by
      refine supplied_mono hsupplied₁ rfl fun p hp ↦ (Store.put_of_ne _ ?_ _).trans hp
      rintro rfl
      rw [hp] at hused
      exact Bool.false_ne_true hused
    have hfilled : ∀ p, (s.pages p).isSome → (s₁.pages.put k contents) p = s.pages p := by
      intro p hp
      rw [Store.put_of_ne _ (hold p hp), hpages, Store.put_of_ne _ (hold p hp)]
    obtain ⟨ok, s₂, hinstall, hsupplied₃, hkeeps⟩ :=
      installPage_total h₂ hA hu haligned hfree.isKernelPage hsupplied₂ writable
    have hkept : KeepsOthers A s s₂ := by
      intro p hp hout
      rw [← hfilled p hp]
      have hstill : ((s₁.pages.put k contents) p).isSome := (congrArg Option.isSome (hfilled p hp)).trans hp
      refine hkeeps p hstill (fun heq ↦ hout (Or.inl heq)) fun n hn ↦ hout ?_
      exact (h.holds_of_label hn).2
    cases ok with
    | true =>
      refine ⟨true, s₂, ?_, hsupplied₃, hkept⟩
      simp only [Option.bind_eq_bind, Option.bind_some, hinstall, Option.pure_def]
    | false =>
      have hsame : s₂.pages = s₁.pages.put k contents :=
        ((installPage_spaces h₂ hA hfree.isKernelPage hu hinstall).resolve_right fun hok ↦
          Bool.false_ne_true hok.1).2
      have hused₂ : (s₂.pages k).isSome := by
        rw [hsame, Store.put_self]
        rfl
      obtain ⟨s₃, hgive, hsupplied₄, hother⟩ := pallocFreePage_total hsupplied₃ hused₂
      refine ⟨false, s₃, ?_, hsupplied₄, fun p hp hout ↦ (hother p (hold p hp)).trans (hkept p hp hout)⟩
      simp only [Option.bind_eq_bind, Option.bind_some, hinstall, hgive, Option.pure_def]

/-- Adding a page. -/
theorem addPage_loads (fill : Option (ℕ → ℕ)) (h : Spaces kernelPages base kernelEntries s label roots none)
    (hA : A ∈ roots) (hu : u < 2 ^ 39) (haligned : pgOfs u = 0) (hsupplied : Supplied s) (writable : Bool) :
    ∃ ok s', addPage s base A u fill writable = some (ok, s') ∧
      Loads kernelPages base kernelEntries roots A s s' := by
  obtain ⟨ok, s', hadd, hsupplied', hkeeps⟩ := addPage_total h hA hu haligned hsupplied writable
  exact ⟨ok, s', hadd, addPage_spaces h hA hu hadd, hsupplied', hkeeps⟩

/-- The segment is below `2 ^ 39` and starts at a page. -/
def Segment.Fits (segment : Segment) : Prop :=
  pgOfs segment.upage = 0 ∧ segment.upage + pgSize * segment.fills.length ≤ 2 ^ 39

/-- `load_segment` does not fault. -/
theorem loadSegment_loads (fills : List (Option (ℕ → ℕ)))
    (h : Spaces kernelPages base kernelEntries s label roots none) (hA : A ∈ roots) (haligned : pgOfs u = 0)
    (hu : u + pgSize * fills.length ≤ 2 ^ 39) (hsupplied : Supplied s) (writable : Bool) :
    ∃ ok s', loadSegment s base A u fills writable = some (ok, s') ∧
      Loads kernelPages base kernelEntries roots A s s' := by
  induction fills generalizing s label u with
  | nil => exact ⟨true, s, rfl, .refl h hsupplied⟩
  | cons fill fills ih =>
    rw [List.length_cons, Nat.mul_succ] at hu
    have hfirst : u < 2 ^ 39 := by
      unfold pgSize at hu
      omega
    obtain ⟨ok, s₁, hadd, hloads⟩ := addPage_loads fill h hA hfirst haligned hsupplied writable
    rw [loadSegment, hadd]
    cases ok with
    | false => exact ⟨false, s₁, rfl, hloads⟩
    | true =>
      obtain ⟨label', h₁⟩ := hloads.spaces
      have hnext : pgOfs (u + pgSize) = 0 := by
        rw [pgOfs_eq] at haligned ⊢
        unfold pgSize
        omega
      obtain ⟨ok, s', hload, hrest⟩ := ih h₁ hnext (by omega) hloads.supplied
      exact ⟨ok, s', hload, hloads.trans hrest h hA⟩

/-- The loop of `load` does not fault. -/
theorem loadSegments_loads (segments : List Segment)
    (h : Spaces kernelPages base kernelEntries s label roots none) (hA : A ∈ roots)
    (hfits : ∀ segment ∈ segments, segment.Fits) (hsupplied : Supplied s) :
    ∃ ok s', loadSegments s base A segments = some (ok, s') ∧
      Loads kernelPages base kernelEntries roots A s s' := by
  induction segments generalizing s label with
  | nil => exact ⟨true, s, rfl, .refl h hsupplied⟩
  | cons segment segments ih =>
    obtain ⟨haligned, hend⟩ := hfits segment List.mem_cons_self
    obtain ⟨ok, s₁, hload, hloads⟩ :=
      loadSegment_loads segment.fills h hA haligned hend hsupplied segment.writable
    rw [loadSegments, hload]
    cases ok with
    | false => exact ⟨false, s₁, rfl, hloads⟩
    | true =>
      obtain ⟨label', h₁⟩ := hloads.spaces
      obtain ⟨ok, s', hrest, hloads'⟩ :=
        ih h₁ (fun segment hmem ↦ hfits segment (List.mem_cons_of_mem _ hmem)) hloads.supplied
      exact ⟨ok, s', hrest, hloads.trans hloads' h hA⟩

/-- `pml4_create` does not fault, and its new table is one of a page that was free. -/
theorem pml4Create_total (h : Spaces kernelPages base kernelEntries s label roots none)
    (hsupplied : Supplied s) : ∃ pml4 s', pml4Create s base = some (pml4, s') ∧ Supplied s' ∧
      (∀ A, pml4 = some A → s.pages A = none) ∧ ∀ p, (s.pages p).isSome → s'.pages p = s.pages p := by
  obtain ⟨page?, s₁, halloc, hsupplied₁⟩ := pallocGetPage_total hsupplied
  unfold pml4Create
  rw [halloc]
  rcases pallocGetPage_cases halloc with ⟨rfl, hsame⟩ | ⟨A, rfl, hfree, hpages⟩
  · exact ⟨none, s₁, rfl, hsupplied₁, fun A hA ↦ absurd hA.symm (Option.some_ne_none A),
      fun p _ ↦ congrFun hsame p⟩
  have hbase : s₁.pages base = some kernelEntries := by
    rw [hpages, Store.put_of_ne _ (hfree.ne h.layout.kernel.page), h.layout.kernel.page]
  refine ⟨some A, { s₁ with pages := s₁.pages.put A kernelEntries }, ?_, ?_, fun B hB ↦ ?_, fun p hp ↦ ?_⟩
  · simp only [Option.bind_eq_bind, Option.bind_some, hbase, Option.pure_def]
  · refine supplied_mono hsupplied₁ rfl fun p hp ↦ (Store.put_of_ne _ ?_ _).trans hp
    rintro rfl
    rw [hpages, Store.put_self] at hp
    exact Option.some_ne_none _ hp
  · exact Option.some.inj hB ▸ hfree.2.2.2
  · have hne : p ≠ A := hfree.ne_of_used hp
    exact (Store.put_of_ne _ hne _).trans (hpages ▸ Store.put_of_ne _ hne _)

/-- `load` does not fault, and leaves the pages alone that are in use. -/
theorem load_spec (segments : List Segment) (h : Spaces kernelPages base kernelEntries s label roots none)
    (hfits : ∀ segment ∈ segments, segment.Fits) (hsupplied : Supplied s) :
    ∃ ok pml4 s', load s base segments = some (ok, pml4, s') ∧
      (∃ label, Spaces kernelPages base kernelEntries s' label (pml4.toList ++ roots) none) ∧
      (∀ A, pml4 = some A → s.pages A = none) ∧ ∀ p, (s.pages p).isSome → s'.pages p = s.pages p := by
  obtain ⟨pml4, s₁, hcreate, hsupplied₁, hnew, hsame⟩ := pml4Create_total h hsupplied
  have h₁ := h.create hcreate
  unfold load
  rw [hcreate]
  cases pml4 with
  | none => exact ⟨false, none, s₁, rfl, ⟨label, h₁⟩, hnew, hsame⟩
  | some A =>
    have hA : A ∈ (some A).toList ++ roots := List.mem_cons_self
    have hfresh : ∀ p n, label p ≠ some (n, .own A 0) := by
      intro p n hlabel
      have hused := (h.root_used (h.mine p n A 0 hlabel).1).1
      rw [hnew A rfl] at hused
      exact Bool.false_ne_true hused
    have hout : ∀ p, (s.pages p).isSome → ¬Holds s₁.pages A p := by
      intro p hp hholds
      rcases (h₁.holds_iff hA).mp hholds with rfl | ⟨n, hlabel⟩ | ⟨t, i, hmaps⟩
      · rw [hnew p rfl] at hp
        exact Bool.false_ne_true hp
      · exact hfresh p n hlabel
      · exact hfresh t 0 hmaps.1
    have hkept : ∀ {s'}, Loads kernelPages base kernelEntries ((some A).toList ++ roots) A s₁ s' →
        ∀ p, (s.pages p).isSome → s'.pages p = s.pages p := by
      intro s' hloads p hp
      rw [hloads.keeps p (hsame p hp ▸ hp) (hout p hp), hsame p hp]
    obtain ⟨ok, s₂, hload, hloads⟩ := loadSegments_loads segments h₁ hA hfits hsupplied₁
    cases ok with
    | false =>
      refine ⟨false, some A, s₂, ?_, hloads.spaces, hnew, hkept hloads⟩
      simp only [Option.bind_eq_bind, Option.bind_some, hload, Option.pure_def]
    | true =>
      obtain ⟨label₂, h₂⟩ := hloads.spaces
      obtain ⟨ok, s₃, hstack, hloads'⟩ : ∃ ok s₃, setupStack s₂ base A = some (ok, s₃) ∧
          Loads kernelPages base kernelEntries ((some A).toList ++ roots) A s₂ s₃ :=
        addPage_loads _ h₂ hA (by decide) (by decide) hloads.supplied true
      refine ⟨ok, some A, s₃, ?_, hloads'.spaces, hnew, hkept (hloads.trans hloads' h₁ hA)⟩
      simp only [Option.bind_eq_bind, Option.bind_some, hload, hstack, Option.pure_def]

/-! ### Loading as steps -/

section Steps

variable {tables : List ℕ} {ok writable : Bool}

theorem addPage_step {fill : Option (ℕ → ℕ)} (hA : A ∈ tables) (hu : u < 2 ^ 39)
    (hadd : addPage s base A u fill writable = some (ok, s')) :
    Step base ⟨s, tables⟩ (.addPage A u) ⟨s', tables⟩ := by
  have hadd' : addPage (s.supplied s.supply) base A u fill writable = some (ok, s') := hadd
  exact .addPage hA hu hadd'

/-- `load_segment` adds pages. -/
theorem loadSegment_run (fills : List (Option (ℕ → ℕ))) (hA : A ∈ tables)
    (hu : u + pgSize * fills.length ≤ 2 ^ 39)
    (hload : loadSegment s base A u fills writable = some (ok, s')) :
    ∃ acts, Run (Step base) ⟨s, tables⟩ acts ⟨s', tables⟩ := by
  induction fills generalizing s u with
  | nil =>
    obtain ⟨-, rfl⟩ := Prod.mk.inj (Option.some.inj hload)
    exact ⟨[], .nil _⟩
  | cons fill fills ih =>
    rw [List.length_cons, Nat.mul_succ] at hu
    have hfirst : u < 2 ^ 39 := by
      unfold pgSize at hu
      omega
    obtain ⟨⟨added, s₁⟩, hadd, hload⟩ := Option.bind_eq_some_iff.mp hload
    have hstep := addPage_step hA hfirst hadd
    cases added with
    | false =>
      obtain ⟨-, rfl⟩ := Prod.mk.inj (Option.some.inj hload)
      exact ⟨_, .single hstep⟩
    | true =>
      obtain ⟨acts, hrun⟩ := ih (by omega) hload
      exact ⟨_, .cons hstep hrun⟩

theorem loadSegments_run (segments : List Segment) (hA : A ∈ tables)
    (hfits : ∀ segment ∈ segments, segment.Fits)
    (hload : loadSegments s base A segments = some (ok, s')) :
    ∃ acts, Run (Step base) ⟨s, tables⟩ acts ⟨s', tables⟩ := by
  induction segments generalizing s with
  | nil =>
    obtain ⟨-, rfl⟩ := Prod.mk.inj (Option.some.inj hload)
    exact ⟨[], .nil _⟩
  | cons segment segments ih =>
    obtain ⟨⟨loaded, s₁⟩, hfirst, hload⟩ := Option.bind_eq_some_iff.mp hload
    obtain ⟨acts, hrun⟩ := loadSegment_run segment.fills hA (hfits segment List.mem_cons_self).2 hfirst
    cases loaded with
    | false =>
      obtain ⟨-, rfl⟩ := Prod.mk.inj (Option.some.inj hload)
      exact ⟨acts, hrun⟩
    | true =>
      obtain ⟨acts', hrun'⟩ := ih (fun segment hmem ↦ hfits segment (List.mem_cons_of_mem _ hmem)) hload
      exact ⟨acts ++ acts', hrun.append hrun'⟩

/-- `load` makes a table and adds pages. -/
theorem load_run {segments : List Segment} {supply : List (Option ℕ)} {pml4 : Option ℕ}
    (hfits : ∀ segment ∈ segments, segment.Fits)
    (hload : load (s.supplied supply) base segments = some (ok, pml4, s')) :
    ∃ acts, Run (Step base) ⟨s, tables⟩ acts ⟨s', pml4.toList ++ tables⟩ := by
  obtain ⟨⟨root, s₁⟩, hcreate, hload⟩ := Option.bind_eq_some_iff.mp hload
  have hfirst : Step base ⟨s, tables⟩ .create ⟨s₁, root.toList ++ tables⟩ := .create hcreate
  cases root with
  | none =>
    obtain ⟨-, hrest⟩ := Prod.mk.inj (Option.some.inj hload)
    obtain ⟨rfl, rfl⟩ := Prod.mk.inj hrest
    exact ⟨_, .single hfirst⟩
  | some A =>
    have hA : A ∈ (some A).toList ++ tables := List.mem_cons_self
    obtain ⟨⟨loaded, s₂⟩, hsegments, hload⟩ := Option.bind_eq_some_iff.mp hload
    obtain ⟨acts, hrun⟩ := loadSegments_run segments hA hfits hsegments
    cases loaded with
    | false =>
      obtain ⟨-, hrest⟩ := Prod.mk.inj (Option.some.inj hload)
      obtain ⟨rfl, rfl⟩ := Prod.mk.inj hrest
      exact ⟨_, .cons hfirst hrun⟩
    | true =>
      obtain ⟨⟨success, s₃⟩, hstack, hload⟩ := Option.bind_eq_some_iff.mp hload
      obtain ⟨-, hrest⟩ := Prod.mk.inj (Option.some.inj hload)
      obtain ⟨rfl, rfl⟩ := Prod.mk.inj hrest
      exact ⟨_, .cons hfirst (hrun.snoc (addPage_step hA (by decide) hstack))⟩

end Steps

/-! ### Before and after -/

section Loaded

variable {label' : Labels} {pml4 : Option ℕ} (h : Spaces kernelPages base kernelEntries s label roots none)
  (h' : Spaces kernelPages base kernelEntries s' label' (pml4.toList ++ roots) none)
  (hkept : ∀ p, (s.pages p).isSome → s'.pages p = s.pages p)

include h h' hkept

/-- No page of a new address space was in use. -/
theorem loaded_apart (hnew : s.pages A = none) (hpml4 : pml4 = some A) (hin : Holds s'.pages A p) :
    s.pages p = none := by
  have hA : A ∈ pml4.toList ++ roots := hpml4 ▸ List.mem_cons_self
  refine Option.not_isSome_iff_eq_none.mp fun hp ↦ ?_
  rcases h.used_iff.mp hp with hkernel | ⟨B, hB, hholds⟩
  · rw [(h'.holds_used hA hin).2] at hkernel
    exact Bool.false_ne_true hkernel
  · have hholds' : Holds s'.pages B p := (holds_congr fun q hq ↦ hkept q (h.holds_used hB hq).1).mpr hholds
    obtain rfl := h'.holds_apart (List.mem_append_right _ hB) hA hholds' hin
    have hused := (h.root_used hB).1
    rw [hnew] at hused
    exact Bool.false_ne_true hused

/-- The pages that are not those of a new address space are as before. -/
theorem loaded_rest (hout : ∀ A, pml4 = some A → ¬Holds s'.pages A p) : s'.pages p = s.pages p := by
  by_cases hp : (s.pages p).isSome
  · exact hkept p hp
  · have hp' : ¬(s'.pages p).isSome := by
      rw [h'.used_iff]
      rintro (hkernel | ⟨B, hB, hholds⟩)
      · exact hp (h.used_iff.mpr (Or.inl hkernel))
      · rcases List.mem_append.mp hB with hB | hB
        · exact hout B (Option.mem_toList.mp hB) hholds
        · refine hp (h.holds_used hB ((holds_congr fun q hq ↦ ?_).mp hholds)).1
          exact hkept q (h.holds_used hB hq).1
    rw [Option.not_isSome_iff_eq_none.mp hp, Option.not_isSome_iff_eq_none.mp hp']

end Loaded

/-- A program is loaded by steps that do not fault and change no page in use, whatever fails on the way, and
`process_cleanup` leaves the pages as they were before. -/
theorem run_load_undone {kernel : Kernel} {s₀ s₁ : Machine} {memEnd : ℕ} {acts : List Act} {sys : System}
    {supply : List (Option ℕ)} {segments : List Segment} (hmem : memEnd ≤ 2 ^ 47)
    (hinit : pagingInit kernel s₀ memEnd = some (base, s₁)) (hrun : Run (Step base) ⟨s₁, []⟩ acts sys)
    (hsupplied : Supplied (sys.machine.supplied supply)) (hfits : ∀ segment ∈ segments, segment.Fits) :
    ∃ ok pml4 s' s'', load (sys.machine.supplied supply) base segments = some (ok, pml4, s') ∧
      (∃ acts', Run (Step base) sys acts' ⟨s', pml4.toList ++ sys.tables⟩) ∧
      (∀ p entries, sys.machine.pages p = some entries → s'.pages p = some entries) ∧
      processCleanup s' base pml4 = some s'' ∧ s''.pages = sys.machine.pages := by
  obtain ⟨kernelEntries, label, h⟩ := run_accounted hmem hinit hrun
  obtain ⟨ok, pml4, s', hload, ⟨label', h'⟩, hnew, hsame⟩ :=
    load_spec segments (h.supplied supply) hfits hsupplied
  have hentries : ∀ p entries, sys.machine.pages p = some entries → s'.pages p = some entries :=
    fun p entries hp ↦ (hsame p (congrArg Option.isSome hp)).trans hp
  have hsteps : ∃ acts', Run (Step base) sys acts' ⟨s', pml4.toList ++ sys.tables⟩ := load_run hfits hload
  cases pml4 with
  | none =>
    refine ⟨ok, none, s', s', hload, hsteps, hentries, rfl, funext fun p ↦ ?_⟩
    exact loaded_rest h h' hsame fun A hA ↦ absurd hA.symm (Option.some_ne_none A)
  | some A =>
    obtain ⟨s'', hdestroy, hgone, hsame'⟩ := h'.destroy_eq List.mem_cons_self
    refine ⟨ok, some A, s', s'', hload, hsteps, hentries, hdestroy, funext fun p ↦ ?_⟩
    by_cases hin : Holds s'.pages A p
    · rw [hgone p hin, loaded_apart h h' hsame (hnew A rfl) rfl hin]
    · rw [hsame' p hin]
      exact loaded_rest h h' hsame fun B hB ↦ Option.some.inj hB ▸ hin

/-- After a boot, a program for whose first page there is no table. -/
theorem run_load_undone_boot : ∃ base s₁ s' s'', pagingInit ⟨0, 0⟩ bootMachine pgSize = some (base, s₁) ∧
    load (s₁.supplied [some (nthPage 4), some (nthPage 5), none]) base [⟨0x400000, [some id], true⟩] =
      some (false, some (nthPage 4), s') ∧
    processCleanup s' base (some (nthPage 4)) = some s'' ∧ s''.pages = s₁.pages := by
  let boot := (pagingInit ⟨0, 0⟩ bootMachine pgSize).get (by decide +kernel)
  let supply := [some (nthPage 4), some (nthPage 5), none]
  have hinit : pagingInit ⟨0, 0⟩ bootMachine pgSize = some boot := (Option.some_get _).symm
  have hsupplied : Supplied (boot.2.supplied supply) := by
    refine ⟨fun page hpage ↦ ?_, by decide⟩
    have hpage' : some page ∈ supply := hpage
    obtain rfl | rfl : page = nthPage 4 ∨ page = nthPage 5 := by simpa [supply] using hpage'
    · decide +kernel
    · decide +kernel
  let segments : List Segment := [⟨0x400000, [some id], true⟩]
  have hrun : Run (Step boot.1) ⟨boot.2, []⟩ [] ⟨boot.2, []⟩ := .nil _
  have hfits : ∀ segment ∈ segments, segment.Fits := by
    intro segment hmem
    obtain rfl := List.mem_singleton.mp hmem
    exact ⟨by decide, by decide⟩
  obtain ⟨ok, pml4, s', s'', hload, -, -, hcleanup, hpages⟩ :=
    run_load_undone (by decide) hinit hrun hsupplied hfits
  have hresult : (load (boot.2.supplied supply) boot.1 segments).map
      (fun result ↦ (result.1, result.2.1)) = some (false, some (nthPage 4)) := by
    decide +kernel
  have hsame := (congrArg (Option.map fun result ↦ (result.1, result.2.1)) hload).symm.trans hresult
  obtain ⟨rfl, rfl⟩ := Prod.mk.inj (Option.some.inj hsame)
  exact ⟨boot.1, boot.2, s', s'', hinit, hload, hcleanup, hpages⟩

end Jungle.Processes
