import Jungle.Paging.SpaceUpdates
import Jungle.Processes.Basic

/-!
# The pages of processes

Every step of a process keeps the pages in use in their places (`Step.spaces`): those of the kernel stay as
they are, and each other one is a page of one address space.
-/

set_option autoImplicit false
set_option relaxedAutoImplicit false

namespace Jungle.Processes

open Jungle.Lib Jungle.Paging

variable {kernelPages : Store (ℕ → ℕ)} {base : ℕ} {kernelEntries : ℕ → ℕ} {s s' : Machine} {label : Labels}
  {roots : List ℕ} {A B p u v x : ℕ}

/-- The pages in use are those of the kernel and of the address spaces. -/
def Accounted (kernelPages : Store (ℕ → ℕ)) (base : ℕ) (kernelEntries : ℕ → ℕ) (sys : System) : Prop :=
  ∃ label, Spaces kernelPages base kernelEntries sys.machine label sys.tables none

/-! ### Steps -/

theorem pml4_eq_zero (hu : u < 2 ^ 39) : pml4 u = 0 := by
  rw [pml4, index_eq, Nat.div_eq_of_lt hu, Nat.zero_mod]

theorem pages_of_pallocFreePage (hfree : pallocFreePage s p = some s') : s'.pages = s.pages.free p := by
  obtain ⟨_, -, hfree⟩ := Option.bind_eq_some_iff.mp hfree
  rw [← Option.some.inj hfree]

/-- `install_page` maps the page that has just been got, or fails. -/
theorem installPage_spaces {k : ℕ} {writable ok : Bool}
    (h : Spaces kernelPages base kernelEntries s label roots (some k)) (hA : A ∈ roots)
    (hk : IsKernelPage k) (hu : u < 2 ^ 39)
    (hinstall : installPage s base A u k writable = some (ok, s')) :
    ok = false ∧ s'.pages = s.pages ∨
      ok = true ∧ ∃ label', Spaces kernelPages base kernelEntries s' label' roots none := by
  obtain ⟨page?, hget, hinstall⟩ := Option.bind_eq_some_iff.mp hinstall
  cases page? with
  | some _ =>
    obtain ⟨rfl, rfl⟩ := Prod.mk.inj (Option.some.inj hinstall)
    exact Or.inl ⟨rfl, rfl⟩
  | none => exact h.setPage hA hk (pml4_eq_zero hu) hget hinstall

/-- Adding a page: it is mapped or given back. -/
theorem addPage_spaces {fill : Option (ℕ → ℕ)} {writable ok : Bool}
    (h : Spaces kernelPages base kernelEntries s label roots none) (hA : A ∈ roots) (hu : u < 2 ^ 39)
    (hadd : addPage s base A u fill writable = some (ok, s')) :
    ∃ label', Spaces kernelPages base kernelEntries s' label' roots none := by
  obtain ⟨⟨page?, s₁⟩, halloc, hadd⟩ := Option.bind_eq_some_iff.mp hadd
  rcases pallocGetPage_cases halloc with ⟨rfl, hsame⟩ | ⟨k, rfl, hfree, hpages⟩
  · obtain ⟨-, rfl⟩ := Prod.mk.inj (Option.some.inj hadd)
    exact ⟨label, h.of_pages hsame⟩
  · have h₁ := h.take hfree hpages
    cases fill with
    | none =>
      obtain ⟨s₂, hgive, hadd⟩ := Option.bind_eq_some_iff.mp hadd
      obtain ⟨-, rfl⟩ := Prod.mk.inj (Option.some.inj hadd)
      exact ⟨label, h₁.give (pages_of_pallocFreePage hgive)⟩
    | some contents =>
      obtain ⟨⟨installed, s₂⟩, hinstall, hadd⟩ := Option.bind_eq_some_iff.mp hadd
      obtain ⟨hused, hlabel, hroot⟩ := h₁.spare k rfl
      have h₂ : Spaces kernelPages base kernelEntries { s₁ with pages := s₁.pages.put k contents } label
          roots (some k) :=
        h₁.put hused hlabel hroot (h₁.not_kernel rfl) rfl
      rcases installPage_spaces h₂ hA hfree.isKernelPage hu hinstall with
        ⟨rfl, hsame⟩ | ⟨rfl, label', h'⟩
      · obtain ⟨s₃, hgive, hadd⟩ := Option.bind_eq_some_iff.mp hadd
        obtain ⟨-, rfl⟩ := Prod.mk.inj (Option.some.inj hadd)
        exact ⟨label, (h₂.of_pages hsame).give (pages_of_pallocFreePage hgive)⟩
      · obtain ⟨-, rfl⟩ := Prod.mk.inj (Option.some.inj hadd)
        exact ⟨label', h'⟩

/-- What an address behind the first entry of a table is mapped to. -/
theorem getPage_maps (h : Spaces kernelPages base kernelEntries s label roots none) (hA : A ∈ roots)
    (hu : u < 2 ^ 39) (hget : pml4GetPage s A u = some (some x)) :
    ∃ pte frame, find (ptx u) (indices u) s A = some (some pte) ∧
      Maps s label A pte.table pte.idx frame ∧ x = frame + u % 4096 ∧ frame % 4096 = 0 := by
  have huser : isUserVaddr u := by
    refine decide_eq_true ?_
    unfold kernBase
    omega
  obtain ⟨-, entries, htop, -⟩ := h.layout.root A hA
  rw [pml4GetPage_eq huser] at hget
  obtain ⟨pte?, hfind, hget⟩ := Option.bind_eq_some_iff.mp hget
  cases pte? with
  | none => exact absurd (Option.some.inj hget).symm (Option.some_ne_none x)
  | some pte =>
    obtain ⟨entry, hread, hget⟩ := Option.map_eq_some_iff.mp hget
    obtain ⟨es, hes, rfl⟩ := Option.map_eq_some_iff.mp hread
    obtain ⟨hlabel, hidx⟩ := htop.find_label h.layout.owned hfind
    rw [pml4_eq_zero hu, ownerOf, if_neg h.vacant] at hlabel
    by_cases hpresent : present (es pte.idx)
    · rw [if_pos hpresent] at hget
      have hlt : pte.idx < 512 := hidx ▸ index_lt ..
      refine ⟨pte, ptov (pteAddr (es pte.idx)), hfind, ⟨hlabel, leadsTo_of_present hes hlt hpresent⟩, ?_, ?_⟩
      · rw [← Option.some.inj hget, pgOfs_eq]
      · rw [pteAddr_eq, ptov, kernBase]
        omega
    · rw [if_neg hpresent] at hget
      exact absurd hget.symm (Option.some_ne_none x)

/-- Every step keeps the pages accounted for. -/
theorem Step.accounted {sys sys' : System} {act : Act} (h : Accounted kernelPages base kernelEntries sys)
    (hstep : Step base sys act sys') : Accounted kernelPages base kernelEntries sys' := by
  obtain ⟨label, h⟩ := h
  cases hstep with
  | create hcreate => exact ⟨label, (h.supplied _).create hcreate⟩
  | addPage hpml4 hupage hadd => exact addPage_spaces (h.supplied _) hpml4 hupage hadd
  | store hpml4 hupage haligned hget =>
    obtain ⟨pte, frame, -, hmaps, rfl, -⟩ := getPage_maps h hpml4 hupage hget
    obtain ⟨hused, hlabel, hroot, -, hkernel⟩ := h.plain _ _ _ _ hmaps
    rw [(pgOfs_eq _).symm.trans haligned, Nat.add_zero]
    exact ⟨label, h.put hused hlabel hroot hkernel rfl⟩
  | destroy hpml4 hdestroy =>
    obtain ⟨s', hdestroy', hgone, hsame⟩ := h.destroy_eq hpml4
    obtain rfl := Option.some.inj (hdestroy.symm.trans hdestroy')
    exact ⟨_, h.destroy hpml4 hgone hsame⟩

/-! ### Runs -/

/-- With at most 128 TiB of memory the kernel's table has no first entry. -/
theorem physicalPages_above {memEnd pa : ℕ} (hmem : memEnd ≤ 2 ^ 47) (hpa : pa ∈ physicalPages memEnd) :
    pml4 (ptov pa) ≠ 0 := by
  obtain ⟨n, hn, rfl⟩ := List.mem_map.mp hpa
  have hn := List.mem_range.mp hn
  rw [pml4, index_eq, ptov]
  unfold pgSize kernBase at *
  omega

/-- Every run after `paging_init` keeps the pages accounted for. -/
theorem run_accounted {kernel : Kernel} {s₀ s₁ : Machine} {memEnd : ℕ} {acts : List Act} {sys : System}
    (hmem : memEnd ≤ 2 ^ 47) (hinit : pagingInit kernel s₀ memEnd = some (base, s₁))
    (hrun : Run (Step base) ⟨s₁, []⟩ acts sys) : ∃ kernelEntries,
      Accounted s₁.pages base kernelEntries sys := by
  obtain ⟨label, kernelEntries, h, hpresent⟩ := pagingInit_layout hinit
  have hvacant : ¬present (kernelEntries 0) := by
    intro hzero
    obtain ⟨pa, hpa, hindex⟩ := hpresent 0 hzero
    exact physicalPages_above hmem hpa hindex.symm
  exact ⟨kernelEntries, hrun.invariant (fun _ _ _ ↦ Step.accounted) ⟨_, .init h hvacant⟩⟩

/-! ### Whose pages they are -/

/-- The tables of an address space. -/
def HoldsTable (pages : Store (ℕ → ℕ)) (A page : ℕ) : Prop :=
  page = A ∨ ∃ c, LeadsTo pages A 0 c ∧ PagesBelow pages 2 c page

/-- What is below a table of an address space, but not behind its last level. -/
theorem labelled_of_below {n m : ℕ} (h : Owned s label) (hp : label p = some (n, .own A 0)) (hm : m ≤ n)
    {q : ℕ} (hbelow : PagesBelow s.pages m p q) : ∃ k, label q = some (k, .own A 0) := by
  induction m generalizing n p with
  | zero =>
    obtain rfl : q = p := hbelow
    exact ⟨n, hp⟩
  | succ m ih =>
    rcases hbelow with rfl | ⟨i, c, hleads, hbelow⟩
    · exact ⟨n, hp⟩
    · obtain ⟨k, rfl⟩ := Nat.exists_eq_succ_of_ne_zero (Nat.ne_of_gt (Nat.zero_lt_of_lt hm))
      exact ih (h.leadsTo hp hleads) (Nat.le_of_succ_le_succ hm) hbelow

/-- A page that is mapped is no table. -/
theorem not_holdsTable (h : Spaces kernelPages base kernelEntries s label roots none) (hB : B ∈ roots)
    {t i : ℕ} (hmaps : Maps s label A t i p) : ¬HoldsTable s.pages B p := by
  obtain ⟨-, hlabel, hout, -⟩ := h.plain A t i p hmaps
  rintro (rfl | ⟨c, hleads, hbelow⟩)
  · exact hout hB
  · obtain ⟨k, hlabel'⟩ := labelled_of_below h.layout.owned (h.top_label hB hleads) (Nat.le_refl 2) hbelow
    exact Option.some_ne_none _ (hlabel'.symm.trans hlabel)

/-- A byte is mapped at one address. -/
theorem getPage_inj (h : Spaces kernelPages base kernelEntries s label roots none) (hA : A ∈ roots)
    (hB : B ∈ roots) (hu : u < 2 ^ 39) (hv : v < 2 ^ 39) (hget : pml4GetPage s A u = some (some x))
    (hget' : pml4GetPage s B v = some (some x)) : A = B ∧ u = v := by
  obtain ⟨pte, frame, hfind, hmaps, hx, haligned⟩ := getPage_maps h hA hu hget
  obtain ⟨pte', frame', hfind', hmaps', hx', haligned'⟩ := getPage_maps h hB hv hget'
  obtain ⟨hframe, hofs⟩ : frame = frame' ∧ u % 4096 = v % 4096 := by omega
  subst hframe
  obtain ⟨htable, hidx⟩ := h.once A B pte.table pte'.table pte.idx pte'.idx frame hmaps hmaps'
  have hlabel := hmaps'.1
  rw [← htable, hmaps.1] at hlabel
  obtain ⟨rfl, -⟩ := Owner.own.inj (Prod.mk.inj (Option.some.inj hlabel)).2
  have hpte : pte = pte' := by
    cases pte
    cases pte'
    exact congrArg₂ Slot.mk htable hidx
  obtain ⟨-, entries, htop, -⟩ := h.layout.root A hA
  have hindices := htop.find_inj h.layout.owned (fun _ _ ↦ ownerOf_inj) (hpte ▸ hfind) hfind'
  have huser : ∀ a, a < 2 ^ 39 → isUserVaddr a := by
    intro a ha
    refine decide_eq_true ?_
    unfold kernBase
    omega
  have hpage := page_of_indices (huser u hu) (huser v hv) hindices
  exact ⟨rfl, by omega⟩

/-- Destroying an address space does not show in another one. -/
theorem destroy_getPage {roots' : List ℕ} {label' : Labels}
    (h : Spaces kernelPages base kernelEntries s label roots none)
    (h' : Layout s' label' base kernelEntries roots') (hA : A ∈ roots) (hB : B ∈ roots) (hB' : B ∈ roots')
    (hne : B ≠ A) (hsame : ∀ p, ¬Holds s.pages A p → s'.pages p = s.pages p) (hv : isUserVaddr v) :
    pml4GetPage s' B v = pml4GetPage s B v := by
  have hout : ∀ p, Holds s.pages B p → ¬Holds s.pages A p := fun p hp hp' ↦
    hne (h.holds_apart hB hA hp hp')
  obtain ⟨-, entries, htop, -⟩ := h.layout.root B hB
  obtain ⟨-, entries', htop', -⟩ := h'.root B hB'
  have hpage := hsame B (hout B (Or.inl rfl))
  obtain rfl := Option.some.inj (htop'.page.symm.trans (hpage.trans htop.page))
  refine htop.getPage_congr htop' h.layout.owned hv fun p m hp ↦ hsame p fun hholds ↦ ?_
  rcases (h.holds_iff hA).mp hholds with rfl | ⟨n, hlabel⟩ | ⟨t, i, hmaps⟩
  · exact Option.some_ne_none _ (hp.symm.trans (h.root_used hA).2)
  · have howner := (Prod.mk.inj (Option.some.inj (hp.symm.trans hlabel))).2
    unfold ownerOf at howner
    split_ifs at howner
    exact hne (Owner.own.inj howner).1
  · exact Option.some_ne_none _ (hp.symm.trans (h.plain A t i p hmaps).2.1)

/-- Two processes after a boot, of which the first has a page at the address `0x400000`. -/
theorem exists_two_processes : ∃ base s₁ acts sys A B,
    pagingInit ⟨0, 0⟩ bootMachine pgSize = some (base, s₁) ∧ Run (Step base) ⟨s₁, []⟩ acts sys ∧
      A ∈ sys.tables ∧ B ∈ sys.tables ∧ A ≠ B ∧
      pml4GetPage sys.machine A 0x400123 = some (some (nthPage 6 + 0x123)) := by
  let boot := (pagingInit ⟨0, 0⟩ bootMachine pgSize).get (by decide +kernel)
  let first := (pml4Create (boot.2.supplied [some (nthPage 4)]) boot.1).get (by decide +kernel)
  let second := (pml4Create (first.2.supplied [some (nthPage 5)]) boot.1).get (by decide +kernel)
  let supply := [some (nthPage 6), some (nthPage 7), some (nthPage 8), some (nthPage 9)]
  let third := (addPage (second.2.supplied supply) boot.1 (nthPage 4) 0x400000 (some fun i ↦ i) true).get
    (by decide +kernel)
  have hboot : pagingInit ⟨0, 0⟩ bootMachine pgSize = some boot := (Option.some_get _).symm
  have hfirst : pml4Create (boot.2.supplied [some (nthPage 4)]) boot.1 = some first :=
    (Option.some_get _).symm
  have hsecond : pml4Create (first.2.supplied [some (nthPage 5)]) boot.1 = some second :=
    (Option.some_get _).symm
  have hthird : addPage (second.2.supplied supply) boot.1 (nthPage 4) 0x400000 (some fun i ↦ i) true =
      some third := (Option.some_get _).symm
  have hmem : nthPage 4 ∈ second.1.toList ++ (first.1.toList ++ []) := by decide +kernel
  refine ⟨boot.1, boot.2, [.create, .create, .addPage (nthPage 4) 0x400000],
    ⟨third.2, second.1.toList ++ (first.1.toList ++ [])⟩, nthPage 4, nthPage 5, hboot,
    .cons (.create hfirst) (.cons (.create hsecond) (.single (.addPage hmem (by decide) hthird))), hmem,
    by decide +kernel, by decide +kernel, by decide +kernel⟩

section Results

variable {kernel : Kernel} {s₀ s₁ : Machine} {memEnd : ℕ} {acts : List Act} {sys : System}

/-- No page is lost and none has two owners: after any steps of processes the pages in use are those that the
kernel has after `paging_init`, which are as they were, and the pages of the address spaces, each of one of
them. -/
theorem run_conserves_pages (hmem : memEnd ≤ 2 ^ 47) (hinit : pagingInit kernel s₀ memEnd = some (base, s₁))
    (hrun : Run (Step base) ⟨s₁, []⟩ acts sys) :
    (∀ p entries, s₁.pages p = some entries → sys.machine.pages p = some entries) ∧
      (∀ p, (sys.machine.pages p).isSome ↔
        (s₁.pages p).isSome ∨ ∃ A ∈ sys.tables, Holds sys.machine.pages A p) ∧
      (∀ A ∈ sys.tables, ∀ p, Holds sys.machine.pages A p → s₁.pages p = none ∧
        ∀ B ∈ sys.tables, Holds sys.machine.pages B p → A = B) ∧
      (sys.tables = [] → sys.machine.pages = s₁.pages) := by
  obtain ⟨kernelEntries, label, h⟩ := run_accounted hmem hinit hrun
  have hkept : ∀ p entries, s₁.pages p = some entries → sys.machine.pages p = some entries :=
    fun p entries hp ↦ (h.kernel p entries hp).1
  refine ⟨hkept, fun p ↦ h.used_iff, fun A hA p hp ↦ ⟨(h.holds_used hA hp).2, fun B hB ↦
    h.holds_apart hA hB hp⟩, fun htables ↦ funext fun p ↦ ?_⟩
  cases hp : s₁.pages p with
  | some entries => exact hkept p entries hp
  | none =>
    refine Option.not_isSome_iff_eq_none.mp fun hused ↦ ?_
    rcases h.used_iff.mp hused with hkernel | ⟨A, hA, -⟩
    · rw [hp] at hkernel
      exact Bool.false_ne_true hkernel
    · rw [htables] at hA
      exact List.not_mem_nil hA

/-- The pages of two processes after a boot. -/
theorem run_conserves_pages_boot : ∃ base s₁ acts sys A B,
    pagingInit ⟨0, 0⟩ bootMachine pgSize = some (base, s₁) ∧ Run (Step base) ⟨s₁, []⟩ acts sys ∧
      A ∈ sys.tables ∧ B ∈ sys.tables ∧ A ≠ B ∧
      (∀ p entries, s₁.pages p = some entries → sys.machine.pages p = some entries) ∧
      ∀ p, Holds sys.machine.pages A p → ¬Holds sys.machine.pages B p := by
  obtain ⟨base, s₁, acts, sys, A, B, hinit, hrun, hA, hB, hne, -⟩ := exists_two_processes
  obtain ⟨hkept, -, happart, -⟩ := run_conserves_pages (by decide) hinit hrun
  exact ⟨base, s₁, acts, sys, A, B, hinit, hrun, hA, hB, hne, hkept, fun p hp hp' ↦
    hne ((happart A hA p hp).2 B hB hp')⟩

/-- The memory of a program is its own: a byte that is mapped for a user is in a page of the address space that
is not a table and not the kernel's, and it is mapped at no other address of any address space. -/
theorem run_frames_private (hmem : memEnd ≤ 2 ^ 47) (hinit : pagingInit kernel s₀ memEnd = some (base, s₁))
    (hrun : Run (Step base) ⟨s₁, []⟩ acts sys) (hA : A ∈ sys.tables) (hu : u < 2 ^ 39)
    (hget : pml4GetPage sys.machine A u = some (some x)) :
    (∃ frame, x = frame + u % 4096 ∧ frame % 4096 = 0 ∧ Holds sys.machine.pages A frame ∧
      s₁.pages frame = none ∧ ∀ B ∈ sys.tables, ¬HoldsTable sys.machine.pages B frame) ∧
      ∀ B ∈ sys.tables, ∀ v < 2 ^ 39, pml4GetPage sys.machine B v = some (some x) → A = B ∧ u = v := by
  obtain ⟨kernelEntries, label, h⟩ := run_accounted hmem hinit hrun
  obtain ⟨pte, frame, -, hmaps, hx, haligned⟩ := getPage_maps h hA hu hget
  have hholds : Holds sys.machine.pages A frame := (h.holds_of_maps hmaps).2
  exact ⟨⟨frame, hx, haligned, hholds, (h.holds_used hA hholds).2, fun B hB ↦ not_holdsTable h hB hmaps⟩,
    fun B hB v hv hget' ↦ getPage_inj h hA hB hu hv hget hget'⟩

/-- A byte of one of two processes after a boot. -/
theorem run_frames_private_boot : ∃ base s₁ acts sys A B x,
    pagingInit ⟨0, 0⟩ bootMachine pgSize = some (base, s₁) ∧ Run (Step base) ⟨s₁, []⟩ acts sys ∧
      A ∈ sys.tables ∧ B ∈ sys.tables ∧ pml4GetPage sys.machine A 0x400123 = some (some x) ∧
      ∀ v < 2 ^ 39, pml4GetPage sys.machine B v ≠ some (some x) := by
  obtain ⟨base, s₁, acts, sys, A, B, hinit, hrun, hA, hB, hne, hget⟩ := exists_two_processes
  have hprivate := run_frames_private (by decide) hinit hrun hA (by decide) hget
  exact ⟨base, s₁, acts, sys, A, B, _, hinit, hrun, hA, hB, hget, fun v hv hget' ↦
    hne (hprivate.2 B hB v hv hget').1⟩

/-- `pml4_destroy` of any address space gives back its pages and no other ones, and the other address spaces
keep their mappings. -/
theorem run_destroy_exact (hmem : memEnd ≤ 2 ^ 47) (hinit : pagingInit kernel s₀ memEnd = some (base, s₁))
    (hrun : Run (Step base) ⟨s₁, []⟩ acts sys) (hA : A ∈ sys.tables) :
    ∃ s', pml4Destroy sys.machine base A = some s' ∧
      (∀ p, Holds sys.machine.pages A p → s'.pages p = none) ∧
      (∀ p, ¬Holds sys.machine.pages A p → s'.pages p = sys.machine.pages p) ∧
      ∀ B ∈ sys.tables, B ≠ A → ∀ v, isUserVaddr v →
        pml4GetPage s' B v = pml4GetPage sys.machine B v := by
  obtain ⟨kernelEntries, label, h⟩ := run_accounted hmem hinit hrun
  obtain ⟨s', hdestroy, hgone, hsame⟩ := h.destroy_eq hA
  have hlayout := (h.destroy hA hgone hsame).layout
  refine ⟨s', hdestroy, hgone, hsame, fun B hB hne v hv ↦
    destroy_getPage h hlayout hA hB ?_ hne hsame hv⟩
  exact List.mem_filter.mpr ⟨hB, decide_eq_true hne⟩

/-- The first of two processes after a boot is destroyed. -/
theorem run_destroy_exact_boot : ∃ base s₁ acts sys A B s',
    pagingInit ⟨0, 0⟩ bootMachine pgSize = some (base, s₁) ∧ Run (Step base) ⟨s₁, []⟩ acts sys ∧
      A ∈ sys.tables ∧ B ∈ sys.tables ∧ pml4Destroy sys.machine base A = some s' ∧ s'.pages A = none ∧
      pml4GetPage s' B 0x400123 = pml4GetPage sys.machine B 0x400123 := by
  obtain ⟨base, s₁, acts, sys, A, B, hinit, hrun, hA, hB, hne, -⟩ := exists_two_processes
  obtain ⟨s', hdestroy, hgone, -, hkept⟩ := run_destroy_exact (by decide) hinit hrun hA
  exact ⟨base, s₁, acts, sys, A, B, s', hinit, hrun, hA, hB, hdestroy, hgone A (Or.inl rfl),
    hkept B hB hne.symm 0x400123 (by decide)⟩

end Results

end Jungle.Processes
