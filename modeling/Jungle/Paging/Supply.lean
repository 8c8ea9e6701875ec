import Jungle.Paging.Updates

/-!
# Updates with enough memory

With three free pages to be had `pml4_set_page` maps its page (`Layout.setPage_plenty`).
-/

set_option autoImplicit false
set_option relaxedAutoImplicit false

namespace Jungle.Paging

open Jungle.Lib

/-- The next calls of `palloc_get_page` return free pages, so many of them at least. -/
structure Plenty (s : Machine) (n : ℕ) : Prop where
  supplied : Supplied s
  enough : n ≤ s.supply.length
  never : none ∉ s.supply

variable {s s' : Machine} {label : Labels} {leaf table idx n m : ℕ} {o : Owner} {entries : ℕ → ℕ}

theorem Plenty.mono (h : Plenty s n) (hle : m ≤ n) : Plenty s m :=
  ⟨h.supplied, Nat.le_trans hle h.enough, h.never⟩

/-- The first of the pages, and the others after it has become a table. -/
theorem Plenty.pop (h : Plenty s (n + 1)) : ∃ page supply, s.supply = some page :: supply ∧
    IsFreePage s page ∧ ∀ {table entries}, s.pages table = some entries → ∀ idx,
      Plenty ⟨linkPage s table idx page entries, supply⟩ n := by
  have henough := h.enough
  have hsome := h.never
  cases hsupply : s.supply with
  | nil =>
    rw [hsupply] at henough
    exact absurd henough (Nat.not_succ_le_zero n)
  | cons page? supply =>
    rw [hsupply] at henough hsome
    cases page? with
    | none => exact absurd List.mem_cons_self hsome
    | some page =>
      refine ⟨page, supply, rfl, h.supplied.1 page (hsupply ▸ List.mem_cons_self), ?_⟩
      intro table entries hentries idx
      exact ⟨h.supplied.linkPage hsupply hentries, Nat.le_of_succ_le_succ henough,
        fun hnone ↦ hsome (List.mem_cons_of_mem _ hnone)⟩

/-- A step of a walk takes one page at most. -/
theorem walkLevel_plenty {next : Machine → ℕ → Option (Option Slot × Machine)} (hnonzero : table ≠ 0)
    (hentries : s.pages table = some entries) (hplenty : Plenty s (n + 1))
    (hold : present (entries idx) → ∃ slot s', next s (ptov (pteAddr (entries idx))) =
      some (some slot, s') ∧ Plenty s' m)
    (hnew : ∀ page s₁, IsFreePage s page → s₁.pages = linkPage s table idx page entries →
      Plenty s₁ n → ∃ slot s', next s₁ page = some (some slot, s') ∧ Plenty s' m) :
    ∃ slot s', walkLevel next s table idx true = some (some slot, s') ∧ Plenty s' m := by
  rw [walkLevel, if_neg hnonzero]
  dsimp only [Bind.bind]
  rw [readEntry_eq hentries, Option.bind_some]
  by_cases hpresent : present (entries idx)
  · rw [if_pos hpresent]
    exact hold hpresent
  obtain ⟨page, supply, hsupply, hfree, hrest⟩ := hplenty.pop
  have hentries₁ : (s.pages.put page fun _ ↦ 0) table = some entries :=
    (Store.put_of_ne _ (hfree.ne hentries) _).trans hentries
  obtain ⟨slot, s', hnext, hplenty'⟩ :=
    hnew page ⟨linkPage s table idx page entries, supply⟩ hfree rfl (hrest hentries idx)
  refine ⟨slot, s', ?_, hplenty'⟩
  rw [if_neg hpresent, if_pos rfl, pallocGetPage, hsupply]
  dsimp only
  rw [if_pos hfree, Option.bind_some]
  dsimp only
  rw [writeEntry_eq (s := ⟨s.pages.put page fun _ ↦ 0, supply⟩) hentries₁, Option.bind_some,
    readEntry_eq (Store.put_self ..), Option.bind_some, Function.update_self,
    (table_entry hfree.isKernelPage).1]
  change (next ⟨linkPage s table idx page entries, supply⟩ page).bind _ = _
  rw [hnext, Option.bind_some]
  rfl

/-- A walk takes one page for each level at most. -/
theorem walk_plenty (leaf : ℕ) (indices : List ℕ) (h : Owned s label)
    (htable : label table = some (indices.length, o)) (hplenty : Plenty s (indices.length + m)) :
    ∃ slot s', walk leaf true indices s table = some (some slot, s') ∧ Plenty s' m := by
  induction indices generalizing s label table with
  | nil => exact ⟨_, s, rfl, hplenty.mono (Nat.le_add_left ..)⟩
  | cons idx indices ih =>
    obtain ⟨hnonzero, hsome⟩ := h.page table _ htable
    obtain ⟨entries, hentries⟩ := Option.isSome_iff_exists.mp hsome
    have hcount : (idx :: indices).length + m = indices.length + m + 1 := by
      rw [List.length_cons]
      omega
    rw [hcount] at hplenty
    refine walkLevel_plenty hnonzero hentries hplenty (fun hpresent ↦
      ih h (h.child htable hentries hpresent) (hplenty.mono (Nat.le_succ _))) ?_
    intro page s₁ hfree hpages hplenty₁
    refine ih (h.linkPage hfree hentries (n := indices.length) (o := o) ?_ hpages)
      (Function.update_self ..) hplenty₁
    intro n' o' hm
    obtain ⟨rfl, rfl⟩ := Prod.mk.inj (Option.some.inj (htable.symm.trans hm))
    exact ⟨rfl, rfl⟩

/-- Writing to a table takes no page. -/
theorem Plenty.write (h : Plenty s n) {entry : ℕ} (hwrite : writeEntry s table idx entry = some s') :
    Plenty s' n := by
  obtain ⟨page, hpage, hs'⟩ := Option.bind_eq_some_iff.mp hwrite
  obtain rfl := Option.some.inj hs'
  refine ⟨⟨fun page' hpage' ↦ ?_, h.supplied.2⟩, h.enough, h.never⟩
  have hfree := h.supplied.1 page' hpage'
  exact ⟨hfree.1, hfree.2.1, hfree.2.2.1,
    (Store.put_of_ne _ (hfree.ne hpage).symm _).trans hfree.2.2.2⟩

/-- `pml4_set_page` maps the page and takes three pages at most. -/
theorem Layout.setPage_plenty {base root u k : ℕ} {kernelEntries : ℕ → ℕ} {roots : List ℕ}
    (h : Layout s label base kernelEntries roots) (hroot : root ∈ roots) (hu : pgOfs u = 0)
    (hv : isUserVaddr u) (hk : IsKernelPage k) (hplenty : Plenty s (3 + m)) (rw : Bool) :
    ∃ s', pml4SetPage s base root u k rw = some (true, s') ∧ Plenty s' m := by
  obtain ⟨hne, topEntries, htop, -⟩ := h.root root hroot
  have hcount : 3 + m = 2 + m + 1 := by omega
  rw [hcount] at hplenty
  obtain ⟨pte, s₁, hwalk, hplenty₁⟩ :
      ∃ pte s₁, pml4eWalk s root u true = some (some pte, s₁) ∧ Plenty s₁ m := by
    refine walkLevel_plenty htop.nonzero htop.page hplenty
      (fun hpresent ↦ walk_plenty (ptx u) [Paging.pdpe u, pdx u] h.owned (htop.child hpresent)
        (hplenty.mono (Nat.le_succ _))) ?_
    intro page s₁ hfree hpages hplenty₁
    have hroot' : ∀ m o', label root = some (m, o') → m = 2 + 1 ∧ o' = Owner.shared 0 :=
      fun m o' hm ↦ absurd (htop.unlabelled.symm.trans hm) (by simp)
    exact walk_plenty (ptx u) [Paging.pdpe u, pdx u]
      (h.owned.linkPage hfree htop.page hroot' hpages) (Function.update_self ..) hplenty₁
  obtain ⟨last, label', hpte, hreaches⟩ :=
    (htop.walk_spec h.owned hwalk).resolve_left fun hnone ↦ by simp at hnone
  obtain rfl := Option.some.inj hpte
  obtain ⟨page, hpage⟩ :=
    Option.isSome_iff_exists.mp (hreaches.owned.page last _ hreaches.level).2
  have hofs : pgOfs k = 0 := (pgOfs_eq k).trans hk.aligned
  have hwrite := writeEntry_eq hpage (ptx u)
    (vtop k ||| pteP ||| (if rw then pteW else 0) ||| pteU)
  refine ⟨_, ?_, hplenty₁.write hwrite⟩
  unfold pml4SetPage
  dsimp only [Bind.bind]
  rw [guard, if_pos ⟨hu, hofs, hv, hne⟩, hwalk, Option.pure_def, Option.bind_some, Option.bind_some]
  dsimp only
  rw [guard, if_pos hk.kernel, Option.pure_def, Option.bind_some, hwrite, Option.bind_some]
  rfl

end Jungle.Paging
