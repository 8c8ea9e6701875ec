import Jungle.Paging.Isolation

/-!
# What the updates of a page table do

`entryAt` is the entry that a walk finds, if it is present. A walk that creates tables changes no such
entry, for the tables that it creates are empty (`walk_entryAt`), and two addresses in different pages
end at different entries (`find_inj`). So `pml4_set_page` and `pml4_clear_page` change the page of one
address only, or nothing (`setPage_clearPage_exact`).
-/

set_option autoImplicit false
set_option relaxedAutoImplicit false

namespace Jungle.Paging

open Jungle.Lib

variable {s s' s₁ : Machine} {label : Labels} {n leaf table idx : ℕ} {o : Owner}
  {entries : ℕ → ℕ}

/-! ### Entries -/

/-- The entry that a walk finds, if it is present. -/
def entryAt (leaf : ℕ) (indices : List ℕ) (s : Machine) (table : ℕ) : Option (Option ℕ) :=
  (find leaf indices s table).bind fun pte ↦ match pte with
    | none => some none
    | some pte => (readEntry s pte.table pte.idx).map fun entry ↦
      if present entry then some entry else none

/-- `pml4_get_page` by the entry. -/
theorem pml4GetPage_entryAt {root v : ℕ} (hv : isUserVaddr v) : pml4GetPage s root v =
    (entryAt (ptx v) (indices v) s root).map
      (Option.map fun entry ↦ ptov (pteAddr entry) + pgOfs v) := by
  rw [pml4GetPage_eq hv, entryAt]
  cases find (ptx v) (indices v) s root with
  | none => rfl
  | some pte =>
    cases pte with
    | none => rfl
    | some pte =>
      rw [Option.bind_some, Option.bind_some]
      dsimp only
      rw [Option.map_map]
      congr 1
      funext entry
      by_cases hpresent : present entry <;> simp [hpresent]

theorem entryAt_nil (hentries : s.pages table = some entries) : entryAt leaf [] s table =
    some (if present (entries leaf) then some (entries leaf) else none) := by
  rw [entryAt, find, Option.bind_some]
  dsimp only
  rw [readEntry_eq hentries, Option.map_some]

theorem entryAt_cons {indices : List ℕ} (htable : table ≠ 0)
    (hentries : s.pages table = some entries) (idx : ℕ) : entryAt leaf (idx :: indices) s table =
      if present (entries idx) then entryAt leaf indices s (ptov (pteAddr (entries idx)))
      else some none := by
  rw [entryAt, find, if_neg htable, readEntry_eq hentries, Option.bind_eq_bind, Option.bind_some]
  split_ifs
  · rfl
  · rfl

/-- There is nothing behind an empty table. -/
theorem entryAt_zero (htable : table ≠ 0) (hzero : s.pages table = some fun _ ↦ 0)
    (leaf : ℕ) (indices : List ℕ) : entryAt leaf indices s table = some none := by
  cases indices with
  | nil => rw [entryAt_nil hzero, if_neg not_present_zero]
  | cons idx indices => rw [entryAt_cons htable hzero, if_neg not_present_zero]

/-- A new table behind an entry that was not present changes no entry. -/
theorem entryAt_linkPage {page : ℕ} (h : Owned s label) (hfree : IsFreePage s page)
    (hentries : s.pages table = some entries) (habsent : ¬present (entries idx))
    (htable : ∀ m o', label table = some (m, o') → m = n + 1 ∧ o' = o)
    (hpages : s₁.pages = linkPage s table idx page entries) (leaf : ℕ) {indices : List ℕ} {q : ℕ}
    {o' : Owner} (hq : label q = some (indices.length, o')) :
    entryAt leaf indices s₁ q = entryAt leaf indices s q := by
  have hzero : s₁.pages page = some fun _ ↦ 0 := by
    rw [hpages, linkPage, Store.put_of_ne _ (hfree.ne hentries).symm, Store.put_self]
  have hpage : ∀ p x, label p = some x → p ≠ page := by
    rintro p x hp rfl
    rw [h.not_labelled hfree] at hp
    exact absurd hp (by simp)
  induction indices generalizing q o' with
  | nil =>
    obtain ⟨es, hes⟩ := Option.isSome_iff_exists.mp (h.page q _ hq).2
    have hne : q ≠ table := by
      rintro rfl
      have hlevel := (htable _ _ hq).1
      rw [List.length_nil] at hlevel
      omega
    have hes₁ : s₁.pages q = some es := by
      rw [hpages, linkPage_of_ne hne (hpage q _ hq), hes]
    rw [entryAt_nil hes, entryAt_nil hes₁]
  | cons i indices ih =>
    obtain ⟨hnonzero, hsome⟩ := h.page q _ hq
    obtain ⟨es, hes⟩ := Option.isSome_iff_exists.mp hsome
    rw [entryAt_cons hnonzero hes]
    by_cases hqt : q = table
    · subst hqt
      obtain rfl := Option.some.inj (hentries.symm.trans hes)
      have hes₁ : s₁.pages q =
          some (Function.update entries idx (vtop page ||| pteU ||| pteW ||| pteP)) := by
        rw [hpages, linkPage, Store.put_self]
      rw [entryAt_cons hnonzero hes₁]
      by_cases hi : i = idx
      · rw [hi, Function.update_self, if_neg habsent, if_pos (table_entry hfree.isKernelPage).2,
          (table_entry hfree.isKernelPage).1, entryAt_zero hfree.ne_zero hzero]
      · rw [Function.update_of_ne hi]
        by_cases hpresent : present (entries i)
        · rw [if_pos hpresent, if_pos hpresent, ih (h.child hq hes hpresent)]
        · rw [if_neg hpresent, if_neg hpresent]
    · have hes₁ : s₁.pages q = some es := by
        rw [hpages, linkPage_of_ne hqt (hpage q _ hq), hes]
      rw [entryAt_cons hnonzero hes₁]
      by_cases hpresent : present (es i)
      · rw [if_pos hpresent, if_pos hpresent, ih (h.child hq hes hpresent)]
      · rw [if_neg hpresent, if_neg hpresent]

/-- Entries go by the pages only. -/
theorem entryAt_congr (hpages : s'.pages = s.pages) (leaf : ℕ) (indices : List ℕ) (table : ℕ) :
    entryAt leaf indices s' table = entryAt leaf indices s table := by
  have hread : readEntry s' = readEntry s := by
    funext table idx
    rw [readEntry, readEntry, hpages]
  have hfind : find leaf indices s' table = find leaf indices s table := by
    induction indices generalizing table with
    | nil => rfl
    | cons idx indices ih => simp only [find, hread, ih]
  rw [entryAt, entryAt, hfind, hread]

/-- A walk that starts at a table of the level changes no entry behind a labelled table. -/
def KeepsEntries (leaf : ℕ) (indices : List ℕ) : Prop :=
  ∀ (s s' : Machine) (label : Labels) (o : Owner) (table : ℕ) (pte : Option Slot), Owned s label →
    label table = some (indices.length, o) → walk leaf true indices s table = some (pte, s') →
      ∀ (leaf' : ℕ) (is : List ℕ) (q : ℕ) (o' : Owner), label q = some (is.length, o') →
        entryAt leaf' is s' q = entryAt leaf' is s q

/-- The rest of a walk leaves the entry alone that leads to the new table. -/
theorem walk_keeps_link {page : ℕ} {indices : List ℕ} {slot : Slot} (h : Owned s label)
    (hfree : IsFreePage s page) (hentries : s.pages table = some entries)
    (htable : ∀ m o', label table = some (m, o') → m = indices.length + 1 ∧ o' = o)
    (hpages : s₁.pages = linkPage s table idx page entries)
    (hnext : walk leaf true indices s₁ page = some (some slot, s')) :
    s'.pages table =
      some (Function.update entries idx (vtop page ||| pteU ||| pteW ||| pteP)) := by
  have htable₁ : s₁.pages table =
      some (Function.update entries idx (vtop page ||| pteU ||| pteW ||| pteP)) := by
    rw [hpages, linkPage, Store.put_self]
  obtain ⟨last, label', -, -, hext, -, hkept, -⟩ := (walk_spec leaf indices s₁ s' _ o page _
    (h.linkPage hfree hentries htable hpages) (Function.update_self ..) hnext).resolve_left
      fun hnone ↦ by simp at hnone
  rw [hkept table fun m hm hlabel ↦ ?_, htable₁]
  rcases hext.adds table m o hlabel with hold | ⟨-, hnone⟩
  · rw [Function.update_of_ne (hfree.ne hentries)] at hold
    have hlevel := (htable m o hold).1
    omega
  · rw [htable₁] at hnone
    exact absurd hnone (by simp)

/-- A walk from a table whose entries lead to tables of the level changes no entry behind it or behind
a labelled table. -/
theorem walkLevel_entryAt {indices : List ℕ} {pte : Option Slot}
    (hkeeps : KeepsEntries leaf indices) (h : Owned s label) (hnonzero : table ≠ 0)
    (hentries : s.pages table = some entries)
    (hentry : ∀ i, entries i = 0 ∨ present (entries i) ∧
      ∃ o', label (ptov (pteAddr (entries i))) = some (indices.length, o'))
    (hchild : present (entries idx) → label (ptov (pteAddr (entries idx))) = some (indices.length, o))
    (htable : ∀ m o', label table = some (m, o') → m = indices.length + 1 ∧ o' = o)
    (hwalk : walk leaf true (idx :: indices) s table = some (pte, s')) (leaf' : ℕ) :
    (∀ (is : List ℕ) (q : ℕ) (o' : Owner), label q = some (is.length, o') →
      entryAt leaf' is s' q = entryAt leaf' is s q) ∧
    ∀ (i : ℕ) (is : List ℕ), is.length = indices.length →
      entryAt leaf' (i :: is) s' table = entryAt leaf' (i :: is) s table := by
  have hspec := walkLevel_spec (walk_spec leaf indices) h hnonzero hentries
    ((hentry idx).imp_right fun hlabel ↦ ⟨hlabel.1, hchild hlabel.1⟩) htable hwalk
  rcases hspec with ⟨-, hsame⟩ | ⟨last, label', hpte, hreaches⟩
  · exact ⟨fun is q _ _ ↦ entryAt_congr hsame leaf' is q,
      fun i is _ ↦ entryAt_congr hsame leaf' (i :: is) table⟩
  obtain ⟨entry, htable', hpresent', hlabel', hentry'⟩ := hreaches.entry
  rcases walkLevel_cases hnonzero hentries hwalk with ⟨hpresent, hnext⟩ | ⟨-, hnone, -⟩ |
    ⟨habsent, page, s₁, s₂, hfree, hpages, hnext, hresult⟩
  · have hbelow := hkeeps _ _ _ _ _ _ h (hchild hpresent) hnext leaf'
    refine ⟨hbelow, fun i is hlength ↦ ?_⟩
    have hkept : Function.update entries idx entry = entries := by
      rw [hentry'.resolve_right fun habsent ↦ habsent hpresent, Function.update_eq_self]
    rw [hkept] at htable'
    rw [entryAt_cons hnonzero hentries, entryAt_cons hnonzero htable']
    by_cases hi : present (entries i)
    · obtain ⟨o', hlabel⟩ :=
        ((hentry i).resolve_left fun hzero ↦ not_present_zero (hzero ▸ hi)).2
      rw [if_pos hi, if_pos hi, hbelow is _ o' (hlength ▸ hlabel)]
    · rw [if_neg hi, if_neg hi]
  · rw [hpte] at hnone
    exact absurd hnone (by simp)
  · have howned := h.linkPage hfree hentries htable hpages
    have hlabel₁ : Function.update label page (some (indices.length, o)) page =
        some (indices.length, o) := Function.update_self ..
    have hs : s' = s₂ := by
      rcases hresult with ⟨_, -, hs⟩ | ⟨hnone, -⟩
      · exact hs
      · rw [hpte] at hnone
        exact absurd hnone (by simp)
    subst hs
    have hbelow : ∀ (is : List ℕ) (q : ℕ) (o' : Owner), label q = some (is.length, o') →
        entryAt leaf' is s' q = entryAt leaf' is s q := fun is q o' hq ↦
      (hkeeps _ _ _ _ _ _ howned hlabel₁ hnext leaf' is q o'
        ((h.extends_update hfree).keeps q _ hq)).trans
        (entryAt_linkPage h hfree hentries habsent htable hpages leaf' hq)
    refine ⟨hbelow, fun i is hlength ↦ ?_⟩
    rw [entryAt_cons hnonzero hentries, entryAt_cons hnonzero htable']
    by_cases hi : i = idx
    · subst hi
      have hlink := walk_keeps_link h hfree hentries htable hpages (hpte ▸ hnext)
      have hentry := congrFun (Option.some.inj (htable'.symm.trans hlink)) i
      rw [Function.update_self, Function.update_self] at hentry
      have hzero : s₁.pages page = some fun _ ↦ 0 := by
        rw [hpages, linkPage, Store.put_of_ne _ (hfree.ne hentries).symm, Store.put_self]
      rw [Function.update_self, if_neg habsent, if_pos hpresent', hentry,
        (table_entry hfree.isKernelPage).1,
        hkeeps _ _ _ _ _ _ howned hlabel₁ hnext leaf' is page o (hlength ▸ hlabel₁),
        entryAt_zero hfree.ne_zero hzero]
    · rw [Function.update_of_ne hi]
      by_cases hpresent : present (entries i)
      · obtain ⟨o', hlabel⟩ :=
          ((hentry i).resolve_left fun hzero ↦ not_present_zero (hzero ▸ hpresent)).2
        rw [if_pos hpresent, if_pos hpresent, hbelow is _ o' (hlength ▸ hlabel)]
      · rw [if_neg hpresent, if_neg hpresent]

/-- Walks through any number of levels change no entry. -/
theorem walk_entryAt (leaf : ℕ) (indices : List ℕ) : KeepsEntries leaf indices := by
  induction indices with
  | nil =>
    intro s s' label o table pte _ _ hwalk leaf' is q o' _
    obtain ⟨-, rfl⟩ := Prod.mk.inj (Option.some.inj hwalk)
    rfl
  | cons idx indices ih =>
    intro s s' label o table pte h htable hwalk leaf' is q o' hq
    obtain ⟨hnonzero, hsome⟩ := h.page table _ htable
    obtain ⟨entries, hentries⟩ := Option.isSome_iff_exists.mp hsome
    refine (walkLevel_entryAt ih h hnonzero hentries (fun i ↦ ?_) (h.child htable hentries) ?_ hwalk
      leaf').1 is q o' hq
    · exact (h.entry table _ o entries i htable hentries).imp_right fun hlabel ↦
        ⟨hlabel.1, o, hlabel.2⟩
    · intro m o'' hm
      obtain ⟨rfl, rfl⟩ := Prod.mk.inj (Option.some.inj (htable.symm.trans hm))
      exact ⟨rfl, rfl⟩

/-- A walk from a top-level table changes no entry behind it. -/
theorem TopLevel.walk_entryAt {root va v : ℕ} {owners : ℕ → Owner} {pte : Option Slot}
    (h : TopLevel s label root owners entries) (howned : Owned s label)
    (hwalk : pml4eWalk s root va true = some (pte, s')) :
    entryAt leaf (indices v) s' root = entryAt leaf (indices v) s root := by
  have hlevel := (walkLevel_entryAt (Paging.walk_entryAt (ptx va) [Paging.pdpe va, pdx va]) howned
    h.nonzero h.page (fun i ↦ (h.entry i).imp_right fun hlabel ↦ ⟨hlabel.1, _, hlabel.2⟩)
    (fun hpresent ↦ h.child hpresent) (fun m o' hroot ↦ ?_) hwalk leaf).2
  · exact hlevel (pml4 v) [Paging.pdpe v, pdx v] rfl
  · rw [h.unlabelled] at hroot
    exact absurd hroot (by simp)

/-! ### Different pages -/

/-- Walks that end at the same table have come the same way. -/
theorem find_inj {p q leaf' : ℕ} (is js : List ℕ) {pte pte' : Slot} {o' : Owner} (h : Owned s label)
    (hp : label p = some (is.length, o)) (hq : label q = some (js.length, o'))
    (hlength : is.length = js.length) (hfind : find leaf is s p = some (some pte))
    (hfind' : find leaf' js s q = some (some pte')) (hsame : pte.table = pte'.table) :
    p = q ∧ is = js := by
  induction is generalizing p q js with
  | nil =>
    obtain rfl := List.length_eq_zero_iff.mp hlength.symm
    obtain rfl := Option.some.inj (Option.some.inj hfind)
    obtain rfl := Option.some.inj (Option.some.inj hfind')
    exact ⟨hsame, rfl⟩
  | cons i is ih =>
    cases js with
    | nil => exact absurd hlength (Nat.succ_ne_zero _)
    | cons j js =>
      obtain ⟨hnonzero, hsome⟩ := h.page p _ hp
      obtain ⟨hnonzero', hsome'⟩ := h.page q _ hq
      obtain ⟨es, hes⟩ := Option.isSome_iff_exists.mp hsome
      obtain ⟨es', hes'⟩ := Option.isSome_iff_exists.mp hsome'
      rw [find, if_neg hnonzero, readEntry_eq hes, Option.bind_eq_bind, Option.bind_some] at hfind
      rw [find, if_neg hnonzero', readEntry_eq hes', Option.bind_eq_bind, Option.bind_some] at hfind'
      split_ifs at hfind with hpresent
      · split_ifs at hfind' with hpresent'
        · obtain ⟨hchild, rfl⟩ := ih js (h.child hp hes hpresent) (h.child hq hes' hpresent')
            (Nat.succ.inj hlength) hfind hfind'
          obtain ⟨rfl, rfl⟩ := h.single p q _ _ o o' es es' i j hp hq hes hes' hpresent hpresent' hchild
          exact ⟨rfl, rfl⟩
        · exact absurd (Option.some.inj hfind') (by simp)
      · exact absurd (Option.some.inj hfind) (by simp)

/-- Addresses whose walks from a top-level table end at the same entry are in the same page. -/
theorem TopLevel.find_inj {root u v : ℕ} {owners : ℕ → Owner} {pte : Slot}
    (h : TopLevel s label root owners entries) (howned : Owned s label)
    (howners : ∀ i j, owners i = owners j → i = j)
    (hu : find (ptx u) (indices u) s root = some (some pte))
    (hv : find (ptx v) (indices v) s root = some (some pte)) :
    indices u = indices v ∧ ptx u = ptx v := by
  have hleaf := (h.find_label howned hu).2
  have hleaf' := (h.find_label howned hv).2
  refine ⟨?_, hleaf.symm.trans hleaf'⟩
  rw [h.find_eq] at hu hv
  split_ifs at hu with hpresent
  · split_ifs at hv with hpresent'
    · obtain ⟨hchild, hrest⟩ :=
        Paging.find_inj [Paging.pdpe u, pdx u] [Paging.pdpe v, pdx v] howned (h.child hpresent)
          (h.child hpresent') rfl hu hv rfl
      have hlabel := h.child hpresent'
      rw [← hchild, h.child hpresent] at hlabel
      have howner := howners _ _ (Prod.mk.inj (Option.some.inj hlabel)).2
      rw [indices, indices, hrest, howner]
    · exact absurd (Option.some.inj hv) (by simp)
  · exact absurd (Option.some.inj hu) (by simp)

/-- The indices of an address are those of its page. -/
theorem indices_congr {u v : ℕ} (h : u / 4096 = v / 4096) : indices u = indices v ∧ ptx u = ptx v := by
  unfold indices pml4 Paging.pdpe pdx ptx
  simp only [index_eq]
  have hdiv : ∀ k, u / 2 ^ (12 + k) = v / 2 ^ (12 + k) := fun k ↦ by
    rw [Nat.pow_add, ← Nat.div_div_eq_div_mul, ← Nat.div_div_eq_div_mul]
    exact congrArg (· / 2 ^ k) h
  rw [hdiv 27, hdiv 18, hdiv 9, hdiv 0]
  exact ⟨rfl, rfl⟩

/-- User addresses with the same indices are in one page. -/
theorem page_of_indices {u v : ℕ} (hu : isUserVaddr u) (hv : isUserVaddr v)
    (h : indices u = indices v ∧ ptx u = ptx v) : u / 4096 = v / 4096 := by
  have hu' : u < kernBase := of_decide_eq_true hu
  have hv' : v < kernBase := of_decide_eq_true hv
  unfold indices pml4 Paging.pdpe pdx ptx at h
  simp only [index_eq, List.cons.injEq] at h
  unfold kernBase at hu' hv'
  omega

/-! ### Calls that return -/

/-- The pages that the next calls of `palloc_get_page` return are free. -/
def Supplied (s : Machine) : Prop :=
  (∀ page, some page ∈ s.supply → IsFreePage s page) ∧ s.supply.Pairwise fun x y ↦ x ≠ y ∨ x = none

/-- A walk that creates nothing does not fault. -/
theorem find_total {indices : List ℕ} (h : Owned s label)
    (htable : label table = some (indices.length, o)) : ∃ pte, find leaf indices s table = some pte := by
  induction indices generalizing table with
  | nil => exact ⟨_, rfl⟩
  | cons idx indices ih =>
    obtain ⟨hnonzero, hsome⟩ := h.page table _ htable
    obtain ⟨entries, hentries⟩ := Option.isSome_iff_exists.mp hsome
    rw [find, if_neg hnonzero, readEntry_eq hentries, Option.bind_eq_bind, Option.bind_some]
    by_cases hpresent : present (entries idx)
    · rw [if_pos hpresent]
      exact ih (h.child htable hentries hpresent)
    · exact ⟨none, if_neg hpresent⟩

/-- The pages of a supply are free after the first of them has been put behind an entry. -/
theorem Supplied.linkPage {page : ℕ} {supply : List (Option ℕ)} (h : Supplied s)
    (hsupply : s.supply = some page :: supply) (hentries : s.pages table = some entries) :
    Supplied ⟨linkPage s table idx page entries, supply⟩ := by
  obtain ⟨hfree, hpairs⟩ := h
  rw [hsupply] at hfree hpairs
  obtain ⟨hfirst, hrest⟩ := List.pairwise_cons.mp hpairs
  refine ⟨fun page' hpage' ↦ ?_, hrest⟩
  have hfree' := hfree page' (List.mem_cons_of_mem _ hpage')
  have hne : page' ≠ page := fun heq ↦
    (hfirst _ hpage').elim (fun hne ↦ hne (congrArg some heq.symm)) fun hnone ↦ by simp at hnone
  refine ⟨hfree'.1, hfree'.2.1, hfree'.2.2.1, ?_⟩
  exact (linkPage_of_ne (hfree'.ne hentries).symm hne).trans hfree'.2.2.2

/-- A step of a walk does not fault if the rest of the walk does not, and gives back what it took where
it fails. -/
theorem walkLevel_total {next : Machine → ℕ → Option (Option Slot × Machine)} (hnonzero : table ≠ 0)
    (hentries : s.pages table = some entries) (hsupplied : Supplied s)
    (hold : present (entries idx) → ∃ result, next s (ptov (pteAddr (entries idx))) = some result)
    (hnew : ∀ page s₁, IsFreePage s page → s₁.pages = linkPage s table idx page entries →
      Supplied s₁ → ∃ pte s₂, next s₁ page = some (pte, s₂) ∧ (pte = none → s₂.pages = s₁.pages)) :
    ∃ result, walkLevel next s table idx true = some result := by
  rw [walkLevel, if_neg hnonzero]
  dsimp only [Bind.bind]
  rw [readEntry_eq hentries, Option.bind_some]
  by_cases hpresent : present (entries idx)
  · rw [if_pos hpresent]
    exact hold hpresent
  rw [if_neg hpresent, if_pos rfl, pallocGetPage]
  cases hsupply : s.supply with
  | nil => exact ⟨_, rfl⟩
  | cons page? supply =>
    cases page? with
    | none => exact ⟨_, rfl⟩
    | some page =>
      have hfree : IsFreePage s page := hsupplied.1 page (hsupply ▸ List.mem_cons_self)
      have hne := hfree.ne hentries
      have hentries₁ : (s.pages.put page fun _ ↦ 0) table = some entries :=
        (Store.put_of_ne _ hne _).trans hentries
      obtain ⟨pte, s₂, hnext, hfailed⟩ :=
        hnew page ⟨linkPage s table idx page entries, supply⟩ hfree rfl
          (hsupplied.linkPage hsupply hentries)
      dsimp only
      rw [if_pos hfree, Option.bind_some]
      dsimp only
      rw [writeEntry_eq (s := ⟨s.pages.put page fun _ ↦ 0, supply⟩) hentries₁, Option.bind_some,
        readEntry_eq (Store.put_self ..), Option.bind_some, Function.update_self,
        (table_entry hfree.isKernelPage).1]
      change ∃ result, (next ⟨linkPage s table idx page entries, supply⟩ page).bind _ = some result
      rw [hnext, Option.bind_some]
      cases pte with
      | some pte => exact ⟨_, rfl⟩
      | none =>
        have hlinked : s₂.pages table =
            some (Function.update entries idx (vtop page ||| pteU ||| pteW ||| pteP)) := by
          rw [hfailed rfl]
          exact Store.put_self ..
        have hzero : s₂.pages page = some fun _ ↦ 0 := by
          rw [hfailed rfl]
          exact (Store.put_of_ne _ hne.symm _).trans (Store.put_self ..)
        have hleft : (s₂.pages.free page) table = s₂.pages table := Store.free_of_ne _ hne
        dsimp only
        rw [readEntry_eq hlinked, Option.bind_some, Function.update_self,
          (table_entry hfree.isKernelPage).1, pallocFreePage, hzero]
        dsimp only [Bind.bind]
        rw [Option.bind_some, Option.pure_def, Option.bind_some, writeEntry_eq
          (s := { s₂ with pages := s₂.pages.free page }) (hleft.trans hlinked), Option.bind_some]
        exact ⟨_, rfl⟩

/-- A walk that creates tables does not fault. -/
theorem walk_total (leaf : ℕ) (indices : List ℕ) (h : Owned s label)
    (htable : label table = some (indices.length, o)) (hsupplied : Supplied s) :
    ∃ result, walk leaf true indices s table = some result := by
  induction indices generalizing s label table with
  | nil => exact ⟨_, rfl⟩
  | cons idx indices ih =>
    obtain ⟨hnonzero, hsome⟩ := h.page table _ htable
    obtain ⟨entries, hentries⟩ := Option.isSome_iff_exists.mp hsome
    rw [walk]
    refine walkLevel_total hnonzero hentries hsupplied
      (fun hpresent ↦ ih h (h.child htable hentries hpresent) hsupplied)
      fun page s₁ hfree hpages hsupplied₁ ↦ ?_
    have howned := h.linkPage hfree hentries (n := indices.length) (o := o) (fun m o' hm ↦ ?_) hpages
    · have hlabel : Function.update label page (some (indices.length, o)) page =
          some (indices.length, o) := Function.update_self ..
      obtain ⟨⟨pte, s₂⟩, hwalk⟩ := ih howned hlabel hsupplied₁
      refine ⟨pte, s₂, hwalk, fun hnone ↦ ?_⟩
      rcases walk_spec leaf indices s₁ s₂ _ o page pte howned hlabel hwalk with
        ⟨-, hsame⟩ | ⟨last, label', hpte, -⟩
      · exact hsame
      · rw [hnone] at hpte
        exact absurd hpte (by simp)
    · obtain ⟨rfl, rfl⟩ := Prod.mk.inj (Option.some.inj (htable.symm.trans hm))
      exact ⟨rfl, rfl⟩

/-- `pml4_set_page` does not fault. -/
theorem Layout.setPage_total {base root u k : ℕ} {kernelEntries : ℕ → ℕ} {roots : List ℕ}
    (h : Layout s label base kernelEntries roots) (hroot : root ∈ roots) (hu : pgOfs u = 0)
    (hv : isUserVaddr u) (hk : IsKernelPage k) (hsupplied : Supplied s) (rw : Bool) :
    ∃ ok s', pml4SetPage s base root u k rw = some (ok, s') := by
  obtain ⟨hne, entries, htop, -⟩ := h.root root hroot
  obtain ⟨⟨pte, s₁⟩, hwalk⟩ : ∃ result, pml4eWalk s root u true = some result := by
    refine walkLevel_total htop.nonzero htop.page hsupplied
      (fun hpresent ↦ walk_total (ptx u) [Paging.pdpe u, pdx u] h.owned (htop.child hpresent)
        hsupplied)
      fun page s₁ hfree hpages hsupplied₁ ↦ ?_
    have hroot' : ∀ m o', label root = some (m, o') → m = 2 + 1 ∧ o' = Owner.shared 0 :=
      fun m o' hm ↦ absurd (htop.unlabelled.symm.trans hm) (by simp)
    have howned := h.owned.linkPage hfree htop.page hroot' hpages
    have hlabel : Function.update label page (some (2, Owner.shared 0)) page =
        some (2, Owner.shared 0) := Function.update_self ..
    obtain ⟨⟨pte, s₂⟩, hwalk⟩ :=
      walk_total (ptx u) [Paging.pdpe u, pdx u] howned hlabel hsupplied₁
    refine ⟨pte, s₂, hwalk, fun hnone ↦ ?_⟩
    rcases walk_spec (ptx u) [Paging.pdpe u, pdx u] s₁ s₂ _ _ page pte howned hlabel hwalk with
      ⟨-, hsame⟩ | ⟨last, label', hpte, -⟩
    · exact hsame
    · rw [hnone] at hpte
      exact absurd hpte (by simp)
  have hofs : pgOfs k = 0 := (pgOfs_eq k).trans hk.aligned
  unfold pml4SetPage
  dsimp only [Bind.bind]
  rw [guard, if_pos ⟨hu, hofs, hv, hne⟩, hwalk]
  cases pte with
  | none => exact ⟨_, _, rfl⟩
  | some pte =>
    obtain ⟨last, label', hpte, hreaches⟩ :=
      (htop.walk_spec h.owned hwalk).resolve_left fun hnone ↦ by simp at hnone
    obtain rfl := Option.some.inj hpte
    obtain ⟨page, hpage⟩ :=
      Option.isSome_iff_exists.mp (hreaches.owned.page last _ hreaches.level).2
    rw [Option.pure_def, Option.bind_some, Option.bind_some]
    dsimp only
    rw [guard, if_pos hk.kernel, Option.pure_def, Option.bind_some, writeEntry_eq hpage,
      Option.bind_some]
    exact ⟨_, _, rfl⟩

/-! ### The updates -/

section Updates

variable {base root u k : ℕ} {kernelEntries : ℕ → ℕ} {roots : List ℕ}

theorem ownerOf_inj {i j : ℕ} (h : ownerOf kernelEntries root i = ownerOf kernelEntries root j) :
    i = j := by
  unfold ownerOf at h
  split_ifs at h
  · exact Owner.shared.inj h
  · exact (Owner.own.inj h).2

/-- A write to the entry of an address is found by the next walk. -/
theorem TopLevel.find_write {owners : ℕ → Owner} {pte : Slot} {entry : ℕ}
    (h : TopLevel s label root owners entries) (howned : Owned s label)
    (hfind : find (ptx u) (indices u) s root = some (some pte))
    (hwrite : writeEntry s pte.table pte.idx entry = some s') :
    (∀ leaf v, find leaf (indices v) s' root = find leaf (indices v) s root) ∧
      readEntry s' pte.table pte.idx = some entry ∧
      ∀ table idx, ¬(table = pte.table ∧ idx = pte.idx) →
        readEntry s' table idx = readEntry s table idx := by
  have hlabel := (h.find_label howned hfind).1
  obtain ⟨page, hpage⟩ := Option.isSome_iff_exists.mp (howned.page _ _ hlabel).2
  obtain ⟨hwritten, hothers⟩ := readEntry_put hpage entry
  rw [writeEntry_eq hpage] at hwrite
  have hpages : s'.pages = s.pages.put pte.table (Function.update page pte.idx entry) := by
    rw [← Option.some.inj hwrite]
  rw [Option.some.inj hwrite] at hwritten hothers
  refine ⟨fun leaf v ↦ ?_, hwritten, hothers⟩
  refine h.find_congr (h.put_last hlabel hpages) howned fun p n hp ↦ ?_
  rw [hpages, Store.put_of_ne]
  rintro rfl
  rw [hlabel] at hp
  exact absurd (Prod.mk.inj (Option.some.inj hp)).1 (by simp)

/-- A write to the entry of an address changes no entry of another page. -/
theorem TopLevel.entryAt_write {owners : ℕ → Owner} {pte : Slot} {v entry : ℕ}
    (h : TopLevel s label root owners entries) (howned : Owned s label)
    (howners : ∀ i j, owners i = owners j → i = j) (hu : isUserVaddr u) (hv : isUserVaddr v)
    (hfind : find (ptx u) (indices u) s root = some (some pte)) (hne : v / 4096 ≠ u / 4096)
    (hwrite : writeEntry s pte.table pte.idx entry = some s') :
    entryAt (ptx v) (indices v) s' root = entryAt (ptx v) (indices v) s root := by
  obtain ⟨hsame, -, hothers⟩ := h.find_write howned hfind hwrite
  rw [entryAt, entryAt, hsame]
  cases hfind' : find (ptx v) (indices v) s root with
  | none => rfl
  | some pte' =>
    cases pte' with
    | none => rfl
    | some pte' =>
      have hslot : ¬(pte'.table = pte.table ∧ pte'.idx = pte.idx) := by
        rintro ⟨htable, hidx⟩
        have heq : pte' = pte := by
          cases pte
          cases pte'
          exact congrArg₂ Slot.mk htable hidx
        rw [heq] at hfind'
        exact hne (page_of_indices hv hu (h.find_inj howned howners hfind' hfind))
      rw [Option.bind_some, Option.bind_some]
      dsimp only
      rw [hothers _ _ hslot]

/-- The address of a byte of a user page is one of a user. -/
theorem isUserVaddr_add {i : ℕ} (hu : pgOfs u = 0) (huser : isUserVaddr u) (hi : i < pgSize) :
    isUserVaddr (u + i) ∧ (u + i) / 4096 = u / 4096 ∧ pgOfs (u + i) = i := by
  have hlt : u < kernBase := of_decide_eq_true huser
  rw [pgOfs_eq] at hu
  unfold pgSize at hi
  refine ⟨decide_eq_true ?_, ?_, ?_⟩
  · unfold kernBase at hlt ⊢
    omega
  · omega
  · rw [pgOfs_eq]
    omega

/-- What `pml4_get_page` returns for the bytes of a page of which the entry is known. -/
theorem pml4GetPage_of_find {pte : Slot} {entry i : ℕ} (hu : pgOfs u = 0) (huser : isUserVaddr u)
    (hfind : find (ptx u) (indices u) s root = some (some pte))
    (hread : readEntry s pte.table pte.idx = some entry) (hi : i < pgSize) :
    pml4GetPage s root (u + i) =
      some (if present entry then some (ptov (pteAddr entry) + i) else none) := by
  obtain ⟨huser', hpage, hofs⟩ := isUserVaddr_add hu huser hi
  obtain ⟨hindices, hptx⟩ := indices_congr hpage
  rw [pml4GetPage_eq huser', hindices, hptx, hfind, Option.bind_some]
  dsimp only
  rw [hread, Option.map_some, hofs]

/-- `pml4_set_page` maps the page and changes no other one, or changes nothing. -/
theorem Layout.setPage_exact {rw ok : Bool} (h : Layout s label base kernelEntries roots)
    (hroot : root ∈ roots) (hk : IsKernelPage k)
    (hset : pml4SetPage s base root u k rw = some (ok, s')) :
    ok = false ∧ s'.pages = s.pages ∨ ok = true ∧
      (∀ i < pgSize, pml4GetPage s' root (u + i) = some (some (k + i))) ∧
      ∀ v, isUserVaddr v → v / 4096 ≠ u / 4096 → pml4GetPage s' root v = pml4GetPage s root v := by
  obtain ⟨hu, -, huser, -⟩ := pml4SetPage_guard hset
  obtain ⟨-, entries, htop, -⟩ := h.root root hroot
  obtain ⟨-, -, hset⟩ := Option.bind_eq_some_iff.mp hset
  obtain ⟨⟨pte, s₁⟩, hwalk, hset⟩ := Option.bind_eq_some_iff.mp hset
  have hspec := htop.walk_spec h.owned hwalk
  cases pte with
  | none =>
    obtain ⟨rfl, rfl⟩ := Prod.mk.inj (Option.some.inj hset)
    exact Or.inl ⟨rfl, (hspec.resolve_right fun ⟨_, _, hpte, _⟩ ↦ by simp at hpte).2⟩
  | some pte =>
    obtain ⟨-, -, hset⟩ := Option.bind_eq_some_iff.mp hset
    obtain ⟨s₂, hwrite, hset⟩ := Option.bind_eq_some_iff.mp hset
    obtain ⟨rfl, rfl⟩ := Prod.mk.inj (Option.some.inj hset)
    obtain ⟨last, label', hpte, hreaches⟩ := hspec.resolve_left fun hnone ↦ by simp at hnone
    obtain rfl := Option.some.inj hpte
    obtain ⟨entry, htop₁, -⟩ := hreaches.topLevel rfl htop
    obtain ⟨hsame, hread, -⟩ := htop₁.find_write hreaches.owned hreaches.find hwrite
    refine Or.inr ⟨rfl, fun i hi ↦ ?_, fun v hv hne ↦ ?_⟩
    · rw [pml4GetPage_of_find hu huser ((hsame _ u).trans hreaches.find) hread hi,
        if_pos (page_entry hk rw).2, (page_entry hk rw).1]
    · rw [pml4GetPage_entryAt hv, pml4GetPage_entryAt hv,
        htop₁.entryAt_write hreaches.owned (fun i j ↦ ownerOf_inj) huser hv hreaches.find hne hwrite,
        htop.walk_entryAt h.owned hwalk]

theorem not_present_clearP (entry : ℕ) : ¬present (clearP entry) := by
  have hand : entry &&& pteP = entry % 2 := Nat.and_one_is_mod entry
  rw [present_iff, clearP, hand]
  omega

/-- `pml4_clear_page` by the walk. -/
theorem pml4ClearPage_eq (hu : pgOfs u = 0) (huser : isUserVaddr u) : pml4ClearPage s root u =
    (find (ptx u) (indices u) s root).bind fun pte ↦ match pte with
      | none => some s
      | some pte => (readEntry s pte.table pte.idx).bind fun entry ↦
        if present entry then writeEntry s pte.table pte.idx (clearP entry) else some s := by
  unfold pml4ClearPage
  dsimp only [Bind.bind]
  rw [guard, if_pos ⟨hu, huser⟩, pml4eWalk_eq, walk_false]
  cases find (ptx u) (indices u) s root with
  | none => rfl
  | some pte =>
    cases pte with
    | none => rfl
    | some pte => rfl

/-- `pml4_clear_page` unmaps the page and changes no other one. -/
theorem Layout.clearPage_exact (h : Layout s label base kernelEntries roots)
    (hroot : root ∈ roots) (hu : pgOfs u = 0) (huser : isUserVaddr u) :
    ∃ s', pml4ClearPage s root u = some s' ∧
      (∀ i < pgSize, pml4GetPage s' root (u + i) = some none) ∧
      ∀ v, isUserVaddr v → v / 4096 ≠ u / 4096 → pml4GetPage s' root v = pml4GetPage s root v := by
  obtain ⟨-, entries, htop, -⟩ := h.root root hroot
  obtain ⟨pte?, hfind⟩ : ∃ pte?, find (ptx u) (indices u) s root = some pte? := by
    rw [htop.find_eq]
    by_cases hpresent : present (entries (pml4 u))
    · rw [if_pos hpresent]
      exact find_total h.owned (htop.child hpresent)
    · exact ⟨none, if_neg hpresent⟩
  rw [pml4ClearPage_eq hu huser, hfind, Option.bind_some]
  cases pte? with
  | none =>
    refine ⟨s, rfl, fun i hi ↦ ?_, fun _ _ _ ↦ rfl⟩
    obtain ⟨huser', hpage, -⟩ := isUserVaddr_add hu huser hi
    obtain ⟨hindices, hptx⟩ := indices_congr hpage
    rw [pml4GetPage_eq huser', hindices, hptx, hfind]
    rfl
  | some pte =>
    have hlabel := (htop.find_label h.owned hfind).1
    obtain ⟨page, hpage⟩ := Option.isSome_iff_exists.mp (h.owned.page _ _ hlabel).2
    dsimp only
    rw [readEntry_eq hpage, Option.bind_some]
    by_cases hpresent : present (page pte.idx)
    · rw [if_pos hpresent]
      have hwrite := writeEntry_eq hpage pte.idx (clearP (page pte.idx))
      obtain ⟨hsame, hread, -⟩ := htop.find_write h.owned hfind hwrite
      refine ⟨_, hwrite, fun i hi ↦ ?_, fun v hv hne ↦ ?_⟩
      · rw [pml4GetPage_of_find hu huser ((hsame _ u).trans hfind) hread hi,
          if_neg (not_present_clearP _)]
      · rw [pml4GetPage_entryAt hv, pml4GetPage_entryAt hv,
          htop.entryAt_write h.owned (fun i j ↦ ownerOf_inj) huser hv hfind hne hwrite]
    · rw [if_neg hpresent]
      refine ⟨s, rfl, fun i hi ↦ ?_, fun _ _ _ ↦ rfl⟩
      rw [pml4GetPage_of_find hu huser hfind (readEntry_eq hpage pte.idx) hi, if_neg hpresent]

end Updates

/-- `pml4_set_page` maps exactly the page or changes nothing and gives back what it took, and
`pml4_clear_page` unmaps exactly the page, for whatever `palloc_get_page` returns. -/
theorem setPage_clearPage_exact {kernel : Kernel} {s₀ s₁ : Machine} {memEnd base A u k : ℕ}
    {ops : List Op} {sys : System} {supply : List (Option ℕ)}
    (hinit : pagingInit kernel s₀ memEnd = some (base, s₁))
    (hrun : Run (Step base) ⟨s₁, []⟩ ops sys) (hA : A ∈ sys.tables) (hu : pgOfs u = 0)
    (huser : isUserVaddr u) (hk : IsKernelPage k) (hsupplied : Supplied (sys.machine.supplied supply))
    (rw : Bool) :
    (∃ ok s', pml4SetPage (sys.machine.supplied supply) base A u k rw = some (ok, s') ∧
      (ok = true → (∀ o < pgSize, pml4GetPage s' A (u + o) = some (some (k + o))) ∧
        ∀ v, isUserVaddr v → v / 4096 ≠ u / 4096 →
          pml4GetPage s' A v = pml4GetPage sys.machine A v) ∧
      (ok = false → s'.pages = sys.machine.pages)) ∧
    ∃ s', pml4ClearPage sys.machine A u = some s' ∧
      (∀ o < pgSize, pml4GetPage s' A (u + o) = some none) ∧
      ∀ v, isUserVaddr v → v / 4096 ≠ u / 4096 →
        pml4GetPage s' A v = pml4GetPage sys.machine A v := by
  obtain ⟨-, label, kernelEntries, -, h, -⟩ := run_layout hinit hrun
  refine ⟨?_, h.clearPage_exact hA hu huser⟩
  obtain ⟨ok, s', hset⟩ := (h.supplied supply).setPage_total hA hu huser hk hsupplied rw
  refine ⟨ok, s', hset, ?_⟩
  rcases (h.supplied supply).setPage_exact hA hk hset with
    ⟨rfl, hpages⟩ | ⟨rfl, hmapped, hothers⟩
  · exact ⟨fun hok ↦ absurd hok (by simp), fun _ ↦ hpages⟩
  · refine ⟨fun _ ↦ ⟨hmapped, fun v hv hne ↦ ?_⟩, fun hok ↦ absurd hok (by simp)⟩
    have hentry : ∀ leaf is table, entryAt leaf is (sys.machine.supplied supply) table =
        entryAt leaf is sys.machine table := entryAt_congr rfl
    rw [hothers v hv hne, pml4GetPage_entryAt hv, pml4GetPage_entryAt hv, hentry]

/-- A page set in the first table after a boot, where the second new table cannot be had, and cleared. -/
theorem setPage_clearPage_exact_boot : ∃ base s₁ ops sys A,
    pagingInit ⟨0, 0⟩ bootMachine pgSize = some (base, s₁) ∧ Run (Step base) ⟨s₁, []⟩ ops sys ∧
      A ∈ sys.tables ∧ (∃ s', pml4SetPage (sys.machine.supplied [some (nthPage 5), none]) base A
        0x400000 (nthPage 8) true = some (false, s') ∧ s'.pages = sys.machine.pages) ∧
      ∃ s', pml4ClearPage sys.machine A 0x400000 = some s' ∧
        pml4GetPage s' A 0x400123 = some none := by
  let boot := (pagingInit ⟨0, 0⟩ bootMachine pgSize).get (by decide +kernel)
  let first := (pml4Create (boot.2.supplied [some (nthPage 4)]) boot.1).get (by decide +kernel)
  let sys : System := ⟨first.2, first.1.toList ++ []⟩
  have hinit : pagingInit ⟨0, 0⟩ bootMachine pgSize = some boot := (Option.some_get _).symm
  have hfirst : pml4Create (boot.2.supplied [some (nthPage 4)]) boot.1 = some first :=
    (Option.some_get _).symm
  have hrun : Run (Step boot.1) ⟨boot.2, []⟩ [.create] sys := .single (.create hfirst)
  have hA : nthPage 4 ∈ sys.tables := by decide +kernel
  have hsupplied : Supplied (sys.machine.supplied [some (nthPage 5), none]) := by
    refine ⟨fun page hpage ↦ ?_, by decide⟩
    have hpage' : some page ∈ [some (nthPage 5), none] := hpage
    obtain rfl : page = nthPage 5 := by simpa using hpage'
    decide +kernel
  obtain ⟨⟨ok, s', hset, -, hfailed⟩, s'', hclear, hunmapped, -⟩ :=
    setPage_clearPage_exact hinit hrun hA (u := 0x400000) (by decide) (by decide)
      (show IsKernelPage (nthPage 8) from ⟨by decide, by decide, by decide⟩) hsupplied true
  obtain rfl : ok = false := by
    have hok : (pml4SetPage (sys.machine.supplied [some (nthPage 5), none]) boot.1 (nthPage 4)
        0x400000 (nthPage 8) true).map Prod.fst = some false := by decide +kernel
    exact Option.some.inj ((congrArg (Option.map Prod.fst) hset).symm.trans hok)
  exact ⟨boot.1, boot.2, [.create], sys, nthPage 4, hinit, hrun, hA, ⟨s', hset, hfailed rfl⟩, s'',
    hclear, hunmapped 0x123 (by decide)⟩

end Jungle.Paging
