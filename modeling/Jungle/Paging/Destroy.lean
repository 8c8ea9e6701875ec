import Jungle.Lib.Forest
import Jungle.Paging.ForEach

/-!
# Destroying page tables

`pml4_destroy` of `threads/mmu.c` gives back the pages that the tables behind the first entry of a top-level
table map, these tables, and the top-level table. The pages that are mapped are pages of the store, too. Where
the tables are a forest the call does not fault, and gives back these pages and no other ones
(`clears_destroyTable`).
-/

set_option autoImplicit false
set_option relaxedAutoImplicit false

namespace Jungle.Paging

open Jungle.Lib

/-- The common part of the functions below: destroys what the present entries lead to, and gives back the
table. -/
def destroyEntries (destroy : Machine → ℕ → Option Machine) (s : Machine) (table : ℕ) : Option Machine :=
  (allIndices.foldlM (fun s i ↦ (readEntry s table i).bind fun entry ↦
    if present (ptov entry) then destroy s (pteAddr (ptov entry)) else some s) s).bind
      fun s ↦ pallocFreePage s table

/-- `pt_destroy (pt)` -/
def ptDestroy (s : Machine) (pt : ℕ) : Option Machine := destroyEntries pallocFreePage s pt

/-- `pgdir_destroy (pdp)` -/
def pgdirDestroy (s : Machine) (pdp : ℕ) : Option Machine := destroyEntries ptDestroy s pdp

/-- `pdpe_destroy (pdpe)` -/
def pdpeDestroy (s : Machine) (pdpe : ℕ) : Option Machine := destroyEntries pgdirDestroy s pdpe

/-- `pml4_destroy (pml4)` with the global `base_pml4`. -/
def pml4Destroy (s : Machine) (basePml4 pml4 : ℕ) : Option Machine := do
  if pml4 = 0 then return s
  guard (pml4 ≠ basePml4)
  let pdpe := ptov (← readEntry s pml4 0)
  let s ← if present pdpe then pdpeDestroy s (pteAddr pdpe) else some s
  pallocFreePage s pml4

/-! ### The pages behind a table -/

/-- The page that a present entry leads to. -/
def childOf (entries : ℕ → ℕ) (i : ℕ) : Option ℕ :=
  if present (entries i) then some (ptov (pteAddr (entries i))) else none

/-- The entry of the table leads to the page. -/
abbrev LeadsTo (pages : Store (ℕ → ℕ)) (table i page : ℕ) : Prop := HasChild childOf 512 pages table i page

/-- The pages of the tables behind a table, and those that they map. -/
abbrev PagesBelow (pages : Store (ℕ → ℕ)) (n table page : ℕ) : Prop := Below childOf 512 pages n table page

/-- Destroys a table of the level, counted from the pages. -/
def destroyTable : ℕ → Machine → ℕ → Option Machine
  | 0 => pallocFreePage
  | n + 1 => destroyEntries (destroyTable n)

theorem pdpeDestroy_eq : pdpeDestroy = destroyTable 3 := rfl

variable {s s' : Machine} {pages : Store (ℕ → ℕ)} {kind : ℕ → ℕ → Prop} {n table page i : ℕ}
  {entries : ℕ → ℕ}

theorem childOf_eq_some : childOf entries i = some page ↔
    present (entries i) ∧ ptov (pteAddr (entries i)) = page := by
  unfold childOf
  split_ifs with hpresent
  · rw [Option.some.injEq]
    exact (and_iff_right hpresent).symm
  · exact iff_of_false id fun h ↦ hpresent h.1

theorem pallocFreePage_eq (h : (s.pages page).isSome) :
    pallocFreePage s page = some { s with pages := s.pages.free page } := by
  obtain ⟨entries, hentries⟩ := Option.isSome_iff_exists.mp h
  rw [pallocFreePage, hentries]
  rfl

/-- `palloc_free_page` clears a page in use. -/
theorem clears_pallocFreePage (h : (pages page).isSome) :
    Clears Machine.pages pages (fun _ ↦ False) (· = page) fun s ↦ pallocFreePage s page := by
  intro s hs
  have hpage : (s.pages page).isSome := hs page (Or.inr rfl) ▸ h
  refine ⟨_, pallocFreePage_eq hpage, fun p hp ↦ ?_, fun p hp ↦ ?_⟩
  · obtain rfl : p = page := hp
    exact Store.free_self ..
  · exact Store.free_of_ne _ hp

/-- Destroying a table of a forest clears what is below it. -/
theorem clears_destroyTable (h : Forest childOf 512 pages kind) (hkind : kind n table) :
    Clears Machine.pages pages (fun _ ↦ False) (PagesBelow pages n table)
      fun s ↦ destroyTable n s table := by
  induction n generalizing table with
  | zero => exact clears_pallocFreePage (h.used 0 table hkind)
  | succ n ih =>
    have hused := h.used (n + 1) table hkind
    obtain ⟨entries, hentries⟩ := Option.isSome_iff_exists.mp hused
    let part (i p : ℕ) : Prop := ∃ c, LeadsTo pages table i c ∧ PagesBelow pages n c p
    have hround : ∀ i ∈ allIndices, Clears Machine.pages pages (· = table) (part i)
        fun s ↦ (readEntry s table i).bind fun entry ↦
          if present (ptov entry) then destroyTable n s (pteAddr (ptov entry)) else some s := by
      intro i hi s hs
      have hread : readEntry s table i = some (entries i) :=
        readEntry_eq ((hs table (Or.inl rfl)).trans hentries) i
      dsimp only
      rw [hread, Option.bind_some, present_ptov, pteAddr_ptov]
      by_cases hpresent : present (entries i)
      · rw [if_pos hpresent]
        have hleads : LeadsTo pages table i (ptov (pteAddr (entries i))) :=
          ⟨entries, hentries, mem_allIndices.mp hi, if_pos hpresent⟩
        have hpart : ∀ p, part i p ↔ PagesBelow pages n (ptov (pteAddr (entries i))) p := by
          refine fun p ↦ ⟨?_, fun hbelow ↦ ⟨_, hleads, hbelow⟩⟩
          rintro ⟨c, ⟨entries', hentries', -, hchild⟩, hbelow⟩
          obtain rfl := Option.some.inj (hentries.symm.trans hentries')
          obtain ⟨-, rfl⟩ := childOf_eq_some.mp hchild
          exact hbelow
        exact (ih (h.next n table i _ hkind hleads)).congr hpart s fun p hp ↦
          hs p (Or.inr (hp.resolve_left id))
      · rw [if_neg hpresent]
        refine ⟨s, rfl, fun p hp ↦ ?_, fun _ _ ↦ rfl⟩
        obtain ⟨c, ⟨entries', hentries', -, hchild⟩, -⟩ := hp
        obtain rfl := Option.some.inj (hentries.symm.trans hentries')
        exact absurd (childOf_eq_some.mp hchild).1 hpresent
    have hkeep : ∀ i ∈ allIndices, ∀ p, part i p → ¬p = table := by
      rintro i - p ⟨c, hleads, hbelow⟩ rfl
      exact h.not_below_child hkind hleads hbelow
    have hapart : allIndices.Pairwise fun i j ↦ ∀ p, part i p → ¬part j p := by
      refine List.nodup_range.imp fun {i j} hne p hi hj ↦ ?_
      obtain ⟨c, hleads, hbelow⟩ := hi
      obtain ⟨d, hleads', hbelow'⟩ := hj
      exact hne (h.apart_children hkind hleads hleads' hbelow hbelow')
    refine ((Clears.sequence allIndices hround hkeep hapart).last (clears_pallocFreePage hused) ?_).congr
      fun p ↦ or_congr_right ⟨?_, ?_⟩
    · rintro ⟨i, hi, hpart⟩
      exact hkeep i hi table hpart rfl
    · rintro ⟨i, c, hleads, hbelow⟩
      obtain ⟨cell, hcell, hi, hchild⟩ := hleads
      exact ⟨i, mem_allIndices.mpr hi, c, ⟨cell, hcell, hi, hchild⟩, hbelow⟩
    · rintro ⟨i, -, c, hleads, hbelow⟩
      exact ⟨i, c, hleads, hbelow⟩

end Jungle.Paging
