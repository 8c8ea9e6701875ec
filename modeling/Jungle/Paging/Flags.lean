import Jungle.Paging.TopLevel
import Mathlib.Data.Nat.Bitwise

/-!
# The dirty and the accessed bit

`pml4_set_dirty` and `pml4_set_accessed` of `threads/mmu.c`. Setting a flag changes that bit of one entry
only. Clearing it uses the mask `~(uint32_t) PTE_D`, which is extended with zeros to 64 bits: the upper
half of the entry is cleared, too (`setFlag_iff`). A walk goes by the address and the presence of the
entries, and the flags are in neither (`find_alike`).
-/

set_option autoImplicit false
set_option relaxedAutoImplicit false

namespace Jungle.Paging

open Jungle.Lib

/-- `PTE_A` and `PTE_D` -/
def pteA : ℕ := 0x20
def pteD : ℕ := 0x40

/-- `~(uint32_t) flag` as a `uint64_t`, which is extended with zeros. -/
def notUint32 (flag : ℕ) : ℕ := 2 ^ 32 - 1 - flag

/-- `is_writable(pte)` -/
def isWritable (pte : ℕ) : Bool := pte &&& pteW ≠ 0

/-- The common part of `pml4_set_dirty` and `pml4_set_accessed`. `vtop (pml4)` asserts that the table is
one of the kernel's. -/
def setFlag (flag : ℕ) (s : Machine) (pml4 vpage : ℕ) (b : Bool) : Option Machine := do
  match ← pml4eWalk s pml4 vpage false with
  | (none, s) => return s
  | (some pte, s) =>
    let entry ← readEntry s pte.table pte.idx
    let s ← writeEntry s pte.table pte.idx (if b then entry ||| flag else entry &&& notUint32 flag)
    guard (kernBase ≤ pml4)
    return s

/-- `pml4_set_dirty(pml4, vpage, dirty)` -/
def pml4SetDirty (s : Machine) (pml4 vpage : ℕ) (dirty : Bool) : Option Machine :=
  setFlag pteD s pml4 vpage dirty

/-- `pml4_set_accessed(pml4, vpage, accessed)` -/
def pml4SetAccessed (s : Machine) (pml4 vpage : ℕ) (accessed : Bool) : Option Machine :=
  setFlag pteA s pml4 vpage accessed

/-- Whether the entry for an address is writable, if there is one. -/
def writableAt (s : Machine) (pml4 va : ℕ) : Option (Option Bool) := do
  match ← pml4eWalk s pml4 va false with
  | (none, _) => return none
  | (some pte, s) =>
    let entry ← readEntry s pte.table pte.idx
    return some (isWritable entry)

/-- The call sets the bit of one entry and changes no other bit of a table; every address leads to the
same page and is writable or not, as before. -/
def SetsBit (bit : ℕ) (b : Bool) (s : Machine) (pte : Slot) (call : Option Machine) : Prop :=
  ∃ s' entry entry', call = some s' ∧ readEntry s pte.table pte.idx = some entry ∧
    readEntry s' pte.table pte.idx = some entry' ∧
    (∀ i, entry'.testBit i = if i = bit then b else entry.testBit i) ∧
    (∀ table idx, ¬(table = pte.table ∧ idx = pte.idx) →
      readEntry s' table idx = readEntry s table idx) ∧
    ∀ pml4 va, pml4GetPage s' pml4 va = pml4GetPage s pml4 va ∧
      writableAt s' pml4 va = writableAt s pml4 va

/-! ### Bits -/

/-- Clearing a bit with the extended mask clears the upper half of the word. -/
theorem testBit_and_notUint32 {bit : ℕ} (hbit : bit < 32) (entry i : ℕ) :
    (entry &&& notUint32 (2 ^ bit)).testBit i =
      if i = bit then false else decide (i < 32) && entry.testBit i := by
  have hmask : notUint32 (2 ^ bit) = 2 ^ 32 - (2 ^ bit + 1) := by
    unfold notUint32
    omega
  have hlt : 2 ^ bit < 2 ^ 32 := Nat.pow_lt_pow_right (by decide) hbit
  rw [Nat.testBit_and, hmask, Nat.testBit_two_pow_sub_succ hlt, Nat.testBit_two_pow]
  by_cases hi : i = bit
  · simp [hi]
  · have hne : bit ≠ i := fun heq ↦ hi heq.symm
    simp [hi, hne, Bool.and_comm]

/-- Setting a bit. -/
theorem testBit_or_two_pow (bit entry i : ℕ) :
    (entry ||| 2 ^ bit).testBit i = if i = bit then true else entry.testBit i := by
  rw [Nat.testBit_or, Nat.testBit_two_pow]
  by_cases hi : i = bit
  · simp [hi]
  · have hne : bit ≠ i := fun heq ↦ hi heq.symm
    simp [hi, hne]

/-- What is written for a flag differs in its bit only if and only if the flag is set or the upper half
of the word is zero. -/
theorem flag_iff {bit : ℕ} (hbit : bit < 32) (entry : ℕ) (b : Bool) :
    (∀ i, (if b then entry ||| 2 ^ bit else entry &&& notUint32 (2 ^ bit)).testBit i =
      if i = bit then b else entry.testBit i) ↔ b = true ∨ entry < 2 ^ 32 := by
  cases b with
  | true => exact iff_of_true (testBit_or_two_pow bit entry) (Or.inl rfl)
  | false =>
    simp only [Bool.false_eq_true, if_false, false_or, testBit_and_notUint32 hbit]
    constructor
    · intro hbits
      refine Nat.lt_pow_two_of_testBit entry fun i hi ↦ ?_
      have hkept := hbits i
      rw [if_neg (by omega), if_neg (by omega), decide_eq_false (by omega)] at hkept
      exact hkept.symm
    · intro hlt i
      by_cases hi : i < 32
      · simp [hi]
      · have hhigh : entry.testBit i = false :=
          Nat.testBit_lt_two_pow (hlt.trans_le (Nat.pow_le_pow_right (by decide) (by omega)))
        simp [hhigh]

/-! ### Walks -/

/-- What a walk and the processor read of an entry, but for its flags. -/
def sight (entry : ℕ) : Bool × ℕ × Bool := (present entry, pteAddr entry, isWritable entry)

/-- A bit between the flags that a walk reads and the address is not in sight. -/
theorem sight_congr {entry entry' bit : ℕ} {b : Bool} (hlow : 2 ≤ bit) (hhigh : bit < 12)
    (h : ∀ i, entry'.testBit i = if i = bit then b else entry.testBit i) :
    sight entry' = sight entry := by
  have hkept : ∀ i, i ≠ bit → entry'.testBit i = entry.testBit i := fun i hi ↦ by
    rw [h i, if_neg hi]
  have hflag : ∀ i, i ≠ bit → entry' &&& 2 ^ i = entry &&& 2 ^ i := fun i hi ↦ by
    rw [Nat.and_two_pow, Nat.and_two_pow, hkept i hi]
  have haddress : ∀ e, pteAddr e = e >>> 12 <<< 12 := fun e ↦ by
    rw [pteAddr_eq, Nat.shiftLeft_eq, Nat.shiftRight_eq_div_pow]
    omega
  have hshift : entry' >>> 12 = entry >>> 12 := by
    apply Nat.eq_of_testBit_eq
    intro i
    rw [Nat.testBit_shiftRight, Nat.testBit_shiftRight, hkept (12 + i) (by omega)]
  have hpresent : present entry' = present entry := by
    unfold present
    rw [show pteP = 2 ^ 0 from rfl, hflag 0 (by omega)]
  have hwritable : isWritable entry' = isWritable entry := by
    unfold isWritable
    rw [show pteW = 2 ^ 1 from rfl, hflag 1 (by omega)]
  unfold sight
  rw [hpresent, hwritable, haddress, haddress, hshift]

/-- Machines in whose tables the same is in sight. -/
def Alike (s s' : Machine) : Prop :=
  ∀ table idx, (readEntry s' table idx).map sight = (readEntry s table idx).map sight

variable {s s' : Machine} {root vpage entry bit : ℕ} {pte : Slot} {b : Bool}

/-- What a computation does with what is in sight of an entry. -/
theorem Alike.bind {Result : Type} (h : Alike s s') (table idx : ℕ)
    (k : Bool × ℕ × Bool → Option Result) :
    ((readEntry s' table idx).bind fun entry ↦ k (sight entry)) =
      (readEntry s table idx).bind fun entry ↦ k (sight entry) := by
  have hsight := congrArg (fun o ↦ Option.bind o k) (h table idx)
  rw [Option.bind_map, Option.bind_map] at hsight
  exact hsight

/-- Walks in machines in which the same is in sight end at the same entries. -/
theorem find_alike (h : Alike s s') (leaf : ℕ) (indices : List ℕ) (table : ℕ) :
    find leaf indices s' table = find leaf indices s table := by
  induction indices generalizing table with
  | nil => rfl
  | cons idx indices ih =>
    rw [find, find]
    by_cases htable : table = 0
    · rw [if_pos htable, if_pos htable]
    · rw [if_neg htable, if_neg htable]
      simp only [ih]
      exact h.bind table idx fun look ↦
        if look.1 then find leaf indices s (ptov look.2.1) else some none

/-- Every address leads to the same page. -/
theorem Alike.getPage (h : Alike s s') (root va : ℕ) :
    pml4GetPage s' root va = pml4GetPage s root va := by
  by_cases hva : isUserVaddr va
  · rw [pml4GetPage_eq hva, pml4GetPage_eq hva, find_alike h]
    cases find (ptx va) (indices va) s root with
    | none => rfl
    | some pte =>
      cases pte with
      | none => rfl
      | some pte =>
        simp only [Option.bind_some, Option.map_eq_bind]
        exact h.bind pte.table pte.idx fun look ↦
          some (if look.1 then some (ptov look.2.1 + pgOfs va) else none)
  · simp [pml4GetPage, hva, guard]

/-- Every address is writable or not, as before. -/
theorem Alike.writableAt (h : Alike s s') (root va : ℕ) :
    writableAt s' root va = writableAt s root va := by
  unfold Paging.writableAt
  rw [pml4eWalk_eq, pml4eWalk_eq, walk_false, walk_false, find_alike h]
  cases find (ptx va) (indices va) s root with
  | none => rfl
  | some pte =>
    cases pte with
    | none => rfl
    | some pte => exact h.bind pte.table pte.idx fun look ↦ some (some look.2.2)

/-! ### The calls -/

/-- `setFlag` writes the entry of the address. -/
theorem setFlag_eq {entries : ℕ → ℕ} (hkernel : kernBase ≤ root)
    (hwalk : pml4eWalk s root vpage false = some (some pte, s))
    (hentries : s.pages pte.table = some entries) (flag : ℕ) (b : Bool) :
    setFlag flag s root vpage b = some { s with pages := s.pages.put pte.table (Function.update entries
      pte.idx (if b then entries pte.idx ||| flag else entries pte.idx &&& notUint32 flag)) } := by
  unfold setFlag
  dsimp only [Bind.bind]
  rw [hwalk, Option.bind_some]
  dsimp only
  rw [readEntry_eq hentries, Option.bind_some, writeEntry_eq hentries, Option.bind_some, guard,
    if_pos hkernel]
  rfl

/-- `setFlag` changes its bit only if and only if it sets it or the upper half of the entry is zero. -/
theorem setFlag_iff (hlow : 2 ≤ bit) (hhigh : bit < 12) (hkernel : kernBase ≤ root)
    (hwalk : pml4eWalk s root vpage false = some (some pte, s))
    (hentry : readEntry s pte.table pte.idx = some entry) (b : Bool) :
    SetsBit bit b s pte (setFlag (2 ^ bit) s root vpage b) ↔ b = true ∨ entry < 2 ^ 32 := by
  obtain ⟨entries, hentries, rfl⟩ := Option.map_eq_some_iff.mp hentry
  obtain ⟨hwritten, hothers⟩ := readEntry_put hentries
    (if b then entries pte.idx ||| 2 ^ bit else entries pte.idx &&& notUint32 (2 ^ bit))
  have hcall := setFlag_eq hkernel hwalk hentries (2 ^ bit) b
  rw [← flag_iff (Nat.lt_trans hhigh (by decide)) (entries pte.idx) b]
  constructor
  · rintro ⟨s', e, e', hs', he, he', hbits, -⟩
    obtain rfl := Option.some.inj (hcall.symm.trans hs')
    rw [Option.some.inj (hwritten.symm.trans he'), Option.some.inj (hentry.symm.trans he)]
    exact hbits
  · intro hbits
    refine ⟨_, _, _, hcall, hentry, hwritten, hbits, hothers, fun root' va ↦ ?_⟩
    have halike : Alike s { s with pages := s.pages.put pte.table (Function.update entries pte.idx
        (if b then entries pte.idx ||| 2 ^ bit else entries pte.idx &&& notUint32 (2 ^ bit))) } := by
      intro table idx
      by_cases hslot : table = pte.table ∧ idx = pte.idx
      · obtain ⟨rfl, rfl⟩ := hslot
        rw [hwritten, hentry, Option.map_some, Option.map_some, sight_congr hlow hhigh hbits]
      · rw [hothers table idx hslot]
    exact ⟨halike.getPage root' va, halike.writableAt root' va⟩

/-- `pml4_set_dirty` and `pml4_set_accessed` change their bit only if and only if they set it or the
entry has no bit in its upper half. -/
theorem setDirty_setAccessed_iff (hkernel : kernBase ≤ root)
    (hwalk : pml4eWalk s root vpage false = some (some pte, s))
    (hentry : readEntry s pte.table pte.idx = some entry) (b : Bool) :
    (SetsBit 6 b s pte (pml4SetDirty s root vpage b) ↔ b = true ∨ entry < 2 ^ 32) ∧
      (SetsBit 5 b s pte (pml4SetAccessed s root vpage b) ↔ b = true ∨ entry < 2 ^ 32) :=
  ⟨setFlag_iff (by decide) (by decide) hkernel hwalk hentry b,
    setFlag_iff (by decide) (by decide) hkernel hwalk hentry b⟩

/-- A machine with one table on each level and the frame at 4 GiB mapped at the address 0. -/
def highFrame : Machine where
  pages := fun page ↦
    if page = kernBase + 0x1000 then some fun idx ↦ if idx = 0 then 0x2007 else 0
    else if page = kernBase + 0x2000 then some fun idx ↦ if idx = 0 then 0x3007 else 0
    else if page = kernBase + 0x3000 then some fun idx ↦ if idx = 0 then 0x4007 else 0
    else if page = kernBase + 0x4000 then some fun idx ↦ if idx = 0 then 0x100000067 else 0
    else none
  supply := []

theorem walk_highFrame : pml4eWalk highFrame (kernBase + 0x1000) 0 false =
    some (some ⟨kernBase + 0x4000, 0⟩, highFrame) := by
  rw [pml4eWalk_eq, walk_false]
  rfl

/-- The bits of the frame at 4 GiB can be set. -/
theorem setDirty_setAccessed_iff_highFrame :
    (SetsBit 6 true highFrame ⟨kernBase + 0x4000, 0⟩
        (pml4SetDirty highFrame (kernBase + 0x1000) 0 true) ↔ true = true ∨ 0x100000067 < 2 ^ 32) ∧
      (SetsBit 5 true highFrame ⟨kernBase + 0x4000, 0⟩
        (pml4SetAccessed highFrame (kernBase + 0x1000) 0 true) ↔
          true = true ∨ 0x100000067 < 2 ^ 32) :=
  setDirty_setAccessed_iff (by decide) walk_highFrame rfl true

/-- Clearing the dirty bit of the frame at 4 GiB clears its address. -/
theorem not_setDirty_setAccessed : ¬∀ (s : Machine) (root vpage entry : ℕ) (pte : Slot) (b : Bool),
    kernBase ≤ root → pml4eWalk s root vpage false = some (some pte, s) →
      readEntry s pte.table pte.idx = some entry → entry < 2 ^ 64 →
        SetsBit 6 b s pte (pml4SetDirty s root vpage b) ∧
          SetsBit 5 b s pte (pml4SetAccessed s root vpage b) := by
  intro hall
  have hdirty := (hall highFrame (kernBase + 0x1000) 0 0x100000067 _ false (by decide)
    walk_highFrame rfl (by decide)).1
  have hcond := (setFlag_iff (by decide) (by decide) (by decide) walk_highFrame rfl false).mp hdirty
  exact absurd hcond (by decide)

end Jungle.Paging
