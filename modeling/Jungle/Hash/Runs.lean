import Jungle.Hash.Rehash
import Jungle.Lib.Run
import Mathlib.Order.RelClasses

/-!
# Runs of the functions on hash tables

A run initialises a table and then calls `hash_insert`, `hash_replace`, `hash_find` and `hash_delete`
on it; between the calls the cells that are not the table's may change in any way. Every call may be
refused memory. The state of a run is the cells and the table together with the set that the calls so
far have made of the empty one. `run_refines_set` says that the table holds this set, each element in
the bucket its hash selects, and that the next call does what it says.
-/

set_option autoImplicit false
set_option relaxedAutoImplicit false

namespace Jungle.Hash

open Jungle.Lib Jungle.KernelList

/-- The calls; `mem` is what `malloc` returns for a size. -/
inductive Call
  | insert (mem : ℕ → Option ℕ) (new : ℕ)
  | replace (mem : ℕ → Option ℕ) (new : ℕ)
  | find (e : ℕ)
  | delete (mem : ℕ → Option ℕ) (e : ℕ)

/-- The cells, the table, and the set of its elements. -/
structure State where
  m : Elems
  h : Table
  stored : Finset ℕ

/-- What a call returns, and the cells and the table after it. -/
def Call.exec (hash : ℕ → UInt64) (less : ℕ → ℕ → Bool) (fuel : ℕ) (m : Elems) (h : Table) :
    Call → Option (Option ℕ × Elems × Table)
  | .insert mem new => hashInsert hash less mem fuel m h new
  | .replace mem new => hashReplace hash less mem fuel m h new
  | .find e => (hashFind hash less fuel m h e).map (·, m, h)
  | .delete mem e => hashDelete hash less mem fuel m h e

/-- The element a call is given. -/
def Call.key : Call → ℕ
  | .insert _ new => new
  | .replace _ new => new
  | .find e => e
  | .delete _ e => e

/-- A cell that is no head and no tail of a bucket. -/
def IsElem (m : Elems) (h : Table) (e : ℕ) : Prop :=
  (m e).isSome ∧ ¬InArray h.buckets h.bucketCnt e

/-- An element that may be put in is a cell of its own; memory that `malloc` returns is not in use. -/
def Call.Allowed (m : Elems) (h : Table) : Call → Prop
  | .insert mem new => Fresh mem m ∧ IsElem m h new
  | .replace mem new => Fresh mem m ∧ IsElem m h new
  | .find _ => True
  | .delete mem _ => Fresh mem m

/-- What a call that finds an element, or none, makes of the set. -/
def Call.apply (S : Finset ℕ) (found : Option ℕ) : Call → Finset ℕ
  | .insert _ new => if found = none then Insert.insert new S else S
  | .replace _ new => Insert.insert new (found.elim S S.erase)
  | .find _ => S
  | .delete _ _ => found.elim S S.erase

/-- A call, or a change of the cells that are not the table's. -/
inductive Step (hash : ℕ → UInt64) (less : ℕ → ℕ → Bool) : State → Option Call → State → Prop
  | call {s : State} {call : Call} {found : Option ℕ} {m : Elems} {h : Table}
      (hallowed : call.Allowed s.m s.h)
      (hreturns : Returns (fun fuel ↦ call.exec hash less fuel s.m s.h) (found, m, h)) :
      Step hash less s (some call) ⟨m, h, call.apply s.stored found⟩
  | other {s : State} {m : Elems}
      (hsame : ∀ a, a ∈ s.stored ∨ InArray s.h.buckets s.h.bucketCnt a → m a = s.m a) :
      Step hash less s none ⟨m, s.h, s.stored⟩

/-- An element equivalent to `e` has been found in the set, or there is none. -/
def Finds (less : ℕ → ℕ → Bool) (S : Finset ℕ) (e : ℕ) : Option ℕ → Prop
  | some x => x ∈ S ∧ equivalent less e x = true
  | none => ∀ x ∈ S, equivalent less e x = false

/-- The table is well formed and holds the elements of the set: each one is once in the bucket that its
hash selects, and no two are equivalent. -/
structure Represents (hash : ℕ → UInt64) (less : ℕ → ℕ → Bool) (m : Elems) (h : Table)
    (S : Finset ℕ) : Prop where
  power : ∃ k, h.bucketCnt = 2 ^ k
  four : 4 ≤ h.bucketCnt
  count : h.elemCnt = S.card
  apart : ∀ e ∈ S, ∀ x ∈ S, equivalent less e x = true → x = e
  buckets : ∃ σ : Fin h.bucketCnt → List ℕ,
    WellFormed (fun i : Fin h.bucketCnt ↦ bucketAt h.buckets i) m σ ∧
      ∀ i e, (σ i).count e = if e ∈ S ∧ index hash h e = i then 1 else 0

/-- A call returns an equivalent element if and only if there is one, and the table holds the right set
after it. -/
def Conforms (hash : ℕ → UInt64) (less : ℕ → ℕ → Bool) (s : State) (call : Call) : Prop :=
  ∃ found m h, Returns (fun fuel ↦ call.exec hash less fuel s.m s.h) (found, m, h) ∧
    Finds less s.stored call.key found ∧
    Represents hash less m h (call.apply s.stored found)

variable {hash : ℕ → UInt64} {less : ℕ → ℕ → Bool} {mem : ℕ → Option ℕ} {m m' : Elems}
  {h h' : Table} {S : Finset ℕ} {σ : Fin h.bucketCnt → List ℕ} {e x : ℕ} {found : Option ℕ}

theorem equivalent_comm (e x : ℕ) : equivalent less e x = equivalent less x e := Bool.and_comm ..

/-! ### The functions on buckets -/

namespace Stored

/-- `find_elem` in the bucket of an element. -/
theorem find (hs : Stored hash less m h S σ)
    (hhash : ∀ a b, equivalent less a b = true → hash a = hash b) (e : ℕ) : ∃ found,
      Returns (fun fuel ↦ findElem less fuel m (findBucket hash h e) e) found ∧
        Finds less S e found := by
  have hcall := returns_findElem less hs.holds (bucketOf hash hs.valid e) e
  refine ⟨_, hcall, ?_⟩
  cases hfound : (σ (bucketOf hash hs.valid e)).find? (equivalent less e) with
  | some x =>
    have hmem := List.mem_of_find?_eq_some hfound
    exact ⟨((hs.mem _ x).mp hmem).1, List.find?_some hfound⟩
  | none =>
    intro x hx
    by_contra hequiv
    have hequiv' : equivalent less e x = true := Bool.eq_true_of_not_eq_false hequiv
    have hindex : index hash h x = bucketOf hash hs.valid e := by
      rw [index, ← hhash e x hequiv']
      rfl
    have hmem := (hs.mem (bucketOf hash hs.valid e) x).mpr ⟨hx, hindex⟩
    exact List.find?_eq_none.mp hfound x hmem hequiv'

/-- An element of its own is in no bucket. -/
theorem inNoList (hs : Stored hash less m h S σ) (helem : IsElem m h e) (hout : e ∉ S) :
    InNoList (fun i : Fin h.bucketCnt ↦ bucketAt h.buckets i) σ e := by
  intro i hmem
  rw [nodes, List.mem_cons, List.mem_append, List.mem_singleton] at hmem
  rcases hmem with hhead | hin | htail
  · exact helem.2 (inArray_iff.mpr ⟨i, i.isLt, Or.inl hhead⟩)
  · exact hout ((hs.mem i e).mp hin).1
  · exact helem.2 (inArray_iff.mpr ⟨i, i.isLt, Or.inr htail⟩)

/-- `insert_elem` -/
theorem insertElem (hs : Stored hash less m h S σ) (helem : IsElem m h e) (hout : e ∉ S)
    (hnew : ∀ x ∈ S, equivalent less e x = false) : ∃ m' σ',
      insertElem m h (findBucket hash h e) e =
        some (m', { h with elemCnt := h.elemCnt + 1 }) ∧
      Stored hash less m' { h with elemCnt := h.elemCnt + 1 } (insert e S) σ' ∧
      ∀ a, (m' a).isSome = (m a).isSome := by
  obtain ⟨m', hpush, hholds⟩ :=
    holds_pushFront (i := bucketOf hash hs.valid e) hs.holds helem.1 (hs.inNoList helem hout)
  refine ⟨m', _, ?_, ⟨hs.valid, hholds, fun i x ↦ ?_, ?_, fun a ha b hb hab ↦ ?_⟩,
    listPushFront_allocated hpush⟩
  · simp only [Hash.insertElem, findBucket_eq hs.valid, hpush, Option.bind_eq_bind,
      Option.bind_some, Option.pure_def]
  · have hindex : bucketOf hash hs.valid e = i ↔ index hash h e = i := Fin.ext_iff
    by_cases hi : i = bucketOf hash hs.valid e
    · subst hi
      rw [Function.update_self, List.mem_cons, hs.mem, Finset.mem_insert, or_and_right]
      exact or_congr_left ⟨fun heq ↦ ⟨heq, heq ▸ rfl⟩, fun heq ↦ heq.1⟩
    · rw [Function.update_of_ne hi, hs.mem, Finset.mem_insert, or_and_right]
      refine ⟨Or.inr, fun hx ↦ hx.resolve_left ?_⟩
      rintro ⟨rfl, heq⟩
      exact hi (hindex.mpr heq).symm
  · rw [Finset.card_insert_of_notMem hout, hs.count]
  · rcases Finset.mem_insert.mp ha with hae | haS
    · rcases Finset.mem_insert.mp hb with hbe | hbS
      · exact hbe.trans hae.symm
      · rw [hae, hnew b hbS] at hab
        exact absurd hab (by decide)
    · rcases Finset.mem_insert.mp hb with hbe | hbS
      · rw [hbe, equivalent_comm, hnew a haS] at hab
        exact absurd hab (by decide)
      · exact hs.apart a haS b hbS hab

/-- `remove_elem` -/
theorem removeElem (hs : Stored hash less m h S σ) (hin : e ∈ S) : ∃ m' σ',
    removeElem m h e = some (m', { h with elemCnt := h.elemCnt - 1 }) ∧
      Stored hash less m' { h with elemCnt := h.elemCnt - 1 } (S.erase e) σ' ∧
      ∀ a, (m' a).isSome = (m a).isSome := by
  have hmem : e ∈ σ (bucketOf hash hs.valid e) := (hs.mem _ e).mpr ⟨hin, rfl⟩
  obtain ⟨F, B, hσ, -⟩ := List.eq_append_cons_of_mem hmem
  obtain ⟨m', y, hremove, -, hholds⟩ := holds_remove hs.holds hσ
  have hnodup := hs.holds.wellFormed.nodup (bucketOf hash hs.valid e)
  rw [hσ] at hnodup
  refine ⟨m', _, ?_, ⟨hs.valid, hholds, fun i x ↦ ?_, ?_, fun a ha b hb hab ↦ ?_⟩,
    listRemove_allocated hremove⟩
  · simp only [Hash.removeElem, hremove, Option.bind_eq_bind, Option.bind_some, Option.pure_def]
  · have hindex : bucketOf hash hs.valid e = i ↔ index hash h e = i := Fin.ext_iff
    rw [Finset.mem_erase]
    by_cases hi : i = bucketOf hash hs.valid e
    · subst hi
      have hold := hs.mem (bucketOf hash hs.valid e) x
      rw [hσ, List.mem_append, List.mem_cons] at hold
      rw [Function.update_self, List.mem_append, and_assoc]
      have hnot : e ∉ F ∧ e ∉ B := by grind
      constructor
      · intro hx
        refine ⟨fun heq ↦ ?_, hold.mp (hx.imp id Or.inr)⟩
        rw [heq] at hx
        exact hx.elim hnot.1 hnot.2
      · rintro ⟨hne, hx⟩
        exact (hold.mpr hx).imp id fun hx ↦ hx.resolve_left hne
    · rw [Function.update_of_ne hi, hs.mem]
      refine ⟨fun hx ↦ ⟨⟨fun heq ↦ ?_, hx.1⟩, hx.2⟩, fun hx ↦ ⟨hx.1.2, hx.2⟩⟩
      exact hi (hindex.mpr (heq ▸ hx.2)).symm
  · rw [Finset.card_erase_of_mem hin, hs.count]
  · exact hs.apart a (Finset.mem_of_mem_erase ha) b (Finset.mem_of_mem_erase hb) hab

theorem represents (hs : Stored hash less m h S σ) : Represents hash less m h S where
  power := hs.valid.2
  four := hs.valid.1
  count := hs.count
  apart := hs.apart
  buckets := by
    refine ⟨σ, hs.holds.wellFormed, fun i e ↦ ?_⟩
    split_ifs with hin
    · exact List.count_eq_one_of_mem (hs.holds.wellFormed.nodup i) ((hs.mem i e).mpr hin)
    · exact List.count_eq_zero_of_not_mem fun hmem ↦ hin ((hs.mem i e).mp hmem)

/-- The cells of the buckets. -/
theorem of_mem_nodes (hs : Stored hash less m h S σ) {i : Fin h.bucketCnt} {a : ℕ}
    (ha : a ∈ nodes (bucketAt h.buckets i) (σ i)) : a ∈ S ∨ InArray h.buckets h.bucketCnt a := by
  rw [nodes, List.mem_cons, List.mem_append, List.mem_singleton] at ha
  rcases ha with hhead | hin | htail
  · exact Or.inr (inArray_iff.mpr ⟨i, i.isLt, Or.inl hhead⟩)
  · exact Or.inl ((hs.mem i a).mp hin).1
  · exact Or.inr (inArray_iff.mpr ⟨i, i.isLt, Or.inr htail⟩)

/-- Changes of cells that are not the table's. -/
theorem frame (hs : Stored hash less m h S σ)
    (hsame : ∀ a, a ∈ S ∨ InArray h.buckets h.bucketCnt a → m' a = m a) :
    Stored hash less m' h S σ where
  valid := hs.valid
  holds := hs.holds.frame fun _ a ha ↦ hsame a (hs.of_mem_nodes ha)
  mem := hs.mem
  count := hs.count
  apart := hs.apart

end Stored

/-! ### The calls -/

/-- A call does what it says, and the table holds the right set after it. -/
def Executes (hash : ℕ → UInt64) (less : ℕ → ℕ → Bool) (s : State) (call : Call) : Prop :=
  ∃ found m h, Returns (fun fuel ↦ call.exec hash less fuel s.m s.h) (found, m, h) ∧
    Finds less s.stored call.key found ∧
    ∃ σ, Stored hash less m h (call.apply s.stored found) σ

theorem equivalent_iff : equivalent less e x = true ↔ ¬less e x = true ∧ ¬less x e = true := by
  rw [equivalent, Bool.and_eq_true, Bool.not_eq_true', Bool.not_eq_true', Bool.not_eq_true,
    Bool.not_eq_true, and_comm]

section Order

variable [IsStrictWeakOrder ℕ fun a b ↦ less a b = true]

theorem equivalent_self (e : ℕ) : equivalent less e e = true :=
  equivalent_iff.mpr ⟨irrefl_of (fun a b ↦ less a b = true) e,
    irrefl_of (fun a b ↦ less a b = true) e⟩

theorem equivalent_trans {y : ℕ} (h : equivalent less e x = true)
    (h' : equivalent less x y = true) : equivalent less e y = true :=
  equivalent_iff.mpr (@IsStrictWeakOrder.incomp_trans ℕ (fun a b ↦ less a b = true) _ e x y
    (equivalent_iff.mp h) (equivalent_iff.mp h'))

/-- An element without an equivalent one is not in the set. -/
theorem not_mem_of_finds (hfinds : Finds less S e none) : e ∉ S := fun hmem ↦
  absurd ((hfinds e hmem).symm.trans (equivalent_self e)) (by decide)

namespace Stored

/-- `hash_insert` -/
theorem hashInsert (hs : Stored hash less m h S σ)
    (hhash : ∀ a b, equivalent less a b = true → hash a = hash b) (hfresh : Fresh mem m)
    (helem : IsElem m h e) : Executes hash less ⟨m, h, S⟩ (.insert mem e) := by
  obtain ⟨found, hfind, hfinds⟩ := hs.find hhash e
  cases found with
  | none =>
    obtain ⟨m₁, σ₁, hinsert, hs₁, hcells⟩ := hs.insertElem helem (not_mem_of_finds hfinds) hfinds
    obtain ⟨m', h', σ', hrehash, hs'⟩ := rehash_stored hs₁ (hfresh.congr hcells)
    refine ⟨none, m', h', hfind.bind ?_, hfinds, σ', hs'⟩
    simp only [if_true, hinsert, Option.bind_eq_bind, Option.bind_some]
    exact hrehash.bind (returns_const rfl)
  | some x =>
    obtain ⟨m', h', σ', hrehash, hs'⟩ := rehash_stored hs hfresh
    refine ⟨some x, m', h', hfind.bind ?_, hfinds, σ', hs'⟩
    simp only [reduceCtorEq, if_false, Option.bind_eq_bind, Option.bind_some]
    exact hrehash.bind (returns_const rfl)

/-- `hash_replace` -/
theorem hashReplace (hs : Stored hash less m h S σ)
    (hhash : ∀ a b, equivalent less a b = true → hash a = hash b) (hfresh : Fresh mem m)
    (helem : IsElem m h e) : Executes hash less ⟨m, h, S⟩ (.replace mem e) := by
  obtain ⟨found, hfind, hfinds⟩ := hs.find hhash e
  cases found with
  | none =>
    obtain ⟨m₁, σ₁, hinsert, hs₁, hcells⟩ := hs.insertElem helem (not_mem_of_finds hfinds) hfinds
    obtain ⟨m', h', σ', hrehash, hs'⟩ := rehash_stored hs₁ (hfresh.congr hcells)
    refine ⟨none, m', h', hfind.bind ?_, hfinds, σ', hs'⟩
    simp only [hinsert, Option.bind_eq_bind, Option.bind_some]
    exact hrehash.bind (returns_const rfl)
  | some x =>
    obtain ⟨hx, hequiv⟩ := hfinds
    obtain ⟨m₁, σ₁, hremove, hs₁, hcells₁⟩ := hs.removeElem hx
    have hout : e ∉ S.erase x := by
      intro hmem
      obtain ⟨hne, he⟩ := Finset.mem_erase.mp hmem
      exact hne (hs.apart e he x hx hequiv).symm
    have hnew : ∀ y ∈ S.erase x, equivalent less e y = false := by
      intro y hy
      obtain ⟨hne, hyS⟩ := Finset.mem_erase.mp hy
      by_contra hey
      have hxy : equivalent less x y = true :=
        equivalent_trans (equivalent_comm e x ▸ hequiv) (Bool.eq_true_of_not_eq_false hey)
      exact hne (hs.apart x hx y hyS hxy)
    have helem₁ : IsElem m₁ { h with elemCnt := h.elemCnt - 1 } e :=
      ⟨(hcells₁ e).trans helem.1, helem.2⟩
    obtain ⟨m₂, σ₂, hinsert, hs₂, hcells₂⟩ := hs₁.insertElem helem₁ hout hnew
    have hfresh₂ : Fresh mem m₂ := hfresh.congr fun a ↦ (hcells₂ a).trans (hcells₁ a)
    obtain ⟨m', h', σ', hrehash, hs'⟩ := rehash_stored hs₂ hfresh₂
    refine ⟨some x, m', h', hfind.bind ?_, ⟨hx, hequiv⟩, σ', hs'⟩
    have hbucket : findBucket hash h e = findBucket hash { h with elemCnt := h.elemCnt - 1 } e := rfl
    simp only [hremove, hbucket, hinsert, Option.bind_eq_bind, Option.bind_some]
    exact hrehash.bind (returns_const rfl)

omit [IsStrictWeakOrder ℕ fun a b ↦ less a b = true] in
/-- `hash_delete` -/
theorem hashDelete (hs : Stored hash less m h S σ)
    (hhash : ∀ a b, equivalent less a b = true → hash a = hash b) (hfresh : Fresh mem m) :
    Executes hash less ⟨m, h, S⟩ (.delete mem e) := by
  obtain ⟨found, hfind, hfinds⟩ := hs.find hhash e
  cases found with
  | none => exact ⟨none, m, h, hfind.bind (returns_const rfl), hfinds, σ, hs⟩
  | some x =>
    obtain ⟨m₁, σ₁, hremove, hs₁, hcells⟩ := hs.removeElem hfinds.1
    obtain ⟨m', h', σ', hrehash, hs'⟩ := rehash_stored hs₁ (hfresh.congr hcells)
    refine ⟨some x, m', h', hfind.bind ?_, hfinds, σ', hs'⟩
    simp only [hremove, Option.bind_eq_bind, Option.bind_some]
    exact hrehash.bind (returns_const rfl)

/-- Every allowed call. -/
theorem executes (hs : Stored hash less m h S σ)
    (hhash : ∀ a b, equivalent less a b = true → hash a = hash b) {call : Call}
    (hallowed : call.Allowed m h) : Executes hash less ⟨m, h, S⟩ call := by
  cases call with
  | insert mem new => exact hs.hashInsert hhash hallowed.1 hallowed.2
  | replace mem new => exact hs.hashReplace hhash hallowed.1 hallowed.2
  | find e =>
    obtain ⟨found, hfind, hfinds⟩ := hs.find hhash e
    obtain ⟨bound, hbound⟩ := hfind
    refine ⟨found, m, h, ⟨bound, fun fuel hfuel ↦ ?_⟩, hfinds, σ, hs⟩
    have hcall : hashFind hash less fuel m h e = some found := hbound fuel hfuel
    simp only [Call.exec, hcall, Option.map_some]
  | delete mem e => exact hs.hashDelete hhash hallowed

end Stored

/-! ### Runs -/

/-- A state whose table holds the set. -/
def Sound (hash : ℕ → UInt64) (less : ℕ → ℕ → Bool) (s : State) : Prop :=
  ∃ σ, Stored hash less s.m s.h s.stored σ

theorem sound_step {s s' : State} {label : Option Call}
    (hhash : ∀ a b, equivalent less a b = true → hash a = hash b) (h : Sound hash less s)
    (hstep : Step hash less s label s') : Sound hash less s' := by
  obtain ⟨σ, hs⟩ := h
  cases hstep with
  | call hallowed hreturns =>
    obtain ⟨found, m, h, hreturns', -, hstored⟩ := hs.executes hhash hallowed
    obtain ⟨rfl, rfl, rfl⟩ := Prod.mk.inj (hreturns.unique hreturns') |>.imp id Prod.mk.inj
    exact hstored
  | other hsame => exact ⟨σ, hs.frame hsame⟩

end Order

/-- `hash_init` makes an empty table if it gets memory. -/
theorem exists_init (hash : ℕ → UInt64) (less : ℕ → ℕ → Bool) {block : ℕ} (hfresh : Fresh mem m)
    (hmem : mem (listSize * 4) = some block) : ∃ m',
      hashInit mem m = some (some (m', ⟨0, 4, block⟩)) ∧ Sound hash less ⟨m', ⟨0, 4, block⟩, ∅⟩ ∧
        ∀ a, ¬InArray block 4 a → m' a = m a := by
  have hfree : ∀ a, InArray block 4 a → m a = none := fun a ha ↦
    hfresh _ _ hmem a ha.1 ha.2.1
  obtain ⟨m', hinit, hholds, hsame, -⟩ := init_array hfree
  have hclear : hashClear (allocLists m block 4) ⟨0, 4, block⟩ = some (m', ⟨0, 4, block⟩) := by
    simp only [hashClear, hinit, Option.bind_eq_bind, Option.bind_some, Option.pure_def]
  have hvalid : Valid 4 := ⟨Nat.le_refl 4, 2, rfl⟩
  refine ⟨m', ?_, ⟨fun _ ↦ [], hvalid, hholds, fun i e ↦ ?_, rfl, nofun⟩, hsame⟩
  · simp only [hashInit, hmem, hclear, Option.map_some]
  · exact ⟨fun hmem ↦ absurd hmem List.not_mem_nil, fun hmem ↦ absurd hmem.1 (Finset.notMem_empty e)⟩

theorem sound_init (hfresh : Fresh mem m) (hinit : hashInit mem m = some (some (m', h))) :
    Sound hash less ⟨m', h, ∅⟩ := by
  cases hmem : mem (listSize * 4) with
  | none =>
    simp only [hashInit, hmem, Option.some.injEq, reduceCtorEq] at hinit
  | some block =>
    obtain ⟨m₁, hinit₁, hsound, -⟩ := exists_init hash less hfresh hmem
    obtain ⟨rfl, rfl⟩ := Prod.mk.inj (Option.some.inj (Option.some.inj (hinit.symm.trans hinit₁)))
    exact hsound

/-- After every run the table holds the set that the calls have made of the empty one, and every call
does what it says. -/
theorem run_refines_set [IsStrictWeakOrder ℕ fun a b ↦ less a b = true]
    (hhash : ∀ a b, equivalent less a b = true → hash a = hash b) {labels : List (Option Call)}
    {s : State} (hfresh : Fresh mem m) (hinit : hashInit mem m = some (some (m', h)))
    (hrun : Run (Step hash less) ⟨m', h, ∅⟩ labels s) :
    Represents hash less s.m s.h s.stored ∧
      ∀ call : Call, call.Allowed s.m s.h → Conforms hash less s call := by
  have hkeep : ∀ s label s', Sound hash less s → Step hash less s label s' → Sound hash less s' :=
    fun _ _ _ ↦ sound_step hhash
  obtain ⟨σ, hs⟩ := Run.invariant hkeep hrun (sound_init hfresh hinit)
  refine ⟨hs.represents, fun call hallowed ↦ ?_⟩
  obtain ⟨found, m, h, hreturns, hfinds, σ', hs'⟩ := hs.executes hhash hallowed
  exact ⟨found, m, h, hreturns, hfinds, hs'.represents⟩

/-- Elements below 4096 and free memory above it. -/
def lowElems : Elems := fun a ↦ if a < 4096 then some ⟨none, none⟩ else none

theorem eq_of_equivalent_lt {a b : ℕ} (h : equivalent (fun a b ↦ decide (a < b)) a b = true) :
    a = b := by
  simp only [equivalent, Bool.and_eq_true, Bool.not_eq_true', decide_eq_false_iff_not,
    Nat.not_lt] at h
  exact Nat.le_antisymm h.1 h.2

theorem isStrictWeakOrder_decide : IsStrictWeakOrder ℕ fun a b ↦ decide (a < b) = true := by
  simp only [decide_eq_true_eq]
  exact isStrictWeakOrder_of_isOrderConnected

theorem fresh_lowElems : Fresh (fun _ ↦ some 4096) lowElems := by
  rintro size block hblock a hle -
  obtain rfl := Option.some.inj hblock
  exact if_neg (Nat.not_lt_of_le hle)

/-- One element can be put into a table of numbers, without memory for new buckets. -/
theorem exists_insert_low : ∃ m h m' h',
    hashInit (fun _ ↦ some 4096) lowElems = some (some (m, h)) ∧
      Step (fun e ↦ UInt64.ofNat e) (fun a b ↦ decide (a < b)) ⟨m, h, ∅⟩
        (some (.insert (fun _ ↦ none) 16)) ⟨m', h', {16}⟩ := by
  have horder := isStrictWeakOrder_decide
  obtain ⟨m, hinit, ⟨σ, hs⟩, hsame⟩ :=
    exists_init (fun e ↦ UInt64.ofNat e) (fun a b ↦ decide (a < b)) fresh_lowElems rfl
  have hout : ¬InArray 4096 4 16 := by decide
  have hallowed : (Call.insert (fun _ ↦ none) 16).Allowed m ⟨0, 4, 4096⟩ := by
    refine ⟨nofun, ?_, hout⟩
    rw [hsame 16 hout]
    rfl
  obtain ⟨found, m', h', hreturns, hfinds, -⟩ :=
    hs.executes (fun a b hab ↦ congrArg UInt64.ofNat (eq_of_equivalent_lt hab)) hallowed
  cases found with
  | some x => exact absurd hfinds.1 (Finset.notMem_empty x)
  | none => exact ⟨m, _, m', h', hinit, .call hallowed hreturns⟩

/-- A run that puts one element into a table of numbers, without memory for new buckets. -/
theorem run_refines_set_insert : ∃ m h,
    Represents (fun e ↦ UInt64.ofNat e) (fun a b ↦ decide (a < b)) m h {16} := by
  have horder := isStrictWeakOrder_decide
  obtain ⟨m, h, m', h', hinit, hstep⟩ := exists_insert_low
  exact ⟨m', h', (run_refines_set (fun a b hab ↦ congrArg UInt64.ofNat (eq_of_equivalent_lt hab))
    fresh_lowElems hinit (.single hstep)).1⟩

end Jungle.Hash
