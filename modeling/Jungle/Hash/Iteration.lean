import Jungle.Hash.Runs

/-!
# Clearing and iterating

`hash_clear` with a destructor, and the iterator of `pintos/lib/kernel/hash.c`. A destructor is what
it does to the cells. An iterator is at a node of a bucket, which is the head of the first bucket
before the first call of `hash_next`; `remaining` is what is behind it in its bucket and in the buckets
after that one. `iterate_exact` says that going through a table gives each element once, whatever is in
the cells that are not the table's.
-/

set_option autoImplicit false
set_option relaxedAutoImplicit false

namespace Jungle.Hash

open Jungle.Lib Jungle.KernelList

/-! ### The functions -/

/-- A round of the loop of `hash_clear` over a bucket. -/
def destroyBody (destructor : ℕ → Elems → Elems) (bucket : KList) (m : Elems) :
    Option (Elems ⊕ Elems) := do
  if !(← listEmpty m bucket) then
    let (listElem, m) ← listPopFront m bucket
    return .inl (destructor listElem m)
  else return .inr m

/-- A round of the loop of `hash_clear` over the buckets. -/
def clearBucket (destructor : Option (ℕ → Elems → Elems)) (buckets fuel : ℕ) (m : Elems) (i : ℕ) :
    Option Elems := do
  let bucket := bucketAt buckets i
  let m ← match destructor with
    | some destructor => whileLoop (destroyBody destructor bucket) fuel m
    | none => some m
  listInit m bucket

/-- `hash_clear (h, destructor)` -/
def hashClearWith (destructor : Option (ℕ → Elems → Elems)) (fuel : ℕ) (m : Elems) (h : Table) :
    Option (Elems × Table) := do
  let m ← (List.range h.bucketCnt).foldlM (clearBucket destructor h.buckets fuel) m
  return (m, { h with elemCnt := 0 })

/-- `struct hash_iterator` -/
structure Iterator where
  hash : Table
  bucket : ℕ
  elem : Option ℕ
deriving DecidableEq, Repr

/-- The list at an address. -/
def listAt (bucket : ℕ) : KList := ⟨bucket, bucket + elemSize⟩

/-- `hash_first (i, h)` -/
def hashFirst (h : Table) : Iterator := ⟨h, h.buckets, some (listAt h.buckets).head⟩

/-- A round of the loop of `hash_next`. -/
def nextBody (m : Elems) (i : Iterator) : Option (Iterator ⊕ Iterator) :=
  if i.elem = some (listEnd (listAt i.bucket)) then
    let bucket := i.bucket + listSize
    if i.hash.buckets + listSize * i.hash.bucketCnt ≤ bucket then
      some (.inr { i with bucket := bucket, elem := none })
    else (listBegin m (listAt bucket)).map fun elem ↦ .inl { i with bucket := bucket, elem := elem }
  else some (.inr i)

/-- `hash_next (i)`: the iterator, whose element is the result. -/
def hashNext (fuel : ℕ) (m : Elems) (i : Iterator) : Option Iterator := do
  let elem ← listNext m (← i.elem)
  whileLoop (nextBody m) fuel { i with elem := elem }

/-- `hash_cur (i)` -/
def hashCur (i : Iterator) : Option ℕ := i.elem

/-- A round of a loop over a table, with the elements it has used. -/
def visitBody (m : Elems) (fuel : ℕ) : Iterator × List ℕ → Option ((Iterator × List ℕ) ⊕ List ℕ)
  | (i, used) => do
    let i ← hashNext fuel m i
    match hashCur i with
    | some e => return .inl (i, used ++ [e])
    | none => return .inr used

/-- The elements used by a loop over a table, up to the `NULL`. -/
def iterate (fuel : ℕ) (m : Elems) (h : Table) : Option (List ℕ) :=
  whileLoop (visitBody m fuel) fuel (hashFirst h, [])

variable {hash : ℕ → UInt64} {less : ℕ → ℕ → Bool} {mem : ℕ → Option ℕ} {m m' : Elems} {h : Table}
  {S : Finset ℕ} {e : ℕ}

/-! ### Clearing -/

section Clearing

variable {ι : Type*} [DecidableEq ι] {lists : ι → KList} {σ : ι → List ℕ}
  {destructor : ℕ → Elems → Elems}

/-- `list_init` on a list of a family -/
theorem holds_listInit (hholds : Holds lists m σ) (i : ι) : ∃ m',
    listInit m (lists i) = some m' ∧ Holds lists m' (Function.update σ i []) := by
  have hmem : ∀ a ∈ [(lists i).head, (lists i).tail], a ∈ nodes (lists i) (σ i) := by
    simp [nodes]
  have hnodup : (nodes (lists i) []).Nodup := by
    have hfull := hholds.nodup i
    simp only [nodes, List.nodup_cons, List.mem_append, List.mem_singleton, not_or] at hfull
    simpa [nodes] using hfull.1.2
  have hne : (lists i).head ≠ (lists i).tail := by simpa [nodes] using hnodup
  have hallocated : ∀ a ∈ [(lists i).head, (lists i).tail], (m a).isSome := fun a ha ↦
    (hholds.ring i).allocated (hmem a ha)
  obtain ⟨m', hinit, hring, hedits⟩ :=
    listInit_ring (hallocated _ (by simp)) (hallocated _ (by simp)) hne
  exact ⟨m', hinit, hholds.update hring hnodup (fun a ha ↦ absurd ha List.not_mem_nil) hedits fun a ha ↦ Or.inl (hmem a ha)⟩

/-- A destructor changes no cell of the lists but that of its element. -/
def Spares (destructor : ℕ → Elems → Elems) (lists : ι → KList) (σ : ι → List ℕ) : Prop :=
  ∀ i, ∀ e ∈ σ i, ∀ (m : Elems) (j : ι), ∀ a ∈ nodes (lists j) (σ j), a ≠ e → destructor e m a = m a

/-- The loop of `hash_clear` over a bucket empties it. -/
theorem destroy_loop {B : List ℕ} {i : ι} (hholds : Holds lists m σ) (hB : σ i = B)
    (hspares : Spares destructor lists σ) : ∃ m',
      Returns (fun fuel ↦ whileLoop (destroyBody destructor (lists i)) fuel m) m' ∧
        Holds lists m' (Function.update σ i []) := by
  induction B generalizing m σ with
  | nil =>
    refine ⟨m, returns_leave ?_, ?_⟩
    · simp [destroyBody, hholds.listEmpty_eq, hB]
    · rwa [← hB, Function.update_eq_self]
  | cons e B ih =>
    obtain ⟨m₁, hpop, hholds₁⟩ := holds_popFront hholds hB
    have hsub : ∀ j, ∀ a ∈ nodes (lists j) (Function.update σ i B j),
        a ∈ nodes (lists j) (σ j) ∧ a ≠ e := by
      intro j a ha
      have hnodup := hholds.nodup i
      have hmem : e ∈ nodes (lists i) (σ i) := by simp [nodes, hB]
      by_cases hj : j = i
      · subst hj
        simp only [Function.update_self, nodes] at ha
        simp only [nodes, hB] at hnodup ⊢
        grind
      · rw [Function.update_of_ne hj] at ha
        exact ⟨ha, fun heq ↦ hholds.disjoint j i hj ha (heq ▸ hmem)⟩
    have hin : ∀ j, ∀ a ∈ Function.update σ i B j, a ∈ σ j := by
      intro j a ha
      by_cases hj : j = i
      · subst hj
        rw [Function.update_self] at ha
        exact hB ▸ List.mem_cons_of_mem e ha
      · rwa [Function.update_of_ne hj] at ha
    have hholds₂ : Holds lists (destructor e m₁) (Function.update σ i B) :=
      hholds₁.frame fun j a ha ↦ hspares i e (hB ▸ List.mem_cons_self) m₁ j a (hsub j a ha).1
        (hsub j a ha).2
    obtain ⟨m', hloop, hholds'⟩ := ih hholds₂ (Function.update_self ..)
      fun j x hx m k a ha hne ↦ hspares j x (hin j x hx) m k a (hsub k a ha).1 hne
    refine ⟨m', returns_continue ?_ hloop, by rwa [Function.update_idem] at hholds'⟩
    simp [destroyBody, hholds.listEmpty_eq, hB, hpop]

omit [DecidableEq ι] in
/-- A family of fewer sequences. -/
theorem Spares.mono {σ' : ι → List ℕ} (hspares : Spares destructor lists σ)
    (hsub : ∀ i, σ' i = σ i ∨ σ' i = []) : Spares destructor lists σ' := by
  have hmem : ∀ i, σ' i ⊆ σ i := fun i ↦ by
    rcases hsub i with heq | hnil
    · rw [heq]
      exact List.Subset.refl _
    · rw [hnil]
      exact List.nil_subset _
  refine fun i e he m j a ha ↦ hspares i e (hmem i he) m j a ?_
  simp only [nodes, List.mem_cons, List.mem_append] at ha ⊢
  exact ha.imp_right (Or.imp_left fun hin ↦ hmem j hin)

end Clearing

section Buckets

variable {n buckets : ℕ} {σ : Fin n → List ℕ} {destructor : Option (ℕ → Elems → Elems)}

/-- A round of the loop of `hash_clear` over the buckets. -/
theorem clear_bucket (hholds : Holds (fun i : Fin n ↦ bucketAt buckets i) m σ)
    (hspares : ∀ d ∈ destructor, Spares d (fun i : Fin n ↦ bucketAt buckets i) σ) (i : Fin n) :
    ∃ m', Returns (fun fuel ↦ clearBucket destructor buckets fuel m i) m' ∧
      Holds (fun i : Fin n ↦ bucketAt buckets i) m' (Function.update σ i []) := by
  cases destructor with
  | none =>
    obtain ⟨m', hinit, hholds'⟩ := holds_listInit hholds i
    exact ⟨m', returns_const hinit, hholds'⟩
  | some destructor =>
    obtain ⟨m₁, hloop, hholds₁⟩ := destroy_loop hholds rfl (hspares destructor rfl)
    obtain ⟨m', hinit, hholds'⟩ := holds_listInit hholds₁ i
    rw [Function.update_idem] at hholds'
    exact ⟨m', hloop.bind (returns_const hinit), hholds'⟩

/-- The loop of `hash_clear` over some of the buckets. -/
theorem clear_buckets (order : List (Fin n))
    (hholds : Holds (fun i : Fin n ↦ bucketAt buckets i) m σ)
    (hspares : ∀ d ∈ destructor, Spares d (fun i : Fin n ↦ bucketAt buckets i) σ) : ∃ m' σ',
      Returns (fun fuel ↦ order.foldlM
        (fun m (i : Fin n) ↦ clearBucket destructor buckets fuel m i) m) m' ∧
        Holds (fun i : Fin n ↦ bucketAt buckets i) m' σ' ∧ (∀ i ∈ order, σ' i = []) ∧
        ∀ i, σ i = [] → σ' i = [] := by
  induction order generalizing m σ with
  | nil => exact ⟨m, σ, returns_const rfl, hholds, nofun, fun _ ↦ id⟩
  | cons i order ih =>
    obtain ⟨m₁, hfirst, hholds₁⟩ := clear_bucket hholds hspares i
    have hcases : ∀ j, Function.update σ i [] j = σ j ∨ Function.update σ i [] j = [] := by
      intro j
      by_cases hj : j = i
      · exact Or.inr (hj ▸ Function.update_self ..)
      · exact Or.inl (Function.update_of_ne hj ..)
    obtain ⟨m', σ', hrest, hholds', hempty, hkeep⟩ :=
      ih hholds₁ fun d hd ↦ (hspares d hd).mono hcases
    refine ⟨m', σ', ?_, hholds', fun j hj ↦ ?_, fun j hj ↦ ?_⟩
    · simp only [List.foldlM_cons, Option.bind_eq_bind]
      exact hfirst.bind hrest
    · rcases List.mem_cons.mp hj with rfl | hj
      · exact hkeep j (Function.update_self ..)
      · exact hempty j hj
    · refine hkeep j ?_
      rcases hcases j with heq | hnil
      · rw [heq, hj]
      · exact hnil

end Buckets

/-- What a destructor may change while a table is cleared: no head and no tail of a bucket, and no
element but its own. -/
def Keeps (h : Table) (S : Finset ℕ) (destructor : ℕ → Elems → Elems) : Prop :=
  ∀ e ∈ S, ∀ (m : Elems) (a : ℕ), a ∈ S ∨ InArray h.buckets h.bucketCnt a → a ≠ e →
    destructor e m a = m a

namespace Stored

variable {σ : Fin h.bucketCnt → List ℕ}

/-- `hash_clear` -/
theorem hashClearWith (hs : Stored hash less m h S σ) {destructor : Option (ℕ → Elems → Elems)}
    (hkeeps : ∀ d ∈ destructor, Keeps h S d) : ∃ m',
      Returns (fun fuel ↦ Hash.hashClearWith destructor fuel m h) (m', { h with elemCnt := 0 }) ∧
        Stored hash less m' { h with elemCnt := 0 } ∅ fun _ ↦ [] := by
  have hspares : ∀ d ∈ destructor, Spares d (fun i : Fin h.bucketCnt ↦ bucketAt h.buckets i) σ :=
    fun d hd i e he m j a ha hne ↦
      hkeeps d hd e ((hs.mem i e).mp he).1 m a (hs.of_mem_nodes ha) hne
  obtain ⟨m', σ', hloop, hholds, hempty, -⟩ :=
    clear_buckets (List.finRange h.bucketCnt) hs.holds hspares
  obtain rfl : σ' = fun _ ↦ [] := funext fun i ↦ hempty i (List.mem_finRange i)
  refine ⟨m', ?_, hs.valid, hholds, fun i e ↦ ?_, rfl, nofun⟩
  · have hrange : Returns (fun fuel ↦
        (List.range h.bucketCnt).foldlM (clearBucket destructor h.buckets fuel) m) m' := by
      simpa only [← List.map_coe_finRange_eq_range, List.foldlM_map] using hloop
    exact hrange.bind (returns_const rfl)
  · exact ⟨fun hmem ↦ absurd hmem List.not_mem_nil, fun hmem ↦ absurd hmem.1 (Finset.notMem_empty e)⟩

end Stored

/-! ### Iterating -/

section Iterating

variable {σ : Fin h.bucketCnt → List ℕ} {j : Fin h.bucketCnt} {F B l used : List ℕ} {x : ℕ}
  {i : Iterator}

/-- The elements in the buckets after one. -/
def later (σ : Fin h.bucketCnt → List ℕ) (j : ℕ) : List ℕ :=
  ((List.finRange h.bucketCnt).drop (j + 1)).flatMap σ

theorem later_last {k : ℕ} (hk : h.bucketCnt ≤ k + 1) : later σ k = [] := by
  rw [later, List.drop_of_length_le (by simpa using hk), List.flatMap_nil]

theorem later_succ {k : ℕ} (hk : k + 1 < h.bucketCnt) :
    later σ k = σ ⟨k + 1, hk⟩ ++ later σ (k + 1) := by
  rw [later, List.drop_eq_getElem_cons (by simpa using hk), List.flatMap_cons, List.getElem_finRange]
  rfl

/-- An iterator is at a node of a bucket, and the elements are behind it. -/
def At (σ : Fin h.bucketCnt → List ℕ) (i : Iterator) (x : ℕ) (remaining : List ℕ) : Prop :=
  ∃ (j : Fin h.bucketCnt) (F B : List ℕ), i = ⟨h, h.buckets + listSize * j, some x⟩ ∧
    nodes (bucketAt h.buckets j) (σ j) = F ++ x :: (B ++ [(bucketAt h.buckets j).tail]) ∧
    remaining = B ++ later σ j

/-- Where an iterator is that has the elements in front of it. -/
def Reaches (σ : Fin h.bucketCnt → List ℕ) (i : Iterator) : List ℕ → Prop
  | [] => i.elem = none
  | x :: remaining => At σ i x remaining

/-- The loop of `hash_next` goes to the first element of its bucket or of one after that. -/
theorem next_loop (hholds : Holds (fun i : Fin h.bucketCnt ↦ bucketAt h.buckets i) m σ)
    (hσ : σ j = F ++ B) : ∃ i, Returns (fun fuel ↦ whileLoop (nextBody m) fuel
      ⟨h, h.buckets + listSize * j, (B ++ [(bucketAt h.buckets j).tail]).head?⟩) i ∧
        Reaches σ i (B ++ later σ j) := by
  induction hn : h.bucketCnt - j generalizing j F B with
  | zero => exact absurd j.isLt (by omega)
  | succ n ih =>
    cases B with
    | cons x B =>
      have hne : x ≠ (bucketAt h.buckets j).tail := by
        rintro rfl
        exact hholds.tail_not_mem (hσ ▸ List.mem_append_right F List.mem_cons_self)
      have hstay : ¬some x = some (listEnd (listAt (h.buckets + listSize * j))) := fun heq ↦
        hne (Option.some.inj heq)
      refine ⟨_, returns_leave (if_neg hstay), j, (bucketAt h.buckets j).head :: F, B, rfl, ?_, rfl⟩
      rw [nodes, hσ, List.append_assoc, List.cons_append, List.cons_append]
    | nil =>
      have hstep : h.buckets + listSize * j + listSize = h.buckets + listSize * (j + 1) := by
        rw [Nat.mul_add_one, Nat.add_assoc]
      by_cases hlast : h.bucketCnt ≤ j + 1
      · have hend : h.buckets + listSize * h.bucketCnt ≤ h.buckets + listSize * j + listSize := by
          rw [hstep]
          exact Nat.add_le_add_left (Nat.mul_le_mul_left _ hlast) _
        refine ⟨⟨h, h.buckets + listSize * j + listSize, none⟩, returns_leave ?_, ?_⟩
        · exact (if_pos rfl).trans (if_pos hend)
        · rw [later_last hlast]
          rfl
      · have hlt : j + 1 < h.bucketCnt := Nat.lt_of_not_le hlast
        have hinside : ¬h.buckets + listSize * h.bucketCnt ≤ h.buckets + listSize * j + listSize := by
          rw [hstep]
          simp only [listSize, elemSize]
          omega
        obtain ⟨i, hloop, hreaches⟩ := ih (j := ⟨j + 1, hlt⟩) (F := []) rfl (by simp only; omega)
        refine ⟨i, returns_continue ?_ hloop, ?_⟩
        · have hbegin := hholds.listBegin_eq ⟨j + 1, hlt⟩
          refine (if_pos rfl).trans ((if_neg hinside).trans ?_)
          simp only [hstep]
          exact congrArg (Option.map _) hbegin
        · rw [later_succ hlt]
          exact hreaches

/-- `hash_next` -/
theorem returns_hashNext (hholds : Holds (fun i : Fin h.bucketCnt ↦ bucketAt h.buckets i) m σ)
    (hat : At σ i x l) : ∃ i', Returns (fun fuel ↦ hashNext fuel m i) i' ∧ Reaches σ i' l := by
  obtain ⟨j, F, B, rfl, hnodes, rfl⟩ := hat
  obtain ⟨y, back, hy⟩ : ∃ y back, B ++ [(bucketAt h.buckets j).tail] = y :: back :=
    List.exists_cons_of_ne_nil (by simp)
  have hring : Ring m (F ++ x :: y :: back) := hy ▸ hnodes ▸ hholds.ring j
  have hσ : ∃ F', σ j = F' ++ B := by
    rw [nodes] at hnodes
    cases F with
    | nil =>
      rw [List.nil_append, List.cons.injEq] at hnodes
      exact ⟨[], List.append_cancel_right hnodes.2⟩
    | cons a F =>
      rw [List.cons_append, List.cons.injEq, List.append_cons F, ← List.append_assoc] at hnodes
      exact ⟨F ++ [x], List.append_cancel_right hnodes.2⟩
  obtain ⟨F', hσ⟩ := hσ
  obtain ⟨i', hloop, hreaches⟩ := next_loop hholds hσ
  refine ⟨i', ?_, hreaches⟩
  have hnext : listNext m x = some (B ++ [(bucketAt h.buckets j).tail]).head? := by
    rw [hring.listNext_eq, hy, List.head?_cons]
  simpa only [hashNext, Option.bind_eq_bind, Option.bind_some, hnext] using hloop

/-- A loop over a table uses what is behind its iterator. -/
theorem visit_loop (hholds : Holds (fun i : Fin h.bucketCnt ↦ bucketAt h.buckets i) m σ)
    (hat : At σ i x l) : NestedReturns (fun fuel ↦ visitBody m fuel) (i, used) (used ++ l) := by
  induction l generalizing i x used with
  | nil =>
    obtain ⟨i', hnext, hreaches⟩ := returns_hashNext hholds hat
    have hcur : hashCur i' = none := hreaches
    rw [List.append_nil]
    refine nested_leave (hnext.bind ?_)
    simp only [hcur]
    exact returns_const rfl
  | cons y l ih =>
    obtain ⟨i', hnext, hreaches⟩ := returns_hashNext hholds hat
    have hcur : hashCur i' = some y := by
      obtain ⟨j, F, B, rfl, -⟩ := hreaches
      rfl
    rw [List.append_cons]
    refine nested_continue (hnext.bind ?_) (ih hreaches)
    simp only [hcur]
    exact returns_const rfl

/-- A loop over a table with a bucket goes through its buckets. -/
theorem returns_iterate (hholds : Holds (fun i : Fin h.bucketCnt ↦ bucketAt h.buckets i) m σ)
    (hpos : 0 < h.bucketCnt) :
    Returns (fun fuel ↦ iterate fuel m h) ((List.finRange h.bucketCnt).flatMap σ) := by
  have hall : (List.finRange h.bucketCnt).flatMap σ = σ ⟨0, hpos⟩ ++ later σ 0 := by
    have hdrop := List.drop_eq_getElem_cons (l := List.finRange h.bucketCnt) (i := 0)
      (by simpa using hpos)
    rw [List.drop_zero, List.getElem_finRange] at hdrop
    rw [hdrop, List.flatMap_cons]
    rfl
  have hat : At σ (hashFirst h) (listAt h.buckets).head (σ ⟨0, hpos⟩ ++ later σ 0) :=
    ⟨⟨0, hpos⟩, [], σ ⟨0, hpos⟩, rfl, rfl, rfl⟩
  rw [hall]
  exact (visit_loop hholds hat).returns

end Iterating

/-! ### Runs -/

/-- A step of a run, or `hash_clear`. -/
inductive ClearingStep (hash : ℕ → UInt64) (less : ℕ → ℕ → Bool) :
    State → Option (Option Call) → State → Prop
  | step {s s' : State} {label : Option Call} (hstep : Step hash less s label s') :
      ClearingStep hash less s (some label) s'
  | clear {s : State} {destructor : Option (ℕ → Elems → Elems)} {m : Elems} {h : Table}
      (hkeeps : ∀ d ∈ destructor, Keeps s.h s.stored d)
      (hreturns : Returns (fun fuel ↦ hashClearWith destructor fuel s.m s.h) (m, h)) :
      ClearingStep hash less s none ⟨m, h, ∅⟩

/-- The elements in the buckets, one bucket after the other. -/
theorem Stored.nodup_flatMap {σ : Fin h.bucketCnt → List ℕ} (hs : Stored hash less m h S σ) :
    ((List.finRange h.bucketCnt).flatMap σ).Nodup := by
  refine List.nodup_flatMap.mpr ⟨fun i _ ↦ hs.holds.wellFormed.nodup i, ?_⟩
  refine (List.nodup_finRange _).imp fun hne e he he' ↦ hne (Fin.ext ?_)
  exact ((hs.mem _ e).mp he).2.symm.trans ((hs.mem _ e).mp he').2

theorem Stored.mem_flatMap {σ : Fin h.bucketCnt → List ℕ} (hs : Stored hash less m h S σ) (e : ℕ) :
    e ∈ (List.finRange h.bucketCnt).flatMap σ ↔ e ∈ S := by
  rw [List.mem_flatMap]
  constructor
  · rintro ⟨i, -, he⟩
    exact ((hs.mem i e).mp he).1
  · exact fun he ↦ ⟨bucketOf hash hs.valid e, List.mem_finRange _, (hs.mem _ e).mpr ⟨he, rfl⟩⟩

/-- A table that holds a set is gone through element by element, in an order that only the table's
cells determine. -/
theorem Sound.iterate {s : State} (hsound : Sound hash less s) : ∃ visited : List ℕ,
    visited.Nodup ∧ (∀ e, e ∈ visited ↔ e ∈ s.stored) ∧
      ∀ m, (∀ a, a ∈ s.stored ∨ InArray s.h.buckets s.h.bucketCnt a → m a = s.m a) →
        Returns (fun fuel ↦ Hash.iterate fuel m s.h) visited := by
  obtain ⟨σ, hs⟩ := hsound
  refine ⟨_, hs.nodup_flatMap, hs.mem_flatMap, fun m hsame ↦ ?_⟩
  exact returns_iterate (hs.frame hsame).holds (Nat.lt_of_lt_of_le (by decide) hs.valid.1)

variable [IsStrictWeakOrder ℕ fun a b ↦ less a b = true]

theorem sound_clearingStep {s s' : State} {label : Option (Option Call)}
    (hhash : ∀ a b, equivalent less a b = true → hash a = hash b) (hsound : Sound hash less s)
    (hstep : ClearingStep hash less s label s') : Sound hash less s' := by
  cases hstep with
  | step hstep => exact sound_step hhash hsound hstep
  | clear hkeeps hreturns =>
    obtain ⟨σ, hs⟩ := hsound
    obtain ⟨m', hreturns', hs'⟩ := hs.hashClearWith hkeeps
    obtain ⟨rfl, rfl⟩ := Prod.mk.inj (hreturns.unique hreturns')
    exact ⟨_, hs'⟩

/-- After every run, going through the table gives every element it holds once, and then `NULL`. No cell
but the elements and the heads and tails of the buckets matters. -/
theorem iterate_exact (hhash : ∀ a b, equivalent less a b = true → hash a = hash b)
    {labels : List (Option (Option Call))} {s : State} (hfresh : Fresh mem m)
    (hinit : hashInit mem m = some (some (m', h)))
    (hrun : Run (ClearingStep hash less) ⟨m', h, ∅⟩ labels s) : ∃ visited : List ℕ,
      visited.Nodup ∧ (∀ e, e ∈ visited ↔ e ∈ s.stored) ∧
        ∀ m, (∀ a, a ∈ s.stored ∨ InArray s.h.buckets s.h.bucketCnt a → m a = s.m a) →
          Returns (fun fuel ↦ iterate fuel m s.h) visited := by
  have hkeep : ∀ s label s', Sound hash less s → ClearingStep hash less s label s' →
      Sound hash less s' := fun _ _ _ ↦ sound_clearingStep hhash
  exact (Run.invariant hkeep hrun (sound_init hfresh hinit)).iterate

omit [IsStrictWeakOrder ℕ fun a b ↦ less a b = true] in
/-- The iteration over a table of one number. -/
theorem iterate_exact_insert : ∃ m h, Returns (fun fuel ↦ iterate fuel m h) [16] := by
  have horder := isStrictWeakOrder_decide
  obtain ⟨m, h, m', h', hinit, hstep⟩ := exists_insert_low
  obtain ⟨visited, hnodup, hmem, hreturns⟩ :=
    iterate_exact (fun a b hab ↦ congrArg UInt64.ofNat (eq_of_equivalent_lt hab)) fresh_lowElems
      hinit (.single (.step hstep))
  have hperm : visited.Perm [16] :=
    (List.perm_ext_iff_of_nodup hnodup (List.nodup_singleton 16)).mpr fun e ↦ by
      rw [hmem, Finset.mem_singleton, List.mem_singleton]
  exact ⟨m', h', List.perm_singleton.mp hperm ▸ hreturns m' fun _ _ ↦ rfl⟩

end Jungle.Hash
