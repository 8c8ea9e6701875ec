import Jungle.Lib.Run
import Jungle.LinkedLists.SortedInsert

/-!
# Runs of insertions into a sorted list

A run calls `insertSortedLL` on one list, starting from the empty one. `SortedRefines` says that the
list a run reaches is strictly ascending, holds exactly the items of the calls, and that the next
call does what it should: it terminates, returns the index of a new item and leaves the memory alone
for an old one. `guarded_run_sorted` proves it for the runs that insert no new item into a list of
`INT_MAX` nodes, and `not_run_sorted` shows that a run can reach such a list and fail there.
-/

set_option autoImplicit false
set_option relaxedAutoImplicit false

namespace Jungle.LinkedLists

open Jungle.Lib

variable {m m' : Memory} {p : ℕ} {entries : List (ℕ × ℤ)} {item : ℤ} {new : ℕ}

/-- A call of `insertSortedLL`, with the address `malloc` returns. -/
structure SortedCall where
  item : ℤ
  new : ℕ

/-- One call of `insertSortedLL` on the list that returns. -/
def SortedStep (p : ℕ) (m : Memory) (call : SortedCall) (m' : Memory) : Prop :=
  m.nodes call.new = none ∧ ∃ code printed,
    Returns (fun fuel ↦ insertSortedLL fuel m (some p) call.item call.new) (code, m', printed)

/-- The items the list has room for: an item that is present, or any item while the list has fewer
than `INT_MAX` nodes. -/
def HasRoom (m : Memory) (p : ℕ) (item : ℤ) : Prop :=
  ∀ entries, IsList m p entries → (entries.length : ℤ) < intMax ∨ item ∈ entries.map Prod.snd

/-- One call of `insertSortedLL` with an item the list has room for. -/
def RoomyStep (p : ℕ) (m : Memory) (call : SortedCall) (m' : Memory) : Prop :=
  SortedStep p m call m' ∧ HasRoom m p call.item

/-- `insertSortedLL` terminates; with a present item it returns `-1` and changes nothing, with an
absent one it adds the item and returns the index where `getItemAt` finds it. -/
def SortedConforms (m : Memory) (p : ℕ) (entries : List (ℕ × ℤ)) (item : ℤ) (new : ℕ) : Prop :=
  ∃ code m' printed,
    Returns (fun fuel ↦ insertSortedLL fuel m (some p) item new) (code, m', printed) ∧
      (item ∈ entries.map Prod.snd → code = -1 ∧ m' = m) ∧
      (item ∉ entries.map Prod.snd → ∃ index ≤ entries.length, code = (index : ℤ) ∧
        IsList m' p (entries.insertIdx index (new, item)) ∧
        Ascending (entries.insertIdx index (new, item)) ∧
        getItemAt m' (some p) code = some item)

/-- The list is strictly ascending, holds the items of the calls, and the next call conforms if its
item is allowed. -/
def SortedRefines (allowed : ℤ → Prop) (m : Memory) (p : ℕ) (calls : List SortedCall) : Prop :=
  ∃ entries, IsList m p entries ∧ Ascending entries ∧
    (∀ v, v ∈ entries.map Prod.snd ↔ v ∈ calls.map SortedCall.item) ∧
    ∀ item new, m.nodes new = none → allowed item → SortedConforms m p entries item new

/-! ### One call -/

/-- `getItemAt` of an index returns the item there. -/
theorem getItemAt_eq (h : IsList m p entries) {index : ℕ} {a : ℕ} {v : ℤ}
    (hentry : entries[index]? = some (a, v)) : getItemAt m (some p) index = some v := by
  have hbound : index < entries.length := (List.getElem?_eq_some_iff.mp hentry).1
  have hget : entries[index] = (a, v) := (List.getElem?_eq_some_iff.mp hentry).2
  have hat : nodeAt entries index = some a := by
    rw [nodeAt_of_mem (by omega) (by simpa using hbound)]
    simp [hget]
  have hfind := findNode_eq h (index : ℤ)
  obtain ⟨l, -, hnodes, -⟩ := h
  obtain ⟨node, hnode, hitem⟩ := hnodes.allocated (List.mem_of_getElem? hentry)
  simp only [getItemAt, hfind, hat, Option.bind_eq_bind, Option.bind_some, hnode, Option.pure_def]
  rw [hitem]

/-- A call with an item the list has room for conforms. -/
theorem sortedConforms (h : IsList m p entries) (hbound : (entries.length : ℤ) ≤ intMax)
    (hascending : Ascending entries) (hnew : m.nodes new = none) (hroom : HasRoom m p item) :
    SortedConforms m p entries item new := by
  by_cases hpresent : item ∈ entries.map Prod.snd
  · exact ⟨-1, m, [], ⟨entries.length, fun fuel hfuel ↦
      insertSortedLL_eq_of_mem h hbound hascending hpresent hfuel new⟩,
      fun _ ↦ ⟨rfl, rfl⟩, fun habsent ↦ absurd hpresent habsent⟩
  · have hlt : (entries.length : ℤ) < intMax := (hroom entries h).resolve_right hpresent
    have hle := length_below_le item entries
    obtain ⟨m', printed, hcall, hlist, -⟩ :=
      insertSortedLL_eq_of_not_mem h hlt hascending hpresent hnew
    refine ⟨_, m', printed, hcall, fun hmem ↦ absurd hmem hpresent, fun _ ↦
      ⟨_, hle, rfl, hlist, ascending_insert hascending hpresent new, ?_⟩⟩
    refine getItemAt_eq hlist (a := new) ?_
    rw [List.getElem?_insertIdx_self, if_pos hle]

/-! ### Runs -/

/-- The list is ascending, holds the listed items, and its counter has not wrapped. -/
def SortedHolds (p : ℕ) (m : Memory) (items : List ℤ) : Prop :=
  ∃ entries, IsList m p entries ∧ (entries.length : ℤ) ≤ intMax ∧ Ascending entries ∧
    ∀ v, v ∈ entries.map Prod.snd ↔ v ∈ items

theorem sortedHolds_empty (hempty : m.lists p = some ⟨0, none⟩) : SortedHolds p m [] :=
  ⟨[], ⟨_, hempty, rfl, rfl⟩, by decide, List.Pairwise.nil, fun _ ↦ Iff.rfl⟩

theorem mem_map_snd_insertIdx {index : ℕ} (hindex : index ≤ entries.length) (v : ℤ) :
    v ∈ (entries.insertIdx index (new, item)).map Prod.snd ↔
      v ∈ entries.map Prod.snd ∨ v = item := by
  rw [List.map_insertIdx, List.mem_insertIdx (by simpa using hindex), or_comm]

/-- A call with an item the list has room for adds it to the items. -/
theorem sortedHolds_step {items : List ℤ} {call : SortedCall} (h : SortedHolds p m items)
    (hstep : RoomyStep p m call m') : SortedHolds p m' (items ++ [call.item]) := by
  obtain ⟨entries, hlist, hbound, hascending, hitems⟩ := h
  obtain ⟨⟨hnew, code, printed, hcall⟩, hroom⟩ := hstep
  obtain ⟨code', m₁, printed', hcall', hpresent, habsent⟩ :=
    sortedConforms hlist hbound hascending hnew hroom
  obtain ⟨rfl, rfl, rfl⟩ : code' = code ∧ m₁ = m' ∧ printed' = printed := by
    simpa only [Prod.mk.injEq] using hcall'.unique hcall
  by_cases hmem : call.item ∈ entries.map Prod.snd
  · obtain ⟨-, rfl⟩ := hpresent hmem
    refine ⟨entries, hlist, hbound, hascending, fun v ↦ ?_⟩
    rw [hitems, List.mem_append, List.mem_singleton]
    exact ⟨Or.inl, fun hv ↦ hv.elim id fun heq ↦ (hitems v).mp (heq ▸ hmem)⟩
  · obtain ⟨index, hindex, -, hlist', hascending', -⟩ := habsent hmem
    have hlt := (hroom entries hlist).resolve_right hmem
    refine ⟨_, hlist', ?_, hascending', fun v ↦ ?_⟩
    · rw [List.length_insertIdx_of_le_length hindex]
      omega
    · rw [mem_map_snd_insertIdx hindex, hitems, List.mem_append, List.mem_singleton]

theorem sortedHolds_run {m₀ : Memory} {calls : List SortedCall}
    (hempty : m₀.lists p = some ⟨0, none⟩) (hrun : Run (RoomyStep p) m₀ calls m) :
    SortedHolds p m (calls.map SortedCall.item) := by
  have hkeep : ∀ (s : Memory) (past : List SortedCall) (call : SortedCall) (t : Memory),
      SortedHolds p s (past.map SortedCall.item) → RoomyStep p s call t →
        SortedHolds p t ((past ++ [call]).map SortedCall.item) := by
    intro s past call t hholds hstep
    rw [List.map_append]
    exact sortedHolds_step hholds hstep
  have hholds := hrun.history hkeep (sortedHolds_empty hempty)
  exact hholds

/-- Runs from the empty list that insert no new item into a list of `INT_MAX` nodes build the sorted
set of their items. -/
theorem guarded_run_sorted {m₀ : Memory} {calls : List SortedCall}
    (hempty : m₀.lists p = some ⟨0, none⟩) (hrun : Run (RoomyStep p) m₀ calls m) :
    SortedRefines (HasRoom m p) m p calls := by
  obtain ⟨entries, hlist, hbound, hascending, hitems⟩ := sortedHolds_run hempty hrun
  exact ⟨entries, hlist, hascending, hitems, fun _ _ hnew hroom ↦
    sortedConforms hlist hbound hascending hnew hroom⟩

/-- The empty list and one insertion into it. -/
theorem guarded_run_sorted_insert : ∃ m,
    SortedRefines (HasRoom m 0) m 0 [⟨5, 1⟩] := by
  have hempty : IsList emptyMemory 0 [] := ⟨_, rfl, rfl, rfl⟩
  have hroom : HasRoom emptyMemory 0 5 := by
    rintro entries ⟨l, hl, hnodes, -⟩
    obtain rfl := Option.some.inj hl
    have hnil : entries = [] := (head_eq_none_iff hnodes).mp rfl
    exact Or.inl (by rw [hnil]; decide)
  obtain ⟨m, printed, hcall, -, -⟩ := insertSortedLL_eq_of_not_mem hempty (by decide)
    List.Pairwise.nil List.not_mem_nil (show emptyMemory.nodes 1 = none from rfl)
  exact ⟨m, guarded_run_sorted rfl (Run.single ⟨⟨rfl, _, printed, hcall⟩, hroom⟩)⟩

/-- Runs reach ascending lists of the items below any number up to `INT_MAX`. -/
theorem exists_run_of_length (count : ℕ) (hcount : (count : ℤ) ≤ intMax) :
    ∃ m calls entries, Run (SortedStep 0) emptyMemory calls m ∧ IsList m 0 entries ∧
      Ascending entries ∧ entries.length = count ∧
      (∀ v ∈ entries.map Prod.snd, 0 ≤ v ∧ v < count) ∧ ∀ a, count ≤ a → m.nodes a = none := by
  induction count with
  | zero =>
    exact ⟨emptyMemory, [], [], Run.nil _, ⟨_, rfl, rfl, rfl⟩, List.Pairwise.nil, rfl,
      fun v hv ↦ absurd hv List.not_mem_nil, fun _ _ ↦ rfl⟩
  | succ count ih =>
    obtain ⟨m, calls, entries, hrun, hlist, hascending, hlength, hitems, hnodes⟩ := ih (by omega)
    have habsent : (count : ℤ) ∉ entries.map Prod.snd := by
      intro hmem
      have hlt := (hitems _ hmem).2
      omega
    obtain ⟨m', printed, hcall, hlist', htouches⟩ :=
      insertSortedLL_eq_of_not_mem hlist (by omega) hascending habsent (hnodes count le_rfl)
    have hstep : SortedStep 0 m ⟨(count : ℤ), count⟩ m' :=
      ⟨hnodes count le_rfl, _, printed, hcall⟩
    refine ⟨m', calls ++ [⟨(count : ℤ), count⟩], _, hrun.snoc hstep, hlist',
      ascending_insert hascending habsent count, ?_, fun v hv ↦ ?_, fun a ha ↦ ?_⟩
    · rw [List.length_insertIdx_of_le_length (length_below_le _ _), hlength]
    · rcases (mem_map_snd_insertIdx (length_below_le _ _) v).mp hv with hold | rfl
      · have hold := hitems v hold
        omega
      · omega
    · have hfree : m.nodes a = none := hnodes a (by omega)
      rw [htouches.2 a fun hmem ↦ ?_, hfree]
      rcases List.mem_cons.mp hmem with rfl | hmem
      · omega
      · obtain ⟨⟨b, v⟩, hentry, rfl⟩ := List.mem_map.mp hmem
        obtain ⟨l, -, hsegment, -⟩ := hlist
        obtain ⟨node, hnode, -⟩ := hsegment.allocated hentry
        rw [hfree] at hnode
        exact absurd hnode (by simp)

/-- Not every run builds the sorted set of its items: a list of `INT_MAX` nodes rejects a new
item. -/
theorem not_run_sorted : ¬∀ (p : ℕ) (m₀ m : Memory) (calls : List SortedCall),
    m₀.lists p = some ⟨0, none⟩ → Run (SortedStep p) m₀ calls m →
      SortedRefines (fun _ ↦ True) m p calls := by
  intro h
  obtain ⟨count, hcount⟩ : ∃ count : ℕ, (count : ℤ) = intMax := ⟨intMax.toNat, by decide⟩
  obtain ⟨m, calls, entries, hrun, hlist, hascending, hlength, hitems, hnodes⟩ :=
    exists_run_of_length count hcount.le
  obtain ⟨entries', hlist', -, -, hnext⟩ := h 0 emptyMemory m calls rfl hrun
  obtain rfl : entries = entries' := hlist.entries_unique hlist'
  have habsent : (-1 : ℤ) ∉ entries.map Prod.snd := by
    intro hmem
    have hnonneg := (hitems _ hmem).1
    omega
  obtain ⟨code, m', printed, hcall, -, hnew⟩ :=
    hnext (-1) count (hnodes _ le_rfl) trivial
  obtain ⟨index, -, hcode, -⟩ := hnew habsent
  have hfull : (entries.length : ℤ) = intMax := by rw [hlength, hcount]
  have hreject : Returns (fun fuel ↦ insertSortedLL fuel m (some 0) (-1) count) (-1, m, []) :=
    ⟨entries.length, fun fuel hfuel ↦
      insertSortedLL_eq_of_full hlist hfull hascending habsent hfuel count⟩
  have hcode' : code = -1 := congrArg Prod.fst (hcall.unique hreject)
  omega

end Jungle.LinkedLists
