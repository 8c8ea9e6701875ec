import Jungle.FileSys.Refinement

/-!
# Listing the root directory

`dir_readdir` of `directory.c` and `fsutil_ls` of `pintos/filesys/fsutil.c`. In every run on a formatted disk, with
memory, `fsutil_ls` prints the names of all files, each once (`run_listing`). A directory is its inode and its
position.
-/

set_option autoImplicit false
set_option relaxedAutoImplicit false

namespace Jungle.FileSys

open Jungle.Lib

/-! ### The source -/

/-- `dir_readdir (dir, name)`: the name, if any, the position and the state. -/
def dirReaddir (s : State) (dir pos : ℕ) : Option (Option (List UInt8) × ℕ × State) := do
  let (found, e, ofs, s) ← scan inUse (rounds s dir) s dir (fun _ ↦ 0) pos
  if found then return (some ((entryName e).take NAME_MAX), ofs + ENTRY_SIZE, s)
  else return (none, ofs, s)

/-- The loop of `fsutil_ls`, for at most so many rounds: the names that it prints and the state. -/
def lsLoop : ℕ → State → ℕ → ℕ → Option (List (List UInt8) × State)
  | 0, s, _, _ => some ([], s)
  | rounds + 1, s, dir, pos => do
    match ← dirReaddir s dir pos with
    | (some name, pos, s) =>
      let (names, s) ← lsLoop rounds s dir pos
      return (name :: names, s)
    | (none, _, s) => return ([], s)

/-- `fsutil_ls ()`, which panics if it cannot open the root directory. -/
def fsutilLs (s : State) : Option (List (List UInt8) × State) := do
  let (dir, s) ← dirOpenRoot s
  match dir with
  | none => none
  | some p => lsLoop (rounds s p) s p 0

variable {s : State} {st : Session} {data root : InodeDisk} {p k x : ℕ} {disk : Bytes} {name : List UInt8}

/-! ### Names -/

/-- The names of the entries in use, from one entry on. -/
def namesFrom (data : InodeDisk) (disk : Bytes) (k : ℕ) : List (List UInt8) :=
  (List.range' k (data.slots - k)).filterMap fun j ↦ (data.entry disk j).map Prod.fst

theorem mem_namesFrom : name ∈ namesFrom data disk k ↔
    ∃ j < data.slots, k ≤ j ∧ ∃ x, data.entry disk j = some (name, x) := by
  simp only [namesFrom, List.mem_filterMap, List.mem_range'_1, Option.map_eq_some_iff, Prod.exists]
  refine exists_congr fun j ↦ ⟨?_, ?_⟩
  · rintro ⟨⟨hge, hlt⟩, name', x, hentry, rfl⟩
    exact ⟨by omega, hge, x, hentry⟩
  · rintro ⟨hlt, hge, x, hentry⟩
    exact ⟨⟨hge, by omega⟩, name, x, hentry, rfl⟩

/-- The names from an entry on, where the ones before another are free. -/
theorem namesFrom_of_free {j : ℕ} (hkj : k ≤ j) (hj : j ≤ data.slots)
    (hfree : ∀ i, k ≤ i → i < j → data.entry disk i = none) : namesFrom data disk k = namesFrom data disk j := by
  have hsplit : data.slots - k = (j - k) + (data.slots - j) := by omega
  have hnext : k + (j - k) = j := by omega
  have hnone : (List.range' k (j - k)).filterMap (fun i ↦ (data.entry disk i).map Prod.fst) = [] := by
    rw [List.filterMap_eq_nil_iff]
    intro i hi
    have hmem := List.mem_range'_1.mp hi
    rw [hfree i hmem.1 (by omega)]
    rfl
  rw [namesFrom, hsplit, ← List.range'_append_1, List.filterMap_append, hnone, List.nil_append, hnext]
  rfl

theorem namesFrom_cons (hk : k < data.slots) (hentry : data.entry disk k = some (name, x)) :
    namesFrom data disk k = name :: namesFrom data disk (k + 1) := by
  have hsplit : data.slots - k = (data.slots - (k + 1)) + 1 := by omega
  rw [namesFrom, hsplit, List.range'_succ, List.filterMap_cons_some (b := name)]
  · rfl
  · rw [hentry]
    rfl

theorem namesFrom_end : namesFrom data disk data.slots = [] := by
  rw [namesFrom, Nat.sub_self]
  rfl

/-! ### `dir_readdir` -/

/-- With memory, `dir_readdir` returns the next name, or there is none. -/
theorem dirReaddir_spec (h : DirInode s p data) (hmemory : ∀ i, s.mallocs i = true) (hk : k ≤ data.slots) :
    ∃ result j calls, dirReaddir s p (k * ENTRY_SIZE) = some (result, j * ENTRY_SIZE, s.transfer s.disk calls) ∧
      k ≤ j ∧ j ≤ data.slots ∧
      match result with
      | some name => k < j ∧ ∃ name' x, name = name'.take NAME_MAX ∧
          data.entry s.disk (j - 1) = some (name', x) ∧ namesFrom data s.disk k = name' :: namesFrom data s.disk j
      | none => namesFrom data s.disk k = [] := by
  obtain ⟨inode, hinode, rfl, -⟩ := h.inode
  obtain ⟨found, e, j, calls, hscan, hends, hslot⟩ := scan_spec (fun _ _ hsame ↦ (entry_congr hsame).1) hinode
    h.fits h.whole hk (by omega : inode.data.slots < k + (inode.data.slots + 1)) fun _ ↦ 0
  have hfree : ∀ i, k ≤ i → i < j → inode.data.entry s.disk i = none := fun i hge hlt ↦ by
    rw [InodeDisk.entry, entryOf, (hends.before i hge hlt).2]
    rfl
  have hnames := namesFrom_of_free hends.ge hends.le hfree
  cases found with
  | true =>
    obtain ⟨hlt, -, huse⟩ := hends.hit rfl
    have hentry : inode.data.entry s.disk j = some (entryName e, inodeSector e) := by
      obtain ⟨-, hname, hsector, -⟩ := entry_congr (hslot rfl)
      rw [InodeDisk.entry, entryOf, if_pos huse, hname, hsector]
    refine ⟨some ((entryName e).take NAME_MAX), j + 1, calls, ?_, Nat.le_succ_of_le hends.ge, hlt,
      Nat.lt_succ_of_le hends.ge, _, _, rfl, hentry, hnames.trans (namesFrom_cons hlt hentry)⟩
    rw [dirReaddir, h.rounds_eq, hscan, Option.bind_eq_bind, Option.bind_some, Nat.succ_mul]
    rfl
  | false =>
    obtain ⟨rfl, -⟩ := hends.miss hmemory
    refine ⟨none, inode.data.slots, calls, ?_, hk, Nat.le_refl _, hnames.trans namesFrom_end⟩
    rw [dirReaddir, h.rounds_eq, hscan]
    rfl

/-- With memory, the loop of `fsutil_ls` prints the names from an entry on. -/
theorem lsLoop_spec (h : DirInode s p data) (hmemory : ∀ i, s.mallocs i = true) {rounds : ℕ} (hk : k ≤ data.slots)
    (hrounds : data.slots < k + rounds)
    (hvalid : ∀ j < data.slots, ∀ name x, data.entry s.disk j = some (name, x) → name.length ≤ NAME_MAX) :
    ∃ calls, lsLoop rounds s p (k * ENTRY_SIZE) = some (namesFrom data s.disk k, s.transfer s.disk calls) := by
  induction rounds generalizing s k with
  | zero => omega
  | succ rounds ih =>
    obtain ⟨result, j, calls, hread, hkj, hj, hresult⟩ := dirReaddir_spec h hmemory hk
    cases result with
    | none =>
      refine ⟨calls, ?_⟩
      rw [lsLoop, hread, hresult]
      rfl
    | some name =>
      obtain ⟨hlt, name', x, rfl, hentry, hnames⟩ := hresult
      obtain ⟨calls', hrest⟩ := ih (h.transfer s.disk calls) (fun i ↦ hmemory _) hj (by omega) hvalid
      have hwhole : name'.take NAME_MAX = name' := List.take_of_length_le (hvalid (j - 1) (by omega) _ _ hentry)
      refine ⟨calls + calls', ?_⟩
      rw [lsLoop, hread, hnames, hwhole, Option.bind_eq_bind, Option.bind_some]
      dsimp only
      rw [hrest, transfer_transfer]
      rfl

/-! ### Runs -/

/-- All names are valid. -/
def Table.Valid (t : Table) : Prop := ∀ name x, t.names name = some x → IsName name

theorem Table.Valid.step {t t' : Table} {event : Event × Reply} (h : t.Valid) (hstep : t.Step event t') :
    t'.Valid := by
  obtain ⟨event, reply⟩ := event
  cases event with
  | restart down k =>
    cases reply with
    | done => exact hstep ▸ h
    | success | file | count | bytes => exact hstep.elim
  | call call =>
    cases call with
    | filesysCreate new size =>
      cases reply with
      | success ok =>
        cases ok with
        | false => exact hstep ▸ h
        | true =>
          obtain ⟨hname, -, y, -, rfl⟩ := hstep
          intro name x hx
          change Function.update t.names new (some y) name = some x at hx
          by_cases heq : name = new
          · exact heq ▸ hname
          · rw [Function.update_of_ne heq] at hx
            exact h name x hx
      | done | file | count | bytes => exact hstep.elim
    | filesysRemove old =>
      cases reply with
      | success ok =>
        obtain ⟨-, rfl⟩ := hstep
        intro name x hx
        change Function.update t.names old none name = some x at hx
        by_cases heq : name = old
        · subst heq
          rw [Function.update_self] at hx
          exact absurd hx.symm (Option.some_ne_none x)
        · rw [Function.update_of_ne heq] at hx
          exact h name x hx
      | done | file | count | bytes => exact hstep.elim
    | filesysOpen name =>
      cases reply with
      | file result =>
        cases result with
        | none => exact hstep.2 ▸ h
        | some f =>
          obtain ⟨x, -, -, rfl⟩ := hstep
          exact h
      | done | success | count | bytes => exact hstep.elim
    | fileClose | inodeReopen | inodeClose | fileSeek =>
      cases reply with
      | done =>
        obtain rfl := hstep
        exact h
      | success | file | count | bytes => exact hstep.elim
    | fileRead | fileReadAt =>
      cases reply with
      | bytes n buffer =>
        obtain ⟨x, pos, -, -, rfl⟩ := hstep
        exact h
      | done | success | file | count => exact hstep.elim
    | fileWrite | fileWriteAt =>
      cases reply with
      | count n =>
        obtain ⟨x, pos, -, -, rfl⟩ := hstep
        exact h
      | done | success | file | bytes => exact hstep.elim

/-- In every run on a formatted disk, with memory, `fsutil_ls` prints the names that stand for files, each once. -/
theorem run_listing {s : State} {k : Kernel} {disk : Bytes} {capacity : ℕ} {events : List (Event × Reply)}
    (hformats : k.Formats disk capacity s) (hmemory : ∀ i, k.mallocs i = true)
    (hrun : Run SuppliedStep ⟨s, [], []⟩ events st) :
    ∃ t, Run Table.Step Table.empty events t ∧ ∃ names s', fsutilLs st.fs = some (names, s') ∧ names.Nodup ∧
      ∀ name, name ∈ names ↔ (t.names name).isSome := by
  have hviewed := hformats.formatted.viewed (hformats.memory hmemory)
  obtain ⟨t, habstract, hlast⟩ := hrun.forward (fun _ _ _ _ ↦ Viewed.step) hviewed
  have hvalid : t.Valid := habstract.invariant (fun _ _ _ ↦ Table.Valid.step) fun name x hx ↦
    absurd hx.symm (Option.some_ne_none x)
  obtain ⟨b, hsound⟩ := hlast.sound
  set root := diskInode s.disk ROOT_DIR_SECTOR with hroot
  obtain ⟨result, s₁, hopen, hvolume, hopens⟩ := hsound.volume.dirOpenRoot
  have hsome : result.isSome := hopens.succeeds.mpr fun i _ ↦ hlast.memory i
  obtain ⟨p, rfl⟩ := Option.isSome_iff_exists.mp hsome
  have hdir := hvolume.dirInode (hopens.opened p rfl)
  have hdisk : s₁.disk = st.fs.disk := hopens.quiet.disk
  have hnamed : ∀ j < root.slots, ∀ name x, root.entry s₁.disk j = some (name, x) → t.names name = some x := by
    intro j hj name x hentry
    rw [hdisk] at hentry
    exact (hlast.views.names name x).mpr ⟨j, hj, hentry⟩
  obtain ⟨calls, hloop⟩ := lsLoop_spec hdir (hopens.quiet.evolves.memory hlast.memory) (Nat.zero_le _)
    (by rw [hdir.rounds_eq]; omega : root.slots < 0 + rounds s₁ p)
    fun j hj name x hentry ↦ (hvalid name x (hnamed j hj name x hentry)).2
  refine ⟨t, habstract, namesFrom root s₁.disk 0, s₁.transfer s₁.disk calls, ?_, ?_, fun name ↦ ?_⟩
  · rw [fsutilLs, hopen, Option.bind_eq_bind, Option.bind_some]
    dsimp only
    rw [Nat.zero_mul] at hloop
    exact hloop
  · have hindices : (List.range' 0 (root.slots - 0)).Pairwise (· ≠ ·) := List.nodup_range'
    refine List.pairwise_filterMap.mpr (hindices.imp_of_mem fun hi hj hne name hname name' hname' ↦ ?_)
    rintro rfl
    obtain ⟨⟨name₁, x⟩, hix, rfl⟩ := Option.map_eq_some_iff.mp hname
    obtain ⟨⟨name₂, y⟩, hjy, hsame⟩ := Option.map_eq_some_iff.mp hname'
    dsimp only at hsame
    subst hsame
    rw [hdisk] at hix hjy
    have hi' := (List.mem_range'_1.mp hi).2
    have hj' := (List.mem_range'_1.mp hj).2
    exact hne (hlast.views.sameEntry hsound (by omega) (by omega) hix hjy).1
  · rw [mem_namesFrom, Option.isSome_iff_exists]
    constructor
    · rintro ⟨j, hj, -, x, hentry⟩
      exact ⟨x, hnamed j hj name x hentry⟩
    · rintro ⟨x, hx⟩
      obtain ⟨j, hj, hentry⟩ := (hlast.views.names name x).mp hx
      exact ⟨j, hj, Nat.zero_le j, x, hdisk.symm ▸ hentry⟩

theorem run_listing_ample : ∃ (st : Session) (t : Table) (names : List (List UInt8)) (s' : State),
    fsutilLs st.fs = some (names, s') ∧ names.Nodup ∧ ∀ name, name ∈ names ↔ (t.names name).isSome := by
  obtain ⟨s, reply, st, st', hformats, hcreate, hrestart⟩ := exists_events
  obtain ⟨t, -, names, s', hlisting⟩ := run_listing hformats (fun _ ↦ rfl)
    (.cons ⟨hcreate, trivial⟩ (.cons ⟨hrestart, fun _ ↦ rfl⟩ (.nil st')))
  exact ⟨st', t, names, s', hlisting⟩

end Jungle.FileSys
