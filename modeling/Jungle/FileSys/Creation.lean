import Jungle.FileSys.RootDir

/-!
# Creating files

`filesys_create` keeps a volume sound. Where it fails it undoes what it has done, except for one thing: the data
sectors that `inode_create` has allocated stay in use if `dir_add` fails after it (`Leaks`).
-/

set_option autoImplicit false
set_option relaxedAutoImplicit false

namespace Jungle.FileSys

open Jungle.Lib Jungle.Bitmap

variable {map root : InodeDisk} {s s' : State} {b b' : Books} {p x : ℕ} {f g : ℕ → Bool}
  {extra : List (ℕ × ℕ)} {owners : List (ℕ × InodeDisk)} {disk disk' : Bytes} {name : List UInt8}
  {size : ℤ}

/-! ### Files that are kept -/

/-- The data sectors of the owners other than the free map are the same. -/
def KeepsData (owners : List (ℕ × InodeDisk)) (disk disk' : Bytes) : Prop :=
  ∀ o ∈ owners, o.1 ≠ FREE_MAP_SECTOR →
    ∀ y, Covers (o.2.start, bytesToSectors o.2.length) y → SameSector disk disk' y

theorem keepsData_refl (owners : List (ℕ × InodeDisk)) (disk : Bytes) : KeepsData owners disk disk :=
  fun _ _ _ _ _ _ _ ↦ rfl

theorem KeepsData.trans {disk'' : Bytes} (h : KeepsData owners disk disk')
    (h' : KeepsData owners disk' disk'') : KeepsData owners disk disk'' :=
  fun o ho hne y hy ↦ (h o ho hne y hy).trans (h' o ho hne y hy)

/-- Writing to the file of the free map changes no other file. -/
theorem Sectors.keepsData (h : Sectors s f extra owners) (hmap : (FREE_MAP_SECTOR, map) ∈ owners)
    (hwrites : WritesTo map s.disk disk) : KeepsData owners s.disk disk := by
  intro o ho hne y hy
  refine h.sameData hmap ho ?_ hwrites hy
  rintro rfl
  exact hne rfl

/-- Other bits, where the files are kept. -/
theorem Volume.rebook (h : Volume map root s b) {mem : Memory} {calls : ℕ}
    (hsectors : Sectors (s.mapped mem disk calls) f extra b.owners)
    (hkeeps : KeepsData b.owners s.disk disk) :
    Volume map root (s.mapped mem disk calls) { b with bits := f, extra := extra } :=
  h.mapped hsectors h.live (h.sectors.sameEntries h.rootOwner (hkeeps _ h.rootOwner
    (show ROOT_DIR_SECTOR ≠ FREE_MAP_SECTOR by decide)))

/-! ### Bits -/

theorem isRun_congr {n cnt i : ℕ} {value : Bool} (hfg : ∀ x < n, f x = g x) :
    IsRun f n cnt value i ↔ IsRun g n cnt value i :=
  and_congr_right fun hle ↦ forall_congr' fun j ↦ forall_congr' fun _ ↦ forall_congr' fun hj ↦ by
    rw [hfg j (by omega)]

/-- A sector is free, and the first one. -/
def FirstFree (f : ℕ → Bool) (n x : ℕ) : Prop :=
  IsRun f n 1 false x ∧ ∀ j < x, ¬IsRun f n 1 false j

theorem FirstFree.unique {n y : ℕ} (h : FirstFree f n x) (h' : FirstFree f n y) : x = y := by
  rcases Nat.lt_trichotomy x y with hlt | heq | hgt
  · exact absurd h.1 (h'.2 x hlt)
  · exact heq
  · exact absurd h'.1 (h.2 y hgt)

theorem FirstFree.congr {n : ℕ} (h : FirstFree f n x) (hfg : ∀ x < n, f x = g x) : FirstFree g n x :=
  ⟨(isRun_congr hfg).mp h.1, fun j hj hrun ↦ h.2 j hj ((isRun_congr hfg).mpr hrun)⟩

theorem FirstFree.clear {n : ℕ} (h : FirstFree f n x) : f x = false :=
  h.1.2 x (Nat.le_refl x) (Nat.lt_succ_self x)

/-! ### The defect -/

/-- The calls of `malloc` in `filesys_create` before `dir_add`. -/
def createCalls (s : State) : ℕ :=
  rootCalls s + (tailCalls (byteCnt s.capacity) + (1 + tailCalls (byteCnt s.capacity)))

/-- There are memory for so many calls of `malloc`, and sectors for an inode and its data. -/
structure Supplied (s : State) (f : ℕ → Bool) (size : ℤ) (calls : ℕ) : Prop where
  memory : ∀ i < calls, s.mallocs i = true
  room : ∃ x, FirstFree f s.capacity x ∧
    ∃ i, IsRun (setRange f x 1 true) s.capacity (bytesToSectors size) false i

/-- After so many calls of `malloc`, `dir_add` finds a place for the name. -/
def Accepts (root : InodeDisk) (s : State) (name : List UInt8) (calls : ℕ) : Prop :=
  IsName name ∧ ∃ k c, Places root (s.transfer s.disk calls) name k c

/-- The file is to have data, there are memory and sectors for its inode and its data, and `dir_add` finds no
place for its name. -/
structure Leaks (root : InodeDisk) (s : State) (f : ℕ → Bool) (name : List UInt8) (size : ℤ)
    (calls : ℕ) : Prop where
  sized : 0 < bytesToSectors size
  supplied : Supplied s f size calls
  refused : ¬Accepts root s name calls

theorem setRange_congr {n start cnt : ℕ} {value : Bool} (hfg : ∀ x < n, f x = g x) :
    ∀ x < n, setRange f start cnt value x = setRange g start cnt value x := by
  intro x hx
  rw [setRange, setRange, hfg x hx]

theorem Supplied.congr {calls : ℕ} (h : Supplied s f size calls) (hfg : ∀ x < s.capacity, f x = g x) :
    Supplied s g size calls := by
  obtain ⟨x, hfirst, i, hrun⟩ := h.room
  exact ⟨h.memory, x, hfirst.congr hfg, i, (isRun_congr (setRange_congr hfg)).mp hrun⟩

theorem supplied_congr {calls : ℕ} (hfg : ∀ x < s.capacity, f x = g x) :
    Supplied s f size calls ↔ Supplied s g size calls :=
  ⟨fun h ↦ h.congr hfg, fun h ↦ h.congr fun x hx ↦ (hfg x hx).symm⟩

theorem leaks_iff {calls : ℕ} : Leaks root s f name size calls ↔
    0 < bytesToSectors size ∧ Supplied s f size calls ∧ ¬Accepts root s name calls :=
  ⟨fun h ↦ ⟨h.sized, h.supplied, h.refused⟩, fun h ↦ ⟨h.1, h.2.1, h.2.2⟩⟩

/-- The place for an entry depends on the entries of the directory and the calls of `malloc` to come. -/
theorem Places.congr {k calls : ℕ} (h : Places root s name k calls)
    (hentries : SameEntries root s.disk s'.disk) (hmallocs : s'.mallocs = s.mallocs) :
    Places root s' name k calls := by
  have hcongr : ∀ {stop stop' : ℕ → Bool} {mallocs : ℕ → Bool} {j : ℕ} {found : Bool} {c : ℕ},
      (∀ i < root.slots, stop' i = stop i) → ScanEnds stop root.slots mallocs 0 j found c →
      ScanEnds stop' root.slots mallocs 0 j found c := by
    intro stop stop' mallocs j found c hstop hends
    refine ⟨hends.ge, hends.le, fun i hi hij ↦ ?_, fun hfound ↦ ?_, hends.short, hends.calls⟩
    · obtain ⟨hmalloc, hgo⟩ := hends.before i hi hij
      have hle := hends.le
      exact ⟨hmalloc, (hstop i (by omega)).trans hgo⟩
    · obtain ⟨hlt, hmalloc, hhit⟩ := hends.hit hfound
      exact ⟨hlt, hmalloc, (hstop j hlt).trans hhit⟩
  obtain ⟨⟨j, c, hends, found, c', hends', rfl⟩, hlt, hmalloc⟩ := h
  rw [← hmallocs] at hends hends' hmalloc
  exact ⟨⟨j, c, hcongr (fun i hi ↦ by rw [hentries i hi]) hends, found, c',
    hcongr (fun i hi ↦ by rw [hentries i hi]) hends', rfl⟩, hlt, hmalloc⟩

theorem accepts_congr {calls calls' : ℕ} (hentries : SameEntries root s.disk s'.disk)
    (hmallocs : ∀ i, s'.mallocs (i + calls') = s.mallocs (i + calls)) :
    Accepts root s name calls ↔ Accepts root s' name calls' := by
  have hlater : (s'.transfer s'.disk calls').mallocs = (s.transfer s.disk calls).mallocs := funext hmallocs
  refine and_congr_right fun _ ↦ exists₂_congr fun k c ↦ ⟨fun h ↦ h.congr hentries hlater, fun h ↦ ?_⟩
  exact h.congr (fun k hk ↦ (hentries k hk).symm) hlater.symm

/-- Calls of `malloc` that have succeeded already. -/
theorem supplied_shift {c calls : ℕ} (hcapacity : s'.capacity = s.capacity)
    (hmallocs : s'.mallocs = fun i ↦ s.mallocs (i + c)) (hmemory : ∀ i < c, s.mallocs i = true) :
    Supplied s f size (c + calls) ↔ Supplied s' f size calls := by
  constructor
  · rintro ⟨hall, hroom⟩
    refine ⟨fun i hi ↦ ?_, hcapacity ▸ hroom⟩
    rw [hmallocs]
    exact hall (i + c) (by omega)
  · rintro ⟨hall, hroom⟩
    refine ⟨fun i hi ↦ ?_, hcapacity ▸ hroom⟩
    rcases Nat.lt_or_ge i c with hlt | hge
    · exact hmemory i hlt
    · have hlast := hall (i - c) (by omega)
      rw [hmallocs] at hlast
      dsimp only at hlast
      rwa [Nat.sub_add_cancel hge] at hlast

/-! ### The steps of `filesys_create` -/

theorem setRange_undo {cnt y : ℕ} (h : ∀ y, x ≤ y → y < x + cnt → f y = false) :
    setRange (setRange f x cnt true) x cnt false y = f y := by
  unfold setRange
  split_ifs with hy
  · exact (h y hy.1 hy.2).symm
  · rfl

/-- `filesys_create` once it has a sector for the inode. -/
theorem filesysCreate_eq {s₁ s₂ s₃ s₄ s₅ s₆ : State} {created success : Bool}
    (hroot : FileSys.dirOpenRoot s = some (some p, s₁))
    (hallocate : freeMapAllocate s₁ 1 = some (some x, s₂))
    (hcreate : inodeCreate s₂ x size = some (created, s₃)) (hx : x ≠ 0)
    (hadd : (if created then dirAdd s₃ p name x else some (false, s₃)) = some (success, s₄))
    (hrelease : (if success then some s₄ else freeMapRelease s₄ x 1) = some s₅)
    (hclose : FileSys.inodeClose s₅ (some p) = some s₆) :
    FileSys.filesysCreate s name size = some (success, s₆) := by
  cases created with
  | false =>
    obtain ⟨rfl, rfl⟩ := Prod.mk.inj (Option.some.inj hadd)
    replace hrelease : freeMapRelease s₃ x 1 = some s₅ := hrelease
    simp only [FileSys.filesysCreate, hroot, hallocate, hcreate, hrelease, dirClose, hclose, hx,
      Bool.false_eq_true, Bool.not_false, ne_eq, not_false_eq_true, and_self, if_false, if_true,
      Option.bind_eq_bind, Option.bind_some, Option.pure_def]
  | true =>
    replace hadd : dirAdd s₃ p name x = some (success, s₄) := hadd
    cases success with
    | true =>
      obtain rfl := Option.some.inj hrelease
      simp only [FileSys.filesysCreate, hroot, hallocate, hcreate, hadd, dirClose, hclose,
        Bool.not_true, Bool.false_eq_true, false_and, if_false, if_true, Option.bind_eq_bind,
        Option.bind_some, Option.pure_def]
    | false =>
      replace hrelease : freeMapRelease s₄ x 1 = some s₅ := hrelease
      simp only [FileSys.filesysCreate, hroot, hallocate, hcreate, hadd, hrelease, dirClose, hclose, hx,
        Bool.not_false, ne_eq, not_false_eq_true, and_self, if_true, Option.bind_eq_bind,
        Option.bind_some, Option.pure_def]

/-- `dir_close` at the end of `filesys_create`. -/
theorem Volume.finish (h : Volume map root s { b with held := p :: b.held })
    (hp : ownerOf s.inodes p = some (ROOT_DIR_SECTOR, root)) {mem : Memory} {calls : ℕ}
    (hsectors : Sectors (s.mapped mem disk calls) f extra b.owners)
    (hkeeps : KeepsData b.owners s.disk disk) : ∃ s',
    FileSys.inodeClose (s.mapped mem disk calls) (some p) = some s' ∧
      Volume map root s' { b with bits := f, extra := extra } ∧ Evolves s s' ∧ s'.files = s.files ∧
      s'.disk = disk := by
  obtain ⟨s', hclose, hvolume, hquiet⟩ := (h.rebook hsectors hkeeps).closeRoot List.mem_cons_self hp
  refine ⟨s', hclose, ?_, (evolves_mapped s ..).trans hquiet.evolves, hquiet.files,
    hquiet.disk⟩
  change Volume map root s'
    { b with bits := f, extra := extra, held := (p :: b.held).erase p } at hvolume
  rwa [List.erase_cons_head] at hvolume

/-- The end of `filesys_create` where it fails after it has a sector for the inode. -/
theorem Volume.undo (h : Volume map root s { b with held := p :: b.held })
    (hp : ownerOf s.inodes p = some (ROOT_DIR_SECTOR, root)) {mem : Memory} {calls : ℕ}
    (hsectors : Sectors (s.mapped mem disk calls) f ((x, 1) :: extra) b.owners)
    (hkeeps : KeepsData b.owners s.disk disk) : ∃ s₁ s',
    freeMapRelease (s.mapped mem disk calls) x 1 = some s₁ ∧
      FileSys.inodeClose s₁ (some p) = some s' ∧
      Volume map root s' { b with bits := setRange f x 1 false, extra := extra } ∧ Evolves s s' ∧
      s'.files = s.files ∧ KeepsData b.owners s.disk s'.disk := by
  have hx := (hsectors.ledger.usable x ⟨(x, 1), List.mem_cons_self, covers_self x⟩).1
  obtain ⟨mem', disk', calls', hrelease, hbits, hwrites, hdurable⟩ :=
    freeMapRelease_spec (h.mapIn.mapped mem disk calls) hsectors.bits
      (hsectors.isRun (Nat.le_of_lt hx))
  rw [mapped_mapped] at hrelease
  have hmap : (FREE_MAP_SECTOR, map) ∈ b.owners := h.mapOwner
  have hreleased : Sectors (s.mapped mem' disk' (calls + calls')) (setRange f x 1 false) extra
      b.owners :=
    hsectors.release (s.mapped mem' disk' (calls + calls')) rfl hbits
      (fun o ho ↦ hsectors.sameSector hmap hwrites ho)
      (hsectors.durable_of hmap (hdurable (hsectors.durable map hmap)))
  obtain ⟨s', hclose, hvolume, hevolves, hfiles, hdisk⟩ :=
    h.finish hp hreleased (hkeeps.trans (hsectors.keepsData hmap hwrites))
  exact ⟨_, s', hrelease, hclose, hvolume, hevolves, hfiles,
    hdisk ▸ hkeeps.trans (hsectors.keepsData hmap hwrites)⟩

/-- The end of `filesys_create` where it succeeds: the inode is the owner of its sectors, and named. -/
theorem Volume.adopt (h : Volume map root s { b with held := p :: b.held })
    (hp : ownerOf s.inodes p = some (ROOT_DIR_SECTOR, root)) {mem : Memory} {calls calls' k : ℕ}
    {d : InodeDisk} {e : Bytes} (hfree : ∀ o ∈ b.owners, o.1 ≠ x)
    (hsectors : Sectors (s.mapped mem disk calls) f extra ((x, d) :: b.owners))
    (hkeeps : KeepsData b.owners s.disk disk) (hk : k < root.slots)
    (hentry : entryOf e = some (name, x))
    (hzeros : ∀ y, Covers (d.start, bytesToSectors d.length) y → SameSector (fun _ ↦ 0) disk y) : ∃ s',
    FileSys.inodeClose ((s.mapped mem disk calls).transfer
        (disk.copy (root.addr (k * ENTRY_SIZE)) e 0 ENTRY_SIZE) calls') (some p) = some s' ∧
      Volume map root s' { b with bits := f, extra := extra, owners := (x, d) :: b.owners } ∧
      Evolves s s' ∧ s'.files = s.files ∧ (∀ pos < d.length.toNat, s'.disk (d.addr pos) = 0) ∧
      (∀ j < root.slots, root.entry s'.disk j = if j = k then some (name, x) else root.entry s.disk j) ∧
      KeepsUsers b.owners s.disk s'.disk := by
  have hsame := h.sectors.sameEntries h.rootOwner
    (hkeeps _ h.rootOwner (show ROOT_DIR_SECTOR ≠ FREE_MAP_SECTOR by decide))
  have h₁ := h.mapped hsectors (fun o ho ↦ List.mem_cons_of_mem _ (h.live o ho)) hsame
  have hroot : ROOT_DIR_SECTOR < x := by
    have hzero := hfree _ h.mapOwner
    have hone := hfree _ h.rootOwner
    unfold FREE_MAP_SECTOR at hzero
    unfold ROOT_DIR_SECTOR at hone ⊢
    dsimp only at hzero hone
    omega
  have h₂ := h₁.writeEntry (e := some (name, x)) (c := calls') (writesTo_entry disk e hk)
    (fun j _ ↦ hentry ▸ entry_write root disk e j k) fun name' x' heq ↦ by
      obtain ⟨-, rfl⟩ := Prod.mk.inj (Option.some.inj heq)
      exact ⟨hroot, ⟨d, List.mem_cons_self⟩,
        fun hnamed ↦ hfree _ (h.entryOwner (hsame.named.mp hnamed)) rfl,
        fun q o hq ↦ hfree o (h.owned hq)⟩
  obtain ⟨s', hclose, hvolume, hquiet⟩ := h₂.closeRoot List.mem_cons_self hp
  have husers : KeepsUsers ((x, d) :: b.owners) disk s'.disk := by
    rw [hquiet.disk]
    exact h₁.sectors.keepsUsers h₁.rootOwner (Nat.le_refl _) (writesTo_entry disk e hk)
  refine ⟨s', hclose, ?_, ((evolves_mapped s ..).trans (evolves_transfer ..)).trans
    hquiet.evolves, hquiet.files, fun pos hpos ↦ ?_, fun j hj ↦ ?_, fun o ho huser y hy ↦ ?_⟩
  · change Volume map root s' { b with
      bits := f
      extra := extra
      owners := (x, d) :: b.owners
      held := (p :: b.held).erase p } at hvolume
    rwa [List.erase_cons_head] at hvolume
  · have hsized := (hsectors.sized (x, d) List.mem_cons_self).2.1
    exact (sameByte hsized (husers (x, d) List.mem_cons_self hroot) hpos).trans (sameByte hsized hzeros hpos)
  · rw [hquiet.disk, ← hsame j hj, ← hentry]
    exact entry_write root disk e j k
  · exact (hkeeps o ho (Nat.ne_of_gt (Nat.lt_trans Nat.one_pos huser)) y hy).trans
      (husers o (List.mem_cons_of_mem _ ho) huser y hy)

/-- The bits where `inode_create` has allocated data sectors and the sector of the inode is free again. -/
theorem setRange_leak {n start cnt : ℕ} (hx : f x = false) (hrun : IsRun (setRange f x 1 true) n cnt false start) :
    (∀ y < n, setRange (setRange (setRange f x 1 true) start cnt true) x 1 false y = f y) ↔ ¬0 < cnt := by
  have hne : ∀ y, start ≤ y → y < start + cnt → y ≠ x ∧ f y = false := by
    intro y hle hlt
    have hclear := hrun.2 y hle hlt
    unfold setRange at hclear
    split_ifs at hclear with hy
    exact ⟨fun heq ↦ hy ⟨Nat.le_of_eq heq.symm, by omega⟩, hclear⟩
  constructor
  · intro hsame hpos
    obtain ⟨hneq, hclear⟩ := hne start (Nat.le_refl _) (by omega)
    have hle := hrun.1
    have hset := hsame start (by omega)
    rw [hclear] at hset
    unfold setRange at hset
    rw [if_neg (by omega), if_pos (by omega)] at hset
    exact Bool.false_ne_true hset.symm
  · intro hzero y _
    obtain rfl : cnt = 0 := by omega
    have hnone : setRange (setRange f x 1 true) start 0 true = setRange f x 1 true := by
      funext y
      exact if_neg (by omega)
    rw [hnone]
    exact setRange_undo fun y hle hlt ↦ by
      obtain rfl : y = x := by omega
      exact hx

/-- What `filesys_create` has done where it fails: it has kept all files, and the bits of the free map exactly
if it has not leaked sectors. -/
structure CreateFails (root : InodeDisk) (s s' : State) (b b' : Books) (name : List UInt8) (size : ℤ)
    (calls : ℕ) : Prop where
  owners : b'.owners = b.owners
  keeps : KeepsData b.owners s.disk s'.disk
  bits : (∀ y < s.capacity, b'.bits y = b.bits y) ↔ ¬Leaks root s b.bits name size calls

/-- What `filesys_create` has done where it succeeds: an entry that was free or for which a call of `malloc` has
failed names an inode of its own with zeros. -/
structure CreateAdds (root : InodeDisk) (s s' : State) (b b' : Books) (name : List UInt8) (size : ℤ)
    (calls k x : ℕ) (d : InodeDisk) : Prop where
  placed : k < root.slots ∧ ∃ c, Places root (s.transfer s.disk calls) name k c
  owners : b'.owners = (x, d) :: b.owners
  fresh : ∀ o ∈ b.owners, o.1 ≠ x
  length : d.length = size
  zeros : ∀ pos < d.length.toNat, s'.disk (d.addr pos) = 0
  entries : ∀ j < root.slots,
    root.entry s'.disk j = if j = k then some (name, x) else root.entry s.disk j
  users : KeepsUsers b.owners s.disk s'.disk

/-- What a call of `filesys_create` does. -/
structure CreateEnds (root : InodeDisk) (s s' : State) (b b' : Books) (name : List UInt8) (size : ℤ)
    (calls : ℕ) (ok : Bool) : Prop where
  same : b.Same b'
  evolves : Evolves s s'
  files : s'.files = s.files
  exact : ok = true ↔ Supplied s b.bits size calls ∧ Accepts root s name calls
  fails : ok = false → CreateFails root s s' b b' name size calls
  adds : ok = true → ∃ k x d, CreateAdds root s s' b b' name size calls k x d

/-- The steps of `filesys_create` once it has a sector for the inode. -/
structure CreatesIn (s s' : State) (p x : ℕ) (name : List UInt8) (size : ℤ) (success : Bool) : Prop where
  steps : ∃ created s₃ s₄ s₅, inodeCreate s x size = some (created, s₃) ∧
    (if created then dirAdd s₃ p name x else some (false, s₃)) = some (success, s₄) ∧
    (if success then some s₄ else freeMapRelease s₄ x 1) = some s₅ ∧
    FileSys.inodeClose s₅ (some p) = some s'

theorem Volume.createIn (h : Volume map root s { b with held := p :: b.held })
    (hp : ownerOf s.inodes p = some (ROOT_DIR_SECTOR, root)) {mem : Memory} {calls : ℕ}
    (hallocates : Allocates s map s.capacity b.bits 1 (some x) mem disk calls)
    (hstring : IsCString name) (hmin : 0 ≤ size) (hmax : size ≤ intMax) : ∃ ok s' b',
    CreatesIn (s.mapped mem disk calls) s' p x name size ok ∧ Volume map root s' b' ∧
      CreateEnds root s s' b b' name size
        (tailCalls (byteCnt s.capacity) + (1 + tailCalls (byteCnt s.capacity))) ok := by
  have hsectors : Sectors s b.bits b.extra b.owners := h.sectors
  have hmap : (FREE_MAP_SECTOR, map) ∈ b.owners := h.mapOwner
  obtain ⟨hrun, hfirst, hbits⟩ := hallocates.allocates x rfl
  have hff : FirstFree b.bits s.capacity x := ⟨hrun, hfirst⟩
  have hcalls := (hallocates.exact h.mapSize).2 rfl
  have h₂ : Sectors (s.mapped mem disk calls) (setRange b.bits x 1 true) ((x, 1) :: b.extra) b.owners :=
    hsectors.reserve (s.mapped mem disk calls) hrun rfl hbits
      (fun o ho ↦ hsectors.sameSector hmap hallocates.writes ho)
      (hsectors.durable_of hmap (hallocates.durable (hsectors.durable map hmap)))
  have hkeeps₂ : KeepsData b.owners s.disk disk := hsectors.keepsData hmap hallocates.writes
  obtain ⟨created, mem₃, disk₃, calls₃, hcreate, hcreates⟩ :=
    inodeCreate_spec h₂ (h.mapIn.mapped mem disk calls) hmap hmin hmax
  rw [mapped_mapped] at hcreate
  have hkeeps₃ : KeepsData b.owners s.disk disk₃ := by
    refine hkeeps₂.trans fun o ho hne y hy ↦ hcreates.same y
      ⟨_, List.mem_flatMap.mpr ⟨o, ho, data_mem_rangesOf o⟩, hy⟩ fun hy' ↦ ?_
    refine hsectors.apart ho hmap ?_ _ (data_mem_rangesOf o) _ (data_mem_rangesOf _) y hy hy'
    rintro rfl
    exact hne rfl
  have hsame₃ : SameEntries root s.disk disk₃ := h.sectors.sameEntries h.rootOwner
    (hkeeps₃ _ h.rootOwner (show ROOT_DIR_SECTOR ≠ FREE_MAP_SECTOR by decide))
  obtain ⟨hiff, hcalls₃⟩ := hcreates.exact h.mapSize
  have hmallocs : ∀ i, (s.mapped mem disk calls).mallocs i = s.mallocs (i + calls) := fun _ ↦ rfl
  cases created with
  | false =>
    have h₃ := hcreates.fails rfl
    rw [mapped_mapped] at h₃
    obtain ⟨s₅, s', hrelease, hclose, hvolume, hevolves, hfiles, hkeeps⟩ := h.undo hp h₃ hkeeps₃
    have hunsupplied : ¬Supplied s b.bits size
        (tailCalls (byteCnt s.capacity) + (1 + tailCalls (byteCnt s.capacity))) := by
      intro hsupplied
      obtain ⟨x', hff', hroom⟩ := hsupplied.room
      obtain rfl := hff.unique hff'
      refine Bool.false_ne_true (hiff.mpr ⟨?_, hroom, fun i hi ↦ ?_⟩)
      · exact (hmallocs 0).trans (hsupplied.memory _ (by omega))
      · refine (hmallocs _).trans (hsupplied.memory _ ?_)
        change i < tailCalls (byteCnt s.capacity) at hi
        omega
    refine ⟨false, s', _, ⟨_, _, _, _, hcreate, rfl, hrelease, hclose⟩, hvolume, ⟨rfl, rfl, rfl⟩,
      hevolves, hfiles, iff_of_false Bool.false_ne_true fun hall ↦ hunsupplied hall.1,
      fun _ ↦ ⟨rfl, hkeeps, iff_of_true (fun y _ ↦ setRange_undo fun y hle hlt ↦ ?_)
        fun hleaks ↦ hunsupplied hleaks.supplied⟩, fun hok ↦ absurd hok Bool.false_ne_true⟩
    have hy : y = x := by omega
    rw [hy]
    exact hff.clear
  | true =>
    obtain ⟨hmalloc, hroom, hwrite⟩ := hiff.mp rfl
    replace hcalls₃ : calls₃ = 1 + tailCalls (byteCnt s.capacity) := hcalls₃ rfl
    obtain ⟨start, hrun₃, h₃, hzeros, -⟩ := hcreates.creates rfl
    have hsupplied : Supplied s b.bits size
        (tailCalls (byteCnt s.capacity) + (1 + tailCalls (byteCnt s.capacity))) := by
      refine ⟨fun i hi ↦ ?_, x, hff, hroom⟩
      rcases Nat.lt_trichotomy i (tailCalls (byteCnt s.capacity)) with hlt | rfl | hgt
      · exact ((hallocates.exact h.mapSize).1.mp rfl).2 i hlt
      · rw [← hcalls, ← Nat.zero_add calls]
        exact hmalloc
      · have hlast := hwrite (i - tailCalls (byteCnt s.capacity) - 1) (by
          change _ < tailCalls (byteCnt s.capacity)
          omega)
        have hidx : i - tailCalls (byteCnt s.capacity) - 1 + 1 + calls = i := by omega
        exact hidx ▸ hlast
    have haccepts : Accepts root s name (tailCalls (byteCnt s.capacity) +
        (1 + tailCalls (byteCnt s.capacity))) ↔
        Accepts root (s.mapped mem₃ disk₃ (calls + calls₃)) name 0 := by
      refine accepts_congr hsame₃ fun i ↦ ?_
      rw [← hcalls₃, ← hcalls]
      rfl
    have hdir : DirInode (s.mapped mem₃ disk₃ (calls + calls₃)) p root :=
      ⟨(h.dirInode hp).inode, (h.dirInode hp).fits, (h.dirInode hp).whole⟩
    have hfree : ∀ o ∈ b.owners, o.1 ≠ x := by
      rintro o ho rfl
      exact h₂.not_covers ⟨(o.1, 1), List.mem_flatMap.mpr ⟨o, ho, self_mem_rangesOf o⟩, covers_self _⟩
        (covers_self _)
    rcases dirAdd_spec hdir name x with ⟨c, hadd, hrefused⟩ | ⟨k, c, e, hname, hplaces, hadd⟩
    · have hdisowned := h₃.disown
      have h₄ : Sectors (s.mapped mem₃ disk₃ (calls + calls₃ + c))
          (setRange (setRange b.bits x 1 true) start (bytesToSectors size) true)
          ((x, 1) :: (start, bytesToSectors size) :: b.extra) b.owners :=
        ⟨hdisowned.bits, hdisowned.small, hdisowned.ledger, hdisowned.stored, hdisowned.sized,
          hdisowned.durable⟩
      obtain ⟨s₅, s', hrelease, hclose, hvolume, hevolves, hfiles, hkeeps⟩ :=
        h.undo hp h₄ hkeeps₃
      rw [← mapped_transfer s mem₃ disk₃] at hrelease
      have hunaccepted : ¬Accepts root s name (tailCalls (byteCnt s.capacity) +
          (1 + tailCalls (byteCnt s.capacity))) := by
        rw [haccepts]
        rintro ⟨hname, k, c', hplaces⟩
        exact hrefused hname k c' (hplaces.congr (sameEntries_refl _ _) rfl)
      refine ⟨false, s', _, ⟨_, _, _, _, hcreate, hadd, hrelease, hclose⟩, hvolume, ⟨rfl, rfl, rfl⟩,
        hevolves, hfiles, iff_of_false Bool.false_ne_true fun hall ↦ hunaccepted hall.2,
        fun _ ↦ ⟨rfl, hkeeps, (setRange_leak hff.clear hrun₃).trans (not_congr ?_)⟩,
        fun hok ↦ absurd hok Bool.false_ne_true⟩
      exact ⟨fun hpos ↦ ⟨hpos, hsupplied, hunaccepted⟩, fun hleaks ↦ hleaks.sized⟩
    · have hx : x < 2 ^ 32 := by
        have hlt := (h₂.ledger.usable x ⟨(x, 1), List.mem_cons_self, covers_self x⟩).1
        have hsmall := h₂.small
        omega
      rw [mapped_mapped] at h₃
      obtain ⟨s', hclose, hvolume, hevolves, hfiles, hzero, hentries, husers⟩ := h.adopt hp hfree h₃ hkeeps₃
        hplaces.lt (entryOf_fillEntry hstring hname hx e) hzeros
      have haccepted := haccepts.mpr ⟨hname, k, c, hplaces.congr (sameEntries_refl _ _) rfl⟩
      refine ⟨true, s', _, ⟨_, _, _, _, hcreate, hadd, rfl, hclose⟩, hvolume, ⟨rfl, rfl, rfl⟩, hevolves,
        hfiles, iff_of_true rfl ⟨hsupplied, haccepted⟩, fun hfails ↦ absurd hfails.symm Bool.false_ne_true,
        fun _ ↦ ⟨k, x, _, ⟨hplaces.lt, c, ?_⟩, rfl, hfree, rfl, hzero, hentries, husers⟩⟩
      refine hplaces.congr (fun j hj ↦ (hsame₃ j hj).symm) (funext fun i ↦ ?_)
      rw [← hcalls₃, ← hcalls]
      rfl

/-- `filesys_create` keeps a volume sound. Where it fails it has changed no file, and the free map only if it has
leaked sectors. -/
theorem Volume.filesysCreate (h : Volume map root s b) (hstring : IsCString name) (hmin : 0 ≤ size)
    (hmax : size ≤ intMax) : ∃ ok s' b', FileSys.filesysCreate s name size = some (ok, s') ∧
      Volume map root s' b' ∧ CreateEnds root s s' b b' name size (createCalls s) ok := by
  obtain ⟨dir, s₁, hroot, h₁, hopensRoot⟩ := h.dirOpenRoot
  have hquiet := hopensRoot.quiet
  have hcapacity : s₁.capacity = s.capacity := hquiet.evolves.capacity
  have hunsupplied : ∀ {s' : State}, ¬Supplied s b.bits size (createCalls s) →
      s'.files = s.files → Evolves s s' → KeepsData b.owners s.disk s'.disk → ∀ held,
      b.Same { b with held := held } →
      CreateEnds root s s' b { b with held := held } name size (createCalls s) false :=
    fun hnot hfiles hevolves hkeeps _ hsame ↦ ⟨hsame, hevolves, hfiles,
      iff_of_false Bool.false_ne_true fun hall ↦ hnot hall.1,
      fun _ ↦ ⟨rfl, hkeeps, iff_of_true (fun _ _ ↦ rfl) fun hleaks ↦ hnot hleaks.supplied⟩,
      fun hok ↦ absurd hok Bool.false_ne_true⟩
  cases dir with
  | none =>
    refine ⟨false, s₁, b, ?_, h₁, hunsupplied (fun hsupplied ↦ ?_) hquiet.files hquiet.evolves
      (hquiet.disk ▸ keepsData_refl _ _) b.held ⟨rfl, rfl, rfl⟩⟩
    · simp only [FileSys.filesysCreate, hroot, Option.bind_eq_bind, Option.bind_some, Option.pure_def]
    · refine Bool.false_ne_true (hopensRoot.succeeds.mpr fun i hi ↦ hsupplied.memory i ?_)
      exact Nat.lt_of_lt_of_le hi (Nat.le_add_right ..)
  | some p =>
    have hp := hopensRoot.opened p rfl
    have hmemory := hopensRoot.succeeds.mp rfl
    have hmallocs := hopensRoot.mallocs rfl
    have hdisk : s₁.disk = s.disk := hquiet.disk
    have hsupplied : Supplied s b.bits size (createCalls s) ↔ Supplied s₁ b.bits size
        (tailCalls (byteCnt s₁.capacity) + (1 + tailCalls (byteCnt s₁.capacity))) := by
      rw [createCalls, ← hcapacity]
      exact supplied_shift hcapacity hmallocs hmemory
    have haccepts : Accepts root s name (createCalls s) ↔ Accepts root s₁ name
        (tailCalls (byteCnt s₁.capacity) + (1 + tailCalls (byteCnt s₁.capacity))) := by
      refine accepts_congr (fun k _ ↦ by rw [hdisk]) fun i ↦ ?_
      rw [hmallocs, createCalls, hcapacity]
      dsimp only
      congr 1
      omega
    have hn : s₁.capacity < SIZE_MAX := Nat.lt_of_le_of_lt h₁.sectors.small (by decide)
    obtain ⟨result, mem, disk, calls, hallocate, hallocates⟩ :=
      freeMapAllocate_spec h₁.mapIn h₁.sectors.bits hn 1
    cases result with
    | none =>
      have hmap : (FREE_MAP_SECTOR, map) ∈ b.owners := h.mapOwner
      have hsectors : Sectors s₁ b.bits b.extra b.owners := h₁.sectors
      have h₂ : Sectors (s₁.mapped mem disk calls) b.bits b.extra b.owners :=
        hsectors.step (s₁.mapped mem disk calls) rfl (hallocates.fails rfl)
          (fun o ho ↦ hsectors.sameSector hmap hallocates.writes ho)
          (fun x hx ↦ (hsectors.ledger.usable x hx).2)
          (hsectors.durable_of hmap (hallocates.durable (hsectors.durable map hmap)))
      have hkeeps := hsectors.keepsData hmap hallocates.writes
      obtain ⟨s', hclose, hvolume, hevolves, hfiles, hdisk'⟩ :=
        Volume.finish (b := b) h₁ hp h₂ hkeeps
      refine ⟨false, s', _, ?_, hvolume, hunsupplied (fun hall ↦ ?_) (hfiles.trans hquiet.files)
        (hquiet.evolves.trans hevolves) ?_ b.held ⟨rfl, rfl, rfl⟩⟩
      · simp only [FileSys.filesysCreate, hroot, hallocate, dirClose, hclose, Option.bind_eq_bind,
          Option.bind_some, Option.pure_def]
      · have hall₁ := hsupplied.mp hall
        obtain ⟨x, hff, -⟩ := hall₁.room
        exact Bool.false_ne_true ((hallocates.exact h₁.mapSize).1.mpr
          ⟨⟨x, hff.1⟩, fun i hi ↦ hall₁.memory i (Nat.lt_of_lt_of_le hi (Nat.le_add_right ..))⟩)
      · rw [hdisk', ← hdisk]
        exact hkeeps
    | some x =>
      obtain ⟨success, s', b', ⟨created, s₃, s₄, s₅, hcreate, hadd, hrelease, hclose⟩, hvolume, hends⟩ :=
        Volume.createIn (b := b) h₁ hp hallocates hstring hmin hmax
      have hx : x ≠ 0 := by
        rintro rfl
        have hused := (h₁.sectors.used h₁.mapOwner (self_mem_rangesOf _) (covers_self _)).2
        have hfree := (hallocates.allocates 0 rfl).1.2 0 (Nat.le_refl 0) (by decide)
        exact Bool.false_ne_true (hfree.symm.trans hused)
      refine ⟨success, s', b', filesysCreate_eq hroot hallocate hcreate hx hadd hrelease hclose, hvolume,
        hends.same, hquiet.evolves.trans hends.evolves, hends.files.trans hquiet.files, ?_, fun hfail ↦ ?_,
        fun hok ↦ ?_⟩
      · rw [hsupplied, haccepts]
        exact hends.exact
      · obtain ⟨howners, hkeeps, hbits⟩ := hends.fails hfail
        rw [leaks_iff, ← hsupplied, ← haccepts, ← leaks_iff, hcapacity] at hbits
        exact ⟨howners, hdisk ▸ hkeeps, hbits⟩
      · obtain ⟨k, x, d, hadds⟩ := hends.adds hok
        obtain ⟨hk, c, hplaces⟩ := hadds.placed
        refine ⟨k, x, d, ⟨hk, c, hplaces.congr ?_ (funext fun i ↦ ?_)⟩, hadds.owners, hadds.fresh, hadds.length,
          hadds.zeros, ?_, hdisk ▸ hadds.users⟩
        · intro j _
          change root.entry s.disk j = root.entry s₁.disk j
          rw [hdisk]
        · change s.mallocs _ = s₁.mallocs _
          rw [hmallocs, createCalls, hcapacity]
          dsimp only
          congr 1
          omega
        · rw [← hdisk]
          exact hadds.entries

end Jungle.FileSys
