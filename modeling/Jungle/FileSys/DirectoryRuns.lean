import Jungle.FileSys.FreeMap
import Jungle.FileSys.Names
import Jungle.FileSys.WriteDenial
import Jungle.Lib.Run

/-!
# Runs of the functions on one directory

Any calls of `dir_add`, `dir_remove` and `dir_lookup` on a directory, with any calls of `malloc` failing. What
`dir_remove` does to the inode changes the free map and its file, not the directory. A run of calls that do
not add a name beside or over an entry in use keeps the directory a map from names to sectors, and the next
call does what it says exactly if it is no such call (`run_directory_iff`).
-/

set_option autoImplicit false
set_option relaxedAutoImplicit false

namespace Jungle.FileSys

open Jungle.Lib

/-- An inode with the data is open to others than those who hold the listed references. -/
def Stays (inodes : Store Inode) (held : List ℕ) (p : ℕ) (data : InodeDisk) : Prop :=
  ∃ inode, inodes p = some inode ∧ inode.data = data ∧ inode.denyWriteCnt = 0 ∧
    held.count p < inode.openCnt

/-- A directory and the file of the free map are open, and apart on the disk. -/
structure DirState (s : State) (held : List ℕ) (p : ℕ) (data mapData : InodeDisk) : Prop where
  dir : Stays s.inodes held p data
  fits : data.Fits s
  whole : data.length.toNat % ENTRY_SIZE = 0
  map : ∃ m file, s.freeMapFile = some m ∧ s.files m = some file ∧
    Stays s.inodes held file.inode mapData
  mapFits : mapData.Fits s
  apart : ∀ pos < data.length.toNat, mapData.Outside (data.addr pos)
  fresh : ∀ a, s.next ≤ a → s.inodes a = none

/-- The directory has the same entries. -/
def SameEntries (data : InodeDisk) (disk disk' : Bytes) : Prop :=
  ∀ k < data.slots, data.entry disk' k = data.entry disk k

variable {s s' : State} {inodes : Store Inode} {held held' : List ℕ} {p q : ℕ}
  {data mapData : InodeDisk} {inode inode' : Inode} {disk : Bytes}

/-! ### Inodes that stay open -/

theorem Stays.put (h : Stays inodes held p data) (hq : inodes q = some inode)
    (hdata : inode'.data = inode.data) (hdeny : inode'.denyWriteCnt = inode.denyWriteCnt)
    (hself : q = p → held.count p < inode.openCnt → held'.count p < inode'.openCnt)
    (hother : q ≠ p → held'.count p = held.count p) : Stays (inodes.put q inode') held' p data := by
  obtain ⟨inode₀, hp, hdata₀, hdeny₀, hcnt⟩ := h
  by_cases hne : q = p
  · subst hne
    obtain rfl := Option.some.inj (hp.symm.trans hq)
    exact ⟨inode', Store.put_self .., hdata.trans hdata₀, hdeny.trans hdeny₀, hself rfl hcnt⟩
  · exact ⟨inode₀, (Store.put_of_ne _ (Ne.symm hne) _).trans hp, hdata₀, hdeny₀, by
      rw [hother hne]
      exact hcnt⟩

theorem Stays.free (h : Stays inodes held p data) (hne : q ≠ p)
    (hcount : held'.count p = held.count p) : Stays (inodes.free q) held' p data := by
  obtain ⟨inode₀, hp, hdata₀, hdeny₀, hcnt⟩ := h
  exact ⟨inode₀, (Store.free_of_ne _ (Ne.symm hne)).trans hp, hdata₀, hdeny₀, by rwa [hcount]⟩

theorem Stays.new (h : Stays inodes held p data) (hq : inodes q = none) (inode : Inode) :
    Stays (inodes.put q inode) (q :: held) p data := by
  obtain ⟨inode₀, hp, hdata₀, hdeny₀, hcnt⟩ := h
  have hne : p ≠ q := by
    rintro rfl
    exact Option.some_ne_none _ (hp.symm.trans hq)
  refine ⟨inode₀, (Store.put_of_ne _ hne _).trans hp, hdata₀, hdeny₀, ?_⟩
  rwa [List.count_cons_of_ne hne.symm]

theorem DirState.dirInode (h : DirState s held p data mapData) : DirInode s p data := by
  obtain ⟨inode, hp, hdata, hdeny, -⟩ := h.dir
  exact ⟨⟨inode, hp, hdata, hdeny⟩, h.fits, h.whole⟩

theorem DirState.mapFile (h : DirState s held p data mapData) : MapFile s mapData := by
  obtain ⟨m, file, hm, hfile, inode, hinode, hdata, hdeny, -⟩ := h.map
  exact ⟨⟨m, file, inode, hm, hfile, hinode, hdata, hdeny⟩, h.mapFits⟩

theorem DirState.mapped (h : DirState s held p data mapData) (mem : Memory) (disk : Bytes)
    (calls : ℕ) : DirState (s.mapped mem disk calls) held p data mapData :=
  ⟨h.dir, h.fits, h.whole, h.map, h.mapFits, h.apart, h.fresh⟩

theorem DirState.transfer (h : DirState s held p data mapData) (disk : Bytes) (calls : ℕ) :
    DirState (s.transfer disk calls) held p data mapData :=
  ⟨h.dir, h.fits, h.whole, h.map, h.mapFits, h.apart, h.fresh⟩

/-- Other inodes, where those of the directory and the free map stay. -/
theorem DirState.withInodes (h : DirState s held p data mapData) {openInodes : List ℕ}
    (hstays : ∀ p data, Stays s.inodes held p data → Stays inodes held' p data)
    (hfresh : ∀ a, s.next ≤ a → inodes a = none) :
    DirState { s with inodes := inodes, openInodes := openInodes } held' p data mapData := by
  obtain ⟨m, file, hm, hfile, hmap⟩ := h.map
  exact ⟨hstays _ _ h.dir, h.fits, h.whole, ⟨m, file, hm, hfile, hstays _ _ hmap⟩, h.mapFits,
    h.apart, hfresh⟩

/-- A reference that is given to others. -/
theorem DirState.forget (h : DirState s (q :: held) p data mapData) :
    DirState s held p data mapData := by
  have hstays : ∀ p data, Stays s.inodes (q :: held) p data → Stays s.inodes held p data := by
    rintro p data ⟨inode, hp, hdata, hdeny, hcnt⟩
    have hle : held.count p ≤ (q :: held).count p := List.count_le_count_cons
    exact ⟨inode, hp, hdata, hdeny, by omega⟩
  obtain ⟨m, file, hm, hfile, hmap⟩ := h.map
  exact ⟨hstays _ _ h.dir, h.fits, h.whole, ⟨m, file, hm, hfile, hstays _ _ hmap⟩, h.mapFits,
    h.apart, h.fresh⟩

theorem DirState.ne_next (h : DirState s held p data mapData) (hq : s.inodes q = some inode) {a : ℕ}
    (ha : s.next ≤ a) : a ≠ q := by
  rintro rfl
  exact Option.some_ne_none _ (hq.symm.trans (h.fresh a ha))

/-- An inode changes that is open. -/
theorem DirState.withInode (h : DirState s held p data mapData) (hq : s.inodes q = some inode)
    (hdata : inode'.data = inode.data) (hdeny : inode'.denyWriteCnt = inode.denyWriteCnt)
    (hself : held.count q < inode.openCnt → held'.count q < inode'.openCnt)
    (hother : ∀ p, q ≠ p → held'.count p = held.count p) :
    DirState (s.withInode q inode') held' p data mapData := by
  refine h.withInodes (fun p data hstays ↦ hstays.put hq hdata hdeny ?_ (hother p)) fun a ha ↦ ?_
  · rintro rfl
    exact hself
  · exact (Store.put_of_ne _ (h.ne_next hq ha) _).trans (h.fresh a ha)

/-- `inode_open` returns a reference or nothing. -/
theorem DirState.inodeOpen (h : DirState s held p data mapData) {sector : ℕ} {result : Option ℕ}
    (hopen : FileSys.inodeOpen s sector = some (result, s')) :
    DirState s' (result.toList ++ held) p data mapData ∧ s'.disk = s.disk := by
  rw [FileSys.inodeOpen] at hopen
  cases hfind : findInode s sector with
  | some q =>
    have hsector := List.find?_some hfind
    obtain ⟨inode, hinode, -⟩ := Option.map_eq_some_iff.mp (beq_iff_eq.mp hsector)
    rw [hfind] at hopen
    simp only [inodeReopen_eq hinode, Option.bind_eq_bind, Option.bind_some, Option.pure_def,
      Option.some.injEq, Prod.mk.injEq] at hopen
    obtain ⟨rfl, rfl⟩ := hopen
    refine ⟨h.withInode hinode rfl rfl (fun hcnt ↦ ?_) fun p hne ↦ List.count_cons_of_ne hne, rfl⟩
    rw [Option.toList_some, List.singleton_append, List.count_cons_self]
    push_cast
    omega
  | none =>
    rw [hfind] at hopen
    cases hok : s.mallocs 0 with
    | false =>
      simp only [malloc, hok, Bool.false_eq_true, if_false, Option.some.injEq, Prod.mk.injEq] at hopen
      obtain ⟨rfl, rfl⟩ := hopen
      exact ⟨h.transfer s.disk 1, rfl⟩
    | true =>
      simp only [malloc, hok, if_true] at hopen
      obtain ⟨content, -, hopen⟩ := Option.bind_eq_some_iff.mp hopen
      simp only [Option.pure_def, Option.some.injEq, Prod.mk.injEq] at hopen
      obtain ⟨rfl, rfl⟩ := hopen
      have hnext := h.fresh s.next (Nat.le_refl _)
      obtain ⟨m, file, hm, hfile, hmap⟩ := h.map
      refine ⟨⟨h.dir.new hnext _, h.fits, h.whole, ⟨m, file, hm, hfile, hmap.new hnext _⟩, h.mapFits,
        h.apart, fun a ha ↦ ?_⟩, rfl⟩
      have ha' : s.next + 1 ≤ a := ha
      exact (Store.put_of_ne _ (by omega) _).trans (h.fresh a (by omega))

/-- `inode_close` of a reference changes the free map and its file at most. -/
theorem DirState.inodeClose (h : DirState s held p data mapData) (hq : q ∈ held)
    (hclose : FileSys.inodeClose s (some q) = some s') :
    DirState s' (held.erase q) p data mapData ∧ WritesTo mapData s.disk s'.disk := by
  obtain ⟨inode, hinode, hclose⟩ := Option.bind_eq_some_iff.mp hclose
  have hpos := List.count_pos_iff.mpr hq
  have hother : ∀ p, q ≠ p → (held.erase q).count p = held.count p :=
    fun p hne ↦ List.count_erase_of_ne hne.symm
  by_cases hcnt : inode.openCnt - 1 = 0
  · have hne : ∀ p data, Stays s.inodes held p data → q ≠ p := by
      rintro p data ⟨inode₀, hp, -, -, hlt⟩ rfl
      obtain rfl := Option.some.inj (hp.symm.trans hinode)
      omega
    rw [if_pos hcnt] at hclose
    let s₁ : State := { s with
      inodes := s.inodes.put q { inode with openCnt := inode.openCnt - 1 }
      openInodes := s.openInodes.erase q }
    have h₁ : DirState s₁ (held.erase q) p data mapData := by
      refine h.withInodes (fun p data hstays ↦ hstays.put hinode rfl rfl
        (fun heq ↦ absurd heq (hne p data hstays)) (hother p)) fun a ha ↦ ?_
      exact (Store.put_of_ne _ (h.ne_next hinode ha) _).trans (h.fresh a ha)
    have hfree : ∀ {s₂ : State}, DirState s₂ (held.erase q) p data mapData →
        s₂.inodes = s₁.inodes →
        DirState { s₂ with inodes := s₂.inodes.free q } (held.erase q) p data mapData := by
      intro s₂ h₂ hsame
      have hq₂ : s₂.inodes q = some { inode with openCnt := inode.openCnt - 1 } :=
        (congrFun hsame q).trans (Store.put_self ..)
      refine h₂.withInodes (fun p data hstays ↦ hstays.free ?_ rfl) fun a ha ↦ ?_
      · rintro rfl
        obtain ⟨inode₂, hp, -, -, hlt⟩ := hstays
        obtain rfl := Option.some.inj (hp.symm.trans hq₂)
        change _ < inode.openCnt - 1 at hlt
        omega
      · exact (Store.free_of_ne _ (h₂.ne_next hq₂ ha)).trans (h₂.fresh a ha)
    dsimp only at hclose
    by_cases hremoved : inode.removed = true
    · rw [if_pos hremoved] at hclose
      obtain ⟨s₂, hfirst, hclose⟩ := Option.bind_eq_some_iff.mp hclose
      obtain ⟨mem, disk, calls, rfl, hwrites⟩ := freeMapRelease_frame h₁.mapFile hfirst
      have h₂ := h₁.mapped mem disk calls
      obtain ⟨s₃, hsecond, hclose⟩ := Option.bind_eq_some_iff.mp hclose
      obtain ⟨mem', disk', calls', rfl, hwrites'⟩ := freeMapRelease_frame h₂.mapFile hsecond
      obtain rfl := Option.some.inj hclose
      exact ⟨hfree (h₂.mapped mem' disk' calls') rfl,
        fun x hx ↦ (hwrites' x hx).trans (hwrites x hx)⟩
    · rw [if_neg hremoved] at hclose
      obtain rfl := Option.some.inj hclose
      exact ⟨hfree h₁ rfl, fun _ _ ↦ rfl⟩
  · rw [if_neg hcnt] at hclose
    obtain rfl := Option.some.inj hclose
    refine ⟨h.withInode hinode rfl rfl (fun hlt ↦ ?_) hother, fun _ _ ↦ rfl⟩
    rw [List.count_erase_self]
    change _ < inode.openCnt - 1
    push_cast [hpos]
    omega

/-! ### Entries -/

theorem sameEntries_refl (data : InodeDisk) (disk : Bytes) : SameEntries data disk disk :=
  fun _ _ ↦ rfl

/-- Writing to another file changes no entry. -/
theorem WritesTo.entries {disk' : Bytes} (h : WritesTo mapData disk disk')
    (hapart : ∀ pos < data.length.toNat, mapData.Outside (data.addr pos)) :
    SameEntries data disk disk' := by
  intro k hk
  refine (entry_congr fun i hi ↦ ?_).2.2.2
  have hroom := slot_room hk
  have haddr : data.addr (k * ENTRY_SIZE) + i = data.addr (k * ENTRY_SIZE + i) := Nat.add_assoc ..
  rw [InodeDisk.slot, InodeDisk.slot, haddr]
  exact h _ (hapart _ (by omega))

/-- No two entries have the same name. -/
def IsMap (data : InodeDisk) (disk : Bytes) : Prop :=
  ∀ j < data.slots, ∀ k < data.slots, ∀ name a b, data.entry disk j = some (name, a) →
    data.entry disk k = some (name, b) → j = k

/-- One entry is added to those of the directory. -/
def Adds (data : InodeDisk) (disk disk' : Bytes) (name : List UInt8) (sector : ℕ) : Prop :=
  ∃ k < data.slots, data.entry disk k = none ∧
    ∀ j < data.slots, data.entry disk' j = if j = k then some (name, sector) else data.entry disk j

/-- One entry is removed from those of the directory. -/
def Removes (data : InodeDisk) (disk disk' : Bytes) (name : List UInt8) : Prop :=
  ∃ k < data.slots, ∃ sector, data.entry disk k = some (name, sector) ∧
    ∀ j < data.slots, data.entry disk' j = if j = k then none else data.entry disk j

theorem IsMap.same {disk' : Bytes} (h : IsMap data disk) (hsame : SameEntries data disk disk') :
    IsMap data disk' := by
  intro j hj k hk name a b hja hkb
  rw [hsame j hj] at hja
  rw [hsame k hk] at hkb
  exact h j hj k hk name a b hja hkb

theorem IsMap.removes {disk' : Bytes} {name : List UInt8} (h : IsMap data disk)
    (hremoves : Removes data disk disk' name) : IsMap data disk' := by
  obtain ⟨r, -, -, -, hentries⟩ := hremoves
  intro j hj k hk name a b hja hkb
  rw [hentries j hj] at hja
  rw [hentries k hk] at hkb
  split_ifs at hja hkb
  exact h j hj k hk name a b hja hkb

/-- A name that no entry has is added. -/
theorem IsMap.adds {disk' : Bytes} {name : List UInt8} {sector : ℕ} (h : IsMap data disk)
    (hadds : Adds data disk disk' name sector)
    (hnew : ∀ j < data.slots, hasName name (data.entry disk j) = false) : IsMap data disk' := by
  obtain ⟨r, -, -, hentries⟩ := hadds
  have hother : ∀ j < data.slots, ∀ a, data.entry disk j ≠ some (name, a) := by
    intro j hj a hja
    exact Bool.false_ne_true ((hnew j hj).symm.trans (hasName_iff.mpr ⟨a, hja⟩))
  intro j hj k hk name' a b hja hkb
  rw [hentries j hj] at hja
  rw [hentries k hk] at hkb
  split_ifs at hja hkb with hjr hkr hkr
  · rw [hjr, hkr]
  · obtain ⟨rfl, -⟩ := Prod.mk.inj (Option.some.inj hja)
    exact absurd hkb (hother k hk b)
  · obtain ⟨rfl, -⟩ := Prod.mk.inj (Option.some.inj hkb)
    exact absurd hja (hother j hj a)
  · exact h j hj k hk name' a b hja hkb

/-! ### The functions -/

/-- `dir_lookup` changes no entry. -/
theorem dirLookup_keeps (h : DirState s held p data mapData) {name : List UInt8}
    {result : Option ℕ} (hlookup : dirLookup s p name = some (result, s')) :
    DirState s' (result.toList ++ held) p data mapData ∧ s'.disk = s.disk := by
  obtain ⟨found, j, calls, hfound, -, -⟩ := lookup_spec h.dirInode name
  rw [dirLookup, hfound, Option.bind_eq_bind, Option.bind_some] at hlookup
  cases found with
  | none =>
    obtain ⟨rfl, rfl⟩ := Prod.mk.inj (Option.some.inj hlookup)
    exact ⟨h.transfer s.disk calls, rfl⟩
  | some found => exact (h.transfer s.disk calls).inodeOpen hlookup

/-- `dir_remove` removes the entry that it has found, or none. -/
theorem dirRemove_keeps (h : DirState s held p data mapData) {name : List UInt8} {ok : Bool}
    (hremove : dirRemove s p name = some (ok, s')) : DirState s' held p data mapData ∧
      if ok then Removes data s.disk s'.disk name else SameEntries data s.disk s'.disk := by
  obtain ⟨found, k, calls, hfound, hends, hslot⟩ := lookup_spec h.dirInode name
  rw [dirRemove, hfound, Option.bind_eq_bind, Option.bind_some] at hremove
  have h₁ := h.transfer s.disk calls
  cases found with
  | none =>
    obtain ⟨rfl, rfl⟩ := Prod.mk.inj (Option.some.inj hremove)
    exact ⟨h₁, sameEntries_refl _ _⟩
  | some found =>
    obtain ⟨e, ofs⟩ := found
    obtain ⟨rfl, hbytes⟩ := hslot e ofs rfl
    obtain ⟨hk, -, hname⟩ := hends.hit rfl
    obtain ⟨sector, hentry⟩ := hasName_iff.mp hname
    obtain ⟨⟨result, s₂⟩, hopen, hremove⟩ := Option.bind_eq_some_iff.mp hremove
    obtain ⟨h₂, hdisk⟩ := h₁.inodeOpen hopen
    replace hdisk : s₂.disk = s.disk := hdisk
    cases result with
    | none =>
      obtain ⟨rfl, rfl⟩ := Prod.mk.inj (Option.some.inj hremove)
      exact ⟨h₂, fun j _ ↦ by rw [hdisk]⟩
    | some q =>
      change DirState s₂ (q :: held) p data mapData at h₂
      obtain ⟨inode, hinode, rfl, hdeny, -⟩ := h₂.dir
      have hwrite := inodeWriteAt_part hinode hdeny h₂.fits (show 0 < ENTRY_SIZE by decide)
        (show ENTRY_SIZE < DISK_SECTOR_SIZE by decide) (slot_room hk) (Function.update e 19 0)
      dsimp only at hremove
      rw [hwrite] at hremove
      have hheld : q ∈ q :: held := List.mem_cons_self
      by_cases hmalloc : s₂.mallocs 0 = true
      · rw [if_pos hmalloc, Option.bind_eq_bind, Option.bind_some] at hremove
        dsimp only at hremove
        rw [if_pos rfl] at hremove
        have h₃ := h₂.transfer (s₂.disk.copy (inode.data.addr (k * ENTRY_SIZE))
          (Function.update e 19 0) 0 ENTRY_SIZE) 1
        obtain ⟨s₄, hremoved, hremove⟩ := Option.bind_eq_some_iff.mp hremove
        obtain ⟨inode', hinode', hremoved⟩ := Option.bind_eq_some_iff.mp hremoved
        obtain rfl := Option.some.inj hremoved
        have h₄ : DirState (State.withInode _ q { inode' with removed := true }) (q :: held) p _ _ :=
          h₃.withInode hinode' rfl rfl id fun _ _ ↦ rfl
        obtain ⟨s₅, hclose, hremove⟩ := Option.bind_eq_some_iff.mp hremove
        obtain ⟨rfl, rfl⟩ := Prod.mk.inj (Option.some.inj hremove)
        obtain ⟨h₅, hwrites⟩ := h₄.inodeClose hheld hclose
        rw [List.erase_cons_head] at h₅
        refine ⟨h₅, k, hk, sector, hentry, fun j hj ↦ ?_⟩
        rw [hwrites.entries h.apart j hj]
        change inode.data.entry (s₂.disk.copy _ _ 0 ENTRY_SIZE) j = _
        rw [entry_write, entryOf_clear, hdisk]
      · rw [if_neg hmalloc, Option.bind_eq_bind, Option.bind_some] at hremove
        dsimp only at hremove
        rw [if_neg (by decide)] at hremove
        obtain ⟨s₃, hclose, hremove⟩ := Option.bind_eq_some_iff.mp hremove
        obtain ⟨rfl, rfl⟩ := Prod.mk.inj (Option.some.inj hremove)
        obtain ⟨h₃, hwrites⟩ := (h₂.transfer s₂.disk 1).inodeClose hheld hclose
        rw [List.erase_cons_head] at h₃
        refine ⟨h₃, fun j hj ↦ ?_⟩
        rw [hwrites.entries h.apart j hj]
        change inode.data.entry s₂.disk j = _
        rw [hdisk]

/-! ### Runs -/

/-- The calls. -/
inductive DirCall
  | add (name : List UInt8) (sector : ℕ)
  | remove (name : List UInt8)
  | lookup (name : List UInt8)

namespace DirCall

/-- Names are C strings, and sectors have 32 bits. -/
def Valid : DirCall → Prop
  | add name sector => IsCString name ∧ sector < 2 ^ 32
  | remove name | lookup name => IsCString name

/-- What a call returns and the state after it. -/
def exec (s : State) (p : ℕ) : DirCall → Option (Bool × State)
  | add name sector => dirAdd s p name sector
  | remove name => dirRemove s p name
  | lookup name => (dirLookup s p name).map fun (inode, s) ↦ (inode.isSome, s)

/-- What a call is to do: no two entries have the same name after it, and it has added or removed one
entry if it is to, and changed no other. -/
def Effect (data : InodeDisk) (disk disk' : Bytes) (ok : Bool) (call : DirCall) : Prop :=
  IsMap data disk' ∧ match call, ok with
    | add name sector, true => Adds data disk disk' name sector
    | remove name, true => Removes data disk disk' name
    | _, _ => SameEntries data disk disk'

/-- The call adds no name beside or over an entry in use: where it writes the entry is free, and no entry
has the name. -/
def Safe (data : InodeDisk) (s : State) : DirCall → Prop
  | add name _ => IsName name → ∀ k calls, Places data s name k calls →
    data.entry s.disk k = none ∧ ∀ j < data.slots, hasName name (data.entry s.disk j) = false
  | _ => True

end DirCall

/-- A call that returns. -/
def DirStep (p : ℕ) (s : State) (call : DirCall) (s' : State) : Prop :=
  call.Valid ∧ ∃ ok, call.exec s p = some (ok, s')

/-- A call that returns and adds no name beside or over an entry in use. -/
def SafeStep (p : ℕ) (data : InodeDisk) (s : State) (call : DirCall) (s' : State) : Prop :=
  DirStep p s call s' ∧ call.Safe data s

/-- Where all calls of `malloc` succeed, no name is added beside or over an entry in use. -/
theorem safe_of_mallocs (hmallocs : ∀ i, s.mallocs i = true) (call : DirCall) :
    call.Safe data s := by
  cases call with
  | remove name => trivial
  | lookup name => trivial
  | add name sector =>
    rintro - k calls ⟨⟨j, c, hends, found, c', hends', -⟩, hlt, -⟩
    have hj : data.slots ≤ j := by
      by_contra hlt
      exact Bool.false_ne_true ((hends.short rfl (by omega)).symm.trans (hmallocs _))
    refine ⟨?_, fun i hi ↦ (hends.before i (Nat.zero_le i) (by omega)).2⟩
    cases found with
    | true => exact Option.isNone_iff_eq_none.mp (hends'.hit rfl).2.2
    | false => exact absurd ((hends'.short rfl hlt).symm.trans (hmallocs _)) Bool.false_ne_true

/-- A call keeps the directory, and does what it is to exactly if it is safe. -/
theorem DirState.call (h : DirState s [] p data mapData) (hmap : IsMap data s.disk) {call : DirCall}
    (hvalid : call.Valid) {ok : Bool} (hexec : call.exec s p = some (ok, s')) :
    DirState s' [] p data mapData ∧ (call.Effect data s.disk s'.disk ok ↔ call.Safe data s) := by
  cases call with
  | lookup name =>
    obtain ⟨⟨result, s₁⟩, hlookup, hmapped⟩ := Option.map_eq_some_iff.mp hexec
    obtain ⟨rfl, rfl⟩ := Prod.mk.inj hmapped
    obtain ⟨h₁, hdisk⟩ := dirLookup_keeps h hlookup
    replace hdisk : s₁.disk = s.disk := hdisk
    have hsame : SameEntries data s.disk s₁.disk := fun k _ ↦ by rw [hdisk]
    refine ⟨?_, iff_of_true ⟨hmap.same hsame, ?_⟩ trivial⟩
    · cases result with
      | none => exact h₁
      | some q => exact h₁.forget
    · cases result <;> exact hsame
  | remove name =>
    obtain ⟨h₁, heffect⟩ := dirRemove_keeps h hexec
    refine ⟨h₁, iff_of_true ?_ trivial⟩
    cases ok with
    | true => exact ⟨hmap.removes heffect, heffect⟩
    | false => exact ⟨hmap.same heffect, heffect⟩
  | add name sector =>
    obtain ⟨hstring, hsector⟩ := hvalid
    rcases dirAdd_spec h.dirInode name sector with
      ⟨calls, hadd, hnot⟩ | ⟨k, calls, e, hname, hplaces, hadd⟩
    · obtain ⟨rfl, rfl⟩ := Prod.mk.inj (Option.some.inj (hadd.symm.trans hexec))
      have hsame := sameEntries_refl data s.disk
      exact ⟨h.transfer s.disk calls, iff_of_true ⟨hmap, hsame⟩
        fun hname k calls hplaces ↦ absurd hplaces (hnot hname k calls)⟩
    · obtain ⟨rfl, rfl⟩ := Prod.mk.inj (Option.some.inj (hadd.symm.trans hexec))
      refine ⟨h.transfer _ _, ?_⟩
      have hentries : ∀ j, data.entry (s.disk.copy (data.addr (k * ENTRY_SIZE))
          (fillEntry e name sector) 0 ENTRY_SIZE) j =
          if j = k then some (name, sector) else data.entry s.disk j := fun j ↦ by
        rw [entry_write, entryOf_fillEntry hstring hname hsector]
      constructor
      · rintro ⟨hmap', r, hr, hnone, hentries'⟩ - k' calls' hplaces'
        obtain rfl := (hplaces.unique hplaces').1
        have hrk : k = r := by
          by_contra hne
          have hkept := hentries' r hr
          rw [if_pos rfl] at hkept
          change data.entry (s.disk.copy _ _ 0 ENTRY_SIZE) r = _ at hkept
          rw [hentries, if_neg (Ne.symm hne), hnone] at hkept
          exact Option.some_ne_none _ hkept.symm
        refine ⟨hrk ▸ hnone, fun j hj ↦ Bool.eq_false_iff.mpr fun hnamed ↦ ?_⟩
        obtain ⟨a, ha⟩ := hasName_iff.mp hnamed
        have hjk : j ≠ k := by
          rintro rfl
          rw [hrk, hnone] at ha
          exact Option.some_ne_none _ ha.symm
        refine hjk (hmap' j hj k hplaces.lt name a sector ?_ ?_)
        · change data.entry (s.disk.copy _ _ 0 ENTRY_SIZE) j = _
          rw [hentries, if_neg hjk, ha]
        · change data.entry (s.disk.copy _ _ 0 ENTRY_SIZE) k = _
          rw [hentries, if_pos rfl]
      · intro hsafe
        obtain ⟨hnone, hnew⟩ := hsafe hname k calls hplaces
        have hadds : Adds data s.disk (s.disk.copy (data.addr (k * ENTRY_SIZE))
            (fillEntry e name sector) 0 ENTRY_SIZE) name sector :=
          ⟨k, hplaces.lt, hnone, fun j _ ↦ hentries j⟩
        exact ⟨hmap.adds hadds hnew, hadds⟩

/-- The directory is a map from names to sectors. -/
def DirOk (p : ℕ) (data mapData : InodeDisk) (s : State) : Prop :=
  DirState s [] p data mapData ∧ IsMap data s.disk

theorem DirOk.step (h : DirOk p data mapData s) {call : DirCall}
    (hstep : SafeStep p data s call s') : DirOk p data mapData s' := by
  obtain ⟨⟨hvalid, ok, hexec⟩, hsafe⟩ := hstep
  obtain ⟨h', heffect⟩ := h.1.call h.2 hvalid hexec
  exact ⟨h', (heffect.mpr hsafe).1⟩

/-- In a run of safe calls no two entries ever have the same name, and the next call does what it is to
exactly if it is safe, too. -/
theorem run_directory_iff (h : DirState s [] p data mapData) (hmap : IsMap data s.disk)
    {calls : List DirCall} (hrun : Run (SafeStep p data) s calls s') :
    IsMap data s'.disk ∧ ∀ (call : DirCall) (ok : Bool) (s'' : State), call.Valid →
      call.exec s' p = some (ok, s'') →
        (call.Effect data s'.disk s''.disk ok ↔ call.Safe data s') := by
  have hinv : DirOk p data mapData s' :=
    hrun.invariant (fun _ _ _ hok hstep ↦ hok.step hstep) ⟨h, hmap⟩
  exact ⟨hinv.2, fun call ok s'' hvalid hexec ↦ (hinv.1.call hinv.2 hvalid hexec).2⟩

/-! ### A directory -/

/-- The data of a directory of sixteen entries and of a free map. -/
def rootData : InodeDisk := ⟨3, 320, INODE_MAGIC⟩
def smallMapData : InodeDisk := ⟨2, 8, INODE_MAGIC⟩

/-- A disk of eight sectors, with the name `a` in the first entry of its directory. -/
def oneName (mallocs : ℕ → Bool) : State where
  disk := Bytes.copy (fun _ ↦ 0) (rootData.addr (0 * ENTRY_SIZE))
    (fillEntry (fun _ ↦ 0) ['a'.toUInt8] 5) 0 ENTRY_SIZE
  capacity := 8
  mem := fun _ ↦ 0
  freeMap := 0
  freeMapFile := some 2
  inodes := (Store.empty.put 0 ⟨0, 1, false, 0, smallMapData⟩).put 1 ⟨1, 1, false, 0, rootData⟩
  openInodes := [0, 1]
  files := Store.empty.put 2 ⟨0, 0, false⟩
  next := 3
  mallocs := mallocs

theorem entry_oneName (mallocs : ℕ → Bool) (j : ℕ) : rootData.entry (oneName mallocs).disk j =
    if j = 0 then some (['a'.toUInt8], 5) else none := by
  refine (entry_write rootData _ _ j 0).trans ?_
  rw [entryOf_fillEntry (by decide) (by decide) (by decide)]
  rfl

theorem isMap_oneName (mallocs : ℕ → Bool) : IsMap rootData (oneName mallocs).disk := by
  intro j _ k _ name a b hj hk
  rw [entry_oneName] at hj hk
  split_ifs at hj hk with hj' hk'
  rw [hj', hk']

theorem dirState_oneName (mallocs : ℕ → Bool) :
    DirState (oneName mallocs) [] 1 rootData smallMapData where
  dir := ⟨⟨1, 1, false, 0, rootData⟩, rfl, rfl, rfl, by decide⟩
  fits pos hpos := by
    replace hpos : (pos : ℤ) < 320 := hpos
    exact ⟨show 3 + pos / 512 < 8 by omega, show 3 + pos / 512 < 2 ^ 28 by omega⟩
  whole := by decide
  map := ⟨2, ⟨0, 0, false⟩, rfl, rfl, ⟨0, 1, false, 0, smallMapData⟩, rfl, rfl, rfl, by decide⟩
  mapFits pos hpos := by
    replace hpos : (pos : ℤ) < 8 := hpos
    exact ⟨show 2 + pos / 512 < 8 by omega, show 2 + pos / 512 < 2 ^ 28 by omega⟩
  apart pos hpos pos' hpos' := by
    replace hpos' : pos' < 8 := hpos'
    change 512 * 3 + pos ≠ 512 * 2 + pos'
    omega
  fresh a ha := by
    replace ha : 3 ≤ a := ha
    exact (Store.put_of_ne _ (by omega) _).trans (Store.put_of_ne _ (by omega) _)

/-- The name `b` is added where `malloc` succeeds. -/
theorem run_directory_oneName : ∃ s', Run (SafeStep 1 rootData) (oneName fun _ ↦ true)
    [.add ['b'.toUInt8] 6] s' ∧ IsMap rootData s'.disk := by
  have h := dirState_oneName fun _ ↦ true
  obtain ⟨ok, s', hexec⟩ : ∃ ok s', dirAdd (oneName fun _ ↦ true) 1 ['b'.toUInt8] 6 = some (ok, s') := by
    rcases dirAdd_spec h.dirInode ['b'.toUInt8] 6 with ⟨calls, hadd, -⟩ | ⟨k, calls, e, -, -, hadd⟩
    · exact ⟨_, _, hadd⟩
    · exact ⟨_, _, hadd⟩
  have hrun : Run (SafeStep 1 rootData) (oneName fun _ ↦ true) [.add ['b'.toUInt8] 6] s' :=
    Run.single ⟨⟨⟨by decide, by decide⟩, ok, hexec⟩, safe_of_mallocs (fun _ ↦ rfl) _⟩
  exact ⟨s', hrun, (run_directory_iff h (isMap_oneName _) hrun).1⟩

/-- Where the seventeenth `malloc` fails, which is that of the first read of the second loop, the entry of
`a` is overwritten. -/
theorem not_run_directory : ¬∀ (s s' : State) (p : ℕ) (data mapData : InodeDisk)
    (calls : List DirCall), DirState s [] p data mapData → IsMap data s.disk →
      Run (DirStep p) s calls s' → IsMap data s'.disk ∧
        ∀ (call : DirCall) (ok : Bool) (s'' : State), call.Valid →
          call.exec s' p = some (ok, s'') → call.Effect data s'.disk s''.disk ok := by
  intro hall
  have h := dirState_oneName fun i ↦ decide (i ≠ 16)
  have hmap := isMap_oneName fun i ↦ decide (i ≠ 16)
  have hplaces : Places rootData (oneName fun i ↦ decide (i ≠ 16)) ['b'.toUInt8] 0 17 := by
    refine ⟨⟨16, 16, ⟨Nat.zero_le _, Nat.le_refl _, fun i _ hi ↦ ⟨?_, ?_⟩, fun h ↦ by simp at h,
      fun _ h ↦ absurd h (Nat.lt_irrefl _), rfl⟩, false, 1, ⟨Nat.le_refl _, Nat.zero_le _,
      fun i _ hi ↦ absurd hi (Nat.not_lt_zero i), fun h ↦ by simp at h, fun _ _ ↦ rfl, rfl⟩, rfl⟩,
      by decide, rfl⟩
    · rw [Nat.sub_zero]
      exact decide_eq_true (Nat.ne_of_lt hi)
    · rw [entry_oneName]
      split_ifs <;> rfl
  rcases dirAdd_spec h.dirInode ['b'.toUInt8] 6 with ⟨calls, -, hnot⟩ | ⟨k, calls, e, -, -, hadd⟩
  · exact hnot (by decide) 0 17 hplaces
  · have hvalid : DirCall.Valid (.add ['b'.toUInt8] 6) := ⟨by decide, by decide⟩
    have heffect := (hall _ _ 1 rootData smallMapData [] h hmap (Run.nil _)).2
      (.add ['b'.toUInt8] 6) true _ hvalid hadd
    have hsafe := ((h.call hmap hvalid hadd).2.mp heffect) (by decide) 0 17 hplaces
    have hentry := entry_oneName (fun i ↦ decide (i ≠ 16)) 0
    rw [hsafe.1, if_pos rfl] at hentry
    exact Option.some_ne_none _ hentry.symm

end Jungle.FileSys
