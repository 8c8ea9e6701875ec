import Jungle.FileSys.Formatting

/-!
# Runs of a machine

A disk is formatted, and then there are calls, and the machine is shut down, or loses power between two calls, and
starts again. No two live inodes share a sector, and the sectors of an inode that has been removed are released by
its last opener (`run_sectors_apart`). `filesys_create` succeeds exactly if there are memory, sectors and a place
for the name (`run_create_iff`), and where it fails it changes nothing unless it leaks the data sectors of the
file (`run_create_fails_iff`). A start finds all sectors in use that were (`run_restart`).
-/

set_option autoImplicit false
set_option relaxedAutoImplicit false

namespace Jungle.FileSys

open Jungle.Lib Jungle.Bitmap

/-! ### Machines -/

/-- What a kernel that starts has: the blocks that `malloc` returns for the free map, its memory and the calls of
`malloc` to come. -/
structure Kernel where
  block : ℕ
  bits : ℕ
  mem : Memory
  mallocs : ℕ → Bool

/-- `filesys_init (format)` when the kernel starts. -/
def Kernel.start (k : Kernel) (disk : Bytes) (capacity : ℕ) (format : Bool) : Option State :=
  filesysInit (.boot disk capacity k.mem k.mallocs) (some k.block) (some k.bits) format

/-- A kernel has formatted a disk. -/
structure Kernel.Formats (k : Kernel) (disk : Bytes) (capacity : ℕ) (s : State) : Prop where
  blocks : Blocks k.block k.bits capacity
  min : 1 < capacity
  max : capacity ≤ 2 ^ 28
  start : k.start disk capacity true = some s

/-- A call, or a start of the machine, which has been shut down with `filesys_done` or has lost power. -/
inductive Event
  | call (call : FsCall)
  | restart (down : Bool) (k : Kernel)

/-- What happens, with the reply to it. -/
def EventStep (st : Session) : Event × Reply → Session → Prop
  | (.call call, reply), st' =>
    call.Allowed st ∧ ∃ s, call.exec st.fs = some (reply, s) ∧ st' = call.after st reply s
  | (.restart down k, .done), st' => Blocks k.block k.bits st.fs.capacity ∧
    ∃ s s', (if down then filesysDone st.fs else some st.fs) = some s ∧
      k.start s.disk s.capacity false = some s' ∧ st' = ⟨s', [], []⟩
  | _, _ => False

variable {map root : InodeDisk} {st st' : Session} {s s' : State} {b : Books} {p : ℕ} {k : Kernel}

theorem Kernel.Formats.formatted {disk : Bytes} {capacity : ℕ} (h : k.Formats disk capacity s) :
    Formatted (diskInode s.disk FREE_MAP_SECTOR) (diskInode s.disk ROOT_DIR_SECTOR) s := by
  obtain ⟨-, -, map, root, hformatted⟩ :=
    (filesysInit_format h.blocks h.min h.max disk k.mem k.mallocs).1 s h.start
  obtain ⟨b, hsound⟩ := hformatted.sound
  have hmap : diskInode s.disk FREE_MAP_SECTOR = map := hsound.volume.sectors.stored _ hsound.volume.mapOwner
  have hroot : diskInode s.disk ROOT_DIR_SECTOR = root := hsound.volume.sectors.stored _ hsound.volume.rootOwner
  rwa [hmap, hroot]

theorem Kernel.Formats.memory {disk : Bytes} {capacity : ℕ} (h : k.Formats disk capacity s)
    (hmemory : ∀ i, k.mallocs i = true) (i : ℕ) : s.mallocs i = true := by
  obtain ⟨-, ⟨c, hmallocs⟩, -⟩ := (filesysInit_format h.blocks h.min h.max disk k.mem k.mallocs).1 s h.start
  exact (hmallocs i).trans (hmemory _)

/-- `filesys_done` writes nothing. -/
theorem Volume.filesysDone (h : Volume map root s b) : ∃ s',
    FileSys.filesysDone s = some s' ∧ s'.disk = s.disk ∧ s'.capacity = s.capacity := by
  obtain ⟨m, file, hm, hfile, hcell, howner⟩ := h.mapFile
  obtain ⟨inode, hinode, heq⟩ := exists_of_ownerOf howner
  have hdenies := h.writable m file hcell
  have hkept : inode.removed = false := by
    by_contra hremoved
    have hsector := (h.removed _ inode hinode (Bool.eq_true_of_not_eq_false hremoved)).1
    rw [(Prod.mk.inj heq).1] at hsector
    exact Nat.not_lt_zero _ hsector
  unfold FileSys.filesysDone freeMapClose
  simp only [hm, FileSys.fileClose, fileAllowWrite, hfile, hdenies, FileSys.inodeClose, hinode, hkept,
    Bool.false_eq_true, if_false, Option.bind_eq_bind, Option.bind_some, Option.pure_def]
  split_ifs
  · exact ⟨_, rfl, rfl, rfl⟩
  · exact ⟨_, rfl, rfl, rfl⟩

/-- A start keeps the disk, and the volume on it is sound. -/
theorem Session.Sound.restart (h : st.Sound map root b) {down : Bool}
    (hstep : EventStep st (.restart down k, .done) st') : ∃ b', Mounts map root st.fs st'.fs b b' k.mallocs ∧
      st' = ⟨st'.fs, [], []⟩ := by
  obtain ⟨hblocks, s, s', hdown, hstart, rfl⟩ := hstep
  have hsame : s.disk = st.fs.disk ∧ s.capacity = st.fs.capacity := by
    cases down with
    | false => exact Option.some.inj hdown ▸ ⟨rfl, rfl⟩
    | true =>
      obtain ⟨s'', hdone, hdisk, hcapacity⟩ := h.volume.filesysDone
      exact Option.some.inj (hdown.symm.trans hdone) ▸ ⟨hdisk, hcapacity⟩
  rw [hsame.1, hsame.2] at hstart
  obtain ⟨b', hmounts⟩ := (h.volume.filesysInit hblocks k.mem k.mallocs).1 s' hstart
  exact ⟨b', hmounts, rfl⟩

/-- The machine can start, if there is memory. -/
theorem Session.Sound.starts (h : st.Sound map root b) (hblocks : Blocks k.block k.bits st.fs.capacity)
    (hmemory : ∀ i < 3, k.mallocs i = true) (down : Bool) : ∃ st', EventStep st (.restart down k, .done) st' := by
  obtain ⟨s', hstart⟩ := Option.isSome_iff_exists.mp ((h.volume.filesysInit hblocks k.mem k.mallocs).2 hmemory)
  cases down with
  | false => exact ⟨_, hblocks, st.fs, s', rfl, hstart, rfl⟩
  | true =>
    obtain ⟨s, hdone, hdisk, hcapacity⟩ := h.volume.filesysDone
    refine ⟨_, hblocks, s, s', hdone, ?_, rfl⟩
    rw [hdisk, hcapacity]
    exact hstart

/-- Every event keeps the volume sound. -/
theorem Session.Sound.event (h : st.Sound map root b) {event : Event × Reply} (hstep : EventStep st event st') :
    ∃ b', st'.Sound map root b' := by
  obtain ⟨event, reply⟩ := event
  cases event with
  | call call =>
    obtain ⟨hallowed, s, hexec, rfl⟩ := hstep
    obtain ⟨reply', s', b', hexec', hsound, -⟩ := h.call call hallowed
    obtain ⟨rfl, rfl⟩ := Prod.mk.inj (Option.some.inj (hexec.symm.trans hexec'))
    exact ⟨b', hsound⟩
  | restart down k =>
    cases reply with
    | done =>
      obtain ⟨b', hmounts, heq⟩ := h.restart hstep
      exact ⟨b', heq ▸ hmounts.sound⟩
    | success | file | count | bytes => exact hstep.elim

/-- A session on a sound volume. -/
def OnVolume (map root : InodeDisk) (st : Session) : Prop := ∃ b, st.Sound map root b

/-- Every run keeps the volume sound. -/
theorem run_sound {events : List (Event × Reply)} (hrun : Run EventStep st events st')
    (h : OnVolume map root st) : OnVolume map root st' :=
  hrun.invariant (fun _ _ _ ⟨_, hsound⟩ ↦ hsound.event) h

/-! ### A machine with memory -/

/-- A kernel that has memory for all calls of `malloc`. -/
def Kernel.ample : Kernel := ⟨0, 16, fun _ ↦ 0, fun _ ↦ true⟩

theorem ample_blocks : Blocks Kernel.ample.block Kernel.ample.bits 8 :=
  ⟨by decide, by decide, Or.inr (Nat.le_refl 16)⟩

/-- It formats a disk of eight sectors. -/
theorem exists_formats : ∃ s, Kernel.ample.Formats (fun _ ↦ 0) 8 s := by
  have hsome := ((filesysInit_format ample_blocks (by decide) (by decide) (fun _ ↦ 0) Kernel.ample.mem
    Kernel.ample.mallocs).2 fun _ ↦ rfl).mpr (by decide)
  obtain ⟨s, hstart⟩ := Option.isSome_iff_exists.mp hsome
  exact ⟨s, ample_blocks, by decide, by decide, hstart⟩

/-- Then a file is created, and the machine is shut down and starts again. -/
theorem exists_events : ∃ s reply st st', Kernel.ample.Formats (fun _ ↦ 0) 8 s ∧
    EventStep ⟨s, [], []⟩ (.call (.filesysCreate [97] 600), reply) st ∧
    EventStep st (.restart true .ample, .done) st' := by
  obtain ⟨s, hformats⟩ := exists_formats
  obtain ⟨b, hsound⟩ := hformats.formatted.sound
  obtain ⟨reply, s', b', hexec, hsound', hkeeps, -⟩ :=
    hsound.call (.filesysCreate [97] 600) ⟨by decide, by decide, by decide⟩
  have hcapacity : s.capacity = 8 :=
    ((filesysInit_format hformats.blocks hformats.min hformats.max _ _ _).1 s hformats.start).1
  have hblocks : Blocks Kernel.ample.block Kernel.ample.bits s'.capacity := by
    rw [hkeeps.evolves.capacity, hcapacity]
    exact ample_blocks
  obtain ⟨st', hstart⟩ := hsound'.starts (k := .ample) hblocks (fun _ _ ↦ rfl) true
  exact ⟨s, reply, _, st', hformats, ⟨⟨by decide, by decide, by decide⟩, s', hexec, rfl⟩, hstart⟩

/-! ### A formatted disk -/

/-- `filesys_init` with `format` makes a file system of any disk, whatever is on it: the root directory has no
entry, the sectors of its inode and of that of the free map are in use and no others, and they are apart. With
memory it does not panic exactly if the disk has four sectors. -/
theorem start_formats {capacity : ℕ} (hblocks : Blocks k.block k.bits capacity) (hmin : 1 < capacity)
    (hmax : capacity ≤ 2 ^ 28) (disk : Bytes) :
    (∀ s, k.start disk capacity true = some s → ∃ map root, diskInode s.disk FREE_MAP_SECTOR = map ∧
      diskInode s.disk ROOT_DIR_SECTOR = root ∧ (∀ j < root.slots, root.entry s.disk j = none) ∧
      (rangesOf (ROOT_DIR_SECTOR, root) ++ rangesOf (FREE_MAP_SECTOR, map)).Pairwise Apart ∧
      ∀ x < capacity, bitmapTest s.mem s.freeMap x = some true ↔
        Covered (rangesOf (ROOT_DIR_SECTOR, root) ++ rangesOf (FREE_MAP_SECTOR, map)) x) ∧
    ((∀ i, k.mallocs i = true) → ((k.start disk capacity true).isSome ↔ 4 ≤ capacity)) := by
  obtain ⟨hformats, hmemory⟩ := filesysInit_format hblocks hmin hmax disk k.mem k.mallocs
  refine ⟨fun s hstart ↦ ?_, hmemory⟩
  obtain ⟨hcapacity, -, map, root, hformatted⟩ := hformats s hstart
  obtain ⟨b, hsound⟩ := hformatted.sound
  have hsectors := hsound.volume.sectors
  have hmap := hsound.volume.mapOwner
  have hroot := hsound.volume.rootOwner
  refine ⟨map, root, hsectors.stored _ hmap, hsectors.stored _ hroot, hformatted.entries, ?_,
    hcapacity ▸ hformatted.used⟩
  refine List.pairwise_append.mpr ⟨hsectors.pairwise.1 _ hroot, hsectors.pairwise.1 _ hmap, ?_⟩
  exact hsectors.apart hroot hmap fun heq ↦ absurd (Prod.mk.inj heq).1 (by decide)

theorem start_formats_ample : ∃ s, Kernel.ample.start (fun _ ↦ 0) 8 true = some s ∧
    ∃ map root, diskInode s.disk FREE_MAP_SECTOR = map ∧ diskInode s.disk ROOT_DIR_SECTOR = root ∧
      ∀ j < root.slots, root.entry s.disk j = none := by
  obtain ⟨hformats, hmemory⟩ := start_formats ample_blocks (by decide) (by decide) fun _ ↦ 0
  obtain ⟨s, hstart⟩ := Option.isSome_iff_exists.mp ((hmemory fun _ ↦ rfl).mpr (by decide))
  obtain ⟨map, root, hmap, hroot, hentries, -⟩ := hformats s hstart
  exact ⟨s, hstart, map, root, hmap, hroot, hentries⟩

/-! ### Sectors -/

/-- What holds of the sectors and of the open inodes of a file system. -/
structure SectorsApart (map root : InodeDisk) (st : Session) : Prop where
  inUse : ∀ o, Live map root st.fs o → (rangesOf o).Pairwise Apart ∧ ∀ x, Covered (rangesOf o) x →
    x < st.fs.capacity ∧ bitmapTest st.fs.mem st.fs.freeMap x = some true
  apart : ∀ o o', Live map root st.fs o → Live map root st.fs o' → o ≠ o' →
    o.1 ≠ o'.1 ∧ ∀ x, Covered (rangesOf o) x → ¬Covered (rangesOf o') x
  stored : ∀ o, Live map root st.fs o → diskInode st.fs.disk o.1 = o.2
  listed : st.fs.openInodes.Nodup ∧ ∀ p, p ∈ st.fs.openInodes ↔ (st.fs.inodes p).isSome
  single : ∀ p q inode inode', st.fs.inodes p = some inode → st.fs.inodes q = some inode' →
    inode.sector = inode'.sector → p = q
  openCnt : ∃ m, st.fs.freeMapFile = some m ∧ ∀ p inode, st.fs.inodes p = some inode →
    inode.openCnt = st.fs.files.census (st.files ++ [m]) (OnInode p) + st.held.count p
  unnamed : ∀ p inode, st.fs.inodes p = some inode → inode.removed = true →
    ¬Named root st.fs.disk inode.sector
  returns : ∀ call : FsCall, call.Allowed st → ∃ result s, call.exec st.fs = some (result, s)
  releases : ∀ p inode, st.fs.inodes p = some inode → inode.removed = true → ∀ (call : FsCall) result s,
    call.Allowed st → call.exec st.fs = some (result, s) →
      ∀ x, Covered (rangesOf (inode.sector, inode.data)) x →
        (bitmapTest s.mem s.freeMap x = some false ↔ call.ClosesLast st p)

/-- A sector that owners cover is in use. -/
theorem Sectors.test {f : ℕ → Bool} {extra : List (ℕ × ℕ)} {owners : List (ℕ × InodeDisk)}
    (h : Sectors s f extra owners) {o : ℕ × InodeDisk} (ho : o ∈ owners) {x : ℕ}
    (hx : Covered (rangesOf o) x) : x < s.capacity ∧ bitmapTest s.mem s.freeMap x = some true := by
  obtain ⟨r, hr, hcovers⟩ := hx
  obtain ⟨hlt, hbit⟩ := h.used ho hr hcovers
  exact ⟨hlt, (bitmapTest_eq h.bits hlt).trans (congrArg some hbit)⟩

theorem Session.Sound.sectorsApart (h : st.Sound map root b) : SectorsApart map root st where
  inUse o ho := ⟨h.volume.sectors.pairwise.1 o (h.volume.live o ho), fun _ ↦
    h.volume.sectors.test (h.volume.live o ho)⟩
  apart o o' ho ho' hne := by
    have hapart := h.volume.sectors.apart (h.volume.live o ho) (h.volume.live o' ho') hne
    refine ⟨fun heq ↦ ?_, ?_⟩
    · exact hapart _ (self_mem_rangesOf o) _ (self_mem_rangesOf o') o.1 (covers_self _)
        (heq ▸ covers_self _)
    · rintro x ⟨r, hr, hx⟩ ⟨r', hr', hx'⟩
      exact hapart r hr r' hr' x hx hx'
  stored o ho := h.volume.sectors.stored o (h.volume.live o ho)
  listed := ⟨h.volume.nodup, fun p ↦ by rw [h.volume.listed, isSome_ownerOf]⟩
  single p q inode inode' hp hq heq := by
    have hp' := h.volume.sectors.stored _ (h.volume.owned (ownerOf_eq hp))
    have hq' := h.volume.sectors.stored _ (h.volume.owned (ownerOf_eq hq))
    dsimp only at hp' hq'
    rw [heq] at hp'
    refine h.volume.single p q _ (ownerOf_eq hp) ?_
    rw [ownerOf_eq hq, heq, ← hp', ← hq']
  openCnt := by
    obtain ⟨m, hm, hof⟩ := h.books
    refine ⟨m, hm, fun p inode hp ↦ ?_⟩
    have hcount := (h.volume.counted.counts p _ (unremoved_eq hp)).openCnt
    rwa [hof.cells, hof.files, hof.held] at hcount
  unnamed p inode hp hremoved := (h.volume.removed p inode hp hremoved).2
  returns call hallowed := by
    obtain ⟨result, s, -, hexec, -⟩ := h.call call hallowed
    exact ⟨result, s, hexec⟩
  releases p inode hp hremoved call result s hallowed hexec x hx := by
    obtain ⟨result', s', b', hexec', hsound, hkeeps, -⟩ := h.call call hallowed
    obtain ⟨rfl, rfl⟩ := Prod.mk.inj (Option.some.inj (hexec.symm.trans hexec'))
    have hlt := (h.volume.sectors.test (h.volume.owned (ownerOf_eq hp)) hx).1
    have hbits : IsBitmap s.mem s.freeMap s.capacity b'.bits := by
      cases call <;> exact hsound.volume.sectors.bits
    rw [← hkeeps.evolves.capacity] at hlt
    constructor
    · intro hfree
      by_contra hlast
      have howner := hkeeps.survives p _ (ownerOf_eq hp) hlast
      have hused : bitmapTest s.mem s.freeMap x = some true := by
        cases call <;> exact (hsound.volume.sectors.test (hsound.volume.owned howner) hx).2
      rw [hused] at hfree
      exact Bool.false_ne_true (Option.some.inj hfree).symm
    · intro hlast
      rw [bitmapTest_eq hbits hlt, hkeeps.releases p inode hp hremoved hlast x hx]

/-- The sectors that are in use. -/
def usedBit (s : State) (x : ℕ) : Bool := bitmapTest s.mem s.freeMap x == some true

theorem Sectors.usedBit {f : ℕ → Bool} {extra : List (ℕ × ℕ)} {owners : List (ℕ × InodeDisk)}
    (h : Sectors s f extra owners) : ∀ x < s.capacity, f x = FileSys.usedBit s x := by
  intro x hx
  rw [FileSys.usedBit, bitmapTest_eq h.bits hx]
  cases f x <;> rfl

/-- In every run on a formatted disk, `filesys_create` returns. Where it fails, the entries of the root directory
and the contents of the live files are as before, and the free map is, too, exactly if the call does not leak the
data sectors of the file. -/
theorem run_create_fails_iff {disk : Bytes} {capacity : ℕ} {events : List (Event × Reply)}
    (hformats : k.Formats disk capacity s) (hrun : Run EventStep ⟨s, [], []⟩ events st) {name : List UInt8}
    (hname : IsCString name) {size : ℤ} (hmin : 0 ≤ size) (hmax : size ≤ intMax) :
    ∃ ok s', filesysCreate st.fs name size = some (ok, s') ∧ (ok = false →
      SameEntries (diskInode s.disk ROOT_DIR_SECTOR) st.fs.disk s'.disk ∧
      (∀ o, Live (diskInode s.disk FREE_MAP_SECTOR) (diskInode s.disk ROOT_DIR_SECTOR) st.fs o →
        diskInode s'.disk o.1 = o.2 ∧
        (o.1 ≠ FREE_MAP_SECTOR → o.2.contents s'.disk = o.2.contents st.fs.disk)) ∧
      ((∀ x < st.fs.capacity, bitmapTest s'.mem s'.freeMap x = bitmapTest st.fs.mem st.fs.freeMap x) ↔
        ¬Leaks (diskInode s.disk ROOT_DIR_SECTOR) st.fs (usedBit st.fs) name size (createCalls st.fs))) := by
  obtain ⟨b, hsound⟩ := run_sound hrun hformats.formatted.sound
  obtain ⟨ok, s', b', hcreate, hvolume, hends⟩ := hsound.volume.filesysCreate hname hmin hmax
  refine ⟨ok, s', hcreate, fun hfail ↦ ?_⟩
  obtain ⟨howners, hkeeps, hbits⟩ := hends.fails hfail
  have hsectors := hsound.volume.sectors
  refine ⟨?_, fun o ho ↦ ⟨?_, fun hne ↦ ?_⟩, ?_⟩
  · exact hsectors.sameEntries hsound.volume.rootOwner
      (hkeeps _ hsound.volume.rootOwner (show ROOT_DIR_SECTOR ≠ FREE_MAP_SECTOR by decide))
  · exact hvolume.sectors.stored o (howners ▸ hsound.volume.live o ho)
  · refine List.map_congr_left fun pos hpos ↦ ?_
    exact hsectors.sameBytes (hsound.volume.live o ho) (hkeeps o (hsound.volume.live o ho) hne)
      (List.mem_range.mp hpos)
  · rw [leaks_iff, ← supplied_congr hsectors.usedBit, ← leaks_iff, ← hbits]
    refine forall₂_congr fun x hx ↦ ?_
    rw [bitmapTest_eq hsectors.bits hx, bitmapTest_eq hvolume.sectors.bits (hends.evolves.capacity ▸ hx),
      Option.some.injEq]

theorem run_create_fails_iff_ample : ∃ (st : Session) (ok : Bool) (s' : State), filesysCreate st.fs [98] 5 = some (ok, s') := by
  obtain ⟨s, reply, st, st', hformats, hcreate, hrestart⟩ := exists_events
  obtain ⟨ok, s', hcall, -⟩ := run_create_fails_iff hformats (.cons hcreate (.cons hrestart (.nil st')))
    (show IsCString [98] by decide) (show (0 : ℤ) ≤ 5 by decide) (by decide)
  exact ⟨st', ok, s', hcall⟩

/-- In every run on a formatted disk, `filesys_create` succeeds exactly if there are memory and sectors for the
file and `dir_add` finds a place for its name. Then the name is that of a new file with zeros, and all other
entries and the contents of all other files are as before. -/
theorem run_create_iff {disk : Bytes} {capacity : ℕ} {events : List (Event × Reply)}
    (hformats : k.Formats disk capacity s) (hrun : Run EventStep ⟨s, [], []⟩ events st) {name : List UInt8}
    (hname : IsCString name) {size : ℤ} (hmin : 0 ≤ size) (hmax : size ≤ intMax) :
    ∃ ok s', filesysCreate st.fs name size = some (ok, s') ∧
      (ok = true ↔ Supplied st.fs (usedBit st.fs) size (createCalls st.fs) ∧
        Accepts (diskInode s.disk ROOT_DIR_SECTOR) st.fs name (createCalls st.fs)) ∧
      (ok = true → ∃ j x, j < (diskInode s.disk ROOT_DIR_SECTOR).slots ∧
        (∀ o, Live (diskInode s.disk FREE_MAP_SECTOR) (diskInode s.disk ROOT_DIR_SECTOR) st.fs o → o.1 ≠ x) ∧
        (diskInode s'.disk x).contents s'.disk = List.replicate size.toNat 0 ∧
        (∀ i < (diskInode s.disk ROOT_DIR_SECTOR).slots, (diskInode s.disk ROOT_DIR_SECTOR).entry s'.disk i =
          if i = j then some (name, x) else (diskInode s.disk ROOT_DIR_SECTOR).entry st.fs.disk i) ∧
        ∀ o, Live (diskInode s.disk FREE_MAP_SECTOR) (diskInode s.disk ROOT_DIR_SECTOR) st.fs o →
          diskInode s'.disk o.1 = o.2 ∧
          (ROOT_DIR_SECTOR < o.1 → o.2.contents s'.disk = o.2.contents st.fs.disk)) := by
  obtain ⟨b, hsound⟩ := run_sound hrun hformats.formatted.sound
  obtain ⟨ok, s', b', hcreate, hvolume, hends⟩ := hsound.volume.filesysCreate hname hmin hmax
  have hsectors := hsound.volume.sectors
  refine ⟨ok, s', hcreate, ?_, fun hok ↦ ?_⟩
  · rw [← supplied_congr hsectors.usedBit]
    exact hends.exact
  · obtain ⟨j, x, d, hadds⟩ := hends.adds hok
    have hmem : ∀ o ∈ b.owners, o ∈ b'.owners := fun o ho ↦ hadds.owners ▸ List.mem_cons_of_mem _ ho
    have hdisk : diskInode s'.disk x = d :=
      hvolume.sectors.stored (x, d) (hadds.owners ▸ List.mem_cons_self)
    refine ⟨j, x, hadds.placed.1, fun o ho ↦ hadds.fresh o (hsound.volume.live o ho), ?_, hadds.entries,
      fun o ho ↦ ⟨?_, fun huser ↦ ?_⟩⟩
    · rw [hdisk, InodeDisk.contents, hadds.length]
      refine List.eq_replicate_iff.mpr ⟨by rw [List.length_map, List.length_range], fun byte hbyte ↦ ?_⟩
      obtain ⟨pos, hpos, rfl⟩ := List.mem_map.mp hbyte
      exact hadds.zeros pos (hadds.length ▸ List.mem_range.mp hpos)
    · exact hvolume.sectors.stored o (hmem o (hsound.volume.live o ho))
    · refine List.map_congr_left fun pos hpos ↦ ?_
      exact hsectors.sameBytes (hsound.volume.live o ho) (hadds.users o (hsound.volume.live o ho) huser)
        (List.mem_range.mp hpos)

theorem run_create_iff_ample : ∃ (st : Session) (root : InodeDisk) (ok : Bool) (s' : State), filesysCreate st.fs [98] 5 = some (ok, s') ∧
    (ok = true ↔ Supplied st.fs (usedBit st.fs) 5 (createCalls st.fs) ∧
      Accepts root st.fs [98] (createCalls st.fs)) := by
  obtain ⟨s, reply, st, st', hformats, hcreate, hrestart⟩ := exists_events
  obtain ⟨ok, s', hcall, hiff, -⟩ := run_create_iff hformats (.cons hcreate (.cons hrestart (.nil st')))
    (show IsCString [98] by decide) (show (0 : ℤ) ≤ 5 by decide) (by decide)
  exact ⟨st', _, ok, s', hcall, hiff⟩

/-! ### Starts -/

/-- After any run on a formatted disk, the machine can start again, if there is memory. The start changes nothing
on the disk, no file is open, and all sectors are in use that were. -/
theorem run_restart {disk : Bytes} {capacity : ℕ} {events : List (Event × Reply)} {k' : Kernel} (down : Bool)
    (hformats : k.Formats disk capacity s) (hrun : Run EventStep ⟨s, [], []⟩ events st)
    (hblocks : Blocks k'.block k'.bits st.fs.capacity) :
    ((∀ i < 3, k'.mallocs i = true) → ∃ st', EventStep st (.restart down k', .done) st') ∧
    ∀ st', EventStep st (.restart down k', .done) st' → st'.fs.disk = st.fs.disk ∧ st'.files = [] ∧
      (∀ x < st.fs.capacity, bitmapTest st.fs.mem st.fs.freeMap x = some true →
        bitmapTest st'.fs.mem st'.fs.freeMap x = some true) ∧
      SectorsApart (diskInode s.disk FREE_MAP_SECTOR) (diskInode s.disk ROOT_DIR_SECTOR) st' := by
  obtain ⟨b, hsound⟩ := run_sound hrun hformats.formatted.sound
  refine ⟨fun hmemory ↦ hsound.starts hblocks hmemory down, fun st' hstep ↦ ?_⟩
  obtain ⟨b', hmounts, heq⟩ := hsound.restart hstep
  have hsound' := hmounts.sound
  rw [heq]
  refine ⟨hmounts.disk, rfl, fun x hx hused ↦ ?_, hsound'.sectorsApart⟩
  rw [bitmapTest_eq hsound.volume.sectors.bits hx, Option.some.injEq] at hused
  have hbits := hsound'.volume.sectors.bits
  rw [bitmapTest_eq hbits (hmounts.capacity ▸ hx), Option.some.injEq, hmounts.bits x hx]
  exact (hsound.volume.sectors.durable _ hsound.volume.mapOwner x hx hused).2

theorem run_restart_ample : ∃ st st', EventStep st (.restart false .ample, .done) st' ∧ st'.fs.disk = st.fs.disk ∧
    st'.files = [] := by
  obtain ⟨s, reply, st, st', hformats, hcreate, hrestart⟩ := exists_events
  have hrun : Run EventStep ⟨s, [], []⟩ [_] st := .single hcreate
  obtain ⟨hstarts, hkeeps⟩ := run_restart false hformats hrun hrestart.1
  obtain ⟨st₁, hstart⟩ := hstarts fun _ _ ↦ rfl
  obtain ⟨hdisk, hfiles, -⟩ := hkeeps st₁ hstart
  exact ⟨st, st₁, hstart, hdisk, hfiles⟩

end Jungle.FileSys
