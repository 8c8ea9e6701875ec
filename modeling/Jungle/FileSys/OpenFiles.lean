import Jungle.FileSys.Handles

/-!
# Files of a volume

`file_open`, `file_close` and the writes to files on a sound volume. A file that is not the free map's is on an
inode that the root directory names or has named, so that what is written to it changes neither the entries
of the root directory nor an inode.
-/

set_option autoImplicit false
set_option relaxedAutoImplicit false

namespace Jungle.FileSys

open Jungle.Lib Jungle.Bitmap

variable {map root : InodeDisk} {s s' : State} {b : Books} {p f : ℕ} {inode : Inode} {file : File}
  {o : ℕ × InodeDisk}

/-- The books are those of the files in the state. -/
structure Books.Of (b : Books) (s : State) (files held : List ℕ) : Prop where
  cells : b.cells = s.files
  files : b.files = files
  held : b.held = held

theorem Volume.mapCell (h : Volume map root s b) {m : ℕ} (hm : s.freeMapFile = some m) :
    ∃ file, s.files m = some file ∧ b.cells m = some file := by
  obtain ⟨m', file, hm', hfile, hcell, -⟩ := h.mapFile
  obtain rfl := Option.some.inj (hm'.symm.trans hm)
  exact ⟨file, hfile, hcell⟩

/-- What a call of `file_open` does. -/
structure OpensFile (map : InodeDisk) (s s' : State) (p : ℕ) (result : Option ℕ) : Prop where
  evolves : Evolves s s'
  writes : WritesTo map s.disk s'.disk
  files : s'.files = result.elim s.files fun f ↦ s.files.put f ⟨p, 0, false⟩
  fresh : ∀ f ∈ result, s.files f = none ∧ s'.inodes = s.inodes
  succeeds : result.isSome = s.mallocs 0

/-- `file_open` turns a reference into a file, or gives it back if there is no memory. -/
theorem Volume.fileOpen (h : Volume map root s b) {files held : List ℕ} (hof : b.Of s files held)
    (hp : s.inodes p = some inode) (hheld : p ∈ held) (huser : ROOT_DIR_SECTOR < inode.sector) :
    ∃ result s' b', FileSys.fileOpen s (some p) = some (result, s') ∧ Volume map root s' b' ∧
      b'.Of s' (result.toList ++ files) (held.erase p) ∧ OpensFile map s s' p result := by
  obtain ⟨hcells, rfl, rfl⟩ := hof
  cases hok : s.mallocs 0 with
  | true =>
    have hnext := (h.counted.fresh s.next (Nat.le_refl _)).2
    have hopen : FileSys.fileOpen s (some p) = some (some s.next, s.opened ⟨p, 0, false⟩) := by
      simp only [FileSys.fileOpen, malloc, hok]
      rfl
    have hvolume := (h.transfer 1).withFiles (s.files.put s.next ⟨p, 0, false⟩) _
      (h.counted.open_file hheld 0)
      (Store.forall_put rfl fun f _ file hf ↦ h.writable f file hf) (fun m hm ↦ ?_)
      (Store.forall_put (fun _ o ho ↦ ?_) fun f _ file hf ↦ h.users f file hf)
    · refine ⟨some s.next, _, _, hopen, hvolume, ⟨?_, rfl, rfl⟩,
        ⟨⟨Nat.le_succ _, fun _ _ _ ↦ id, rfl, rfl, 1, fun _ ↦ rfl⟩, writesTo_refl _ _, rfl, ?_, hok.symm⟩⟩
      · change b.cells.put s.next _ = s.files.put s.next _
        rw [hcells]
      · rintro f ⟨⟩
        exact ⟨hcells ▸ hnext, rfl⟩
    · obtain ⟨file, hfile, hcell⟩ := h.mapCell hm
      have hne : m ≠ s.next := by
        rintro rfl
        exact Option.some_ne_none _ (hcell.symm.trans hnext)
      exact ⟨Store.put_of_ne _ hne _, Store.put_of_ne _ hne _⟩
    · exact Option.some.inj ((ownerOf_eq hp).symm.trans ho) ▸ huser
  | false =>
    obtain ⟨s', b', hclose, hvolume, hcloses⟩ := (h.transfer 1).inodeClose hheld hp
    refine ⟨none, s', b', ?_, hvolume, ⟨?_, hcloses.opened, hcloses.held⟩,
      ⟨(evolves_transfer s s.disk 1).trans hcloses.evolves, hcloses.writes, hcloses.files,
        fun f hf ↦ absurd hf (Option.not_mem_none f), hok.symm⟩⟩
    · have hopen : FileSys.fileOpen s (some p) =
          (FileSys.inodeClose (s.transfer s.disk 1) (some p)).map (none, ·) := by
        simp only [FileSys.fileOpen, malloc, hok]
        rfl
      rw [hopen, hclose, Option.map_some]
    · rw [hcloses.cells, hcells, hcloses.files]
      rfl

/-- What a call of `file_close` does. -/
structure ClosesFile (map : InodeDisk) (s s' : State) (b' : Books) (f : ℕ) (file : File) (inode : Inode) :
    Prop where
  evolves : Evolves s s'
  writes : WritesTo map s.disk s'.disk
  files : s'.files = s.files.free f
  survives : ∀ q o, ownerOf s.inodes q = some o → (q = file.inode → inode.openCnt ≠ 1) →
    ownerOf s'.inodes q = some o
  releases : inode.openCnt = 1 → inode.removed = true →
    ∀ x, Covered (rangesOf (inode.sector, inode.data)) x → b'.bits x = false

/-- `file_close` gives the file and its reference back. -/
theorem Volume.fileClose (h : Volume map root s b) {files held : List ℕ} (hof : b.Of s files held)
    (hf : s.files f = some file) (hp : s.inodes file.inode = some inode)
    (hne : s.freeMapFile ≠ some f) : ∃ s' b', FileSys.fileClose s (some f) = some s' ∧
      Volume map root s' b' ∧ b'.Of s' (files.erase f) held ∧
      ClosesFile map s s' b' f file inode := by
  obtain ⟨hcells, rfl, rfl⟩ := hof
  have hcell : b.cells f = some file := hcells ▸ hf
  have hallow : fileAllowWrite s f = some s := by
    simp only [fileAllowWrite, hf, Option.bind_eq_bind, Option.bind_some, h.writable f file hcell,
      Bool.false_eq_true, if_false, Option.pure_def]
  have hmap : ∀ m, s.freeMapFile = some m → m ≠ f := by
    rintro m hm rfl
    exact hne hm
  have h₁ : Volume map root s { b with
      cells := b.cells.free f
      files := b.files.erase f
      held := file.inode :: b.held } :=
    h.withFiles s.files s.next
      (h.counted.close_file hcell (h.writable f file hcell))
      (Store.forall_free fun f _ file hf ↦ h.writable f file hf)
      (fun m hm ↦ ⟨rfl, Store.free_of_ne _ (hmap m hm)⟩)
      (Store.forall_free fun f _ file hf ↦ h.users f file hf)
  obtain ⟨s₂, b', hclose, h₂, hcloses⟩ := h₁.inodeClose List.mem_cons_self hp
  have hmap₂ : s₂.freeMapFile = s.freeMapFile := hcloses.evolves.mapFile
  have h₃ := h₂.withFiles (s₂.files.free f) s₂.next h₂.counted h₂.writable
    (fun m hm ↦ ⟨Store.free_of_ne _ (hmap m (hmap₂ ▸ hm)), rfl⟩) h₂.users
  refine ⟨_, b', ?_, h₃, ⟨?_, hcloses.opened, ?_⟩, ⟨⟨hcloses.evolves.next, hcloses.evolves.same, hmap₂,
      hcloses.evolves.capacity, hcloses.evolves.mallocs⟩, hcloses.writes,
      congrArg (fun files : Store File ↦ files.free f) hcloses.files, hcloses.survives, hcloses.releases⟩⟩
  · simp only [FileSys.fileClose, hallow, hf, hclose, Option.bind_eq_bind, Option.bind_some,
      Option.pure_def]
  · rw [hcloses.cells, hcloses.files, hcells]
  · rw [hcloses.held, List.erase_cons_head]

/-- Writing to an inode that is neither the free map's nor the root directory's. -/
theorem Volume.inodeWrite (h : Volume map root s b) (hp : s.inodes p = some inode)
    (huser : ROOT_DIR_SECTOR < inode.sector) (buffer : Bytes) (size offset : ℕ) :
    ∃ n calls, inodeWriteAt s p buffer size offset = some (n, s.transfer
        (s.disk.copy (inode.data.addr offset) buffer 0 n) calls) ∧
      Volume map root (s.transfer (s.disk.copy (inode.data.addr offset) buffer 0 n) calls) b ∧
      Moves inode.data (s.mallocs 0) false size offset n calls := by
  obtain ⟨n, calls, hwrite, hmoves⟩ := inodeWriteAt_spec hp (h.denyWriteCnt hp)
    (h.sectors.fits (h.owned (ownerOf_eq hp))) buffer size offset
  set disk := s.disk.copy (inode.data.addr offset) buffer 0 n with hdisk
  have hwrites : WritesTo inode.data s.disk disk := by
    have hle := hmoves.le
    exact writesTo_copy _ _ _ (by unfold InodeDisk.avail at hle; omega)
  have ho := h.owned (ownerOf_eq hp)
  have hne : (inode.sector, inode.data) ≠ (ROOT_DIR_SECTOR, root) := fun heq ↦
    Nat.ne_of_gt huser (Prod.mk.inj heq).1
  have hneMap : (inode.sector, inode.data) ≠ (FREE_MAP_SECTOR, map) := fun heq ↦
    Nat.ne_of_gt (Nat.lt_trans Nat.one_pos huser) (Prod.mk.inj heq).1
  refine ⟨n, calls, hwrite, h.mapped (m := s.mem) ?_ h.live ?_, hmoves⟩
  · exact h.sectors.step (s.transfer disk calls) rfl h.sectors.bits
      (fun o' ho' ↦ h.sectors.sameSector ho hwrites ho') (fun x hx ↦ (h.sectors.ledger.usable x hx).2)
      (h.sectors.durable_of h.mapOwner (h.sectors.sameBits h.mapOwner fun y hy ↦
        h.sectors.sameData ho h.mapOwner hneMap hwrites hy))
  · exact h.sectors.sameEntries h.rootOwner fun y hy ↦ h.sectors.sameData ho h.rootOwner hne hwrites hy

/-- The position of a file changes. -/
theorem Volume.seek (h : Volume map root s b) {files held : List ℕ} (hof : b.Of s files held)
    (hf : s.files f = some file) (hp : s.inodes file.inode = some inode)
    (hne : s.freeMapFile ≠ some f) (pos : ℕ) :
    ∃ b', Volume map root (s.withFile f { file with pos := pos }) b' ∧
      b'.Of (s.withFile f { file with pos := pos }) files held := by
  obtain ⟨hcells, rfl, rfl⟩ := hof
  have hcell : b.cells f = some file := hcells ▸ hf
  have hcounted := h.counted.put_file hcell (unremoved_eq hp) { file with pos := pos } rfl _ rfl
  rw [Store.put_eq_self (unremoved_eq hp)] at hcounted
  refine ⟨_, h.withFiles (s.files.put f { file with pos := pos }) s.next hcounted
    (Store.forall_put (h.writable f file hcell) fun f _ file hf ↦ h.writable f file hf)
    (fun m hm ↦ ?_) (Store.forall_put (h.users f file hcell) fun f _ file hf ↦ h.users f file hf),
    ⟨?_, rfl, rfl⟩⟩
  · have hm' : m ≠ f := by
      rintro rfl
      exact hne hm
    exact ⟨Store.put_of_ne _ hm' _, Store.put_of_ne _ hm' _⟩
  · change b.cells.put f _ = s.files.put f _
    rw [hcells]

end Jungle.FileSys
