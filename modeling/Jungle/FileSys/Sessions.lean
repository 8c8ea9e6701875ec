import Jungle.FileSys.Creation
import Jungle.FileSys.DenialRuns
import Jungle.FileSys.OpenRemove

/-!
# Calls on a volume

Any calls of `filesys_create`, `filesys_open`, `file_close`, `filesys_remove`, `inode_reopen`, `inode_close`,
`file_seek` and of those that read and write files, with any calls of `malloc` failing. Every call that callers
may make returns and keeps the volume sound (`Session.Sound.call`).
-/

set_option autoImplicit false
set_option relaxedAutoImplicit false

namespace Jungle.FileSys

open Jungle.Lib Jungle.Bitmap

/-- The calls. -/
inductive FsCall
  | filesysCreate (name : List UInt8) (initialSize : ℤ)
  | filesysOpen (name : List UInt8)
  | filesysRemove (name : List UInt8)
  | fileClose (file : Option ℕ)
  | inodeReopen (inode : ℕ)
  | inodeClose (inode : ℕ)
  | fileSeek (file : ℕ) (newPos : ℤ)
  | fileRead (file : ℕ) (buffer : Bytes) (size : ℕ)
  | fileReadAt (file : ℕ) (buffer : Bytes) (size fileOfs : ℕ)
  | fileWrite (file : ℕ) (buffer : Bytes) (size : ℕ)
  | fileWriteAt (file : ℕ) (buffer : Bytes) (size fileOfs : ℕ)

/-- What a call returns: nothing, whether it has succeeded, a file, or the number of bytes that it has written
or read, and the buffer. -/
inductive Reply
  | done
  | success (ok : Bool)
  | file (result : Option ℕ)
  | count (n : ℕ)
  | bytes (n : ℕ) (buffer : Bytes)

namespace FsCall

/-- The reply to a call and the state after it. -/
def exec (s : State) : FsCall → Option (Reply × State)
  | filesysCreate name initialSize =>
    (FileSys.filesysCreate s name initialSize).map fun (ok, s) ↦ (.success ok, s)
  | filesysOpen name => (FileSys.filesysOpen s name).map fun (file, s) ↦ (.file file, s)
  | filesysRemove name => (FileSys.filesysRemove s name).map fun (ok, s) ↦ (.success ok, s)
  | fileClose file => (FileSys.fileClose s file).map (.done, ·)
  | inodeReopen inode => (FileSys.inodeReopen s (some inode)).map (.done, ·)
  | inodeClose inode => (FileSys.inodeClose s (some inode)).map (.done, ·)
  | fileSeek file newPos => (FileSys.fileSeek s file newPos).map (.done, ·)
  | fileRead file buffer size =>
    (FileSys.fileRead s file buffer size).map fun (n, buffer, s) ↦ (.bytes n buffer, s)
  | fileReadAt file buffer size fileOfs =>
    (FileSys.fileReadAt s file buffer size fileOfs).map fun (n, buffer, s) ↦ (.bytes n buffer, s)
  | fileWrite file buffer size => (FileSys.fileWrite s file buffer size).map fun (n, s) ↦ (.count n, s)
  | fileWriteAt file buffer size fileOfs =>
    (FileSys.fileWriteAt s file buffer size fileOfs).map fun (n, s) ↦ (.count n, s)

/-- A reference to an inode that a caller has. -/
def Refers (st : Session) (p : ℕ) : Prop :=
  p ∈ st.held ∨ ∃ f ∈ st.files, ∃ file, st.fs.files f = some file ∧ file.inode = p

/-- What callers may do: names are C strings, sizes and positions are not negative, files are open, and references
are given back once. -/
def Allowed (st : Session) : FsCall → Prop
  | filesysCreate name initialSize => IsCString name ∧ 0 ≤ initialSize ∧ initialSize ≤ intMax
  | filesysOpen name | filesysRemove name => IsCString name
  | fileClose file => ∀ f ∈ file, f ∈ st.files
  | inodeReopen inode => Refers st inode
  | inodeClose inode => inode ∈ st.held
  | fileSeek file newPos => file ∈ st.files ∧ 0 ≤ newPos
  | fileRead file _ _ | fileReadAt file _ _ _ | fileWrite file _ _ | fileWriteAt file _ _ _ =>
    file ∈ st.files

/-- The state of a run after a call. -/
def after (st : Session) (reply : Reply) (s : State) : FsCall → Session
  | filesysOpen _ => ⟨s, match reply with
    | .file result => result.toList ++ st.files
    | _ => st.files, st.held⟩
  | fileClose file => ⟨s, Call.drop st.files file, st.held⟩
  | inodeReopen inode => ⟨s, st.files, inode :: st.held⟩
  | inodeClose inode => ⟨s, st.files, st.held.erase inode⟩
  | _ => ⟨s, st.files, st.held⟩

/-- The call gives a reference to an inode back. -/
def GivesBack (st : Session) (p : ℕ) : FsCall → Prop
  | fileClose file => ∃ f ∈ file, ∃ file, st.fs.files f = some file ∧ file.inode = p
  | inodeClose inode => inode = p
  | _ => False

/-- The call closes an inode that has no other opener. -/
def ClosesLast (st : Session) (p : ℕ) (call : FsCall) : Prop :=
  call.GivesBack st p ∧ ∃ inode, st.fs.inodes p = some inode ∧ inode.openCnt = 1

end FsCall

variable {map root : InodeDisk} {st st' : Session} {s s' : State} {b b' : Books} {p f : ℕ}

/-! ### The invariant -/

/-- The volume is sound, and the books are those of the open files and the references. -/
structure Session.Sound (map root : InodeDisk) (st : Session) (b : Books) : Prop where
  volume : Volume map root st.fs b
  books : ∃ m, st.fs.freeMapFile = some m ∧ b.Of st.fs (st.files ++ [m]) st.held

/-- Inodes stay open whose openers stay. -/
theorem Volume.stays (h : Volume map root s b) (h' : Volume map root s' b')
    (hevolves : Evolves s s')
    (hfiles : ∀ f file, b.cells f = some file → ∃ file', b'.cells f = some file' ∧
      file'.inode = file.inode) (hheld : ∀ p ∈ b.held, p ∈ b'.held) {o : ℕ × InodeDisk}
    (hp : ownerOf s.inodes p = some o) : ownerOf s'.inodes p = some o := by
  obtain ⟨inode, hinode, -⟩ := exists_of_ownerOf hp
  have hcounts := h.counted.counts p _ (unremoved_eq hinode)
  have hopen : (unremoved s'.inodes p).isSome := by
    have hpos := hcounts.pos
    rw [hcounts.openCnt] at hpos
    rcases Nat.eq_zero_or_pos (b.cells.census b.files (OnInode p)) with hzero | hcensus
    · rw [hzero] at hpos
      exact h'.counted.heldOpen p (hheld p (List.count_pos_iff.mp (by omega)))
    · obtain ⟨f, -, file, hf, hon⟩ := Store.census_pos_iff.mp hcensus
      obtain ⟨file', hf', heq⟩ := hfiles f file hf
      have hopener := h'.counted.opener f file' hf'
      rwa [heq, (onInode_iff p file).mp hon] at hopener
  rw [isSome_unremoved, ← isSome_ownerOf] at hopen
  obtain ⟨o', ho'⟩ := Option.isSome_iff_exists.mp hopen
  rw [ho', ← hevolves.same p (h.lt_next hp) o' ho', hp]

/-- What a call keeps: inodes stay open unless it closes them last, and the sectors of one that has been removed
and is closed last are free after it. -/
structure CallKeeps (st : Session) (call : FsCall) (s : State) (b' : Books) : Prop where
  evolves : Evolves st.fs s
  survives : ∀ p o, ownerOf st.fs.inodes p = some o → ¬call.ClosesLast st p →
    ownerOf s.inodes p = some o
  releases : ∀ p inode, st.fs.inodes p = some inode → inode.removed = true → call.ClosesLast st p →
    ∀ x, Covered (rangesOf (inode.sector, inode.data)) x → b'.bits x = false

/-- Bytes have been moved between a file and a buffer, and the position of the file has been set. -/
structure MovesFile (s s' : State) (f : ℕ) (file : File) (inode : Inode) (size offset n pos : ℕ)
    (disk : Bytes) : Prop where
  found : s.files f = some file
  onInode : s.inodes file.inode = some inode
  moved : ∃ calls, Moves inode.data (s.mallocs 0) false size offset n calls ∧
    s' = (s.transfer disk calls).withFile f { file with pos := pos }

/-- What a call has done, by its reply. -/
def FsCall.Outcome (map root : InodeDisk) (st : Session) (b : Books) (s : State) (b' : Books) :
    FsCall → Reply → Prop
  | filesysCreate name initialSize, .success ok =>
    CreateEnds root st.fs s b b' name initialSize (createCalls st.fs) ok
  | filesysOpen name, .file result => OpensName map root st.fs s name result
  | filesysRemove name, .success ok => RemovesName root st.fs s b b' name ok
  | fileClose file, .done =>
    WritesTo map st.fs.disk s.disk ∧ s.files = file.elim st.fs.files st.fs.files.free
  | inodeReopen _, .done | inodeClose _, .done =>
    WritesTo map st.fs.disk s.disk ∧ s.files = st.fs.files
  | fileSeek f newPos, .done => ∃ file inode,
    MovesFile st.fs s f file inode 0 0 0 newPos.toNat st.fs.disk
  | fileRead f buffer size, .bytes n buffer' => ∃ file inode,
    MovesFile st.fs s f file inode size file.pos n (file.pos + n) st.fs.disk ∧
      buffer' = buffer.copy 0 st.fs.disk (inode.data.addr file.pos) n
  | fileReadAt f buffer size fileOfs, .bytes n buffer' => ∃ file inode,
    MovesFile st.fs s f file inode size fileOfs n file.pos st.fs.disk ∧
      buffer' = buffer.copy 0 st.fs.disk (inode.data.addr fileOfs) n
  | fileWrite f buffer size, .count n => ∃ file inode,
    MovesFile st.fs s f file inode size file.pos n (file.pos + n)
      (st.fs.disk.copy (inode.data.addr file.pos) buffer 0 n)
  | fileWriteAt f buffer size fileOfs, .count n => ∃ file inode,
    MovesFile st.fs s f file inode size fileOfs n file.pos
      (st.fs.disk.copy (inode.data.addr fileOfs) buffer 0 n)
  | _, _ => False

/-- The books of another state with the same files and references. -/
theorem Books.Same.of {files held : List ℕ} (h : b.Same b') (hof : b.Of s files held)
    (hfiles : s'.files = s.files) : b'.Of s' files held :=
  ⟨(h.cells.trans hof.cells).trans hfiles.symm, h.files.trans hof.files, h.held.trans hof.held⟩

/-- A call that gives no reference back and keeps the files. -/
theorem CallKeeps.of_stays {call : FsCall} {files files' held held' : List ℕ}
    (h : Volume map root st.fs b) (h' : Volume map root s' b') (hof : b.Of st.fs files held)
    (hof' : b'.Of s' files' held') (hcall : ∀ p, ¬call.GivesBack st p) (hevolves : Evolves st.fs s')
    (hfiles : ∀ f file, st.fs.files f = some file → ∃ file', s'.files f = some file' ∧
      file'.inode = file.inode) (hheld : ∀ p ∈ held, p ∈ held') : CallKeeps st call s' b' where
  evolves := hevolves
  survives p o hp _ := by
    refine h.stays h' hevolves (fun f file hf ↦ ?_) (fun p hp ↦ ?_) hp
    · rw [hof.cells] at hf
      rw [hof'.cells]
      exact hfiles f file hf
    · rw [hof.held] at hp
      rw [hof'.held]
      exact hheld p hp
  releases p _ _ _ hlast := absurd hlast.1 (hcall p)

/-- A file of the callers, and its inode. -/
structure UserFile (s : State) (f : ℕ) (file : File) (inode : Inode) : Prop where
  found : s.files f = some file
  onInode : s.inodes file.inode = some inode
  user : s.freeMapFile ≠ some f ∧ ROOT_DIR_SECTOR < inode.sector

theorem Session.Sound.file (h : st.Sound map root b) (hf : f ∈ st.files) :
    ∃ file inode, UserFile st.fs f file inode := by
  obtain ⟨m, hm, hof⟩ := h.books
  have hmem : f ∈ b.files := hof.files ▸ List.mem_append_left _ hf
  obtain ⟨file, hcell⟩ := Option.isSome_iff_exists.mp ((h.volume.counted.mem_files f).mp hmem)
  have hopener := h.volume.counted.opener f file hcell
  rw [isSome_unremoved] at hopener
  obtain ⟨inode, hinode⟩ := Option.isSome_iff_exists.mp hopener
  have hne : st.fs.freeMapFile ≠ some f := by
    rw [hm]
    rintro ⟨⟩
    have hnodup := h.volume.counted.nodup
    rw [hof.files] at hnodup
    exact (List.disjoint_of_nodup_append hnodup) hf (List.mem_singleton_self _)
  exact ⟨file, inode, hof.cells ▸ hcell, hinode, hne, h.volume.users f file hcell hne _ (ownerOf_eq hinode)⟩

/-- A file has been read or written, and its position has been set. -/
theorem Session.Sound.move (h : st.Sound map root b) {file : File} {inode : Inode}
    (hfile : UserFile st.fs f file inode) {disk : Bytes} {calls : ℕ}
    (hvolume : Volume map root (st.fs.transfer disk calls) b) (pos : ℕ) (call : FsCall)
    (hcall : ∀ p, ¬call.GivesBack st p) : ∃ b', Session.Sound map root
      ⟨(st.fs.transfer disk calls).withFile f { file with pos := pos }, st.files, st.held⟩ b' ∧
      CallKeeps st call ((st.fs.transfer disk calls).withFile f { file with pos := pos }) b' := by
  obtain ⟨m, hm, hof⟩ := h.books
  obtain ⟨b', hvolume', hof'⟩ := hvolume.seek ⟨hof.cells, hof.files, hof.held⟩ hfile.found hfile.onInode
    hfile.user.1 pos
  have hevolves : Evolves st.fs ((st.fs.transfer disk calls).withFile f { file with pos := pos }) :=
    evolves_of_eq rfl rfl rfl rfl ⟨calls, fun _ ↦ rfl⟩
  refine ⟨b', ⟨hvolume', m, hm, hof'⟩, .of_stays h.volume hvolume' hof hof' hcall hevolves
    (fun g file' hg ↦ ?_) fun _ ↦ id⟩
  change ∃ file'', st.fs.files.put f _ g = some file'' ∧ _
  by_cases hgf : g = f
  · subst hgf
    obtain rfl := Option.some.inj (hfile.found.symm.trans hg)
    exact ⟨_, Store.put_self .., rfl⟩
  · exact ⟨file', (Store.put_of_ne _ hgf _).trans hg, rfl⟩

/-- The state where a file is put back as it was. -/
theorem withFile_self {file : File} {disk : Bytes} {calls : ℕ} (hf : s.files f = some file) :
    (s.transfer disk calls).withFile f { file with pos := file.pos } = s.transfer disk calls := by
  unfold State.withFile
  rw [show (s.transfer disk calls).files = s.files from rfl, Store.put_eq_self hf]
  rfl

theorem moves_none (data : InodeDisk) (ok : Bool) : Moves data ok false 0 0 0 0 :=
  Moves.stop (Nat.zero_min _) ok false

/-- A call that callers may make returns and keeps the volume sound. -/
theorem Session.Sound.call (h : st.Sound map root b) (call : FsCall) (hallowed : call.Allowed st) :
    ∃ reply s b', call.exec st.fs = some (reply, s) ∧ (call.after st reply s).Sound map root b' ∧
      CallKeeps st call s b' ∧ call.Outcome map root st b s b' reply := by
  obtain ⟨m, hm, hof⟩ := h.books
  have hvolume := h.volume
  cases call with
  | filesysCreate name initialSize =>
    obtain ⟨hstring, hmin, hmax⟩ := hallowed
    obtain ⟨ok, s', b', hcreate, hvolume', hends⟩ := hvolume.filesysCreate hstring hmin hmax
    have hof' := hends.same.of hof hends.files
    refine ⟨.success ok, s', b', ?_, ⟨hvolume', m, hends.evolves.mapFile.trans hm, hof'⟩, ?_, hends⟩
    · rw [FsCall.exec, hcreate]
      rfl
    · exact .of_stays hvolume hvolume' hof hof' (fun _ ↦ id) hends.evolves
        (fun f file hf ↦ ⟨file, hends.files ▸ hf, rfl⟩) fun _ ↦ id
  | filesysOpen name =>
    obtain ⟨result, s', b', hopen, hvolume', hof', hopens⟩ := hvolume.filesysOpen hof name
    refine ⟨.file result, s', b', ?_, ⟨hvolume', m, hopens.evolves.mapFile.trans hm, ?_⟩, ?_, hopens⟩
    · rw [FsCall.exec, hopen]
      rfl
    · rwa [← List.append_assoc] at hof'
    · refine .of_stays hvolume hvolume' hof hof' (fun _ ↦ id) hopens.evolves (fun f file hf ↦ ?_) fun _ ↦ id
      have hne : st.fs.files f ≠ none := by
        rw [hf]
        exact Option.some_ne_none file
      exact ⟨file, (hopens.keeps hne).trans hf, rfl⟩
  | filesysRemove name =>
    obtain ⟨ok, s', b', hremove, hvolume', hremoves⟩ := hvolume.filesysRemove name
    have hof' := hremoves.same.of hof hremoves.files
    refine ⟨.success ok, s', b', ?_, ⟨hvolume', m, hremoves.evolves.mapFile.trans hm, hof'⟩, ?_, hremoves⟩
    · rw [FsCall.exec, hremove]
      rfl
    · exact .of_stays hvolume hvolume' hof hof' (fun _ ↦ id) hremoves.evolves
        (fun f file hf ↦ ⟨file, hremoves.files ▸ hf, rfl⟩) fun _ ↦ id
  | fileClose file =>
    cases file with
    | none =>
      refine ⟨.done, st.fs, b, rfl, ⟨hvolume, m, hm, hof⟩,
        ⟨evolves_of_eq rfl rfl rfl rfl ⟨0, fun _ ↦ rfl⟩, fun _ _ hp _ ↦ hp, fun p _ _ _ hlast ↦ ?_⟩,
        writesTo_refl _ _, rfl⟩
      obtain ⟨f, hf, -⟩ := hlast.1
      exact absurd hf (Option.not_mem_none f)
    | some f =>
      have hmem := hallowed f rfl
      obtain ⟨file, inode, hfile⟩ := h.file hmem
      obtain ⟨s', b', hclose, hvolume', hof', hcloses⟩ :=
        hvolume.fileClose hof hfile.found hfile.onInode hfile.user.1
      refine ⟨.done, s', b', ?_, ⟨hvolume', m, hcloses.evolves.mapFile.trans hm, ?_⟩,
        ⟨hcloses.evolves, fun p o hp hlast ↦ hcloses.survives p o hp fun heq hopen ↦ hlast ?_,
          fun p inode' hp hremoved hlast ↦ ?_⟩, hcloses.writes, hcloses.files⟩
      · rw [FsCall.exec, hclose]
        rfl
      · rw [List.erase_append_left _ hmem] at hof'
        exact hof'
      · exact ⟨⟨f, rfl, file, hfile.found, heq.symm⟩, inode, heq ▸ hfile.onInode, hopen⟩
      · obtain ⟨⟨f', ⟨⟩, file', hf', rfl⟩, inode'', hinode'', hopen⟩ := hlast
        obtain rfl := Option.some.inj (hfile.found.symm.trans hf')
        obtain rfl := Option.some.inj (hfile.onInode.symm.trans hp)
        obtain rfl := Option.some.inj (hfile.onInode.symm.trans hinode'')
        exact hcloses.releases hopen hremoved
  | inodeReopen p =>
    have hopen : ∃ inode, st.fs.inodes p = some inode := by
      rcases hallowed with hheld | ⟨f, hmem, file, hf, rfl⟩
      · exact hvolume.heldOwner (hof.held ▸ hheld)
      · obtain ⟨file', inode, hfile⟩ := h.file hmem
        obtain rfl := Option.some.inj (hf.symm.trans hfile.found)
        exact ⟨inode, hfile.onInode⟩
    obtain ⟨inode, hinode⟩ := hopen
    have hvolume' := hvolume.reopen hinode
    have hof' : Books.Of { b with held := p :: b.held } (st.fs.withInode p
        { inode with openCnt := inode.openCnt + 1 }) (st.files ++ [m]) (p :: st.held) :=
      ⟨hof.cells, hof.files, congrArg (p :: ·) hof.held⟩
    refine ⟨.done, _, _, ?_, ⟨hvolume', m, hm, hof'⟩, ?_, writesTo_refl _ _, rfl⟩
    · rw [FsCall.exec, inodeReopen_eq hinode]
      rfl
    · exact .of_stays hvolume hvolume' hof hof' (fun _ ↦ id) (evolves_withInode hinode rfl rfl)
        (fun f file hf ↦ ⟨file, hf, rfl⟩) fun _ ↦ List.mem_cons_of_mem p
  | inodeClose p =>
    have hheld : p ∈ b.held := hof.held ▸ hallowed
    obtain ⟨inode, hinode⟩ := hvolume.heldOwner hheld
    obtain ⟨s', b', hclose, hvolume', hcloses⟩ := hvolume.inodeClose hheld hinode
    refine ⟨.done, s', b', ?_, ⟨hvolume', m, hcloses.evolves.mapFile.trans hm,
      (hcloses.cells.trans hof.cells).trans hcloses.files.symm, hcloses.opened.trans hof.files, ?_⟩,
      ⟨hcloses.evolves, fun q o hq hlast ↦ hcloses.survives q o hq fun heq hopen ↦ hlast ?_,
        fun q inode' hq hremoved hlast ↦ ?_⟩, hcloses.writes, hcloses.files⟩
    · rw [FsCall.exec, hclose]
      rfl
    · rw [hcloses.held, hof.held]
      rfl
    · exact ⟨heq.symm, inode, heq ▸ hinode, hopen⟩
    · obtain ⟨rfl, inode'', hinode'', hopen⟩ := hlast
      obtain rfl := Option.some.inj (hinode.symm.trans hq)
      obtain rfl := Option.some.inj (hinode.symm.trans hinode'')
      exact hcloses.releases hopen hremoved
  | fileSeek f newPos =>
    obtain ⟨hmem, hpos⟩ := hallowed
    obtain ⟨file, inode, hfile⟩ := h.file hmem
    obtain ⟨b', hsound, hkeeps⟩ := h.move hfile (hvolume.transfer 0) newPos.toNat
      (.fileSeek f newPos) fun _ ↦ id
    refine ⟨.done, _, b', ?_, hsound, hkeeps, file, inode, hfile.found, hfile.onInode, 0, moves_none _ _, rfl⟩
    simp only [FsCall.exec, FileSys.fileSeek, hfile.found, hpos, if_true, Option.bind_eq_bind, Option.bind_some,
      Option.pure_def]
    rfl
  | fileRead f buffer size =>
    obtain ⟨file, inode, hfile⟩ := h.file hallowed
    obtain ⟨n, calls, hread, hmoves⟩ := inodeReadAt_spec hfile.onInode
      (hvolume.sectors.fits (hvolume.owned (ownerOf_eq hfile.onInode))) buffer size file.pos
    obtain ⟨b', hsound, hkeeps⟩ := h.move hfile (hvolume.transfer calls) (file.pos + n)
      (.fileRead f buffer size) fun _ ↦ id
    refine ⟨.bytes n _, _, b', ?_, hsound, hkeeps, file, inode,
      ⟨hfile.found, hfile.onInode, calls, hmoves, rfl⟩, rfl⟩
    simp only [FsCall.exec, FileSys.fileRead, hfile.found, hread, Option.bind_eq_bind, Option.bind_some,
      Option.pure_def]
    rfl
  | fileReadAt f buffer size fileOfs =>
    obtain ⟨file, inode, hfile⟩ := h.file hallowed
    obtain ⟨n, calls, hread, hmoves⟩ := inodeReadAt_spec hfile.onInode
      (hvolume.sectors.fits (hvolume.owned (ownerOf_eq hfile.onInode))) buffer size fileOfs
    obtain ⟨b', hsound, hkeeps⟩ := h.move hfile (hvolume.transfer calls) file.pos
      (.fileReadAt f buffer size fileOfs) fun _ ↦ id
    refine ⟨.bytes n _, _, b', ?_, hsound, hkeeps, file, inode,
      ⟨hfile.found, hfile.onInode, calls, hmoves, rfl⟩, rfl⟩
    rw [withFile_self hfile.found]
    simp only [FsCall.exec, FileSys.fileReadAt, hfile.found, hread, Option.bind_eq_bind, Option.bind_some]
    rfl
  | fileWrite f buffer size =>
    obtain ⟨file, inode, hfile⟩ := h.file hallowed
    obtain ⟨n, calls, hwrite, hvolume', hmoves⟩ :=
      hvolume.inodeWrite hfile.onInode hfile.user.2 buffer size file.pos
    obtain ⟨b', hsound, hkeeps⟩ := h.move hfile hvolume' (file.pos + n)
      (.fileWrite f buffer size) fun _ ↦ id
    refine ⟨.count n, _, b', ?_, hsound, hkeeps, file, inode, hfile.found, hfile.onInode, calls, hmoves, rfl⟩
    simp only [FsCall.exec, FileSys.fileWrite, hfile.found, hwrite, Option.bind_eq_bind, Option.bind_some,
      Option.pure_def]
    rfl
  | fileWriteAt f buffer size fileOfs =>
    obtain ⟨file, inode, hfile⟩ := h.file hallowed
    obtain ⟨n, calls, hwrite, hvolume', hmoves⟩ :=
      hvolume.inodeWrite hfile.onInode hfile.user.2 buffer size fileOfs
    obtain ⟨b', hsound, hkeeps⟩ := h.move hfile hvolume' file.pos
      (.fileWriteAt f buffer size fileOfs) fun _ ↦ id
    refine ⟨.count n, _, b', ?_, hsound, hkeeps, file, inode, hfile.found, hfile.onInode, calls, hmoves, rfl⟩
    rw [withFile_self hfile.found]
    simp only [FsCall.exec, FileSys.fileWriteAt, hfile.found, hwrite, Option.bind_eq_bind, Option.bind_some]
    rfl

end Jungle.FileSys
