import Jungle.FileSys.Transfers
import Jungle.Lib.Census

/-!
# The counts of an inode

`Counted` says that `open_cnt` of every open inode is the number of its open files and of the
references to it that are held beside them, and `deny_write_cnt` the number of its open files that deny
writes. Each function on inodes and files keeps the counts right, and no `ASSERT` in it fails.
-/

set_option autoImplicit false
set_option relaxedAutoImplicit false

namespace Jungle.FileSys

open Jungle.Lib

/-- A file is open on an inode. -/
def OnInode (p : ℕ) (file : File) : Bool := file.inode == p

/-- A file is open on an inode and denies writes to it. -/
def Denies (p : ℕ) (file : File) : Bool := file.inode == p && file.denyWrite

@[simp] theorem onInode_iff (p : ℕ) (file : File) : OnInode p file = true ↔ file.inode = p :=
  beq_iff_eq

@[simp] theorem denies_iff (p : ℕ) (file : File) :
    Denies p file = true ↔ file.inode = p ∧ file.denyWrite = true := by
  rw [Denies, Bool.and_eq_true_iff, beq_iff_eq]

/-- The counts of an inode are right for the open files and for the references to inodes that are held
beside them. -/
structure CountsOk (cells : Store File) (files held : List ℕ) (p : ℕ) (inode : Inode) : Prop where
  removed : inode.removed = false
  openCnt : inode.openCnt = cells.census files (OnInode p) + held.count p
  pos : 0 < inode.openCnt
  denyCnt : inode.denyWriteCnt = cells.census files (Denies p)

/-- The counts of all inodes are right. -/
structure Counted (inodes : Store Inode) (cells : Store File) (next : ℕ) (files held : List ℕ) :
    Prop where
  nodup : files.Nodup
  mem_files : ∀ f, f ∈ files ↔ (cells f).isSome
  opener : ∀ f file, cells f = some file → (inodes file.inode).isSome
  heldOpen : ∀ p ∈ held, (inodes p).isSome
  counts : ∀ p inode, inodes p = some inode → CountsOk cells files held p inode
  fresh : ∀ a, next ≤ a → inodes a = none ∧ cells a = none

/-- The counts of a state are right. -/
abbrev State.Counted (s : State) (files held : List ℕ) : Prop :=
  FileSys.Counted s.inodes s.files s.next files held

section

variable {inodes : Store Inode} {cells cells' : Store File} {next p f : ℕ}
  {files files' held held' : List ℕ} {inode inode' : Inode} {file : File}

theorem CountsOk.denyCnt_le (h : CountsOk cells files held p inode) :
    inode.denyWriteCnt ≤ inode.openCnt := by
  have hle : cells.census files (Denies p) ≤ cells.census files (OnInode p) :=
    Store.census_le fun file hfile ↦ (onInode_iff p file).mpr ((denies_iff p file).mp hfile).1
  rw [h.openCnt, h.denyCnt]
  omega

/-- What happens to other inodes does not matter. -/
theorem CountsOk.congr (h : CountsOk cells files held p inode)
    (hcensus : ∀ P : File → Bool, (∀ file, file.inode ≠ p → P file = false) →
      cells'.census files' P = cells.census files P)
    (hcount : held'.count p = held.count p) : CountsOk cells' files' held' p inode where
  removed := h.removed
  openCnt := by
    rw [h.openCnt, hcount, hcensus (OnInode p) fun file hne ↦ beq_eq_false_iff_ne.mpr hne]
  pos := h.pos
  denyCnt := by
    rw [h.denyCnt, hcensus (Denies p)]
    intro file hne
    rw [Denies, beq_eq_false_iff_ne.mpr hne, Bool.false_and]

namespace Counted

/-- The inode of an open file is open. -/
theorem isOpen (h : Counted inodes cells next files held) (hf : cells f = some file) :
    ∃ inode, inodes file.inode = some inode :=
  Option.isSome_iff_exists.mp (h.opener f file hf)

theorem next_not_mem (h : Counted inodes cells next files held) : next ∉ files := by
  rw [h.mem_files, (h.fresh next (Nat.le_refl next)).2]
  exact Bool.false_ne_true

theorem ne_of_next_le (h : Counted inodes cells next files held) (hinode : inodes p = some inode)
    {a : ℕ} (ha : next ≤ a) : a ≠ p := by
  rintro rfl
  rw [(h.fresh a ha).1] at hinode
  exact Option.some_ne_none inode hinode.symm

/-- No file is on an inode that is not open. -/
theorem census_eq_zero (h : Counted inodes cells next files held) (hp : inodes p = none)
    {P : File → Bool} (hP : ∀ file, P file = true → file.inode = p) :
    cells.census files P = 0 := by
  by_contra hne
  obtain ⟨f, -, file, hf, hfile⟩ := Store.census_pos_iff.mp (Nat.pos_of_ne_zero hne)
  obtain ⟨inode, hinode⟩ := h.isOpen hf
  rw [hP file hfile, hp] at hinode
  exact Option.some_ne_none inode hinode.symm

theorem count_eq_zero (h : Counted inodes cells next files held) (hp : inodes p = none) :
    held.count p = 0 := by
  refine List.count_eq_zero.mpr fun hmem ↦ ?_
  have hsome := h.heldOpen p hmem
  rw [hp] at hsome
  exact Bool.false_ne_true hsome

/-- `inode_open` of a sector that is not open. -/
theorem open_inode (h : Counted inodes cells next files held) (sector : ℕ) (data : InodeDisk) :
    Counted (inodes.put next ⟨sector, 1, false, 0, data⟩) cells (next + 1) files
      (next :: held) where
  nodup := h.nodup
  mem_files := h.mem_files
  opener f file hf := (Store.isSome_put ..).mpr (Or.inr (h.opener f file hf))
  heldOpen p hp := (Store.isSome_put ..).mpr ((List.mem_cons.mp hp).imp_right (h.heldOpen p))
  counts := by
    have hnext := (h.fresh next (Nat.le_refl next)).1
    refine Store.forall_put ⟨rfl, ?_, Int.one_pos, ?_⟩ fun p hp inode hinode ↦ ?_
    · rw [h.census_eq_zero hnext fun file ↦ (onInode_iff next file).mp, List.count_cons_self,
        h.count_eq_zero hnext]
      rfl
    · rw [h.census_eq_zero hnext fun file hfile ↦ ((denies_iff next file).mp hfile).1]
      rfl
    · exact (h.counts p inode hinode).congr (fun _ _ ↦ rfl) (List.count_cons_of_ne hp.symm)
  fresh a ha := by
    have hfresh := h.fresh a (by omega)
    rw [Store.put_of_ne _ (by omega)]
    exact hfresh

/-- The counts of an inode change. -/
theorem put_inode (h : Counted inodes cells next files held) (hinode : inodes p = some inode)
    (hcounts : CountsOk cells files held' p inode')
    (hheld : ∀ q ∈ held', q = p ∨ q ∈ held) (hcount : ∀ q, q ≠ p → held'.count q = held.count q) :
    Counted (inodes.put p inode') cells next files held' where
  nodup := h.nodup
  mem_files := h.mem_files
  opener f file hf := (Store.isSome_put ..).mpr (Or.inr (h.opener f file hf))
  heldOpen q hq := (Store.isSome_put ..).mpr ((hheld q hq).imp_right (h.heldOpen q))
  counts := Store.forall_put hcounts fun q hq inode hinode ↦
    (h.counts q inode hinode).congr (fun _ _ ↦ rfl) (hcount q hq)
  fresh a ha := by
    rw [Store.put_of_ne _ (h.ne_of_next_le hinode ha)]
    exact h.fresh a ha

/-- `inode_reopen` -/
theorem reopen (h : Counted inodes cells next files held) (hinode : inodes p = some inode) :
    Counted (inodes.put p { inode with openCnt := inode.openCnt + 1 }) cells next files
      (p :: held) := by
  have hcounts := h.counts p inode hinode
  have hopen := hcounts.openCnt
  have hpos := hcounts.pos
  refine h.put_inode hinode ⟨hcounts.removed, ?_, ?_, hcounts.denyCnt⟩
    (fun q hq ↦ List.mem_cons.mp hq) fun q hq ↦ List.count_cons_of_ne hq.symm
  · rw [List.count_cons_self]
    push_cast
    omega
  · change 0 < inode.openCnt + 1
    omega

/-- `inode_close` of an inode that others have open. -/
theorem close (h : Counted inodes cells next files held) (hinode : inodes p = some inode)
    (hp : p ∈ held) (hopen : inode.openCnt ≠ 1) :
    Counted (inodes.put p { inode with openCnt := inode.openCnt - 1 }) cells next files
      (held.erase p) := by
  have hcounts := h.counts p inode hinode
  have hcnt := hcounts.openCnt
  have hpos := hcounts.pos
  have hheld := List.count_pos_iff.mpr hp
  refine h.put_inode hinode ⟨hcounts.removed, ?_, ?_, hcounts.denyCnt⟩
    (fun q hq ↦ Or.inr (List.mem_of_mem_erase hq)) fun q hq ↦ List.count_erase_of_ne hq
  · rw [List.count_erase_self]
    push_cast [hheld]
    omega
  · change 0 < inode.openCnt - 1
    omega

/-- `inode_close` of an inode that no one else has open. -/
theorem close_last (h : Counted inodes cells next files held) (hinode : inodes p = some inode)
    (hp : p ∈ held) (hopen : inode.openCnt = 1) :
    Counted (inodes.free p) cells next files (held.erase p) := by
  have hcounts := h.counts p inode hinode
  have hcnt := hcounts.openCnt
  have hheld := List.count_pos_iff.mpr hp
  have hfiles : cells.census files (OnInode p) = 0 := by omega
  have hlast : held.count p = 1 := by omega
  refine ⟨h.nodup, h.mem_files, fun f file hf ↦ ?_, fun q hq ↦ ?_,
    Store.forall_free fun q hq inode hinode ↦ ?_, fun a ha ↦ ?_⟩
  · refine (Store.isSome_free ..).mpr ⟨?_, h.opener f file hf⟩
    rintro rfl
    have hf' : f ∈ files := (h.mem_files f).mpr (Option.isSome_iff_exists.mpr ⟨file, hf⟩)
    have hpos := Store.census_pos_iff.mpr ⟨f, hf', file, hf, (onInode_iff _ file).mpr rfl⟩
    exact absurd hfiles (Nat.ne_of_gt hpos)
  · refine (Store.isSome_free ..).mpr ⟨?_, h.heldOpen q (List.mem_of_mem_erase hq)⟩
    rintro rfl
    have hpos := List.count_pos_iff.mpr hq
    rw [List.count_erase_self] at hpos
    omega
  · exact (h.counts q inode hinode).congr (fun _ _ ↦ rfl) (List.count_erase_of_ne hq)
  · rw [Store.free_of_ne _ (h.ne_of_next_le hinode ha)]
    exact h.fresh a ha

/-- A new file takes a reference to its inode. -/
theorem open_file (h : Counted inodes cells next files held) (hp : p ∈ held) (pos : ℕ) :
    Counted inodes (cells.put next ⟨p, pos, false⟩) (next + 1) (next :: files)
      (held.erase p) where
  nodup := List.nodup_cons.mpr ⟨h.next_not_mem, h.nodup⟩
  mem_files f := by rw [Store.isSome_put, List.mem_cons, h.mem_files]
  opener := Store.forall_put (h.heldOpen p hp) fun f _ file hf ↦ h.opener f file hf
  heldOpen q hq := h.heldOpen q (List.mem_of_mem_erase hq)
  counts q inode hinode := by
    have hcounts := h.counts q inode hinode
    by_cases hq : q = p
    · subst hq
      have hheld := List.count_pos_iff.mpr hp
      refine ⟨hcounts.removed, ?_, hcounts.pos, ?_⟩
      · have hon : OnInode q ⟨q, pos, false⟩ = true := beq_self_eq_true q
        rw [Store.census_put_cons h.next_not_mem, hon, if_pos rfl, List.count_erase_self,
          hcounts.openCnt]
        push_cast [hheld]
        omega
      · have hdenies : Denies q ⟨q, pos, false⟩ = false := Bool.and_false _
        rw [Store.census_put_cons h.next_not_mem, hdenies, hcounts.denyCnt]
        rfl
    · refine hcounts.congr (fun P hP ↦ ?_) (List.count_erase_of_ne hq)
      rw [Store.census_put_cons h.next_not_mem, hP _ (Ne.symm hq)]
      rfl
  fresh a ha := by
    have hfresh := h.fresh a (by omega)
    rw [Store.put_of_ne _ (by omega)]
    exact hfresh

/-- A file changes, and the count of its inode with its flag. -/
theorem put_file (h : Counted inodes cells next files held) (hf : cells f = some file)
    (hinode : inodes file.inode = some inode) (file' : File) (hsame : file'.inode = file.inode)
    (cnt : ℤ) (hcnt : cnt + (if file.denyWrite then 1 else 0) =
      inode.denyWriteCnt + if file'.denyWrite then 1 else 0) :
    Counted (inodes.put file.inode { inode with denyWriteCnt := cnt }) (cells.put f file') next files
      held := by
  have hmem : f ∈ files := (h.mem_files f).mpr (Option.isSome_iff_exists.mpr ⟨file, hf⟩)
  have hcounts := h.counts _ inode hinode
  refine ⟨h.nodup, fun g ↦ ?_, Store.forall_put ?_ fun g _ file hg ↦ ?_,
    fun q hq ↦ (Store.isSome_put ..).mpr (Or.inr (h.heldOpen q hq)),
    Store.forall_put ⟨hcounts.removed, ?_, hcounts.pos, ?_⟩ fun q hq inode hinode ↦ ?_,
    fun a ha ↦ ?_⟩
  · rw [Store.isSome_put, h.mem_files]
    refine ⟨Or.inr, fun hg ↦ hg.elim ?_ id⟩
    rintro rfl
    exact (h.mem_files g).mp hmem
  · rw [hsame]
    exact (Store.isSome_put ..).mpr (Or.inl rfl)
  · exact (Store.isSome_put ..).mpr (Or.inr (h.opener g file hg))
  · have hcensus := Store.census_put (OnInode file.inode) file' h.nodup hmem hf
    rw [OnInode, OnInode, hsame] at hcensus
    rw [hcounts.openCnt]
    omega
  · have hcensus := Store.census_put (Denies file.inode) file' h.nodup hmem hf
    simp only [denies_iff, hsame, true_and] at hcensus
    have hdeny := hcounts.denyCnt
    change cnt = _
    split_ifs at hcensus hcnt <;> omega
  · refine (h.counts q inode hinode).congr (fun P hP ↦ ?_) rfl
    have hcensus := Store.census_put P file' h.nodup hmem hf
    rw [hP file hq.symm, hP file' (hsame ▸ hq.symm)] at hcensus
    exact hcensus
  · have hne := h.ne_of_next_le hinode ha
    have hfresh := h.fresh a ha
    have hne' : a ≠ f := by
      rintro rfl
      rw [hfresh.2] at hf
      exact Option.some_ne_none file hf.symm
    rw [Store.put_of_ne _ hne, Store.put_of_ne _ hne']
    exact hfresh

/-- A file that does not deny writes is given back; its reference to its inode stays. -/
theorem close_file (h : Counted inodes cells next files held) (hf : cells f = some file)
    (hdeny : file.denyWrite = false) :
    Counted inodes (cells.free f) next (files.erase f) (file.inode :: held) where
  nodup := h.nodup.erase f
  mem_files g := by rw [Store.isSome_free, h.nodup.mem_erase_iff, h.mem_files]
  opener := Store.forall_free fun g _ file hg ↦ h.opener g file hg
  heldOpen q hq := by
    rcases List.mem_cons.mp hq with rfl | hq
    · exact h.opener f file hf
    · exact h.heldOpen q hq
  counts q inode hinode := by
    have hmem : f ∈ files := (h.mem_files f).mpr (Option.isSome_iff_exists.mpr ⟨file, hf⟩)
    have hcounts := h.counts q inode hinode
    by_cases hq : q = file.inode
    · subst hq
      have hon := Store.census_free (OnInode file.inode) h.nodup hmem hf
      have hdenies := Store.census_free (Denies file.inode) h.nodup hmem hf
      rw [if_pos ((onInode_iff _ file).mpr rfl)] at hon
      rw [if_neg fun hfile ↦ Bool.false_ne_true (hdeny ▸ ((denies_iff _ file).mp hfile).2)]
        at hdenies
      refine ⟨hcounts.removed, ?_, hcounts.pos, hcounts.denyCnt.trans (congrArg _ hdenies.symm)⟩
      rw [hcounts.openCnt, List.count_cons_self]
      push_cast
      omega
    · refine hcounts.congr (fun P hP ↦ ?_) (List.count_cons_of_ne (Ne.symm hq))
      have hcensus := Store.census_free P h.nodup hmem hf
      rwa [hP file (Ne.symm hq)] at hcensus
  fresh a ha := by
    have hfresh := h.fresh a ha
    refine ⟨hfresh.1, ?_⟩
    rw [Store.free_apply, hfresh.2, ite_self]

end Counted

end

/-! ### The functions -/

variable {s : State} {p f : ℕ} {files held : List ℕ} {inode : Inode} {file : File}

/-- The state with another inode in a cell. -/
def State.withInode (s : State) (p : ℕ) (inode : Inode) : State :=
  { s with inodes := s.inodes.put p inode }

/-- The state with another file in a cell. -/
def State.withFile (s : State) (f : ℕ) (file : File) : State :=
  { s with files := s.files.put f file }

/-- The state after a file has been opened. -/
def State.opened (s : State) (file : File) : State :=
  { (malloc s).2 with files := s.files.put s.next file, next := s.next + 1 }

theorem withFile_opened (s : State) (file file' : File) :
    (s.opened file).withFile s.next file' = s.opened file' := by
  have hput : (s.files.put s.next file).put s.next file' = s.files.put s.next file' :=
    Function.update_idem ..
  simp only [State.withFile, State.opened, hput]

theorem inodeReopen_eq (hinode : s.inodes p = some inode) :
    inodeReopen s (some p) =
      some (s.withInode p { inode with openCnt := inode.openCnt + 1 }) := by
  simp only [inodeReopen, hinode, Option.bind_eq_bind, Option.bind_some, Option.pure_def]
  rfl

/-- `inode_close` gives a reference back. -/
theorem inodeClose_spec {cells : Store File} {next : ℕ}
    (h : Counted s.inodes cells next files held) (hp : p ∈ held) :
    ∃ inodes openInodes,
      inodeClose s (some p) = some { s with inodes := inodes, openInodes := openInodes } ∧
      Counted inodes cells next files (held.erase p) := by
  obtain ⟨inode, hinode⟩ := Option.isSome_iff_exists.mp (h.heldOpen p hp)
  have hremoved := (h.counts p inode hinode).removed
  by_cases hopen : inode.openCnt = 1
  · refine ⟨_, s.openInodes.erase p, ?_, h.close_last hinode hp hopen⟩
    have hfree : (s.inodes.put p { inode with openCnt := inode.openCnt - 1 }).free p =
        s.inodes.free p := Function.update_idem ..
    simp only [inodeClose, hinode, Option.bind_eq_bind, Option.bind_some, hopen, hremoved,
      Int.sub_self, if_true, Bool.false_eq_true, if_false, Option.pure_def, ← hfree]
  · refine ⟨_, s.openInodes, ?_, h.close hinode hp hopen⟩
    have hne : inode.openCnt - 1 ≠ 0 := by omega
    simp only [inodeClose, hinode, Option.bind_eq_bind, Option.bind_some, if_neg hne,
      Option.pure_def]

/-- `inode_open` returns a new reference, unless there is no memory. -/
theorem inodeOpen_spec (h : s.Counted files held) {sector : ℕ} (hdisk : OnDisk s sector) :
    ∃ result s', inodeOpen s sector = some (result, s') ∧
      s'.Counted files (result.toList ++ held) := by
  simp only [inodeOpen]
  cases hfind : findInode s sector with
  | some p =>
    have hsector := List.find?_some hfind
    obtain ⟨inode, hinode, -⟩ := Option.map_eq_some_iff.mp (beq_iff_eq.mp hsector)
    refine ⟨some p, s.withInode p { inode with openCnt := inode.openCnt + 1 }, ?_,
      h.reopen hinode⟩
    simp only [inodeReopen_eq hinode, Option.bind_eq_bind, Option.bind_some, Option.pure_def]
  | none =>
    cases hok : s.mallocs 0 with
    | false =>
      refine ⟨none, (malloc s).2, ?_, h⟩
      simp only [malloc, hok, Bool.false_eq_true, if_false]
    | true =>
      have hread : OnDisk (malloc s).2 sector := hdisk
      let data := InodeDisk.ofBytes (Bytes.copy (fun _ ↦ 0) 0 s.disk (DISK_SECTOR_SIZE * sector)
        DISK_SECTOR_SIZE)
      refine ⟨some s.next, { (malloc s).2 with
        inodes := s.inodes.put s.next ⟨sector, 1, false, 0, data⟩
        openInodes := s.next :: s.openInodes
        next := s.next + 1 }, ?_, h.open_inode sector data⟩
      simp only [malloc] at hread ⊢
      simp only [hok, if_true, diskRead_eq hread, Option.bind_eq_bind, Option.bind_some,
        Option.pure_def]
      rfl

/-- `file_open` turns a reference into a file, or gives it back if there is no memory. -/
theorem fileOpen_spec (h : s.Counted files held) (hp : p ∈ held) :
    fileOpen s (some p) = some (some s.next, s.opened ⟨p, 0, false⟩) ∨
      ∃ s', fileOpen s (some p) = some (none, s') ∧ s'.Counted files (held.erase p) := by
  cases hok : s.mallocs 0 with
  | true =>
    refine Or.inl ?_
    simp only [fileOpen, malloc, hok]
    rfl
  | false =>
    have hmalloc : (malloc s).2.Counted files held := h
    obtain ⟨inodes, openInodes, hclose, hcounted⟩ := inodeClose_spec hmalloc hp
    refine Or.inr ⟨{ (malloc s).2 with inodes := inodes, openInodes := openInodes }, ?_, hcounted⟩
    simp only [malloc] at hclose
    simp only [fileOpen, malloc, hok, hclose, Option.map_some]

/-- `file_deny_write` does not fail. -/
theorem fileDenyWrite_spec (h : s.Counted files held) (hf : s.files f = some file) :
    ∃ s', fileDenyWrite s f = some s' ∧ s'.Counted files held := by
  obtain ⟨inode, hinode⟩ := h.isOpen hf
  cases hdeny : file.denyWrite with
  | true =>
    refine ⟨s, ?_, h⟩
    simp only [fileDenyWrite, hf, Option.bind_eq_bind, Option.bind_some, hdeny, if_true,
      Option.pure_def]
  | false =>
    let s' := (s.withFile f { file with denyWrite := true }).withInode file.inode
      { inode with denyWriteCnt := inode.denyWriteCnt + 1 }
    have hcounted : s'.Counted files held :=
      h.put_file hf hinode { file with denyWrite := true } rfl _ (by simp [hdeny])
    have hle := (hcounted.counts _ _ (Store.put_self ..)).denyCnt_le
    refine ⟨s', ?_, hcounted⟩
    simp only [fileDenyWrite, inodeDenyWrite, hf, hinode, Option.bind_eq_bind, Option.bind_some,
      hdeny, Bool.false_eq_true, if_false, if_pos hle, Option.pure_def]
    rfl

/-- `file_allow_write` does not fail. -/
theorem fileAllowWrite_spec (h : s.Counted files held) (hf : s.files f = some file) :
    ∃ s', fileAllowWrite s f = some s' ∧ s'.Counted files held ∧
      s'.files f = some { file with denyWrite := false } := by
  obtain ⟨inode, hinode⟩ := h.isOpen hf
  cases hdeny : file.denyWrite with
  | false =>
    refine ⟨s, ?_, h, hdeny ▸ hf⟩
    simp only [fileAllowWrite, hf, Option.bind_eq_bind, Option.bind_some, hdeny,
      Bool.false_eq_true, if_false, Option.pure_def]
  | true =>
    have hcounts := h.counts _ inode hinode
    have hmem : f ∈ files := (h.mem_files f).mpr (Option.isSome_iff_exists.mpr ⟨file, hf⟩)
    have hpos : 0 < s.files.census files (Denies file.inode) :=
      Store.census_pos_iff.mpr ⟨f, hmem, file, hf, (denies_iff _ file).mpr ⟨rfl, hdeny⟩⟩
    have hassert : 0 < inode.denyWriteCnt ∧ inode.denyWriteCnt ≤ inode.openCnt := by
      refine ⟨?_, hcounts.denyCnt_le⟩
      rw [hcounts.denyCnt]
      omega
    let s' := (s.withFile f { file with denyWrite := false }).withInode file.inode
      { inode with denyWriteCnt := inode.denyWriteCnt - 1 }
    have hcounted : s'.Counted files held :=
      h.put_file hf hinode { file with denyWrite := false } rfl _ (by simp [hdeny])
    refine ⟨s', ?_, hcounted, Store.put_self ..⟩
    simp only [fileAllowWrite, inodeAllowWrite, hf, hinode, Option.bind_eq_bind, Option.bind_some,
      hdeny, if_true, if_pos hassert, Option.pure_def]
    rfl

/-- `file_reopen` opens another file, unless there is no memory. -/
theorem fileReopen_spec (h : s.Counted files held) (hf : s.files f = some file) :
    ∃ result s', fileReopen s f = some (result, s') ∧
      s'.Counted (result.toList ++ files) held := by
  obtain ⟨inode, hinode⟩ := h.isOpen hf
  let s₁ := s.withInode file.inode { inode with openCnt := inode.openCnt + 1 }
  have hreopen : s₁.Counted files (file.inode :: held) := h.reopen hinode
  have hheld : file.inode ∈ file.inode :: held := List.mem_cons_self
  have heq : fileReopen s f = fileOpen s₁ (some file.inode) := by
    simp only [fileReopen, hf, inodeReopen_eq hinode, Option.bind_eq_bind, Option.bind_some, s₁]
  rw [heq]
  rcases fileOpen_spec hreopen hheld with hopen | ⟨s', hopen, hcounted⟩
  · refine ⟨some s.next, s₁.opened ⟨file.inode, 0, false⟩, hopen, ?_⟩
    have hfile := hreopen.open_file hheld 0
    rwa [List.erase_cons_head] at hfile
  · refine ⟨none, s', hopen, ?_⟩
    rwa [List.erase_cons_head] at hcounted

/-- `file_duplicate` after it has opened a file. -/
theorem fileDuplicate_opened {s₁ s₂ : State} {nfile : ℕ} {nf : File} (hf : s.files f = some file)
    (hreopen : inodeReopen s (some file.inode) = some s₁)
    (hopen : fileOpen s₁ (some file.inode) = some (some nfile, s₂))
    (hnew : s₂.files nfile = some nf) :
    fileDuplicate s f = if file.denyWrite then
        (fileDenyWrite (s₂.withFile nfile { nf with pos := file.pos }) nfile).map (some nfile, ·)
      else some (some nfile, s₂.withFile nfile { nf with pos := file.pos }) := by
  simp only [fileDuplicate, hf, hreopen, hopen, hnew, Option.bind_eq_bind, Option.bind_some,
    Option.pure_def, Option.map_eq_bind]
  rfl

/-- `file_duplicate` opens another file with the flag of the first one, unless there is no memory. -/
theorem fileDuplicate_spec (h : s.Counted files held) (hf : s.files f = some file) :
    ∃ result s', fileDuplicate s f = some (result, s') ∧
      s'.Counted (result.toList ++ files) held := by
  obtain ⟨inode, hinode⟩ := h.isOpen hf
  have heq := inodeReopen_eq hinode
  set s₁ := s.withInode file.inode { inode with openCnt := inode.openCnt + 1 } with hs₁
  have hreopen : s₁.Counted files (file.inode :: held) := h.reopen hinode
  have hheld : file.inode ∈ file.inode :: held := List.mem_cons_self
  rcases fileOpen_spec hreopen hheld with hopen | ⟨s', hopen, hcounted⟩
  · have hfile := hreopen.open_file hheld file.pos
    rw [List.erase_cons_head] at hfile
    have hnew : ∀ file, (s₁.opened file).files s₁.next = some file := fun file ↦
      Store.put_self ..
    have hdup := fileDuplicate_opened hf heq hopen (hnew _)
    rw [withFile_opened] at hdup
    obtain ⟨s', hdeny, hcounted⟩ :=
      fileDenyWrite_spec (s := s₁.opened ⟨file.inode, file.pos, false⟩) hfile (hnew _)
    rw [hdeny] at hdup
    cases hflag : file.denyWrite with
    | true => exact ⟨some s₁.next, s', by rw [hdup, hflag]; rfl, hcounted⟩
    | false => exact ⟨some s₁.next, _, by rw [hdup, hflag]; rfl, hfile⟩
  · refine ⟨none, s', ?_, ?_⟩
    · simp only [fileDuplicate, hf, heq, hopen, Option.bind_eq_bind, Option.bind_some,
        Option.pure_def]
    · rwa [List.erase_cons_head] at hcounted

/-- `file_close` of an open file does not fail. -/
theorem fileClose_spec (h : s.Counted files held) (hf : s.files f = some file) :
    ∃ s', fileClose s (some f) = some s' ∧ s'.Counted (files.erase f) held := by
  obtain ⟨s₁, hallow, hcounted, hf₁⟩ := fileAllowWrite_spec h hf
  have hclosed := hcounted.close_file hf₁ rfl
  obtain ⟨inodes, openInodes, hclose, hcounted'⟩ := inodeClose_spec hclosed List.mem_cons_self
  rw [List.erase_cons_head] at hcounted'
  refine ⟨{ s₁ with inodes := inodes, openInodes := openInodes, files := s₁.files.free f }, ?_,
    hcounted'⟩
  simp only [fileClose, hallow, hf₁, hclose, Option.bind_eq_bind, Option.bind_some,
    Option.pure_def]

end Jungle.FileSys
