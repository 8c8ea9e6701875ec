import Jungle.FileSys.Table

/-!
# The file system refines the table

On a disk that has been formatted, and with memory, every call returns and does what the table says, in every
order of calls and starts of the machine (`run_refines_table`). The names are those of the entries of the root
directory, the files are the inodes that the names and the open files stand for, and their bytes are those of
their data sectors (`Views`).
-/

set_option autoImplicit false
set_option relaxedAutoImplicit false

namespace Jungle.FileSys

open Jungle.Lib

variable {map root : InodeDisk} {st st' : Session} {s s' : State} {b b' : Books} {t t' : Table} {f g x pos : ℕ}
  {disk : Bytes} {name : List UInt8}

/-! ### The table of a session -/

/-- A file is open on the inode in a sector, at a position. -/
def OpenOn (st : Session) (f x pos : ℕ) : Prop :=
  f ∈ st.files ∧ ∃ file o, st.fs.files f = some file ∧ ownerOf st.fs.inodes file.inode = some o ∧
    o.1 = x ∧ file.pos = pos

/-- The table has the names, the files and the bytes that a session has. -/
structure Views (root : InodeDisk) (st : Session) (t : Table) : Prop where
  names : ∀ name x, t.names name = some x ↔ ∃ k < root.slots, root.entry st.fs.disk k = some (name, x)
  files : ∀ f x pos, t.files f = some (x, pos) ↔ OpenOn st f x pos
  contents : ∀ x, t.Live x → t.contents x = (diskInode st.fs.disk x).contents st.fs.disk

/-- A file of the table is an owner of sectors. -/
theorem Views.owner (h : Views root st t) (hsound : st.Sound map root b) (hx : t.Live x) :
    ∃ d, (x, d) ∈ b.owners ∧ ROOT_DIR_SECTOR < x := by
  rcases hx with ⟨name, hname⟩ | ⟨f, pos, hf⟩
  · obtain ⟨k, hk, hentry⟩ := (h.names name x).mp hname
    have hnamed : Named root st.fs.disk x := ⟨k, hk, name, hentry⟩
    exact ⟨_, hsound.volume.entryOwner hnamed, hsound.volume.named x hnamed⟩
  · obtain ⟨hmem, file, o, hfile, ho, rfl, -⟩ := (h.files f x pos).mp hf
    obtain ⟨file', inode, huser⟩ := hsound.file hmem
    obtain rfl := Option.some.inj (huser.found.symm.trans hfile)
    obtain rfl := Option.some.inj (ho.symm.trans (ownerOf_eq huser.onInode))
    exact ⟨_, hsound.volume.owned ho, huser.user.2⟩

/-- Files keep their bytes where their sectors are kept. -/
theorem Views.kept (h : Views root st t) (hsound : st.Sound map root b)
    (hinodes : ∀ o ∈ b.owners, diskInode disk o.1 = o.2) (husers : KeepsUsers b.owners st.fs.disk disk)
    (hx : t.Live x) : t.contents x = (diskInode disk x).contents disk := by
  obtain ⟨d, howner, huser⟩ := h.owner hsound hx
  have hstored : diskInode st.fs.disk x = d := hsound.volume.sectors.stored _ howner
  have hstored' : diskInode disk x = d := hinodes _ howner
  rw [h.contents x hx, hstored, hstored']
  refine List.map_congr_left fun pos hpos ↦ (hsound.volume.sectors.sameBytes howner ?_ ?_).symm
  · exact husers _ howner huser
  · exact List.mem_range.mp hpos

/-- The names where the entries are the same. -/
theorem Views.sameNames (h : Views root st t) (hsame : SameEntries root st.fs.disk disk) (name : List UInt8)
    (x : ℕ) : t.names name = some x ↔ ∃ k < root.slots, root.entry disk k = some (name, x) :=
  (h.names name x).trans (exists_congr fun k ↦ and_congr_right fun hk ↦ by rw [hsame k hk])

/-- One name is that of one entry. -/
theorem Views.sameEntry (h : Views root st t) (hsound : st.Sound map root b) {j k y : ℕ} (hj : j < root.slots)
    (hk : k < root.slots) (hjx : root.entry st.fs.disk j = some (name, x))
    (hky : root.entry st.fs.disk k = some (name, y)) : j = k ∧ x = y := by
  have hx := (h.names name x).mpr ⟨j, hj, hjx⟩
  have hy := (h.names name y).mpr ⟨k, hk, hky⟩
  obtain rfl := Option.some.inj (hx.symm.trans hy)
  exact ⟨hsound.volume.distinct j hj k hk name name x hjx hky, rfl⟩

/-- A file that stays open stays on its inode. -/
theorem openOn_same (h : st.Sound map root b) (h' : st'.Sound map root b') (hevolves : Evolves st.fs st'.fs)
    (hg : g ∈ st.files) (hg' : g ∈ st'.files) (hcell : st'.fs.files g = st.fs.files g) :
    OpenOn st' g x pos ↔ OpenOn st g x pos := by
  obtain ⟨file, inode, hfile⟩ := h.file hg
  obtain ⟨file', inode', hfile'⟩ := h'.file hg'
  obtain rfl := Option.some.inj (hfile.found.symm.trans (hcell.symm.trans hfile'.found))
  have howner := ownerOf_eq hfile.onInode
  have howner' := ownerOf_eq hfile'.onInode
  have hsame := hevolves.same _ (h.volume.lt_next howner) _ howner'
  rw [howner] at hsame
  refine ⟨fun ⟨_, file', o, hfound, ho, hx, hpos⟩ ↦ ?_, fun ⟨_, file', o, hfound, ho, hx, hpos⟩ ↦ ?_⟩
  · obtain rfl := Option.some.inj (hfile'.found.symm.trans hfound)
    obtain rfl := Option.some.inj (howner'.symm.trans ho)
    exact ⟨hg, file, _, hfile.found, howner.trans hsame, hx, hpos⟩
  · obtain rfl := Option.some.inj (hfile.found.symm.trans hfound)
    obtain rfl := Option.some.inj (howner.symm.trans ho)
    exact ⟨hg', file, _, hfile'.found, howner'.trans hsame.symm, hx, hpos⟩

/-- The open files where they are the same. -/
theorem Views.sameFiles (h : Views root st t) (hsound : st.Sound map root b) (hsound' : st'.Sound map root b')
    (hevolves : Evolves st.fs st'.fs) (hfiles : st'.files = st.files) (hcells : st'.fs.files = st.fs.files)
    (f x pos : ℕ) : t.files f = some (x, pos) ↔ OpenOn st' f x pos := by
  rw [h.files]
  by_cases hf : f ∈ st.files
  · exact (openOn_same hsound hsound' hevolves hf (hfiles ▸ hf) (congrFun hcells f)).symm
  · exact iff_of_false (fun hopen ↦ hf hopen.1) fun hopen ↦ hf (hfiles ▸ hopen.1)

/-- Where entries, open files and the sectors of files are kept, the table is. -/
theorem Views.keep (h : Views root st t) (hsound : st.Sound map root b) (hsound' : st'.Sound map root b')
    (hevolves : Evolves st.fs st'.fs) (hfiles : st'.files = st.files) (hcells : st'.fs.files = st.fs.files)
    (hsame : SameEntries root st.fs.disk st'.fs.disk) (hinodes : ∀ o ∈ b.owners, diskInode st'.fs.disk o.1 = o.2)
    (husers : KeepsUsers b.owners st.fs.disk st'.fs.disk) : Views root st' t where
  names := h.sameNames hsame
  files := h.sameFiles hsound hsound' hevolves hfiles hcells
  contents _ hx := h.kept hsound hinodes husers hx

/-- Writing to the file of the free map keeps the table. -/
theorem Views.keepMap (h : Views root st t) (hsound : st.Sound map root b) (hsound' : st'.Sound map root b')
    (hevolves : Evolves st.fs st'.fs) (hfiles : st'.files = st.files) (hcells : st'.fs.files = st.fs.files)
    (hwrites : WritesTo map st.fs.disk st'.fs.disk) : Views root st' t := by
  have hvolume := hsound.volume
  refine h.keep hsound hsound' hevolves hfiles hcells (hvolume.mapEntries hwrites) (fun o ho ↦ ?_) ?_
  · exact (hvolume.sectors.sameSector hvolume.mapOwner hwrites ho).diskInode.trans (hvolume.sectors.stored o ho)
  · exact hvolume.sectors.keepsUsers hvolume.mapOwner (Nat.zero_le _) hwrites

/-! ### Names -/

/-- With memory, `dir_add` writes an entry that is free, and no entry has the name. -/
theorem Places.memory {k calls : ℕ} (h : Places root s name k calls) (hall : ∀ i, s.mallocs i = true) :
    (∀ j < root.slots, ∀ x, root.entry s.disk j ≠ some (name, x)) ∧ root.entry s.disk k = none := by
  obtain ⟨j, c, hsearch, found, c', hscan, -⟩ := h.searched
  refine ⟨fun i hi x hentry ↦ ?_, ?_⟩
  · have hmiss := (hsearch.miss hall).2 i (Nat.zero_le i) hi
    exact Bool.false_ne_true (hmiss.symm.trans (hasName_iff.mpr ⟨x, hentry⟩))
  · cases found with
    | true => exact Option.isNone_iff_eq_none.mp (hscan.hit rfl).2.2
    | false => exact absurd (hscan.miss fun i ↦ hall _).1 (Nat.ne_of_lt h.lt)

/-- The bytes of a new file are zeros. -/
theorem CreateAdds.contents {size : ℤ} {calls k : ℕ} {d : InodeDisk}
    (h : CreateAdds root s s' b b' name size calls k x d) : d.contents s'.disk = List.replicate size.toNat 0 := by
  rw [InodeDisk.contents, ← h.length]
  refine List.eq_replicate_iff.mpr ⟨by rw [List.length_map, List.length_range], fun byte hbyte ↦ ?_⟩
  obtain ⟨pos, hpos, rfl⟩ := List.mem_map.mp hbyte
  exact h.zeros pos (List.mem_range.mp hpos)

theorem Views.create (h : Views root st t) (hsound : st.Sound map root b) (hsound' : st'.Sound map root b')
    (hmemory : ∀ i, st.fs.mallocs i = true) {size : ℤ} {ok : Bool}
    (hends : CreateEnds root st.fs st'.fs b b' name size (createCalls st.fs) ok)
    (hfiles : st'.files = st.files) :
    ∃ t', t.Step (.call (.filesysCreate name size), .success ok) t' ∧ Views root st' t' := by
  have hvolume := hsound.volume
  cases ok with
  | false =>
    obtain ⟨howners, hkeeps, -⟩ := hends.fails rfl
    refine ⟨t, rfl, h.keep hsound hsound' hends.evolves hfiles hends.files ?_ (fun o ho ↦ ?_) fun o ho huser ↦ ?_⟩
    · exact hvolume.sectors.sameEntries hvolume.rootOwner
        (hkeeps _ hvolume.rootOwner (show ROOT_DIR_SECTOR ≠ FREE_MAP_SECTOR by decide))
    · exact hsound'.volume.sectors.stored o (howners ▸ ho)
    · exact hkeeps o ho (Nat.ne_of_gt (Nat.lt_trans Nat.one_pos huser))
  | true =>
    obtain ⟨k, x, d, hadds⟩ := hends.adds rfl
    obtain ⟨hk, c, hplaces⟩ := hadds.placed
    obtain ⟨hunused, hfree⟩ := hplaces.memory fun i ↦ hmemory _
    have hname : t.names name = none := by
      rw [Option.eq_none_iff_forall_ne_some]
      intro y hy
      obtain ⟨j, hj, hentry⟩ := (h.names name y).mp hy
      exact hunused j hj y hentry
    have hfresh : ¬t.Live x := fun hlive ↦ by
      obtain ⟨d', howner, -⟩ := h.owner hsound hlive
      exact hadds.fresh _ howner rfl
    have hmem : ∀ o ∈ b.owners, o ∈ b'.owners := fun o ho ↦ hadds.owners ▸ List.mem_cons_of_mem _ ho
    have hstored : diskInode st'.fs.disk x = d :=
      hsound'.volume.sectors.stored (x, d) (hadds.owners ▸ List.mem_cons_self)
    refine ⟨_, ⟨((hends.exact.mp rfl).2).1, hname, x, hfresh, rfl⟩, fun name' y ↦ ?_,
      h.sameFiles hsound hsound' hends.evolves hfiles hends.files, fun y hy ↦ ?_⟩
    · change Function.update t.names name (some x) name' = some y ↔ _
      by_cases heq : name' = name
      · subst heq
        rw [Function.update_self, Option.some.injEq]
        refine ⟨fun hxy ↦ ⟨k, hk, ?_⟩, fun ⟨j, hj, hentry⟩ ↦ ?_⟩
        · rw [hadds.entries k hk, if_pos rfl, hxy]
        · rw [hadds.entries j hj] at hentry
          split_ifs at hentry
          · exact (Prod.mk.inj (Option.some.inj hentry)).2
          · exact absurd hentry (hunused j hj y)
      · rw [Function.update_of_ne heq, h.names]
        refine exists_congr fun j ↦ and_congr_right fun hj ↦ ?_
        rw [hadds.entries j hj]
        split_ifs with hjk
        · subst hjk
          refine iff_of_false (fun hentry ↦ Option.some_ne_none _ (hentry.symm.trans hfree)) fun hentry ↦ heq ?_
          exact (Prod.mk.inj (Option.some.inj hentry)).1.symm
        · rfl
    · change Function.update t.contents x (List.replicate size.toNat 0) y = _
      by_cases heq : y = x
      · subst heq
        rw [Function.update_self, hstored, hadds.contents]
      · rw [Function.update_of_ne heq]
        refine h.kept hsound (fun o ho ↦ hsound'.volume.sectors.stored o (hmem o ho)) hadds.users ?_
        refine hy.imp (fun ⟨name', hname'⟩ ↦ ⟨name', ?_⟩) id
        change Function.update t.names name (some x) name' = some y at hname'
        by_cases hsame : name' = name
        · subst hsame
          rw [Function.update_self] at hname'
          exact absurd (Option.some.inj hname').symm heq
        · rwa [Function.update_of_ne hsame] at hname'

theorem Views.removeName (h : Views root st t) (hsound : st.Sound map root b) (hsound' : st'.Sound map root b')
    (hmemory : ∀ i, st.fs.mallocs i = true) {ok : Bool} (hremoves : RemovesName root st.fs st'.fs b b' name ok)
    (hfiles : st'.files = st.files) :
    ∃ t', t.Step (.call (.filesysRemove name), .success ok) t' ∧ Views root st' t' := by
  have hsameFiles := h.sameFiles hsound hsound' hremoves.evolves hfiles hremoves.files
  have hlive : ∀ y, (t.remove name).Live y → t.Live y := fun y hy ↦ by
    refine hy.imp (fun ⟨name', hname'⟩ ↦ ⟨name', ?_⟩) id
    change Function.update t.names name none name' = some y at hname'
    by_cases heq : name' = name
    · subst heq
      rw [Function.update_self] at hname'
      exact absurd hname'.symm (Option.some_ne_none y)
    · rwa [Function.update_of_ne heq] at hname'
  have hcontents : ∀ y, (t.remove name).Live y → t.contents y = (diskInode st'.fs.disk y).contents st'.fs.disk :=
    fun y hy ↦ h.kept hsound hremoves.inodes hremoves.users (hlive y hy)
  have hnone : t.names name = none → ∀ k < root.slots, ∀ y, root.entry st.fs.disk k ≠ some (name, y) := by
    intro hname k hk y hentry
    exact Option.some_ne_none y (((h.names name y).mpr ⟨k, hk, hentry⟩).symm.trans hname)
  cases ok with
  | false =>
    have hname : t.names name = none := by
      rw [Option.eq_none_iff_forall_ne_some]
      intro y hy
      obtain ⟨k, hk, hentry⟩ := (h.names name y).mp hy
      exact Bool.false_ne_true (hremoves.found hmemory k hk y hentry)
    refine ⟨_, ⟨by rw [hname]; rfl, rfl⟩, fun name' y ↦ ?_, hsameFiles, hcontents⟩
    change Function.update t.names name none name' = some y ↔ _
    rw [← hname, Function.update_eq_self]
    exact h.sameNames (hremoves.fails rfl) name' y
  | true =>
    obtain ⟨k, hk, x, hentry, hentries⟩ := hremoves.removes rfl
    have hname : t.names name = some x := (h.names name x).mpr ⟨k, hk, hentry⟩
    refine ⟨_, ⟨by rw [hname]; rfl, rfl⟩, fun name' y ↦ ?_, hsameFiles, hcontents⟩
    change Function.update t.names name none name' = some y ↔ _
    by_cases heq : name' = name
    · subst heq
      rw [Function.update_self]
      refine iff_of_false (Option.some_ne_none y).symm ?_
      rintro ⟨j, hj, hjy⟩
      rw [hentries j hj] at hjy
      split_ifs at hjy with hjk
      exact hjk (h.sameEntry hsound hj hk hjy hentry).1
    · rw [Function.update_of_ne heq, h.names]
      refine exists_congr fun j ↦ and_congr_right fun hj ↦ ?_
      rw [hentries j hj]
      split_ifs with hjk
      · subst hjk
        refine iff_of_false (fun hjy ↦ heq ?_) id
        exact (Prod.mk.inj (Option.some.inj (hjy.symm.trans hentry))).1
      · rfl

/-! ### Open files -/

theorem Views.openName (h : Views root st t) (hsound : st.Sound map root b) (hsound' : st'.Sound map root b')
    (hmemory : ∀ i, st.fs.mallocs i = true) {result : Option ℕ} (hopens : OpensName map root st.fs st'.fs name result)
    (hfiles : st'.files = result.toList ++ st.files) :
    ∃ t', t.Step (.call (.filesysOpen name), .file result) t' ∧ Views root st' t' := by
  have hvolume := hsound.volume
  cases result with
  | none =>
    refine ⟨t, ⟨?_, rfl⟩, h.keepMap hsound hsound' hopens.evolves hfiles (hopens.fails rfl) hopens.writes⟩
    rw [Option.eq_none_iff_forall_ne_some]
    intro y hy
    obtain ⟨k, hk, hentry⟩ := (h.names name y).mp hy
    exact Bool.false_ne_true (hopens.found hmemory k hk y hentry)
  | some f =>
    obtain ⟨hfresh, q, o, hcells, ho, k, hk, hentry⟩ := hopens.opened f rfl
    have hname : t.names name = some o.1 := (h.names name o.1).mpr ⟨k, hk, hentry⟩
    have hclosed : f ∉ st.files := fun hmem ↦ by
      obtain ⟨file, inode, huser⟩ := hsound.file hmem
      exact Option.some_ne_none _ (huser.found.symm.trans hfresh)
    have hcell : st'.fs.files f = some ⟨q, 0, false⟩ := hcells ▸ Store.put_self ..
    refine ⟨_, ⟨o.1, hname, ?_, rfl⟩, h.sameNames (hvolume.mapEntries hopens.writes), fun g y pos ↦ ?_,
      fun y hy ↦ ?_⟩
    · rw [Option.eq_none_iff_forall_ne_some]
      exact fun file hfile ↦ hclosed ((h.files f file.1 file.2).mp hfile).1
    · change Function.update t.files f (some (o.1, 0)) g = _ ↔ _
      by_cases hgf : g = f
      · subst hgf
        rw [Function.update_self, Option.some.injEq, Prod.mk.injEq]
        refine ⟨fun ⟨hy, hpos⟩ ↦ ⟨hfiles ▸ List.mem_cons_self, _, o, hcell, ho, hy, hpos⟩, ?_⟩
        rintro ⟨-, file, o', hfound, ho', rfl, rfl⟩
        obtain rfl := Option.some.inj (hcell.symm.trans hfound)
        obtain rfl := Option.some.inj (ho.symm.trans ho')
        exact ⟨rfl, rfl⟩
      · rw [Function.update_of_ne hgf, h.files]
        by_cases hg : g ∈ st.files
        · refine (openOn_same hsound hsound' hopens.evolves hg (hfiles ▸ List.mem_cons_of_mem f hg) ?_).symm
          rw [hcells, Store.put_of_ne _ hgf]
        · refine iff_of_false (fun hopen ↦ hg hopen.1) fun hopen ↦ hg ?_
          have hmem := hopen.1
          rw [hfiles] at hmem
          exact (List.mem_cons.mp hmem).resolve_left hgf
    · refine h.kept hsound (fun o ho ↦ ?_) (hvolume.sectors.keepsUsers hvolume.mapOwner (Nat.zero_le _) hopens.writes) ?_
      · exact (hvolume.sectors.sameSector hvolume.mapOwner hopens.writes ho).diskInode.trans
          (hvolume.sectors.stored o ho)
      · rcases hy with hnamed | ⟨g, pos, hg⟩
        · exact Or.inl hnamed
        · change Function.update t.files f (some (o.1, 0)) g = some (y, pos) at hg
          by_cases hgf : g = f
          · subst hgf
            rw [Function.update_self] at hg
            exact Or.inl ⟨name, hname.trans (congrArg some (Prod.mk.inj (Option.some.inj hg)).1)⟩
          · rw [Function.update_of_ne hgf] at hg
            exact Or.inr ⟨g, pos, hg⟩

/-- The open files are in the list once. -/
theorem Session.Sound.nodup (h : st.Sound map root b) : st.files.Nodup := by
  obtain ⟨m, -, hof⟩ := h.books
  have hnodup := h.volume.counted.nodup
  rw [hof.files] at hnodup
  exact (List.nodup_append.mp hnodup).1

theorem Views.closeFile (h : Views root st t) (hsound : st.Sound map root b) (hsound' : st'.Sound map root b')
    (hevolves : Evolves st.fs st'.fs) (hwrites : WritesTo map st.fs.disk st'.fs.disk) {file : Option ℕ}
    (hcells : st'.fs.files = file.elim st.fs.files st.fs.files.free) (hfiles : st'.files = Call.drop st.files file) :
    Views root st' (t.close file) := by
  cases file with
  | none => exact h.keepMap hsound hsound' hevolves hfiles hcells hwrites
  | some f =>
    replace hcells : st'.fs.files = st.fs.files.free f := hcells
    replace hfiles : st'.files = st.files.erase f := hfiles
    have hvolume := hsound.volume
    have hopen : ∀ {g y pos}, (t.close (some f)).files g = some (y, pos) ↔ g ≠ f ∧ t.files g = some (y, pos) := by
      intro g y pos
      change Function.update t.files f none g = _ ↔ _
      by_cases hgf : g = f
      · subst hgf
        rw [Function.update_self]
        exact iff_of_false (Option.some_ne_none _).symm fun hne ↦ hne.1 rfl
      · rw [Function.update_of_ne hgf]
        exact (and_iff_right hgf).symm
    refine ⟨h.sameNames (hvolume.mapEntries hwrites), fun g y pos ↦ ?_, fun y hy ↦ ?_⟩
    · rw [hopen, h.files]
      by_cases hg : g ≠ f ∧ g ∈ st.files
      · rw [and_iff_right hg.1]
        refine (openOn_same hsound hsound' hevolves hg.2 ?_ ?_).symm
        · rw [hfiles]
          exact (List.mem_erase_of_ne hg.1).mpr hg.2
        · rw [hcells, Store.free_of_ne _ hg.1]
      · refine iff_of_false (fun hopen ↦ hg ⟨hopen.1, hopen.2.1⟩) fun hopen ↦ hg ?_
        have hmem := hopen.1
        rw [hfiles] at hmem
        exact ((hsound.nodup.mem_erase_iff).mp hmem)
    · refine h.kept hsound (fun o ho ↦ ?_) (hvolume.sectors.keepsUsers hvolume.mapOwner (Nat.zero_le _) hwrites) ?_
      · exact (hvolume.sectors.sameSector hvolume.mapOwner hwrites ho).diskInode.trans
          (hvolume.sectors.stored o ho)
      · exact hy.imp id fun ⟨g, pos, hg⟩ ↦ ⟨g, pos, (hopen.mp hg).2⟩

/-! ### Bytes -/

/-- The file of the table that a file is open on. -/
theorem Views.fileOf (h : Views root st t) {file : File} {inode : Inode} (hf : f ∈ st.files)
    (hfile : st.fs.files f = some file) (hinode : st.fs.inodes file.inode = some inode) :
    t.files f = some (inode.sector, file.pos) :=
  (h.files f _ _).mpr ⟨hf, file, _, hfile, ownerOf_eq hinode, rfl, rfl⟩

/-- The bytes of a file that is open. -/
theorem Views.openContents (h : Views root st t) (hsound : st.Sound map root b) {file : File} {inode : Inode}
    (hf : f ∈ st.files) (hfile : st.fs.files f = some file) (hinode : st.fs.inodes file.inode = some inode) :
    t.contents inode.sector = inode.data.contents st.fs.disk := by
  rw [h.contents _ (Or.inr ⟨f, file.pos, h.fileOf hf hfile hinode⟩)]
  exact congrArg (InodeDisk.contents · st.fs.disk)
    (hsound.volume.sectors.stored _ (hsound.volume.owned (ownerOf_eq hinode)))

/-- The bytes that a transfer moves are those that the table has. -/
theorem bytesAt_length {data : InodeDisk} (hcontents : t.contents x = data.contents disk) (size offset : ℕ) :
    (t.bytesAt x size offset).length = data.avail size offset := by
  rw [Table.bytesAt, hcontents, List.length_take, List.length_drop, InodeDisk.contents, List.length_map,
    List.length_range]
  rfl

theorem reads_copy {data : InodeDisk} (hcontents : t.contents x = data.contents disk) (size offset : ℕ)
    (buffer : Bytes) : t.Reads x size offset buffer (data.avail size offset)
      (buffer.copy 0 disk (data.addr offset) (data.avail size offset)) := by
  have hlength := bytesAt_length hcontents size offset
  refine ⟨hlength.symm, funext fun i ↦ ?_⟩
  rw [List.getD_eq_getElem?_getD]
  by_cases hi : i < data.avail size offset
  · have havail : i < size ∧ offset + i < data.length.toNat := by
      unfold InodeDisk.avail at hi
      omega
    rw [Bytes.copy_of_mem ⟨Nat.zero_le i, by omega⟩, Table.bytesAt, hcontents, List.getElem?_take_of_lt havail.1,
      List.getElem?_drop, contents_getElem? disk havail.2, Option.getD_some]
    exact congrArg disk (show data.addr offset + (i - 0) = data.addr (offset + i) by
      unfold InodeDisk.addr
      omega)
  · rw [Bytes.copy_of_not_mem (by omega), List.getElem?_eq_none (by omega), Option.getD_none]

/-- A write to an open file is one to its file in the table. -/
theorem Views.write (h : Views root st t) (hsound : st.Sound map root b) {file : File} {inode : Inode}
    (hf : f ∈ st.files) (hfile : st.fs.files f = some file) (hinode : st.fs.inodes file.inode = some inode)
    (w : Write) (calls : ℕ) : Views root
      ⟨st.fs.transfer (st.fs.disk.copy (inode.data.addr w.offset) w.buffer 0 (inode.data.avail w.size w.offset)) calls,
        st.files, st.held⟩ (t.write inode.sector w) := by
  have hvolume := hsound.volume
  have howner : (inode.sector, inode.data) ∈ b.owners := hvolume.owned (ownerOf_eq hinode)
  obtain ⟨file', inode', huser⟩ := hsound.file hf
  obtain rfl := Option.some.inj (hfile.symm.trans huser.found)
  obtain rfl := Option.some.inj (hinode.symm.trans huser.onInode)
  set disk := st.fs.disk.copy (inode.data.addr w.offset) w.buffer 0 (inode.data.avail w.size w.offset) with hdisk
  have hwrites : WritesTo inode.data st.fs.disk disk := by
    intro y hy
    rw [hdisk, avail_eq_transferred]
    exact copy_outside inode.data st.fs.disk w hy
  have hinodes : ∀ o ∈ b.owners, diskInode disk o.1 = o.2 := fun o ho ↦
    (hvolume.sectors.sameSector howner hwrites ho).diskInode.trans (hvolume.sectors.stored o ho)
  have hroot : (inode.sector, inode.data) ≠ (ROOT_DIR_SECTOR, root) := fun heq ↦
    absurd (Prod.mk.inj heq).1 (Nat.ne_of_gt huser.user.2)
  refine ⟨h.sameNames (hvolume.sectors.sameEntries hvolume.rootOwner fun y ↦
    hvolume.sectors.sameData howner hvolume.rootOwner hroot hwrites), h.files, fun y hy ↦ ?_⟩
  change Function.update t.contents inode.sector (overwrite (t.contents inode.sector) w) y =
    (diskInode disk y).contents disk
  have hlive : t.Live y := hy
  by_cases heq : y = inode.sector
  · subst heq
    have hstored : diskInode disk inode.sector = inode.data := hinodes _ howner
    rw [Function.update_self, h.openContents hsound hf hfile hinode, hstored, hdisk, avail_eq_transferred,
      contents_copy]
  · obtain ⟨d, howner', -⟩ := h.owner hsound hlive
    have hstored : diskInode st.fs.disk y = d := hvolume.sectors.stored _ howner'
    have hstored' : diskInode disk y = d := hinodes _ howner'
    rw [Function.update_of_ne heq, h.contents y hlive, hstored, hstored']
    refine List.map_congr_left fun pos hpos ↦ (hvolume.sectors.sameBytes howner' (fun z ↦ ?_) ?_).symm
    · refine hvolume.sectors.sameData howner howner' (fun hsame ↦ heq ?_) hwrites
      exact (Prod.mk.inj hsame).1.symm
    · exact List.mem_range.mp hpos

/-- The position of a file is set. -/
theorem Views.seek (h : Views root st t) {file : File} {inode : Inode} (hf : f ∈ st.files)
    (hfile : st.fs.files f = some file) (hinode : st.fs.inodes file.inode = some inode) (pos : ℕ) :
    Views root ⟨st.fs.withFile f { file with pos := pos }, st.files, st.held⟩ (t.seek f pos) := by
  have hopen := h.fileOf hf hfile hinode
  have hset : (t.seek f pos).files f = some (inode.sector, pos) := by
    change Function.update t.files f _ f = _
    rw [Function.update_self, hopen]
    rfl
  have hothers : ∀ {g}, g ≠ f → (t.seek f pos).files g = t.files g := fun hgf ↦ Function.update_of_ne hgf ..
  refine ⟨h.names, fun g y pos' ↦ ?_, fun y hy ↦ h.contents y (hy.imp id ?_)⟩
  · by_cases hgf : g = f
    · subst hgf
      rw [hset, Option.some.injEq, Prod.mk.injEq]
      refine ⟨fun ⟨hy, hpos⟩ ↦ ⟨hf, _, _, Store.put_self .., ownerOf_eq hinode, hy, hpos⟩, ?_⟩
      rintro ⟨-, file', o, hfound, ho, rfl, rfl⟩
      obtain rfl := Option.some.inj ((Store.put_self ..).symm.trans hfound)
      obtain rfl := Option.some.inj ((ownerOf_eq hinode).symm.trans ho)
      exact ⟨rfl, rfl⟩
    · rw [hothers hgf, h.files]
      refine and_congr_right fun _ ↦ exists₂_congr fun file' o ↦ ?_
      rw [show (st.fs.withFile f { file with pos := pos }).files g = st.fs.files g from Store.put_of_ne _ hgf _]
      rfl
  · rintro ⟨g, pos', hg⟩
    by_cases hgf : g = f
    · subst hgf
      rw [hset] at hg
      exact ⟨g, file.pos, hopen.trans (congrArg some (Prod.ext (Prod.mk.inj (Option.some.inj hg)).1 rfl))⟩
    · exact ⟨g, pos', hothers hgf ▸ hg⟩

/-! ### Runs -/

/-- There is memory where the machine starts. -/
def Event.Supplied : Event → Prop
  | .call _ => True
  | .restart _ k => ∀ i, k.mallocs i = true

/-- A step of a machine that has memory. -/
def SuppliedStep (st : Session) (event : Event × Reply) (st' : Session) : Prop :=
  EventStep st event st' ∧ event.1.Supplied

theorem after_fs (st : Session) (reply : Reply) (s : State) (call : FsCall) : (call.after st reply s).fs = s := by
  cases call <;> rfl

/-- A transfer with memory moves all bytes that there are. -/
theorem MovesFile.all {file : File} {inode : Inode} {size offset n : ℕ}
    (h : MovesFile s s' f file inode size offset n pos disk) (hmemory : ∀ i, s.mallocs i = true) :
    n = inode.data.avail size offset := by
  obtain ⟨calls, hmoves, -⟩ := h.moved
  exact hmoves.all (Or.inr (hmemory 0))

/-- Every call does what the table says. -/
theorem Views.call (h : Views root st t) (hsound : st.Sound map root b) (hmemory : ∀ i, st.fs.mallocs i = true)
    {call : FsCall} {reply : Reply} (hsound' : (call.after st reply s).Sound map root b')
    (hkeeps : CallKeeps st call s b') (houtcome : call.Outcome map root st b s b' reply)
    (hallowed : call.Allowed st) :
    ∃ t', t.Step (.call call, reply) t' ∧ Views root (call.after st reply s) t' := by
  cases call with
  | filesysCreate name size =>
    cases reply with
    | success ok => exact h.create hsound hsound' hmemory houtcome rfl
    | done | file | count | bytes => exact houtcome.elim
  | filesysOpen name =>
    cases reply with
    | file result => exact h.openName hsound hsound' hmemory houtcome rfl
    | done | success | count | bytes => exact houtcome.elim
  | filesysRemove name =>
    cases reply with
    | success ok => exact h.removeName hsound hsound' hmemory houtcome rfl
    | done | file | count | bytes => exact houtcome.elim
  | fileClose file =>
    cases reply with
    | done => exact ⟨_, rfl, h.closeFile hsound hsound' hkeeps.evolves houtcome.1 houtcome.2 rfl⟩
    | success | file | count | bytes => exact houtcome.elim
  | inodeReopen p =>
    cases reply with
    | done => exact ⟨t, rfl, h.keepMap hsound hsound' hkeeps.evolves rfl houtcome.2 houtcome.1⟩
    | success | file | count | bytes => exact houtcome.elim
  | inodeClose p =>
    cases reply with
    | done => exact ⟨t, rfl, h.keepMap hsound hsound' hkeeps.evolves rfl houtcome.2 houtcome.1⟩
    | success | file | count | bytes => exact houtcome.elim
  | fileSeek f newPos =>
    cases reply with
    | done =>
      obtain ⟨file, inode, hmoves⟩ := houtcome
      obtain ⟨calls, -, rfl⟩ := hmoves.moved
      have htransfer : Views root ⟨st.fs.transfer st.fs.disk calls, st.files, st.held⟩ t :=
        ⟨h.names, h.files, h.contents⟩
      exact ⟨_, rfl, htransfer.seek hallowed.1 hmoves.found hmoves.onInode newPos.toNat⟩
    | success | file | count | bytes => exact houtcome.elim
  | fileRead f buffer size =>
    cases reply with
    | bytes n buffer' =>
      obtain ⟨file, inode, hmoves, rfl⟩ := houtcome
      obtain rfl := hmoves.all hmemory
      obtain ⟨calls, -, rfl⟩ := hmoves.moved
      have htransfer : Views root ⟨st.fs.transfer st.fs.disk calls, st.files, st.held⟩ t :=
        ⟨h.names, h.files, h.contents⟩
      exact ⟨_, ⟨_, _, h.fileOf hallowed hmoves.found hmoves.onInode,
        reads_copy (h.openContents hsound hallowed hmoves.found hmoves.onInode) size file.pos buffer, rfl⟩,
        htransfer.seek hallowed hmoves.found hmoves.onInode _⟩
    | done | success | file | count => exact houtcome.elim
  | fileReadAt f buffer size fileOfs =>
    cases reply with
    | bytes n buffer' =>
      obtain ⟨file, inode, hmoves, rfl⟩ := houtcome
      obtain rfl := hmoves.all hmemory
      obtain ⟨calls, -, rfl⟩ := hmoves.moved
      refine ⟨t, ⟨_, _, h.fileOf hallowed hmoves.found hmoves.onInode,
        reads_copy (h.openContents hsound hallowed hmoves.found hmoves.onInode) size fileOfs buffer, rfl⟩, ?_⟩
      rw [withFile_self hmoves.found]
      exact ⟨h.names, h.files, h.contents⟩
    | done | success | file | count => exact houtcome.elim
  | fileWrite f buffer size =>
    cases reply with
    | count n =>
      obtain ⟨file, inode, hmoves⟩ := houtcome
      obtain rfl := hmoves.all hmemory
      obtain ⟨calls, -, rfl⟩ := hmoves.moved
      have hwrite := h.write hsound hallowed hmoves.found hmoves.onInode ⟨buffer, size, file.pos⟩ calls
      exact ⟨_, ⟨_, _, h.fileOf hallowed hmoves.found hmoves.onInode,
        (bytesAt_length (h.openContents hsound hallowed hmoves.found hmoves.onInode) size file.pos).symm, rfl⟩,
        hwrite.seek hallowed hmoves.found hmoves.onInode _⟩
    | done | success | file | bytes => exact houtcome.elim
  | fileWriteAt f buffer size fileOfs =>
    cases reply with
    | count n =>
      obtain ⟨file, inode, hmoves⟩ := houtcome
      obtain rfl := hmoves.all hmemory
      obtain ⟨calls, -, rfl⟩ := hmoves.moved
      refine ⟨_, ⟨_, _, h.fileOf hallowed hmoves.found hmoves.onInode,
        (bytesAt_length (h.openContents hsound hallowed hmoves.found hmoves.onInode) size fileOfs).symm, rfl⟩, ?_⟩
      rw [withFile_self hmoves.found]
      exact h.write hsound hallowed hmoves.found hmoves.onInode ⟨buffer, size, fileOfs⟩ calls
    | done | success | file | bytes => exact houtcome.elim

/-- A start keeps the names and the bytes of their files. -/
theorem Views.restart {mallocs : ℕ → Bool} (h : Views root st t) (hmounts : Mounts map root st.fs s b b' mallocs) :
    Views root ⟨s, [], []⟩ t.restart where
  names name x := by
    dsimp only
    rw [hmounts.disk]
    exact h.names name x
  files f x pos := iff_of_false (Option.some_ne_none _).symm fun hopen ↦ absurd hopen.1 List.not_mem_nil
  contents x hx := by
    dsimp only
    rw [hmounts.disk]
    refine h.contents x (Or.inl (hx.resolve_right ?_))
    rintro ⟨f, pos, hf⟩
    exact Option.some_ne_none _ hf.symm

/-- A session that the table views, with memory. -/
structure Viewed (map root : InodeDisk) (st : Session) (t : Table) : Prop where
  sound : ∃ b, st.Sound map root b
  memory : ∀ i, st.fs.mallocs i = true
  views : Views root st t

theorem Viewed.step {event : Event × Reply} (h : Viewed map root st t) (hstep : SuppliedStep st event st') :
    ∃ t', t.Step event t' ∧ Viewed map root st' t' := by
  obtain ⟨hstep, hsupplied⟩ := hstep
  obtain ⟨b, hsound⟩ := h.sound
  obtain ⟨event, reply⟩ := event
  cases event with
  | call call =>
    obtain ⟨hallowed, s, hexec, rfl⟩ := hstep
    obtain ⟨reply', s', b', hexec', hsound', hkeeps, houtcome⟩ := hsound.call call hallowed
    obtain ⟨rfl, rfl⟩ := Prod.mk.inj (Option.some.inj (hexec.symm.trans hexec'))
    obtain ⟨t', hdoes, hviews⟩ := h.views.call hsound h.memory hsound' hkeeps houtcome hallowed
    refine ⟨t', hdoes, ⟨b', hsound'⟩, ?_, hviews⟩
    rw [after_fs]
    exact hkeeps.evolves.memory h.memory
  | restart down k =>
    cases reply with
    | done =>
      obtain ⟨b', hmounts, heq⟩ := hsound.restart hstep
      rw [heq]
      refine ⟨t.restart, rfl, ⟨b', hmounts.sound⟩, fun i ↦ ?_, h.views.restart hmounts⟩
      obtain ⟨c, hmallocs⟩ := hmounts.mallocs
      exact (hmallocs i).trans (hsupplied _)
    | success | file | count | bytes => exact hstep.elim

theorem Formatted.viewed (h : Formatted map root s) (hmemory : ∀ i, s.mallocs i = true) :
    Viewed map root ⟨s, [], []⟩ Table.empty where
  sound := h.sound
  memory := hmemory
  views :=
    { names := fun name x ↦ iff_of_false (Option.some_ne_none x).symm fun ⟨k, hk, hentry⟩ ↦
        Option.some_ne_none _ (hentry.symm.trans (h.entries k hk))
      files := fun f x pos ↦ iff_of_false (Option.some_ne_none _).symm fun hopen ↦ absurd hopen.1 List.not_mem_nil
      contents := fun x hx ↦ by
        rcases hx with ⟨name, hname⟩ | ⟨f, pos, hf⟩
        · exact absurd hname.symm (Option.some_ne_none x)
        · exact absurd hf.symm (Option.some_ne_none _) }

/-- Every run on a formatted disk, with memory, is a run of the table with the same replies. -/
theorem run_refines_table {k : Kernel} {capacity : ℕ} {events : List (Event × Reply)}
    (hformats : k.Formats disk capacity s) (hmemory : ∀ i, k.mallocs i = true)
    (hrun : Run SuppliedStep ⟨s, [], []⟩ events st) :
    ∃ t, Run Table.Step Table.empty events t ∧ Views (diskInode s.disk ROOT_DIR_SECTOR) st t := by
  have hviewed := hformats.formatted.viewed (hformats.memory hmemory)
  obtain ⟨t, habstract, hlast⟩ := hrun.forward (fun _ _ _ _ ↦ Viewed.step) hviewed
  exact ⟨t, habstract, hlast.views⟩

theorem run_refines_table_ample : ∃ (s : State) (reply : Reply) (st : Session) (t : Table), Run Table.Step Table.empty
    [(.call (.filesysCreate [97] 600), reply), (.restart true .ample, .done)] t ∧
    Views (diskInode s.disk ROOT_DIR_SECTOR) st t := by
  obtain ⟨s, reply, st, st', hformats, hcreate, hrestart⟩ := exists_events
  obtain ⟨t, hrun, hviews⟩ := run_refines_table hformats (fun _ ↦ rfl)
    (.cons ⟨hcreate, trivial⟩ (.cons ⟨hrestart, fun _ ↦ rfl⟩ (.nil st')))
  exact ⟨s, reply, st', t, hrun, hviews⟩

end Jungle.FileSys
