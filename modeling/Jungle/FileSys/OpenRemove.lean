import Jungle.FileSys.RootDir

/-!
# Opening and removing files by name

`filesys_open` and `filesys_remove` keep a volume sound.
-/

set_option autoImplicit false
set_option relaxedAutoImplicit false

namespace Jungle.FileSys

open Jungle.Lib Jungle.Bitmap

variable {map root : InodeDisk} {s : State} {b : Books} {files held : List ℕ}

/-- What a call of `filesys_open` does. -/
structure OpensName (map root : InodeDisk) (s s' : State) (name : List UInt8) (result : Option ℕ) : Prop where
  evolves : Evolves s s'
  writes : WritesTo map s.disk s'.disk
  opened : ∀ f ∈ result, s.files f = none ∧ ∃ q o, s'.files = s.files.put f ⟨q, 0, false⟩ ∧
    ownerOf s'.inodes q = some o ∧ ∃ k < root.slots, root.entry s.disk k = some (name, o.1)
  fails : result = none → s'.files = s.files
  found : (∀ i, s.mallocs i = true) → ∀ k < root.slots, ∀ x, root.entry s.disk k = some (name, x) →
    result.isSome

theorem OpensName.keeps {s' : State} {name : List UInt8} {result : Option ℕ}
    (h : OpensName map root s s' name result) {f : ℕ} (hf : s.files f ≠ none) :
    s'.files f = s.files f := by
  cases result with
  | none => rw [h.fails rfl]
  | some g =>
    obtain ⟨hnone, q, o, hfiles, -⟩ := h.opened g rfl
    rw [hfiles, Store.put_of_ne]
    rintro rfl
    exact hf hnone

/-- `filesys_open` opens another file, or none, and keeps the volume sound. -/
theorem Volume.filesysOpen (h : Volume map root s b) (hof : b.Of s files held) (name : List UInt8) :
    ∃ result s' b', FileSys.filesysOpen s name = some (result, s') ∧ Volume map root s' b' ∧
      b'.Of s' (result.toList ++ files) held ∧ OpensName map root s s' name result := by
  obtain ⟨hcells, rfl, rfl⟩ := hof
  obtain ⟨dir, s₁, hroot, h₁, hopensRoot⟩ := h.dirOpenRoot
  have hquiet₁ := hopensRoot.quiet
  cases dir with
  | none =>
    refine ⟨none, s₁.transfer s₁.disk 1, b, ?_, h₁.transfer 1, ⟨hcells.trans hquiet₁.files.symm, rfl, rfl⟩,
      hquiet₁.evolves.trans (evolves_transfer ..), ?_, fun f hf ↦ absurd hf (Option.not_mem_none f),
      fun _ ↦ hquiet₁.files, fun hall _ _ _ _ ↦ ?_⟩
    · simp only [FileSys.filesysOpen, hroot, Option.bind_eq_bind, Option.bind_some, dirClose,
        FileSys.inodeClose, FileSys.fileOpen, malloc_eq]
      rfl
    · exact hquiet₁.disk ▸ writesTo_refl map s.disk
    · exact hopensRoot.succeeds.mpr fun i _ ↦ hall i
  | some p =>
    have hp := hopensRoot.opened p rfl
    obtain ⟨inode, s₂, hlookup, h₂, hlooks⟩ := h₁.dirLookup hp name
    have hquiet₂ := hlooks.quiet
    have hp₂ := hlooks.survives p _ hp
    have hheld : p ∈ inode.toList ++ p :: b.held := List.mem_append_right _ List.mem_cons_self
    obtain ⟨s₃, hclose, h₃, hquiet₃⟩ := h₂.closeRoot hheld hp₂
    have hquiet := (hquiet₁.trans hquiet₂).trans hquiet₃
    have hcall : FileSys.filesysOpen s name = FileSys.fileOpen s₃ inode := by
      simp only [FileSys.filesysOpen, hroot, hlookup, dirClose, hclose, Option.bind_eq_bind,
        Option.bind_some]
    have hdisk₁ : s₁.disk = s.disk := hquiet₁.disk
    cases inode with
    | none =>
      refine ⟨none, s₃.transfer s₃.disk 1, b, ?_, ?_, ⟨hcells.trans hquiet.files.symm, rfl, rfl⟩,
        hquiet.evolves.trans (evolves_transfer ..), ?_, fun f hf ↦ absurd hf (Option.not_mem_none f),
        fun _ ↦ hquiet.files, fun hall k hk x hentry ↦ ?_⟩
      · rw [hcall]
        rfl
      · have herase : ((none : Option ℕ).toList ++ p :: b.held).erase p = b.held :=
          List.erase_cons_head ..
        have h₄ := h₃.transfer 1
        change Volume map root _ { b with held := ((none : Option ℕ).toList ++ p :: b.held).erase p } at h₄
        rwa [herase] at h₄
      · exact hquiet.disk ▸ writesTo_refl map s.disk
      · exact hlooks.found (hquiet₁.evolves.memory hall) k hk x (hdisk₁ ▸ hentry)
    | some q =>
      obtain ⟨k, hk, o, hentry, ho⟩ := hlooks.named q rfl
      have huser : ROOT_DIR_SECTOR < o.1 := h₁.named o.1 ⟨k, hk, name, hentry⟩
      have hne : q ≠ p := by
        rintro rfl
        rw [Option.some.inj (ho.symm.trans hp₂)] at huser
        exact Nat.lt_irrefl _ huser
      have herase : ((some q).toList ++ p :: b.held).erase p = q :: b.held := by
        change (q :: p :: b.held).erase p = q :: b.held
        rw [List.erase_cons_tail (by simpa using hne), List.erase_cons_head]
      change Volume map root s₃ { b with held := ((some q).toList ++ p :: b.held).erase p } at h₃
      rw [herase] at h₃
      obtain ⟨inode, hinode⟩ := h₃.heldOwner List.mem_cons_self
      have hsector : (inode.sector, inode.data) = o := by
        have hsame := hquiet₃.evolves.same q (h₂.lt_next ho) _ (ownerOf_eq hinode)
        exact Option.some.inj (hsame.symm.trans ho)
      subst hsector
      obtain ⟨result, s₄, b₄, hopen, h₄, hof₄, hopens⟩ :=
        h₃.fileOpen (show Books.Of _ s₃ b.files (q :: b.held) from ⟨hcells.trans hquiet.files.symm, rfl, rfl⟩)
          hinode List.mem_cons_self huser
      rw [List.erase_cons_head] at hof₄
      have hfiles : s₃.files = s.files := hquiet.files
      refine ⟨result, s₄, b₄, hcall.trans hopen, h₄, hof₄, hquiet.evolves.trans hopens.evolves, ?_,
        fun f hf ↦ ?_, fun hnone ↦ ?_, fun hall _ _ _ _ ↦ ?_⟩
      · exact hquiet.disk ▸ hopens.writes
      · obtain ⟨hnone, hinodes⟩ := hopens.fresh f hf
        obtain rfl := Option.mem_def.mp hf
        refine ⟨hfiles ▸ hnone, q, _, hfiles ▸ hopens.files, ?_, k, hk, hdisk₁ ▸ hentry⟩
        rw [hinodes]
        exact ownerOf_eq hinode
      · have hsame := hopens.files
        rw [hnone] at hsame
        exact hsame.trans hfiles
      · rw [hopens.succeeds]
        exact hquiet.evolves.memory hall 0

/-- `filesys_remove` keeps the volume sound. -/
theorem Volume.filesysRemove (h : Volume map root s b) (name : List UInt8) :
    ∃ ok s' b', FileSys.filesysRemove s name = some (ok, s') ∧ Volume map root s' b' ∧
      RemovesName root s s' b b' name ok := by
  obtain ⟨dir, s₁, hroot, h₁, hopensRoot⟩ := h.dirOpenRoot
  have hquiet₁ := hopensRoot.quiet
  have hdisk₁ : s₁.disk = s.disk := hquiet₁.disk
  cases dir with
  | none =>
    refine ⟨false, s₁, b, ?_, h₁, ⟨rfl, rfl, rfl⟩, hquiet₁.evolves, hquiet₁.files,
      hdisk₁ ▸ keepsUsers_refl _ _, h₁.sectors.stored, fun _ ↦ hdisk₁ ▸ sameEntries_refl _ _,
      fun hok ↦ absurd hok Bool.false_ne_true, fun hall _ _ _ _ ↦ ?_⟩
    · simp only [FileSys.filesysRemove, hroot, Option.bind_eq_bind, Option.bind_some, dirClose,
        FileSys.inodeClose, Option.pure_def]
    · exact hopensRoot.succeeds.mpr fun i _ ↦ hall i
  | some p =>
    have hp := hopensRoot.opened p rfl
    obtain ⟨ok, s₂, b₂, hremove, h₂, hremoves, hp₂⟩ := h₁.dirRemove hp name
    have hheld₂ : b₂.held = p :: b.held := hremoves.same.held
    obtain ⟨s₃, hclose, h₃, hquiet₃⟩ := h₂.closeRoot (hheld₂ ▸ List.mem_cons_self) hp₂
    have hdisk₃ : s₃.disk = s₂.disk := hquiet₃.disk
    refine ⟨ok, s₃, _, ?_, h₃, ⟨hremoves.same.cells, hremoves.same.files, ?_⟩,
      (hquiet₁.evolves.trans hremoves.evolves).trans hquiet₃.evolves,
      (hquiet₃.files.trans hremoves.files).trans hquiet₁.files, ?_, ?_, ?_, ?_, fun hall ↦ ?_⟩
    · simp only [FileSys.filesysRemove, hroot, hremove, dirClose, hclose, Option.bind_eq_bind,
        Option.bind_some, Option.pure_def]
    · change b₂.held.erase p = b.held
      rw [hheld₂, List.erase_cons_head]
    · rw [hdisk₃, ← hdisk₁]
      exact hremoves.users
    · rw [hdisk₃]
      exact hremoves.inodes
    · rw [hdisk₃, ← hdisk₁]
      exact hremoves.fails
    · rw [hdisk₃, ← hdisk₁]
      exact hremoves.removes
    · rw [← hdisk₁]
      exact hremoves.found (hquiet₁.evolves.memory hall)

end Jungle.FileSys
