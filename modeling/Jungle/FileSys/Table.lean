import Jungle.FileSys.VolumeRuns

/-!
# Named files

What the file system is for, as a table of names, of the bytes of files, and of the open files with their
positions. A file that has neither a name nor an open file is gone. The steps of a table (`Table.Step`) say what
each call returns and does, where there is memory; `filesys_create` may fail for want of room.
-/

set_option autoImplicit false
set_option relaxedAutoImplicit false

namespace Jungle.FileSys

open Jungle.Lib

/-- The files that names stand for, the bytes of the files, and the open files, each with the file that it is
open on and its position. -/
structure Table where
  names : List UInt8 → Option ℕ
  contents : ℕ → List UInt8
  files : ℕ → Option (ℕ × ℕ)

namespace Table

/-- No file. -/
def empty : Table := ⟨fun _ ↦ none, fun _ ↦ [], fun _ ↦ none⟩

/-- A file that has a name or is open. -/
def Live (t : Table) (x : ℕ) : Prop := (∃ name, t.names name = some x) ∨ ∃ f pos, t.files f = some (x, pos)

/-- A name for a file with zeros. -/
def create (t : Table) (name : List UInt8) (x size : ℕ) : Table :=
  { t with
    names := Function.update t.names name (some x)
    contents := Function.update t.contents x (List.replicate size 0) }

/-- A file is open that was not. -/
def openFile (t : Table) (f x : ℕ) : Table := { t with files := Function.update t.files f (some (x, 0)) }

/-- A name that stands for no file. -/
def remove (t : Table) (name : List UInt8) : Table := { t with names := Function.update t.names name none }

/-- A file is open no more. -/
def close (t : Table) (f : Option ℕ) : Table :=
  { t with files := f.elim t.files fun f ↦ Function.update t.files f none }

/-- The position of an open file. -/
def seek (t : Table) (f pos : ℕ) : Table :=
  { t with files := Function.update t.files f ((t.files f).map fun file ↦ (file.1, pos)) }

/-- The bytes of a file from a position on, at most so many. -/
def bytesAt (t : Table) (x size pos : ℕ) : List UInt8 := ((t.contents x).drop pos).take size

/-- The bytes of a file with those of a write in place of the old ones. -/
def write (t : Table) (x : ℕ) (w : Write) : Table :=
  { t with contents := Function.update t.contents x (overwrite (t.contents x) w) }

/-- No file is open. -/
def restart (t : Table) : Table := { t with files := fun _ ↦ none }

/-- The bytes read and the buffer with them. -/
def Reads (t : Table) (x size pos : ℕ) (buffer : Bytes) (n : ℕ) (buffer' : Bytes) : Prop :=
  n = (t.bytesAt x size pos).length ∧ buffer' = fun i ↦ (t.bytesAt x size pos).getD i (buffer i)

/-- What each event does to a table. -/
def Step (t : Table) : Event × Reply → Table → Prop
  | (.call (.filesysCreate name size), .success true), t' =>
    IsName name ∧ t.names name = none ∧ ∃ x, ¬t.Live x ∧ t' = t.create name x size.toNat
  | (.call (.filesysCreate _ _), .success false), t' => t' = t
  | (.call (.filesysOpen name), .file none), t' => t.names name = none ∧ t' = t
  | (.call (.filesysOpen name), .file (some f)), t' =>
    ∃ x, t.names name = some x ∧ t.files f = none ∧ t' = t.openFile f x
  | (.call (.filesysRemove name), .success ok), t' => ok = (t.names name).isSome ∧ t' = t.remove name
  | (.call (.fileClose f), .done), t' => t' = t.close f
  | (.call (.inodeReopen _), .done), t' | (.call (.inodeClose _), .done), t' => t' = t
  | (.call (.fileSeek f newPos), .done), t' => t' = t.seek f newPos.toNat
  | (.call (.fileRead f buffer size), .bytes n buffer'), t' => ∃ x pos, t.files f = some (x, pos) ∧
    t.Reads x size pos buffer n buffer' ∧ t' = t.seek f (pos + n)
  | (.call (.fileReadAt f buffer size fileOfs), .bytes n buffer'), t' => ∃ x pos, t.files f = some (x, pos) ∧
    t.Reads x size fileOfs buffer n buffer' ∧ t' = t
  | (.call (.fileWrite f buffer size), .count n), t' => ∃ x pos, t.files f = some (x, pos) ∧
    n = (t.bytesAt x size pos).length ∧ t' = (t.write x ⟨buffer, size, pos⟩).seek f (pos + n)
  | (.call (.fileWriteAt f buffer size fileOfs), .count n), t' => ∃ x pos, t.files f = some (x, pos) ∧
    n = (t.bytesAt x size fileOfs).length ∧ t' = t.write x ⟨buffer, size, fileOfs⟩
  | (.restart _ _, .done), t' => t' = t.restart
  | _, _ => False

end Table

end Jungle.FileSys
