import Jungle.KernelList.Rings

/-!
# The functions of the library on rings

What inserting, removing, splicing and reversing do to the cells of one or two rings. Each function
changes the cells at the ends of the ranges it moves only (`Edits`).
-/

set_option autoImplicit false
set_option relaxedAutoImplicit false

namespace Jungle.KernelList

open Jungle.Lib

/-- Only the given cells have changed. -/
structure Edits (m m' : Elems) (cells : List ℕ) : Prop where
  same : ∀ b ∉ cells, m' b = m b
  allocated : ∀ b, (m' b).isSome = (m b).isSome

variable {m m' m'' : Elems} {F B mid nodes cells cells' : List ℕ} {a b x y f z e : ℕ}
  {p : Option ℕ} {list : KList}

theorem Edits.refl (m : Elems) (cells : List ℕ) : Edits m m cells := ⟨fun _ _ ↦ rfl, fun _ ↦ rfl⟩

theorem Edits.trans (h : Edits m m' cells) (h' : Edits m' m'' cells') :
    Edits m m'' (cells ++ cells') where
  same b hb := by
    rw [List.mem_append, not_or] at hb
    rw [h'.same b hb.2, h.same b hb.1]
  allocated b := (h'.allocated b).trans (h.allocated b)

theorem Edits.mono (h : Edits m m' cells) (hsub : cells ⊆ cells') : Edits m m' cells' :=
  ⟨fun b hb ↦ h.same b fun hmem ↦ hb (hsub hmem), h.allocated⟩

theorem edits_putNext (m : Elems) (a : ℕ) (p : Option ℕ) : Edits m (putNext m a p) [a] :=
  ⟨fun _ hb ↦ putNext_of_ne fun h ↦ hb (List.mem_singleton.mpr h), fun _ ↦ isSome_putNext⟩

theorem edits_putPrev (m : Elems) (a : ℕ) (p : Option ℕ) : Edits m (putPrev m a p) [a] :=
  ⟨fun _ hb ↦ putPrev_of_ne fun h ↦ hb (List.mem_singleton.mpr h), fun _ ↦ isSome_putPrev⟩

/-! ### Assertions -/

theorem assert_true : assert true = some () := rfl

/-- A cell behind another one is an interior element or a tail. -/
theorem exists_isInterior_isTail (h : prev m y = some (some x)) : ∃ interior tail,
    isInterior m y = some interior ∧ isTail m y = some tail ∧ (interior || tail) = true := by
  obtain ⟨q, hq⟩ := Option.isSome_iff_exists.mp (isSome_of_prev h)
  have hnext : next m y = some q.next := by rw [next, hq, Option.map_some]
  refine ⟨_, _, by simp only [isInterior, h, hnext]; rfl, by simp only [isTail, h, hnext]; rfl, ?_⟩
  cases q.next <;> rfl

/-- A cell between two others is an interior element. -/
theorem isInterior_eq (hprev : prev m e = some (some x)) (hnext : next m e = some (some y)) :
    isInterior m e = some true := by
  simp [isInterior, hprev, hnext]

/-! ### Reading a ring -/

/-- `list_next` in a ring. -/
theorem Ring.listNext_eq (h : Ring m (F ++ x :: y :: B)) : listNext m x = some (some y) := by
  obtain ⟨q, hq⟩ := Option.isSome_iff_exists.mp (h.allocated (a := x) (by simp))
  have hprev : prev m x = some q.prev := by rw [prev, hq, Option.map_some]
  cases hlink : q.prev <;> simp [listNext, isHead, isInterior, hprev, h.next_eq, hlink, assert_true]

/-- `list_prev` in a ring. -/
theorem Ring.listPrev_eq (h : Ring m (F ++ x :: y :: B)) : listPrev m y = some (some x) := by
  obtain ⟨i, t, hinterior, htail, hassert⟩ := exists_isInterior_isTail h.prev_eq
  simp [listPrev, hinterior, htail, hassert, assert_true, h.prev_eq]

/-! ### Allocation -/

theorem setPrev_allocated (h : setPrev m a p = some m') (b : ℕ) : (m' b).isSome = (m b).isSome :=
  Store.isSome_of_update? h b

theorem setNext_allocated (h : setNext m a p = some m') (b : ℕ) : (m' b).isSome = (m b).isSome :=
  Store.isSome_of_update? h b

/-- `list_insert` allocates nothing and frees nothing. -/
theorem listInsert_allocated (h : listInsert m x e = some m') (b : ℕ) :
    (m' b).isSome = (m b).isSome := by
  simp only [listInsert, Option.bind_eq_bind, Option.bind_eq_some_iff] at h
  obtain ⟨_, -, _, -, _, -, _, -, m₁, h₁, m₂, h₂, _, -, _, -, m₃, h₃, h₄⟩ := h
  rw [setPrev_allocated h₄, setNext_allocated h₃, setNext_allocated h₂, setPrev_allocated h₁]

/-- `list_remove` allocates nothing and frees nothing. -/
theorem listRemove_allocated {q : Option ℕ} (h : listRemove m e = some (q, m')) (b : ℕ) :
    (m' b).isSome = (m b).isSome := by
  simp only [listRemove, Option.bind_eq_bind, Option.bind_eq_some_iff, Option.pure_def,
    Option.some.injEq, Prod.mk.injEq] at h
  obtain ⟨_, -, _, -, _, -, _, -, _, -, m₁, h₁, _, -, _, -, _, -, m₂, h₂, _, -, -, rfl⟩ := h
  rw [setPrev_allocated h₂, setNext_allocated h₁]

theorem listPushBack_allocated (h : listPushBack m list e = some m') (b : ℕ) :
    (m' b).isSome = (m b).isSome :=
  listInsert_allocated h b

theorem listPushFront_allocated (h : listPushFront m list e = some m') (b : ℕ) :
    (m' b).isSome = (m b).isSome := by
  simp only [listPushFront, Option.bind_eq_bind, Option.bind_eq_some_iff] at h
  obtain ⟨_, -, _, -, hinsert⟩ := h
  exact listInsert_allocated hinsert b

theorem listPopFront_allocated (h : listPopFront m list = some (e, m')) (b : ℕ) :
    (m' b).isSome = (m b).isSome := by
  simp only [listPopFront, Option.bind_eq_bind, Option.bind_eq_some_iff, Option.pure_def,
    Option.some.injEq, Prod.mk.injEq] at h
  obtain ⟨_, -, _, -, ⟨_, m₁⟩, hremove, -, rfl⟩ := h
  exact listRemove_allocated hremove b

/-! ### Initialising and inserting -/

/-- `list_init` links the head and the tail of a list to each other. -/
theorem listInit_ring (hhead : (m list.head).isSome) (htail : (m list.tail).isSome)
    (hne : list.head ≠ list.tail) : ∃ m', listInit m list = some m' ∧
      Ring m' [list.head, list.tail] ∧ Edits m m' [list.head, list.tail] := by
  refine ⟨putNext (putPrev (putNext (putPrev m list.head none) list.head (some list.tail))
    list.tail (some list.head)) list.tail none, ?_, ⟨?_, fun a ha ↦ ?_, fun a ha ↦ ?_⟩, ?_⟩
  · simp only [listInit, Option.bind_eq_bind, Option.bind_some, setPrev_eq, setNext_eq,
      isSome_putPrev, isSome_putNext, hhead, htail]
  · refine links_cons_cons.mpr ⟨⟨?_, ?_⟩, links_singleton⟩
    · rw [after_eq, next_putNext_of_ne hne, next_putPrev, next_putNext_self (by simpa using hhead),
        Option.join_some]
    · rw [before_eq, prev_putNext, prev_putPrev_self (by simpa using htail), Option.join_some]
  · obtain rfl := Option.some.inj ha
    rw [prev_putNext, prev_putPrev_of_ne hne, prev_putNext, prev_putPrev_self hhead]
  · obtain rfl := Option.some.inj ha
    exact next_putNext_self (by simpa using htail)
  · exact (((edits_putPrev ..).trans (edits_putNext ..)).trans (edits_putPrev ..)).trans
      (edits_putNext ..) |>.mono (by simp)

/-- The writes that link a range of cells in between two cells. -/
def pasteRange (m : Elems) (x f z y : ℕ) : Elems :=
  putPrev (putNext (putNext (putPrev m f (some x)) z (some y)) x (some f)) y (some z)

theorem pasteRange_pasted (hx : (m x).isSome) (hf : (m f).isSome) (hz : (m z).isSome)
    (hy : (m y).isSome) (hxz : x ≠ z) (hyf : y ≠ f) : Pasted m (pasteRange m x f z y) x f z y where
  next_first := by simp [pasteRange, next_putNext_self, hx]
  prev_first := by
    rw [pasteRange, prev_putPrev_of_ne hyf.symm, prev_putNext, prev_putNext, prev_putPrev_self hf]
  next_last := by
    rw [pasteRange, next_putPrev, next_putNext_of_ne hxz.symm, next_putNext_self (by simpa using hz)]
  prev_last := by simp [pasteRange, prev_putPrev_self, hy]
  next_same b hbx hbz := by
    rw [pasteRange, next_putPrev, next_putNext_of_ne hbx, next_putNext_of_ne hbz, next_putPrev]
  prev_same b hbf hby := by
    rw [pasteRange, prev_putPrev_of_ne hby, prev_putNext, prev_putNext, prev_putPrev_of_ne hbf]

theorem edits_pasteRange (m : Elems) (x f z y : ℕ) :
    Edits m (pasteRange m x f z y) [x, f, z, y] :=
  (((edits_putPrev ..).trans (edits_putNext ..)).trans (edits_putNext ..)).trans
    (edits_putPrev ..) |>.mono (by simp)

/-- `list_insert` puts a cell in front of another one. -/
theorem listInsert_ring (h : Ring m (F ++ x :: y :: B)) (hnodup : (F ++ x :: e :: y :: B).Nodup)
    (he : (m e).isSome) : ∃ m', listInsert m y e = some m' ∧ Ring m' (F ++ x :: e :: y :: B) ∧
      Edits m m' [x, e, y] := by
  have hx : (m x).isSome := h.allocated (by simp)
  have hy : (m y).isSome := h.allocated (by simp)
  have hxe : x ≠ e ∧ y ≠ e := by grind
  have hprev : prev m y = some (some x) := h.prev_eq
  obtain ⟨interior, tail, hinterior, htail, hassert⟩ := exists_isInterior_isTail hprev
  have hring : Ring (pasteRange m x e e y) (F ++ x :: ([e] ++ y :: B)) :=
    h.paste links_singleton rfl rfl hnodup (pasteRange_pasted hx he he hy hxe.1 hxe.2)
  refine ⟨pasteRange m x e e y, ?_, hring, (edits_pasteRange ..).mono (by simp)⟩
  have hafter : prev (putNext (putPrev m e (some x)) e (some y)) y = some (some x) := by
    rw [prev_putNext, prev_putPrev_of_ne hxe.2, hprev]
  simp only [listInsert, hinterior, htail, hassert, assert_true, hprev, Option.bind_eq_bind,
    Option.bind_some, setPrev_eq he, setNext_eq, isSome_putPrev, isSome_putNext, he, hx, hafter,
    setPrev_eq, hy, pasteRange]

/-! ### Removing -/

/-- The writes that link two cells to each other. -/
def relink (m : Elems) (x y : ℕ) : Elems := putPrev (putNext m x (some y)) y (some x)

theorem relink_relinked (hx : (m x).isSome) (hy : (m y).isSome) :
    Relinked m (relink m x y) x y where
  next_eq := by rw [relink, next_putPrev, next_putNext_self hx]
  prev_eq := prev_putPrev_self (by rwa [isSome_putNext])
  next_same b hb := by rw [relink, next_putPrev, next_putNext_of_ne hb]
  prev_same b hb := by rw [relink, prev_putPrev_of_ne hb, prev_putNext]

theorem edits_relink (m : Elems) (x y : ℕ) : Edits m (relink m x y) [x, y] :=
  (edits_putNext ..).trans (edits_putPrev ..)

/-- `list_remove` takes a cell out of a ring and returns the next one. -/
theorem listRemove_ring (h : Ring m (F ++ x :: e :: y :: B))
    (hnodup : (F ++ x :: e :: y :: B).Nodup) :
    ∃ m', listRemove m e = some (some y, m') ∧ Ring m' (F ++ x :: y :: B) ∧ Edits m m' [x, y] := by
  have hx : (m x).isSome := h.allocated (by simp)
  have hy : (m y).isSome := h.allocated (by simp)
  have hxe : e ≠ x ∧ e ≠ y := by grind
  have hprev : prev m e = some (some x) := h.prev_eq
  have hnext : next m e = some (some y) := by
    have h' : Ring m ((F ++ [x]) ++ e :: y :: B) := by rwa [← List.append_cons]
    exact h'.next_eq
  have hwhole : Ring m (F ++ x :: ([e] ++ y :: B)) := h
  have hring := (hwhole.cut hnodup (relink_relinked hx hy)).1
  refine ⟨relink m x y, ?_, hring, edits_relink ..⟩
  have hnext₁ : next (putNext m x (some y)) e = some (some y) := by
    rw [next_putNext_of_ne hxe.1, hnext]
  have hprev₁ : prev (putNext m x (some y)) e = some (some x) := by
    rw [prev_putNext, hprev]
  have hnext₂ : next (relink m x y) e = some (some y) := by
    rw [relink, next_putPrev, hnext₁]
  rw [relink] at hnext₂
  simp only [listRemove, isInterior_eq hprev hnext, assert_true, hprev, hnext, Option.bind_eq_bind,
    Option.bind_some, setNext_eq, hx, hnext₁, hprev₁, setPrev_eq, isSome_putNext, hy, hnext₂,
    Option.pure_def, relink]

/-! ### Splicing -/

/-- The links of a range of cells in a ring to the cells around it. -/
theorem Ring.range_eq (h : Ring m (F ++ x :: (mid ++ y :: B))) (hf : mid.head? = some f)
    (hz : mid.getLast? = some z) : prev m f = some (some x) ∧ next m z = some (some y) ∧
      prev m y = some (some z) ∧ (∃ w, next m f = some (some w)) ∧
      ∃ w, prev m z = some (some w) := by
  obtain ⟨rest, hrest⟩ := List.head?_eq_some_iff.mp hf
  obtain ⟨init, hinit⟩ := List.getLast?_eq_some_iff.mp hz
  have hfirst : Ring m (F ++ x :: f :: (rest ++ y :: B)) := by rwa [hrest] at h
  have hlast : Ring m ((F ++ x :: init) ++ z :: y :: B) := by
    rw [hinit] at h
    simpa using h
  refine ⟨hfirst.prev_eq, hlast.next_eq, hlast.prev_eq, ?_, ?_⟩
  · have hnext : Ring m ((F ++ [x]) ++ f :: (rest ++ y :: B)) := by rwa [← List.append_cons]
    cases rest with
    | nil => exact ⟨y, hnext.next_eq⟩
    | cons w rest => exact ⟨w, hnext.next_eq⟩
  · rcases List.eq_nil_or_concat init with rfl | ⟨init, w, rfl⟩
    · have hprev : Ring m (F ++ x :: z :: (y :: B)) := by simpa using hlast
      exact ⟨x, hprev.prev_eq⟩
    · have hprev : Ring m ((F ++ x :: init) ++ w :: z :: (y :: B)) := by simpa using hlast
      exact ⟨w, hprev.prev_eq⟩

/-- `list_splice` moves a range of cells in front of another cell. The range is that from `f` to `z`
in a ring, and the cell `y'` is in the ring that is left, once its ends are linked to each other, or
in another one. -/
theorem listSplice_ring {F' B' : List ℕ} {x' y' : ℕ} (h : Ring m (F ++ x :: (mid ++ y :: B)))
    (hnodup : (F ++ x :: (mid ++ y :: B)).Nodup) (hf : mid.head? = some f)
    (hz : mid.getLast? = some z) (hring : Ring (relink m x y) (F' ++ x' :: y' :: B'))
    (hnodup' : (F' ++ x' :: (mid ++ y' :: B')).Nodup) (hbehind : ∃ w, prev m y' = some (some w)) :
    ∃ m', listSplice m y' f y = some m' ∧ Ring m' (F' ++ x' :: (mid ++ y' :: B')) ∧
      Edits (relink m x y) m' [x', f, z, y'] := by
  have hfmem : f ∈ mid := List.mem_of_mem_head? hf
  have hzmem : z ∈ mid := List.mem_of_mem_getLast? hz
  have hapart : f ≠ y ∧ z ≠ x := by grind
  have hapart' : y' ≠ f ∧ x' ≠ z := by grind
  obtain ⟨hprevF, hnextZ, hprevY, ⟨wf, hnextF⟩, wz, hprevZ⟩ := h.range_eq hf hz
  obtain ⟨w, hbehind⟩ := hbehind
  have hx : (m x).isSome := h.allocated (by simp)
  have hy : (m y).isSome := h.allocated (by simp)
  have hfs : (m f).isSome := isSome_of_prev hprevF
  have hzs : (m z).isSome := isSome_of_prev hprevZ
  have hedits := edits_relink m x y
  have hx' : (m x').isSome := (hedits.allocated x').symm.trans (hring.allocated (by simp))
  have hy' : (m y').isSome := isSome_of_prev hbehind
  have hmid : Links (after (relink m x y)) (before (relink m x y)) mid :=
    (h.cut hnodup (relink_relinked hx hy)).2
  have hpasted : Pasted (relink m x y) (pasteRange (relink m x y) x' f z y') x' f z y' :=
    pasteRange_pasted (by rwa [hedits.allocated]) (by rwa [hedits.allocated])
      (by rwa [hedits.allocated]) (by rwa [hedits.allocated]) hapart'.2 hapart'.1
  refine ⟨pasteRange (relink m x y) x' f z y', ?_, hring.paste hmid hf hz hnodup' hpasted,
    edits_pasteRange ..⟩
  obtain ⟨i, t, hinterior, htail, hassert⟩ := exists_isInterior_isTail hbehind
  obtain ⟨i', t', hinterior', htail', hassert'⟩ := exists_isInterior_isTail hprevY
  have hnextZ₁ : next (putNext m x (some y)) z = some (some y) := by
    rw [next_putNext_of_ne hapart.2, hnextZ]
  have hprevF₁ : prev (putNext m x (some y)) f = some (some x) := by
    rw [prev_putNext, hprevF]
  have hprevY' : prev (relink m x y) y' = some (some x') := hring.prev_eq
  have hprevY₄ : prev (putNext (putPrev (relink m x y) f (some x')) z (some y')) y' =
      some (some x') := by
    rw [prev_putNext, prev_putPrev_of_ne hapart'.1, hprevY']
  rw [relink] at hprevY' hprevY₄
  simp only [listSplice, hinterior, htail, hassert, assert_true, if_neg hapart.1, listPrev,
    hinterior', htail', hassert', hprevY, isInterior_eq hprevF hnextF, isInterior_eq hprevZ hnextZ,
    hprevF, hnextZ, hnextZ₁, hprevF₁, hprevY', hprevY₄, Option.bind_eq_bind, Option.bind_some,
    setNext_eq, setPrev_eq, isSome_putNext, isSome_putPrev, hx, hy, hx', hy', hfs, hzs, relink,
    pasteRange]

/-- `list_splice` of an empty range. -/
theorem listSplice_self (hbehind : prev m y = some (some x)) (f : ℕ) :
    listSplice m y f f = some m := by
  obtain ⟨interior, tail, hinterior, htail, hassert⟩ := exists_isInterior_isTail hbehind
  simp only [listSplice, hinterior, htail, hassert, assert_true, Option.bind_eq_bind,
    Option.bind_some, if_true, Option.pure_def]

end Jungle.KernelList
