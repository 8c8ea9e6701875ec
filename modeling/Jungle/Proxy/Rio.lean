import Jungle.Proxy.Requests

/-!
# Buffered reading of lines

The reader `rio_t` of `webproxy-lab/csapp.c` on the socket of a client that sends finitely many bytes
and then closes its side. The reads of the socket return the bytes in pieces of any sizes up to that of
the internal buffer, and no bytes after the end; errors of `read` are left out. `rio_readlineb` takes
the next line of what is left of the stream (`rioReadlineb_eq`), and leaves the buffer of the caller as
it was at the end of the stream (`rioReadlineb_end`).
-/

set_option autoImplicit false
set_option relaxedAutoImplicit false

namespace Jungle.Proxy

open Jungle.Lib

/-- `RIO_BUFSIZE` -/
def rioBufsize : ℕ := 8192

/-- What the calls of `read` on a socket return until the peer has closed its side. -/
structure Socket where
  reads : List (List UInt8)
  sized : ∀ chunk ∈ reads, chunk ≠ [] ∧ chunk.length ≤ rioBufsize

/-- `read(fd, buf, sizeof(buf))`, which returns no bytes at the end of the stream. -/
def Socket.read : Socket → List UInt8 × Socket
  | ⟨[], hsized⟩ => ([], ⟨[], hsized⟩)
  | ⟨chunk :: reads, hsized⟩ => (chunk, ⟨reads, (List.forall_mem_cons.mp hsized).2⟩)

/-- `rio_t`: the unread bytes of the internal buffer, and the socket. -/
structure Rio where
  unread : List UInt8
  socket : Socket

/-- `rio_readinitb(rp, fd)` -/
def rioReadinitb (socket : Socket) : Rio := ⟨[], socket⟩

/-- The refill of the internal buffer in `rio_read`. -/
def Rio.refill (rp : Rio) : Rio :=
  if rp.unread = [] then ⟨rp.socket.read.1, rp.socket.read.2⟩ else rp

/-- `rio_read(rp, usrbuf, n)`: the bytes read, none at the end of the stream. -/
def rioRead (rp : Rio) (n : ℕ) : List UInt8 × Rio :=
  (rp.refill.unread.take n, { rp.refill with unread := rp.refill.unread.drop n })

/-- The rounds of the loop of `rio_readlineb` that are left, with `i` bytes in `usrbuf`: the returned
number, `usrbuf` and the reader. -/
def readlineLoop : ℕ → Rio → (ℕ → UInt8) → ℕ → ℕ × (ℕ → UInt8) × Rio
  | 0, rp, usrbuf, i => (i, Function.update usrbuf i 0, rp)
  | rounds + 1, rp, usrbuf, i =>
    match rioRead rp 1 with
    | (c :: _, rp) =>
      let usrbuf := Function.update usrbuf i c
      if c = 10 then (i + 1, Function.update usrbuf (i + 1) 0, rp)
      else readlineLoop rounds rp usrbuf (i + 1)
    | ([], rp) => if i = 0 then (0, usrbuf, rp) else (i, Function.update usrbuf i 0, rp)

/-- `rio_readlineb(rp, usrbuf, maxlen)` -/
def rioReadlineb (rp : Rio) (usrbuf : ℕ → UInt8) (maxlen : ℕ) : ℕ × (ℕ → UInt8) × Rio :=
  readlineLoop (maxlen - 1) rp usrbuf 0

/-! ### Streams and their lines -/

/-- What is left of the stream. -/
def Rio.stream (rp : Rio) : List UInt8 := rp.unread ++ rp.socket.reads.flatten

/-- The first line of a stream, of so many bytes at most, and the rest. -/
def takeLine : ℕ → List UInt8 → List UInt8 × List UInt8
  | 0, stream => ([], stream)
  | _ + 1, [] => ([], [])
  | n + 1, c :: stream =>
    if c = 10 then ([c], stream) else (c :: (takeLine n stream).1, (takeLine n stream).2)

theorem takeLine_append (n : ℕ) (stream : List UInt8) :
    (takeLine n stream).1 ++ (takeLine n stream).2 = stream := by
  fun_induction takeLine n stream with
  | case1 stream => rfl
  | case2 => rfl
  | case3 n stream => rfl
  | case4 n c stream hc ih => rw [List.cons_append, ih]

theorem takeLine_ne_nil (n : ℕ) {stream : List UInt8} (hstream : stream ≠ []) :
    (takeLine (n + 1) stream).1 ≠ [] := by
  cases stream with
  | nil => exact absurd rfl hstream
  | cons c stream =>
    rw [takeLine]
    split_ifs
    · exact List.cons_ne_nil _ _
    · exact List.cons_ne_nil _ _

/-- A line ends at its first newline. -/
theorem takeLine_newline (n : ℕ) (stream : List UInt8) {front back : List UInt8}
    (hline : (takeLine n stream).1 = front ++ 10 :: back) : back = [] := by
  fun_induction takeLine n stream generalizing front with
  | case1 stream => simp at hline
  | case2 => simp at hline
  | case3 n stream =>
    cases front with
    | nil => exact (List.cons.inj hline).2.symm
    | cons d front => simp at hline
  | case4 n c stream hc ih =>
    cases front with
    | nil => exact absurd (List.cons.inj hline).1 hc
    | cons d front => exact ih (List.cons.inj hline).2

/-- The lines of a stream. -/
def lines (stream : List UInt8) : List (List UInt8) :=
  if hstream : stream = [] then []
  else (takeLine (maxLine - 1) stream).1 :: lines (takeLine (maxLine - 1) stream).2
termination_by stream.length
decreasing_by
  have hlength := congrArg List.length (takeLine_append (maxLine - 1) stream)
  have hpos : 0 < (takeLine (maxLine - 1) stream).1.length :=
    List.length_pos_of_ne_nil (takeLine_ne_nil 8190 hstream)
  rw [List.length_append] at hlength
  omega

@[simp] theorem lines_nil : lines [] = [] := by
  rw [lines, dif_pos rfl]

theorem lines_of_ne_nil {stream : List UInt8} (hstream : stream ≠ []) :
    lines stream =
      (takeLine (maxLine - 1) stream).1 :: lines (takeLine (maxLine - 1) stream).2 := by
  rw [lines, dif_neg hstream]

/-! ### Reading -/

variable {rp : Rio} {stream : List UInt8} {c : UInt8}

/-- A refill does not change what is left of the stream, and finds bytes unless it has ended. -/
theorem Rio.stream_refill (rp : Rio) : rp.refill.stream = rp.stream := by
  obtain ⟨unread, ⟨reads, hsized⟩⟩ := rp
  unfold Rio.refill
  split_ifs with hempty
  · change unread = [] at hempty
    subst hempty
    cases reads with
    | nil => rfl
    | cons chunk reads => rfl
  · rfl

theorem Rio.refill_unread (h : rp.stream ≠ []) : rp.refill.unread ≠ [] := by
  obtain ⟨unread, ⟨reads, hsized⟩⟩ := rp
  unfold Rio.refill
  split_ifs with hempty
  · change unread = [] at hempty
    subst hempty
    cases reads with
    | nil => exact absurd rfl h
    | cons chunk reads => exact (hsized chunk List.mem_cons_self).1
  · exact hempty

/-- A byte that is read is the next one of the stream. -/
theorem rioRead_cons (h : rp.stream = c :: stream) :
    ∃ rp', rioRead rp 1 = ([c], rp') ∧ rp'.stream = stream := by
  have hrefill := rp.stream_refill
  have hne : rp.stream ≠ [] := h ▸ List.cons_ne_nil c stream
  have hunread := Rio.refill_unread hne
  obtain ⟨d, unread, hd⟩ := List.exists_cons_of_ne_nil hunread
  rw [h, Rio.stream, hd, List.cons_append, List.cons.injEq] at hrefill
  obtain ⟨rfl, hrest⟩ := hrefill
  refine ⟨{ rp.refill with unread := unread }, ?_, hrest⟩
  rw [rioRead, hd]
  rfl

/-- Nothing is read at the end of the stream. -/
theorem rioRead_nil (h : rp.stream = []) :
    ∃ rp', rioRead rp 1 = ([], rp') ∧ rp'.stream = [] := by
  have hrefill := rp.stream_refill
  rw [h, Rio.stream, List.append_eq_nil_iff] at hrefill
  refine ⟨{ rp.refill with unread := [] }, ?_, hrefill.2⟩
  rw [rioRead, hrefill.1]
  rfl

/-- Storing bytes one by one. -/
theorem memcpy_cons (buf : ℕ → UInt8) (i : ℕ) (bytes : List UInt8) :
    memcpy (Function.update buf i c) (i + 1) bytes = memcpy buf i (c :: bytes) := by
  funext j
  unfold memcpy
  rcases Nat.lt_trichotomy j i with hlt | rfl | hgt
  · rw [if_neg (by omega), if_neg (by omega), Function.update_of_ne hlt.ne]
  · rw [if_neg (by omega), if_pos le_rfl, Function.update_self, Nat.sub_self, List.getD_cons_zero]
  · obtain ⟨k, rfl⟩ := Nat.exists_eq_add_of_lt hgt
    have hindex : i + k + 1 - i = k + 1 := by omega
    have hindex' : i + k + 1 - (i + 1) = k := by omega
    rw [if_pos (by omega), if_pos (by omega), Function.update_of_ne hgt.ne', hindex, hindex',
      List.getD_cons_succ]

theorem memcpy_singleton (buf : ℕ → UInt8) (i : ℕ) :
    memcpy buf i [c] = Function.update buf i c := by
  rw [← memcpy_cons]
  funext j
  unfold memcpy
  rw [List.getD_nil, ite_self]

/-- The loop stores the rest of the line and a terminator behind what is there. -/
theorem readlineLoop_eq (rounds : ℕ) (h : rp.stream = stream) (usrbuf : ℕ → UInt8) (i : ℕ)
    (hstarted : i = 0 → stream ≠ [] ∧ rounds ≠ 0) :
    ∃ rp', readlineLoop rounds rp usrbuf i = (i + (takeLine rounds stream).1.length,
        memcpy usrbuf i ((takeLine rounds stream).1 ++ [0]), rp') ∧
      rp'.stream = (takeLine rounds stream).2 := by
  fun_induction takeLine rounds stream generalizing rp usrbuf i with
  | case1 stream =>
    refine ⟨rp, ?_, h⟩
    rw [readlineLoop, List.nil_append, memcpy_singleton]
    rfl
  | case2 n =>
    have hi : i ≠ 0 := fun hi ↦ (hstarted hi).1 rfl
    obtain ⟨rp', hread, hrest⟩ := rioRead_nil h
    refine ⟨rp', ?_, hrest⟩
    simp only [readlineLoop, hread, if_neg hi, List.nil_append, memcpy_singleton, List.length_nil,
      Nat.add_zero]
  | case3 n stream =>
    obtain ⟨rp', hread, hrest⟩ := rioRead_cons h
    refine ⟨rp', ?_, hrest⟩
    rw [List.cons_append, List.nil_append, ← memcpy_cons, memcpy_singleton]
    simp only [readlineLoop, hread, if_true, List.length_singleton]
  | case4 n c stream hc ih =>
    obtain ⟨rp', hread, hrest⟩ := rioRead_cons h
    obtain ⟨rp'', hloop, hrest'⟩ :=
      ih hrest (Function.update usrbuf i c) (i + 1) fun hi ↦ absurd hi (Nat.succ_ne_zero i)
    refine ⟨rp'', ?_, hrest'⟩
    simp only [readlineLoop, hread, if_neg hc, hloop, List.cons_append, memcpy_cons,
      List.length_cons, Nat.add_assoc, Nat.add_comm 1]

/-- Before the end of the stream, `rio_readlineb` stores the next line and a terminator. -/
theorem rioReadlineb_eq (h : rp.stream = stream) (hstream : stream ≠ []) (usrbuf : ℕ → UInt8) :
    ∃ rp', rioReadlineb rp usrbuf maxLine = ((takeLine (maxLine - 1) stream).1.length,
        memcpy usrbuf 0 ((takeLine (maxLine - 1) stream).1 ++ [0]), rp') ∧
      rp'.stream = (takeLine (maxLine - 1) stream).2 := by
  obtain ⟨rp', hloop, hrest⟩ :=
    readlineLoop_eq (maxLine - 1) h usrbuf 0 fun _ ↦ ⟨hstream, by decide⟩
  rw [Nat.zero_add] at hloop
  exact ⟨rp', hloop, hrest⟩

/-- At the end of the stream, `rio_readlineb` leaves the buffer alone. -/
theorem rioReadlineb_end (h : rp.stream = []) (usrbuf : ℕ → UInt8) :
    ∃ rp', rioReadlineb rp usrbuf maxLine = (0, usrbuf, rp') ∧ rp'.stream = [] := by
  obtain ⟨rp', hread, hrest⟩ := rioRead_nil h
  have hround : readlineLoop (8190 + 1) rp usrbuf 0 = (0, usrbuf, rp') := by
    rw [readlineLoop, hread]
    rfl
  exact ⟨rp', hround, hrest⟩

end Jungle.Proxy
