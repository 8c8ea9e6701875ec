import Jungle.Proxy.Requests

/-!
# What cached answers consist of

A run handles requests one after another, starting with the empty cache. Every object in the cache
holds the bytes an origin sent for a request with the key of the object (`Sourced`), so a cached
answer consists of the bytes an origin sent for a request with the same key (`run_serves_origin`).
The method is not part of the key (`not_run_serves_request`). Plain requests with the same key have
the same host, port and path (`fullUrl_injective`).
-/

set_option autoImplicit false
set_option relaxedAutoImplicit false

namespace Jungle.Proxy

open Jungle.Lib Cache

/-- A request, what the origin sends, what is on the stack, what `malloc` returns, and the answer. -/
structure Exchange where
  request : Request
  chunks : List (List UInt8)
  stack : ℕ → UInt8
  t : ℕ
  answer : Answer

/-- The bytes the origin sends in an exchange. -/
def Exchange.bytes (e : Exchange) : List UInt8 := e.chunks.flatten

/-- The lookup of the request finds nothing. -/
def Misses (c : Cache) (r : Request) : Prop :=
  Returns (fun fuel ↦ lookup fuel c (fullUrl r)) (none, c)

/-- One request that is answered. The address from `malloc` is fresh if `malloc` is called. -/
def ExchangeStep (c : Cache) (e : Exchange) (c' : Cache) : Prop :=
  (∀ chunk ∈ e.chunks, chunk.length ≤ maxLine) ∧
    (Misses c e.request → (e.bytes.length : ℤ) ≤ maxObjectSize → Fresh e.bytes.length c e.t) ∧
    Returns (fun fuel ↦ handleClient fuel c e.request e.chunks e.stack e.t) (e.answer, c')

/-- The bytes are what the origin sent in an earlier exchange that asked it. -/
def SentFor (past : List Exchange) (bytes : List UInt8) (same : Request → Prop) : Prop :=
  ∃ e ∈ past, e.answer = .forwarded e.bytes ∧ e.bytes = bytes ∧ same e.request

/-- The objects hold what origins sent for requests with their keys. -/
def Sourced (past : List Exchange) (entries : List (ℕ × CacheObject)) : Prop :=
  ∀ entry ∈ entries, SentFor past entry.2.data fun r ↦ fullUrl r = entry.2.url

/-- The cache holds sourced objects. -/
def HoldsSourced (c : Cache) (past : List Exchange) : Prop :=
  ∃ entries, Holds c entries ∧ Sourced past entries

variable {c c' : Cache} {entries : List (ℕ × CacheObject)} {past : List Exchange} {e : Exchange}

theorem SentFor.append {bytes : List UInt8} {same : Request → Prop} (h : SentFor past bytes same)
    (rest : List Exchange) : SentFor (past ++ rest) bytes same := by
  obtain ⟨e, he, hrest⟩ := h
  exact ⟨e, List.mem_append_left _ he, hrest⟩

/-- What a request leads to: a cached object with its key, or the bytes of the origin. -/
theorem exchange_cases (h : Holds c entries) (hstep : ExchangeStep c e c') :
    (∃ front a o back, entries = front ++ (a, o) :: back ∧ o.url = fullUrl e.request ∧
        e.answer = .cached o.data ∧ Holds c' (front ++ (a, o.withBit 1) :: back)) ∨
      e.answer = .forwarded e.bytes ∧ (c' = c ∨ ∃ o, o.url = fullUrl e.request ∧
        o.data = e.bytes ∧ Holds c' ((e.t, o) :: survivors e.bytes.length entries)) := by
  obtain ⟨hchunks, hfresh, hreturns⟩ := hstep
  rcases exists_first entries (fullUrl e.request) with
    habsent | ⟨front, a, o, back, rfl, hurl, hfront⟩
  · rcases le_or_gt (e.bytes.length : ℤ) intMax with hcount | hcount
    · obtain ⟨c₁, hmiss, hcache⟩ := handleClient_miss h habsent hcount
        (hfresh (lookup_eq_none h.cache habsent)) e.stack
      obtain ⟨hanswer, rfl⟩ := Prod.mk.inj (hreturns.unique hmiss)
      exact Or.inr ⟨hanswer, hcache.imp And.right And.right⟩
    · exact absurd hreturns (handleClient_overflow h habsent hchunks hcount)
  · have hhit := hreturns.unique (handleClient_hit h hurl hfront e.chunks e.stack e.t)
    obtain ⟨hanswer, rfl⟩ := Prod.mk.inj hhit
    exact Or.inl ⟨front, a, o, back, rfl, hurl, hanswer, h.withBit 1⟩

/-- A request keeps the objects sourced. -/
theorem holdsSourced_step (h : HoldsSourced c past) (hstep : ExchangeStep c e c') :
    HoldsSourced c' (past ++ [e]) := by
  obtain ⟨entries, hholds, hsourced⟩ := h
  have hold : Sourced (past ++ [e]) entries := fun entry hentry ↦ (hsourced entry hentry).append [e]
  rcases exchange_cases hholds hstep with ⟨front, a, o, back, rfl, -, -, hholds'⟩ |
    ⟨hanswer, rfl | ⟨o, hurl, hdata, hholds'⟩⟩
  · refine ⟨_, hholds', fun entry hentry ↦ ?_⟩
    rw [List.mem_append, List.mem_cons] at hentry
    rcases hentry with hentry | rfl | hentry
    · exact hold entry (by simp [hentry])
    · exact hold (a, o) (by simp)
    · exact hold entry (by simp [hentry])
  · exact ⟨entries, hholds, hold⟩
  · refine ⟨_, hholds', List.forall_mem_cons.mpr ⟨?_, fun entry hentry ↦ ?_⟩⟩
    · exact ⟨e, by simp, hanswer, hdata.symm, hurl.symm⟩
    · obtain ⟨o, hmem, hurlOld, hdataOld, -⟩ := mem_clockUntil hentry
      rw [SentFor, ← hurlOld, ← hdataOld]
      exact hold _ hmem

/-- A run keeps the objects sourced. -/
theorem holdsSourced_run {blocks : Store CacheBlock}
    (hrun : Run ExchangeStep (cacheInit blocks) past c) : HoldsSourced c past :=
  hrun.history (fun _ _ _ _ ↦ holdsSourced_step)
    ⟨[], holds_cacheInit blocks, fun _ hentry ↦ absurd hentry List.not_mem_nil⟩

/-! ### Plain requests -/

/-- The host has no colon, the port no slash, the path starts with a slash, and the key fits. -/
structure Request.Plain (r : Request) : Prop where
  host : ':' ∉ r.host
  port : '/' ∉ r.port
  path : r.path.head? = some '/'
  short : (r.host ++ ':' :: (r.port ++ r.path)).length < maxLine

/-- The part before the first separator and the part after it. -/
theorem append_cons_inj_of_not_mem {α : Type*} {separator : α} {front front' back back' : List α}
    (h : separator ∉ front) (h' : separator ∉ front')
    (heq : front ++ separator :: back = front' ++ separator :: back') :
    front = front' ∧ back = back' := by
  induction front generalizing front' with
  | nil =>
    cases front' with
    | nil => exact ⟨rfl, (List.cons.inj heq).2⟩
    | cons x front' => exact absurd (List.cons.inj heq).1 fun hx ↦ h' (by simp [hx])
  | cons x front ih =>
    cases front' with
    | nil => exact absurd (List.cons.inj heq).1.symm fun hx ↦ h (by simp [hx])
    | cons y front' =>
      obtain ⟨rfl, htail⟩ := List.cons.inj heq
      obtain ⟨rfl, rfl⟩ := ih (fun hmem ↦ h (List.mem_cons_of_mem _ hmem))
        (fun hmem ↦ h' (List.mem_cons_of_mem _ hmem)) htail
      exact ⟨rfl, rfl⟩

/-- The key of a plain request determines its host, port and path. -/
theorem fullUrl_injective {r r' : Request} (h : r.Plain) (h' : r'.Plain)
    (heq : fullUrl r = fullUrl r') : r.host = r'.host ∧ r.port = r'.port ∧ r.path = r'.path := by
  have hlength : ∀ r : Request, r.Plain → fullUrl r = r.host ++ ':' :: (r.port ++ r.path) :=
    fun r hr ↦ List.take_of_length_le (Nat.le_sub_one_of_lt hr.short)
  rw [hlength r h, hlength r' h'] at heq
  obtain ⟨hhost, hrest⟩ := append_cons_inj_of_not_mem h.host h'.host heq
  obtain ⟨path, hpath⟩ := List.head?_eq_some_iff.mp h.path
  obtain ⟨path', hpath'⟩ := List.head?_eq_some_iff.mp h'.path
  rw [hpath, hpath'] at hrest ⊢
  obtain ⟨hport, rfl⟩ := append_cons_inj_of_not_mem h.port h'.port hrest
  exact ⟨hhost, hport, rfl⟩

/-! ### Cached answers -/

/-- A cached answer consists of the bytes that an earlier origin connection returned for a request
with the same key; between plain requests that is a request with the same host, port and path. -/
theorem run_serves_origin {blocks : Store CacheBlock} {bytes : List UInt8}
    (hrun : Run ExchangeStep (cacheInit blocks) past c) (hstep : ExchangeStep c e c')
    (hcached : e.answer = .cached bytes) : SentFor past bytes fun r ↦
      fullUrl r = fullUrl e.request ∧ (r.Plain → e.request.Plain →
        r.host = e.request.host ∧ r.port = e.request.port ∧ r.path = e.request.path) := by
  obtain ⟨entries, hholds, hsourced⟩ := holdsSourced_run hrun
  rcases exchange_cases hholds hstep with ⟨front, a, o, back, rfl, hurl, hanswer, -⟩ | ⟨hanswer, -⟩
  · obtain ⟨e', he', hforwarded, hbytes, hkey⟩ := hsourced (a, o) (by simp)
    have hdata : bytes = o.data := Answer.cached.inj (hcached.symm.trans hanswer)
    have hsame : fullUrl e'.request = fullUrl e.request := hkey.trans hurl
    exact ⟨e', he', hforwarded, hbytes.trans hdata.symm, hsame,
      fun hplain hplain' ↦ fullUrl_injective hplain hplain' hsame⟩
  · rw [hcached] at hanswer
    exact absurd hanswer (by simp)

/-- A `GET` of the root of a host, answered by the origin with one byte. -/
def getExchange : Exchange where
  request := ⟨['G', 'E', 'T'], ['a'], ['8', '0'], ['/']⟩
  chunks := [[7]]
  stack := fun _ ↦ 0
  t := 1
  answer := .forwarded [7]

/-- A `HEAD` of the same root, answered from the cache. -/
def headExchange : Exchange where
  request := ⟨['H', 'E', 'A', 'D'], ['a'], ['8', '0'], ['/']⟩
  chunks := []
  stack := fun _ ↦ 0
  t := 2
  answer := .cached [7]

/-- A `GET` and then a `HEAD` of the same root. -/
theorem exists_get_head_run : ∃ c c', Run ExchangeStep (cacheInit Store.empty) [getExchange] c ∧
    ExchangeStep c headExchange c' := by
  have hholds := holds_cacheInit Store.empty
  have hchunks : ∀ chunk ∈ getExchange.chunks, chunk.length ≤ maxLine := by decide
  have habsent : ∀ entry ∈ ([] : List (ℕ × CacheObject)),
      entry.2.url ≠ fullUrl getExchange.request := by simp
  have hfresh : (getExchange.bytes.length : ℤ) ≤ maxObjectSize →
      Fresh getExchange.bytes.length (cacheInit Store.empty) getExchange.t :=
    fun hsize ↦ fresh_cacheInit hsize _
  have hcount : (getExchange.bytes.length : ℤ) ≤ intMax := by decide
  obtain ⟨c, hget, ⟨hlarge, -⟩ | ⟨-, o, hurl, hdata, hholds'⟩⟩ :=
    handleClient_miss hholds habsent hcount hfresh getExchange.stack
  · exact absurd hlarge (by decide)
  · have hurl' : o.url = fullUrl headExchange.request := hurl
    have hfront : ∀ entry ∈ ([] : List (ℕ × CacheObject)),
        entry.2.url ≠ fullUrl headExchange.request := by simp
    have hfirst : Holds c ([] ++ (getExchange.t, o) :: survivors getExchange.bytes.length []) :=
      hholds'
    have hhead := handleClient_hit hfirst hurl' hfront [] headExchange.stack 2
    have hlookup := lookup_eq_some hfirst.cache (by simp)
    rw [hdata] at hhead
    refine ⟨c, _, Run.single ⟨by decide, fun _ ↦ hfresh, hget⟩, by decide, fun hmiss ↦ ?_, hhead⟩
    rw [Misses, ← hurl'] at hmiss
    exact absurd (hmiss.unique hlookup) (by simp)

/-- The run that answers a `HEAD` with the body of a `GET`, whose method differs. -/
theorem run_serves_origin_head : SentFor [getExchange] [7] fun r ↦
    fullUrl r = fullUrl headExchange.request := by
  obtain ⟨c, c', hrun, hstep⟩ := exists_get_head_run
  obtain ⟨e, he, hforwarded, hbytes, hkey, -⟩ := run_serves_origin hrun hstep rfl
  exact ⟨e, he, hforwarded, hbytes, hkey⟩

/-- A cached answer need not consist of bytes returned for the same request: the method of the
request may differ. -/
theorem not_run_serves_request : ¬∀ (blocks : Store CacheBlock) (past : List Exchange) (c c' : Cache)
    (e : Exchange) (bytes : List UInt8), Run ExchangeStep (cacheInit blocks) past c →
      ExchangeStep c e c' → e.answer = .cached bytes → SentFor past bytes fun r ↦ r = e.request := by
  intro h
  obtain ⟨c, c', hrun, hstep⟩ := exists_get_head_run
  obtain ⟨e, he, -, -, hrequest⟩ := h _ _ c c' headExchange [7] hrun hstep rfl
  rw [List.mem_singleton.mp he] at hrequest
  exact absurd hrequest (by decide)

end Jungle.Proxy
