/-
What the machine of the io_uring backend keeps about its buffers.

`Accounts` relates, for every buffer, the completions posted with it since it was last
put on the ring (`writes`) to those harvested (`done`), to the results returned for
them and to the two arrays: the word in `buf_refcount` counts the results held, and
the offset is where the sizes of the harvested completions lead (`userPoint`).

* `Accounts.consume` — one completion is consumed;
* `Accounts.request`, `Accounts.post`, `Accounts.wait`, `Accounts.free` — the steps of
  the machine.
-/
import Freehttpd.UringRuns

namespace Freehttpd.Uring

open Runs

variable {U : Type}

/-! ### Writes and results -/

/-- The size that `fh_xio_wait` takes a completion to have. -/
def Write.size (w : Write) : ℕ := populateSize w.opdata ⟨.null, w.res, 0⟩

/-- Where the sizes of some completions lead from offset `off`. -/
def userPoint (off : ℕ) (ws : List Write) : ℕ := ws.foldl (fun off w => nextOff off w.size) off

/-- What the result of a completion says about its buffer. -/
def sig (r : XioResult U) : ℤ × Bool × Option ℕ :=
  (r.res, hasFlag r.flags ioringCqeFBufMore, r.buf)

/-- What the results of some completions say, in a block at address `base` from offset
`off` on. -/
def sigs (base : ℕ) : ℕ → List Write → List (ℤ × Bool × Option ℕ)
  | _, [] => []
  | off, w :: ws => (w.res, w.more, w.opdata.buf.or (some (base + off)))
    :: sigs base (nextOff off w.size) ws

theorem sigs_concat (base off : ℕ) (ws : List Write) (w : Write) :
    sigs base off (ws ++ [w]) = sigs base off ws
      ++ [(w.res, w.more, w.opdata.buf.or (some (base + userPoint off ws)))] := by
  induction ws generalizing off with
  | nil => rfl
  | cons w' ws ih =>
    rw [List.cons_append, sigs, ih, sigs, List.cons_append]
    rfl

theorem userPoint_concat (off : ℕ) (ws : List Write) (w : Write) :
    userPoint off (ws ++ [w]) = nextOff (userPoint off ws) w.size := by
  rw [userPoint, List.foldl_append]
  rfl

theorem sigs_more (base off : ℕ) (ws : List Write) :
    (sigs base off ws).map (fun p => p.2.1) = ws.map Write.more := by
  induction ws generalizing off with
  | nil => rfl
  | cons w ws ih => rw [sigs, List.map_cons, List.map_cons, ih]

/-- The completion carries buffer `bid`. -/
def carries (bid : ℕ) (c : IoUringCqe) : Bool :=
  hasFlag c.flags ioringCqeFBuffer && flagsBid c.flags == bid

theorem carries_iff {bid : ℕ} {c : IoUringCqe} :
    carries bid c = true ↔ hasFlag c.flags ioringCqeFBuffer = true ∧ flagsBid c.flags = bid := by
  rw [carries, Bool.and_eq_true, beq_iff_eq]

/-- A completion with a buffer, as the kernel posted it. -/
def writeOf (requests : ℕ → Option (XioRequest U)) (bid : ℕ) (c : IoUringCqe) : Option Write :=
  if carries bid c then
    (requestOf requests c).map fun r => ⟨r.opdata, c.res, hasFlag c.flags ioringCqeFBufMore⟩
  else none

/-- The completions with buffer `bid` that are pending. -/
def pendingWrites (requests : ℕ → Option (XioRequest U)) (bid : ℕ) (cq : List IoUringCqe) :
    List Write :=
  cq.filterMap (writeOf requests bid)

theorem writeOf_congr {requests requests' : ℕ → Option (XioRequest U)} {c : IoUringCqe}
    (h : requestOf requests' c = requestOf requests c) (bid : ℕ) :
    writeOf requests' bid c = writeOf requests bid c := by
  rw [writeOf, writeOf, h]

theorem pendingWrites_congr {requests requests' : ℕ → Option (XioRequest U)}
    {cq : List IoUringCqe} (h : ∀ c ∈ cq, requestOf requests' c = requestOf requests c) (bid : ℕ) :
    pendingWrites requests' bid cq = pendingWrites requests bid cq :=
  List.filterMap_congr fun c hc => writeOf_congr (h c hc) bid

/-! ### The invariant -/

/-- The last completion of the buffer was harvested. -/
def finOf (harvested : ℕ → List (XioResult U)) (bid : ℕ) : Bool :=
  (harvested bid).any fun r => !hasFlag r.flags ioringCqeFBufMore

/-- One more result counts for its own buffer only. -/
theorem filter_refersTo_singleton {r : XioResult U}
    (hbuf : hasFlag r.flags ioringCqeFBuffer = true) (bid : ℕ) :
    [r].filter (refersTo bid) = if bid = flagsBid r.flags then [r] else [] := by
  have hself : refersTo bid r = (flagsBid r.flags == bid) := by
    rw [refersTo, hbuf, Bool.true_and]
  rw [List.filter_singleton, hself]
  by_cases hb : bid = flagsBid r.flags
  · rw [if_pos hb, hb, beq_self_eq_true]
    rfl
  · rw [if_neg hb, beq_false_of_ne (Ne.symm hb)]
    rfl

theorem refs_concat {r : XioResult U} (hbuf : hasFlag r.flags ioringCqeFBuffer = true)
    (held : List (XioResult U)) (bid : ℕ) :
    refs (held ++ [r]) bid = refs held bid + if bid = flagsBid r.flags then 1 else 0 := by
  rw [refs_append]
  congr 1
  rw [refs, List.countP_eq_length_filter, filter_refersTo_singleton hbuf]
  split
  · rfl
  · rfl

theorem finOf_concat {r : XioResult U} (hbuf : hasFlag r.flags ioringCqeFBuffer = true)
    (harvested : ℕ → List (XioResult U)) (bid : ℕ) :
    finOf (fun bid => harvested bid ++ [r].filter (refersTo bid)) bid
      = if bid = flagsBid r.flags then finOf harvested bid || !hasFlag r.flags ioringCqeFBufMore
        else finOf harvested bid := by
  rw [finOf, List.any_append, filter_refersTo_singleton hbuf, finOf]
  split
  · rw [List.any_cons, List.any_nil, Bool.or_false]
  · rw [List.any_nil, Bool.or_false]

/-- The accounts of the buffers. -/
structure Accounts (base : ℕ) (cq : List IoUringCqe) (requests : ℕ → Option (XioRequest U))
    (off cnt : ℕ → ℕ) (writes done : ℕ → List Write) (harvested : ℕ → List (XioResult U))
    (held : List (XioResult U)) : Prop where
  cnt_eq : ∀ bid < xioRingBufCount, cnt bid = refcountOf held (finOf harvested) bid
  off_eq : ∀ bid < xioRingBufCount, off bid = userPoint 0 (done bid)
  writes_eq : ∀ bid, writes bid = done bid ++ pendingWrites requests bid cq
  sigs_eq : ∀ bid, (harvested bid).map sig = sigs (fhXioRingGetBuffer base bid) 0 (done bid)
  last : ∀ bid, ∀ w ∈ (writes bid).dropLast, w.more = true
  ledger : Ledger held (finOf harvested)
  buffers : ∀ c ∈ cq, hasFlag c.flags ioringCqeFBuffer = true → ∃ a, c.userData = .data a

namespace Accounts

variable {base : ℕ} {cq : List IoUringCqe} {requests : ℕ → Option (XioRequest U)}
  {off cnt : ℕ → ℕ} {writes done : ℕ → List Write} {harvested : ℕ → List (XioResult U)}
  {held : List (XioResult U)}

/-- What the results say about further completions is what these say. -/
theorem more_eq (h : Accounts base cq requests off cnt writes done harvested held) (bid : ℕ) :
    (harvested bid).map (fun r => hasFlag r.flags ioringCqeFBufMore)
      = (done bid).map Write.more := by
  rw [← sigs_more (fhXioRingGetBuffer base bid) 0, ← h.sigs_eq, List.map_map]
  rfl

theorem finOf_iff (h : Accounts base cq requests off cnt writes done harvested held) (bid : ℕ) :
    finOf harvested bid = true ↔ ∃ w ∈ done bid, w.more = false := by
  have hmore : (∃ w ∈ done bid, w.more = false) ↔ false ∈ (done bid).map Write.more := by
    rw [List.mem_map]
  rw [hmore, ← h.more_eq, List.mem_map, finOf, List.any_eq_true]
  simp only [Bool.not_eq_true']

/-- Nothing is pending for a buffer whose last completion was harvested. -/
theorem pendingWrites_of_fin (h : Accounts base cq requests off cnt writes done harvested held)
    {bid : ℕ} (hfin : finOf harvested bid = true) : pendingWrites requests bid cq = [] := by
  obtain ⟨w, hw, hmore⟩ := (h.finOf_iff bid).mp hfin
  by_contra hne
  have hmem : w ∈ (writes bid).dropLast := by
    rw [h.writes_eq, List.dropLast_append_of_ne_nil hne]
    exact List.mem_append_left _ hw
  rw [h.last bid w hmem] at hmore
  cases hmore

/-- A completion without a buffer is consumed. -/
theorem consume_plain {c : IoUringCqe}
    (h : Accounts base (c :: cq) requests off cnt writes done harvested held)
    (hp : Pending (c :: cq) requests) (hbuf : hasFlag c.flags ioringCqeFBuffer = false) :
    Accounts base cq (finish requests c) off cnt writes done harvested held where
  cnt_eq := h.cnt_eq
  off_eq := h.off_eq
  writes_eq bid := by
    rw [h.writes_eq, pendingWrites, List.filterMap_cons_none (by simp [writeOf, carries, hbuf])]
    exact congrArg _ (pendingWrites_congr (fun c' hc' => requestOf_finish hp hc') bid).symm
  sigs_eq := h.sigs_eq
  last := h.last
  ledger := h.ledger
  buffers c' hc' := h.buffers c' (List.mem_cons_of_mem c hc')

/-- A completion with a buffer is consumed. -/
theorem consume_buffer {c : IoUringCqe} {r : XioRequest U}
    (h : Accounts base (c :: cq) requests off cnt writes done harvested held)
    (hp : Pending (c :: cq) requests) (hbuf : hasFlag c.flags ioringCqeFBuffer = true)
    (hr : requestOf requests c = some r) (hbid : flagsBid c.flags < xioRingBufCount)
    (hlt : ∀ bid, refs (held ++ [resultOf base off c r]) bid < 2 ^ 31) :
    Accounts base cq (finish requests c) (offAfter off c r.opdata) (cntAfter cnt c) writes
      (Function.update done (flagsBid c.flags) (done (flagsBid c.flags)
        ++ [⟨r.opdata, c.res, hasFlag c.flags ioringCqeFBufMore⟩]))
      (fun bid => harvested bid ++ [resultOf base off c r].filter (refersTo bid))
      (held ++ [resultOf base off c r]) := by
  have hself : carries (flagsBid c.flags) c = true := carries_iff.mpr ⟨hbuf, rfl⟩
  have hother : ∀ bid, bid ≠ flagsBid c.flags → carries bid c = false := by
    intro bid hne
    rw [Bool.eq_false_iff]
    exact fun hc => hne (carries_iff.mp hc).2.symm
  -- The result refers to the buffer that the completion carries.
  have hresult : hasFlag (resultOf base off c r).flags ioringCqeFBuffer = true := hbuf
  have hpending : pendingWrites requests (flagsBid c.flags) (c :: cq)
      = ⟨r.opdata, c.res, hasFlag c.flags ioringCqeFBufMore⟩
        :: pendingWrites requests (flagsBid c.flags) cq :=
    List.filterMap_cons_some (by rw [writeOf, if_pos hself, hr]; rfl)
  have hfin : finOf harvested (flagsBid c.flags) = false := by
    rw [Bool.eq_false_iff]
    intro hf
    have hnil := h.pendingWrites_of_fin hf
    rw [hpending] at hnil
    cases hnil
  have hrest : ∀ bid, pendingWrites (finish requests c) bid cq = pendingWrites requests bid cq :=
    pendingWrites_congr fun c' hc' => requestOf_finish hp hc'
  have hharvested : ∀ bid, [resultOf base off c r].filter (refersTo bid)
      = if bid = flagsBid c.flags then [resultOf base off c r] else [] :=
    filter_refersTo_singleton hresult
  have hfin' : ∀ bid, finOf (fun bid => harvested bid
      ++ [resultOf base off c r].filter (refersTo bid)) bid
        = if bid = flagsBid c.flags then !hasFlag c.flags ioringCqeFBufMore
          else finOf harvested bid := by
    intro bid
    rw [finOf_concat hresult]
    show (if bid = flagsBid c.flags then finOf harvested bid || !hasFlag c.flags ioringCqeFBufMore
      else finOf harvested bid) = _
    by_cases hb : bid = flagsBid c.flags
    · rw [if_pos hb, if_pos hb, hb, hfin, Bool.false_or]
    · rw [if_neg hb, if_neg hb]
  have hrefs : ∀ bid, refs (held ++ [resultOf base off c r]) bid
      = refs held bid + if bid = flagsBid c.flags then 1 else 0 := refs_concat hresult held
  refine
    { cnt_eq := fun bid hb => ?_
      off_eq := fun bid hb => ?_
      writes_eq := fun bid => ?_
      sigs_eq := fun bid => ?_
      last := h.last
      ledger := ?_
      buffers := fun c' hc' => h.buffers c' (List.mem_cons_of_mem c hc') }
  · rw [cntAfter, if_pos hbuf, refcountOf, hrefs, hfin']
    by_cases hbe : bid = flagsBid c.flags
    · have hn := hlt (flagsBid c.flags)
      rw [hrefs, if_pos rfl] at hn
      subst hbe
      rw [Function.update_self, if_pos rfl, if_pos rfl, h.cnt_eq _ hb, refcountOf, hfin]
      exact nextCnt_eq hn _
    · rw [Function.update_of_ne hbe, if_neg hbe, if_neg hbe, h.cnt_eq _ hb, refcountOf,
        Nat.add_zero]
  · rw [offAfter, if_pos hbuf]
    by_cases hbe : bid = flagsBid c.flags
    · subst hbe
      rw [Function.update_self, Function.update_self, userPoint_concat, h.off_eq _ hb]
      cases r.opdata <;> rfl
    · rw [Function.update_of_ne hbe, Function.update_of_ne hbe, h.off_eq _ hb]
  · by_cases hbe : bid = flagsBid c.flags
    · subst hbe
      rw [Function.update_self, hrest, h.writes_eq, hpending, List.append_assoc,
        List.singleton_append]
    · rw [Function.update_of_ne hbe, hrest, h.writes_eq, pendingWrites,
        List.filterMap_cons_none (by simp [writeOf, hother bid hbe])]
      rfl
  · by_cases hbe : bid = flagsBid c.flags
    · subst hbe
      rw [hharvested, if_pos rfl, List.map_append, h.sigs_eq, Function.update_self, sigs_concat,
        List.map_singleton, sig, resultOf, if_pos hbuf, h.off_eq _ hbid]
    · rw [hharvested, if_neg hbe, List.append_nil, Function.update_of_ne hbe, h.sigs_eq]
  · refine ⟨fun r' hr' hb => ?_, hlt, fun bid hf => ?_⟩
    · rcases List.mem_append.mp hr' with hr' | hr'
      · exact h.ledger.bid_lt r' hr' hb
      · rw [List.mem_singleton.mp hr']
        exact hbid
    · rw [hrefs]
      rw [hfin'] at hf
      by_cases hbe : bid = flagsBid c.flags
      · rw [if_pos hbe]
        omega
      · rw [if_neg hbe] at hf ⊢
        exact h.ledger.refs_pos bid hf

/-- A result without a buffer may be held as well. -/
theorem hold_plain (h : Accounts base cq requests off cnt writes done harvested held)
    {r : XioResult U} (hbuf : hasFlag r.flags ioringCqeFBuffer = false) :
    Accounts base cq requests off cnt writes done
      (fun bid => harvested bid ++ [r].filter (refersTo bid)) (held ++ [r]) := by
  have hrefers : ∀ bid, refersTo bid r = false := fun bid => by rw [refersTo, hbuf]; rfl
  have hharvested : (fun bid => harvested bid ++ [r].filter (refersTo bid)) = harvested := by
    funext bid
    rw [List.filter_cons_of_neg (by rw [hrefers]; exact Bool.noConfusion), List.filter_nil,
      List.append_nil]
  have hrefs : ∀ bid, refs (held ++ [r]) bid = refs held bid := by
    intro bid
    rw [refs_append, refs, refs, List.countP_singleton, hrefers]
    rfl
  rw [hharvested]
  exact
    { cnt_eq := fun bid hb => by rw [h.cnt_eq bid hb, refcountOf, refcountOf, hrefs]
      off_eq := h.off_eq
      writes_eq := h.writes_eq
      sigs_eq := h.sigs_eq
      last := h.last
      ledger :=
        { bid_lt := fun r' hr' hb => by
            rcases List.mem_append.mp hr' with hr' | hr'
            · exact h.ledger.bid_lt r' hr' hb
            · rw [List.mem_singleton.mp hr', hbuf] at hb
              cases hb
          refs_lt := fun bid => by rw [hrefs]; exact h.ledger.refs_lt bid
          refs_pos := fun bid hf => by rw [hrefs]; exact h.ledger.refs_pos bid hf }
      buffers := h.buffers }

end Accounts

/-! ### Waits -/

/-- The accounts while completions are consumed. -/
def View.Accounts (base : ℕ) (v : View U) (writes done : ℕ → List Write)
    (harvested : ℕ → List (XioResult U)) (held : List (XioResult U)) : Prop :=
  Uring.Accounts base v.cq v.requests v.off v.cnt writes done
    (fun bid => harvested bid ++ v.out.filter (refersTo bid)) (held ++ v.out)

theorem View.consume_out (base : ℕ) (v : View U) :
    ∃ extra, (v.consume base).out = v.out ++ extra := by
  cases hcq : v.cq with
  | nil => exact ⟨[], by rw [View.consume, hcq, List.append_nil]⟩
  | cons c cq =>
    cases hr : requestOf v.requests c with
    | none => exact ⟨[], by rw [View.consume_of_none hcq hr, List.append_nil]⟩
    | some r => exact ⟨_, by rw [View.consume_of_some hcq hr]⟩

theorem View.iterate_out_append (base k : ℕ) (v : View U) :
    ∃ extra, ((View.consume base)^[k] v).out = v.out ++ extra := by
  induction k generalizing v with
  | zero => exact ⟨[], (List.append_nil _).symm⟩
  | succ k ih =>
    obtain ⟨e₁, h₁⟩ := v.consume_out base
    obtain ⟨e₂, h₂⟩ := ih (v.consume base)
    exact ⟨e₁ ++ e₂, by rw [Function.iterate_succ_apply, h₂, h₁, List.append_assoc]⟩

section Waits

variable {base : ℕ} {v : View U} {writes done : ℕ → List Write}
  {harvested : ℕ → List (XioResult U)} {held : List (XioResult U)}

/-- One completion is consumed. -/
theorem View.Accounts.consume (h : v.Accounts base writes done harvested held)
    (hp : Pending v.cq v.requests)
    (hlt : ∀ bid, refs (held ++ (v.consume base).out) bid < 2 ^ 31) :
    ∃ done', (v.consume base).Accounts base writes done' harvested held := by
  cases hcq : v.cq with
  | nil => exact ⟨done, by rw [View.consume, hcq]; exact h⟩
  | cons c cq =>
    rw [View.Accounts, hcq] at h
    rw [hcq] at hp
    cases hr : requestOf v.requests c with
    | none =>
      -- An internal completion has no buffer.
      have hbuf : hasFlag c.flags ioringCqeFBuffer = false := by
        rw [Bool.eq_false_iff]
        intro hb
        obtain ⟨a, ha⟩ := h.buffers c List.mem_cons_self hb
        obtain ⟨r, hra⟩ := hp.request c List.mem_cons_self a ha
        rw [requestOf, ha] at hr
        dsimp only at hr
        rw [hra] at hr
        cases hr
      exact ⟨done, by rw [View.consume_of_none hcq hr]; exact h.consume_plain hp hbuf⟩
    | some r =>
      have hv : v.consume base = _ := View.consume_of_some hcq hr
      have happend : ∀ bid, harvested bid
          ++ (v.out ++ [resultOf base v.off c r]).filter (refersTo bid)
          = (harvested bid ++ v.out.filter (refersTo bid))
            ++ [resultOf base v.off c r].filter (refersTo bid) := by
        intro bid
        rw [List.filter_append, List.append_assoc]
      rw [hv] at hlt
      simp only [View.Accounts, hv, happend, ← List.append_assoc]
      cases hbuf : hasFlag c.flags ioringCqeFBuffer with
      | true =>
        obtain ⟨a, ha⟩ := h.buffers c List.mem_cons_self hbuf
        exact ⟨_, h.consume_buffer hp hbuf hr (hp.bid_lt c List.mem_cons_self a ha hbuf)
          fun bid => by rw [List.append_assoc]; exact hlt bid⟩
      | false =>
        have hplain := (h.consume_plain hp hbuf).hold_plain (r := resultOf base v.off c r) hbuf
        refine ⟨done, ?_⟩
        rw [offAfter, cntAfter, hbuf]
        exact hplain

/-- Some completions are consumed. -/
theorem View.Accounts.iterate {k : ℕ} (h : v.Accounts base writes done harvested held)
    (hp : Pending v.cq v.requests)
    (hlt : ∀ bid, refs (held ++ ((View.consume base)^[k] v).out) bid < 2 ^ 31) :
    ∃ done', ((View.consume base)^[k] v).Accounts base writes done' harvested held := by
  induction k generalizing v done with
  | zero => exact ⟨done, h⟩
  | succ k ih =>
    rw [Function.iterate_succ_apply] at hlt ⊢
    obtain ⟨extra, hextra⟩ := View.iterate_out_append base k (v.consume base)
    obtain ⟨done', h'⟩ := h.consume hp fun bid => by
      have hle := hlt bid
      rw [hextra, ← List.append_assoc, refs_append] at hle
      omega
    exact ih h' (hp.consume base) hlt

end Waits

/-! ### The steps of the machine -/

/-- A completion is added to the writes of the buffer it carries. -/
theorem Machine.afterPost_writes (s : Machine U) (cqe : IoUringCqe) (bid : ℕ) :
    (s.afterPost cqe).writes bid = s.writes bid ++ (writeOf s.requests bid cqe).toList := by
  rw [Machine.afterPost, writeOf]
  dsimp only
  cases hr : requestOf s.requests cqe with
  | none =>
    dsimp only
    rw [Option.map_none, ite_self, Option.toList_none, List.append_nil]
  | some r =>
    dsimp only
    by_cases hb : hasFlag cqe.flags ioringCqeFBuffer = true
    · rw [if_pos hb]
      by_cases hbe : bid = flagsBid cqe.flags
      · rw [hbe, Function.update_self, if_pos (carries_iff.mpr ⟨hb, rfl⟩)]
        rfl
      · rw [Function.update_of_ne hbe, if_neg fun hc => hbe (carries_iff.mp hc).2.symm,
          Option.toList_none, List.append_nil]
    · rw [if_neg hb, if_neg fun hc => hb (carries_iff.mp hc).1, Option.toList_none,
        List.append_nil]

/-- The accounts of a machine. -/
def Machine.Accounts (s : Machine U) : Prop :=
  ∃ off cnt done, s.xio.bufs.Wf off cnt ∧ Uring.Accounts s.xio.bufs.buf s.xio.cq s.requests
    off cnt s.writes done s.harvested s.held

/-- The accounts hold of what `fh_xio_create` returns. -/
theorem Machine.accounts_start {calloc queueInit setupBufRing : Bool} {memalign : Option ℕ}
    {x : Xio U} (h : fhXioCreate calloc queueInit setupBufRing memalign = some (some x)) :
    (Machine.start x).Accounts := by
  obtain ⟨buf, r, -, hr, rfl⟩ := fhXioCreate_eq_some h
  refine ⟨_, _, fun _ => [], freshXio_bufs hr, ?_⟩
  exact
    { cnt_eq := fun bid _ => rfl
      off_eq := fun bid _ => rfl
      writes_eq := fun bid => rfl
      sigs_eq := fun bid => rfl
      last := fun bid w hw => absurd hw (by simp [Machine.start])
      ledger := ⟨by simp [Machine.start], fun bid => by simp [Machine.start, refs],
        fun bid hf => by simp [Machine.start, finOf] at hf⟩
      buffers := by simp [Machine.start, freshXio] }

namespace Machine.Accounts

variable {s : Machine U} {consumed : List (IoUringCqe × Option (XioRequest U))}

theorem request (h : s.Accounts) (hinv : s.Inv consumed) {udata : Option U}
    {sqe : Option IoUringSqe} {x : Xio U} (hcq : x.cq = s.xio.cq) (hbufs : x.bufs = s.xio.bufs)
    (hrequests : (s.afterRequest udata sqe x).requests = s.requests ∨ ∃ a r,
      s.requests a = none ∧ (s.afterRequest udata sqe x).requests
        = Function.update s.requests a r) : (s.afterRequest udata sqe x).Accounts := by
  obtain ⟨off, cnt, done, hwf, hacc⟩ := h
  refine ⟨off, cnt, done, by rw [← hbufs] at hwf; exact hwf, ?_⟩
  have hsame : ∀ c ∈ s.xio.cq, requestOf (s.afterRequest udata sqe x).requests c
      = requestOf s.requests c := by
    intro c hc
    rcases hrequests with heq | ⟨a, r, hnone, heq⟩
    · rw [heq]
    · rw [heq]
      exact requestOf_update hinv.pending hnone r hc
  show Uring.Accounts x.bufs.buf x.cq _ off cnt s.writes done s.harvested s.held
  rw [hbufs, hcq]
  exact
    { cnt_eq := hacc.cnt_eq
      off_eq := hacc.off_eq
      writes_eq := fun bid => by rw [hacc.writes_eq, pendingWrites_congr hsame]
      sigs_eq := hacc.sigs_eq
      last := hacc.last
      ledger := hacc.ledger
      buffers := hacc.buffers }

theorem post (h : s.Accounts) {cqe : IoUringCqe} (hok : PostOk s.requests s.xio.cq cqe)
    (hbuf : hasFlag cqe.flags ioringCqeFBuffer = true →
      (∃ a, cqe.userData = .data a) ∧ ∀ w ∈ s.writes (flagsBid cqe.flags), w.more = true) :
    (s.afterPost cqe).Accounts := by
  obtain ⟨off, cnt, done, hwf, hacc⟩ := h
  refine ⟨off, cnt, done, hwf, ?_⟩
  have hpending : ∀ bid, pendingWrites s.requests bid (s.xio.cq ++ [cqe])
      = pendingWrites s.requests bid s.xio.cq ++ (writeOf s.requests bid cqe).toList := by
    intro bid
    rw [pendingWrites, List.filterMap_append]
    congr 1
  have hwrites := s.afterPost_writes cqe
  exact
    { cnt_eq := hacc.cnt_eq
      off_eq := hacc.off_eq
      writes_eq := fun bid => by
        rw [hwrites, hacc.writes_eq, List.append_assoc]
        exact congrArg _ (hpending bid).symm
      sigs_eq := hacc.sigs_eq
      last := fun bid w hw => by
        rw [hwrites] at hw
        -- All writes before a new one have another one to follow.
        by_cases hc : carries bid cqe = true
        · obtain ⟨hb, rfl⟩ := carries_iff.mp hc
          obtain ⟨⟨a, ha⟩, hmore⟩ := hbuf hb
          obtain ⟨r, hr⟩ := (hok a ha).1
          have hr' : requestOf s.requests cqe = some r := by rw [requestOf, ha]; exact hr
          rw [writeOf, if_pos hc, hr', Option.map_some, Option.toList_some,
            List.dropLast_concat] at hw
          exact hmore w hw
        · rw [writeOf, if_neg hc, Option.toList_none, List.append_nil] at hw
          exact hacc.last bid w hw
      ledger := hacc.ledger
      buffers := fun c hc hb => by
        rcases List.mem_append.mp hc with hc | hc
        · exact hacc.buffers c hc hb
        · rw [List.mem_singleton.mp hc] at hb ⊢
          exact (hbuf hb).1 }

/-- A wait, if it leaves fewer than `2 ^ 31` results of every buffer held, keeps the
accounts; the ring stays as it is. -/
theorem wait (h : s.Accounts) (hinv : s.Inv consumed) {maxResults : ℕ} {rc : ℤ}
    {ret : Except ℤ (List (XioResult U))} {x : Xio U}
    (hwait : fhXioWait s.xio maxResults rc = some (ret, x))
    (hlt : ∀ bid, refs (s.held ++ resultsOf ret) bid < 2 ^ 31) :
    (s.afterWait (resultsOf ret) x).Accounts ∧ x.bufs.bufRing = s.xio.bufs.bufRing := by
  obtain ⟨off, cnt, done, hwf, hacc⟩ := h
  obtain ⟨k, ret', x', hwait', hk, hcq, hbase, hring, hshows, hres, -⟩ :=
    fhXioWait_eq (v := s.view off cnt) ⟨hwf, hinv.records⟩ hinv.pending rfl rfl maxResults rc
  obtain ⟨rfl, rfl⟩ := Prod.mk.inj (Option.some.inj (hwait.symm.trans hwait'))
  have hview : (s.view off cnt).Accounts s.xio.bufs.buf s.writes done s.harvested s.held := by
    simp only [View.Accounts, Machine.view, List.filter_nil, List.append_nil]
    exact hacc
  obtain ⟨done', hacc'⟩ := hview.iterate (k := k) hinv.pending (hres ▸ hlt)
  refine ⟨⟨_, _, done', hshows.bufs, ?_⟩, hring⟩
  rw [View.Accounts, ← hres, View.iterate_cq, ← s.afterWait_requests hk hcq off cnt] at hacc'
  show Uring.Accounts x.bufs.buf x.cq _ _ _ s.writes done' _ (s.held ++ resultsOf ret)
  rw [hbase, hcq]
  exact hacc'

/-- Held results are given back: the finished buffers that no result refers to
afterwards go back to the ring, each once, and their words are zero. -/
theorem free [DecidableEq U] (h : s.Accounts) {rs : List (XioResult U)}
    (hsub : rs.Subperm s.held) :
    ∃ (b : BufPool) (bids : List ℕ), fhXioResultsFree false s.xio.bufs rs = some b ∧
      (s.afterFree rs b).Accounts ∧
      bids.Nodup ∧
      s.xio.bufs.bufRing.published b.bufRing s.xio.bufs.bufMask
        = bids.map (fun bid => some (bufEntry s.xio.bufs.buf bid)) ∧
      (∀ bid, bid ∈ bids ↔ finOf s.harvested bid = true ∧ refs (s.held.diff rs) bid = 0) ∧
      ∀ bid ∈ bids, b.bufOffsets.read bid = some 0 ∧ b.bufRefcount.read bid = some 0 := by
  obtain ⟨off, cnt, done, hwf, hacc⟩ := h
  have hwf' : s.xio.bufs.Wf off (refcountOf s.held (finOf s.harvested)) :=
    hwf.congr (fun _ _ => rfl) fun bid hb => (hacc.cnt_eq bid hb).symm
  obtain ⟨b, bids, hfree, hbase, hnd, hlt, hpub, hiff, hwf₁, hled⟩ :=
    fhXioResultsFree_eq false hwf' hacc.ledger hsub
  rw [← hwf.mask_eq] at hpub
  have hput : putBack s.xio.bufs b = bids := by
    rw [putBack, hpub, List.filterMap_map]
    exact List.filterMap_some
  -- A buffer put back starts a new cycle: nothing is pending for it.
  have hfin : ∀ bid, finOf (fun bid => if bid ∈ bids then [] else s.harvested bid) bid
      = finWithout (finOf s.harvested) bids bid := by
    intro bid
    rw [finOf, finWithout]
    by_cases hb : bid ∈ bids
    · rw [if_pos hb, decide_eq_false (not_not.mpr hb), Bool.and_false]
      rfl
    · rw [if_neg hb, decide_eq_true hb, Bool.and_true]
      rfl
  have hfin' : finOf (fun bid => if bid ∈ bids then [] else s.harvested bid)
      = finWithout (finOf s.harvested) bids := funext hfin
  refine ⟨b, bids, hfree, ⟨_, _, fun bid => if bid ∈ bids then [] else done bid, hwf₁, ?_⟩, hnd,
    hpub, hiff, fun bid hb => ⟨?_, ?_⟩⟩
  · show Uring.Accounts b.buf s.xio.cq s.requests _ _
      (fun bid => if bid ∈ putBack s.xio.bufs b then [] else s.writes bid) _
      (fun bid => if bid ∈ putBack s.xio.bufs b then [] else s.harvested bid) (s.held.diff rs)
    rw [hput, hbase]
    refine
      { cnt_eq := fun bid _ => by rw [hfin']
        off_eq := fun bid hb => ?_
        writes_eq := fun bid => ?_
        sigs_eq := fun bid => ?_
        last := fun bid w hw => ?_
        ledger := by rw [hfin']; exact hled
        buffers := hacc.buffers }
    · split
      · rfl
      · exact hacc.off_eq bid hb
    · split
      · rename_i hb
        rw [hacc.pendingWrites_of_fin ((hiff bid).mp hb).1]
        rfl
      · exact hacc.writes_eq bid
    · split
      · rfl
      · exact hacc.sigs_eq bid
    · split at hw
      · exact absurd hw List.not_mem_nil
      · exact hacc.last bid w hw
  · rw [hwf₁.off_eq bid (hlt bid hb)]
    exact congrArg some (if_pos hb)
  · rw [hwf₁.cnt_eq bid (hlt bid hb), refcountOf, ((hiff bid).mp hb).2, finWithout,
      decide_eq_false (not_not.mpr hb), Bool.and_false]
    rfl

end Machine.Accounts

end Freehttpd.Uring
