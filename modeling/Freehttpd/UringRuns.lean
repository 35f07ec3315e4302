/-
Runs of the io_uring backend, and what its waits return.

* `Machine.Inv` — what every step keeps that is `Admissible`, whatever is given back;
* `uring_results_exact` — over a whole run the results are the completions consumed,
  in order, each once, with the `udata` and `op` of the request they answer, and a
  wait leaves completions behind only if its results are full.
-/
import Freehttpd.UringWait

namespace Freehttpd.Uring

open Runs

variable {U : Type}

/-! ### Answers -/

/-- What the result of a completion says, its buffer apart; an internal completion has
none. -/
def answer (p : IoUringCqe × Option (XioRequest U)) : Option (XioResult U) :=
  match p.1.userData with
  | .data _ => p.2.map fun r =>
    { op := some r.opdata.op
      flags := p.1.flags
      res := p.1.res
      buf := none
      udata := r.udata }
  | _ => none

/-- A result without its buffer. -/
def withoutBuf (r : XioResult U) : XioResult U := { r with buf := none }

/-- Completions with their requests. -/
def withRequests (requests : ℕ → Option (XioRequest U)) (cq : List IoUringCqe) :
    List (IoUringCqe × Option (XioRequest U)) :=
  cq.map fun c => (c, requestOf requests c)

theorem withRequests_congr {requests requests' : ℕ → Option (XioRequest U)}
    {cq : List IoUringCqe} (h : ∀ c ∈ cq, requestOf requests' c = requestOf requests c) :
    withRequests requests' cq = withRequests requests cq :=
  List.map_congr_left fun c hc => by rw [h c hc]

theorem answer_of_requestOf {requests : ℕ → Option (XioRequest U)} {c : IoUringCqe}
    {r : XioRequest U} (h : requestOf requests c = some r) (base : ℕ) (off : ℕ → ℕ) :
    answer (c, requestOf requests c) = some (withoutBuf (resultOf base off c r)) := by
  rw [answer, h]
  rw [requestOf] at h
  cases hc : c.userData with
  | null => rw [hc] at h; cases h
  | xio => rw [hc] at h; cases h
  | data a => rfl

theorem answer_of_requestOf_none {requests : ℕ → Option (XioRequest U)} {c : IoUringCqe}
    (h : requestOf requests c = none) : answer (c, requestOf requests c) = none := by
  rw [answer, h]
  cases c.userData <;> rfl

/-- The results of consuming `k` completions are their answers. -/
theorem View.iterate_out (base : ℕ) {k : ℕ} {v : View U} (hp : Pending v.cq v.requests) :
    ((View.consume base)^[k] v).out.map withoutBuf = v.out.map withoutBuf
      ++ (withRequests v.requests (v.cq.take k)).filterMap answer := by
  induction k generalizing v with
  | zero => simp [withRequests]
  | succ k ih =>
    rw [Function.iterate_succ_apply, ih (hp.consume base)]
    cases hcq : v.cq with
    | nil =>
      have hv : v.consume base = v := by rw [View.consume, hcq]
      rw [hv, hcq]
      simp [withRequests]
    | cons c cq =>
      rw [hcq] at hp
      have hrest : withRequests (v.consume base).requests ((v.consume base).cq.take k)
          = withRequests v.requests (cq.take k) := by
        rw [View.consume_cq, hcq, List.tail_cons, View.consume_requests hcq]
        exact withRequests_congr fun c' hc' => requestOf_finish hp (List.mem_of_mem_take hc')
      rw [hrest, List.take_succ_cons]
      show _ = _ ++ List.filterMap answer ((c, requestOf v.requests c) ::
        withRequests v.requests (cq.take k))
      cases hr : requestOf v.requests c with
      | none =>
        rw [View.consume_of_none hcq hr,
          List.filterMap_cons_none (by rw [← hr]; exact answer_of_requestOf_none hr)]
      | some r =>
        rw [View.consume_of_some hcq hr, List.filterMap_cons_some (b := withoutBuf
            (resultOf base v.off c r)) (by rw [← hr]; exact answer_of_requestOf hr base v.off),
          List.map_append, List.append_assoc]
        rfl

/-! ### The invariant -/

/-- What every step keeps; `consumed` are the completions consumed so far. -/
structure Machine.Inv (s : Machine U) (consumed : List (IoUringCqe × Option (XioRequest U))) :
    Prop where
  bufs : ∃ off cnt, s.xio.bufs.Wf off cnt
  records : ∃ free, s.xio.records.Wf free s.requests none
  pending : Pending s.xio.cq s.requests
  posted : s.posted = consumed ++ withRequests s.requests s.xio.cq
  internal : ∀ p ∈ s.posted, p.2 = none ↔ p.1.userData = .null ∨ p.1.userData = .xio

/-- What the backend stands for before a wait. -/
def Machine.view (s : Machine U) (off cnt : ℕ → ℕ) : View U :=
  { cq := s.xio.cq
    requests := s.requests
    off := off
    cnt := cnt
    out := [] }

/-- The request functions differ in the submission entry only. -/
theorem fhXioRequest_eq (env : RequestEnv) (x : Xio U) (udata : Option U) (opdata : XioOpData)
    (offset : ℕ) : ∃ f : IoUringSqe → IoUringSqe,
      fhXioRequest env x udata opdata offset = requestWith env x udata opdata f ∧
      ∀ sqe, (f sqe).opdata = sqe.opdata ∧ (f sqe).userData = sqe.userData := by
  have hsetup : ∀ (buf : Option ℕ) (sqe : IoUringSqe),
      (fhXioRequestSetupSqeCommon sqe buf).opdata = sqe.opdata ∧
        (fhXioRequestSetupSqeCommon sqe buf).userData = sqe.userData := by
    intro buf sqe
    rw [fhXioRequestSetupSqeCommon]
    split <;> exact ⟨rfl, rfl⟩
  cases opdata with
  | read fd buf size => exact ⟨_, rfl, fun sqe => hsetup buf { sqe with offset := offset }⟩
  | write fd buf size => exact ⟨_, rfl, fun sqe => hsetup buf { sqe with offset := offset }⟩
  | recv fd buf size flags => exact ⟨_, rfl, hsetup buf⟩
  | send fd buf size flags => exact ⟨_, rfl, hsetup buf⟩
  | accept fd addr addrLen flags => exact ⟨_, rfl, fun _ => ⟨rfl, rfl⟩⟩

theorem Machine.afterRequest_requests (s : Machine U) (udata : Option U) {e : IoUringSqe} {a : ℕ}
    (h : e.userData = .data a) (x : Xio U) :
    (s.afterRequest udata (some e) x).requests
      = Function.update s.requests a (some ⟨udata, e.opdata⟩) := by
  obtain ⟨opdata, offset, userData, bufGroup⟩ := e
  obtain rfl : userData = .data a := h
  rfl

/-- The requests left open by a wait that consumes `k` completions. -/
theorem Machine.afterWait_requests (s : Machine U) {k : ℕ} (hk : k ≤ s.xio.cq.length) {x : Xio U}
    (hcq : x.cq = s.xio.cq.drop k) (off cnt : ℕ → ℕ) (results : List (XioResult U)) :
    (s.afterWait results x).requests
      = ((View.consume s.xio.bufs.buf)^[k] (s.view off cnt)).requests := by
  rw [View.iterate_requests _ hk, Machine.afterWait, hcq, List.length_drop]
  show (s.xio.cq.take (s.xio.cq.length - (s.xio.cq.length - k))).foldl finish s.requests
    = (s.xio.cq.take k).foldl finish s.requests
  rw [Nat.sub_sub_self hk]

namespace Machine.Inv

variable {s : Machine U} {consumed : List (IoUringCqe × Option (XioRequest U))}

/-- A request takes a record that no open request holds, or changes no request. -/
theorem request (h : s.Inv consumed) {env : RequestEnv}
    (hmalloc : ∀ a, env.malloc = some a → s.xio.records.heap a = none) (udata : Option U)
    (opdata : XioOpData) (offset : ℕ) :
    ∃ rc sqe x, fhXioRequest env s.xio udata opdata offset = some ((rc, sqe), x) ∧
      x.cq = s.xio.cq ∧ x.bufs = s.xio.bufs ∧ (s.afterRequest udata sqe x).Inv consumed ∧
      ((sqe = none ∧ rc < 0 ∧ (s.afterRequest udata sqe x).requests = s.requests) ∨
        ∃ e a, sqe = some e ∧ rc = 0 ∧ e.userData = .data a ∧ e.opdata = opdata ∧
          s.requests a = none ∧ (s.afterRequest udata sqe x).requests
            = Function.update s.requests a (some ⟨udata, opdata⟩)) := by
  obtain ⟨free, hrec⟩ := h.records
  obtain ⟨f, hf, hsqe⟩ := fhXioRequest_eq env s.xio udata opdata offset
  rw [hf]
  rcases hrec.requestWith hmalloc udata opdata f with
    ⟨rc, p, free', hreq, hrc, hwf⟩ | ⟨a, p, free', hreq, hnone, hwf⟩
  · exact ⟨rc, none, _, hreq, rfl, rfl, ⟨h.bufs, ⟨free', hwf⟩, h.pending, h.posted, h.internal⟩,
      .inl ⟨rfl, hrc, rfl⟩⟩
  · obtain ⟨hop, hud⟩ := hsqe ⟨opdata, 0, .data a, none⟩
    have hrequests : (s.afterRequest udata (some (f ⟨opdata, 0, .data a, none⟩))
        { s.xio with records := p }).requests
          = Function.update s.requests a (some ⟨udata, opdata⟩) := by
      rw [Machine.afterRequest_requests s udata hud, hop]
    refine ⟨0, _, _, hreq, rfl, rfl, ⟨h.bufs, ⟨free', ?_⟩, ?_, ?_, h.internal⟩,
      .inr ⟨_, a, rfl, rfl, hud, hop, hnone, hrequests⟩⟩
    · rw [hrequests]
      exact hwf
    · rw [hrequests]
      exact h.pending.update hnone _
    · rw [hrequests]
      show s.posted = consumed ++ withRequests _ s.xio.cq
      rw [withRequests_congr fun c hc => requestOf_update h.pending hnone _ hc]
      exact h.posted

/-- A completion is posted. -/
theorem post (h : s.Inv consumed) {cqe : IoUringCqe} (hcqe : PostOk s.requests s.xio.cq cqe) :
    (s.afterPost cqe).Inv consumed where
  bufs := h.bufs
  records := h.records
  pending := h.pending.post hcqe
  posted := by
    show s.posted ++ [(cqe, requestOf s.requests cqe)]
      = consumed ++ withRequests s.requests (s.xio.cq ++ [cqe])
    rw [h.posted, withRequests, withRequests, List.map_append, List.append_assoc]
    rfl
  internal p hp := by
    rcases List.mem_append.mp hp with hp | hp
    · exact h.internal p hp
    · rw [List.mem_singleton.mp hp]
      show requestOf s.requests cqe = none ↔ _
      rw [requestOf]
      cases hc : cqe.userData with
      | null => simp
      | xio => simp
      | data a =>
        obtain ⟨r, hr⟩ := (hcqe a hc).1
        simp [hr]

/-- Results are given back. -/
theorem free [DecidableEq U] (h : s.Inv consumed) {rs : List (XioResult U)} {b : BufPool}
    (hb : ∃ off cnt, b.Wf off cnt) : (s.afterFree rs b).Inv consumed where
  bufs := hb
  records := h.records
  pending := h.pending
  posted := h.posted
  internal := h.internal

/-- A wait: what it consumes, what it returns and what it leaves. -/
theorem wait (h : s.Inv consumed) (maxResults : ℕ) (rc : ℤ) :
    ∃ k ret x, fhXioWait s.xio maxResults rc = some (ret, x) ∧ k ≤ s.xio.cq.length ∧
      x.cq = s.xio.cq.drop k ∧
      (s.afterWait (resultsOf ret) x).Inv
        (consumed ++ withRequests s.requests (s.xio.cq.take k)) ∧
      (resultsOf ret).map withoutBuf
        = (withRequests s.requests (s.xio.cq.take k)).filterMap answer ∧
      (resultsOf ret).length ≤ min maxResults (xioRingEntries * 4) ∧
      (k = s.xio.cq.length ∨ (resultsOf ret).length = min maxResults (xioRingEntries * 4)) := by
  obtain ⟨off, cnt, hbufs⟩ := h.bufs
  obtain ⟨k, ret, x, hwait, hk, hcq, -, -, hshows, hres, hle, hfull⟩ :=
    fhXioWait_eq (v := s.view off cnt) ⟨hbufs, h.records⟩ h.pending rfl rfl maxResults rc
  have hout := View.iterate_out s.xio.bufs.buf (k := k) (v := s.view off cnt) h.pending
  rw [← hres] at hout
  have hrequests := s.afterWait_requests hk hcq off cnt (resultsOf ret)
  have hcq' : (s.afterWait (resultsOf ret) x).xio.cq
      = ((View.consume s.xio.bufs.buf)^[k] (s.view off cnt)).cq := by
    rw [View.iterate_cq]
    exact hcq
  -- What is left is about requests that stay open.
  have hkept : withRequests ((View.consume s.xio.bufs.buf)^[k] (s.view off cnt)).requests
      (s.xio.cq.drop k) = withRequests s.requests (s.xio.cq.drop k) :=
    withRequests_congr fun c hc => View.iterate_requestOf (v := s.view off cnt) h.pending hc
  refine ⟨k, ret, x, hwait, hk, hcq, ⟨⟨_, _, hshows.bufs⟩, ?_, ?_, ?_, h.internal⟩, hout, hle,
    hfull⟩
  · rw [hrequests]
    exact hshows.records
  · rw [hrequests, hcq']
    exact Pending.iterate (v := s.view off cnt) h.pending _ k
  · show s.posted = _
    rw [hcq', hrequests, View.iterate_cq]
    show s.posted = _ ++ withRequests _ (s.xio.cq.drop k)
    rw [hkept, h.posted, List.append_assoc, withRequests, withRequests, withRequests,
      ← List.map_append, List.take_append_drop]

end Machine.Inv

/-! ### Runs -/

/-- What `fh_xio_create` returns. -/
def freshXio (buf : ℕ) (r : TailRing IoUringBuf) : Xio U :=
  { cq := []
    bufs :=
      { bufRing := r
        buf := buf
        bufMask := xioRingBufCount - 1
        bufOffsets := Block.calloc xioRingBufCount 0
        bufRefcount := Block.calloc xioRingBufCount 0 }
    records :=
      { dataHead := none
        dataTail := none
        dataCount := 0
        heap := fun _ => none } }

theorem fhXioCreate_eq_some {calloc queueInit setupBufRing : Bool} {memalign : Option ℕ}
    {x : Xio U} (h : fhXioCreate calloc queueInit setupBufRing memalign = some (some x)) :
    ∃ buf r, memalign = some buf ∧ initBufRing buf = some r ∧ x = freshXio buf r := by
  unfold fhXioCreate at h
  split at h
  case isFalse => cases h
  cases memalign with
  | none => cases h
  | some buf =>
    dsimp only at h
    rw [Option.bind_eq_bind, Option.bind_eq_some_iff] at h
    obtain ⟨r, hr, h⟩ := h
    exact ⟨buf, r, rfl, hr, (Option.some.inj (Option.some.inj h)).symm⟩

theorem freshXio_bufs {buf : ℕ} {r : TailRing IoUringBuf} (h : initBufRing buf = some r) :
    (freshXio buf r : Xio U).bufs.Wf (fun _ => 0) (fun _ => 0) := by
  obtain ⟨r', hr', hwf, -⟩ := initBufRing_eq buf
  obtain rfl := Option.some.inj (h.symm.trans hr')
  exact
    { size_off := Block.size_calloc _ _
      size_cnt := Block.size_calloc _ _
      off_eq := fun bid hbid => Block.read_calloc 0 hbid
      cnt_eq := fun bid hbid => Block.read_calloc 0 hbid
      ring := hwf
      mask_eq := rfl }

/-- The invariant holds of what `fh_xio_create` returns. -/
theorem Machine.inv_start {calloc queueInit setupBufRing : Bool} {memalign : Option ℕ} {x : Xio U}
    (h : fhXioCreate calloc queueInit setupBufRing memalign = some (some x)) :
    (Machine.start x).Inv [] := by
  obtain ⟨buf, r, -, hr, rfl⟩ := fhXioCreate_eq_some h
  exact
    { bufs := ⟨_, _, freshXio_bufs hr⟩
      records := ⟨[], DataPool.Wf.empty⟩
      pending := Pending.nil _
      posted := rfl
      internal := by simp [Machine.start] }

/-- `fh_xio_create`, with calls that succeed. -/
theorem fhXioCreate_succeeds (buf : ℕ) :
    ∃ r, fhXioCreate true true true (some buf) = some (some (freshXio buf r : Xio U)) := by
  obtain ⟨r, hr, -⟩ := initBufRing_eq buf
  refine ⟨r, ?_⟩
  unfold fhXioCreate
  rw [if_pos (by decide)]
  dsimp only
  rw [hr]
  rfl

/-- The results that a step returns. -/
def UringRet.results : UringRet U → List (XioResult U)
  | .waited ret => resultsOf ret
  | _ => []

variable [DecidableEq U]

/-- Every admissible step that returns keeps the invariant, and returns the answers to
the completions it consumes. -/
theorem Machine.Inv.step {s s' : Machine U} {consumed : List (IoUringCqe × Option (XioRequest U))}
    (h : s.Inv consumed) {op : UringOp U} (hadm : Admissible s op) {ret : UringRet U}
    (hstep : uringStep s op = some (ret, s')) :
    ∃ newly, s'.Inv (consumed ++ newly) ∧
      ret.results.map withoutBuf = newly.filterMap answer := by
  cases op with
  | request env udata opdata offset =>
    obtain ⟨rc, sqe, x, hreq, -, -, hinv, -⟩ := h.request hadm udata opdata offset
    rw [uringStep, hreq] at hstep
    obtain ⟨rfl, rfl⟩ := Prod.mk.inj (Option.some.inj hstep)
    exact ⟨[], by rwa [List.append_nil], rfl⟩
  | post cqe =>
    obtain ⟨rfl, rfl⟩ := Prod.mk.inj (Option.some.inj hstep)
    exact ⟨[], by rw [List.append_nil]; exact h.post hadm, rfl⟩
  | wait maxResults rc =>
    obtain ⟨k, w, x, hwait, -, -, hinv, hres, -⟩ := h.wait maxResults rc
    rw [uringStep, hwait] at hstep
    obtain ⟨rfl, rfl⟩ := Prod.mk.inj (Option.some.inj hstep)
    exact ⟨_, hinv, hres⟩
  | free result =>
    obtain ⟨b, hb, rfl, rfl⟩ := uringStep_free_eq_some hstep
    obtain ⟨off, cnt, hbufs⟩ := h.bufs
    rw [fhXioResultFree_eq _ hbufs.ring.tail_lt] at hb
    exact ⟨[], by rw [List.append_nil]; exact h.free (hbufs.resultsFree hb), rfl⟩
  | freeAll results =>
    obtain ⟨b, hb, rfl, rfl⟩ := uringStep_freeAll_eq_some hstep
    obtain ⟨off, cnt, hbufs⟩ := h.bufs
    exact ⟨[], by rw [List.append_nil]; exact h.free (hbufs.resultsFree hb), rfl⟩

/-- Over a run the results are the answers to what was consumed. -/
theorem Machine.Inv.run {s t : Machine U} {consumed : List (IoUringCqe × Option (XioRequest U))}
    (h : s.Inv consumed) {ops : List (UringOp U)} (hadm : EachStep uringStep Admissible s ops)
    {outs : List (UringRet U)} (hruns : runs uringStep s ops = some (outs, t)) :
    ∃ newly, t.Inv (consumed ++ newly) ∧
      (outs.flatMap UringRet.results).map withoutBuf = newly.filterMap answer := by
  induction ops generalizing s consumed outs with
  | nil =>
    obtain ⟨rfl, rfl⟩ := Prod.mk.inj (Option.some.inj hruns)
    exact ⟨[], by rwa [List.append_nil], rfl⟩
  | cons op ops ih =>
    obtain ⟨ret, s', outs', hstep, hruns', rfl⟩ := runs_cons_eq_some hruns
    rw [eachStep_cons_of_step hstep] at hadm
    obtain ⟨newly, hs', hret⟩ := h.step hadm.1 hstep
    obtain ⟨newly', ht, houts⟩ := ih hs' hadm.2 hruns'
    refine ⟨newly ++ newly', by rw [← List.append_assoc]; exact ht, ?_⟩
    rw [List.flatMap_cons, List.map_append, hret, houts, List.filterMap_append]

/-- In every run from `fh_xio_create`, the results of the waits, one after the other,
are the answers to the completions consumed, in ring order: those that are not
internal, each once, with the `udata` and `op` of its request.  The next wait returns
the answers to some first completions, at most `maxResults` and `4 * XIO_RING_ENTRIES`
of them, and completions stay in the ring only if there are as many. -/
theorem uring_results_exact {calloc queueInit setupBufRing : Bool} {memalign : Option ℕ}
    {x₀ : Xio U} {ops : List (UringOp U)} {outs : List (UringRet U)} {s : Machine U}
    (hcreate : fhXioCreate calloc queueInit setupBufRing memalign = some (some x₀))
    (hadm : EachStep uringStep Admissible (Machine.start x₀) ops)
    (hruns : runs uringStep (Machine.start x₀) ops = some (outs, s)) :
    ∃ consumed pending, s.posted = consumed ++ pending ∧ pending.map Prod.fst = s.xio.cq ∧
      (∀ p ∈ s.posted, p.2 = none ↔ p.1.userData = .null ∨ p.1.userData = .xio) ∧
      (outs.flatMap UringRet.results).map withoutBuf = consumed.filterMap answer ∧
      ∀ maxResults rc, ∃ k ret x, fhXioWait s.xio maxResults rc = some (ret, x) ∧
        k ≤ s.xio.cq.length ∧ x.cq = s.xio.cq.drop k ∧
        (resultsOf ret).map withoutBuf = (pending.take k).filterMap answer ∧
        (resultsOf ret).length ≤ min maxResults (xioRingEntries * 4) ∧
        (k = s.xio.cq.length ∨ (resultsOf ret).length = min maxResults (xioRingEntries * 4)) := by
  obtain ⟨consumed, hinv, houts⟩ := (Machine.inv_start hcreate).run hadm hruns
  rw [List.nil_append] at hinv
  refine ⟨consumed, withRequests s.requests s.xio.cq, hinv.posted, ?_, hinv.internal, houts,
    fun maxResults rc => ?_⟩
  · rw [withRequests, List.map_map]
    exact List.map_id _
  · obtain ⟨k, ret, x, hwait, hk, hcq, -, hres, hle, hfull⟩ := hinv.wait maxResults rc
    refine ⟨k, ret, x, hwait, hk, hcq, ?_, hle, hfull⟩
    rw [hres, withRequests, withRequests, List.map_take]

/-- A receive request, an internal completion, the completion of the request, and a
wait. -/
def recvOps : List (UringOp ℕ) :=
  [.request ⟨some 1, true, false⟩ (some 7) (.recv 5 none 16 0) 0, .post ⟨.null, 0, 0⟩,
    .post ⟨.data 1, 10, 1⟩, .wait 4 0]

set_option maxRecDepth 20000 in
theorem recvOps_runs (r : TailRing IoUringBuf) :
    ∃ outs s, runs uringStep (Machine.start (freshXio 0 r)) recvOps = some (outs, s) ∧
      EachStep uringStep Admissible (Machine.start (freshXio 0 r)) recvOps ∧
      (outs.flatMap UringRet.results).map withoutBuf = [⟨some .recv, 1, 10, none, some 7⟩] ∧
      s.xio.cq = [] ∧ ∀ a, s.requests a = none := by
  refine ⟨_, _, rfl, ?_, rfl, rfl, fun a => ?_⟩
  case refine_2 =>
    show Function.update (Function.update (fun _ : ℕ => none) 1 _) 1 none a = none
    rw [Function.update_idem]
    exact congrFun (Function.update_eq_self 1 (fun _ => none)) a
  refine (eachStep_cons_of_step rfl _).mpr ⟨fun a ha => rfl, ?_⟩
  refine (eachStep_cons_of_step rfl _).mpr ⟨fun a ha => (by cases ha), ?_⟩
  refine (eachStep_cons_of_step rfl _).mpr ⟨?_, (eachStep_cons_of_step rfl _).mpr ⟨trivial, trivial⟩⟩
  intro a ha
  obtain rfl : 1 = a := UserData.data.inj ha
  refine ⟨⟨_, rfl⟩, fun c hc hc' => ?_, fun _ => by decide⟩
  obtain rfl := List.mem_singleton.mp hc
  cases hc'

theorem uring_results_exact_recv : ∃ x₀ : Xio ℕ, ∃ outs s,
    fhXioCreate true true true (some 0) = some (some x₀) ∧
    runs uringStep (Machine.start x₀) recvOps = some (outs, s) ∧
    ∃ consumed pending, s.posted = consumed ++ pending ∧ pending.map Prod.fst = s.xio.cq ∧
      consumed.filterMap answer = [⟨some .recv, 1, 10, none, some 7⟩] := by
  obtain ⟨r, hcreate⟩ := fhXioCreate_succeeds (U := ℕ) 0
  obtain ⟨outs, s, hruns, hadm, houts, -⟩ := recvOps_runs r
  obtain ⟨consumed, pending, hposted, hpending, -, hres, -⟩ :=
    uring_results_exact hcreate hadm hruns
  exact ⟨_, outs, s, hcreate, hruns, consumed, pending, hposted, hpending, hres ▸ houts⟩

end Freehttpd.Uring
