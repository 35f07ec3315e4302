/-
The requests of the io_uring backend: each answered to its end.

A completion without `IORING_CQE_F_MORE` is the last one of its request, and with it
the record of the request goes back.  So a request that was accepted is open until
a wait returns its last result.

* `Open` — the records of the open requests;
* `Open.consume` — what a row of completions closes, its last results report;
* `uring_requests_conserved` — over a run from `fh_xio_create` the requests accepted
  are those whose last result was returned and those that are open.
-/
import Freehttpd.Balance
import Freehttpd.UringRuns
import Mathlib.Algebra.Order.Group.Multiset

namespace Freehttpd.Uring

open Runs

variable {U : Type}

/-! ### Statement -/

/-- The ticket of a request. -/
def XioRequest.ticket (r : XioRequest U) : Ticket U := (some r.opdata.op, r.udata)

/-- `live` are the records of the open requests. -/
structure Open (requests : ℕ → Option (XioRequest U)) (live : List ℕ) : Prop where
  nodup : live.Nodup
  mem_iff : ∀ a, a ∈ live ↔ ∃ r, requests a = some r

/-- The tickets of the requests of the records `live`. -/
def openTickets (requests : ℕ → Option (XioRequest U)) (live : List ℕ) : Multiset (Ticket U) :=
  (live.filterMap fun a => (requests a).map XioRequest.ticket : List (Ticket U))

/-- The tickets of the requests whose last result is one of `results`. -/
def lastTickets (results : List (XioResult U)) : Multiset (Ticket U) :=
  ((results.filter fun r => !hasFlag r.flags ioringCqeFMore).map XioResult.ticket :
    List (Ticket U))

/-- The ticket of a request that was accepted. -/
def UringOp.accepted : UringOp U → UringRet U → Multiset (Ticket U)
  | .request _ udata opdata _, .requested rc => if rc = 0 then {(some opdata.op, udata)} else 0
  | _, _ => 0

/-- The tickets of the requests that a step ends. -/
def UringRet.ended (ret : UringRet U) : Multiset (Ticket U) := lastTickets ret.results

/-! ### Open requests -/

theorem lastTickets_cons_of_more {r : XioResult U}
    (h : hasFlag r.flags ioringCqeFMore = true) (results : List (XioResult U)) :
    lastTickets (r :: results) = lastTickets results := by
  rw [lastTickets, List.filter_cons_of_neg (by simpa using h)]
  rfl

theorem lastTickets_cons_of_last {r : XioResult U}
    (h : ¬ hasFlag r.flags ioringCqeFMore = true) (results : List (XioResult U)) :
    lastTickets (r :: results) = {r.ticket} + lastTickets results := by
  rw [lastTickets, List.filter_cons_of_pos (by simpa using h)]
  rfl

section Tickets

variable {requests : ℕ → Option (XioRequest U)} {live : List ℕ} {a : ℕ} {r : XioRequest U}

theorem openTickets_cons (h : requests a = some r) (live : List ℕ) :
    openTickets requests (a :: live) = {r.ticket} + openTickets requests live := by
  rw [openTickets, List.filterMap_cons_some (b := r.ticket) (by rw [h]; rfl)]
  rfl

theorem openTickets_congr {requests' : ℕ → Option (XioRequest U)}
    (h : ∀ b ∈ live, requests' b = requests b) :
    openTickets requests' live = openTickets requests live :=
  congrArg _ (List.filterMap_congr fun b hb => by rw [h b hb])

/-- A record can be taken out of the row. -/
theorem openTickets_erase (ha : a ∈ live) (h : requests a = some r) :
    openTickets requests live = {r.ticket} + openTickets requests (live.erase a) := by
  rw [← openTickets_cons h, openTickets, openTickets, Multiset.coe_eq_coe]
  exact (List.perm_cons_erase ha).filterMap _

theorem Open.empty : Open (fun _ => none : ℕ → Option (XioRequest U)) [] where
  nodup := List.nodup_nil
  mem_iff a := by simp

namespace Open

/-- A request is accepted. -/
theorem accept (h : Open requests live) (ha : requests a = none) (r : XioRequest U) :
    Open (Function.update requests a (some r)) (a :: live) ∧
      openTickets (Function.update requests a (some r)) (a :: live)
        = openTickets requests live + {r.ticket} := by
  have hnot : a ∉ live := fun hmem => by
    obtain ⟨r', hr'⟩ := (h.mem_iff a).mp hmem
    rw [ha] at hr'
    cases hr'
  refine ⟨⟨List.nodup_cons.mpr ⟨hnot, h.nodup⟩, fun b => ?_⟩, ?_⟩
  · rw [List.mem_cons, h.mem_iff]
    rcases eq_or_ne b a with rfl | hne
    · simp
    · rw [Function.update_of_ne hne]
      simp [hne]
  · rw [openTickets_cons (Function.update_self _ _ _), add_comm]
    congr 1
    refine openTickets_congr fun b hb => Function.update_of_ne ?_ _ _
    rintro rfl
    exact hnot hb

/-- A request ends. -/
theorem close (h : Open requests live) (ha : requests a = some r) :
    Open (Function.update requests a none) (live.erase a) ∧
      openTickets requests live
        = {r.ticket} + openTickets (Function.update requests a none) (live.erase a) := by
  refine ⟨⟨h.nodup.erase a, fun b => ?_⟩, ?_⟩
  · rw [h.nodup.mem_erase_iff, h.mem_iff]
    rcases eq_or_ne b a with rfl | hne
    · simp
    · rw [Function.update_of_ne hne]
      simp [hne]
  · rw [openTickets_erase ((h.mem_iff a).mpr ⟨r, ha⟩) ha]
    congr 1
    refine (openTickets_congr fun b hb => ?_).symm
    exact Function.update_of_ne (h.nodup.mem_erase_iff.mp hb).1 _ _

/-- A row of completions closes the requests whose last results are among the
answers. -/
theorem consume {cq : List IoUringCqe} (h : Open requests live) (hp : Pending cq requests) :
    ∃ live', Open (cq.foldl finish requests) live' ∧
      openTickets requests live = openTickets (cq.foldl finish requests) live'
        + lastTickets ((withRequests requests cq).filterMap answer) := by
  induction cq generalizing requests live with
  | nil => exact ⟨live, h, (add_zero _).symm⟩
  | cons c cq ih =>
    have hrest : withRequests requests cq = withRequests (finish requests c) cq :=
      withRequests_congr fun c' hc' => (requestOf_finish hp hc').symm
    have hcons : withRequests requests (c :: cq)
        = (c, requestOf requests c) :: withRequests (finish requests c) cq := by
      rw [← hrest]
      rfl
    rw [List.foldl_cons, hcons]
    have hstay : finish requests c = requests → answer (c, requestOf requests c) = none →
        ∃ live', Open (cq.foldl finish (finish requests c)) live' ∧
          openTickets requests live = openTickets (cq.foldl finish (finish requests c)) live'
            + lastTickets (((c, requestOf requests c) ::
              withRequests (finish requests c) cq).filterMap answer) := fun hfin hans => by
      rw [List.filterMap_cons_none hans]
      obtain ⟨live', hopen, hbal⟩ := ih (hfin.symm ▸ h) hp.tail
      rw [hfin] at hopen hbal ⊢
      exact ⟨live', hopen, hbal⟩
    cases hc : c.userData with
    | null => exact hstay (by rw [finish, hc]) (by rw [answer, hc])
    | xio => exact hstay (by rw [finish, hc]) (by rw [answer, hc])
    | data a =>
      obtain ⟨r, hr⟩ := hp.request c List.mem_cons_self a hc
      have hans : answer (c, requestOf requests c)
          = some ⟨some r.opdata.op, c.flags, c.res, none, r.udata⟩ := by
        rw [answer, hc, requestOf, hc]
        dsimp only
        rw [hr]
        rfl
      rw [List.filterMap_cons_some hans]
      by_cases hmore : hasFlag c.flags ioringCqeFMore = true
      · -- Another completion will follow, and the request stays open.
        have hfin : finish requests c = requests := by
          rw [finish, hc]
          exact if_pos hmore
        obtain ⟨live', hopen, hbal⟩ := ih (hfin.symm ▸ h) hp.tail
        rw [hfin] at hopen hbal ⊢
        refine ⟨live', hopen, ?_⟩
        rw [lastTickets_cons_of_more hmore]
        exact hbal
      · have hfin : finish requests c = Function.update requests a none := by
          rw [finish, hc]
          exact if_neg hmore
        obtain ⟨hclosed, htickets⟩ := h.close hr
        obtain ⟨live', hopen, hbal⟩ := ih (hfin.symm ▸ hclosed) hp.tail
        rw [hfin] at hopen hbal ⊢
        refine ⟨live', hopen, ?_⟩
        rw [htickets, hbal, lastTickets_cons_of_last hmore, add_left_comm]
        rfl

end Open

end Tickets

/-! ### Runs -/

theorem Pending.sublist {cq cq' : List IoUringCqe} {requests : ℕ → Option (XioRequest U)}
    (h : Pending cq requests) (hsub : cq'.Sublist cq) : Pending cq' requests where
  request c hc := h.request c (hsub.subset hc)
  bid_lt c hc := h.bid_lt c (hsub.subset hc)
  last := h.last.sublist hsub

/-- A buffer is no part of a ticket. -/
theorem lastTickets_withoutBuf (results : List (XioResult U)) :
    lastTickets (results.map withoutBuf) = lastTickets results := by
  rw [lastTickets, List.filter_map, List.map_map]
  rfl

namespace Machine.Inv

variable {s s' : Machine U} {consumed : List (IoUringCqe × Option (XioRequest U))}
  {live : List ℕ}

/-- The balance of a step. -/
theorem balance [DecidableEq U] (h : s.Inv consumed) (hopen : Open s.requests live)
    {op : UringOp U} (hadm : Admissible s op) {ret : UringRet U}
    (hstep : uringStep s op = some (ret, s')) :
    ∃ live', Open s'.requests live' ∧
      openTickets s.requests live + op.accepted ret
        = openTickets s'.requests live' + ret.ended := by
  cases op with
  | request env udata opdata offset =>
    obtain ⟨rc, sqe, x, hreq, -, -, -, hcase⟩ := h.request hadm udata opdata offset
    rw [uringStep, hreq] at hstep
    obtain ⟨rfl, rfl⟩ := Prod.mk.inj (Option.some.inj hstep)
    rcases hcase with ⟨-, hneg, hsame⟩ | ⟨e, a, -, rfl, -, -, hnone, hupd⟩
    · rw [hsame]
      refine ⟨live, hopen, ?_⟩
      rw [UringOp.accepted, if_neg hneg.ne]
      rfl
    · rw [hupd]
      obtain ⟨hopen', htickets⟩ := hopen.accept hnone ⟨udata, opdata⟩
      refine ⟨_, hopen', ?_⟩
      rw [htickets, UringOp.accepted, if_pos rfl]
      exact (add_zero _).symm
  | post cqe =>
    obtain ⟨rfl, rfl⟩ := Prod.mk.inj (Option.some.inj hstep)
    exact ⟨live, hopen, rfl⟩
  | wait maxResults rc =>
    obtain ⟨k, w, x, hwait, hk, hcq, -, hres, -⟩ := h.wait maxResults rc
    rw [uringStep, hwait] at hstep
    obtain ⟨rfl, rfl⟩ := Prod.mk.inj (Option.some.inj hstep)
    have hrequests : (s.afterWait (resultsOf w) x).requests
        = (s.xio.cq.take k).foldl finish s.requests := by
      rw [Machine.afterWait, hcq, List.length_drop, Nat.sub_sub_self hk]
    obtain ⟨live', hopen', hbal⟩ := hopen.consume (h.pending.sublist (List.take_sublist k _))
    rw [hrequests]
    refine ⟨live', hopen', ?_⟩
    rw [hbal, ← hres, lastTickets_withoutBuf]
    exact add_zero _
  | free result =>
    obtain ⟨b, -, rfl, rfl⟩ := uringStep_free_eq_some hstep
    exact ⟨live, hopen, rfl⟩
  | freeAll results =>
    obtain ⟨b, -, rfl, rfl⟩ := uringStep_freeAll_eq_some hstep
    exact ⟨live, hopen, rfl⟩

end Machine.Inv

/-- In every run from `fh_xio_create` that does not abort, with a kernel that posts
completions only of requests whose last one it has not posted, the requests accepted
are those whose last result was returned, once, and those that are open. -/
theorem uring_requests_conserved [DecidableEq U] {calloc queueInit setupBufRing : Bool}
    {memalign : Option ℕ} {x₀ : Xio U} {ops : List (UringOp U)} {outs : List (UringRet U)}
    {s : Machine U} (hcreate : fhXioCreate calloc queueInit setupBufRing memalign = some (some x₀))
    (hadm : EachStep uringStep Admissible (Machine.start x₀) ops)
    (hruns : runs uringStep (Machine.start x₀) ops = some (outs, s)) :
    ∃ live, Open s.requests live ∧
      runSum uringStep (fun _ op ret => op.accepted ret) (Machine.start x₀) ops
        = openTickets s.requests live
          + runSum uringStep (fun _ _ ret => ret.ended) (Machine.start x₀) ops := by
  obtain ⟨m, ⟨⟨consumed, -⟩, live, hopen, rfl⟩, hbal⟩ := runSum_balance
    (fun (s : Machine U) m => (∃ consumed, s.Inv consumed) ∧
      ∃ live, Open s.requests live ∧ openTickets s.requests live = m)
    (fun _ op ret => op.accepted ret) (fun _ _ ret => ret.ended)
    (fun s m op ret s' hs hop hstep => by
      obtain ⟨⟨consumed, hinv⟩, live, hopen, rfl⟩ := hs
      obtain ⟨newly, hinv', -⟩ := hinv.step hop hstep
      obtain ⟨live', hopen', hbal⟩ := hinv.balance hopen hop hstep
      exact ⟨_, ⟨⟨_, hinv'⟩, live', hopen', rfl⟩, hbal⟩)
    (m := 0) ⟨⟨[], Machine.inv_start hcreate⟩, [], Open.empty, rfl⟩ hadm hruns
  exact ⟨live, hopen, (zero_add _).symm.trans hbal⟩

/-- A request that is answered. -/
theorem uring_requests_conserved_recv : ∃ x₀ : Xio ℕ, ∃ outs s,
    fhXioCreate true true true (some 0) = some (some x₀) ∧
    runs uringStep (Machine.start x₀) recvOps = some (outs, s) ∧
    ∃ live, Open s.requests live ∧
      runSum uringStep (fun _ op ret => op.accepted ret) (Machine.start x₀) recvOps
        = openTickets s.requests live
          + runSum uringStep (fun _ _ ret => ret.ended) (Machine.start x₀) recvOps := by
  obtain ⟨r, hcreate⟩ := fhXioCreate_succeeds (U := ℕ) 0
  obtain ⟨outs, s, hruns, hadm, -⟩ := recvOps_runs r
  exact ⟨_, outs, s, hcreate, hruns, uring_requests_conserved hcreate hadm hruns⟩

end Freehttpd.Uring
