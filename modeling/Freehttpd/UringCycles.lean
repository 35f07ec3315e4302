/-
The use cycles of the provided buffers.

A buffer is on the ring from its last addition on, the kernel posts completions with
it, and once the last of them was harvested and no result refers to it any more it
goes back.

* `Returned` — what a step puts on the ring;
* `Machine.Accounts.step` — every allowed step returns, and puts exactly these buffers
  on the ring;
* `uring_buffer_cycles` — over a whole run: as often as its last completion was
  returned by a wait a buffer went back, but for a cycle in which a result is held.
-/
import Freehttpd.UringAccounts

namespace Freehttpd.Uring

open Runs

variable {U : Type}

/-! ### Last completions -/

/-- The result of the last completion of buffer `bid` in a cycle. -/
def isLast (bid : ℕ) (r : XioResult U) : Bool :=
  refersTo bid r && !hasFlag r.flags ioringCqeFBufMore

/-- Where `p` is false on everything but the last element it holds at most once. -/
theorem countP_eq_any {α : Type*} {p : α → Bool} {l : List α}
    (h : ∀ a ∈ l.dropLast, p a = false) : l.countP p = (l.any p).toNat := by
  rcases l.eq_nil_or_concat with rfl | ⟨l, a, rfl⟩
  · rfl
  · rw [List.concat_eq_append, List.dropLast_concat] at h
    have hnone : l.countP p = 0 := List.countP_eq_zero.mpr fun b hb => by simp [h b hb]
    have hany : l.any p = false := List.any_eq_false.mpr fun b hb => by simp [h b hb]
    rw [List.concat_eq_append, List.countP_append, hnone, List.any_append, hany, Bool.false_or,
      List.countP_singleton, Nat.zero_add, List.any_cons, List.any_nil, Bool.or_false]
    cases p a <;> rfl

/-- A cycle has one last completion at most. -/
theorem Accounts.countP_last {base : ℕ} {cq : List IoUringCqe}
    {requests : ℕ → Option (XioRequest U)} {off cnt : ℕ → ℕ} {writes done : ℕ → List Write}
    {harvested : ℕ → List (XioResult U)} {held : List (XioResult U)}
    (h : Accounts base cq requests off cnt writes done harvested held) (bid : ℕ) :
    (harvested bid).countP (fun r => !hasFlag r.flags ioringCqeFBufMore)
      = (finOf harvested bid).toNat := by
  have hdone : ∀ w ∈ (done bid).dropLast, w.more = true := by
    intro w hw
    refine h.last bid w ?_
    rw [h.writes_eq]
    rcases eq_or_ne (pendingWrites requests bid cq) [] with hnil | hne
    · rw [hnil, List.append_nil]
      exact hw
    · rw [List.dropLast_append_of_ne_nil hne]
      exact List.mem_append_left _ (List.dropLast_subset _ hw)
  rw [finOf]
  refine countP_eq_any fun r hr => ?_
  -- The flags of the results are those of the completions.
  have hmem : hasFlag r.flags ioringCqeFBufMore ∈ ((done bid).map Write.more).dropLast := by
    rw [← h.more_eq, ← List.map_dropLast]
    exact List.mem_map_of_mem hr
  rw [← List.map_dropLast, List.mem_map] at hmem
  obtain ⟨w, hw, he⟩ := hmem
  rw [← he, hdone w hw]
  rfl

theorem countP_filter_refersTo (rs : List (XioResult U)) (bid : ℕ) :
    (rs.filter (refersTo bid)).countP (fun r => !hasFlag r.flags ioringCqeFBufMore)
      = rs.countP (isLast bid) := by
  rw [List.countP_filter]
  exact List.countP_congr fun r _ => by rw [isLast, Bool.and_comm]

/-! ### Steps -/

/-- The step from `s` to `s'` puts exactly `bids` on the ring: the buffers whose last
completion was harvested and that no held result refers to afterwards. -/
structure Returned (s s' : Machine U) (bids : List ℕ) : Prop where
  published : s.xio.bufs.bufRing.published s'.xio.bufs.bufRing s.xio.bufs.bufMask
    = bids.map (fun bid => some (bufEntry s.xio.bufs.buf bid))
  nodup : bids.Nodup
  mem_iff : ∀ bid, bid ∈ bids ↔ finOf s.harvested bid = true ∧ refs s'.held bid = 0
  cleared : ∀ bid ∈ bids, s'.xio.bufs.bufOffsets.read bid = some 0 ∧
    s'.xio.bufs.bufRefcount.read bid = some 0

theorem Returned.putBack_eq {s s' : Machine U} {bids : List ℕ} (h : Returned s s' bids) :
    putBack s.xio.bufs s'.xio.bufs = bids := by
  rw [putBack, h.published, List.filterMap_map]
  exact List.filterMap_some

/-- A step that leaves the ring alone and gives nothing back. -/
theorem Machine.Accounts.returned_nil {s s' : Machine U} (h : s.Accounts)
    (hring : s'.xio.bufs.bufRing = s.xio.bufs.bufRing)
    (hheld : ∀ bid, refs s.held bid ≤ refs s'.held bid) : Returned s s' [] := by
  obtain ⟨off, cnt, done, -, hacc⟩ := h
  exact
    { published := TailRing.published_self (congrArg TailRing.tail hring) _
      nodup := List.nodup_nil
      mem_iff := fun bid => by
        refine iff_of_false List.not_mem_nil fun hf => ?_
        have hpos := hacc.ledger.refs_pos bid hf.1
        have hle := hheld bid
        omega
      cleared := fun bid hb => absurd hb List.not_mem_nil }

variable [DecidableEq U]

/-- What is asked of a step. -/
def Allowed (s : Machine U) (op : UringOp U) : Prop := Admissible s op ∧ Contract s op

/-- Held results are given back. -/
theorem Machine.Accounts.freeAll {s : Machine U} (h : s.Accounts) {rs : List (XioResult U)}
    (hsub : rs.Subperm s.held) :
    ∃ (b : BufPool) (bids : List ℕ), fhXioResultsFree false s.xio.bufs rs = some b ∧
      (s.afterFree rs b).Accounts ∧ Returned s (s.afterFree rs b) bids ∧
      ∀ bid, (finOf s.harvested bid).toNat + 0
        = bids.count bid + (finOf (s.afterFree rs b).harvested bid).toNat := by
  obtain ⟨b, bids, hfree, hacc, hnd, hpub, hiff, hcleared⟩ := h.free hsub
  have hret : Returned s (s.afterFree rs b) bids := ⟨hpub, hnd, hiff, hcleared⟩
  refine ⟨b, bids, hfree, hacc, hret, fun bid => ?_⟩
  have hharvested : (s.afterFree rs b).harvested bid
      = if bid ∈ bids then [] else s.harvested bid := by
    rw [← hret.putBack_eq]
    rfl
  by_cases hb : bid ∈ bids
  · rw [if_pos hb] at hharvested
    rw [((hiff bid).mp hb).1, List.count_eq_one_of_mem hnd hb, finOf, hharvested]
    rfl
  · rw [if_neg hb] at hharvested
    rw [List.count_eq_zero_of_not_mem hb, Nat.add_comm, finOf, finOf, hharvested]

/-- Every step that is allowed returns, and puts on the ring what it should. -/
theorem Machine.Accounts.step {s : Machine U}
    {consumed : List (IoUringCqe × Option (XioRequest U))} (h : s.Accounts)
    (hinv : s.Inv consumed) {op : UringOp U} (hop : Allowed s op) :
    ∃ (ret : UringRet U) (s' : Machine U) (bids : List ℕ), uringStep s op = some (ret, s') ∧
      s'.Accounts ∧ Returned s s' bids ∧
      ∀ bid, (finOf s.harvested bid).toNat + ret.results.countP (isLast bid)
        = bids.count bid + (finOf s'.harvested bid).toNat := by
  obtain ⟨hadm, hcon⟩ := hop
  cases op with
  | request env udata opdata offset =>
    obtain ⟨rc, sqe, x, hreq, hcq, hbufs, -, hrequests⟩ := hinv.request hadm udata opdata offset
    have hacc : (s.afterRequest udata sqe x).Accounts := by
      refine h.request hinv hcq hbufs ?_
      rcases hrequests with ⟨-, -, heq⟩ | ⟨e, a, -, -, -, -, hnone, heq⟩
      · exact .inl heq
      · exact .inr ⟨a, _, hnone, heq⟩
    refine ⟨.requested rc, s.afterRequest udata sqe x, [], ?_, hacc,
      h.returned_nil (congrArg BufPool.bufRing hbufs) fun bid => le_refl _, fun bid => ?_⟩
    · rw [uringStep, hreq]
      rfl
    · exact (Nat.add_comm _ _)
  | post cqe =>
    refine ⟨.posted, s.afterPost cqe, [], rfl, h.post hadm hcon,
      h.returned_nil rfl fun bid => le_refl _, fun bid => ?_⟩
    exact (Nat.add_comm _ _)
  | wait maxResults rc =>
    obtain ⟨k, w, x, hwait, -⟩ := hinv.wait maxResults rc
    obtain ⟨hacc, hring⟩ := h.wait hinv hwait (hcon w x hwait)
    refine ⟨.waited w, s.afterWait (resultsOf w) x, [], ?_, hacc,
      h.returned_nil hring fun bid => ?_, fun bid => ?_⟩
    · rw [uringStep, hwait]
      rfl
    · show _ ≤ refs (s.held ++ resultsOf w) bid
      rw [refs_append]
      exact Nat.le_add_right _ _
    · -- Both sides count the last completions of the cycle.
      obtain ⟨_, _, _, -, h₀⟩ := h
      obtain ⟨_, _, _, -, h₁⟩ := hacc
      rw [← h₀.countP_last, ← h₁.countP_last, List.count_nil, Nat.zero_add]
      show _ = (s.harvested bid ++ (resultsOf w).filter (refersTo bid)).countP _
      rw [List.countP_append, countP_filter_refersTo]
      rfl
  | free result =>
    obtain ⟨b, bids, hfree, hacc, hret, hcount⟩ := h.freeAll (List.singleton_subperm_iff.mpr hcon)
    obtain ⟨off, cnt, hbufs⟩ := hinv.bufs
    refine ⟨.freed, s.afterFree [result] b, bids, ?_, hacc, hret, hcount⟩
    rw [uringStep, fhXioResultFree_eq _ hbufs.ring.tail_lt, hfree]
    rfl
  | freeAll results =>
    obtain ⟨b, bids, hfree, hacc, hret, hcount⟩ := h.freeAll hcon
    refine ⟨.freed, s.afterFree results b, bids, ?_, hacc, hret, hcount⟩
    rw [uringStep, hfree]
    rfl

/-! ### Runs -/

/-- The buffers put on the ring during a run, one after the other. -/
def putBacks : Machine U → List (UringOp U) → List ℕ
  | _, [] => []
  | s, op :: ops =>
    match uringStep s op with
    | none => []
    | some (_, s') => putBack s.xio.bufs s'.xio.bufs ++ putBacks s' ops

theorem putBacks_cons_of_step {s s' : Machine U} {op : UringOp U} {ret : UringRet U}
    (h : uringStep s op = some (ret, s')) (ops : List (UringOp U)) :
    putBacks s (op :: ops) = putBack s.xio.bufs s'.xio.bufs ++ putBacks s' ops := by
  rw [putBacks, h]

/-- Over a run every last completion that is returned is followed by one addition to
the ring, unless the cycle is still open. -/
theorem Machine.Accounts.run {s : Machine U}
    {consumed : List (IoUringCqe × Option (XioRequest U))} (h : s.Accounts)
    (hinv : s.Inv consumed) {ops : List (UringOp U)} (hops : EachStep uringStep Allowed s ops) :
    ∃ (outs : List (UringRet U)) (t : Machine U), runs uringStep s ops = some (outs, t) ∧
      t.Accounts ∧ (∃ consumed', t.Inv consumed') ∧
      ∀ bid, (finOf s.harvested bid).toNat + (outs.flatMap UringRet.results).countP (isLast bid)
        = (putBacks s ops).count bid + (finOf t.harvested bid).toNat := by
  induction ops generalizing s consumed with
  | nil => exact ⟨[], s, rfl, h, ⟨consumed, hinv⟩, fun bid => Nat.add_comm _ _⟩
  | cons op ops ih =>
    obtain ⟨ret, s', bids, hstep, h', hret, hcount⟩ := h.step hinv hops.1
    obtain ⟨newly, hinv', -⟩ := hinv.step hops.1.1 hstep
    obtain ⟨outs, t, hruns, ht, htinv, hrest⟩ :=
      ih h' hinv' ((eachStep_cons_of_step hstep ops).mp hops).2
    refine ⟨ret :: outs, t, ?_, ht, htinv, fun bid => ?_⟩
    · rw [runs_cons_of_step hstep, hruns]
      rfl
    · have hone := hcount bid
      have hall := hrest bid
      rw [putBacks_cons_of_step hstep, hret.putBack_eq, List.count_append, List.flatMap_cons,
        List.countP_append]
      omega

/-- In every run from `fh_xio_create` that keeps to the conditions no assert fires.  At
first every buffer is on the ring.  A buffer goes back exactly once for every last
completion of it that a wait returned, and until then a result of it is held; every
further step puts on the ring exactly the buffers whose last completion was harvested
and to which no result refers afterwards, with their offset and count at zero. -/
theorem uring_buffer_cycles {calloc queueInit setupBufRing : Bool} {memalign : Option ℕ}
    {x₀ : Xio U} {ops : List (UringOp U)}
    (hcreate : fhXioCreate calloc queueInit setupBufRing memalign = some (some x₀))
    (hops : EachStep uringStep Allowed (Machine.start x₀) ops) :
    TailRing.published ⟨Block.malloc xioRingBufCount, 0⟩ x₀.bufs.bufRing x₀.bufs.bufMask
        = (List.range xioRingBufCount).map (fun bid => some (bufEntry x₀.bufs.buf bid)) ∧
      ∃ outs s, runs uringStep (Machine.start x₀) ops = some (outs, s) ∧
        (∀ bid, (outs.flatMap UringRet.results).countP (isLast bid)
          = (putBacks (Machine.start x₀) ops).count bid + (finOf s.harvested bid).toNat) ∧
        (∀ bid, finOf s.harvested bid = true → 0 < refs s.held bid) ∧
        ∀ op, Allowed s op → ∃ ret s' bids, uringStep s op = some (ret, s') ∧
          Returned s s' bids := by
  obtain ⟨outs, s, hruns, hacc, ⟨consumed, hinv⟩, hcount⟩ :=
    (Machine.accounts_start hcreate).run (Machine.inv_start hcreate) hops
  refine ⟨?_, outs, s, hruns, fun bid => ?_, fun bid hfin => ?_, fun op hop => ?_⟩
  · obtain ⟨buf, r, -, hr, rfl⟩ := fhXioCreate_eq_some hcreate
    obtain ⟨r', hr', -, hpub⟩ := initBufRing_eq buf
    obtain rfl := Option.some.inj (hr.symm.trans hr')
    exact hpub
  · have hrun := hcount bid
    have hstart : (finOf (Machine.start x₀).harvested bid).toNat = 0 := rfl
    omega
  · obtain ⟨off, cnt, done, -, hs⟩ := hacc
    exact hs.ledger.refs_pos bid hfin
  · obtain ⟨ret, s', bids, hstep, -, hret, -⟩ := hacc.step hinv hop
    exact ⟨ret, s', bids, hstep, hret⟩

theorem held_of_free {s s' : Machine U} {r : XioResult U} {ret : UringRet U}
    (h : uringStep s (.free r) = some (ret, s')) : s'.held = s.held.erase r := by
  obtain ⟨b, -, -, rfl⟩ := uringStep_free_eq_some h
  show s.held.diff [r] = s.held.erase r
  rw [List.diff_cons, List.diff_nil]

/-- The result that the wait of `recvOps` returns. -/
def recvResult : XioResult ℕ := ⟨some .recv, 1, 10, some 0, some 7⟩

set_option maxRecDepth 20000 in
theorem recvOps_allowed (r : TailRing IoUringBuf) :
    ∃ outs s, runs uringStep (Machine.start (freshXio 0 r)) recvOps = some (outs, s) ∧
      EachStep uringStep Allowed (Machine.start (freshXio 0 r)) recvOps ∧
      s.held = [recvResult] ∧ s.harvested 0 = s.held.filter (refersTo 0) := by
  refine ⟨_, _, rfl, ?_, rfl, rfl⟩
  refine (eachStep_cons_of_step rfl _).mpr ⟨⟨fun a ha => rfl, trivial⟩, ?_⟩
  refine (eachStep_cons_of_step rfl _).mpr ⟨⟨fun a ha => (by cases ha), fun hb => (by cases hb)⟩, ?_⟩
  refine (eachStep_cons_of_step rfl _).mpr ⟨⟨?_, fun _ => ⟨⟨1, rfl⟩, fun w hw => (by cases hw)⟩⟩, ?_⟩
  · intro a ha
    obtain rfl : 1 = a := UserData.data.inj ha
    refine ⟨⟨_, rfl⟩, fun c hc hc' => ?_, fun _ => by decide⟩
    obtain rfl := List.mem_singleton.mp hc
    cases hc'
  · refine eachStep_singleton.mpr ⟨trivial, fun ret x hwait bid => ?_⟩
    obtain ⟨rfl, -⟩ := Prod.mk.inj (Option.some.inj hwait)
    have hlen : (1 : ℕ) < 2 ^ 31 := by decide
    exact lt_of_le_of_lt List.countP_le_length hlen

theorem uring_buffer_cycles_recv : ∃ x₀ : Xio ℕ, ∃ outs s ret s' bids,
    fhXioCreate true true true (some 0) = some (some x₀) ∧
    runs uringStep (Machine.start x₀) recvOps = some (outs, s) ∧
    uringStep s (.free recvResult) = some (ret, s') ∧ Returned s s' bids ∧ 0 ∈ bids := by
  obtain ⟨r, hcreate⟩ := fhXioCreate_succeeds (U := ℕ) 0
  obtain ⟨outs', s', hruns', hops, hheld, hharvested⟩ := recvOps_allowed r
  obtain ⟨-, outs, s, hruns, -, -, hnext⟩ := uring_buffer_cycles hcreate hops
  obtain ⟨rfl, rfl⟩ := Prod.mk.inj (Option.some.inj (hruns.symm.trans hruns'))
  have hmem : recvResult ∈ s.held := by rw [hheld]; exact List.mem_singleton.mpr rfl
  obtain ⟨ret, t, bids, hstep, hret⟩ := hnext (.free recvResult) ⟨trivial, hmem⟩
  refine ⟨_, outs, s, ret, t, bids, hcreate, hruns, hstep, hret, (hret.mem_iff 0).mpr ⟨?_, ?_⟩⟩
  · rw [finOf, hharvested, hheld]
    decide
  · rw [held_of_free hstep, hheld]
    decide

end Freehttpd.Uring
