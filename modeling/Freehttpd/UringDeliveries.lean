/-
The results of the io_uring backend, each with the completion it was made from.

`loopDeliveries` follows the loop of `fh_xio_wait` and keeps, beside every result, its
completion and the buffers before and behind it.

* `loopDeliveries_eq` — the flags of a result are those of its completion, and one more
  reference is counted for it exactly if it has a buffer;
* `Machine.MoreKept` — a request whose last posted completion has `IORING_CQE_F_MORE`
  stays open, and the next completion of its record is its own;
* `Machine.Inv.runDeliveries` — the deliveries of a run.
-/
import Freehttpd.UringRuns

namespace Freehttpd.Uring

open Runs

variable {U : Type}

/-! ### Deliveries -/

/-- A result, with its completion and the buffers before and behind it. -/
structure Delivery (U : Type) where
  cqe : IoUringCqe
  before : BufPool
  result : XioResult U
  after : BufPool

/-- The deliveries of the loop of `fh_xio_wait`. -/
def loopDeliveries (maxResults : ℕ) : List IoUringCqe → WaitState U → List (Delivery U)
  | [], _ => []
  | cqe :: cqes, w =>
    if w.results.length ≥ maxResults then []
    else match cqe.userData with
      | .null | .xio => loopDeliveries maxResults cqes
          { w with countAdvance := w.countAdvance + 1 }
      | .data data =>
        match waitEntry w.xio data cqe with
        | none => []
        | some (result, x) =>
          ⟨cqe, w.xio.bufs, result, x.bufs⟩ :: loopDeliveries maxResults cqes
            { xio := x
              results := w.results ++ [result]
              countAdvance := w.countAdvance + 1 }

/-- The deliveries of a step. -/
def deliveries (s : Machine U) : UringOp U → List (Delivery U)
  | .wait maxResults _ => loopDeliveries (min maxResults (xioRingEntries * 4)) s.xio.cq
      { xio := s.xio, results := [], countAdvance := 0 }
  | _ => []

/-- One more reference to buffer `bid` is counted, in the bits below
`XIO_RING_BUF_FLAG_DONE`. -/
def Counted (b b' : BufPool) (bid : ℕ) : Prop :=
  ∃ n n', b.bufRefcount.read bid = some n ∧ b'.bufRefcount.read bid = some n' ∧
    n' % xioRingBufFlagDone = (n + 1) % xioRingBufFlagDone

/-- A completion and what its result says, if it has one. -/
def served (p : IoUringCqe × Option (XioRequest U)) : Option (IoUringCqe × XioResult U) :=
  (answer p).map (Prod.mk p.1)

/-- The same of a delivery. -/
def Delivery.served (d : Delivery U) : IoUringCqe × XioResult U := (d.cqe, withoutBuf d.result)

/-- The result repeats its completion, and a reference is counted for it exactly if the
completion has a buffer. -/
structure Delivery.Exact (d : Delivery U) : Prop where
  flags : d.result.flags = d.cqe.flags
  res : d.result.res = d.cqe.res
  counted : hasFlag d.cqe.flags ioringCqeFBuffer = true ↔ ∃ bid, Counted d.before d.after bid

theorem nextCnt_mod (n : ℕ) (more : Bool) :
    nextCnt n more % xioRingBufFlagDone = (n + 1) % xioRingBufFlagDone := by
  have hu : u32 (n + 1) % 2 ^ 31 = (n + 1) % 2 ^ 31 :=
    Nat.mod_mod_of_dvd _ (Nat.pow_dvd_pow 2 (by omega))
  rw [nextCnt, xioRingBufFlagDone]
  cases more with
  | true => exact hu
  | false =>
    show (u32 (n + 1) ||| 2 ^ 31) % 2 ^ 31 = _
    rw [Nat.or_mod_two_pow, Nat.mod_self, Nat.or_zero, hu]

/-- One more reference is counted exactly behind a completion with a buffer. -/
theorem counted_iff {b b' : BufPool} {off off' cnt : ℕ → ℕ} {c : IoUringCqe} (h : b.Wf off cnt)
    (h' : b'.Wf off' (cntAfter cnt c))
    (hbid : hasFlag c.flags ioringCqeFBuffer = true → flagsBid c.flags < xioRingBufCount) :
    hasFlag c.flags ioringCqeFBuffer = true ↔ ∃ bid, Counted b b' bid := by
  constructor
  · intro hbuf
    refine ⟨flagsBid c.flags, _, _, h.cnt_eq _ (hbid hbuf), h'.cnt_eq _ (hbid hbuf), ?_⟩
    rw [cntAfter, if_pos hbuf, Function.update_self]
    exact nextCnt_mod _ _
  · rintro ⟨bid, n, n', hn, hn', hmod⟩
    by_contra hbuf
    have hlt : bid < xioRingBufCount := h.size_cnt ▸ Block.lt_of_read hn
    rw [h.cnt_eq bid hlt] at hn
    rw [h'.cnt_eq bid hlt, cntAfter, if_neg hbuf] at hn'
    obtain rfl := Option.some.inj hn
    obtain rfl := Option.some.inj hn'
    rw [xioRingBufFlagDone] at hmod
    omega

theorem fhXioWaitLoop_results {maxResults : ℕ} {cqes : List IoUringCqe} {w w' : WaitState U}
    (h : fhXioWaitLoop maxResults cqes w = some w') :
    w'.results = w.results ++ (loopDeliveries maxResults cqes w).map Delivery.result := by
  induction cqes generalizing w with
  | nil =>
    obtain rfl := Option.some.inj h
    exact (List.append_nil _).symm
  | cons c cqes ih =>
    rw [fhXioWaitLoop] at h
    rw [loopDeliveries]
    by_cases hfull : w.results.length ≥ maxResults
    · rw [if_pos hfull] at h ⊢
      obtain rfl := Option.some.inj h
      exact (List.append_nil _).symm
    · rw [if_neg hfull] at h ⊢
      cases hc : c.userData with
      | null =>
        rw [hc] at h
        exact ih h
      | xio =>
        rw [hc] at h
        exact ih h
      | data a =>
        rw [hc] at h
        dsimp only at h ⊢
        rw [Option.bind_eq_bind, Option.bind_eq_some_iff] at h
        obtain ⟨⟨result, x⟩, hentry, h⟩ := h
        rw [hentry, ih h, List.append_assoc]
        rfl

/-- What the completions behind the first one are about, when that is consumed. -/
theorem withRequests_finish {c : IoUringCqe} {cq : List IoUringCqe}
    {requests : ℕ → Option (XioRequest U)} (h : Pending (c :: cq) requests) (k : ℕ) :
    withRequests (finish requests c) (cq.take k) = withRequests requests (cq.take k) :=
  withRequests_congr fun _ hc' => requestOf_finish h (List.mem_of_mem_take hc')

/-- The deliveries of the loop are what it says to the completions it consumes, and they
are exact. -/
theorem loopDeliveries_eq {maxResults : ℕ} {cqes : List IoUringCqe} {v : View U}
    {w w' : WaitState U} (h : Shows w.xio.bufs w.xio.records v) (hp : Pending v.cq v.requests)
    (hcq : v.cq = cqes) (hloop : fhXioWaitLoop maxResults cqes w = some w') :
    ∃ k ≤ cqes.length, w'.countAdvance = w.countAdvance + k ∧
      (loopDeliveries maxResults cqes w).map Delivery.served
        = (withRequests v.requests (cqes.take k)).filterMap served ∧
      ∀ d ∈ loopDeliveries maxResults cqes w, d.Exact := by
  induction cqes generalizing v w with
  | nil =>
    obtain rfl := Option.some.inj hloop
    exact ⟨0, le_refl _, rfl, rfl, fun d hd => by cases hd⟩
  | cons c cqes ih =>
    rw [fhXioWaitLoop] at hloop
    rw [loopDeliveries]
    by_cases hfull : w.results.length ≥ maxResults
    · rw [if_pos hfull] at hloop ⊢
      obtain rfl := Option.some.inj hloop
      exact ⟨0, Nat.zero_le _, rfl, rfl, fun d hd => by cases hd⟩
    · rw [if_neg hfull] at hloop ⊢
      have htail : (v.consume w.xio.bufs.buf).cq = cqes := by
        rw [View.consume_cq, hcq, List.tail_cons]
      have hp' := hp.consume w.xio.bufs.buf
      have hpc : Pending (c :: cqes) v.requests := hcq ▸ hp
      -- An internal completion is passed over, and the rest is a shorter loop.
      have hinternal : c.userData = .null ∨ c.userData = .xio →
          fhXioWaitLoop maxResults cqes { w with countAdvance := w.countAdvance + 1 }
            = some w' →
          ∃ k ≤ (c :: cqes).length, w'.countAdvance = w.countAdvance + k ∧
            (loopDeliveries maxResults cqes { w with countAdvance := w.countAdvance + 1 }).map
                Delivery.served
              = (withRequests v.requests ((c :: cqes).take k)).filterMap served ∧
            ∀ d ∈ loopDeliveries maxResults cqes { w with countAdvance := w.countAdvance + 1 },
              d.Exact := by
        intro hnull hloop
        have hv := View.consume_of_internal w.xio.bufs.buf hcq hnull
        obtain ⟨k, hk, hadv, hserved, hexact⟩ := ih (v := v.consume w.xio.bufs.buf)
          (w := { w with countAdvance := w.countAdvance + 1 })
          (by rw [hv]; exact ⟨h.bufs, h.records⟩) hp' htail hloop
        refine ⟨k + 1, Nat.succ_le_succ hk, by rw [hadv]; dsimp only; omega, ?_, hexact⟩
        have hnone : served (c, requestOf v.requests c) = none := by
          rw [served, answer_of_requestOf_none (requestOf_of_internal v.requests hnull),
            Option.map_none]
        rw [hserved, hv, List.take_succ_cons]
        exact (List.filterMap_cons_none hnone).symm
      cases hc : c.userData with
      | null =>
        rw [hc] at hloop
        exact hinternal (.inl hc) hloop
      | xio =>
        rw [hc] at hloop
        exact hinternal (.inr hc) hloop
      | data a =>
        rw [hc] at hloop
        dsimp only at hloop ⊢
        obtain ⟨r, hr⟩ := hp.request c (hcq ▸ List.mem_cons_self) a hc
        have hr' : requestOf v.requests c = some r := by rw [requestOf, hc]; exact hr
        have hbid := hp.bid_lt c (hcq ▸ List.mem_cons_self) a hc
        obtain ⟨b, p, hentry, -, -, hbufs, hrecs⟩ := waitEntry_eq h hc hr hbid
        rw [hentry, Option.bind_eq_bind, Option.bind_some] at hloop
        rw [hentry]
        dsimp only
        have hv : v.consume w.xio.bufs.buf = _ := View.consume_of_some hcq hr'
        obtain ⟨k, hk, hadv, hserved, hexact⟩ := ih (v := v.consume w.xio.bufs.buf)
          (by rw [hv]; exact ⟨hbufs, hrecs⟩) hp' htail hloop
        refine ⟨k + 1, Nat.succ_le_succ hk, by rw [hadv]; dsimp only; omega, ?_, ?_⟩
        · have hsome : served (c, requestOf v.requests c)
              = some (c, withoutBuf (resultOf w.xio.bufs.buf v.off c r)) := by
            rw [served, answer_of_requestOf hr' w.xio.bufs.buf v.off]
            rfl
          rw [List.map_cons, hserved, View.consume_requests hcq, withRequests_finish hpc,
            List.take_succ_cons]
          exact (List.filterMap_cons_some hsome).symm
        · intro d hd
          rcases List.mem_cons.mp hd with rfl | hd
          · exact ⟨rfl, rfl, counted_iff h.bufs hbufs hbid⟩
          · exact hexact d hd

/-- Completions without answers have no results. -/
theorem filterMap_served_eq_nil {l : List (IoUringCqe × Option (XioRequest U))}
    (h : l.filterMap answer = []) : l.filterMap served = [] := by
  rw [List.filterMap_eq_nil_iff] at h ⊢
  intro p hp
  rw [served, h p hp, Option.map_none]

/-- The deliveries of a wait. -/
theorem Machine.Inv.waitDeliveries {s : Machine U}
    {consumed : List (IoUringCqe × Option (XioRequest U))} (h : s.Inv consumed) {maxResults : ℕ}
    {rc : ℤ} {ret : Except ℤ (List (XioResult U))} {x : Xio U}
    (hwait : fhXioWait s.xio maxResults rc = some (ret, x)) :
    ∃ newly, (s.afterWait (resultsOf ret) x).Inv (consumed ++ newly) ∧
      (deliveries s (.wait maxResults rc)).map Delivery.served = newly.filterMap served ∧
      ∀ d ∈ deliveries s (.wait maxResults rc), d.Exact := by
  obtain ⟨k, ret', x', hwait', hk, hcq, hinv, -⟩ := h.wait maxResults rc
  obtain ⟨rfl, rfl⟩ := Prod.mk.inj (Option.some.inj (hwait.symm.trans hwait'))
  refine ⟨_, hinv, ?_⟩
  obtain ⟨off, cnt, hbufs⟩ := h.bufs
  have hshows : Shows s.xio.bufs s.xio.records (s.view off cnt) := ⟨hbufs, h.records⟩
  have hview : (s.view off cnt).cq = s.xio.cq := rfl
  have hmax : (s.view off cnt).out.length ≤ min maxResults (xioRingEntries * 4) := Nat.zero_le _
  obtain ⟨_, w, hloop, -, -, hwcq, -⟩ := waitLoop_eq
    (w := { xio := s.xio, results := [], countAdvance := 0 }) hshows h.pending hview rfl hmax
  obtain ⟨k', hk', hadv, hserved, hexact⟩ := loopDeliveries_eq hshows h.pending hview hloop
  -- Both counts say how many completions are left.
  have hkk : k' = k := by
    rw [fhXioWait] at hwait
    dsimp only at hwait
    by_cases herror : rc < 0 ∧ rc ≠ -eTime ∧ s.xio.cq = []
    · rw [herror.2.2] at hk hk'
      exact (Nat.le_zero.mp hk').trans (Nat.le_zero.mp hk).symm
    · rw [if_neg herror, hloop, Option.bind_eq_bind, Option.bind_some] at hwait
      obtain ⟨-, rfl⟩ := Prod.mk.inj (Option.some.inj hwait)
      have hlen := congrArg List.length hcq
      dsimp only at hlen hadv hwcq
      rw [hwcq, hadv, List.length_drop, List.length_drop] at hlen
      omega
  rw [hkk] at hserved
  exact ⟨hserved, hexact⟩

/-! ### Requests that go on -/

/-- Every completion of record `a` in `l` says that another one follows. -/
def AllMore (a : ℕ) (l : List (IoUringCqe × Option (XioRequest U))) : Prop :=
  ∀ p ∈ l, p.1.userData = .data a → hasFlag p.1.flags ioringCqeFMore = true

/-- A request that was not completed for the last time is open, and what is posted next
for its record is about it. -/
structure Machine.MoreKept (s : Machine U) : Prop where
  stays : ∀ front p back a, s.posted = front ++ p :: back → p.1.userData = .data a →
    AllMore a (p :: back) → s.requests a = p.2
  same : ∀ front p mid p' back a, s.posted = front ++ p :: mid ++ p' :: back →
    p.1.userData = .data a → p'.1.userData = .data a → AllMore a (p :: mid) → p'.2 = p.2

theorem foldl_finish_of_more {requests : ℕ → Option (XioRequest U)} {cq : List IoUringCqe}
    {a : ℕ} (h : ∀ c ∈ cq, c.userData = .data a → hasFlag c.flags ioringCqeFMore = true) :
    cq.foldl finish requests a = requests a := by
  induction cq generalizing requests with
  | nil => rfl
  | cons c cq ih =>
    rw [List.foldl_cons, ih fun c' hc' => h c' (List.mem_cons_of_mem c hc'), finish]
    cases hc : c.userData with
    | null => rfl
    | xio => rfl
    | data b =>
      dsimp only
      split
      · rfl
      · refine Function.update_of_ne (fun hab => ?_) _ _
        exact absurd (h c List.mem_cons_self (hab ▸ hc)) ‹_›

namespace Machine.MoreKept

variable {s : Machine U} {consumed : List (IoUringCqe × Option (XioRequest U))}

theorem start (x : Xio U) : (Machine.start x).MoreKept where
  stays := by simp [Machine.start]
  same := by simp [Machine.start]

/-- Steps that post nothing and close no request that goes on. -/
theorem congr (h : s.MoreKept) {s' : Machine U} (hposted : s'.posted = s.posted)
    (hreq : ∀ front p back a, s.posted = front ++ p :: back → p.1.userData = .data a →
      AllMore a (p :: back) → s'.requests a = s.requests a) : s'.MoreKept where
  stays front p back a hsplit ha hall := by
    rw [hposted] at hsplit
    rw [hreq front p back a hsplit ha hall]
    exact h.stays front p back a hsplit ha hall
  same front p mid p' back a hsplit := h.same front p mid p' back a (hposted ▸ hsplit)

/-- A completion is posted. -/
theorem post (h : s.MoreKept) (cqe : IoUringCqe) : (s.afterPost cqe).MoreKept where
  stays front p back a hsplit ha hall := by
    change s.posted ++ [(cqe, requestOf s.requests cqe)] = front ++ p :: back at hsplit
    show s.requests a = p.2
    rcases List.eq_nil_or_concat back with rfl | ⟨back, q, rfl⟩
    · obtain ⟨-, hp⟩ := List.append_inj' hsplit rfl
      rw [← List.singleton_inj.mp hp] at ha ⊢
      show _ = requestOf s.requests cqe
      rw [requestOf, ha]
    · rw [List.concat_eq_append, ← List.cons_append] at hsplit hall
      rw [← List.append_assoc] at hsplit
      obtain ⟨hs, -⟩ := List.append_inj' hsplit rfl
      exact h.stays front p back a hs ha fun q hq => hall q (List.mem_append_left _ hq)
  same front p mid p' back a hsplit ha ha' hall := by
    change s.posted ++ [(cqe, requestOf s.requests cqe)] = _ at hsplit
    rcases List.eq_nil_or_concat back with rfl | ⟨back, q, rfl⟩
    · obtain ⟨hs, hp⟩ := List.append_inj' hsplit rfl
      rw [← List.singleton_inj.mp hp] at ha' ⊢
      -- The request of the new completion is the one that is open.
      rw [← h.stays front p mid a hs ha hall]
      show requestOf s.requests cqe = _
      rw [requestOf, ha']
    · rw [List.concat_eq_append, ← List.cons_append, ← List.append_assoc] at hsplit
      obtain ⟨hs, -⟩ := List.append_inj' hsplit rfl
      exact h.same front p mid p' back a hs ha ha' hall

/-- What is pending of a request that goes on says so. -/
theorem pending (hinv : s.Inv consumed) {front back : List (IoUringCqe × Option (XioRequest U))}
    {p : IoUringCqe × Option (XioRequest U)} {a : ℕ} (hsplit : s.posted = front ++ p :: back)
    (ha : p.1.userData = .data a) (hall : AllMore a (p :: back)) :
    ∀ c ∈ s.xio.cq, c.userData = .data a → hasFlag c.flags ioringCqeFMore = true := by
  intro c hc hca
  have hmem : (c, requestOf s.requests c) ∈ withRequests s.requests s.xio.cq :=
    List.mem_map_of_mem hc
  rw [hinv.posted] at hsplit
  rcases List.append_eq_append_iff.mp hsplit with ⟨l, rfl, hl⟩ | ⟨l, rfl, hl⟩
  · -- Some of what is pending is in front of `p`.
    obtain ⟨cq₁, cq₂, hcq, rfl, h₂⟩ := List.map_eq_append_iff.mp hl
    obtain ⟨c₀, cq₃, rfl, rfl, -⟩ := List.map_eq_cons_iff.mp h₂
    rw [hcq] at hc
    rcases List.mem_append.mp hc with hc | hc
    · have hlast := hinv.pending.last
      rw [hcq, List.pairwise_append] at hlast
      exact hlast.2.2 c hc c₀ List.mem_cons_self a hca ha
    · refine hall (c, requestOf s.requests c) ?_ hca
      rw [← h₂]
      exact List.mem_map_of_mem hc
  · refine hall (c, requestOf s.requests c) ?_ hca
    rw [hl]
    exact List.mem_append_right _ hmem

variable [DecidableEq U]

/-- Every admissible step that returns. -/
theorem step (h : s.MoreKept) (hinv : s.Inv consumed) {op : UringOp U} (hadm : Admissible s op)
    {ret : UringRet U} {s' : Machine U} (hstep : uringStep s op = some (ret, s')) :
    s'.MoreKept := by
  cases op with
  | request env udata opdata offset =>
    obtain ⟨rc, sqe, x, hreq, -, -, -, hcases⟩ := hinv.request hadm udata opdata offset
    rw [uringStep, hreq] at hstep
    obtain ⟨-, rfl⟩ := Prod.mk.inj (Option.some.inj hstep)
    refine h.congr rfl fun front p back a hsplit ha hall => ?_
    rcases hcases with ⟨-, -, hrequests⟩ | ⟨e, b, -, -, -, -, hnone, hrequests⟩
    · rw [hrequests]
    · rw [hrequests]
      -- The record of the new request was not in use.
      refine Function.update_of_ne (fun hab => ?_) _ _
      have hp := h.stays front p back a hsplit ha hall
      rw [hab, hnone] at hp
      have hmem : p ∈ s.posted := by
        rw [hsplit]
        exact List.mem_append_right _ List.mem_cons_self
      rcases (hinv.internal p hmem).mp hp.symm with hu | hu
      · rw [ha] at hu; cases hu
      · rw [ha] at hu; cases hu
  | post cqe =>
    obtain ⟨-, rfl⟩ := Prod.mk.inj (Option.some.inj hstep)
    exact h.post cqe
  | wait maxResults rc =>
    obtain ⟨w, x, -, -, rfl⟩ := uringStep_wait_eq_some hstep
    refine h.congr rfl fun front p back a hsplit ha hall => ?_
    exact foldl_finish_of_more fun c hc => pending hinv hsplit ha hall c (List.mem_of_mem_take hc)
  | free result =>
    obtain ⟨b, -, -, rfl⟩ := uringStep_free_eq_some hstep
    exact h.congr rfl fun _ _ _ _ _ _ _ => rfl
  | freeAll results =>
    obtain ⟨b, -, -, rfl⟩ := uringStep_freeAll_eq_some hstep
    exact h.congr rfl fun _ _ _ _ _ _ _ => rfl

end Machine.MoreKept

/-! ### Runs -/

variable [DecidableEq U]

/-- The results of a step are those of its deliveries. -/
theorem uringStep_results {s s' : Machine U} {op : UringOp U} {ret : UringRet U}
    (hstep : uringStep s op = some (ret, s')) :
    ret.results = (deliveries s op).map Delivery.result := by
  cases op with
  | request env udata opdata offset =>
    obtain ⟨_, -, hstep⟩ := Option.bind_eq_some_iff.mp hstep
    obtain ⟨rfl, -⟩ := Prod.mk.inj (Option.some.inj hstep)
    rfl
  | post cqe =>
    obtain ⟨rfl, -⟩ := Prod.mk.inj (Option.some.inj hstep)
    rfl
  | wait maxResults rc =>
    obtain ⟨w, x, hwait, rfl, -⟩ := uringStep_wait_eq_some hstep
    rw [fhXioWait] at hwait
    dsimp only at hwait
    by_cases herror : rc < 0 ∧ rc ≠ -eTime ∧ s.xio.cq = []
    · rw [if_pos herror] at hwait
      obtain ⟨rfl, -⟩ := Prod.mk.inj (Option.some.inj hwait)
      rw [deliveries, herror.2.2]
      rfl
    · rw [if_neg herror] at hwait
      obtain ⟨w', hloop, hwait⟩ := Option.bind_eq_some_iff.mp hwait
      obtain ⟨rfl, -⟩ := Prod.mk.inj (Option.some.inj hwait)
      exact fhXioWaitLoop_results hloop
  | free result =>
    obtain ⟨b, -, rfl, -⟩ := uringStep_free_eq_some hstep
    rfl
  | freeAll results =>
    obtain ⟨b, -, rfl, -⟩ := uringStep_freeAll_eq_some hstep
    rfl

/-- The deliveries of a step are its part of what is consumed. -/
theorem Machine.Inv.stepDeliveries {s s' : Machine U}
    {consumed : List (IoUringCqe × Option (XioRequest U))} (h : s.Inv consumed) {op : UringOp U}
    (hadm : Admissible s op) {ret : UringRet U} (hstep : uringStep s op = some (ret, s')) :
    ∃ newly, s'.Inv (consumed ++ newly) ∧
      (deliveries s op).map Delivery.served = newly.filterMap served ∧
      ∀ d ∈ deliveries s op, d.Exact := by
  -- A step without deliveries answers nothing.
  have hquiet : deliveries s op = [] → ∃ newly, s'.Inv (consumed ++ newly) ∧
      (deliveries s op).map Delivery.served = newly.filterMap served ∧
      ∀ d ∈ deliveries s op, d.Exact := by
    intro hnil
    obtain ⟨newly, hinv, hres⟩ := h.step hadm hstep
    rw [uringStep_results hstep, hnil] at hres
    refine ⟨newly, hinv, ?_, ?_⟩
    · rw [hnil, filterMap_served_eq_nil hres.symm]
      rfl
    · rw [hnil]
      intro d hd
      cases hd
  cases op with
  | wait maxResults rc =>
    obtain ⟨w, x, hwait, -, rfl⟩ := uringStep_wait_eq_some hstep
    exact h.waitDeliveries hwait
  | request env udata opdata offset => exact hquiet rfl
  | post cqe => exact hquiet rfl
  | free result => exact hquiet rfl
  | freeAll results => exact hquiet rfl

/-- The deliveries of a run: their results are those of the waits, they answer what was
consumed, and they are exact. -/
theorem Machine.Inv.runDeliveries {s t : Machine U}
    {consumed : List (IoUringCqe × Option (XioRequest U))} (h : s.Inv consumed)
    (hmore : s.MoreKept) {ops : List (UringOp U)} (hadm : EachStep uringStep Admissible s ops)
    {outs : List (UringRet U)} (hruns : runs uringStep s ops = some (outs, t)) :
    outs.flatMap UringRet.results = (runLog uringStep deliveries s ops).map Delivery.result ∧
      t.MoreKept ∧ (∀ d ∈ runLog uringStep deliveries s ops, d.Exact) ∧
      ∃ newly, t.Inv (consumed ++ newly) ∧
        (runLog uringStep deliveries s ops).map Delivery.served = newly.filterMap served := by
  induction ops generalizing s consumed outs with
  | nil =>
    obtain ⟨rfl, rfl⟩ := Prod.mk.inj (Option.some.inj hruns)
    exact ⟨rfl, hmore, fun d hd => (by cases hd), [], by rwa [List.append_nil], rfl⟩
  | cons op ops ih =>
    obtain ⟨ret, s', outs', hstep, hruns', rfl⟩ := runs_cons_eq_some hruns
    rw [eachStep_cons_of_step hstep] at hadm
    obtain ⟨newly, hs', hserved, hexact⟩ := h.stepDeliveries hadm.1 hstep
    obtain ⟨hres, ht, hexact', newly', hinv, hserved'⟩ :=
      ih hs' (hmore.step h hadm.1 hstep) hadm.2 hruns'
    rw [runLog_cons_of_step hstep]
    refine ⟨?_, ht, ?_, newly ++ newly', by rwa [← List.append_assoc], ?_⟩
    · rw [List.flatMap_cons, hres, uringStep_results hstep, List.map_append]
    · intro d hd
      rcases List.mem_append.mp hd with hd | hd
      · exact hexact d hd
      · exact hexact' d hd
    · rw [List.map_append, hserved, hserved', List.filterMap_append]

end Freehttpd.Uring
