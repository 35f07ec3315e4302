/-
`fh_xio_wait` of the io_uring backend.

A `View` is what the state of the backend stands for while completions are consumed:
the completions left, the open requests, the two arrays as functions of the buffer id
and the results so far.  `View.consume` consumes one completion; `fh_xio_wait`
consumes some number of them:

* `waitEntry_eq` — the body of the loop;
* `fhXioWait_eq` — the whole call: it consumes a prefix of the pending completions
  and stops at the end or when the results are full.
-/
import Freehttpd.UringMachine

namespace Freehttpd.Uring

variable {U : Type}

/-- The buffer of the caller; an accept has none. -/
def XioOpData.buf : XioOpData → Option ℕ
  | .read _ buf _ => buf
  | .write _ buf _ => buf
  | .recv _ buf _ _ => buf
  | .send _ buf _ _ => buf
  | .accept .. => none

/-- The size by which `fh_xio_data_populate` has the offset advance. -/
def populateSize (opdata : XioOpData) (cqe : IoUringCqe) : ℕ :=
  (fhXioDataPopulate opdata cqe none).1

theorem fhXioDataPopulate_eq (opdata : XioOpData) (cqe : IoUringCqe) (out : Option ℕ) :
    fhXioDataPopulate opdata cqe out = (populateSize opdata cqe, opdata.buf.or out) := by
  cases opdata <;> rfl

/-- The result of a completion of request `r`. -/
def resultOf (base : ℕ) (off : ℕ → ℕ) (cqe : IoUringCqe) (r : XioRequest U) : XioResult U :=
  { op := some r.opdata.op
    flags := cqe.flags
    res := cqe.res
    buf := r.opdata.buf.or (if hasFlag cqe.flags ioringCqeFBuffer then
      some (fhXioRingGetBuffer base (flagsBid cqe.flags) + off (flagsBid cqe.flags)) else none)
    udata := r.udata }

/-- The offsets behind a completion. -/
def offAfter (off : ℕ → ℕ) (cqe : IoUringCqe) (opdata : XioOpData) : ℕ → ℕ :=
  if hasFlag cqe.flags ioringCqeFBuffer then
    Function.update off (flagsBid cqe.flags)
      (nextOff (off (flagsBid cqe.flags)) (populateSize opdata cqe))
  else off

/-- The counts behind a completion. -/
def cntAfter (cnt : ℕ → ℕ) (cqe : IoUringCqe) : ℕ → ℕ :=
  if hasFlag cqe.flags ioringCqeFBuffer then
    Function.update cnt (flagsBid cqe.flags)
      (nextCnt (cnt (flagsBid cqe.flags)) (hasFlag cqe.flags ioringCqeFBufMore))
  else cnt

/-- The backend while completions are consumed. -/
structure View (U : Type) where
  cq : List IoUringCqe
  requests : ℕ → Option (XioRequest U)
  off : ℕ → ℕ
  cnt : ℕ → ℕ
  out : List (XioResult U)

/-- The first completion left is consumed. -/
def View.consume (base : ℕ) (v : View U) : View U :=
  match v.cq with
  | [] => v
  | c :: cq =>
    match requestOf v.requests c with
    | none => { v with cq := cq, requests := finish v.requests c }
    | some r =>
      { cq := cq
        requests := finish v.requests c
        off := offAfter v.off c r.opdata
        cnt := cntAfter v.cnt c
        out := v.out ++ [resultOf base v.off c r] }

/-- The completions that are posted and not consumed belong to open requests, and none
is behind the last one of its request. -/
structure Pending (cq : List IoUringCqe) (requests : ℕ → Option (XioRequest U)) : Prop where
  request : ∀ c ∈ cq, ∀ a, c.userData = .data a → ∃ r, requests a = some r
  bid_lt : ∀ c ∈ cq, ∀ a, c.userData = .data a → hasFlag c.flags ioringCqeFBuffer = true →
    flagsBid c.flags < xioRingBufCount
  last : cq.Pairwise fun c c' => ∀ a, c.userData = .data a → c'.userData = .data a →
    hasFlag c.flags ioringCqeFMore = true

/-- A request that another completion is about stays open. -/
theorem finish_of_pending {c : IoUringCqe} {cq : List IoUringCqe}
    {requests : ℕ → Option (XioRequest U)} (h : Pending (c :: cq) requests) {c' : IoUringCqe}
    (hc' : c' ∈ cq) {a : ℕ} (ha : c'.userData = .data a) : finish requests c a = requests a := by
  rw [finish]
  cases hc : c.userData with
  | null => rfl
  | xio => rfl
  | data b =>
    dsimp only
    by_cases hmore : hasFlag c.flags ioringCqeFMore = true
    · rw [if_pos hmore]
    · rw [if_neg hmore]
      refine Function.update_of_ne (fun hab => hmore ?_) _ _
      exact (List.pairwise_cons.mp h.last).1 c' hc' b hc (hab ▸ ha)

theorem Pending.tail {c : IoUringCqe} {cq : List IoUringCqe}
    {requests : ℕ → Option (XioRequest U)} (h : Pending (c :: cq) requests) :
    Pending cq (finish requests c) where
  request c' hc' a ha := by
    rw [finish_of_pending h hc' ha]
    exact h.request c' (List.mem_cons_of_mem c hc') a ha
  bid_lt c' hc' := h.bid_lt c' (List.mem_cons_of_mem c hc')
  last := (List.pairwise_cons.mp h.last).2

theorem Pending.nil (requests : ℕ → Option (XioRequest U)) : Pending [] requests where
  request := by simp
  bid_lt := by simp
  last := List.Pairwise.nil

/-- A completion is posted. -/
theorem Pending.post {cq : List IoUringCqe} {requests : ℕ → Option (XioRequest U)}
    (h : Pending cq requests) {cqe : IoUringCqe} (hcqe : PostOk requests cq cqe) :
    Pending (cq ++ [cqe]) requests where
  request c hc a ha := by
    rcases List.mem_append.mp hc with hc | hc
    · exact h.request c hc a ha
    · rw [List.mem_singleton.mp hc] at ha
      exact (hcqe a ha).1
  bid_lt c hc a ha := by
    rcases List.mem_append.mp hc with hc | hc
    · exact h.bid_lt c hc a ha
    · rw [List.mem_singleton.mp hc] at ha ⊢
      exact (hcqe a ha).2.2
  last := List.pairwise_append.mpr ⟨h.last, List.pairwise_singleton _ _,
    fun c hc c' hc' a ha ha' => by
      rw [List.mem_singleton.mp hc'] at ha'
      exact (hcqe a ha').2.1 c hc ha⟩

/-- The request of a pending completion does not change when the one before it is
consumed. -/
theorem requestOf_finish {c : IoUringCqe} {cq : List IoUringCqe}
    {requests : ℕ → Option (XioRequest U)} (h : Pending (c :: cq) requests) {c' : IoUringCqe}
    (hc' : c' ∈ cq) : requestOf (finish requests c) c' = requestOf requests c' := by
  rw [requestOf, requestOf]
  cases ha : c'.userData with
  | null => rfl
  | xio => rfl
  | data a => exact finish_of_pending h hc' ha

/-- No pending completion is about a record that no request holds. -/
theorem requestOf_update {cq : List IoUringCqe} {requests : ℕ → Option (XioRequest U)}
    (h : Pending cq requests) {a : ℕ} (ha : requests a = none) (r : Option (XioRequest U))
    {c : IoUringCqe} (hc : c ∈ cq) :
    requestOf (Function.update requests a r) c = requestOf requests c := by
  rw [requestOf, requestOf]
  cases hb : c.userData with
  | null => rfl
  | xio => rfl
  | data b =>
    refine Function.update_of_ne (fun hba => ?_) _ _
    obtain ⟨r', hr'⟩ := h.request c hc b hb
    rw [hba, ha] at hr'
    cases hr'

theorem Pending.update {cq : List IoUringCqe} {requests : ℕ → Option (XioRequest U)}
    (h : Pending cq requests) {a : ℕ} (ha : requests a = none) (r : Option (XioRequest U)) :
    Pending cq (Function.update requests a r) where
  request c hc b hb := by
    have hreq := requestOf_update h ha r hc
    rw [requestOf, requestOf, hb] at hreq
    dsimp only at hreq
    rw [hreq]
    exact h.request c hc b hb
  bid_lt := h.bid_lt
  last := h.last

/-- The pool and the records are what the view says. -/
structure Shows (b : BufPool) (p : DataPool U) (v : View U) : Prop where
  bufs : b.Wf v.off v.cnt
  records : ∃ free, p.Wf free v.requests none

/-- A step of a `do` block that only one branch takes. -/
theorem ite_bind_eq {α β : Type} {m : Prop} [Decidable m] {a₀ a : α} {g : Option α} {f : α → β}
    (h : (if m then some a₀ else g) = some a) :
    (if m then some (f a₀) else g.bind fun a => some (f a)) = some (f a) := by
  split at h
  · rw [if_pos ‹m›, Option.some.inj h]
  · rw [if_neg ‹¬ m›, h, Option.bind_some]

/-- The body of the loop. -/
theorem waitEntry_eq {x : Xio U} {v : View U} (h : Shows x.bufs x.records v) {c : IoUringCqe}
    {a : ℕ} (hc : c.userData = .data a) {r : XioRequest U} (hr : v.requests a = some r)
    (hbid : hasFlag c.flags ioringCqeFBuffer = true → flagsBid c.flags < xioRingBufCount) :
    ∃ b p, waitEntry x a c
        = some (resultOf x.bufs.buf v.off c r, { x with bufs := b, records := p }) ∧
      b.buf = x.bufs.buf ∧ b.bufRing = x.bufs.bufRing ∧
      b.Wf (offAfter v.off c r.opdata) (cntAfter v.cnt c) ∧
      ∃ free, p.Wf free (finish v.requests c) none := by
  obtain ⟨free, hrec⟩ := h.records
  obtain ⟨-, d, hd, hdr⟩ := hrec.request a r hr
  -- What becomes of the record.
  have hrecords : ∃ p, (if hasFlag c.flags ioringCqeFMore = true then some x.records
      else fhXioDataDisown x.records a) = some p ∧
      ∃ free, p.Wf free (finish v.requests c) none := by
    rw [finish, hc]
    dsimp only
    by_cases hmore : hasFlag c.flags ioringCqeFMore = true
    · rw [if_pos hmore, if_pos hmore]
      exact ⟨x.records, rfl, free, hrec⟩
    · rw [if_neg hmore, if_neg hmore]
      obtain ⟨p, free', hp, hwf⟩ := (hrec.retire hr).disown
      exact ⟨p, hp, free', hwf⟩
  obtain ⟨p, hp, hpwf⟩ := hrecords
  rw [waitEntry, hd]
  simp only [Option.bind_eq_bind, Option.bind_some, hdr, fhXioDataPopulate_eq]
  by_cases hbuf : hasFlag c.flags ioringCqeFBuffer = true
  · obtain ⟨b, hacc, hring, hbase, hwf⟩ :=
      account_eq h.bufs (hbid hbuf) (populateSize r.opdata c)
    refine ⟨b, p, ?_, hbase, hring, ?_, hpwf⟩
    · rw [if_pos hbuf, fhXioRingGetBufferOff, h.bufs.off_eq _ (hbid hbuf)]
      simp only [Option.map_some, Option.bind_some, if_pos hbuf, hacc, resultOf]
      exact ite_bind_eq hp
    · rw [offAfter, cntAfter, if_pos hbuf, if_pos hbuf]
      exact hwf
  · refine ⟨x.bufs, p, ?_, rfl, rfl, ?_, hpwf⟩
    · rw [if_neg hbuf]
      simp only [if_neg hbuf, resultOf]
      exact ite_bind_eq (f := fun p => (_, { x with bufs := x.bufs, records := p })) hp
    · rw [offAfter, cntAfter, if_neg hbuf, if_neg hbuf]
      exact h.bufs

/-- A request that is still open behind some completions has no last one among them. -/
theorem foldl_finish_eq_some {requests : ℕ → Option (XioRequest U)} {cq : List IoUringCqe}
    {a : ℕ} {r : XioRequest U} (h : cq.foldl finish requests a = some r) :
    requests a = some r ∧
      ∀ c ∈ cq, c.userData = .data a → hasFlag c.flags ioringCqeFMore = true := by
  induction cq generalizing requests with
  | nil => exact ⟨h, by simp⟩
  | cons c cq ih =>
    rw [List.foldl_cons] at h
    obtain ⟨hr, hmore⟩ := ih h
    -- The induction hypothesis covers all but the completion in front.
    have hcons : (c.userData = .data a → hasFlag c.flags ioringCqeFMore = true) →
        ∀ c' ∈ c :: cq, c'.userData = .data a → hasFlag c'.flags ioringCqeFMore = true :=
      fun hc => List.forall_mem_cons.mpr ⟨hc, hmore⟩
    rw [finish] at hr
    cases hc : c.userData with
    | null =>
      rw [hc] at hr hcons
      exact ⟨hr, hcons fun hd => by cases hd⟩
    | xio =>
      rw [hc] at hr hcons
      exact ⟨hr, hcons fun hd => by cases hd⟩
    | data b =>
      rw [hc] at hr hcons
      dsimp only at hr
      by_cases hm : hasFlag c.flags ioringCqeFMore = true
      · rw [if_pos hm] at hr
        exact ⟨hr, hcons fun _ => hm⟩
      · rw [if_neg hm] at hr
        rcases eq_or_ne a b with rfl | hne
        · rw [Function.update_self] at hr
          cases hr
        · rw [Function.update_of_ne hne] at hr
          exact ⟨hr, hcons fun hd => absurd (UserData.data.inj hd).symm hne⟩

/-! ### The loop -/

theorem View.consume_cq (base : ℕ) (v : View U) : (v.consume base).cq = v.cq.tail := by
  rw [View.consume]
  cases h : v.cq with
  | nil => simp [h]
  | cons c cq =>
    dsimp only
    cases requestOf v.requests c <;> rfl

theorem View.consume_requests {base : ℕ} {v : View U} {c : IoUringCqe} {cq : List IoUringCqe}
    (h : v.cq = c :: cq) : (v.consume base).requests = finish v.requests c := by
  rw [View.consume, h]
  dsimp only
  cases requestOf v.requests c <;> rfl

theorem View.consume_of_none {base : ℕ} {v : View U} {c : IoUringCqe} {cq : List IoUringCqe}
    (h : v.cq = c :: cq) (hr : requestOf v.requests c = none) :
    v.consume base = { v with cq := cq, requests := finish v.requests c } := by
  rw [View.consume, h]
  dsimp only
  rw [hr]

theorem requestOf_of_internal (requests : ℕ → Option (XioRequest U)) {c : IoUringCqe}
    (hc : c.userData = .null ∨ c.userData = .xio) : requestOf requests c = none := by
  rw [requestOf]
  rcases hc with hc | hc <;> rw [hc]

/-- An internal completion is passed over. -/
theorem View.consume_of_internal (base : ℕ) {v : View U} {c : IoUringCqe} {cq : List IoUringCqe}
    (h : v.cq = c :: cq) (hc : c.userData = .null ∨ c.userData = .xio) :
    v.consume base = { v with cq := cq } := by
  have hfin : finish v.requests c = v.requests := by
    rw [finish]
    rcases hc with hc | hc <;> rw [hc]
  rw [View.consume_of_none h (requestOf_of_internal v.requests hc), hfin]

theorem View.consume_of_some {base : ℕ} {v : View U} {c : IoUringCqe} {cq : List IoUringCqe}
    (h : v.cq = c :: cq) {r : XioRequest U} (hr : requestOf v.requests c = some r) :
    v.consume base =
      { cq := cq
        requests := finish v.requests c
        off := offAfter v.off c r.opdata
        cnt := cntAfter v.cnt c
        out := v.out ++ [resultOf base v.off c r] } := by
  rw [View.consume, h]
  dsimp only
  rw [hr]

/-- What is pending stays well formed while completions are consumed. -/
theorem Pending.consume {v : View U} (h : Pending v.cq v.requests) (base : ℕ) :
    Pending (v.consume base).cq (v.consume base).requests := by
  cases hcq : v.cq with
  | nil =>
    have hv : v.consume base = v := by rw [View.consume, hcq]
    rwa [hv]
  | cons c cq =>
    rw [View.consume_cq, View.consume_requests hcq, hcq, List.tail_cons]
    rw [hcq] at h
    exact h.tail

theorem View.iterate_cq (base k : ℕ) (v : View U) :
    ((View.consume base)^[k] v).cq = v.cq.drop k := by
  induction k generalizing v with
  | zero => rfl
  | succ k ih => rw [Function.iterate_succ_apply, ih, View.consume_cq, List.drop_tail]

theorem View.iterate_requests (base : ℕ) {k : ℕ} {v : View U} (hk : k ≤ v.cq.length) :
    ((View.consume base)^[k] v).requests = (v.cq.take k).foldl finish v.requests := by
  induction k generalizing v with
  | zero => rfl
  | succ k ih =>
    cases hcq : v.cq with
    | nil => simp [hcq] at hk
    | cons c cq =>
      have hcq' : (v.consume base).cq = cq := by rw [View.consume_cq, hcq, List.tail_cons]
      rw [Function.iterate_succ_apply, ih (by rw [hcq']; simpa [hcq] using hk), hcq',
        View.consume_requests hcq, List.take_succ_cons, List.foldl_cons]

theorem Pending.iterate {v : View U} (h : Pending v.cq v.requests) (base k : ℕ) :
    Pending ((View.consume base)^[k] v).cq ((View.consume base)^[k] v).requests := by
  induction k with
  | zero => exact h
  | succ k ih =>
    rw [Function.iterate_succ_apply']
    exact ih.consume base

/-- What is left is about requests that stay open. -/
theorem View.iterate_requestOf {base k : ℕ} {v : View U} (hp : Pending v.cq v.requests)
    {c : IoUringCqe} (hc : c ∈ v.cq.drop k) :
    requestOf ((View.consume base)^[k] v).requests c = requestOf v.requests c := by
  induction k generalizing v with
  | zero => rfl
  | succ k ih =>
    cases hcq : v.cq with
    | nil => simp [hcq] at hc
    | cons c₀ cq =>
      rw [hcq, List.drop_succ_cons] at hc
      rw [Function.iterate_succ_apply, ih (hp.consume base) (by
        rw [View.consume_cq, hcq, List.tail_cons]
        exact hc), View.consume_requests hcq]
      rw [hcq] at hp
      exact requestOf_finish hp (List.mem_of_mem_drop hc)

/-- The loop consumes a prefix of the completions, and stops at the end or when the
results are full. -/
theorem waitLoop_eq {maxResults : ℕ} {cqes : List IoUringCqe} {v : View U} {w : WaitState U}
    (h : Shows w.xio.bufs w.xio.records v) (hp : Pending v.cq v.requests) (hcq : v.cq = cqes)
    (hout : w.results = v.out) (hmax : v.out.length ≤ maxResults) :
    ∃ k w', fhXioWaitLoop maxResults cqes w = some w' ∧ k ≤ cqes.length ∧
      w'.countAdvance = w.countAdvance + k ∧ w'.xio.cq = w.xio.cq ∧
      w'.xio.bufs.buf = w.xio.bufs.buf ∧ w'.xio.bufs.bufRing = w.xio.bufs.bufRing ∧
      Shows w'.xio.bufs w'.xio.records ((View.consume w.xio.bufs.buf)^[k] v) ∧
      w'.results = ((View.consume w.xio.bufs.buf)^[k] v).out ∧ w'.results.length ≤ maxResults ∧
      (k = cqes.length ∨ w'.results.length = maxResults) := by
  induction cqes generalizing v w with
  | nil =>
    exact ⟨0, w, rfl, le_refl _, rfl, rfl, rfl, rfl, h, hout, by rw [hout]; exact hmax, .inl rfl⟩
  | cons c cqes ih =>
    rw [fhXioWaitLoop]
    by_cases hfull : w.results.length ≥ maxResults
    · rw [if_pos hfull]
      exact ⟨0, w, rfl, Nat.zero_le _, rfl, rfl, rfl, rfl, h, hout, by rw [hout]; exact hmax,
        .inr (le_antisymm (by rw [hout]; exact hmax) hfull)⟩
    · rw [if_neg hfull]
      have htail : (v.consume w.xio.bufs.buf).cq = cqes := by
        rw [View.consume_cq, hcq, List.tail_cons]
      have hp' := hp.consume w.xio.bufs.buf
      -- An internal completion is passed over, and the rest is a shorter loop.
      have hinternal : c.userData = .null ∨ c.userData = .xio →
          ∃ k w', fhXioWaitLoop maxResults cqes { w with countAdvance := w.countAdvance + 1 }
              = some w' ∧ k ≤ (c :: cqes).length ∧
            w'.countAdvance = w.countAdvance + k ∧ w'.xio.cq = w.xio.cq ∧
            w'.xio.bufs.buf = w.xio.bufs.buf ∧ w'.xio.bufs.bufRing = w.xio.bufs.bufRing ∧
            Shows w'.xio.bufs w'.xio.records ((View.consume w.xio.bufs.buf)^[k] v) ∧
            w'.results = ((View.consume w.xio.bufs.buf)^[k] v).out ∧
            w'.results.length ≤ maxResults ∧
            (k = (c :: cqes).length ∨ w'.results.length = maxResults) := by
        intro hnull
        have hv := View.consume_of_internal w.xio.bufs.buf hcq hnull
        obtain ⟨k, w', hloop, hk, hadv, hrest⟩ := ih (v := v.consume w.xio.bufs.buf)
          (w := { w with countAdvance := w.countAdvance + 1 })
          (by rw [hv]; exact ⟨h.bufs, h.records⟩) hp' htail (by rw [hv]; exact hout)
          (by rw [hv]; exact hmax)
        refine ⟨k + 1, w', hloop, Nat.succ_le_succ hk, by rw [hadv]; dsimp only; omega, ?_⟩
        rw [Function.iterate_succ_apply, List.length_cons, Nat.add_right_cancel_iff]
        exact hrest
      cases hc : c.userData with
      | null => exact hinternal (.inl hc)
      | xio => exact hinternal (.inr hc)
      | data a =>
        obtain ⟨r, hr⟩ := hp.request c (hcq ▸ List.mem_cons_self) a hc
        have hr' : requestOf v.requests c = some r := by rw [requestOf, hc]; exact hr
        have hv : v.consume w.xio.bufs.buf = _ := View.consume_of_some hcq hr'
        obtain ⟨b, p, hentry, hbase, hring, hbufs, hrecs⟩ :=
          waitEntry_eq h hc hr (hp.bid_lt c (hcq ▸ List.mem_cons_self) a hc)
        obtain ⟨k, w', hloop, hk, hadv, hcq', hbuf', hring', hrest⟩ :=
          ih (v := v.consume w.xio.bufs.buf)
            (w := { xio := { w.xio with bufs := b, records := p }
                    results := w.results ++ [resultOf w.xio.bufs.buf v.off c r]
                    countAdvance := w.countAdvance + 1 })
            (by rw [hv]; exact ⟨hbufs, hrecs⟩) hp' htail (by rw [hv, hout])
            (by
              rw [hv, List.length_append, List.length_singleton, ← hout]
              omega)
        refine ⟨k + 1, w', ?_, Nat.succ_le_succ hk, by rw [hadv]; dsimp only; omega, hcq',
          hbuf'.trans hbase, hring'.trans hring, ?_⟩
        · dsimp only
          rw [hentry]
          exact hloop
        · rw [Function.iterate_succ_apply, List.length_cons, Nat.add_right_cancel_iff]
          dsimp only at hrest
          rw [hbase] at hrest
          exact hrest

/-- `fh_xio_wait` consumes a prefix of the pending completions, and leaves some of them
only if the results are full. -/
theorem fhXioWait_eq {x : Xio U} {v : View U} (h : Shows x.bufs x.records v)
    (hp : Pending v.cq v.requests) (hcq : v.cq = x.cq) (hout : v.out = []) (maxResults : ℕ)
    (rc : ℤ) :
    ∃ k ret x', fhXioWait x maxResults rc = some (ret, x') ∧ k ≤ x.cq.length ∧
      x'.cq = x.cq.drop k ∧ x'.bufs.buf = x.bufs.buf ∧ x'.bufs.bufRing = x.bufs.bufRing ∧
      Shows x'.bufs x'.records ((View.consume x.bufs.buf)^[k] v) ∧
      resultsOf ret = ((View.consume x.bufs.buf)^[k] v).out ∧
      (resultsOf ret).length ≤ min maxResults (xioRingEntries * 4) ∧
      (k = x.cq.length ∨ (resultsOf ret).length = min maxResults (xioRingEntries * 4)) := by
  rw [fhXioWait]
  by_cases herror : rc < 0 ∧ rc ≠ -eTime ∧ x.cq = []
  · have hnil := herror.2.2
    simp only [if_pos herror]
    exact ⟨0, _, x, rfl, Nat.zero_le _, rfl, rfl, rfl, h, hout.symm, Nat.zero_le _,
      .inl (by rw [hnil]; rfl)⟩
  · simp only [if_neg herror]
    have hmax : v.out.length ≤ min maxResults (xioRingEntries * 4) := by
      rw [hout]
      exact Nat.zero_le _
    obtain ⟨k, w, hloop, hk, hadv, hcq', hbuf, hring, hshows, hres, hle, hfull⟩ :=
      waitLoop_eq (w := { xio := x, results := [], countAdvance := 0 }) h hp hcq hout.symm hmax
    rw [hloop]
    refine ⟨k, _, _, rfl, hk, ?_, hbuf, hring, hshows, hres, hle, hfull⟩
    dsimp only
    rw [hcq', hadv, Nat.zero_add]

end Freehttpd.Uring
