/-
The flags of results, on both backends.

`enum xio_task_flag` says what the flags of a result mean.  The xpoll backend sets them
itself; the io_uring backend hands on the flags of the completion, whose first two bits
mean the same and whose third, `IORING_CQE_F_SOCK_NONEMPTY`, says that a socket has
more to read.

* `flagsTruthful_iff` — over a run of the io_uring backend;
* `fhXioWait_flags` — the xpoll backend;
* `xio_flags_iff` — the results of both mean what is declared if and only if no
  completion of a request that succeeded had the third bit.
-/
import Freehttpd.UringDeliveries
import Freehttpd.XioXpoll

namespace Freehttpd

open Runs

variable {U : Type}

/-! ### The io_uring backend -/

namespace Uring

/-- `IORING_CQE_F_SOCK_NONEMPTY`, which the code does not name. -/
def ioringCqeFSockNonempty : ℕ := 4

/-- The kernel has kept its word: behind a completion with `IORING_CQE_F_MORE` there is
another one for the record. -/
def MoreHonoured (posted : List (IoUringCqe × Option (XioRequest U))) : Prop :=
  ∀ front p back a, posted = front ++ p :: back → p.1.userData = .data a →
    hasFlag p.1.flags ioringCqeFMore = true → ∃ p' ∈ back, p'.1.userData = .data a

/-- What the next waits return. -/
def Machine.toServe (t : Machine U) : List (IoUringCqe × XioResult U) :=
  (withRequests t.requests t.xio.cq).filterMap served

/-- The next of the later results for the record is one more of the same request. -/
def Delivery.Followed (d : Delivery U) (later : List (IoUringCqe × XioResult U)) : Prop :=
  ∃ mid e rest, later = mid ++ e :: rest ∧ e.1.userData = d.cqe.userData ∧
    e.2.op = d.result.op ∧ e.2.udata = d.result.udata ∧
    ∀ m ∈ mid, m.1.userData ≠ d.cqe.userData

/-- The flags of the results of a run mean what is declared: a result holds a reference
if one was counted for it, and it is followed by another one of its request, which was
returned or is pending, if the kernel has posted what it promised. -/
def FlagsTruthful (log : List (Delivery U)) (t : Machine U) : Prop :=
  ∀ front d back, log = front ++ d :: back →
    d.result.FlagsMean (∃ bid, Counted d.before d.after bid)
      (MoreHonoured t.posted → d.Followed (back.map Delivery.served ++ t.toServe))

/-- The condition: among the completions of requests that are not pending any more, those
with `IORING_CQE_F_SOCK_NONEMPTY` are failures. -/
def Machine.NonemptyFails (t : Machine U) : Prop :=
  ∀ p ∈ t.posted.take (t.posted.length - t.xio.cq.length), p.2.isSome = true →
    hasFlag p.1.flags ioringCqeFSockNonempty = true → p.1.res < 0

theorem hasFlag_iff {flags bit : ℕ} : hasFlag flags bit = true ↔ flags &&& bit ≠ 0 :=
  decide_eq_true_iff

/-- What a completion that has a result says. -/
theorem served_eq_some {p : IoUringCqe × Option (XioRequest U)} {e : IoUringCqe × XioResult U}
    (h : served p = some e) :
    ∃ a r, p.1.userData = .data a ∧ p.2 = some r ∧
      e = (p.1, ⟨some r.opdata.op, p.1.flags, p.1.res, none, r.udata⟩) := by
  obtain ⟨result, hanswer, rfl⟩ := Option.map_eq_some_iff.mp h
  rw [answer] at hanswer
  cases hu : p.1.userData with
  | null => rw [hu] at hanswer; cases hanswer
  | xio => rw [hu] at hanswer; cases hanswer
  | data a =>
    rw [hu] at hanswer
    obtain ⟨r, hr, rfl⟩ := Option.map_eq_some_iff.mp hanswer
    exact ⟨a, r, rfl, hr, rfl⟩

theorem served_of_request {p : IoUringCqe × Option (XioRequest U)} {a : ℕ} {r : XioRequest U}
    (ha : p.1.userData = .data a) (hr : p.2 = some r) :
    served p = some (p.1, ⟨some r.opdata.op, p.1.flags, p.1.res, none, r.udata⟩) := by
  rw [served, answer, ha, hr]
  rfl

/-- The completions of requests that the waits have consumed. -/
theorem Machine.Inv.consumed_eq {t : Machine U}
    {consumed : List (IoUringCqe × Option (XioRequest U))} (h : t.Inv consumed) :
    t.posted.take (t.posted.length - t.xio.cq.length) = consumed := by
  have hlen : (withRequests t.requests t.xio.cq).length = t.xio.cq.length := List.length_map _
  rw [h.posted, List.length_append, hlen, Nat.add_sub_cancel, List.take_left']
  rfl

/-- The first completion of record `a`. -/
theorem exists_first {a : ℕ} {l : List (IoUringCqe × Option (XioRequest U))}
    {p : IoUringCqe × Option (XioRequest U)} (hp : p ∈ l) (ha : p.1.userData = .data a) :
    ∃ mid p' rest, l = mid ++ p' :: rest ∧ p'.1.userData = .data a ∧
      ∀ m ∈ mid, m.1.userData ≠ .data a := by
  have hsome : (l.find? fun q => decide (q.1.userData = .data a)).isSome = true :=
    List.find?_isSome.mpr ⟨p, hp, decide_eq_true ha⟩
  obtain ⟨p', hfind⟩ := Option.isSome_iff_exists.mp hsome
  obtain ⟨hp', mid, rest, rfl, hmid⟩ := List.find?_eq_some_iff_append.mp hfind
  refine ⟨mid, p', rest, rfl, of_decide_eq_true hp', fun m hm => ?_⟩
  exact of_decide_eq_false (Bool.not_eq_true' _ ▸ hmid m hm)

/-- A result with `XIO_TASK_F_MORE` is followed by one more of its request. -/
theorem Delivery.followed {t : Machine U} {consumed : List (IoUringCqe × Option (XioRequest U))}
    (h : t.Inv consumed) (hmore : t.MoreKept) (hkernel : MoreHonoured t.posted)
    {log front back : List (Delivery U)} {d : Delivery U}
    (hlog : log.map Delivery.served = consumed.filterMap Uring.served)
    (hsplit : log = front ++ d :: back) (hflag : hasFlag d.cqe.flags ioringCqeFMore = true) :
    d.Followed (back.map Delivery.served ++ t.toServe) := by
  rw [hsplit, List.map_append, List.map_cons, eq_comm, List.filterMap_eq_append_iff] at hlog
  obtain ⟨l₁, l, rfl, -, hl⟩ := hlog
  obtain ⟨l₂, p, l₃, rfl, -, hp, hback⟩ := List.filterMap_eq_cons_iff.mp hl
  obtain ⟨a, r, ha, hr, hd⟩ := served_eq_some hp
  obtain ⟨hcqe, hresult⟩ := Prod.mk.inj hd
  -- The completion of `d` and those behind it.
  have hposted : t.posted = (l₁ ++ l₂) ++ p :: (l₃ ++ withRequests t.requests t.xio.cq) := by
    rw [h.posted]
    simp only [List.append_assoc, List.cons_append]
  have hpflag : hasFlag p.1.flags ioringCqeFMore = true := hcqe ▸ hflag
  obtain ⟨q, hq, hqa⟩ := hkernel _ _ _ a hposted ha hpflag
  obtain ⟨mid, p', rest, hbehind, ha', hmid⟩ := exists_first hq hqa
  -- The request of the next completion is that of `d`.
  have hr' : p'.2 = some r := by
    rw [← hr]
    refine hmore.same (l₁ ++ l₂) p mid p' rest a ?_ ha ha' fun m hm hma => ?_
    · rw [hposted, hbehind, List.append_assoc, List.append_assoc, List.cons_append,
        List.append_assoc]
    · rcases List.mem_cons.mp hm with rfl | hm
      · exact hpflag
      · exact absurd hma (hmid m hm)
  have hop : d.result.op = some r.opdata.op := congrArg XioResult.op hresult
  have hudata : d.result.udata = r.udata := congrArg XioResult.udata hresult
  have hda : d.cqe.userData = .data a := hcqe ▸ ha
  refine ⟨mid.filterMap Uring.served,
    (p'.1, ⟨some r.opdata.op, p'.1.flags, p'.1.res, none, r.udata⟩), rest.filterMap Uring.served,
    ?_, ?_, hop.symm, hudata.symm, ?_⟩
  · rw [← hback, Machine.toServe, ← List.filterMap_append, hbehind, List.filterMap_append,
      List.filterMap_cons_some (served_of_request ha' hr')]
  · rw [hda]
    exact ha'
  · intro m hm
    obtain ⟨q', hq', hm⟩ := List.mem_filterMap.mp hm
    obtain ⟨_, _, _, _, rfl⟩ := served_eq_some hm
    rw [hda]
    exact hmid q' hq'

/-- The flags of the results of a run mean what is declared if and only if no consumed
completion of a request that succeeded has `IORING_CQE_F_SOCK_NONEMPTY`. -/
theorem flagsTruthful_iff {t : Machine U} {consumed : List (IoUringCqe × Option (XioRequest U))}
    (h : t.Inv consumed) (hmore : t.MoreKept) {log : List (Delivery U)}
    (hlog : log.map Delivery.served = consumed.filterMap served)
    (hexact : ∀ d ∈ log, d.Exact) : FlagsTruthful log t ↔ t.NonemptyFails := by
  rw [Machine.NonemptyFails, h.consumed_eq]
  constructor
  · intro htruth p hp hsome hflag
    obtain ⟨r, hr⟩ := Option.isSome_iff_exists.mp hsome
    -- A completion of a request is one of a record.
    have hinternal := h.internal p (by
      rw [h.posted]
      exact List.mem_append_left _ hp)
    have hdata : ∃ a, p.1.userData = .data a := by
      cases hu : p.1.userData with
      | null => exact absurd (hinternal.mpr (.inl hu)) (hr ▸ Option.some_ne_none r)
      | xio => exact absurd (hinternal.mpr (.inr hu)) (hr ▸ Option.some_ne_none r)
      | data a => exact ⟨a, rfl⟩
    obtain ⟨a, ha⟩ := hdata
    have hserved := served_of_request ha hr
    have hmem := List.mem_filterMap.mpr ⟨p, hp, hserved⟩
    rw [← hlog] at hmem
    obtain ⟨d, hd, hd'⟩ := List.mem_map.mp hmem
    obtain ⟨hcqe, -⟩ := Prod.mk.inj hd'
    obtain ⟨front, back, hsplit⟩ := List.append_of_mem hd
    have hres := (htruth front d back hsplit).internalError
    rw [(hexact d hd).flags, (hexact d hd).res, hcqe] at hres
    exact hres (hasFlag_iff.mp hflag)
  · intro hfails front d back hsplit
    have hd : d ∈ log := by
      rw [hsplit]
      exact List.mem_append_right _ List.mem_cons_self
    have hmem : d.served ∈ consumed.filterMap served := by
      rw [← hlog]
      exact List.mem_map_of_mem hd
    obtain ⟨p, hp, hserved⟩ := List.mem_filterMap.mp hmem
    obtain ⟨a, r, -, hr, hd'⟩ := served_eq_some hserved
    obtain ⟨hcqe, -⟩ := Prod.mk.inj hd'
    constructor
    · intro hflag
      rw [(hexact d hd).flags, hcqe] at hflag
      rw [(hexact d hd).res, hcqe]
      exact hfails p hp (hr ▸ rfl) (hasFlag_iff.mpr hflag)
    · rw [(hexact d hd).flags]
      exact hasFlag_iff.symm.trans (hexact d hd).counted
    · intro hflag hkernel
      rw [(hexact d hd).flags] at hflag
      exact d.followed h hmore hkernel hlog hsplit (hasFlag_iff.mpr hflag)

end Uring

/-! ### The xpoll backend -/

/-- A failure, as the xpoll backend reports it. -/
def XioResult.IsError (r : XioResult U) : Prop :=
  r.flags = xioTaskFInternalError ∧ r.res = -1 ∧ r.buf = none

/-- A reference is counted behind the wait, or the result points into a buffer of the
pool. -/
def Xio.HoldsBuffer (x x' : Xio U) (r : XioResult U) : Prop :=
  (∃ b s s', x.slices.bufList.read b = some s ∧ x'.slices.bufList.read b = some s' ∧
    s.refs < s'.refs) ∨
  ∃ b s p, x'.slices.bufList.read b = some s ∧ r.buf = some p ∧ s.buf ≤ p ∧
    p < s.buf + xioBufSize

theorem drainQueue_errors {ndebug : Bool} {room : ℕ} {head head' : Option ℕ} {more : Bool}
    {w w' : XioWait U} (h : drainQueue ndebug room head w = some (head', more, w'))
    (hw : ∀ r ∈ w.results, r.IsError) : ∀ r ∈ w'.results, r.IsError := by
  induction room generalizing head w with
  | zero =>
    cases head with
    | none =>
      obtain ⟨-, -, rfl⟩ := Option.some.inj h
      exact hw
    | some task =>
      obtain ⟨_, -, h⟩ := Option.bind_eq_some_iff.mp h
      obtain ⟨-, -, rfl⟩ := Option.some.inj h
      exact hw
  | succ room ih =>
    cases head with
    | none =>
      obtain ⟨-, -, rfl⟩ := Option.some.inj h
      exact hw
    | some task =>
      obtain ⟨t, -, h⟩ := Option.bind_eq_some_iff.mp h
      obtain ⟨tasks, -, h⟩ := Option.bind_eq_some_iff.mp h
      refine ih h fun r hr => ?_
      rcases List.mem_append.mp hr with hr | hr
      · exact hw r hr
      · rw [List.mem_singleton.mp hr]
        exact ⟨rfl, rfl, rfl⟩

theorem waitEventBody_errors {ndebug : Bool} {maxResults : ℕ} {mask : BitVec 32} {k : ℕ}
    {states states' : Block XioFdState} {more : Bool} {w w' : XioWait U}
    (h : waitEventBody ndebug maxResults mask k states w = some (more, states', w'))
    (hw : ∀ r ∈ w.results, r.IsError) : ∀ r ∈ w'.results, r.IsError := by
  rw [waitEventBody] at h
  split at h
  case isFalse =>
    obtain ⟨-, -, rfl⟩ := Option.some.inj h
    exact hw
  obtain ⟨st, -, h⟩ := Option.bind_eq_some_iff.mp h
  obtain ⟨⟨headIn, done, w₁⟩, hin, h⟩ := Option.bind_eq_some_iff.mp h
  have hw₁ := drainQueue_errors hin hw
  obtain ⟨states₁, -, h⟩ := Option.bind_eq_some_iff.mp h
  dsimp only at h
  split at h
  · obtain ⟨⟨headOut, done', w₂⟩, hout, h⟩ := Option.bind_eq_some_iff.mp h
    obtain ⟨states₂, -, h⟩ := Option.bind_eq_some_iff.mp h
    obtain ⟨-, -, rfl⟩ := Option.some.inj h
    exact drainQueue_errors hout hw₁
  · obtain ⟨-, -, rfl⟩ := Option.some.inj h
    exact hw₁

theorem fhXioWaitLoop_errors {ndebug : Bool} {maxResults : ℕ} {events : List (BitVec 32 × ℕ)}
    {states states' : Block XioFdState} {w w' : XioWait U}
    (h : fhXioWaitLoop ndebug maxResults events states w = some (states', w'))
    (hw : ∀ r ∈ w.results, r.IsError) : ∀ r ∈ w'.results, r.IsError := by
  induction events generalizing states w with
  | nil =>
    obtain ⟨-, rfl⟩ := Prod.mk.inj (Option.some.inj h)
    exact hw
  | cons e events ih =>
    obtain ⟨⟨more, states₁, w₁⟩, hbody, h⟩ := Option.bind_eq_some_iff.mp h
    have hw₁ := waitEventBody_errors hbody hw
    dsimp only at h
    split at h
    · exact ih h hw₁
    · obtain ⟨-, rfl⟩ := Prod.mk.inj (Option.some.inj h)
      exact hw₁

/-- A failure has the flags of one, and no buffer. -/
theorem XioResult.IsError.flagsMean {r : XioResult U} (h : r.IsError) {holds follows : Prop}
    (hholds : ¬ holds) : r.FlagsMean holds follows := by
  obtain ⟨hflags, hres, -⟩ := h
  constructor
  · intro _
    rw [hres]
    decide
  · rw [hflags]
    exact iff_of_false (by decide) hholds
  · intro hmore
    rw [hflags] at hmore
    exact absurd rfl hmore

/-- The results of the xpoll backend mean what is declared: they are failures, hold no
buffer, and no other result follows. -/
theorem fhXioWait_flags {ndebug : Bool} {x x' : Xio U} {maxResults : ℕ}
    {events : Option (List (BitVec 32 × ℕ))} {ret : ℤ} {results : List (XioResult U)}
    (h : fhXioWait ndebug x maxResults events = some (ret, results, x')) :
    ∀ r ∈ results, r.FlagsMean (x.HoldsBuffer x' r) False := by
  have herrors : x'.slices = x.slices ∧ ∀ r ∈ results, r.IsError := by
    cases events with
    | none =>
      obtain ⟨-, rfl, rfl⟩ := Option.some.inj h
      exact ⟨rfl, fun r hr => by cases hr⟩
    | some events =>
      obtain ⟨⟨states, w⟩, hloop, h⟩ := Option.bind_eq_some_iff.mp h
      obtain ⟨-, rfl, rfl⟩ := Option.some.inj h
      exact ⟨rfl, fhXioWaitLoop_errors hloop fun r hr => by cases hr⟩
  obtain ⟨hslices, herrors⟩ := herrors
  intro r hr
  refine (herrors r hr).flagsMean ?_
  rintro (⟨b, s, s', hs, hs', hlt⟩ | ⟨b, s, p, -, hp, -⟩)
  · rw [hslices, hs] at hs'
    rw [Option.some.inj hs'] at hlt
    exact lt_irrefl _ hlt
  · rw [(herrors r hr).2.2] at hp
    cases hp

/-! ### Both backends -/

open Uring in
/-- In every run of the io_uring backend the flags of the results mean what is declared
if and only if, among the completions of requests that the waits consumed, those with
`IORING_CQE_F_SOCK_NONEMPTY` are failures.  Those of the xpoll backend always do. -/
theorem xio_flags_iff [DecidableEq U] {calloc queueInit setupBufRing : Bool}
    {memalign : Option ℕ} {x₀ : Uring.Xio U} {ops : List (UringOp U)} {outs : List (UringRet U)}
    {t : Machine U}
    (hcreate : Uring.fhXioCreate calloc queueInit setupBufRing memalign = some (some x₀))
    (hadm : EachStep uringStep Admissible (Machine.start x₀) ops)
    (hruns : runs uringStep (Machine.start x₀) ops = some (outs, t)) :
    outs.flatMap UringRet.results
        = (runLog uringStep deliveries (Machine.start x₀) ops).map Delivery.result ∧
      (FlagsTruthful (runLog uringStep deliveries (Machine.start x₀) ops) t
        ↔ t.NonemptyFails) ∧
      ∀ (ndebug : Bool) (x x' : Xio U) (maxResults : ℕ)
        (events : Option (List (BitVec 32 × ℕ))) (ret : ℤ) (results : List (XioResult U)),
        fhXioWait ndebug x maxResults events = some (ret, results, x') →
          ∀ r ∈ results, r.FlagsMean (x.HoldsBuffer x' r) False := by
  obtain ⟨hres, hmore, hexact, consumed, hinv, hlog⟩ :=
    (Machine.inv_start hcreate).runDeliveries (Machine.MoreKept.start x₀) hadm hruns
  rw [List.nil_append] at hinv
  exact ⟨hres, flagsTruthful_iff hinv hmore hlog hexact,
    fun _ _ _ _ _ _ _ hwait => fhXioWait_flags hwait⟩

/-- A receive into a buffer of the caller, its completion with `flags`, and a wait. -/
def recvInto (flags : ℕ) : List (Uring.UringOp ℕ) :=
  [.request ⟨some 1, true, false⟩ (some 7) (.recv 5 (some 64) 16 0) 0,
    .post ⟨.data 1, 10, flags⟩, .wait 4 0]

open Uring in
set_option maxRecDepth 20000 in
theorem recvInto_runs (r : TailRing IoUringBuf) {flags : ℕ} (hflags : flags = 0 ∨ flags = 4) :
    ∃ outs t, runs uringStep (Machine.start (freshXio 0 r)) (recvInto flags) = some (outs, t) ∧
      EachStep uringStep Admissible (Machine.start (freshXio 0 r)) (recvInto flags) ∧
      outs.flatMap UringRet.results = [⟨some .recv, flags, 10, some 64, some 7⟩] ∧
      t.posted = [(⟨.data 1, 10, flags⟩, some ⟨some 7, .recv 5 (some 64) 16 0⟩)] ∧
      t.xio.cq = [] := by
  have hpost : ∀ flags : ℕ, hasFlag flags ioringCqeFBuffer = false →
      EachStep uringStep Admissible (Machine.start (freshXio 0 r)) (recvInto flags) := by
    intro flags hbuf
    refine (eachStep_cons_of_step rfl _).mpr ⟨fun a ha => rfl, ?_⟩
    refine (eachStep_cons_of_step rfl _).mpr ⟨fun a ha => ?_, eachStep_singleton.mpr trivial⟩
    obtain rfl : 1 = a := UserData.data.inj ha
    exact ⟨⟨_, rfl⟩, fun c hc _ => (by cases hc), fun h => absurd h (by rw [hbuf]; decide)⟩
  rcases hflags with rfl | rfl
  · exact ⟨_, _, rfl, hpost 0 rfl, rfl, rfl, rfl⟩
  · exact ⟨_, _, rfl, hpost 4 rfl, rfl, rfl, rfl⟩

open Uring in
theorem xio_flags_recv : ∃ x₀ : Uring.Xio ℕ, ∃ outs t,
    Uring.fhXioCreate true true true (some 0) = some (some x₀) ∧
    runs uringStep (Machine.start x₀) (recvInto 0) = some (outs, t) ∧
    outs.flatMap UringRet.results = [⟨some .recv, 0, 10, some 64, some 7⟩] ∧
    FlagsTruthful (runLog uringStep deliveries (Machine.start x₀) (recvInto 0)) t := by
  obtain ⟨r, hcreate⟩ := fhXioCreate_succeeds (U := ℕ) 0
  obtain ⟨outs, t, hruns, hadm, hres, hposted, hcq⟩ := recvInto_runs r (.inl rfl)
  refine ⟨_, outs, t, hcreate, hruns, hres, (xio_flags_iff hcreate hadm hruns).2.1.mpr ?_⟩
  intro p hp _ hflag
  rw [hposted, hcq] at hp
  obtain rfl := List.mem_singleton.mp hp
  exact absurd hflag (by decide)

open Uring in
/-- A socket that has more to read makes a success look like a failure. -/
theorem xio_flags_nonempty : ∃ x₀ : Uring.Xio ℕ, ∃ outs t,
    Uring.fhXioCreate true true true (some 0) = some (some x₀) ∧
    EachStep uringStep Admissible (Machine.start x₀) (recvInto ioringCqeFSockNonempty) ∧
    runs uringStep (Machine.start x₀) (recvInto ioringCqeFSockNonempty) = some (outs, t) ∧
    outs.flatMap UringRet.results
      = [⟨some .recv, xioTaskFInternalError, 10, some 64, some 7⟩] ∧
    ¬ FlagsTruthful (runLog uringStep deliveries (Machine.start x₀)
      (recvInto ioringCqeFSockNonempty)) t := by
  obtain ⟨r, hcreate⟩ := fhXioCreate_succeeds (U := ℕ) 0
  obtain ⟨outs, t, hruns, hadm, hres, hposted, hcq⟩ := recvInto_runs r (.inr rfl)
  refine ⟨_, outs, t, hcreate, hadm, hruns, hres, fun htruth => ?_⟩
  obtain ⟨-, hmore, hexact, consumed, hinv, hlog⟩ :=
    (Machine.inv_start hcreate).runDeliveries (Machine.MoreKept.start _) hadm hruns
  have hfails := (flagsTruthful_iff hinv hmore hlog hexact).mp htruth
  rw [Machine.NonemptyFails, hposted, hcq] at hfails
  exact absurd (hfails _ (List.mem_singleton.mpr rfl) rfl rfl) (by decide)

end Freehttpd
