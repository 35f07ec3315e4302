/-
The io_uring backend and the kernel as one machine.

A step is a request, a completion that the kernel posts, a wait, or results that are
given back.  Beside the state of the backend the machine records, from what the
calls return and from what the ring publishes,

* `requests` — the requests whose last completion was not consumed, by record;
* `posted` — every completion posted so far, with its request;
* `writes`, `harvested` — for every buffer, the completions posted with it and the
  results returned with it since it was last put on the ring;
* `held` — the results returned and not given back.

`Admissible` is what is asked of `malloc` and of the kernel about requests, and
`Contract` what is asked about buffers.
-/
import Freehttpd.Runs
import Freehttpd.UringBuffers
import Freehttpd.UringData

namespace Freehttpd.Uring

open Runs

variable {U : Type}

/-- A completion with a buffer, as the kernel sees it. -/
structure Write where
  opdata : XioOpData
  res : ℤ
  more : Bool
deriving DecidableEq, Repr

/-- The backend, with what was done so far. -/
structure Machine (U : Type) where
  xio : Xio U
  requests : ℕ → Option (XioRequest U)
  posted : List (IoUringCqe × Option (XioRequest U))
  writes : ℕ → List Write
  harvested : ℕ → List (XioResult U)
  held : List (XioResult U)

/-- The machine when `fh_xio_create` has returned: all buffers are on the ring. -/
def Machine.start (x : Xio U) : Machine U :=
  { xio := x
    requests := fun _ => none
    posted := []
    writes := fun _ => []
    harvested := fun _ => []
    held := [] }

/-- A step of the machine; `rc` of a wait is what the submission and the wait
return. -/
inductive UringOp (U : Type)
  | request (env : RequestEnv) (udata : Option U) (opdata : XioOpData) (offset : ℕ)
  | post (cqe : IoUringCqe)
  | wait (maxResults : ℕ) (rc : ℤ)
  | free (result : XioResult U)
  | freeAll (results : List (XioResult U))

/-- What a step returns. -/
inductive UringRet (U : Type)
  | requested (rc : ℤ)
  | posted
  | waited (ret : Except ℤ (List (XioResult U)))
  | freed

/-- The request function for the operation of `opdata`; `offset` only matters to
files. -/
def fhXioRequest (env : RequestEnv) (x : Xio U) (udata : Option U) (opdata : XioOpData)
    (offset : ℕ) : Option ((ℤ × Option IoUringSqe) × Xio U) :=
  match opdata with
  | .read fd buf size => fhXioRequestRead env x udata fd buf size offset
  | .write fd buf size => fhXioRequestWrite env x udata fd buf size offset
  | .recv fd buf size flags => fhXioRequestRecv env x udata fd buf size flags
  | .send fd buf size flags => fhXioRequestSend env x udata fd buf size flags
  | .accept fd addr addrLen flags => fhXioRequestAccept env x udata fd addr addrLen flags

/-- The request that a completion is about. -/
def requestOf (requests : ℕ → Option (XioRequest U)) (cqe : IoUringCqe) :
    Option (XioRequest U) :=
  match cqe.userData with
  | .data a => requests a
  | _ => none

/-- The requests left when `cqe` is consumed. -/
def finish (requests : ℕ → Option (XioRequest U)) (cqe : IoUringCqe) :
    ℕ → Option (XioRequest U) :=
  match cqe.userData with
  | .data a => if hasFlag cqe.flags ioringCqeFMore then requests else Function.update requests a none
  | _ => requests

/-- The buffers put on the ring between two states of the pool. -/
def putBack (b b' : BufPool) : List ℕ :=
  (b.bufRing.published b'.bufRing b.bufMask).filterMap fun e => e.map IoUringBuf.bid

/-- A request was made: `sqe` tells the kernel about it. -/
def Machine.afterRequest (s : Machine U) (udata : Option U) (sqe : Option IoUringSqe)
    (x : Xio U) : Machine U :=
  { s with
    xio := x
    requests := match sqe with
      | some ⟨opdata, _, .data a, _⟩ => Function.update s.requests a (some ⟨udata, opdata⟩)
      | _ => s.requests }

/-- The kernel posts a completion. -/
def Machine.afterPost (s : Machine U) (cqe : IoUringCqe) : Machine U :=
  { s with
    xio := { s.xio with cq := s.xio.cq ++ [cqe] }
    posted := s.posted ++ [(cqe, requestOf s.requests cqe)]
    writes := match requestOf s.requests cqe with
      | some r =>
        if hasFlag cqe.flags ioringCqeFBuffer then
          Function.update s.writes (flagsBid cqe.flags) (s.writes (flagsBid cqe.flags)
            ++ [⟨r.opdata, cqe.res, hasFlag cqe.flags ioringCqeFBufMore⟩])
        else s.writes
      | none => s.writes }

/-- A wait returned `results` and left the backend in state `x`. -/
def Machine.afterWait (s : Machine U) (results : List (XioResult U)) (x : Xio U) : Machine U :=
  { s with
    xio := x
    requests := (s.xio.cq.take (s.xio.cq.length - x.cq.length)).foldl finish s.requests
    harvested := fun bid => s.harvested bid ++ results.filter (refersTo bid)
    held := s.held ++ results }

/-- The results `rs` were given back, which left the pool in state `b`. -/
def Machine.afterFree [DecidableEq U] (s : Machine U) (rs : List (XioResult U)) (b : BufPool) :
    Machine U :=
  { s with
    xio := { s.xio with bufs := b }
    writes := fun bid => if bid ∈ putBack s.xio.bufs b then [] else s.writes bid
    harvested := fun bid => if bid ∈ putBack s.xio.bufs b then [] else s.harvested bid
    held := s.held.diff rs }

/-- The results in what a wait returns. -/
def resultsOf (ret : Except ℤ (List (XioResult U))) : List (XioResult U) :=
  match ret with
  | .ok results => results
  | .error _ => []

/-- One step, with the asserts compiled in. -/
def uringStep [DecidableEq U] (s : Machine U) : UringOp U → Option (UringRet U × Machine U)
  | .request env udata opdata offset => do
    let ((rc, sqe), x) ← fhXioRequest env s.xio udata opdata offset
    some (.requested rc, s.afterRequest udata sqe x)
  | .post cqe => some (.posted, s.afterPost cqe)
  | .wait maxResults rc => do
    let (ret, x) ← fhXioWait s.xio maxResults rc
    some (.waited ret, s.afterWait (resultsOf ret) x)
  | .free result => do
    let b ← fhXioResultFree false s.xio.bufs result
    some (.freed, s.afterFree [result] b)
  | .freeAll results => do
    let b ← fhXioResultsFree false s.xio.bufs results
    some (.freed, s.afterFree results b)

section Inversion

variable [DecidableEq U] {s s' : Machine U} {ret : UringRet U}

/-- A wait that returns. -/
theorem uringStep_wait_eq_some {maxResults : ℕ} {rc : ℤ}
    (h : uringStep s (.wait maxResults rc) = some (ret, s')) :
    ∃ w x, fhXioWait s.xio maxResults rc = some (w, x) ∧ ret = .waited w ∧
      s' = s.afterWait (resultsOf w) x := by
  rw [uringStep, Option.bind_eq_bind, Option.bind_eq_some_iff] at h
  obtain ⟨⟨w, x⟩, hwait, h⟩ := h
  obtain ⟨rfl, rfl⟩ := Prod.mk.inj (Option.some.inj h)
  exact ⟨w, x, hwait, rfl, rfl⟩

/-- A result that is given back. -/
theorem uringStep_free_eq_some {result : XioResult U}
    (h : uringStep s (.free result) = some (ret, s')) :
    ∃ b, fhXioResultFree false s.xio.bufs result = some b ∧ ret = .freed ∧
      s' = s.afterFree [result] b := by
  rw [uringStep, Option.bind_eq_bind, Option.bind_eq_some_iff] at h
  obtain ⟨b, hb, h⟩ := h
  obtain ⟨rfl, rfl⟩ := Prod.mk.inj (Option.some.inj h)
  exact ⟨b, hb, rfl, rfl⟩

/-- Results that are given back together. -/
theorem uringStep_freeAll_eq_some {results : List (XioResult U)}
    (h : uringStep s (.freeAll results) = some (ret, s')) :
    ∃ b, fhXioResultsFree false s.xio.bufs results = some b ∧ ret = .freed ∧
      s' = s.afterFree results b := by
  rw [uringStep, Option.bind_eq_bind, Option.bind_eq_some_iff] at h
  obtain ⟨b, hb, h⟩ := h
  obtain ⟨rfl, rfl⟩ := Prod.mk.inj (Option.some.inj h)
  exact ⟨b, hb, rfl, rfl⟩

end Inversion

/-- The kernel posts completions of requests whose last completion it has not posted,
and a buffer it names is one of the pool. -/
def PostOk (requests : ℕ → Option (XioRequest U)) (cq : List IoUringCqe) (cqe : IoUringCqe) :
    Prop :=
  ∀ a, cqe.userData = .data a →
    (∃ r, requests a = some r) ∧
    (∀ c ∈ cq, c.userData = .data a → hasFlag c.flags ioringCqeFMore = true) ∧
    (hasFlag cqe.flags ioringCqeFBuffer = true → flagsBid cqe.flags < xioRingBufCount)

/-- `malloc` answers a free address, and the kernel keeps to the requests. -/
def Admissible (s : Machine U) : UringOp U → Prop
  | .request env _ _ _ => ∀ a, env.malloc = some a → s.xio.records.heap a = none
  | .post cqe => PostOk s.requests s.xio.cq cqe
  | _ => True

/-- The kernel posts completions with a buffer only for requests, and none behind one
that says that no other will follow.  Every result is given back at most once, and
fewer than `2 ^ 31` results of one buffer are held. -/
def Contract [DecidableEq U] (s : Machine U) : UringOp U → Prop
  | .request .. => True
  | .post cqe => hasFlag cqe.flags ioringCqeFBuffer = true →
      (∃ a, cqe.userData = .data a) ∧ ∀ w ∈ s.writes (flagsBid cqe.flags), w.more = true
  | .wait maxResults rc => ∀ ret x, fhXioWait s.xio maxResults rc = some (ret, x) →
      ∀ bid, refs (s.held ++ resultsOf ret) bid < 2 ^ 31
  | .free result => result ∈ s.held
  | .freeAll results => results.Subperm s.held

end Freehttpd.Uring
