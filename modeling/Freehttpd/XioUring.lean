/-
The io_uring backend of `src/event/xio_uring.c`.

`struct fh_xio` is taken apart into the provided buffers and the request records.
What it shares with the kernel is modelled by `cq`, the completions that are posted
and not consumed, and by `bufRing`, the ring of provided buffers; a request hands
the kernel an `IoUringSqe`.  Request records live in `heap`, by address: `malloc`
may answer any address that is free, freeing takes the record out, and an access to
a record that is not there is `none`, as is an access outside an array or a failed
assert (`ndebug` says whether the asserts were compiled out).
-/
import Freehttpd.TailRing
import Freehttpd.Utils
import Freehttpd.XioInterface
import Mathlib.Logic.Function.Basic

namespace Freehttpd.Uring

/-- `XIO_RING_ENTRIES`. -/
def xioRingEntries : ℕ := 512

/-- `XIO_RING_BUF_COUNT`. -/
def xioRingBufCount : ℕ := 1024

/-- `XIO_RING_BUF_SIZE`. -/
def xioRingBufSize : ℕ := 4096

/-- `XIO_RING_BUF_BGID_DEFAULT`. -/
def xioRingBufBgidDefault : ℕ := 1

/-- `XIO_RING_BUF_FLAG_DONE`. -/
def xioRingBufFlagDone : ℕ := 2 ^ 31

/-- `XIO_MAX_DATA_FREELIST_COUNT`. -/
def xioMaxDataFreelistCount : ℕ := 2048

/-- `EINTR`. -/
def eIntr : ℤ := 4

/-- `EAGAIN`. -/
def eAgain : ℤ := 11

/-- `ENOMEM`. -/
def eNoMem : ℤ := 12

/-- `ETIME`. -/
def eTime : ℤ := 62

/-! ### liburing -/

/-- `IORING_CQE_F_BUFFER`. -/
def ioringCqeFBuffer : ℕ := 1

/-- `IORING_CQE_F_MORE`. -/
def ioringCqeFMore : ℕ := 2

/-- `IORING_CQE_F_BUF_MORE`. -/
def ioringCqeFBufMore : ℕ := 16

/-- `IORING_CQE_BUFFER_SHIFT`. -/
def ioringCqeBufferShift : ℕ := 16

/-- The `user_data` of an entry: `NULL`, the `xio` itself or a request record. -/
inductive UserData
  | null
  | xio
  | data (node : ℕ)
deriving DecidableEq, Repr

/-- `struct io_uring_cqe`. -/
structure IoUringCqe where
  userData : UserData
  res : ℤ
  flags : ℕ
deriving DecidableEq, Repr

/-- A flag bit of a completion or of a result is set. -/
def hasFlag (flags bit : ℕ) : Bool := flags &&& bit ≠ 0

/-- The buffer id in the flags of a completion or of a result. -/
def flagsBid (flags : ℕ) : ℕ := flags >>> ioringCqeBufferShift

/-- `struct io_uring_buf`. -/
structure IoUringBuf where
  addr : ℕ
  len : ℕ
  bid : ℕ
deriving DecidableEq, Repr

/-! ### Data -/

/-- The union in `struct fh_xio_data`, together with the `op` that tells which of
its members is meant. -/
inductive XioOpData
  | read (fd : BitVec 32) (buf : Option ℕ) (size : ℕ)
  | write (fd : BitVec 32) (buf : Option ℕ) (size : ℕ)
  | recv (fd : BitVec 32) (buf : Option ℕ) (size : ℕ) (flags : BitVec 32)
  | send (fd : BitVec 32) (buf : Option ℕ) (size : ℕ) (flags : BitVec 32)
  | accept (fd : BitVec 32) (addr addrLen : Option ℕ) (flags : BitVec 32)
deriving DecidableEq, Repr

/-- `op`. -/
def XioOpData.op : XioOpData → XioOp
  | .read .. => .read
  | .write .. => .write
  | .recv .. => .recv
  | .send .. => .send
  | .accept .. => .accept

/-- What a request function stores in its record. -/
structure XioRequest (U : Type) where
  udata : Option U
  opdata : XioOpData
deriving DecidableEq, Repr

/-- `struct fh_xio_data`; `malloc` leaves `request` unwritten. -/
structure XioData (U : Type) where
  next : Option ℕ
  prev : Option ℕ
  request : Option (XioRequest U)
deriving DecidableEq, Repr

/-- `struct io_uring_sqe`: the operation and the arguments that `io_uring_prep_*`
was called with (of a length, the kernel gets the low 32 bits), and the fields set
afterwards.  `bufGroup` is the group if `IOSQE_BUFFER_SELECT` is set. -/
structure IoUringSqe where
  opdata : XioOpData
  offset : ℕ
  userData : UserData
  bufGroup : Option ℕ
deriving DecidableEq, Repr

/-- `data_head`, `data_tail` and `data_count`, with the memory of the records. -/
structure DataPool (U : Type) where
  dataHead : Option ℕ
  dataTail : Option ℕ
  dataCount : ℕ
  heap : ℕ → Option (XioData U)

/-- `buf_ring`, `buf`, `buf_mask`, `buf_offsets` and `buf_refcount`. -/
structure BufPool where
  bufRing : TailRing IoUringBuf
  buf : ℕ
  bufMask : ℕ
  bufOffsets : Block ℕ
  bufRefcount : Block ℕ
deriving DecidableEq, Repr

/-- `struct fh_xio`. -/
structure Xio (U : Type) where
  cq : List IoUringCqe
  bufs : BufPool
  records : DataPool U

variable {U : Type}

/-- Assignments to fields of a request record. -/
def DataPool.modify (p : DataPool U) (data : ℕ) (f : XioData U → XioData U) :
    Option (DataPool U) :=
  (p.heap data).map fun d => { p with heap := Function.update p.heap data (some (f d)) }

/-- `free`, of a request record. -/
def DataPool.free (p : DataPool U) (data : ℕ) : Option (DataPool U) :=
  (p.heap data).map fun _ => { p with heap := Function.update p.heap data none }

/-! ### Creation -/

/-- `fh_xio_ring_get_buffer`. -/
def fhXioRingGetBuffer (buf bid : ℕ) : ℕ := buf + xioRingBufSize * bid

/-- The entry of buffer `bid` in the ring. -/
def bufEntry (buf bid : ℕ) : IoUringBuf :=
  { addr := fhXioRingGetBuffer buf bid
    len := xioRingBufSize
    bid := bid }

/-- The loop of `fh_xio_create` that fills a new ring, with the mask
`io_uring_buf_ring_mask` gives. -/
def initBufRing (buf : ℕ) : Option (TailRing IoUringBuf) := do
  let r ← (List.range xioRingBufCount).foldlM
    (fun (r : TailRing IoUringBuf) i => r.add (bufEntry buf i) (xioRingBufCount - 1) i)
    { slots := Block.malloc xioRingBufCount, tail := 0 }
  some (r.advance xioRingBufCount)

/-- `fh_xio_create`, with the outcomes of its calls: of `calloc`, of setting up the
queues (with or without memory of its own) and the buffer ring, and of
`posix_memalign`.  The inner `none` is `NULL`. -/
def fhXioCreate (calloc queueInit setupBufRing : Bool) (memalign : Option ℕ) :
    Option (Option (Xio U)) :=
  if calloc && queueInit && setupBufRing then
    match memalign with
    | none => some none
    | some buf => do
      let bufRing ← initBufRing buf
      some (some
        { cq := []
          bufs :=
            { bufRing := bufRing
              buf := buf
              bufMask := xioRingBufCount - 1
              bufOffsets := Block.calloc xioRingBufCount 0
              bufRefcount := Block.calloc xioRingBufCount 0 }
          records :=
            { dataHead := none
              dataTail := none
              dataCount := 0
              heap := fun _ => none } })
  else some none

/-! ### Request records -/

/-- `fh_xio_data_alloc`, with what `malloc` answers. -/
def fhXioDataAlloc (malloc : Option ℕ) (p : DataPool U) : Option ℕ × DataPool U :=
  match malloc with
  | none => (none, p)
  | some data =>
    (some data, { p with
      heap := Function.update p.heap data (some { next := none, prev := none, request := none }) })

/-- `fh_xio_data_disown`. -/
def fhXioDataDisown (p : DataPool U) (data : ℕ) : Option (DataPool U) :=
  if p.dataCount ≥ xioMaxDataFreelistCount then p.free data
  else do
    let p ← p.modify data fun d => { d with next := none, prev := p.dataTail }
    let p ← match p.dataTail with
      | some tail => p.modify tail fun d => { d with next := some data }
      | none => some { p with dataHead := some data }
    some { p with dataTail := some data, dataCount := u64 (p.dataCount + 1) }

/-- `fh_xio_data_get`; the inner `none` is `NULL`. -/
def fhXioDataGet (malloc : Option ℕ) (p : DataPool U) : Option (Option ℕ × DataPool U) :=
  if p.dataCount = 0 then some (fhXioDataAlloc malloc p)
  else do
    let data ← p.dataTail
    let d ← p.heap data
    let p := { p with dataTail := d.prev }
    let p ← match p.dataTail with
      | some tail => p.modify tail fun d => { d with next := none }
      | none => some { p with dataHead := none }
    let p ← { p with dataCount := p.dataCount - 1 }.modify data fun d =>
      { d with next := none, prev := none }
    some (some data, p)

/-- `fh_xio_data_populate`: the size, and the pointer in place of `outBufPtr`. -/
def fhXioDataPopulate (opdata : XioOpData) (cqe : IoUringCqe) (outBufPtr : Option ℕ) :
    ℕ × Option ℕ :=
  let dflSize := if cqe.res < 0 then 0 else cqe.res.toNat
  match opdata with
  | .read _ buf size => (if cqe.res < 0 then 0 else size, buf.or outBufPtr)
  | .write _ buf size => (if cqe.res < 0 then 0 else size, buf.or outBufPtr)
  | .recv _ buf size _ => (min size dflSize, buf.or outBufPtr)
  | .send _ buf size _ => (min size dflSize, buf.or outBufPtr)
  | .accept .. => (dflSize, outBufPtr)

/-! ### Requests -/

/-- What the calls of a request answer: `malloc`, if a record has to be allocated,
and the two tries to get a submission entry. -/
structure RequestEnv where
  malloc : Option ℕ
  sqe : Bool
  sqeAfterSubmit : Bool
deriving DecidableEq, Repr

/-- `fh_xio_ring_get_sqe`: whether there is an entry. -/
def fhXioRingGetSqe (sqe sqeAfterSubmit : Bool) : Bool := sqe || sqeAfterSubmit

/-- `fh_xio_request_prep_common`: an error number or the record of the request. -/
def fhXioRequestPrepCommon (env : RequestEnv) (p : DataPool U) :
    Option (Except ℤ ℕ × DataPool U) := do
  match ← fhXioDataGet env.malloc p with
  | (none, p) => some (.error (-eNoMem), p)
  | (some data, p) =>
    if fhXioRingGetSqe env.sqe env.sqeAfterSubmit then some (.ok data, p)
    else do
      let p ← fhXioDataDisown p data
      some (.error (-eAgain), p)

/-- `fh_xio_request_setup_sqe_common`. -/
def fhXioRequestSetupSqeCommon (sqe : IoUringSqe) (buf : Option ℕ) : IoUringSqe :=
  if buf = none then { sqe with bufGroup := some xioRingBufBgidDefault } else sqe

/-- What the request functions have in common: the record is filled in, and so is
the submission entry, which is part of the result. -/
def requestWith (env : RequestEnv) (x : Xio U) (udata : Option U) (opdata : XioOpData)
    (sqe : IoUringSqe → IoUringSqe) : Option ((ℤ × Option IoUringSqe) × Xio U) := do
  match ← fhXioRequestPrepCommon env x.records with
  | (.error rc, p) => some ((rc, none), { x with records := p })
  | (.ok data, p) =>
    let p ← p.modify data fun d => { d with request := some ⟨udata, opdata⟩ }
    some ((0, some (sqe
      { opdata := opdata
        offset := 0
        userData := .data data
        bufGroup := none })), { x with records := p })

/-- `fh_xio_request_read`. -/
def fhXioRequestRead (env : RequestEnv) (x : Xio U) (udata : Option U) (fd : BitVec 32)
    (buf : Option ℕ) (size offset : ℕ) :=
  requestWith env x udata (.read fd buf size) fun sqe =>
    fhXioRequestSetupSqeCommon { sqe with offset := offset } buf

/-- `fh_xio_request_write`. -/
def fhXioRequestWrite (env : RequestEnv) (x : Xio U) (udata : Option U) (fd : BitVec 32)
    (buf : Option ℕ) (size offset : ℕ) :=
  requestWith env x udata (.write fd buf size) fun sqe =>
    fhXioRequestSetupSqeCommon { sqe with offset := offset } buf

/-- `fh_xio_request_recv`. -/
def fhXioRequestRecv (env : RequestEnv) (x : Xio U) (udata : Option U) (fd : BitVec 32)
    (buf : Option ℕ) (size : ℕ) (flags : BitVec 32) :=
  requestWith env x udata (.recv fd buf size flags) fun sqe =>
    fhXioRequestSetupSqeCommon sqe buf

/-- `fh_xio_request_send`. -/
def fhXioRequestSend (env : RequestEnv) (x : Xio U) (udata : Option U) (fd : BitVec 32)
    (buf : Option ℕ) (size : ℕ) (flags : BitVec 32) :=
  requestWith env x udata (.send fd buf size flags) fun sqe =>
    fhXioRequestSetupSqeCommon sqe buf

/-- `fh_xio_request_accept`, which never selects a buffer. -/
def fhXioRequestAccept (env : RequestEnv) (x : Xio U) (udata : Option U) (fd : BitVec 32)
    (addr addrLen : Option ℕ) (flags : BitVec 32) :=
  requestWith env x udata (.accept fd addr addrLen flags) id

/-! ### Waiting -/

/-- `fh_xio_ring_get_buffer_off`. -/
def fhXioRingGetBufferOff (b : BufPool) (bid : ℕ) : Option ℕ :=
  (b.bufOffsets.read bid).map fun off => fhXioRingGetBuffer b.buf bid + off

/-- The part of the loop of `fh_xio_wait` that accounts for a completion with a
buffer. -/
def accountBuffer (b : BufPool) (flags size : ℕ) : Option BufPool := do
  let bid := flagsBid flags
  let refcount ← b.bufRefcount.read bid
  let refcount := u32 (refcount + 1)
  let refcount := if hasFlag flags ioringCqeFBufMore then refcount
    else refcount ||| xioRingBufFlagDone
  let bufRefcount ← b.bufRefcount.write bid refcount
  let off ← b.bufOffsets.read bid
  let off := if u64 (off + size) ≥ xioRingBufSize then xioRingBufSize
    else u32 (u64 (off + size))
  let bufOffsets ← b.bufOffsets.write bid off
  some { b with bufOffsets := bufOffsets, bufRefcount := bufRefcount }

/-- The body of the loop of `fh_xio_wait`, for a completion of the request with
record `data`. -/
def waitEntry (x : Xio U) (data : ℕ) (cqe : IoUringCqe) : Option (XioResult U × Xio U) := do
  let d ← x.records.heap data
  let request ← d.request
  let buf ← if hasFlag cqe.flags ioringCqeFBuffer then
      (fhXioRingGetBufferOff x.bufs (flagsBid cqe.flags)).map some
    else some none
  let (size, buf) := fhXioDataPopulate request.opdata cqe buf
  let b ← if hasFlag cqe.flags ioringCqeFBuffer then accountBuffer x.bufs cqe.flags size
    else some x.bufs
  let p ← if hasFlag cqe.flags ioringCqeFMore then some x.records
    else fhXioDataDisown x.records data
  some
    ({ op := some request.opdata.op
       flags := cqe.flags
       res := cqe.res
       buf := buf
       udata := request.udata }, { x with bufs := b, records := p })

/-- The variables of `fh_xio_wait`. -/
structure WaitState (U : Type) where
  xio : Xio U
  results : List (XioResult U)
  countAdvance : ℕ

/-- `io_uring_for_each_cqe` in `fh_xio_wait`, over the completions left. -/
def fhXioWaitLoop (maxResults : ℕ) : List IoUringCqe → WaitState U → Option (WaitState U)
  | [], w => some w
  | cqe :: cqes, w =>
    if w.results.length ≥ maxResults then some w
    else match cqe.userData with
      | .null | .xio => fhXioWaitLoop maxResults cqes
          { w with countAdvance := w.countAdvance + 1 }
      | .data data => do
        let (result, x) ← waitEntry w.xio data cqe
        fhXioWaitLoop maxResults cqes
          { xio := x
            results := w.results ++ [result]
            countAdvance := w.countAdvance + 1 }

/-- `fh_xio_wait`, where `rc` is what the submission and the wait return.  The
result is `errno` or what was written to `results`. -/
def fhXioWait (x : Xio U) (maxResults : ℕ) (rc : ℤ) :
    Option (Except ℤ (List (XioResult U)) × Xio U) :=
  let maxResults := min maxResults (xioRingEntries * 4)
  if rc < 0 ∧ rc ≠ -eTime ∧ x.cq = [] then some (.error (-rc), x)
  else do
    let w ← fhXioWaitLoop maxResults x.cq { xio := x, results := [], countAdvance := 0 }
    some (.ok w.results, { w.xio with cq := w.xio.cq.drop w.countAdvance })

/-! ### Giving results back -/

/-- `fh_xio_result_free_internal`. -/
def fhXioResultFreeInternal (ndebug : Bool) (b : BufPool) (result : XioResult U)
    (ringBufOffset : ℕ) : Option (Bool × BufPool) :=
  let bid := flagsBid result.flags
  if hasFlag result.flags ioringCqeFBuffer = false then some (false, b)
  else do
    let refcount ← b.bufRefcount.read bid
    cAssert ndebug (refcount &&& (uint32Max - xioRingBufFlagDone) > 0)
    let refcount := u32 (refcount + (2 ^ 32 - 1))
    if refcount ≠ xioRingBufFlagDone then do
      let bufRefcount ← b.bufRefcount.write bid refcount
      some (false, { b with bufRefcount := bufRefcount })
    else do
      let bufOffsets ← b.bufOffsets.write bid 0
      let bufRefcount ← b.bufRefcount.write bid 0
      let bufRing ← b.bufRing.add (bufEntry b.buf bid) b.bufMask ringBufOffset
      some (true, { b with
        bufOffsets := bufOffsets
        bufRefcount := bufRefcount
        bufRing := bufRing })

/-- `fh_xio_result_free`. -/
def fhXioResultFree (ndebug : Bool) (b : BufPool) (result : XioResult U) : Option BufPool := do
  let (restored, b) ← fhXioResultFreeInternal ndebug b result 0
  some (if restored then { b with bufRing := b.bufRing.advance 1 } else b)

/-- The loop of `fh_xio_results_free`. -/
def fhXioResultsFreeLoop (ndebug : Bool) : List (XioResult U) → BufPool → ℕ →
    Option (BufPool × ℕ)
  | [], b, advanceCount => some (b, advanceCount)
  | result :: results, b, advanceCount => do
    let (restored, b) ← fhXioResultFreeInternal ndebug b result advanceCount
    fhXioResultsFreeLoop ndebug results b (if restored then advanceCount + 1 else advanceCount)

/-- `fh_xio_results_free`. -/
def fhXioResultsFree (ndebug : Bool) (b : BufPool) (results : List (XioResult U)) :
    Option BufPool := do
  let (b, advanceCount) ← fhXioResultsFreeLoop ndebug results b 0
  some { b with bufRing := b.bufRing.advance advanceCount }

/-! ### Teardown -/

/-- The loop over the completions in `fh_xio_drain`; the flag is `done`. -/
def drainEntries : List IoUringCqe → Bool → DataPool U → Option (Bool × DataPool U)
  | [], done, p => some (done, p)
  | cqe :: cqes, done, p =>
    match cqe.userData with
    | .xio => drainEntries cqes true p
    | .null => drainEntries cqes done p
    | .data data =>
      if hasFlag cqe.flags ioringCqeFMore then drainEntries cqes done p
      else do
        let p ← p.free data
        drainEntries cqes done p

/-- The rounds of the outer loop of `fh_xio_drain`: what the submission and the wait
return, and the completions that are posted in the meantime.  The inner `none` says
that the loop goes on when the rounds are used up. -/
def drainRounds : List (ℤ × List IoUringCqe) → Xio U → Option (Option Bool × Xio U)
  | [], x => some (none, x)
  | (rc, cqes) :: rounds, x =>
    let x := { x with cq := x.cq ++ cqes }
    if rc < 0 then
      if rc = -eIntr then drainRounds rounds x else some (some false, x)
    else do
      let (done, p) ← drainEntries x.cq false x.records
      let x := { x with cq := [], records := p }
      if done then some (some true, x) else drainRounds rounds x

/-- What the calls of `fh_xio_drain` answer. -/
structure DrainEnv where
  cancelSqe : Bool × Bool
  nopSqe : Bool × Bool
  rounds : List (ℤ × List IoUringCqe)

/-- `fh_xio_drain`; the inner `none` says that it has not returned. -/
def fhXioDrain (env : DrainEnv) (x : Xio U) : Option (Option Bool × Xio U) :=
  if fhXioRingGetSqe env.cancelSqe.1 env.cancelSqe.2 = false then some (some false, x)
  else if fhXioRingGetSqe env.nopSqe.1 env.nopSqe.2 = false then some (some false, x)
  else drainRounds env.rounds x

/-- The loop of `fh_xio_free` over the free list, for at most `fuel` records. -/
def freeLoop : ℕ → DataPool U → Option (DataPool U)
  | 0, p => if p.dataHead = none then some p else none
  | fuel + 1, p =>
    match p.dataHead with
    | none => some p
    | some data => do
      let d ← p.heap data
      let p ← { p with dataHead := d.next }.free data
      freeLoop fuel p

/-- `fh_xio_free`: whether the drain succeeded, and the records that are left.  The
inner `none` says that the drain has not returned. -/
def fhXioFree (env : DrainEnv) (x : Xio U) : Option (Option (Bool × DataPool U)) := do
  match ← fhXioDrain env x with
  | (none, _) => some none
  | (some drained, x) =>
    let p ← freeLoop (x.records.dataCount + 1) x.records
    some (some (drained, p))

end Freehttpd.Uring
