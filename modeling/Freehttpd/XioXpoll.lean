/-
The xpoll backend of `src/event/xio_xpoll.c`.

Pointers into the arrays of `struct fh_xio` are indices, `none` being `NULL`.
The struct is taken apart into its three pools, each with its free list.  `xp`
is the set of registrations that the kernel holds.  `xpoll_add_fd` and
`xpoll_modify_fd` fail on a negative descriptor; on any other they may succeed or
fail, which is an argument of the call: what they answer for a descriptor that is
registered, or is not, depends on the platform.  `ndebug` says whether the asserts
were compiled out; otherwise a failed one is the outer `none`, as is an access
outside (or to an unwritten cell of) an array.
-/
import Freehttpd.Assoc
import Freehttpd.Block
import Freehttpd.IntHtable
import Freehttpd.XioInterface

namespace Freehttpd

/-- `ENOMEM`. -/
def eNoMem : ℕ := 12

/-- `ENOBUFS`. -/
def eNoBufs : ℕ := 105

/-- `ENOTRECOVERABLE`. -/
def eNotRecoverable : ℕ := 131

/-- `fh_xio_errno`. -/
def fhXioErrno (errno : ℕ) : ℕ := if errno ≠ 0 then errno else eNotRecoverable

/-! ### The event bits of `xpoll.h` on Linux -/

namespace Epoll

/-- `XPOLL_READ`. -/
def xpollRead : BitVec 32 := 0x1

/-- `XPOLL_WRITE`. -/
def xpollWrite : BitVec 32 := 0x4

/-- `XPOLL_ERROR`. -/
def xpollError : BitVec 32 := 0x8

/-- `XPOLL_HANGUP`. -/
def xpollHangup : BitVec 32 := 0x10

/-- `XPOLL_READ_HANGUP`. -/
def xpollReadHangup : BitVec 32 := 0x2000

/-- `XPOLL_EDGE`. -/
def xpollEdge : BitVec 32 := 0x80000000

end Epoll

/-! ### Data -/

/-- `XIO_XPOLL_MAX_EVENTS`. -/
def xioXpollMaxEvents : ℕ := 2048

/-- `XIO_XPOLL_MAX_TASK_COUNT`. -/
def xioXpollMaxTaskCount : ℕ := 2048

/-- `XIO_BUF_SIZE`. -/
def xioBufSize : ℕ := 4096

/-- `XIO_BUF_COUNT`. -/
def xioBufCount : ℕ := 2048

/-- `struct xio_slice`. -/
structure XioSlice where
  buf : ℕ
  off : ℕ
  bid : ℕ
  refs : ℕ
deriving DecidableEq, Repr

/-- `buf_list`, `free_buf_list` and `free_buf_list_top`. -/
structure SlicePool where
  bufList : Block XioSlice
  freeBufList : Block ℕ
  freeBufListTop : ℕ
deriving DecidableEq, Repr

/-- The `recv` member of the union in `struct xio_task`. -/
structure XioRecvData where
  fd : BitVec 32
  buf : Option ℕ
  size : ℕ
  flags : BitVec 32
deriving DecidableEq, Repr

/-- `struct xio_task`. -/
structure XioTask (U : Type) where
  op : Option XioOp
  flags : ℕ
  idx : ℕ
  bid : ℕ
  udata : Option U
  recv : XioRecvData
  next : Option ℕ
deriving DecidableEq, Repr

/-- `task_list`, `free_task_list` and `free_task_list_top`. -/
structure TaskPool (U : Type) where
  taskList : Block (XioTask U)
  freeTaskList : Block ℕ
  freeTaskListTop : ℕ
deriving DecidableEq, Repr

/-- `struct xio_fd_state`. -/
structure XioFdState where
  fd : BitVec 32
  events : BitVec 32
  taskInHead : Option ℕ
  taskOutHead : Option ℕ
  idx : ℕ
deriving DecidableEq, Repr

/-- `fd_state_list`, `free_fd_state_list` and `free_fd_state_list_top`. -/
structure FdStatePool where
  fdStateList : Block XioFdState
  freeFdStateList : Block ℕ
  freeFdStateListTop : ℕ
deriving DecidableEq, Repr

/-- What is registered with `xp`: descriptors with their events and their
`udata`, which is a pointer to a fd state. -/
abbrev Registrations := List (BitVec 32 × BitVec 32 × ℕ)

/-- `struct fh_xio`. -/
structure Xio (U : Type) where
  xp : Registrations
  fdStateTable : Htable IntKey ℕ
  slices : SlicePool
  tasks : TaskPool U
  fdStates : FdStatePool
deriving DecidableEq, Repr

variable {U : Type}

/-- `task->next`. -/
def taskNext (tasks : TaskPool U) (task : ℕ) : Option (Option ℕ) :=
  (tasks.taskList.read task).map XioTask.next

/-! ### Pools -/

/-- `fh_xio_acquire_task`; the inner `none` is `NULL` with `errno` `ENOMEM`. -/
def fhXioAcquireTask (p : TaskPool U) : Option (Option (ℕ × TaskPool U)) :=
  if p.freeTaskListTop = 0 then some none
  else do
    let task ← p.freeTaskList.read (p.freeTaskListTop - 1)
    some (some (task, { p with freeTaskListTop := p.freeTaskListTop - 1 }))

/-- `fh_xio_release_task`. -/
def fhXioReleaseTask (ndebug : Bool) (p : TaskPool U) (task : ℕ) : Option (TaskPool U) := do
  cAssert ndebug (p.freeTaskListTop < xioXpollMaxTaskCount)
  let t ← p.taskList.read task
  let freeTaskList ← p.freeTaskList.write p.freeTaskListTop t.idx
  some { p with
    freeTaskList := freeTaskList
    freeTaskListTop := u16 (p.freeTaskListTop + 1) }

/-- `fh_xio_acquire_fd_state`; the inner `none` is `NULL` with `errno`
`ENOMEM`. -/
def fhXioAcquireFdState (p : FdStatePool) : Option (Option (ℕ × FdStatePool)) :=
  if p.freeFdStateListTop = 0 then some none
  else do
    let state ← p.freeFdStateList.read (p.freeFdStateListTop - 1)
    some (some (state, { p with freeFdStateListTop := p.freeFdStateListTop - 1 }))

/-- `fh_xio_release_fd_state`. -/
def fhXioReleaseFdState (ndebug : Bool) (p : FdStatePool) (state : ℕ) :
    Option FdStatePool := do
  cAssert ndebug (p.freeFdStateListTop < xioXpollMaxTaskCount)
  let st ← p.fdStateList.read state
  let freeFdStateList ← p.freeFdStateList.write p.freeFdStateListTop st.idx
  some { p with
    freeFdStateList := freeFdStateList
    freeFdStateListTop := u16 (p.freeFdStateListTop + 1) }

/-- The part of the loop of `fh_xio_acquire_slice` that takes slice `idx`, found
at `pos` of the free list. -/
def takeSlice (p : SlicePool) (size pos idx : ℕ) (slice : XioSlice) : Option SlicePool := do
  let off := u32 (slice.off + size)
  let bufList ← p.bufList.write idx { slice with off := off, refs := u16 (slice.refs + 1) }
  if off = xioBufSize then do
    let last ← p.freeBufList.read (p.freeBufListTop - 1)
    let freeBufList ← p.freeBufList.write pos last
    some
      { bufList := bufList
        freeBufList := freeBufList
        freeBufListTop := p.freeBufListTop - 1 }
  else some { p with bufList := bufList }

/-- The loop of `fh_xio_acquire_slice`, with the `n` lowest entries of the free
list left to try; the inner `none` is `NULL`. -/
def acquireLoop (p : SlicePool) (size : ℕ) : ℕ → Option (Option (ℕ × SlicePool))
  | 0 => some none
  | n + 1 => do
    let idx ← p.freeBufList.read n
    let slice ← p.bufList.read idx
    if u64 (slice.off + size) > xioBufSize then acquireLoop p size n
    else do
      let p ← takeSlice p size n idx slice
      some (some (idx, p))

/-- `fh_xio_acquire_slice`; the inner `none` is `NULL` with `errno` `ENOBUFS`. -/
def fhXioAcquireSlice (ndebug : Bool) (p : SlicePool) (size : ℕ) :
    Option (Option (ℕ × SlicePool)) := do
  cAssert ndebug (size ≤ xioBufSize)
  acquireLoop p size p.freeBufListTop

/-- `fh_xio_release_slice`. -/
def fhXioReleaseSlice (ndebug : Bool) (p : SlicePool) (slice : ℕ) : Option SlicePool := do
  cAssert ndebug (p.freeBufListTop < xioBufCount)
  let s ← p.bufList.read slice
  cAssert ndebug (s.refs > 0)
  let refs := u16 (s.refs + (2 ^ 16 - 1))
  if refs ≠ 0 then do
    let bufList ← p.bufList.write slice { s with refs := refs }
    some { p with bufList := bufList }
  else do
    let bufList ← p.bufList.write slice { s with refs := refs, off := 0 }
    let freeBufList ← p.freeBufList.write p.freeBufListTop s.bid
    some
      { bufList := bufList
        freeBufList := freeBufList
        freeBufListTop := u16 (p.freeBufListTop + 1) }

/-! ### Creation -/

/-- The slices as `fh_xio_slices_alloc` sets them up, in the memory at `mem`. -/
def initSlices (mem : ℕ) : SlicePool :=
  { bufList := Block.tabulate xioBufCount fun i =>
      { buf := mem + i * xioBufSize, off := 0, bid := i, refs := 0 }
    freeBufList := Block.tabulate xioBufCount id
    freeBufListTop := xioBufCount }

/-- The tasks as `fh_xio_slices_alloc` sets them up, in zeroed memory. -/
def initTasks : TaskPool U :=
  { taskList := Block.tabulate xioXpollMaxTaskCount fun i =>
      { op := none, flags := 0, idx := i, bid := 0, udata := none
        recv := { fd := 0, buf := none, size := 0, flags := 0 }
        next := none }
    freeTaskList := Block.tabulate xioXpollMaxTaskCount id
    freeTaskListTop := xioXpollMaxTaskCount }

/-- The fd states as `fh_xio_slices_alloc` sets them up, in zeroed memory. -/
def initFdStates : FdStatePool :=
  { fdStateList := Block.tabulate xioXpollMaxTaskCount fun i =>
      { fd := 0, events := 0, taskInHead := none, taskOutHead := none, idx := i }
    freeFdStateList := Block.tabulate xioXpollMaxTaskCount id
    freeFdStateListTop := xioXpollMaxTaskCount }

/-- `fh_xio_create`, with the outcomes of its allocations: of the struct, of `xp`,
of the hash table and of the mapping, which gives the address of the buffers.
The inner `none` is `NULL`. -/
def fhXioCreate (calloc xpoll : Bool) (table : CreateAlloc) (mmap : Option ℕ) :
    Option (Option (Xio U)) :=
  if calloc && xpoll then do
    match ← htableCreate table 16 with
    | none => some none
    | some fdStateTable =>
      match mmap with
      | none => some none
      | some mem =>
        some (some
          { xp := []
            fdStateTable := fdStateTable
            slices := initSlices mem
            tasks := initTasks
            fdStates := initFdStates })
  else some none

/-! ### Requests -/

/-- `xpoll_add_fd`, whose return value is `ret` unless `fd` is negative. -/
def xpAddFd (ret : Bool) (xp : Registrations) (fd : BitVec 32) (udata : ℕ)
    (events : BitVec 32) : Bool × Registrations :=
  if ret = true ∧ fd.msb = false then (true, Assoc.set xp fd (events, udata)) else (false, xp)

/-- `xpoll_modify_fd`, whose return value is `ret` unless `fd` is negative. -/
def xpModifyFd (ret : Bool) (xp : Registrations) (fd : BitVec 32) (udata : ℕ)
    (events : BitVec 32) : Bool × Registrations :=
  if ret = true ∧ fd.msb = false then (true, Assoc.set xp fd (events, udata)) else (false, xp)

/-- `(uint64_t) fd`, as a key. -/
def fdKey (fd : BitVec 32) : IntKey := ⟨UInt64.ofBitVec (fd.signExtend 64)⟩

/-- `enum xio_request_prep_type`. -/
inductive XioPrepType
  | prepIn
  | prepOut
deriving DecidableEq, Repr

/-- The events of a preparation type. -/
def XioPrepType.events : XioPrepType → BitVec 32
  | prepIn => Epoll.xpollRead
  | prepOut => Epoll.xpollWrite

/-- What the surroundings of a request decide: the return value of the call to
`xpoll`, `errno` behind it, and the outcomes of the allocations in
`int_htable_set` and `int_htable_delete`. -/
structure PrepEnv where
  errno : ℕ
  xpollRet : Bool
  htCalloc : Bool
  htMalloc : Bool
  htShrink : Bool
  htGrow : Bool
deriving DecidableEq, Repr

/-- What `fh_xio_request_prep_with_size` leaves behind: the task and the slice,
or `none` for two `NULL`s, and `errno`. -/
structure PrepResult (U : Type) where
  prep : Option (ℕ × Option ℕ)
  errno : ℕ
  xio : Xio U

/-- The release of the task and of the slice on the error paths. -/
def prepRelease (ndebug : Bool) (xio : Xio U) (task : ℕ) (slice : Option ℕ) :
    Option (Xio U) := do
  let tasks ← fhXioReleaseTask ndebug xio.tasks task
  match slice with
  | none => some { xio with tasks := tasks }
  | some slice => do
    let slices ← fhXioReleaseSlice ndebug xio.slices slice
    some { xio with tasks := tasks, slices := slices }

/-- The last `switch`: the task becomes the head of its queue. -/
def prepQueue (xio : Xio U) (prepType : XioPrepType) (task state : ℕ) : Option (Xio U) := do
  let st ← xio.fdStates.fdStateList.read state
  match prepType with
  | .prepIn => do
    let taskList ← xio.tasks.taskList.modify task fun t => { t with next := st.taskInHead }
    let fdStateList ← xio.fdStates.fdStateList.write state { st with taskInHead := some task }
    some { xio with
      tasks := { xio.tasks with taskList := taskList }
      fdStates := { xio.fdStates with fdStateList := fdStateList } }
  | .prepOut => do
    let taskList ← xio.tasks.taskList.modify task fun t => { t with next := st.taskOutHead }
    let fdStateList ← xio.fdStates.fdStateList.write state { st with taskOutHead := some task }
    some { xio with
      tasks := { xio.tasks with taskList := taskList }
      fdStates := { xio.fdStates with fdStateList := fdStateList } }

/-- The removal of a fd state that this call created, with `errno`: an entry that is
found and not deleted is one whose `realloc` failed in `int_htable_delete`. -/
def prepUncreate (ndebug : Bool) (env : PrepEnv) (xio : Xio U) (fd : BitVec 32) (state : ℕ) :
    Option (ℕ × Xio U) := do
  let found ← htableFind xio.fdStateTable (fdKey fd)
  let r ← htableDeleteWithFlag xio.fdStateTable (fdKey fd) env.htGrow
  let errno := if found.isSome && !r.flag then eNoMem else env.errno
  let fdStates ← fhXioReleaseFdState ndebug xio.fdStates state
  some (errno, { xio with fdStateTable := r.table, fdStates := fdStates })

/-- `fh_xio_request_prep_with_size` from the check of `state->events` on.  As in
the source the `true` of the call to `xpoll` leads to the error path. -/
def prepRegister (ndebug : Bool) (env : PrepEnv) (xio : Xio U) (prepType : XioPrepType)
    (fd : BitVec 32) (task : ℕ) (slice : Option ℕ) (state : ℕ) (created : Bool) :
    Option (PrepResult U) := do
  let st ← xio.fdStates.fdStateList.read state
  if st.events &&& prepType.events ≠ prepType.events then
    let (rc, xp) :=
      if created then xpAddFd env.xpollRet xio.xp fd state (st.events ||| prepType.events)
      else xpModifyFd env.xpollRet xio.xp fd state (st.events ||| prepType.events)
    let xio := { xio with xp := xp }
    if rc then do
      match created with
      | true => do
        let (errno, xio) ← prepUncreate ndebug env xio fd state
        let xio ← prepRelease ndebug xio task slice
        some ⟨none, errno, xio⟩
      | false => do
        let xio ← prepRelease ndebug xio task slice
        some ⟨none, env.errno, xio⟩
    else do
      let fdStateList ← xio.fdStates.fdStateList.write state
        { st with events := st.events ||| prepType.events }
      let xio ← prepQueue { xio with fdStates := { xio.fdStates with fdStateList := fdStateList } }
        prepType task state
      some ⟨some (task, slice), env.errno, xio⟩
  else do
    let xio ← prepQueue xio prepType task state
    some ⟨some (task, slice), env.errno, xio⟩

/-- The set-up of a fresh fd state, and its insertion into the table.  The
insertion stands in an `assert`, and is compiled out with it. -/
def prepCreate (ndebug : Bool) (env : PrepEnv) (xio : Xio U) (fd : BitVec 32) (state : ℕ) :
    Option (Xio U) := do
  let fdStateList ← xio.fdStates.fdStateList.modify state fun st =>
    { st with
      events := Epoll.xpollEdge ||| Epoll.xpollReadHangup ||| Epoll.xpollHangup
      fd := fd
      taskInHead := none
      taskOutHead := none }
  let xio := { xio with fdStates := { xio.fdStates with fdStateList := fdStateList } }
  if ndebug then some xio
  else do
    let r ← htableSetWithFlag xio.fdStateTable (fdKey fd) (some state)
      (intSetAlloc env.htCalloc env.htMalloc env.htShrink (fdKey fd)) false
    cAssert false (r.ret = true)
    some { xio with fdStateTable := r.table }

/-- `fh_xio_request_prep_with_size` from the lookup of the fd state on. -/
def prepFdState (ndebug : Bool) (env : PrepEnv) (xio : Xio U) (prepType : XioPrepType)
    (fd : BitVec 32) (task : ℕ) (slice : Option ℕ) : Option (PrepResult U) := do
  match ← htableGet xio.fdStateTable (fdKey fd) with
  | some state => prepRegister ndebug env xio prepType fd task slice state false
  | none => do
    match ← fhXioAcquireFdState xio.fdStates with
    | none => do
      let xio ← prepRelease ndebug xio task slice
      some ⟨none, eNoMem, xio⟩
    | some (state, fdStates) => do
      let xio ← prepCreate ndebug env { xio with fdStates := fdStates } fd state
      prepRegister ndebug env xio prepType fd task slice state true

/-- The fields of the acquired task that `fh_xio_request_prep_with_size` sets
before it looks for the fd state. -/
def prepTask (xio : Xio U) (op : XioOp) (udata : Option U) (task flags : ℕ)
    (bid : Option ℕ) : Option (Xio U) := do
  let taskList ← xio.tasks.taskList.modify task fun t =>
    { t with op := some op, udata := udata, flags := flags, bid := bid.getD t.bid }
  some { xio with tasks := { xio.tasks with taskList := taskList } }

/-- `fh_xio_request_prep_with_size`. -/
def fhXioRequestPrepWithSize (ndebug : Bool) (env : PrepEnv) (xio : Xio U) (op : XioOp)
    (prepType : XioPrepType) (fd : BitVec 32) (udata : Option U) (buf : Option ℕ)
    (size : ℕ) : Option (PrepResult U) := do
  cAssert ndebug (buf.isSome = true ∨ size ≤ xioBufSize)
  match ← fhXioAcquireTask xio.tasks with
  | none => some ⟨none, eNoMem, xio⟩
  | some (task, tasks) => do
    let xio := { xio with tasks := tasks }
    match buf with
    | some _ => do
      let xio ← prepTask xio op udata task 0 none
      prepFdState ndebug env xio prepType fd task none
    | none => do
      match ← fhXioAcquireSlice ndebug xio.slices size with
      | none => do
        let xio ← prepRelease ndebug xio task none
        some ⟨none, eNoBufs, xio⟩
      | some (slice, slices) => do
        let s ← slices.bufList.read slice
        let xio ← prepTask { xio with slices := slices } op udata task xioTaskFBuffer (some s.bid)
        prepFdState ndebug env xio prepType fd task (some slice)

/-- `fh_xio_request_prep_slice_get_buffer`. -/
def fhXioRequestPrepSliceGetBuffer (ndebug : Bool) (s : XioSlice) (allocSize : ℕ) :
    Option ℕ := do
  cAssert ndebug (allocSize ≤ 2 ^ 16 - 1)
  cAssert ndebug (s.off ≥ u32 allocSize)
  some (s.buf + s.off - u16 allocSize)

/-- The `recv.buf` of the task: the caller's buffer, or the end of the slice. -/
def recvBuf (ndebug : Bool) (xio : Xio U) (buf : Option ℕ) (slice : Option ℕ) (size : ℕ) :
    Option ℕ :=
  match buf with
  | some buf => some buf
  | none => do
    let s ← xio.slices.bufList.read (← slice)
    fhXioRequestPrepSliceGetBuffer ndebug s size

/-- `fh_xio_request_recv`, with its return value. -/
def fhXioRequestRecv (ndebug : Bool) (env : PrepEnv) (xio : Xio U) (udata : Option U)
    (fd : BitVec 32) (buf : Option ℕ) (size : ℕ) (flags : BitVec 32) :
    Option (ℤ × Xio U) := do
  let r ← fhXioRequestPrepWithSize ndebug env xio .recv .prepIn fd udata buf size
  match r.prep with
  | none => some (-(fhXioErrno r.errno : ℤ), r.xio)
  | some (task, slice) => do
    let recvBuf ← recvBuf ndebug r.xio buf slice size
    let taskList ← r.xio.tasks.taskList.modify task fun t =>
      { t with recv := { fd := fd, buf := some recvBuf, size := size, flags := flags } }
    some (0, { r.xio with tasks := { r.xio.tasks with taskList := taskList } })

/-! ### Completion -/

/-- The state of the loops of `fh_xio_wait`. -/
structure XioWait (U : Type) where
  tasks : TaskPool U
  results : List (XioResult U)

/-- The drain of one queue from `head` on, with room for `room` more results: the
new head, and whether the room sufficed. -/
def drainQueue (ndebug : Bool) : ℕ → Option ℕ → XioWait U →
    Option (Option ℕ × Bool × XioWait U)
  | _, none, w => some (none, true, w)
  | 0, some task, w => do
    let _ ← w.tasks.taskList.read task
    some (some task, false, w)
  | room + 1, some task, w => do
    let t ← w.tasks.taskList.read task
    let tasks ← fhXioReleaseTask ndebug w.tasks task
    drainQueue ndebug room t.next
      { tasks := tasks
        results := w.results ++
          [{ op := t.op, flags := xioTaskFInternalError, res := -1, buf := none
             udata := t.udata }] }

/-- The body of the loop of `fh_xio_wait` for an event of fd state `state`; the
flag says whether the loop goes on. -/
def waitEventBody (ndebug : Bool) (maxResults : ℕ) (mask : BitVec 32) (state : ℕ)
    (fdStateList : Block XioFdState) (w : XioWait U) :
    Option (Bool × Block XioFdState × XioWait U) :=
  if mask &&& Epoll.xpollError ≠ 0 then do
    let st ← fdStateList.read state
    let (headIn, more, w) ← drainQueue ndebug (maxResults - w.results.length) st.taskInHead w
    let fdStateList ← fdStateList.write state { st with taskInHead := headIn }
    if more then do
      let (headOut, more, w) ←
        drainQueue ndebug (maxResults - w.results.length) st.taskOutHead w
      let fdStateList ← fdStateList.write state
        { st with taskInHead := headIn, taskOutHead := headOut }
      some (more, fdStateList, w)
    else some (false, fdStateList, w)
  else some (true, fdStateList, w)

/-- The loop of `fh_xio_wait` over the events of `xpoll_wait`, each given by its
mask and by the fd state its `udata` points to. -/
def fhXioWaitLoop (ndebug : Bool) (maxResults : ℕ) :
    List (BitVec 32 × ℕ) → Block XioFdState → XioWait U →
      Option (Block XioFdState × XioWait U)
  | [], fdStateList, w => some (fdStateList, w)
  | (mask, state) :: events, fdStateList, w => do
    let (more, fdStateList, w) ← waitEventBody ndebug maxResults mask state fdStateList w
    if more then fhXioWaitLoop ndebug maxResults events fdStateList w
    else some (fdStateList, w)

/-- `fh_xio_wait`; `events` is what `xpoll_wait` reports, `none` its failure. -/
def fhXioWait (ndebug : Bool) (xio : Xio U) (maxResults : ℕ)
    (events : Option (List (BitVec 32 × ℕ))) : Option (ℤ × List (XioResult U) × Xio U) :=
  match events with
  | none => some (-1, [], xio)
  | some events => do
    let (fdStateList, w) ← fhXioWaitLoop ndebug (min maxResults xioXpollMaxEvents) events
      xio.fdStates.fdStateList { tasks := xio.tasks, results := [] }
    some (w.results.length, w.results,
      { xio with
        tasks := w.tasks
        fdStates := { xio.fdStates with fdStateList := fdStateList } })

end Freehttpd
