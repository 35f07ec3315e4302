/-
The kqueue backend of `src/event/xpoll.c`.

What the kernel keeps for the queue is the state: the filters installed for every
descriptor.  `EV_ADD` installs or updates one of them, if the kernel can, and
`EV_DELETE` removes it, or fails if it is not there; whether an `EV_ADD` succeeds is
an argument, for each filter.  `short filter` and `xpoll_event_type_t` are words of 16
and 32 bits, so that the constants of the platform (`EVFILT_READ` is -1 and
`EVFILT_WRITE` is -2) are what the compiler makes of them.  `event_list`, which
`kevent` fills and `xpoll_wait` reads, is an argument of `xpollWait`.
-/
import Freehttpd.Utils
import Freehttpd.Xpoll
import Mathlib.Logic.Function.Basic

namespace Freehttpd.Kqueue

/-! ### `sys/event.h` -/

/-- `EVFILT_READ`. -/
def evfiltRead : BitVec 16 := -1

/-- `EVFILT_WRITE`. -/
def evfiltWrite : BitVec 16 := -2

/-- `EV_ADD`. -/
def evAdd : BitVec 16 := 0x1

/-- `EV_DELETE`. -/
def evDelete : BitVec 16 := 0x2

/-- `EV_CLEAR`. -/
def evClear : BitVec 16 := 0x20

/-- `EV_ERROR`. -/
def evError : BitVec 16 := 0x4000

/-- `EV_EOF`. -/
def evEof : BitVec 16 := 0x8000

/-- `struct kevent`. -/
structure Kevent (U : Type) where
  ident : BitVec 32
  filter : BitVec 16
  flags : BitVec 16
  udata : Option U
deriving DecidableEq, Repr

/-- A filter that is installed. -/
structure Knote (U : Type) where
  clear : Bool
  udata : Option U
deriving DecidableEq, Repr

/-- A queue: what is installed, by descriptor and filter. -/
abbrev Kq (U : Type) : Type := BitVec 32 → BitVec 16 → Option (Knote U)

variable {U : Type}

/-- The queue of `xpoll_create`. -/
def Kq.empty : Kq U := fun _ _ => none

/-- Install or remove a filter. -/
def Kq.set (kq : Kq U) (fd : BitVec 32) (filter : BitVec 16) (note : Option (Knote U)) : Kq U :=
  Function.update kq fd (Function.update (kq fd) filter note)

/-- `kevent` with a list of one change: whether it succeeds, and the queue; `ok` says
whether the kernel can add the filter. -/
def kevent (kq : Kq U) (ok : BitVec 16 → Bool) (ev : Kevent U) : Bool × Kq U :=
  if ev.flags &&& evDelete ≠ 0 then
    if (kq ev.ident ev.filter).isSome then (true, kq.set ev.ident ev.filter none)
    else (false, kq)
  else if ok ev.filter then
    (true, kq.set ev.ident ev.filter (some ⟨ev.flags &&& evClear ≠ 0, ev.udata⟩))
  else (false, kq)

/-! ### `enum xpoll_event_type` -/

/-- `XPOLL_READ`. -/
def xpollRead : BitVec 32 := evfiltRead.signExtend 32

/-- `XPOLL_WRITE`. -/
def xpollWrite : BitVec 32 := evfiltWrite.signExtend 32

/-- `XPOLL_ERROR`. -/
def xpollError : BitVec 32 := 1 <<< 2

/-- `XPOLL_HANGUP`. -/
def xpollHangup : BitVec 32 := 1 <<< 3

/-- `XPOLL_READ_HANGUP`. -/
def xpollReadHangup : BitVec 32 := 1 <<< 4

/-- `XPOLL_EDGE`. -/
def xpollEdge : BitVec 32 := 1 <<< 5

/-- `XPOLL_EXCLUSIVE`. -/
def xpollExclusive : BitVec 32 := 1 <<< 6

/-- `XPOLL_MAX_EVENTS`. -/
def xpollMaxEvents : ℤ := 1024

/-! ### `xpoll_ctl_fd` -/

/-- What a call leaves behind: its return value, the value it gives `errno` itself, if
it does, and the queue. -/
structure CtlResult (U : Type) where
  ret : Bool
  errno : Option Errno
  kq : Kq U

/-- The variables of `xpoll_ctl_fd`. -/
structure CtlState (U : Type) where
  ret : Bool
  count : ℕ
  kq : Kq U

/-- The registration of one filter in `xpoll_ctl_fd`; `none` if it fails and the call
has to return. -/
def ctlFilter (ok : BitVec 16 → Bool) (ev : Kevent U) (retOnPartialFailure : Bool)
    (w : CtlState U) : Option (CtlState U) :=
  match kevent w.kq ok ev with
  | (true, kq) => some ⟨true, w.count + 1, kq⟩
  | (false, kq) => if retOnPartialFailure then none else some ⟨w.ret, w.count + 1, kq⟩

/-- `xpoll_ctl_fd`. -/
def xpollCtlFd (kq : Kq U) (ok : BitVec 16 → Bool) (fd : BitVec 32) (udata : Option U)
    (opBsd : BitVec 16) (events : BitVec 32) (retOnPartialFailure : Bool) : CtlResult U :=
  let mask := if events &&& xpollEdge = xpollEdge then evClear else 0
  let read : Kevent U := ⟨fd, evfiltRead, opBsd ||| mask, udata⟩
  let write : Kevent U := ⟨fd, evfiltWrite, opBsd ||| mask, udata⟩
  let w : CtlState U := ⟨false, 0, kq⟩
  match if events &&& xpollRead ≠ 0 then ctlFilter ok read retOnPartialFailure w else some w with
  | none => ⟨false, none, w.kq⟩
  | some w =>
    match if events &&& xpollWrite ≠ 0 then ctlFilter ok write retOnPartialFailure w
      else some w with
    | none =>
      if opBsd = evAdd ∧ events &&& xpollRead ≠ 0 then
        ⟨false, none, (kevent w.kq ok { read with flags := evDelete }).2⟩
      else ⟨false, none, w.kq⟩
    | some w => if w.count = 0 then ⟨false, some .EINVAL, w.kq⟩ else ⟨w.ret, none, w.kq⟩

/-! ### The calls -/

/-- `xpoll_add_fd`. -/
def xpollAddFd (kq : Kq U) (ok : BitVec 16 → Bool) (fd : BitVec 32) (udata : Option U)
    (events : BitVec 32) : Option (CtlResult U) :=
  if 0 ≤ fd.toInt then some (xpollCtlFd kq ok fd udata evAdd events true) else none

/-- `xpoll_modify_fd`. -/
def xpollModifyFd (kq : Kq U) (ok : BitVec 16 → Bool) (fd : BitVec 32) (udata : Option U)
    (events : BitVec 32) : CtlResult U :=
  let mask := (if events &&& xpollRead ≠ 0 then 0 else xpollRead)
    ||| (if events &&& xpollWrite ≠ 0 then 0 else xpollWrite)
  let kq := if mask ≠ 0 then (xpollCtlFd kq ok fd none evDelete mask false).kq else kq
  xpollCtlFd kq ok fd udata evAdd events true

/-- `xpoll_remove_fd`. -/
def xpollRemoveFd (kq : Kq U) (ok : BitVec 16 → Bool) (fd : BitVec 32) : CtlResult U :=
  xpollCtlFd kq ok fd none evDelete (xpollRead ||| xpollWrite) false

/-- `xpoll_add_or_modify_fd`, which has no assert on the descriptor. -/
def xpollAddOrModifyFd (kq : Kq U) (ok : BitVec 16 → Bool) (fd : BitVec 32) (udata : Option U)
    (events : BitVec 32) : CtlResult U :=
  xpollCtlFd kq ok fd udata evAdd events true

/-! ### `xpoll_wait` -/

/-- The event reported for an entry of `event_list`; the `fd` of `out` is not
written. -/
def waitEvent (ev : Kevent U) (out : XpollEvent U) : XpollEvent U :=
  let events := ev.filter.signExtend 32
  let events := if ev.flags &&& evError ≠ 0 then events ||| xpollError else events
  let events := if ev.flags &&& evEof ≠ 0 then events ||| xpollHangup else events
  { out with udata := ev.udata, events := events }

/-- What `xpoll_wait` leaves behind; `events` is `events_out[0 .. ret)`. -/
structure WaitResult (U : Type) where
  ret : ℤ
  errno : Option Errno
  events : List (XpollEvent U)
deriving DecidableEq, Repr

/-- `xpoll_wait`; `eventList` is what `kevent` returns, if it does not fail, and
`eventsOut` the array of the caller. -/
def xpollWait (eventList : Option (List (Kevent U))) (eventsOut : ℕ → XpollEvent U)
    (maxEvents : ℤ) : Option (WaitResult U) :=
  if 0 ≤ maxEvents then
    if maxEvents = 0 then some ⟨-1, some .EINVAL, []⟩
    else
      let maxEvents := if maxEvents > xpollMaxEvents then xpollMaxEvents else maxEvents
      match eventList with
      | none => some ⟨-1, none, []⟩
      | some list =>
        if maxEvents ≥ list.length then
          some ⟨list.length, none, list.mapIdx fun i ev => waitEvent ev (eventsOut i)⟩
        else none
  else none

end Freehttpd.Kqueue
