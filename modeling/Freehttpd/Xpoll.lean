/-
The generic `poll(2)` backend of `src/event/xpoll.c`.

The registry is three parallel allocations: `fd_table` maps a descriptor to its
position, and `pfd_list` and `fd_info_list` hold what is registered at that
position.  `poll` itself is an argument of `xpollWait`: the `revents` it fills
in, or its failure.  As in the hash table the outer `none` is a failed `assert`
or an access outside (or to an unwritten cell of) an allocation, and the
outcomes of the `realloc` calls are arguments.

The functions stand in the order of the source: `xpoll_create`, the cases
`XPOLL_CTL_ADD`, `XPOLL_CTL_MOD` and `XPOLL_CTL_DEL` of `xpoll_ctl_fd`, the four
calls built on it, and `xpoll_wait`.
-/
import Freehttpd.Block
import Freehttpd.Utils

namespace Freehttpd

/-- The values of `errno` that the backend sets itself. -/
inductive Errno
  | EEXIST
  | ENOENT
  | EINVAL
deriving DecidableEq, Repr

/-- `struct pollfd`. -/
structure Pollfd where
  fd : BitVec 32
  events : BitVec 16
  revents : BitVec 16
deriving DecidableEq, Repr

/-- `struct xpoll`; the element of `fd_info_list` is its only field, `udata`. -/
structure Xpoll (U : Type) where
  pfdCount : ℕ
  pfdCap : ℕ
  fdTableCap : ℕ
  pfdLastWaitIndex : ℕ
  fdTable : Block ℕ
  pfdList : Block Pollfd
  fdInfoList : Block (Option U)
deriving DecidableEq, Repr

variable {U : Type}

/-- `POLLNVAL`. -/
def pollNval : BitVec 16 := 0x20

/-- `XPOLL_ERROR`, which is `POLLERR`. -/
def xpollError : BitVec 32 := 0x8

/-- `XPOLL_EDGE`. -/
def xpollEdge : BitVec 32 := 1 <<< 30

/-- The value the `events` field of a `struct pollfd` gets: `events & ~XPOLL_EDGE`,
narrowed to `short`. -/
def pollEvents (events : BitVec 32) : BitVec 16 := (events &&& ~~~xpollEdge).setWidth 16

/-- `xpoll_create`; `none` is the `NULL` returned when its `calloc` fails. -/
def xpollCreate (calloc : Bool) : Option (Xpoll U) :=
  if calloc then
    some
      { pfdCount := 0
        pfdCap := 0
        fdTableCap := 0
        pfdLastWaitIndex := 0
        fdTable := Block.malloc 0
        pfdList := Block.malloc 0
        fdInfoList := Block.malloc 0 }
  else none

/-! ### `xpoll_ctl_fd` -/

/-- The outcomes of the `realloc` calls of one call of `xpoll_ctl_fd`. -/
structure CtlAlloc where
  fdTable : Bool
  pfdList : Bool
  fdInfoList : Bool
deriving DecidableEq, Repr

/-- What a call leaves behind: its return value, the value it gives `errno`, if
it sets it, and the registry. -/
structure CtlResult (U : Type) where
  ret : Bool
  errno : Option Errno
  xp : Xpoll U

/-- The new capacity of `fd_table` in `XPOLL_CTL_ADD`. -/
def newFdTableCap (fdTableCap : ℕ) (fd : BitVec 32) : ℕ :=
  if fdTableCap < 16 then 16
  else if fdTableCap < 1 <<< 16 then u32 (fdTableCap <<< 1)
  else u32 (fd.toNat + 1)

/-- `XPOLL_CTL_ADD` from `const uint32_t idx = xp->pfd_count++` on. -/
def addEntry (xp : Xpoll U) (fd : BitVec 32) (udata : Option U) (events : BitVec 32) :
    Option (CtlResult U) := do
  let idx := xp.pfdCount
  let pfdList ← xp.pfdList.write idx { fd := fd, events := pollEvents events, revents := 0 }
  let fdInfoList ← xp.fdInfoList.write idx udata
  let fdTable ← xp.fdTable.write fd.toNat idx
  some ⟨true, none,
    { xp with
      pfdCount := u32 (xp.pfdCount + 1)
      pfdList := pfdList
      fdInfoList := fdInfoList
      fdTable := fdTable }⟩

/-- `XPOLL_CTL_ADD` behind the growth of `fd_table`: room for one more position
is made, if it has to be. -/
def addGrowPfd (xp : Xpoll U) (fd : BitVec 32) (udata : Option U) (events : BitVec 32)
    (al : CtlAlloc) : Option (CtlResult U) :=
  if xp.pfdCount ≥ xp.pfdCap then
    let newCap := if xp.pfdCap < 16 then 16 else u32 (xp.pfdCap <<< 1)
    if al.pfdList then
      let xp := { xp with pfdList := xp.pfdList.realloc newCap }
      if al.fdInfoList then
        addEntry { xp with fdInfoList := xp.fdInfoList.realloc newCap, pfdCap := newCap }
          fd udata events
      else some ⟨false, none, xp⟩
    else some ⟨false, none, xp⟩
  else addEntry xp fd udata events

/-- The case `XPOLL_CTL_ADD` of `xpoll_ctl_fd`. -/
def xpollCtlAdd (xp : Xpoll U) (fd : BitVec 32) (udata : Option U) (events : BitVec 32)
    (al : CtlAlloc) : Option (CtlResult U) :=
  if fd.toNat ≥ xp.fdTableCap then
    let newCap := newFdTableCap xp.fdTableCap fd
    if al.fdTable then do
      let newFds ← (xp.fdTable.realloc newCap).fill xp.fdTableCap (newCap - xp.fdTableCap)
        uint32Max
      addGrowPfd { xp with fdTable := newFds, fdTableCap := newCap } fd udata events al
    else some ⟨false, none, xp⟩
  else do
    let idx ← xp.fdTable.read fd.toNat
    if idx ≠ uint32Max then some ⟨false, some .EEXIST, xp⟩
    else addGrowPfd xp fd udata events al

/-- The check at the head of `XPOLL_CTL_MOD` and `XPOLL_CTL_DEL`: the position of
`fd`, if it is registered. -/
def lookupFd (xp : Xpoll U) (fd : BitVec 32) : Option (Option ℕ) :=
  if xp.pfdCount = 0 ∨ fd.toNat ≥ xp.fdTableCap then some none
  else do
    let idx ← xp.fdTable.read fd.toNat
    if idx = uint32Max then some none else some (some idx)

/-- The case `XPOLL_CTL_MOD` of `xpoll_ctl_fd`. -/
def xpollCtlMod (xp : Xpoll U) (fd : BitVec 32) (udata : Option U) (events : BitVec 32) :
    Option (CtlResult U) := do
  match ← lookupFd xp fd with
  | none => some ⟨false, some .ENOENT, xp⟩
  | some idx => do
    let pfdList ← xp.pfdList.modify idx fun p => { p with events := pollEvents events }
    let fdInfoList ← xp.fdInfoList.write idx udata
    some ⟨true, none, { xp with pfdList := pfdList, fdInfoList := fdInfoList }⟩

/-- The copy of the last position into the hole of `XPOLL_CTL_DEL`. -/
def moveLast (xp : Xpoll U) (idx : ℕ) : Option (Xpoll U) :=
  if xp.pfdCount > 1 then do
    let p ← xp.pfdList.read (xp.pfdCount - 1)
    let pfdList ← xp.pfdList.write idx p
    let udata ← xp.fdInfoList.read (xp.pfdCount - 1)
    let fdInfoList ← xp.fdInfoList.write idx udata
    some { xp with pfdList := pfdList, fdInfoList := fdInfoList }
  else some xp

/-- The shrinking at the end of `XPOLL_CTL_DEL`. -/
def shrinkPfd (xp : Xpoll U) (al : CtlAlloc) : Xpoll U :=
  if xp.pfdCap > 16 ∧ xp.pfdCount < xp.pfdCap >>> 2 then
    let newCap := xp.pfdCap >>> 2
    { xp with
      pfdList := if al.pfdList then xp.pfdList.realloc newCap else xp.pfdList
      fdInfoList := if al.fdInfoList then xp.fdInfoList.realloc newCap else xp.fdInfoList
      pfdCap := if al.pfdList || al.fdInfoList then newCap else xp.pfdCap }
  else xp

/-- The case `XPOLL_CTL_DEL` of `xpoll_ctl_fd`. -/
def xpollCtlDel (xp : Xpoll U) (fd : BitVec 32) (al : CtlAlloc) : Option (CtlResult U) := do
  match ← lookupFd xp fd with
  | none => some ⟨false, some .ENOENT, xp⟩
  | some idx => do
    let fdTable ← xp.fdTable.write fd.toNat uint32Max
    let xp ← moveLast { xp with fdTable := fdTable } idx
    some ⟨true, none, shrinkPfd { xp with pfdCount := xp.pfdCount - 1 } al⟩

/-! ### The calls -/

/-- `xpoll_add_fd`. -/
def xpollAddFd (xp : Xpoll U) (fd : BitVec 32) (udata : Option U) (events : BitVec 32)
    (al : CtlAlloc) : Option (CtlResult U) :=
  if 0 ≤ fd.toInt then xpollCtlAdd xp fd udata events al else none

/-- `xpoll_modify_fd`. -/
def xpollModifyFd (xp : Xpoll U) (fd : BitVec 32) (udata : Option U) (events : BitVec 32) :
    Option (CtlResult U) :=
  xpollCtlMod xp fd udata events

/-- `xpoll_add_or_modify_fd`.  A failed modification leaves its `errno` behind. -/
def xpollAddOrModifyFd (xp : Xpoll U) (fd : BitVec 32) (udata : Option U)
    (events : BitVec 32) (al : CtlAlloc) : Option (CtlResult U) := do
  let r ← xpollCtlMod xp fd udata events
  if r.ret then some r
  else do
    let r' ← xpollCtlAdd r.xp fd udata events al
    some { r' with errno := r'.errno.or r.errno }

/-- `xpoll_remove_fd`. -/
def xpollRemoveFd (xp : Xpoll U) (fd : BitVec 32) (al : CtlAlloc) : Option (CtlResult U) :=
  xpollCtlDel xp fd al

/-! ### `xpoll_wait` -/

/-- `xpoll_event_t`. -/
structure XpollEvent (U : Type) where
  events : BitVec 32
  fd : BitVec 32
  udata : Option U
deriving DecidableEq, Repr

/-- The event reported for an entry: the `short` of `poll` widened with its sign,
and `POLLNVAL` turned into `XPOLL_ERROR`. -/
def waitEvent (p : Pollfd) (udata : Option U) : XpollEvent U :=
  let events := p.revents.signExtend 32
  { events :=
      if p.revents &&& pollNval ≠ 0 then
        (events &&& ~~~(pollNval.signExtend 32)) ||| xpollError
      else events
    fd := p.fd
    udata := udata }

/-- The variables of the loop of `xpoll_wait`; `count` is the length of `out`. -/
structure WaitLoop (U : Type) where
  i : ℕ
  limit : ℕ
  rotated : Bool
  out : List (XpollEvent U)

/-- The body of the loop's first `if`: entry `i` is reported if it is ready. -/
def reportEntry (fdInfoList : Block (Option U)) (i : ℕ) (p : Pollfd)
    (out : List (XpollEvent U)) : Option (List (XpollEvent U)) :=
  if p.revents ≠ 0 then do
    let udata ← fdInfoList.read i
    some (out ++ [waitEvent p udata])
  else some out

/-- The loop of `xpoll_wait`, which reads the two lists; `none` if it is still
running after `fuel` rounds. -/
def waitLoop (pfdList : Block Pollfd) (fdInfoList : Block (Option U))
    (pfdCount start maxEvents : ℕ) : ℕ → WaitLoop U → Option (WaitLoop U)
  | 0, _ => none
  | fuel + 1, w =>
    if w.i < w.limit ∧ w.out.length < maxEvents then do
      let p ← pfdList.read w.i
      let out ← reportEntry fdInfoList w.i p w.out
      waitLoop pfdList fdInfoList pfdCount start maxEvents fuel
        (if w.i + 1 ≥ pfdCount ∧ w.rotated = false ∧ start ≠ 0 then
          { i := 0, limit := start, rotated := true, out := out }
        else { w with i := w.i + 1, out := out })
    else some w

/-- What `poll` does: it fails, or sets the `revents` of every entry. -/
inductive PollOutcome
  | error
  | ready (revents : ℕ → BitVec 16)

/-- The effect of `poll` on `pfd_list`. -/
def pollRevents (pfdList : Block Pollfd) (pfdCount : ℕ) (revents : ℕ → BitVec 16) :
    Block Pollfd :=
  ⟨pfdList.cells.mapIdx fun i cell =>
    if i < pfdCount then cell.map fun p => { p with revents := revents i } else cell⟩

/-- What `xpoll_wait` leaves behind; `events` is `events_out[0 .. ret)`. -/
structure WaitResult (U : Type) where
  ret : ℤ
  errno : Option Errno
  events : List (XpollEvent U)
  xp : Xpoll U

/-- `xpoll_wait`.  One round per entry and a last test of the condition are
enough for its loop. -/
def xpollWait (xp : Xpoll U) (poll : PollOutcome) (maxEvents : ℤ) : Option (WaitResult U) :=
  if 0 ≤ maxEvents then
    if maxEvents = 0 then some ⟨-1, some .EINVAL, [], xp⟩
    else match poll with
      | .error => some ⟨-1, none, [], xp⟩
      | .ready revents =>
        let xp := { xp with pfdList := pollRevents xp.pfdList xp.pfdCount revents }
        if xp.pfdCount = 0 then some ⟨0, none, [], xp⟩
        else do
          let start := xp.pfdLastWaitIndex % xp.pfdCount
          let w ← waitLoop xp.pfdList xp.fdInfoList xp.pfdCount start maxEvents.toNat
            (xp.pfdCount + 1) { i := start, limit := xp.pfdCount, rotated := false, out := [] }
          some ⟨w.out.length, none, w.out,
            { xp with pfdLastWaitIndex := if w.i ≥ xp.pfdCount then 0 else u32 w.i }⟩
  else none

end Freehttpd
