/-
The interface of `src/event/xio.h`, which both backends implement.

Pointers are natural numbers, `none` being `NULL`, and `U` is what the `udata` of
the caller points to.
-/
import Mathlib.Data.Int.Notation
import Mathlib.Data.List.Basic
import Mathlib.Tactic.Common

namespace Freehttpd

/-- `enum fh_xio_op`. -/
inductive XioOp
  | read
  | write
  | recv
  | send
  | accept
deriving DecidableEq, Repr

/-- `XIO_TASK_F_BUFFER`. -/
def xioTaskFBuffer : ℕ := 0x1

/-- `XIO_TASK_F_MORE`. -/
def xioTaskFMore : ℕ := 0x2

/-- `XIO_TASK_F_INTERNAL_ERROR`. -/
def xioTaskFInternalError : ℕ := 0x4

/-- `struct fh_xio_result`. -/
structure XioResult (U : Type) where
  op : Option XioOp
  flags : ℕ
  res : ℤ
  buf : Option ℕ
  udata : Option U
deriving DecidableEq, Repr

/-- What the caller knows a request by: its operation and its `udata`. -/
abbrev Ticket (U : Type) := Option XioOp × Option U

/-- The ticket of the request that a result answers. -/
def XioResult.ticket {U : Type} (r : XioResult U) : Ticket U := (r.op, r.udata)

/-- The flags of a result mean what `enum xio_task_flag` says: it is a failure, it holds
a reference to a buffer of the pool, and another result of its request follows. -/
structure XioResult.FlagsMean {U : Type} (r : XioResult U) (holds follows : Prop) : Prop where
  internalError : r.flags &&& xioTaskFInternalError ≠ 0 → r.res < 0
  buffer : r.flags &&& xioTaskFBuffer ≠ 0 ↔ holds
  more : r.flags &&& xioTaskFMore ≠ 0 → follows

end Freehttpd
