/-
Runs of the xpoll backend.

* `Inv.xioStep` — a call that returns keeps the invariant;
* `xio_recv_iff` — in every state reached from `fh_xio_create` by receive requests
  and waits, whatever `xpoll` and the allocations answer, a receive request does
  what it should if and only if it is one of `RecvCall.HoldsWhen`.
-/
import Freehttpd.Runs
import Freehttpd.XioDrain
import Freehttpd.XioRecv

namespace Freehttpd

open Runs

variable {U : Type}

/-! ### Runs -/

/-- A call of the backend's interface.  The events of a wait are what `xpoll_wait`
reports, `none` its failure. -/
inductive XioCall (U : Type)
  | recv (c : RecvCall U)
  | wait (maxResults : ℕ) (events : Option (List (BitVec 32 × ℕ)))

/-- One call, with the asserts compiled in: its return value and its results. -/
def xioStep (x : Xio U) : XioCall U → Option ((ℤ × List (XioResult U)) × Xio U)
  | .recv c => do
    let (ret, x) ← c.run x
    some ((ret, []), x)
  | .wait maxResults events => do
    let (ret, results, x) ← fhXioWait false x maxResults events
    some ((ret, results), x)

theorem xioStep_recv {c : RecvCall U} {x x' : Xio U} {ret : ℤ} (h : c.run x = some (ret, x')) :
    xioStep x (.recv c) = some ((ret, []), x') := by
  rw [xioStep, h]
  rfl

/-- A request meets its precondition; the `udata` of an event points to a fd
state. -/
def XioCall.Admissible : XioCall U → Prop
  | .recv c => c.Admissible
  | .wait _ events => ∀ es ∈ events, ∀ e ∈ es, e.2 < xioXpollMaxTaskCount

/-- What `fh_xio_create` returns. -/
theorem fhXioCreate_eq_some {calloc xpoll : Bool} {table : CreateAlloc} {mmap : Option ℕ}
    {x : Xio U} (h : fhXioCreate calloc xpoll table mmap = some (some x)) :
    ∃ t mem, htableCreate table 16 = some (some t) ∧
      x = ⟨[], t, initSlices mem, initTasks, initFdStates⟩ := by
  rw [fhXioCreate] at h
  split at h
  case isFalse => cases h
  rw [Option.bind_eq_bind, Option.bind_eq_some_iff] at h
  obtain ⟨t, ht, h⟩ := h
  cases t with
  | none => cases h
  | some t =>
    cases mmap with
    | none => cases h
    | some mem => exact ⟨t, mem, ht, (Option.some.inj (Option.some.inj h)).symm⟩

/-- The invariant holds of what `fh_xio_create` returns: all tasks and all fd states
are free. -/
theorem fhXioCreate_inv {calloc xpoll : Bool} {table : CreateAlloc} {mmap : Option ℕ} {x : Xio U}
    (h : fhXioCreate calloc xpoll table mmap = some (some x)) :
    x.Inv (List.range xioXpollMaxTaskCount) (List.range xioXpollMaxTaskCount) (fun _ => []) [] := by
  obtain ⟨t, mem, ht, rfl⟩ := fhXioCreate_eq_some h
  obtain ⟨hmap, hnext⟩ := MapOf.create (by decide) ht
  have htasks := initTasks_wf (U := U)
  have hstates := initFdStates_wf
  rw [List.map_id] at htasks hstates
  refine
    { slices := ⟨_, initSlices_wf mem⟩
      tasks := htasks
      apart :=
        { free_nodup := List.nodup_range
          free_lt := fun t ht => List.mem_range.mp ht
          queue_nodup := fun _ => List.nodup_nil
          queue_lt := by simp
          not_free := by simp
          inj := by simp }
      states := hstates
      states_nodup := List.nodup_range
      states_lt := fun k hk => List.mem_range.mp hk
      chained := fun k hk s hs => ?_
      table := hmap
      next_le := by rw [hnext]; exact Nat.zero_le _
      entries := by simp }
  rw [initFdStates, Block.read_tabulate _ hk, Option.some_inj] at hs
  rw [← hs]
  rfl

/-- A call that returns keeps the invariant. -/
theorem Xio.Inv.xioStep {x x' : Xio U} {ft fs : List ℕ} {q : ℕ → List ℕ}
    {m : List (IntKey × Option ℕ)} (h : x.Inv ft fs q m) {call : XioCall U}
    (hadm : call.Admissible) {o : ℤ × List (XioResult U)}
    (hstep : Freehttpd.xioStep x call = some (o, x')) :
    ∃ ft' fs' q' m', x'.Inv ft' fs' q' m' := by
  cases call with
  | recv c =>
    rw [Freehttpd.xioStep, Option.bind_eq_bind, Option.bind_eq_some_iff] at hstep
    obtain ⟨⟨ret, x''⟩, hrun, hs⟩ := hstep
    obtain ⟨-, rfl⟩ := Prod.mk.inj (Option.some.inj hs)
    exact h.recv hadm hrun
  | wait maxResults events =>
    cases events with
    | none =>
      obtain ⟨-, rfl⟩ := Prod.mk.inj (Option.some.inj hstep)
      exact ⟨ft, fs, q, m, h⟩
    | some events =>
      obtain ⟨results, tasks, states, hwait, hinv, -⟩ := h.wait false maxResults (hadm events rfl)
      rw [Freehttpd.xioStep, hwait] at hstep
      obtain ⟨-, rfl⟩ := Prod.mk.inj (Option.some.inj hstep)
      exact ⟨_, _, _, _, hinv⟩

/-- The invariant holds in every state reached from `fh_xio_create`. -/
theorem inv_of_runs {calloc xpoll : Bool} {table : CreateAlloc} {mmap : Option ℕ} {x₀ x : Xio U}
    {calls : List (XioCall U)} {outs : List (ℤ × List (XioResult U))}
    (hcreate : fhXioCreate calloc xpoll table mmap = some (some x₀))
    (hadm : ∀ call ∈ calls, call.Admissible) (hruns : runs xioStep x₀ calls = some (outs, x)) :
    ∃ ft fs q m, x.Inv ft fs q m := by
  refine runs_preserves (I := fun x => ∃ ft fs q m, x.Inv ft fs q m)
    (fun x call o x' hx hcall hstep => ?_) ⟨_, _, _, _, fhXioCreate_inv hcreate⟩ hadm hruns
  obtain ⟨ft, fs, q, m, hx⟩ := hx
  exact hx.xioStep hcall hstep

/-- In every state reached from `fh_xio_create`, whatever the allocations and
`xpoll` answer, `fh_xio_request_recv` does what it should if and only if the call
is one of `RecvCall.HoldsWhen`. -/
theorem xio_recv_iff {calloc xpoll : Bool} {table : CreateAlloc} {mmap : Option ℕ} {x₀ x : Xio U}
    {calls : List (XioCall U)} {outs : List (ℤ × List (XioResult U))}
    (hcreate : fhXioCreate calloc xpoll table mmap = some (some x₀))
    (hadm : ∀ call ∈ calls, call.Admissible) (hruns : runs xioStep x₀ calls = some (outs, x))
    {c : RecvCall U} (hc : c.Admissible) : c.Correct x ↔ c.HoldsWhen x := by
  obtain ⟨ft, fs, q, m, hx⟩ := inv_of_runs hcreate hadm hruns
  exact hx.recv_correct_iff hc

/-- A request for descriptor 5 into the caller's buffer, with a call to `xpoll` and
allocations that succeed. -/
def recvFd5 : RecvCall ℕ :=
  { env := ⟨0, true, true, true, true, true⟩
    udata := some 7
    fd := 5
    buf := some 0
    size := 16
    flags := 0 }

/-- It needs no slice. -/
theorem recvFd5_buf {p : Prop} (h : recvFd5.buf = none) : p :=
  absurd h (Option.some_ne_none 0)

/-- A backend created in memory at address 0, with allocations that succeed. -/
def freshXio : Option (Option (Xio ℕ)) := fhXioCreate true true ⟨true, true, true⟩ (some 0)

/-- The fresh backend before and after the request: everything is available, the
request fails, and it leaves the descriptor registered with a fd state that was
given back. -/
theorem recvFd5_run :
    freshXio.any (fun o => o.any fun x₀ => (recvFd5.run x₀).any fun r => decide
      (x₀.tasks.freeTaskListTop ≠ 0 ∧ (x₀.fdStateFor 5).isSome ∧ r.1 < 0 ∧
        Assoc.get r.2.xp 5 = some (setupEvents ||| Epoll.xpollRead, 2047) ∧
        r.2.stateOf 5 = none ∧ r.2.fdStateFor 5 = some 2047 ∧
        r.2.queue .prepIn 2047 = some [] ∧ r.2.tasks.freeTaskListTop = xioXpollMaxTaskCount ∧
        r.2.fdStateTable.mustGrow = false ∧
        (r.2.fdStates.fdStateList.read 2047).map XioFdState.events = some setupEvents)) = true := by
  decide +kernel

theorem recvFd5_reached :
    ∃ x₀ x : Xio ℕ, ∃ ret, fhXioCreate true true ⟨true, true, true⟩ (some 0) = some (some x₀) ∧
      recvFd5.run x₀ = some (ret, x) ∧ recvFd5.Available x₀ ∧ ret < 0 ∧
      x.ReadRegistered 5 2047 ∧ x.stateOf 5 = none ∧ x.fdStateFor 5 = some 2047 ∧
      x.queue .prepIn 2047 = some [] ∧ x.tasks.freeTaskListTop = xioXpollMaxTaskCount ∧
      x.fdStateTable.mustGrow = false := by
  obtain ⟨o, hcreate, ho⟩ := (Option.any_eq_true _ _).mp recvFd5_run
  obtain ⟨x₀, rfl, hx⟩ := (Option.any_eq_true _ _).mp ho
  obtain ⟨⟨ret, x⟩, hrun, hr⟩ := (Option.any_eq_true _ _).mp hx
  obtain ⟨htop, hfor, hret, hget, hst, hfor', hqueue, htop', hgrow, -⟩ := of_decide_eq_true hr
  exact ⟨x₀, x, ret, hcreate, hrun, ⟨htop, recvFd5_buf, hfor⟩, hret, ⟨_, hget, by decide⟩, hst,
    hfor', hqueue, htop', hgrow⟩

/-- On a fresh backend the request is not correct. -/
theorem recvFd5_incorrect :
    ∃ x₀ : Xio ℕ, fhXioCreate true true ⟨true, true, true⟩ (some 0) = some (some x₀) ∧
      recvFd5.Admissible ∧ ¬ recvFd5.Correct x₀ := by
  obtain ⟨x₀, x, ret, hx₀, hrun, hav, hret, hreg, -⟩ := recvFd5_reached
  refine ⟨x₀, hx₀, .inl rfl, ?_⟩
  rintro ⟨ret', x', hrun', hiff, -⟩
  obtain ⟨rfl, rfl⟩ := Prod.mk.inj (Option.some.inj (hrun.symm.trans hrun'))
  have hret0 : ret = 0 := hiff.mpr ⟨hav, 2047, hreg⟩
  exact absurd (hret0 ▸ hret) (lt_irrefl 0)

/-- The request for descriptor 5 with a call to `xpoll` that fails. -/
def recvFd5Queued : RecvCall ℕ :=
  { recvFd5 with env := { recvFd5.env with xpollRet := false } }

/-- The state that the first request leaves is one it goes through in. -/
theorem recvFd5Queued_goesThrough {x : Xio ℕ} (hst : x.stateOf 5 = none)
    (hgrow : x.fdStateTable.mustGrow = false) :
    recvFd5Queued.env.GoesThrough x recvFd5Queued.fd 2047 := by
  have hst : x.stateOf recvFd5Queued.fd = none := hst
  rw [PrepEnv.GoesThrough, hst]
  refine ⟨⟨fun hg => ?_, rfl⟩, fun hr => Bool.false_ne_true hr.1⟩
  rw [hgrow] at hg
  cases hg

/-- A second request, whose call to `xpoll` fails, finds the descriptor registered by
the first, and does what it should. -/
theorem recvFd5_again :
    ∃ x₀ x : Xio ℕ, ∃ outs, fhXioCreate true true ⟨true, true, true⟩ (some 0) = some (some x₀) ∧
      runs xioStep x₀ [.recv recvFd5] = some (outs, x) ∧ recvFd5Queued.Correct x := by
  obtain ⟨x₀, x, ret, hx₀, hrun, -, -, hreg, hst, hfor, hqueue, htop, hgrow⟩ := recvFd5_reached
  have hruns : runs xioStep x₀ [.recv recvFd5] = some ([(ret, [])], x) :=
    runs_cons_of_step (xioStep_recv hrun) []
  have htop : x.tasks.freeTaskListTop ≠ 0 := by
    rw [htop]
    decide
  refine ⟨x₀, x, _, hx₀, hruns, (xio_recv_iff hx₀ (fun call hcall => ?_) hruns (.inl rfl)).mpr
    ⟨fun _ => ⟨2047, hfor, hreg, fun _ => hqueue, recvFd5Queued_goesThrough hst hgrow⟩,
      fun hno => absurd ⟨htop, recvFd5_buf, Option.isSome_of_eq_some hfor⟩ hno⟩⟩
  rw [List.mem_singleton.mp hcall]
  exact .inl rfl

end Freehttpd
