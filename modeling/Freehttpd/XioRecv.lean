/-
Receive requests on the xpoll backend.

`RecvCall.Correct` says what `fh_xio_request_recv` is for: it returns 0 exactly
when what it needs was available and the descriptor is registered for reading,
with exactly one new task queued on the fd state that is registered; otherwise it
queues nothing and leaves no registration without a fd state.  The source takes
the `true` of `xpoll_add_fd` and `xpoll_modify_fd` for an error, so this holds
only of the calls of `RecvCall.HoldsWhen`:

* `Inv.recv_unavailable`, `Inv.recv_available` — what a call does, by whether
  everything is available and the request goes through;
* `Inv.recv_cases` — what a call that returns does to the queues;
* `Inv.recv_correct_iff` — in a state that satisfies the invariant a call is
  correct if and only if it is one of `RecvCall.HoldsWhen`.
-/
import Freehttpd.XioRequest

namespace Freehttpd

variable {U : Type}

/-! ### Statement -/

/-- Every registered descriptor is in the table. -/
def Xio.NoOrphan (x : Xio U) : Prop :=
  ∀ fd, (Assoc.get x.xp fd).isSome → (x.stateOf fd).isSome

/-- A call of `fh_xio_request_recv`, with what its surroundings decide. -/
structure RecvCall (U : Type) where
  env : PrepEnv
  udata : Option U
  fd : BitVec 32
  buf : Option ℕ
  size : ℕ
  flags : BitVec 32

namespace RecvCall

/-- The call, with the asserts compiled in. -/
def run (c : RecvCall U) (x : Xio U) : Option (ℤ × Xio U) :=
  fhXioRequestRecv false c.env x c.udata c.fd c.buf c.size c.flags

/-- The precondition that the source asserts. -/
def Admissible (c : RecvCall U) : Prop := c.buf.isSome = true ∨ c.size ≤ xioBufSize

/-- The slice that the call takes if it gets none from its caller. -/
def slice (c : RecvCall U) (x : Xio U) : Option XioSlice :=
  x.slices.lastFit c.size x.slices.freeBufListTop

/-- A task is available, and so are the buffer and the fd state that the call
needs. -/
def Available (c : RecvCall U) (x : Xio U) : Prop :=
  x.tasks.freeTaskListTop ≠ 0 ∧ (c.buf = none → (c.slice x).isSome) ∧
    (x.fdStateFor c.fd).isSome

/-- Task `t`, with the operation and the `udata` of the call, was queued on the fd
state of the descriptor, the one it is registered with, and nothing else was. -/
def Queued (c : RecvCall U) (x x' : Xio U) : Prop :=
  ∃ k t e l, x'.stateOf c.fd = some k ∧ x'.ReadRegistered c.fd k ∧
    x.queue .prepIn k = some l ∧ x'.queue .prepIn k = some (t :: l) ∧
    (∀ j l', x.queue .prepIn j = some l' → t ∉ l') ∧
    x'.tasks.taskList.read t = some e ∧ e.op = some .recv ∧ e.udata = c.udata ∧
    ∀ d j, ¬(d = .prepIn ∧ j = k) → x'.queue d j = x.queue d j

/-- What the call should do. -/
def Correct (c : RecvCall U) (x : Xio U) : Prop :=
  ∃ ret x', c.run x = some (ret, x') ∧
    (ret = 0 ↔ c.Available x ∧ ∃ k, x'.ReadRegistered c.fd k) ∧
    (ret = 0 → c.Queued x x') ∧
    (ret < 0 → (∀ d j, x'.queue d j = x.queue d j) ∧ x'.NoOrphan)

/-- The slice that the call took may be given back without a failed assert. -/
def GivesBack (c : RecvCall U) (x : Xio U) : Prop :=
  x.tasks.freeTaskListTop ≠ 0 → c.buf = none → ∀ s ∈ c.slice x,
    (x.slices.freeBufListTop < xioBufCount ∨ s.off + c.size = xioBufSize) ∧ s.refs + 1 < 2 ^ 16

/-- When the call does what it should.  If everything is available: the
descriptor is already registered for reading, with the fd state that the call
uses; a fd state that enters the table has an empty queue, and the insertion does
not fail; and the call to `xpoll`, if there is one, fails.  If something is missing:
every registered descriptor is in the table, and a slice that was taken may be
given back. -/
def HoldsWhen (c : RecvCall U) (x : Xio U) : Prop :=
  (c.Available x → ∃ k, x.fdStateFor c.fd = some k ∧ x.ReadRegistered c.fd k ∧
    (x.stateOf c.fd = none → x.queue .prepIn k = some []) ∧ c.env.GoesThrough x c.fd k) ∧
  (¬ c.Available x → x.NoOrphan ∧ c.GivesBack x)

theorem givesBack_iff (c : RecvCall U) {x : Xio U} (htop : x.tasks.freeTaskListTop ≠ 0)
    (hbuf : c.buf = none) {s : XioSlice} (hs : c.slice x = some s) :
    c.GivesBack x ↔ (x.slices.freeBufListTop < xioBufCount ∨ s.off + c.size = xioBufSize) ∧
      s.refs + 1 < 2 ^ 16 := by
  rw [GivesBack, hs]
  simp [htop, hbuf]

/-! ### The end of a call -/

/-- `fh_xio_request_recv` behind its call of `fh_xio_request_prep_with_size`. -/
def finish (c : RecvCall U) (r : PrepResult U) : Option (ℤ × Xio U) :=
  match r.prep with
  | none => some (-(fhXioErrno r.errno : ℤ), r.xio)
  | some (task, slice) => do
    let recvBuf ← recvBuf false r.xio c.buf slice c.size
    let taskList ← r.xio.tasks.taskList.modify task fun t =>
      { t with recv := { fd := c.fd, buf := some recvBuf, size := c.size, flags := c.flags } }
    some (0, { r.xio with tasks := { r.xio.tasks with taskList := taskList } })

theorem run_eq (c : RecvCall U) (x : Xio U) :
    c.run x = (fhXioRequestPrepWithSize false c.env x .recv .prepIn c.fd c.udata c.buf
      c.size).bind c.finish := rfl

theorem finish_none (c : RecvCall U) (errno : ℕ) (x : Xio U) :
    ∃ ret < 0, c.finish ⟨none, errno, x⟩ = some (ret, x) := by
  refine ⟨_, ?_, rfl⟩
  rw [fhXioErrno]
  split
  · omega
  · rw [eNotRecoverable]
    omega

/-- `slice` is what the call takes for its buffer, which leaves the slices `p`. -/
def TakesSlice (c : RecvCall U) (x : Xio U) : Option ℕ → SlicePool → Prop
  | none, p => c.buf.isSome ∧ p = x.slices
  | some b, p => c.buf = none ∧ fhXioAcquireSlice false x.slices c.size = some (some (b, p))

/-- The end of the slice holds the buffer of the task. -/
def BufReady (c : RecvCall U) (x : Xio U) (slice : Option ℕ) : Prop :=
  c.buf = none → ∃ b s, slice = some b ∧ x.slices.bufList.read b = some s ∧ c.size ≤ s.off ∧
    c.size ≤ xioBufSize

/-- The task gets its data, and keeps its operation and its `udata`. -/
theorem finish_some (c : RecvCall U) {x : Xio U} {ft fs : List ℕ} {q : ℕ → List ℕ}
    {m : List (IntKey × Option ℕ)} (h : x.Inv ft fs q m) (errno : ℕ) {t : ℕ}
    (ht : t < xioXpollMaxTaskCount) {e : XioTask U} (he : x.tasks.taskList.read t = some e)
    {slice : Option ℕ} (hbuf : c.BufReady x slice) :
    ∃ x' e', c.finish ⟨some (t, slice), errno, x⟩ = some (0, x') ∧ x'.Inv ft fs q m ∧
      x'.xp = x.xp ∧ x'.tasks.taskList.read t = some e' ∧ e.Same e' := by
  have hrb : ∃ rb, recvBuf false x c.buf slice c.size = some rb := by
    cases hcb : c.buf with
    | some buf => exact ⟨buf, rfl⟩
    | none =>
      obtain ⟨b, s, rfl, hs, hoff, hsize⟩ := hbuf hcb
      rw [xioBufSize] at hsize
      refine ⟨s.buf + s.off - u16 c.size, ?_⟩
      rw [recvBuf]
      simp only [Option.bind_eq_bind, Option.bind_some, hs]
      rw [fhXioRequestPrepSliceGetBuffer, cAssert_of (by omega),
        cAssert_of (by rw [u32_of_lt (by omega)]; exact hoff)]
      rfl
  obtain ⟨rb, hrb⟩ := hrb
  refine ⟨_, _, ?_, h.putTask
    { e with recv := { fd := c.fd, buf := some rb, size := c.size, flags := c.flags } } ht he rfl
    (.inl rfl), rfl,
    Block.read_put_self _ (Block.lt_of_read he), rfl, rfl⟩
  rw [finish]
  simp only [Option.bind_eq_bind, hrb, Option.bind_some, Block.modify_of_read _ he]

end RecvCall

/-! ### The start of a call -/

namespace Xio.Inv

variable {x : Xio U} {ft fs : List ℕ} {q : ℕ → List ℕ} {m : List (IntKey × Option ℕ)}

/-- Without a task or a slice the call fails at once. -/
theorem recv_starved (h : x.Inv ft fs q m) {c : RecvCall U} (hadm : c.Admissible)
    (hno : ¬(x.tasks.freeTaskListTop ≠ 0 ∧ (c.buf = none → (c.slice x).isSome))) :
    ∃ ret < 0, ∃ x', c.run x = some (ret, x') ∧ x'.Inv ft fs q m ∧ x'.xp = x.xp ∧
      x'.fdStates = x.fdStates ∧ x'.slices = x.slices ∧
      ret = -(fhXioErrno (if x.tasks.freeTaskListTop = 0 then eNoMem else eNoBufs) : ℤ) := by
  rw [c.run_eq, fhXioRequestPrepWithSize,
    cAssert_of (show c.buf.isSome = true ∨ c.size ≤ xioBufSize from hadm)]
  by_cases htop : x.tasks.freeTaskListTop = 0
  · rw [fhXioAcquireTask, if_pos htop]
    obtain ⟨ret, hret, hrun⟩ := c.finish_none eNoMem x
    refine ⟨ret, hret, x, hrun, h, rfl, rfl, rfl, ?_⟩
    rw [if_pos htop]
    exact (Prod.mk.inj (Option.some.inj hrun)).1.symm
  · obtain ⟨t, ft', rfl, hacq, ht, hinv⟩ := h.acquireTask htop
    have hnone : c.buf = none ∧ c.slice x = none := by
      have hno : ¬(c.buf = none → (c.slice x).isSome = true) := fun hs => hno ⟨htop, hs⟩
      rw [Classical.not_imp] at hno
      exact ⟨hno.1, Option.not_isSome_iff_eq_none.mp hno.2⟩
    obtain ⟨free, hwf⟩ := h.slices
    have hsize : c.size ≤ xioBufSize :=
      hadm.resolve_left (by rw [hnone.1]; exact Bool.false_ne_true)
    rcases hwf.fhXioAcquireSlice_eq false hsize with ⟨hslice, -⟩ | ⟨b, s, p', free', -, hlast, -⟩
    · rcases hinv.prepRelease ht (show ∀ b ∈ (none : Option ℕ), b < xioBufCount by simp) with
        ⟨hns, -⟩ | ⟨-, x', hrel, hinv', hxp, hst, hsl⟩
      · exact absurd (SlicePool.releasable_none _) hns
      · obtain ⟨ret, hret, hrun⟩ := c.finish_none eNoBufs x'
        refine ⟨ret, hret, x', ?_, hinv', hxp, hst, (Option.some.inj hsl).symm, ?_⟩
        swap
        · rw [if_neg htop]
          exact (Prod.mk.inj (Option.some.inj hrun)).1.symm
        simp only [Option.bind_eq_bind, Option.bind_some, hacq, hnone.1, hslice, hrel, hrun]
    · rw [show x.slices.lastFit c.size x.slices.freeBufListTop = none from hnone.2] at hlast
      cases hlast

/-- Otherwise the call goes on with a task in hand, and with a slice if it needs
one. -/
theorem recv_start (h : x.Inv ft fs q m) {c : RecvCall U} (hadm : c.Admissible)
    (htop : x.tasks.freeTaskListTop ≠ 0) (hbuf : c.buf = none → (c.slice x).isSome) :
    ∃ x₁ t ft₁ e slice, ft = ft₁ ++ [t] ∧
      c.run x = (prepFdState false c.env x₁ .prepIn c.fd t slice).bind c.finish ∧
      x₁.Inv ft₁ fs q m ∧ x₁.xp = x.xp ∧ x₁.fdStates = x.fdStates ∧
      x₁.fdStateTable = x.fdStateTable ∧ Taken ft₁ q t ∧
      x₁.tasks.taskList.read t = some e ∧ e.op = some .recv ∧ e.udata = c.udata ∧
      (∀ b ∈ slice, b < xioBufCount) ∧ c.BufReady x₁ slice ∧
      (x₁.slices.Releasable slice ↔ c.GivesBack x) ∧ c.TakesSlice x slice x₁.slices := by
  obtain ⟨t, ft₁, hft, hacq, ht, hinv⟩ := h.acquireTask htop
  obtain ⟨e, he, -⟩ := hinv.tasks.task t ht.1
  have hread := fun e' => Block.read_put_self e' (Block.lt_of_read he)
  rw [c.run_eq, fhXioRequestPrepWithSize,
    cAssert_of (show c.buf.isSome = true ∨ c.size ≤ xioBufSize from hadm)]
  simp only [Option.bind_eq_bind, Option.bind_some, hacq]
  cases hcb : c.buf with
  | some buf =>
    refine ⟨_, t, ft₁, _, none, hft, ?_, hinv.putTask
      { e with op := some .recv, udata := c.udata, flags := 0 } ht.1 he rfl (.inl rfl), rfl, rfl,
      rfl, ht, hread _, rfl, rfl, by simp, fun hn => ?_, ?_⟩
    · rw [prepTask, Block.modify_of_read _ he]
      rfl
    · rw [hcb] at hn
      cases hn
    · refine ⟨iff_of_true (SlicePool.releasable_none _) fun _ hn => ?_, ?_, rfl⟩
      · rw [hcb] at hn
        cases hn
      · rw [hcb]
        rfl
  | none =>
    obtain ⟨free, hwf⟩ := h.slices
    have hsize : c.size ≤ xioBufSize := hadm.resolve_left (by rw [hcb]; exact Bool.false_ne_true)
    rcases hwf.fhXioAcquireSlice_eq false hsize with
      ⟨-, hnone⟩ | ⟨b, s, p', free', hslice, hlast, hmem, hs, hfit, hwf', hput, hkeep, hdrop⟩
    · have hsome := hbuf hcb
      rw [RecvCall.slice, hnone] at hsome
      cases hsome
    · have hb := hwf.free_lt b hmem
      obtain ⟨s₀, hs₀, hbid, -, hrefs⟩ := hwf.slice b hb
      rw [hs, Option.some_inj] at hs₀
      subst hs₀
      have hsread : p'.bufList.read b = some
          { s with off := s.off + c.size, refs := u16 (s.refs + 1) } := by
        rw [hput]
        exact Block.read_put_self _ (Block.lt_of_read hs)
      have hinv' : { x with
          tasks := { x.tasks with freeTaskListTop := x.tasks.freeTaskListTop - 1 }
          slices := p' }.Inv ft₁ fs q m := { hinv with slices := ⟨free', hwf'⟩ }
      refine ⟨_, t, ft₁, _, some b, hft, ?_, hinv'.putTask
        { e with op := some .recv, udata := c.udata, flags := xioTaskFBuffer, bid := s.bid }
        ht.1 he rfl (.inl rfl), rfl, rfl, rfl, ht, hread _, rfl, rfl, fun b' hb' => ?_,
        fun _ => ⟨b, _, rfl, hsread, Nat.le_add_left _ _, hsize⟩, ?_⟩
      · simp only [hslice, Option.bind_some, hsread]
        rw [prepTask, Block.modify_of_read _ he]
        rfl
      · rw [← Option.some.inj hb']
        exact hb
      · have hrefs' : 0 < u16 (s.refs + 1) ↔ s.refs + 1 < 2 ^ 16 := by
          rw [u16]
          omega
        have htop' : p'.freeBufListTop < xioBufCount ↔
            x.slices.freeBufListTop < xioBufCount ∨ s.off + c.size = xioBufSize := by
          rcases Nat.lt_or_eq_of_le hfit with hlt | heq
          · rw [← hwf'.stack.length_eq, ← hwf.stack.length_eq, hkeep hlt]
            omega
          · -- The slice is full, and has left the list.
            have hlen := (hdrop heq).length_eq
            rw [List.length_cons, hwf'.stack.length_eq, hwf.stack.length_eq] at hlen
            have hle := hwf.stack.top_le
            omega
        refine ⟨?_, hcb, hslice⟩
        show p'.Releasable (some b) ↔ c.GivesBack x
        rw [SlicePool.releasable_some hsread, c.givesBack_iff htop hcb hlast, htop', ← hrefs']

/-! ### Whole calls -/

end Xio.Inv

theorem Xio.fdStateFor_congr {x x₁ : Xio U} (hst : x₁.fdStates = x.fdStates)
    (htab : x₁.fdStateTable = x.fdStateTable) (fd : BitVec 32) :
    x₁.fdStateFor fd = x.fdStateFor fd := by
  rw [fdStateFor, fdStateFor, stateOf, stateOf, hst, htab]

theorem PrepEnv.goesThrough_congr {x x₁ : Xio U} (hst : x₁.fdStates = x.fdStates)
    (htab : x₁.fdStateTable = x.fdStateTable) (env : PrepEnv) (fd : BitVec 32) (k : ℕ) :
    env.GoesThrough x₁ fd k ↔ env.GoesThrough x fd k := by
  rw [GoesThrough, GoesThrough, Xio.stateOf, Xio.stateOf, Xio.ReadStored, Xio.ReadStored, hst,
    htab]

namespace Xio.Inv

variable {x : Xio U} {ft fs : List ℕ} {q : ℕ → List ℕ} {m : List (IntKey × Option ℕ)}

/-- Something is missing: the call fails and gives back what it took. -/
theorem recv_unavailable (h : x.Inv ft fs q m) {c : RecvCall U} (hadm : c.Admissible)
    (hav : ¬ c.Available x) :
    (¬ c.GivesBack x ∧ c.run x = none) ∨
    (c.GivesBack x ∧ ∃ ret < 0, ∃ x', c.run x = some (ret, x') ∧ x'.Inv ft fs q m ∧
      x'.xp = x.xp) := by
  by_cases hstart : x.tasks.freeTaskListTop ≠ 0 ∧ (c.buf = none → (c.slice x).isSome)
  · obtain ⟨x₁, t, ft₁, e, slice, rfl, hrun, hinv, hxp, hst, htab, ht, -, -, -, hslice, -,
        hgives, -⟩ :=
      h.recv_start hadm hstart.1 hstart.2
    have hfor : x₁.fdStateFor c.fd = none := by
      rw [Xio.fdStateFor_congr hst htab]
      exact Option.not_isSome_iff_eq_none.mp fun hs => hav ⟨hstart.1, hstart.2, hs⟩
    rw [hrun, ← hgives]
    refine (hinv.prepFdState_of_none c.env ht hslice hfor).imp ?_ ?_
    · rintro ⟨hns, hnone⟩
      exact ⟨hns, by rw [hnone]; rfl⟩
    · rintro ⟨hs, x', hr, hinv', hxp', -⟩
      obtain ⟨ret, hret, hfin⟩ := c.finish_none eNoMem x'
      exact ⟨hs, ret, hret, x', by rw [hr]; exact hfin, hinv', hxp'.trans hxp⟩
  · -- There is no slice to give back.
    have hgives : c.GivesBack x := fun htop _ s hs => by
      refine absurd ⟨htop, fun _ => ?_⟩ hstart
      rw [Option.mem_def.mp hs]
      rfl
    obtain ⟨ret, hret, x', hrun, hinv, hxp, -⟩ := h.recv_starved hadm hstart
    exact .inr ⟨hgives, ret, hret, x', hrun, hinv, hxp⟩

/-- Everything is available: the last free task is queued if the request goes
through, and otherwise the descriptor is left registered. -/
theorem recv_available (h : x.Inv ft fs q m) {c : RecvCall U} (hadm : c.Admissible)
    (hav : c.Available x) :
    ∃ k t ft', ft = ft' ++ [t] ∧ x.fdStateFor c.fd = some k ∧ k < xioXpollMaxTaskCount ∧
      (c.env.GoesThrough x c.fd k → ∃ x' e fs' m', c.run x = some (0, x') ∧
        x'.Inv ft' fs'
          (Function.update q k (t :: if (x.stateOf c.fd).isSome then q k else [])) m' ∧
        (∀ j ∈ fs', j ∈ fs) ∧ Assoc.get m' (fdKey c.fd) = some (some k) ∧ x'.xp = x.xp ∧
        x'.tasks.taskList.read t = some e ∧ e.op = some .recv ∧ e.udata = c.udata) ∧
      (¬ c.env.GoesThrough x c.fd k → c.run x = none ∨
        ∃ ret < 0, ∃ x' m', c.run x = some (ret, x') ∧
          x'.Inv ft fs (if (x.stateOf c.fd).isSome then q else Function.update q k []) m' ∧
          ∃ k, x'.ReadRegistered c.fd k) := by
  obtain ⟨htop, hbuf, hfor⟩ := hav
  obtain ⟨k, hfor⟩ := Option.isSome_iff_exists.mp hfor
  obtain ⟨x₁, t, ft₁, e, slice, rfl, hrun, hinv, hxp, hst, htab, ht, he, hop, hud, hslice, hready,
    -⟩ := h.recv_start hadm htop hbuf
  obtain ⟨hk, hgo, hno⟩ := hinv.prepFdState_of_some c.env ht he hslice
    ((Xio.fdStateFor_congr hst htab c.fd).trans hfor)
  have hstate : x₁.stateOf c.fd = x.stateOf c.fd := by
    rw [Xio.stateOf, htab]
    rfl
  rw [PrepEnv.goesThrough_congr hst htab, hstate] at hgo hno
  refine ⟨k, t, ft₁, rfl, hfor, hk, fun hg => ?_, fun hg => ?_⟩
  · obtain ⟨x₂, e₂, fs', m', hr, hinv₂, hfs, hget, hxp₂, hsl, he₂, hsame₂⟩ := hgo hg
    have hready₂ : c.BufReady x₂ slice := by
      rw [RecvCall.BufReady, hsl]
      exact hready
    obtain ⟨x', e', hfin, hinv', hxp', he', hsame'⟩ :=
      c.finish_some hinv₂ c.env.errno ht.1 he₂ hready₂
    refine ⟨x', e', fs', m', by rw [hrun, hr]; exact hfin, hinv', hfs, hget,
      hxp'.trans (hxp₂.trans hxp), he', ?_, ?_⟩
    · rw [hsame'.1, hsame₂.1, hop]
    · rw [hsame'.2, hsame₂.2, hud]
  · rcases hno hg with hnone | ⟨x₂, errno, m', hr, hinv₂, hreg⟩
    · exact .inl (by rw [hrun, hnone]; rfl)
    · obtain ⟨ret, hret, hfin⟩ := c.finish_none errno x₂
      exact .inr ⟨ret, hret, x₂, m', by rw [hrun, hr]; exact hfin, hinv₂, hreg⟩

/-- What a call that returns does to the free tasks and to the queues: it queues
the last free task, or nothing.  A fd state that enters the table starts with an
empty queue. -/
theorem recv_cases (h : x.Inv ft fs q m) {c : RecvCall U} (hadm : c.Admissible) {ret : ℤ}
    {x' : Xio U} (hrun : c.run x = some (ret, x')) :
    (¬ c.Available x ∧ x'.Inv ft fs q m) ∨
    (c.Available x ∧ ∃ k, x.fdStateFor c.fd = some k ∧ k < xioXpollMaxTaskCount ∧
      ((ret < 0 ∧ ∃ m', x'.Inv ft fs
          (if (x.stateOf c.fd).isSome then q else Function.update q k []) m') ∨
        (ret = 0 ∧ ∃ t ft' fs' m', ft = ft' ++ [t] ∧ (∀ j ∈ fs', j ∈ fs) ∧
          x'.stateOf c.fd = some k ∧ x'.Inv ft' fs'
            (Function.update q k (t :: if (x.stateOf c.fd).isSome then q k else [])) m'))) := by
  by_cases hav : c.Available x
  · obtain ⟨k, t, ft', hft, hfor, hk, hgo, hno⟩ := h.recv_available hadm hav
    refine .inr ⟨hav, k, hfor, hk, ?_⟩
    by_cases hg : c.env.GoesThrough x c.fd k
    · obtain ⟨x₁, e, fs', m', hr, hinv, hfs, hget, -⟩ := hgo hg
      obtain ⟨rfl, rfl⟩ := Prod.mk.inj (Option.some.inj (hr.symm.trans hrun))
      exact .inr ⟨rfl, t, ft', fs', m', hft, hfs, by rw [hinv.stateOf_eq, hget]; rfl, hinv⟩
    · rcases hno hg with hnone | ⟨ret₁, hret, x₁, m', hr, hinv, -⟩
      · rw [hnone] at hrun
        cases hrun
      · obtain ⟨rfl, rfl⟩ := Prod.mk.inj (Option.some.inj (hr.symm.trans hrun))
        exact .inl ⟨hret, m', hinv⟩
  · rcases h.recv_unavailable hadm hav with ⟨-, hnone⟩ | ⟨-, ret₁, -, x₁, hr, hinv, -⟩
    · rw [hnone] at hrun
      cases hrun
    · obtain ⟨-, rfl⟩ := Prod.mk.inj (Option.some.inj (hr.symm.trans hrun))
      exact .inl ⟨hav, hinv⟩

/-- A call that returns keeps the invariant. -/
theorem recv (h : x.Inv ft fs q m) {c : RecvCall U} (hadm : c.Admissible) {ret : ℤ} {x' : Xio U}
    (hrun : c.run x = some (ret, x')) : ∃ ft' fs' q' m', x'.Inv ft' fs' q' m' := by
  rcases h.recv_cases hadm hrun with ⟨-, hinv⟩ | ⟨-, k, -, -, ⟨-, m', hinv⟩ | hgo⟩
  · exact ⟨_, _, _, _, hinv⟩
  · exact ⟨_, _, _, _, hinv⟩
  · obtain ⟨-, t, ft', fs', m', -, -, -, hinv⟩ := hgo
    exact ⟨_, _, _, _, hinv⟩

/-- When something is missing, only an orphan registration or a slice that cannot
be given back stands in the way. -/
theorem recv_correct_iff_of_not (h : x.Inv ft fs q m) {c : RecvCall U} (hadm : c.Admissible)
    (hav : ¬ c.Available x) : c.Correct x ↔ x.NoOrphan ∧ c.GivesBack x := by
  rcases h.recv_unavailable hadm hav with ⟨hns, hnone⟩ | ⟨hs, ret, hret, x', hr, hinv, hxp⟩
  · refine iff_of_false ?_ fun hc => hns hc.2
    rintro ⟨_, _, hr, -⟩
    rw [hnone] at hr
    cases hr
  · have horphan : x'.NoOrphan ↔ x.NoOrphan := by
      rw [Xio.NoOrphan, Xio.NoOrphan, hxp]
      simp only [h.stateOf_eq, hinv.stateOf_eq]
    constructor
    · rintro ⟨ret', x'', hr', -, -, hneg⟩
      obtain ⟨rfl, rfl⟩ := Prod.mk.inj (Option.some.inj (hr.symm.trans hr'))
      exact ⟨horphan.mp (hneg hret).2, hs⟩
    · rintro ⟨hno, -⟩
      refine ⟨ret, x', hr, iff_of_false (by omega) fun ha => hav ha.1, fun h0 => by omega,
        fun _ => ⟨fun d j => h.queue_congr hinv fun _ => rfl, horphan.mpr hno⟩⟩

/-- When everything is available, the descriptor must be registered already. -/
theorem recv_correct_iff_of_available (h : x.Inv ft fs q m) {c : RecvCall U}
    (hadm : c.Admissible) (hav : c.Available x) :
    c.Correct x ↔ ∃ k, x.fdStateFor c.fd = some k ∧ x.ReadRegistered c.fd k ∧
      (x.stateOf c.fd = none → x.queue .prepIn k = some []) ∧ c.env.GoesThrough x c.fd k := by
  obtain ⟨k, t, ft', rfl, hfor, hk, hgo, hno⟩ := h.recv_available hadm hav
  by_cases hg : c.env.GoesThrough x c.fd k
  · obtain ⟨x', e, fs', m', hr, hinv, -, hget, hxp, he, hop, hud⟩ := hgo hg
    have hnew := h.apart.take.2.2.2
    have hreg : ∀ j, x'.ReadRegistered c.fd j ↔ x.ReadRegistered c.fd j := fun j => by
      rw [Xio.ReadRegistered, Xio.ReadRegistered, hxp]
    have hst : x'.stateOf c.fd = some k := by
      rw [hinv.stateOf_eq, hget]
      rfl
    have hqk := hinv.queue_in hk
    rw [Function.update_self] at hqk
    constructor
    · rintro ⟨ret', x'', hr', -, hqueued, -⟩
      obtain ⟨rfl, rfl⟩ := Prod.mk.inj (Option.some.inj (hr.symm.trans hr'))
      obtain ⟨k', t', e', l, hst', hreg', hl, hl', -⟩ := hqueued rfl
      obtain rfl : k = k' := Option.some.inj (hst.symm.trans hst')
      refine ⟨k, hfor, (hreg k).mp hreg', fun hnone => ?_, hg⟩
      rw [hqk, hnone] at hl'
      rw [hl, ← (List.cons.inj (Option.some.inj hl')).2]
      rfl
    · rintro ⟨k', hfor', hreg', hempty, -⟩
      obtain rfl : k = k' := Option.some.inj (hfor.symm.trans hfor')
      -- An fd state from the free list must have been empty, as its queue is dropped.
      have hl : (if (x.stateOf c.fd).isSome then q k else []) = q k := by
        split
        · rfl
        · rename_i hns
          have hq := hempty (Option.not_isSome_iff_eq_none.mp hns)
          rw [h.queue_in hk] at hq
          exact (Option.some.inj hq).symm
      rw [hl] at hqk hinv
      refine ⟨0, x', hr, iff_of_true rfl ⟨hav, k, (hreg k).mpr hreg'⟩, fun _ =>
        ⟨k, t, e, q k, hst, (hreg k).mpr hreg', h.queue_in hk, hqk, fun j l' hl' => ?_, he, hop,
          hud, fun d j hdj => ?_⟩, fun h0 => absurd h0 (lt_irrefl 0)⟩
      · rcases Nat.lt_or_ge j xioXpollMaxTaskCount with hj | hj
        · rw [h.queue_in hj] at hl'
          rw [← Option.some.inj hl']
          exact hnew j
        · rw [h.queue_of_le hj] at hl'
          cases hl'
      · refine h.queue_congr hinv fun hd => ?_
        rw [Function.update_of_ne fun hj => hdj ⟨hd, hj⟩]
  · -- The call fails, although everything was available.
    refine iff_of_false ?_ fun hc => ?_
    · rintro ⟨ret', x'', hr', hiff, -⟩
      rcases hno hg with hnone | ⟨ret, hret, x', -, hr, -, hreg⟩
      · rw [hnone] at hr'
        cases hr'
      · obtain ⟨rfl, rfl⟩ := Prod.mk.inj (Option.some.inj (hr.symm.trans hr'))
        have h0 := hiff.mpr ⟨hav, hreg⟩
        omega
    · obtain ⟨k', hfor', -, -, hg'⟩ := hc
      obtain rfl : k = k' := Option.some.inj (hfor.symm.trans hfor')
      exact hg hg'

/-- A call is correct if and only if it is one of `RecvCall.HoldsWhen`. -/
theorem recv_correct_iff (h : x.Inv ft fs q m) {c : RecvCall U} (hadm : c.Admissible) :
    c.Correct x ↔ c.HoldsWhen x := by
  by_cases hav : c.Available x
  · rw [h.recv_correct_iff_of_available hadm hav]
    exact ⟨fun hc => ⟨fun _ => hc, fun hn => absurd hav hn⟩, fun hc => hc.1 hav⟩
  · rw [h.recv_correct_iff_of_not hadm hav]
    exact ⟨fun hc => ⟨fun ha => absurd ha hav, fun _ => hc⟩, fun hc => hc.2 hav⟩

end Xio.Inv

end Freehttpd
