/-
The xpoll backend on epoll, and what it comes to.

`Backlog` is the backend without pools, links and table: the descriptors that are
registered, the descriptors with a fd state in the order in which they got one, each
with its queue, and the buffer slices.  `epollStep` is the code, on a kernel whose
`epoll_ctl` fails only for its documented reasons and whose `epoll_wait` reports
registered descriptors with the `udata` of their registration.

* `recv_frame` — what a request leaves as it is;
* `Represents` — the state of the code, read as a backlog;
* `Represents.recv`, `Represents.wait` — requests and waits answer alike;
* `backlog_agrees` — so does every run from `fh_xio_create`: the return values, the
  results in their order and the aborts of the two are the same.
-/
import Freehttpd.XioBalance

namespace Freehttpd

open Runs

variable {U : Type}

/-! ### The code on epoll -/

/-- `epoll_wait`: of the descriptors `ready`, each with its events, those that are
registered come with their `udata`, no more than `maxEvents` of them. -/
def epollWait (xp : Registrations) (maxEvents : ℕ) (ready : Option (List (BitVec 32 × BitVec 32))) :
    Option (List (BitVec 32 × ℕ)) :=
  if maxEvents = 0 then none
  else ready.map fun ready =>
    (ready.filterMap fun r => (Assoc.get xp r.1).map fun reg => (r.2, reg.2)).take maxEvents

/-- A call of the backend's interface, and for a wait what the kernel has ready,
`none` for a failure. -/
inductive EpollCall (U : Type)
  | recv (c : RecvCall U)
  | wait (maxResults : ℕ) (ready : Option (List (BitVec 32 × BitVec 32)))

/-- The call as `epoll_ctl` answers it, which fails with `EEXIST` for a descriptor that
is added twice and with `ENOENT` for one that is modified before it is added. -/
def RecvCall.onEpoll (c : RecvCall U) (x : Xio U) : RecvCall U :=
  { c with env := { c.env with
      xpollRet := c.env.xpollRet &&
        (Assoc.get x.xp c.fd).isSome == (x.stateOf c.fd).isSome } }

/-- One call, with the asserts compiled in: its return value and its results. -/
def epollStep (x : Xio U) : EpollCall U → Option ((ℤ × List (XioResult U)) × Xio U)
  | .recv c => xioStep x (.recv (c.onEpoll x))
  | .wait maxResults ready =>
    xioStep x (.wait maxResults (epollWait x.xp (waitRoom maxResults) ready))

theorem xioStep_wait {maxResults : ℕ} {events : Option (List (BitVec 32 × ℕ))} {x x' : Xio U}
    {ret : ℤ} {results : List (XioResult U)}
    (h : fhXioWait false x maxResults events = some (ret, results, x')) :
    xioStep x (.wait maxResults events) = some ((ret, results), x') := by
  rw [xioStep, h]
  rfl

/-- The fd-state table has memory, and `epoll_ctl` fails only where it must: for a
descriptor that is negative, added twice or modified before it is added. -/
def EpollCall.Served : EpollCall U → Prop
  | .recv c => c.env.xpollRet = true ∧ c.env.htCalloc = true ∧ c.env.htMalloc = true ∧
      c.env.htGrow = true
  | .wait _ _ => True

/-- What a request on epoll finds, if it is served. -/
structure RecvCall.Answered (c : RecvCall U) (x : Xio U) : Prop where
  xpollRet : c.env.xpollRet = ((Assoc.get x.xp c.fd).isSome == (x.stateOf c.fd).isSome)
  htCalloc : c.env.htCalloc = true
  htMalloc : c.env.htMalloc = true
  htGrow : c.env.htGrow = true

theorem EpollCall.Served.answered {c : RecvCall U} (h : (EpollCall.recv c).Served) (x : Xio U) :
    (c.onEpoll x).Answered x := by
  obtain ⟨hret, hcalloc, hmalloc, hgrow⟩ := h
  exact ⟨by rw [RecvCall.onEpoll, hret, Bool.true_and], hcalloc, hmalloc, hgrow⟩

/-! ### The backlog -/

/-- The result that reports a request whose descriptor had an error. -/
def Ticket.failed (t : Ticket U) : XioResult U :=
  { op := t.1, flags := xioTaskFInternalError, res := -1, buf := none, udata := t.2 }

/-- The requests that wait.  A descriptor with a fd state has a seat; seats are handed
out in order and kept.  A registered descriptor goes with the seat that was the next
one when it was registered. -/
structure Backlog (U : Type) where
  known : List (BitVec 32 × ℕ)
  seats : List (BitVec 32 × List (Ticket U))
  slices : SlicePool

namespace Backlog

/-- The number of requests that wait. -/
def waiting (b : Backlog U) : ℕ := (b.seats.map fun s => s.2.length).sum

/-- The requests that wait at a seat, the newest first. -/
def queue (b : Backlog U) (i : ℕ) : List (Ticket U) := (b.seats[i]?.map Prod.snd).getD []

/-- The request waits at the seat of its descriptor, or at a new one. -/
def accept (b : Backlog U) (c : RecvCall U) : Backlog U :=
  { b with
    seats := Assoc.set b.seats c.fd
      ((some .recv, c.udata) :: (Assoc.get b.seats c.fd).getD []) }

/-- A request with its task and its slice.  The first request for a descriptor only
registers it. -/
def enter (b : Backlog U) (c : RecvCall U) (slice : Option ℕ) : Option (ℤ × Backlog U) :=
  if (Assoc.get b.seats c.fd).isSome then some (0, b.accept c)
  else if b.seats.length = xioXpollMaxTaskCount then
    (b.slices.giveBack slice).map fun p => (-(fhXioErrno eNoMem : ℤ), { b with slices := p })
  else if c.fd.msb = true ∨ (Assoc.get b.known c.fd).isSome then some (0, b.accept c)
  else
    (b.slices.giveBack slice).map fun p =>
      (-(fhXioErrno c.env.errno : ℤ),
        { b with known := Assoc.set b.known c.fd b.seats.length, slices := p })

/-- A request. -/
def request (b : Backlog U) (c : RecvCall U) : Option (ℤ × Backlog U) := do
  cAssert false (c.buf.isSome = true ∨ c.size ≤ xioBufSize)
  if b.waiting = xioXpollMaxTaskCount then some (-(fhXioErrno eNoMem : ℤ), b)
  else
    match c.buf with
    | some _ => b.enter c none
    | none => do
      match ← fhXioAcquireSlice false b.slices c.size with
      | none => some (-(fhXioErrno eNoBufs : ℤ), b)
      | some (slice, slices) => enter { b with slices := slices } c (some slice)

/-- The seats that the error events of a batch ask for. -/
def asked (b : Backlog U) (maxEvents : ℕ) (ready : List (BitVec 32 × BitVec 32)) : List ℕ :=
  errored ((ready.filterMap fun r => (Assoc.get b.known r.1).map fun i => (r.2, i)).take maxEvents)

/-- A wait: an error event drains the seat that its descriptor was registered with. -/
def wait (b : Backlog U) (maxResults : ℕ) (ready : Option (List (BitVec 32 × BitVec 32))) :
    (ℤ × List (XioResult U)) × Backlog U :=
  if waitRoom maxResults = 0 then ((-1, []), b)
  else
    match ready with
    | none => ((-1, []), b)
    | some ready =>
      let asked := b.asked (waitRoom maxResults) ready
      let results := (drained (waitRoom maxResults) asked b.queue).map Ticket.failed
      ((results.length, results),
        { b with
          seats := b.seats.mapIdx fun i s =>
            (s.1, remaining (waitRoom maxResults) asked b.queue i) })

/-- One call. -/
def step (b : Backlog U) : EpollCall U → Option ((ℤ × List (XioResult U)) × Backlog U)
  | .recv c => (b.request c).map fun r => ((r.1, []), r.2)
  | .wait maxResults ready => some (b.wait maxResults ready)

/-- Nothing waits and nothing is registered. -/
def start (slices : SlicePool) : Backlog U := ⟨[], [], slices⟩

/-- The fd-state table of a backlog: seats are fd states, from the last one down. -/
def table (b : Backlog U) : List (IntKey × Option ℕ) :=
  (b.seats.map Prod.fst).mapIdx fun i fd => (fdKey fd, some (xioXpollMaxTaskCount - 1 - i))

end Backlog

/-- The events that a fresh fd state is registered with. -/
def readEvents : BitVec 32 := setupEvents ||| Epoll.xpollRead

/-- The state `x` is the backlog `b`, with the free tasks `ft` and the queues `q`. -/
structure Represents (x : Xio U) (b : Backlog U) (ft : List ℕ) (q : ℕ → List ℕ) : Prop where
  inv : x.Inv ft (List.range (xioXpollMaxTaskCount - b.seats.length)) q b.table
  le : b.seats.length ≤ xioXpollMaxTaskCount
  distinct : Assoc.Distinct b.seats
  queue : ∀ i < xioXpollMaxTaskCount,
    (q (xioXpollMaxTaskCount - 1 - i)).map x.tasks.ticket = (b.queue i).map some
  read : ∀ i < b.seats.length, x.ReadStored (xioXpollMaxTaskCount - 1 - i)
  xp : ∀ fd, Assoc.get x.xp fd
    = (Assoc.get b.known fd).map fun i => (readEvents, xioXpollMaxTaskCount - 1 - i)
  known : ∀ fd i, Assoc.get b.known fd = some i → i < xioXpollMaxTaskCount
  tasks : ft.length + b.waiting = xioXpollMaxTaskCount
  slices : x.slices = b.slices

/-! ### Seats -/

namespace Backlog

variable {b : Backlog U} {fd : BitVec 32} {l : List (Ticket U)} {i : ℕ}

theorem queue_of_getElem {s : BitVec 32 × List (Ticket U)} (h : b.seats[i]? = some s) :
    b.queue i = s.2 := by
  rw [queue, h]
  rfl

theorem queue_of_le (h : b.seats.length ≤ i) : b.queue i = [] := by
  rw [queue, List.getElem?_eq_none h]
  rfl

/-- A seat in the table is a fd state. -/
theorem mem_table {p : IntKey × Option ℕ} :
    p ∈ b.table ↔ ∃ i s, b.seats[i]? = some s ∧
      p = (fdKey s.1, some (xioXpollMaxTaskCount - 1 - i)) := by
  rw [table, List.mem_iff_getElem?]
  simp only [List.getElem?_mapIdx, List.getElem?_map, Option.map_eq_some_iff]
  constructor
  · rintro ⟨i, fd, ⟨s, hs, rfl⟩, rfl⟩
    exact ⟨i, s, hs, rfl⟩
  · rintro ⟨i, s, hs, rfl⟩
    exact ⟨i, s.1, ⟨s, hs, rfl⟩, rfl⟩

/-- The table knows the descriptors with a seat. -/
theorem get_table (hd : Assoc.Distinct b.table) (fd : BitVec 32) :
    ((Assoc.get b.table (fdKey fd)).join = none ↔ Assoc.get b.seats fd = none) ∧
      ∀ i l, b.seats[i]? = some (fd, l) →
        (Assoc.get b.table (fdKey fd)).join = some (xioXpollMaxTaskCount - 1 - i) := by
  have hsome : ∀ i l, b.seats[i]? = some (fd, l) →
      Assoc.get b.table (fdKey fd) = some (some (xioXpollMaxTaskCount - 1 - i)) :=
    fun i l h => (Assoc.get_eq_some_iff hd).mpr
      ⟨_, mem_table.mpr ⟨i, _, h, rfl⟩, beq_self_eq_true _, rfl⟩
  refine ⟨⟨fun hnone => ?_, fun hnone => ?_⟩, fun i l h => by rw [hsome i l h]; rfl⟩
  · cases hget : Assoc.get b.seats fd with
    | none => rfl
    | some l =>
      obtain ⟨i, hi⟩ := Assoc.exists_getElem_of_get hget
      rw [hsome i l hi] at hnone
      cases hnone
  · cases hget : Assoc.get b.table (fdKey fd) with
    | none => rfl
    | some d =>
      obtain ⟨p, hp, hk, -⟩ := (Assoc.get_eq_some_iff hd).mp hget
      obtain ⟨i, s, hs, rfl⟩ := mem_table.mp hp
      have hfd : s.1 = fd := fdKey_inj (eq_of_beq hk)
      have hno := Assoc.get_eq_none_iff.mp hnone s (List.mem_of_getElem? hs)
      rw [hfd, beq_self_eq_true] at hno
      cases hno

/-- A request at a seat that is taken. -/
theorem accept_of_seat (hd : Assoc.Distinct b.seats) (hi : b.seats[i]? = some (fd, l))
    {c : RecvCall U} (hc : c.fd = fd) :
    (b.accept c).seats.length = b.seats.length ∧ (b.accept c).table = b.table ∧
      (b.accept c).queue
        = Function.update b.queue i ((some .recv, c.udata) :: b.queue i) := by
  subst hc
  have hget : Assoc.get b.seats c.fd = some l :=
    (Assoc.get_eq_some_iff hd).mpr ⟨_, List.mem_of_getElem? hi, beq_self_eq_true _, rfl⟩
  refine ⟨?_, ?_, funext fun j => ?_⟩
  · rw [accept, Assoc.length_set, hget]
    rfl
  · rw [table, table, accept, Assoc.map_fst_set, hget]
    rfl
  · rw [queue, accept, hd.getElem_set hi, hget, Option.getD_some, Function.update_apply]
    split
    · rw [queue_of_getElem hi]
      rfl
    · rfl

/-- A request at a new seat. -/
theorem accept_of_new {c : RecvCall U} (hnone : Assoc.get b.seats c.fd = none) :
    (b.accept c).seats.length = b.seats.length + 1 ∧
      (b.accept c).table
        = b.table ++ [(fdKey c.fd, some (xioXpollMaxTaskCount - 1 - b.seats.length))] ∧
      (b.accept c).queue = Function.update b.queue b.seats.length
        ((some .recv, c.udata) :: b.queue b.seats.length) := by
  have hset : (b.accept c).seats = b.seats ++ [(c.fd, [(some .recv, c.udata)])] := by
    rw [accept, hnone]
    exact Assoc.set_of_absent hnone _
  refine ⟨?_, ?_, funext fun j => ?_⟩
  · rw [hset, List.length_append]
    rfl
  · rw [table, table, hset, List.map_append, List.mapIdx_append, List.length_map]
    rw [List.map_singleton, List.mapIdx_singleton, Nat.zero_add]
  · rw [queue, hset, queue_of_le (Nat.le_refl b.seats.length), Function.update_apply]
    split
    · rename_i hj
      rw [hj, List.getElem?_concat_length]
      rfl
    · rename_i hj
      rcases Nat.lt_or_gt_of_ne hj with hlt | hlt
      · rw [List.getElem?_append_left hlt]
        rfl
      · rw [List.getElem?_eq_none (by rw [List.length_append, List.length_singleton]; omega),
          queue_of_le hlt.le]
        rfl

theorem sum_eq_sum_range (l : List ℕ) : l.sum = ∑ i ∈ Finset.range l.length, (l[i]?).getD 0 := by
  induction l with
  | nil => rfl
  | cons n l ih =>
    rw [List.sum_cons, ih, List.length_cons, Finset.sum_range_succ', Nat.add_comm]
    rfl

/-- What waits, seat by seat. -/
theorem waiting_eq {n : ℕ} (hn : b.seats.length ≤ n) :
    b.waiting = ∑ i ∈ Finset.range n, (b.queue i).length := by
  have hlen : ∀ i, (b.queue i).length = ((b.seats.map fun s => s.2.length)[i]?).getD 0 := by
    intro i
    rw [queue, List.getElem?_map]
    cases b.seats[i]? <;> rfl
  simp only [hlen]
  obtain ⟨d, rfl⟩ := Nat.exists_eq_add_of_le hn
  rw [Finset.sum_range_add, waiting, Finset.sum_eq_zero (s := Finset.range d) (fun i _ => ?_),
    add_zero]
  · rw [sum_eq_sum_range, List.length_map]
  · rw [List.getElem?_eq_none (by rw [List.length_map]; omega)]
    rfl

end Backlog

/-! ### What a request leaves as it is -/

section Frame

variable {x x' : Xio U} {t k : ℕ}

/-- Only task `t` may have another ticket, and only fd state `k` may have lost `READ`. -/
structure Untouched (t : ℕ) (k : Option ℕ) (x x' : Xio U) : Prop where
  ticket : ∀ t' ≠ t, x'.tasks.ticket t' = x.tasks.ticket t'
  read : ∀ j ∉ k, x.ReadStored j → x'.ReadStored j

theorem Untouched.refl (t : ℕ) (k : Option ℕ) (x : Xio U) : Untouched t k x x :=
  ⟨fun _ _ => rfl, fun _ _ h => h⟩

theorem Untouched.trans {k : Option ℕ} {x₁ x₂ x₃ : Xio U} (h : Untouched t k x₁ x₂)
    (h' : Untouched t k x₂ x₃) : Untouched t k x₁ x₃ :=
  ⟨fun t' ht' => (h'.ticket t' ht').trans (h.ticket t' ht'),
    fun j hj hread => h'.read j hj (h.read j hj hread)⟩

theorem Untouched.mono {k : Option ℕ} (h : Untouched t none x x') : Untouched t k x x' :=
  ⟨h.ticket, fun j _ => h.read j (Option.not_mem_none j)⟩

/-- Neither tickets nor fd states change. -/
theorem Untouched.of_eq {k : Option ℕ} (htasks : x'.tasks.taskList = x.tasks.taskList)
    (hstates : x'.fdStates.fdStateList = x.fdStates.fdStateList) : Untouched t k x x' := by
  refine ⟨fun t' _ => congrFun (TaskPool.ticket_congr htasks) t', fun j _ hread => ?_⟩
  rw [Xio.ReadStored, hstates]
  exact hread

/-- A write to task `t`. -/
theorem Untouched.putTask {k : Option ℕ} {e e' : XioTask U}
    (he : x.tasks.taskList.read t = some e) :
    Untouched t k x { x with
      tasks := { x.tasks with taskList := x.tasks.taskList.put t e' } } :=
  ⟨fun t' ht' => by rw [TaskPool.ticket_put he, if_neg (Ne.symm ht')], fun _ _ hread => hread⟩

/-- A write to a fd state that does not take `READ` away. -/
theorem Untouched.putState {j : Option ℕ} {s : XioFdState} (s' : XioFdState)
    (hs : x.fdStates.fdStateList.read k = some s)
    (h : s.events &&& Epoll.xpollRead = Epoll.xpollRead →
      s'.events &&& Epoll.xpollRead = Epoll.xpollRead) :
    Untouched t j x { x with
      fdStates := { x.fdStates with fdStateList := x.fdStates.fdStateList.put k s' } } := by
  refine ⟨fun _ _ => rfl, fun i _ hread => ?_⟩
  obtain ⟨s₀, hs₀, hr₀⟩ := hread
  rw [Xio.ReadStored]
  rcases eq_or_ne k i with rfl | hne
  · obtain rfl : s = s₀ := Option.some.inj (hs.symm.trans hs₀)
    exact ⟨s', Block.read_put_self _ (Block.lt_of_read hs), h hr₀⟩
  · exact ⟨s₀, by rw [Block.read_put_of_ne _ hne]; exact hs₀, hr₀⟩

theorem Untouched.release {k : Option ℕ} {slice : Option ℕ}
    (h : prepRelease false x t slice = some x') : Untouched t k x x' := by
  obtain ⟨tasks, slices, htasks, -, rfl⟩ := prepRelease_eq_some h
  exact .of_eq (fhXioReleaseTask_eq_some htasks) rfl

theorem Untouched.enqueue {j : Option ℕ} (h : prepQueue x .prepIn t k = some x') :
    Untouched t j x x' := by
  obtain ⟨s, e, hs, he, rfl⟩ := prepQueue_eq_some h
  have hstate : Untouched t j x _ := .putState { s with taskInHead := some t } hs id
  exact hstate.trans (.putTask he)

/-- From the check of the events on; a request that is queued leaves `READ` stored. -/
theorem Untouched.register {env : PrepEnv} {fd : BitVec 32} {slice : Option ℕ}
    {created : Bool} {r : PrepResult U}
    (h : prepRegister false env x .prepIn fd t slice k created = some r) :
    Untouched t none x r.xio ∧ (r.prep.isSome → r.xio.ReadStored k) ∧
      ∀ p, r.prep = some p → p.1 = t := by
  cases prepRegister_cases h with
  | watched hs hread hqueue =>
    have hframe : Untouched t none x _ := .enqueue hqueue
    exact ⟨hframe, fun _ => hframe.read k (Option.not_mem_none k) ⟨_, hs, hread⟩,
      fun p hp => by rw [← Option.some.inj hp]⟩
  | @queued _ x₁ s hs hread hno hqueue =>
    have hread' := read_or_events s.events
    have hstates : Untouched t none x _ :=
      .putState { s with events := s.events ||| Epoll.xpollRead } hs fun _ => hread'
    have hframe : Untouched t none _ x₁ := .enqueue hqueue
    exact ⟨hstates.trans hframe, fun _ => hframe.read k (Option.not_mem_none k)
      ⟨_, Block.read_put_self _ (Block.lt_of_read hs), hread'⟩,
      fun p hp => by rw [← Option.some.inj hp]⟩
  | removed hs hread hreg hun hrel =>
    obtain ⟨d, p, -, hp, rfl⟩ := prepUncreate_eq_some hun
    refine ⟨.trans ?_ (.release hrel), fun hn => (by cases hn), fun _ hn => by cases hn⟩
    exact .of_eq rfl (fhXioReleaseFdState_eq_some hp)
  | refused hs hread hreg hrel =>
    refine ⟨.trans ?_ (.release hrel), fun hn => (by cases hn), fun _ hn => by cases hn⟩
    exact .of_eq rfl rfl

/-- The set-up of a fd state resets its events. -/
theorem Untouched.create {env : PrepEnv} {fd : BitVec 32}
    (h : prepCreate false env x fd k = some x') : Untouched t (some k) x x' := by
  obtain ⟨s, table, hs, -, rfl⟩ := prepCreate_eq_some h
  refine ⟨fun _ _ => rfl, fun j hj hread => ?_⟩
  obtain ⟨s₀, hs₀, hr₀⟩ := hread
  refine ⟨s₀, ?_, hr₀⟩
  rw [← hs₀]
  exact Block.read_put_of_ne _ fun he => hj (Option.mem_some.mpr he)

/-- From the lookup of the fd state on: the fd state that may be reset is one that the
request takes from the free list. -/
theorem Untouched.fdState {env : PrepEnv} {fd : BitVec 32} {slice : Option ℕ}
    {r : PrepResult U} (h : prepFdState false env x .prepIn fd t slice = some r) :
    Untouched t (if x.stateOf fd = none then x.fdStateFor fd else none) x r.xio ∧
      (r.prep.isSome → ∀ k ∈ x.fdStateFor fd, r.xio.ReadStored k) ∧
      ∀ p, r.prep = some p → p.1 = t := by
  cases prepFdState_cases h with
  | @known k _ hst hrun =>
    obtain ⟨hframe, hread, htask⟩ := Untouched.register hrun
    refine ⟨hframe.mono, fun hp j hj => ?_, htask⟩
    rw [Xio.fdStateFor_of_known hst, Option.mem_some] at hj
    exact hj ▸ hread hp
  | exhausted hst htop hrel =>
    exact ⟨.release hrel, fun hn => (by cases hn), fun _ hn => by cases hn⟩
  | @created k _ _ hst htop hk hcreate hrun =>
    have hfor := (Xio.fdStateFor_of_new hst htop).trans hk
    have htaken : Untouched t (some k) x { x with fdStates :=
        { x.fdStates with freeFdStateListTop := x.fdStates.freeFdStateListTop - 1 } } :=
      .of_eq rfl rfl
    obtain ⟨hframe, hread, htask⟩ := Untouched.register hrun
    rw [if_pos hst, hfor]
    refine ⟨htaken.trans ((Untouched.create hcreate).trans hframe.mono), fun hp j hj => ?_, htask⟩
    exact Option.mem_some.mp hj ▸ hread hp

/-- The part of a request before the lookup sets its task up. -/
theorem Untouched.begins {c : RecvCall U} {slice : Option ℕ} {x₁ : Xio U}
    (h : c.Begins false x t slice x₁) : Untouched t none x x₁ := by
  have htask : ∀ {y y' : Xio U} {flags : ℕ} {bid : Option ℕ},
      prepTask y .recv c.udata t flags bid = some y' → Untouched t none y y' := by
    intro y y' flags bid h
    obtain ⟨e, he, rfl⟩ := prepTask_eq_some h
    exact .putTask he
  obtain ⟨tasks, hacq, h⟩ := h
  obtain ⟨-, -, rfl⟩ := fhXioAcquireTask_eq_some hacq
  rcases h with ⟨-, h⟩ | ⟨b, slices, s, -, -, -, h⟩
  · refine .trans ?_ (htask h)
    exact .of_eq rfl rfl
  · refine .trans ?_ (htask h)
    exact .of_eq rfl rfl

/-- A whole request, whose task is the last of the free ones. -/
theorem recv_frame {c : RecvCall U} {ret : ℤ} {ft : List ℕ} (hwf : x.tasks.Wf ft)
    (hrun : c.run x = some (ret, x')) :
    (∀ t ∉ ft.getLast?, x'.tasks.ticket t = x.tasks.ticket t) ∧
      (∀ j, x.ReadStored j → (x.stateOf c.fd = none → j ∉ x.fdStateFor c.fd) →
        x'.ReadStored j) ∧
      (ret = 0 → ∀ k ∈ x.fdStateFor c.fd, x'.ReadStored k) := by
  have hlast : ∀ {t tasks}, fhXioAcquireTask x.tasks = some (some (t, tasks)) →
      t ∈ ft.getLast? := by
    intro t tasks hacq
    obtain ⟨htop, hread, -⟩ := fhXioAcquireTask_eq_some hacq
    obtain ⟨ft', t₁, rfl, hread', -⟩ := hwf.stack.pop htop
    rw [hread, Option.some_inj] at hread'
    rw [hread', List.getLast?_concat]
    rfl
  have hrun : c.runWith false x = some (ret, x') := hrun
  obtain ⟨r, hprep, hend, hret⟩ := runWith_prep hrun
  rcases prep_steps hprep with ⟨-, hnone, hx⟩ | ⟨-, t, slice, x₁, hbegin, hrun⟩
  · have hx' : x' = r.xio := by
      rcases hend with ⟨-, hx'⟩ | ⟨p, -, -, hp, -⟩
      · exact hx'
      · rw [hnone] at hp
        cases hp
    have hret : ret ≠ 0 := fun h0 => by
      rw [hnone] at hret
      exact Bool.false_ne_true (hret.mp h0)
    subst hx'
    rcases hx with hx | ⟨t, tasks, hacq, hrel⟩
    · rw [hx]
      exact ⟨fun _ _ => rfl, fun _ hread _ => hread, fun h0 => absurd h0 hret⟩
    · have htaken : Untouched t none x { x with tasks := tasks } := by
        obtain ⟨-, -, rfl⟩ := fhXioAcquireTask_eq_some hacq
        exact .of_eq rfl rfl
      have hframe := htaken.trans (.release hrel)
      exact ⟨fun t' ht' => hframe.ticket t' fun he => ht' (he ▸ hlast hacq),
        fun j hread _ => hframe.read j (Option.not_mem_none j) hread, fun h0 => absurd h0 hret⟩
  · have hfirst := Untouched.begins hbegin
    obtain ⟨hmid, hread, hp⟩ := Untouched.fdState hrun
    obtain ⟨hst, htab, -⟩ := hbegin.same
    have hfor : x₁.fdStateFor c.fd = x.fdStateFor c.fd := Xio.fdStateFor_congr hst htab c.fd
    have hstate : x₁.stateOf c.fd = x.stateOf c.fd := by rw [Xio.stateOf, htab]; rfl
    rw [hfor, hstate] at hmid
    rw [hfor] at hread
    have hfin : Untouched t none r.xio x' := by
      rcases hend with ⟨-, rfl⟩ | ⟨p, recv, taskList, hpr, hm, rfl⟩
      · exact .refl _ _ _
      · obtain ⟨e, he, rfl⟩ := Block.modify_eq_some hm
        rw [hp p hpr] at he ⊢
        exact .putTask he
    have hall := (hfirst.mono.trans hmid).trans hfin.mono
    obtain ⟨tasks, hacq, -⟩ := hbegin
    refine ⟨fun t' ht' => hall.ticket t' fun he => ht' (he ▸ hlast hacq),
      fun j hread hj => hall.read j ?_ hread, fun h0 k hk =>
        hfin.read k (Option.not_mem_none k) (hread (hret.mp h0) k hk)⟩
    split
    · exact hj ‹_›
    · exact Option.not_mem_none j

end Frame

/-! ### Requests -/

namespace Represents

variable {x x' : Xio U} {b : Backlog U} {ft ft' : List ℕ} {q : ℕ → List ℕ}

/-- The tickets of the queued tasks do not change. -/
theorem queue_congr (h : Represents x b ft q) {b' : Backlog U} (hb : b'.queue = b.queue)
    (hticket : ∀ k < xioXpollMaxTaskCount, ∀ t ∈ q k, x'.tasks.ticket t = x.tasks.ticket t) :
    ∀ i < xioXpollMaxTaskCount,
      (q (xioXpollMaxTaskCount - 1 - i)).map x'.tasks.ticket = (b'.queue i).map some := by
  intro i hi
  rw [hb, ← h.queue i hi]
  exact List.map_congr_left fun t ht => hticket _ (by omega) t ht

/-- A task that is queued is not one of the free ones. -/
theorem ne_last (h : Represents x b ft q) {k t : ℕ} (ht : t ∈ q k) : t ∉ ft.getLast? :=
  fun hl => h.inv.apart.not_free k t ht (List.mem_of_getLast? hl)

/-- A request was queued at seat `i`. -/
theorem accept (h : Represents x b ft q) {c : RecvCall U} {i t : ℕ} {slices : SlicePool}
    (hi : i < xioXpollMaxTaskCount) (hft : ft = ft' ++ [t])
    (hlen : (b.accept c).seats.length ≤ xioXpollMaxTaskCount)
    (hqueue : (b.accept c).queue = Function.update b.queue i ((some .recv, c.udata) :: b.queue i))
    (hinv : x'.Inv ft' (List.range (xioXpollMaxTaskCount - (b.accept c).seats.length))
      (Function.update q (xioXpollMaxTaskCount - 1 - i) (t :: q (xioXpollMaxTaskCount - 1 - i)))
      (b.accept c).table)
    (hread : ∀ i < (b.accept c).seats.length, x'.ReadStored (xioXpollMaxTaskCount - 1 - i))
    (hticket : ∀ t ∉ ft.getLast?, x'.tasks.ticket t = x.tasks.ticket t)
    (ht : x'.tasks.ticket t = some (some .recv, c.udata)) (hxp : x'.xp = x.xp)
    (hslices : x'.slices = slices) :
    Represents x' ({ b with slices := slices }.accept c) ft'
      (Function.update q (xioXpollMaxTaskCount - 1 - i)
        (t :: q (xioXpollMaxTaskCount - 1 - i))) where
  inv := hinv
  le := hlen
  distinct := h.distinct.set _ _
  queue j hj := by
    show _ = ((b.accept c).queue j).map some
    rw [hqueue]
    have hold : ∀ k, (q k).map x'.tasks.ticket = (q k).map x.tasks.ticket := fun k =>
      List.map_congr_left fun t' ht' => hticket t' (h.ne_last ht')
    rcases eq_or_ne j i with rfl | hne
    · rw [Function.update_self, Function.update_self, List.map_cons, List.map_cons, ht, hold,
        h.queue j hi]
    · rw [Function.update_of_ne hne, Function.update_of_ne (by omega), hold, h.queue j hj]
  read := hread
  xp fd := by
    rw [hxp]
    exact h.xp fd
  known := h.known
  tasks := by
    have hsum := h.tasks
    rw [b.waiting_eq h.le, hft, List.length_append, List.length_singleton] at hsum
    show _ + (b.accept c).waiting = _
    have hadd := sum_update_add List.length (Finset.mem_range.mpr hi) b.queue
      ((some XioOp.recv, c.udata) :: b.queue i)
    rw [(b.accept c).waiting_eq hlen, hqueue]
    rw [List.length_cons] at hadd
    omega
  slices := hslices

/-- A request was turned away, and its task is free again. -/
theorem refuse (h : Represents x b ft q) {known : List (BitVec 32 × ℕ)} {slices : SlicePool}
    (hinv : x'.Inv ft (List.range (xioXpollMaxTaskCount - b.seats.length)) q b.table)
    (hread : ∀ i < b.seats.length, x'.ReadStored (xioXpollMaxTaskCount - 1 - i))
    (hticket : ∀ t ∉ ft.getLast?, x'.tasks.ticket t = x.tasks.ticket t)
    (hxp : ∀ fd, Assoc.get x'.xp fd
      = (Assoc.get known fd).map fun i => (readEvents, xioXpollMaxTaskCount - 1 - i))
    (hknown : ∀ fd i, Assoc.get known fd = some i → i < xioXpollMaxTaskCount)
    (hslices : x'.slices = slices) :
    Represents x' { b with known := known, slices := slices } ft q where
  inv := hinv
  le := h.le
  distinct := h.distinct
  queue := h.queue_congr rfl fun _ _ t ht => hticket t (h.ne_last ht)
  read := hread
  xp := hxp
  known := hknown
  tasks := h.tasks
  slices := hslices

/-- The fd state of a descriptor is its seat. -/
theorem stateOf_eq (h : Represents x b ft q) {fd : BitVec 32} :
    (x.stateOf fd = none ↔ Assoc.get b.seats fd = none) ∧
      ∀ i l, b.seats[i]? = some (fd, l) → x.stateOf fd = some (xioXpollMaxTaskCount - 1 - i) := by
  rw [h.inv.stateOf_eq]
  exact Backlog.get_table h.inv.table.distinct fd

/-- The next seat is the fd state on top of the free list. -/
theorem fdStateFor_eq (h : Represents x b ft q) {fd : BitVec 32} (hst : x.stateOf fd = none) :
    x.fdStateFor fd = if b.seats.length = xioXpollMaxTaskCount then none
      else some (xioXpollMaxTaskCount - 1 - b.seats.length) := by
  have hle := h.le
  have htop := h.inv.states.stack.length_eq
  rw [List.length_range] at htop
  rw [Xio.fdStateFor, hst]
  dsimp only
  by_cases hfull : b.seats.length = xioXpollMaxTaskCount
  · rw [if_pos hfull, if_pos (by omega)]
  · rw [if_neg hfull, if_neg (by omega)]
    obtain ⟨k, fs', hfs, hread, -⟩ := h.inv.acquireFdState (by omega)
    obtain ⟨n, hn⟩ := Nat.exists_eq_succ_of_ne_zero
      (show xioXpollMaxTaskCount - b.seats.length ≠ 0 by omega)
    rw [hn, List.range_succ] at hfs
    obtain ⟨-, hk⟩ := List.append_inj' hfs rfl
    rw [hread, ← List.singleton_inj.mp hk]
    congr 1
    omega

/-- A slice that cannot be released cannot be given back. -/
theorem giveBack_of_not {p : SlicePool} {free : List ℕ} (hwf : p.Wf free) {slice : Option ℕ}
    (hslice : ∀ b ∈ slice, b < xioBufCount) (hno : ¬ p.Releasable slice) :
    p.giveBack slice = none := by
  cases slice with
  | none => exact absurd p.releasable_none hno
  | some b =>
    obtain ⟨s, hs, -⟩ := hwf.slice b (hslice b rfl)
    rcases hwf.fhXioReleaseSlice_eq (hslice b rfl) hs with ⟨hnone, -⟩ | ⟨p', -, -, -, hok⟩
    · exact hnone
    · exact absurd ((SlicePool.releasable_some hs).mpr hok) hno

end Represents

/-- A request has its task and its slice in hand, in state `x₁`. -/
structure UnderWay (x x₁ : Xio U) (b : Backlog U) (c : RecvCall U) (t : ℕ) (slice : Option ℕ)
    (ft₁ : List ℕ) (q : ℕ → List ℕ) : Prop where
  run : c.run x = (prepFdState false c.env x₁ .prepIn c.fd t slice).bind c.finish
  inv : x₁.Inv ft₁ (List.range (xioXpollMaxTaskCount - b.seats.length)) q b.table
  xp : x₁.xp = x.xp
  stateOf : x₁.stateOf c.fd = x.stateOf c.fd
  fdStateFor : x₁.fdStateFor c.fd = x.fdStateFor c.fd
  readStored : ∀ k, x₁.ReadStored k ↔ x.ReadStored k
  taken : Taken ft₁ q t
  task : ∃ e, x₁.tasks.taskList.read t = some e ∧ e.op = some .recv ∧ e.udata = c.udata
  slice_lt : ∀ b ∈ slice, b < xioBufCount
  ready : c.BufReady x₁ slice

namespace UnderWay

variable {x x₁ x₂ : Xio U} {b : Backlog U} {c : RecvCall U} {t : ℕ} {slice : Option ℕ}
  {ft ft₁ fs' : List ℕ} {q q' : ℕ → List ℕ} {m' : List (IntKey × Option ℕ)}

/-- The end of a request that was queued. -/
theorem queued (h : UnderWay x x₁ b c t slice ft₁ q) {e e₂ : XioTask U}
    (he : x₁.tasks.taskList.read t = some e)
    (hr : prepFdState false c.env x₁ .prepIn c.fd t slice
      = some ⟨some (t, slice), c.env.errno, x₂⟩)
    (hinv : x₂.Inv ft₁ fs' q' m') (hxp : x₂.xp = x₁.xp) (hslices : x₂.slices = x₁.slices)
    (he₂ : x₂.tasks.taskList.read t = some e₂) (hsame : e.Same e₂) :
    ∃ x', c.run x = some (0, x') ∧ x'.Inv ft₁ fs' q' m' ∧ x'.xp = x.xp ∧
      x'.slices = x₁.slices ∧ x'.tasks.ticket t = some (some .recv, c.udata) := by
  have hready : c.BufReady x₂ slice := by
    rw [RecvCall.BufReady, hslices]
    exact h.ready
  obtain ⟨e₁, he₁, hop, hud⟩ := h.task
  rw [he, Option.some_inj] at he₁
  obtain ⟨x', e', hfin, hinv', hxp', he', hsame'⟩ :=
    c.finish_some hinv c.env.errno h.taken.1 he₂ hready
  refine ⟨x', by rw [h.run, hr]; exact hfin, hinv', hxp'.trans (hxp.trans h.xp), ?_, ?_⟩
  · rw [← hslices]
    obtain ⟨rb, -, hfin⟩ := Option.bind_eq_some_iff.mp hfin
    obtain ⟨taskList, -, hfin⟩ := Option.bind_eq_some_iff.mp hfin
    rw [← (Prod.mk.inj (Option.some.inj hfin)).2]
  · rw [TaskPool.ticket, he', Option.map_some, hsame'.1, hsame.1, hsame'.2, hsame.2, he₁, hop, hud]

/-- The end of a request that was turned away. -/
theorem refused (h : UnderWay x x₁ b c t slice ft₁ q) {errno : ℕ}
    (hr : prepFdState false c.env x₁ .prepIn c.fd t slice = some ⟨none, errno, x₂⟩) :
    c.run x = some (-(fhXioErrno errno : ℤ), x₂) := by
  rw [h.run, hr]
  rfl

/-- The descriptor has a seat. -/
theorem seated (h : UnderWay x x₁ b c t slice ft₁ q) (hb : Represents x b ft q)
    (hft : ft = ft₁ ++ [t]) {i : ℕ} {l : List (Ticket U)} (hi : b.seats[i]? = some (c.fd, l)) :
    ∃ x' ft' q', c.run x = some (0, x') ∧
      Represents x' ({ b with slices := x₁.slices }.accept c) ft' q' := by
  have hil : i < b.seats.length := (List.getElem?_eq_some_iff.mp hi).1
  have hst := hb.stateOf_eq.2 i l hi
  have hread : x₁.ReadStored (xioXpollMaxTaskCount - 1 - i) := (h.readStored _).mpr (hb.read i hil)
  obtain ⟨e, he, -⟩ := h.task
  obtain ⟨x₂, e₂, hr, hinv₂, hxp₂, hsl₂, he₂, hsame⟩ :=
    h.inv.prepFdState_of_passes c.env h.taken he slice (h.stateOf.trans hst) (by
      rw [PrepEnv.GoesThrough, h.stateOf, hst, Option.isSome_some, if_pos rfl]
      exact .inl hread)
  obtain ⟨x', hrun, hinv', hxp', hsl', hticket⟩ := h.queued he hr hinv₂ hxp₂ hsl₂ he₂ hsame
  obtain ⟨hlen, htable, hqueue⟩ := Backlog.accept_of_seat hb.distinct hi rfl
  obtain ⟨hframe, hstored, -⟩ := recv_frame hb.inv.tasks hrun
  refine ⟨x', _, _, hrun, hb.accept (hil.trans_le hb.le) hft (hlen.symm ▸ hb.le) hqueue ?_ ?_ hframe
    hticket hxp' hsl'⟩
  · rw [hlen, htable]
    exact hinv'
  · rw [hlen]
    refine fun j hj => hstored _ (hb.read j hj) fun hnone => ?_
    rw [hst] at hnone
    cases hnone

/-- All seats are taken. -/
theorem full (h : UnderWay x x₁ b c t slice ft₁ q) (hb : Represents x b ft q)
    (hft : ft = ft₁ ++ [t]) (hnone : Assoc.get b.seats c.fd = none)
    (hfull : b.seats.length = xioXpollMaxTaskCount) :
    (c.run x = none ∧ x₁.slices.giveBack slice = none) ∨
      ∃ x' slices, c.run x = some (-(fhXioErrno eNoMem : ℤ), x') ∧
        x₁.slices.giveBack slice = some slices ∧
        Represents x' { b with slices := slices } ft q := by
  have hst := hb.stateOf_eq.1.mpr hnone
  have hfor := hb.fdStateFor_eq hst
  rw [if_pos hfull] at hfor
  obtain ⟨free, hwf⟩ := h.inv.slices
  rcases h.inv.prepFdState_of_none c.env h.taken h.slice_lt (h.fdStateFor.trans hfor) with
    ⟨hno, hrun⟩ | ⟨-, x', hr, hinv', hxp', hstates, hgive⟩
  · exact .inl ⟨by rw [h.run, hrun]; rfl, Represents.giveBack_of_not hwf h.slice_lt hno⟩
  · have hrun := h.refused hr
    obtain ⟨hframe, hstored, -⟩ := recv_frame hb.inv.tasks hrun
    refine .inr ⟨x', _, hrun, hgive, hb.refuse (hft ▸ hinv') (fun i hi => ?_) hframe (fun fd => ?_)
      hb.known rfl⟩
    · refine hstored _ (hb.read i hi) fun _ => ?_
      rw [hfor]
      exact Option.not_mem_none _
    · rw [hxp', h.xp]
      exact hb.xp fd

/-- The descriptor gets a seat, or is registered for the next time. -/
theorem fresh (h : UnderWay x x₁ b c t slice ft₁ q) (hb : Represents x b ft q)
    (hans : c.Answered x) (hft : ft = ft₁ ++ [t])
    (hnone : Assoc.get b.seats c.fd = none) (hfull : b.seats.length ≠ xioXpollMaxTaskCount) :
    (c.fd.msb = true ∨ (Assoc.get b.known c.fd).isSome → ∃ x' ft' q', c.run x = some (0, x') ∧
      Represents x' ({ b with slices := x₁.slices }.accept c) ft' q') ∧
    (¬ (c.fd.msb = true ∨ (Assoc.get b.known c.fd).isSome) →
      (c.run x = none ∧ x₁.slices.giveBack slice = none) ∨
      ∃ x' slices, c.run x = some (-(fhXioErrno c.env.errno : ℤ), x') ∧
        x₁.slices.giveBack slice = some slices ∧
        Represents x' { b with known := Assoc.set b.known c.fd b.seats.length, slices := slices }
          ft q) := by
  have hle := hb.le
  have hst := hb.stateOf_eq.1.mpr hnone
  have hfor := hb.fdStateFor_eq hst
  rw [if_neg hfull] at hfor
  obtain ⟨free, hwf⟩ := h.inv.slices
  obtain ⟨e, he, -⟩ := h.task
  obtain ⟨hk, hget, hgo, hno⟩ := h.inv.prepFdState_of_new c.env h.taken he h.slice_lt
    (h.stateOf.trans hst) (h.fdStateFor.trans hfor)
  have hsuffice : (intSetAlloc c.env.htCalloc c.env.htMalloc c.env.htShrink (fdKey c.fd)).Suffice
      x₁.fdStateTable := ⟨fun _ => ⟨hans.htCalloc, hans.htMalloc⟩, rfl⟩
  -- The request is let through exactly if `epoll_ctl` fails.
  have hgoes : c.env.GoesThrough x₁ c.fd (xioXpollMaxTaskCount - 1 - b.seats.length)
      ↔ c.fd.msb = true ∨ (Assoc.get b.known c.fd).isSome := by
    rw [PrepEnv.GoesThrough, h.stateOf, hst, Option.isSome_none, if_neg Bool.false_ne_true,
      and_iff_right hsuffice, PrepEnv.Registers, hans.xpollRet, hst, hb.xp, Option.isSome_map]
    cases (Assoc.get b.known c.fd).isSome <;> cases c.fd.msb <;> simp
  -- The queue of the fd state was empty.
  have hidle : q (xioXpollMaxTaskCount - 1 - b.seats.length) = [] := by
    have hq := hb.queue b.seats.length (by omega)
    rw [Backlog.queue_of_le (Nat.le_refl _)] at hq
    exact List.map_eq_nil_iff.mp hq
  refine ⟨fun hyes => ?_, fun hyes => ?_⟩
  · obtain ⟨x₂, e₂, fs', hfs, hr, hinv₂, hxp₂, hsl₂, he₂, hsame⟩ := hgo (hgoes.mpr hyes)
    obtain ⟨x', hrun, hinv', hxp', hsl', hticket⟩ := h.queued he hr hinv₂ hxp₂ hsl₂ he₂ hsame
    obtain ⟨hlen, htable, hqueue⟩ := Backlog.accept_of_new (c := c) hnone
    obtain ⟨hframe, hstored, hnew⟩ := recv_frame hb.inv.tasks hrun
    refine ⟨x', _, _, hrun, hb.accept (i := b.seats.length) (by omega) hft (by omega) hqueue ?_ ?_
      hframe hticket hxp' hsl'⟩
    · obtain ⟨n, hn⟩ := Nat.exists_eq_succ_of_ne_zero
        (show xioXpollMaxTaskCount - b.seats.length ≠ 0 by omega)
      rw [hn, List.range_succ] at hfs
      obtain ⟨rfl, -⟩ := List.append_inj' hfs rfl
      rw [hlen, htable, hidle, show xioXpollMaxTaskCount - (b.seats.length + 1) = n by omega]
      exact hinv'
    · rw [hlen]
      intro j hj
      rcases Nat.lt_or_ge j b.seats.length with hlt | hge
      · refine hstored _ (hb.read j hlt) fun _ => ?_
        rw [hfor, Option.mem_some]
        omega
      · obtain rfl : j = b.seats.length := by omega
        exact hnew rfl _ (hfor ▸ rfl)
  · rcases hno fun hg => hyes (hgoes.mp hg) with
      ⟨hns, hrun⟩ | ⟨x', s, -, -, hr, hinv', hset, -, -, hgive⟩
    · exact .inl ⟨by rw [h.run, hrun]; rfl,
        Represents.giveBack_of_not hwf h.slice_lt fun hrel => hns hrel hsuffice⟩
    · rw [if_pos (.inl hans.htGrow)] at hr hinv'
      have hrun := h.refused hr
      obtain ⟨hframe, hstored, -⟩ := recv_frame hb.inv.tasks hrun
      have hq : Function.update q (xioXpollMaxTaskCount - 1 - b.seats.length) [] = q := by
        rw [← hidle, Function.update_eq_self]
      rw [hq, ← hft] at hinv'
      refine .inr ⟨x', _, hrun, hgive, hb.refuse hinv' (fun i hi => ?_) hframe (fun fd => ?_)
        (fun fd i hi => ?_) rfl⟩
      · refine hstored _ (hb.read i hi) fun _ => ?_
        rw [hfor, Option.mem_some]
        omega
      · rw [hset, Assoc.get_set, Assoc.get_set, h.xp, hb.xp]
        split <;> rfl
      · rw [Assoc.get_set] at hi
        split at hi
        · rw [← Option.some.inj hi]
          omega
        · exact hb.known fd i hi

/-- Behind its task and its slice a request does to the state what it does to the
backlog. -/
theorem enter (h : UnderWay x x₁ b c t slice ft₁ q) (hb : Represents x b ft q)
    (hans : c.Answered x) (hft : ft = ft₁ ++ [t]) :
    (c.run x = none ∧ { b with slices := x₁.slices }.enter c slice = none) ∨
      ∃ ret x' b' ft' q', c.run x = some (ret, x') ∧
        { b with slices := x₁.slices }.enter c slice = some (ret, b') ∧
        Represents x' b' ft' q' := by
  rw [Backlog.enter]
  dsimp only
  cases hget : Assoc.get b.seats c.fd with
  | some l =>
    obtain ⟨i, hi⟩ := Assoc.exists_getElem_of_get hget
    obtain ⟨x', ft', q', hrun, hrep⟩ := h.seated hb hft hi
    exact .inr ⟨0, x', _, ft', q', hrun, rfl, hrep⟩
  | none =>
    rw [Option.isSome_none, if_neg Bool.false_ne_true]
    by_cases hfull : b.seats.length = xioXpollMaxTaskCount
    · rw [if_pos hfull]
      rcases h.full hb hft hget hfull with ⟨hrun, hgive⟩ | ⟨x', slices, hrun, hgive, hrep⟩
      · exact .inl ⟨hrun, by rw [hgive]; rfl⟩
      · exact .inr ⟨_, x', _, ft, q, hrun, by rw [hgive]; rfl, hrep⟩
    · rw [if_neg hfull]
      obtain ⟨hyes, hno⟩ := h.fresh hb hans hft hget hfull
      by_cases hknown : c.fd.msb = true ∨ (Assoc.get b.known c.fd).isSome
      · rw [if_pos hknown]
        obtain ⟨x', ft', q', hrun, hrep⟩ := hyes hknown
        exact .inr ⟨0, x', _, ft', q', hrun, rfl, hrep⟩
      · rw [if_neg hknown]
        rcases hno hknown with ⟨hrun, hgive⟩ | ⟨x', slices, hrun, hgive, hrep⟩
        · exact .inl ⟨hrun, by rw [hgive]; rfl⟩
        · exact .inr ⟨_, x', _, ft, q, hrun, by rw [hgive]; rfl, hrep⟩

end UnderWay

/-! ### Calls -/

namespace Represents

variable {x x' : Xio U} {b : Backlog U} {ft : List ℕ} {q : ℕ → List ℕ}

/-- A request finds no task exactly if the backlog is full. -/
theorem top_eq_zero_iff (h : Represents x b ft q) :
    x.tasks.freeTaskListTop = 0 ↔ b.waiting = xioXpollMaxTaskCount := by
  have hlen := h.inv.tasks.stack.length_eq
  have htasks := h.tasks
  omega

/-- A request without a task or without a slice changes nothing. -/
theorem starved (h : Represents x b ft q) {c : RecvCall U} (hadm : c.Admissible)
    (hno : ¬(x.tasks.freeTaskListTop ≠ 0 ∧ (c.buf = none → (c.slice x).isSome))) :
    ∃ x', c.run x
        = some (-(fhXioErrno (if x.tasks.freeTaskListTop = 0 then eNoMem else eNoBufs) : ℤ), x') ∧
      Represents x' b ft q := by
  obtain ⟨ret, -, x', hrun, hinv, hxp, hst, hsl, hret⟩ := h.inv.recv_starved hadm hno
  obtain ⟨hframe, -⟩ := recv_frame h.inv.tasks hrun
  rw [hret] at hrun
  refine ⟨x', hrun, h.refuse hinv (fun i hi => ?_) hframe (fun fd => ?_) h.known
    (hsl.trans h.slices)⟩
  · rw [Xio.ReadStored, hst]
    exact h.read i hi
  · rw [hxp]
    exact h.xp fd

/-- Otherwise it goes on with both. -/
theorem underWay (h : Represents x b ft q) {c : RecvCall U} (hadm : c.Admissible)
    (htop : x.tasks.freeTaskListTop ≠ 0) (hbuf : c.buf = none → (c.slice x).isSome) :
    ∃ x₁ t ft₁ slice, ft = ft₁ ++ [t] ∧ UnderWay x x₁ b c t slice ft₁ q ∧
      c.TakesSlice x slice x₁.slices := by
  obtain ⟨x₁, t, ft₁, e, slice, hft, hrun, hinv, hxp, hst, htab, ht, he, hop, hud, hslice, hready,
    -, htakes⟩ := h.inv.recv_start hadm htop hbuf
  exact ⟨x₁, t, ft₁, slice, hft,
    { run := hrun
      inv := hinv
      xp := hxp
      stateOf := by rw [Xio.stateOf, htab]; rfl
      fdStateFor := Xio.fdStateFor_congr hst htab c.fd
      readStored := fun k => by rw [Xio.ReadStored, hst]; rfl
      taken := ht
      task := ⟨e, he, hop, hud⟩
      slice_lt := hslice
      ready := hready }, htakes⟩

/-- A request answers as the backlog does. -/
theorem recv (h : Represents x b ft q) {c : RecvCall U} (hans : c.Answered x) :
    (c.run x = none ∧ b.request c = none) ∨
      ∃ ret x' b' ft' q', c.run x = some (ret, x') ∧ b.request c = some (ret, b') ∧
        Represents x' b' ft' q' := by
  rw [Backlog.request]
  by_cases hadm : c.Admissible
  swap
  · -- The assert fails.
    have hassert : cAssert false (c.buf.isSome = true ∨ c.size ≤ xioBufSize) = none :=
      if_neg fun hok => hadm (hok.resolve_left Bool.false_ne_true)
    refine .inl ⟨?_, by rw [hassert]; rfl⟩
    cases hrun : c.run x with
    | none => rfl
    | some r => exact absurd (RecvCall.admissible_of_run hrun) hadm
  rw [cAssert_of (show c.buf.isSome = true ∨ c.size ≤ xioBufSize from hadm),
    Option.bind_eq_bind, Option.bind_some]
  by_cases htop : x.tasks.freeTaskListTop = 0
  · obtain ⟨x', hrun, hrep⟩ := h.starved hadm (fun hstart => hstart.1 htop)
    rw [if_pos htop] at hrun
    rw [if_pos (h.top_eq_zero_iff.mp htop)]
    exact .inr ⟨_, x', b, ft, q, hrun, rfl, hrep⟩
  rw [if_neg fun hw => htop (h.top_eq_zero_iff.mpr hw)]
  cases hbuf : c.buf with
  | some buf =>
    obtain ⟨x₁, t, ft₁, slice, hft, hway, htakes⟩ := h.underWay hadm htop fun hn => by
      rw [hbuf] at hn
      cases hn
    cases slice with
    | some s =>
      rw [htakes.1] at hbuf
      cases hbuf
    | none =>
      have henter := hway.enter h hans hft
      rw [htakes.2, h.slices] at henter
      exact henter
  | none =>
    obtain ⟨free, hwf⟩ := h.inv.slices
    have hsize : c.size ≤ xioBufSize := hadm.resolve_left (by rw [hbuf]; exact Bool.false_ne_true)
    rcases hwf.fhXioAcquireSlice_eq false hsize with ⟨hacq, hnone⟩ | ⟨s, _, p, _, hacq, hsome, -⟩
    · obtain ⟨x', hrun, hrep⟩ := h.starved hadm fun hstart => by
        have := hstart.2 hbuf
        rw [RecvCall.slice, hnone] at this
        cases this
      rw [if_neg htop] at hrun
      rw [h.slices] at hacq
      simp only [hacq]
      exact .inr ⟨_, x', b, ft, q, hrun, rfl, hrep⟩
    · obtain ⟨x₁, t, ft₁, slice, hft, hway, htakes⟩ := h.underWay hadm htop fun _ => by
        rw [RecvCall.slice, hsome]
        rfl
      cases slice with
      | none =>
        have hsome := htakes.1
        rw [hbuf] at hsome
        cases hsome
      | some s' =>
        have henter := hway.enter h hans hft
        have hacq' := htakes.2
        rw [h.slices] at hacq'
        simp only [hacq']
        exact henter

/-- The kernel reports fd states where the backlog has seats. -/
theorem errored_eq (h : Represents x b ft q) (maxEvents : ℕ)
    (ready : List (BitVec 32 × BitVec 32)) :
    let events :=
      (ready.filterMap fun r => (Assoc.get x.xp r.1).map fun reg => (r.2, reg.2)).take maxEvents
    (∀ e ∈ events, e.2 < xioXpollMaxTaskCount) ∧
      errored events = (b.asked maxEvents ready).map (xioXpollMaxTaskCount - 1 - ·) ∧
      ∀ i ∈ b.asked maxEvents ready, i < xioXpollMaxTaskCount := by
  intro events
  have hevents : events = ((ready.filterMap fun r => (Assoc.get b.known r.1).map
      fun i => (r.2, i)).take maxEvents).map
        fun e => (e.1, xioXpollMaxTaskCount - 1 - e.2) := by
    rw [List.map_take, List.map_filterMap]
    simp only [events, h.xp, Option.map_map]
    rfl
  refine ⟨fun e he => ?_, ?_, fun i hi => ?_⟩
  · rw [hevents] at he
    obtain ⟨e', -, rfl⟩ := List.mem_map.mp he
    show xioXpollMaxTaskCount - 1 - e'.2 < xioXpollMaxTaskCount
    rw [xioXpollMaxTaskCount]
    omega
  · rw [hevents, errored, List.filter_map, List.map_map, Backlog.asked, errored, List.map_map]
    rfl
  · obtain ⟨mask, hm, -⟩ := mem_errored.mp hi
    obtain ⟨r, -, hr⟩ := List.mem_filterMap.mp (List.mem_of_mem_take hm)
    obtain ⟨i', hi', he⟩ := Option.map_eq_some_iff.mp hr
    rw [← (Prod.mk.inj he).2]
    exact h.known r.1 i' hi'

end Represents

/-- A wait leaves the seats to whom they belong. -/
theorem Backlog.keys_mapIdx (b : Backlog U) (f : ℕ → List (Ticket U)) :
    (b.seats.mapIdx fun i s => (s.1, f i)).map Prod.fst = b.seats.map Prod.fst := by
  refine List.ext_getElem? fun i => ?_
  rw [List.getElem?_map, List.getElem?_mapIdx, List.getElem?_map, Option.map_map]
  rfl

/-- The queues of a backlog behind a wait. -/
theorem Backlog.queue_mapIdx (b : Backlog U) (room : ℕ) (asked : List ℕ) :
    Backlog.queue { b with seats := b.seats.mapIdx fun i s =>
      (s.1, remaining room asked b.queue i) } = remaining room asked b.queue := by
  funext i
  rw [queue, List.getElem?_mapIdx]
  cases hs : b.seats[i]? with
  | some s => rfl
  | none =>
    have hsuf := remaining_suffix room asked b.queue i
    rw [queue_of_le (List.getElem?_eq_none_iff.mp hs)] at hsuf
    rw [List.suffix_nil.mp hsuf]
    rfl

namespace Represents

variable {x x' : Xio U} {b : Backlog U} {ft : List ℕ} {q : ℕ → List ℕ}

/-- A wait answers as the backlog does. -/
theorem wait (h : Represents x b ft q) (maxResults : ℕ)
    (ready : Option (List (BitVec 32 × BitVec 32))) :
    ∃ x' ft' q', epollStep x (.wait maxResults ready) = some ((b.wait maxResults ready).1, x') ∧
      Represents x' (b.wait maxResults ready).2 ft' q' := by
  rw [epollStep, epollWait]
  unfold Backlog.wait
  by_cases hroom : waitRoom maxResults = 0
  · rw [if_pos hroom, if_pos hroom]
    exact ⟨x, ft, q, rfl, h⟩
  rw [if_neg hroom, if_neg hroom]
  cases ready with
  | none => exact ⟨x, ft, q, rfl, h⟩
  | some ready =>
    obtain ⟨hev, herrored, hasked⟩ := h.errored_eq (waitRoom maxResults) ready
    set events := (ready.filterMap fun r => (Assoc.get x.xp r.1).map fun reg =>
      (r.2, reg.2)).take (waitRoom maxResults)
    set asked := b.asked (waitRoom maxResults) ready
    set room := waitRoom maxResults
    obtain ⟨results, tasks, states, hwait, hinv, hlist, hsame, hres⟩ :=
      h.inv.wait false maxResults hev
    rw [herrored] at hinv hres
    -- The queues of the fd states are those of the seats.
    have hinj : ∀ i j, i < xioXpollMaxTaskCount → j < xioXpollMaxTaskCount →
        xioXpollMaxTaskCount - 1 - i = xioXpollMaxTaskCount - 1 - j → i = j :=
      fun i j hi hj he => by omega
    obtain ⟨hdrained, hremaining⟩ :=
      drained_image hinj hasked (fun i hi => (h.queue i hi).symm) room
    obtain ⟨hdrained', hremaining'⟩ := drained_image (f := id) (g := some) (S := fun _ => True)
      (fun _ _ _ _ he => he) (fun i (_ : i ∈ asked) => trivial)
      (fun i _ => (rfl : (b.queue i).map some = _)) room
    rw [List.map_id] at hdrained' hremaining'
    have hresults : results = (drained room asked b.queue).map Ticket.failed := by
      refine List.map_injective_iff.mpr (Option.some_injective _) ?_
      have herr : x.tasks.errorResult = Option.map Ticket.failed ∘ x.tasks.ticket := by
        funext t
        rw [TaskPool.errorResult, Function.comp_apply, TaskPool.ticket, Option.map_map]
        rfl
      rw [hres, herr, ← List.map_map, ← hdrained, hdrained', List.map_map, List.map_map]
      rfl
    have hlen : (drained room (asked.map (xioXpollMaxTaskCount - 1 - ·)) q).length
        = (drained room asked b.queue).length := by
      have := congrArg List.length (hdrained.symm.trans hdrained')
      rwa [List.length_map, List.length_map] at this
    subst hresults
    refine ⟨_, ft ++ drained room (asked.map (xioXpollMaxTaskCount - 1 - ·)) q,
      remaining room (asked.map (xioXpollMaxTaskCount - 1 - ·)) q, xioStep_wait hwait, ?_⟩
    change Represents _ { b with
      seats := b.seats.mapIdx fun i s => (s.1, remaining room asked b.queue i) } _ _
    refine
      { inv := ?_
        le := ?_
        distinct := ?_
        queue := fun i hi => ?_
        read := fun i hi => ?_
        xp := h.xp
        known := h.known
        tasks := ?_
        slices := h.slices }
    · rw [List.length_mapIdx, Backlog.table, b.keys_mapIdx]
      exact hinv
    · rw [List.length_mapIdx]
      exact h.le
    · rw [Assoc.distinct_iff, b.keys_mapIdx]
      exact Assoc.distinct_iff.mp h.distinct
    · rw [b.queue_mapIdx]
      refine Eq.trans ?_ ((hremaining i hi).symm.trans (hremaining' i trivial))
      exact List.map_congr_left fun t _ => congrFun (TaskPool.ticket_congr hlist) t
    · rw [List.length_mapIdx] at hi
      obtain ⟨s, hs, hread⟩ := h.read i hi
      have hk := hsame.2 (xioXpollMaxTaskCount - 1 - i)
      rw [hs, Option.map_some, Option.map_eq_some_iff] at hk
      obtain ⟨s', hs', hun⟩ := hk
      obtain ⟨-, hevents, -⟩ := XioFdState.mk.inj hun
      exact ⟨s', hs', by rw [hevents]; exact hread⟩
    · have hsum := add_drained (f := List.length) rfl (fun _ _ => List.length_append)
        (fun i hi => Finset.mem_range.mpr (hasked i hi)) room b.queue
      have htasks := h.tasks
      rw [b.waiting_eq h.le] at htasks
      rw [List.length_append, hlen,
        Backlog.waiting_eq (n := xioXpollMaxTaskCount) (by rw [List.length_mapIdx]; exact h.le),
        b.queue_mapIdx]
      omega

/-- One call: the two fail together or answer alike. -/
theorem step (h : Represents x b ft q) {e : EpollCall U} (hserved : e.Served) :
    (epollStep x e = none ∧ b.step e = none) ∨
      ∃ o x' b' ft' q', epollStep x e = some (o, x') ∧ b.step e = some (o, b') ∧
        Represents x' b' ft' q' := by
  cases e with
  | recv c =>
    have hsame : b.request (c.onEpoll x) = b.request c := rfl
    rcases h.recv (hserved.answered x) with ⟨hrun, hreq⟩ | ⟨ret, x', b', ft', q', hrun, hreq, hrep⟩
    · exact .inl ⟨by rw [epollStep, xioStep, hrun]; rfl,
        by rw [Backlog.step, ← hsame, hreq]; rfl⟩
    · exact .inr ⟨(ret, []), x', b', ft', q', xioStep_recv hrun,
        by rw [Backlog.step, ← hsame, hreq]; rfl, hrep⟩
  | wait maxResults ready =>
    obtain ⟨x', ft', q', hwait, hrep⟩ := h.wait maxResults ready
    exact .inr ⟨_, x', _, ft', q', hwait, rfl, hrep⟩

/-- So do whole runs. -/
theorem agrees (h : Represents x b ft q) {calls : List (EpollCall U)}
    (hserved : ∀ e ∈ calls, e.Served) :
    (runs epollStep x calls = none ∧ runs Backlog.step b calls = none) ∨
      ∃ os x' b', runs epollStep x calls = some (os, x') ∧
        runs Backlog.step b calls = some (os, b') ∧ ∃ ft q, Represents x' b' ft q := by
  refine runs_agree (R := fun x b => ∃ ft q, Represents x b ft q) (fun x b e hrep he => ?_)
    ⟨ft, q, h⟩ hserved
  obtain ⟨ft, q, hrep⟩ := hrep
  rcases hrep.step he with hno | ⟨o, x', b', ft', q', hstep, hastep, hrep'⟩
  · exact .inl hno
  · exact .inr ⟨o, x', b', hstep, hastep, ft', q', hrep'⟩

end Represents

/-- What `fh_xio_create` returns is the empty backlog. -/
theorem fhXioCreate_represents {calloc xpoll : Bool} {table : CreateAlloc} {mmap : Option ℕ}
    {x : Xio U} (h : fhXioCreate calloc xpoll table mmap = some (some x)) :
    Represents x (Backlog.start x.slices) (List.range xioXpollMaxTaskCount) fun _ => [] := by
  have hinv := fhXioCreate_inv h
  obtain ⟨t, mem, -, rfl⟩ := fhXioCreate_eq_some h
  exact
    { inv := hinv
      le := Nat.zero_le _
      distinct := Assoc.distinct_iff.mpr List.Pairwise.nil
      queue := fun _ _ => rfl
      read := fun i hi => absurd hi (Nat.not_lt_zero i)
      xp := fun _ => rfl
      known := fun _ _ hget => by cases hget
      tasks := by rw [List.length_range]; rfl
      slices := rfl }

/-- On epoll the backend is a backlog: from `fh_xio_create`, every run of requests and
waits gives the same return values, the same results in the same order and the same
aborts in both, and leaves a state that is the backlog reached. -/
theorem backlog_agrees {calloc xpoll : Bool} {table : CreateAlloc} {mmap : Option ℕ}
    {x₀ : Xio U} (h : fhXioCreate calloc xpoll table mmap = some (some x₀))
    {calls : List (EpollCall U)} (hserved : ∀ e ∈ calls, e.Served) :
    (runs epollStep x₀ calls = none ∧ runs Backlog.step (Backlog.start x₀.slices) calls = none) ∨
      ∃ os x b, runs epollStep x₀ calls = some (os, x) ∧
        runs Backlog.step (Backlog.start x₀.slices) calls = some (os, b) ∧
        ∃ ft q, Represents x b ft q :=
  (fhXioCreate_represents h).agrees hserved

/-- A request for descriptor `fd` into a buffer of the caller. -/
def recvOn (fd : BitVec 32) (udata : ℕ) : EpollCall ℕ :=
  .recv { recvFd5 with udata := some udata, fd := fd }

/-- Descriptors 3 and 4 are registered one after the other, and 4 is the first to get a
fd state. -/
def crossedRequests : List (EpollCall ℕ) := [recvOn 3 30, recvOn 4 40, recvOn 4 41, recvOn 3 31]

/-- Both have an error. -/
def bothFail : EpollCall ℕ := .wait 4 (some [(3, Epoll.xpollError), (4, Epoll.xpollError)])

/-- Both are registered with the seat that 4 gets. -/
def crossed (slices : SlicePool) : Backlog ℕ :=
  ⟨[(3, 0), (4, 0)], [(4, [(some .recv, some 41)]), (3, [(some .recv, some 31)])], slices⟩

theorem crossedRequests_backlog (slices : SlicePool) :
    runs Backlog.step (Backlog.start slices) crossedRequests
      = some ([(-131, []), (-131, []), (0, []), (0, [])], crossed slices) := rfl

theorem crossedRequests_served : ∀ e ∈ crossedRequests, e.Served := fun e he => by
  simp only [crossedRequests, List.mem_cons, List.not_mem_nil, or_false] at he
  rcases he with rfl | rfl | rfl | rfl <;> trivial

theorem crossedRequests_agrees :
    ∃ x₀ : Xio ℕ, fhXioCreate true true ⟨true, true, true⟩ (some 0) = some (some x₀) ∧
      ∃ os x b, runs epollStep x₀ (crossedRequests ++ [bothFail]) = some (os, x) ∧
        runs Backlog.step (Backlog.start x₀.slices) (crossedRequests ++ [bothFail])
          = some (os, b) ∧ (∃ ft q, Represents x b ft q) ∧
        os.map (fun o => o.2.map (·.udata)) = [[], [], [], [], [some 41]] := by
  obtain ⟨x₀, -, -, hx₀, -⟩ := recvFd5_reached
  have hserved : ∀ e ∈ crossedRequests ++ [bothFail], e.Served := fun e he => by
    rcases List.mem_append.mp he with he | he
    · exact crossedRequests_served e he
    · rw [List.mem_singleton.mp he]
      trivial
  have hback : runs Backlog.step (Backlog.start x₀.slices) (crossedRequests ++ [bothFail])
      = (runs Backlog.step (crossed x₀.slices) [bothFail]).map fun r =>
        ([(-131, []), (-131, []), (0, []), (0, [])] ++ r.1, r.2) := by
    rw [runs_append, crossedRequests_backlog]
    rfl
  refine ⟨x₀, hx₀, ?_⟩
  rcases backlog_agrees hx₀ hserved with ⟨-, hno⟩ | ⟨os, x, b, hruns, hbruns, hrep⟩
  · cases hno.symm.trans hback
  · refine ⟨os, x, b, hruns, hbruns, hrep, ?_⟩
    obtain ⟨rfl, -⟩ := Prod.mk.inj (Option.some.inj (hbruns.symm.trans hback))
    rfl

end Freehttpd
