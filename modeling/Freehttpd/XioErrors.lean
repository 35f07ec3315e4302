/-
Error events on the xpoll backend.

Descriptors are registered edge-triggered, so an error event should leave nothing
queued on its fd state: `ErrorsConsumed`.  `fh_xio_wait` stops when the caller's
array is full, and drops the rest of the batch:

* `Queues.errorsConsumed_iff` — over the ghosts;
* `wait_errors_iff` — for any fd states and any batch, a wait leaves nothing
  queued on an errored fd state if and only if the caller's array has room for
  everything that was;
* `wait_errors_stranded` — two requests and an array of length one.
-/
import Freehttpd.XioRuns

namespace Freehttpd

open Runs

variable {U : Type}

/-! ### Statement -/

/-- The tasks queued on fd state `k`, those for input first. -/
def Xio.queued (x : Xio U) (k : ℕ) : List ℕ :=
  (x.queue .prepIn k).getD [] ++ (x.queue .prepOut k).getD []

/-- The free list and the queues of the fd states share no task. -/
def Xio.WellQueued (x : Xio U) : Prop :=
  ∃ ft qin qout, Queues x.tasks x.fdStates.fdStateList ft qin qout

/-- No fd state with an error event in the batch keeps a queued task, and the
results are one for each task that was queued on one. -/
def ErrorsConsumed (x : Xio U) (events : List (BitVec 32 × ℕ)) (results : List (XioResult U))
    (x' : Xio U) : Prop :=
  (∀ k ∈ errored events, x'.queue .prepIn k = some [] ∧ x'.queue .prepOut k = some []) ∧
  ∃ moved : List ℕ, moved.Perm ((errored events).dedup.flatMap x.queued) ∧
    results.map some = moved.map x.tasks.errorResult

/-! ### Proof -/

/-- There are only so many tasks to be queued. -/
theorem TasksApart.sum_length_le {ft : List ℕ} {q : ℕ → List ℕ} (h : TasksApart ft q)
    (s : Finset ℕ) : ∑ k ∈ s, (q k).length ≤ xioXpollMaxTaskCount := by
  have hcard : (s.biUnion fun k => (q k).toFinset).card = ∑ k ∈ s, (q k).length := by
    rw [Finset.card_biUnion fun k _ k' _ hne => Finset.disjoint_left.mpr fun t ht ht' =>
      hne (h.inj k k' t (List.mem_toFinset.mp ht) (List.mem_toFinset.mp ht'))]
    exact Finset.sum_congr rfl fun k _ => List.toFinset_card_of_nodup (h.queue_nodup k)
  rw [← hcard]
  refine (Finset.card_le_card (t := Finset.range xioXpollMaxTaskCount) fun t ht => ?_).trans
    (Finset.card_range _).le
  obtain ⟨k, -, hk⟩ := Finset.mem_biUnion.mp ht
  exact Finset.mem_range.mpr (h.queue_lt k t (List.mem_toFinset.mp hk))

namespace Queues

variable {x x' : Xio U} {ft ft' : List ℕ} {qin qout qin' qout' : ℕ → List ℕ}

/-- The queues are what following the links gives. -/
theorem queue_eq (h : Queues x.tasks x.fdStates.fdStateList ft qin qout) {k : ℕ}
    (hk : k < xioXpollMaxTaskCount) :
    x.queue .prepIn k = some (qin k) ∧ x.queue .prepOut k = some (qout k) := by
  obtain ⟨s, hs, hin, hout⟩ := h.state k hk
  have hlen := h.apart.sum_length_le {k}
  rw [Finset.sum_singleton, List.length_append] at hlen
  rw [Xio.queue, Xio.queue, hs]
  exact ⟨hin.follow_eq (by omega), hout.follow_eq (by omega)⟩

theorem queued_eq (h : Queues x.tasks x.fdStates.fdStateList ft qin qout) {k : ℕ}
    (hk : k < xioXpollMaxTaskCount) : x.queued k = qin k ++ qout k := by
  rw [Xio.queued, (h.queue_eq hk).1, (h.queue_eq hk).2]
  rfl

theorem sum_queued (h : Queues x.tasks x.fdStates.fdStateList ft qin qout)
    {events : List (BitVec 32 × ℕ)} (hev : ∀ e ∈ events, e.2 < xioXpollMaxTaskCount) :
    ∑ k ∈ (errored events).toFinset, (x.queued k).length
      = ∑ k ∈ (errored events).toFinset, (qin k ++ qout k).length :=
  Finset.sum_congr rfl fun k hk => by
    obtain ⟨mask, hm, -⟩ := mem_errored.mp (List.mem_toFinset.mp hk)
    have hlt : k < xioXpollMaxTaskCount := hev _ hm
    rw [h.queued_eq hlt]

/-- Over the ghosts, the error events are consumed if and only if there is room
for all the tasks queued on their fd states. -/
theorem errorsConsumed_iff (h : Queues x.tasks x.fdStates.fdStateList ft qin qout)
    {events : List (BitVec 32 × ℕ)} (hev : ∀ e ∈ events, e.2 < xioXpollMaxTaskCount)
    (h' : Queues x'.tasks x'.fdStates.fdStateList ft' qin' qout') {room : ℕ}
    (hq' : ∀ k, qin' k ++ qout' k = remaining room (errored events) (fun k => qin k ++ qout k) k)
    {results : List (XioResult U)}
    (hres : results.map some
      = (drained room (errored events) fun k => qin k ++ qout k).map x.tasks.errorResult) :
    ErrorsConsumed x events results x' ↔
      ∑ k ∈ (errored events).toFinset, (x.queued k).length ≤ room := by
  have hlt : ∀ k ∈ errored events, k < xioXpollMaxTaskCount := fun k hk => by
    obtain ⟨mask, hm, -⟩ := mem_errored.mp hk
    exact hev _ hm
  have hnil := forall_remaining_eq_nil_iff room (errored events) fun k => qin k ++ qout k
  rw [h.sum_queued hev, ← hnil]
  constructor
  · rintro ⟨hempty, -⟩ k hk
    have hk' := hempty k hk
    rw [(h'.queue_eq (hlt k hk)).1, (h'.queue_eq (hlt k hk)).2, Option.some_inj,
      Option.some_inj] at hk'
    rw [← hq' k, hk'.1, hk'.2]
    rfl
  · intro hempty
    refine ⟨fun k hk => ?_, _, ?_, hres⟩
    · have hk' := hq' k
      rw [hempty k hk, List.append_eq_nil_iff] at hk'
      rw [(h'.queue_eq (hlt k hk)).1, (h'.queue_eq (hlt k hk)).2, hk'.1, hk'.2]
      exact ⟨rfl, rfl⟩
    · -- Each queue was drained once, also if its fd state is named by two events.
      have hperm := drained_perm (hnil.mp hempty)
      have hmap : (errored events).dedup.flatMap x.queued
          = (errored events).dedup.flatMap fun k => qin k ++ qout k :=
        List.flatMap_congr fun k hk => h.queued_eq (hlt k (List.mem_dedup.mp hk))
      rw [hmap]
      exact hperm

/-- A wait consumes the error events of its batch if and only if the caller's
array has room for all the tasks queued on their fd states. -/
theorem wait_iff (h : Queues x.tasks x.fdStates.fdStateList ft qin qout) (ndebug : Bool)
    (maxResults : ℕ) {events : List (BitVec 32 × ℕ)}
    (hev : ∀ e ∈ events, e.2 < xioXpollMaxTaskCount) :
    ∃ ret results x', fhXioWait ndebug x maxResults (some events) = some (ret, results, x') ∧
      (ErrorsConsumed x events results x' ↔
        ∑ k ∈ (errored events).toFinset, (x.queued k).length ≤ maxResults) := by
  obtain ⟨results, tasks, states, qin', qout', hwait, h', hq', -, -, -, hres⟩ :=
    h.fhXioWait_eq ndebug maxResults hev
  refine ⟨_, results, _, hwait, ?_⟩
  rw [h.errorsConsumed_iff hev h' hq' hres]
  -- The limit of `fh_xio_wait` itself is never reached.
  have hsum : ∑ k ∈ (errored events).toFinset, (x.queued k).length ≤ xioXpollMaxEvents := by
    rw [h.sum_queued hev]
    exact h.apart.sum_length_le _
  rw [waitRoom]
  omega

end Queues

/-- For any fd states, with any tasks queued on them, any batch of events and any
limit, `fh_xio_wait` leaves nothing queued on a fd state with an error event, and
gives one result for every task that was, if and only if the limit is at least the
number of these tasks. -/
theorem wait_errors_iff {x : Xio U} (h : x.WellQueued) (ndebug : Bool) (maxResults : ℕ)
    {events : List (BitVec 32 × ℕ)} (hev : ∀ e ∈ events, e.2 < xioXpollMaxTaskCount) :
    ∃ ret results x', fhXioWait ndebug x maxResults (some events) = some (ret, results, x') ∧
      (ErrorsConsumed x events results x' ↔
        ∑ k ∈ (errored events).toFinset, (x.queued k).length ≤ maxResults) := by
  obtain ⟨ft, qin, qout, h⟩ := h
  exact h.wait_iff ndebug maxResults hev

/-! ### Two requests -/

/-- A run that queues two requests for descriptor 5; the first of its three
registers the descriptor and fails. -/
def twoRequests : List (XioCall ℕ) := [.recv recvFd5, .recv recvFd5Queued, .recv recvFd5Queued]

/-- An error event of fd state 2047. -/
def errorEvent : List (BitVec 32 × ℕ) := [(Epoll.xpollError, 2047)]

theorem errorEvent_lt : ∀ e ∈ errorEvent, e.2 < xioXpollMaxTaskCount := by decide

theorem twoRequests_run :
    ∃ x₀ x : Xio ℕ, ∃ outs, fhXioCreate true true ⟨true, true, true⟩ (some 0) = some (some x₀) ∧
      runs xioStep x₀ twoRequests = some (outs, x) ∧ x.WellQueued ∧
      ∑ k ∈ (errored errorEvent).toFinset, (x.queued k).length = 2 := by
  obtain ⟨x₀, x₁, ret, hx₀, hrun₁, -, -, -, hst, hfor, -, htop, hgrow⟩ := recvFd5_reached
  have hstep₁ := xioStep_recv hrun₁
  have hruns₁ : runs xioStep x₀ [.recv recvFd5] = some ([(ret, [])], x₁) :=
    runs_cons_of_step hstep₁ []
  obtain ⟨ft, fs, q, m, hinv⟩ := inv_of_runs hx₀ (by
    intro call hcall
    rw [List.mem_singleton.mp hcall]
    exact .inl rfl) hruns₁
  -- The second request goes through, because `xpoll_add_fd` fails.
  obtain ⟨k, t, ft', rfl, hfor', -, hgo, -⟩ := hinv.recv_available (c := recvFd5Queued) (.inl rfl)
    ⟨by rw [htop]; decide, recvFd5_buf, Option.isSome_of_eq_some hfor⟩
  obtain rfl : k = 2047 := Option.some.inj (hfor'.symm.trans hfor)
  obtain ⟨x₂, -, fs₂, m₂, hrun₂, hinv₂, -, hget₂, -⟩ := hgo (recvFd5Queued_goesThrough hst hgrow)
  have hst : x₁.stateOf recvFd5Queued.fd = none := hst
  rw [hst] at hinv₂
  have hst₂ : x₂.stateOf 5 = some 2047 := by
    rw [hinv₂.stateOf_eq, show fdKey 5 = fdKey recvFd5Queued.fd from rfl, hget₂]
    rfl
  have htop₂ : x₂.tasks.freeTaskListTop ≠ 0 := by
    have hlen := hinv.tasks.stack.length_eq
    have hlen₂ := hinv₂.tasks.stack.length_eq
    rw [List.length_append, List.length_singleton, htop, xioXpollMaxTaskCount] at hlen
    omega
  have hfor₂ : x₂.fdStateFor recvFd5Queued.fd = some 2047 := by
    rw [Xio.fdStateFor, show x₂.stateOf recvFd5Queued.fd = some 2047 from hst₂]
  -- The third finds the fd state in the table.
  obtain ⟨k, t₃, ft₃, hft₃, hfor', hk, hgo, -⟩ := hinv₂.recv_available (c := recvFd5Queued)
    (.inl rfl) ⟨htop₂, fun h => absurd h (Option.some_ne_none 0), Option.isSome_of_eq_some hfor₂⟩
  obtain rfl : k = 2047 := Option.some.inj (hfor'.symm.trans hfor₂)
  have hthrough : recvFd5Queued.env.GoesThrough x₂ recvFd5Queued.fd 2047 := by
    rw [PrepEnv.GoesThrough, show x₂.stateOf recvFd5Queued.fd = some 2047 from hst₂,
      Option.isSome_some, if_pos rfl]
    exact .inr fun hr => absurd hr.1 Bool.false_ne_true
  obtain ⟨x, -, fs₃, m₃, hrun₃, hinv₃, -⟩ := hgo hthrough
  refine ⟨x₀, x, [(ret, []), (0, []), (0, [])], hx₀, ?_, ⟨_, _, _, hinv₃.queues⟩, ?_⟩
  · rw [twoRequests, runs_cons_of_step hstep₁, runs_cons_of_step (xioStep_recv hrun₂),
      runs_cons_of_step (xioStep_recv hrun₃)]
    rfl
  · rw [show (errored errorEvent).toFinset = {2047} from rfl, Finset.sum_singleton,
      hinv₃.queues.queued_eq hk, Function.update_self,
      show x₂.stateOf recvFd5Queued.fd = some 2047 from hst₂, Function.update_self]
    rfl

/-- With room for two results a wait consumes the event. -/
theorem wait_errors_consumed :
    ∃ x₀ x : Xio ℕ, ∃ outs, fhXioCreate true true ⟨true, true, true⟩ (some 0) = some (some x₀) ∧
      runs xioStep x₀ twoRequests = some (outs, x) ∧
      ∃ ret results x', fhXioWait false x 2 (some errorEvent) = some (ret, results, x') ∧
        ErrorsConsumed x errorEvent results x' := by
  obtain ⟨x₀, x, outs, hx₀, hruns, hq, hsum⟩ := twoRequests_run
  obtain ⟨ret, results, x', hwait, hiff⟩ := wait_errors_iff hq false 2 errorEvent_lt
  exact ⟨x₀, x, outs, hx₀, hruns, ret, results, x', hwait, hiff.mpr hsum.le⟩

/-- With room for one it strands the other request, although `xpoll` will not
report the event again. -/
theorem wait_errors_stranded :
    ∃ x₀ x : Xio ℕ, ∃ outs, fhXioCreate true true ⟨true, true, true⟩ (some 0) = some (some x₀) ∧
      runs xioStep x₀ twoRequests = some (outs, x) ∧ x.WellQueued ∧
      ∃ ret results x', fhXioWait false x 1 (some errorEvent) = some (ret, results, x') ∧
        ¬ ErrorsConsumed x errorEvent results x' := by
  obtain ⟨x₀, x, outs, hx₀, hruns, hq, hsum⟩ := twoRequests_run
  obtain ⟨ft, qin, qout, h⟩ := hq
  obtain ⟨ret, results, x', hwait, hiff⟩ := h.wait_iff false 1 errorEvent_lt
  refine ⟨x₀, x, outs, hx₀, hruns, ⟨ft, qin, qout, h⟩, ret, results, x', hwait, fun hc => ?_⟩
  have hle := hiff.mp hc
  rw [hsum] at hle
  omega

end Freehttpd
