/-
The requests of the xpoll backend: each reported once.

The caller knows a request by its operation and its `udata`, which the result gives
back: its ticket.  A request that was accepted stands in a queue until a wait
reports it.  Only one thing else can happen to it: a request resets the queues of
the fd state that it takes from the free list.

* `Held.step` — the balance of a call, read off from its labels;
* `requests_balance` — over a run from `fh_xio_create` the requests accepted are those
  reported, those still queued and those that were dropped;
* `requests_conserved_iff` — the exact condition under which none is dropped;
* `requests_conserved` — none is, as long as the fd-state table has memory.
-/
import Freehttpd.Balance
import Freehttpd.XioLabels
import Freehttpd.XioPartition

namespace Freehttpd

open Runs

variable {U : Type}

/-! ### Statement -/

/-- The ticket of a task. -/
def TaskPool.ticket (p : TaskPool U) (task : ℕ) : Option (Ticket U) :=
  (p.taskList.read task).map fun t => (t.op, t.udata)

/-- The tickets of the tasks `l`. -/
def TaskPool.tickets (p : TaskPool U) (l : List ℕ) : Multiset (Ticket U) :=
  (l.filterMap p.ticket : List (Ticket U))

/-- The tickets of the queued tasks. -/
def Xio.pending (x : Xio U) : Multiset (Ticket U) :=
  ∑ k ∈ Finset.range xioXpollMaxTaskCount, x.tasks.tickets (x.queued k)

/-- The ticket of a request that was accepted. -/
def XioCall.accepted : XioCall U → ℤ × List (XioResult U) → Multiset (Ticket U)
  | .recv c, o => if o.1 = 0 then {(some .recv, c.udata)} else 0
  | .wait _ _, _ => 0

/-- The tickets of the results of a wait. -/
def XioCall.reported (o : ℤ × List (XioResult U)) : Multiset (Ticket U) :=
  (o.2.map XioResult.ticket : List (Ticket U))

/-- The tickets that a request drops: those queued on the fd state that it takes from
the free list. -/
def XioCall.dropped (ndebug : Bool) (x : Xio U) : XioCall U → Multiset (Ticket U)
  | .recv c =>
    if c.Creates ndebug x then
      ((x.fdStateFor c.fd).map fun k => x.tasks.tickets (x.queued k)).getD 0
    else 0
  | .wait _ _ => 0

/-! ### Tickets -/

/-- The ticket of a task with this label. -/
def TaskLabel.ticket (l : TaskLabel U) : Ticket U := (l.op, l.udata)

namespace TaskPool

variable {p p' : TaskPool U}

theorem ticket_eq (p : TaskPool U) (t : ℕ) : p.ticket t = (p.label t).map TaskLabel.ticket := by
  rw [ticket, label, Option.map_map]
  rfl

theorem tickets_eq (p : TaskPool U) (l : List ℕ) :
    p.tickets l = (p.labels l).map TaskLabel.ticket := by
  rw [tickets, labels, Multiset.map_coe, List.map_filterMap]
  exact congrArg _ (List.filterMap_congr fun t _ => p.ticket_eq t)

theorem ticket_congr (h : p'.taskList = p.taskList) : p'.ticket = p.ticket := by
  funext t
  rw [ticket, ticket, h]

/-- Only the task written changes. -/
theorem ticket_put {t : ℕ} {e e' : XioTask U} (he : p.taskList.read t = some e) (t' : ℕ) :
    ({ p with taskList := p.taskList.put t e' } : TaskPool U).ticket t'
      = if t = t' then some (e'.op, e'.udata) else p.ticket t' := by
  rw [ticket_eq, ticket_eq, label_put he]
  split <;> rfl

/-- A task that is taken from a queue gives back its ticket. -/
theorem tickets_of_results {results : List (XioResult U)} {l : List ℕ}
    (h : results.map some = l.map p.errorResult) :
    (results.map XioResult.ticket : List (Ticket U)) = p.tickets l := by
  have hticket : ∀ t, p.ticket t = (p.errorResult t).map XioResult.ticket := fun t => by
    rw [ticket, errorResult, Option.map_map]
    rfl
  have hres : results = l.filterMap p.errorResult := by
    have := congrArg (List.filterMap id) h
    rwa [List.filterMap_map, List.filterMap_map, Function.id_comp, Function.id_comp,
      List.filterMap_some] at this
  rw [hres, tickets, List.map_filterMap]
  exact congrArg _ (List.filterMap_congr fun t _ => (hticket t).symm)

end TaskPool

theorem XioCall.dropped_recv (ndebug : Bool) (x : Xio U) (c : RecvCall U) :
    (XioCall.recv c).dropped ndebug x = (c.dropsLabels ndebug x).map TaskLabel.ticket := by
  rw [dropped, RecvCall.dropsLabels]
  split
  · cases x.fdStateFor c.fd with
    | none => rfl
    | some k => exact x.tasks.tickets_eq (x.queued k)
  · rfl

namespace Held

variable {x x' : Xio U} {ft : List ℕ} {qin qout : ℕ → List ℕ} {held : Multiset (TaskLabel U)}
  {ndebug : Bool}

/-- The pending tickets are those of the labels. -/
theorem pending_eq (h : Held x ft qin qout held) : x.pending = held.map TaskLabel.ticket := by
  have hsum := map_sum (Multiset.mapAddMonoidHom (TaskLabel.ticket (U := U)))
    (fun k => x.tasks.labels (x.queued k)) (Finset.range xioXpollMaxTaskCount)
  rw [h.sum_queued] at hsum
  refine Eq.trans ?_ hsum.symm
  exact Finset.sum_congr rfl fun k _ => x.tasks.tickets_eq (x.queued k)

/-- The balance of a call. -/
theorem step (h : Held x ft qin qout held) {call : XioCall U} (hev : call.EventsKnown)
    {o : ℤ × List (XioResult U)} (hstep : xioStepWith ndebug x call = some (o, x')) :
    ∃ ft' qin' qout' held', Held x' ft' qin' qout' held' ∧
      held.map TaskLabel.ticket + call.accepted o
        = held'.map TaskLabel.ticket + (XioCall.reported o + call.dropped ndebug x) := by
  cases call with
  | recv c =>
    rw [xioStepWith, Option.bind_eq_bind, Option.bind_eq_some_iff] at hstep
    obtain ⟨⟨ret, x₁⟩, hrun, hs⟩ := hstep
    obtain ⟨rfl, rfl⟩ := Prod.mk.inj (Option.some.inj hs)
    obtain ⟨ft', qin', qout', held', slice, bid, p, label, hheld, hlabel, -, hcase⟩ := h.recv hrun
    refine ⟨ft', qin', qout', held', hheld, ?_⟩
    rw [XioCall.reported, List.map_nil, Multiset.coe_nil, zero_add, XioCall.dropped_recv,
      ← Multiset.map_add]
    rcases hcase with ⟨hret, -, hbal⟩ | ⟨hret, -, hbal⟩
    · have hticket : label.ticket = (some .recv, c.udata) :=
        Prod.ext hlabel.op_eq hlabel.udata_eq
      rw [hbal, Multiset.map_add, Multiset.map_singleton, hticket]
      exact congrArg _ (if_pos hret)
    · rw [hbal]
      exact (congrArg _ (if_neg hret)).trans (add_zero _)
  | wait maxResults events =>
    rw [xioStepWith, Option.bind_eq_bind, Option.bind_eq_some_iff] at hstep
    obtain ⟨⟨ret, results, x₁⟩, hrun, hs⟩ := hstep
    obtain ⟨rfl, rfl⟩ := Prod.mk.inj (Option.some.inj hs)
    cases events with
    | none =>
      obtain ⟨-, he⟩ := Prod.mk.inj (Option.some.inj hrun)
      obtain ⟨rfl, rfl⟩ := Prod.mk.inj he
      exact ⟨ft, qin, qout, held, h, rfl⟩
    | some events =>
      obtain ⟨ft', qin', qout', held', hheld, -, hbal, hres⟩ := h.wait (hev events rfl) hrun
      refine ⟨ft', qin', qout', held', hheld, ?_⟩
      rw [XioCall.reported, TaskPool.tickets_of_results hres, TaskPool.tickets_eq, ← hbal,
        Multiset.map_add]
      exact add_assoc _ _ _

end Held

section Runs

variable {calloc xpoll : Bool} {table : CreateAlloc} {mmap : Option ℕ} {x₀ x : Xio U}
  {calls : List (XioCall U)} {outs : List (ℤ × List (XioResult U))}

/-- The tickets of the requests that a run accepts. -/
def runAccepted (ndebug : Bool) : Xio U → List (XioCall U) → Multiset (Ticket U) :=
  runSum (xioStepWith ndebug) fun _ call o => call.accepted o

/-- The tickets of the results that a run reports. -/
def runReported (ndebug : Bool) : Xio U → List (XioCall U) → Multiset (Ticket U) :=
  runSum (xioStepWith ndebug) fun _ _ o => XioCall.reported o

/-- The tickets that a run drops. -/
def runDropped (ndebug : Bool) : Xio U → List (XioCall U) → Multiset (Ticket U) :=
  runSum (xioStepWith ndebug) fun x call _ => call.dropped ndebug x

/-- Over a run from `fh_xio_create` the requests accepted are those reported, those
still queued and those that were dropped. -/
theorem requests_balance (hcreate : fhXioCreate calloc xpoll table mmap = some (some x₀))
    (ndebug : Bool) (hev : ∀ call ∈ calls, call.EventsKnown)
    (hruns : runs (xioStepWith ndebug) x₀ calls = some (outs, x)) :
    runAccepted ndebug x₀ calls
      = x.pending + (runReported ndebug x₀ calls + runDropped ndebug x₀ calls) := by
  have hfresh : ∃ ft qin qout, ∃ held : Multiset (TaskLabel U), Held x₀ ft qin qout held ∧
      (0 : Multiset (Ticket U)) = held.map TaskLabel.ticket := by
    obtain ⟨ft, qin, qout, h⟩ := Held.create hcreate
    exact ⟨ft, qin, qout, 0, h, (Multiset.map_zero _).symm⟩
  obtain ⟨tickets, ⟨ft, qin, qout, held, h, rfl⟩, hbal⟩ := runSum_balance
    (C := fun _ call => call.EventsKnown)
    (fun x tickets => ∃ ft qin qout, ∃ held : Multiset (TaskLabel U), Held x ft qin qout held ∧
      tickets = held.map TaskLabel.ticket)
    (fun _ call o => call.accepted o)
    (fun x call o => XioCall.reported o + call.dropped ndebug x)
    (fun x tickets call o x' hx hq hstep => by
      obtain ⟨ft, qin, qout, held, hx, rfl⟩ := hx
      obtain ⟨ft', qin', qout', held', hx', hbal⟩ := hx.step hq hstep
      exact ⟨_, ⟨ft', qin', qout', held', hx', rfl⟩, hbal⟩)
    hfresh (eachStep_of_forall (fun call hcall _ => hev call hcall) x₀) hruns
  rw [zero_add, ← h.pending_eq] at hbal
  rw [runAccepted, hbal, runReported, runDropped, runSum_add]

/-- A run from `fh_xio_create` that does not abort, whatever the allocations and `xpoll`
answer and whether or not the asserts are compiled in, has every accepted request
reported once or still queued if and only if no request takes a fd state from the
free list on which others are queued. -/
theorem requests_conserved_iff (hcreate : fhXioCreate calloc xpoll table mmap = some (some x₀))
    (ndebug : Bool) (hev : ∀ call ∈ calls, call.EventsKnown)
    (hruns : runs (xioStepWith ndebug) x₀ calls = some (outs, x)) :
    runAccepted ndebug x₀ calls = x.pending + runReported ndebug x₀ calls ↔
      EachStep (xioStepWith ndebug) (fun x call => call.dropped ndebug x = 0) x₀ calls := by
  rw [requests_balance hcreate ndebug hev hruns, ← add_assoc, add_eq_left, runDropped,
    runSum_eq_zero_iff hruns]

/-- Nothing is queued on a fd state from the free list, so nothing is dropped. -/
theorem Custody.dropped_eq {ft fs : List ℕ} {q : ℕ → List ℕ} {m : List (IntKey × Option ℕ)}
    (h : Custody x ft fs q m) (call : XioCall U) : call.dropped false x = 0 := by
  cases call with
  | wait maxResults events => rfl
  | recv c =>
    rw [XioCall.dropped]
    split
    · rename_i hc
      cases hfor : x.fdStateFor c.fd with
      | none => rfl
      | some k =>
        rw [Option.map_some, Option.getD_some]
        rcases Nat.lt_or_ge k xioXpollMaxTaskCount with hk | hk
        · rw [h.queued_eq hk, h.idle_of_fresh hc.2.1 hfor]
          rfl
        · rw [Xio.queued, h.inv.queue_of_le hk, h.inv.queue_of_le hk]
          rfl
    · rfl

/-- In every run of receive requests and waits from `fh_xio_create`, with memory for
the fd-state table and whatever `xpoll` answers, the requests accepted are those
reported and those still queued: none is lost, and none is reported twice. -/
theorem requests_conserved (hcreate : fhXioCreate calloc xpoll table mmap = some (some x₀))
    (hmem : ∀ call ∈ calls, call.HasMemory) (hruns : runs xioStep x₀ calls = some (outs, x)) :
    runAccepted false x₀ calls = x.pending + runReported false x₀ calls := by
  have hev : ∀ call ∈ calls, call.EventsKnown := fun call hcall => by
    cases call with
    | recv c => trivial
    | wait maxResults events => exact hmem _ hcall
  have hruns' : runs (xioStepWith false) x₀ calls = some (outs, x) := hruns
  rw [requests_balance hcreate false hev hruns', ← add_assoc, add_eq_left, runDropped,
    runSum_eq_zero_iff hruns']
  -- The tasks are partitioned in every state on the way.
  have halways := always_of_runs (D := fun _ call => call.HasMemory)
    (I := fun x => ∃ ft fs q m, Custody x ft fs q m)
    (P := fun x => ∀ call : XioCall U, call.dropped false x = 0) (fun x hx => by
      obtain ⟨ft, fs, q, m, hx⟩ := hx
      exact hx.dropped_eq)
    (fun x call o x' hx hcall hstep => by
      obtain ⟨ft, fs, q, m, hx⟩ := hx
      exact hx.xioStep hcall hstep) (Custody.create hcreate) hruns
    (eachStep_of_forall (fun call hcall _ => hmem call hcall) x₀)
  exact halways.eachStep fun x call hx => hx call

end Runs

/-! ### Two requests -/

theorem twoRequests_hasMemory : ∀ call ∈ twoRequests, call.HasMemory := fun call hcall => by
  rw [twoRequests, List.mem_cons, List.mem_cons, List.mem_singleton] at hcall
  rcases hcall with rfl | rfl | rfl <;> rfl

theorem twoRequests_conserved :
    ∃ x₀ x : Xio ℕ, ∃ outs, fhXioCreate true true ⟨true, true, true⟩ (some 0) = some (some x₀) ∧
      runs xioStep x₀ twoRequests = some (outs, x) ∧
      runAccepted false x₀ twoRequests = x.pending + runReported false x₀ twoRequests := by
  obtain ⟨x₀, x, outs, hx₀, hruns, -⟩ := twoRequests_run
  exact ⟨x₀, x, outs, hx₀, hruns, requests_conserved hx₀ twoRequests_hasMemory hruns⟩

theorem twoRequests_conserved_iff :
    ∃ x₀ x : Xio ℕ, ∃ outs, fhXioCreate true true ⟨true, true, true⟩ (some 0) = some (some x₀) ∧
      runs (xioStepWith false) x₀ twoRequests = some (outs, x) ∧
      (runAccepted false x₀ twoRequests = x.pending + runReported false x₀ twoRequests ↔
        EachStep (xioStepWith false) (fun x call => call.dropped false x = 0) x₀ twoRequests) := by
  obtain ⟨x₀, x, outs, hx₀, hruns, -⟩ := twoRequests_run
  have hev : ∀ call ∈ twoRequests, call.EventsKnown := fun call hcall => by
    rw [twoRequests, List.mem_cons, List.mem_cons, List.mem_singleton] at hcall
    rcases hcall with rfl | rfl | rfl <;> trivial
  exact ⟨x₀, x, outs, hx₀, hruns, requests_conserved_iff hx₀ false hev hruns⟩

end Freehttpd
