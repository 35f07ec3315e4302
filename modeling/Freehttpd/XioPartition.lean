/-
The tasks of the xpoll backend: each in one place.

`Xio.TasksPartitioned` says that every task is once on the free list or once in
one queue of one fd state.  `Xio.Inv` already keeps a task from being in two
places.  That none gets lost depends on the fd states: a request resets the
queues of the one it takes from the free list, so a free fd state must have none.
This holds because a fd state with a task is in the table, which is `Xio.Homed`.

* `Custody` — the invariant: the ghosts of `Xio.Inv`, with every task in one of
  them and nothing queued on a free fd state;
* `Custody.recv`, `Custody.wait` — requests and waits keep it;
* `tasks_partitioned` — in every state reached from `fh_xio_create` the tasks are
  partitioned, and a wait gives one result for each task that it frees.
-/
import Freehttpd.XioHomes

namespace Freehttpd

open Runs

variable {U : Type}

/-! ### Statement -/

/-- The free list holds `free`. -/
def TaskPool.Free (p : TaskPool U) (free : List ℕ) : Prop :=
  free.length = p.freeTaskListTop ∧ p.freeTaskList.Holds free

/-- Every queue comes to an end, and every task is once on the free list or once
in one queue. -/
structure Xio.TasksPartitioned (x : Xio U) : Prop where
  acyclic : ∀ k < xioXpollMaxTaskCount, ∀ prepType, (x.queue prepType k).isSome
  once : ∃ free, x.tasks.Free free ∧ ∀ t < xioXpollMaxTaskCount,
    free.count t + ∑ k ∈ Finset.range xioXpollMaxTaskCount, (x.queued k).count t = 1

/-- The tasks `moved` went from the queues to the free list, with one result for
each of them. -/
structure TasksMoved (x : Xio U) (results : List (XioResult U)) (x' : Xio U)
    (moved : List ℕ) : Prop where
  result : results.map some = moved.map x.tasks.errorResult
  free : ∀ free, x.tasks.Free free → x'.tasks.Free (free ++ moved)
  queued : ∀ t, moved.count t +
      ∑ k ∈ Finset.range xioXpollMaxTaskCount, (x'.queued k).count t
    = ∑ k ∈ Finset.range xioXpollMaxTaskCount, (x.queued k).count t
  nodup : moved.Nodup

/-- The removal of an entry from the fd-state table has memory; the `udata` of an
event points to a fd state. -/
def XioCall.HasMemory : XioCall U → Prop
  | .recv c => c.env.htGrow = true
  | .wait _ events => ∀ es ∈ events, ∀ e ∈ es, e.2 < xioXpollMaxTaskCount

/-! ### The invariant -/

/-- A call that returns meets its precondition, which is asserted. -/
theorem RecvCall.admissible_of_run {c : RecvCall U} {x x' : Xio U} {ret : ℤ}
    (h : c.run x = some (ret, x')) : c.Admissible := by
  rw [run, fhXioRequestRecv, Option.bind_eq_bind, Option.bind_eq_some_iff] at h
  obtain ⟨r, hprep, -⟩ := h
  rw [fhXioRequestPrepWithSize, Option.bind_eq_bind, Option.bind_eq_some_iff] at hprep
  obtain ⟨_, hassert, -⟩ := hprep
  have hadm := cAssert_false_eq_some hassert
  exact hadm

/-- Every task is free or queued, and nothing is queued on a free fd state. -/
structure Custody (x : Xio U) (ft fs : List ℕ) (q : ℕ → List ℕ) (m : List (IntKey × Option ℕ)) :
    Prop where
  inv : x.Inv ft fs q m
  homes : ∃ fs m, Homes x.fdStates x.fdStateTable fs m ∧ Covered fs m
  idle : ∀ k ∈ fs, q k = []
  once : ∀ t < xioXpollMaxTaskCount,
    ft.count t + ∑ k ∈ Finset.range xioXpollMaxTaskCount, (q k).count t = 1

namespace Custody

variable {x x' : Xio U} {ft fs : List ℕ} {q : ℕ → List ℕ} {m : List (IntKey × Option ℕ)}

/-- A fd state in the table is not free. -/
theorem not_free (h : x.Inv ft fs q m)
    (hhomes : ∃ fs m, Homes x.fdStates x.fdStateTable fs m ∧ Covered fs m) {fd : BitVec 32} {k : ℕ}
    (hst : x.stateOf fd = some k) : k ∉ fs := by
  obtain ⟨fs', m', hh, hcov⟩ := hhomes
  intro hk
  exact Xio.not_homed_of_shared h.states.stack hk hst (hh.homed hcov)

/-- The fd state that a request takes from the free list has nothing queued. -/
theorem idle_of_fresh (h : Custody x ft fs q m) {fd : BitVec 32} {k : ℕ}
    (hst : x.stateOf fd = none) (hfor : x.fdStateFor fd = some k) : q k = [] := by
  rw [Xio.fdStateFor, hst] at hfor
  dsimp only at hfor
  split at hfor
  · cases hfor
  · rename_i hne
    obtain ⟨fs', k', rfl, hread, -⟩ := h.inv.states.stack.pop hne
    rw [hread, Option.some_inj] at hfor
    rw [← hfor]
    exact h.idle k' (by simp)

/-- A request keeps the tasks partitioned. -/
theorem recv (h : Custody x ft fs q m) {c : RecvCall U} (hgrow : c.env.htGrow = true) {ret : ℤ}
    (hrun : c.run x = some (ret, x')) : ∃ ft' fs' q' m', Custody x' ft' fs' q' m' := by
  -- The fd states stay partitioned, because the removal has memory.
  have hhomes : ∃ fs m, Homes x'.fdStates x'.fdStateTable fs m ∧ Covered fs m := by
    obtain ⟨fs₀, m₀, hh, hcov⟩ := h.homes
    have hrun : c.runWith false x = some (ret, x') := hrun
    rcases hh.recv hcov hrun with ⟨-, hx'⟩ | ⟨hno, -⟩
    · exact hx'
    · exact absurd (fun _ _ => .inl hgrow) hno
  rcases h.inv.recv_cases (RecvCall.admissible_of_run hrun) hrun with
    ⟨-, hinv⟩ | ⟨-, k, hfor, hk, hcase⟩
  · exact ⟨ft, fs, q, m, hinv, hhomes, h.idle, h.once⟩
  · -- Where the fd state is taken from the free list, its queue is reset to what it is.
    have hqueue : (if (x.stateOf c.fd).isSome then q k else []) = q k := by
      split
      · rfl
      · rename_i hst
        rw [Option.not_isSome_iff_eq_none] at hst
        exact (h.idle_of_fresh hst hfor).symm
    rcases hcase with ⟨-, m', hinv⟩ | ⟨-, t, ft', fs', m', hft, hsub, hst, hinv⟩
    · refine ⟨ft, fs, q, m', ?_, hhomes, h.idle, h.once⟩
      split at hinv
      · exact hinv
      · rename_i htr
        rw [if_neg htr] at hqueue
        rwa [hqueue, Function.update_eq_self] at hinv
    · rw [hqueue] at hinv
      refine ⟨ft', fs', _, m', hinv, hhomes, fun j hj => ?_, fun a ha => ?_⟩
      · have hjk : j ≠ k := by
          rintro rfl
          exact not_free hinv hhomes hst hj
        rw [Function.update_of_ne hjk]
        exact h.idle j (hsub j hj)
      · -- The task goes from the end of the free list to the front of the queue.
        have hone := h.once a ha
        have hsum := sum_update_add (List.count a) (Finset.mem_range.mpr hk) q (t :: q k)
        rw [hft, List.count_append] at hone
        rw [show t :: q k = [t] ++ q k from rfl, List.count_append] at hsum
        rw [show t :: q k = [t] ++ q k from rfl]
        omega

/-- What a wait moves, it moves from the queues to the free list. -/
theorem wait (h : Custody x ft fs q m) (maxResults : ℕ) {events : List (BitVec 32 × ℕ)}
    (hev : ∀ e ∈ events, e.2 < xioXpollMaxTaskCount) :
    ∃ results x', fhXioWait false x maxResults (some events)
        = some (results.length, results, x') ∧
      Custody x' (ft ++ drained (waitRoom maxResults) (errored events) q) fs
        (remaining (waitRoom maxResults) (errored events) q) m ∧
      results.map some
        = (drained (waitRoom maxResults) (errored events) q).map x.tasks.errorResult := by
  obtain ⟨results, tasks, states, hwait, hinv, -, -, hres⟩ := h.inv.wait false maxResults hev
  have hrange : ∀ k ∈ errored events, k ∈ Finset.range xioXpollMaxTaskCount := fun k hk => by
    obtain ⟨mask, hm, -⟩ := mem_errored.mp hk
    exact Finset.mem_range.mpr (hev _ hm)
  refine ⟨results, _, hwait, ⟨hinv, ?_, fun k hk => ?_, fun t ht => ?_⟩, hres⟩
  · obtain ⟨fs₀, m₀, hh, hcov⟩ := h.homes
    obtain ⟨hsame, htab⟩ := fhXioWait_same hwait
    exact ⟨fs₀, m₀, htab ▸ hh.same hsame, hcov⟩
  · have hsuf := remaining_suffix (waitRoom maxResults) (errored events) q k
    rw [h.idle k hk] at hsuf
    exact List.suffix_nil.mp hsuf
  · have hone := h.once t ht
    have hcount := countP_drained (fun a => a == t) hrange (waitRoom maxResults) q
    rw [List.count_append]
    simp only [List.count] at hone ⊢
    omega

/-! ### The state -/

theorem free_iff (h : Custody x ft fs q m) {free : List ℕ} :
    x.tasks.Free free ↔ free = ft := by
  have hstack := h.inv.tasks.stack
  constructor
  · rintro ⟨hlen, hholds⟩
    exact hholds.unique hstack.holds (hlen.trans hstack.length_eq.symm)
  · rintro rfl
    exact ⟨hstack.length_eq, hstack.holds⟩

theorem queued_eq (h : Custody x ft fs q m) {k : ℕ} (hk : k < xioXpollMaxTaskCount) :
    x.queued k = q k := by
  rw [h.inv.queues.queued_eq hk, List.append_nil]

theorem sum_queued (h : Custody x ft fs q m) (t : ℕ) :
    ∑ k ∈ Finset.range xioXpollMaxTaskCount, (x.queued k).count t
      = ∑ k ∈ Finset.range xioXpollMaxTaskCount, (q k).count t :=
  Finset.sum_congr rfl fun k hk => by rw [h.queued_eq (Finset.mem_range.mp hk)]

theorem partitioned (h : Custody x ft fs q m) : x.TasksPartitioned where
  acyclic k hk prepType := by
    cases prepType with
    | prepIn => rw [h.inv.queue_in hk]; rfl
    | prepOut => rw [h.inv.queue_out hk]; rfl
  once := by
    refine ⟨ft, h.free_iff.mpr rfl, fun t ht => ?_⟩
    rw [h.sum_queued]
    exact h.once t ht

/-- A wait gives one result for each task that it frees. -/
theorem moved (h : Custody x ft fs q m) (maxResults : ℕ) {events : List (BitVec 32 × ℕ)}
    (hev : ∀ e ∈ events, e.2 < xioXpollMaxTaskCount) :
    ∃ results x' moved, fhXioWait false x maxResults (some events)
        = some (results.length, results, x') ∧
      results.length ≤ maxResults ∧ TasksMoved x results x' moved := by
  obtain ⟨results, x', hwait, h', hres⟩ := h.wait maxResults hev
  have hrange : ∀ k ∈ errored events, k ∈ Finset.range xioXpollMaxTaskCount := fun k hk => by
    obtain ⟨mask, hm, -⟩ := mem_errored.mp hk
    exact Finset.mem_range.mpr (hev _ hm)
  refine ⟨results, x', _, hwait, ?_, hres, fun free hfree => ?_, fun t => ?_, ?_⟩
  · have hlen := congrArg List.length hres
    rw [List.length_map, List.length_map] at hlen
    have hle := length_drained_le (waitRoom maxResults) (errored events) q
    rw [waitRoom] at hle hlen
    omega
  · rw [h.free_iff.mp hfree]
    exact h'.free_iff.mpr rfl
  · rw [h.sum_queued, h'.sum_queued]
    exact countP_drained (fun a => a == t) hrange (waitRoom maxResults) q
  · exact (List.nodup_append.mp h'.inv.apart.free_nodup).2.1

/-! ### Runs -/

/-- All tasks of a fresh backend are free. -/
theorem create {calloc xpoll : Bool} {table : CreateAlloc} {mmap : Option ℕ}
    (h : fhXioCreate calloc xpoll table mmap = some (some x)) :
    ∃ ft fs q m, Custody x ft fs q m := by
  refine ⟨_, _, _, _, fhXioCreate_inv h, fhXioCreate_homes h, fun _ _ => rfl, fun t ht => ?_⟩
  rw [List.count_eq_one_of_mem List.nodup_range (List.mem_range.mpr ht)]
  simp

/-- A call that returns keeps the tasks partitioned. -/
theorem xioStep (h : Custody x ft fs q m) {call : XioCall U} (hmem : call.HasMemory)
    {o : ℤ × List (XioResult U)} (hstep : Freehttpd.xioStep x call = some (o, x')) :
    ∃ ft' fs' q' m', Custody x' ft' fs' q' m' := by
  cases call with
  | recv c =>
    rw [Freehttpd.xioStep, Option.bind_eq_bind, Option.bind_eq_some_iff] at hstep
    obtain ⟨⟨ret, x''⟩, hrun, hs⟩ := hstep
    obtain ⟨-, rfl⟩ := Prod.mk.inj (Option.some.inj hs)
    exact h.recv hmem hrun
  | wait maxResults events =>
    cases events with
    | none =>
      obtain ⟨-, rfl⟩ := Prod.mk.inj (Option.some.inj hstep)
      exact ⟨ft, fs, q, m, h⟩
    | some events =>
      obtain ⟨results, x'', hwait, h', -⟩ := h.wait maxResults (hmem events rfl)
      rw [Freehttpd.xioStep, hwait] at hstep
      obtain ⟨-, rfl⟩ := Prod.mk.inj (Option.some.inj hstep)
      exact ⟨_, _, _, _, h'⟩

end Custody

/-- In every state reached from `fh_xio_create` by receive requests and waits, with
memory for the fd-state table and whatever `xpoll` answers, every task is in one
place; and the next wait, whatever its events and its limit, gives at most as many
results as it may, one for each task that it moves from a queue to the free list. -/
theorem tasks_partitioned {calloc xpoll : Bool} {table : CreateAlloc} {mmap : Option ℕ}
    {x₀ x : Xio U} {calls : List (XioCall U)} {outs : List (ℤ × List (XioResult U))}
    (hcreate : fhXioCreate calloc xpoll table mmap = some (some x₀))
    (hmem : ∀ call ∈ calls, call.HasMemory) (hruns : runs xioStep x₀ calls = some (outs, x)) :
    x.TasksPartitioned ∧
      ∀ maxResults events, (XioCall.wait (U := U) maxResults events).HasMemory →
        ∃ ret results x' moved, fhXioWait false x maxResults events = some (ret, results, x') ∧
          (events.isSome → ret = results.length) ∧ results.length ≤ maxResults ∧
          TasksMoved x results x' moved := by
  obtain ⟨ft, fs, q, m, h⟩ := runs_preserves (I := fun x => ∃ ft fs q m, Custody x ft fs q m)
    (fun x call o x' hx hcall hstep => by
      obtain ⟨ft, fs, q, m, h⟩ := hx
      exact h.xioStep hcall hstep) (Custody.create hcreate) hmem hruns
  refine ⟨h.partitioned, fun maxResults events hev => ?_⟩
  cases events with
  | none =>
    -- A failed wait changes nothing.
    refine ⟨-1, [], x, [], rfl, fun h => Bool.noConfusion h, Nat.zero_le _, rfl,
      fun free hfree => ?_, fun t => ?_, List.nodup_nil⟩
    · rwa [List.append_nil]
    · exact Nat.zero_add _
  | some events =>
    obtain ⟨results, x', moved, hwait, hle, hmoved⟩ := h.moved maxResults (hev events rfl)
    exact ⟨_, results, x', moved, hwait, fun _ => rfl, hle, hmoved⟩

/-- Two requests that are queued, and an error event. -/
theorem twoRequests_partitioned :
    ∃ x₀ x : Xio ℕ, ∃ outs, fhXioCreate true true ⟨true, true, true⟩ (some 0) = some (some x₀) ∧
      runs xioStep x₀ twoRequests = some (outs, x) ∧ x.TasksPartitioned ∧
      ∃ ret results x' moved, fhXioWait false x 1 (some errorEvent) = some (ret, results, x') ∧
        ((some errorEvent).isSome → ret = results.length) ∧ results.length ≤ 1 ∧
        TasksMoved x results x' moved := by
  obtain ⟨x₀, x, outs, hx₀, hruns, -⟩ := twoRequests_run
  have hmem : ∀ call ∈ twoRequests, call.HasMemory := fun call hcall => by
    rw [twoRequests, List.mem_cons, List.mem_cons, List.mem_singleton] at hcall
    rcases hcall with rfl | rfl | rfl <;> rfl
  obtain ⟨hpart, hwait⟩ := tasks_partitioned hx₀ hmem hruns
  refine ⟨x₀, x, outs, hx₀, hruns, hpart, hwait 1 (some errorEvent) fun es hes => ?_⟩
  rw [← Option.some.inj hes]
  exact errorEvent_lt

end Freehttpd
