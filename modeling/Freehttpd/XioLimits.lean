/-
What the xpoll backend can serve in its life.

A descriptor that was served once keeps its fd state, and a request that was accepted
keeps its bytes of the buffer pool, whatever is reported.

* `fd_states_used` — over a run on epoll the free fd states are those that were there at
  the start less one for each descriptor with an accepted request;
* `RangesApart.sum_le` — references that share no byte are not larger together than the
  pool;
* `pool_bytes_bounded` — so the requests for bytes of the pool that a run accepts are not
  larger together than the pool, however long the run is and whatever is reported.
-/
import Freehttpd.XioRanges
import Freehttpd.XioSeats
import Mathlib.Order.Interval.Finset.Nat

namespace Freehttpd

open Runs

variable {U : Type}

/-! ### Descriptors -/

/-- The descriptor of a request that was accepted. -/
def EpollCall.acceptedFd : EpollCall U → ℤ × List (XioResult U) → Multiset (BitVec 32)
  | .recv c, o => if o.1 = 0 then {c.fd} else 0
  | .wait _ _, _ => 0

/-- The descriptors of the requests that a run accepts. -/
def acceptedFds : Xio U → List (EpollCall U) → Multiset (BitVec 32) :=
  runSum epollStep fun _ e o => e.acceptedFd o

namespace Backlog

variable {b b' : Backlog U} {e : EpollCall U} {o : ℤ × List (XioResult U)}

theorem isSome_get_seats {fd : BitVec 32} :
    (Assoc.get b.seats fd).isSome ↔ fd ∈ b.seats.map Prod.fst := by
  rw [Option.isSome_iff_ne_none, Ne, get_seats_eq_none_iff, List.mem_iff_getElem?]
  exact not_forall_not

/-- A descriptor gets a seat with its first request that is accepted, and keeps it. -/
theorem seats_of_step (h : b.step e = some (o, b')) (fd : BitVec 32) :
    (Assoc.get b'.seats fd).isSome ↔ (Assoc.get b.seats fd).isSome ∨ fd ∈ e.acceptedFd o := by
  rcases step_cases h with ⟨maxResults, ready, rfl, rfl⟩ | ⟨c, rfl, hreq⟩
  · obtain ⟨-, hkeys⟩ := b.keys_wait maxResults ready
    rw [isSome_get_seats, isSome_get_seats, hkeys, EpollCall.acceptedFd]
    simp
  obtain ⟨ret, results⟩ := o
  rw [EpollCall.acceptedFd]
  cases hreq with
  | refused hret hknown hseats => simp [hret, hseats]
  | registered hret hseat hget hknown hseats => simp [hret, hseats]
  | queued hknown hseats =>
    change _ ↔ _ ∨ fd ∈ ({c.fd} : Multiset (BitVec 32))
    rw [hseats, accept, Assoc.get_set, Multiset.mem_singleton]
    rcases eq_or_ne c.fd fd with rfl | hne
    · simp
    · rw [if_neg (by simpa using hne)]
      simp [hne.symm]

end Backlog

/-- Every descriptor with an accepted request has a fd state of its own, for good: over a run
on epoll from `fh_xio_create` the free fd states are fewer by the number of these
descriptors, and there are never more of them than fd states. -/
theorem fd_states_used {calloc xpoll : Bool} {table : CreateAlloc} {mmap : Option ℕ}
    {x₀ x : Xio U} (h : fhXioCreate calloc xpoll table mmap = some (some x₀))
    {calls : List (EpollCall U)} {outs : List (ℤ × List (XioResult U))}
    (hserved : ∀ e ∈ calls, e.Served) (hruns : runs epollStep x₀ calls = some (outs, x)) :
    x.fdStates.freeFdStateListTop + (acceptedFds x₀ calls).toFinset.card = xioXpollMaxTaskCount ∧
      ∀ fd, (x.stateOf fd).isSome ↔ fd ∈ acceptedFds x₀ calls := by
  have hgain := runSum_gain (C := fun _ e => e.Served) (m := 0)
    (fun x (fds : Multiset (BitVec 32)) => ∃ b ft q, Represents x b ft q ∧
      ∀ fd, (Assoc.get b.seats fd).isSome ↔ fd ∈ fds)
    (fun _ e o => e.acceptedFd o)
    (fun x fds e o x' hx he hstep => by
      obtain ⟨b, ft, q, hrep, hfds⟩ := hx
      rcases hrep.step he with ⟨hno, -⟩ | ⟨o', x'', b', ft', q', hstep', hbstep, hrep'⟩
      · cases hno.symm.trans hstep
      obtain ⟨rfl, rfl⟩ := Prod.mk.inj (Option.some.inj (hstep'.symm.trans hstep))
      refine ⟨b', ft', q', hrep', fun fd => ?_⟩
      rw [Backlog.seats_of_step hbstep, hfds, Multiset.mem_add])
    ⟨_, _, _, fhXioCreate_represents h, by simp [Backlog.start, Assoc.get]⟩
    (eachStep_of_forall (fun e he _ => hserved e he) x₀) hruns
  rw [zero_add] at hgain
  obtain ⟨b, ft, q, hrep, hfds⟩ := hgain
  change ∀ fd, _ ↔ fd ∈ acceptedFds x₀ calls at hfds
  refine ⟨?_, fun fd => ?_⟩
  · -- The descriptors of the seats are these descriptors, each once.
    have hnodup : (b.seats.map Prod.fst).Nodup := by
      refine (Assoc.distinct_iff.mp hrep.distinct).imp fun h he => ?_
      rw [he, beq_self_eq_true] at h
      cases h
    have hfinset : (acceptedFds x₀ calls).toFinset = (b.seats.map Prod.fst).toFinset := by
      ext fd
      rw [Multiset.mem_toFinset, List.mem_toFinset, ← hfds, Backlog.isSome_get_seats]
    have htop := hrep.inv.states.stack.length_eq
    have hle := hrep.le
    rw [List.length_range] at htop
    rw [hfinset, List.toFinset_card_of_nodup hnodup, List.length_map]
    omega
  · rw [← hfds, Option.isSome_iff_ne_none, Option.isSome_iff_ne_none, Ne, Ne, hrep.stateOf_eq.1]

theorem crossedRequests_states :
    ∃ x₀ x : Xio ℕ, ∃ outs, fhXioCreate true true ⟨true, true, true⟩ (some 0) = some (some x₀) ∧
      runs epollStep x₀ crossedRequests = some (outs, x) ∧
      x.fdStates.freeFdStateListTop + (acceptedFds x₀ crossedRequests).toFinset.card
        = xioXpollMaxTaskCount ∧
      ∀ fd, (x.stateOf fd).isSome ↔ fd ∈ acceptedFds x₀ crossedRequests := by
  obtain ⟨x₀, x, outs, hx₀, hruns, -⟩ := crossedRequests_run
  exact ⟨x₀, x, outs, hx₀, hruns, fd_states_used hx₀ crossedRequests_served hruns⟩

/-! ### Bytes of the buffer pool -/

/-- Ranges in a block that share no byte are not larger together than the block. -/
theorem sum_size_le {m n : ℕ} {out : List SliceRef}
    (hin : ∀ r ∈ out, m ≤ r.buf ∧ r.buf + r.size ≤ m + n) (hapart : out.Pairwise SliceRef.Apart) :
    (out.map SliceRef.size).sum ≤ n := by
  -- The bytes that are out are as many as the sizes say, and lie in the block.
  have hcard : ∃ s : Finset ℕ, (∀ a, a ∈ s ↔ ∃ r ∈ out, a ∈ r.bytes) ∧
      s.card = (out.map SliceRef.size).sum := by
    clear hin
    induction out with
    | nil => exact ⟨∅, by simp, rfl⟩
    | cons r out ih =>
      obtain ⟨hr, hapart⟩ := List.pairwise_cons.mp hapart
      obtain ⟨s, hs, hcard⟩ := ih hapart
      have hmem : ∀ a, a ∈ Finset.Ico r.buf (r.buf + r.size) ↔ a ∈ r.bytes := fun a =>
        Finset.mem_Ico
      have hdisj : Disjoint (Finset.Ico r.buf (r.buf + r.size)) s := by
        refine Finset.disjoint_left.mpr fun a ha has => ?_
        obtain ⟨r', hr', ha'⟩ := (hs a).mp has
        exact hr r' hr' a ((hmem a).mp ha) ha'
      refine ⟨Finset.Ico r.buf (r.buf + r.size) ∪ s, fun a => ?_, ?_⟩
      · rw [Finset.mem_union, hmem, hs, List.exists_mem_cons_iff]
      · rw [Finset.card_union_of_disjoint hdisj, Nat.card_Ico, hcard, List.map_cons, List.sum_cons]
        omega
  obtain ⟨s, hs, hcard⟩ := hcard
  rw [← hcard, ← Nat.add_sub_cancel_left m n, ← Nat.card_Ico]
  refine Finset.card_le_card fun a ha => ?_
  obtain ⟨r, hr, hlo, hhi⟩ := (hs a).mp ha
  have := hin r hr
  exact Finset.mem_Ico.mpr ⟨by omega, by omega⟩

/-- The references that are out are not larger together than the pool. -/
theorem RangesApart.sum_le {mem : ℕ} {s : SlicePool × List SliceRef} (h : RangesApart mem s) :
    (s.2.map SliceRef.size).sum ≤ xioBufCount * xioBufSize := by
  refine sum_size_le (m := mem) (fun r hr => ?_) h.2
  obtain ⟨hlt, hlo, hhi⟩ := h.1 r hr
  rw [xioBufCount] at hlt
  rw [xioBufSize] at hlo hhi
  rw [xioBufCount, xioBufSize]
  omega

/-- References to at least one byte are fewer than `2 ^ 16` for each slice. -/
theorem RangesApart.refsOut_lt {mem : ℕ} {s : SlicePool × List SliceRef} (h : RangesApart mem s)
    (hpos : ∀ r ∈ s.2, 0 < r.size) (slice : ℕ) : refsOut s.2 slice < 2 ^ 16 := by
  have hsum : ((s.2.filter fun r => r.slice = slice).map SliceRef.size).sum ≤ xioBufSize := by
    refine sum_size_le (m := mem + slice * xioBufSize) (fun r hr => ?_) (h.2.filter _)
    obtain ⟨hr, hslice⟩ := List.mem_filter.mp hr
    obtain ⟨-, hlo, hhi⟩ := h.1 r hr
    rw [of_decide_eq_true hslice] at hlo hhi
    exact ⟨hlo, hhi⟩
  have hlen : (s.2.filter fun r => r.slice = slice).length
      ≤ ((s.2.filter fun r => r.slice = slice).map SliceRef.size).sum := by
    rw [← List.length_map (f := SliceRef.size)]
    refine List.length_le_sum_of_one_le _ fun n hn => ?_
    obtain ⟨r, hr, rfl⟩ := List.mem_map.mp hn
    exact hpos r (List.mem_of_mem_filter hr)
  rw [xioBufSize] at hsum
  rw [refsOut, List.countP_eq_length_filter]
  omega

/-- A request with its task and its slice keeps the slice exactly if it is accepted. -/
theorem Backlog.slices_of_enter {b b' : Backlog U} {c : RecvCall U} {slice : Option ℕ} {ret : ℤ}
    (h : b.enter c slice = some (ret, b')) :
    (ret = 0 ∧ b'.slices = b.slices) ∨ (ret ≠ 0 ∧ b.slices.giveBack slice = some b'.slices) := by
  rw [enter] at h
  split at h
  · obtain ⟨rfl, rfl⟩ := Prod.mk.inj (Option.some.inj h)
    exact .inl ⟨rfl, rfl⟩
  split at h
  · obtain ⟨p, hp, he⟩ := Option.map_eq_some_iff.mp h
    obtain ⟨rfl, rfl⟩ := Prod.mk.inj he
    exact .inr ⟨neg_errno_ne_zero _, hp⟩
  split at h
  · obtain ⟨rfl, rfl⟩ := Prod.mk.inj (Option.some.inj h)
    exact .inl ⟨rfl, rfl⟩
  · obtain ⟨p, hp, he⟩ := Option.map_eq_some_iff.mp h
    obtain ⟨rfl, rfl⟩ := Prod.mk.inj he
    exact .inr ⟨neg_errno_ne_zero _, hp⟩

/-- What a request does to the pool: nothing, or it acquires bytes, and releases them
exactly if it fails. -/
theorem Backlog.slices_of_request {b b' : Backlog U} {c : RecvCall U} {ret : ℤ}
    (h : b.request c = some (ret, b')) :
    (b'.slices = b.slices ∧ (ret = 0 → c.buf ≠ none)) ∨
      ∃ slice p, c.buf = none ∧ c.size ≤ xioBufSize ∧
        fhXioAcquireSlice false b.slices c.size = some (some (slice, p)) ∧
        ((ret = 0 ∧ b'.slices = p) ∨
          (ret ≠ 0 ∧ fhXioReleaseSlice false p slice = some b'.slices)) := by
  rw [request, Option.bind_eq_bind, Option.bind_eq_some_iff] at h
  obtain ⟨u, hassert, h⟩ := h
  have hadm := cAssert_false_eq_some hassert
  split at h
  · obtain ⟨rfl, rfl⟩ := Prod.mk.inj (Option.some.inj h)
    exact .inl ⟨rfl, fun h0 => absurd h0 (neg_errno_ne_zero _)⟩
  cases hbuf : c.buf with
  | some buf =>
    rw [hbuf] at h
    refine .inl ⟨?_, fun _ => Option.some_ne_none buf⟩
    rcases slices_of_enter h with ⟨-, hslices⟩ | ⟨-, hslices⟩
    · exact hslices
    · exact (Option.some.inj hslices).symm
  | none =>
    rw [hbuf] at h hadm
    dsimp only at h
    rw [Option.bind_eq_bind, Option.bind_eq_some_iff] at h
    obtain ⟨acquired, hacq, h⟩ := h
    cases acquired with
    | none =>
      obtain ⟨rfl, rfl⟩ := Prod.mk.inj (Option.some.inj h)
      exact .inl ⟨rfl, fun h0 => absurd h0 (neg_errno_ne_zero _)⟩
    | some p =>
      refine .inr ⟨p.1, p.2, rfl, hadm.resolve_left Bool.false_ne_true, hacq, ?_⟩
      exact slices_of_enter h

theorem Backlog.slices_wait (b : Backlog U) (maxResults : ℕ)
    (ready : Option (List (BitVec 32 × BitVec 32))) :
    (b.wait maxResults ready).2.slices = b.slices := by
  unfold Backlog.wait
  split
  · rfl
  · cases ready <;> rfl

/-- The references `out` are lent by the pool, each to at least one byte. -/
structure Lent (mem : ℕ) (p : SlicePool) (out : List SliceRef) : Prop where
  ranges : RangesInv mem (p, out)
  pos : ∀ r ∈ out, 0 < r.size

namespace Lent

variable {mem : ℕ} {p p' p'' : SlicePool} {out : List SliceRef} {size slice : ℕ}

/-- Bytes are lent. -/
theorem acquire (h : Lent mem p out) (hpos : 0 < size) (hsize : size ≤ xioBufSize)
    (hacq : fhXioAcquireSlice false p size = some (some (slice, p'))) :
    ∃ r : SliceRef, r.slice = slice ∧ r.size = size ∧ Lent mem p' (r :: out) := by
  obtain ⟨o, s', hstep, hinv⟩ := h.ranges.acquire hsize
  rw [rangeStep] at hstep
  simp only [hacq, Option.bind_eq_bind, Option.bind_some, Option.bind_eq_some_iff] at hstep
  obtain ⟨sl, -, buf, -, he⟩ := hstep
  obtain ⟨-, rfl⟩ := Prod.mk.inj (Option.some.inj he)
  exact ⟨⟨slice, buf, size⟩, rfl, rfl, hinv, List.forall_mem_cons.mpr ⟨hpos, h.pos⟩⟩

/-- What was lent last is given back. -/
theorem release {r : SliceRef} (h : Lent mem p (r :: out))
    (hrel : fhXioReleaseSlice false p r.slice = some p') : Lent mem p' out := by
  have hmem : r ∈ r :: out := List.mem_cons_self
  have hr := h.ranges.apart.1 r hmem
  obtain ⟨free, hwf⟩ := h.ranges.exists_free
  obtain ⟨sl, hsl, -⟩ := hwf.slice r.slice hr.1
  obtain ⟨htop, hrefs⟩ := SlicePool.Wf.asserts_of_release hsl hrel
  obtain ⟨o, s', hstep, hinv⟩ := h.ranges.release hmem ⟨htop, sl, hsl, hrefs⟩
    (RangeOp.unwrapped_of_lt hmem (h.ranges.apart.refsOut_lt h.pos))
  rw [rangeStep] at hstep
  simp only [hrel, Option.bind_eq_bind, Option.bind_some, Option.some_inj, Prod.mk.injEq] at hstep
  obtain ⟨-, rfl⟩ := hstep
  rw [List.erase_cons_head] at hinv
  exact ⟨hinv, (List.forall_mem_cons.mp h.pos).2⟩

end Lent

/-- The bytes of the pool that go to a request that was accepted. -/
def EpollCall.pooled : EpollCall U → ℤ × List (XioResult U) → ℕ
  | .recv c, o => if o.1 = 0 ∧ c.buf = none then c.size else 0
  | .wait _ _, _ => 0

/-- The bytes of the pool that go to the requests that a run accepts. -/
def pooledBytes : Xio U → List (EpollCall U) → ℕ := runSum epollStep fun _ e o => e.pooled o

/-- A request without a buffer asks for at least one byte. -/
def EpollCall.Sized : EpollCall U → Prop
  | .recv c => c.buf = none → 0 < c.size
  | .wait _ _ => True

/-- One call lends what it is worth, and nothing comes back. -/
theorem Backlog.lent_step {b b' : Backlog U} {e : EpollCall U} {o : ℤ × List (XioResult U)}
    (h : b.step e = some (o, b')) (hsized : e.Sized) {mem : ℕ} {out : List SliceRef}
    (hlent : Lent mem b.slices out) :
    ∃ out', Lent mem b'.slices out' ∧
      (out'.map SliceRef.size).sum = (out.map SliceRef.size).sum + e.pooled o := by
  cases e with
  | wait maxResults ready =>
    have hb' : (b.wait maxResults ready).2 = b' := congrArg Prod.snd (Option.some.inj h)
    rw [← hb', slices_wait]
    exact ⟨out, hlent, rfl⟩
  | recv c =>
    obtain ⟨r, hreq, he⟩ := Option.map_eq_some_iff.mp h
    obtain ⟨rfl, rfl⟩ := Prod.mk.inj he
    rw [EpollCall.pooled]
    rcases slices_of_request hreq with
      ⟨hslices, hbuf⟩ | ⟨slice, p, hbuf, hsize, hacq, ⟨h0, hslices⟩ | ⟨h0, hrel⟩⟩
    · rw [if_neg fun hc => hbuf hc.1 hc.2]
      exact ⟨out, hslices ▸ hlent, rfl⟩
    · obtain ⟨ref, -, hrefsize, hlent'⟩ := hlent.acquire (hsized hbuf) hsize hacq
      refine ⟨ref :: out, hslices ▸ hlent', ?_⟩
      rw [if_pos ⟨h0, hbuf⟩, List.map_cons, List.sum_cons, hrefsize, Nat.add_comm]
    · obtain ⟨ref, rfl, -, hlent'⟩ := hlent.acquire (hsized hbuf) hsize hacq
      rw [if_neg fun hc => h0 hc.1]
      exact ⟨out, hlent'.release hrel, rfl⟩

/-- In every run on epoll from `fh_xio_create`, with memory for the fd-state table, with
`epoll_ctl` failing only where it must, and with requests for bytes of the pool that ask
for at least one, the accepted ones are not larger together than the pool: no result gives
bytes back. -/
theorem pool_bytes_bounded {calloc xpoll : Bool} {table : CreateAlloc} {mmap : Option ℕ}
    {x₀ x : Xio U} (h : fhXioCreate calloc xpoll table mmap = some (some x₀))
    {calls : List (EpollCall U)} {outs : List (ℤ × List (XioResult U))}
    (hserved : ∀ e ∈ calls, e.Served) (hsized : ∀ e ∈ calls, e.Sized)
    (hruns : runs epollStep x₀ calls = some (outs, x)) :
    pooledBytes x₀ calls ≤ xioBufCount * xioBufSize := by
  obtain ⟨t, mem, -, hx₀⟩ := fhXioCreate_eq_some h
  have hstart : Lent mem (Backlog.start x₀.slices : Backlog U).slices [] := by
    rw [hx₀]
    exact ⟨rangesInv_init mem, nofun⟩
  have hgain := runSum_gain (C := fun _ e => e.Served ∧ e.Sized) (m := 0)
    (fun x n => ∃ b ft q out, Represents x b ft q ∧ Lent mem b.slices out ∧
      (out.map SliceRef.size).sum = n)
    (fun _ e o => e.pooled o)
    (fun x n e o x' hx he hstep => by
      obtain ⟨b, ft, q, out, hrep, hlent, rfl⟩ := hx
      rcases hrep.step he.1 with ⟨hno, -⟩ | ⟨o', x'', b', ft', q', hstep', hbstep, hrep'⟩
      · cases hno.symm.trans hstep
      obtain ⟨rfl, rfl⟩ := Prod.mk.inj (Option.some.inj (hstep'.symm.trans hstep))
      obtain ⟨out', hlent', hsum⟩ := Backlog.lent_step hbstep he.2 hlent
      exact ⟨b', ft', q', out', hrep', hlent', hsum⟩)
    ⟨_, _, _, [], fhXioCreate_represents h, hstart, rfl⟩
    (eachStep_of_forall (fun e he _ => ⟨hserved e he, hsized e he⟩) x₀) hruns
  rw [zero_add] at hgain
  obtain ⟨b, ft, q, out, -, hlent, hsum⟩ := hgain
  rw [pooledBytes, ← hsum]
  exact hlent.ranges.apart.sum_le

/-- A request that registers descriptor 5, and one that is queued with 16 bytes of the
pool and then reported. -/
def pooledRequest : List (EpollCall ℕ) :=
  [.recv recvFd5, .recv { recvFd5 with buf := none }, .wait 1 (some [(5, Epoll.xpollError)])]

theorem pooledRequest_run :
    freshXio.any (fun o => o.any fun x₀ => (runs epollStep x₀ pooledRequest).any fun r =>
      pooledBytes x₀ pooledRequest = 16 ∧ r.1.map Prod.fst = [-131, 0, 1]) = true := by
  decide +kernel

theorem pooledRequest_bounded :
    ∃ x₀ x : Xio ℕ, ∃ outs, fhXioCreate true true ⟨true, true, true⟩ (some 0) = some (some x₀) ∧
      runs epollStep x₀ pooledRequest = some (outs, x) ∧ pooledBytes x₀ pooledRequest = 16 ∧
      pooledBytes x₀ pooledRequest ≤ xioBufCount * xioBufSize := by
  obtain ⟨o, hcreate, ho⟩ := (Option.any_eq_true _ _).mp pooledRequest_run
  obtain ⟨x₀, rfl, hx⟩ := (Option.any_eq_true _ _).mp ho
  obtain ⟨⟨outs, x⟩, hruns, hr⟩ := (Option.any_eq_true _ _).mp hx
  refine ⟨x₀, x, outs, hcreate, hruns, (of_decide_eq_true hr).1,
    pool_bytes_bounded hcreate (fun e he => ?_) (fun e he => ?_) hruns⟩
  all_goals
    simp only [pooledRequest, List.mem_cons, List.not_mem_nil, or_false] at he
    rcases he with rfl | rfl | rfl
  · trivial
  · trivial
  · trivial
  · nofun
  · exact fun _ => (by decide : 0 < 16)
  · trivial

end Freehttpd
