/-
Whose requests an error reports.

On epoll the events of a descriptor carry the fd state that it was registered with.
Its first request registers it, fails and gives the fd state back, so that the next
descriptor to be served may take it.

* `Backlog.step_cases` — what a call does to registrations and seats;
* `own_events_iff` — in every state of a run the events of each descriptor are for its
  own requests, or for none, exactly if no descriptor is served for the first time
  while another one was turned away and is not served yet;
* `reported_iff` — the requests of a descriptor can still be reported exactly if its fd
  state is in some registration.
-/
import Freehttpd.XioBacklog

namespace Freehttpd

open Runs

variable {U : Type}

/-! ### One call on a backlog -/

namespace Backlog

/-- A request leaves registrations and seats as they are, registers its descriptor for
the next seat, or is queued. -/
inductive Requested (b : Backlog U) (c : RecvCall U) : ℤ → Backlog U → Prop
  | refused {ret : ℤ} {b' : Backlog U} (hret : ret ≠ 0) (hknown : b'.known = b.known)
    (hseats : b'.seats = b.seats) : Requested b c ret b'
  | registered {ret : ℤ} {b' : Backlog U} (hret : ret ≠ 0)
    (hseat : Assoc.get b.seats c.fd = none) (hget : Assoc.get b.known c.fd = none)
    (hknown : b'.known = Assoc.set b.known c.fd b.seats.length) (hseats : b'.seats = b.seats) :
    Requested b c ret b'
  | queued {b' : Backlog U} (hknown : b'.known = b.known)
    (hseats : b'.seats = (b.accept c).seats) : Requested b c 0 b'

theorem neg_errno_ne_zero (errno : ℕ) : -(fhXioErrno errno : ℤ) ≠ 0 := by
  have h : fhXioErrno errno ≠ 0 := by
    rw [fhXioErrno]
    split
    · assumption
    · decide
  omega

/-- A request with its task and its slice. -/
theorem requested_of_enter {b b' : Backlog U} {slices : SlicePool} {c : RecvCall U}
    {slice : Option ℕ} {ret : ℤ} (h : enter { b with slices := slices } c slice = some (ret, b')) :
    b.Requested c ret b' := by
  rw [enter] at h
  split at h
  · obtain ⟨rfl, rfl⟩ := Prod.mk.inj (Option.some.inj h)
    exact .queued rfl rfl
  rename_i hseat
  split at h
  · obtain ⟨p, -, he⟩ := Option.map_eq_some_iff.mp h
    obtain ⟨rfl, rfl⟩ := Prod.mk.inj he
    exact .refused (neg_errno_ne_zero _) rfl rfl
  split at h
  · obtain ⟨rfl, rfl⟩ := Prod.mk.inj (Option.some.inj h)
    exact .queued rfl rfl
  rename_i hnew
  obtain ⟨p, -, he⟩ := Option.map_eq_some_iff.mp h
  obtain ⟨rfl, rfl⟩ := Prod.mk.inj he
  rw [not_or, Option.not_isSome_iff_eq_none] at hnew
  exact .registered (neg_errno_ne_zero _) (Option.not_isSome_iff_eq_none.mp hseat) hnew.2 rfl rfl

/-- What a request does. -/
theorem requested {b b' : Backlog U} {c : RecvCall U} {ret : ℤ}
    (h : b.request c = some (ret, b')) : b.Requested c ret b' := by
  rw [request, Option.bind_eq_bind, Option.bind_eq_some_iff] at h
  obtain ⟨-, -, h⟩ := h
  split at h
  · obtain ⟨rfl, rfl⟩ := Prod.mk.inj (Option.some.inj h)
    exact .refused (neg_errno_ne_zero _) rfl rfl
  split at h
  · exact requested_of_enter h
  rw [Option.bind_eq_bind, Option.bind_eq_some_iff] at h
  obtain ⟨acquired, -, h⟩ := h
  cases acquired with
  | none =>
    obtain ⟨rfl, rfl⟩ := Prod.mk.inj (Option.some.inj h)
    exact .refused (neg_errno_ne_zero _) rfl rfl
  | some p => exact requested_of_enter h

/-- What a call does: a wait keeps registrations and the descriptors of the seats. -/
theorem step_cases {b b' : Backlog U} {e : EpollCall U} {o : ℤ × List (XioResult U)}
    (h : b.step e = some (o, b')) :
    (∃ maxResults ready, e = .wait maxResults ready ∧ b' = (b.wait maxResults ready).2) ∨
      ∃ c, e = .recv c ∧ b.Requested c o.1 b' := by
  cases e with
  | recv c =>
    obtain ⟨r, hreq, he⟩ := Option.map_eq_some_iff.mp h
    obtain ⟨rfl, rfl⟩ := Prod.mk.inj he
    exact .inr ⟨c, rfl, requested hreq⟩
  | wait maxResults ready =>
    obtain ⟨-, rfl⟩ := Prod.mk.inj (Option.some.inj h)
    exact .inl ⟨maxResults, ready, rfl, rfl⟩

/-- The descriptor of a seat. -/
def holder (b : Backlog U) (i : ℕ) : Option (BitVec 32) := (b.seats.map Prod.fst)[i]?

variable {b b' : Backlog U} {c : RecvCall U} {fd fd' : BitVec 32} {i : ℕ}

theorem holder_eq_some_iff : b.holder i = some fd ↔ ∃ l, b.seats[i]? = some (fd, l) := by
  rw [holder, List.getElem?_map, Option.map_eq_some_iff]
  constructor
  · rintro ⟨s, hs, rfl⟩
    exact ⟨s.2, hs⟩
  · rintro ⟨l, hl⟩
    exact ⟨_, hl, rfl⟩

theorem lt_of_holder (h : b.holder i = some fd) : i < b.seats.length := by
  obtain ⟨hi, -⟩ := List.getElem?_eq_some_iff.mp h
  rwa [List.length_map] at hi

theorem get_seats_eq_none_iff : Assoc.get b.seats fd = none ↔ ∀ i, b.holder i ≠ some fd := by
  constructor
  · intro hnone i hi
    obtain ⟨l, hl⟩ := holder_eq_some_iff.mp hi
    have hno := Assoc.get_eq_none_iff.mp hnone _ (List.mem_of_getElem? hl)
    rw [beq_self_eq_true] at hno
    cases hno
  · intro hno
    cases hget : Assoc.get b.seats fd with
    | none => rfl
    | some l =>
      obtain ⟨i, hi⟩ := Assoc.exists_getElem_of_get hget
      exact absurd (holder_eq_some_iff.mpr ⟨l, hi⟩) (hno i)

theorem holder_congr (h : b'.seats.map Prod.fst = b.seats.map Prod.fst) : b'.holder = b.holder := by
  funext i
  rw [holder, h, holder]

/-- A wait changes neither registrations nor the descriptors of the seats. -/
theorem keys_wait (maxResults : ℕ) (ready : Option (List (BitVec 32 × BitVec 32))) :
    (b.wait maxResults ready).2.known = b.known ∧
      (b.wait maxResults ready).2.seats.map Prod.fst = b.seats.map Prod.fst := by
  unfold wait
  split
  · exact ⟨rfl, rfl⟩
  cases ready with
  | none => exact ⟨rfl, rfl⟩
  | some ready => exact ⟨rfl, b.keys_mapIdx _⟩

/-- A new seat goes to the descriptor of the request. -/
theorem holder_accept (hseat : Assoc.get b.seats c.fd = none) :
    (b.accept c).holder = Function.update b.holder b.seats.length (some c.fd) := by
  have hkeys : (b.accept c).seats.map Prod.fst = b.seats.map Prod.fst ++ [c.fd] := by
    rw [accept, Assoc.map_fst_set, hseat, Option.isSome_none, if_neg Bool.false_ne_true]
  funext j
  rw [holder, hkeys, Function.update_apply]
  split
  · rename_i hj
    rw [hj, ← List.length_map (f := Prod.fst), List.getElem?_concat_length]
  · rename_i hj
    rcases Nat.lt_or_gt_of_ne hj with hlt | hlt
    · rw [List.getElem?_append_left (by rwa [List.length_map])]
      rfl
    · rw [List.getElem?_eq_none (by rw [List.length_append, List.length_map]; exact hlt),
        holder, List.getElem?_eq_none (by rw [List.length_map]; exact hlt.le)]

/-- The seat that a descriptor is registered with is its own, if it has one, and that of
no other. -/
def Own (b : Backlog U) : Prop :=
  ∀ fd i, Assoc.get b.known fd = some i → ∀ fd' j, b.holder j = some fd' → (j = i ↔ fd' = fd)

/-- Descriptors are registered for seats that are taken or next. -/
def Ordered (b : Backlog U) : Prop := ∀ fd i, Assoc.get b.known fd = some i → i ≤ b.seats.length

/-- A new seat goes to a descriptor while another one is registered and has none. -/
def Overtaken (b : Backlog U) (c : RecvCall U) : Prop :=
  Assoc.get b.seats c.fd = none ∧
    ∃ fd ≠ c.fd, (Assoc.get b.known fd).isSome ∧ Assoc.get b.seats fd = none

/-- Neither registrations nor the descriptors of the seats change. -/
theorem own_congr (hknown : b'.known = b.known)
    (hkeys : b'.seats.map Prod.fst = b.seats.map Prod.fst) :
    (b'.Ordered ↔ b.Ordered) ∧ (b'.Own ↔ b.Own) := by
  have hlen := congrArg List.length hkeys
  rw [List.length_map, List.length_map] at hlen
  rw [Ordered, Ordered, Own, Own, hknown, hlen, holder_congr hkeys]
  exact ⟨Iff.rfl, Iff.rfl⟩

/-- A descriptor that has no seat is registered for the next one, or waits for it. -/
theorem Own.eq_length (hown : b.Own) (hord : b.Ordered) (hseat : Assoc.get b.seats fd = none)
    (hget : Assoc.get b.known fd = some i) : i = b.seats.length := by
  refine Nat.le_antisymm (hord fd i hget) (Nat.le_of_not_lt fun hlt => ?_)
  have hh : b.holder i = some b.seats[i].1 :=
    holder_eq_some_iff.mpr ⟨_, List.getElem?_eq_getElem hlt⟩
  rw [(hown fd i hget _ i hh).mp rfl] at hh
  exact get_seats_eq_none_iff.mp hseat i hh

/-- A descriptor without a seat is registered. -/
theorem own_register (hseat : Assoc.get b.seats fd = none)
    (hknown : b'.known = Assoc.set b.known fd b.seats.length) (hseats : b'.seats = b.seats) :
    (b.Ordered → b'.Ordered) ∧ (b.Own → b'.Own) := by
  have hholder : b'.holder = b.holder := holder_congr (by rw [hseats])
  have hget : ∀ fd' i, Assoc.get b'.known fd' = some i →
      (fd' = fd ∧ i = b.seats.length) ∨ Assoc.get b.known fd' = some i := fun fd' i hi => by
    rw [hknown, Assoc.get_set] at hi
    split at hi
    · rename_i hfd
      exact .inl ⟨(eq_of_beq hfd).symm, (Option.some.inj hi).symm⟩
    · exact .inr hi
  refine ⟨fun hord fd' i hi => ?_, fun hown fd' i hi fd'' j hj => ?_⟩
  · rw [hseats]
    rcases hget fd' i hi with ⟨-, rfl⟩ | hi
    · exact Nat.le_refl _
    · exact hord fd' i hi
  · rw [hholder] at hj
    rcases hget fd' i hi with ⟨rfl, rfl⟩ | hi
    · refine iff_of_false (Nat.ne_of_lt (lt_of_holder hj)) fun he => ?_
      rw [he] at hj
      exact get_seats_eq_none_iff.mp hseat j hj
    · exact hown fd' i hi fd'' j hj

/-- A request is queued. -/
theorem own_queue (hord : b.Ordered) (hown : b.Own) (hknown : b'.known = b.known)
    (hseats : b'.seats = (b.accept c).seats) : b'.Ordered ∧ (b'.Own ↔ ¬ b.Overtaken c) := by
  have hholder : b'.holder = (b.accept c).holder := holder_congr (by rw [hseats])
  have hlen : b.seats.length ≤ b'.seats.length := by
    rw [hseats, accept, Assoc.length_set]
    split <;> omega
  refine ⟨fun fd i hi => ?_, ?_⟩
  · rw [hknown] at hi
    exact (hord fd i hi).trans hlen
  cases hseat : Assoc.get b.seats c.fd with
  | some l =>
    refine iff_of_true ((own_congr hknown ?_).2.mpr hown) fun hover => ?_
    · rw [hseats, accept, Assoc.map_fst_set, hseat, Option.isSome_some, if_pos rfl]
    · rw [hover.1] at hseat
      cases hseat
  | none =>
    rw [holder_accept hseat] at hholder
    have hnew : b'.holder b.seats.length = some c.fd := by rw [hholder, Function.update_self]
    constructor
    · -- The descriptor that was overtaken is registered with the seat just taken.
      rintro hown' ⟨-, fd, hne, hreg, hnone⟩
      obtain ⟨i, hi⟩ := Option.isSome_iff_exists.mp hreg
      have hi' : Assoc.get b'.known fd = some i := by rw [hknown, hi]
      exact hne ((hown' fd i hi' c.fd _ hnew).mp (hown.eq_length hord hnone hi).symm).symm
    · intro hno fd i hi fd' j hj
      rw [hknown] at hi
      rw [hholder, Function.update_apply] at hj
      split at hj
      · rename_i hj'
        obtain rfl := Option.some.inj hj
        rw [hj']
        refine ⟨fun he => ?_, fun he => ?_⟩
        · by_contra hne
          refine hno ⟨hseat, fd, fun he => hne he.symm, Option.isSome_of_eq_some hi, ?_⟩
          refine get_seats_eq_none_iff.mpr fun k hk => ?_
          have hki := (hown fd i hi fd k hk).mpr rfl
          have hlt := lt_of_holder hk
          omega
        · rw [he] at hseat
          exact (hown.eq_length hord hseat hi).symm
      · exact hown fd i hi fd' j hj

/-- One call: the events of all descriptors stay their own exactly if the request does not
overtake another descriptor. -/
theorem own_step (hord : b.Ordered) (hown : b.Own) {e : EpollCall U}
    {o : ℤ × List (XioResult U)} (h : b.step e = some (o, b')) :
    b'.Ordered ∧ (b'.Own ↔ ∀ c, e = .recv c → o.1 = 0 → ¬ b.Overtaken c) := by
  rcases step_cases h with ⟨maxResults, ready, rfl, rfl⟩ | ⟨c, rfl, hreq⟩
  · obtain ⟨hknown, hkeys⟩ := b.keys_wait maxResults ready
    obtain ⟨hord', hown'⟩ := own_congr hknown hkeys
    exact ⟨hord'.mpr hord, iff_of_true (hown'.mpr hown) nofun⟩
  have hrecv : (∀ c', EpollCall.recv c = .recv c' → o.1 = 0 → ¬ b.Overtaken c') ↔
      (o.1 = 0 → ¬ b.Overtaken c) :=
    ⟨fun h => h c rfl, fun h c' hc => by cases hc; exact h⟩
  rw [hrecv]
  obtain ⟨ret, results⟩ := o
  dsimp only at hreq ⊢
  cases hreq with
  | refused hret hknown hseats =>
    obtain ⟨hord', hown'⟩ := own_congr hknown (congrArg (List.map Prod.fst) hseats)
    exact ⟨hord'.mpr hord, iff_of_true (hown'.mpr hown) fun h0 => absurd h0 hret⟩
  | registered hret hseat hget hknown hseats =>
    obtain ⟨hord', hown'⟩ := own_register hseat hknown hseats
    exact ⟨hord' hord, iff_of_true (hown' hown) fun h0 => absurd h0 hret⟩
  | queued hknown hseats =>
    obtain ⟨hord', hown'⟩ := own_queue hord hown hknown hseats
    exact ⟨hord', hown'.trans ⟨fun hno _ => hno, fun hno => hno rfl⟩⟩

end Backlog

/-! ### Own events -/

/-- Among the descriptors with a fd state, the events of a descriptor are for its own fd
state and for no other one. -/
def Xio.OwnEvents (x : Xio U) : Prop :=
  ∀ fd reg, Assoc.get x.xp fd = some reg →
    ∀ fd' k, x.stateOf fd' = some k → (k = reg.2 ↔ fd' = fd)

/-- The request is accepted, the first one of its descriptor, while another descriptor is
registered that has no fd state yet. -/
def EpollCall.Overtakes (x : Xio U) : EpollCall U → Prop
  | .recv c => (epollStep x (.recv c)).any (fun r => r.1.1 = 0) = true ∧ x.stateOf c.fd = none ∧
      ∃ fd ≠ c.fd, (Assoc.get x.xp fd).isSome ∧ x.stateOf fd = none
  | .wait _ _ => False

namespace Represents

variable {x : Xio U} {b : Backlog U} {ft : List ℕ} {q : ℕ → List ℕ}

theorem stateOf_eq_some_iff (h : Represents x b ft q) {fd : BitVec 32} {k : ℕ} :
    x.stateOf fd = some k ↔ ∃ i, b.holder i = some fd ∧ xioXpollMaxTaskCount - 1 - i = k := by
  constructor
  · intro hk
    cases hget : Assoc.get b.seats fd with
    | none =>
      rw [h.stateOf_eq.1.mpr hget] at hk
      cases hk
    | some l =>
      obtain ⟨i, hi⟩ := Assoc.exists_getElem_of_get hget
      refine ⟨i, Backlog.holder_eq_some_iff.mpr ⟨l, hi⟩, ?_⟩
      exact Option.some.inj ((h.stateOf_eq.2 i l hi).symm.trans hk)
  · rintro ⟨i, hi, rfl⟩
    obtain ⟨l, hl⟩ := Backlog.holder_eq_some_iff.mp hi
    exact h.stateOf_eq.2 i l hl

theorem ownEvents_iff (h : Represents x b ft q) : x.OwnEvents ↔ b.Own := by
  have hle := h.le
  constructor
  · intro hown fd i hi fd' j hj
    have hi2048 := h.known fd i hi
    have hlt := Backlog.lt_of_holder hj
    rw [← hown fd _ (by rw [h.xp, hi]; rfl) fd' _ (h.stateOf_eq_some_iff.mpr ⟨j, hj, rfl⟩)]
    show j = i ↔ xioXpollMaxTaskCount - 1 - j = xioXpollMaxTaskCount - 1 - i
    omega
  · intro hown fd reg hreg fd' k hk
    obtain ⟨j, hj, rfl⟩ := h.stateOf_eq_some_iff.mp hk
    rw [h.xp, Option.map_eq_some_iff] at hreg
    obtain ⟨i, hi, rfl⟩ := hreg
    have hi2048 := h.known fd i hi
    have hlt := Backlog.lt_of_holder hj
    rw [← hown fd i hi fd' j hj]
    show xioXpollMaxTaskCount - 1 - j = xioXpollMaxTaskCount - 1 - i ↔ j = i
    omega

theorem overtakes_iff (h : Represents x b ft q) {e : EpollCall U} {o : ℤ × List (XioResult U)}
    {x' : Xio U} (hstep : epollStep x e = some (o, x')) :
    ¬ e.Overtakes x ↔ ∀ c, e = .recv c → o.1 = 0 → ¬ b.Overtaken c := by
  cases e with
  | wait maxResults ready => exact iff_of_true id nofun
  | recv c =>
    have hover : (x.stateOf c.fd = none ∧
        ∃ fd ≠ c.fd, (Assoc.get x.xp fd).isSome ∧ x.stateOf fd = none) ↔ b.Overtaken c := by
      have hnone : ∀ fd, x.stateOf fd = none ↔ Assoc.get b.seats fd = none :=
        fun fd => h.stateOf_eq.1
      simp only [Backlog.Overtaken, h.xp, Option.isSome_map, hnone]
    rw [EpollCall.Overtakes, hover, hstep, Option.any_some, decide_eq_true_iff]
    exact ⟨fun hno c' hc h0 hb => by cases hc; exact hno ⟨h0, hb⟩,
      fun hno hb => hno c rfl hb.1 hb.2⟩

/-- One call, in a state of which all events are own ones. -/
theorem ownEvents_step (h : Represents x b ft q) (hord : b.Ordered) (hown : x.OwnEvents)
    {e : EpollCall U} (hserved : e.Served) {o : ℤ × List (XioResult U)} {x' : Xio U}
    (hstep : epollStep x e = some (o, x')) :
    ∃ b' ft' q', Represents x' b' ft' q' ∧ b'.Ordered ∧ (x'.OwnEvents ↔ ¬ e.Overtakes x) := by
  rcases h.step hserved with ⟨hno, -⟩ | ⟨o₁, x₁, b', ft', q', hstep₁, hbstep, h'⟩
  · cases hno.symm.trans hstep
  obtain ⟨rfl, rfl⟩ := Prod.mk.inj (Option.some.inj (hstep₁.symm.trans hstep))
  obtain ⟨hord', hown'⟩ := Backlog.own_step hord (h.ownEvents_iff.mp hown) hbstep
  exact ⟨b', ft', q', h', hord', by rw [h'.ownEvents_iff, hown', h.overtakes_iff hstep]⟩

end Represents

/-- In a run on epoll from `fh_xio_create` the events of every descriptor are for its own
requests, in all states, exactly if no descriptor gets its fd state while another one,
registered before, has none. -/
theorem own_events_iff {calloc xpoll : Bool} {table : CreateAlloc} {mmap : Option ℕ}
    {x₀ x : Xio U} (h : fhXioCreate calloc xpoll table mmap = some (some x₀))
    {calls : List (EpollCall U)} {outs : List (ℤ × List (XioResult U))}
    (hserved : ∀ e ∈ calls, e.Served) (hruns : runs epollStep x₀ calls = some (outs, x)) :
    Always epollStep Xio.OwnEvents x₀ calls ↔
      EachStep epollStep (fun x e => ¬ e.Overtakes x) x₀ calls := by
  refine always_iff_of_runs
    (I := fun x => x.OwnEvents ∧ ∃ b ft q, Represents x b ft q ∧ b.Ordered)
    (fun _ hx => hx.1) ?_ ?_ ⟨?_, _, _, _, fhXioCreate_represents h, nofun⟩ hserved hruns
  · rintro x e o x' ⟨hown, b, ft, q, hrep, hord⟩ he hno hstep
    obtain ⟨b', ft', q', hrep', hord', hiff⟩ := hrep.ownEvents_step hord hown he hstep
    exact ⟨hiff.mpr hno, b', ft', q', hrep', hord'⟩
  · rintro x e o x' ⟨hown, b, ft, q, hrep, hord⟩ he hyes hstep hown'
    obtain ⟨b', ft', q', -, -, hiff⟩ := hrep.ownEvents_step hord hown he hstep
    exact hyes (hiff.mp hown')
  · exact (fhXioCreate_represents h).ownEvents_iff.mpr nofun

theorem crossedRequests_run :
    ∃ x₀ x : Xio ℕ, ∃ outs, fhXioCreate true true ⟨true, true, true⟩ (some 0) = some (some x₀) ∧
      runs epollStep x₀ crossedRequests = some (outs, x) ∧
      ∃ ft q, Represents x (crossed x₀.slices) ft q := by
  obtain ⟨x₀, -, -, hx₀, -⟩ := recvFd5_reached
  rcases (fhXioCreate_represents hx₀).agrees crossedRequests_served with
    ⟨-, hno⟩ | ⟨outs, x, b, hruns, hbruns, ft, q, hrep⟩
  · cases hno.symm.trans (crossedRequests_backlog x₀.slices)
  · obtain ⟨-, rfl⟩ := Prod.mk.inj (Option.some.inj
      (hbruns.symm.trans (crossedRequests_backlog x₀.slices)))
    exact ⟨x₀, x, outs, hx₀, hruns, ft, q, hrep⟩

/-- Descriptor 4 overtakes descriptor 3. -/
theorem crossedRequests_overtakes :
    ∃ x₀ : Xio ℕ, fhXioCreate true true ⟨true, true, true⟩ (some 0) = some (some x₀) ∧
      ¬ EachStep epollStep (fun x e => ¬ e.Overtakes x) x₀ crossedRequests := by
  obtain ⟨x₀, x, outs, hx₀, hruns, ft, q, hrep⟩ := crossedRequests_run
  refine ⟨x₀, hx₀, fun heach => ?_⟩
  have halways := (own_events_iff hx₀ crossedRequests_served hruns).mpr heach
  rw [← List.append_nil crossedRequests] at halways
  have hown : (crossed x₀.slices).Own := hrep.ownEvents_iff.mp (halways.append hruns)
  exact absurd ((hown 3 0 rfl 4 0 rfl).mp rfl) (by decide)

/-! ### Requests that are never reported -/

namespace Backlog

variable {b b' : Backlog U} {c : RecvCall U} {i : ℕ}

/-- The seat is taken, and no descriptor is registered with it. -/
def Unheard (b : Backlog U) (i : ℕ) : Prop :=
  i < b.seats.length ∧ ∀ fd, Assoc.get b.known fd ≠ some i

theorem Unheard.congr (h : b.Unheard i) (hknown : b'.known = b.known)
    (hlen : b.seats.length ≤ b'.seats.length) : b'.Unheard i :=
  ⟨h.1.trans_le hlen, fun fd => hknown ▸ h.2 fd⟩

theorem queue_congr (hseats : b'.seats = b.seats) : b'.queue i = b.queue i := by
  rw [queue, hseats, queue]

/-- A wait asks only for seats that somebody is registered with. -/
theorem queue_wait (h : b.Unheard i) (maxResults : ℕ)
    (ready : Option (List (BitVec 32 × BitVec 32))) :
    (b.wait maxResults ready).2.queue i = b.queue i := by
  unfold wait
  split
  · rfl
  cases ready with
  | none => rfl
  | some ready =>
    have hasked : i ∉ b.asked (waitRoom maxResults) ready := fun hi => by
      obtain ⟨mask, hm, -⟩ := mem_errored.mp hi
      obtain ⟨r, -, hr⟩ := List.mem_filterMap.mp (List.mem_of_mem_take hm)
      obtain ⟨i', hi', he⟩ := Option.map_eq_some_iff.mp hr
      rw [(Prod.mk.inj he).2] at hi'
      exact h.2 r.1 hi'
    show queue { b with seats := _ } i = b.queue i
    rw [queue_mapIdx, remaining_of_notMem hasked]

/-- A request that is queued goes on top of a queue. -/
theorem queue_accept (hd : Assoc.Distinct b.seats) : b.queue i <:+ (b.accept c).queue i := by
  cases hseat : Assoc.get b.seats c.fd with
  | none =>
    rw [(accept_of_new hseat).2.2, Function.update_apply]
    split
    · rename_i hi
      rw [hi]
      exact List.suffix_cons _ _
    · exact List.suffix_refl _
  | some l =>
    obtain ⟨j, hj⟩ := Assoc.exists_getElem_of_get hseat
    rw [(accept_of_seat hd hj rfl).2.2, Function.update_apply]
    split
    · rename_i hi
      rw [hi]
      exact List.suffix_cons _ _
    · exact List.suffix_refl _

/-- No call takes a request from a seat that nobody is registered with, and none registers
a descriptor with it. -/
theorem Unheard.step (h : b.Unheard i) (hd : Assoc.Distinct b.seats) {e : EpollCall U}
    {o : ℤ × List (XioResult U)} (hstep : b.step e = some (o, b')) :
    b'.Unheard i ∧ b.queue i <:+ b'.queue i := by
  rcases step_cases hstep with ⟨maxResults, ready, rfl, rfl⟩ | ⟨c, rfl, hreq⟩
  · obtain ⟨hknown, hkeys⟩ := b.keys_wait maxResults ready
    have hlen := congrArg List.length hkeys
    rw [List.length_map, List.length_map] at hlen
    rw [queue_wait h]
    exact ⟨h.congr hknown hlen.ge, List.suffix_refl _⟩
  obtain ⟨ret, results⟩ := o
  dsimp only at hreq
  cases hreq with
  | refused hret hknown hseats =>
    rw [queue_congr hseats]
    exact ⟨h.congr hknown (by rw [hseats]), List.suffix_refl _⟩
  | registered hret hseat hget hknown hseats =>
    rw [queue_congr hseats]
    refine ⟨⟨by rw [hseats]; exact h.1, fun fd hi => ?_⟩, List.suffix_refl _⟩
    -- Its descriptor is registered with the next seat.
    rw [hknown, Assoc.get_set] at hi
    split at hi
    · exact absurd (Option.some.inj hi) h.1.ne'
    · exact h.2 fd hi
  | queued hknown hseats =>
    have hlen : b.seats.length ≤ (b.accept c).seats.length := by
      rw [accept, Assoc.length_set]
      split <;> omega
    refine ⟨h.congr hknown (by rw [hseats]; exact hlen), ?_⟩
    have hqueue : b'.queue i = (b.accept c).queue i := by rw [queue, hseats, queue]
    rw [hqueue]
    exact queue_accept hd

end Backlog

/-- The requests that wait on fd state `k`, the newest first. -/
def Xio.waiting (x : Xio U) (k : ℕ) : List (Option (Ticket U)) :=
  (x.queued k).map x.tasks.ticket

namespace Represents

variable {x x' : Xio U} {b : Backlog U} {ft : List ℕ} {q : ℕ → List ℕ} {i : ℕ}

theorem waiting_eq (h : Represents x b ft q) (hi : i < xioXpollMaxTaskCount) :
    x.waiting (xioXpollMaxTaskCount - 1 - i) = (b.queue i).map some := by
  rw [← h.queue i hi, Xio.waiting, h.inv.queues.queued_eq (by omega), List.append_nil]

/-- In every run the requests of a seat that nobody is registered with stay. -/
theorem unheard_of_runs (h : Represents x b ft q) (hun : b.Unheard i) {calls : List (EpollCall U)}
    (hserved : ∀ e ∈ calls, e.Served) {outs : List (ℤ × List (XioResult U))}
    (hruns : runs epollStep x calls = some (outs, x')) :
    x.waiting (xioXpollMaxTaskCount - 1 - i) <:+ x'.waiting (xioXpollMaxTaskCount - 1 - i) := by
  have hi : i < xioXpollMaxTaskCount := hun.1.trans_le h.le
  obtain ⟨b', ft', q', h', -, hsuf⟩ := runs_preserves
    (I := fun x' => ∃ b' ft' q', Represents x' b' ft' q' ∧ b'.Unheard i ∧ b.queue i <:+ b'.queue i)
    (fun x₁ e o x₂ hx₁ he hstep => by
      obtain ⟨b₁, ft₁, q₁, h₁, hun₁, hsuf₁⟩ := hx₁
      rcases h₁.step he with ⟨hno, -⟩ | ⟨o', x₂', b₂, ft₂, q₂, hstep', hbstep, h₂⟩
      · cases hno.symm.trans hstep
      obtain ⟨rfl, rfl⟩ := Prod.mk.inj (Option.some.inj (hstep'.symm.trans hstep))
      obtain ⟨hun₂, hsuf₂⟩ := hun₁.step h₁.distinct hbstep
      exact ⟨b₂, ft₂, q₂, h₂, hun₂, hsuf₁.trans hsuf₂⟩)
    ⟨b, ft, q, h, hun, List.suffix_refl _⟩ hserved hruns
  rw [h.waiting_eq hi, h'.waiting_eq hi]
  exact hsuf.map some

/-- An error of a descriptor that is registered with the seat reports its last request. -/
theorem heard_of_known (h : Represents x b ft q) {fd : BitVec 32}
    (hget : Assoc.get b.known fd = some i) (hne : b.queue i ≠ []) :
    ∃ o x', epollStep x (.wait 1 (some [(fd, Epoll.xpollError)])) = some (o, x') ∧
      ¬ x.waiting (xioXpollMaxTaskCount - 1 - i) <:+ x'.waiting (xioXpollMaxTaskCount - 1 - i) := by
  have hi := h.known fd i hget
  obtain ⟨x', ft', q', hstep, h'⟩ := h.wait 1 (some [(fd, Epoll.xpollError)])
  refine ⟨_, x', hstep, fun hsuf => ?_⟩
  rw [h.waiting_eq hi, h'.waiting_eq hi] at hsuf
  have hlen := hsuf.length_le
  rw [List.length_map, List.length_map] at hlen
  have hqueue : (b.wait 1 (some [(fd, Epoll.xpollError)])).2.queue i = (b.queue i).drop 1 := by
    have hasked : b.asked 1 [(fd, Epoll.xpollError)] = [i] := by
      rw [Backlog.asked, List.filterMap_cons, hget]
      change errored [(Epoll.xpollError, i)] = [i]
      have herror : decide (Epoll.xpollError &&& Epoll.xpollError ≠ 0) = true := by decide
      rw [errored, List.filter_cons, if_pos herror]
      rfl
    unfold Backlog.wait
    rw [if_neg (show waitRoom 1 ≠ 0 from Nat.one_ne_zero)]
    dsimp only
    rw [Backlog.queue_mapIdx, show waitRoom 1 = 1 from rfl, hasked, remaining, remaining,
      Function.update_self]
  rw [hqueue, List.length_drop] at hlen
  have := List.length_pos_iff.mpr hne
  omega

end Represents

/-- After a run on epoll from `fh_xio_create`, take a descriptor with fd state `k`.  As long
as the fd-state table has memory and `epoll_ctl` fails only where it must, there is a way
to go on in which one of the requests that wait on `k` leaves if and only if there are
such requests and `k` is in the registration of some descriptor.  Otherwise nothing that
happens, and nothing that the caller does, has them reported. -/
theorem reported_iff {calloc xpoll : Bool} {table : CreateAlloc} {mmap : Option ℕ}
    {x₀ x : Xio U} (h : fhXioCreate calloc xpoll table mmap = some (some x₀))
    {calls : List (EpollCall U)} {outs : List (ℤ × List (XioResult U))}
    (hserved : ∀ e ∈ calls, e.Served) (hruns : runs epollStep x₀ calls = some (outs, x))
    {fd : BitVec 32} {k : ℕ} (hst : x.stateOf fd = some k) :
    (∃ more : List (EpollCall U), (∀ e ∈ more, e.Served) ∧ ∃ outs x',
        runs epollStep x more = some (outs, x') ∧ ¬ x.waiting k <:+ x'.waiting k) ↔
      x.waiting k ≠ [] ∧ ∃ fd' reg, Assoc.get x.xp fd' = some reg ∧ reg.2 = k := by
  rcases (fhXioCreate_represents h).agrees hserved with
    ⟨hno, -⟩ | ⟨outs', x₁, b, hruns', -, ft, q, hrep⟩
  · cases hno.symm.trans hruns
  obtain ⟨rfl, rfl⟩ := Prod.mk.inj (Option.some.inj (hruns'.symm.trans hruns))
  obtain ⟨i, hi, rfl⟩ := hrep.stateOf_eq_some_iff.mp hst
  have hlt := Backlog.lt_of_holder hi
  have hi2048 := hlt.trans_le hrep.le
  constructor
  · rintro ⟨more, hmore, outs', x', hruns', hleft⟩
    constructor
    · intro hnil
      rw [hnil] at hleft
      exact hleft (List.nil_suffix)
    · by_contra hno
      refine hleft (hrep.unheard_of_runs ⟨hlt, fun fd' hget => hno ?_⟩ hmore hruns')
      exact ⟨fd', (readEvents, xioXpollMaxTaskCount - 1 - i), by rw [hrep.xp, hget]; rfl, rfl⟩
  · rintro ⟨hne, fd', reg, hreg, hk⟩
    rw [hrep.xp, Option.map_eq_some_iff] at hreg
    obtain ⟨j, hj, rfl⟩ := hreg
    have hj2048 := hrep.known fd' j hj
    obtain rfl : j = i := by
      change xioXpollMaxTaskCount - 1 - j = xioXpollMaxTaskCount - 1 - i at hk
      omega
    obtain ⟨o, x', hstep, hleft⟩ := hrep.heard_of_known hj fun hnil => hne (by
      rw [hrep.waiting_eq hi2048, hnil]
      rfl)
    exact ⟨[.wait 1 (some [(fd', Epoll.xpollError)])], by simp [EpollCall.Served], [o], x',
      runs_cons_of_step hstep [], hleft⟩

/-- The request of descriptor 3 is never reported. -/
theorem crossedRequests_unreported :
    ∃ x₀ x : Xio ℕ, ∃ outs, fhXioCreate true true ⟨true, true, true⟩ (some 0) = some (some x₀) ∧
      runs epollStep x₀ crossedRequests = some (outs, x) ∧
      x.waiting 2046 = [some (some .recv, some 31)] ∧
      ¬ ∃ more : List (EpollCall ℕ), (∀ e ∈ more, e.Served) ∧ ∃ outs x',
        runs epollStep x more = some (outs, x') ∧ ¬ x.waiting 2046 <:+ x'.waiting 2046 := by
  obtain ⟨x₀, x, outs, hx₀, hruns, ft, q, hrep⟩ := crossedRequests_run
  have hst : x.stateOf 3 = some 2046 := hrep.stateOf_eq_some_iff.mpr ⟨1, rfl, rfl⟩
  refine ⟨x₀, x, outs, hx₀, hruns, hrep.waiting_eq (i := 1) (by decide), ?_⟩
  rw [reported_iff hx₀ crossedRequests_served hruns hst]
  rintro ⟨-, fd, reg, hreg, hk⟩
  rw [hrep.xp, Option.map_eq_some_iff] at hreg
  obtain ⟨i, hi, rfl⟩ := hreg
  -- Both descriptors are registered with the first seat.
  have hi0 : i = 0 := by
    obtain ⟨p, hp, rfl⟩ := Option.map_eq_some_iff.mp hi
    have hmem := List.mem_of_find?_eq_some hp
    rw [crossed, List.mem_cons, List.mem_singleton] at hmem
    rcases hmem with rfl | rfl <;> rfl
  rw [hi0] at hk
  exact absurd hk (by decide)

end Freehttpd
