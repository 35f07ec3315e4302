/-
What the generic `poll(2)` backend delivers, over all its calls.

The registry is a finite map from descriptors, which the calls built on `xpoll_ctl_fd`
change and which `xpoll_wait` reads.  Both are taken together here: calls of every kind,
in any order.

* `XpollCall.Admissible` — what the calls must be for the registry to stay coherent;
* `Delivered` — the events that a wait may report, by the map and by what `poll` says
  about each descriptor;
* `Xpoll.Inv.wait` — one wait reports such events, and leaves the registry alone;
* `xpoll_deliveries` — so does every wait of a run, for the map as the calls in front of it
  have left it.
-/
import Freehttpd.XpollCapacity
import Freehttpd.XpollWait

namespace Freehttpd

open CircularScan OpenAddressing Runs

variable {U : Type}

/-! ### Statement -/

/-- `XPOLL_HANGUP`, which is `POLLHUP`. -/
def xpollHangup : BitVec 32 := 0x10

/-- What is assumed of a call: for the registry as in `XpollOp`, and room for an event. -/
def XpollCall.Admissible (xp : Xpoll U) : XpollCall U → Prop
  | .ctl op => op.Admissible xp ∧ op.RemovesLast xp
  | .wait _ maxEvents => 0 < maxEvents

instance decidableCallAdmissible (xp : Xpoll U) : ∀ c : XpollCall U, Decidable (c.Admissible xp)
  | .ctl _ => inferInstanceAs (Decidable (_ ∧ _))
  | .wait _ _ => inferInstanceAs (Decidable (_ < _))

/-- The map behind a call. -/
def registered (m : RegMap U) : XpollCall U → RegMap U
  | .ctl op => (regStep m op).2
  | .wait _ _ => m

/-- `poll` says `answer fd` of each descriptor that it was asked about. -/
def Answers (xp : Xpoll U) (revents : ℕ → BitVec 16) (answer : BitVec 32 → BitVec 16) : Prop :=
  ∀ i < xp.pfdCount, ∀ p, xp.pfdList.read i = some p → revents i = answer p.fd

/-- The events of a wait: one for each of as many ready descriptors as there are, or as fit;
with the data that the descriptor was last registered with, and nothing but what `poll`
says about it. -/
structure Delivered (m : RegMap U) (answer : BitVec 32 → BitVec 16) (maxEvents : ℕ)
    (events : List (XpollEvent U)) : Prop where
  once : (events.map XpollEvent.fd).Nodup
  registered : ∀ e ∈ events, ∃ mask, Assoc.get m e.fd = some (mask, e.udata) ∧
    answer e.fd ≠ 0 ∧ e.events ≠ 0 ∧ e.events &&& pollNval.signExtend 32 = 0 ∧
    -- Of a `poll` that only answers what it was asked, and the three that are always there.
    (answer e.fd &&& ~~~(mask ||| 0x38) = 0 →
      e.events &&& ~~~(mask.signExtend 32 ||| xpollError ||| xpollHangup) = 0)
  count : events.length = min maxEvents (m.countP fun r => answer r.1 ≠ 0)
  all : m.countP (fun r => answer r.1 ≠ 0) ≤ maxEvents →
    ∀ r ∈ m, answer r.1 ≠ 0 → ∃ e ∈ events, e.fd = r.1

/-- What a call returns, for the map in front of it. -/
def Returns (m : RegMap U) (xp : Xpoll U) : XpollCall U → Bool ⊕ WaitResult U → Prop
  | .ctl op, o => o = .inl (regStep m op).1
  | .wait _ _, .inl _ => False
  | .wait .error _, .inr r => r.ret = -1 ∧ r.events = []
  | .wait (.ready revents) maxEvents, .inr r => r.ret = r.events.length ∧
      ∀ answer, Answers xp revents answer → Delivered m answer maxEvents.toNat r.events

/-! ### One event -/

theorem signExtend_bit (x : BitVec 16) {i : ℕ} (hi : i < 32) :
    (x.signExtend 32).getLsbD i = x.getLsbD (min i 15) := by
  rw [BitVec.getLsbD_signExtend, decide_eq_true hi, Bool.true_and]
  by_cases h : i < 16
  · rw [if_pos h, Nat.min_eq_left (by omega)]
  · rw [if_neg h, Nat.min_eq_right (by omega)]
    rfl

/-- The bits of the flags, by their numbers. -/
theorem flag_bits : ∀ i < 32, (pollNval.signExtend 32).getLsbD i = decide (i = 5) ∧
    xpollError.getLsbD i = decide (i = 3) ∧ xpollHangup.getLsbD i = decide (i = 4) ∧
    (0x38 : BitVec 16).getLsbD i = decide (i = 3 ∨ i = 4 ∨ i = 5) := by
  decide

theorem nval_iff (revents : BitVec 16) :
    revents &&& pollNval ≠ 0 ↔ revents.getLsbD 5 = true := by
  rw [show pollNval = BitVec.twoPow 16 5 from rfl, BitVec.and_twoPow]
  split
  · rename_i h
    exact iff_of_true (by decide) h
  · rename_i h
    exact iff_of_false (fun hne => hne rfl) h

theorem and_not_eq_zero_iff {w : ℕ} {a b : BitVec w} :
    a &&& ~~~b = 0 ↔ ∀ i < w, a.getLsbD i = true → b.getLsbD i = true := by
  constructor
  · intro h i hi ha
    have hbit := congrArg (fun x => x.getLsbD i) h
    simpa [ha, hi] using hbit
  · intro h
    refine BitVec.eq_of_getLsbD_eq fun i hi => ?_
    by_cases ha : a.getLsbD i = true
    · simp [h i hi ha]
    · simp [Bool.eq_false_iff.mpr ha]

/-- Bit `i` of the events that are reported for what `poll` says. -/
theorem waitEvent_bit (p : Pollfd) (udata : Option U) {i : ℕ} (hi : i < 32) :
    (waitEvent p udata).events.getLsbD i = true ↔
      (i = 3 ∧ p.revents.getLsbD 5 = true) ∨ (i ≠ 5 ∧ p.revents.getLsbD (min i 15) = true) := by
  obtain ⟨hnval, herror, -, -⟩ := flag_bits i hi
  rw [waitEvent]
  by_cases h : p.revents.getLsbD 5 = true
  · simp only [if_pos ((nval_iff _).mpr h), BitVec.getLsbD_or, BitVec.getLsbD_and,
      BitVec.getLsbD_not, hnval, herror, signExtend_bit _ hi, h, hi]
    simp
    tauto
  · simp only [if_neg fun hc => h ((nval_iff _).mp hc), signExtend_bit _ hi]
    have h5 : p.revents.getLsbD (min i 15) = true → i ≠ 5 := by
      rintro hbit rfl
      exact h hbit
    tauto

/-- A descriptor that `poll` says something about is reported with an event, without
`POLLNVAL`, and with nothing that it was not asked for but errors and hangups. -/
theorem waitEvent_events (p : Pollfd) (udata : Option U) (h : p.revents ≠ 0) :
    (waitEvent p udata).events ≠ 0 ∧ (waitEvent p udata).events &&& pollNval.signExtend 32 = 0 ∧
      ∀ mask, p.revents &&& ~~~(mask ||| 0x38) = 0 → (waitEvent p udata).events &&&
        ~~~(mask.signExtend 32 ||| xpollError ||| xpollHangup) = 0 := by
  refine ⟨fun h0 => ?_, ?_, fun mask hmask => ?_⟩
  · -- Bit 5 alone is reported as bit 3.
    have hzero (i : ℕ) (hi : i < 32) : ¬ (waitEvent p udata).events.getLsbD i = true := by
      rw [h0]
      simp
    refine h (BitVec.eq_of_getLsbD_eq fun i hi => ?_)
    by_contra hbit
    have hbit : p.revents.getLsbD i = true := by simpa using hbit
    by_cases h5 : i = 5
    · exact hzero 3 (by decide) ((waitEvent_bit p udata (by decide)).mpr (.inl ⟨rfl, h5 ▸ hbit⟩))
    · refine hzero i (by omega) ((waitEvent_bit p udata (by omega)).mpr (.inr ⟨h5, ?_⟩))
      rwa [Nat.min_eq_left (by omega)]
  · refine BitVec.eq_of_getLsbD_eq fun i hi => ?_
    obtain ⟨hnval, -⟩ := flag_bits i hi
    rw [BitVec.getLsbD_and, hnval]
    by_cases h5 : i = 5
    · have hno : ¬ (waitEvent p udata).events.getLsbD i = true := by
        rw [waitEvent_bit p udata hi]
        rintro (⟨h3, -⟩ | ⟨hne, -⟩)
        · omega
        · exact hne h5
      simp [Bool.eq_false_iff.mpr hno]
    · simp [h5]
  · rw [and_not_eq_zero_iff] at hmask ⊢
    intro i hi hbit
    obtain ⟨-, herror, hhangup, -⟩ := flag_bits i hi
    rw [BitVec.getLsbD_or, BitVec.getLsbD_or, herror, hhangup, signExtend_bit _ hi]
    rcases (waitEvent_bit p udata hi).mp hbit with ⟨h3, -⟩ | ⟨h5, hrev⟩
    · simp [h3]
    · have hasked := hmask (min i 15) (by omega) hrev
      obtain ⟨-, -, -, halways⟩ := flag_bits (min i 15) (by omega)
      rw [BitVec.getLsbD_or, halways] at hasked
      rcases Bool.or_eq_true_iff.mp hasked with hm | ha
      · simp [hm]
      · have ha := of_decide_eq_true ha
        have : i = 3 ∨ i = 4 := by omega
        rcases this with rfl | rfl <;> simp

/-! ### One wait -/

/-- A wait changes what `poll` sets and the saved index. -/
theorem xpollWait_frame {xp : Xpoll U} {poll : PollOutcome} {maxEvents : ℤ} {r : WaitResult U}
    (hr : xpollWait xp poll maxEvents = some r) :
    ∃ pfdList idx, r.xp = { xp with pfdList := pfdList, pfdLastWaitIndex := idx } ∧
      pfdList.size = xp.pfdList.size ∧ ∀ i < xp.pfdCount, ∀ p, xp.pfdList.read i = some p →
        ∃ revents, pfdList.read i = some { p with revents := revents } := by
  have hsame : ∀ i < xp.pfdCount, ∀ p, xp.pfdList.read i = some p →
      ∃ revents, xp.pfdList.read i = some { p with revents := revents } :=
    fun i _ p hp => ⟨p.revents, hp⟩
  have hpoll (revents : ℕ → BitVec 16) : (pollRevents xp.pfdList xp.pfdCount revents).size
      = xp.pfdList.size := by
    rw [pollRevents, Block.size, List.length_mapIdx]
    rfl
  unfold xpollWait at hr
  split at hr
  · split at hr
    · obtain rfl := Option.some.inj hr
      exact ⟨_, _, rfl, rfl, hsame⟩
    · cases poll with
      | error =>
        obtain rfl := Option.some.inj hr
        exact ⟨_, _, rfl, rfl, hsame⟩
      | ready revents =>
        simp only at hr
        split at hr
        · obtain rfl := Option.some.inj hr
          exact ⟨_, _, rfl, hpoll revents, fun i hi p hp => ⟨_, read_pollRevents hi hp⟩⟩
        · obtain ⟨w, -, hr⟩ := Option.bind_eq_some_iff.mp hr
          obtain rfl := Option.some.inj hr
          exact ⟨_, _, rfl, hpoll revents, fun i hi p hp => ⟨_, read_pollRevents hi hp⟩⟩
  · cases hr

/-- Registration number `i`. -/
def RegMap.entry (m : RegMap U) (i : ℕ) : BitVec 32 × BitVec 16 × Option U :=
  m.getD i (0, 0, none)

theorem RegMap.entry_eq (m : RegMap U) {i : ℕ} (hi : i < m.length) : m.entry i = m[i] := by
  rw [entry, List.getD_eq_getElem?_getD, List.getElem?_eq_getElem hi]
  rfl

/-- The ready registrations, counted by their numbers. -/
theorem RegMap.countP_eq (m : RegMap U) (ready : BitVec 32 × BitVec 16 × Option U → Prop)
    [DecidablePred ready] : m.countP ready = Nat.count (fun i => ready (m.entry i)) m.length := by
  have hm : (List.range m.length).map m.entry = m := by
    refine List.ext_getElem (by simp) fun i hi hi' => ?_
    rw [List.getElem_map, List.getElem_range, m.entry_eq hi']
  rw [← length_filter_range, ← List.countP_eq_length_filter]
  conv_lhs => rw [← hm]
  rw [List.countP_map]
  rfl

namespace Xpoll.Inv

variable {xp : Xpoll U} {m : RegMap U}

theorem entries (h : xp.Inv m) : Entries xp m.length
    (fun i => ⟨(m.entry i).1, (m.entry i).2.1, 0⟩) fun i => (m.entry i).2.2 where
  count_eq := h.count_eq
  pfd_read i hi := by
    obtain ⟨revents, hread⟩ := h.pfd_read i hi
    exact ⟨revents, by rw [hread, m.entry_eq hi]⟩
  info_read i hi := by rw [h.info_read i hi, m.entry_eq hi]

/-- A descriptor has one number. -/
theorem position_inj (h : xp.Inv m) {i j : ℕ} (hi : i < m.length) (hj : j < m.length)
    (he : (m.entry i).1 = (m.entry j).1) : i = j := by
  rw [m.entry_eq hi, m.entry_eq hj] at he
  have hti := h.table_read i hi
  rw [he, h.table_read j hj, Option.some_inj] at hti
  exact hti.symm

/-- A wait leaves the registry as it is. -/
theorem wait (h : xp.Inv m) {poll : PollOutcome} {maxEvents : ℤ} {r : WaitResult U}
    (hr : xpollWait xp poll maxEvents = some r) : r.xp.Inv m := by
  obtain ⟨pfdList, idx, hxp, hsize, hread⟩ := xpollWait_frame hr
  rw [hxp]
  exact { h with
    pfd_read := fun i hi => by
      obtain ⟨revents, hp⟩ := h.pfd_read i hi
      obtain ⟨revents', hp'⟩ := hread i (by rw [h.count_eq]; exact hi) _ hp
      exact ⟨revents', hp'⟩
    pfd_size := by
      show xp.pfdCap ≤ pfdList.size
      rw [hsize]
      exact h.pfd_size }

/-- The events of one wait. -/
theorem wait_delivered (h : xp.Inv m) (revents : ℕ → BitVec 16) {maxEvents : ℕ}
    (hmax : 0 < maxEvents) :
    ∃ r, xpollWait xp (.ready revents) maxEvents = some r ∧ r.ret = r.events.length ∧
      ∀ answer, Answers xp revents answer → Delivered m answer maxEvents r.events := by
  rcases Nat.eq_zero_or_pos m.length with hnil | hpos
  · -- Nothing is registered.
    have hm : m = [] := List.eq_nil_of_length_eq_zero hnil
    refine ⟨⟨0, none, [], { xp with pfdList := pollRevents xp.pfdList xp.pfdCount revents }⟩,
      ?_, rfl, fun answer _ => ?_⟩
    · rw [xpollWait, if_pos (by omega), if_neg (by omega)]
      simp only [h.count_eq, hnil, if_true]
    · subst hm
      exact ⟨List.nodup_nil, by simp, by simp, by simp⟩
  have hlen := h.length_le
  obtain ⟨e, xp', hen, -, hwait, -, -, hle, hstop⟩ :=
    xpollWait_eq h.entries hpos (by omega) hmax revents
  refine ⟨_, hwait, rfl, fun answer hanswer => ?_⟩
  set start := xp.pfdLastWaitIndex % m.length
  have hans : ∀ i < m.length, revents i = answer (m.entry i).1 := by
    intro i hi
    obtain ⟨revents', hp⟩ := h.pfd_read i hi
    rw [m.entry_eq hi]
    exact hanswer i (by rw [h.count_eq]; exact hi) _ hp
  -- What is met are the first ready registrations on the circle.
  set found := met (fun i => revents i ≠ 0) m.length start m.length
  have hmet := met_eq_take hen hle hstop
  have hfound : ∀ i, i ∈ found ↔ i < m.length ∧ revents i ≠ 0 := by
    intro i
    rw [show found = _ from met_eq_filter_circle _ _, List.mem_filter, mem_circle hpos,
      decide_eq_true_iff]
  have hnodup : found.Nodup := (circle_nodup _ _).filter _
  have hcount : found.length = m.countP fun r => answer r.1 ≠ 0 := by
    rw [show found.length = _ from length_met _, readyCount_full hpos, RegMap.countP_eq,
      ← length_filter_range, ← length_filter_range]
    refine congrArg List.length (List.filter_congr fun i hi => ?_)
    rw [hans i (List.mem_range.mp hi)]
  have hevents : eventsOf (polled (fun i => ⟨(m.entry i).1, (m.entry i).2.1, 0⟩) revents)
      (fun i => (m.entry i).2.2) m.length start e
      = (found.take maxEvents).map fun i => waitEvent ⟨(m.entry i).1, (m.entry i).2.1, revents i⟩
          (m.entry i).2.2 := by
    rw [← hmet]
    rfl
  rw [hevents]
  constructor
  · rw [List.map_map]
    refine (hnodup.sublist (List.take_sublist _ _)).map_on fun i hi j hj he => ?_
    have hi := ((hfound i).mp (List.mem_of_mem_take hi)).1
    have hj := ((hfound j).mp (List.mem_of_mem_take hj)).1
    exact h.position_inj hi hj he
  · intro ev hev
    obtain ⟨i, hi, rfl⟩ := List.mem_map.mp hev
    obtain ⟨hlt, hready⟩ := (hfound i).mp (List.mem_of_mem_take hi)
    obtain ⟨hne, hnval, hwithin⟩ := waitEvent_events
      ⟨(m.entry i).1, (m.entry i).2.1, revents i⟩ (m.entry i).2.2 hready
    refine ⟨(m.entry i).2.1, ?_, ?_, hne, hnval, fun hmask => hwithin _ ?_⟩
    · show Assoc.get m (m.entry i).1 = _
      rw [m.entry_eq hlt, h.get_position hlt]
      rfl
    · show answer (m.entry i).1 ≠ 0
      rwa [← hans i hlt]
    · show revents i &&& _ = 0
      rwa [hans i hlt]
  · rw [List.length_map, List.length_take, hcount]
  · intro hall r hr hready
    rw [List.take_of_length_le (by omega)]
    obtain ⟨i, hi, rfl⟩ := List.mem_iff_getElem.mp hr
    refine ⟨_, List.mem_map_of_mem ((hfound i).mpr ⟨hi, ?_⟩), ?_⟩
    · rwa [hans i hi, m.entry_eq hi]
    · show (m.entry i).1 = _
      rw [m.entry_eq hi]

/-- One call of either kind. -/
theorem call (h : xp.Inv m) {c : XpollCall U} (hc : c.Admissible xp) :
    ∃ o xp', xpollCallStep xp c = some (o, xp') ∧ Returns m xp c o ∧ xp'.Inv (registered m c) := by
  cases c with
  | ctl op =>
    obtain ⟨xp', hop, hinv⟩ := h.step hc.1 hc.2
    exact ⟨.inl (regStep m op).1, xp', by rw [xpollCallStep, hop]; rfl, rfl, hinv⟩
  | wait poll maxEvents =>
    have hpos : 0 < maxEvents := hc
    obtain ⟨n, rfl⟩ := Int.eq_ofNat_of_zero_le hpos.le
    cases poll with
    | error =>
      refine ⟨.inr ⟨-1, none, [], xp⟩, xp, ?_, ⟨rfl, rfl⟩, h⟩
      rw [xpollCallStep, xpollWait, if_pos hpos.le, if_neg (by omega)]
      rfl
    | ready revents =>
      obtain ⟨r, hr, hret, hdelivered⟩ := h.wait_delivered revents (by omega : 0 < n)
      exact ⟨.inr r, r.xp, by rw [xpollCallStep, hr]; rfl, ⟨hret, hdelivered⟩, h.wait hr⟩

end Xpoll.Inv

/-! ### Runs -/

/-- Every call of a run on a new registry, in whatever order the registrations and the
waits come, is answered as the finite map demands that the calls in front of it have left:
the registrations as by the map itself, and the waits with the events of the descriptors
in it. -/
theorem xpoll_deliveries {xp₀ : Xpoll U} (hcreate : xpollCreate true = some xp₀)
    {calls : List (XpollCall U)}
    (hadm : EachStep xpollCallStep (fun xp c => c.Admissible xp) xp₀ calls)
    {pre : List (XpollCall U)} {c : XpollCall U} (hpre : pre ++ [c] <+: calls) :
    ∃ outs xp o xp', runs xpollCallStep xp₀ pre = some (outs, xp) ∧
      xpollCallStep xp c = some (o, xp') ∧ Returns (pre.foldl registered []) xp c o := by
  obtain ⟨post, rfl⟩ := hpre
  have hstep : ∀ (xp : Xpoll U) m c, xp.Inv m → c.Admissible xp →
      ∃ o xp', xpollCallStep xp c = some (o, xp') ∧ xp'.Inv (registered m c) := by
    intro xp m c h hc
    obtain ⟨o, xp', hcall, -, hinv⟩ := h.call hc
    exact ⟨o, xp', hcall, hinv⟩
  have hpre := hadm.of_append
  obtain ⟨outs, xp, hruns, hinv⟩ := runs_follow hstep (xpollCreate_inv hcreate) hpre.of_append
  have hc : c.Admissible xp := eachStep_singleton.mp ((eachStep_append hruns).mp hpre).2
  obtain ⟨o, xp', hcall, hreturns, -⟩ := hinv.call hc
  exact ⟨outs, xp, o, xp', hruns, hcall, hreturns⟩

/-- Two descriptors, the first one modified, and a wait in which `poll` says of the second one
that it is not open. -/
theorem xpoll_deliveries_closed : ∃ xp₀ : Xpoll ℕ, xpollCreate true = some xp₀ ∧
    ∃ outs xp o xp', runs xpollCallStep xp₀
        [.ctl (.add 3 (some 30) 1 ⟨true, true, true⟩), .ctl (.add 4 (some 40) 1 ⟨true, true, true⟩),
          .ctl (.modify 3 (some 31) 5)] = some (outs, xp) ∧
      xpollCallStep xp (.wait (.ready fun i => if i = 1 then 0x20 else 4) 8) = some (o, xp') ∧
      Returns [(3, 5, some 31), (4, 1, some 40)] xp
        (.wait (.ready fun i => if i = 1 then 0x20 else 4) 8) o := by
  obtain ⟨xp₀, hcreate⟩ : ∃ xp₀ : Xpoll ℕ, xpollCreate true = some xp₀ := ⟨_, rfl⟩
  refine ⟨xp₀, hcreate, xpoll_deliveries hcreate ?_ (List.prefix_refl ([_, _, _] ++ [_]))⟩
  obtain rfl := Option.some.inj hcreate
  decide +kernel

end Freehttpd
