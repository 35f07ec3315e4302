/-
The capacities of the generic `poll(2)` backend, over runs in which `realloc`
may fail at any place.

* `Xpoll.Bounded` — what the capacities say about the three allocations, and the
  count about `fd_table`;
* `Bounded.xpollCtlAdd_cases` — an addition either leaves what was registered
  alone, or reaches the step that enters the descriptor;
* `Bounded.step` — every call keeps the bounds;
* `Bounded.step_isSome` — a call of `XpollCall.InBounds` accesses nothing outside an
  allocation;
* `xpoll_capacities` — so no pattern of failures breaks the bounds in a run of these, and
  a failed addition changes no registration;
* `xpoll_capacities_overflow` — an addition whose write of `fd_table` leaves it;
* `xpoll_add_grows_iff` — the descriptors for which one growth step makes
  `fd_table` large enough.
-/
import Freehttpd.XpollRegistry
import Freehttpd.XpollWait

namespace Freehttpd

open Runs

variable {U : Type}

/-! ### Calls of every kind -/

/-- A call on the registry: one of those built on `xpoll_ctl_fd`, or a wait. -/
inductive XpollCall (U : Type)
  | ctl (op : XpollOp U)
  | wait (poll : PollOutcome) (maxEvents : ℤ)

/-- One call, with what it returns. -/
def xpollCallStep (xp : Xpoll U) : XpollCall U → Option ((Bool ⊕ WaitResult U) × Xpoll U)
  | .ctl op => (xpollStep xp op).map fun r => (.inl r.1, r.2)
  | .wait poll maxEvents => (xpollWait xp poll maxEvents).map fun r => (.inr r, r.xp)

/-- The descriptor of an addition is not negative.  `xpoll_add_fd` asserts this;
`xpoll_add_or_modify_fd` leaves it to its caller. -/
def XpollCall.NonNeg : XpollCall U → Prop
  | .ctl (.addOrModify fd _ _ _) => fd.toNat < 2 ^ 31
  | _ => True

/-- No `realloc` that an addition of `fd` needs fails. -/
def Xpoll.Resizes (xp : Xpoll U) (fd : BitVec 32) (al : CtlAlloc) : Prop :=
  (fd.toNat < xp.fdTableCap ∨ al.fdTable = true) ∧
    (xp.pfdCount < xp.pfdCap ∨ (al.pfdList && al.fdInfoList) = true)

/-- The position that `fd_table` has for `fd` is that of an entry that was written.  A
removal of another position than the last leaves a cell for which it may not be. -/
def Xpoll.FindsEntry (xp : Xpoll U) (fd : BitVec 32) : Prop :=
  ∀ idx, lookupFd xp fd = some (some idx) →
    (xp.pfdList.read idx).isSome ∧ (xp.fdInfoList.read idx).isSome

/-- The calls that access nothing outside an allocation: the growth step covers the
descriptor that is added, unless a `realloc` fails before; a modification or removal finds
an entry.  Descriptors that are added and the limit of a wait are not negative. -/
def XpollCall.InBounds (xp : Xpoll U) : XpollCall U → Prop
  | .ctl (.add fd _ _ al) =>
    fd.toNat < 2 ^ 31 ∧ (xp.Resizes fd al → fd.toNat < capAfterGrowth xp fd)
  | .ctl (.modify fd _ _) => xp.FindsEntry fd
  | .ctl (.addOrModify fd _ _ al) => fd.toNat < 2 ^ 31 ∧ xp.FindsEntry fd ∧
    (lookupFd xp fd = some none → xp.Resizes fd al → fd.toNat < capAfterGrowth xp fd)
  | .ctl (.remove fd _) => xp.FindsEntry fd
  | .wait _ maxEvents => 0 ≤ maxEvents

theorem XpollCall.InBounds.nonNeg {xp : Xpoll U} {c : XpollCall U} (h : c.InBounds xp) :
    c.NonNeg := by
  cases c with
  | wait poll maxEvents => trivial
  | ctl op =>
    cases op with
    | addOrModify fd udata events al => exact h.1
    | add fd udata events al => trivial
    | modify fd udata events => trivial
    | remove fd al => trivial

instance (xp : Xpoll U) (fd : BitVec 32) (al : CtlAlloc) : Decidable (xp.Resizes fd al) :=
  inferInstanceAs (Decidable (_ ∧ _))

instance (xp : Xpoll U) (fd : BitVec 32) : Decidable (xp.FindsEntry fd) :=
  match h : lookupFd xp fd with
  | some (some idx) => decidable_of_iff
      ((xp.pfdList.read idx).isSome ∧ (xp.fdInfoList.read idx).isSome)
      ⟨fun hi j hj => Option.some.inj (Option.some.inj (h.symm.trans hj)) ▸ hi, fun hi => hi idx h⟩
  | some none => .isTrue fun i hi => absurd (h.symm.trans hi) (by simp)
  | none => .isTrue fun i hi => absurd (h.symm.trans hi) (by simp)

instance (xp : Xpoll U) : ∀ c : XpollCall U, Decidable (c.InBounds xp)
  | .ctl (.add _ _ _ _) => inferInstanceAs (Decidable (_ ∧ (_ → _)))
  | .ctl (.modify fd _ _) => inferInstanceAs (Decidable (xp.FindsEntry fd))
  | .ctl (.addOrModify fd _ _ _) =>
    inferInstanceAs (Decidable (_ ∧ xp.FindsEntry fd ∧ (_ → _ → _)))
  | .ctl (.remove fd _) => inferInstanceAs (Decidable (xp.FindsEntry fd))
  | .wait _ _ => inferInstanceAs (Decidable (_ ≤ _))

instance : ∀ c : XpollCall U, Decidable c.NonNeg
  | .ctl (.addOrModify _ _ _ _) => inferInstanceAs (Decidable (_ < _))
  | .ctl (.add _ _ _ _) => .isTrue trivial
  | .ctl (.modify _ _ _) => .isTrue trivial
  | .ctl (.remove _ _) => .isTrue trivial
  | .wait _ _ => .isTrue trivial

/-! ### The bounds -/

/-- A cell of `fd_table` that holds a position. -/
def holdsPosition (cell : Option ℕ) : Bool := cell != some uint32Max

/-- The bounds that every call keeps.  The positions stored in `fd_table` are of
no concern here, only how many there are; the entries below the count are written. -/
structure Xpoll.Bounded (xp : Xpoll U) : Prop where
  count_le : xp.pfdCount ≤ xp.pfdCap
  pfd_size : xp.pfdCap ≤ xp.pfdList.size
  info_size : xp.pfdCap ≤ xp.fdInfoList.size
  table_size : xp.fdTable.size = xp.fdTableCap
  table_cap_le : xp.fdTableCap ≤ 2 ^ 31
  table_read : ∀ i < xp.fdTableCap, (xp.fdTable.read i).isSome
  count_eq : xp.fdTable.countCells holdsPosition = xp.pfdCount
  entry_read : ∀ i < xp.pfdCount, (xp.pfdList.read i).isSome ∧ (xp.fdInfoList.read i).isSome

theorem Xpoll.Bounded.capacities {xp : Xpoll U} (h : xp.Bounded) : xp.Capacities :=
  ⟨h.count_le, h.pfd_size, h.info_size, Nat.le_of_eq h.table_size.symm⟩

/-- The new registry is within its bounds. -/
theorem xpollCreate_bounded {xp : Xpoll U} (h : xpollCreate true = some xp) : xp.Bounded := by
  obtain rfl := Option.some.inj h
  exact
    { count_le := Nat.le_refl _
      pfd_size := Nat.le_refl _
      info_size := Nat.le_refl _
      table_size := rfl
      table_cap_le := Nat.zero_le _
      table_read := fun i hi => absurd hi (Nat.not_lt_zero i)
      count_eq := rfl
      entry_read := fun i hi => absurd hi (Nat.not_lt_zero i) }

/-- Writing a cell leaves no cell without a value. -/
theorem Block.isSome_read_put {α : Type*} {b : Block α} {i : ℕ} (h : (b.read i).isSome) (j : ℕ)
    (a : α) : ((b.put j a).read i).isSome := by
  rcases eq_or_ne j i with rfl | hne
  · obtain ⟨x, hx⟩ := Option.isSome_iff_exists.mp h
    rw [Block.read_put_self _ (Block.lt_of_read hx)]
    rfl
  · rwa [Block.read_put_of_ne _ hne]

/-- The growth step covers the descriptor unless it skips more than one step. -/
theorem lt_capAfterGrowth_iff {xp : Xpoll U} {fd : BitVec 32} (hfd : fd.toNat < 2 ^ 31) :
    fd.toNat < capAfterGrowth xp fd ↔
      fd.toNat < xp.fdTableCap ∨ (xp.fdTableCap < 16 ∧ fd.toNat < 16) ∨
        (16 ≤ xp.fdTableCap ∧ fd.toNat < 2 * xp.fdTableCap) ∨ 2 ^ 16 ≤ xp.fdTableCap := by
  rw [capAfterGrowth, newFdTableCap]
  split
  · split
    · omega
    · split
      · rename_i h₁ h₂
        rw [Nat.one_shiftLeft] at h₂
        rw [Nat.shiftLeft_eq, u32_of_lt (by omega)]
        omega
      · rename_i h₁ h₂
        rw [Nat.one_shiftLeft] at h₂
        rw [u32_of_lt (by omega)]
        omega
  · omega

/-! ### Additions -/

namespace Xpoll.Bounded

variable {xp : Xpoll U}

/-- A free cell of `fd_table` keeps the count in the range of an `int`. -/
theorem count_lt (h : xp.Bounded) {i : ℕ}
    (hfree : xp.fdTable.read i = some uint32Max) : xp.pfdCount < 2 ^ 31 := by
  have hlt := xp.fdTable.countCells_lt_of_read (p := holdsPosition) hfree (by decide)
  have hcap := h.table_cap_le
  rw [h.count_eq, h.table_size] at hlt
  omega

/-- Making room keeps the bounds: the new cells of `fd_table` are free. -/
theorem of_same {xp' : Xpoll U} (h : xp.Bounded) (hs : SameEntries xp xp') (hc : xp'.Capacities)
    (hsize : xp'.fdTable.size = xp'.fdTableCap) (hcap : xp'.fdTableCap ≤ 2 ^ 31) : xp'.Bounded where
  count_le := hc.count_le
  pfd_size := hc.pfd_size
  info_size := hc.info_size
  table_size := hsize
  table_cap_le := hcap
  table_read i hi := by
    rcases Nat.lt_or_ge i xp.fdTableCap with hlt | hge
    · rw [hs.table_read i hlt]
      exact h.table_read i hlt
    · rw [hs.table_new i hge hi]
      rfl
  count_eq := by
    rw [hs.count_eq, ← h.count_eq, Block.countCells_eq_sum, Block.countCells_eq_sum, hsize,
      h.table_size]
    refine (Finset.sum_subset_zero_on_sdiff (Finset.range_mono hs.table_cap_le)
      (fun i hi => ?_) fun i hi => ?_).symm
    · rw [Finset.mem_sdiff, Finset.mem_range, Finset.mem_range, Nat.not_lt] at hi
      rw [hs.table_new i hi.2 hi.1]
      rfl
    · rw [hs.table_read i (Finset.mem_range.mp hi)]
  entry_read i hi := by
    rw [hs.count_eq] at hi
    rw [hs.pfd_read i hi, hs.info_read i hi]
    exact h.entry_read i hi

/-- An addition leaves what was registered alone and fails, or comes to the step that
enters the descriptor, with room in the two lists. -/
theorem xpollCtlAdd_cases (h : xp.Bounded) {fd : BitVec 32} (hnn : fd.toNat < 2 ^ 31)
    (udata : Option U) (events : BitVec 32) (al : CtlAlloc) :
    ∃ xp', xp'.Bounded ∧ SameEntries xp xp' ∧
      ((al ≠ ⟨true, true, true⟩ ∨ fd.toNat < xp.fdTableCap) ∧
          (∃ errno, xpollCtlAdd xp fd udata events al = some ⟨false, errno, xp'⟩) ∨
        xp.Resizes fd al ∧ xp'.pfdCount < xp'.pfdCap ∧ xp'.pfdCount < 2 ^ 31 ∧
          xp'.fdTableCap = capAfterGrowth xp fd ∧
          (fd.toNat < xp'.fdTableCap → xp'.fdTable.read fd.toNat = some uint32Max) ∧
          xpollCtlAdd xp fd udata events al = addEntry xp' fd udata events) := by
  rw [xpollCtlAdd, capAfterGrowth]
  -- The table of descriptors is enlarged first; its new cells are unused.
  by_cases hge : fd.toNat ≥ xp.fdTableCap
  · rw [if_pos hge, if_pos hge]
    cases ht : al.fdTable with
    | false =>
      refine ⟨xp, h, SameEntries.refl xp, .inl ⟨.inl fun hal => ?_, none, by simp⟩⟩
      rw [hal] at ht
      exact absurd ht (by decide)
    | true =>
      obtain ⟨hlt, hle⟩ := newFdTableCap_bounds hnn hge
      obtain ⟨newFds, hfill, hsize, hroom, hsame⟩ := h.capacities.growFdTable hnn hge
      have hcount := (h.of_same hsame hroom hsize hle).count_lt
        (hsame.table_new _ (Nat.le_refl _) hlt)
      obtain ⟨xp', hroom', hc, hpfd, hinfo, htable, hcap, hcases⟩ :=
        hroom.addGrowPfd_cases hcount fd udata events al
      have hsame' := hsame.lists hc hpfd hinfo htable hcap
      refine ⟨xp', h.of_same hsame' hroom' (by rw [htable, hcap, hsize]) (hcap ▸ hle), hsame', ?_⟩
      simp only [hfill, if_true, Option.bind_eq_bind, Option.bind_some]
      rcases hcases with ⟨hal, heq⟩ | ⟨hneed, hroom, heq⟩
      · refine .inl ⟨.inl fun he => ?_, none, heq⟩
        rw [he] at hal
        exact absurd hal (by decide)
      · refine .inr ⟨⟨.inr ht, hneed⟩, hroom, by rw [hc]; exact hcount, hcap, fun hfd => ?_, heq⟩
        rw [htable]
        exact hsame.table_new _ hge (by rwa [hcap] at hfd)
  · rw [if_neg hge, if_neg hge]
    obtain ⟨idx, hidx⟩ := Option.isSome_iff_exists.mp (h.table_read fd.toNat (by omega))
    rw [hidx, Option.bind_eq_bind, Option.bind_some]
    -- A used cell makes the addition fail with `EEXIST`.
    by_cases hreg : idx ≠ uint32Max
    · rw [if_pos hreg]
      exact ⟨xp, h, SameEntries.refl xp, .inl ⟨.inr (by omega), _, rfl⟩⟩
    · rw [if_neg hreg]
      rw [not_not] at hreg
      subst hreg
      have hcount := h.count_lt hidx
      obtain ⟨xp', hroom', hc, hpfd, hinfo, htable, hcap, hcases⟩ :=
        h.capacities.addGrowPfd_cases hcount fd udata events al
      have hsame' := (SameEntries.refl xp).lists hc hpfd hinfo htable hcap
      refine ⟨xp', h.of_same hsame' hroom' (by rw [htable, hcap, h.table_size])
        (hcap ▸ h.table_cap_le), hsame', ?_⟩
      rcases hcases with ⟨-, heq⟩ | ⟨hneed, hroom, heq⟩
      · exact .inl ⟨.inr (by omega), none, heq⟩
      · exact .inr ⟨⟨.inl (by omega), hneed⟩, hroom, by rw [hc]; exact hcount, hcap,
          fun _ => by rw [htable]; exact hidx, heq⟩

/-- The step that enters the descriptor, at a free cell of `fd_table`. -/
theorem addEntry_eq (h : xp.Bounded) {fd : BitVec 32} (hroom : xp.pfdCount < xp.pfdCap)
    (hcount : xp.pfdCount < 2 ^ 31) (hfd : fd.toNat < xp.fdTableCap)
    (hfree : xp.fdTable.read fd.toNat = some uint32Max) (udata : Option U) (events : BitVec 32) :
    ∃ xp', addEntry xp fd udata events = some ⟨true, none, xp'⟩ ∧ xp'.Bounded ∧
      xp'.fdTable = xp.fdTable.put fd.toNat xp.pfdCount ∧ xp'.fdTableCap = xp.fdTableCap := by
  have hpfd : xp.pfdCount < xp.pfdList.size := Nat.lt_of_lt_of_le hroom h.pfd_size
  have hinfo : xp.pfdCount < xp.fdInfoList.size := Nat.lt_of_lt_of_le hroom h.info_size
  have htable : fd.toNat < xp.fdTable.size := by rwa [h.table_size]
  refine ⟨
    { xp with
      pfdCount := xp.pfdCount + 1
      pfdList := xp.pfdList.put xp.pfdCount ⟨fd, pollEvents events, 0⟩
      fdInfoList := xp.fdInfoList.put xp.pfdCount udata
      fdTable := xp.fdTable.put fd.toNat xp.pfdCount }, ?_, { h with
    count_le := hroom
    pfd_size := by rw [Block.size_put]; exact h.pfd_size
    info_size := by rw [Block.size_put]; exact h.info_size
    table_size := by rw [Block.size_put]; exact h.table_size
    table_read := fun i hi => ?_
    count_eq := ?_
    entry_read := fun i hi => ?_ }, rfl, rfl⟩
  · rw [addEntry]
    simp only [Block.write_of_lt _ hpfd, Block.write_of_lt _ hinfo, Block.write_of_lt _ htable,
      Option.bind_eq_bind, Option.bind_some, u32_of_lt (show xp.pfdCount + 1 < 2 ^ 32 by omega)]
  · rw [Block.read_put _ htable]
    split
    · rfl
    · exact h.table_read i hi
  · -- The cell was free, and holds a position now.
    have hput := Block.countCells_put holdsPosition xp.pfdCount htable
    have hpos : holdsPosition (some xp.pfdCount) = true := by
      rw [holdsPosition, bne_iff_ne, ne_eq, Option.some_inj, uint32Max]
      omega
    rw [hfree, if_neg (by decide), if_pos hpos, h.count_eq] at hput
    exact hput
  · rcases Nat.lt_succ_iff_lt_or_eq.mp hi with hi | rfl
    · obtain ⟨hp, hu⟩ := h.entry_read i hi
      exact ⟨Block.isSome_read_put hp _ _, Block.isSome_read_put hu _ _⟩
    · rw [Block.read_put_self _ hpfd, Block.read_put_self _ hinfo]
      exact ⟨rfl, rfl⟩

end Xpoll.Bounded

/-- The step that enters a descriptor writes outside `fd_table` if it is too short. -/
theorem addEntry_of_ge {xp : Xpoll U} {fd : BitVec 32} (hfd : xp.fdTable.size ≤ fd.toNat)
    (udata : Option U) (events : BitVec 32) : addEntry xp fd udata events = none := by
  have hwrite : xp.fdTable.write fd.toNat xp.pfdCount = none := by
    rw [Block.write, if_neg (by omega)]
  rw [addEntry, hwrite]
  cases xp.pfdList.write xp.pfdCount ⟨fd, pollEvents events, 0⟩ with
  | none => rfl
  | some pfdList => cases xp.fdInfoList.write xp.pfdCount udata <;> simp

namespace Xpoll.Bounded

variable {xp : Xpoll U}

/-- An addition keeps the bounds, and one that fails changes no registration. -/
theorem xpollCtlAdd (h : xp.Bounded) {fd : BitVec 32} (hnn : fd.toNat < 2 ^ 31)
    {udata : Option U} {events : BitVec 32} {al : CtlAlloc} {r : CtlResult U}
    (hr : Freehttpd.xpollCtlAdd xp fd udata events al = some r) :
    r.xp.Bounded ∧ (r.ret = false → SameEntries xp r.xp) := by
  obtain ⟨xp', hb, hsame, ⟨-, errno, heq⟩ | ⟨-, hroom, hcount, -, hfree, heq⟩⟩ :=
    h.xpollCtlAdd_cases hnn udata events al
  · rw [heq, Option.some_inj] at hr
    rw [← hr]
    exact ⟨hb, fun _ => hsame⟩
  · rcases Nat.lt_or_ge fd.toNat xp'.fdTableCap with hfd | hfd
    · obtain ⟨xp'', heq', hb', -⟩ := hb.addEntry_eq hroom hcount hfd (hfree hfd) udata events
      rw [heq, heq', Option.some_inj] at hr
      rw [← hr]
      exact ⟨hb', fun hret => absurd hret (by simp)⟩
    · rw [heq, addEntry_of_ge (by rw [hb.table_size]; exact hfd)] at hr
      exact absurd hr (by simp)

/-! ### The other calls -/

theorem xpollCtlMod (h : xp.Bounded) {fd : BitVec 32} {udata : Option U} {events : BitVec 32}
    {r : CtlResult U} (hr : Freehttpd.xpollCtlMod xp fd udata events = some r) :
    r.xp.Bounded := by
  rw [Freehttpd.xpollCtlMod, Option.bind_eq_bind, Option.bind_eq_some_iff] at hr
  obtain ⟨_ | idx, -, hr⟩ := hr
  · rw [← Option.some.inj hr]
    exact h
  · simp only [Option.bind_eq_bind, Option.bind_eq_some_iff, Option.some_inj] at hr
    obtain ⟨pfdList, hpfd, fdInfoList, hinfo, rfl⟩ := hr
    obtain ⟨p, -, rfl⟩ := Block.modify_eq_some hpfd
    obtain ⟨-, rfl⟩ := Block.write_eq_some hinfo
    exact { h with
      pfd_size := by rw [Block.size_put]; exact h.pfd_size
      info_size := by rw [Block.size_put]; exact h.info_size
      entry_read := fun i hi => ⟨Block.isSome_read_put (h.entry_read i hi).1 _ _,
        Block.isSome_read_put (h.entry_read i hi).2 _ _⟩ }

/-- The copy into the hole changes no capacity, and nothing else but the two lists. -/
theorem moveLast_eq_some {xp' : Xpoll U} {idx : ℕ} (hm : moveLast xp idx = some xp') :
    ∃ pfdList fdInfoList, xp' = { xp with pfdList := pfdList, fdInfoList := fdInfoList } ∧
      pfdList.size = xp.pfdList.size ∧ fdInfoList.size = xp.fdInfoList.size ∧
      (∀ i, (xp.pfdList.read i).isSome → (pfdList.read i).isSome) ∧
      ∀ i, (xp.fdInfoList.read i).isSome → (fdInfoList.read i).isSome := by
  rw [moveLast] at hm
  split at hm
  · simp only [Option.bind_eq_bind, Option.bind_eq_some_iff, Option.some_inj] at hm
    obtain ⟨p, -, pfdList, hpfd, udata, -, fdInfoList, hinfo, rfl⟩ := hm
    obtain ⟨-, rfl⟩ := Block.write_eq_some hpfd
    obtain ⟨-, rfl⟩ := Block.write_eq_some hinfo
    exact ⟨_, _, rfl, Block.size_put _ _ _, Block.size_put _ _ _,
      fun i hi => Block.isSome_read_put hi _ _, fun i hi => Block.isSome_read_put hi _ _⟩
  · obtain rfl := Option.some.inj hm
    exact ⟨_, _, rfl, rfl, rfl, fun _ hi => hi, fun _ hi => hi⟩

/-- Whichever of the two reallocations fails, the smaller capacity fits both lists. -/
theorem shrinkPfd (h : xp.Bounded) (al : CtlAlloc) : (Freehttpd.shrinkPfd xp al).Bounded := by
  rw [Freehttpd.shrinkPfd]
  split
  · rename_i hshrink
    have hcap : xp.pfdCap >>> 2 ≤ xp.pfdCap := by
      rw [Nat.shiftRight_eq_div_pow]
      omega
    have hpfd := h.pfd_size
    have hinfo := h.info_size
    refine { h with count_le := ?_, pfd_size := ?_, info_size := ?_, entry_read := ?_ }
    · have := h.count_le
      simp only
      split <;> omega
    · cases al.pfdList <;> cases al.fdInfoList <;> simp <;> omega
    · cases al.pfdList <;> cases al.fdInfoList <;> simp <;> omega
    · intro i hi
      dsimp only at hi ⊢
      obtain ⟨hp, hu⟩ := h.entry_read i hi
      have hlt : i < xp.pfdCap >>> 2 := Nat.lt_trans hi hshrink.2
      constructor
      · split
        · rwa [Block.read_realloc hlt]
        · exact hp
      · split
        · rwa [Block.read_realloc hlt]
        · exact hu
  · exact h

theorem xpollCtlDel (h : xp.Bounded) {fd : BitVec 32} {al : CtlAlloc} {r : CtlResult U}
    (hr : Freehttpd.xpollCtlDel xp fd al = some r) : r.xp.Bounded := by
  rw [Freehttpd.xpollCtlDel, Option.bind_eq_bind, Option.bind_eq_some_iff] at hr
  obtain ⟨_ | idx, hlookup, hr⟩ := hr
  · rw [← Option.some.inj hr]
    exact h
  · simp only [Option.bind_eq_bind, Option.bind_eq_some_iff, Option.some_inj] at hr
    obtain ⟨fdTable, hwrite, xp', hmove, rfl⟩ := hr
    obtain ⟨hlt, rfl⟩ := Block.write_eq_some hwrite
    obtain ⟨pfdList, fdInfoList, rfl, hpfd, hinfo, hpfds, hinfos⟩ := moveLast_eq_some hmove
    -- The cleared cell held a position.
    have hput := Block.countCells_put holdsPosition uint32Max hlt
    rw [if_neg (show ¬ holdsPosition (some uint32Max) = true by decide), h.count_eq,
      if_pos ?_] at hput
    · have hle := h.count_le
      have hb : { xp with
          fdTable := xp.fdTable.put fd.toNat uint32Max
          pfdList := pfdList
          fdInfoList := fdInfoList
          pfdCount := xp.pfdCount - 1 : Xpoll U }.Bounded :=
        { h with
          count_le := Nat.le_trans (Nat.sub_le _ _) hle
          pfd_size := by rw [hpfd]; exact h.pfd_size
          info_size := by rw [hinfo]; exact h.info_size
          table_size := by rw [Block.size_put]; exact h.table_size
          table_read := fun i hi => by
            rw [Block.read_put _ hlt]
            split
            · rfl
            · exact h.table_read i hi
          count_eq := by
            show (xp.fdTable.put fd.toNat uint32Max).countCells holdsPosition = xp.pfdCount - 1
            omega
          entry_read := fun i hi => by
            obtain ⟨hp, hu⟩ := h.entry_read i (Nat.lt_of_lt_of_le hi (Nat.sub_le _ _))
            exact ⟨hpfds i hp, hinfos i hu⟩ }
      exact hb.shrinkPfd al
    · rw [lookupFd] at hlookup
      split at hlookup
      · exact absurd hlookup (by simp)
      · rw [Option.bind_eq_bind, Option.bind_eq_some_iff] at hlookup
        obtain ⟨i, hread, hi⟩ := hlookup
        split at hi
        · exact absurd hi (by simp)
        · rename_i hne
          rw [hread, holdsPosition, bne_iff_ne, ne_eq, Option.some_inj]
          exact hne

theorem xpollWait (h : xp.Bounded) {poll : PollOutcome} {maxEvents : ℤ} {r : WaitResult U}
    (hr : Freehttpd.xpollWait xp poll maxEvents = some r) : r.xp.Bounded := by
  have hpoll : ∀ revents, { xp with
      pfdList := pollRevents xp.pfdList xp.pfdCount revents }.Bounded := fun revents =>
    { h with
      pfd_size := by
        rw [pollRevents, Block.size, List.length_mapIdx]
        exact h.pfd_size
      entry_read := fun i hi => by
        obtain ⟨hp, hu⟩ := h.entry_read i hi
        obtain ⟨p, hp⟩ := Option.isSome_iff_exists.mp hp
        rw [read_pollRevents hi hp]
        exact ⟨rfl, hu⟩ }
  unfold Freehttpd.xpollWait at hr
  split at hr
  · split at hr
    · rw [← Option.some.inj hr]
      exact h
    · cases poll with
      | error =>
        rw [← Option.some.inj hr]
        exact h
      | ready revents =>
        simp only at hr
        split at hr
        · rw [← Option.some.inj hr]
          exact hpoll revents
        · rw [Option.bind_eq_bind, Option.bind_eq_some_iff] at hr
          obtain ⟨w, -, hr⟩ := hr
          rw [← Option.some.inj hr]
          exact { hpoll revents with }
  · exact absurd hr (by simp)

/-- Every call keeps the bounds. -/
theorem step (h : xp.Bounded) {c : XpollCall U} (hc : c.NonNeg) {o : Bool ⊕ WaitResult U}
    {xp' : Xpoll U} (hs : xpollCallStep xp c = some (o, xp')) : xp'.Bounded := by
  cases c with
  | wait poll maxEvents =>
    obtain ⟨r, hr, he⟩ := Option.map_eq_some_iff.mp hs
    rw [← (Prod.mk.inj he).2]
    exact h.xpollWait hr
  | ctl op =>
    obtain ⟨⟨ret, xp₁⟩, hop, he⟩ := Option.map_eq_some_iff.mp hs
    rw [← (Prod.mk.inj he).2]
    cases op with
    | add fd udata events al =>
      obtain ⟨r, hr, he⟩ := Option.map_eq_some_iff.mp hop
      rw [← (Prod.mk.inj he).2]
      rw [xpollAddFd] at hr
      split at hr
      · exact (h.xpollCtlAdd (toInt_nonneg_iff.mp ‹_›) hr).1
      · exact absurd hr (by simp)
    | modify fd udata events =>
      obtain ⟨r, hr, he⟩ := Option.map_eq_some_iff.mp hop
      rw [← (Prod.mk.inj he).2]
      exact h.xpollCtlMod hr
    | addOrModify fd udata events al =>
      obtain ⟨r, hr, he⟩ := Option.map_eq_some_iff.mp hop
      rw [← (Prod.mk.inj he).2]
      rw [xpollAddOrModifyFd, Option.bind_eq_bind, Option.bind_eq_some_iff] at hr
      obtain ⟨r₁, hmod, hr⟩ := hr
      split at hr
      · rw [← Option.some.inj hr]
        exact h.xpollCtlMod hmod
      · obtain ⟨r₂, hadd, hr⟩ := Option.bind_eq_some_iff.mp hr
        rw [← Option.some.inj hr]
        exact ((h.xpollCtlMod hmod).xpollCtlAdd hc hadd).1
    | remove fd al =>
      obtain ⟨r, hr, he⟩ := Option.map_eq_some_iff.mp hop
      rw [← (Prod.mk.inj he).2]
      exact h.xpollCtlDel hr

/-! ### Calls that stay in bounds -/

theorem lookupFd_cases (h : xp.Bounded) (fd : BitVec 32) :
    lookupFd xp fd = some none ∨
      ∃ idx, lookupFd xp fd = some (some idx) ∧ fd.toNat < xp.fdTable.size := by
  rw [lookupFd]
  split
  · exact .inl rfl
  · have hlt : fd.toNat < xp.fdTableCap := by omega
    obtain ⟨idx, hidx⟩ := Option.isSome_iff_exists.mp (h.table_read fd.toNat hlt)
    rw [hidx, Option.bind_eq_bind, Option.bind_some]
    split
    · exact .inl rfl
    · exact .inr ⟨idx, rfl, by rwa [h.table_size]⟩

/-- A modification of a descriptor that is not registered changes nothing. -/
theorem xpollCtlMod_isSome (h : xp.Bounded) {fd : BitVec 32} (hfd : xp.FindsEntry fd)
    (udata : Option U) (events : BitVec 32) :
    ∃ r, Freehttpd.xpollCtlMod xp fd udata events = some r ∧
      (r.ret = true ∨ lookupFd xp fd = some none ∧ r.xp = xp) := by
  rw [Freehttpd.xpollCtlMod]
  rcases h.lookupFd_cases fd with hno | ⟨idx, hidx, -⟩
  · rw [hno]
    exact ⟨_, rfl, .inr ⟨rfl, rfl⟩⟩
  · obtain ⟨hp, hu⟩ := hfd idx hidx
    obtain ⟨p, hp⟩ := Option.isSome_iff_exists.mp hp
    obtain ⟨u, hu⟩ := Option.isSome_iff_exists.mp hu
    simp only [hidx, Option.bind_eq_bind, Option.bind_some, Block.modify_of_read _ hp,
      Block.write_of_lt _ (Block.lt_of_read hu)]
    exact ⟨_, rfl, .inl rfl⟩

theorem moveLast_isSome (h : xp.Bounded) {idx : ℕ} (hp : (xp.pfdList.read idx).isSome)
    (hu : (xp.fdInfoList.read idx).isSome) (fdTable : Block ℕ) :
    ∃ xp', moveLast { xp with fdTable := fdTable } idx = some xp' := by
  rw [moveLast]
  split
  · rename_i hcount
    have hcount : 1 < xp.pfdCount := hcount
    obtain ⟨hlp, hlu⟩ := h.entry_read (xp.pfdCount - 1) (by omega)
    obtain ⟨lp, hlp⟩ := Option.isSome_iff_exists.mp hlp
    obtain ⟨lu, hlu⟩ := Option.isSome_iff_exists.mp hlu
    obtain ⟨p, hp⟩ := Option.isSome_iff_exists.mp hp
    obtain ⟨u, hu⟩ := Option.isSome_iff_exists.mp hu
    simp only [hlp, hlu, Option.bind_eq_bind, Option.bind_some,
      Block.write_of_lt _ (Block.lt_of_read hp), Block.write_of_lt _ (Block.lt_of_read hu)]
    exact ⟨_, rfl⟩
  · exact ⟨_, rfl⟩

theorem xpollCtlDel_isSome (h : xp.Bounded) {fd : BitVec 32} (hfd : xp.FindsEntry fd)
    (al : CtlAlloc) : ∃ r, Freehttpd.xpollCtlDel xp fd al = some r := by
  rw [Freehttpd.xpollCtlDel]
  rcases h.lookupFd_cases fd with hno | ⟨idx, hidx, hlt⟩
  · rw [hno]
    exact ⟨_, rfl⟩
  · obtain ⟨hp, hu⟩ := hfd idx hidx
    obtain ⟨xp', hmove⟩ := h.moveLast_isSome hp hu (xp.fdTable.put fd.toNat uint32Max)
    simp only [hidx, Option.bind_eq_bind, Option.bind_some, Block.write_of_lt _ hlt, hmove]
    exact ⟨_, rfl⟩

theorem xpollCtlAdd_isSome (h : xp.Bounded) {fd : BitVec 32} (hnn : fd.toNat < 2 ^ 31)
    {al : CtlAlloc} (hfd : xp.Resizes fd al → fd.toNat < capAfterGrowth xp fd)
    (udata : Option U) (events : BitVec 32) :
    ∃ r, Freehttpd.xpollCtlAdd xp fd udata events al = some r := by
  obtain ⟨xp', hb, -, ⟨-, errno, heq⟩ | ⟨hneed, hroom, hcount, hcap, hfree, heq⟩⟩ :=
    h.xpollCtlAdd_cases hnn udata events al
  · exact ⟨_, heq⟩
  · have hlt : fd.toNat < xp'.fdTableCap := hcap ▸ hfd hneed
    obtain ⟨xp'', hentry, -⟩ := hb.addEntry_eq hroom hcount hlt (hfree hlt) udata events
    exact ⟨_, heq.trans hentry⟩

theorem count_lt_two_pow (h : xp.Bounded) : xp.pfdCount < 2 ^ 32 := by
  have hle : xp.fdTable.countCells holdsPosition ≤ xp.fdTable.size := List.countP_le_length
  have hcap := h.table_cap_le
  rw [h.count_eq, h.table_size] at hle
  omega

/-- A wait finds the entries that it looks at written. -/
theorem xpollWait_isSome (h : xp.Bounded) (poll : PollOutcome) {maxEvents : ℤ}
    (hmax : 0 ≤ maxEvents) : ∃ r, Freehttpd.xpollWait xp poll maxEvents = some r := by
  obtain ⟨m, rfl⟩ := Int.eq_ofNat_of_zero_le hmax
  rcases Nat.eq_zero_or_pos m with rfl | hm
  · exact ⟨_, rfl⟩
  cases poll with
  | error =>
    rw [Freehttpd.xpollWait, if_pos hmax, if_neg (by omega)]
    exact ⟨_, rfl⟩
  | ready revents =>
    rcases Nat.eq_zero_or_pos xp.pfdCount with hzero | hpos
    · rw [Freehttpd.xpollWait, if_pos hmax, if_neg (by omega)]
      simp only [if_pos hzero]
      exact ⟨_, rfl⟩
    · have hentries : Entries xp xp.pfdCount (fun i => (xp.pfdList.read i).getD ⟨0, 0, 0⟩)
          fun i => (xp.fdInfoList.read i).getD none := by
        refine ⟨rfl, fun i hi => ?_, fun i hi => ?_⟩
        · obtain ⟨p, hp⟩ := Option.isSome_iff_exists.mp (h.entry_read i hi).1
          exact ⟨p.revents, by rw [hp]; rfl⟩
        · obtain ⟨u, hu⟩ := Option.isSome_iff_exists.mp (h.entry_read i hi).2
          rw [hu]
          rfl
      obtain ⟨e, xp', -, -, hwait, -⟩ :=
        xpollWait_eq hentries hpos h.count_lt_two_pow hm revents
      exact ⟨_, hwait⟩

/-- A call that stays in bounds returns. -/
theorem step_isSome (h : xp.Bounded) {c : XpollCall U} (hc : c.InBounds xp) :
    ∃ o xp', xpollCallStep xp c = some (o, xp') := by
  cases c with
  | wait poll maxEvents =>
    obtain ⟨r, hr⟩ := h.xpollWait_isSome poll hc
    exact ⟨_, _, by rw [xpollCallStep, hr]; rfl⟩
  | ctl op =>
    cases op with
    | add fd udata events al =>
      obtain ⟨r, hr⟩ := h.xpollCtlAdd_isSome hc.1 hc.2 udata events
      have hadd : xpollAddFd xp fd udata events al = some r := by
        rw [xpollAddFd, if_pos (toInt_nonneg_iff.mpr hc.1), hr]
      exact ⟨_, _, by rw [xpollCallStep, xpollStep, hadd]; rfl⟩
    | modify fd udata events =>
      obtain ⟨r, hr, -⟩ := h.xpollCtlMod_isSome hc udata events
      exact ⟨_, _, by rw [xpollCallStep, xpollStep, xpollModifyFd, hr]; rfl⟩
    | addOrModify fd udata events al =>
      obtain ⟨hnn, hfinds, hcov⟩ := hc
      obtain ⟨r, hr, hret⟩ := h.xpollCtlMod_isSome hfinds udata events
      rw [xpollCallStep, xpollStep, xpollAddOrModifyFd, hr, Option.bind_eq_bind, Option.bind_some]
      by_cases hok : r.ret = true
      · rw [if_pos hok]
        exact ⟨_, _, rfl⟩
      · obtain ⟨hno, hxp⟩ := hret.resolve_left hok
        obtain ⟨r', hr'⟩ := h.xpollCtlAdd_isSome hnn (hcov hno) udata events
        rw [if_neg hok, hxp, hr']
        exact ⟨_, _, rfl⟩
    | remove fd al =>
      obtain ⟨r, hr⟩ := h.xpollCtlDel_isSome hc al
      exact ⟨_, _, by rw [xpollCallStep, xpollStep, xpollRemoveFd, hr]; rfl⟩

/-- Every registry that can be reached is within its bounds. -/
theorem of_runs {xp₀ : Xpoll U} (hcreate : xpollCreate true = some xp₀)
    {calls : List (XpollCall U)} (hnn : ∀ c ∈ calls, c.NonNeg)
    {outs : List (Bool ⊕ WaitResult U)} (hr : runs xpollCallStep xp₀ calls = some (outs, xp)) :
    xp.Bounded :=
  runs_preserves (fun _ _ _ _ h hc hs => step h hc hs) (xpollCreate_bounded hcreate) hnn hr

end Xpoll.Bounded

/-! ### Failing reallocations -/

/-- The capacities bound the allocations, and an addition that fails changes no
registration. -/
structure Xpoll.Robust (xp : Xpoll U) : Prop where
  capacities : xp.Capacities
  add_failed : ∀ (fd : BitVec 32) (udata : Option U) (events : BitVec 32) (al : CtlAlloc)
    (r : CtlResult U), fd.toNat < 2 ^ 31 → xpollCtlAdd xp fd udata events al = some r →
      r.ret = false → SameEntries xp r.xp

theorem Xpoll.Bounded.robust {xp : Xpoll U} (h : xp.Bounded) : xp.Robust :=
  ⟨h.capacities, fun _ _ _ _ _ hfd hadd hret => (h.xpollCtlAdd hfd hadd).2 hret⟩

/-- Whatever the pattern of failures, a run whose calls stay in bounds goes on to its end,
in all of it the capacities bound the allocations, and an addition that fails changes no
registration. -/
theorem xpoll_capacities {xp₀ : Xpoll U} (hcreate : xpollCreate true = some xp₀)
    {calls : List (XpollCall U)} (hsteps : EachStep xpollCallStep XpollCall.InBounds xp₀ calls) :
    Always xpollCallStep Xpoll.Robust xp₀ calls := by
  refine always_of_invariant (I := Xpoll.Bounded) (fun xp h => h.robust) (fun xp c h hc => ?_)
    (xpollCreate_bounded hcreate) hsteps
  obtain ⟨o, xp', hs⟩ := h.step_isSome hc
  exact ⟨o, xp', hs, h.step hc.nonNeg hs⟩

/-- Three additions, a modification and a removal; the first two additions lose one of
their reallocations. -/
def failingCalls : List (XpollCall ℕ) :=
  [.ctl (.add 3 (some 30) 1 ⟨true, true, false⟩), .ctl (.add 40 none 1 ⟨false, true, true⟩),
    .wait .error 1, .ctl (.addOrModify 3 (some 31) 1 ⟨true, true, true⟩),
    .ctl (.modify 3 none 2), .ctl (.remove 3 ⟨false, false, false⟩)]

/-- The second of them is of a descriptor that one growth step would not cover. -/
theorem xpoll_capacities_failing : ∃ xp₀ : Xpoll ℕ, xpollCreate true = some xp₀ ∧
    Always xpollCallStep Xpoll.Robust xp₀ failingCalls := by
  obtain ⟨xp₀, hcreate⟩ : ∃ xp₀ : Xpoll ℕ, xpollCreate true = some xp₀ := ⟨_, rfl⟩
  refine ⟨xp₀, hcreate, xpoll_capacities hcreate ?_⟩
  obtain rfl := Option.some.inj hcreate
  decide +kernel

/-- One addition to a new registry, of descriptor 16, with every reallocation succeeding:
the table gets 16 cells, and the write of cell 16 leaves it. -/
theorem xpoll_capacities_overflow : ∃ xp₀ : Xpoll ℕ, xpollCreate true = some xp₀ ∧
    runs xpollCallStep xp₀ [.ctl (.add 16 (some 30) 1 ⟨true, true, true⟩)] = none ∧
    ¬ Always xpollCallStep Xpoll.Robust xp₀
      [.ctl (.add 16 (some 30) 1 ⟨true, true, true⟩)] := by
  obtain ⟨xp₀, hcreate⟩ : ∃ xp₀ : Xpoll ℕ, xpollCreate true = some xp₀ := ⟨_, rfl⟩
  have hnone : runs xpollCallStep xp₀ [.ctl (.add 16 (some 30) 1 ⟨true, true, true⟩)] = none := by
    refine Option.isNone_iff_eq_none.mp ?_
    obtain rfl := Option.some.inj hcreate
    decide +kernel
  refine ⟨xp₀, hcreate, hnone, fun h => ?_⟩
  obtain ⟨outs, xp, hr, -⟩ := h.last
  rw [hnone] at hr
  cases hr

/-! ### The growth step -/

/-- The growth step makes `fd_table` large enough for `fd`: the cell of `fd` is only
written inside the table (a write outside is `none`), and the cells that were added are
free, up to that one. -/
def GrowsEnough (xp : Xpoll U) (fd : BitVec 32) : Prop :=
  ∀ (udata : Option U) (events : BitVec 32) (al : CtlAlloc), ∃ r,
    xpollCtlAdd xp fd udata events al = some r ∧
    (r.ret = true → fd.toNat < r.xp.fdTableCap) ∧
    ∀ i, xp.fdTableCap ≤ i → i < r.xp.fdTableCap →
      (r.ret = true ∧ i = fd.toNat) ∨ r.xp.fdTable.read i = some uint32Max

/-- In every registry that can be reached, the growth step makes `fd_table` large enough
for exactly these descriptors: below 16, or below twice the capacity, until the capacity
is 65536. -/
theorem xpoll_add_grows_iff {xp₀ xp : Xpoll U} (hcreate : xpollCreate true = some xp₀)
    {calls : List (XpollCall U)} (hnn : ∀ c ∈ calls, c.NonNeg)
    {outs : List (Bool ⊕ WaitResult U)} (hr : runs xpollCallStep xp₀ calls = some (outs, xp))
    {fd : BitVec 32} (hfd : fd.toNat < 2 ^ 31) :
    GrowsEnough xp fd ↔
      fd.toNat < xp.fdTableCap ∨ (xp.fdTableCap < 16 ∧ fd.toNat < 16) ∨
        (16 ≤ xp.fdTableCap ∧ fd.toNat < 2 * xp.fdTableCap) ∨ 2 ^ 16 ≤ xp.fdTableCap := by
  have hb := Xpoll.Bounded.of_runs hcreate hnn hr
  rw [← lt_capAfterGrowth_iff hfd]
  constructor
  · intro h
    by_contra hlt
    obtain ⟨xp', hb', -, ⟨hal, -⟩ | ⟨-, -, -, hcap, -, heq⟩⟩ :=
      hb.xpollCtlAdd_cases hfd none 0 ⟨true, true, true⟩
    · rcases hal with hal | hal
      · exact hal rfl
      · rw [capAfterGrowth, if_neg (by omega)] at hlt
        exact hlt hal
    · obtain ⟨r, hadd, -⟩ := h none 0 ⟨true, true, true⟩
      rw [heq, addEntry_of_ge (by rw [hb'.table_size, hcap]; omega)] at hadd
      exact absurd hadd (by simp)
  · intro hlt udata events al
    obtain ⟨xp', hb', hsame, ⟨-, errno, heq⟩ | ⟨-, hroom, hcount, hcap, hfree, heq⟩⟩ :=
      hb.xpollCtlAdd_cases hfd udata events al
    · exact ⟨_, heq, fun hret => absurd hret (by simp), fun i hge hi =>
        .inr (hsame.table_new i hge hi)⟩
    · rw [← hcap] at hlt
      obtain ⟨xp'', hentry, -, htable, hcap'⟩ :=
        hb'.addEntry_eq hroom hcount hlt (hfree hlt) udata events
      refine ⟨_, heq.trans hentry, fun _ => by rw [hcap']; exact hlt, fun i hge hi => ?_⟩
      rw [hcap'] at hi
      by_cases hi' : i = fd.toNat
      · exact .inl ⟨rfl, hi'⟩
      · refine .inr ?_
        rw [htable, Block.read_put_of_ne _ (Ne.symm hi')]
        exact hsame.table_new i hge hi

/-- Behind the descriptors 15 and 20 the table has 32 cells, and one growth step is large
enough for descriptor 40. -/
theorem xpoll_add_grows_small : ∃ xp₀ xp : Xpoll ℕ, xpollCreate true = some xp₀ ∧
    (∃ outs, runs xpollCallStep xp₀
      [.ctl (.add 15 none 1 ⟨true, true, true⟩), .ctl (.add 20 none 1 ⟨true, true, true⟩)]
        = some (outs, xp)) ∧
    xp.fdTableCap = 32 ∧ GrowsEnough xp 40 := by
  obtain ⟨xp₀, hcreate⟩ : ∃ xp₀ : Xpoll ℕ, xpollCreate true = some xp₀ := ⟨_, rfl⟩
  obtain ⟨outs, xp, hr, hcap⟩ : ∃ outs xp, runs xpollCallStep xp₀
      [.ctl (.add 15 none 1 ⟨true, true, true⟩), .ctl (.add 20 none 1 ⟨true, true, true⟩)]
        = some (outs, xp) ∧ xp.fdTableCap = 32 := by
    obtain rfl := Option.some.inj hcreate
    exact ⟨_, _, rfl, rfl⟩
  exact ⟨xp₀, xp, hcreate, ⟨outs, hr⟩, hcap, (xpoll_add_grows_iff hcreate (by decide) hr
    (by decide)).mpr (.inr (.inr (.inl ⟨by omega, by rw [hcap]; decide⟩)))⟩

/-- Descriptor 16 added first: the table gets 16 cells, and cell 16 is written. -/
theorem xpoll_add_outgrows : ∃ xp : Xpoll ℕ, xpollCreate true = some xp ∧
    xpollCtlAdd xp 16 none 1 ⟨true, true, true⟩ = none ∧ ¬ GrowsEnough xp 16 := by
  obtain ⟨xp, hcreate⟩ : ∃ xp : Xpoll ℕ, xpollCreate true = some xp := ⟨_, rfl⟩
  have hnone : xpollCtlAdd xp 16 none 1 ⟨true, true, true⟩ = none := by
    obtain rfl := Option.some.inj hcreate
    decide +kernel
  refine ⟨xp, hcreate, hnone, fun h => ?_⟩
  obtain ⟨r, hr, -⟩ := h none 1 ⟨true, true, true⟩
  rw [hnone] at hr
  exact absurd hr (by simp)

end Freehttpd
