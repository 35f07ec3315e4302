/-
The invariant of the generic `poll(2)` backend.

`Xpoll.Inv xp m` says that the positions of the three arrays hold the list `m`
of registrations, in order.  Adding appends to `m`, modifying overwrites in
place; removing keeps the correspondence only when the removed descriptor is
the last of `pfd_list`, since `XPOLL_CTL_DEL` moves the last entry into the hole
and leaves its `fd_table` entry pointing behind the end.

* `xpollCtlAdd_of_absent`, `xpollCtlAdd_of_mem` — adding;
* `xpollCtlMod_of_mem`, `xpollCtlMod_of_absent` — modifying;
* `xpollCtlDel_last`, `xpollCtlDel_of_absent` — removing the last position, or
  nothing;
* `xpollCtlDel_fdTable` — what any removal does to `fd_table`.
-/
import Freehttpd.Assoc
import Freehttpd.XpollGrowth

namespace Freehttpd

variable {U : Type}

/-- The contents of a registry: descriptors with their events and data. -/
abbrev RegMap (U : Type) := List (BitVec 32 × BitVec 16 × Option U)

/-- The invariant; see the head of this file. -/
structure Xpoll.Inv (xp : Xpoll U) (m : RegMap U) : Prop where
  count_eq : xp.pfdCount = m.length
  pfd_read : ∀ i, (hi : i < m.length) →
    ∃ revents, xp.pfdList.read i = some ⟨m[i].1, m[i].2.1, revents⟩
  info_read : ∀ i, (hi : i < m.length) → xp.fdInfoList.read i = some m[i].2.2
  distinct : Assoc.Distinct m
  fd_lt : ∀ r ∈ m, r.1.toNat < xp.fdTableCap
  fd_nonneg : ∀ r ∈ m, r.1.toNat < 2 ^ 31
  table_read : ∀ i, (hi : i < m.length) → xp.fdTable.read m[i].1.toNat = some i
  table_absent : ∀ fd : BitVec 32, fd.toNat < xp.fdTableCap → Assoc.get m fd = none →
    xp.fdTable.read fd.toNat = some uint32Max
  table_size : xp.fdTable.size = xp.fdTableCap
  count_le : m.length ≤ xp.pfdCap
  pfd_size : xp.pfdCap ≤ xp.pfdList.size
  info_size : xp.pfdCap ≤ xp.fdInfoList.size

theorem toInt_nonneg_iff {fd : BitVec 32} : 0 ≤ fd.toInt ↔ fd.toNat < 2 ^ 31 := by
  rw [BitVec.toInt_eq_toNat_cond]
  split <;> omega

/-- The new registry is empty. -/
theorem xpollCreate_inv {xp : Xpoll U} (h : xpollCreate true = some xp) : xp.Inv [] := by
  obtain rfl := Option.some.inj h
  exact
    { count_eq := rfl
      pfd_read := by simp
      info_read := by simp
      distinct := List.Pairwise.nil
      fd_lt := by simp
      fd_nonneg := by simp
      table_read := by simp
      table_absent := fun fd hfd => absurd hfd (Nat.not_lt_zero _)
      table_size := rfl
      count_le := Nat.le_refl _
      pfd_size := Nat.le_refl _
      info_size := Nat.le_refl _ }

namespace Xpoll.Inv

variable {xp : Xpoll U} {m : RegMap U}

/-- The registered descriptors are distinct numbers. -/
theorem nodup (h : xp.Inv m) : (m.map fun r => r.1.toNat).Nodup := by
  refine List.pairwise_map.mpr (h.distinct.imp fun {r s} hrs he => ?_)
  rw [BitVec.eq_of_toNat_eq he] at hrs
  simp at hrs

theorem length_le (h : xp.Inv m) : m.length ≤ 2 ^ 31 := by
  have hsub : (m.map fun r => r.1.toNat) ⊆ List.range (2 ^ 31) := fun n hn => by
    obtain ⟨r, hr, rfl⟩ := List.mem_map.mp hn
    exact List.mem_range.mpr (h.fd_nonneg r hr)
  simpa using (List.subperm_of_subset h.nodup hsub).length_le

/-- Descriptors are not negative, so a new one finds fewer than `2 ^ 31`
registered. -/
theorem length_lt (h : xp.Inv m) {fd : BitVec 32} (hfd : fd.toNat < 2 ^ 31)
    (habs : Assoc.get m fd = none) : m.length < 2 ^ 31 := by
  have hnd : (fd.toNat :: m.map fun r => r.1.toNat).Nodup := by
    refine List.nodup_cons.mpr ⟨fun hmem => ?_, h.nodup⟩
    obtain ⟨r, hr, he⟩ := List.mem_map.mp hmem
    have := Assoc.get_eq_none_iff.mp habs r hr
    rw [BitVec.eq_of_toNat_eq he] at this
    simp at this
  have hsub : (fd.toNat :: m.map fun r => r.1.toNat) ⊆ List.range (2 ^ 31) := fun n hn => by
    rcases List.mem_cons.mp hn with rfl | hn
    · exact List.mem_range.mpr hfd
    · obtain ⟨r, hr, rfl⟩ := List.mem_map.mp hn
      exact List.mem_range.mpr (h.fd_nonneg r hr)
  have hlen := (List.subperm_of_subset hnd hsub).length_le
  rw [List.length_range, List.length_cons, List.length_map] at hlen
  omega

/-- Where a descriptor is registered. -/
theorem exists_position (h : xp.Inv m) {fd : BitVec 32} (hfd : (Assoc.get m fd).isSome) :
    ∃ i, ∃ hi : i < m.length, m[i].1 = fd := by
  obtain ⟨v, hv⟩ := Option.isSome_iff_exists.mp hfd
  obtain ⟨r, hr, hrk, -⟩ := (Assoc.get_eq_some_iff h.distinct).mp hv
  obtain ⟨i, hi, rfl⟩ := List.getElem_of_mem hr
  exact ⟨i, hi, eq_of_beq hrk⟩

/-- Position `i` is only that of its own descriptor. -/
theorem get_position (h : xp.Inv m) {i : ℕ} (hi : i < m.length) :
    Assoc.get m m[i].1 = some m[i].2 :=
  (Assoc.get_eq_some_iff h.distinct).mpr ⟨m[i], List.getElem_mem hi, BEq.rfl, rfl⟩

/-! ### Lookup -/

theorem lookupFd_of_mem (h : xp.Inv m) {i : ℕ} (hi : i < m.length) :
    lookupFd xp m[i].1 = some (some i) := by
  have hlen := h.length_le
  have hcount := h.count_eq
  have hlt := h.fd_lt _ (List.getElem_mem hi)
  rw [lookupFd, if_neg (by omega), h.table_read i hi, Option.bind_eq_bind, Option.bind_some,
    if_neg (by rw [uint32Max]; omega)]

theorem lookupFd_of_absent (h : xp.Inv m) {fd : BitVec 32} (hfd : Assoc.get m fd = none) :
    lookupFd xp fd = some none := by
  rw [lookupFd]
  by_cases hlt : xp.pfdCount = 0 ∨ fd.toNat ≥ xp.fdTableCap
  · rw [if_pos hlt]
  · rw [if_neg hlt, h.table_absent fd (by omega) hfd]
    rfl

/-! ### Adding -/

theorem capacities (h : xp.Inv m) : xp.Capacities where
  count_le := h.count_eq ▸ h.count_le
  pfd_size := h.pfd_size
  info_size := h.info_size
  table_size := Nat.le_of_eq h.table_size.symm

/-- Making room keeps the invariant. -/
theorem of_same {xp' : Xpoll U} (h : xp.Inv m) (hs : SameEntries xp xp') (hc : xp'.Capacities)
    (hsize : xp'.fdTable.size = xp'.fdTableCap) : xp'.Inv m where
  count_eq := hs.count_eq.trans h.count_eq
  pfd_read i hi := by
    rw [hs.pfd_read i (h.count_eq ▸ hi)]
    exact h.pfd_read i hi
  info_read i hi := by
    rw [hs.info_read i (h.count_eq ▸ hi)]
    exact h.info_read i hi
  distinct := h.distinct
  fd_lt r hr := Nat.lt_of_lt_of_le (h.fd_lt r hr) hs.table_cap_le
  fd_nonneg := h.fd_nonneg
  table_read i hi := by
    rw [hs.table_read _ (h.fd_lt _ (List.getElem_mem hi))]
    exact h.table_read i hi
  table_absent fd hfd habs := by
    rcases Nat.lt_or_ge fd.toNat xp.fdTableCap with hlt | hge
    · rw [hs.table_read _ hlt]
      exact h.table_absent fd hlt habs
    · exact hs.table_new _ hge hfd
  table_size := hsize
  count_le := by
    rw [← h.count_eq, ← hs.count_eq]
    exact hc.count_le
  pfd_size := hc.pfd_size
  info_size := hc.info_size

/-- The new position is appended. -/
theorem addEntry_eq (h : xp.Inv m) {fd : BitVec 32} (hfd : fd.toNat < xp.fdTableCap)
    (hnn : fd.toNat < 2 ^ 31) (habs : Assoc.get m fd = none) (hroom : m.length < xp.pfdCap)
    (udata : Option U) (events : BitVec 32) :
    ∃ xp', addEntry xp fd udata events = some ⟨true, none, xp'⟩ ∧
      xp'.Inv (m ++ [(fd, pollEvents events, udata)]) := by
  have hlen := h.length_lt hnn habs
  have hpfd : m.length < xp.pfdList.size := Nat.lt_of_lt_of_le hroom h.pfd_size
  have hinfo : m.length < xp.fdInfoList.size := Nat.lt_of_lt_of_le hroom h.info_size
  have htable : fd.toNat < xp.fdTable.size := by rwa [h.table_size]
  have hne : ∀ r ∈ m, fd ≠ r.1 := fun r hr he => by
    have := Assoc.get_eq_none_iff.mp habs r hr
    rw [he] at this
    simp at this
  refine ⟨
    { xp with
      pfdCount := m.length + 1
      pfdList := xp.pfdList.put m.length ⟨fd, pollEvents events, 0⟩
      fdInfoList := xp.fdInfoList.put m.length udata
      fdTable := xp.fdTable.put fd.toNat m.length }, ?_, ?_⟩
  · rw [addEntry]
    simp only [h.count_eq, Block.write_of_lt _ hpfd, Block.write_of_lt _ hinfo,
      Block.write_of_lt _ htable, Option.bind_eq_bind, Option.bind_some,
      u32_of_lt (show m.length + 1 < 2 ^ 32 by omega)]
  · -- The new position is either `m.length` or one of the old ones, which were not touched.
    have hget : ∀ i, (hi : i < m.length) →
        (hi' : i < (m ++ [(fd, pollEvents events, udata)]).length) →
        (m ++ [(fd, pollEvents events, udata)])[i] = m[i] :=
      fun i hi _ => List.getElem_append_left hi
    refine
      { count_eq := by simp
        pfd_read := fun i hi => ?_
        info_read := fun i hi => ?_
        distinct := ?_
        fd_lt := fun r hr => ?_
        fd_nonneg := fun r hr => ?_
        table_read := fun i hi => ?_
        table_absent := fun fd' hfd' habs' => ?_
        table_size := by rw [Block.size_put]; exact h.table_size
        count_le := by simpa using Nat.succ_le_of_lt hroom
        pfd_size := by rw [Block.size_put]; exact h.pfd_size
        info_size := by rw [Block.size_put]; exact h.info_size }
    · simp only [List.length_append, List.length_singleton] at hi
      rw [Block.read_put _ hpfd]
      rcases Nat.lt_or_ge i m.length with hlt | hge
      · rw [if_neg (by omega), hget i hlt _]
        exact h.pfd_read i hlt
      · obtain rfl : i = m.length := by omega
        exact ⟨0, by simp⟩
    · simp only [List.length_append, List.length_singleton] at hi
      rw [Block.read_put _ hinfo]
      rcases Nat.lt_or_ge i m.length with hlt | hge
      · rw [if_neg (by omega), hget i hlt _]
        exact h.info_read i hlt
      · obtain rfl : i = m.length := by omega
        simp
    · refine List.pairwise_append.mpr ⟨h.distinct, List.pairwise_singleton _ _, fun r hr r' hr' => ?_⟩
      rw [List.mem_singleton.mp hr']
      simpa using Ne.symm (hne r hr)
    · rcases List.mem_append.mp hr with hr | hr
      · exact h.fd_lt r hr
      · rw [List.mem_singleton.mp hr]
        exact hfd
    · rcases List.mem_append.mp hr with hr | hr
      · exact h.fd_nonneg r hr
      · rw [List.mem_singleton.mp hr]
        exact hnn
    · simp only [List.length_append, List.length_singleton] at hi
      rw [Block.read_put _ htable]
      rcases Nat.lt_or_ge i m.length with hlt | hge
      · rw [hget i hlt _, if_neg fun he => hne _ (List.getElem_mem hlt) (BitVec.eq_of_toNat_eq he)]
        exact h.table_read i hlt
      · obtain rfl : i = m.length := by omega
        simp
    · have habs₀ := Assoc.get_eq_none_iff.mp habs'
      rw [Block.read_put _ htable, if_neg fun he => ?_]
      · exact h.table_absent fd' hfd' (Assoc.get_eq_none_iff.mpr fun r hr =>
          habs₀ r (List.mem_append_left _ hr))
      · have := habs₀ (fd, pollEvents events, udata) (by simp)
        rw [BitVec.eq_of_toNat_eq he] at this
        simp at this

/-- An addition behind the growth of `fd_table`. -/
theorem addGrowPfd_eq (h : xp.Inv m) {fd : BitVec 32} (hfd : fd.toNat < xp.fdTableCap)
    (hnn : fd.toNat < 2 ^ 31) (habs : Assoc.get m fd = none) {al : CtlAlloc}
    (hpfd : al.pfdList = true) (hinfo : al.fdInfoList = true) (udata : Option U)
    (events : BitVec 32) :
    ∃ xp', addGrowPfd xp fd udata events al = some ⟨true, none, xp'⟩ ∧
      xp'.Inv (m ++ [(fd, pollEvents events, udata)]) := by
  have hlen := h.length_lt hnn habs
  have hcount := h.count_eq
  obtain ⟨xp', hc, hcount', hpfd', hinfo', htable, hcap, hcases⟩ :=
    h.capacities.addGrowPfd_cases (by omega) fd udata events al
  rcases hcases with ⟨hal, -⟩ | ⟨-, hroom, heq⟩
  · rw [hpfd, hinfo] at hal
    exact absurd hal (by decide)
  · have h' := h.of_same ((SameEntries.refl xp).lists hcount' hpfd' hinfo' htable hcap) hc
      (by rw [htable, hcap, h.table_size])
    rw [heq]
    exact h'.addEntry_eq (by rwa [hcap]) hnn habs (by rw [← h'.count_eq]; exact hroom) udata events

/-- Adding a descriptor that is not registered. -/
theorem xpollCtlAdd_of_absent (h : xp.Inv m) {fd : BitVec 32} (hnn : fd.toNat < 2 ^ 31)
    (hfd : fd.toNat < capAfterGrowth xp fd) (habs : Assoc.get m fd = none) {al : CtlAlloc}
    (hal : al = ⟨true, true, true⟩) (udata : Option U) (events : BitVec 32) :
    ∃ xp', xpollCtlAdd xp fd udata events al = some ⟨true, none, xp'⟩ ∧
      xp'.Inv (m ++ [(fd, pollEvents events, udata)]) := by
  rw [capAfterGrowth] at hfd
  rw [xpollCtlAdd, hal]
  by_cases hge : fd.toNat ≥ xp.fdTableCap
  · rw [if_pos hge] at hfd ⊢
    obtain ⟨newFds, hfill, hsize, hc, hs⟩ := h.capacities.growFdTable hnn hge
    have hgrown := h.of_same hs hc hsize
    simp only [hfill, if_true, Option.bind_eq_bind, Option.bind_some]
    exact hgrown.addGrowPfd_eq hfd hnn habs rfl rfl udata events
  · rw [if_neg hge] at hfd ⊢
    rw [h.table_absent fd hfd habs, Option.bind_eq_bind, Option.bind_some,
      if_neg (not_not.mpr rfl)]
    exact h.addGrowPfd_eq hfd hnn habs rfl rfl udata events

/-- Adding a registered descriptor fails and changes nothing. -/
theorem xpollCtlAdd_of_mem (h : xp.Inv m) {i : ℕ} (hi : i < m.length) (udata : Option U)
    (events : BitVec 32) (al : CtlAlloc) :
    xpollCtlAdd xp m[i].1 udata events al = some ⟨false, some .EEXIST, xp⟩ := by
  have hlen := h.length_le
  have hlt := h.fd_lt _ (List.getElem_mem hi)
  rw [xpollCtlAdd, if_neg (by omega), h.table_read i hi, Option.bind_eq_bind, Option.bind_some,
    if_pos (by rw [uint32Max]; omega)]

/-! ### Modifying -/

/-- Modifying a registered descriptor overwrites its events and data. -/
theorem xpollCtlMod_of_mem (h : xp.Inv m) {i : ℕ} (hi : i < m.length) (udata : Option U)
    (events : BitVec 32) :
    ∃ xp', xpollCtlMod xp m[i].1 udata events = some ⟨true, none, xp'⟩ ∧
      xp'.Inv (Assoc.set m m[i].1 (pollEvents events, udata)) := by
  obtain ⟨revents, hread⟩ := h.pfd_read i hi
  have hpfd := Block.lt_of_read hread
  have hinfo := Block.lt_of_read (h.info_read i hi)
  -- Only position `i` holds this descriptor, so overwriting is an update at `i`.
  have hset : Assoc.set m m[i].1 (pollEvents events, udata)
      = m.set i (m[i].1, pollEvents events, udata) := by
    rw [Assoc.set, if_pos (List.any_eq_true.mpr
      ⟨m[i], List.getElem_mem hi, beq_self_eq_true m[i].1⟩)]
    refine List.ext_getElem (by simp) fun j hj hj' => ?_
    rw [List.length_map] at hj
    rw [List.getElem_map, List.getElem_set]
    by_cases hij : i = j
    · subst hij
      simp
    · rw [if_neg hij, if_neg fun he => hij ?_]
      have hi' := h.table_read i hi
      rw [← eq_of_beq he, h.table_read j hj, Option.some_inj] at hi'
      exact hi'.symm
  rw [hset]
  refine ⟨
    { xp with
      pfdList := xp.pfdList.put i ⟨m[i].1, pollEvents events, revents⟩
      fdInfoList := xp.fdInfoList.put i udata }, ?_, ?_⟩
  · rw [xpollCtlMod, h.lookupFd_of_mem hi]
    simp only [Option.bind_eq_bind, Option.bind_some, Block.modify_of_read _ hread,
      Block.write_of_lt _ hinfo]
  · have hfst : ∀ j, (hj : j < m.length) →
        (hj' : j < (m.set i (m[i].1, pollEvents events, udata)).length) →
        (m.set i (m[i].1, pollEvents events, udata))[j].1 = m[j].1 :=
      fun j hj _ => by
        rw [List.getElem_set]
        split
        · rename_i hij
          subst hij
          rfl
        · rfl
    have hget : ∀ fd, Assoc.get (m.set i (m[i].1, pollEvents events, udata)) fd = none →
        Assoc.get m fd = none := fun fd habs => by
      rw [← hset, Assoc.get_set] at habs
      split at habs
      · exact absurd habs (by simp)
      · exact habs
    refine
      { h with
        count_eq := by rw [List.length_set]; exact h.count_eq
        pfd_read := fun j hj => ?_
        info_read := fun j hj => ?_
        distinct := by rw [← hset]; exact h.distinct.set _ _
        fd_lt := fun r hr => ?_
        fd_nonneg := fun r hr => ?_
        table_read := fun j hj => ?_
        table_absent := fun fd hfd habs => h.table_absent fd hfd (hget fd habs)
        count_le := by rw [List.length_set]; exact h.count_le
        pfd_size := by rw [Block.size_put]; exact h.pfd_size
        info_size := by rw [Block.size_put]; exact h.info_size }
    · rw [List.length_set] at hj
      rw [Block.read_put _ hpfd, List.getElem_set]
      split
      · exact ⟨revents, rfl⟩
      · exact h.pfd_read j hj
    · rw [List.length_set] at hj
      rw [Block.read_put _ hinfo, List.getElem_set]
      split
      · rfl
      · exact h.info_read j hj
    · obtain ⟨j, hj, rfl⟩ := List.getElem_of_mem hr
      rw [List.length_set] at hj
      rw [hfst j hj]
      exact h.fd_lt _ (List.getElem_mem hj)
    · obtain ⟨j, hj, rfl⟩ := List.getElem_of_mem hr
      rw [List.length_set] at hj
      rw [hfst j hj]
      exact h.fd_nonneg _ (List.getElem_mem hj)
    · rw [List.length_set] at hj
      rw [hfst j hj]
      exact h.table_read j hj

/-- Modifying a descriptor that is not registered fails and changes nothing. -/
theorem xpollCtlMod_of_absent (h : xp.Inv m) {fd : BitVec 32} (habs : Assoc.get m fd = none)
    (udata : Option U) (events : BitVec 32) :
    xpollCtlMod xp fd udata events = some ⟨false, some .ENOENT, xp⟩ := by
  rw [xpollCtlMod, h.lookupFd_of_absent habs]
  rfl

/-! ### Removing -/

/-- Removing a descriptor that is not registered fails and changes nothing. -/
theorem xpollCtlDel_of_absent (h : xp.Inv m) {fd : BitVec 32} (habs : Assoc.get m fd = none)
    (al : CtlAlloc) : xpollCtlDel xp fd al = some ⟨false, some .ENOENT, xp⟩ := by
  rw [xpollCtlDel, h.lookupFd_of_absent habs]
  rfl

/-- Shrinking the two lists keeps the invariant. -/
theorem shrinkPfd (h : xp.Inv m) (al : CtlAlloc) : (Freehttpd.shrinkPfd xp al).Inv m := by
  have hcount := h.count_eq
  have hpfd := h.pfd_size
  have hinfo := h.info_size
  rw [Freehttpd.shrinkPfd]
  split
  · rename_i hc
    have hsh : xp.pfdCap >>> 2 = xp.pfdCap / 4 := Nat.shiftRight_eq_div_pow _ _
    rw [hsh] at hc ⊢
    have hread : ∀ {α : Type} (b : Block α) (ok : Bool), ∀ i < m.length,
        (if ok = true then b.realloc (xp.pfdCap / 4) else b).read i = b.read i :=
      fun b ok i hi => by
        split
        · exact Block.read_realloc (by omega)
        · rfl
    refine
      { h with
        pfd_read := fun i hi => ?_
        info_read := fun i hi => (hread xp.fdInfoList al.fdInfoList i hi).trans (h.info_read i hi)
        count_le := ?_
        pfd_size := ?_
        info_size := ?_ }
    · obtain ⟨revents, hr⟩ := h.pfd_read i hi
      exact ⟨revents, (hread xp.pfdList al.pfdList i hi).trans hr⟩
    · cases al.pfdList <;> cases al.fdInfoList <;> simp <;> omega
    · cases al.pfdList <;> cases al.fdInfoList <;> simp <;> omega
    · cases al.pfdList <;> cases al.fdInfoList <;> simp <;> omega
  · exact h

/-- The last position is copied onto itself. -/
theorem moveLast_last (h : xp.Inv m) {i : ℕ} (hi : i + 1 = m.length) (fdTable : Block ℕ) :
    ∃ pfdList fdInfoList, moveLast { xp with fdTable := fdTable } i
        = some { xp with fdTable := fdTable, pfdList := pfdList, fdInfoList := fdInfoList } ∧
      pfdList.size = xp.pfdList.size ∧ fdInfoList.size = xp.fdInfoList.size ∧
      (∀ j, pfdList.read j = xp.pfdList.read j) ∧
      ∀ j, fdInfoList.read j = xp.fdInfoList.read j := by
  have hlt : i < m.length := by omega
  obtain ⟨revents, hread⟩ := h.pfd_read i hlt
  have hinfo := h.info_read i hlt
  have hcount := h.count_eq
  have hlast : xp.pfdCount - 1 = i := by omega
  by_cases hone : xp.pfdCount > 1
  · refine ⟨xp.pfdList.put i ⟨m[i].1, m[i].2.1, revents⟩, xp.fdInfoList.put i m[i].2.2, ?_,
      Block.size_put _ _ _,
      Block.size_put _ _ _, fun j => ?_, fun j => ?_⟩
    · simp only [moveLast, if_pos hone, hlast, hread, hinfo, Option.bind_eq_bind,
        Option.bind_some, Block.write_of_lt _ (Block.lt_of_read hread),
        Block.write_of_lt _ (Block.lt_of_read hinfo)]
    · rw [Block.read_put _ (Block.lt_of_read hread)]
      split
      · rename_i hij
        rw [← hij, hread]
      · rfl
    · rw [Block.read_put _ (Block.lt_of_read hinfo)]
      split
      · rename_i hij
        rw [← hij, hinfo]
      · rfl
  · exact ⟨xp.pfdList, xp.fdInfoList, by rw [moveLast, if_neg hone], rfl, rfl, fun _ => rfl,
      fun _ => rfl⟩

/-- Removing the descriptor of the last position. -/
theorem xpollCtlDel_last {r : BitVec 32 × BitVec 16 × Option U} (h : xp.Inv (m ++ [r]))
    (al : CtlAlloc) :
    ∃ xp', xpollCtlDel xp r.1 al = some ⟨true, none, xp'⟩ ∧ xp'.Inv m := by
  have hi : m.length < (m ++ [r]).length := by simp
  have hr : (m ++ [r])[m.length] = r := by simp
  have hlookup := h.lookupFd_of_mem hi
  have htable := h.table_read m.length hi
  rw [hr] at hlookup htable
  have hlt := Block.lt_of_read htable
  obtain ⟨pfdList, fdInfoList, hmove, hpsz, hisz, hpread, hiread⟩ :=
    h.moveLast_last (i := m.length) (by simp) (xp.fdTable.put r.1.toNat uint32Max)
  have hlen : (m ++ [r]).length = m.length + 1 := by simp
  have hget : ∀ i, (hi : i < m.length) → (hi' : i < (m ++ [r]).length) → (m ++ [r])[i] = m[i] :=
    fun i hi _ => List.getElem_append_left hi
  have hne : ∀ i, (hi : i < m.length) → m[i].1.toNat ≠ r.1.toNat := fun i hi he => by
    have hti := h.table_read i (by omega)
    rw [hget i hi _, he, htable, Option.some_inj] at hti
    omega
  have hcount := h.count_eq
  have hinv : { xp with
      fdTable := xp.fdTable.put r.1.toNat uint32Max
      pfdList := pfdList
      fdInfoList := fdInfoList
      pfdCount := xp.pfdCount - 1 }.Inv m := by
    refine
      { count_eq := by rw [hcount, hlen, Nat.add_sub_cancel]
        pfd_read := fun i hi => ?_
        info_read := fun i hi => ?_
        distinct := (List.pairwise_append.mp h.distinct).1
        fd_lt := fun s hs => h.fd_lt s (List.mem_append_left _ hs)
        fd_nonneg := fun s hs => h.fd_nonneg s (List.mem_append_left _ hs)
        table_read := fun i hi => ?_
        table_absent := fun fd hfd habs => ?_
        table_size := by rw [Block.size_put]; exact h.table_size
        count_le := Nat.le_trans (by omega) h.count_le
        pfd_size := by rw [hpsz]; exact h.pfd_size
        info_size := by rw [hisz]; exact h.info_size }
    · rw [hpread, ← hget i hi (by omega)]
      exact h.pfd_read i (by omega)
    · rw [hiread, ← hget i hi (by omega)]
      exact h.info_read i (by omega)
    · rw [Block.read_put _ hlt, if_neg (Ne.symm (hne i hi)), ← hget i hi (by omega)]
      exact h.table_read i (by omega)
    · -- A descriptor that is not in `m` is `r`, whose cell was reset, or was absent before.
      rw [Block.read_put _ hlt]
      split
      · rfl
      · rename_i hfdr
        refine h.table_absent fd hfd (Assoc.get_eq_none_iff.mpr fun s hs => ?_)
        rcases List.mem_append.mp hs with hs | hs
        · exact Assoc.get_eq_none_iff.mp habs s hs
        · rw [List.mem_singleton.mp hs]
          simpa using fun he => hfdr (congrArg BitVec.toNat he)
  refine ⟨_, ?_, hinv.shrinkPfd al⟩
  rw [xpollCtlDel, hlookup]
  simp only [Option.bind_eq_bind, Option.bind_some, Block.write_of_lt _ hlt, hmove]

end Xpoll.Inv

/-- Whatever position it empties, a removal clears the table entry of its own
descriptor only. -/
theorem xpollCtlDel_fdTable {xp : Xpoll U} {fd : BitVec 32} {al : CtlAlloc} {r : CtlResult U}
    {i : ℕ} (hlookup : lookupFd xp fd = some (some i)) (h : xpollCtlDel xp fd al = some r) :
    r.xp.fdTable = xp.fdTable.put fd.toNat uint32Max ∧ r.xp.pfdCount = xp.pfdCount - 1 := by
  rw [xpollCtlDel, hlookup] at h
  simp only [Option.bind_eq_bind, Option.bind_some, Option.bind_eq_some_iff] at h
  obtain ⟨fdTable, hwrite, xp', hmove, h⟩ := h
  have hput := (Block.write_eq_some hwrite).2
  have hxp' : xp'.fdTable = fdTable ∧ xp'.pfdCount = xp.pfdCount := by
    rw [moveLast] at hmove
    split at hmove
    · simp only [Option.bind_eq_bind, Option.bind_eq_some_iff] at hmove
      obtain ⟨_, -, _, -, _, -, _, -, hmove⟩ := hmove
      rw [← Option.some.inj hmove]
      exact ⟨rfl, rfl⟩
    · rw [← Option.some.inj hmove]
      exact ⟨rfl, rfl⟩
  have hshrink : ∀ x : Xpoll U, (shrinkPfd x al).fdTable = x.fdTable ∧
      (shrinkPfd x al).pfdCount = x.pfdCount := fun x => by
    rw [shrinkPfd]
    split <;> exact ⟨rfl, rfl⟩
  rw [← Option.some.inj h]
  simp only [hshrink, hxp', hput, and_self]

end Freehttpd
