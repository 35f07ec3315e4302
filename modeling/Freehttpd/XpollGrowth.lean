/-
Making room in the generic `poll(2)` backend.

`XPOLL_CTL_ADD` resizes `fd_table` and then the two lists, each only if it has to.

* `Xpoll.Capacities` — the capacity fields bound what was allocated;
* `SameEntries` — nothing that was registered has changed;
* `Capacities.growFdTable`, `Capacities.addGrowPfd_cases` — the two steps keep the bounds
  and what is registered, whichever `realloc` fails.
-/
import Freehttpd.Xpoll

namespace Freehttpd

variable {U : Type}

/-- The capacity fields bound what was allocated. -/
structure Xpoll.Capacities (xp : Xpoll U) : Prop where
  count_le : xp.pfdCount ≤ xp.pfdCap
  pfd_size : xp.pfdCap ≤ xp.pfdList.size
  info_size : xp.pfdCap ≤ xp.fdInfoList.size
  table_size : xp.fdTableCap ≤ xp.fdTable.size

/-- Nothing that was registered in `xp` has changed in `xp'`, and what is new in
`fd_table` is free. -/
structure SameEntries (xp xp' : Xpoll U) : Prop where
  count_eq : xp'.pfdCount = xp.pfdCount
  pfd_read : ∀ i < xp.pfdCount, xp'.pfdList.read i = xp.pfdList.read i
  info_read : ∀ i < xp.pfdCount, xp'.fdInfoList.read i = xp.fdInfoList.read i
  table_cap_le : xp.fdTableCap ≤ xp'.fdTableCap
  table_read : ∀ i < xp.fdTableCap, xp'.fdTable.read i = xp.fdTable.read i
  table_new : ∀ i, xp.fdTableCap ≤ i → i < xp'.fdTableCap →
    xp'.fdTable.read i = some uint32Max

theorem SameEntries.refl (xp : Xpoll U) : SameEntries xp xp where
  count_eq := rfl
  pfd_read _ _ := rfl
  info_read _ _ := rfl
  table_cap_le := Nat.le_refl _
  table_read _ _ := rfl
  table_new _ hge hlt := absurd hlt (Nat.not_lt.mpr hge)

/-- Resizing the two lists behind a growth of `fd_table`. -/
theorem SameEntries.lists {xp xp₁ xp₂ : Xpoll U} (h : SameEntries xp xp₁)
    (hcount : xp₂.pfdCount = xp₁.pfdCount)
    (hpfd : ∀ i < xp₁.pfdCount, xp₂.pfdList.read i = xp₁.pfdList.read i)
    (hinfo : ∀ i < xp₁.pfdCount, xp₂.fdInfoList.read i = xp₁.fdInfoList.read i)
    (htable : xp₂.fdTable = xp₁.fdTable) (hcap : xp₂.fdTableCap = xp₁.fdTableCap) :
    SameEntries xp xp₂ where
  count_eq := hcount.trans h.count_eq
  pfd_read i hi := (hpfd i (by rw [h.count_eq]; exact hi)).trans (h.pfd_read i hi)
  info_read i hi := (hinfo i (by rw [h.count_eq]; exact hi)).trans (h.info_read i hi)
  table_cap_le := by rw [hcap]; exact h.table_cap_le
  table_read i hi := by rw [htable]; exact h.table_read i hi
  table_new i hge hlt := by rw [htable]; exact h.table_new i hge (by rwa [hcap] at hlt)

/-- The new capacity is an increase, and stays in the range of an `int`. -/
theorem newFdTableCap_bounds {cap : ℕ} {fd : BitVec 32} (hfd : fd.toNat < 2 ^ 31)
    (hge : cap ≤ fd.toNat) : cap < newFdTableCap cap fd ∧ newFdTableCap cap fd ≤ 2 ^ 31 := by
  rw [newFdTableCap]
  split
  · omega
  · split
    · rename_i h₁ h₂
      rw [Nat.one_shiftLeft] at h₂
      rw [Nat.shiftLeft_eq, u32_of_lt (by omega)]
      omega
    · rw [u32_of_lt (by omega)]
      omega

/-- The capacity of `fd_table` behind the growth step of `XPOLL_CTL_ADD`. -/
def capAfterGrowth (xp : Xpoll U) (fd : BitVec 32) : ℕ :=
  if fd.toNat ≥ xp.fdTableCap then newFdTableCap xp.fdTableCap fd else xp.fdTableCap

namespace Xpoll.Capacities

variable {xp : Xpoll U}

/-- Growing `fd_table`: what it held stays, and the new cells are free. -/
theorem growFdTable (h : xp.Capacities) {fd : BitVec 32} (hnn : fd.toNat < 2 ^ 31)
    (hge : xp.fdTableCap ≤ fd.toNat) :
    ∃ newFds, (xp.fdTable.realloc (newFdTableCap xp.fdTableCap fd)).fill xp.fdTableCap
        (newFdTableCap xp.fdTableCap fd - xp.fdTableCap) uint32Max = some newFds ∧
      newFds.size = newFdTableCap xp.fdTableCap fd ∧
      { xp with fdTable := newFds, fdTableCap := newFdTableCap xp.fdTableCap fd }.Capacities ∧
      SameEntries xp
        { xp with fdTable := newFds, fdTableCap := newFdTableCap xp.fdTableCap fd } := by
  obtain ⟨hlt, -⟩ := newFdTableCap_bounds hnn hge
  obtain ⟨newFds, hfill, hsize⟩ := Block.fill_isSome (b := xp.fdTable.realloc
    (newFdTableCap xp.fdTableCap fd)) uint32Max (show xp.fdTableCap
      + (newFdTableCap xp.fdTableCap fd - xp.fdTableCap) ≤ _ by rw [Block.size_realloc]; omega)
  rw [Block.size_realloc] at hsize
  have hread : ∀ i, newFds.read i = if xp.fdTableCap ≤ i ∧ i < newFdTableCap xp.fdTableCap fd
      then some uint32Max else (xp.fdTable.realloc (newFdTableCap xp.fdTableCap fd)).read i :=
    fun i => by rw [Block.read_fill hfill, Nat.add_sub_cancel' (Nat.le_of_lt hlt)]
  have hold : ∀ i < xp.fdTableCap, newFds.read i = xp.fdTable.read i := fun i hi => by
    rw [hread, if_neg (by omega), Block.read_realloc (by omega)]
  have hnew : ∀ i, xp.fdTableCap ≤ i → i < newFdTableCap xp.fdTableCap fd →
      newFds.read i = some uint32Max := fun i hi hi' => by rw [hread, if_pos ⟨hi, hi'⟩]
  exact ⟨newFds, hfill, hsize, { h with table_size := Nat.le_of_eq hsize.symm },
    ⟨rfl, fun _ _ => rfl, fun _ _ => rfl, Nat.le_of_lt hlt, hold, hnew⟩⟩

/-- Making room in the two lists: they are left as they are, up to their lengths, or the
call goes on with room for one more position. -/
theorem addGrowPfd_cases (h : xp.Capacities) (hcount : xp.pfdCount < 2 ^ 31) (fd : BitVec 32)
    (udata : Option U) (events : BitVec 32) (al : CtlAlloc) :
    ∃ xp', xp'.Capacities ∧ xp'.pfdCount = xp.pfdCount ∧
      (∀ i < xp.pfdCount, xp'.pfdList.read i = xp.pfdList.read i) ∧
      (∀ i < xp.pfdCount, xp'.fdInfoList.read i = xp.fdInfoList.read i) ∧
      xp'.fdTable = xp.fdTable ∧ xp'.fdTableCap = xp.fdTableCap ∧
      ((al.pfdList && al.fdInfoList) = false ∧
          addGrowPfd xp fd udata events al = some ⟨false, none, xp'⟩ ∨
        (xp.pfdCount < xp.pfdCap ∨ (al.pfdList && al.fdInfoList) = true) ∧
          xp'.pfdCount < xp'.pfdCap ∧
          addGrowPfd xp fd udata events al = addEntry xp' fd udata events) := by
  have hle := h.count_le
  rw [addGrowPfd]
  by_cases hfull : xp.pfdCount ≥ xp.pfdCap
  · rw [if_pos hfull]
    set newCap := if xp.pfdCap < 16 then 16 else u32 (xp.pfdCap <<< 1) with hnew
    have hcap : xp.pfdCount < newCap := by
      rw [hnew]
      split
      · omega
      · rw [Nat.shiftLeft_eq, u32_of_lt (by omega)]
        omega
    have hpfd : ∀ i < xp.pfdCount, (xp.pfdList.realloc newCap).read i = xp.pfdList.read i :=
      fun _ _ => Block.read_realloc (by omega)
    have hinfo : ∀ i < xp.pfdCount,
        (xp.fdInfoList.realloc newCap).read i = xp.fdInfoList.read i :=
      fun _ _ => Block.read_realloc (by omega)
    cases hp : al.pfdList with
    | false =>
      exact ⟨xp, h, rfl, fun _ _ => rfl, fun _ _ => rfl, rfl, rfl, .inl ⟨rfl, by simp⟩⟩
    | true =>
      cases hi : al.fdInfoList with
      | false =>
        -- `pfd_list` has grown, but its capacity is that of the shorter list.
        refine ⟨{ xp with pfdList := xp.pfdList.realloc newCap }, { h with
          pfd_size := by
            rw [Block.size_realloc]
            show xp.pfdCap ≤ newCap
            omega }, rfl, hpfd, fun _ _ => rfl, rfl, rfl,
          .inl ⟨rfl, by simp⟩⟩
      | true =>
        refine ⟨{ xp with
          pfdList := xp.pfdList.realloc newCap
          fdInfoList := xp.fdInfoList.realloc newCap
          pfdCap := newCap }, { h with
          count_le := Nat.le_of_lt hcap
          pfd_size := by rw [Block.size_realloc]
          info_size := by rw [Block.size_realloc] }, rfl, hpfd, hinfo, rfl, rfl,
          .inr ⟨.inr rfl, hcap, by simp⟩⟩
  · rw [if_neg hfull]
    exact ⟨xp, h, rfl, fun _ _ => rfl, fun _ _ => rfl, rfl, rfl,
      .inr ⟨.inl (by omega), by omega, rfl⟩⟩

end Xpoll.Capacities

end Freehttpd
