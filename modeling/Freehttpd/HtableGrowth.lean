/-
How far the hash table grows.

The table grows for two reasons, and checks for them on every set, even one that
overwrites: too many keys for the index, or no entry slot left unused.  Deleted
entries leave their slots to the next new ones, so the slots ever used are no more
than the keys that were present at one time, and churn alone does not make the
table grow.

* `Htable.Shape` — the capacities are powers of two that belong together;
* `Tallied` — the slots handed out are live or recycled, and at most as many as
  keys were ever present;
* `Tallied.capacity` — so a table that has to grow is small;
* `htable_capacity_bounded` — the bound on the capacity over whole runs.
-/
import Freehttpd.HtableCounters
import Freehttpd.IntHtable
import Freehttpd.Runs

namespace Freehttpd

open Runs

variable {K D : Type}

/-! ### Capacities -/

/-- The index capacity is a power of two, and the other sizes go with it.  Doubling
`2 ^ 63` gives zero. -/
structure Htable.Shape (t : Htable K D) : Prop where
  cap : t.indexCapacity = 0 ∨ ∃ k, 1 ≤ k ∧ k ≤ 63 ∧ t.indexCapacity = 2 ^ k
  entryCap : t.entryCapacity = u64 (t.indexCapacity * 3) / 4
  size : t.indexList.size = t.indexCapacity

namespace Htable.Shape

variable {t t' : Htable K D}

theorem cap_le (h : t.Shape) : t.indexCapacity ≤ 2 ^ 63 := by
  rcases h.cap with h0 | ⟨k, -, hk, hcap⟩
  · omega
  · rw [hcap]
    exact Nat.pow_le_pow_right (by decide) hk

/-- Apart from the extreme cases the capacity is divisible by four and its double does
not wrap. -/
theorem cap_cases (h : t.Shape) : t.indexCapacity = 0 ∨ t.indexCapacity = 2 ∨
    t.indexCapacity = 2 ^ 63 ∨ ∃ q, 0 < q ∧ t.indexCapacity = 4 * q ∧ 4 * q ≤ 2 ^ 62 := by
  rcases h.cap with h0 | ⟨k, hk1, hk63, hcap⟩
  · exact .inl h0
  · rcases Nat.lt_or_ge k 2 with hk | hk
    · obtain rfl : k = 1 := by omega
      exact .inr (.inl hcap)
    · rcases Nat.lt_or_ge k 63 with hlt | hge
      · obtain ⟨j, rfl⟩ : ∃ j, k = j + 2 := ⟨k - 2, by omega⟩
        have hpow : 4 * 2 ^ j = 2 ^ (j + 2) := by
          rw [Nat.pow_add]
          omega
        refine .inr (.inr (.inr ⟨2 ^ j, Nat.two_pow_pos _, hcap.trans hpow.symm, ?_⟩))
        rw [hpow]
        exact Nat.pow_le_pow_right (by decide) (by omega)
      · obtain rfl : k = 63 := by omega
        exact .inr (.inr (.inl hcap))

theorem same (h : t.Shape) (hcap : t.SameCap t') : t'.Shape where
  cap := by
    rw [hcap.1]
    exact h.cap
  entryCap := by rw [hcap.1, hcap.2.1, h.entryCap]
  size := by rw [hcap.1, hcap.2.2, h.size]

theorem grows (h : t.Shape) (hg : t.Grows t') : t'.Shape where
  cap := by
    rw [hg.cap, Nat.shiftLeft_eq, Nat.pow_one]
    rcases h.cap with h0 | ⟨k, hk1, hk63, hcap⟩
    · exact .inl (by rw [h0]; rfl)
    · rw [hcap, ← Nat.pow_succ]
      rcases Nat.lt_or_ge k 63 with hlt | hge
      · refine .inr ⟨k + 1, by omega, by omega, u64_of_lt ?_⟩
        exact Nat.pow_lt_pow_right (by decide) (by omega)
      · obtain rfl : k = 63 := by omega
        exact .inl rfl
  entryCap := hg.entryCap
  size := hg.size

variable [BEq K] [Hashable K] {op : HtOp K D}

theorem effect (h : t.Shape) (he : HtEffect t op t') : t'.Shape := by
  cases he with
  | same hs => exact h.same hs.cap
  | set _ _ _ hi => exact h.same hi.cap
  | grow _ hg _ hi =>
    rcases hi with hs | ⟨s, hi⟩
    · exact (h.grows hg).same hs.cap
    · exact (h.grows hg).same hi.cap
  | delete hd => exact h.same hd.cap

/-- The index never shrinks: the doubling that wraps leaves no entry slot to insert at. -/
theorem cap_le_of_effect (h : t.Shape) (he : HtEffect t op t') :
    t.indexCapacity ≤ t'.indexCapacity := by
  cases he with
  | same hs => exact Nat.le_of_eq hs.cap.1.symm
  | set _ _ _ hi => exact Nat.le_of_eq hi.cap.1.symm
  | delete hd => exact Nat.le_of_eq hd.cap.1.symm
  | grow _ hg hroom hi =>
    have hcap : t'.indexCapacity = u64 (t.indexCapacity <<< 1) := by
      rcases hi with hs | ⟨s, hi⟩
      · rw [hs.cap.1, hg.cap]
      · rw [hi.cap.1, hg.cap]
    rw [hg.entryCap, hg.cap] at hroom
    rw [hcap]
    rw [Nat.shiftLeft_eq] at hroom ⊢
    rcases h.cap_cases with h0 | h2 | h63 | ⟨q, -, hq, hle⟩
    · omega
    · rw [h2]
      decide
    · rw [h63] at hroom
      exact absurd hroom (by simp [u64])
    · rw [u64_of_lt (by omega)]
      omega

end Htable.Shape

/-- Along a run the index capacity was never more than at its end. -/
theorem eachStep_cap_le [BEq K] [Hashable K] {t t' : Htable K D} (h : t.Shape)
    {ops : List (HtOp K D)} {outs : List (HtOut D)} (hr : runs htStep t ops = some (outs, t')) :
    t.indexCapacity ≤ t'.indexCapacity ∧
      EachStep htStep (fun t _ => t.indexCapacity ≤ t'.indexCapacity) t ops :=
  eachStep_le_final (I := Htable.Shape) (fun _ _ _ _ hs hstep =>
    ⟨hs.effect (htStep_effect hs.size hstep), hs.cap_le_of_effect (htStep_effect hs.size hstep)⟩)
    h hr

/-- What `htable_create` returns. -/
theorem htableCreate_shape {al : CreateAlloc} {initialCap : ℕ} {t : Htable K D}
    (h : htableCreate al initialCap = some (some t)) :
    t.Shape ∧ t.usedSlots = 0 ∧ t.count = 0 ∧ t.entryNextInsert = 0 ∧ t.deletedCount = 0 ∧
      2 ≤ t.indexCapacity := by
  rw [htableCreate] at h
  split at h
  case isFalse => cases h
  rename_i h2
  obtain ⟨cap, hcap, h⟩ := Option.bind_eq_some_iff.mp h
  obtain ⟨k, hk1, hk63, rfl, hle, -⟩ := utilRoundCeil2Ull_spec h2 hcap
  dsimp only at h
  split at h
  case isFalse => cases Option.some.inj h
  obtain rfl := Option.some.inj (Option.some.inj h)
  refine ⟨⟨.inr ⟨k, hk1, hk63, rfl⟩, rfl, Block.size_calloc _ _⟩, ?_, rfl, rfl, rfl, h2.trans hle⟩
  rw [Htable.usedSlots, Block.countCells_calloc, if_neg (by decide)]

/-! ### Entry slots -/

/-- No more index slots name an entry than there are keys; the entry slots handed out
are live or recycled, and there were never more than `P`. -/
structure Tallied (P : ℕ) (t : Htable K D) : Prop where
  full_le : t.fullSlots ≤ t.count
  next_le : t.entryNextInsert ≤ t.count + t.deletedCount
  total_le : t.count + t.deletedCount ≤ P

namespace Tallied

variable {P : ℕ} {t t' : Htable K D}

theorem same (h : Tallied P t) (hs : t.SameCounters t') : Tallied P t' where
  full_le := by
    rw [Htable.fullSlots, hs.list, hs.count]
    exact h.full_le
  next_le := by
    rw [hs.next, hs.count, hs.deleted]
    exact h.next_le
  total_le := by
    rw [hs.count, hs.deleted]
    exact h.total_le

/-- A new key takes a recycled slot, or all slots handed out so far are in use. -/
theorem inserts (h : Tallied P t) (hP : P < 2 ^ 62) {s : ℕ} (hi : t.Inserts s t')
    (hcount : t'.count ≤ P) : Tallied P t' := by
  have htotal := h.total_le
  have hnext := h.next_le
  have hfull := h.full_le
  obtain ⟨v, hlist⟩ := hi.list
  have hput := Block.countCells_put isFull v hi.lt
  rw [hi.free, if_neg Bool.false_ne_true] at hput
  have hone : (if isFull (some v) then 1 else 0) ≤ 1 := by split <;> omega
  have hcount' : t'.count = t.count + 1 := by rw [hi.count, u64_of_lt (by omega)]
  have hfull' : t'.fullSlots ≤ t.fullSlots + 1 := by
    rw [Htable.fullSlots, Htable.fullSlots, hlist]
    omega
  rcases hi.slot with ⟨hne, hdel, hn⟩ | ⟨hz, hdel, hn⟩
  · exact ⟨by omega, by omega, by omega⟩
  · have hmod := Nat.mod_le (t.entryNextInsert + 1) (2 ^ 32)
    rw [u32] at hn
    exact ⟨by omega, by omega, by omega⟩

/-- A deleted entry leaves its slot behind. -/
theorem deletes (h : Tallied P t) (hP : P < 2 ^ 62) {s : ℕ} (hd : t.Deletes s t') :
    Tallied P t' := by
  have htotal := h.total_le
  have hnext := h.next_le
  have hfull := h.full_le
  have hput := Block.countCells_put isFull htDeleted hd.lt
  rw [hd.full, if_pos rfl, if_neg (by decide)] at hput
  have hfull' : t'.fullSlots + 1 = t.fullSlots := by
    rw [Htable.fullSlots, Htable.fullSlots, hd.list]
    omega
  have hcount := hd.count
  have hn := hd.next
  have hdel : t'.deletedCount = t.deletedCount + 1 := by rw [hd.deleted, u64_of_lt (by omega)]
  exact ⟨by omega, by omega, by omega⟩

/-- After a growth no slot is recycled. -/
theorem grows (h : Tallied P t) (hg : t.Grows t') : Tallied P t' := by
  have htotal := h.total_le
  have hfull := h.full_le
  have hfull' := t'.fullSlots_le_usedSlots
  have hused := hg.used
  have hcount := hg.count
  have hnext := hg.next
  have hdel := hg.deleted
  exact ⟨by omega, by omega, by omega⟩

/-- A table that has to grow is small, because the slots handed out are no more than the
keys that were present. -/
theorem capacity (h : Tallied P t) (hshape : t.Shape) (hg : t.mustGrow = true)
    (hgrow : t.Grows t') : 3 * t'.indexCapacity ≤ max 12 (8 * (P + 1)) := by
  have htotal := h.total_le
  have hnext := h.next_le
  have hcap' := hgrow.cap
  rw [Nat.shiftLeft_eq, Nat.pow_one] at hcap'
  rcases hshape.cap_cases with hcap | hcap | hcap | ⟨q, hq, hcap, hle⟩
  · rw [hcap] at hcap'
    exact le_max_of_le_left (by rw [hcap']; decide)
  · rw [hcap] at hcap'
    exact le_max_of_le_left (by rw [hcap']; decide)
  · rw [hcap] at hcap'
    exact le_max_of_le_left (by rw [hcap']; decide)
  · have hecap : t.entryCapacity = 3 * q := by
      rw [hshape.entryCap, hcap, u64_of_lt (by omega)]
      omega
    have hcap2 : t'.indexCapacity = 8 * q := by
      rw [hcap', hcap, u64_of_lt (by omega)]
      omega
    have hmod := Nat.mod_le ((t.count + 1) * 4) (2 ^ 64)
    rw [Htable.mustGrow, hecap, hcap, u64_of_lt (show 4 * q * 3 < 2 ^ 64 by omega), u64,
      Bool.or_eq_true, decide_eq_true_eq, decide_eq_true_eq] at hg
    exact le_max_of_le_right (by omega)

variable [BEq K] [Hashable K] {op : HtOp K D}

/-- A call keeps the tally, and raises the capacity only up to the bound. -/
theorem effect (h : Tallied P t) (hP : P < 2 ^ 62) (hshape : t.Shape) (hcount : t'.count ≤ P)
    (he : HtEffect t op t') :
    Tallied P t' ∧ 3 * t'.indexCapacity ≤ max (3 * t.indexCapacity) (max 12 (8 * (P + 1))) := by
  cases he with
  | same hs => exact ⟨h.same hs, le_max_of_le_left (by rw [hs.cap.1])⟩
  | set _ _ _ hi => exact ⟨h.inserts hP hi hcount, le_max_of_le_left (by rw [hi.cap.1])⟩
  | grow hmust hg _ hi =>
    have hcap := h.capacity hshape hmust hg
    rcases hi with hs | ⟨s, hi⟩
    · exact ⟨(h.grows hg).same hs, le_max_of_le_right (by rwa [hs.cap.1])⟩
    · exact ⟨(h.grows hg).inserts hP hi hcount, le_max_of_le_right (by rwa [hi.cap.1])⟩
  | delete hd => exact ⟨h.deletes hP hd, le_max_of_le_left (by rw [hd.cap.1])⟩

end Tallied

/-! ### Runs -/

variable [BEq K] [Hashable K]

/-- In a run from `htable_create` that never holds more than `P` keys, whatever they
are and however often they are set and deleted, the index never gets longer than
this. -/
theorem htable_capacity_bounded {al : CreateAlloc} {initialCap : ℕ} {t₀ : Htable K D}
    (hcreate : htableCreate al initialCap = some (some t₀)) {P : ℕ} {ops : List (HtOp K D)}
    (hP : Always htStep (fun t => htableCount t ≤ P) t₀ ops) :
    Always htStep (fun t => 3 * t.indexCapacity
      ≤ max (3 * t₀.indexCapacity) (max 12 (8 * (P + 1)))) t₀ ops := by
  obtain ⟨hshape₀, hused, hcount, hnext, hdel, -⟩ := htableCreate_shape hcreate
  have hfull := t₀.fullSlots_le_usedSlots
  -- From `2 ^ 62` keys on no capacity is beyond the bound.
  refine (hP.invariant (I := fun t => t.Shape ∧ (P < 2 ^ 62 → Tallied P t ∧
      3 * t.indexCapacity ≤ max (3 * t₀.indexCapacity) (max 12 (8 * (P + 1)))))
    (fun t op o t' hI hP' hstep => ?_) ?_).imp fun t hI => ?_
  · obtain ⟨hshape, hI⟩ := hI
    have he := htStep_effect hshape.size hstep
    refine ⟨hshape.effect he, fun hlt => ?_⟩
    obtain ⟨htally, hcap⟩ := hI hlt
    obtain ⟨htally', hcap'⟩ := htally.effect hlt hshape hP' he
    exact ⟨htally', hcap'.trans (max_le hcap (le_max_right _ _))⟩
  · refine ⟨hshape₀, fun _ => ⟨⟨by omega, by omega, ?_⟩, le_max_left _ _⟩⟩
    omega
  · rcases Nat.lt_or_ge P (2 ^ 62) with hlt | hge
    · exact (hI.2 hlt).2
    · have hle := hI.1.cap_le
      exact le_max_of_le_right (le_max_of_le_right (by omega))

/-- Two keys set, one of them deleted and set again. -/
theorem htable_capacity_bounded_int : ∃ t₀ : Htable IntKey ℕ,
    htableCreate ⟨true, true, true⟩ 2 = some (some t₀) ∧
    Always htStep (fun t => 3 * t.indexCapacity
      ≤ max (3 * t₀.indexCapacity) (max 12 (8 * (2 + 1)))) t₀
      [.set (intKey 1) (some 10) (intSetAlloc true true true _) false,
        .set (intKey 2) (some 20) (intSetAlloc true true true _) false,
        .delete (intKey 1) true,
        .set (intKey 1) (some 30) (intSetAlloc true true true _) false] := by
  obtain ⟨t, hcreate⟩ : ∃ t : Htable IntKey ℕ,
      htableCreate ⟨true, true, true⟩ 2 = some (some t) := ⟨_, rfl⟩
  have ht := Option.some.inj (Option.some.inj hcreate)
  refine ⟨t, hcreate, htable_capacity_bounded hcreate ?_⟩
  rw [← ht]
  decide +kernel

end Freehttpd
