/-
The hash table's assertions and array accesses.

A call evaluates to `none` when an `assert` fails or an access leaves its array, so the
absence of both is that every call evaluates.

* `Htable.Safe` — what a call may rely on in a table, and does;
* `Htable.Inv.safe` — the invariant of a table whose index fits gives all of it;
* `htable_safe` — and so every table that is reached has it, up to a capacity of
  `2 ^ 31`.
-/
import Freehttpd.HtableGrowth
import Freehttpd.HtableTraversal

namespace Freehttpd

open Runs OpenAddressing

variable {K D : Type}

/-- The arguments with which `htable_grow` calls `htable_rehash`. -/
def Htable.rehashed (t : Htable K D) : Option (Option (Rehash K D)) :=
  htableRehash t (u64 (t.indexCapacity <<< 1)) (u64 (u64 (t.indexCapacity <<< 1) * 3) / 4)

section Safe

variable [BEq K] [Hashable K]

/-- The probe of `htable_set_with_flag` ends at a slot of the index for every key that is
not there. -/
def Htable.FindsSlot (t : Htable K D) (key : K) : Prop :=
  ∃ s < t.indexCapacity, t.setProbe key = some (.absent s)

/-- No `assert` fails, no access leaves its array, and a set succeeds if its allocations
do.  The sizes say that staying inside an array is staying within its capacity. -/
structure Htable.Safe (t : Htable K D) : Prop where
  set : ∀ (key : K) (data : Option D) (al : SetAlloc K key) (flagCreated : Bool), al.Succeed →
    ∃ r, htableSetWithFlag t key data al flagCreated = some r ∧ r.ret = true
  call : ∀ op, (htStep t op).isSome
  room : t.mustGrow = false → t.entryNextInsert < t.entryCapacity
  rehash : ∃ r, t.rehashed = some (some r)
  grown : ∃ t₁, htableGrow true true t = some (some t₁) ∧
    (t.mustGrow = true → t₁.entryNextInsert < t₁.entryCapacity) ∧
    ∀ key, htableHas t key = some false → t.mustGrow = true → t₁.FindsSlot key
  absent : ∀ key, htableHas t key = some false → t.mustGrow = false → t.FindsSlot key
  indexList_size : t.indexList.size = t.indexCapacity
  entries_size : t.entries.size = t.entryCapacity
  deleted_size : t.deletedIndexList.size = t.deletedCapacity

variable {t : Htable K D} {cs : List (LiveEntry K D)} {ds : List ℕ}

omit [BEq K] [Hashable K] in
/-- If `htable_grow` returns a table, `htable_rehash` has not failed. -/
theorem rehashed_of_grow {t₁ : Htable K D} (h : htableGrow true true t = some (some t₁)) :
    ∃ r, t.rehashed = some (some r) := by
  rw [htableGrow, Bool.and_self, if_pos rfl] at h
  obtain ⟨o, hrehash, h⟩ := Option.bind_eq_some_iff.mp h
  cases o with
  | none => cases Option.some.inj h
  | some r => exact ⟨r, hrehash⟩

namespace Htable.Inv

/-- An absent key finds a slot as soon as there are fewer keys than slots. -/
theorem findsSlot (h : t.Inv cs ds) {key : K} (hk : ∀ c ∈ cs, (c.key == key) = false)
    (hlen : cs.length < t.indexCapacity) : t.FindsSlot key := by
  obtain ⟨j, -, hprobe, -, -⟩ := h.setProbe_of_forall_ne hk hlen
  exact ⟨_, slotAt_lt h.cap_pos _ j, hprobe⟩

variable [EquivBEq K] [LawfulHashable K]

theorem forall_ne_of_has (h : t.Inv cs ds) {key : K} (hhas : htableHas t key = some false) :
    ∀ c ∈ cs, (c.key == key) = false := by
  rw [htableHas, h.htableGetWithFlag_eq] at hhas
  rcases exists_mem_or_forall_ne cs key with ⟨c, hc, hk⟩ | hk
  · rw [h.get_of_mem hc hk] at hhas
    exact absurd (Option.some.inj hhas) (by simp)
  · exact hk

theorem safe (h : t.Inv cs ds) (hcap : t.indexCapacity ≤ 2 ^ 31) : t.Safe := by
  have hnext := h.nextInsert_lt_of_cap (Nat.le_trans hcap (by decide))
  have hfits : ∀ op : HtOp K D, op.Fits t := fun op =>
    h.fits (by rw [uint32Max]; omega) op
  obtain ⟨t₁, cs₁, hgrow, hinv₁, hperm, hcap₁⟩ := htableGrow_eq h (by omega)
  -- Behind the growth there are at most three quarters of the old capacity in use.
  have hlen₁ := hperm.length_eq
  have hadd := h.length_add
  have hadd₁ := hinv₁.length_add
  simp only [List.length_map, List.length_nil, Nat.add_zero] at hlen₁ hadd₁
  have hnextLe := h.nextInsert_le
  have hecap := h.entryCapacity_eq
  have hecap₁ := hinv₁.entryCapacity_eq
  have hcap2 := h.two_le_cap
  exact
    { set := fun key data al flagCreated hal => by
        obtain ⟨r, cs', ds', l, hr, -, -, -, -, -, hcase⟩ :=
          htableSetWithFlag_eq h key (h.count_lt_of_fits (hfits (.set key data al flagCreated)))
            data al flagCreated
        refine ⟨r, hr, ?_⟩
        rcases hcase with ⟨hret, -⟩ | ⟨-, hns, -⟩
        · exact hret
        · exact absurd (hal.suffice t) hns
      call := fun op => by
        obtain ⟨out, t', -, -, -, hstep, -⟩ := htStep_eq h (hfits op)
        rw [hstep]
        rfl
      room := fun hg => (h.room_of_not_mustGrow hg).1
      rehash := rehashed_of_grow hgrow
      grown := by
        refine ⟨t₁, hgrow, fun _ => by omega, fun key hhas _ => hinv₁.findsSlot ?_ (by omega)⟩
        exact forall_ne_of_perm hperm (h.forall_ne_of_has hhas)
      absent := fun key hhas hg =>
        h.findsSlot (h.forall_ne_of_has hhas) (h.room_of_not_mustGrow hg).2
      indexList_size := h.indexList_size
      entries_size := h.entries_size
      deleted_size := h.deleted_size }

end Htable.Inv

end Safe

/-- A run that ends at an index capacity up to `2 ^ 31` keeps the invariant. -/
theorem inv_of_runs_le [BEq K] [Hashable K] [EquivBEq K] [LawfulHashable K] {al : CreateAlloc}
    {initialCap : ℕ} {t₀ t : Htable K D} (hcreate : htableCreate al initialCap = some (some t₀))
    {ops : List (HtOp K D)} {outs : List (HtOut D)} (hr : runs htStep t₀ ops = some (outs, t))
    (hcap : t.indexCapacity ≤ 2 ^ 31) : ∃ cs ds, t.Inv cs ds := by
  obtain ⟨hle, heach⟩ := eachStep_cap_le (htableCreate_shape hcreate).1 hr
  have hinv := htableCreate_inv (Nat.le_trans (Nat.le_trans hle hcap) (by decide)) hcreate
  obtain ⟨outs', t', cs, ds, hr', hinv', -, -⟩ := runs_order hinv
    (heach.imp fun s _ hs => Nat.le_trans hs (Nat.le_trans hcap (by decide)))
  rw [hr, Option.some_inj] at hr'
  obtain ⟨-, rfl⟩ := Prod.mk.inj hr'
  exact ⟨cs, ds, hinv'⟩

/-- In every table that is reached, with an index capacity up to `2 ^ 31`, no assertion
fails, no access leaves its array, and sets succeed if their allocations do. -/
theorem htable_safe [BEq K] [Hashable K] [EquivBEq K] [LawfulHashable K] {al : CreateAlloc}
    {initialCap : ℕ} {t₀ t : Htable K D} (hcreate : htableCreate al initialCap = some (some t₀))
    {ops : List (HtOp K D)} {outs : List (HtOut D)} (hr : runs htStep t₀ ops = some (outs, t))
    (hcap : t.indexCapacity ≤ 2 ^ 31) : t.Safe := by
  obtain ⟨cs, ds, hinv⟩ := inv_of_runs_le hcreate hr hcap
  exact hinv.safe hcap

/-- The smallest table, grown once, with a tombstone. -/
theorem htable_safe_int : ∃ t₀ t : Htable IntKey ℕ,
    htableCreate ⟨true, true, true⟩ 2 = some (some t₀) ∧
    (∃ outs, runs htStep t₀
      [.set (intKey 1) (some 10) (intSetAlloc true true true _) false,
        .set (intKey 2) (some 20) (intSetAlloc true true true _) false,
        .delete (intKey 1) true] = some (outs, t)) ∧ t.indexCapacity = 4 ∧ t.Safe := by
  obtain ⟨t₀, hcreate⟩ : ∃ t₀ : Htable IntKey ℕ,
      htableCreate ⟨true, true, true⟩ 2 = some (some t₀) := ⟨_, rfl⟩
  have ht := Option.some.inj (Option.some.inj hcreate)
  have hrun : ∃ r, runs htStep t₀
      [.set (intKey 1) (some 10) (intSetAlloc true true true _) false,
        .set (intKey 2) (some 20) (intSetAlloc true true true _) false,
        .delete (intKey 1) true] = some r ∧ r.2.indexCapacity = 4 := by
    have hsome : Option.any (fun r => decide (r.2.indexCapacity = 4)) (runs htStep t₀
      [.set (intKey 1) (some 10) (intSetAlloc true true true _) false,
        .set (intKey 2) (some 20) (intSetAlloc true true true _) false,
        .delete (intKey 1) true]) = true := by
      rw [← ht]
      decide +kernel
    obtain ⟨r, hr, hcap⟩ := (Option.any_eq_true _ _).mp hsome
    exact ⟨r, hr, of_decide_eq_true hcap⟩
  obtain ⟨⟨outs, t⟩, hr, hcap⟩ := hrun
  have hcap : t.indexCapacity = 4 := hcap
  exact ⟨t₀, t, hcreate, ⟨outs, hr⟩, hcap, htable_safe hcreate hr (by rw [hcap]; decide)⟩

end Freehttpd
