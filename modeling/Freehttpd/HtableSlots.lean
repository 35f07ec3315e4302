/-
The entry slots of the hash table over whole runs.

* `Partitioned` — the slots handed out so far are the live ones and the
  recycled ones, with nothing counted twice;
* `Htable.Inv.partitioned` — it follows from the invariant;
* `htable_slots_runs` — so it holds in every reachable table, and the slot a new
  key would get is never in use.
-/
import Freehttpd.HtableTraversal

namespace Freehttpd

open Runs

variable {K D : Type}

/-- The entry slots `0 .. entry_next_insert - 1` are partitioned into `live`, in
the order of the traversal, and `deleted`, the front of `deleted_index_list`. -/
structure Partitioned [Hashable K] (t : Htable K D) (live deleted : List ℕ) : Prop where
  foreach : htableForeach t (t.count + 1) = some live
  live_iff : ∀ i, i ∈ live ↔ t.Live i
  live_nodup : live.Nodup
  index_slot : ∀ i ∈ live, ∃! s, s < t.indexCapacity ∧ t.indexList.read s = some (i + 1)
  cachedHash : ∀ i ∈ live, ∃ e, t.entries.read i = some e ∧ e.cachedHash = hash e.key
  deleted_length : deleted.length = t.deletedCount
  deleted_read : ∀ j, (hj : j < deleted.length) → t.deletedIndexList.read j = some deleted[j]
  deleted_nodup : deleted.Nodup
  deleted_iff : ∀ i, i ∈ deleted ↔ i < t.entryNextInsert ∧ ¬ t.Live i
  live_lt : ∀ i, t.Live i → i < t.entryNextInsert
  count_eq : t.count = live.length
  count_add : t.count + t.deletedCount = t.entryNextInsert
  deleted_le : t.deletedCount ≤ t.deletedCapacity
  deleted_size : t.deletedIndexList.size = t.deletedCapacity

variable [BEq K] [Hashable K]

namespace Htable.Inv

variable {t : Htable K D} {cs : List (LiveEntry K D)} {ds : List ℕ}

/-- The invariant contains the accounting. -/
theorem partitioned (h : t.Inv cs ds) : Partitioned t (cs.map LiveEntry.idx) ds where
  foreach := h.links.walk_eq (by rw [List.length_map, ← h.count_eq]; omega)
  live_iff i := (h.live_iff i).symm
  live_nodup := h.links.nodup
  index_slot i hi := by
    obtain ⟨s, hs, hread, hne⟩ := (h.live_iff i).mpr hi
    refine ⟨s, ⟨hs, hread⟩, fun s' ⟨hs', hread'⟩ => ?_⟩
    exact h.slot_inj s' hs' s hs i (indexCell_eq_full_iff.mpr ⟨hread', hne⟩)
      (indexCell_eq_full_iff.mpr ⟨hread, hne⟩)
  cachedHash i hi := by
    obtain ⟨c, hc, rfl⟩ := List.mem_map.mp hi
    obtain ⟨p, n, he⟩ := h.entry c hc
    exact ⟨_, he, rfl⟩
  deleted_length := h.deletedCount_eq.symm
  deleted_read j hj := h.deleted_holds.read hj
  deleted_nodup := (List.nodup_append.mp h.nodup).2.1
  deleted_iff i := by
    have hmem := h.partition.mem_iff (a := i)
    rw [List.mem_append, List.mem_range, ← h.live_iff] at hmem
    rw [← hmem]
    refine ⟨fun hi => ⟨.inr hi, fun hl => ?_⟩, fun ⟨hi, hl⟩ => hi.resolve_left hl⟩
    exact (List.nodup_append.mp h.nodup).2.2 i ((h.live_iff i).mp hl) i hi rfl
  live_lt i hi := h.lt_nextInsert (List.mem_append_left _ ((h.live_iff i).mp hi))
  count_eq := by rw [h.count_eq, List.length_map]
  count_add := by rw [h.count_eq, h.deletedCount_eq, h.length_add]
  deleted_le := by rw [h.deletedCount_eq, ← h.deleted_size]; exact h.deleted_holds.length_le
  deleted_size := h.deleted_size

/-- The slot a new entry would take is not in use. -/
theorem not_live_of_takeSlot (h : t.Inv cs ds) {reallocDeleted : Bool} {idx : ℕ}
    {t' : Htable K D} (htake : takeSlot reallocDeleted t = some (idx, t')) : ¬ t.Live idx := by
  rw [takeSlot] at htake
  split at htake
  · rename_i hdc
    rw [h.deletedCount_eq] at htake hdc
    have hlt : ds.length - 1 < ds.length := by omega
    simp only [h.deleted_holds.read hlt, Option.bind_eq_bind, Option.bind_some] at htake
    have hidx : idx = ds[ds.length - 1] := by
      split at htake <;> exact (Prod.mk.inj (Option.some.inj htake)).1.symm
    exact ((h.partitioned.deleted_iff idx).mp (hidx ▸ List.getElem_mem hlt)).2
  · rw [← (Prod.mk.inj (Option.some.inj htake)).1]
    exact fun hl => absurd (h.partitioned.live_lt _ hl) (Nat.lt_irrefl _)

end Htable.Inv

variable [EquivBEq K] [LawfulHashable K]

/-- In every reachable table the entry slots are accounted for exactly once. -/
theorem htable_slots_runs {al : CreateAlloc} {initialCap : ℕ} {t : Htable K D}
    (hcreate : htableCreate al initialCap = some (some t)) (hcap : t.indexCapacity ≤ 2 ^ 32)
    {ops : List (HtOp K D)}
    (hops : EachStep htStep (fun t _ => t.indexCapacity ≤ 2 ^ 32) t ops) :
    ∃ outs t' live deleted, runs htStep t ops = some (outs, t') ∧
      Partitioned t' live deleted ∧
      ∀ reallocDeleted idx t'', takeSlot reallocDeleted t' = some (idx, t'') → ¬ t'.Live idx := by
  obtain ⟨outs, t', cs', ds', hruns, hinv', -, -⟩ :=
    runs_order (htableCreate_inv (Nat.le_trans hcap (by decide)) hcreate) hops
  exact ⟨outs, t', _, ds', hruns, hinv'.partitioned, fun _ _ _ => hinv'.not_live_of_takeSlot⟩

/-- Two keys set, one of them deleted. -/
theorem htable_slots_runs_int : ∃ t t' : Htable IntKey ℕ, ∃ outs live deleted,
    htableCreate ⟨true, true, true⟩ 4 = some (some t) ∧
    runs htStep t
      [.set (intKey 1) (some 10) (intSetAlloc true true true _) false,
        .set (intKey 2) (some 20) (intSetAlloc true true true _) false,
        .delete (intKey 1) true] = some (outs, t') ∧
    Partitioned t' live deleted ∧ t'.count = 1 ∧ t'.deletedCount = 1 := by
  obtain ⟨t, hcreate⟩ : ∃ t : Htable IntKey ℕ,
      htableCreate ⟨true, true, true⟩ 4 = some (some t) := ⟨_, rfl⟩
  have ht := Option.some.inj (Option.some.inj hcreate)
  obtain ⟨outs, t', live, deleted, hruns, hpart, -⟩ := htable_slots_runs hcreate
    (ht ▸ by decide +kernel)
    (show EachStep htStep (fun t _ => t.indexCapacity ≤ 2 ^ 32) t
      [.set (intKey 1) (some 10) (intSetAlloc true true true _) false,
        .set (intKey 2) (some 20) (intSetAlloc true true true _) false,
        .delete (intKey 1) true] from
      ht ▸ by decide +kernel)
  have hcounts := congrArg (Option.map fun r => (r.2.count, r.2.deletedCount)) hruns
  rw [← ht] at hcounts
  have hcounts := Prod.mk.inj (Option.some.inj
    (hcounts.symm.trans (show _ = some (1, 1) by decide +kernel)))
  exact ⟨t, t', outs, live, deleted, hcreate, hruns, hpart, hcounts⟩

end Freehttpd
