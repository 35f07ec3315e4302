/-
The `htable_foreach` traversal over whole runs.

* `Htable.Live` — an entry slot is live when an index slot names it;
* `Traversal` — what it means for a list of entry slots to be the traversal of a
  table, in both directions;
* `Htable.Inv.traversal` — the linked list of a table is its traversal;
* `runs_order` — how the order of the contents evolves while the table does not
  grow;
* `htable_foreach_runs` — both together, for every reachable table.
-/
import Freehttpd.HtableRefine

namespace Freehttpd

open Runs OpenAddressing

variable {K D : Type}

/-- Some index slot names entry `i`. -/
def Htable.Live (t : Htable K D) (i : ℕ) : Prop :=
  ∃ s < t.indexCapacity, t.indexList.read s = some (i + 1) ∧ i + 1 ≠ htDeleted

/-- The keys and data met by `htable_foreach`, in its order. -/
def htableContents (t : Htable K D) : Option (List (K × Option D)) := do
  let visited ← htableForeach t (t.count + 1)
  visited.mapM fun i => (t.entries.read i).map fun e => (e.key, e.data)

/-- `visited` are the entries met from `head_idx` along `next_idx`: exactly the
live ones, each once, and in the other direction the same list backwards. -/
structure Traversal [BEq K] [Hashable K] (t : Htable K D) (visited : List ℕ) : Prop where
  forward : ∀ fuel, t.count < fuel → htableForeach t fuel = some visited
  backward : ∀ fuel, t.count < fuel → htableForeachBack t fuel = some visited.reverse
  nodup : visited.Nodup
  mem_iff : ∀ i, i ∈ visited ↔ t.Live i
  not_deleted : ∀ j < t.deletedCount, ∀ i, t.deletedIndexList.read j = some i → i ∉ visited
  get : ∀ i ∈ visited, ∃ e, t.entries.read i = some e ∧
    htableGetWithFlag t e.key = some (e.data, true)
  has_iff : ∀ key, htableHas t key = some true ↔
    ∃ i ∈ visited, ∃ e, t.entries.read i = some e ∧ (e.key == key) = true

variable [BEq K]

/-- The order of the contents after a run of calls with the given answers. -/
def orderAfter (l : List (K × Option D)) : List (HtOp K D) → List (HtOut D) →
    List (K × Option D)
  | op :: ops, out :: outs => orderAfter (orderStep l op out) ops outs
  | _, _ => l

namespace Htable.Inv

variable [Hashable K] {t : Htable K D} {cs : List (LiveEntry K D)} {ds : List ℕ}

/-- The live entries are those of the linked list. -/
theorem live_iff (h : t.Inv cs ds) (i : ℕ) : t.Live i ↔ i ∈ cs.map LiveEntry.idx := by
  constructor
  · rintro ⟨s, hs, hread, hne⟩
    exact h.slots s hs i (indexCell_eq_full_iff.mpr ⟨hread, hne⟩)
  · intro hi
    obtain ⟨c, hc, rfl⟩ := List.mem_map.mp hi
    obtain ⟨j, -, hfull, -⟩ := h.onPath c hc
    exact ⟨_, slotAt_lt h.cap_pos _ j, indexCell_eq_full_iff.mp hfull⟩

/-- The traversal reads the contents off the linked list. -/
theorem htableContents_eq (h : t.Inv cs ds) :
    htableContents t = some (cs.map LiveEntry.pair) := by
  have hlen : (cs.map LiveEntry.idx).length < t.count + 1 := by
    rw [h.count_eq, List.length_map]
    omega
  rw [htableContents, htableForeach, h.links.walk_eq hlen, Option.bind_eq_bind, Option.bind_some]
  have hentry := h.entry
  clear h hlen
  induction cs with
  | nil => rfl
  | cons c cs ih =>
    obtain ⟨p, n, he⟩ := hentry c (by simp)
    have ih := ih fun c' hc' => hentry c' (by simp [hc'])
    rw [List.map_cons, List.mapM_cons, he, ih]
    rfl

variable [EquivBEq K] [LawfulHashable K]

/-- The linked list of a table is its traversal. -/
theorem traversal (h : t.Inv cs ds) : Traversal t (cs.map LiveEntry.idx) where
  forward fuel hf := h.links.walk_eq (by rwa [List.length_map, ← h.count_eq])
  backward fuel hf := h.links.reverse.walk_eq
    (by rwa [List.length_reverse, List.length_map, ← h.count_eq])
  nodup := h.links.nodup
  mem_iff i := (h.live_iff i).symm
  not_deleted j hj i hi hmem := by
    have hj' : j < ds.length := h.deletedCount_eq ▸ hj
    rw [h.deleted_holds.read hj', Option.some_inj] at hi
    exact (List.nodup_append.mp h.nodup).2.2 i hmem i (hi ▸ List.getElem_mem hj') rfl
  get i hi := by
    obtain ⟨c, hc, rfl⟩ := List.mem_map.mp hi
    obtain ⟨p, n, he⟩ := h.entry c hc
    refine ⟨_, he, ?_⟩
    rw [h.htableGetWithFlag_eq, h.get_of_mem hc BEq.rfl]
    rfl
  has_iff key := by
    rw [htableHas, h.htableGetWithFlag_eq]
    constructor
    · intro hk
      rcases exists_mem_or_forall_ne cs key with ⟨c, hc, hck⟩ | hne
      · obtain ⟨p, n, he⟩ := h.entry c hc
        exact ⟨c.idx, List.mem_map_of_mem hc, _, he, hck⟩
      · rw [get_of_forall_ne hne] at hk
        exact absurd hk (by simp)
    · rintro ⟨i, hi, e, he, hek⟩
      obtain ⟨c, hc, rfl⟩ := List.mem_map.mp hi
      obtain ⟨p, n, he'⟩ := h.entry c hc
      rw [he', Option.some_inj] at he
      rw [h.get_of_mem hc (show (c.key == key) = true by rw [← hek, ← he])]
      rfl

end Htable.Inv

section Runs

variable [Hashable K] [EquivBEq K] [LawfulHashable K] {t : Htable K D}

/-- A run of calls keeps the invariant; while the table does not grow its order
evolves by `orderStep`. -/
theorem runs_order {cs : List (LiveEntry K D)} {ds : List ℕ} (h : t.Inv cs ds)
    {ops : List (HtOp K D)} (hops : EachStep htStep (fun t _ => t.indexCapacity ≤ 2 ^ 32) t ops) :
    ∃ outs t' cs' ds', runs htStep t ops = some (outs, t') ∧ t'.Inv cs' ds' ∧
      t.indexCapacity ≤ t'.indexCapacity ∧
      (t'.indexCapacity = t.indexCapacity →
        cs'.map LiveEntry.pair = orderAfter (cs.map LiveEntry.pair) ops outs) := by
  induction ops generalizing t cs ds with
  | nil => exact ⟨[], t, cs, ds, rfl, h, Nat.le_refl _, fun _ => rfl⟩
  | cons op ops ih =>
    have hnext := h.nextInsert_lt_of_cap hops.1
    obtain ⟨out, t₁, cs₁, ds₁, l, hstep, hinv₁, -, hle₁, hl, hcs₁, -⟩ :=
      htStep_eq h (h.fits (by rw [uint32Max]; omega) op)
    obtain ⟨outs, t', cs', ds', hruns, hinv', hle', hcs'⟩ :=
      ih hinv₁ ((eachStep_cons_of_step hstep ops).mp hops).2
    refine ⟨out :: outs, t', cs', ds', by rw [runs_cons_of_step hstep, hruns]; rfl, hinv',
      Nat.le_trans hle₁ hle', fun he => ?_⟩
    -- The capacity never shrinks, so neither half of the run has grown the table.
    rw [hcs' (by omega), hcs₁, hl (by omega), orderAfter]

/-- In every reachable table the traversal visits exactly the live entries, and
from there on, until the table grows, its order evolves as a list does. -/
theorem htable_foreach_runs {al : CreateAlloc} {initialCap : ℕ}
    (hcreate : htableCreate al initialCap = some (some t)) (hcap : t.indexCapacity ≤ 2 ^ 32)
    {ops : List (HtOp K D)}
    (hops : EachStep htStep (fun t _ => t.indexCapacity ≤ 2 ^ 32) t ops) :
    ∃ outs t' visited l, runs htStep t ops = some (outs, t') ∧ Traversal t' visited ∧
      htableContents t' = some l ∧
      ∀ ops', EachStep htStep (fun t _ => t.indexCapacity ≤ 2 ^ 32) t' ops' →
        ∃ outs' t'', runs htStep t' ops' = some (outs', t'') ∧
          (t''.indexCapacity = t'.indexCapacity →
            htableContents t'' = some (orderAfter l ops' outs')) ∧
          ((∀ op ∈ ops', op.Succeed) → outs' = (runsTotal mapStep l ops').1) := by
  have hinv := htableCreate_inv (Nat.le_trans hcap (by decide)) hcreate
  obtain ⟨outs, t', cs', ds', hruns, hinv', -, -⟩ := runs_order hinv hops
  refine ⟨outs, t', _, _, hruns, hinv'.traversal, hinv'.htableContents_eq, fun ops' hops' => ?_⟩
  obtain ⟨outs', t'', cs'', ds'', hruns', hinv'', -, horder⟩ := runs_order hinv' hops'
  refine ⟨outs', t'', hruns', fun he => ?_, fun hs => ?_⟩
  · rw [hinv''.htableContents_eq, horder he]
  · obtain ⟨_, hruns'', -⟩ := MapOf.run
      ⟨cs', ds', hinv', hinv'.distinct, by rw [List.length_map], fun _ => rfl⟩
      (hops'.and_forall hs)
    rw [hruns', Option.some_inj] at hruns''
    exact congrArg Prod.fst hruns''

end Runs

/-- Three keys, of which the second is deleted: the fourth takes its entry slot
and still comes last. -/
theorem htable_foreach_runs_int : ∃ t t' : Htable IntKey ℕ, ∃ outs visited,
    htableCreate ⟨true, true, true⟩ 8 = some (some t) ∧
    runs htStep t
      [.set (intKey 1) (some 10) (intSetAlloc true true true _) false,
        .set (intKey 2) (some 20) (intSetAlloc true true true _) false,
        .set (intKey 3) (some 30) (intSetAlloc true true true _) false,
        .delete (intKey 2) true,
        .set (intKey 4) (some 40) (intSetAlloc true true true _) false] = some (outs, t') ∧
    Traversal t' visited ∧
    htableContents t'
      = some [(intKey 1, some 10), (intKey 3, some 30), (intKey 4, some 40)] := by
  obtain ⟨t, hcreate⟩ : ∃ t : Htable IntKey ℕ,
      htableCreate ⟨true, true, true⟩ 8 = some (some t) := ⟨_, rfl⟩
  have ht := Option.some.inj (Option.some.inj hcreate)
  obtain ⟨outs, t', visited, l, hruns, htr, -, -⟩ := htable_foreach_runs hcreate
    (ht ▸ by decide +kernel)
    (show EachStep htStep (fun t _ => t.indexCapacity ≤ 2 ^ 32) t
      [.set (intKey 1) (some 10) (intSetAlloc true true true _) false,
        .set (intKey 2) (some 20) (intSetAlloc true true true _) false,
        .set (intKey 3) (some 30) (intSetAlloc true true true _) false,
        .delete (intKey 2) true,
        .set (intKey 4) (some 40) (intSetAlloc true true true _) false] from
      ht ▸ by decide +kernel)
  refine ⟨t, t', outs, visited, hcreate, hruns, htr, ?_⟩
  have hcontents := congrArg (Option.map fun r => htableContents r.2) hruns
  rw [← ht] at hcontents
  exact Option.some.inj (hcontents.symm.trans (by decide +kernel))

end Freehttpd
