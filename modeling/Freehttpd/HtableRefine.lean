/-
The hash table refines a finite map.

`mapStep` is the map: an association list with distinct keys, whose laws are
`Assoc.get_set` and `Assoc.get_del`.  A table and a map are related when the
map gives every key the data of its live entry, and has as many keys.

* `htableCreate_eq` — creating a table succeeds when its allocations do;
* `MapOf.step` — one call keeps the relation and answers as the map does;
* `lastSet_eq` — what the map holds is the data last set since the last
  deletion;
* `MapOf.run`, `htable_refines_map` — so does every sequence of calls.
-/
import Freehttpd.HtableMap
import Freehttpd.IntHtable
import Freehttpd.Runs

namespace Freehttpd

open Runs

variable {K D : Type}

/-- `htable_create` returns a table if its allocations succeed. -/
theorem htableCreate_eq {initialCap : ℕ} (h2 : 2 ≤ initialCap) (hcap : initialCap ≤ 2 ^ 32) :
    ∃ t : Htable K D, htableCreate ⟨true, true, true⟩ initialCap = some (some t) ∧
      t.indexCapacity ≤ 2 ^ 32 := by
  obtain ⟨p, hp⟩ := Option.isSome_iff_exists.mp
    (utilRoundCeil2Ull_isSome (Nat.le_trans hcap (by decide)))
  obtain ⟨k, -, -, hpk, -, hlt⟩ := utilRoundCeil2Ull_spec h2 hp
  refine ⟨_, by rw [htableCreate, if_pos h2, hp]; rfl, ?_⟩
  have hk : k - 1 < 32 := (Nat.pow_lt_pow_iff_right (a := 2) (by decide)).mp
    (Nat.lt_of_lt_of_le hlt hcap)
  rw [hpk]
  exact Nat.pow_le_pow_right (by decide) (by omega)

variable [BEq K]

/-- What a call does to the data of `key`. -/
def lastStep (key : K) (data : Option (Option D)) : HtOp K D → Option (Option D)
  | .set k d _ _ => if k == key then some d else data
  | .delete k _ => if k == key then none else data
  | _ => data

/-- The data last set for `key` since its last deletion, if there is any. -/
def lastSet (ops : List (HtOp K D)) (key : K) : Option (Option D) := ops.foldl (lastStep key) none

theorem get_mapStep [EquivBEq K] (m : List (K × Option D)) (op : HtOp K D) (key : K) :
    Assoc.get (mapStep m op).2 key = lastStep key (Assoc.get m key) op := by
  cases op with
  | set k d _ _ => exact Assoc.get_set m k key d
  | delete k _ => exact Assoc.get_del m k key
  | get _ => rfl
  | has _ => rfl
  | count => rfl

/-- The map holds the data last set. -/
theorem lastSet_eq [EquivBEq K] (m : List (K × Option D)) (ops : List (HtOp K D)) (key : K) :
    Assoc.get (runsTotal mapStep m ops).2 key = ops.foldl (lastStep key) (Assoc.get m key) := by
  induction ops generalizing m with
  | nil => rfl
  | cons op ops ih => rw [runsTotal, List.foldl_cons, ← get_mapStep, ih]

section Refine

variable [Hashable K] [EquivBEq K] [LawfulHashable K] {t : Htable K D}
  {m : List (K × Option D)}

/-- One call: the answer is the map's, and the table holds the map's new
value. -/
theorem MapOf.step (h : MapOf t m) (hcap : t.indexCapacity ≤ 2 ^ 32) {op : HtOp K D}
    (hop : op.Succeed) :
    ∃ t', htStep t op = some ((mapStep m op).1, t') ∧ MapOf t' (mapStep m op).2 := by
  obtain ⟨cs, ds, hinv, hdist, hlen, hget⟩ := h
  have hnext := hinv.nextInsert_lt_of_cap hcap
  obtain ⟨out, t', cs', ds', l, hstep, hinv', hperm, -, -, hcs, hout⟩ :=
    htStep_eq hinv (hinv.fits (by rw [uint32Max]; omega) op)
  have hl : ∀ key, Assoc.get m key = Assoc.get l key := fun key => by
    rw [hget, Assoc.get_perm (hinv.distinct.perm hperm.symm) hperm]
  have hllen : m.length = l.length := by rw [hlen, hperm.length_eq, List.length_map]
  have hldist : Assoc.Distinct l := hinv.distinct.perm hperm.symm
  have hsame : (mapStep (cs.map LiveEntry.pair) op).1 = (mapStep m op).1 := by
    cases op <;> simp [mapStep, hget, hlen]
  have hout : out = (mapStep m op).1 := (hout hop).trans hsame
  refine ⟨t', hout ▸ hstep, cs', ds', hinv', ?_, ?_, fun key => ?_⟩
  · cases op with
    | set key data al _ => exact hdist.set key data
    | delete key _ => exact hdist.del key
    | get _ => exact hdist
    | has _ => exact hdist
    | count => exact hdist
  · -- The map has as many keys as the table has entries.
    rw [← List.length_map (f := LiveEntry.pair), hcs, hout]
    cases op with
    | set key data al _ =>
      simp only [mapStep, orderStep, Assoc.length_set, hllen, hl,
        Assoc.get_congr al.copy_beq]
    | delete key _ =>
      simp only [mapStep, hl]
      cases hg : Assoc.get l key with
      | none =>
        rw [hdist.length_del, hl, hg]
        exact hllen
      | some _ =>
        rw [hdist.length_del, hl, hg, hllen]
        simp only [Option.isSome_some, orderStep, hldist.length_del, hg]
    | get _ => exact hllen
    | has _ => exact hllen
    | count => exact hllen
  · -- And every lookup finds the same data.
    rw [get_mapStep, hcs, hout, hl]
    cases op with
    | set k d al _ =>
      rw [mapStep, orderStep, lastStep, Assoc.get_set, BEq.congr_left al.copy_beq]
    | delete k _ =>
      simp only [mapStep, hl, lastStep]
      cases hg : Assoc.get l k with
      | none =>
        simp only [Option.isSome_none, orderStep]
        split
        · rename_i hk
          rw [← Assoc.get_congr hk, hg]
        · rfl
      | some _ => simp only [Option.isSome_some, orderStep, Assoc.get_del]
    | get _ => rfl
    | has _ => rfl
    | count => rfl

/-- A run of calls: the answers are the map's, and so is the table. -/
theorem MapOf.run (h : MapOf t m) {ops : List (HtOp K D)}
    (hops : EachStep htStep (fun t op => t.indexCapacity ≤ 2 ^ 32 ∧ op.Succeed) t ops) :
    ∃ t', runs htStep t ops = some ((runsTotal mapStep m ops).1, t') ∧
      MapOf t' (runsTotal mapStep m ops).2 :=
  runs_refine (fun _ _ _ hR hC => hR.step hC.1 hC.2) h hops

/-- Every sequence of calls on a created table answers as a finite map does, if
the allocations succeed and the index capacity stays within `2 ^ 32`. -/
theorem htable_refines_map {initialCap : ℕ} (h2 : 2 ≤ initialCap) (hcap : initialCap ≤ 2 ^ 32) :
    ∃ t : Htable K D, htableCreate ⟨true, true, true⟩ initialCap = some (some t) ∧
      ∀ ops, EachStep htStep (fun t op => t.indexCapacity ≤ 2 ^ 32 ∧ op.Succeed) t ops →
        ∃ t', runs htStep t ops = some ((runsTotal mapStep [] ops).1, t') ∧
          ∀ key, htableGetWithFlag t' key
            = some ((lastSet ops key).join, (lastSet ops key).isSome) := by
  obtain ⟨t, hcreate, htcap⟩ := htableCreate_eq (K := K) (D := D) h2 hcap
  refine ⟨t, hcreate, fun ops hops => ?_⟩
  have hinv := htableCreate_inv (Nat.le_trans htcap (by decide)) hcreate
  obtain ⟨t', hruns, cs', ds', hinv', -, -, hget⟩ :=
    MapOf.run ⟨[], [], hinv, List.Pairwise.nil, rfl, fun _ => rfl⟩ hops
  refine ⟨t', hruns, fun key => ?_⟩
  rw [hinv'.htableGetWithFlag_eq, ← hget, lastSet_eq]
  rfl

end Refine

/-- A set, an overwrite, a deletion and a set that reuses the entry slot, on the
smallest table. -/
theorem htable_refines_map_int :
    ∃ t t' : Htable IntKey ℕ, htableCreate ⟨true, true, true⟩ 2 = some (some t) ∧
      runs htStep t
        [.set (intKey 1) (some 7) (intSetAlloc true true true _) false, .get (intKey 1),
          .set (intKey 1) (some 8) (intSetAlloc true true true _) true,
          .delete (intKey 1) true, .has (intKey 1),
          .set (intKey 2) (some 9) (intSetAlloc true true true _) false, .count]
        = some ([.set true true, .get (some 7) true, .set true false, .delete (some 8) true,
          .has false, .set true true, .count 1], t') := by
  obtain ⟨t, hcreate, h⟩ := htable_refines_map (K := IntKey) (D := ℕ) (show 2 ≤ 2 by decide)
    (by decide)
  obtain ⟨t', ht', -⟩ := h
    [.set (intKey 1) (some 7) (intSetAlloc true true true _) false, .get (intKey 1),
      .set (intKey 1) (some 8) (intSetAlloc true true true _) true,
      .delete (intKey 1) true, .has (intKey 1),
      .set (intKey 2) (some 9) (intSetAlloc true true true _) false, .count] (by
      obtain rfl := Option.some.inj (Option.some.inj hcreate)
      decide +kernel)
  exact ⟨t, t', hcreate, ht'⟩

end Freehttpd
