/-
Deleting during a traversal of the hash table.

`htable_foreach` steps through the `next_idx` of the entry it has just shown to its body,
also when the body has deleted that entry:

* `foreachDelete_eq` — the links of a deleted entry stay, so the loop goes on where it
  would have gone on;
* `htable_foreach_delete` — every table reached by calls that fit loses the entries in
  question and nothing else;
* `htable_foreach_delete_at_limit` — the entry with the number `UINT32_MAX - 1` stays.
-/
import Freehttpd.HtableFailures

namespace Freehttpd

open Runs

variable {K D : Type}

/-- The body of the loop: the entry is deleted if `dels` says so of its key; the allocations
succeed. -/
def deleteIf [BEq K] [Hashable K] (dels : K → Bool) (t : Htable K D) (entry : HtEntry K D) :
    Option (Htable K D) :=
  if dels entry.key then (htableDeleteWithFlag t entry.key true).map DeleteResult.table
  else some t

/-- `htable_foreach` with the body `deleteIf`.  The result are the entries shown, in order,
and the table behind the loop, `none` if it is still running after `fuel` rounds. -/
def foreachDelete [BEq K] [Hashable K] (dels : K → Bool) :
    ℕ → Htable K D → ℕ → Option (List ℕ × Htable K D)
  | 0, _, _ => none
  | fuel + 1, t, idx =>
    if idx = uint32Max then some ([], t)
    else do
      let entry ← t.entries.read idx
      let t ← deleteIf dels t entry
      -- `ht_iter_next` follows the link of the entry even if it has just been deleted.
      let entry ← t.entries.read idx
      let (visited, t) ← foreachDelete dels fuel t entry.nextIdx
      some (idx :: visited, t)

/-- The entry slots of `visited` whose keys stay. -/
def survivors (dels : K → Bool) (t : Htable K D) (visited : List ℕ) : List ℕ :=
  visited.filter fun i => !(t.entries.read i).any fun e => dels e.key

section Sweep

variable [BEq K] [Hashable K] {dels : K → Bool}

/-- One round of the loop. -/
theorem foreachDelete_succ {t t₁ : Htable K D} {idx : ℕ} {e e₁ : HtEntry K D} (fuel : ℕ)
    (hidx : idx ≠ uint32Max) (he : t.entries.read idx = some e)
    (hbody : deleteIf dels t e = some t₁) (he₁ : t₁.entries.read idx = some e₁) :
    foreachDelete dels (fuel + 1) t idx
      = (foreachDelete dels fuel t₁ e₁.nextIdx).map fun r => (idx :: r.1, r.2) := by
  rw [foreachDelete, if_neg hidx, he]
  simp only [Option.bind_eq_bind, Option.bind_some, hbody, he₁]
  cases foreachDelete dels fuel t₁ e₁.nextIdx with
  | none => rfl
  | some r => rfl

variable [EquivBEq K] [LawfulHashable K]

/-- The loop over the entries `rest`, behind those that were shown and stayed. -/
theorem foreachDelete_eq (dels : K → Bool) {t : Htable K D} {kept rest : List (LiveEntry K D)}
    {ds : List ℕ}
    (h : t.Inv (kept ++ rest) ds) {fuel : ℕ} (hf : rest.length < fuel) :
    ∃ t' ds', foreachDelete dels fuel t ((rest.map LiveEntry.idx).headD uint32Max)
        = some (rest.map LiveEntry.idx, t') ∧
      t'.Inv (kept ++ rest.filter fun c => !dels c.key) ds' := by
  induction rest generalizing t kept ds fuel with
  | nil =>
    obtain ⟨k, rfl⟩ : ∃ k, fuel = k + 1 := ⟨fuel - 1, by simp at hf; omega⟩
    exact ⟨t, ds, by rw [List.map_nil, List.headD_nil, foreachDelete, if_pos rfl], h⟩
  | cons c rest ih =>
    obtain ⟨k, rfl⟩ : ∃ k, fuel = k + 1 := ⟨fuel - 1, by simp at hf; omega⟩
    have hk : rest.length < k := by simpa using hf
    obtain ⟨p, n, he⟩ := h.entry c (by simp)
    have hlinks := h.links
    rw [List.map_append, List.map_cons] at hlinks
    have hidx : c.idx ≠ uint32Max := fun hc => hlinks.nil_notMem (by simp [hc])
    have hnext : n = (rest.map LiveEntry.idx).headD uint32Max := by
      have hn := hlinks.isSome_links.1
      rw [entryNext, he, Option.map_some, Option.some_inj] at hn
      exact hn
    rw [List.map_cons, List.headD_cons]
    cases hd : dels c.key with
    | true =>
      -- The entry goes, and its own links stay as they were.
      obtain ⟨-, hcan⟩ | ⟨-, t₁, hdelete, ⟨-, hself⟩, hinv₁⟩ :=
        htableDelete_of_mem h (show (c.key == c.key) = true from BEq.rfl) true
      · exact absurd (Or.inl rfl) hcan
      · obtain ⟨t', ds', hloop, hinv'⟩ := ih hinv₁ hk
        refine ⟨t', ds', ?_, ?_⟩
        · rw [foreachDelete_succ k hidx he (by rw [deleteIf, if_pos hd, hdelete]; rfl)
            (hself.trans he),
            hnext, hloop]
          rfl
        · rwa [List.filter_cons_of_neg (by simp [hd])]
    | false =>
      have happ : kept ++ c :: rest = kept ++ [c] ++ rest := by simp
      obtain ⟨t', ds', hloop, hinv'⟩ := ih (happ ▸ h) hk
      refine ⟨t', ds', ?_, ?_⟩
      · rw [foreachDelete_succ k hidx he (by rw [deleteIf, hd]; rfl) he, hnext, hloop]
        rfl
      · rw [List.filter_cons_of_pos (by simp [hd])]
        rwa [List.append_assoc] at hinv'

omit [EquivBEq K] [LawfulHashable K] in
/-- The slots of the entries whose keys stay. -/
theorem Htable.Inv.survivors_eq {t : Htable K D} {cs : List (LiveEntry K D)} {ds : List ℕ}
    (h : t.Inv cs ds) : survivors dels t (cs.map LiveEntry.idx)
      = (cs.filter fun c => !dels c.key).map LiveEntry.idx := by
  rw [survivors, List.filter_map]
  congr 1
  refine List.filter_congr fun c hc => ?_
  obtain ⟨p, n, he⟩ := h.entry c hc
  rw [Function.comp_apply, he, Option.any_some]

/-- In every table reached by calls that fit, a traversal whose body deletes the entries
with the keys in `dels` shows every entry once, in the order of the list, and leaves the
list of the others, in their order, with both its ends and the links in both directions. -/
theorem htable_foreach_delete {al : CreateAlloc} {initialCap : ℕ} {t₀ : Htable K D}
    (hcap : initialCap ≤ 2 ^ 62) (hcreate : htableCreate al initialCap = some (some t₀))
    {ops : List (HtOp K D)} (hops : EachStep htStep (fun t op => op.Fits t) t₀ ops) :
    ∃ outs t visited l, runs htStep t₀ ops = some (outs, t) ∧ Traversal t visited ∧
      htableContents t = some l ∧
      ∀ (dels : K → Bool) (fuel : ℕ), t.count < fuel →
        ∃ t', foreachDelete dels fuel t t.headIdx = some (visited, t') ∧
          htableContents t' = some (l.filter fun p => !dels p.1) ∧
          Traversal t' (survivors dels t visited) ∧
          DList (entryNext t'.entries) (entryPrev t'.entries) uint32Max t'.headIdx t'.tailIdx
            (survivors dels t visited) := by
  obtain ⟨outs, t, hr, cs, ds, hinv⟩ := inv_of_fitting_runs hcap hcreate hops
  refine ⟨outs, t, _, _, hr, hinv.traversal, hinv.htableContents_eq, fun dels fuel hf => ?_⟩
  obtain ⟨t', ds', hloop, hinv'⟩ := foreachDelete_eq dels (show t.Inv ([] ++ cs) ds from hinv)
    (hinv.count_eq ▸ hf)
  rw [List.nil_append] at hinv'
  rw [← hinv.links.head_eq] at hloop
  refine ⟨t', hloop, ?_, ?_, ?_⟩
  · rw [hinv'.htableContents_eq, List.filter_map]
    rfl
  · rw [hinv.survivors_eq]
    exact hinv'.traversal
  · rw [hinv.survivors_eq]
    exact hinv'.links

omit [EquivBEq K] [LawfulHashable K] in
/-- A loop whose body never changes anything shows the whole list. -/
theorem foreachDelete_of_unchanged {t : Htable K D} {l : List ℕ} {p : ℕ}
    (hl : Linked (entryNext t.entries) (entryPrev t.entries) p l uint32Max)
    (hnil : uint32Max ∉ l)
    (hbody : ∀ i ∈ l, ∀ e, t.entries.read i = some e → deleteIf dels t e = some t) {fuel : ℕ}
    (hf : l.length < fuel) : foreachDelete dels fuel t (l.headD uint32Max) = some (l, t) := by
  induction l generalizing p fuel with
  | nil =>
    obtain ⟨k, rfl⟩ : ∃ k, fuel = k + 1 := ⟨fuel - 1, by simp at hf; omega⟩
    rw [List.headD_nil, foreachDelete, if_pos rfl]
  | cons i l ih =>
    obtain ⟨k, rfl⟩ : ∃ k, fuel = k + 1 := ⟨fuel - 1, by simp at hf; omega⟩
    obtain ⟨-, hn, hl⟩ := hl
    obtain ⟨hi, hnil⟩ := not_or.mp (mt List.mem_cons.mpr hnil)
    obtain ⟨e, he, hnext⟩ := Option.map_eq_some_iff.mp hn
    rw [List.headD_cons, foreachDelete_succ k (Ne.symm hi) he (hbody i (by simp) e he) he, hnext,
      ih hl hnil (fun j hj => hbody j (List.mem_cons_of_mem i hj)) (by simpa using hf)]
    rfl

omit [LawfulHashable K] in
/-- The entry with the last number is shown to the body, which cannot delete it. -/
theorem Htable.AtLimit.foreachDelete {t m : Htable K D} {cs : List (LiveEntry K D)}
    {c : LiveEntry K D} (h : t.AtLimit m cs c) {key : K}
    (hk : ∀ c' ∈ cs, (c'.key == key) = false) (hc : (c.key == key) = true) :
    ∃ visited, htableForeach t (uint32Max + 1) = some visited ∧
      Freehttpd.foreachDelete (fun k => k == key) (uint32Max + 1) t t.headIdx
        = some (visited, t) ∧
      survivors (fun k => k == key) t visited ≠ visited := by
  have hlen : (cs.map LiveEntry.idx ++ [c.idx]).length < uint32Max + 1 := by
    rw [List.length_append, List.length_map, List.length_singleton, h.length]
    exact Nat.lt_succ_self _
  obtain ⟨p, n, hlast⟩ := h.entry c (by simp)
  have hbody : ∀ i ∈ cs.map LiveEntry.idx ++ [c.idx], ∀ e, t.entries.read i = some e →
      deleteIf (fun k => k == key) t e = some t := by
    intro i hi e he
    rcases List.mem_append.mp hi with hi | hi
    · -- The other keys are not to be deleted.
      obtain ⟨c', hc', rfl⟩ := List.mem_map.mp hi
      obtain ⟨p', n', he'⟩ := h.entry c' (List.mem_append_left _ hc')
      rw [he', Option.some_inj] at he
      rw [deleteIf, if_neg (by rw [← he, hk c' hc']; exact Bool.false_ne_true)]
    · -- The last one is not found.
      rw [List.mem_singleton.mp hi, hlast, Option.some_inj] at he
      have hfind : htableFind t e.key = some none := h.find fun c' hc' => by
        rw [← he, BEq.congr_right hc]
        exact hk c' hc'
      rw [deleteIf, if_pos (by rw [← he]; exact hc), htableDeleteWithFlag, hfind]
      rfl
  refine ⟨_, h.links.walk_eq hlen, ?_, fun heq => ?_⟩
  · rw [h.links.head_eq]
    exact foreachDelete_of_unchanged h.links.linked h.links.nil_notMem hbody hlen
  · have hstay : (!(c.key == key)) = true := by
      have hmem := List.filter_eq_self.mp heq c.idx (by simp)
      rwa [hlast, Option.any_some] at hmem
    rw [hc] at hstay
    exact Bool.false_ne_true hstay

end Sweep

/-- Five keys, of which all but the second are deleted: at the head, in a row, and at the
tail. -/
theorem htable_foreach_delete_int : ∃ t₀ t t' : Htable IntKey ℕ, ∃ outs visited,
    htableCreate ⟨true, true, true⟩ 8 = some (some t₀) ∧
    runs htStep t₀ ([1, 2, 3, 4, 5].map fun n =>
      .set (intKey n) (some n) (intSetAlloc true true true _) false) = some (outs, t) ∧
    foreachDelete (fun k => k ≠ intKey 2) 6 t t.headIdx = some (visited, t') ∧
    Traversal t' (survivors (fun k => k ≠ intKey 2) t visited) ∧
    htableContents t' = some [(intKey 2, some 2)] := by
  obtain ⟨t₀, hcreate⟩ : ∃ t₀ : Htable IntKey ℕ,
      htableCreate ⟨true, true, true⟩ 8 = some (some t₀) := ⟨_, rfl⟩
  have ht := Option.some.inj (Option.some.inj hcreate)
  have hops : EachStep htStep (fun t op => op.Fits t) t₀ ([1, 2, 3, 4, 5].map fun n =>
      .set (intKey n) (some n) (intSetAlloc true true true _) false) := by
    rw [← ht]
    decide +kernel
  obtain ⟨outs, t, visited, l, hr, -, hcontents, hsweep⟩ :=
    htable_foreach_delete (by decide) hcreate hops
  have hread : (runs htStep t₀ ([1, 2, 3, 4, 5].map fun n =>
      .set (intKey n) (some n) (intSetAlloc true true true _) false)).map
      (fun r => (r.2.count, htableContents r.2))
      = some (5, some ([1, 2, 3, 4, 5].map fun n => (intKey n, some n))) := by
    rw [← ht]
    decide +kernel
  rw [hr, Option.map_some, Option.some_inj] at hread
  obtain ⟨hcount, hl⟩ := Prod.mk.inj hread
  obtain ⟨t', hloop, hcontents', htr, -⟩ := hsweep (fun k => k ≠ intKey 2) 6
    (by rw [show t.count = 5 from hcount]; decide)
  refine ⟨t₀, t, t', outs, visited, hcreate, hr, hloop, htr, ?_⟩
  obtain rfl := Option.some.inj (hcontents.symm.trans hl)
  rw [hcontents']
  decide +kernel

/-- The key with the number `UINT32_MAX - 1` is to be deleted, and it is still there behind
the loop. -/
theorem htable_foreach_delete_at_limit : ∃ t₀ t : Htable IntKey ℕ, ∃ outs visited,
    htableCreate ⟨true, true, true⟩ 16 = some (some t₀) ∧
    runs htStep t₀ ((List.range uint32Max).map fun n =>
      .set (intKey n) (some n) (intSetAlloc true true true _) false)
        = some (outs ++ [.set true true], t) ∧
    htableForeach t (uint32Max + 1) = some visited ∧
    foreachDelete (fun k => k == intKey (uint32Max - 1)) (uint32Max + 1) t t.headIdx
      = some (visited, t) ∧
    survivors (fun k => k == intKey (uint32Max - 1)) t visited ≠ visited := by
  obtain ⟨t₀, hcreate⟩ : ∃ t₀ : Htable IntKey ℕ,
      htableCreate ⟨true, true, true⟩ 16 = some (some t₀) := ⟨_, rfl⟩
  obtain ⟨hmap, hnext⟩ := MapOf.create (by decide) hcreate
  obtain ⟨outs, t, m, cs, c, hr, hlimit, hlast, hc⟩ := runs_atLimit intKey_beq_of_lt
    (fun n => intSetAlloc true true true (intKey n)) (fun n => ⟨rfl, rfl, rfl, rfl⟩) some hmap hnext
  obtain ⟨visited, hforeach, hloop, hstay⟩ := hlimit.foreachDelete hlast hc
  exact ⟨t₀, t, outs, visited, hcreate, hr, hforeach, hloop, hstay⟩

end Freehttpd
