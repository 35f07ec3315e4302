/-
Finite maps as association lists, with keys compared by `==`.

The order of the list is the order in which the keys were first added, so the
same value serves as a map and as the order of a traversal:

* `Assoc.get_eq_some_iff` — lookup finds exactly the pairs of a list whose keys
  are distinct;
* `Assoc.get_set`, `Assoc.get_del` — the laws of a finite map;
* `Assoc.Distinct.set`, `Assoc.Distinct.del` — the operations keep the keys
  distinct;
* `Assoc.get_perm`, `Assoc.set_perm`, `Assoc.del_perm` — they do not depend on
  the order.
-/
import Mathlib.Data.List.Basic
import Mathlib.Data.List.Pairwise
import Mathlib.Data.List.Perm.Basic
import Mathlib.Tactic.Common

namespace Assoc

variable {K V : Type*} [BEq K]

/-- The value of the first pair whose key matches. -/
def get (l : List (K × V)) (k : K) : Option V := (l.find? fun p => p.1 == k).map Prod.snd

/-- Overwrite the value of a present key in place, append an absent one. -/
def set (l : List (K × V)) (k : K) (v : V) : List (K × V) :=
  if l.any fun p => p.1 == k then l.map fun p => if p.1 == k then (p.1, v) else p
  else l ++ [(k, v)]

/-- Drop the pairs whose key matches. -/
def del (l : List (K × V)) (k : K) : List (K × V) := l.filter fun p => !(p.1 == k)

/-- No two pairs have matching keys. -/
def Distinct (l : List (K × V)) : Prop := l.Pairwise fun p q => (p.1 == q.1) = false

/-- Only the keys matter. -/
theorem distinct_iff {l : List (K × V)} :
    Distinct l ↔ (l.map Prod.fst).Pairwise fun k k' => (k == k') = false := by
  rw [Distinct, List.pairwise_map]

theorem get_eq_none_iff {l : List (K × V)} {k : K} :
    get l k = none ↔ ∀ p ∈ l, (p.1 == k) = false := by
  simp [get]

theorem any_iff_get_isSome {l : List (K × V)} {k : K} :
    (l.any fun p => p.1 == k) = (get l k).isSome := by
  rw [Bool.eq_iff_iff, Option.isSome_iff_ne_none, Ne, get_eq_none_iff, List.any_eq_true]
  simp

theorem set_of_absent {l : List (K × V)} {k : K} (h : get l k = none) (v : V) :
    set l k v = l ++ [(k, v)] := by
  rw [set, any_iff_get_isSome, h]
  rfl

/-- Deleting a key that was just added. -/
theorem del_append_of_absent [ReflBEq K] {l : List (K × V)} {k : K} (h : get l k = none) (v : V) :
    del (l ++ [(k, v)]) k = l := by
  have hl : l.filter (fun p => !(p.1 == k)) = l :=
    List.filter_eq_self.mpr fun p hp => by rw [get_eq_none_iff.mp h p hp]; rfl
  rw [del, List.filter_append, hl, List.filter_singleton, beq_self_eq_true]
  exact List.append_nil l

theorem set_perm {l l' : List (K × V)} (hp : l.Perm l') (k : K) (v : V) :
    (set l k v).Perm (set l' k v) := by
  rw [set, set, hp.any_eq]
  split
  · exact hp.map _
  · exact hp.append_right _

theorem del_perm {l l' : List (K × V)} (hp : l.Perm l') (k : K) : (del l k).Perm (del l' k) :=
  hp.filter _

theorem Distinct.set {l : List (K × V)} (h : Distinct l) (k : K) (v : V) :
    Distinct (set l k v) := by
  rw [Assoc.set]
  split
  · refine List.pairwise_map.mpr (h.imp fun {p q} hpq => ?_)
    split <;> split <;> exact hpq
  · rename_i hk
    refine List.pairwise_append.mpr ⟨h, List.pairwise_singleton _ _, fun p hp q hq => ?_⟩
    rw [List.mem_singleton.mp hq]
    simpa using fun hpk => hk (List.any_eq_true.mpr ⟨p, hp, hpk⟩)

theorem Distinct.del {l : List (K × V)} (h : Distinct l) (k : K) : Distinct (del l k) :=
  h.filter _

/-- If the pairs can be numbered below `N` so that pairs with the same number have
matching keys, there are at most `N` of them. -/
theorem Distinct.length_le {l : List (K × V)} (h : Distinct l) {N : ℕ} {R : K × V → ℕ → Prop}
    (htotal : ∀ p ∈ l, ∃ n < N, R p n) (hinj : ∀ p ∈ l, ∀ p' ∈ l, ∀ n, R p n → R p' n →
      (p.1 == p'.1) = true) : l.length ≤ N := by
  choose! f hf using htotal
  have hnd : (l.map f).Nodup := by
    refine List.pairwise_map.mpr (h.imp_of_mem fun {p p'} hp hp' hne he => ?_)
    rw [hinj p hp p' hp' _ (hf p hp).2 (he ▸ (hf p' hp').2)] at hne
    exact Bool.noConfusion hne
  have hsub : l.map f ⊆ List.range N := fun n hn => by
    obtain ⟨p, hp, rfl⟩ := List.mem_map.mp hn
    exact List.mem_range.mpr (hf p hp).1
  have hlen := (List.subperm_of_subset hnd hsub).length_le
  rwa [List.length_map, List.length_range] at hlen

/-- Overwriting leaves the keys as they are. -/
theorem map_fst_set (l : List (K × V)) (k : K) (v : V) :
    (set l k v).map Prod.fst
      = if (get l k).isSome then l.map Prod.fst else l.map Prod.fst ++ [k] := by
  rw [set, any_iff_get_isSome]
  split
  · rw [List.map_map]
    refine List.map_congr_left fun p _ => ?_
    rw [Function.comp_apply]
    split <;> rfl
  · rw [List.map_append]
    rfl

theorem length_set (l : List (K × V)) (k : K) (v : V) :
    (set l k v).length = if (get l k).isSome then l.length else l.length + 1 := by
  rw [set, any_iff_get_isSome]
  split <;> simp

variable [EquivBEq K]

theorem Distinct.eq_of_beq {l : List (K × V)} (h : Distinct l) {p q : K × V} (hp : p ∈ l)
    (hq : q ∈ l) (hpq : p.1 == q.1) : p = q := by
  by_contra hne
  have hsymm : Std.Symm fun a b : K × V => (a.1 == b.1) = false :=
    ⟨fun a b hab => by rw [BEq.comm, hab]⟩
  have hfalse : (p.1 == q.1) = false := List.Pairwise.forall h hp hq hne
  rw [hpq] at hfalse
  exact absurd hfalse (by simp)

theorem get_eq_some_iff {l : List (K × V)} (h : Distinct l) {k : K} {v : V} :
    get l k = some v ↔ ∃ p ∈ l, (p.1 == k) = true ∧ p.2 = v := by
  rw [get, Option.map_eq_some_iff]
  constructor
  · rintro ⟨p, hp, rfl⟩
    exact ⟨p, List.mem_of_find?_eq_some hp,
      List.find?_some (p := fun p : K × V => p.1 == k) hp, rfl⟩
  · rintro ⟨p, hp, hk, rfl⟩
    cases hf : l.find? fun p => p.1 == k with
    | none => exact absurd hk (by simpa using List.find?_eq_none.mp hf p hp)
    | some q =>
      have hqk : q.1 == k := List.find?_some (p := fun p : K × V => p.1 == k) hf
      have hqp : q = p := h.eq_of_beq (List.mem_of_find?_eq_some hf) hp
        (PartialEquivBEq.trans hqk (BEq.symm hk))
      exact ⟨q, rfl, by rw [hqp]⟩

theorem get_congr {l : List (K × V)} {k k' : K} (h : k == k') : get l k = get l k' := by
  rw [get, get]
  congr 2
  exact funext fun p => BEq.congr_right h

theorem Distinct.perm {l l' : List (K × V)} (h : Distinct l) (hp : l.Perm l') : Distinct l' :=
  (hp.pairwise_iff fun hab => by rw [BEq.comm, hab]).mp h

theorem get_perm {l l' : List (K × V)} (h : Distinct l) (hp : l.Perm l') (k : K) :
    get l k = get l' k := by
  refine Option.ext fun v => ?_
  rw [get_eq_some_iff h, get_eq_some_iff (h.perm hp)]
  simp only [hp.mem_iff]

theorem get_map_overwrite (l : List (K × V)) (k k' : K) (v : V) :
    get (l.map fun p => if p.1 == k then (p.1, v) else p) k'
      = if k == k' then (get l k').map fun _ => v else get l k' := by
  induction l with
  | nil => simp [get]
  | cons p l ih =>
    have hkey : (if p.1 == k then (p.1, v) else p).1 = p.1 := by split <;> rfl
    rw [get] at ih ⊢
    rw [List.map_cons, List.find?_cons, hkey, get, List.find?_cons]
    by_cases hp : p.1 == k'
    · by_cases hk : p.1 == k
      · simp [hp, hk, PartialEquivBEq.trans (BEq.symm hk) hp]
      · have hkk : (k == k') = false := by
          simpa using fun hkk => hk (PartialEquivBEq.trans hp (BEq.symm hkk))
        simp [hp, hk, hkk]
    · simpa [hp, get] using ih

theorem get_set (l : List (K × V)) (k k' : K) (v : V) :
    get (set l k v) k' = if k == k' then some v else get l k' := by
  rw [set]
  split
  · rename_i hk
    rw [get_map_overwrite]
    split
    · rename_i hkk
      rw [any_iff_get_isSome, get_congr hkk] at hk
      obtain ⟨w, hw⟩ := Option.isSome_iff_exists.mp hk
      rw [hw]
      rfl
    · rfl
  · rename_i hk
    rw [any_iff_get_isSome, Option.not_isSome_iff_eq_none] at hk
    rw [get, List.find?_append]
    split
    · rename_i hkk
      rw [get_congr hkk, get, Option.map_eq_none_iff] at hk
      simp [hk, hkk]
    · rename_i hkk
      simp [hkk, get]

theorem get_del (l : List (K × V)) (k k' : K) :
    get (del l k) k' = if k == k' then none else get l k' := by
  split
  · rename_i hkk
    rw [get_eq_none_iff]
    intro p hp
    have := (List.mem_filter.mp hp).2
    rw [← BEq.congr_right hkk]
    simpa using this
  · rename_i hkk
    have hne : ∀ p : K × V, p.1 == k' → (p.1 == k) = false := fun p hp => by
      simpa using fun hk => hkk (PartialEquivBEq.trans (BEq.symm hk) hp)
    rw [get, get, del]
    induction l with
    | nil => rfl
    | cons p l ih =>
      by_cases hp : p.1 == k'
      · simp [hp, hne p hp]
      · by_cases hk : p.1 == k
        · simpa [hp, hk] using ih
        · simpa [hp, hk] using ih

theorem Distinct.length_del {l : List (K × V)} (h : Distinct l) (k : K) :
    (Assoc.del l k).length = if (Assoc.get l k).isSome then l.length - 1 else l.length := by
  induction l with
  | nil => rfl
  | cons p l ih =>
    obtain ⟨hp, hl⟩ := List.pairwise_cons.mp h
    rw [Assoc.del] at ih ⊢
    rw [Assoc.get, List.find?_cons, List.filter_cons]
    by_cases hk : (p.1 == k) = true
    · -- No later key matches, so the filter keeps the rest.
      have hrest : l.filter (fun q => !(q.1 == k)) = l := by
        refine List.filter_eq_self.mpr fun q hq => ?_
        rw [← BEq.congr_right hk, BEq.comm, hp q hq]
        rfl
      simp [hk, hrest]
    · have ih := ih hl
      rw [Assoc.get] at ih
      simp only [Bool.not_eq_true] at hk
      simp only [hk, Bool.not_false, if_pos, List.length_cons, ih]
      split
      · rename_i hs
        have : 0 < l.length := by
          cases l with
          | nil => simp at hs
          | cons => simp
        omega
      · rfl

omit [EquivBEq K] in
/-- A pair that is found stands somewhere. -/
theorem exists_getElem_of_get [LawfulBEq K] {l : List (K × V)} {k : K} {v : V}
    (h : get l k = some v) : ∃ i : ℕ, l[i]? = some (k, v) := by
  obtain ⟨p, hp, rfl⟩ := Option.map_eq_some_iff.mp h
  have hk : p.1 = k := eq_of_beq (List.find?_some (p := fun p : K × V => p.1 == k) hp)
  obtain ⟨i, hi⟩ := List.getElem?_of_mem (List.mem_of_find?_eq_some hp)
  exact ⟨i, by rw [hi, ← hk]⟩

omit [EquivBEq K] in
/-- Overwriting a pair changes nothing else. -/
theorem Distinct.getElem_set [LawfulBEq K] {l : List (K × V)} (h : Distinct l) {i : ℕ} {k : K}
    {v : V} (hi : l[i]? = some (k, v)) (w : V) (j : ℕ) :
    (Assoc.set l k w)[j]? = if j = i then some (k, w) else l[j]? := by
  have hget : Assoc.get l k = some v :=
    (get_eq_some_iff h).mpr ⟨(k, v), List.mem_of_getElem? hi, beq_self_eq_true k, rfl⟩
  rw [Assoc.set, any_iff_get_isSome, hget, Option.isSome_some, if_pos rfl, List.getElem?_map]
  rcases eq_or_ne j i with rfl | hne
  · rw [hi, if_pos rfl, Option.map_some, if_pos (beq_self_eq_true k)]
  · rw [if_neg hne]
    cases hj : l[j]? with
    | none => rfl
    | some p =>
      -- The keys of two places differ.
      have hpk : (p.1 == k) = false := by
        obtain ⟨hjl, rfl⟩ := List.getElem?_eq_some_iff.mp hj
        obtain ⟨hil, he⟩ := List.getElem?_eq_some_iff.mp hi
        have hpair := List.pairwise_iff_getElem.mp h
        rcases Nat.lt_or_gt_of_ne hne with hlt | hlt
        · have := hpair j i hjl hil hlt
          rwa [he] at this
        · have := hpair i j hil hjl hlt
          rwa [he, BEq.comm] at this
      rw [Option.map_some, hpk, if_neg Bool.false_ne_true]

end Assoc
