/-
The numbers of the hash table's entries.

An entry is known by a 32-bit number, to the linked list as it is and to the index as the
number plus one; `UINT32_MAX` means the end of the one and `HT_DELETED` in the other, `0`
means `HT_EMPTY`.  Nothing checks that a number is to be had:

* `neededIndex` — the number that a call has to give to a new entry;
* `Htable.Inv.neededIndex_lt` — a set that fits needs one that is free;
* `Htable.Inv.neededIndex_last` — one that does not fit needs the one whose index value is
  `HT_DELETED`, and is not refused;
* `htable_numbers_iff` — so the numbers of a run are sound exactly when its sets fit.
-/
import Freehttpd.HtableFailures

namespace Freehttpd

open Runs OpenAddressing

variable {K D : Type}

section Statement

variable [BEq K] [Hashable K]

/-- The number of the new entry that a call has to create, before it is cut to 32 bits: the
key of a set is not there, and the entry slot is the one taken behind the growth. -/
def neededIndex (t : Htable K D) : HtOp K D → Option ℕ
  | .set key _ al _ => do
    let t ← t.behindGrowth al.calloc al.malloc
    match ← t.setProbe key with
    | .found _ => none
    | .absent _ => (takeSlot al.reallocDeleted t).map Prod.fst
  | _ => none

/-- No number in use collides with a reserved value.  The linked list runs through all the
entries; each has a number below `entry_next_insert`, which has therefore not wrapped, and
the number plus one stands in the index and is neither `HT_EMPTY` nor `HT_DELETED`. -/
def Htable.Numbered (t : Htable K D) : Prop :=
  t.entryNextInsert < 2 ^ 32 ∧ ∃ visited, htableForeach t (t.count + 1) = some visited ∧
    visited.length = t.count ∧ visited.Nodup ∧ ∀ i ∈ visited,
      i < t.entryNextInsert ∧ i ≠ uint32Max ∧
      (∃ s < t.indexCapacity, t.indexList.read s = some (i + 1)) ∧
      i + 1 ≠ htEmpty ∧ i + 1 ≠ htDeleted

/-- The call leaves a table whose numbers are sound, and is refused if it needs a number that
is not to be had: then it returns `false` and the contents are as before. -/
def HtOp.KeepsNumbers (t : Htable K D) (op : HtOp K D) : Prop :=
  ∃ out t', htStep t op = some (out, t') ∧ t'.Numbered ∧
    ∀ idx, neededIndex t op = some idx → uint32Max ≤ idx + 1 →
      out.Failed ∧ htableContents t' = htableContents t

end Statement

section Numbers

variable [BEq K] [Hashable K] {t : Htable K D} {cs : List (LiveEntry K D)} {ds : List ℕ}

theorem Htable.Inv.numbered (h : t.Inv cs ds) : t.Numbered := by
  have hnext := h.nextInsert_lt
  rw [uint32Max] at hnext
  have hlen : (cs.map LiveEntry.idx).length = t.count := by
    rw [List.length_map, h.count_eq]
  refine ⟨by omega, _, h.links.walk_eq (by omega), hlen, h.links.nodup, fun i hi => ?_⟩
  obtain ⟨s, hs, hread, hdel⟩ := (h.live_iff i).mpr hi
  exact ⟨h.lt_nextInsert (List.mem_append_left _ hi), fun he => h.links.nil_notMem (he ▸ hi),
    ⟨s, hs, hread⟩, Nat.succ_ne_zero i, hdel⟩

variable [EquivBEq K] [LawfulHashable K] {key : K} {data : Option D} {al : SetAlloc K key}
  {flagCreated : Bool}

/-- A set that does not fit is one of an absent key, in a table with `UINT32_MAX - 1` keys. -/
theorem Htable.Inv.of_not_fits (h : t.Inv cs ds)
    (hfits : ¬ (HtOp.set key data al flagCreated).Fits t) :
    (∀ c ∈ cs, (c.key == key) = false) ∧ cs.length = uint32Max - 1 ∧
      t.entryNextInsert = uint32Max - 1 := by
  rw [HtOp.Fits, not_or] at hfits
  have hadd := h.length_add
  have hcount := h.count_eq
  have hnext := h.nextInsert_lt
  refine ⟨?_, by omega, by omega⟩
  rcases exists_mem_or_forall_ne cs key with ⟨c, hc, hk⟩ | hk
  · exact absurd (h.has_of_mem hc hk) hfits.1
  · exact hk

/-- Behind the growth a set needs a number exactly if its key is not there. -/
theorem Htable.Inv.neededIndex_eq (h : t.Inv cs ds) (hal : al.Succeed) (data : Option D)
    (flagCreated : Bool) :
    ∃ t₁ cs₁ ds₁, t.behindGrowth al.calloc al.malloc = some t₁ ∧ t₁.Inv cs₁ ds₁ ∧
      t₁.entryNextInsert < t₁.entryCapacity ∧ cs₁.length < t₁.indexCapacity ∧
      (cs₁.map LiveEntry.pair).Perm (cs.map LiveEntry.pair) ∧
      ((∃ c ∈ cs, (c.key == key) = true) ∧
          neededIndex t (.set key data al flagCreated) = none ∨
        (∀ c ∈ cs, (c.key == key) = false) ∧
          neededIndex t (.set key data al flagCreated) = (takeSlot true t₁).map Prod.fst) := by
  obtain ⟨hcalloc, hmalloc, -, hrealloc⟩ := hal
  obtain ⟨t₁, cs₁, ds₁, hgrown, hinv₁, hperm, hlt, hlen, -⟩ := h.behindGrowth_eq
  rw [hcalloc, hmalloc]
  refine ⟨t₁, cs₁, ds₁, hgrown, hinv₁, hlt, hlen, hperm, ?_⟩
  have hneeded : neededIndex t (.set key data al flagCreated) = (t₁.setProbe key).bind fun p =>
      match p with
      | .found _ => none
      | .absent _ => (takeSlot true t₁).map Prod.fst := by
    rw [neededIndex, hcalloc, hmalloc, hrealloc, hgrown]
    rfl
  rcases exists_mem_or_forall_ne cs₁ key with ⟨c₁, hc₁, hk⟩ | hk
  · obtain ⟨c, hc, he⟩ := List.mem_map.mp (hperm.mem_iff.mp (List.mem_map_of_mem hc₁))
    have hkey : c.key = c₁.key := congrArg Prod.fst he
    refine .inl ⟨⟨c, hc, hkey ▸ hk⟩, ?_⟩
    rw [hneeded, Htable.setProbe, hinv₁.setProbe_of_mem hc₁ hk]
    rfl
  · refine .inr ⟨forall_ne_of_perm hperm.symm hk, ?_⟩
    obtain ⟨j, -, hprobe, -⟩ := hinv₁.setProbe_of_forall_ne hk hlen
    rw [hneeded, Htable.setProbe, hprobe]
    rfl

omit [EquivBEq K] [LawfulHashable K] in
/-- The growth does not change the number of keys. -/
theorem Htable.Inv.count_eq_of_perm {t₁ : Htable K D} {cs₁ : List (LiveEntry K D)} {ds₁ : List ℕ}
    (h : t.Inv cs ds) (h₁ : t₁.Inv cs₁ ds₁)
    (hperm : (cs₁.map LiveEntry.pair).Perm (cs.map LiveEntry.pair)) : t₁.count = t.count := by
  have hlen := hperm.length_eq
  rw [List.length_map, List.length_map] at hlen
  rw [h.count_eq, h₁.count_eq, hlen]

/-- A set that fits needs a number that is to be had. -/
theorem Htable.Inv.neededIndex_lt (h : t.Inv cs ds) (hal : al.Succeed)
    (hfits : (HtOp.set key data al flagCreated).Fits t) {idx : ℕ}
    (hidx : neededIndex t (.set key data al flagCreated) = some idx) : idx + 1 < uint32Max := by
  obtain ⟨t₁, cs₁, ds₁, -, hinv₁, hlt, -, hperm, ⟨-, hnone⟩ | ⟨hk, hneeded⟩⟩ :=
    h.neededIndex_eq hal data flagCreated
  · rw [hnone] at hidx
    cases hidx
  · have hmax := h.count_lt_of_fits hfits hk
    rw [← h.count_eq_of_perm hinv₁ hperm] at hmax
    obtain ⟨idx', next, dcap, dlist, ds', htake, -, -, hlast, -⟩ :=
      hinv₁.takeSlot_eq true hlt hmax
    rw [hneeded, htake, Option.map_some, Option.some_inj] at hidx
    exact hidx ▸ hlast

/-- A set that does not fit needs the number whose index value is `HT_DELETED`, and returns
`true` all the same. -/
theorem Htable.Inv.neededIndex_last (h : t.Inv cs ds) (hal : al.Succeed)
    (hfits : ¬ (HtOp.set key data al flagCreated).Fits t) :
    neededIndex t (.set key data al flagCreated) = some (uint32Max - 1) ∧
      ∀ out t', htStep t (.set key data al flagCreated) = some (out, t') → ¬ out.Failed := by
  obtain ⟨hk, hlen, -⟩ := h.of_not_fits hfits
  obtain ⟨t₁, cs₁, ds₁, hgrown, hinv₁, hlt, hlen₁, hperm, ⟨⟨c, hc, hck⟩, -⟩ | ⟨-, hneeded⟩⟩ :=
    h.neededIndex_eq hal data flagCreated
  · rw [hk c hc] at hck
    exact absurd hck Bool.false_ne_true
  · -- All the numbers below are in use, so there is nothing to recycle.
    have hcount := h.count_eq_of_perm hinv₁ hperm
    rw [h.count_eq, hinv₁.count_eq, hlen] at hcount
    have hadd := hinv₁.length_add
    have hnext := hinv₁.nextInsert_lt
    have hdc : t₁.deletedCount = 0 := by
      rw [hinv₁.deletedCount_eq]
      omega
    constructor
    · rw [hneeded, takeSlot, if_neg (not_not.mpr hdc), Option.map_some]
      exact congrArg some (by omega)
    · intro out t' hstep hfail
      obtain ⟨r, hr, hstep⟩ := Option.bind_eq_some_iff.mp hstep
      obtain ⟨rfl, -⟩ := Prod.mk.inj (Option.some.inj hstep)
      rw [htableSetWithFlag_of_behindGrowth hgrown] at hr
      obtain ⟨s, hs, hprobe⟩ := hinv₁.findsSlot (forall_ne_of_perm hperm hk) hlen₁
      have hcap := hinv₁.cap_le
      have hret := htableInsert_ret hprobe (by rw [uint64Max]; omega) hal.2.2.1 hr
      exact Bool.false_ne_true ((show r.ret = false from hfail).symm.trans hret)

/-- A call keeps the numbers sound exactly if it fits. -/
theorem Htable.Inv.keepsNumbers_iff (h : t.Inv cs ds) {op : HtOp K D} (hop : op.Succeed) :
    op.KeepsNumbers t ↔ op.Fits t := by
  constructor
  · rintro ⟨out, t', hstep, -, hrefused⟩
    by_contra hfits
    cases op with
    | set key data al flagCreated =>
      obtain ⟨hneeded, hret⟩ := h.neededIndex_last hop hfits
      exact hret out t' hstep (hrefused _ hneeded (by decide)).1
    | _ => exact hfits trivial
  · intro hfits
    obtain ⟨out, t', cs', ds', l, hstep, hinv', -⟩ := htStep_eq h hfits
    refine ⟨out, t', hstep, hinv'.numbered, fun idx hidx hge => ?_⟩
    cases op with
    | set key data al flagCreated =>
      have hlt := h.neededIndex_lt hop hfits hidx
      omega
    | _ => cases hidx

/-- In a run whose allocations succeed no number collides with a reserved value, and no set
takes one that does, if and only if every set of an absent key finds less than
`UINT32_MAX - 1` keys. -/
theorem htable_numbers_iff {al : CreateAlloc} {initialCap : ℕ} {t₀ : Htable K D}
    (hcap : initialCap ≤ 2 ^ 62) (hcreate : htableCreate al initialCap = some (some t₀))
    {ops : List (HtOp K D)} (hops : ∀ op ∈ ops, op.Succeed) :
    (t₀.Numbered ∧ EachStep htStep (fun t op => op.KeepsNumbers t) t₀ ops) ↔
      EachStep htStep (fun t op => op.Fits t) t₀ ops := by
  obtain ⟨⟨cs, ds, hinv, -⟩, -⟩ := MapOf.create hcap hcreate
  rw [and_iff_right hinv.numbered]
  refine eachStep_iff (I := fun t => ∃ cs ds, Htable.Inv t cs ds) (Q := HtOp.Succeed) ?_ ?_
    ⟨cs, ds, hinv⟩ hops
  · rintro t op ⟨cs, ds, h⟩ - hfits
    obtain ⟨out, t', cs', ds', l, hstep, hinv', -⟩ := htStep_eq h hfits
    exact ⟨out, t', hstep, cs', ds', hinv'⟩
  · rintro t op ⟨cs, ds, h⟩ hop
    exact h.keepsNumbers_iff hop

end Numbers

/-- Three keys and a deletion, after which the third set takes a number again. -/
theorem htable_numbers_int : ∃ t₀ : Htable IntKey ℕ,
    htableCreate ⟨true, true, true⟩ 4 = some (some t₀) ∧
    t₀.Numbered ∧ EachStep htStep (fun t op => op.KeepsNumbers t) t₀
      [.set (intKey 1) (some 10) (intSetAlloc true true true _) false,
        .set (intKey 2) (some 20) (intSetAlloc true true true _) false,
        .delete (intKey 1) true,
        .set (intKey 3) (some 30) (intSetAlloc true true true _) false] := by
  obtain ⟨t₀, hcreate⟩ : ∃ t₀ : Htable IntKey ℕ,
      htableCreate ⟨true, true, true⟩ 4 = some (some t₀) := ⟨_, rfl⟩
  have ht := Option.some.inj (Option.some.inj hcreate)
  refine ⟨t₀, hcreate, (htable_numbers_iff (by decide) hcreate (by decide)).mpr ?_⟩
  rw [← ht]
  decide +kernel

/-- `UINT32_MAX - 1` keys are in the table.  The next one needs the number `UINT32_MAX - 1`,
whose index value is `HT_DELETED`, and its set returns `true`. -/
theorem htable_numbers_collide : ∃ t₀ t t' : Htable IntKey ℕ, ∃ n outs,
    uint32Max = n + 1 ∧ htableCreate ⟨true, true, true⟩ 16 = some (some t₀) ∧
    runs htStep t₀ ((List.range n).map fun i =>
      .set (intKey i) (some i) (intSetAlloc true true true _) false) = some (outs, t) ∧
    htStep t (.set (intKey n) (some n) (intSetAlloc true true true _) false)
      = some (.set true true, t') ∧
    neededIndex t (.set (intKey n) (some n) (intSetAlloc true true true _) false) = some n ∧
    n + 1 = htDeleted ∧
    ¬ (HtOp.set (intKey n) (some n) (intSetAlloc true true true _) false).KeepsNumbers t := by
  obtain ⟨t₀, hcreate⟩ : ∃ t₀ : Htable IntKey ℕ,
      htableCreate ⟨true, true, true⟩ 16 = some (some t₀) := ⟨_, rfl⟩
  obtain ⟨hmap, hnext⟩ := MapOf.create (by decide) hcreate
  obtain ⟨n, hn⟩ : ∃ n, uint32Max = n + 1 := ⟨uint32Max - 1, by decide⟩
  obtain ⟨outs, t, cs, ds, hr, hinv, hlen, hnextLe, hnew⟩ := runs_full intKey_beq_of_lt
    (fun n => intSetAlloc true true true (intKey n)) (fun n => ⟨rfl, rfl, rfl, rfl⟩) some hmap hnext
    hn
  have hfits : ¬ (HtOp.set (intKey n) (some n) (intSetAlloc true true true _) false).Fits t := by
    rintro (hhas | hlt)
    · rw [hinv.has_of_forall_ne hnew] at hhas
      cases hhas
    · rw [hinv.count_eq] at hlt
      omega
  have hal : (intSetAlloc true true true (intKey n)).Succeed := ⟨rfl, rfl, rfl, rfl⟩
  have hop : (HtOp.set (intKey n) (some n) (intSetAlloc true true true _) false).Succeed := hal
  obtain ⟨hneeded, hret⟩ := hinv.neededIndex_last hal hfits
  obtain ⟨t', m, idx, hset, -⟩ := hinv.set_last (d := some n) (by omega) (by omega) hnew
    hal.2.2.1
  have hstep : htStep t (.set (intKey n) (some n) (intSetAlloc true true true _) false)
      = some (.set true true, t') := by
    rw [htStep, hset]
    rfl
  refine ⟨t₀, t, t', n, outs, hn, hcreate, hr, hstep, ?_, hn.symm, fun hkeeps => ?_⟩
  · rw [hneeded]
    exact congrArg some (by omega)
  · exact hfits ((hinv.keepsNumbers_iff hop).mp hkeeps)

end Freehttpd
