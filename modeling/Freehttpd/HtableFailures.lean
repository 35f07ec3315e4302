/-
What a call of the hash table leaves behind when it fails, and what it writes to the
caller's flag.

* `Htable.Inv.unharmed` — a call that reports a failure has changed neither the contents
  nor the count, at most the memory they are in;
* `htableSetWithFlag_shrink` — the realloc that shrinks the deleted list has no say in the
  outcome of a set;
* `htable_failures_harmless` — both, for every table reached by calls that fit;
* `Htable.Inv.flag_exact_iff`, `htable_flags_exact` — the flag tells the truth on every
  exit but one, that of `HT_KEY_DUP_CHECK`, which does not write it.
-/
import Freehttpd.HtableLimit
import Freehttpd.HtableSafety

namespace Freehttpd

open Runs OpenAddressing

variable {K D : Type}

/-! ### Failed calls -/

/-- A set that returns `false`, or a deletion that reports no removal. -/
def HtOut.Failed : HtOut D → Prop
  | .set ret _ => ret = false
  | .delete _ flag => flag = false
  | _ => False

instance : ∀ out : HtOut D, Decidable out.Failed
  | .set ret _ => inferInstanceAs (Decidable (ret = false))
  | .delete _ flag => inferInstanceAs (Decidable (flag = false))
  | .get _ _ => .isFalse id
  | .has _ => .isFalse id
  | .count _ => .isFalse id

/-- `t'` is as good as `t` was: the same contents and count, and the invariant that every
later call relies on. -/
structure Unharmed [BEq K] [Hashable K] (t t' : Htable K D) : Prop where
  count_eq : htableCount t' = htableCount t
  get_eq : ∀ key, htableGetWithFlag t' key = htableGetWithFlag t key
  contents : ∃ l l', htableContents t = some l ∧ htableContents t' = some l' ∧ l'.Perm l
  inv : ∃ cs ds, t'.Inv cs ds

section Failed

variable [BEq K] [Hashable K] {t : Htable K D} {cs : List (LiveEntry K D)} {ds : List ℕ}

/-- Behind the probe only a missing copy makes an insertion fail. -/
theorem htableInsert_ret {key : K} {data : Option D} {al : SetAlloc K key} {flagCreated : Bool}
    {s : ℕ} {r : SetResult K D} (hprobe : t.setProbe key = some (.absent s))
    (hs : s ≠ uint64Max) (hdup : al.dupKey.isSome)
    (hr : htableInsert t key data al flagCreated = some r) : r.ret = true := by
  obtain ⟨-, p, hp, hr⟩ := htableInsert_outcome hr
  obtain rfl := Option.some.inj (hprobe.symm.trans hp)
  cases hr with
  | full => exact absurd rfl hs
  | uncopied _ hnone =>
    rw [hnone] at hdup
    cases hdup
  | inserted => rfl

variable [EquivBEq K] [LawfulHashable K]

/-- A table with the same contents, up to their order, is as good. -/
theorem Htable.Inv.unharmed_of_perm (h : t.Inv cs ds) {t' : Htable K D}
    {cs' : List (LiveEntry K D)} {ds' : List ℕ} (h' : t'.Inv cs' ds')
    (hperm : (cs'.map LiveEntry.pair).Perm (cs.map LiveEntry.pair)) : Unharmed t t' where
  count_eq := by
    have hlen := hperm.length_eq
    rw [List.length_map, List.length_map] at hlen
    rw [htableCount, htableCount, h.count_eq, h'.count_eq, hlen]
  get_eq key := by
    rw [h.htableGetWithFlag_eq, h'.htableGetWithFlag_eq, Assoc.get_perm h'.distinct hperm]
  contents := ⟨_, _, h.htableContents_eq, h'.htableContents_eq, hperm⟩
  inv := ⟨cs', ds', h'⟩

/-- A failed call has changed nothing that counts, also if it is one for which there would
be no entry slot left. -/
theorem Htable.Inv.unharmed (h : t.Inv cs ds) {op : HtOp K D} {out : HtOut D} {t' : Htable K D}
    (hstep : htStep t op = some (out, t')) (hfail : out.Failed) : Unharmed t t' := by
  have hsame : Unharmed t t := h.unharmed_of_perm h (List.Perm.refl _)
  cases op with
  | set key data al flagCreated =>
    obtain ⟨r, hr, hstep⟩ := Option.bind_eq_some_iff.mp hstep
    obtain ⟨rfl, rfl⟩ := Prod.mk.inj (Option.some.inj hstep)
    have hret : r.ret = false := hfail
    rcases htableSetWithFlag_cases h key data al flagCreated with
      ⟨-, -, hset⟩ | ⟨-, t₁, cs₁, ds₁, hinv₁, hperm, hlt, hlen, -, -, -, hset⟩
    · -- The table could not grow, and is the one it was.
      rw [hset, Option.some_inj] at hr
      rw [← hr]
      exact hsame
    · rw [hset] at hr
      -- A present key is overwritten, which does not fail.
      rcases exists_mem_or_forall_ne cs₁ key with ⟨c, hc, hk⟩ | hk
      · obtain ⟨t₂, ht₂, -⟩ := htableInsert_of_mem hinv₁ hlt hc hk data al flagCreated
        rw [ht₂, Option.some_inj] at hr
        rw [← hr] at hret
        exact absurd hret (by simp)
      · cases hdup : al.dupKey with
        | none =>
          rw [htableInsert_of_dup_none hinv₁ hlt hk hlen data hdup, Option.some_inj] at hr
          rw [← hr]
          exact h.unharmed_of_perm hinv₁ hperm
        | some dupKey =>
          -- With a copy of the key the insertion succeeds.
          obtain ⟨s, hs, hprobe⟩ := hinv₁.findsSlot hk hlen
          have hcap := hinv₁.cap_le
          have htrue := htableInsert_ret hprobe (by rw [uint64Max]; omega)
            (by rw [hdup]; rfl) hr
          exact absurd (htrue.symm.trans hret) (by simp)
  | delete key reallocDeleted =>
    obtain ⟨r, hr, hstep⟩ := Option.bind_eq_some_iff.mp hstep
    obtain ⟨rfl, rfl⟩ := Prod.mk.inj (Option.some.inj hstep)
    have hflag : r.flag = false := hfail
    rcases exists_mem_or_forall_ne cs key with ⟨c, hc, hk⟩ | hk
    · obtain ⟨cs₁, cs₂, rfl⟩ := List.append_of_mem hc
      rcases htableDelete_of_mem h hk reallocDeleted with ⟨hd, -⟩ | ⟨-, t₁, hd, -⟩
      · rw [hd, Option.some_inj] at hr
        rw [← hr]
        exact hsame
      · rw [hd, Option.some_inj] at hr
        rw [← hr] at hflag
        exact absurd hflag (by simp)
    · rw [htableDelete_of_forall_ne h hk, Option.some_inj] at hr
      rw [← hr]
      exact hsame
  | get key =>
    obtain ⟨r, -, hstep⟩ := Option.bind_eq_some_iff.mp hstep
    obtain ⟨rfl, -⟩ := Prod.mk.inj (Option.some.inj hstep)
    exact hfail.elim
  | has key =>
    obtain ⟨r, -, hstep⟩ := Option.bind_eq_some_iff.mp hstep
    obtain ⟨rfl, -⟩ := Prod.mk.inj (Option.some.inj hstep)
    exact hfail.elim
  | count =>
    obtain ⟨rfl, -⟩ := Prod.mk.inj (Option.some.inj hstep)
    exact hfail.elim

end Failed

/-! ### The shrinking of the deleted list -/

/-- The tables differ in the memory of the deleted list only. -/
def Htable.SameButDeleted (t t' : Htable K D) : Prop :=
  ∃ deletedIndexList deletedCapacity, t' =
    { t with deletedIndexList := deletedIndexList, deletedCapacity := deletedCapacity }

/-- Whether the list shrinks makes no difference to the slot. -/
theorem takeSlot_shrink {t t₁ : Htable K D} {b : Bool} {idx : ℕ}
    (h : takeSlot b t = some (idx, t₁)) (b' : Bool) :
    ∃ t₂, takeSlot b' t = some (idx, t₂) ∧ t₁.SameButDeleted t₂ := by
  rw [takeSlot] at h ⊢
  split at h
  · rename_i hdc
    rw [if_pos hdc]
    obtain ⟨i, hread, h⟩ := Option.bind_eq_some_iff.mp h
    simp only [hread, Option.bind_eq_bind, Option.bind_some]
    have hidx : i = idx ∧ ∃ dlist dcap, t₁ =
        { t with
          deletedCount := t.deletedCount - 1
          deletedIndexList := dlist
          deletedCapacity := dcap } := by
      split at h
      · obtain ⟨hi, ht₁⟩ := Prod.mk.inj (Option.some.inj h)
        exact ⟨hi, _, _, ht₁.symm⟩
      · obtain ⟨hi, ht₁⟩ := Prod.mk.inj (Option.some.inj h)
        exact ⟨hi, _, _, ht₁.symm⟩
    obtain ⟨rfl, dlist, dcap, rfl⟩ := hidx
    split
    · exact ⟨_, rfl, _, _, rfl⟩
    · exact ⟨_, rfl, _, _, rfl⟩
  · rename_i hdc
    rw [if_neg hdc]
    obtain ⟨rfl, rfl⟩ := Prod.mk.inj (Option.some.inj h)
    exact ⟨_, rfl, _, _, rfl⟩

section Shrink

variable [BEq K] [Hashable K] {t : Htable K D} {key : K} {data : Option D} {al : SetAlloc K key}
  {flagCreated : Bool} {r : SetResult K D}

theorem htableInsert_shrink (hr : htableInsert t key data al flagCreated = some r) (b : Bool) :
    ∃ r', htableInsert t key data { al with reallocDeleted := b } flagCreated = some r' ∧
      r'.ret = r.ret ∧ r'.flagCreated = r.flagCreated ∧ r.table.SameButDeleted r'.table := by
  rw [htableInsert] at hr ⊢
  split at hr
  case isFalse => cases hr
  rename_i hroom
  rw [if_pos hroom]
  obtain ⟨p, hprobe, hr⟩ := Option.bind_eq_some_iff.mp hr
  simp only [hprobe, Option.bind_eq_bind, Option.bind_some]
  cases p with
  | found idx => exact ⟨r, hr, rfl, rfl, _, _, rfl⟩
  | absent s =>
    dsimp only at hr ⊢
    split at hr
    · rename_i hs
      rw [if_pos hs]
      exact ⟨r, hr, rfl, rfl, _, _, rfl⟩
    · rename_i hs
      rw [if_neg hs]
      cases hdup : al.dupKey with
      | none =>
        rw [hdup] at hr
        exact ⟨r, hr, rfl, rfl, _, _, rfl⟩
      | some dupKey =>
        rw [hdup] at hr
        obtain ⟨⟨idx, t₁⟩, htake, hr⟩ := Option.bind_eq_some_iff.mp hr
        obtain ⟨t₂, htake₂, dlist, dcap, rfl⟩ := takeSlot_shrink htake b
        obtain ⟨indexList, hwrite, hr⟩ := Option.bind_eq_some_iff.mp hr
        obtain ⟨⟨entries, headIdx, tailIdx⟩, hlink, hr⟩ := Option.bind_eq_some_iff.mp hr
        obtain rfl := Option.some.inj hr
        dsimp only at hwrite hlink
        simp only [htake₂, hwrite, hlink, Option.bind_some]
        exact ⟨_, rfl, rfl, rfl, _, _, rfl⟩

/-- A set has the same outcome whether or not the deleted list could shrink. -/
theorem htableSetWithFlag_shrink (hr : htableSetWithFlag t key data al flagCreated = some r)
    (b : Bool) :
    ∃ r', htableSetWithFlag t key data { al with reallocDeleted := b } flagCreated = some r' ∧
      r'.ret = r.ret ∧ r'.flagCreated = r.flagCreated ∧ r.table.SameButDeleted r'.table := by
  rw [htableSetWithFlag] at hr ⊢
  split at hr
  · rename_i hg
    rw [if_pos hg]
    obtain ⟨o, hgrow, hr⟩ := Option.bind_eq_some_iff.mp hr
    simp only [hgrow, Option.bind_eq_bind, Option.bind_some]
    cases o with
    | none => exact ⟨r, hr, rfl, rfl, _, _, rfl⟩
    | some t₁ => exact htableInsert_shrink hr b
  · rename_i hg
    rw [if_neg hg]
    exact htableInsert_shrink hr b

end Shrink

/-! ### Runs -/

section Runs

variable [BEq K] [Hashable K] [EquivBEq K] [LawfulHashable K]

/-- Calls that fit keep the invariant of a table. -/
theorem inv_of_fitting_runs {al : CreateAlloc} {initialCap : ℕ} {t₀ : Htable K D}
    (hcap : initialCap ≤ 2 ^ 62) (hcreate : htableCreate al initialCap = some (some t₀))
    {ops : List (HtOp K D)} (hops : EachStep htStep (fun t op => op.Fits t) t₀ ops) :
    ∃ outs t, runs htStep t₀ ops = some (outs, t) ∧ ∃ cs ds, t.Inv cs ds := by
  obtain ⟨⟨cs, ds, hinv, -⟩, -⟩ := MapOf.create hcap hcreate
  refine runs_invariant (I := fun t => ∃ cs ds, Htable.Inv t cs ds) ?_ ⟨cs, ds, hinv⟩ hops
  rintro t op ⟨cs, ds, h⟩ hfits
  obtain ⟨out, t', cs', ds', l, hstep, hinv', -⟩ := htStep_eq h hfits
  exact ⟨out, t', hstep, cs', ds', hinv'⟩

/-- In every table reached by calls that fit, whatever their allocations did: the next call
returns; if it reports a failure the table is unharmed; and whether the deleted list can
shrink makes no difference to a set. -/
theorem htable_failures_harmless {al : CreateAlloc} {initialCap : ℕ} {t₀ : Htable K D}
    (hcap : initialCap ≤ 2 ^ 62) (hcreate : htableCreate al initialCap = some (some t₀))
    {ops : List (HtOp K D)} (hops : EachStep htStep (fun t op => op.Fits t) t₀ ops) :
    ∃ outs t, runs htStep t₀ ops = some (outs, t) ∧
      (∀ op, op.Fits t → (htStep t op).isSome) ∧
      (∀ op out t', htStep t op = some (out, t') → out.Failed → Unharmed t t') ∧
      ∀ (key : K) (data : Option D) (al : SetAlloc K key) (flagCreated : Bool) (r : SetResult K D)
        (b : Bool), htableSetWithFlag t key data al flagCreated = some r →
        ∃ r', htableSetWithFlag t key data { al with reallocDeleted := b } flagCreated = some r' ∧
          r'.ret = r.ret ∧ r'.flagCreated = r.flagCreated ∧
          r.table.SameButDeleted r'.table := by
  obtain ⟨outs, t, hr, cs, ds, hinv⟩ := inv_of_fitting_runs hcap hcreate hops
  refine ⟨outs, t, hr, fun op hfits => ?_, fun op out t' hstep hfail => hinv.unharmed hstep hfail,
    fun key data al flagCreated r b hset => htableSetWithFlag_shrink hset b⟩
  obtain ⟨out, t', -, -, -, hstep, -⟩ := htStep_eq hinv hfits
  rw [hstep]
  rfl

end Runs

/-- A table of strings of capacity two, whose second set has to grow it and then cannot
copy the key: the table has grown, and is unharmed. -/
theorem htable_failures_harmless_str : ∃ t₀ t t' : Htable StrKey ℕ,
    htableCreate ⟨true, true, true⟩ 2 = some (some t₀) ∧
    (∃ outs, runs htStep t₀
      [.set ⟨1, [97], by decide⟩ (some 10) (strSetAlloc true true (some 100) true _) false]
        = some (outs, t)) ∧
    htStep t (.set ⟨2, [98], by decide⟩ (some 20) (strSetAlloc true true none true _) false)
      = some (.set false false, t') ∧ t'.indexCapacity = 4 ∧ Unharmed t t' := by
  obtain ⟨t₀, hcreate⟩ : ∃ t₀ : Htable StrKey ℕ,
      htableCreate ⟨true, true, true⟩ 2 = some (some t₀) := ⟨_, rfl⟩
  have ht := Option.some.inj (Option.some.inj hcreate)
  have hops : EachStep htStep (fun t op => op.Fits t) t₀
      [.set ⟨1, [97], by decide⟩ (some 10) (strSetAlloc true true (some 100) true _) false] := by
    rw [← ht]
    decide +kernel
  obtain ⟨outs, t, hr, -, hunharmed, -⟩ := htable_failures_harmless (by decide) hcreate hops
  have hnext : ∃ t', htStep t
      (.set ⟨2, [98], by decide⟩ (some 20) (strSetAlloc true true none true _) false)
        = some (.set false false, t') ∧ t'.indexCapacity = 4 := by
    have hsome : Option.any (fun r => Option.any
          (fun q => decide (q.1 = .set false false ∧ q.2.indexCapacity = 4))
          (htStep r.2 (.set ⟨2, [98], by decide⟩ (some 20)
            (strSetAlloc true true none true _) false)))
        (runs htStep t₀
          [.set ⟨1, [97], by decide⟩ (some 10) (strSetAlloc true true (some 100) true _) false])
        = true := by
      rw [← ht]
      decide +kernel
    rw [hr, Option.any_some] at hsome
    obtain ⟨⟨out, t'⟩, hstep, hq⟩ := (Option.any_eq_true _ _).mp hsome
    obtain ⟨hout, hcap⟩ := of_decide_eq_true hq
    obtain rfl : out = .set false false := hout
    exact ⟨t', hstep, hcap⟩
  obtain ⟨t', hstep, hcap⟩ := hnext
  exact ⟨t₀, t, t', hcreate, ⟨outs, hr⟩, hstep, hcap, hunharmed _ _ _ hstep rfl⟩

/-- The key with the number `UINT32_MAX - 1` has been set, and a deletion does not find it:
the table is not in order any more. -/
theorem htable_failure_at_limit : ∃ t₀ t : Htable IntKey ℕ, ∃ outs,
    htableCreate ⟨true, true, true⟩ 16 = some (some t₀) ∧
    runs htStep t₀ ((List.range uint32Max).map fun n =>
      .set (intKey n) (some n) (intSetAlloc true true true _) false)
        = some (outs ++ [.set true true], t) ∧
    htStep t (.delete (intKey (uint32Max - 1)) true) = some (.delete none false, t) ∧
    ¬ Unharmed t t := by
  obtain ⟨t₀, hcreate⟩ : ∃ t₀ : Htable IntKey ℕ,
      htableCreate ⟨true, true, true⟩ 16 = some (some t₀) := ⟨_, rfl⟩
  obtain ⟨hmap, hnext⟩ := MapOf.create (by decide) hcreate
  obtain ⟨outs, t, m, cs, c, hr, hlimit, hlast, -⟩ := runs_atLimit intKey_beq_of_lt
    (fun n => intSetAlloc true true true (intKey n)) (fun n => ⟨rfl, rfl, rfl, rfl⟩) some hmap hnext
  refine ⟨t₀, t, outs, hcreate, hr, ?_, fun h => ?_⟩
  · rw [htStep, htableDeleteWithFlag, hlimit.find hlast]
    rfl
  · obtain ⟨cs', ds', hinv⟩ := h.inv
    have hlt := hinv.nextInsert_lt
    rw [hlimit.next] at hlt
    exact Nat.lt_irrefl _ hlt

/-! ### The flags -/

section Flags

variable [BEq K] [Hashable K]

/-- The flag that a call leaves in the caller's variable is true exactly when the call has
created the key, or removed it. -/
def FlagExact (t : Htable K D) : HtOp K D → HtOut D → Htable K D → Prop
  | .set key _ _ _, .set ret flagCreated, _ =>
    flagCreated = true ↔ ret = true ∧ htableHas t key = some false
  | .delete key _, .delete _ flag, t' =>
    flag = true ↔ htableHas t key = some true ∧ htableHas t' key = some false
  | _, _, _ => True

/-- The call returns through `HT_KEY_DUP_CHECK`, with a flag that was true before: the key
is not there, the growth does not fail, and the copy of the key does. -/
def HtOp.KeepsFlag (t : Htable K D) : HtOp K D → Prop
  | .set key _ al flagCreated => flagCreated = true ∧ al.dupKey = none ∧
      htableHas t key = some false ∧ (t.mustGrow = true → al.calloc = true ∧ al.malloc = true)
  | _ => False

variable [EquivBEq K] [LawfulHashable K] {t : Htable K D} {cs : List (LiveEntry K D)}
  {ds : List ℕ}

theorem Htable.Inv.has_of_forall_ne (h : t.Inv cs ds) {key : K}
    (hk : ∀ c ∈ cs, (c.key == key) = false) : htableHas t key = some false := by
  rw [htableHas, h.htableGetWithFlag_eq, get_of_forall_ne hk]
  rfl

theorem Htable.Inv.has_of_mem (h : t.Inv cs ds) {c : LiveEntry K D} (hc : c ∈ cs) {key : K}
    (hk : (c.key == key) = true) : htableHas t key = some true := by
  rw [htableHas, h.htableGetWithFlag_eq, h.get_of_mem hc hk]
  rfl

/-- The flag of a set. -/
theorem Htable.Inv.set_flag_iff (h : t.Inv cs ds) (key : K) (data : Option D)
    (al : SetAlloc K key) (flagCreated : Bool) {r : SetResult K D}
    (hr : htableSetWithFlag t key data al flagCreated = some r) :
    (r.flagCreated = true ↔ r.ret = true ∧ htableHas t key = some false) ↔
      ¬ (HtOp.set key data al flagCreated).KeepsFlag t := by
  rcases htableSetWithFlag_cases h key data al flagCreated with
    ⟨hg, hal, hset⟩ | ⟨hal, t₁, cs₁, ds₁, hinv₁, hperm, hlt, hlen, -, -, -, hset⟩
  · rw [hset, Option.some_inj] at hr
    rw [← hr]
    refine iff_of_true (by simp) ?_
    rintro ⟨-, -, -, hgrown⟩
    exact hal (hgrown hg)
  · rw [hset] at hr
    rcases exists_mem_or_forall_ne cs key with ⟨c, hc, hk⟩ | hk
    · -- The key is there, also behind the growth.
      obtain ⟨c₁, hc₁, he⟩ := List.mem_map.mp (hperm.mem_iff.mpr (List.mem_map_of_mem hc))
      have hkey : c₁.key = c.key := congrArg Prod.fst he
      obtain ⟨t₂, ht₂, -⟩ :=
        htableInsert_of_mem hinv₁ hlt hc₁ (hkey ▸ hk) data al flagCreated
      rw [ht₂, Option.some_inj] at hr
      rw [← hr]
      have hhas := h.has_of_mem hc hk
      refine iff_of_true ?_ ?_
      · rw [hhas]
        simp
      · rintro ⟨-, -, habs, -⟩
        rw [hhas] at habs
        exact absurd habs (by simp)
    · have hhas := h.has_of_forall_ne hk
      have hk₁ := forall_ne_of_perm hperm hk
      cases hdup : al.dupKey with
      | none =>
        rw [htableInsert_of_dup_none hinv₁ hlt hk₁ hlen data hdup, Option.some_inj] at hr
        rw [← hr]
        have hiff : (HtOp.set key data al flagCreated).KeepsFlag t ↔ flagCreated = true :=
          ⟨fun hkeep => hkeep.1, fun hflag => ⟨hflag, hdup, hhas, hal⟩⟩
        rw [hiff]
        simp
      | some dupKey =>
        -- Whatever the probe and the links do, the exit at the end sets the flag.
        obtain ⟨s, hs, hprobe⟩ := hinv₁.findsSlot hk₁ hlen
        have hcap := hinv₁.cap_le
        have hcopies := insertCopies_eq hr
        have hcreated : r.ret = true ∧ r.flagCreated = true := by
          have hret := htableInsert_ret hprobe (by rw [uint64Max]; omega) (by rw [hdup]; rfl) hr
          rw [insertCopies, hprobe, Option.bind_eq_bind, Option.bind_some] at hcopies
          dsimp only at hcopies
          rw [if_neg (by rw [uint64Max]; omega), hdup, hret, Bool.true_and, Option.some_inj]
            at hcopies
          refine ⟨hret, ?_⟩
          by_contra hf
          rw [if_neg hf] at hcopies
          exact absurd hcopies (by simp)
        refine iff_of_true ?_ ?_
        · rw [hcreated.1, hcreated.2, hhas]
          simp
        · rintro ⟨-, hnone, -⟩
          rw [hdup] at hnone
          exact absurd hnone (by simp)

/-- The flag of a deletion. -/
theorem Htable.Inv.delete_flag (h : t.Inv cs ds) (key : K) (reallocDeleted : Bool) :
    ∃ r, htableDeleteWithFlag t key reallocDeleted = some r ∧
      (r.flag = true ↔ htableHas t key = some true ∧ htableHas r.table key = some false) := by
  rcases exists_mem_or_forall_ne cs key with ⟨c, hc, hk⟩ | hk
  · have hhas := h.has_of_mem hc hk
    obtain ⟨cs₁, cs₂, rfl⟩ := List.append_of_mem hc
    rcases htableDelete_of_mem h hk reallocDeleted with ⟨hd, -⟩ | ⟨-, t', hd, -, hinv'⟩
    · refine ⟨_, hd, iff_of_false (by simp) ?_⟩
      rintro ⟨-, habs⟩
      rw [hhas] at habs
      exact absurd habs (by simp)
    · -- No other entry has this key.
      have hgone : Assoc.get ((cs₁ ++ cs₂).map LiveEntry.pair) key = none := by
        rw [h.map_pair_remove hk, Assoc.get_del, if_pos BEq.rfl]
      refine ⟨_, hd, iff_of_true rfl ⟨hhas, ?_⟩⟩
      rw [htableHas, hinv'.htableGetWithFlag_eq, hgone]
      rfl
  · have hhas := h.has_of_forall_ne hk
    refine ⟨_, htableDelete_of_forall_ne h hk reallocDeleted, iff_of_false (by simp) ?_⟩
    rintro ⟨hpres, -⟩
    rw [hhas] at hpres
    exact absurd hpres (by simp)

/-- The flag of a call is exact unless `HT_KEY_DUP_CHECK` keeps it. -/
theorem Htable.Inv.flag_exact_iff (h : t.Inv cs ds) {op : HtOp K D} {out : HtOut D}
    {t' : Htable K D} (hstep : htStep t op = some (out, t')) :
    FlagExact t op out t' ↔ ¬ op.KeepsFlag t := by
  cases op with
  | set key data al flagCreated =>
    obtain ⟨r, hr, hstep⟩ := Option.bind_eq_some_iff.mp hstep
    obtain ⟨rfl, -⟩ := Prod.mk.inj (Option.some.inj hstep)
    exact h.set_flag_iff key data al flagCreated hr
  | delete key reallocDeleted =>
    obtain ⟨r, hr, hstep⟩ := Option.bind_eq_some_iff.mp hstep
    obtain ⟨rfl, rfl⟩ := Prod.mk.inj (Option.some.inj hstep)
    obtain ⟨r', hr', hflag⟩ := h.delete_flag key reallocDeleted
    obtain rfl := Option.some.inj (hr.symm.trans hr')
    exact iff_of_true hflag id
  | get key => exact iff_of_true trivial id
  | has key => exact iff_of_true trivial id
  | count => exact iff_of_true trivial id

/-- In every table reached by calls that fit, whatever their allocations did, the next call
that fits returns, and any call that returns has told its caller the truth if and only if
it is not a set that returns through `HT_KEY_DUP_CHECK` with a flag that was true. -/
theorem htable_flags_exact {al : CreateAlloc} {initialCap : ℕ} {t₀ : Htable K D}
    (hcap : initialCap ≤ 2 ^ 62) (hcreate : htableCreate al initialCap = some (some t₀))
    {ops : List (HtOp K D)} (hops : EachStep htStep (fun t op => op.Fits t) t₀ ops) :
    ∃ outs t, runs htStep t₀ ops = some (outs, t) ∧
      (∀ op, op.Fits t → (htStep t op).isSome) ∧
      ∀ op out t', htStep t op = some (out, t') →
        (FlagExact t op out t' ↔ ¬ op.KeepsFlag t) := by
  obtain ⟨outs, t, hr, cs, ds, hinv⟩ := inv_of_fitting_runs hcap hcreate hops
  refine ⟨outs, t, hr, fun op hfits => ?_, fun op out t' hstep => hinv.flag_exact_iff hstep⟩
  obtain ⟨out, t', -, -, -, hstep, -⟩ := htStep_eq hinv hfits
  rw [hstep]
  rfl

end Flags

/-- A string that cannot be copied, with a caller whose flag was false. -/
theorem htable_flags_exact_str : ∃ t₀ t' : Htable StrKey ℕ,
    htableCreate ⟨true, true, true⟩ 16 = some (some t₀) ∧
    htStep t₀ (.set ⟨1, [97], by decide⟩ (some 10) (strSetAlloc true true none true _) false)
      = some (.set false false, t') ∧
    FlagExact t₀ (.set ⟨1, [97], by decide⟩ (some 10) (strSetAlloc true true none true _) false)
      (.set false false) t' := by
  obtain ⟨t₀, hcreate⟩ : ∃ t₀ : Htable StrKey ℕ,
      htableCreate ⟨true, true, true⟩ 16 = some (some t₀) := ⟨_, rfl⟩
  have ht := Option.some.inj (Option.some.inj hcreate)
  have hops : EachStep htStep (fun t op => op.Fits t) t₀ [] := trivial
  obtain ⟨outs, t, hr, -, hexact⟩ := htable_flags_exact (by decide) hcreate hops
  obtain ⟨-, rfl⟩ := Prod.mk.inj (Option.some.inj hr)
  have hstep : ∃ t', htStep t₀
      (.set ⟨1, [97], by decide⟩ (some 10) (strSetAlloc true true none true _) false)
        = some (.set false false, t') := by
    rw [← ht]
    exact ⟨_, rfl⟩
  obtain ⟨t', hstep⟩ := hstep
  refine ⟨t₀, t', hcreate, hstep, (hexact _ _ _ hstep).mpr ?_⟩
  rintro ⟨hflag, -⟩
  exact absurd hflag (by simp)

/-- The same with a flag that was true: the set returns `false` and leaves the flag. -/
theorem htable_flag_kept : ∃ t₀ t' : Htable StrKey ℕ,
    htableCreate ⟨true, true, true⟩ 16 = some (some t₀) ∧
    htStep t₀ (.set ⟨1, [97], by decide⟩ (some 10) (strSetAlloc true true none true _) true)
      = some (.set false true, t') ∧
    ¬ FlagExact t₀ (.set ⟨1, [97], by decide⟩ (some 10) (strSetAlloc true true none true _) true)
      (.set false true) t' := by
  obtain ⟨t₀, hcreate⟩ : ∃ t₀ : Htable StrKey ℕ,
      htableCreate ⟨true, true, true⟩ 16 = some (some t₀) := ⟨_, rfl⟩
  have ht := Option.some.inj (Option.some.inj hcreate)
  have hstep : ∃ t', htStep t₀
      (.set ⟨1, [97], by decide⟩ (some 10) (strSetAlloc true true none true _) true)
        = some (.set false true, t') := by
    rw [← ht]
    exact ⟨_, rfl⟩
  obtain ⟨t', hstep⟩ := hstep
  refine ⟨t₀, t', hcreate, hstep, fun hexact => ?_⟩
  have hexact : true = true ↔ false = true ∧ htableHas t₀ _ = some false := hexact
  exact absurd (hexact.mp rfl).1 (by simp)

end Freehttpd
