/-
The home slots of the hash table's keys.

A key is looked for from the slot on that the mask cuts out of its hash:

* `utilRoundCeil2Ull_least` — `htable_create` rounds its capacity up to a power of two,
  whichever branch is compiled, so the mask is a remainder;
* `CachesHash.step` — every entry keeps the hash of its key, whatever the calls do;
* `intHtableKeyHash_inj` — two different integer keys have different hashes;
* `int_hashes_distinct` — so what two entries with one home slot share is the remainder only.
-/
import Freehttpd.HtableCells
import Freehttpd.HtableGrowth
import Freehttpd.IntHtable

namespace Freehttpd

open Runs

variable {K D : Type}

/-! ### The capacity -/

/-- From 1 to `2 ^ 63` both branches of `util_round_ceil2_ull` return the least power of two
that is not below their argument; it is the index capacity of a new table, and the mask
reduces modulo it. -/
theorem utilRoundCeil2Ull_least {value : ℕ} (h1 : 1 ≤ value) (h63 : value ≤ 2 ^ 63) :
    ∃ k, utilRoundCeil2Ull value = some (2 ^ k) ∧ utilRoundCeil2UllPortable value = 2 ^ k ∧
      value ≤ 2 ^ k ∧ (∀ j, value ≤ 2 ^ j → 2 ^ k ≤ 2 ^ j) ∧
      ∀ (al : CreateAlloc) (t : Htable K D), htableCreate al value = some (some t) →
        t.indexCapacity = 2 ^ k ∧ ∀ x, x &&& (t.indexCapacity - 1) = x % t.indexCapacity := by
  have hbranches := utilRoundCeil2UllPortable_eq h63
  rcases Nat.lt_or_ge 1 value with h2 | h2
  · obtain ⟨k, hk1, -, hk, hle, hlt⟩ := utilRoundCeil2Ull_spec h2 hbranches
    refine ⟨k, by rw [hbranches, hk], hk, hle, fun j hj => ?_, fun al t hcreate => ?_⟩
    · -- A smaller power is at most `2 ^ (k - 1)`, which is below the value.
      by_contra hjk
      rw [Nat.not_le, Nat.pow_lt_pow_iff_right (by decide)] at hjk
      have hpow : 2 ^ j ≤ 2 ^ (k - 1) := Nat.pow_le_pow_right Nat.two_pos (by omega)
      omega
    · obtain ⟨k', hk'1, -, hle', hlt', rfl⟩ := htableCreate_eq_some hcreate
      -- Both exponents are that of the least power.
      have hkk : k - 1 < k' := (Nat.pow_lt_pow_iff_right (a := 2) (by decide)).mp
        (Nat.lt_of_lt_of_le hlt hle')
      have hkk' : k' - 1 < k := (Nat.pow_lt_pow_iff_right (a := 2) (by decide)).mp
        (Nat.lt_of_lt_of_le hlt' hle)
      obtain rfl : k = k' := by omega
      exact ⟨rfl, fun x => Nat.and_two_pow_sub_one_eq_mod x k⟩
  · obtain rfl : value = 1 := by omega
    refine ⟨0, rfl, rfl, Nat.le_refl _, fun j hj => hj, fun al t hcreate => ?_⟩
    -- `htable_create` asserts that its capacity is at least two.
    cases hcreate

/-- A capacity between two powers. -/
theorem utilRoundCeil2Ull_least_five :
    ∃ k, utilRoundCeil2Ull 5 = some (2 ^ k) ∧ utilRoundCeil2UllPortable 5 = 2 ^ k ∧
      5 ≤ 2 ^ k ∧ (∀ j, 5 ≤ 2 ^ j → 2 ^ k ≤ 2 ^ j) ∧
      ∀ (al : CreateAlloc) (t : Htable IntKey ℕ), htableCreate al 5 = some (some t) →
        t.indexCapacity = 2 ^ k ∧ ∀ x, x &&& (t.indexCapacity - 1) = x % t.indexCapacity :=
  utilRoundCeil2Ull_least (by decide) (by decide)

/-! ### The cached hashes -/

/-- Every entry of the array, live or not, keeps the hash of its key. -/
def CachesHash [Hashable K] (es : Block (HtEntry K D)) : Prop :=
  ∀ i e, es.read i = some e → e.cachedHash = hash e.key

namespace CachesHash

variable [Hashable K] {es es' : Block (HtEntry K D)}

theorem malloc (n : ℕ) : CachesHash (Block.malloc n : Block (HtEntry K D)) := by
  intro i e he
  rw [Block.read, Block.malloc, List.getElem?_replicate] at he
  split at he
  · cases he
  · cases he

theorem write (h : CachesHash es) {i : ℕ} {e : HtEntry K D} (hw : es.write i e = some es')
    (he : e.cachedHash = hash e.key) : CachesHash es' := by
  obtain ⟨hi, rfl⟩ := Block.write_eq_some hw
  intro j e' he'
  rw [Block.read_put _ hi] at he'
  split at he'
  · rw [← Option.some.inj he']
    exact he
  · exact h j e' he'

/-- An assignment to another field. -/
theorem modify (h : CachesHash es) {i : ℕ} {f : HtEntry K D → HtEntry K D}
    (hm : es.modify i f = some es')
    (hf : ∀ e, (f e).cachedHash = e.cachedHash ∧ (f e).key = e.key) : CachesHash es' := by
  rw [Block.modify, Option.bind_eq_bind, Option.bind_eq_some_iff] at hm
  obtain ⟨e, he, hw⟩ := hm
  refine h.write hw ?_
  rw [(hf e).1, (hf e).2, h i e he]

theorem linkTail (h : CachesHash es) {headIdx tailIdx idx headIdx' tailIdx' : ℕ}
    {e : HtEntry K D} (he : e.cachedHash = hash e.key)
    (hl : Freehttpd.linkTail es headIdx tailIdx idx e = some (es', headIdx', tailIdx')) :
    CachesHash es' := by
  rw [Freehttpd.linkTail] at hl
  split at hl
  · obtain ⟨es₁, hw, hl⟩ := Option.bind_eq_some_iff.mp hl
    obtain ⟨rfl, -⟩ := Prod.mk.inj (Option.some.inj hl)
    exact h.write hw he
  · obtain ⟨es₁, hm, hl⟩ := Option.bind_eq_some_iff.mp hl
    obtain ⟨es₂, hw, hl⟩ := Option.bind_eq_some_iff.mp hl
    obtain ⟨rfl, -⟩ := Prod.mk.inj (Option.some.inj hl)
    exact (h.modify hm fun _ => ⟨rfl, rfl⟩).write hw he

theorem rehashEntry {t : Htable K D} (ht : CachesHash t.entries) {n m v : ℕ}
    {r r' : Rehash K D} (h : CachesHash r.newEntries)
    (hr : Freehttpd.rehashEntry t n m v r = some (some r')) : CachesHash r'.newEntries := by
  rw [Freehttpd.rehashEntry] at hr
  split at hr
  case isFalse => cases hr
  obtain ⟨prev, hprev, hr⟩ := Option.bind_eq_some_iff.mp hr
  obtain ⟨⟨entries, headIdx, tailIdx⟩, hlink, hr⟩ := Option.bind_eq_some_iff.mp hr
  obtain ⟨target, -, hr⟩ := Option.bind_eq_some_iff.mp hr
  split at hr
  · cases Option.some.inj hr
  · obtain ⟨l, -, hr⟩ := Option.bind_eq_some_iff.mp hr
    rw [← Option.some.inj (Option.some.inj hr)]
    exact h.linkTail (ht _ _ hprev) hlink

theorem rehashLoop {t : Htable K D} (ht : CachesHash t.entries) {n m k i : ℕ}
    {r r' : Rehash K D} (h : CachesHash r.newEntries)
    (hr : Freehttpd.rehashLoop t n m k i r = some (some r')) : CachesHash r'.newEntries := by
  induction k generalizing i r with
  | zero =>
    rw [← Option.some.inj (Option.some.inj hr)]
    exact h
  | succ k ih =>
    obtain ⟨v, -, hr⟩ := Option.bind_eq_some_iff.mp hr
    split at hr
    · exact ih h hr
    · obtain ⟨o, ho, hr⟩ := Option.bind_eq_some_iff.mp hr
      cases o with
      | none => cases Option.some.inj hr
      | some r₁ => exact ih (ht.rehashEntry h ho) hr

theorem grow {calloc malloc : Bool} {t t' : Htable K D} (h : CachesHash t.entries)
    (hr : htableGrow calloc malloc t = some (some t')) : CachesHash t'.entries := by
  obtain ⟨r, hrehash, rfl⟩ := htableGrow_eq_some hr
  exact h.rehashLoop (CachesHash.malloc _) hrehash

theorem unlink {t t' : Htable K D} {idx : ℕ} (h : CachesHash t.entries)
    (hu : unlinkEntry t idx = some t') : CachesHash t'.entries := by
  obtain ⟨e, -, hu⟩ := Option.bind_eq_some_iff.mp hu
  obtain ⟨es₁, hprev, hu⟩ := Option.bind_eq_some_iff.mp hu
  obtain ⟨e', -, hu⟩ := Option.bind_eq_some_iff.mp hu
  obtain ⟨es₂, hnext, hu⟩ := Option.bind_eq_some_iff.mp hu
  obtain rfl := Option.some.inj hu
  have h₁ : CachesHash es₁ := by
    rw [setPrevIdx] at hprev
    split at hprev
    · exact h.modify hprev fun _ => ⟨rfl, rfl⟩
    · exact Option.some.inj hprev ▸ h
  show CachesHash es₂
  rw [setNextIdx] at hnext
  split at hnext
  · exact h₁.modify hnext fun _ => ⟨rfl, rfl⟩
  · exact Option.some.inj hnext ▸ h₁

omit [Hashable K] in
theorem takeSlot_entries {reallocDeleted : Bool} {t t' : Htable K D} {idx : ℕ}
    (h : takeSlot reallocDeleted t = some (idx, t')) : t'.entries = t.entries := by
  rw [takeSlot] at h
  split at h
  · obtain ⟨i, -, h⟩ := Option.bind_eq_some_iff.mp h
    split at h
    · obtain ⟨-, rfl⟩ := Prod.mk.inj (Option.some.inj h)
      rfl
    · obtain ⟨-, rfl⟩ := Prod.mk.inj (Option.some.inj h)
      rfl
  · obtain ⟨-, rfl⟩ := Prod.mk.inj (Option.some.inj h)
    rfl

variable [BEq K] [LawfulHashable K]

theorem insert {t : Htable K D} (h : CachesHash t.entries) {key : K} {data : Option D}
    {al : SetAlloc K key} {flagCreated : Bool} {r : SetResult K D}
    (hr : htableInsert t key data al flagCreated = some r) : CachesHash r.table.entries := by
  obtain ⟨-, p, -, hr⟩ := htableInsert_outcome hr
  cases hr with
  | overwritten hmodify => exact h.modify hmodify fun _ => ⟨rfl, rfl⟩
  | full => exact h
  | uncopied => exact h
  | @inserted _ _ _ _ dupKey _ _ _ hs hdup htake hwrite hlink =>
    -- The hash is that of the argument, the key its copy.
    refine (takeSlot_entries htake ▸ h).linkTail ?_ hlink
    exact (LawfulHashable.hash_eq _ _ dupKey.2).symm

theorem set {t : Htable K D} (h : CachesHash t.entries) {key : K} {data : Option D}
    {al : SetAlloc K key} {flagCreated : Bool} {r : SetResult K D}
    (hr : htableSetWithFlag t key data al flagCreated = some r) :
    CachesHash r.table.entries := by
  rcases htableSetWithFlag_eq_some hr with ⟨-, -, rfl⟩ | ⟨-, t₁, hgrow, hr⟩ | ⟨-, hr⟩
  · exact h
  · exact (h.grow hgrow).insert hr
  · exact h.insert hr

omit [LawfulHashable K] in
theorem delete {t : Htable K D} (h : CachesHash t.entries) {key : K} {reallocDeleted : Bool}
    {r : DeleteResult K D} (hr : htableDeleteWithFlag t key reallocDeleted = some r) :
    CachesHash r.table.entries := by
  rw [htableDeleteWithFlag, Option.bind_eq_bind, Option.bind_eq_some_iff] at hr
  obtain ⟨o, -, hr⟩ := hr
  cases o with
  | none =>
    rw [← Option.some.inj hr]
    exact h
  | some p =>
    obtain ⟨e, -, hr⟩ := Option.bind_eq_some_iff.mp hr
    split at hr
    · rw [← Option.some.inj hr]
      exact h
    · rename_i t₁ hgrow
      have ht₁ : CachesHash t₁.entries := by
        rw [growDeleted] at hgrow
        split at hgrow
        · dsimp only at hgrow
          split at hgrow
          · exact Option.some.inj hgrow ▸ h
          · cases hgrow
        · exact Option.some.inj hgrow ▸ h
      obtain ⟨deleted, -, hr⟩ := Option.bind_eq_some_iff.mp hr
      obtain ⟨t₂, hunlink, hr⟩ := Option.bind_eq_some_iff.mp hr
      obtain ⟨indexList, -, hr⟩ := Option.bind_eq_some_iff.mp hr
      rw [← Option.some.inj hr]
      have ht₂ : CachesHash t₂.entries := unlink (t := { t₁ with
        deletedIndexList := deleted
        deletedCount := u64 (t₁.deletedCount + 1) }) ht₁ hunlink
      exact ht₂

/-- One call. -/
theorem step {t t' : Htable K D} (h : CachesHash t.entries) {op : HtOp K D} {out : HtOut D}
    (hstep : htStep t op = some (out, t')) : CachesHash t'.entries := by
  cases op with
  | set key data al flagCreated =>
    obtain ⟨r, hr, hstep⟩ := Option.bind_eq_some_iff.mp hstep
    obtain ⟨-, rfl⟩ := Prod.mk.inj (Option.some.inj hstep)
    exact h.set hr
  | delete key reallocDeleted =>
    obtain ⟨r, hr, hstep⟩ := Option.bind_eq_some_iff.mp hstep
    obtain ⟨-, rfl⟩ := Prod.mk.inj (Option.some.inj hstep)
    exact h.delete hr
  | get key =>
    obtain ⟨r, -, hstep⟩ := Option.bind_eq_some_iff.mp hstep
    obtain ⟨-, rfl⟩ := Prod.mk.inj (Option.some.inj hstep)
    exact h
  | has key =>
    obtain ⟨r, -, hstep⟩ := Option.bind_eq_some_iff.mp hstep
    obtain ⟨-, rfl⟩ := Prod.mk.inj (Option.some.inj hstep)
    exact h
  | count =>
    obtain ⟨-, rfl⟩ := Prod.mk.inj (Option.some.inj hstep)
    exact h

/-- Every table that is reached, however many keys were set. -/
theorem runs {al : CreateAlloc} {initialCap : ℕ} {t₀ t : Htable K D}
    (hcreate : htableCreate al initialCap = some (some t₀)) {ops : List (HtOp K D)}
    {outs : List (HtOut D)} (hr : Runs.runs htStep t₀ ops = some (outs, t)) :
    CachesHash t.entries := by
  obtain ⟨k, -, -, -, -, rfl⟩ := htableCreate_eq_some hcreate
  exact runs_preserves (I := fun t => CachesHash t.entries) (Q := fun _ => True)
    (fun t op out t' h _ hstep => h.step hstep) (CachesHash.malloc _) (fun _ _ => trivial) hr

end CachesHash

/-! ### The integer keys -/

/-- Each of the five steps of the finalizer can be undone. -/
theorem intHtableKeyHash_inj : Function.Injective intHtableKeyHash := by
  intro x y h
  have hbits := congrArg UInt64.toBitVec h
  have hmul₁ : (0xbf58476d1ce4e5b9#64) * 0x96de1b173f119089#64 = 1#64 := by decide
  have hmul₂ : (0x94d049bb133111eb#64) * 0x319642b2d24d8ec3#64 = 1#64 := by decide
  have h₁ := xorShift_injective (w := 64) (s := 31) (by decide) hbits
  have h₂ := mul_injective_of_mul_eq_one hmul₂ h₁
  have h₃ := xorShift_injective (w := 64) (s := 27) (by decide) h₂
  have h₄ := mul_injective_of_mul_eq_one hmul₁ h₃
  exact UInt64.toBitVec_inj.mp (xorShift_injective (w := 64) (s := 30) (by decide) h₄)

/-- The home slot of an entry. -/
def HtEntry.home (t : Htable K D) (e : HtEntry K D) : ℕ :=
  e.cachedHash.toNat &&& (t.indexCapacity - 1)

theorem intKey_hash_inj {k k' : IntKey} (h : hash k = hash k') : k = k' := by
  have hkey := intHtableKeyHash_inj h
  cases k
  cases k'
  exact congrArg IntKey.mk hkey

/-- In a table that is reached the mask is a remainder. -/
theorem and_mask_of_runs [BEq K] [Hashable K] {al : CreateAlloc} {initialCap : ℕ}
    {t₀ t : Htable K D} (hcreate : htableCreate al initialCap = some (some t₀))
    {ops : List (HtOp K D)} {outs : List (HtOut D)} (hr : runs htStep t₀ ops = some (outs, t))
    (x : ℕ) : x &&& (t.indexCapacity - 1) = x % t.indexCapacity := by
  obtain ⟨hshape₀, -, -, -, -, htwo⟩ := htableCreate_shape hcreate
  have hshape : t.Shape := runs_preserves (I := Htable.Shape) (Q := fun _ => True)
    (fun t op out t' h _ hstep => h.effect (htStep_effect h.size hstep)) hshape₀
    (fun _ _ => trivial) hr
  have hle := (eachStep_cap_le hshape₀ hr).1
  rcases hshape.cap with hzero | ⟨k, -, -, hcap⟩
  · omega
  · rw [hcap, Nat.and_two_pow_sub_one_eq_mod]

/-- Integer keys that differ have different hashes.  So in every table that is reached two
entries with different keys do not have the same `cached_hash`, also where the mask gives
them the same home slot; and two lookups never end at two entries that do. -/
theorem int_hashes_distinct :
    (∀ x y, x ≠ y → intHtableKeyHash x ≠ intHtableKeyHash y) ∧
    ∀ (al : CreateAlloc) (initialCap : ℕ) (t₀ t : Htable IntKey D) (ops : List (HtOp IntKey D))
      (outs : List (HtOut D)), htableCreate al initialCap = some (some t₀) →
      runs htStep t₀ ops = some (outs, t) →
      (∀ i j e e', t.entries.read i = some e → t.entries.read j = some e' → e.key ≠ e'.key →
        e.cachedHash ≠ e'.cachedHash ∧
        (e.home t = e'.home t → e.cachedHash.toNat % t.indexCapacity
          = e'.cachedHash.toNat % t.indexCapacity)) ∧
      ∀ key key' s s' i i', htableFind t key = some (some (s, i)) →
        htableFind t key' = some (some (s', i')) → i ≠ i' →
        ∃ e e', t.entries.read i = some e ∧ t.entries.read i' = some e' ∧
          e.cachedHash ≠ e'.cachedHash := by
  refine ⟨fun x y hxy h => hxy (intHtableKeyHash_inj h), ?_⟩
  intro al initialCap t₀ t ops outs hcreate hr
  have hcache := CachesHash.runs hcreate hr
  have hne : ∀ i j e e', t.entries.read i = some e → t.entries.read j = some e' →
      e.key ≠ e'.key → e.cachedHash ≠ e'.cachedHash := by
    intro i j e e' he he' hkey hhash
    rw [hcache i e he, hcache j e' he'] at hhash
    exact hkey (intKey_hash_inj hhash)
  constructor
  · intro i j e e' he he' hkey
    refine ⟨hne i j e e' he he' hkey, fun hhome => ?_⟩
    rwa [HtEntry.home, HtEntry.home, and_mask_of_runs hcreate hr, and_mask_of_runs hcreate hr]
      at hhome
  · intro key key' s s' i i' hf hf' hi
    obtain ⟨v, e, -, -, -, -, he, hk⟩ := findLoop_entry hf
    obtain ⟨v', e', -, -, -, -, he', hk'⟩ := findLoop_entry hf'
    refine ⟨e, e', he, he', hne i i' e e' he he' fun hkey => hi ?_⟩
    -- With one key the two searches are the same.
    obtain rfl : key = key' := by rw [← eq_of_beq hk, ← eq_of_beq hk', hkey]
    rw [hf, Option.some_inj, Option.some_inj] at hf'
    exact (Prod.mk.inj hf').2

/-- Two keys with one home slot in a table of capacity four. -/
theorem int_hashes_distinct_four : ∃ t₀ t : Htable IntKey ℕ,
    htableCreate ⟨true, true, true⟩ 4 = some (some t₀) ∧
    (∃ outs, runs htStep t₀
      [.set (intKey 0) (some 10) (intSetAlloc true true true _) false,
        .set (intKey 5) (some 20) (intSetAlloc true true true _) false] = some (outs, t)) ∧
    ∃ e e', t.entries.read 0 = some e ∧ t.entries.read 1 = some e' ∧ e.home t = e'.home t ∧
      e.cachedHash ≠ e'.cachedHash := by
  obtain ⟨t₀, hcreate⟩ : ∃ t₀ : Htable IntKey ℕ,
      htableCreate ⟨true, true, true⟩ 4 = some (some t₀) := ⟨_, rfl⟩
  have ht := Option.some.inj (Option.some.inj hcreate)
  have hread : (runs htStep t₀
      [.set (intKey 0) (some 10) (intSetAlloc true true true _) false,
        .set (intKey 5) (some 20) (intSetAlloc true true true _) false]).map
      (fun r => ((r.2.entries.read 0).map fun e => (e.key, e.home r.2),
        (r.2.entries.read 1).map fun e => (e.key, e.home r.2)))
      = some (some (intKey 0, 0), some (intKey 5, 0)) := by
    rw [← ht]
    decide +kernel
  obtain ⟨⟨outs, t⟩, hr, hq⟩ := Option.map_eq_some_iff.mp hread
  obtain ⟨h0, h1⟩ := Prod.mk.inj hq
  obtain ⟨e, he, hek⟩ := Option.map_eq_some_iff.mp h0
  obtain ⟨e', he', hek'⟩ := Option.map_eq_some_iff.mp h1
  obtain ⟨hkey, hhome⟩ := Prod.mk.inj hek
  obtain ⟨hkey', hhome'⟩ := Prod.mk.inj hek'
  refine ⟨t₀, t, hcreate, ⟨outs, hr⟩, e, e', he, he', hhome.trans hhome'.symm, ?_⟩
  refine ((int_hashes_distinct.2 _ _ t₀ t _ outs hcreate hr).1 0 1 e e' he he' ?_).1
  rw [hkey, hkey']
  decide

end Freehttpd
