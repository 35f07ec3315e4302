/-
The invariant of the hash table.

`Htable.Inv t cs ds` relates the arrays of `t` to a list `cs` of live entries,
in the order of the linked list, and to the list `ds` of recycled entry slots.
Everything the later modules prove about an operation is stated on `cs`:

* the index list names exactly the live entries, each on the probe path of its
  key (`slots`, `slot_inj`, `onPath`);
* the linked list runs through them in order (`links`);
* live and recycled slots together are the slots handed out so far
  (`partition`).

The bound `entryNextInsert < uint32Max` keeps every stored `idx + 1` away from
the two sentinels; `Inv.nextInsert_lt_of_cap` derives it from a bound on the
index capacity.
-/
import Freehttpd.Assoc
import Freehttpd.Htable
import Freehttpd.OpenAddressing

namespace Freehttpd

open OpenAddressing

variable {K D : Type}

/-- A live entry: its slot in the entry array, its key and its data. -/
structure LiveEntry (K D : Type) where
  idx : ℕ
  key : K
  data : Option D

/-- What a live entry contributes to the contents of the table. -/
def LiveEntry.pair (c : LiveEntry K D) : K × Option D := (c.key, c.data)

/-- The live entries after the data of `key` was overwritten. -/
def overwriteLive [BEq K] (cs : List (LiveEntry K D)) (key : K) (data : Option D) :
    List (LiveEntry K D) :=
  cs.map fun c => if c.key == key then { c with data := data } else c

/-- The meaning of slot `s` of an index list. -/
def indexCell (indexList : Block ℕ) (s : ℕ) : Cell ℕ :=
  match indexList.read s with
  | none => .empty
  | some v => if v = htEmpty then .empty else if v = htDeleted then .deleted else .full (v - 1)

/-- The home slot of a key. -/
def homeSlot [Hashable K] (cap : ℕ) (key : K) : ℕ := (hash key).toNat % cap

/-- The invariant; see the head of this file. -/
structure Htable.Inv [BEq K] [Hashable K] (t : Htable K D) (cs : List (LiveEntry K D))
    (ds : List ℕ) : Prop where
  cap_pow : ∃ k, 1 ≤ k ∧ k ≤ 62 ∧ t.indexCapacity = 2 ^ k
  entryCapacity_eq : t.entryCapacity = t.indexCapacity * 3 / 4
  indexList_size : t.indexList.size = t.indexCapacity
  indexList_init : ∀ s < t.indexCapacity, (t.indexList.read s).isSome
  entries_size : t.entries.size = t.entryCapacity
  nextInsert_le : t.entryNextInsert ≤ t.entryCapacity
  nextInsert_lt : t.entryNextInsert < uint32Max
  slots : ∀ s < t.indexCapacity, ∀ i, indexCell t.indexList s = .full i →
    i ∈ cs.map LiveEntry.idx
  slot_inj : ∀ s < t.indexCapacity, ∀ s' < t.indexCapacity, ∀ i,
    indexCell t.indexList s = .full i → indexCell t.indexList s' = .full i → s = s'
  entry : ∀ c ∈ cs, ∃ p n, t.entries.read c.idx = some ⟨c.key, c.data, hash c.key, p, n⟩
  onPath : ∀ c ∈ cs,
    OnPath t.indexCapacity (indexCell t.indexList) (homeSlot t.indexCapacity c.key) c.idx
  distinct : Assoc.Distinct (cs.map LiveEntry.pair)
  links : DList (entryNext t.entries) (entryPrev t.entries) uint32Max t.headIdx t.tailIdx
    (cs.map LiveEntry.idx)
  partition : (cs.map LiveEntry.idx ++ ds).Perm (List.range t.entryNextInsert)
  count_eq : t.count = cs.length
  deletedCount_eq : t.deletedCount = ds.length
  deleted_size : t.deletedIndexList.size = t.deletedCapacity
  deleted_holds : t.deletedIndexList.Holds ds

/-! ### Index list values -/

theorem indexCell_eq_full_iff {il : Block ℕ} {s i : ℕ} :
    indexCell il s = .full i ↔ il.read s = some (i + 1) ∧ i + 1 ≠ htDeleted := by
  rw [indexCell]
  cases h : il.read s with
  | none => simp
  | some v =>
    by_cases h0 : v = htEmpty
    · simp only [h0, if_pos, reduceCtorEq, Option.some.injEq, false_iff, not_and]
      exact fun h1 => absurd h1 (by simp [htEmpty])
    · by_cases h1 : v = htDeleted
      · simp only [if_neg h0, if_pos h1, reduceCtorEq, Option.some.injEq, false_iff, not_and]
        exact fun h2 h3 => h3 (h2 ▸ h1)
      · rw [htEmpty] at h0
        simp only [htEmpty, if_neg h0, if_neg h1, Cell.full.injEq, Option.some.injEq]
        constructor
        · intro he
          have : v = i + 1 := by omega
          exact ⟨this, this ▸ h1⟩
        · rintro ⟨rfl, -⟩
          omega

theorem indexCell_put_full {il : Block ℕ} {s i : ℕ} (hs : s < il.size)
    (hi : i + 1 < uint32Max) : indexCell (il.put s (i + 1)) s = .full i :=
  indexCell_eq_full_iff.mpr ⟨Block.read_put_self _ hs, by rw [htDeleted]; omega⟩

theorem indexCell_put_deleted {il : Block ℕ} {s : ℕ} (hs : s < il.size) :
    indexCell (il.put s htDeleted) s = .deleted := by
  rw [indexCell, Block.read_put_self _ hs]
  rfl

theorem indexCell_put_of_ne {il : Block ℕ} {s s' v : ℕ} (h : s ≠ s') :
    indexCell (il.put s v) s' = indexCell il s' := by
  rw [indexCell, indexCell, Block.read_put_of_ne _ h]

/-! ### Consequences of the invariant -/

namespace Htable.Inv

variable [BEq K] [Hashable K] {t : Htable K D} {cs : List (LiveEntry K D)} {ds : List ℕ}

theorem cap_pos (h : t.Inv cs ds) : 0 < t.indexCapacity := by
  obtain ⟨k, -, -, hk⟩ := h.cap_pow
  rw [hk]
  exact Nat.two_pow_pos k

theorem cap_le (h : t.Inv cs ds) : t.indexCapacity ≤ 2 ^ 62 := by
  obtain ⟨k, -, hk62, hk⟩ := h.cap_pow
  rw [hk]
  exact Nat.pow_le_pow_right (by decide) hk62

/-- The index capacity is even, so `entry_capacity` is at least one. -/
theorem two_le_cap (h : t.Inv cs ds) : 2 ≤ t.indexCapacity := by
  obtain ⟨k, hk1, -, hk⟩ := h.cap_pow
  rw [hk]
  exact Nat.pow_le_pow_right (n := 2) (by decide) hk1

/-- Masking reduces modulo the index capacity. -/
theorem and_mask (h : t.Inv cs ds) (x : ℕ) :
    x &&& (t.indexCapacity - 1) = x % t.indexCapacity := by
  obtain ⟨k, -, -, hk⟩ := h.cap_pow
  rw [hk, Nat.and_two_pow_sub_one_eq_mod]

theorem and_home (h : t.Inv cs ds) (key : K) :
    (hash key).toNat &&& (t.indexCapacity - 1) = homeSlot t.indexCapacity key :=
  h.and_mask _

theorem home_lt (h : t.Inv cs ds) (key : K) :
    homeSlot t.indexCapacity key < t.indexCapacity :=
  Nat.mod_lt _ h.cap_pos

theorem lt_nextInsert (h : t.Inv cs ds) {i : ℕ} (hi : i ∈ cs.map LiveEntry.idx ++ ds) :
    i < t.entryNextInsert :=
  List.mem_range.mp (h.partition.mem_iff.mp hi)

theorem idx_lt (h : t.Inv cs ds) {c : LiveEntry K D} (hc : c ∈ cs) :
    c.idx < t.entryNextInsert :=
  h.lt_nextInsert (List.mem_append_left _ (List.mem_map_of_mem hc))

theorem nodup (h : t.Inv cs ds) : (cs.map LiveEntry.idx ++ ds).Nodup :=
  h.partition.nodup_iff.mpr List.nodup_range

theorem length_add (h : t.Inv cs ds) : cs.length + ds.length = t.entryNextInsert := by
  have := h.partition.length_eq
  simpa using this

/-- Entries with the same slot are the same entry. -/
theorem eq_of_idx (h : t.Inv cs ds) {c c' : LiveEntry K D} (hc : c ∈ cs) (hc' : c' ∈ cs)
    (he : c.idx = c'.idx) : c = c' :=
  List.inj_on_of_nodup_map h.links.nodup hc hc' he

/-- A bound on the index capacity keeps the entry indices below the sentinels. -/
theorem nextInsert_lt_of_cap (h : t.Inv cs ds) (hcap : t.indexCapacity ≤ 2 ^ 32) :
    t.entryNextInsert ≤ 3 * 2 ^ 30 := by
  have h1 := h.nextInsert_le
  rw [h.entryCapacity_eq] at h1
  omega

theorem count_le (h : t.Inv cs ds) : t.count ≤ t.entryNextInsert := by
  rw [h.count_eq, ← h.length_add]
  omega

variable [EquivBEq K]

/-- Live entries with matching keys are the same entry. -/
theorem eq_of_key (h : t.Inv cs ds) {c c' : LiveEntry K D} (hc : c ∈ cs) (hc' : c' ∈ cs)
    (hk : (c.key == c'.key) = true) : c = c' := by
  have hd := h.distinct
  rw [Assoc.Distinct, List.pairwise_map] at hd
  have hsymm : Std.Symm fun a b : LiveEntry K D => (a.pair.1 == b.pair.1) = false :=
    ⟨fun a b hab => by rw [BEq.comm, hab]⟩
  by_contra hne
  have hfalse : (c.key == c'.key) = false := List.Pairwise.forall hd hc hc' hne
  rw [hk] at hfalse
  exact absurd hfalse (by simp)

end Htable.Inv

/-! ### The table that `htable_create` returns -/

/-- What `htable_create` returns when its allocations succeed. -/
theorem htableCreate_eq_some {al : CreateAlloc} {initialCap : ℕ} {t : Htable K D}
    (h : htableCreate al initialCap = some (some t)) :
    ∃ k, 1 ≤ k ∧ k ≤ 63 ∧ initialCap ≤ 2 ^ k ∧ 2 ^ (k - 1) < initialCap ∧ t =
      { entries := Block.malloc (u64 (2 ^ k * 3) / 4)
        indexList := Block.calloc (2 ^ k) htEmpty
        deletedIndexList := Block.malloc 0
        count := 0, entryNextInsert := 0, headIdx := uint32Max, tailIdx := uint32Max
        indexCapacity := 2 ^ k, entryCapacity := u64 (2 ^ k * 3) / 4
        deletedCount := 0, deletedCapacity := 0 } := by
  rw [htableCreate] at h
  split at h
  case isFalse => exact absurd h (by simp)
  rename_i h2
  simp only [Option.bind_eq_bind, Option.bind_eq_some_iff] at h
  obtain ⟨p, hp, h⟩ := h
  split at h
  case isFalse => exact absurd h (by simp)
  obtain ⟨k, hk1, hk63, rfl, hle, hlt⟩ := utilRoundCeil2Ull_spec h2 hp
  rw [Option.some_inj, Option.some_inj] at h
  exact ⟨k, hk1, hk63, hle, hlt, h.symm⟩

/-- Freshly allocated arrays hold an empty table, whatever the deleted list is. -/
theorem Htable.inv_fresh [BEq K] [Hashable K] {t : Htable K D} {k : ℕ} (hk1 : 1 ≤ k)
    (hk62 : k ≤ 62) (hcap : t.indexCapacity = 2 ^ k)
    (hecap : t.entryCapacity = t.indexCapacity * 3 / 4)
    (hil : t.indexList = Block.calloc t.indexCapacity htEmpty)
    (hes : t.entries = Block.malloc t.entryCapacity) (hnext : t.entryNextInsert = 0)
    (hhead : t.headIdx = uint32Max) (htail : t.tailIdx = uint32Max) (hcount : t.count = 0)
    (hdc : t.deletedCount = 0) (hds : t.deletedIndexList.size = t.deletedCapacity) :
    t.Inv [] [] := by
  have hread : ∀ s < t.indexCapacity, t.indexList.read s = some htEmpty := fun s hs => by
    rw [hil]
    exact Block.read_calloc htEmpty hs
  exact
    { cap_pow := ⟨k, hk1, hk62, hcap⟩
      entryCapacity_eq := hecap
      indexList_size := by rw [hil, Block.size_calloc]
      indexList_init := fun s hs => by rw [hread s hs]; rfl
      entries_size := by rw [hes, Block.size_malloc]
      nextInsert_le := by rw [hnext]; exact Nat.zero_le _
      nextInsert_lt := by rw [hnext]; decide
      slots := fun s hs i hi => by simp [indexCell, hread s hs] at hi
      slot_inj := fun s hs _ _ i hi => by simp [indexCell, hread s hs] at hi
      entry := by simp
      onPath := by simp
      distinct := List.Pairwise.nil
      links := by rw [hhead, htail]; exact DList.empty _ _ _
      partition := by simp [hnext]
      count_eq := hcount
      deletedCount_eq := hdc
      deleted_size := hds
      deleted_holds := Block.holds_nil _ }

/-- The created table is empty and satisfies the invariant. -/
theorem htableCreate_inv [BEq K] [Hashable K] {al : CreateAlloc} {initialCap : ℕ}
    {t : Htable K D} (hcap : t.indexCapacity ≤ 2 ^ 62)
    (h : htableCreate al initialCap = some (some t)) : t.Inv [] [] := by
  obtain ⟨k, hk1, -, -, -, rfl⟩ := htableCreate_eq_some h
  have hk62 : k ≤ 62 := (Nat.pow_le_pow_iff_right (by decide)).mp hcap
  have h64 : 2 ^ k * 3 < 2 ^ 64 := by simp only at hcap; omega
  exact Htable.inv_fresh hk1 hk62 rfl (by simp only [u64_of_lt h64]) rfl rfl rfl rfl rfl rfl rfl
    (Block.size_malloc 0)

end Freehttpd
