/-
How many keys a hash table can find.

An index slot holds a 32-bit number, and two of these do not name an entry.  This
needs no invariant: it holds of every table, however many keys were set.

* `Htable.SmallCells.set` — a call of `htable_set_with_flag` writes 32-bit numbers;
* `Htable.SmallCells.length_le` — no more than `UINT32_MAX - 1` different keys are
  found.
-/
import Freehttpd.HtableCounters
import Freehttpd.HtableMap

namespace Freehttpd

variable {K D : Type}

/-- The index slots hold 32-bit numbers. -/
def SmallCells (b : Block ℕ) : Prop := ∀ s v, b.read s = some v → v < 2 ^ 32

theorem SmallCells.put {b : Block ℕ} (h : SmallCells b) {i v : ℕ} (hv : v < 2 ^ 32) :
    SmallCells (b.put i v) := by
  intro s w hw
  rcases Nat.lt_or_ge i b.size with hi | hi
  · rw [Block.read_put _ hi] at hw
    split at hw
    · exact Option.some.inj hw ▸ hv
    · exact h s w hw
  · rw [Block.put, List.set_eq_of_length_le hi] at hw
    exact h s w hw

theorem SmallCells.calloc (n : ℕ) : SmallCells (Block.calloc n htEmpty) := by
  intro s v hv
  have hs := Block.lt_of_read hv
  rw [Block.size_calloc] at hs
  rw [Block.read_calloc _ hs, Option.some_inj] at hv
  rw [← hv, htEmpty]
  exact Nat.two_pow_pos 32

theorem u32_lt (n : ℕ) : u32 n < 2 ^ 32 := Nat.mod_lt _ (Nat.two_pow_pos 32)

namespace SmallCells

/-! ### Growth -/

theorem rehashEntry {t : Htable K D} {n m v : ℕ} {r r' : Rehash K D}
    (h : SmallCells r.newIndexList) (hr : Freehttpd.rehashEntry t n m v r = some (some r')) :
    SmallCells r'.newIndexList := by
  rw [Freehttpd.rehashEntry] at hr
  split at hr
  case isFalse => cases hr
  simp only [Option.bind_eq_bind, Option.bind_eq_some_iff] at hr
  obtain ⟨prev, -, link, -, target, -, hr⟩ := hr
  split at hr
  · cases hr
  · obtain ⟨l, hl, hr⟩ := Option.bind_eq_some_iff.mp hr
    rw [← Option.some.inj (Option.some.inj hr)]
    show SmallCells l
    rw [(Block.write_eq_some hl).2]
    exact h.put (u32_lt _)

theorem rehashLoop {t : Htable K D} {n m k i : ℕ} {r r' : Rehash K D}
    (h : SmallCells r.newIndexList)
    (hr : Freehttpd.rehashLoop t n m k i r = some (some r')) : SmallCells r'.newIndexList := by
  induction k generalizing i r with
  | zero =>
    rw [← Option.some.inj (Option.some.inj hr)]
    exact h
  | succ k ih =>
    rw [Freehttpd.rehashLoop, Option.bind_eq_bind, Option.bind_eq_some_iff] at hr
    obtain ⟨v, -, hr⟩ := hr
    split at hr
    · exact ih h hr
    · obtain ⟨o, ho, hr⟩ := Option.bind_eq_some_iff.mp hr
      cases o with
      | none => cases Option.some.inj hr
      | some r₁ => exact ih (h.rehashEntry ho) hr

theorem grow {calloc malloc : Bool} {t t' : Htable K D}
    (hr : htableGrow calloc malloc t = some (some t')) : SmallCells t'.indexList := by
  obtain ⟨r, hrehash, rfl⟩ := htableGrow_eq_some hr
  exact (SmallCells.calloc _).rehashLoop hrehash

/-! ### Insertion -/

variable [BEq K] [Hashable K]

theorem insert {t : Htable K D} (h : SmallCells t.indexList) {key : K} {data : Option D}
    {al : SetAlloc K key} {flagCreated : Bool} {r : SetResult K D}
    (hr : htableInsert t key data al flagCreated = some r) : SmallCells r.table.indexList := by
  obtain ⟨-, p, -, hr⟩ := htableInsert_outcome hr
  cases hr with
  | overwritten => exact h
  | full => exact h
  | uncopied => exact h
  | inserted hs hdup htake hwrite hlink =>
    obtain ⟨-, hlist, -⟩ := takeSlot_counters htake
    dsimp only
    rw [(Block.write_eq_some hwrite).2]
    exact (hlist ▸ h).put (u32_lt _)

/-- A call of `htable_set_with_flag` writes 32-bit numbers to the index. -/
theorem set {t : Htable K D} (h : SmallCells t.indexList) {key : K} {data : Option D}
    {al : SetAlloc K key} {flagCreated : Bool} {r : SetResult K D}
    (hr : htableSetWithFlag t key data al flagCreated = some r) :
    SmallCells r.table.indexList := by
  rcases htableSetWithFlag_eq_some hr with ⟨-, -, rfl⟩ | ⟨-, t₁, hgrow, hr⟩ | ⟨-, hr⟩
  · exact h
  · exact (SmallCells.grow hgrow).insert hr
  · exact h.insert hr

end SmallCells

/-! ### Search -/

section Search

variable [BEq K] {t : Htable K D}

/-- A search that succeeds ends at an entry that is named by the slot and has the key. -/
theorem findLoop_entry {key : K} {mask n s slot idx : ℕ}
    (h : findLoop t key mask n s = some (some (slot, idx))) :
    ∃ v e, t.indexList.read slot = some v ∧ v ≠ htEmpty ∧ v ≠ htDeleted ∧ idx = v - 1 ∧
      t.entries.read idx = some e ∧ (e.key == key) = true := by
  induction n generalizing s with
  | zero => cases Option.some.inj h
  | succ n ih =>
    rw [findLoop, Option.bind_eq_bind, Option.bind_eq_some_iff] at h
    obtain ⟨v, hread, h⟩ := h
    split at h
    · exact ih h
    · rename_i hdel
      split at h
      · cases Option.some.inj h
      · rename_i hempty
        obtain ⟨e, he, h⟩ := Option.bind_eq_some_iff.mp h
        split at h
        · rename_i hkey
          obtain ⟨rfl, rfl⟩ := Prod.mk.inj (Option.some.inj (Option.some.inj h))
          exact ⟨v, e, hread, hempty, hdel, rfl, he, hkey⟩
        · exact ih h

variable [Hashable K]

/-- What `htable_has` says of a key that has an entry. -/
theorem htableFind_of_has {key : K} (h : htableHas t key = some true) :
    ∃ slot idx, htableFind t key = some (some (slot, idx)) := by
  rw [htableHas, Option.bind_eq_bind, Option.bind_eq_some_iff] at h
  obtain ⟨⟨data, flag⟩, hget, hflag⟩ := h
  rw [htableGetWithFlag, Option.bind_eq_bind, Option.bind_eq_some_iff] at hget
  obtain ⟨o, hfind, hget⟩ := hget
  cases o with
  | none =>
    obtain ⟨-, rfl⟩ := Prod.mk.inj (Option.some.inj hget)
    cases hflag
  | some p => exact ⟨p.1, p.2, hfind⟩

/-- No more than `UINT32_MAX - 1` different keys have an entry. -/
theorem SmallCells.length_le [EquivBEq K] (h : SmallCells t.indexList) {keys : List K}
    (hdist : keys.Pairwise fun key key' => (key == key') = false)
    (hhas : ∀ key ∈ keys, htableHas t key = some true) : keys.length ≤ uint32Max - 1 := by
  have hpairs : Assoc.Distinct (keys.map fun key => (key, ())) :=
    List.pairwise_map.mpr hdist
  have hlen := hpairs.length_le (N := uint32Max - 1)
    (R := fun p n => ∃ e, t.entries.read n = some e ∧ (e.key == p.1) = true)
    (fun p hp => ?_) (fun p _ p' _ n hn hn' => ?_)
  · rwa [List.length_map] at hlen
  · -- A key is found through a slot, and its entry number is one less than what the slot holds.
    obtain ⟨key, hkey, rfl⟩ := List.mem_map.mp hp
    obtain ⟨slot, idx, hfind⟩ := htableFind_of_has (hhas key hkey)
    obtain ⟨v, e, hread, hempty, hdel, rfl, he, hek⟩ := findLoop_entry hfind
    have hlt := h slot v hread
    rw [htEmpty] at hempty
    rw [htDeleted, uint32Max] at hdel
    refine ⟨v - 1, ?_, e, he, hek⟩
    rw [uint32Max]
    omega
  · -- Two keys that are found in one entry are the same.
    obtain ⟨e, he, hek⟩ := hn
    obtain ⟨e', he', hek'⟩ := hn'
    obtain rfl : e = e' := Option.some.inj (he.symm.trans he')
    exact PartialEquivBEq.trans (BEq.symm hek) hek'

end Search

end Freehttpd
