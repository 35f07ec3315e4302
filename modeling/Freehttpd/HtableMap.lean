/-
The hash table as a finite map.

`MapOf t m` says that the table `t` holds the association list `m`, whose laws
are `Assoc.get_set` and `Assoc.get_del`: the keys of `m` are distinct, and the
table gives every key the data that `m` gives it.

* `MapOf.getWithFlag_eq`, `MapOf.get_eq` — a lookup answers as the map does;
* `MapOf.set_of_count`, `MapOf.set`, `MapOf.set_key` — a call of `htable_set_with_flag`
  overwrites or appends, unless an allocation it needs fails, and hands out at
  most one entry slot more than there are keys;
* `MapOf.delete` — a call of `htable_delete_with_flag` removes the key, unless
  the deleted list cannot grow;
* `canDelete_of_set` — after an insertion it has room already, if it ever had
  memory.
-/
import Freehttpd.HtableStep

namespace Freehttpd

variable {K D : Type} [BEq K]

/-! ### The deleted list -/

omit [BEq K] in
/-- An insertion leaves room in the deleted list, if it has any memory at all. -/
theorem takeSlot_room {t t' : Htable K D} {reallocDeleted : Bool} {idx : ℕ}
    (hle : t.deletedCount ≤ t.deletedCapacity) (h : takeSlot reallocDeleted t = some (idx, t')) :
    t'.deletedCount < t'.deletedCapacity ↔ 0 < t.deletedCapacity := by
  rw [takeSlot] at h
  split at h
  · rename_i hne
    rw [Option.bind_eq_bind, Option.bind_eq_some_iff] at h
    obtain ⟨i, -, h⟩ := h
    refine iff_of_true ?_ (by omega)
    split at h
    · rename_i hshrink
      obtain ⟨-, rfl⟩ := Prod.mk.inj (Option.some.inj h)
      rw [Nat.shiftRight_eq_div_pow] at hshrink
      dsimp only
      rw [Nat.shiftRight_eq_div_pow]
      split <;> omega
    · obtain ⟨-, rfl⟩ := Prod.mk.inj (Option.some.inj h)
      dsimp only
      omega
  · rename_i he
    obtain ⟨-, rfl⟩ := Prod.mk.inj (Option.some.inj h)
    rw [show t.deletedCount = 0 by omega]

section Insert

variable [Hashable K] {t : Htable K D} {key : K} {data : Option D} {al : SetAlloc K key}
  {flagCreated : Bool} {r : SetResult K D}

theorem htableInsert_room (hle : t.deletedCount ≤ t.deletedCapacity)
    (hr : htableInsert t key data al flagCreated = some r) (hret : r.ret = true)
    (hnew : r.flagCreated = true) :
    r.table.deletedCount < r.table.deletedCapacity ↔ 0 < t.deletedCapacity := by
  obtain ⟨-, p, -, hr⟩ := htableInsert_outcome hr
  cases hr with
  | overwritten => exact Bool.noConfusion hnew
  | full => exact Bool.noConfusion hret
  | uncopied => exact Bool.noConfusion hret
  | inserted hs hdup htake hwrite hlink =>
    have hroom := takeSlot_room hle htake
    exact hroom

/-- After the insertion of a new key a deletion can recycle its slot unless the
deleted list still has no memory and gets none. -/
theorem canDelete_of_set (hle : t.deletedCount ≤ t.deletedCapacity)
    (hr : htableSetWithFlag t key data al flagCreated = some r) (hret : r.ret = true)
    (hnew : r.flagCreated = true) (reallocDeleted : Bool) :
    r.table.CanDelete reallocDeleted ↔ reallocDeleted = true ∨ 0 < t.deletedCapacity := by
  rw [Htable.CanDelete]
  refine or_congr Iff.rfl ?_
  rcases htableSetWithFlag_eq_some hr with ⟨-, -, rfl⟩ | ⟨-, t₁, hgrow, hr⟩ | ⟨-, hr⟩
  · exact Bool.noConfusion hret
  · -- Growth empties the deleted list and keeps its memory.
    have hcounts : t₁.deletedCount = 0 ∧ t₁.deletedCapacity = t.deletedCapacity := by
      obtain ⟨r₁, -, rfl⟩ := htableGrow_eq_some hgrow
      exact ⟨rfl, rfl⟩
    rw [← hcounts.2]
    exact htableInsert_room (by omega) hr hret hnew
  · exact htableInsert_room hle hr hret hnew

end Insert

/-! ### The map -/

/-- The table `t` holds the finite map `m`. -/
def MapOf [Hashable K] (t : Htable K D) (m : List (K × Option D)) : Prop :=
  ∃ cs ds, t.Inv cs ds ∧ Assoc.Distinct m ∧ m.length = cs.length ∧
    ∀ key, Assoc.get m key = Assoc.get (cs.map LiveEntry.pair) key

namespace MapOf

variable [Hashable K] {t : Htable K D} {m : List (K × Option D)}

theorem distinct (h : MapOf t m) : Assoc.Distinct m := by
  obtain ⟨-, -, -, hd, -⟩ := h
  exact hd

theorem length_le (h : MapOf t m) : m.length ≤ t.entryNextInsert := by
  obtain ⟨cs, ds, hinv, -, hlen, -⟩ := h
  rw [hlen, ← hinv.length_add]
  exact Nat.le_add_right _ _

theorem deletedCount_le (h : MapOf t m) : t.deletedCount ≤ t.deletedCapacity := by
  obtain ⟨cs, ds, hinv, -⟩ := h
  rw [hinv.deletedCount_eq, ← hinv.deleted_size]
  exact hinv.deleted_holds.length_le

theorem count_eq (h : MapOf t m) : t.count = m.length := by
  obtain ⟨cs, ds, hinv, -, hlen, -⟩ := h
  rw [hlen, hinv.count_eq]

/-- A created table holds the empty map. -/
theorem create {al : CreateAlloc} {initialCap : ℕ} (hcap : initialCap ≤ 2 ^ 62)
    (h : htableCreate al initialCap = some (some t)) : MapOf t [] ∧ t.entryNextInsert = 0 := by
  obtain ⟨k, -, -, -, hlt, rfl⟩ := htableCreate_eq_some h
  refine ⟨⟨[], [], htableCreate_inv ?_ h, List.Pairwise.nil, rfl, fun _ => rfl⟩, rfl⟩
  have hk : k - 1 < 62 := (Nat.pow_lt_pow_iff_right (a := 2) (by decide)).mp
    (Nat.lt_of_lt_of_le hlt hcap)
  exact Nat.pow_le_pow_right (by decide) (by omega)

variable [EquivBEq K] [LawfulHashable K]

theorem getWithFlag_eq (h : MapOf t m) (key : K) :
    htableGetWithFlag t key = some ((Assoc.get m key).join, (Assoc.get m key).isSome) := by
  obtain ⟨cs, ds, hinv, -, -, hget⟩ := h
  rw [hinv.htableGetWithFlag_eq, hget]

theorem get_eq (h : MapOf t m) (key : K) : htableGet t key = some (Assoc.get m key).join := by
  rw [htableGet, h.getWithFlag_eq]
  rfl

/-- The search finds the keys of the map. -/
theorem find_eq (h : MapOf t m) (key : K) :
    ∃ found, htableFind t key = some found ∧ found.isSome = (Assoc.get m key).isSome := by
  have hget := h.getWithFlag_eq key
  rw [htableGetWithFlag, Option.bind_eq_bind, Option.bind_eq_some_iff] at hget
  obtain ⟨found, hfind, hget⟩ := hget
  refine ⟨found, hfind, ?_⟩
  cases found with
  | none => exact (Prod.mk.inj (Option.some.inj hget)).2
  | some p =>
    obtain ⟨entry, -, hget⟩ := Option.bind_eq_some_iff.mp hget
    exact (Prod.mk.inj (Option.some.inj hget)).2

/-- Setting a key; a new one must leave the last entry number unused.  The key that is
stored is the copy. -/
theorem set_of_count (h : MapOf t m) (key : K)
    (hmax : Assoc.get m key = none → m.length + 1 < uint32Max) (data : Option D)
    (al : SetAlloc K key) (flagCreated : Bool) :
    ∃ r, htableSetWithFlag t key data al flagCreated = some r ∧
      r.table.entryNextInsert ≤ max t.entryNextInsert (m.length + 1) ∧
      ((r.ret = true ∧ r.flagCreated = !(Assoc.get m key).isSome ∧
          MapOf r.table (Assoc.set m al.copy data)) ∨
        (r.ret = false ∧ ¬ al.Suffice t ∧ MapOf r.table m)) := by
  have hcount := h.count_eq
  obtain ⟨cs, ds, hinv, hdist, hlen, hget⟩ := h
  have hmax' : (∀ c ∈ cs, (c.key == key) = false) → t.count + 1 < uint32Max := fun hne =>
    hcount ▸ hmax ((hget key).trans (get_of_forall_ne hne))
  obtain ⟨r, cs', ds', l, hr, hinv', hperm, -, hnext, -, hcase⟩ :=
    htableSetWithFlag_eq hinv key hmax' data al flagCreated
  have hl : ∀ key, Assoc.get m key = Assoc.get l key := fun key => by
    rw [hget, Assoc.get_perm (hinv.distinct.perm hperm.symm) hperm]
  have hllen : m.length = l.length := by rw [hlen, hperm.length_eq, List.length_map]
  rw [← hlen] at hnext
  refine ⟨r, hr, hnext, hcase.imp ?_ ?_⟩
  · rintro ⟨hret, hflag, hcs⟩
    refine ⟨hret, by rw [hflag, hget], cs', ds', hinv', hdist.set _ _, ?_, fun k => ?_⟩
    · rw [← List.length_map (f := LiveEntry.pair), hcs, Assoc.length_set, Assoc.length_set,
        hllen, hl]
    · rw [hcs, Assoc.get_set, Assoc.get_set, hl]
  · rintro ⟨hret, hs, hcs⟩
    refine ⟨hret, hs, cs', ds', hinv', hdist, ?_, fun k => ?_⟩
    · rw [← List.length_map (f := LiveEntry.pair), hcs, hllen]
    · rw [hcs, hl]

/-- Setting a key of a table that is far from its limit. -/
theorem set (h : MapOf t m) (hmax : t.entryNextInsert + 1 < uint32Max) (key : K)
    (data : Option D) (al : SetAlloc K key) (flagCreated : Bool) :
    ∃ r, htableSetWithFlag t key data al flagCreated = some r ∧
      r.table.entryNextInsert ≤ max t.entryNextInsert (m.length + 1) ∧
      ((r.ret = true ∧ r.flagCreated = !(Assoc.get m key).isSome ∧
          MapOf r.table (Assoc.set m al.copy data)) ∨
        (r.ret = false ∧ ¬ al.Suffice t ∧ MapOf r.table m)) :=
  h.set_of_count key
    (fun _ => Nat.lt_of_le_of_lt (Nat.succ_le_succ h.length_le) hmax) data al flagCreated

omit [EquivBEq K] [LawfulHashable K] in
/-- The map may be given by any list with the same lookups. -/
theorem congr (h : MapOf t m) {m' : List (K × Option D)} (hdist : Assoc.Distinct m')
    (hlen : m'.length = m.length) (hget : ∀ key, Assoc.get m' key = Assoc.get m key) :
    MapOf t m' := by
  obtain ⟨cs, ds, hinv, -, hlen', hget'⟩ := h
  exact ⟨cs, ds, hinv, hdist, hlen.trans hlen', fun key => (hget key).trans (hget' key)⟩

/-- Setting a key, as the lookups see it.  A new key needs its allocations. -/
theorem set_key (h : MapOf t m) (key : K)
    (hmax : Assoc.get m key = none → m.length + 1 < uint32Max) (data : Option D)
    (al : SetAlloc K key) (flagCreated : Bool) :
    ∃ r, htableSetWithFlag t key data al flagCreated = some r ∧
      r.table.entryNextInsert ≤ max t.entryNextInsert (m.length + 1) ∧
      ((MapOf r.table (Assoc.set m key data) ∧ (Assoc.get m key = none → al.Suffice t)) ∨
        (¬ al.Suffice t ∧ MapOf r.table m)) := by
  obtain ⟨r, hr, hnext, hcase⟩ := h.set_of_count key hmax data al flagCreated
  refine ⟨r, hr, hnext, hcase.imp ?_ ?_⟩
  · rintro ⟨hret, -, hmap⟩
    refine ⟨hmap.congr (h.distinct.set _ _) ?_ fun k => ?_, fun hnone => ?_⟩
    · rw [Assoc.length_set, Assoc.length_set, Assoc.get_congr al.copy_beq]
    · rw [Assoc.get_set, Assoc.get_set, BEq.congr_left al.copy_beq]
    · obtain ⟨cs, ds, hinv, -, -, hget⟩ := h
      have hne : ∀ c ∈ cs, (c.key == key) = false := by
        rcases exists_mem_or_forall_ne cs key with ⟨c, hc, hck⟩ | hne
        · rw [hget, hinv.get_of_mem hc hck] at hnone
          cases hnone
        · exact hne
      rcases htableSetWithFlag_cases hinv key data al flagCreated with
        ⟨-, -, hfail⟩ | ⟨hal, t₁, cs₁, ds₁, hinv₁, hperm, hlt, hlen, -, -, -, hins⟩
      · rw [hr, Option.some_inj] at hfail
        rw [hfail] at hret
        cases hret
      · refine ⟨hal, Option.isSome_iff_ne_none.mpr fun hdup => ?_⟩
        rw [hins, htableInsert_of_dup_none hinv₁ hlt (forall_ne_of_perm hperm hne) hlen data hdup
          flagCreated, Option.some_inj] at hr
        rw [← hr] at hret
        cases hret
  · rintro ⟨-, hns, hmap⟩
    exact ⟨hns, hmap⟩

omit [EquivBEq K] [LawfulHashable K] in
/-- A growth that fails is reported. -/
theorem suffice_of_set {key : K} {al : SetAlloc K key} {data : Option D} {flagCreated : Bool}
    {r : SetResult K D} (hdup : al.dupKey.isSome)
    (hr : htableSetWithFlag t key data al flagCreated = some r) (hret : r.ret = true) :
    al.Suffice t := by
  refine ⟨fun hg => ?_, hdup⟩
  by_contra hal
  have hfalse : (al.calloc && al.malloc) = false := by simpa using hal
  rw [htableSetWithFlag, if_pos hg, htableGrow, hfalse] at hr
  obtain rfl : r = ⟨false, false, t⟩ := (Option.some.inj hr).symm
  exact Bool.noConfusion hret

/-- Deleting a present key: it is removed, or the deleted list could not
grow. -/
theorem delete (h : MapOf t m) {key : K} (hk : (Assoc.get m key).isSome)
    (reallocDeleted : Bool) :
    ∃ r, htableDeleteWithFlag t key reallocDeleted = some r ∧
      r.table.entryNextInsert = t.entryNextInsert ∧
      ((t.CanDelete reallocDeleted ∧ r.flag = true ∧ MapOf r.table (Assoc.del m key)) ∨
        (¬ t.CanDelete reallocDeleted ∧ r.flag = false ∧ r.table = t)) := by
  obtain ⟨cs, ds, hinv, hdist, hlen, hget⟩ := h
  rcases exists_mem_or_forall_ne cs key with ⟨c, hc, hck⟩ | hne
  · obtain ⟨cs₁, cs₂, rfl⟩ := List.append_of_mem hc
    rcases htableDelete_of_mem hinv hck reallocDeleted with ⟨hd, hr⟩ | ⟨hcan, t', hd, -, hinv'⟩
    · exact ⟨_, hd, rfl, .inr ⟨hr, rfl, rfl⟩⟩
    · refine ⟨_, hd, ?_, .inl ⟨hcan, rfl, _, _, hinv', hdist.del key, ?_, fun k => ?_⟩⟩
      · have hlen₁ := hinv.length_add
        have hlen₂ := hinv'.length_add
        simp only [List.length_append, List.length_cons, List.length_nil] at hlen₁ hlen₂
        show t'.entryNextInsert = t.entryNextInsert
        omega
      · rw [hdist.length_del, if_pos hk, hlen]
        simp only [List.length_append, List.length_cons]
        omega
      · rw [hinv.map_pair_remove hck, Assoc.get_del, Assoc.get_del, hget]
  · rw [hget, get_of_forall_ne hne] at hk
    exact absurd hk Bool.false_ne_true

omit [LawfulHashable K] in
/-- Deleting an absent key does nothing. -/
theorem delete_absent (h : MapOf t m) {key : K} (hk : Assoc.get m key = none)
    (reallocDeleted : Bool) :
    htableDeleteWithFlag t key reallocDeleted = some ⟨none, false, none, t⟩ := by
  obtain ⟨cs, ds, hinv, -, -, hget⟩ := h
  rcases exists_mem_or_forall_ne cs key with ⟨c, hc, hck⟩ | hne
  · rw [hget, hinv.get_of_mem hc hck] at hk
    cases hk
  · exact htableDelete_of_forall_ne hinv hne reallocDeleted

end MapOf

end Freehttpd
