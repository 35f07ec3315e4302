/-
One call of the hash table's interface, whatever its allocations do.

* `htableSetWithFlag_eq` — the growth check and the insertion put together: the
  table grows at most once, and then has room for one more entry;
* `htStep` — a call of any of the five functions, as a step of a machine;
* `htStep_eq` — what every step does to the contents of the table, in their
  order.
-/
import Freehttpd.HtableCalls
import Freehttpd.HtableDelete
import Freehttpd.HtableGrow

namespace Freehttpd

variable {K D : Type} [BEq K]

/-- The key a new entry gets: the copy, if there is one. -/
def SetAlloc.copy {key : K} (al : SetAlloc K key) : K :=
  match al.dupKey with
  | some dupKey => dupKey.1
  | none => key

theorem SetAlloc.copy_beq [ReflBEq K] {key : K} (al : SetAlloc K key) :
    (al.copy == key) = true := by
  rw [copy]
  split
  · exact Subtype.property (p := fun k => (k == key) = true) _
  · exact BEq.rfl

/-- All four allocations succeed. -/
def SetAlloc.Succeed {key : K} (al : SetAlloc K key) : Prop :=
  al.calloc = true ∧ al.malloc = true ∧ al.dupKey.isSome ∧ al.reallocDeleted = true

instance {key : K} (al : SetAlloc K key) : Decidable al.Succeed :=
  inferInstanceAs (Decidable (_ ∧ _ ∧ _ ∧ _))

/-- The allocations that decide whether the key is set: those of the growth, if
there is one, and the copy of the key. -/
def SetAlloc.Suffice {key : K} (al : SetAlloc K key) (t : Htable K D) : Prop :=
  (t.mustGrow = true → al.calloc = true ∧ al.malloc = true) ∧ al.dupKey.isSome

theorem SetAlloc.Succeed.suffice {key : K} {al : SetAlloc K key} (h : al.Succeed)
    (t : Htable K D) : al.Suffice t :=
  ⟨fun _ => ⟨h.1, h.2.1⟩, h.2.2.1⟩

/-! ### Setting a key -/

/-- The table that `htable_set_with_flag` inserts into, if the growth does not fail. -/
def Htable.behindGrowth (calloc malloc : Bool) (t : Htable K D) : Option (Htable K D) :=
  if t.mustGrow then (htableGrow calloc malloc t).join else some t

omit [BEq K] in
/-- The allocations matter only to a table that grows. -/
theorem Htable.behindGrowth_congr {calloc malloc : Bool} {t : Htable K D}
    (h : t.mustGrow = true → calloc = true ∧ malloc = true) :
    t.behindGrowth calloc malloc = t.behindGrowth true true := by
  rw [behindGrowth, behindGrowth]
  split
  · rename_i hg
    rw [(h hg).1, (h hg).2]
  · rfl

theorem htableSetWithFlag_of_behindGrowth [Hashable K] {t t₁ : Htable K D} {key : K}
    {data : Option D} {al : SetAlloc K key} {flagCreated : Bool}
    (h : t.behindGrowth al.calloc al.malloc = some t₁) :
    htableSetWithFlag t key data al flagCreated = htableInsert t₁ key data al flagCreated := by
  rw [Htable.behindGrowth] at h
  rw [htableSetWithFlag]
  split at h
  · rename_i hg
    rw [if_pos hg, Option.join_eq_some_iff.mp h]
    rfl
  · rename_i hg
    rw [if_neg hg, Option.some.inj h]

section Set

variable [Hashable K] [EquivBEq K] [LawfulHashable K] {t : Htable K D}
  {cs : List (LiveEntry K D)} {ds : List ℕ}

/-- The insertion behind the growth check: it fails only when the key cannot be
copied, and then nothing has changed. -/
theorem htableInsert_eq (h : t.Inv cs ds) (hlt : t.entryNextInsert < t.entryCapacity)
    (hlen : cs.length < t.indexCapacity) (key : K)
    (hmax : (∀ c ∈ cs, (c.key == key) = false) → t.count + 1 < uint32Max)
    (data : Option D) (al : SetAlloc K key) (flagCreated : Bool) :
    ∃ r cs' ds', htableInsert t key data al flagCreated = some r ∧
      r.table.indexCapacity = t.indexCapacity ∧
      r.table.entryNextInsert ≤ max t.entryNextInsert (cs.length + 1) ∧ r.table.Inv cs' ds' ∧
      ((r.ret = true ∧ r.flagCreated = !(Assoc.get (cs.map LiveEntry.pair) key).isSome ∧
          cs'.map LiveEntry.pair = Assoc.set (cs.map LiveEntry.pair) al.copy data) ∨
        (r.ret = false ∧ al.dupKey = none ∧
          cs'.map LiveEntry.pair = cs.map LiveEntry.pair)) := by
  rcases exists_mem_or_forall_ne cs key with ⟨c, hc, hk⟩ | hk
  · obtain ⟨t', ht', hcap, hinv⟩ := htableInsert_of_mem h hlt hc hk data al flagCreated
    refine ⟨_, _, _, ht', hcap, ?_, hinv, .inl ⟨rfl, ?_, ?_⟩⟩
    · have hlen' := hinv.length_add
      rw [overwriteLive, List.length_map, h.length_add] at hlen'
      rw [← hlen']
      exact Nat.le_max_left _ _
    · rw [Htable.Inv.get_of_mem h hc hk]
      rfl
    · have hk' : (c.key == al.copy) = true := BEq.trans hk (BEq.symm al.copy_beq)
      rw [← Htable.Inv.map_pair_overwrite hc hk' data, overwriteLive, overwriteLive]
      simp only [BEq.congr_right al.copy_beq]
  · cases hdup : al.dupKey with
    | none =>
      exact ⟨_, cs, ds, htableInsert_of_dup_none h hlt hk hlen data hdup flagCreated, rfl,
        Nat.le_max_left _ _, h, .inr ⟨rfl, rfl, rfl⟩⟩
    | some dupKey =>
      obtain ⟨t', idx, ds', ht', hcap, hnext, -, hinv⟩ :=
        htableInsert_of_forall_ne h hlt (hmax hk) hk hlen data hdup flagCreated
      have hcopy : al.copy = dupKey.1 := by rw [SetAlloc.copy, hdup]
      have hget := get_of_forall_ne (D := D) hk
      refine ⟨_, _, ds', ht', hcap, hnext, hinv, .inl ⟨rfl, by rw [hget]; rfl, ?_⟩⟩
      rw [hcopy, Assoc.set, if_neg]
      · simp [LiveEntry.pair]
      · rw [Assoc.any_iff_get_isSome, Assoc.get_congr dupKey.2, hget]
        exact Bool.false_ne_true

omit [EquivBEq K] [LawfulHashable K] in
/-- If the growth check passes there is room for one more entry. -/
theorem Htable.Inv.room_of_not_mustGrow (h : t.Inv cs ds) (hg : t.mustGrow = false) :
    t.entryNextInsert < t.entryCapacity ∧ cs.length < t.indexCapacity := by
  have hcap := h.cap_le
  have hcap2 := h.two_le_cap
  have hle := h.count_le
  have hmax := h.nextInsert_lt
  rw [uint32Max] at hmax
  rw [Htable.mustGrow, u64_of_lt (by omega), u64_of_lt (by omega), Bool.or_eq_false_iff,
    decide_eq_false_iff_not, decide_eq_false_iff_not] at hg
  rw [← h.count_eq]
  omega

omit [EquivBEq K] [LawfulHashable K] in
/-- A table that has to grow is small enough to. -/
theorem Htable.Inv.cap_le_of_mustGrow (h : t.Inv cs ds) (hg : t.mustGrow = true) :
    t.indexCapacity ≤ 2 ^ 61 := by
  have hcap := h.cap_le
  have hle := h.count_le
  have hmax := h.nextInsert_lt
  have hecap := h.entryCapacity_eq
  rw [uint32Max] at hmax
  rw [Htable.mustGrow, u64_of_lt (by omega), u64_of_lt (by omega), Bool.or_eq_true,
    decide_eq_true_eq, decide_eq_true_eq] at hg
  omega

omit [LawfulHashable K] in
/-- The table behind the growth check has the same contents and room for one more entry. -/
theorem Htable.Inv.behindGrowth_eq (h : t.Inv cs ds) :
    ∃ t₁ cs₁ ds₁, t.behindGrowth true true = some t₁ ∧ t₁.Inv cs₁ ds₁ ∧
      (cs₁.map LiveEntry.pair).Perm (cs.map LiveEntry.pair) ∧
      t₁.entryNextInsert < t₁.entryCapacity ∧ cs₁.length < t₁.indexCapacity ∧
      t.indexCapacity ≤ t₁.indexCapacity ∧
      t₁.entryNextInsert ≤ max t.entryNextInsert (cs.length + 1) ∧
      (t₁.indexCapacity = t.indexCapacity → cs₁.map LiveEntry.pair = cs.map LiveEntry.pair) := by
  by_cases hg : t.mustGrow = true
  · -- The grown table has no recycled slots, so its next slot is its number of entries.
    obtain ⟨t₁, cs₁, hgrow, hinv₁, hperm, hcap₁⟩ := htableGrow_eq h (h.cap_le_of_mustGrow hg)
    have hlen := hinv₁.length_add
    have hlen₁ := hperm.length_eq
    simp only [List.length_map, List.length_nil, Nat.add_zero] at hlen hlen₁
    have hle := h.count_le
    rw [h.count_eq] at hle
    have hnext := h.nextInsert_le
    have hcap := h.two_le_cap
    have hecap := h.entryCapacity_eq
    have hecap₁ := hinv₁.entryCapacity_eq
    refine ⟨t₁, cs₁, [], ?_, hinv₁, hperm, by omega, by omega, by omega, by omega,
      fun he => by omega⟩
    rw [Htable.behindGrowth, if_pos hg, hgrow]
    rfl
  · rw [Bool.not_eq_true] at hg
    obtain ⟨hlt, hlen⟩ := h.room_of_not_mustGrow hg
    refine ⟨t, cs, ds, ?_, h, List.Perm.refl _, hlt, hlen, Nat.le_refl _, Nat.le_max_left _ _,
      fun _ => rfl⟩
    rw [Htable.behindGrowth, if_neg (by rw [hg]; exact Bool.false_ne_true)]

omit [LawfulHashable K] in
/-- The growth check: the call fails and changes nothing, or it inserts into a table with
room for one more entry, which has the same contents. -/
theorem htableSetWithFlag_cases (h : t.Inv cs ds) (key : K) (data : Option D)
    (al : SetAlloc K key) (flagCreated : Bool) :
    (t.mustGrow = true ∧ ¬ (al.calloc = true ∧ al.malloc = true) ∧
        htableSetWithFlag t key data al flagCreated = some ⟨false, false, t⟩) ∨
      (t.mustGrow = true → al.calloc = true ∧ al.malloc = true) ∧ ∃ t₁ cs₁ ds₁,
        t₁.Inv cs₁ ds₁ ∧ (cs₁.map LiveEntry.pair).Perm (cs.map LiveEntry.pair) ∧
        t₁.entryNextInsert < t₁.entryCapacity ∧ cs₁.length < t₁.indexCapacity ∧
        t.indexCapacity ≤ t₁.indexCapacity ∧
        t₁.entryNextInsert ≤ max t.entryNextInsert (cs.length + 1) ∧
        (t₁.indexCapacity = t.indexCapacity → cs₁.map LiveEntry.pair = cs.map LiveEntry.pair) ∧
        htableSetWithFlag t key data al flagCreated = htableInsert t₁ key data al flagCreated := by
  by_cases hal : t.mustGrow = true → al.calloc = true ∧ al.malloc = true
  · obtain ⟨t₁, cs₁, ds₁, hgrown, hinv₁, hperm, hlt, hlen, hcap, hnext, hl⟩ := h.behindGrowth_eq
    refine .inr ⟨hal, t₁, cs₁, ds₁, hinv₁, hperm, hlt, hlen, hcap, hnext, hl,
      htableSetWithFlag_of_behindGrowth ?_⟩
    rw [Htable.behindGrowth_congr hal, hgrown]
  · rw [Classical.not_imp] at hal
    refine .inl ⟨hal.1, hal.2, ?_⟩
    have hfalse : (al.calloc && al.malloc) = false := by simpa using hal.2
    rw [htableSetWithFlag, if_pos hal.1, htableGrow, hfalse]
    rfl

omit [EquivBEq K] [LawfulHashable K] [Hashable K] in
/-- A key that matches no entry matches none of a list with the same contents. -/
theorem forall_ne_of_perm {cs₁ : List (LiveEntry K D)} {key : K}
    (hperm : (cs₁.map LiveEntry.pair).Perm (cs.map LiveEntry.pair))
    (hk : ∀ c ∈ cs, (c.key == key) = false) : ∀ c ∈ cs₁, (c.key == key) = false := by
  intro c₁ hc₁
  obtain ⟨c, hc, he⟩ := List.mem_map.mp (hperm.mem_iff.mp (List.mem_map_of_mem hc₁))
  have hkey : c.key = c₁.key := congrArg Prod.fst he
  exact hkey ▸ hk c hc

/-- What `htable_set_with_flag` does.  `l` is the contents in the order in which
the growth, if there is one, leaves them. -/
theorem htableSetWithFlag_eq (h : t.Inv cs ds) (key : K)
    (hmax : (∀ c ∈ cs, (c.key == key) = false) → t.count + 1 < uint32Max)
    (data : Option D) (al : SetAlloc K key) (flagCreated : Bool) :
    ∃ r cs' ds' l, htableSetWithFlag t key data al flagCreated = some r ∧
      r.table.Inv cs' ds' ∧ l.Perm (cs.map LiveEntry.pair) ∧
      t.indexCapacity ≤ r.table.indexCapacity ∧
      r.table.entryNextInsert ≤ max t.entryNextInsert (cs.length + 1) ∧
      (r.table.indexCapacity = t.indexCapacity → l = cs.map LiveEntry.pair) ∧
      ((r.ret = true ∧ r.flagCreated = !(Assoc.get (cs.map LiveEntry.pair) key).isSome ∧
          cs'.map LiveEntry.pair = Assoc.set l al.copy data) ∨
        (r.ret = false ∧ ¬ al.Suffice t ∧ cs'.map LiveEntry.pair = l)) := by
  rcases htableSetWithFlag_cases h key data al flagCreated with
    ⟨hg, hal, hset⟩ | ⟨-, t₁, cs₁, ds₁, hinv₁, hperm, hlt, hlen, hcap, hnext, hl, hset⟩
  · exact ⟨⟨false, false, t⟩, cs, ds, _, hset, h, List.Perm.refl _, Nat.le_refl _,
      Nat.le_max_left _ _, fun _ => rfl, .inr ⟨rfl, fun hs => hal (hs.1 hg), rfl⟩⟩
  · have hlen₁ := hperm.length_eq
    rw [List.length_map, List.length_map] at hlen₁
    have hmax₁ : (∀ c ∈ cs₁, (c.key == key) = false) → t₁.count + 1 < uint32Max := fun hk => by
      rw [hinv₁.count_eq, hlen₁, ← h.count_eq]
      exact hmax (forall_ne_of_perm hperm.symm hk)
    obtain ⟨r, cs', ds', hr, hrcap, hrnext, hinv, hcase⟩ :=
      htableInsert_eq hinv₁ hlt hlen key hmax₁ data al flagCreated
    have hget : Assoc.get (cs₁.map LiveEntry.pair) key = Assoc.get (cs.map LiveEntry.pair) key :=
      Assoc.get_perm hinv₁.distinct hperm key
    rw [hget] at hcase
    refine ⟨r, cs', ds', _, hset.trans hr, hinv, hperm, by omega, by omega,
      fun he => hl (hrcap.symm.trans he), hcase.imp_right fun hf => ⟨hf.1, fun hs => ?_, hf.2.2⟩⟩
    rw [SetAlloc.Suffice, hf.2.1] at hs
    exact Bool.false_ne_true hs.2

end Set

/-! ### The machine -/

/-- A call of one of the five functions, with the outcomes of its allocations. -/
inductive HtOp (K D : Type) [BEq K]
  | set (key : K) (data : Option D) (al : SetAlloc K key) (flagCreated : Bool)
  | get (key : K)
  | has (key : K)
  | delete (key : K) (reallocDeleted : Bool)
  | count

/-- What a call hands back: the return value, and the flag of the caller where
there is one. -/
inductive HtOut (D : Type)
  | set (ret flagCreated : Bool)
  | get (data : Option D) (flag : Bool)
  | has (ret : Bool)
  | delete (data : Option D) (flag : Bool)
  | count (ret : ℕ)
deriving DecidableEq, Repr

/-- One call. -/
def htStep [Hashable K] (t : Htable K D) : HtOp K D → Option (HtOut D × Htable K D)
  | .set key data al flagCreated => do
    let r ← htableSetWithFlag t key data al flagCreated
    some (.set r.ret r.flagCreated, r.table)
  | .get key => do
    let (data, flag) ← htableGetWithFlag t key
    some (.get data flag, t)
  | .has key => do
    let ret ← htableHas t key
    some (.has ret, t)
  | .delete key reallocDeleted => do
    let r ← htableDeleteWithFlag t key reallocDeleted
    some (.delete r.data r.flag, r.table)
  | .count => some (.count (htableCount t), t)

/-- The allocations of a call succeed. -/
def HtOp.Succeed : HtOp K D → Prop
  | .set _ _ al _ => al.Succeed
  | .delete _ reallocDeleted => reallocDeleted = true
  | _ => True

instance : ∀ op : HtOp K D, Decidable op.Succeed
  | .set _ _ al _ => inferInstanceAs (Decidable al.Succeed)
  | .delete _ reallocDeleted => inferInstanceAs (Decidable (reallocDeleted = true))
  | .get _ => .isTrue trivial
  | .has _ => .isTrue trivial
  | .count => .isTrue trivial

/-- What a plain finite map does with a call. -/
def mapStep (m : List (K × Option D)) : HtOp K D → HtOut D × List (K × Option D)
  | .set key data _ _ => (.set true !(Assoc.get m key).isSome, Assoc.set m key data)
  | .get key => (.get (Assoc.get m key).join (Assoc.get m key).isSome, m)
  | .has key => (.has (Assoc.get m key).isSome, m)
  | .delete key _ => (.delete (Assoc.get m key).join (Assoc.get m key).isSome, Assoc.del m key)
  | .count => (.count m.length, m)

/-- The contents, in their order, after a call that did not grow the table: an
absent key is appended, a present one keeps its place, a deleted one leaves. -/
def orderStep (l : List (K × Option D)) : HtOp K D → HtOut D → List (K × Option D)
  | .set _ data al _, .set true _ => Assoc.set l al.copy data
  | .delete key _, .delete _ true => Assoc.del l key
  | _, _ => l

/-- The set of a key that is not there finds less than `UINT32_MAX - 1` keys, so that the
number of its entry slot fits the index list. -/
def HtOp.Fits [Hashable K] (t : Htable K D) : HtOp K D → Prop
  | .set key _ _ _ => htableHas t key = some true ∨ t.count + 1 < uint32Max
  | _ => True

instance [Hashable K] (t : Htable K D) : ∀ op : HtOp K D, Decidable (op.Fits t)
  | .set key _ _ _ =>
    inferInstanceAs (Decidable (htableHas t key = some true ∨ t.count + 1 < uint32Max))
  | .get _ => .isTrue trivial
  | .has _ => .isTrue trivial
  | .delete _ _ => .isTrue trivial
  | .count => .isTrue trivial

section Step

variable [Hashable K] [EquivBEq K] [LawfulHashable K] {t : Htable K D}
  {cs : List (LiveEntry K D)} {ds : List ℕ}

omit [EquivBEq K] [LawfulHashable K] in
/-- Every call fits while the entry slots handed out are few. -/
theorem Htable.Inv.fits (h : t.Inv cs ds) (hmax : t.entryNextInsert + 1 < uint32Max)
    (op : HtOp K D) : op.Fits t := by
  have hle := h.count_le
  cases op with
  | set key data al flagCreated => exact .inr (by omega)
  | _ => trivial

/-- What a set that fits is told by the live entries. -/
theorem Htable.Inv.count_lt_of_fits (h : t.Inv cs ds) {key : K} {data : Option D}
    {al : SetAlloc K key} {flagCreated : Bool} (hfits : (HtOp.set key data al flagCreated).Fits t)
    (hk : ∀ c ∈ cs, (c.key == key) = false) : t.count + 1 < uint32Max := by
  rcases hfits with hhas | hlt
  · rw [htableHas, h.htableGetWithFlag_eq, get_of_forall_ne hk] at hhas
    exact absurd (Option.some.inj hhas) Bool.false_ne_true
  · exact hlt

/-- What a call does.  As in `htableSetWithFlag_eq`, `l` is the contents as the
growth leaves them. -/
theorem htStep_eq (h : t.Inv cs ds) {op : HtOp K D} (hfits : op.Fits t) :
    ∃ out t' cs' ds' l, htStep t op = some (out, t') ∧ t'.Inv cs' ds' ∧
      l.Perm (cs.map LiveEntry.pair) ∧ t.indexCapacity ≤ t'.indexCapacity ∧
      (t'.indexCapacity = t.indexCapacity → l = cs.map LiveEntry.pair) ∧
      cs'.map LiveEntry.pair = orderStep l op out ∧
      (op.Succeed → out = (mapStep (cs.map LiveEntry.pair) op).1) := by
  cases op with
  | set key data al flagCreated =>
    obtain ⟨r, cs', ds', l, hr, hinv, hperm, hcap, -, hl, hcase⟩ :=
      htableSetWithFlag_eq h key (h.count_lt_of_fits hfits) data al flagCreated
    refine ⟨.set r.ret r.flagCreated, r.table, cs', ds', l, by rw [htStep, hr]; rfl, hinv, hperm,
      hcap, hl, ?_, ?_⟩
    · rcases hcase with ⟨hret, -, hc⟩ | ⟨hret, -, hc⟩ <;> rw [hret] <;> exact hc
    · intro hs
      rcases hcase with ⟨hret, hf, -⟩ | ⟨-, hns, -⟩
      · rw [hret, hf]
        rfl
      · exact absurd (SetAlloc.Succeed.suffice hs t) hns
  | get key =>
    exact ⟨_, t, cs, ds, _, by rw [htStep, h.htableGetWithFlag_eq]; rfl, h, List.Perm.refl _,
      Nat.le_refl _, fun _ => rfl, rfl, fun _ => rfl⟩
  | has key =>
    exact ⟨_, t, cs, ds, _, by rw [htStep, htableHas, h.htableGetWithFlag_eq]; rfl, h,
      List.Perm.refl _, Nat.le_refl _, fun _ => rfl, rfl, fun _ => rfl⟩
  | delete key reallocDeleted =>
    rcases exists_mem_or_forall_ne cs key with ⟨c, hc, hk⟩ | hk
    · have hget := h.get_of_mem hc hk
      obtain ⟨cs₁, cs₂, rfl⟩ := List.append_of_mem hc
      rcases htableDelete_of_mem h hk reallocDeleted with ⟨hd, hr⟩ | ⟨-, t', hd, ⟨hcap, -⟩, hinv⟩
      · refine ⟨.delete none false, t, _, ds, _, by rw [htStep, hd]; rfl, h, List.Perm.refl _,
          Nat.le_refl _, fun _ => rfl, rfl, fun hs => ?_⟩
        exact absurd (.inl hs) hr
      · refine ⟨.delete c.data true, t', _, _, _, by rw [htStep, hd]; rfl, hinv, List.Perm.refl _,
          Nat.le_of_eq hcap.symm, fun _ => rfl, h.map_pair_remove hk, fun _ => ?_⟩
        rw [mapStep, hget]
        rfl
    · have hget := get_of_forall_ne (D := D) hk
      refine ⟨.delete none false, t, cs, ds, _,
        by rw [htStep, htableDelete_of_forall_ne h hk]; rfl, h, List.Perm.refl _,
        Nat.le_refl _, fun _ => rfl, rfl, fun _ => ?_⟩
      rw [mapStep, hget]
      rfl
  | count =>
    refine ⟨_, t, cs, ds, _, rfl, h, List.Perm.refl _, Nat.le_refl _, fun _ => rfl, rfl,
      fun _ => ?_⟩
    rw [mapStep, htableCount, h.count_eq, List.length_map]

end Step

end Freehttpd
