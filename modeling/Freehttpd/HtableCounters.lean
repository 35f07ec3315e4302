/-
The counters of the hash table: its capacities, the slots of its index list by
kind, the number of keys and of recycled entry slots.

Nothing is assumed of the keys, and the numbers may wrap.  `HtEffect t op t'` lists
what a call can do to the counters:

* `htableInsert_effect`, `htableGrow_effect`, `htableDelete_effect` — the parts;
* `htStep_effect` — a call of the interface.
-/
import Freehttpd.HtableStep

namespace Freehttpd

variable {K D : Type}

/-- A cell of the index list is not `HT_EMPTY`. -/
def isUsed (c : Option ℕ) : Bool := c ≠ some htEmpty

/-- A cell of the index list names an entry. -/
def isFull (c : Option ℕ) : Bool := c ≠ some htEmpty && c ≠ some htDeleted

/-- The number of non-`EMPTY` index slots: live entries and tombstones. -/
def Htable.usedSlots (t : Htable K D) : ℕ := t.indexList.countCells isUsed

/-- The number of index slots that name an entry. -/
def Htable.fullSlots (t : Htable K D) : ℕ := t.indexList.countCells isFull

theorem Htable.fullSlots_le_usedSlots (t : Htable K D) : t.fullSlots ≤ t.usedSlots :=
  Block.countCells_mono fun c hc => by
    rw [isFull, Bool.and_eq_true] at hc
    exact hc.1

/-- A cell that is not full may be taken by `htable_set_with_flag`. -/
theorem isFull_eq_false_iff {c : Option ℕ} :
    isFull c = false ↔ c = some htEmpty ∨ c = some htDeleted := by
  simp [isFull, or_iff_not_imp_left]

theorem isFull_some_iff {v : ℕ} : isFull (some v) = true ↔ ¬ (v = htEmpty ∨ v = htDeleted) := by
  simp [isFull, not_or]

/-- The tables have the same capacities. -/
def Htable.SameCap (t t' : Htable K D) : Prop :=
  t'.indexCapacity = t.indexCapacity ∧ t'.entryCapacity = t.entryCapacity ∧
    t'.indexList.size = t.indexList.size

/-- The entry slot of a new entry: a recycled one if there is one, else the next
unused one. -/
def Htable.SlotTaken (t t' : Htable K D) : Prop :=
  (t.deletedCount ≠ 0 ∧ t'.deletedCount = t.deletedCount - 1 ∧
      t'.entryNextInsert = t.entryNextInsert) ∨
    (t.deletedCount = 0 ∧ t'.deletedCount = 0 ∧
      t'.entryNextInsert = u32 (t.entryNextInsert + 1))

/-- The counters stay as they are. -/
structure Htable.SameCounters (t t' : Htable K D) : Prop where
  cap : t.SameCap t'
  list : t'.indexList = t.indexList
  count : t'.count = t.count
  next : t'.entryNextInsert = t.entryNextInsert
  deleted : t'.deletedCount = t.deletedCount

/-- A new entry is named by index slot `s`, which was free. -/
structure Htable.Inserts (t : Htable K D) (s : ℕ) (t' : Htable K D) : Prop where
  cap : t.SameCap t'
  lt : s < t.indexList.size
  free : isFull (t.indexList.read s) = false
  list : ∃ v, t'.indexList = t.indexList.put s v
  count : t'.count = u64 (t.count + 1)
  slot : t.SlotTaken t'

/-- The entry that index slot `s` names is recycled. -/
structure Htable.Deletes (t : Htable K D) (s : ℕ) (t' : Htable K D) : Prop where
  cap : t.SameCap t'
  lt : s < t.indexList.size
  full : isFull (t.indexList.read s) = true
  list : t'.indexList = t.indexList.put s htDeleted
  count : t'.count = t.count - 1
  next : t'.entryNextInsert = t.entryNextInsert
  deleted : t'.deletedCount = u64 (t.deletedCount + 1)

/-- The index is doubled and the entries are moved over. -/
structure Htable.Grows (t t' : Htable K D) : Prop where
  cap : t'.indexCapacity = u64 (t.indexCapacity <<< 1)
  entryCap : t'.entryCapacity = u64 (t'.indexCapacity * 3) / 4
  size : t'.indexList.size = t'.indexCapacity
  count : t'.count = t.count
  used : t'.usedSlots ≤ t.fullSlots
  next : t'.entryNextInsert ≤ t.fullSlots
  deleted : t'.deletedCount = 0

theorem Htable.SameCounters.refl (t : Htable K D) : t.SameCounters t :=
  ⟨⟨rfl, rfl, rfl⟩, rfl, rfl, rfl, rfl⟩

/-- An insertion adds one to the keys, and at most one to the slots in use: none if it
takes a tombstone. -/
theorem Htable.Inserts.counts {t t' : Htable K D} {s : ℕ} (hi : t.Inserts s t') :
    t'.fullSlots ≤ t.fullSlots + 1 ∧ t'.usedSlots ≤ t.usedSlots + 1 ∧
      (t.indexList.read s ≠ some htEmpty → t'.usedSlots ≤ t.usedSlots) := by
  obtain ⟨v, hlist⟩ := hi.list
  have hfull := Block.countCells_put isFull v hi.lt
  have hused := Block.countCells_put isUsed v hi.lt
  rw [hi.free, if_neg Bool.false_ne_true] at hfull
  have hone : (if isFull (some v) then 1 else 0) ≤ 1 := by split <;> omega
  have hone' : (if isUsed (some v) then 1 else 0) ≤ 1 := by split <;> omega
  rw [Htable.fullSlots, Htable.fullSlots, Htable.usedSlots, Htable.usedSlots, hlist]
  refine ⟨by omega, by omega, fun hne => ?_⟩
  rw [if_pos (show isUsed (t.indexList.read s) = true by simpa [isUsed] using hne)] at hused
  omega

/-- A deletion turns an entry into a tombstone. -/
theorem Htable.Deletes.counts {t t' : Htable K D} {s : ℕ} (hd : t.Deletes s t') :
    t'.fullSlots + 1 = t.fullSlots ∧ t'.usedSlots = t.usedSlots := by
  have hfull := Block.countCells_put isFull htDeleted hd.lt
  have hused := Block.countCells_put isUsed htDeleted hd.lt
  have hread : isUsed (t.indexList.read s) = true := by
    have hf := hd.full
    rw [isFull, Bool.and_eq_true] at hf
    exact hf.1
  rw [hd.full, if_pos rfl, if_neg (by decide)] at hfull
  rw [hread, if_pos rfl, if_pos (by decide)] at hused
  rw [Htable.fullSlots, Htable.fullSlots, Htable.usedSlots, Htable.usedSlots, hd.list]
  omega

/-- The probe of `htable_set_with_flag`. -/
def Htable.setProbe [BEq K] [Hashable K] (t : Htable K D) (key : K) : Option SetProbe :=
  setProbeLoop t key (t.indexCapacity - 1) t.indexCapacity
    ((hash key).toNat &&& (t.indexCapacity - 1)) uint64Max

/-- What a call can do to the counters. -/
inductive HtEffect [BEq K] [Hashable K] (t : Htable K D) : HtOp K D → Htable K D → Prop
  | same {op t'} (h : t.SameCounters t') : HtEffect t op t'
  | set {key data al flag t' s} (hgrow : t.mustGrow = false)
      (hroom : t.entryNextInsert < t.entryCapacity) (hprobe : t.setProbe key = some (.absent s))
      (h : t.Inserts s t') : HtEffect t (.set key data al flag) t'
  | grow {key data al flag t₁ t'} (hgrow : t.mustGrow = true) (h₁ : t.Grows t₁)
      (hroom : t₁.entryNextInsert < t₁.entryCapacity)
      (h : t₁.SameCounters t' ∨ ∃ s, t₁.Inserts s t') : HtEffect t (.set key data al flag) t'
  | delete {key reallocDeleted t' s} (h : t.Deletes s t') :
      HtEffect t (.delete key reallocDeleted) t'

/-! ### Insertion -/

/-- The probe loop of a set ends at the slot it had in hand, or at one that may be
taken. -/
theorem setProbeLoop_absent [BEq K] {t : Htable K D} {key : K} {mask n h target s : ℕ}
    (hrun : setProbeLoop t key mask n h target = some (.absent s)) (hne : s ≠ target) :
    isFull (t.indexList.read s) = false ∧ s < t.indexList.size := by
  induction n generalizing h target with
  | zero => exact absurd (SetProbe.absent.inj (Option.some.inj hrun)).symm hne
  | succ n ih =>
    rw [setProbeLoop, Option.bind_eq_bind, Option.bind_eq_some_iff] at hrun
    obtain ⟨v, hread, hrun⟩ := hrun
    have hfree : v = htEmpty ∨ v = htDeleted →
        isFull (t.indexList.read h) = false ∧ h < t.indexList.size := fun hv => by
      refine ⟨isFull_eq_false_iff.mpr ?_, Block.lt_of_read hread⟩
      rw [hread]
      exact hv.imp (congrArg some) (congrArg some)
    split at hrun
    · rename_i hdel
      by_cases hsh : s = h
      · rw [hsh]
        exact hfree (.inr hdel)
      · refine ih hrun ?_
        split
        · exact hsh
        · exact hne
    · split at hrun
      · rename_i hempty
        have hs := SetProbe.absent.inj (Option.some.inj hrun)
        split at hs
        · rw [← hs]
          exact hfree (.inl hempty)
        · exact absurd hs.symm hne
      · obtain ⟨e, -, hrun⟩ := Option.bind_eq_some_iff.mp hrun
        split at hrun
        · cases Option.some.inj hrun
        · exact ih hrun hne

/-- The slot for a new entry. -/
theorem takeSlot_counters {reallocDeleted : Bool} {t t' : Htable K D} {idx : ℕ}
    (h : takeSlot reallocDeleted t = some (idx, t')) :
    t.SameCap t' ∧ t'.indexList = t.indexList ∧ t'.count = t.count ∧ t.SlotTaken t' := by
  rw [takeSlot] at h
  split at h
  · rename_i hne
    obtain ⟨i, -, h⟩ := Option.bind_eq_some_iff.mp h
    split at h
    · obtain ⟨-, rfl⟩ := Prod.mk.inj (Option.some.inj h)
      exact ⟨⟨rfl, rfl, rfl⟩, rfl, rfl, .inl ⟨hne, rfl, rfl⟩⟩
    · obtain ⟨-, rfl⟩ := Prod.mk.inj (Option.some.inj h)
      exact ⟨⟨rfl, rfl, rfl⟩, rfl, rfl, .inl ⟨hne, rfl, rfl⟩⟩
  · rename_i hz
    rw [not_not] at hz
    obtain ⟨-, rfl⟩ := Prod.mk.inj (Option.some.inj h)
    exact ⟨⟨rfl, rfl, rfl⟩, rfl, rfl, .inr ⟨hz, hz, rfl⟩⟩

section Insert

variable [BEq K] [Hashable K] {t : Htable K D}

/-- An insertion leaves the counters alone, or takes the slot where its probe ends. -/
theorem htableInsert_effect {key : K} {data : Option D} {al : SetAlloc K key} {flag : Bool}
    {r : SetResult K D} (h : htableInsert t key data al flag = some r) :
    t.entryNextInsert < t.entryCapacity ∧ (t.SameCounters r.table ∨
      ∃ s, t.setProbe key = some (.absent s) ∧ t.Inserts s r.table) := by
  obtain ⟨hroom, p, hprobe, h⟩ := htableInsert_outcome h
  refine ⟨hroom, ?_⟩
  cases h with
  | overwritten => exact .inl ⟨⟨rfl, rfl, rfl⟩, rfl, rfl, rfl, rfl⟩
  | full => exact .inl (.refl t)
  | uncopied => exact .inl (.refl t)
  | inserted hne hdup htake hw hlink =>
    obtain ⟨hfree, hs⟩ := setProbeLoop_absent hprobe hne
    obtain ⟨⟨hcap, hecap, hsize⟩, hlist, hcount, hslot⟩ := takeSlot_counters htake
    rw [hlist, Block.write_of_lt _ hs, Option.some_inj] at hw
    refine .inr ⟨_, hprobe, ⟨hcap, hecap, ?_⟩, hs, hfree, ⟨_, hw.symm⟩, ?_, hslot⟩
    · rw [← hw]
      exact Block.size_put _ _ _
    · dsimp only
      rw [hcount]

end Insert

/-! ### Growth -/

/-- The inner loop of the rehash ends at an empty slot. -/
theorem rehashProbe_empty {il : Block ℕ} {mask n h target : ℕ}
    (hrun : rehashProbe il mask n h = some target) (hne : target ≠ uint64Max) :
    il.read target = some htEmpty := by
  induction n generalizing h with
  | zero => exact absurd (Option.some.inj hrun).symm hne
  | succ n ih =>
    obtain ⟨v, hread, hrun⟩ := Option.bind_eq_some_iff.mp hrun
    split at hrun
    · rename_i hv
      rw [← Option.some.inj hrun, hread, hv]
    · exact ih hrun

/-- The body of the rehash uses one more slot of the new index, and one entry slot. -/
theorem rehashEntry_counters {t : Htable K D} {cap ecap v : ℕ} {r r' : Rehash K D}
    (h : rehashEntry t cap ecap v r = some (some r')) :
    r'.newIndexList.size = r.newIndexList.size ∧
      r'.newIndexList.countCells isUsed ≤ r.newIndexList.countCells isUsed + 1 ∧
      r'.newIdxCounter ≤ r.newIdxCounter + 1 := by
  rw [rehashEntry] at h
  split at h
  case isFalse => cases h
  obtain ⟨prev, -, h⟩ := Option.bind_eq_some_iff.mp h
  obtain ⟨⟨entries, headIdx, tailIdx⟩, -, h⟩ := Option.bind_eq_some_iff.mp h
  obtain ⟨target, hprobe, h⟩ := Option.bind_eq_some_iff.mp h
  split at h
  · cases Option.some.inj h
  · rename_i hne
    obtain ⟨il, hw, h⟩ := Option.bind_eq_some_iff.mp h
    obtain rfl := Option.some.inj (Option.some.inj h)
    have hlt := Block.lt_of_read (rehashProbe_empty hprobe hne)
    rw [Block.write_of_lt _ hlt, Option.some_inj] at hw
    rw [← hw]
    refine ⟨Block.size_put _ _ _, ?_, Nat.mod_le _ _⟩
    have hcount := Block.countCells_put isUsed (u32 (r.newIdxCounter + 1)) hlt
    have hone : (if isUsed (some (u32 (r.newIdxCounter + 1))) then 1 else 0) ≤ 1 := by
      split <;> omega
    dsimp only
    omega

/-- The outer loop moves the entries that the slots from `i` on name. -/
theorem rehashLoop_counters {t : Htable K D} {cap ecap n i : ℕ} {r r' : Rehash K D}
    (hn : i + n = t.indexList.size) (h : rehashLoop t cap ecap n i r = some (some r')) :
    r'.newIndexList.size = r.newIndexList.size ∧
      r'.newIndexList.countCells isUsed
        ≤ r.newIndexList.countCells isUsed + (t.indexList.cells.drop i).countP isFull ∧
      r'.newIdxCounter ≤ r.newIdxCounter + (t.indexList.cells.drop i).countP isFull := by
  induction n generalizing i r with
  | zero =>
    obtain rfl := Option.some.inj (Option.some.inj h)
    exact ⟨rfl, Nat.le_add_right _ _, Nat.le_add_right _ _⟩
  | succ n ih =>
    obtain ⟨v, hread, h⟩ := Option.bind_eq_some_iff.mp h
    have hi : i < t.indexList.cells.length := Block.lt_of_read hread
    have hcell : t.indexList.cells[i] = some v := by
      rw [Block.read, List.getElem?_eq_getElem hi] at hread
      exact hread
    rw [List.drop_eq_getElem_cons hi, List.countP_cons, hcell]
    split at h
    · obtain ⟨hsize, hused, hnext⟩ := ih (by omega) h
      exact ⟨hsize, by omega, by omega⟩
    · rename_i hv
      rw [if_pos (isFull_some_iff.mpr hv)]
      obtain ⟨o, hentry, h⟩ := Option.bind_eq_some_iff.mp h
      cases o with
      | none => cases Option.some.inj h
      | some r₁ =>
        obtain ⟨hsize₁, hused₁, hnext₁⟩ := rehashEntry_counters hentry
        obtain ⟨hsize, hused, hnext⟩ := ih (by omega) h
        exact ⟨hsize.trans hsize₁, by omega, by omega⟩

theorem htableGrow_effect {calloc malloc : Bool} {t t' : Htable K D}
    (hsize : t.indexList.size = t.indexCapacity)
    (h : htableGrow calloc malloc t = some (some t')) : t.Grows t' := by
  obtain ⟨r, hrehash, rfl⟩ := htableGrow_eq_some h
  obtain ⟨hrsize, hused, hnext⟩ := rehashLoop_counters (by rw [hsize, Nat.zero_add]) hrehash
  rw [Block.countCells_calloc, if_neg (by decide), Nat.zero_add, List.drop_zero] at hused
  rw [List.drop_zero] at hnext
  exact ⟨rfl, rfl, hrsize.trans (Block.size_calloc _ _), rfl, hused,
    hnext.trans (Nat.zero_add _).le, rfl⟩

/-! ### Deletion -/

/-- A search that succeeds ends at a full slot. -/
theorem findLoop_full [BEq K] {t : Htable K D} {key : K} {mask n h s idx : ℕ}
    (hrun : findLoop t key mask n h = some (some (s, idx))) :
    isFull (t.indexList.read s) = true ∧ s < t.indexList.size := by
  induction n generalizing h with
  | zero => cases Option.some.inj hrun
  | succ n ih =>
    rw [findLoop, Option.bind_eq_bind, Option.bind_eq_some_iff] at hrun
    obtain ⟨v, hread, hrun⟩ := hrun
    split at hrun
    · exact ih hrun
    · rename_i hdel
      split at hrun
      · cases Option.some.inj hrun
      · rename_i hempty
        obtain ⟨e, -, hrun⟩ := Option.bind_eq_some_iff.mp hrun
        split at hrun
        · obtain ⟨rfl, -⟩ := Prod.mk.inj (Option.some.inj (Option.some.inj hrun))
          refine ⟨?_, Block.lt_of_read hread⟩
          rw [hread]
          exact isFull_some_iff.mpr fun hv => hv.elim hempty hdel
        · exact ih hrun

theorem growDeleted_same {realloc : Bool} {t t' : Htable K D}
    (h : growDeleted realloc t = some t') : t.SameCounters t' := by
  rw [growDeleted] at h
  split at h
  · dsimp only at h
    split at h
    · obtain rfl := Option.some.inj h
      exact ⟨⟨rfl, rfl, rfl⟩, rfl, rfl, rfl, rfl⟩
    · cases h
  · obtain rfl := Option.some.inj h
    exact .refl t

theorem unlinkEntry_same {t t' : Htable K D} {idx : ℕ} (h : unlinkEntry t idx = some t') :
    t.SameCounters t' := by
  obtain ⟨e, -, h⟩ := Option.bind_eq_some_iff.mp h
  obtain ⟨entries, -, h⟩ := Option.bind_eq_some_iff.mp h
  obtain ⟨e', -, h⟩ := Option.bind_eq_some_iff.mp h
  obtain ⟨entries', -, h⟩ := Option.bind_eq_some_iff.mp h
  obtain rfl := Option.some.inj h
  exact ⟨⟨rfl, rfl, rfl⟩, rfl, rfl, rfl, rfl⟩

theorem htableDelete_effect [BEq K] [Hashable K] {t : Htable K D} {key : K} {realloc : Bool}
    {r : DeleteResult K D} (h : htableDeleteWithFlag t key realloc = some r) :
    t.SameCounters r.table ∨ ∃ s, t.Deletes s r.table := by
  rw [htableDeleteWithFlag, Option.bind_eq_bind, Option.bind_eq_some_iff] at h
  obtain ⟨o, hfind, h⟩ := h
  cases o with
  | none =>
    obtain rfl := Option.some.inj h
    exact .inl (.refl t)
  | some p =>
    obtain ⟨s, idx⟩ := p
    obtain ⟨hfull, hs⟩ := findLoop_full hfind
    obtain ⟨e, -, h⟩ := Option.bind_eq_some_iff.mp h
    split at h
    · obtain rfl := Option.some.inj h
      exact .inl (.refl t)
    · rename_i t₁ hgrow
      obtain ⟨deleted, -, h⟩ := Option.bind_eq_some_iff.mp h
      obtain ⟨t₂, hunlink, h⟩ := Option.bind_eq_some_iff.mp h
      obtain ⟨indexList, hw, h⟩ := Option.bind_eq_some_iff.mp h
      obtain rfl := Option.some.inj h
      obtain ⟨hcap₁, hlist₁, hcount₁, hnext₁, hdeleted₁⟩ := growDeleted_same hgrow
      obtain ⟨hcap₂, hlist₂, hcount₂, hnext₂, hdeleted₂⟩ := unlinkEntry_same hunlink
      have hlist := hlist₂.trans hlist₁
      rw [hlist, Block.write_of_lt _ hs, Option.some_inj] at hw
      refine .inr ⟨s, ?_, hs, hfull, hw.symm, ?_, hnext₂.trans hnext₁, hdeleted₂.trans ?_⟩
      · refine ⟨hcap₂.1.trans hcap₁.1, hcap₂.2.1.trans hcap₁.2.1, ?_⟩
        rw [← hw]
        exact Block.size_put _ _ _
      · show t₂.count - 1 = _
        rw [hcount₂.trans hcount₁]
      · show u64 (t₁.deletedCount + 1) = _
        rw [hdeleted₁]

/-! ### Calls -/

/-- What a call does to the counters. -/
theorem htStep_effect [BEq K] [Hashable K] {t t' : Htable K D}
    (hsize : t.indexList.size = t.indexCapacity) {op : HtOp K D} {o : HtOut D}
    (h : htStep t op = some (o, t')) : HtEffect t op t' := by
  cases op with
  | set key data al flag =>
    obtain ⟨r, hset, h⟩ := Option.bind_eq_some_iff.mp h
    obtain ⟨-, rfl⟩ := Prod.mk.inj (Option.some.inj h)
    rcases htableSetWithFlag_eq_some hset with ⟨-, -, rfl⟩ | ⟨hg, t₁, hgrow, hset⟩ | ⟨hg, hset⟩
    · exact .same (.refl t)
    · obtain ⟨hroom, hcase⟩ := htableInsert_effect hset
      refine .grow hg (htableGrow_effect hsize hgrow) hroom (hcase.imp_right ?_)
      rintro ⟨s, -, hins⟩
      exact ⟨s, hins⟩
    · obtain ⟨hroom, hsame | ⟨s, hprobe, hins⟩⟩ := htableInsert_effect hset
      · exact .same hsame
      · exact .set hg hroom hprobe hins
  | get key =>
    obtain ⟨r, -, h⟩ := Option.bind_eq_some_iff.mp h
    obtain ⟨-, rfl⟩ := Prod.mk.inj (Option.some.inj h)
    exact .same (.refl t)
  | has key =>
    obtain ⟨r, -, h⟩ := Option.bind_eq_some_iff.mp h
    obtain ⟨-, rfl⟩ := Prod.mk.inj (Option.some.inj h)
    exact .same (.refl t)
  | delete key realloc =>
    obtain ⟨r, hdel, h⟩ := Option.bind_eq_some_iff.mp h
    obtain ⟨-, rfl⟩ := Prod.mk.inj (Option.some.inj h)
    rcases htableDelete_effect hdel with hsame | ⟨s, hs⟩
    · exact .same hsame
    · exact .delete hs
  | count =>
    obtain ⟨-, rfl⟩ := Prod.mk.inj (Option.some.inj h)
    exact .same (.refl t)

end Freehttpd
