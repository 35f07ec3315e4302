/-
What a call of the hash table that returns has done.

The functions of `Htable.lean` are read backwards here, once: the facts that need no
invariant are all drawn from these lemmas.

* `htableGrow_eq_some` — a growth that succeeds is a rehash;
* `htableInsert_outcome` — the four ways an insertion ends;
* `htableSetWithFlag_eq_some` — the growth check in front of it.
-/
import Freehttpd.Htable

namespace Freehttpd

variable {K D : Type}

/-- A growth that succeeds. -/
theorem htableGrow_eq_some {calloc malloc : Bool} {t t' : Htable K D}
    (h : htableGrow calloc malloc t = some (some t')) :
    ∃ r, htableRehash t (u64 (t.indexCapacity <<< 1))
        (u64 (u64 (t.indexCapacity <<< 1) * 3) / 4) = some (some r) ∧
      t' = { t with
        entries := r.newEntries
        indexList := r.newIndexList
        entryNextInsert := r.newIdxCounter
        headIdx := r.headIdx
        tailIdx := r.tailIdx
        indexCapacity := u64 (t.indexCapacity <<< 1)
        entryCapacity := u64 (u64 (t.indexCapacity <<< 1) * 3) / 4
        deletedCount := 0 } := by
  rw [htableGrow] at h
  split at h
  case isFalse => cases Option.some.inj h
  obtain ⟨o, hrehash, h⟩ := Option.bind_eq_some_iff.mp h
  cases o with
  | none => cases Option.some.inj h
  | some r => exact ⟨r, hrehash, (Option.some.inj (Option.some.inj h)).symm⟩

section Insert

variable [BEq K] [Hashable K]

/-- The ways an insertion ends, by the outcome of its probe. -/
inductive InsertOutcome (t : Htable K D) (key : K) (data : Option D) (al : SetAlloc K key)
    (flagCreated : Bool) : SetProbe → SetResult K D → Prop
  | overwritten {idx : ℕ} {entries : Block (HtEntry K D)}
      (hmodify : t.entries.modify idx (fun e => { e with data := data }) = some entries) :
      InsertOutcome t key data al flagCreated (.found idx)
        ⟨true, false, { t with entries := entries }⟩
  | full : InsertOutcome t key data al flagCreated (.absent uint64Max) ⟨false, false, t⟩
  | uncopied {s : ℕ} (hs : s ≠ uint64Max) (hdup : al.dupKey = none) :
      InsertOutcome t key data al flagCreated (.absent s) ⟨false, flagCreated, t⟩
  | inserted {s idx headIdx tailIdx : ℕ} {dupKey : {k : K // (k == key) = true}}
      {t' : Htable K D} {indexList : Block ℕ} {entries : Block (HtEntry K D)}
      (hs : s ≠ uint64Max) (hdup : al.dupKey = some dupKey)
      (htake : takeSlot al.reallocDeleted t = some (idx, t'))
      (hwrite : t'.indexList.write s (u32 (idx + 1)) = some indexList)
      (hlink : linkTail t'.entries t'.headIdx t'.tailIdx idx
        { key := dupKey.1, data := data, cachedHash := hash key
          prevIdx := uint32Max, nextIdx := uint32Max } = some (entries, headIdx, tailIdx)) :
      InsertOutcome t key data al flagCreated (.absent s)
        ⟨true, true,
          { t' with
            entries := entries
            indexList := indexList
            headIdx := headIdx
            tailIdx := tailIdx
            count := u64 (t'.count + 1) }⟩

variable {t : Htable K D} {key : K} {data : Option D} {al : SetAlloc K key}
  {flagCreated : Bool} {r : SetResult K D}

/-- An insertion that returns had room for an entry, and its probe returned. -/
theorem htableInsert_outcome (h : htableInsert t key data al flagCreated = some r) :
    t.entryNextInsert < t.entryCapacity ∧
      ∃ p, setProbeLoop t key (t.indexCapacity - 1) t.indexCapacity
          ((hash key).toNat &&& (t.indexCapacity - 1)) uint64Max = some p ∧
        InsertOutcome t key data al flagCreated p r := by
  rw [htableInsert] at h
  split at h
  case isFalse => cases h
  rename_i hroom
  refine ⟨hroom, ?_⟩
  obtain ⟨p, hprobe, h⟩ := Option.bind_eq_some_iff.mp h
  refine ⟨p, hprobe, ?_⟩
  cases p with
  | found idx =>
    obtain ⟨entries, hmodify, h⟩ := Option.bind_eq_some_iff.mp h
    obtain rfl := Option.some.inj h
    exact .overwritten hmodify
  | absent s =>
    dsimp only at h
    split at h
    · rename_i hs
      obtain rfl := Option.some.inj h
      rw [hs]
      exact .full
    · rename_i hs
      split at h
      · rename_i hdup
        obtain rfl := Option.some.inj h
        exact .uncopied hs hdup
      · rename_i dupKey hdup
        obtain ⟨⟨idx, t'⟩, htake, h⟩ := Option.bind_eq_some_iff.mp h
        obtain ⟨indexList, hwrite, h⟩ := Option.bind_eq_some_iff.mp h
        obtain ⟨⟨entries, headIdx, tailIdx⟩, hlink, h⟩ := Option.bind_eq_some_iff.mp h
        obtain rfl := Option.some.inj h
        exact .inserted hs hdup htake hwrite hlink

/-- A set that returns has failed to grow, or it has inserted. -/
theorem htableSetWithFlag_eq_some (h : htableSetWithFlag t key data al flagCreated = some r) :
    (t.mustGrow = true ∧ htableGrow al.calloc al.malloc t = some none ∧ r = ⟨false, false, t⟩) ∨
      (t.mustGrow = true ∧ ∃ t₁, htableGrow al.calloc al.malloc t = some (some t₁) ∧
        htableInsert t₁ key data al flagCreated = some r) ∨
      (t.mustGrow = false ∧ htableInsert t key data al flagCreated = some r) := by
  rw [htableSetWithFlag] at h
  split at h
  · rename_i hgrow
    obtain ⟨o, ho, h⟩ := Option.bind_eq_some_iff.mp h
    cases o with
    | none => exact .inl ⟨hgrow, ho, (Option.some.inj h).symm⟩
    | some t₁ => exact .inr (.inl ⟨hgrow, t₁, ho, h⟩)
  · rename_i hgrow
    exact .inr (.inr ⟨Bool.not_eq_true _ ▸ hgrow, h⟩)

end Insert

end Freehttpd
