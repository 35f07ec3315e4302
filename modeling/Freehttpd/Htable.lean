/-
The hash table of `src/hash/htable.c`.

The template is instantiated at a key type `K`; `HT_KEY_EQUAL_CB` is `==` and
`HT_KEY_HASH_CB` is `hash`.  A `void *` is an `Option D`, `none` being `NULL`.
Every function is total over `Option`: the outer `none` is a failed `assert` or
an access outside (or to an unwritten cell of) an allocation.  The outcome of
each allocation a call may make is an argument of the call.

The functions stand in the order of the source: `htableCreate`,
`htableRehash`, `htableGrow`, `htableSetWithFlag`, `htableGetWithFlag`,
`htableDeleteWithFlag`, and the `htable_foreach` traversal.
-/
import Freehttpd.Block
import Freehttpd.Links
import Freehttpd.Utils

namespace Freehttpd

/-- `HT_DELETED`: the index slot of an entry that was deleted. -/
def htDeleted : ℕ := uint32Max

/-- `HT_EMPTY`: an index slot that was never used. -/
def htEmpty : ℕ := 0

/-- `struct ht_entry`. -/
structure HtEntry (K D : Type) where
  key : K
  data : Option D
  cachedHash : UInt64
  prevIdx : ℕ
  nextIdx : ℕ
deriving DecidableEq, Repr

/-- `struct htable`. -/
structure Htable (K D : Type) where
  entries : Block (HtEntry K D)
  indexList : Block ℕ
  deletedIndexList : Block ℕ
  count : ℕ
  entryNextInsert : ℕ
  headIdx : ℕ
  tailIdx : ℕ
  indexCapacity : ℕ
  entryCapacity : ℕ
  deletedCount : ℕ
  deletedCapacity : ℕ
deriving DecidableEq, Repr

variable {K D : Type}

/-- The outcomes of the three allocations of `htable_create`. -/
structure CreateAlloc where
  table : Bool
  indexList : Bool
  entries : Bool

/-- `htable_create`: the inner `none` is the `NULL` returned when an allocation
fails. -/
def htableCreate (al : CreateAlloc) (initialCap : ℕ) : Option (Option (Htable K D)) :=
  if 2 ≤ initialCap then do
    let indexCapacity ← utilRoundCeil2Ull initialCap
    let entryCapacity := u64 (indexCapacity * 3) / 4
    if al.table && al.indexList && al.entries then
      some (some
        { entries := Block.malloc entryCapacity
          indexList := Block.calloc indexCapacity htEmpty
          deletedIndexList := Block.malloc 0
          count := 0
          entryNextInsert := 0
          headIdx := uint32Max
          tailIdx := uint32Max
          indexCapacity := indexCapacity
          entryCapacity := entryCapacity
          deletedCount := 0
          deletedCapacity := 0 })
    else some none
  else none

/-- Entry `idx` becomes the last of the linked list: the same lines stand in
`htable_rehash` and in `htable_set_with_flag`.  The result is the entry array
with the new `head_idx` and `tail_idx`. -/
def linkTail (entries : Block (HtEntry K D)) (headIdx tailIdx idx : ℕ) (e : HtEntry K D) :
    Option (Block (HtEntry K D) × ℕ × ℕ) :=
  if tailIdx = uint32Max then do
    let entries ← entries.write idx { e with prevIdx := uint32Max, nextIdx := uint32Max }
    some (entries, idx, idx)
  else do
    let entries ← entries.modify tailIdx fun p => { p with nextIdx := idx }
    let entries ← entries.write idx { e with prevIdx := tailIdx, nextIdx := uint32Max }
    some (entries, headIdx, idx)

/-! ### Growth -/

/-- The local state of `htable_rehash`. -/
structure Rehash (K D : Type) where
  newIndexList : Block ℕ
  newEntries : Block (HtEntry K D)
  newIdxCounter : ℕ
  headIdx : ℕ
  tailIdx : ℕ

/-- The inner loop of `htable_rehash`: the first empty slot from `hash` on, or
`UINT64_MAX`. -/
def rehashProbe (newIndexList : Block ℕ) (mask : ℕ) : ℕ → ℕ → Option ℕ
  | 0, _ => some uint64Max
  | n + 1, hash => do
    let idxElement ← newIndexList.read hash
    if idxElement = htEmpty then some hash
    else rehashProbe newIndexList mask n ((hash + 1) &&& mask)

/-- The body of the outer loop of `htable_rehash`, for a used slot whose value
is `idxElement`; the inner `none` is `return false`. -/
def rehashEntry (t : Htable K D) (newIndexCapacity newEntryCapacity idxElement : ℕ)
    (r : Rehash K D) : Option (Option (Rehash K D)) :=
  if r.newIdxCounter < newEntryCapacity then do
    let mask := newIndexCapacity - 1
    let newIdx := r.newIdxCounter
    let prevEntry ← t.entries.read (idxElement - 1)
    let (newEntries, headIdx, tailIdx) ←
      linkTail r.newEntries r.headIdx r.tailIdx newIdx prevEntry
    let target ← rehashProbe r.newIndexList mask newIndexCapacity
      (prevEntry.cachedHash.toNat &&& mask)
    if target = uint64Max then some none
    else do
      let newIndexList ← r.newIndexList.write target (u32 (newIdx + 1))
      some (some
        { newIndexList := newIndexList
          newEntries := newEntries
          newIdxCounter := u32 (newIdx + 1)
          headIdx := headIdx
          tailIdx := tailIdx })
  else none

/-- The outer loop of `htable_rehash`, over the `n` slots from `i` on. -/
def rehashLoop (t : Htable K D) (newIndexCapacity newEntryCapacity : ℕ) :
    ℕ → ℕ → Rehash K D → Option (Option (Rehash K D))
  | 0, _, r => some (some r)
  | n + 1, i, r => do
    let idxElement ← t.indexList.read i
    if idxElement = htEmpty ∨ idxElement = htDeleted then
      rehashLoop t newIndexCapacity newEntryCapacity n (i + 1) r
    else do
      match ← rehashEntry t newIndexCapacity newEntryCapacity idxElement r with
      | none => some none
      | some r => rehashLoop t newIndexCapacity newEntryCapacity n (i + 1) r

/-- `htable_rehash`, on freshly allocated arrays. -/
def htableRehash (t : Htable K D) (newIndexCapacity newEntryCapacity : ℕ) :
    Option (Option (Rehash K D)) :=
  rehashLoop t newIndexCapacity newEntryCapacity t.indexCapacity 0
    { newIndexList := Block.calloc newIndexCapacity htEmpty
      newEntries := Block.malloc newEntryCapacity
      newIdxCounter := 0
      headIdx := uint32Max
      tailIdx := uint32Max }

/-- `htable_grow`; the inner `none` is `return false`, which leaves the table
as it was.  `calloc` and `malloc` are the outcomes of its two allocations. -/
def htableGrow (calloc malloc : Bool) (t : Htable K D) : Option (Option (Htable K D)) :=
  let newIndexCapacity := u64 (t.indexCapacity <<< 1)
  let newEntryCapacity := u64 (newIndexCapacity * 3) / 4
  if calloc && malloc then do
    match ← htableRehash t newIndexCapacity newEntryCapacity with
    | none => some none
    | some r =>
      some (some
        { t with
          entries := r.newEntries
          indexList := r.newIndexList
          entryNextInsert := r.newIdxCounter
          headIdx := r.headIdx
          tailIdx := r.tailIdx
          indexCapacity := newIndexCapacity
          entryCapacity := newEntryCapacity
          deletedCount := 0 })
  else some none

/-! ### Insertion -/

/-- The outcomes of the allocations a call of `htable_set_with_flag` may make:
the two of `htable_grow`, the key copy `HT_KEY_DUP_CB` (`none` is `NULL`) and
the `realloc` that shrinks the deleted list. -/
structure SetAlloc (K : Type) [BEq K] (key : K) where
  calloc : Bool
  malloc : Bool
  dupKey : Option {k : K // (k == key) = true}
  reallocDeleted : Bool

/-- How the probe loop of `htable_set_with_flag` ends: at the entry of the key,
or at the value of `insert_target_hash`. -/
inductive SetProbe
  | found (idx : ℕ)
  | absent (insertTargetHash : ℕ)
deriving DecidableEq, Repr

/-- The condition under which `htable_set_with_flag` calls `htable_grow`. -/
def Htable.mustGrow (t : Htable K D) : Bool :=
  t.entryNextInsert ≥ t.entryCapacity || u64 ((t.count + 1) * 4) ≥ u64 (t.indexCapacity * 3)

variable [BEq K]

/-- The probe loop of `htable_set_with_flag`, with `n` rounds left. -/
def setProbeLoop (t : Htable K D) (key : K) (mask : ℕ) : ℕ → ℕ → ℕ → Option SetProbe
  | 0, _, insertTargetHash => some (.absent insertTargetHash)
  | n + 1, hash, insertTargetHash => do
    let idxElement ← t.indexList.read hash
    if idxElement = htDeleted then
      setProbeLoop t key mask n ((hash + 1) &&& mask)
        (if insertTargetHash = uint64Max then hash else insertTargetHash)
    else if idxElement = htEmpty then
      some (.absent (if insertTargetHash = uint64Max then hash else insertTargetHash))
    else do
      let entry ← t.entries.read (idxElement - 1)
      if entry.key == key then some (.found (idxElement - 1))
      else setProbeLoop t key mask n ((hash + 1) &&& mask) insertTargetHash

/-- The choice of an entry slot in `htable_set_with_flag`: the last of the
deleted list, which may then shrink, or the next unused one. -/
def takeSlot (reallocDeleted : Bool) (t : Htable K D) : Option (ℕ × Htable K D) :=
  if t.deletedCount ≠ 0 then do
    let deletedCount := t.deletedCount - 1
    let idx ← t.deletedIndexList.read deletedCount
    if 16 < t.deletedCapacity ∧ deletedCount < t.deletedCapacity >>> 2 ∧ reallocDeleted then
      let newDeletedCapacity := if deletedCount < 4 then 4 else t.deletedCapacity >>> 1
      some (idx,
        { t with
          deletedCount := deletedCount
          deletedCapacity := newDeletedCapacity
          deletedIndexList := t.deletedIndexList.realloc newDeletedCapacity })
    else some (idx, { t with deletedCount := deletedCount })
  else some (t.entryNextInsert, { t with entryNextInsert := u32 (t.entryNextInsert + 1) })

/-- What `htable_set_with_flag` leaves behind: its return value, the caller's
flag and the table. -/
structure SetResult (K D : Type) where
  ret : Bool
  flagCreated : Bool
  table : Htable K D

variable [Hashable K]

/-- `htable_set_with_flag` behind the growth check. -/
def htableInsert (t : Htable K D) (key : K) (data : Option D) (al : SetAlloc K key)
    (flagCreated : Bool) : Option (SetResult K D) :=
  if t.entryNextInsert < t.entryCapacity then do
    let mask := t.indexCapacity - 1
    match ← setProbeLoop t key mask t.indexCapacity ((hash key).toNat &&& mask) uint64Max with
    | .found idx => do
      let entries ← t.entries.modify idx fun e => { e with data := data }
      some ⟨true, false, { t with entries := entries }⟩
    | .absent insertTargetHash =>
      if insertTargetHash = uint64Max then some ⟨false, false, t⟩
      else match al.dupKey with
        | none => some ⟨false, flagCreated, t⟩
        | some dupKey => do
          let (idx, t) ← takeSlot al.reallocDeleted t
          let indexList ← t.indexList.write insertTargetHash (u32 (idx + 1))
          let (entries, headIdx, tailIdx) ← linkTail t.entries t.headIdx t.tailIdx idx
            { key := dupKey.1, data := data, cachedHash := hash key
              prevIdx := uint32Max, nextIdx := uint32Max }
          some ⟨true, true,
            { t with
              entries := entries
              indexList := indexList
              headIdx := headIdx
              tailIdx := tailIdx
              count := u64 (t.count + 1) }⟩
  else none

/-- `htable_set_with_flag`; `flagCreated` is the value of the caller's variable
before the call. -/
def htableSetWithFlag (t : Htable K D) (key : K) (data : Option D) (al : SetAlloc K key)
    (flagCreated : Bool) : Option (SetResult K D) :=
  if t.mustGrow then do
    match ← htableGrow al.calloc al.malloc t with
    | none => some ⟨false, false, t⟩
    | some t => htableInsert t key data al flagCreated
  else htableInsert t key data al flagCreated

/-! ### Lookup -/

/-- The probe loop of `htable_get_with_flag` and of `htable_delete_with_flag`,
with `n` rounds left: the slot and the entry of the key, if it is found. -/
def findLoop (t : Htable K D) (key : K) (mask : ℕ) : ℕ → ℕ → Option (Option (ℕ × ℕ))
  | 0, _ => some none
  | n + 1, hash => do
    let idxElement ← t.indexList.read hash
    if idxElement = htDeleted then findLoop t key mask n ((hash + 1) &&& mask)
    else if idxElement = htEmpty then some none
    else do
      let entry ← t.entries.read (idxElement - 1)
      if entry.key == key then some (some (hash, idxElement - 1))
      else findLoop t key mask n ((hash + 1) &&& mask)

/-- The search of `htable_get_with_flag` and of `htable_delete_with_flag`. -/
def htableFind (t : Htable K D) (key : K) : Option (Option (ℕ × ℕ)) :=
  findLoop t key (t.indexCapacity - 1) t.indexCapacity
    ((hash key).toNat &&& (t.indexCapacity - 1))

/-- `htable_get_with_flag`: the returned pointer and the caller's flag. -/
def htableGetWithFlag (t : Htable K D) (key : K) : Option (Option D × Bool) := do
  match ← htableFind t key with
  | none => some (none, false)
  | some (_, idx) => do
    let entry ← t.entries.read idx
    some (entry.data, true)

/-- `htable_get`. -/
def htableGet (t : Htable K D) (key : K) : Option (Option D) := do
  let (data, _) ← htableGetWithFlag t key
  some data

/-- `htable_has`. -/
def htableHas (t : Htable K D) (key : K) : Option Bool := do
  let (_, flag) ← htableGetWithFlag t key
  some flag

/-- `htable_count`. -/
def htableCount (t : Htable K D) : ℕ := t.count

/-! ### Deletion -/

/-- Make room in the deleted list; `none` when the `realloc` fails. -/
def growDeleted (reallocDeleted : Bool) (t : Htable K D) : Option (Htable K D) :=
  if t.deletedCount ≥ t.deletedCapacity then
    let newDeletedCapacity := if t.deletedCapacity ≠ 0 then u64 (t.deletedCapacity <<< 1) else 16
    if reallocDeleted then
      some
        { t with
          deletedIndexList := t.deletedIndexList.realloc newDeletedCapacity
          deletedCapacity := newDeletedCapacity }
    else none
  else some t

/-- Point entry `idx`, if there is one, back to `p`. -/
def setPrevIdx (entries : Block (HtEntry K D)) (idx p : ℕ) : Option (Block (HtEntry K D)) :=
  if idx ≠ uint32Max then entries.modify idx fun e => { e with prevIdx := p } else some entries

/-- Point entry `idx`, if there is one, forward to `n`. -/
def setNextIdx (entries : Block (HtEntry K D)) (idx n : ℕ) : Option (Block (HtEntry K D)) :=
  if idx ≠ uint32Max then entries.modify idx fun e => { e with nextIdx := n } else some entries

/-- Take entry `idx` out of the linked list.  As in the source the links of the
entry itself stay, and are read again for the second neighbour. -/
def unlinkEntry (t : Htable K D) (idx : ℕ) : Option (Htable K D) := do
  let e ← t.entries.read idx
  let headIdx := if idx = t.headIdx then e.nextIdx else t.headIdx
  let tailIdx := if idx = t.tailIdx then e.prevIdx else t.tailIdx
  let entries ← setPrevIdx t.entries e.nextIdx e.prevIdx
  let e ← entries.read idx
  let entries ← setNextIdx entries e.prevIdx e.nextIdx
  some { t with entries := entries, headIdx := headIdx, tailIdx := tailIdx }

/-- What `htable_delete_with_flag` leaves behind: the returned pointer, the
caller's flag, the key passed to `HT_KEY_FREE_CB` and the table. -/
structure DeleteResult (K D : Type) where
  data : Option D
  flag : Bool
  freed : Option K
  table : Htable K D

/-- `htable_delete_with_flag`; `reallocDeleted` is the outcome of the `realloc`
that grows the deleted list. -/
def htableDeleteWithFlag (t : Htable K D) (key : K) (reallocDeleted : Bool) :
    Option (DeleteResult K D) := do
  match ← htableFind t key with
  | none => some ⟨none, false, none, t⟩
  | some (hash, idx) => do
    let entry ← t.entries.read idx
    match growDeleted reallocDeleted t with
    | none => some ⟨none, false, none, t⟩
    | some t => do
      let deletedIndexList ← t.deletedIndexList.write t.deletedCount idx
      let t ← unlinkEntry
        { t with
          deletedIndexList := deletedIndexList
          deletedCount := u64 (t.deletedCount + 1) } idx
      let indexList ← t.indexList.write hash htDeleted
      some ⟨entry.data, true, some entry.key,
        { t with indexList := indexList, count := t.count - 1 }⟩

/-! ### Traversal -/

/-- The `next_idx` field of entry `i`. -/
def entryNext (entries : Block (HtEntry K D)) (i : ℕ) : Option ℕ :=
  (entries.read i).map HtEntry.nextIdx

/-- The `prev_idx` field of entry `i`. -/
def entryPrev (entries : Block (HtEntry K D)) (i : ℕ) : Option ℕ :=
  (entries.read i).map HtEntry.prevIdx

/-- The entries visited by `htable_foreach`, which follows `next_idx` from
`head_idx`; `none` if it is still running after `fuel` steps. -/
def htableForeach (t : Htable K D) (fuel : ℕ) : Option (List ℕ) :=
  walk (entryNext t.entries) uint32Max fuel t.headIdx

/-- The entries met when `prev_idx` is followed from `tail_idx`. -/
def htableForeachBack (t : Htable K D) (fuel : ℕ) : Option (List ℕ) :=
  walk (entryPrev t.entries) uint32Max fuel t.tailIdx

end Freehttpd
