/-
Inserting into the hash table, without growth.

* `linkTail_eq` — the lines that link an entry behind the tail;
* `Htable.Inv.overwrite`, `Htable.Inv.insert` — the invariant after an
  overwrite and after a new entry took a slot;
* `takeSlot_eq` — the entry slot is a recycled one, or the next unused one;
* `htableInsert_of_mem`, `htableInsert_of_forall_ne` — what
  `htable_set_with_flag` does behind its growth check.
-/
import Freehttpd.HtableSearch

namespace Freehttpd

open OpenAddressing

variable {K D : Type}

/-- Linking entry `idx` behind the tail: the links form the longer list, and of
the other entries only a `next_idx` may differ. -/
theorem linkTail_eq {es : Block (HtEntry K D)} {headIdx tailIdx idx : ℕ} {l : List ℕ}
    (e : HtEntry K D) (hl : DList (entryNext es) (entryPrev es) uint32Max headIdx tailIdx l)
    (hidx : idx < es.size) (hmax : idx ≠ uint32Max) (hmem : idx ∉ l) :
    ∃ es', linkTail es headIdx tailIdx idx e
        = some (es', if tailIdx = uint32Max then idx else headIdx, idx) ∧
      es'.size = es.size ∧
      es'.read idx = some { e with prevIdx := tailIdx, nextIdx := uint32Max } ∧
      (∀ i ≠ idx, ∀ e', es.read i = some e' →
        ∃ n, es'.read i = some { e' with nextIdx := n }) ∧
      DList (entryNext es') (entryPrev es') uint32Max
        (if tailIdx = uint32Max then idx else headIdx) idx (l ++ [idx]) := by
  have hne : ∀ i ∈ l, idx ≠ i := fun i hi he => hmem (he ▸ hi)
  by_cases ht : tailIdx = uint32Max
  · -- The list is empty, and the entry becomes both of its ends.
    have hread := Block.read_put_self { e with prevIdx := uint32Max, nextIdx := uint32Max } hidx
    refine ⟨es.put idx { e with prevIdx := uint32Max, nextIdx := uint32Max }, ?_,
      Block.size_put _ _ _, ?_, fun i hi e' he' => ⟨e'.nextIdx, ?_⟩, ?_⟩
    · rw [linkTail, if_pos ht, if_pos ht, Block.write_of_lt _ hidx]
      rfl
    · rw [hread, ht]
    · rw [Block.read_put_of_ne _ (Ne.symm hi), he']
    · obtain rfl : l = [] := hl.tail_eq_nil_iff.mp ht
      refine hl.pushBack hmax hmem (by simp) (by simp) (by simp) ?_ ?_
      · rw [entryNext, hread]
        rfl
      · rw [entryPrev, hread, ht]
        rfl
  · -- The tail is an entry, whose `next_idx` is written first.
    have htl : tailIdx ∈ l := hl.tail_mem (mt hl.tail_eq_nil_iff.mpr ht)
    obtain ⟨et, het⟩ : ∃ et, es.read tailIdx = some et := by
      obtain ⟨l₁, l₂, rfl⟩ := List.append_of_mem htl
      obtain ⟨hn, -⟩ := hl.isSome_links
      rw [entryNext, Option.map_eq_some_iff] at hn
      exact ⟨_, hn.choose_spec.1⟩
    have htne : idx ≠ tailIdx := hne _ htl
    have hlt : tailIdx < es.size := Block.lt_of_read het
    set es₁ := es.put tailIdx { et with nextIdx := idx } with hes₁
    have hidx₁ : idx < es₁.size := by rwa [hes₁, Block.size_put]
    set es₂ := es₁.put idx { e with prevIdx := tailIdx, nextIdx := uint32Max } with hes₂
    have hread : ∀ i, idx ≠ i → es₂.read i
        = if tailIdx = i then some { et with nextIdx := idx } else es.read i := fun i hi => by
      rw [hes₂, Block.read_put_of_ne _ hi, hes₁, Block.read_put _ hlt]
    have hidxRead : es₂.read idx
        = some { e with prevIdx := tailIdx, nextIdx := uint32Max } := by
      rw [hes₂, Block.read_put_self _ hidx₁]
    refine ⟨es₂, ?_, by rw [hes₂, hes₁, Block.size_put, Block.size_put], hidxRead,
      fun i hi e' he' => ?_, ?_⟩
    · rw [linkTail, if_neg ht, if_neg ht, Block.modify_of_read _ het]
      simp only [Option.bind_eq_bind, Option.bind_some]
      rw [Block.write_of_lt _ hidx₁]
      rfl
    · rw [hread i (Ne.symm hi)]
      split
      · rename_i hti
        rw [← hti, het, Option.some_inj] at he'
        exact ⟨idx, by rw [he']⟩
      · exact ⟨e'.nextIdx, by rw [he']⟩
    · refine hl.pushBack hmax hmem (fun i hi hit => ?_) (fun _ => ?_) (fun i hi => ?_) ?_ ?_
      · rw [entryNext, entryNext, hread i (hne i hi), if_neg (Ne.symm hit)]
      · rw [entryNext, hread _ htne, if_pos rfl]
        rfl
      · rw [entryPrev, entryPrev, hread i (hne i hi)]
        split
        · rename_i hti
          rw [← hti, het]
          rfl
        · rfl
      · rw [entryNext, hidxRead]
        rfl
      · rw [entryPrev, hidxRead]
        rfl

namespace Htable.Inv

variable [BEq K] [Hashable K] {t : Htable K D} {cs : List (LiveEntry K D)} {ds : List ℕ}

/-- A new entry took the slot found by a failed search. -/
theorem insert (h : t.Inv cs ds) {t' : Htable K D} {c : LiveEntry K D} {j p n : ℕ}
    {ds' : List ℕ} (hk : ∀ c' ∈ cs, (c'.key == c.key) = false)
    (hmem : c.idx ∉ cs.map LiveEntry.idx) (hidx : c.idx + 1 < uint32Max)
    (hj : j < t.indexCapacity)
    (hnf : ∀ i, indexCell t.indexList
      (slotAt t.indexCapacity (homeSlot t.indexCapacity c.key) j) ≠ .full i)
    (hchain : ∀ k < j, indexCell t.indexList
      (slotAt t.indexCapacity (homeSlot t.indexCapacity c.key) k) ≠ .empty)
    (hcap : t'.indexCapacity = t.indexCapacity) (hecap : t'.entryCapacity = t.entryCapacity)
    (hil : t'.indexList = t.indexList.put
      (slotAt t.indexCapacity (homeSlot t.indexCapacity c.key) j) (c.idx + 1))
    (hsize : t'.entries.size = t.entries.size)
    (hnew : t'.entries.read c.idx = some ⟨c.key, c.data, hash c.key, p, n⟩)
    (hframe : ∀ i ≠ c.idx, ∀ e, t.entries.read i = some e →
      ∃ m, t'.entries.read i = some { e with nextIdx := m })
    (hlinks : DList (entryNext t'.entries) (entryPrev t'.entries) uint32Max t'.headIdx
      t'.tailIdx (cs.map LiveEntry.idx ++ [c.idx]))
    (hpart : (cs.map LiveEntry.idx ++ [c.idx] ++ ds').Perm (List.range t'.entryNextInsert))
    (hle : t'.entryNextInsert ≤ t'.entryCapacity) (hlt : t'.entryNextInsert < uint32Max)
    (hcount : t'.count = t.count + 1) (hdc : t'.deletedCount = ds'.length)
    (hds : t'.deletedIndexList.size = t'.deletedCapacity)
    (hdh : t'.deletedIndexList.Holds ds') : t'.Inv (cs ++ [c]) ds' := by
  set slot := slotAt t.indexCapacity (homeSlot t.indexCapacity c.key) j with hslot
  have hslotlt : slot < t.indexList.size := by
    rw [h.indexList_size]
    exact slotAt_lt h.cap_pos _ j
  have hself : indexCell t'.indexList slot = .full c.idx := by
    rw [hil]
    exact indexCell_put_full hslotlt hidx
  have hother : ∀ s, s ≠ slot → indexCell t'.indexList s = indexCell t.indexList s :=
    fun s hs => by rw [hil, indexCell_put_of_ne (Ne.symm hs)]
  refine
    { cap_pow := by rw [hcap]; exact h.cap_pow
      entryCapacity_eq := by rw [hecap, hcap]; exact h.entryCapacity_eq
      indexList_size := by rw [hil, Block.size_put, hcap]; exact h.indexList_size
      indexList_init := fun s hs => ?_
      entries_size := by rw [hsize, hecap]; exact h.entries_size
      nextInsert_le := hle
      nextInsert_lt := hlt
      slots := fun s hs i hi => ?_
      slot_inj := fun s hs s' hs' i hi hi' => ?_
      entry := fun c' hc' => ?_
      onPath := fun c' hc' => ?_
      distinct := ?_
      links := by simpa using hlinks
      partition := by simpa using hpart
      count_eq := by rw [hcount, h.count_eq, List.length_append]; rfl
      deletedCount_eq := hdc
      deleted_size := hds
      deleted_holds := hdh }
  · -- Every slot is still initialised.
    rw [hil, Block.read_put _ hslotlt]
    split
    · rfl
    · exact h.indexList_init s (hcap ▸ hs)
  · -- A full slot holds the new entry or one that was there.
    by_cases he : s = slot
    · rw [he, hself, Cell.full.injEq] at hi
      simp [← hi]
    · rw [hother s he] at hi
      rw [List.map_append]
      exact List.mem_append_left _ (h.slots s (hcap ▸ hs) i hi)
  · -- The new entry was in no slot before.
    rw [hcap] at hs hs'
    by_cases he : s = slot <;> by_cases he' : s' = slot
    · rw [he, he']
    · rw [he, hself, Cell.full.injEq] at hi
      rw [hother s' he'] at hi'
      exact absurd (hi ▸ h.slots s' hs' i hi') hmem
    · rw [he', hself, Cell.full.injEq] at hi'
      rw [hother s he] at hi
      exact absurd (hi' ▸ h.slots s hs i hi) hmem
    · rw [hother s he] at hi
      rw [hother s' he'] at hi'
      exact h.slot_inj s hs s' hs' i hi hi'
  · -- The old entries changed at most in `next_idx`.
    rcases List.mem_append.mp hc' with hc' | hc'
    · obtain ⟨q, m, he⟩ := h.entry c' hc'
      have hne : c'.idx ≠ c.idx := fun he => hmem (he ▸ List.mem_map_of_mem hc')
      obtain ⟨m', he'⟩ := hframe _ hne _ he
      exact ⟨q, m', he'⟩
    · rw [List.mem_singleton.mp hc']
      exact ⟨p, n, hnew⟩
  · -- No path of an old key ended at the slot, which was not full; the new key sits on its own.
    rw [hcap]
    rcases List.mem_append.mp hc' with hc' | hc'
    · exact (h.onPath c' hc').congr_set (fun s _ hs => hother s hs) (by simp [hself])
        (hnf _)
    · rw [List.mem_singleton.mp hc']
      exact OnPath.of_free hj hchain (fun s _ hs => hother s hs) hself
  · rw [List.map_append]
    refine List.pairwise_append.mpr ⟨h.distinct, List.pairwise_singleton _ _, fun a ha b hb => ?_⟩
    obtain ⟨c', hc', rfl⟩ := List.mem_map.mp ha
    rw [List.map_singleton, List.mem_singleton] at hb
    rw [hb]
    exact hk c' hc'

/-- The data of one live entry was overwritten. -/
theorem overwrite (h : t.Inv cs ds) {key : K} {c : LiveEntry K D} (hc : c ∈ cs)
    (hk : (c.key == key) = true) [EquivBEq K] (data : Option D) {p n : ℕ}
    (he : t.entries.read c.idx = some ⟨c.key, c.data, hash c.key, p, n⟩) :
    { t with entries := t.entries.put c.idx ⟨c.key, data, hash c.key, p, n⟩ }.Inv
      (overwriteLive cs key data) ds := by
  have hlt : c.idx < t.entries.size := Block.lt_of_read he
  have hidx : (overwriteLive cs key data).map LiveEntry.idx = cs.map LiveEntry.idx := by
    rw [overwriteLive, List.map_map]
    refine List.map_congr_left fun c' _ => ?_
    simp only [Function.comp_apply]
    split <;> rfl
  have hread : ∀ i, (t.entries.put c.idx ⟨c.key, data, hash c.key, p, n⟩).read i
      = if c.idx = i then some ⟨c.key, data, hash c.key, p, n⟩ else t.entries.read i :=
    fun i => Block.read_put _ hlt i
  refine
    { h with
      entries_size := by rw [Block.size_put]; exact h.entries_size
      slots := by rw [hidx]; exact h.slots
      entry := fun c' hc' => ?_
      onPath := fun c' hc' => ?_
      distinct := ?_
      links := ?_
      partition := by rw [hidx]; exact h.partition
      count_eq := by rw [overwriteLive, List.length_map]; exact h.count_eq }
  · -- Only the entry of `key` has other data now.
    obtain ⟨c₀, hc₀, rfl⟩ := List.mem_map.mp hc'
    simp only [hread]
    by_cases hi : c₀.idx = c.idx
    · rw [h.eq_of_idx hc₀ hc hi, if_pos hk, if_pos rfl]
      exact ⟨p, n, rfl⟩
    · have hk₀ : ¬(c₀.key == key) = true := fun hk₀ => hi (by
        rw [h.eq_of_key hc₀ hc (PartialEquivBEq.trans hk₀ (BEq.symm hk))])
      rw [if_neg hk₀, if_neg (Ne.symm hi)]
      exact h.entry c₀ hc₀
  · obtain ⟨c₀, hc₀, rfl⟩ := List.mem_map.mp hc'
    split <;> exact h.onPath c₀ hc₀
  · have hd := h.distinct
    rw [Assoc.Distinct, List.pairwise_map] at hd ⊢
    rw [overwriteLive]
    refine List.pairwise_map.mpr (hd.imp fun {a b} hab => ?_)
    split <;> split <;> exact hab
  · -- The links of the overwritten entry are those it had.
    rw [hidx]
    refine h.links.congr (fun i _ => ?_) fun i _ => ?_
    · rw [entryNext, entryNext, hread]
      split
      · rename_i hi
        rw [← hi, he]
        rfl
      · rfl
    · rw [entryPrev, entryPrev, hread]
      split
      · rename_i hi
        rw [← hi, he]
        rfl
      · rfl

omit [BEq K] [Hashable K] in
/-- Overwriting in the list of live entries overwrites in the contents. -/
theorem map_pair_overwrite [BEq K] {cs : List (LiveEntry K D)} {c : LiveEntry K D} (hc : c ∈ cs)
    {key : K} (hk : (c.key == key) = true) (data : Option D) :
    (overwriteLive cs key data).map LiveEntry.pair
      = Assoc.set (cs.map LiveEntry.pair) key data := by
  rw [overwriteLive, Assoc.set, if_pos (List.any_eq_true.mpr ⟨c.pair, List.mem_map_of_mem hc, hk⟩),
    List.map_map, List.map_map]
  refine List.map_congr_left fun c' _ => ?_
  simp only [Function.comp_apply]
  split
  · rename_i hc'
    exact (if_pos (c := (c'.pair.1 == key) = true) hc').symm
  · rename_i hc'
    exact (if_neg (c := (c'.pair.1 == key) = true) hc').symm

/-- The entry slot chosen for a new key is not in use, and the slots handed out
stay partitioned into the live ones, the chosen one and the recycled ones. -/
theorem takeSlot_eq (h : t.Inv cs ds) (reallocDeleted : Bool)
    (hlt : t.entryNextInsert < t.entryCapacity) (hmax : t.count + 1 < uint32Max) :
    ∃ idx next deletedCapacity deletedIndexList, ∃ ds' : List ℕ,
      takeSlot reallocDeleted t = some (idx,
        { t with
          entryNextInsert := next
          deletedCount := ds'.length
          deletedCapacity := deletedCapacity
          deletedIndexList := deletedIndexList }) ∧
      idx ∉ cs.map LiveEntry.idx ∧ idx < t.entryCapacity ∧ idx + 1 < uint32Max ∧
      (cs.map LiveEntry.idx ++ [idx] ++ ds').Perm (List.range next) ∧
      next ≤ t.entryCapacity ∧ next < uint32Max ∧
      next ≤ max t.entryNextInsert (cs.length + 1) ∧
      deletedIndexList.size = deletedCapacity ∧ deletedIndexList.Holds ds' := by
  have hnd := h.nodup
  rcases List.eq_nil_or_concat ds with rfl | ⟨ds', idx, rfl⟩
  · -- Without recycled slots the next slot is the number of keys.
    have hlen := h.length_add
    rw [List.length_nil, Nat.add_zero, ← h.count_eq] at hlen
    rw [hlen] at hmax
    refine ⟨t.entryNextInsert, t.entryNextInsert + 1, t.deletedCapacity, t.deletedIndexList, [],
      ?_, fun hm => ?_, hlt, hmax, ?_, hlt, hmax, ?_, h.deleted_size, h.deleted_holds⟩
    · have hdc : t.deletedCount = 0 := h.deletedCount_eq
      rw [takeSlot, if_neg (by simp [hdc]), u32_of_lt (by rw [uint32Max] at hmax; omega)]
      simp [← hdc]
    · exact absurd (h.lt_nextInsert (List.mem_append_left _ hm)) (Nat.lt_irrefl _)
    · have hp := h.partition
      rw [List.append_nil] at hp
      rw [List.append_nil, List.range_succ]
      exact hp.append_right _
    · rw [← h.count_eq, hlen]
      exact Nat.le_max_right _ _
  · rw [List.concat_eq_append] at h hnd
    have hdc : t.deletedCount = ds'.length + 1 := by
      rw [h.deletedCount_eq, List.length_append, List.length_singleton]
    have hread : t.deletedIndexList.read ds'.length = some idx := h.deleted_holds.read_last
    have hidx : idx < t.entryNextInsert := h.lt_nextInsert (by simp)
    have hnm : idx ∉ cs.map LiveEntry.idx := fun hm =>
      (List.nodup_append.mp hnd).2.2 idx hm idx (by simp) rfl
    have hsize := h.deleted_holds.length_le
    rw [h.deleted_size, List.length_append, List.length_singleton] at hsize
    have hpart : (cs.map LiveEntry.idx ++ [idx] ++ ds').Perm (List.range t.entryNextInsert) := by
      refine List.Perm.trans ?_ h.partition
      rw [List.append_assoc]
      exact (List.perm_append_comm).append_left _
    have hcap : idx < t.entryCapacity := Nat.lt_trans hidx hlt
    have hidx32 : idx + 1 < uint32Max := Nat.lt_of_le_of_lt hidx h.nextInsert_lt
    have hnext := Nat.le_max_left t.entryNextInsert (cs.length + 1)
    rw [takeSlot, if_pos (by simp [hdc]), hdc]
    simp only [Nat.add_sub_cancel, hread, Option.bind_eq_bind, Option.bind_some]
    by_cases hshrink : 16 < t.deletedCapacity ∧ ds'.length < t.deletedCapacity >>> 2 ∧
        reallocDeleted = true
    · rw [if_pos hshrink]
      -- The smaller capacity still has room for what is left of the list.
      have hroom : ds'.length ≤ if ds'.length < 4 then 4 else t.deletedCapacity >>> 1 := by
        have h2 := hshrink.2.1
        rw [Nat.shiftRight_eq_div_pow] at h2
        split
        · omega
        · rw [Nat.shiftRight_eq_div_pow]
          omega
      exact ⟨idx, t.entryNextInsert, _, _, ds', rfl, hnm, hcap, hidx32, hpart, Nat.le_of_lt hlt,
        h.nextInsert_lt, hnext, Block.size_realloc _ _, h.deleted_holds.pop.realloc hroom⟩
    · rw [if_neg hshrink]
      exact ⟨idx, t.entryNextInsert, t.deletedCapacity, t.deletedIndexList, ds', rfl, hnm, hcap,
        hidx32, hpart, Nat.le_of_lt hlt, h.nextInsert_lt, hnext, h.deleted_size,
        h.deleted_holds.pop⟩

end Htable.Inv

/-! ### The insertion behind the growth check -/

section Insert

variable [BEq K] [Hashable K] [EquivBEq K] [LawfulHashable K] {t : Htable K D}
  {cs : List (LiveEntry K D)} {ds : List ℕ}

/-- A present key: only its data changes. -/
theorem htableInsert_of_mem (h : t.Inv cs ds) (hlt : t.entryNextInsert < t.entryCapacity)
    {key : K} {c : LiveEntry K D} (hc : c ∈ cs) (hk : (c.key == key) = true)
    (data : Option D) (al : SetAlloc K key) (flagCreated : Bool) :
    ∃ t', htableInsert t key data al flagCreated = some ⟨true, false, t'⟩ ∧
      t'.indexCapacity = t.indexCapacity ∧
      t'.Inv (overwriteLive cs key data) ds := by
  obtain ⟨p, n, he⟩ := h.entry c hc
  refine ⟨{ t with entries := t.entries.put c.idx ⟨c.key, data, hash c.key, p, n⟩ }, ?_, rfl,
    h.overwrite hc hk data he⟩
  rw [htableInsert, if_pos hlt]
  simp only [h.setProbe_of_mem hc hk, Option.bind_eq_bind, Option.bind_some,
    Block.modify_of_read _ he]

omit [EquivBEq K] [LawfulHashable K] in
/-- An absent key whose copy cannot be allocated: nothing changes. -/
theorem htableInsert_of_dup_none (h : t.Inv cs ds) (hlt : t.entryNextInsert < t.entryCapacity)
    {key : K} (hk : ∀ c ∈ cs, (c.key == key) = false) (hlen : cs.length < t.indexCapacity)
    (data : Option D) {al : SetAlloc K key} (hdup : al.dupKey = none) (flagCreated : Bool) :
    htableInsert t key data al flagCreated = some ⟨false, flagCreated, t⟩ := by
  obtain ⟨j, -, hp, -, -⟩ := h.setProbe_of_forall_ne hk hlen
  have hslot := slotAt_lt h.cap_pos (homeSlot t.indexCapacity key) j
  have hcap := h.cap_le
  rw [htableInsert, if_pos hlt]
  simp only [hp, Option.bind_eq_bind, Option.bind_some, hdup]
  rw [if_neg (by rw [uint64Max]; omega)]

/-- An absent key: a new entry becomes the last of the list. -/
theorem htableInsert_of_forall_ne (h : t.Inv cs ds)
    (hlt : t.entryNextInsert < t.entryCapacity) (hmax : t.count + 1 < uint32Max)
    {key : K} (hk : ∀ c ∈ cs, (c.key == key) = false) (hlen : cs.length < t.indexCapacity)
    (data : Option D) {al : SetAlloc K key} {dupKey : {k : K // (k == key) = true}}
    (hdup : al.dupKey = some dupKey) (flagCreated : Bool) :
    ∃ t' idx ds', htableInsert t key data al flagCreated = some ⟨true, true, t'⟩ ∧
      t'.indexCapacity = t.indexCapacity ∧
      t'.entryNextInsert ≤ max t.entryNextInsert (cs.length + 1) ∧
      idx ∉ cs.map LiveEntry.idx ∧ t'.Inv (cs ++ [⟨idx, dupKey.1, data⟩]) ds' := by
  obtain ⟨j, hj, hp, hnf, hfull⟩ := h.setProbe_of_forall_ne hk hlen
  have hchain : ∀ k < j, indexCell t.indexList
      (slotAt t.indexCapacity (homeSlot t.indexCapacity key) k) ≠ .empty := fun k hk => by
    obtain ⟨i, hi⟩ := hfull k hk
    rw [hi]
    simp
  have hslot := slotAt_lt h.cap_pos (homeSlot t.indexCapacity key) j
  have hcap := h.cap_le
  obtain ⟨idx, next, dcap, dlist, ds', htake, hnm, hidx, hidx32, hpart, hnle, hnlt, hnmax,
    hdsz, hdh⟩ :=
    h.takeSlot_eq al.reallocDeleted hlt hmax
  have hne : idx ≠ uint32Max := by omega
  obtain ⟨es, hlink, hesz, hnew, hframe, hlinks⟩ := linkTail_eq
    { key := dupKey.1, data := data, cachedHash := hash key, prevIdx := uint32Max,
      nextIdx := uint32Max } h.links (by rwa [h.entries_size]) hne hnm
  have hhash : hash dupKey.1 = hash key := hash_eq dupKey.2
  have hhome : homeSlot t.indexCapacity dupKey.1 = homeSlot t.indexCapacity key := by
    rw [homeSlot, homeSlot, hhash]
  have hcount : t.count + 1 < 2 ^ 64 := Nat.lt_trans hmax (by decide)
  refine ⟨
    { t with
      entries := es
      indexList := t.indexList.put (slotAt t.indexCapacity (homeSlot t.indexCapacity key) j)
        (idx + 1)
      headIdx := if t.tailIdx = uint32Max then idx else t.headIdx
      tailIdx := idx
      count := t.count + 1
      entryNextInsert := next
      deletedCount := ds'.length
      deletedCapacity := dcap
      deletedIndexList := dlist }, idx, ds', ?_, rfl, hnmax, hnm, ?_⟩
  · rw [htableInsert, if_pos hlt]
    simp only [hp, Option.bind_eq_bind, Option.bind_some, hdup, htake]
    rw [if_neg (by rw [uint64Max]; omega), u32_of_lt (by rw [uint32Max] at hidx32; omega),
      Block.write_of_lt _ (by rw [h.indexList_size]; exact hslot), u64_of_lt hcount]
    simp only [Option.bind_some, hlink]
  · rw [← hhash] at hnew
    rw [← hhome] at hnf hchain ⊢
    refine h.insert (c := ⟨idx, dupKey.1, data⟩) (fun c' hc' => ?_) hnm hidx32 hj hnf hchain rfl
      rfl rfl hesz hnew hframe hlinks hpart hnle hnlt rfl rfl hdsz hdh
    simpa [BEq.congr_right dupKey.2] using hk c' hc'

end Insert

end Freehttpd
