/-
The limit of the hash table's index list.

An index slot holds the number of an entry plus one, in 32 bits, and `UINT32_MAX` means
`HT_DELETED`.  So the entry with the number `UINT32_MAX - 1` cannot be found, and the one
with the number `UINT32_MAX`, which also ends the linked list, is not even on it:

* `Htable.Inv.set_last`, `Htable.AtLimit.set` — the sets that create these two;
* `runs_full`, `runs_atLimit` — the runs that get there;
* `not_always_owned` — a run that sets so many keys leaks a copy;
* `htable_leaks` — such a run.
-/
import Freehttpd.HtableOwnership

namespace Freehttpd

open Runs OpenAddressing

variable {K D : Type}

section Limit

variable [BEq K] [Hashable K] {t : Htable K D} {cs : List (LiveEntry K D)} {ds : List ℕ}

/-- Marking a slot that names no entry as `HT_DELETED` changes nothing that matters. -/
theorem Htable.Inv.mark (h : t.Inv cs ds) {s : ℕ} (hs : s < t.indexCapacity)
    (hnf : ∀ i, indexCell t.indexList s ≠ .full i) :
    { t with indexList := t.indexList.put s htDeleted }.Inv cs ds := by
  have hslt : s < t.indexList.size := h.indexList_size ▸ hs
  have hself : indexCell (t.indexList.put s htDeleted) s = .deleted := indexCell_put_deleted hslt
  have hother : ∀ s', s' ≠ s →
      indexCell (t.indexList.put s htDeleted) s' = indexCell t.indexList s' :=
    fun s' hs' => indexCell_put_of_ne (Ne.symm hs')
  have hfull : ∀ s' i, indexCell (t.indexList.put s htDeleted) s' = .full i →
      indexCell t.indexList s' = .full i := fun s' i hi => by
    rw [← hother s' fun he => ?_]
    · exact hi
    · rw [he, hself] at hi
      cases hi
  exact
    { h with
      indexList_size := by rw [Block.size_put]; exact h.indexList_size
      indexList_init := fun s' hs' => by
        rw [Block.read_put _ hslt]
        split
        · rfl
        · exact h.indexList_init s' hs'
      slots := fun s' hs' i hi => h.slots s' hs' i (hfull s' i hi)
      slot_inj := fun s' hs' s'' hs'' i hi hi' =>
        h.slot_inj s' hs' s'' hs'' i (hfull s' i hi) (hfull s'' i hi')
      onPath := fun c hc => (h.onPath c hc).congr_set (fun s' _ hs' => hother s' hs')
        (by simp [hself]) (hnf _) }

omit [BEq K] [Hashable K] in
/-- Two entry slots with the same key are both free, or hold entries with that key. -/
theorem read_key_cases {es es' : Block (HtEntry K D)} {i : ℕ}
    (h : (es'.read i).map HtEntry.key = (es.read i).map HtEntry.key) :
    (es.read i = none ∧ es'.read i = none) ∨
      ∃ e e', es.read i = some e ∧ es'.read i = some e' ∧ e'.key = e.key := by
  cases he : es.read i with
  | none =>
    rw [he, Option.map_none, Option.map_eq_none_iff] at h
    exact .inl ⟨rfl, h⟩
  | some e =>
    rw [he, Option.map_some, Option.map_eq_some_iff] at h
    obtain ⟨e', he', hkey⟩ := h
    exact .inr ⟨e, e', rfl, he', hkey⟩

omit [Hashable K] in
/-- The probe of a set sees the index list and the keys of the entries it names. -/
theorem setProbeLoop_congr {t' : Htable K D} {key : K} (hil : t'.indexList = t.indexList)
    (hkeys : ∀ s v, t.indexList.read s = some v → v ≠ htEmpty → v ≠ htDeleted →
      (t'.entries.read (v - 1)).map HtEntry.key = (t.entries.read (v - 1)).map HtEntry.key)
    {mask n s target : ℕ} :
    setProbeLoop t' key mask n s target = setProbeLoop t key mask n s target := by
  induction n generalizing s target with
  | zero => rfl
  | succ n ih =>
    rw [setProbeLoop, setProbeLoop, hil]
    cases hv : t.indexList.read s with
    | none => rfl
    | some v =>
      simp only [Option.bind_eq_bind, Option.bind_some, ih]
      split
      · rfl
      · rename_i hdel
        split
        · rfl
        · rename_i hempty
          rcases read_key_cases (hkeys s v hv hempty hdel) with
            ⟨he, he'⟩ | ⟨e, e', he, he', hkey⟩
          · rw [he, he']
          · rw [he, he']
            simp only [Option.bind_some, hkey]

omit [Hashable K] in
/-- So does the search of a lookup. -/
theorem findLoop_congr {t' : Htable K D} {key : K} (hil : t'.indexList = t.indexList)
    (hkeys : ∀ s v, t.indexList.read s = some v → v ≠ htEmpty → v ≠ htDeleted →
      (t'.entries.read (v - 1)).map HtEntry.key = (t.entries.read (v - 1)).map HtEntry.key)
    {mask n s : ℕ} : findLoop t' key mask n s = findLoop t key mask n s := by
  induction n generalizing s with
  | zero => rfl
  | succ n ih =>
    rw [findLoop, findLoop, hil]
    cases hv : t.indexList.read s with
    | none => rfl
    | some v =>
      simp only [Option.bind_eq_bind, Option.bind_some, ih]
      split
      · rfl
      · rename_i hdel
        split
        · rfl
        · rename_i hempty
          rcases read_key_cases (hkeys s v hv hempty hdel) with
            ⟨he, he'⟩ | ⟨e, e', he, he', hkey⟩
          · rw [he, he']
          · rw [he, he']
            simp only [Option.bind_some, hkey]

/-- The insertion of a new key that takes the next unused entry slot. -/
theorem htableInsert_next {key : K} (data : Option D) {al : SetAlloc K key} (flagCreated : Bool)
    {dupKey : {k : K // (k == key) = true}} {s headIdx tailIdx : ℕ} {es : Block (HtEntry K D)}
    (hlt : t.entryNextInsert < t.entryCapacity) (hprobe : t.setProbe key = some (.absent s))
    (hs : s < t.indexList.size) (hs64 : s ≠ uint64Max) (hdup : al.dupKey = some dupKey)
    (hdc : t.deletedCount = 0)
    (hlink : linkTail t.entries t.headIdx t.tailIdx t.entryNextInsert
      { key := dupKey.1, data := data, cachedHash := hash key, prevIdx := uint32Max,
        nextIdx := uint32Max } = some (es, headIdx, tailIdx)) :
    htableInsert t key data al flagCreated = some ⟨true, true,
      { t with
        entries := es
        indexList := t.indexList.put s (u32 (t.entryNextInsert + 1))
        headIdx := headIdx
        tailIdx := tailIdx
        count := u64 (t.count + 1)
        entryNextInsert := u32 (t.entryNextInsert + 1) }⟩ := by
  rw [Htable.setProbe] at hprobe
  rw [htableInsert, if_pos hlt]
  simp only [hprobe, Option.bind_eq_bind, Option.bind_some, hdup]
  rw [if_neg hs64, takeSlot, if_neg (not_not.mpr hdc)]
  simp only [Option.bind_some, Block.write_of_lt _ hs, hlink]

omit [BEq K] [Hashable K] in
/-- Linking the entry whose number is the end marker leaves the other entries alone, if the
tail has no successor. -/
theorem linkTail_end {es : Block (HtEntry K D)} (headIdx : ℕ) {tailIdx : ℕ} {e last : HtEntry K D}
    (htail : tailIdx ≠ uint32Max) (hread : es.read tailIdx = some last)
    (hend : last.nextIdx = uint32Max) (hsize : uint32Max < es.size) :
    ∃ es', linkTail es headIdx tailIdx uint32Max e = some (es', headIdx, uint32Max) ∧
      ∀ i ≠ uint32Max, es'.read i = es.read i := by
  have hlt := Block.lt_of_read hread
  refine ⟨(es.put tailIdx { last with nextIdx := uint32Max }).put uint32Max
    { e with prevIdx := tailIdx, nextIdx := uint32Max }, ?_, fun i hi => ?_⟩
  · rw [linkTail, if_neg htail, Block.modify_of_read _ hread]
    simp only [Option.bind_eq_bind, Option.bind_some]
    rw [Block.write_of_lt _ (by rwa [Block.size_put])]
    rfl
  · rw [Block.read_put_of_ne _ (Ne.symm hi), Block.read_put _ hlt]
    split
    · rename_i hi
      rw [← hi, hread, ← hend]
    · rfl

end Limit

section Leak

variable [BEq K] [Hashable K] [EquivBEq K] [LawfulHashable K]

/-- Setting new keys: the `n`th call of `ops` sets `keys n`. -/
theorem ledger_sets {keys : ℕ → K}
    (hkeys : ∀ i j, i < j → j ≤ uint32Max → (keys i == keys j) = false)
    (al : ∀ n, SetAlloc K (keys n)) (hal : ∀ n, (al n).Succeed) (data : ℕ → Option D)
    {l₀ : Ledger K D} (h₀ : l₀.Inv) (hc : l₀.contents = []) (hf : l₀.frees = [])
    (hnext : l₀.table.entryNextInsert = 0) {n : ℕ} (hn : n < uint32Max) :
    ∃ outs l, runs ledgerStep l₀ ((List.range n).map fun i => .set (keys i) (data i) (al i) false)
        = some (outs, l) ∧ l.Inv ∧ l.contents.length = n ∧ l.frees = [] ∧
      l.table.entryNextInsert ≤ n ∧ ∀ p ∈ l.contents, ∃ i < n, (p.1 == keys i) = true := by
  induction n with
  | zero =>
    refine ⟨[], l₀, rfl, h₀, by rw [hc]; rfl, hf, Nat.le_of_eq hnext, fun p hp => ?_⟩
    rw [hc] at hp
    exact absurd hp List.not_mem_nil
  | succ n ih =>
    obtain ⟨outs, l, hruns, hl, hlen, hfrees, hnext, hmem⟩ := ih (by omega)
    have hl' := hl
    obtain ⟨cs, ds, hinv, hperm, -⟩ := hl'
    have hcs : cs.length = n := by rw [← hlen, ← hperm.length_eq, List.length_map]
    -- The keys set so far are all among the first `n`.
    have hget : Assoc.get l.contents (keys n) = none := by
      rw [Assoc.get_eq_none_iff]
      intro p hp
      obtain ⟨i, hi, hk⟩ := hmem p hp
      rw [BEq.congr_left hk]
      exact hkeys i n hi (Nat.le_of_succ_le (Nat.le_of_lt hn))
    have hfits : (HtOp.set (keys n) (data n) (al n) false).Fits l.table := by
      refine .inr ?_
      rw [hinv.count_eq, hcs]
      exact hn
    obtain ⟨r, cs', ds', m, hr, -, -, -, hrnext, -, hcase⟩ :=
      htableSetWithFlag_eq hinv (keys n) (hinv.count_lt_of_fits hfits) (data n) (al n) false
    obtain ⟨out, l', hstep, hinv'⟩ := hl.set hfits
    have hstep' := ledgerStep_set (l := l) hr
    obtain ⟨-, rfl⟩ := Prod.mk.inj (Option.some.inj (hstep.symm.trans hstep'))
    obtain hret : r.ret = true := by
      rcases hcase with ⟨hret, -⟩ | ⟨-, hns, -⟩
      · exact hret
      · exact absurd ((hal n).suffice l.table) hns
    have hcontents : orderStep l.contents (.set (keys n) (data n) (al n) false)
        (.set r.ret r.flagCreated) = l.contents ++ [((al n).copy, data n)] := by
      rw [hret, orderStep]
      exact Assoc.set_of_absent (by rw [Assoc.get_congr (al n).copy_beq, hget]) (data n)
    refine ⟨outs ++ [.set r.ret r.flagCreated], _, ?_, hinv', ?_, hfrees, ?_, ?_⟩
    · rw [List.range_succ, List.map_append, runs_append, hruns, Option.bind_some,
        List.map_singleton, runs_cons_of_step hstep']
      rfl
    · rw [hcontents, List.length_append, hlen]
      rfl
    · rw [hcs] at hrnext
      show r.table.entryNextInsert ≤ n + 1
      omega
    · intro p hp
      rw [hcontents, List.mem_append, List.mem_singleton] at hp
      rcases hp with hp | rfl
      · obtain ⟨i, hi, hk⟩ := hmem p hp
        exact ⟨i, by omega, hk⟩
      · exact ⟨n, by omega, (al n).copy_beq⟩

omit [EquivBEq K] [LawfulHashable K] in
/-- An insertion into a table that has room for the entry behind the growth check. -/
theorem htableSetWithFlag_of_not_mustGrow {t : Htable K D} {key : K} {data : Option D}
    {al : SetAlloc K key} {flagCreated : Bool} (hg : t.mustGrow = false) :
    htableSetWithFlag t key data al flagCreated = htableInsert t key data al flagCreated := by
  rw [htableSetWithFlag, if_neg (by rw [hg]; exact Bool.false_ne_true)]

/-- A table in which `cs ++ [c]` are linked and `c` has the last number of all: the index
slot of `c` reads `HT_DELETED`, so that a search sees what it sees in the table `m`. -/
structure Htable.AtLimit (t m : Htable K D) (cs : List (LiveEntry K D)) (c : LiveEntry K D) :
    Prop where
  seen : ∃ ds, m.Inv cs ds
  seen_cap : t.indexCapacity = m.indexCapacity
  seen_list : t.indexList = m.indexList
  seen_keys : ∀ c' ∈ cs,
    (t.entries.read c'.idx).map HtEntry.key = (m.entries.read c'.idx).map HtEntry.key
  cap_ge : 2 ^ 33 ≤ t.indexCapacity
  entryCap : t.entryCapacity = t.indexCapacity * 3 / 4
  size : t.entries.size = t.entryCapacity
  next : t.entryNextInsert = uint32Max
  count : t.count = uint32Max
  deleted : t.deletedCount = 0
  idx : c.idx ≠ uint32Max
  length : cs.length + 1 = uint32Max
  links : DList (entryNext t.entries) (entryPrev t.entries) uint32Max t.headIdx c.idx
    (cs.map LiveEntry.idx ++ [c.idx])
  tail : t.tailIdx = c.idx
  entry : ∀ c' ∈ cs ++ [c], ∃ p n, t.entries.read c'.idx = some ⟨c'.key, c'.data, hash c'.key, p, n⟩

omit [EquivBEq K] [LawfulHashable K] in
/-- So many entries need an index of at least `2 ^ 33` slots. -/
theorem Htable.Inv.cap_ge_of_next {t : Htable K D} {cs : List (LiveEntry K D)} {ds : List ℕ}
    (h : t.Inv cs ds) (hnext : t.entryNextInsert = uint32Max - 1) : 2 ^ 33 ≤ t.indexCapacity := by
  obtain ⟨k, -, -, hk⟩ := h.cap_pow
  have hle := h.nextInsert_le
  rw [h.entryCapacity_eq, hnext, uint32Max] at hle
  rw [hk] at hle ⊢
  refine Nat.pow_le_pow_right (by decide) ?_
  by_contra hk33
  have hpow : 2 ^ k ≤ 2 ^ 32 := Nat.pow_le_pow_right (by decide) (by omega)
  omega

omit [BEq K] [Hashable K] [EquivBEq K] [LawfulHashable K] in
theorem mustGrow_of_cap_ge {t : Htable K D} (hcap : 2 ^ 33 ≤ t.indexCapacity)
    (hle : t.indexCapacity ≤ 2 ^ 62) (hecap : t.entryCapacity = t.indexCapacity * 3 / 4)
    (hnext : t.entryNextInsert ≤ uint32Max) (hcount : t.count ≤ uint32Max) :
    t.mustGrow = false := by
  rw [uint32Max] at hnext hcount
  rw [Htable.mustGrow, u64_of_lt (by omega), u64_of_lt (by omega), Bool.or_eq_false_iff,
    decide_eq_false_iff_not, decide_eq_false_iff_not]
  omega

omit [EquivBEq K] in
/-- A new key takes the last number there is. -/
theorem Htable.Inv.set_last {t : Htable K D} {cs : List (LiveEntry K D)} {ds : List ℕ}
    (h : t.Inv cs ds) (hlen : cs.length = uint32Max - 1)
    (hnext : t.entryNextInsert ≤ uint32Max - 1) {key : K} {al : SetAlloc K key} {d : Option D}
    (hk : ∀ c ∈ cs, (c.key == key) = false) (hal : al.dupKey.isSome) :
    ∃ t' m idx, htableSetWithFlag t key d al false = some ⟨true, true, t'⟩ ∧
      t'.AtLimit m cs ⟨idx, al.copy, d⟩ := by
  obtain ⟨dupKey, hdup⟩ := Option.isSome_iff_exists.mp hal
  have hcopy : al.copy = dupKey.1 := by rw [SetAlloc.copy, hdup]
  have hu : uint32Max = 2 ^ 32 - 1 := rfl
  have hadd := h.length_add
  -- Every slot handed out is in use, so the next one is the last number.
  have hnextEq : t.entryNextInsert = uint32Max - 1 := by omega
  have hdc : t.deletedCount = 0 := by
    rw [h.deletedCount_eq]
    omega
  have hcountEq : t.count = uint32Max - 1 := h.count_eq.trans hlen
  have hcap := h.cap_ge_of_next hnextEq
  have hcapLe := h.cap_le
  have hecap := h.entryCapacity_eq
  obtain ⟨j, hj, hprobe, hnf, -⟩ := h.setProbe_of_forall_ne hk (by omega)
  have hs := slotAt_lt h.cap_pos (homeSlot t.indexCapacity key) j
  have hnotMem : t.entryNextInsert ∉ cs.map LiveEntry.idx := fun hm =>
    Nat.lt_irrefl _ (h.lt_nextInsert (List.mem_append_left _ hm))
  obtain ⟨es, hlink, hesz, hnew, hframe, hlinks⟩ := linkTail_eq
    { key := dupKey.1, data := d, cachedHash := hash key, prevIdx := uint32Max,
      nextIdx := uint32Max } h.links
    (show t.entryNextInsert < t.entries.size by rw [h.entries_size]; omega) (by omega) hnotMem
  have hset := htableInsert_next d false (by omega) hprobe
    (by rw [h.indexList_size]; exact hs) (by rw [uint64Max]; omega) hdup hdc hlink
  have hu32 : u32 (t.entryNextInsert + 1) = uint32Max := by
    rw [u32_of_lt (by omega)]
    omega
  have hu64 : u64 (t.count + 1) = uint32Max := by
    rw [u64_of_lt (by omega)]
    omega
  have hg := mustGrow_of_cap_ge hcap hcapLe hecap (by omega) (by omega)
  rw [hu32, hu64, ← htableSetWithFlag_of_not_mustGrow hg] at hset
  have hne : ∀ c ∈ cs, c.idx ≠ t.entryNextInsert := fun c hc => Nat.ne_of_lt (h.idx_lt hc)
  refine ⟨_, _, t.entryNextInsert, hset, ⟨ds, h.mark hs hnf⟩, rfl, rfl, fun c hc => ?_, hcap,
    hecap, hesz.trans h.entries_size, rfl, rfl, hdc, by dsimp only; omega, by omega, ?_, rfl,
    fun c hc => ?_⟩
  · obtain ⟨p, m, he⟩ := h.entry c hc
    obtain ⟨m', he'⟩ := hframe c.idx (hne c hc) _ he
    dsimp only
    rw [he', he]
    rfl
  · exact hlinks
  · rcases List.mem_append.mp hc with hc | hc
    · obtain ⟨p, m, he⟩ := h.entry c hc
      obtain ⟨m', he'⟩ := hframe c.idx (hne c hc) _ he
      exact ⟨p, m', he'⟩
    · rw [List.mem_singleton.mp hc]
      refine ⟨t.tailIdx, uint32Max, ?_⟩
      dsimp only
      rw [hnew, hcopy, hash_eq dupKey.2]

omit [EquivBEq K] [LawfulHashable K] in
/-- The index names entries with the same keys in both tables. -/
theorem Htable.AtLimit.same_keys {t m : Htable K D} {cs : List (LiveEntry K D)}
    {c : LiveEntry K D} (h : t.AtLimit m cs c) :
    ∀ s v, m.indexList.read s = some v → v ≠ htEmpty → v ≠ htDeleted →
      (t.entries.read (v - 1)).map HtEntry.key = (m.entries.read (v - 1)).map HtEntry.key := by
  obtain ⟨ds, hm⟩ := h.seen
  intro s v hv hempty hdel
  have hslt : s < m.indexCapacity := hm.indexList_size ▸ Block.lt_of_read hv
  have hpos : v - 1 + 1 = v := by
    rw [htEmpty] at hempty
    omega
  obtain ⟨c', hc', hidx⟩ := List.mem_map.mp (hm.slots s hslt (v - 1)
    (indexCell_eq_full_iff.mpr ⟨by rw [hpos]; exact hv, by rw [hpos]; exact hdel⟩))
  rw [← hidx]
  exact h.seen_keys c' hc'

omit [EquivBEq K] [LawfulHashable K] in
/-- The last key is not found. -/
theorem Htable.AtLimit.find {t m : Htable K D} {cs : List (LiveEntry K D)}
    {c : LiveEntry K D} (h : t.AtLimit m cs c) {key : K}
    (hk : ∀ c ∈ cs, (c.key == key) = false) : htableFind t key = some none := by
  obtain ⟨ds, hm⟩ := h.seen
  rw [htableFind, h.seen_cap, findLoop_congr h.seen_list h.same_keys]
  exact hm.find_of_forall_ne hk

/-- A run that sets as many new keys as there are entry numbers. -/
theorem runs_full {keys : ℕ → K}
    (hkeys : ∀ i j, i < j → j ≤ uint32Max → (keys i == keys j) = false)
    (al : ∀ n, SetAlloc K (keys n)) (hal : ∀ n, (al n).Succeed) (data : ℕ → Option D)
    {t₀ : Htable K D} (h₀ : MapOf t₀ []) (hnext : t₀.entryNextInsert = 0) {n : ℕ}
    (hn : uint32Max = n + 1) :
    ∃ outs t cs ds,
      runs htStep t₀ ((List.range n).map fun i => .set (keys i) (data i) (al i) false)
        = some (outs, t) ∧
      t.Inv cs ds ∧ cs.length = n ∧ t.entryNextInsert ≤ n ∧
      ∀ c ∈ cs, (c.key == keys n) = false := by
  obtain ⟨cs₀, ds₀, hinv₀, -, hlen₀, -⟩ := h₀
  obtain rfl : cs₀ = [] := List.eq_nil_of_length_eq_zero hlen₀.symm
  have hstart : Ledger.Inv ⟨t₀, [], [], []⟩ :=
    ⟨[], ds₀, hinv₀, List.Perm.refl _, List.Perm.refl _⟩
  obtain ⟨outs, l, hruns, ⟨cs, ds, hinv, hperm, -⟩, hlen, -, hnextLe, hmem⟩ :=
    ledger_sets hkeys al hal data hstart rfl rfl hnext (n := n) (by omega)
  refine ⟨outs, l.table, cs, ds, runs_map (f := Ledger.table)
    (fun _ _ _ _ => htStep_of_ledgerStep) hruns, hinv, ?_, hnextLe, ?_⟩
  · rw [← hlen, ← hperm.length_eq, List.length_map]
  · intro c hc
    obtain ⟨i, hi, hk⟩ := hmem c.pair (hperm.mem_iff.mp (List.mem_map_of_mem hc))
    show (c.pair.1 == keys n) = false
    rw [BEq.congr_left hk]
    exact hkeys i n hi (by omega)

/-- A run of `UINT32_MAX` sets of new keys, each of which succeeds. -/
theorem runs_atLimit {keys : ℕ → K}
    (hkeys : ∀ i j, i < j → j ≤ uint32Max → (keys i == keys j) = false)
    (al : ∀ n, SetAlloc K (keys n)) (hal : ∀ n, (al n).Succeed) (data : ℕ → Option D)
    {t₀ : Htable K D} (h₀ : MapOf t₀ []) (hnext : t₀.entryNextInsert = 0) :
    ∃ outs t m cs c,
      runs htStep t₀ ((List.range uint32Max).map fun i => .set (keys i) (data i) (al i) false)
        = some (outs ++ [.set true true], t) ∧
      t.AtLimit m cs c ∧ (∀ c' ∈ cs, (c'.key == keys (uint32Max - 1)) = false) ∧
      (c.key == keys (uint32Max - 1)) = true := by
  obtain ⟨n, hn⟩ : ∃ n, uint32Max = n + 1 := ⟨uint32Max - 1, by decide⟩
  obtain ⟨outs, t, cs, ds, hruns, hinv, hlen, hnextLe, hnew⟩ :=
    runs_full hkeys al hal data h₀ hnext hn
  obtain ⟨t', m, idx, hset, hlimit⟩ := hinv.set_last (d := data n) (by omega) (by omega) hnew
    (hal n).2.2.1
  have hstep : htStep t (.set (keys n) (data n) (al n) false) = some (.set true true, t') := by
    rw [htStep, hset]
    rfl
  rw [hn]
  refine ⟨outs, t', m, cs, _, ?_, hlimit, hnew, (al n).copy_beq⟩
  rw [List.range_succ, List.map_append, runs_append, hruns, Option.bind_some, List.map_singleton,
    runs_cons_of_step hstep]
  rfl

omit [EquivBEq K] [LawfulHashable K] in
/-- The entry of the next key has the number that ends the linked list, so the final walk
misses it. -/
theorem Htable.AtLimit.set {t m : Htable K D} {cs : List (LiveEntry K D)} {c : LiveEntry K D}
    (h : t.AtLimit m cs c) {key : K} {al : SetAlloc K key} {d : Option D}
    (hk : ∀ c ∈ cs, (c.key == key) = false) (hal : al.dupKey.isSome) :
    ∃ t', htableSetWithFlag t key d al false = some ⟨true, true, t'⟩ ∧
      ∀ dataFreeCb fuel, uint32Max < fuel → htableFreeWithCleanup t' dataFreeCb fuel
        = some (cleanupOf dataFreeCb ((cs ++ [c]).map LiveEntry.pair)) := by
  obtain ⟨dupKey, hdup⟩ := Option.isSome_iff_exists.mp hal
  obtain ⟨ds, hm⟩ := h.seen
  have hu : uint32Max = 2 ^ 32 - 1 := rfl
  have hcap := h.cap_ge
  have hcapLe := hm.cap_le
  rw [← h.seen_cap] at hcapLe
  have hecap := h.entryCap
  have hlen := h.length
  obtain ⟨j, -, hprobe, -, -⟩ := hm.setProbe_of_forall_ne hk (by rw [← h.seen_cap]; omega)
  have hs := slotAt_lt hm.cap_pos (homeSlot m.indexCapacity key) j
  have hprobe' : t.setProbe key
      = some (.absent (slotAt m.indexCapacity (homeSlot m.indexCapacity key) j)) := by
    rw [Htable.setProbe, h.seen_cap, setProbeLoop_congr h.seen_list h.same_keys]
    exact hprobe
  obtain ⟨q, n, hlast⟩ := h.entry c (by simp)
  have hend : n = uint32Max := by
    have hnext := h.links.isSome_links.1
    rw [entryNext, hlast, Option.map_some, Option.some_inj] at hnext
    exact hnext
  obtain ⟨es, hlink, hframe⟩ := linkTail_end t.headIdx
    (e := { key := dupKey.1, data := d, cachedHash := hash key, prevIdx := uint32Max,
            nextIdx := uint32Max })
    (show t.tailIdx ≠ uint32Max from h.tail ▸ h.idx) (h.tail ▸ hlast) hend
    (show uint32Max < t.entries.size by rw [h.size]; omega)
  have hg := mustGrow_of_cap_ge hcap hcapLe hecap (Nat.le_of_eq h.next) (Nat.le_of_eq h.count)
  have hset := htableInsert_next d false
    (by rw [h.next]; omega) hprobe'
    (by rw [h.seen_list, hm.indexList_size]; exact hs)
    (by rw [← h.seen_cap] at hs; rw [uint64Max, ← h.seen_cap]; omega) hdup h.deleted
    (by rw [h.next]; exact hlink)
  rw [← htableSetWithFlag_of_not_mustGrow hg] at hset
  refine ⟨_, hset, fun dataFreeCb fuel hf => ?_⟩
  · -- The entries on the list are as they were.
    have hread : ∀ i ∈ cs.map LiveEntry.idx ++ [c.idx], es.read i = t.entries.read i :=
      fun i hi => hframe i fun he => h.links.nil_notMem (he ▸ hi)
    have hlinked := h.links.linked.congr
      (fun i hi => show entryNext es i = entryNext t.entries i by
        rw [entryNext, entryNext, hread i hi])
      (fun i hi => show entryPrev es i = entryPrev t.entries i by
        rw [entryPrev, entryPrev, hread i hi])
    have hmap : (cs ++ [c]).map LiveEntry.idx = cs.map LiveEntry.idx ++ [c.idx] :=
      List.map_append
    rw [← hmap] at hlinked hread
    have hnil : uint32Max ∉ (cs ++ [c]).map LiveEntry.idx := hmap ▸ h.links.nil_notMem
    have hentry : ∀ c' ∈ cs ++ [c], ∃ p n,
        es.read c'.idx = some ⟨c'.key, c'.data, hash c'.key, p, n⟩ := fun c' hc' => by
      rw [hread c'.idx (List.mem_map_of_mem hc')]
      exact h.entry c' hc'
    have hfuel : (cs ++ [c]).length < fuel := by
      rw [List.length_append, List.length_singleton]
      omega
    rw [htableFreeWithCleanup]
    show cleanupLoop es dataFreeCb fuel t.headIdx = _
    rw [h.links.head_eq, ← hmap]
    exact cleanupLoop_eq hlinked hnil hentry hfuel

/-- A run that sets `UINT32_MAX + 1` new keys leaks one of the copies. -/
theorem not_always_owned {keys : ℕ → K}
    (hkeys : ∀ i j, i < j → j ≤ uint32Max → (keys i == keys j) = false)
    (al : ∀ n, SetAlloc K (keys n)) (hal : ∀ n, (al n).Succeed) (data : ℕ → Option D)
    {l₀ : Ledger K D} (h₀ : l₀.Inv) (hc : l₀.contents = []) (hf : l₀.frees = [])
    (hnext : l₀.table.entryNextInsert = 0) :
    ¬ Always ledgerStep Ledger.Owned l₀
      ((List.range (uint32Max + 1)).map fun i => .set (keys i) (data i) (al i) false) := by
  obtain ⟨n, hn⟩ : ∃ n, uint32Max = n + 1 := ⟨uint32Max - 1, by decide⟩
  obtain ⟨outs, l, hruns, hl, hlen, hfrees, hnext, hmem⟩ :=
    ledger_sets hkeys al hal data h₀ hc hf hnext (n := n) (by omega)
  rw [hn, List.range_succ, List.range_succ, List.append_assoc, List.map_append]
  intro halways
  have hlast := halways.append hruns
  obtain ⟨cs, ds, hinv, hperm, hcopies⟩ := hl
  have hcs : cs.length = n := by rw [← hlen, ← hperm.length_eq, List.length_map]
  have hnew : ∀ j, n ≤ j → j ≤ uint32Max → ∀ c ∈ cs, (c.key == keys j) = false := by
    intro j hj hle c hc
    obtain ⟨i, hi, hk⟩ := hmem c.pair (hperm.mem_iff.mp (List.mem_map_of_mem hc))
    show (c.pair.1 == keys j) = false
    rw [BEq.congr_left hk]
    exact hkeys i j (by omega) hle
  obtain ⟨t₁, m, idx, hset₁, hlimit⟩ := hinv.set_last (d := data n) (by omega) (by omega)
    (hnew n (Nat.le_refl n) (by omega)) (hal n).2.2.1
  obtain ⟨t₂, hset₂, hwalk⟩ :=
    hlimit.set (d := data (n + 1)) (hnew (n + 1) (Nat.le_succ n) (by omega))
    (hal (n + 1)).2.2.1
  -- Both calls copy their key.
  have hstep₁ := ledgerStep_set hset₁
  have hstep₂ := ledgerStep_set (l := ⟨t₁, l.copies ++ [(al n).copy], l.frees,
    orderStep l.contents (.set (keys n) (data n) (al n) false) (.set true true)⟩) hset₂
  have hafter := ((always_cons_of_step hstep₁ _).mp hlast).2
  have howned := ((always_cons_of_step hstep₂ _).mp hafter).2
  obtain ⟨r, hr, hbalance, -⟩ := howned.head.cleanup false
    (max t₂.count uint32Max + 1) (Nat.lt_succ_of_le (Nat.le_max_left _ _))
  rw [hwalk false _ (Nat.lt_succ_of_le (Nat.le_max_right _ _)), Option.some_inj] at hr
  have hlength := hbalance.length_eq
  have hcopiesLen := hcopies.length_eq
  rw [← hr] at hlength
  simp only [cleanupOf, hfrees, List.nil_append, List.length_append, List.length_map,
    List.length_singleton, Bool.and_self, if_true] at hlength hcopiesLen
  omega

end Leak

/-- A table of strings that copies `UINT32_MAX + 1` keys leaks one of them, when it is freed:
the entry with the number `UINT32_MAX` is not on the linked list. -/
theorem htable_leaks : ∃ t₀ : Htable StrKey ℕ,
    htableCreate ⟨true, true, true⟩ 16 = some (some t₀) ∧
    ¬ Always ledgerStep Ledger.Owned ⟨t₀, [], [], []⟩
      ((List.range (uint32Max + 1)).map fun n =>
        .set (numberedKey n) (some n) (strSetAlloc true true (some n) true _) false) := by
  obtain ⟨t₀, hcreate⟩ : ∃ t₀ : Htable StrKey ℕ,
      htableCreate ⟨true, true, true⟩ 16 = some (some t₀) := ⟨_, rfl⟩
  obtain ⟨⟨cs, ds, hinv, -, hlen, -⟩, hnext⟩ := MapOf.create (by decide) hcreate
  obtain rfl : cs = [] := List.eq_nil_of_length_eq_zero hlen.symm
  refine ⟨t₀, hcreate, not_always_owned (fun i j hij hj => ?_) _ (fun n => ?_) _
    ⟨[], ds, hinv, List.Perm.refl _, List.Perm.refl _⟩ rfl rfl hnext⟩
  · rw [uint32Max] at hj
    rw [Bool.eq_false_iff]
    intro hk
    have hmod := numberedKey_beq hk
    omega
  · exact ⟨rfl, rfl, rfl, rfl⟩

end Freehttpd
