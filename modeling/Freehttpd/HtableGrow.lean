/-
Growth of the hash table.

`htable_rehash` visits the index slots in order and inserts what it finds into
fresh arrays; each round is an insertion into the table that the local variables
make up (`Rehash.table`), so the invariant is carried by `Htable.Inv.insert`:

* `rehashEntry_eq` — one round of the outer loop;
* `rehashLoop_eq` — the whole loop appends the live entries in slot order;
* `liveFrom_perm` — in slot order every live entry appears exactly once;
* `htableGrow_eq` — growth succeeds, keeps the contents up to order, doubles
  the index capacity and forgets the recycled slots.
-/
import Freehttpd.HtableInsert

namespace Freehttpd

open OpenAddressing

variable {K D : Type}

/-- The table made up by the local variables of `htable_rehash`. -/
def Rehash.table (r : Rehash K D) (t : Htable K D) (newIndexCapacity newEntryCapacity : ℕ) :
    Htable K D :=
  { t with
    entries := r.newEntries
    indexList := r.newIndexList
    count := r.newIdxCounter
    entryNextInsert := r.newIdxCounter
    headIdx := r.headIdx
    tailIdx := r.tailIdx
    indexCapacity := newIndexCapacity
    entryCapacity := newEntryCapacity
    deletedCount := 0 }

theorem indexCell_eq_empty_iff {il : Block ℕ} {s : ℕ} (h : (il.read s).isSome) :
    indexCell il s = .empty ↔ il.read s = some htEmpty := by
  obtain ⟨v, hv⟩ := Option.isSome_iff_exists.mp h
  rw [indexCell, hv]
  by_cases h0 : v = htEmpty <;> by_cases h1 : v = htDeleted <;> simp [h0, h1]

/-- The inner loop of `htable_rehash` ends at the first empty slot. -/
theorem rehashProbe_eq {il : Block ℕ} {cap : ℕ} (hmask : ∀ x, x &&& (cap - 1) = x % cap)
    (hinit : ∀ s < cap, (il.read s).isSome) {n s : ℕ} (hs : s < cap)
    (hex : ∃ j < n, indexCell il (slotAt cap s j) = .empty) :
    ∃ j < n, rehashProbe il (cap - 1) n s = some (slotAt cap s j) ∧
      indexCell il (slotAt cap s j) = .empty ∧
      ∀ k < j, indexCell il (slotAt cap s k) ≠ .empty := by
  induction n generalizing s with
  | zero => obtain ⟨j, hj, -⟩ := hex; exact absurd hj (Nat.not_lt_zero j)
  | succ n ih =>
    obtain ⟨v, hv⟩ := Option.isSome_iff_exists.mp (hinit s hs)
    have hempty := indexCell_eq_empty_iff (hinit s hs)
    rw [rehashProbe, hv]
    simp only [Option.bind_eq_bind, Option.bind_some]
    by_cases h0 : v = htEmpty
    · rw [if_pos h0]
      refine ⟨0, by omega, by rw [slotAt_zero hs], ?_, fun k hk => absurd hk (Nat.not_lt_zero k)⟩
      rw [slotAt_zero hs, hempty, hv, h0]
    · have hne : indexCell il s ≠ .empty := fun hc => h0 (by
        rw [hempty, hv, Option.some_inj] at hc
        exact hc)
      rw [if_neg h0, hmask]
      obtain ⟨j, hj, hcj⟩ := hex
      -- The slot at hand is in use, so the empty one lies behind it.
      have hj0 : j ≠ 0 := by
        rintro rfl
        rw [slotAt_zero hs] at hcj
        exact hne hcj
      obtain ⟨j', hj', hp, hc, hchain⟩ := ih (Nat.mod_lt _ (by omega)) ⟨j - 1, by omega, by
        rw [slotAt_succ, Nat.sub_add_cancel (Nat.pos_of_ne_zero hj0)]
        exact hcj⟩
      rw [slotAt_succ] at hp hc
      refine ⟨j' + 1, by omega, hp, hc, fun k hk => ?_⟩
      rcases Nat.eq_zero_or_pos k with rfl | hk0
      · rwa [slotAt_zero hs]
      · rw [← Nat.sub_add_cancel hk0, ← slotAt_succ]
        exact hchain (k - 1) (by omega)

section Rehash

variable [BEq K] [Hashable K] {t : Htable K D} {cs done : List (LiveEntry K D)} {ds : List ℕ}
  {r : Rehash K D} {cap ecap : ℕ}

/-- One round of `htable_rehash`: the entry is inserted into the new arrays,
which never contain a deletion mark. -/
theorem rehashEntry_eq (h : t.Inv cs ds) (hr : (r.table t cap ecap).Inv done [])
    (hnd : ∀ s < cap, indexCell r.newIndexList s ≠ .deleted) {c : LiveEntry K D} (hc : c ∈ cs)
    (hk : ∀ c' ∈ done, (c'.key == c.key) = false) (hecap : done.length < ecap)
    (hcap : done.length < cap) (hmax : done.length + 1 < uint32Max) :
    ∃ r', rehashEntry t cap ecap (c.idx + 1) r = some (some r') ∧
      (r'.table t cap ecap).Inv (done ++ [⟨done.length, c.key, c.data⟩]) [] ∧
      ∀ s < cap, indexCell r'.newIndexList s ≠ .deleted := by
  obtain ⟨p, n, he⟩ := h.entry c hc
  have hcnt : r.newIdxCounter = done.length := hr.count_eq
  have hmem : done.length ∉ done.map LiveEntry.idx := fun hm => by
    have := hr.lt_nextInsert (List.mem_append_left [] hm)
    rw [show (r.table t cap ecap).entryNextInsert = done.length from hcnt] at this
    omega
  -- The new arrays have an empty slot, since a slot that is not full is empty.
  obtain ⟨j₀, hj₀, hnf₀⟩ := exists_not_full (homeSlot cap c.key) hr.slots hr.slot_inj
    (by rw [List.length_map]; exact hcap)
  have hempty₀ : indexCell r.newIndexList (slotAt cap (homeSlot cap c.key) j₀) = .empty := by
    have hne := hnd _ (slotAt_lt hr.cap_pos (homeSlot cap c.key) j₀)
    cases hcell : indexCell r.newIndexList (slotAt cap (homeSlot cap c.key) j₀) with
    | empty => rfl
    | deleted => exact absurd hcell hne
    | full i => exact absurd hcell (hnf₀ i)
  obtain ⟨j, hj, hprobe, hcell, hchain⟩ :=
    rehashProbe_eq hr.and_mask hr.indexList_init (hr.home_lt c.key) ⟨j₀, hj₀, hempty₀⟩
  have hslot := slotAt_lt hr.cap_pos (homeSlot cap c.key) j
  have hslotlt : slotAt cap (homeSlot cap c.key) j < r.newIndexList.size := by
    rw [show r.newIndexList.size = cap from hr.indexList_size]
    exact hslot
  obtain ⟨es, hlink, hesz, hnew, hframe, hlinks⟩ := linkTail_eq
    (⟨c.key, c.data, hash c.key, p, n⟩ : HtEntry K D) hr.links
    (by rw [hr.entries_size]; exact hecap) (by omega) hmem
  have hcap62 : cap ≤ 2 ^ 62 := hr.cap_le
  refine ⟨
    { newIndexList := r.newIndexList.put (slotAt cap (homeSlot cap c.key) j) (done.length + 1)
      newEntries := es
      newIdxCounter := done.length + 1
      headIdx := if r.tailIdx = uint32Max then done.length else r.headIdx
      tailIdx := done.length }, ?_, ?_, fun s hs => ?_⟩
  · have hmask : (hash c.key).toNat &&& (cap - 1) = homeSlot cap c.key := hr.and_home c.key
    have hlink' : linkTail r.newEntries r.headIdx r.tailIdx done.length
        (⟨c.key, c.data, hash c.key, p, n⟩ : HtEntry K D)
        = some (es, if r.tailIdx = uint32Max then done.length else r.headIdx, done.length) := hlink
    have hprobe' : rehashProbe r.newIndexList (cap - 1) cap (homeSlot cap c.key)
        = some (slotAt cap (homeSlot cap c.key) j) := hprobe
    rw [rehashEntry, if_pos (by omega), Nat.add_sub_cancel, he, hcnt]
    simp only [Option.bind_eq_bind, Option.bind_some, hlink', hmask, hprobe']
    rw [if_neg (by rw [uint64Max]; have : slotAt cap (homeSlot cap c.key) j < cap := hslot; omega),
      u32_of_lt (by rw [uint32Max] at hmax; omega), Block.write_of_lt _ hslotlt]
    rfl
  · have hpart := hr.partition
    rw [List.append_nil, show (r.table t cap ecap).entryNextInsert = done.length from hcnt]
      at hpart
    refine hr.insert (c := ⟨done.length, c.key, c.data⟩) (p := r.tailIdx) (n := uint32Max) hk hmem
      hmax hj (fun i hi => ?_) hchain rfl rfl rfl hesz hnew hframe hlinks ?_ hecap ?_
      (congrArg (· + 1) hcnt).symm rfl hr.deleted_size (Block.holds_nil _)
    · exact absurd (hcell.symm.trans hi) (by simp)
    · rw [List.append_nil]
      exact (hpart.append_right _).trans (by rw [← List.range_succ]; exact List.Perm.refl _)
    · exact hmax
  · by_cases hs' : slotAt cap (homeSlot cap c.key) j = s
    · rw [← hs', indexCell_put_full hslotlt hmax]
      simp
    · rw [indexCell_put_of_ne hs']
      exact hnd s hs

/-- The live entries found in the `n` index slots from `i` on, in slot order. -/
def liveFrom (il : Block ℕ) (cs : List (LiveEntry K D)) : ℕ → ℕ → List (LiveEntry K D)
  | 0, _ => []
  | n + 1, i =>
    (cs.find? fun c => indexCell il i = .full c.idx).toList ++ liveFrom il cs n (i + 1)

theorem find_of_full (h : t.Inv cs ds) {i : ℕ} {c : LiveEntry K D} (hc : c ∈ cs)
    (hi : indexCell t.indexList i = .full c.idx) :
    (cs.find? fun c => indexCell t.indexList i = .full c.idx) = some c := by
  cases hf : cs.find? fun c => indexCell t.indexList i = .full c.idx with
  | none => exact absurd hi (by simpa using List.find?_eq_none.mp hf c hc)
  | some c' =>
    have hc' := List.find?_some hf
    simp only [decide_eq_true_eq, hi, Cell.full.injEq] at hc'
    rw [h.eq_of_idx (List.mem_of_find?_eq_some hf) hc hc'.symm]

omit [BEq K] [Hashable K] in
theorem find_of_not_full {i : ℕ} (hi : ∀ c ∈ cs, indexCell t.indexList i ≠ .full c.idx) :
    (cs.find? fun c => indexCell t.indexList i = .full c.idx) = none :=
  List.find?_eq_none.mpr fun c hc => by simpa using hi c hc

/-- The outer loop of `htable_rehash` appends the entries of the slots it
visits. -/
theorem rehashLoop_eq (h : t.Inv cs ds) {n i : ℕ} (hin : i + n ≤ t.indexCapacity)
    (hr : (r.table t cap ecap).Inv done [])
    (hnd : ∀ s < cap, indexCell r.newIndexList s ≠ .deleted)
    (hdist : Assoc.Distinct ((done ++ liveFrom t.indexList cs n i).map LiveEntry.pair))
    (hecap : (done ++ liveFrom t.indexList cs n i).length ≤ ecap)
    (hcap : (done ++ liveFrom t.indexList cs n i).length ≤ cap)
    (hmax : (done ++ liveFrom t.indexList cs n i).length < uint32Max) :
    ∃ r' done', rehashLoop t cap ecap n i r = some (some r') ∧
      (r'.table t cap ecap).Inv done' [] ∧
      done'.map LiveEntry.pair
        = (done ++ liveFrom t.indexList cs n i).map LiveEntry.pair := by
  induction n generalizing i r done with
  | zero => exact ⟨r, done, rfl, hr, by simp [liveFrom]⟩
  | succ n ih =>
    rw [rehashLoop]
    rcases h.read_index (s := i) (by omega) with ⟨hv, hc⟩ | ⟨hv, hc⟩ | ⟨c, hcs, hv, h0, h1, hc⟩
    · have hlive : liveFrom t.indexList cs (n + 1) i = liveFrom t.indexList cs n (i + 1) := by
        rw [liveFrom, find_of_not_full fun c _ => by simp [hc]]
        rfl
      rw [hlive] at hdist hecap hcap hmax ⊢
      simpa [hv] using ih (by omega) hr hnd hdist hecap hcap hmax
    · have hlive : liveFrom t.indexList cs (n + 1) i = liveFrom t.indexList cs n (i + 1) := by
        rw [liveFrom, find_of_not_full fun c _ => by simp [hc]]
        rfl
      rw [hlive] at hdist hecap hcap hmax ⊢
      simpa [hv] using ih (by omega) hr hnd hdist hecap hcap hmax
    · have hlive : liveFrom t.indexList cs (n + 1) i = c :: liveFrom t.indexList cs n (i + 1) := by
        rw [liveFrom, find_of_full h hcs hc]
        rfl
      rw [hlive] at hdist hecap hcap hmax ⊢
      simp only [List.length_append, List.length_cons] at hecap hcap hmax
      -- The new entry stands for `c`, at the next index of the new array.
      have hpair : (done ++ ⟨done.length, c.key, c.data⟩ :: liveFrom t.indexList cs n (i + 1)).map
          LiveEntry.pair
          = (done ++ c :: liveFrom t.indexList cs n (i + 1)).map LiveEntry.pair := by
        simp [LiveEntry.pair]
      have hk : ∀ c' ∈ done, (c'.key == c.key) = false := fun c' hc' => by
        rw [Assoc.Distinct, List.map_append, List.pairwise_append] at hdist
        exact hdist.2.2 c'.pair (List.mem_map_of_mem hc') c.pair (by simp)
      obtain ⟨r', hre, hr', hnd'⟩ := rehashEntry_eq h hr hnd hcs hk (by omega) (by omega)
        (by omega)
      rw [← hpair, List.append_cons] at hdist
      obtain ⟨r'', done', hloop, hinv, hdone⟩ := ih (i := i + 1) (by omega) hr' hnd' hdist
        (by simp only [List.length_append, List.length_singleton]; omega)
        (by simp only [List.length_append, List.length_singleton]; omega)
        (by simp only [List.length_append, List.length_singleton]; omega)
      refine ⟨r'', done', ?_, hinv, ?_⟩
      · simp only [Option.bind_eq_bind, hv, Option.bind_some, h0, h1, or_self, if_false, hre]
        exact hloop
      · rw [hdone, ← List.append_cons, hpair]

theorem mem_liveFrom (h : t.Inv cs ds) {n i : ℕ} {c : LiveEntry K D} :
    c ∈ liveFrom t.indexList cs n i ↔
      c ∈ cs ∧ ∃ s, i ≤ s ∧ s < i + n ∧ indexCell t.indexList s = .full c.idx := by
  induction n generalizing i with
  | zero =>
    simp only [liveFrom, List.not_mem_nil, false_iff, not_and, not_exists]
    intro _ s
    omega
  | succ n ih =>
    rw [liveFrom, List.mem_append, ih, Option.mem_toList]
    constructor
    · rintro (hc | ⟨hc, s, hs, hs', hfull⟩)
      · have hfull := List.find?_some (p := fun c : LiveEntry K D =>
          decide (indexCell t.indexList i = .full c.idx)) hc
        exact ⟨List.mem_of_find?_eq_some hc, i, by omega, by omega, by simpa using hfull⟩
      · exact ⟨hc, s, by omega, by omega, hfull⟩
    · rintro ⟨hc, s, hs, hs', hfull⟩
      by_cases hi : s = i
      · exact .inl (find_of_full h hc (hi ▸ hfull))
      · exact .inr ⟨hc, s, by omega, by omega, hfull⟩

/-- In slot order every live entry appears exactly once. -/
theorem liveFrom_perm (h : t.Inv cs ds) :
    (liveFrom t.indexList cs t.indexCapacity 0).Perm cs := by
  have hnodup : ∀ n i, i + n ≤ t.indexCapacity → (liveFrom t.indexList cs n i).Nodup := by
    intro n
    induction n with
    | zero => exact fun _ _ => List.nodup_nil
    | succ n ih =>
      intro i hi
      rw [liveFrom]
      refine List.nodup_append.mpr ⟨?_, ih (i + 1) (by omega), fun a ha b hb hab => ?_⟩
      · cases cs.find? fun c => indexCell t.indexList i = .full c.idx <;> simp
      · -- Both slots would name the same entry.
        rw [Option.mem_toList] at ha
        have hai := List.find?_some (p := fun c : LiveEntry K D =>
          decide (indexCell t.indexList i = .full c.idx)) ha
        obtain ⟨-, s, hs, hs', hbs⟩ := (mem_liveFrom h).mp hb
        rw [← hab] at hbs
        have := h.slot_inj i (by omega) s (by omega) _ (by simpa using hai) hbs
        omega
  have hcs : cs.Nodup := List.Nodup.of_map _ h.links.nodup
  rw [List.perm_ext_iff_of_nodup (hnodup _ 0 (by omega)) hcs]
  intro c
  rw [mem_liveFrom h]
  refine ⟨fun hc => hc.1, fun hc => ⟨hc, ?_⟩⟩
  obtain ⟨j, hj, hfull, -⟩ := h.onPath c hc
  exact ⟨_, Nat.zero_le _, by rw [Nat.zero_add]; exact slotAt_lt h.cap_pos _ j, hfull⟩

/-- Growth succeeds when its allocations do: the contents are kept up to order
and no entry slot is left for recycling. -/
theorem htableGrow_eq [EquivBEq K] (h : t.Inv cs ds) (hcap : t.indexCapacity ≤ 2 ^ 61) :
    ∃ t' cs', htableGrow true true t = some (some t') ∧ t'.Inv cs' [] ∧
      (cs'.map LiveEntry.pair).Perm (cs.map LiveEntry.pair) ∧
      t'.indexCapacity = 2 * t.indexCapacity := by
  obtain ⟨k, hk1, -, hk⟩ := h.cap_pow
  have hk61 : k ≤ 61 := by
    rw [hk] at hcap
    exact (Nat.pow_le_pow_iff_right (by decide)).mp hcap
  have hsh : u64 (t.indexCapacity <<< 1) = 2 * t.indexCapacity := by
    rw [Nat.shiftLeft_eq, u64_of_lt (by omega)]
    omega
  have hecap : u64 (2 * t.indexCapacity * 3) / 4 = 2 * t.indexCapacity * 3 / 4 := by
    rw [u64_of_lt (by omega)]
  have hperm := liveFrom_perm h
  have hlen : (liveFrom t.indexList cs t.indexCapacity 0).length ≤ t.entryNextInsert := by
    rw [hperm.length_eq, ← h.count_eq]
    exact h.count_le
  have hnext := h.nextInsert_le
  have hnext32 := h.nextInsert_lt
  rw [h.entryCapacity_eq] at hnext
  -- The loop starts from an empty table in the fresh arrays.
  set r₀ : Rehash K D :=
    { newIndexList := Block.calloc (2 * t.indexCapacity) htEmpty
      newEntries := Block.malloc (2 * t.indexCapacity * 3 / 4)
      newIdxCounter := 0
      headIdx := uint32Max
      tailIdx := uint32Max } with hr₀
  have hinv₀ : (r₀.table t (2 * t.indexCapacity) (2 * t.indexCapacity * 3 / 4)).Inv [] [] :=
    Htable.inv_fresh (k := k + 1) (by omega) (by omega)
      (by rw [show (r₀.table t (2 * t.indexCapacity) (2 * t.indexCapacity * 3 / 4)).indexCapacity
        = 2 * t.indexCapacity from rfl, hk, Nat.pow_succ, Nat.mul_comm])
      rfl rfl rfl rfl rfl rfl rfl rfl h.deleted_size
  have hnd₀ : ∀ s < 2 * t.indexCapacity, indexCell r₀.newIndexList s ≠ .deleted := fun s hs => by
    simp [indexCell, hr₀, Block.read_calloc _ hs]
  obtain ⟨r, done, hloop, hinv, hdone⟩ := rehashLoop_eq (r := r₀) h (n := t.indexCapacity) (i := 0)
    (by omega) hinv₀ hnd₀ (h.distinct.perm (hperm.symm.map _)) (by rw [List.nil_append]; omega)
    (by rw [List.nil_append]; omega) (by rw [List.nil_append]; omega)
  rw [List.nil_append] at hdone
  have hcount : t.count = r.newIdxCounter := by
    have hr : r.newIdxCounter = done.length := hinv.count_eq
    have hl := congrArg List.length hdone
    rw [List.length_map, List.length_map, hperm.length_eq] at hl
    rw [h.count_eq, hr, hl]
  refine ⟨_, done, ?_, hinv, hdone ▸ hperm.map _, rfl⟩
  simp only [htableGrow, Bool.and_self, if_true, hsh, hecap, htableRehash, ← hr₀, hloop,
    Option.bind_eq_bind, Option.bind_some, Rehash.table, ← hcount]

end Rehash

end Freehttpd
