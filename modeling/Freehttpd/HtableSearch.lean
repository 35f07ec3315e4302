/-
Searching the hash table.

The probe loops of the source are instances of `OpenAddressing.probe`
(`findLoop_eq`, `setProbeLoop_eq`), so the general theorems about linear probing
decide where they end:

* `find_of_mem`, `find_of_forall_ne` — the search of get and delete;
* `setProbe_of_mem`, `setProbe_of_forall_ne` — the search of set, which for an
  absent key ends at a slot that may be taken even if no slot is empty;
* `htableGetWithFlag_eq` — lookup returns what the list of live entries says.
-/
import Freehttpd.HtableInv

namespace Freehttpd

open OpenAddressing

variable {K D : Type} [BEq K] [Hashable K]

/-- Whether entry `i` carries `key`. -/
def keyHit (t : Htable K D) (key : K) (i : ℕ) : Bool :=
  match t.entries.read i with
  | none => false
  | some e => e.key == key

namespace Htable.Inv

variable {t : Htable K D} {cs : List (LiveEntry K D)} {ds : List ℕ}

theorem keyHit_eq (h : t.Inv cs ds) {c : LiveEntry K D} (hc : c ∈ cs) (key : K) :
    keyHit t key c.idx = (c.key == key) := by
  obtain ⟨p, n, he⟩ := h.entry c hc
  rw [keyHit, he]

/-- The value of an index slot, in terms of its meaning. -/
theorem read_index (h : t.Inv cs ds) {s : ℕ} (hs : s < t.indexCapacity) :
    (t.indexList.read s = some htEmpty ∧ indexCell t.indexList s = .empty) ∨
    (t.indexList.read s = some htDeleted ∧ indexCell t.indexList s = .deleted) ∨
    ∃ c ∈ cs, t.indexList.read s = some (c.idx + 1) ∧ c.idx + 1 ≠ htEmpty ∧
      c.idx + 1 ≠ htDeleted ∧ indexCell t.indexList s = .full c.idx := by
  obtain ⟨v, hv⟩ := Option.isSome_iff_exists.mp (h.indexList_init s hs)
  by_cases h0 : v = htEmpty
  · exact .inl ⟨by rw [hv, h0], by simp [indexCell, hv, h0]⟩
  · by_cases h1 : v = htDeleted
    · exact .inr (.inl ⟨by rw [hv, h1], by simp [indexCell, hv, h1, htDeleted, htEmpty, uint32Max]⟩)
    · have hcell : indexCell t.indexList s = .full (v - 1) := by simp [indexCell, hv, h0, h1]
      obtain ⟨c, hc, hci⟩ := List.mem_map.mp (h.slots s hs _ hcell)
      have hpos : c.idx + 1 = v := by
        rw [htEmpty] at h0
        omega
      exact .inr (.inr ⟨c, hc, by rw [hpos, hv], hpos ▸ h0, hpos ▸ h1, hci ▸ hcell⟩)

/-- The loop of get and delete is a linear probe. -/
theorem findLoop_eq (h : t.Inv cs ds) (key : K) {n s : ℕ} (hs : s < t.indexCapacity)
    (free : Option ℕ) :
    findLoop t key (t.indexCapacity - 1) n s =
      some (match probe t.indexCapacity (indexCell t.indexList) (keyHit t key) n s free with
        | .hit s i => some (s, i)
        | .miss _ => none) := by
  induction n generalizing s free with
  | zero => rfl
  | succ n ih =>
    have hnext : ((s + 1) &&& (t.indexCapacity - 1)) = (s + 1) % t.indexCapacity := h.and_mask _
    have ih' := fun free => ih (s := (s + 1) % t.indexCapacity) (Nat.mod_lt _ h.cap_pos) free
    rw [findLoop, hnext, probe]
    rcases h.read_index hs with ⟨hv, hc⟩ | ⟨hv, hc⟩ | ⟨c, hcs, hv, h0, h1, hc⟩
    · rw [hv, hc]
      simp [htEmpty, htDeleted, uint32Max]
    · rw [hv, hc]
      simp only [Option.bind_eq_bind, Option.bind_some, if_true]
      exact ih' _
    · obtain ⟨p, m, he⟩ := h.entry c hcs
      rw [hv, hc]
      simp only [Option.bind_eq_bind, Option.bind_some, if_neg h0, if_neg h1,
        Nat.add_sub_cancel, he, h.keyHit_eq hcs key]
      split <;> simp [ih' free]

/-- The loop of set is the same linear probe; `insert_target_hash` is the slot
it may take, `UINT64_MAX` standing for none. -/
theorem setProbeLoop_eq (h : t.Inv cs ds) (key : K) {n s : ℕ} (hs : s < t.indexCapacity)
    (free : Option ℕ) (hfree : ∀ f, free = some f → f ≠ uint64Max) :
    setProbeLoop t key (t.indexCapacity - 1) n s (free.getD uint64Max) =
      some (match probe t.indexCapacity (indexCell t.indexList) (keyHit t key) n s free with
        | .hit _ i => .found i
        | .miss f => .absent (f.getD uint64Max)) := by
  induction n generalizing s free with
  | zero => rfl
  | succ n ih =>
    have hs64 : s ≠ uint64Max := by
      have := h.cap_le
      rw [uint64Max]
      omega
    have hnext : ((s + 1) &&& (t.indexCapacity - 1)) = (s + 1) % t.indexCapacity := h.and_mask _
    have ih' := fun free hf => ih (s := (s + 1) % t.indexCapacity) (Nat.mod_lt _ h.cap_pos) free hf
    -- The first slot that may be taken is kept, and `UINT64_MAX` is not a slot.
    have htarget : (if free.getD uint64Max = uint64Max then s else free.getD uint64Max)
        = (free.or (some s)).getD uint64Max := by
      cases free with
      | none => simp
      | some f => simp [hfree f rfl]
    have hor : ∀ f, free.or (some s) = some f → f ≠ uint64Max := by
      cases free with
      | none => simpa using hs64
      | some f => simpa using hfree f rfl
    rw [setProbeLoop, hnext, probe, htarget]
    rcases h.read_index hs with ⟨hv, hc⟩ | ⟨hv, hc⟩ | ⟨c, hcs, hv, h0, h1, hc⟩
    · rw [hv, hc]
      simp [htEmpty, htDeleted, uint32Max]
    · rw [hv, hc]
      simp only [Option.bind_eq_bind, Option.bind_some, if_true]
      exact ih' _ hor
    · obtain ⟨p, m, he⟩ := h.entry c hcs
      rw [hv, hc]
      simp only [Option.bind_eq_bind, Option.bind_some, if_neg h0, if_neg h1,
        Nat.add_sub_cancel, he, h.keyHit_eq hcs key]
      split <;> simp [ih' free hfree]

variable [EquivBEq K] [LawfulHashable K]

/-- A probe for the key of a live entry ends at that entry. -/
theorem probe_of_mem (h : t.Inv cs ds) {c : LiveEntry K D} (hc : c ∈ cs) {key : K}
    (hk : (c.key == key) = true) (free : Option ℕ) :
    ∃ s < t.indexCapacity, indexCell t.indexList s = .full c.idx ∧
      probe t.indexCapacity (indexCell t.indexList) (keyHit t key) t.indexCapacity
        (homeSlot t.indexCapacity key) free = .hit s c.idx := by
  obtain ⟨j, hj, hfull, hchain⟩ := h.onPath c hc
  have hhome : homeSlot t.indexCapacity c.key = homeSlot t.indexCapacity key := by
    rw [homeSlot, homeSlot, hash_eq hk]
  rw [hhome] at hfull hchain
  refine ⟨_, slotAt_lt h.cap_pos _ j, hfull, ?_⟩
  refine probe_hit free (h.home_lt key) hj hfull (by rw [h.keyHit_eq hc, hk]) hchain ?_
  -- An earlier full slot with a matching key would be a second slot of `c`.
  intro k hkj i hi
  obtain ⟨c', hc', rfl⟩ := List.mem_map.mp (h.slots _ (slotAt_lt h.cap_pos _ k) i hi)
  rw [h.keyHit_eq hc']
  by_contra hk'
  have hcc : c' = c := h.eq_of_key hc' hc
    (PartialEquivBEq.trans (by simpa using hk') (BEq.symm hk))
  subst hcc
  have hslot := h.slot_inj _ (slotAt_lt h.cap_pos _ k) _ (slotAt_lt h.cap_pos _ j) _ hi hfull
  exact absurd hslot (slotAt_ne_of_lt hkj hj)

omit [EquivBEq K] [LawfulHashable K] in
/-- Without the key among the live entries no slot matches. -/
theorem keyHit_of_forall_ne (h : t.Inv cs ds) {key : K}
    (hk : ∀ c ∈ cs, (c.key == key) = false) {s : ℕ} (hs : s < t.indexCapacity) (i : ℕ)
    (hi : indexCell t.indexList s = .full i) : keyHit t key i = false := by
  obtain ⟨c, hc, rfl⟩ := List.mem_map.mp (h.slots s hs i hi)
  rw [h.keyHit_eq hc, hk c hc]

theorem find_of_mem (h : t.Inv cs ds) {c : LiveEntry K D} (hc : c ∈ cs) {key : K}
    (hk : (c.key == key) = true) :
    ∃ s < t.indexCapacity, indexCell t.indexList s = .full c.idx ∧
      htableFind t key = some (some (s, c.idx)) := by
  obtain ⟨s, hs, hfull, hp⟩ := h.probe_of_mem hc hk none
  refine ⟨s, hs, hfull, ?_⟩
  rw [htableFind, h.and_home, h.findLoop_eq key (h.home_lt key) none, hp]

omit [EquivBEq K] [LawfulHashable K] in
theorem find_of_forall_ne (h : t.Inv cs ds) {key : K}
    (hk : ∀ c ∈ cs, (c.key == key) = false) : htableFind t key = some none := by
  obtain ⟨free', hp, -, -⟩ := probe_miss (n := t.indexCapacity) none (h.home_lt key)
    fun k _ => h.keyHit_of_forall_ne hk (slotAt_lt h.cap_pos _ k)
  rw [htableFind, h.and_home, h.findLoop_eq key (h.home_lt key) none, hp]

theorem setProbe_of_mem (h : t.Inv cs ds) {c : LiveEntry K D} (hc : c ∈ cs) {key : K}
    (hk : (c.key == key) = true) :
    setProbeLoop t key (t.indexCapacity - 1) t.indexCapacity
      ((hash key).toNat &&& (t.indexCapacity - 1)) uint64Max = some (.found c.idx) := by
  obtain ⟨s, -, -, hp⟩ := h.probe_of_mem hc hk none
  have hloop := h.setProbeLoop_eq key (n := t.indexCapacity) (h.home_lt key) none (by simp)
  rw [hp] at hloop
  rw [h.and_home]
  exact hloop

omit [EquivBEq K] [LawfulHashable K] in
/-- For an absent key the search of set ends at the first slot that may be taken, even
if every slot is full or deleted: there are fewer live entries than slots. -/
theorem setProbe_of_forall_ne (h : t.Inv cs ds) {key : K}
    (hk : ∀ c ∈ cs, (c.key == key) = false) (hlen : cs.length < t.indexCapacity) :
    ∃ j < t.indexCapacity,
      setProbeLoop t key (t.indexCapacity - 1) t.indexCapacity
        ((hash key).toNat &&& (t.indexCapacity - 1)) uint64Max =
        some (.absent (slotAt t.indexCapacity (homeSlot t.indexCapacity key) j)) ∧
      (∀ i, indexCell t.indexList (slotAt t.indexCapacity (homeSlot t.indexCapacity key) j)
        ≠ .full i) ∧
      ∀ k < j, ∃ i, indexCell t.indexList
        (slotAt t.indexCapacity (homeSlot t.indexCapacity key) k) = .full i := by
  obtain ⟨free', hp, -, hfree⟩ := probe_miss (n := t.indexCapacity) none (h.home_lt key)
    fun k _ => h.keyHit_of_forall_ne hk (slotAt_lt h.cap_pos _ k)
  obtain ⟨j, hj, rfl, hnf, hchain⟩ := hfree rfl
    (exists_not_full _ h.slots h.slot_inj (by simpa using hlen))
  refine ⟨j, hj, ?_, hnf, hchain⟩
  have hloop := h.setProbeLoop_eq key (n := t.indexCapacity) (h.home_lt key) none (by simp)
  rw [hp] at hloop
  rw [h.and_home]
  exact hloop

end Htable.Inv

/-! ### Lookup -/

omit [Hashable K] in
/-- A key either matches a live entry or none. -/
theorem exists_mem_or_forall_ne (cs : List (LiveEntry K D)) (key : K) :
    (∃ c ∈ cs, (c.key == key) = true) ∨ ∀ c ∈ cs, (c.key == key) = false := by
  by_cases h : ∃ c ∈ cs, (c.key == key) = true
  · exact .inl h
  · exact .inr fun c hc => by simpa using fun hk => h ⟨c, hc, hk⟩

omit [Hashable K] in
theorem get_of_forall_ne {cs : List (LiveEntry K D)} {key : K}
    (hk : ∀ c ∈ cs, (c.key == key) = false) :
    Assoc.get (cs.map LiveEntry.pair) key = none := by
  rw [Assoc.get_eq_none_iff]
  intro p hp
  obtain ⟨c, hc, rfl⟩ := List.mem_map.mp hp
  exact hk c hc

namespace Htable.Inv

variable {t : Htable K D} {cs : List (LiveEntry K D)} {ds : List ℕ} [EquivBEq K]

theorem get_of_mem (h : t.Inv cs ds) {c : LiveEntry K D} (hc : c ∈ cs) {key : K}
    (hk : (c.key == key) = true) : Assoc.get (cs.map LiveEntry.pair) key = some c.data :=
  (Assoc.get_eq_some_iff h.distinct).mpr ⟨c.pair, List.mem_map_of_mem hc, hk, rfl⟩

/-- `htable_get_with_flag` returns what the contents say. -/
theorem htableGetWithFlag_eq [LawfulHashable K] (h : t.Inv cs ds) (key : K) :
    htableGetWithFlag t key =
      some ((Assoc.get (cs.map LiveEntry.pair) key).join,
        (Assoc.get (cs.map LiveEntry.pair) key).isSome) := by
  rcases exists_mem_or_forall_ne cs key with ⟨c, hc, hk⟩ | hk
  · obtain ⟨s, -, -, hf⟩ := h.find_of_mem hc hk
    obtain ⟨p, n, he⟩ := h.entry c hc
    rw [h.get_of_mem hc hk, htableGetWithFlag, hf]
    simp [he]
  · rw [get_of_forall_ne hk, htableGetWithFlag, h.find_of_forall_ne hk]
    rfl

end Htable.Inv

end Freehttpd
