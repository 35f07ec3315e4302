/-
The demand on the home slots of the index.

A set takes the first slot from the home slot of its key that holds no key, so the slots
that were ever used follow from how many keys with each home slot were there at once:

* `Htable.peakAfter` — the most keys with each home slot that the table has held at once
  since it last grew;
* `placed` — the home slots of the keys, index slot by index slot;
* `Htable.Moves` — what a call does to them;
* `Htable.Moves.reserved` — the slots set aside for the peaks are enough.
-/
import Freehttpd.HtableGrowth
import Freehttpd.HtableTraversal
import Freehttpd.SlotDemand

namespace Freehttpd

open Runs OpenAddressing

variable {K D : Type}

/-! ### Peaks -/

section Peaks

variable [Hashable K]

/-- How many of the keys have the home slot `h`. -/
def homedAt (cap : ℕ) (m : List (K × Option D)) (h : ℕ) : ℕ :=
  m.countP fun kv => homeSlot cap kv.1 = h

/-- How many keys with the home slot `h` the table holds. -/
def Htable.keysAt (t : Htable K D) (h : ℕ) : ℕ :=
  (htableContents t).elim 0 fun m => homedAt t.indexCapacity m h

/-- How many it would hold if `key` were set. -/
def Htable.keysAtWith [BEq K] (t : Htable K D) (key : K) (data : Option D) (h : ℕ) : ℕ :=
  (htableContents t).elim 0 fun m =>
    homedAt t.indexCapacity (Assoc.set m key data) h

/-- The most keys with each home slot that the table has held at once since it last grew,
or was created, once a call has turned `t` into `t'`. -/
def Htable.peakAfter (t t' : Htable K D) (peak : ℕ → ℕ) : ℕ → ℕ :=
  if t'.indexCapacity = t.indexCapacity then fun h => max (peak h) (t'.keysAt h) else t'.keysAt

/-- One call, with a record of the peaks. -/
def htPeakStep [BEq K] (s : Htable K D × (ℕ → ℕ)) (op : HtOp K D) :
    Option (HtOut D × Htable K D × (ℕ → ℕ)) := do
  let (out, t) ← htStep s.1 op
  some (out, t, s.1.peakAfter t s.2)

/-- The record does not change what the call does. -/
theorem htPeakStep_fst [BEq K] (s : Htable K D × (ℕ → ℕ)) (op : HtOp K D) (out : HtOut D)
    (s' : Htable K D × (ℕ → ℕ)) (h : htPeakStep s op = some (out, s')) :
    htStep s.1 op = some (out, s'.1) := by
  obtain ⟨⟨out', t'⟩, hstep, hs⟩ := Option.bind_eq_some_iff.mp h
  obtain ⟨rfl, rfl⟩ := Prod.mk.inj (Option.some.inj hs)
  exact hstep

end Peaks

/-! ### Placed keys -/

/-- The home slot of the key that each index slot names. -/
def placed [Hashable K] (t : Htable K D) (cs : List (LiveEntry K D)) : Placement := fun s =>
  (cs.find? fun c => indexCell t.indexList s = .full c.idx).map fun c =>
    homeSlot t.indexCapacity c.key

namespace Htable.Inv

variable [BEq K] [Hashable K] {t t' : Htable K D} {cs cs' : List (LiveEntry K D)} {ds ds' : List ℕ}

theorem placed_of_full (h : t.Inv cs ds) {s : ℕ} {c : LiveEntry K D} (hc : c ∈ cs)
    (hi : indexCell t.indexList s = .full c.idx) :
    placed t cs s = some (homeSlot t.indexCapacity c.key) := by
  rw [placed, find_of_full h hc hi]
  rfl

omit [BEq K] in
theorem placed_of_not_full {s : ℕ} (hi : ∀ i, indexCell t.indexList s ≠ .full i) :
    placed t cs s = none := by
  rw [placed, find_of_not_full fun c _ => hi c.idx]
  rfl

/-- A slot past the index names nothing. -/
theorem indexCell_of_le (h : t.Inv cs ds) {s : ℕ} (hs : t.indexCapacity ≤ s) (i : ℕ) :
    indexCell t.indexList s ≠ .full i := fun hi => by
  obtain ⟨hread, -⟩ := indexCell_eq_full_iff.mp hi
  have hlt := Block.lt_of_read hread
  rw [h.indexList_size] at hlt
  omega

theorem placed_isSome_iff (h : t.Inv cs ds) {s : ℕ} :
    (placed t cs s).isSome ↔ ∃ i, indexCell t.indexList s = .full i := by
  constructor
  · intro hs
    by_contra hnone
    rw [placed_of_not_full fun i hi => hnone ⟨i, hi⟩] at hs
    cases hs
  · rintro ⟨i, hi⟩
    have hlt : s < t.indexCapacity := by
      by_contra hge
      exact h.indexCell_of_le (Nat.le_of_not_lt hge) i hi
    obtain ⟨c, hc, rfl⟩ := List.mem_map.mp (h.slots s hlt i hi)
    rw [h.placed_of_full hc hi]
    rfl

omit [BEq K] in
/-- A placed key is that of a live entry. -/
theorem exists_of_placed {s g : ℕ} (hp : placed t cs s = some g) :
    ∃ c ∈ cs, indexCell t.indexList s = .full c.idx ∧ homeSlot t.indexCapacity c.key = g := by
  obtain ⟨c, hfind, hg⟩ := Option.map_eq_some_iff.mp hp
  have hfull := List.find?_some hfind
  exact ⟨c, List.mem_of_find?_eq_some hfind, of_decide_eq_true hfull, hg⟩

theorem homesLt_placed (h : t.Inv cs ds) : HomesLt t.indexCapacity (placed t cs) := by
  intro s _ g hp
  obtain ⟨c, -, -, rfl⟩ := exists_of_placed hp
  exact h.home_lt c.key

/-- Two tables with the same value in an index slot, whose entries with the same number have
the same key, have the same key placed there. -/
theorem placed_congr (h : t.Inv cs ds) (h' : t'.Inv cs' ds')
    (hcap : t'.indexCapacity = t.indexCapacity)
    (hkey : ∀ c ∈ cs, ∀ c' ∈ cs', c'.idx = c.idx → c'.key = c.key) {s : ℕ}
    (hcell : indexCell t'.indexList s = indexCell t.indexList s) :
    placed t' cs' s = placed t cs s := by
  by_cases hfull : ∃ i, indexCell t.indexList s = .full i
  · obtain ⟨i, hi⟩ := hfull
    have hlt : s < t.indexCapacity := by
      by_contra hge
      exact h.indexCell_of_le (Nat.le_of_not_lt hge) i hi
    have hi' := hcell.trans hi
    obtain ⟨c, hc, rfl⟩ := List.mem_map.mp (h.slots s hlt i hi)
    obtain ⟨c', hc', hidx⟩ := List.mem_map.mp (h'.slots s (hcap ▸ hlt) _ hi')
    rw [h.placed_of_full hc hi, h'.placed_of_full hc' (hidx ▸ hi'), hkey c hc c' hc' hidx, hcap]
  · push Not at hfull
    rw [placed_of_not_full hfull, placed_of_not_full fun i hi => hfull i (hcell ▸ hi)]

/-- What is summed over the slots is summed over the live entries. -/
theorem total_placed (h : t.Inv cs ds) (w : ℕ → ℕ) :
    total t.indexCapacity (fun _ x => x.elim 0 w) (placed t cs)
      = (cs.map fun c => w (homeSlot t.indexCapacity c.key)).sum := by
  have hloop : ∀ n i, (∑ s ∈ Finset.range n, (placed t cs (i + s)).elim 0 w)
      = ((liveFrom t.indexList cs n i).map fun c => w (homeSlot t.indexCapacity c.key)).sum := by
    intro n
    induction n with
    | zero => exact fun _ => rfl
    | succ n ih =>
      intro i
      have hrest := ih (i + 1)
      rw [Finset.sum_range_succ', liveFrom, List.map_append, List.sum_append, ← hrest,
        Nat.add_comm]
      congr 1
      · rw [Nat.add_zero, placed]
        cases cs.find? fun c => indexCell t.indexList i = .full c.idx <;> simp
      · exact Finset.sum_congr rfl fun s _ => by rw [Nat.add_right_comm, Nat.add_assoc]
  have hall := hloop t.indexCapacity 0
  simp only [Nat.zero_add] at hall
  exact hall.trans ((liveFrom_perm h).map _).sum_eq

/-- The demand on a home slot is the number of keys with it. -/
theorem demand_placed (h : t.Inv cs ds) (g : ℕ) :
    demand t.indexCapacity (placed t cs) g = t.keysAt g := by
  have hweight : (fun (_ : ℕ) (x : Option ℕ) => if x = some g then 1 else 0)
      = fun _ x => x.elim 0 fun g' => if g' = g then 1 else 0 := by
    funext _ x
    cases x <;> simp
  rw [demand, hweight, h.total_placed, Htable.keysAt, h.htableContents_eq]
  show _ = (cs.map LiveEntry.pair).countP _
  rw [List.countP_map]
  clear h hweight
  induction cs with
  | nil => rfl
  | cons c cs ih =>
    rw [List.map_cons, List.sum_cons, ih, List.countP_cons, Nat.add_comm]
    by_cases hg : homeSlot t.indexCapacity c.key = g <;> simp [LiveEntry.pair, hg]

theorem load_placed (h : t.Inv cs ds) : load t.indexCapacity (placed t cs) = t.count := by
  have hweight : (fun (_ : ℕ) (x : Option ℕ) => if x.isSome then 1 else 0)
      = fun _ x => x.elim 0 fun _ => 1 := by
    funext _ x
    cases x <;> rfl
  rw [load, hweight, h.total_placed, h.count_eq]
  simp

/-- The way from a key's home slot to its own leads over slots in use; without tombstones
they all hold keys. -/
theorem linked_placed (h : t.Inv cs ds)
    (hfull : ∀ s < t.indexCapacity, isUsed (t.indexList.read s) = true → (placed t cs s).isSome) :
    Linked t.indexCapacity (placed t cs) := by
  intro s hs g hp k hk
  obtain ⟨c, hc, hi, rfl⟩ := exists_of_placed hp
  obtain ⟨j, hj, hfullj, hchain⟩ := h.onPath c hc
  obtain rfl := h.slot_inj s hs _ (slotAt_lt h.cap_pos _ j) _ hi hfullj
  rw [steps_slotAt (h.home_lt c.key) hj] at hk
  rcases Nat.lt_or_eq_of_le hk with hlt | rfl
  · refine hfull _ (slotAt_lt h.cap_pos _ k) ?_
    rw [isUsed, decide_eq_true_eq]
    intro hempty
    exact hchain k hlt (by rw [indexCell, hempty]; rfl)
  · exact h.placed_isSome_iff.mpr ⟨_, hfullj⟩

/-- If no more slots are in use than there are keys, each of them holds one. -/
theorem isSome_placed_of_used (h : t.Inv cs ds) (hused : t.usedSlots ≤ t.count) :
    ∀ s < t.indexCapacity, isUsed (t.indexList.read s) = true → (placed t cs s).isSome := by
  have hle : ∀ s ∈ Finset.range t.indexCapacity, (if (placed t cs s).isSome then 1 else 0)
      ≤ if isUsed (t.indexList.read s) then 1 else 0 := fun s _ => by
    split
    · rename_i hsome
      obtain ⟨i, hi⟩ := h.placed_isSome_iff.mp hsome
      obtain ⟨hread, -⟩ := indexCell_eq_full_iff.mp hi
      rw [if_pos (by rw [hread]; simp [isUsed, htEmpty])]
    · exact Nat.zero_le _
  rw [Htable.usedSlots, Block.countCells_eq_sum, h.indexList_size, ← h.load_placed] at hused
  have heq := (Finset.sum_eq_sum_iff_of_le hle).mp (Nat.le_antisymm (Finset.sum_le_sum hle) hused)
  intro s hs hu
  have hs' := heq s (Finset.mem_range.mpr hs)
  rw [if_pos hu] at hs'
  by_contra hnone
  rw [if_neg hnone] at hs'
  exact absurd hs' Nat.zero_ne_one

end Htable.Inv

/-! ### What a call does to the placed keys -/

/-- A call leaves the placed keys alone, puts its key at the first slot from its home slot
that holds none, takes one away, or grows the table, which leaves no tombstone. -/
inductive Htable.Moves [BEq K] [Hashable K] (t : Htable K D) (cs : List (LiveEntry K D)) :
    HtOp K D → Htable K D → List (LiveEntry K D) → Prop
  | same {op t' cs'} (hcap : t'.indexCapacity = t.indexCapacity)
      (hlist : t'.indexList = t.indexList) (hplaced : placed t' cs' = placed t cs) :
      Moves t cs op t' cs'
  | put {key data al flag t' cs' j v} (hgrow : t.mustGrow = false)
      (hk : ∀ c ∈ cs, (c.key == key) = false) (hcap : t'.indexCapacity = t.indexCapacity)
      (hj : j < t.indexCapacity)
      (hfull : ∀ k < j,
        (placed t cs (slotAt t.indexCapacity (homeSlot t.indexCapacity key) k)).isSome)
      (hfree : placed t cs (slotAt t.indexCapacity (homeSlot t.indexCapacity key) j) = none)
      (hlist : t'.indexList
        = t.indexList.put (slotAt t.indexCapacity (homeSlot t.indexCapacity key) j) v)
      (hplaced : placed t' cs' = Function.update (placed t cs)
        (slotAt t.indexCapacity (homeSlot t.indexCapacity key) j)
        (some (homeSlot t.indexCapacity key))) : Moves t cs (.set key data al flag) t' cs'
  | remove {key reallocDeleted t' cs' s} (hcap : t'.indexCapacity = t.indexCapacity)
      (hs : s < t.indexCapacity) (hlist : t'.indexList = t.indexList.put s htDeleted)
      (hused : isUsed (t.indexList.read s) = true)
      (hplaced : placed t' cs' = Function.update (placed t cs) s none) :
      Moves t cs (.delete key reallocDeleted) t' cs'
  | grow {key data al flag t' cs'} (hcap : t'.indexCapacity ≠ t.indexCapacity)
      (hused : t'.usedSlots ≤ t'.count) : Moves t cs (.set key data al flag) t' cs'

namespace Htable.Inv

variable [BEq K] [Hashable K] {t t' : Htable K D} {cs : List (LiveEntry K D)} {ds : List ℕ}

/-- The full slots are no more than the keys. -/
theorem fullSlots_le (h : t.Inv cs ds) : t.fullSlots ≤ t.count := by
  rw [Htable.fullSlots, Block.countCells_eq_sum, h.indexList_size, ← h.load_placed, load, total]
  refine Finset.sum_le_sum fun s hs => ?_
  split
  · rename_i hf
    rcases h.read_index (Finset.mem_range.mp hs) with ⟨hv, -⟩ | ⟨hv, -⟩ | ⟨c, -, -, -, -, hi⟩
    · rw [hv] at hf
      cases hf
    · rw [hv] at hf
      cases hf
    · rw [if_pos (h.placed_isSome_iff.mpr ⟨_, hi⟩)]
  · exact Nat.zero_le _

/-- Behind a growth there are no tombstones. -/
theorem grown (h : t.Inv cs ds) {t₁ : Htable K D} (hg : t.Grows t₁)
    (hi : t₁.SameCounters t' ∨ ∃ s, t₁.Inserts s t') :
    t'.indexCapacity ≠ t.indexCapacity ∧ t'.usedSlots ≤ t'.count := by
  have hcap := hg.cap
  have hle := h.cap_le
  have htwo := h.two_le_cap
  have hused := hg.used
  have hfull := h.fullSlots_le
  have hcount := hg.count
  rw [Nat.shiftLeft_eq, Nat.pow_one, u64_of_lt (by omega)] at hcap
  rcases hi with hs | ⟨s, hi⟩
  · rw [hs.cap.1, hs.count, Htable.usedSlots, hs.list]
    exact ⟨by omega, by rw [Htable.usedSlots] at hused; omega⟩
  · have hcount' := hi.count
    have hmax := h.count_le
    have hnext := h.nextInsert_lt
    rw [uint32Max] at hnext
    rw [u64_of_lt (by omega)] at hcount'
    obtain ⟨-, hused', -⟩ := hi.counts
    rw [hi.cap.1]
    exact ⟨by omega, by omega⟩

variable [EquivBEq K] [LawfulHashable K]

/-- A set that does not grow the table. -/
theorem insert_moves (h : t.Inv cs ds) (hg : t.mustGrow = false) {key : K} {data : Option D}
    {al : SetAlloc K key} {flag : Bool} (hmax : (∀ c ∈ cs, (c.key == key) = false) →
      t.count + 1 < uint32Max) {r : SetResult K D}
    (hset : htableInsert t key data al flag = some r) :
    ∃ cs' ds', r.table.Inv cs' ds' ∧ t.Moves cs (.set key data al flag) r.table cs' := by
  obtain ⟨hlt, hlen⟩ := h.room_of_not_mustGrow hg
  obtain ⟨-, heffect⟩ := htableInsert_effect hset
  rcases exists_mem_or_forall_ne cs key with ⟨c, hc, hk⟩ | hk
  · -- The probe ends at the key.
    obtain ⟨t', hset', hcap, h'⟩ := htableInsert_of_mem h hlt hc hk data al flag
    obtain rfl := Option.some.inj (hset.symm.trans hset')
    have hlist : t'.indexList = t.indexList := by
      rcases heffect with hs | ⟨s, hprobe, -⟩
      · exact hs.list
      · rw [Htable.setProbe, h.setProbe_of_mem hc hk] at hprobe
        cases Option.some.inj hprobe
    refine ⟨_, _, h', .same hcap hlist (funext fun s => h.placed_congr h' hcap ?_ (by rw [hlist]))⟩
    intro c₀ hc₀ c' hc' hidx
    obtain ⟨c₁, hc₁, rfl⟩ := List.mem_map.mp hc'
    rw [h.eq_of_idx hc₀ hc₁ (by rw [← hidx]; split <;> rfl)]
    split <;> rfl
  · cases hdup : al.dupKey with
    | none =>
      have hset' := htableInsert_of_dup_none h hlt hk hlen data hdup flag
      obtain rfl := Option.some.inj (hset.symm.trans hset')
      exact ⟨cs, ds, h, .same rfl rfl rfl⟩
    | some dupKey =>
      obtain ⟨t', idx, ds', hset', hcap, -, hidx, h'⟩ :=
        htableInsert_of_forall_ne h hlt (hmax hk) hk hlen data hdup flag
      obtain rfl := Option.some.inj (hset.symm.trans hset')
      obtain ⟨j, hj, hprobe, hnf, hchain⟩ := h.setProbe_of_forall_ne hk hlen
      obtain ⟨v, hlist⟩ : ∃ v, t'.indexList
          = t.indexList.put (slotAt t.indexCapacity (homeSlot t.indexCapacity key) j) v := by
        rcases heffect with hs | ⟨s, hprobe', hi⟩
        · -- There is one key more.
          have hcount := hs.count
          rw [h'.count_eq, h.count_eq, List.length_append, List.length_singleton] at hcount
          omega
        · rw [Htable.setProbe, hprobe] at hprobe'
          obtain rfl := SetProbe.absent.inj (Option.some.inj hprobe')
          exact hi.list
      have hother : ∀ s, slotAt t.indexCapacity (homeSlot t.indexCapacity key) j ≠ s →
          indexCell t'.indexList s = indexCell t.indexList s := fun s hs => by
        rw [hlist, indexCell_put_of_ne hs]
      refine ⟨_, _, h', .put hg hk hcap hj (fun k hkj => h.placed_isSome_iff.mpr (hchain k hkj))
        (placed_of_not_full hnf) hlist (funext fun s => ?_)⟩
      by_cases hs : s = slotAt t.indexCapacity (homeSlot t.indexCapacity key) j
      · -- The new entry is named by some slot, and by none of the others.
        obtain ⟨i, hi, hnew, -⟩ := h'.onPath ⟨idx, dupKey.1, data⟩ (by simp)
        have hslot : slotAt t'.indexCapacity (homeSlot t'.indexCapacity dupKey.1) i = s := by
          by_contra hne
          rw [hother _ fun he => hne (he.symm.trans hs.symm)] at hnew
          exact hidx (h.slots _ (by rw [← hcap]; exact slotAt_lt h'.cap_pos _ i) _ hnew)
        rw [hslot] at hnew
        rw [hs, Function.update_self, ← hs,
          h'.placed_of_full (c := ⟨idx, dupKey.1, data⟩) (by simp) hnew, hcap, homeSlot, homeSlot,
          hash_eq dupKey.2]
      · rw [Function.update_of_ne hs]
        refine h.placed_congr h' hcap (fun c hc c' hc' he => ?_) (hother s (Ne.symm hs))
        rcases List.mem_append.mp hc' with hc' | hc'
        · rw [h.eq_of_idx hc hc' he.symm]
        · obtain rfl := List.mem_singleton.mp hc'
          obtain rfl : idx = c.idx := he
          exact absurd (List.mem_map_of_mem hc) hidx

/-- A deletion. -/
theorem delete_moves (h : t.Inv cs ds) {key : K} {reallocDeleted : Bool} {r : DeleteResult K D}
    (hdel : htableDeleteWithFlag t key reallocDeleted = some r) :
    ∃ cs' ds', r.table.Inv cs' ds' ∧ t.Moves cs (.delete key reallocDeleted) r.table cs' := by
  rcases exists_mem_or_forall_ne cs key with ⟨c, hc, hk⟩ | hk
  · obtain ⟨cs₁, cs₂, rfl⟩ := List.append_of_mem hc
    rcases htableDelete_of_mem h hk reallocDeleted with ⟨hdel', -⟩ | ⟨-, t', hdel', ⟨hcap, -⟩, h'⟩
    · obtain rfl := Option.some.inj (hdel.symm.trans hdel')
      exact ⟨_, ds, h, .same rfl rfl rfl⟩
    · obtain rfl := Option.some.inj (hdel.symm.trans hdel')
      have hcount := h'.count_eq
      rw [List.length_append] at hcount
      have hcount₀ := h.count_eq
      rw [List.length_append, List.length_cons] at hcount₀
      rcases htableDelete_effect hdel with hs | ⟨s, hd⟩
      · -- There is one key less.
        have hsame := hs.count
        dsimp only at hsame
        omega
      · have hlt : s < t.indexCapacity := h.indexList_size ▸ hd.lt
        have hused : isUsed (t.indexList.read s) = true := by
          have hfull := hd.full
          rw [isFull, Bool.and_eq_true] at hfull
          exact hfull.1
        refine ⟨_, _, h', .remove hcap hlt hd.list hused (funext fun i => ?_)⟩
        by_cases hi : i = s
        · rw [hi, Function.update_self]
          refine placed_of_not_full fun i hf => ?_
          rw [hd.list, indexCell_put_deleted hd.lt] at hf
          cases hf
        · rw [Function.update_of_ne hi]
          refine h.placed_congr h' hcap (fun c₀ hc₀ c' hc' he => ?_) ?_
          · rw [h.eq_of_idx hc₀ (List.mem_append.mpr ((List.mem_append.mp hc').imp_right
              (List.mem_cons_of_mem c))) he.symm]
          · rw [hd.list, indexCell_put_of_ne (Ne.symm hi)]
  · obtain rfl := Option.some.inj (hdel.symm.trans (htableDelete_of_forall_ne h hk reallocDeleted))
    exact ⟨cs, ds, h, .same rfl rfl rfl⟩

/-- Every call that fits moves the placed keys in one of these ways. -/
theorem moves (h : t.Inv cs ds) {op : HtOp K D} (hfits : op.Fits t) {out : HtOut D}
    (hstep : htStep t op = some (out, t')) :
    ∃ cs' ds', t'.Inv cs' ds' ∧ t.Moves cs op t' cs' := by
  have hkept : t' = t → ∃ cs' ds', t'.Inv cs' ds' ∧ t.Moves cs op t' cs' := by
    rintro rfl
    exact ⟨cs, ds, h, .same rfl rfl rfl⟩
  cases op with
  | set key data al flag =>
    obtain ⟨out', t'', cs', ds', -, hstep', h', -⟩ := htStep_eq h hfits
    obtain ⟨-, rfl⟩ := Prod.mk.inj (Option.some.inj (hstep.symm.trans hstep'))
    obtain ⟨r, hset, hr⟩ := Option.bind_eq_some_iff.mp hstep
    obtain ⟨-, rfl⟩ := Prod.mk.inj (Option.some.inj hr)
    rcases htableSetWithFlag_eq_some hset with ⟨-, -, rfl⟩ | ⟨-, t₁, hgrow, hset⟩ | ⟨hg, hset⟩
    · exact hkept rfl
    · obtain ⟨-, hcase⟩ := htableInsert_effect hset
      obtain ⟨hcap, hused⟩ := h.grown (htableGrow_effect h.indexList_size hgrow)
        (hcase.imp_right fun ⟨s, _, hi⟩ => ⟨s, hi⟩)
      exact ⟨cs', ds', h', .grow hcap hused⟩
    · exact h.insert_moves hg (h.count_lt_of_fits hfits) hset
  | get key =>
    obtain ⟨r, -, hr⟩ := Option.bind_eq_some_iff.mp hstep
    exact hkept (Prod.mk.inj (Option.some.inj hr)).2.symm
  | has key =>
    obtain ⟨r, -, hr⟩ := Option.bind_eq_some_iff.mp hstep
    exact hkept (Prod.mk.inj (Option.some.inj hr)).2.symm
  | delete key reallocDeleted =>
    obtain ⟨r, hdel, hr⟩ := Option.bind_eq_some_iff.mp hstep
    obtain ⟨-, rfl⟩ := Prod.mk.inj (Option.some.inj hr)
    exact h.delete_moves hdel
  | count => exact hkept (Prod.mk.inj (Option.some.inj hstep)).2.symm

end Htable.Inv

/-! ### Slots set aside for the peaks -/

/-- Slot `s` of the index is not `EMPTY`. -/
def Htable.Used (t : Htable K D) (s : ℕ) : Prop := isUsed (t.indexList.read s) = true

instance (t : Htable K D) : DecidablePred t.Used := fun _ => inferInstanceAs (Decidable (_ = true))

section Reserved

variable [BEq K] [Hashable K] {t t' : Htable K D} {cs cs' : List (LiveEntry K D)} {ds ds' : List ℕ}
  {op : HtOp K D} {peak : ℕ → ℕ} {q : Placement}

/-- The table with the new key, as far as its home slot goes. -/
theorem Htable.Inv.keysAtWith_eq (h : t.Inv cs ds) {key : K}
    (hk : ∀ c ∈ cs, (c.key == key) = false) (data : Option D) (g : ℕ) :
    t.keysAtWith key data g
      = t.keysAt g + if g = homeSlot t.indexCapacity key then 1 else 0 := by
  rw [Htable.keysAtWith, Htable.keysAt, h.htableContents_eq]
  show homedAt _ _ _ = homedAt _ _ _ + _
  rw [homedAt, homedAt, Assoc.set_of_absent (get_of_forall_ne hk), List.countP_append,
    List.countP_singleton]
  by_cases hg : g = homeSlot t.indexCapacity key
  · simp [hg]
  · simp [hg, Ne.symm hg]

theorem Htable.Inv.peakAfter_eq (h' : t'.Inv cs' ds') (hcap : t'.indexCapacity = t.indexCapacity)
    (g : ℕ) : t.peakAfter t' peak g
      = max (peak g) (demand t.indexCapacity (placed t' cs') g) := by
  rw [Htable.peakAfter, if_pos hcap, ← hcap, h'.demand_placed]

/-- Behind a growth the slots that the keys have are set aside. -/
theorem Htable.Inv.reserved_of_used_le (h : t.Inv cs ds) (hused : t.usedSlots ≤ t.count) :
    Reserved t.indexCapacity (placed t cs) (placed t cs) t.Used t.keysAt :=
  .self h.homesLt_placed (h.linked_placed (h.isSome_placed_of_used hused))
    (h.isSome_placed_of_used hused) fun g _ => h.demand_placed g

/-- A call that does not grow the table finds the slots it needs among those set aside, if
those for the key that it sets are no more than `n`, fewer than there are. -/
theorem Htable.Moves.reserved (hm : t.Moves cs op t' cs') (h : t.Inv cs ds) (h' : t'.Inv cs' ds')
    (hcap : t'.indexCapacity = t.indexCapacity) {n : ℕ} (hn : n < t.indexCapacity)
    (hload : ∀ key data al flag, op = .set key data al flag → t.mustGrow = false →
      ∑ g ∈ Finset.range t.indexCapacity, max (peak g) (t.keysAtWith key data g) ≤ n)
    (hsum : ∑ g ∈ Finset.range t.indexCapacity, peak g ≤ n)
    (hr : Reserved t.indexCapacity (placed t cs) q t.Used peak) :
    (∃ q', Reserved t.indexCapacity (placed t' cs') q' t'.Used (t.peakAfter t' peak)) ∧
      ∑ g ∈ Finset.range t.indexCapacity, t.peakAfter t' peak g ≤ n := by
  have hle : ∀ g < t.indexCapacity, demand t.indexCapacity (placed t cs) g ≤ peak g :=
    fun g hg => (hr.within.demand_le g hg).trans_eq (hr.demand_eq g hg)
  have hpeak (g : ℕ) : t.peakAfter t' peak g
      = max (peak g) (demand t.indexCapacity (placed t' cs') g) := h'.peakAfter_eq hcap g
  -- Without a new key the peaks stay what they are.
  have hkeep : (∀ g < t.indexCapacity, demand t.indexCapacity (placed t' cs') g ≤ peak g) →
      (∀ g < t.indexCapacity, t.peakAfter t' peak g = peak g) ∧
        ∑ g ∈ Finset.range t.indexCapacity, t.peakAfter t' peak g ≤ n := fun hle' => by
    have heq : ∀ g < t.indexCapacity, t.peakAfter t' peak g = peak g := fun g hg => by
      rw [hpeak, Nat.max_eq_left (hle' g hg)]
    exact ⟨heq, (Finset.sum_congr rfl fun g hg => heq g (Finset.mem_range.mp hg)).trans_le hsum⟩
  cases hm with
  | same _ hlist hplaced =>
    obtain ⟨heq, hsum'⟩ := hkeep (hplaced ▸ hle)
    refine ⟨⟨q, hplaced ▸ hr.congr (fun s _ hu => ?_) heq⟩, hsum'⟩
    rwa [Htable.Used, hlist] at hu
  | @put key data al flag t' cs' j v hgrow hk _ hj hfull hfree hlist hplaced =>
    have hdemand : ∀ g, demand t.indexCapacity (placed t' cs') g
        = demand t.indexCapacity (placed t cs) g
          + if g = homeSlot t.indexCapacity key then 1 else 0 := fun g => by
      rw [hplaced, demand_put (slotAt_lt h.cap_pos _ j) hfree]
    have hsum' : ∑ g ∈ Finset.range t.indexCapacity, t.peakAfter t' peak g ≤ n := by
      refine (Finset.sum_le_sum fun g _ => ?_).trans (hload _ _ _ _ rfl hgrow)
      rw [hpeak, hdemand, h.keysAtWith_eq hk, h.demand_placed]
    refine ⟨?_, hsum'⟩
    rw [hplaced]
    refine hr.put (h.home_lt key) hj hfull hfree (fun g _ => ?_) (fun s _ hu => ?_)
      (Nat.lt_of_le_of_lt hsum' hn)
    · rw [hpeak, hdemand]
    · by_cases he : s = slotAt t.indexCapacity (homeSlot t.indexCapacity key) j
      · exact .inl he
      · rw [Htable.Used, hlist, Block.read_put_of_ne _ (Ne.symm he)] at hu
        exact .inr hu
  | @remove key reallocDeleted t' cs' s _ hs hlist hused hplaced =>
    obtain ⟨heq, hsum'⟩ := hkeep fun g hg => by
      rw [hplaced]
      exact (demand_remove_le hs g).trans (hle g hg)
    refine ⟨⟨q, hplaced ▸ (hr.remove hs).congr (fun i _ hu => ?_) heq⟩, hsum'⟩
    by_cases he : i = s
    · rw [he]
      exact hused
    · rwa [Htable.Used, hlist, Block.read_put_of_ne _ (Ne.symm he)] at hu
  | grow hne => exact absurd hcap hne

end Reserved

end Freehttpd
