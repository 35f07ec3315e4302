/-
Deleting from the hash table.

* `unlinkEntry_eq` — the entry leaves the linked list in both directions, and
  its own links stay as they were;
* `growDeleted_eq` — there is room for one more recycled slot, unless the
  `realloc` failed;
* `Htable.Inv.remove` — the invariant after an entry was removed;
* `htableDelete_of_mem`, `htableDelete_of_forall_ne` — what
  `htable_delete_with_flag` does.
-/
import Freehttpd.HtableSearch

namespace Freehttpd

open OpenAddressing

variable {K D : Type}

/-! ### Links -/

/-- The first conditional write of the unlinking: the following entry, if any,
points back to `p`. -/
theorem setPrevIdx_eq {es : Block (HtEntry K D)} {n p : ℕ}
    (h : n ≠ uint32Max → ∃ e, es.read n = some e) :
    ∃ es', setPrevIdx es n p = some es' ∧
      es'.size = es.size ∧ (∀ i ≠ n, es'.read i = es.read i) ∧
      (∀ i, entryNext es' i = entryNext es i) ∧ (n ≠ uint32Max → entryPrev es' n = some p) ∧
      ∀ i e, es.read i = some e →
        ∃ q m, es'.read i = some { e with prevIdx := q, nextIdx := m } := by
  by_cases hn : n = uint32Max
  · exact ⟨es, if_neg (not_not.mpr hn), rfl, fun _ _ => rfl, fun _ => rfl, fun hn' => absurd hn hn',
      fun i e he => ⟨e.prevIdx, e.nextIdx, he⟩⟩
  · obtain ⟨en, hen⟩ := h hn
    have hread : ∀ i, (es.put n { en with prevIdx := p }).read i
        = if n = i then some { en with prevIdx := p } else es.read i :=
      Block.read_put _ (Block.lt_of_read hen)
    refine ⟨es.put n { en with prevIdx := p }, ?_, Block.size_put _ _ _, fun i hi => ?_,
      fun i => ?_,
      fun _ => ?_, fun i e he => ?_⟩
    · rw [setPrevIdx, if_pos hn, Block.modify_of_read _ hen]
    · rw [hread, if_neg (Ne.symm hi)]
    · rw [entryNext, entryNext, hread]
      split
      · rename_i hi
        rw [← hi, hen]
        rfl
      · rfl
    · rw [entryPrev, hread, if_pos rfl]
      rfl
    · rw [hread]
      split
      · rename_i hi
        rw [← hi, hen, Option.some_inj] at he
        exact ⟨p, e.nextIdx, by rw [he]⟩
      · exact ⟨e.prevIdx, e.nextIdx, he⟩

/-- The second conditional write: the preceding entry, if any, points to `n`. -/
theorem setNextIdx_eq {es : Block (HtEntry K D)} {n p : ℕ}
    (h : p ≠ uint32Max → ∃ e, es.read p = some e) :
    ∃ es', setNextIdx es p n = some es' ∧
      es'.size = es.size ∧ (∀ i ≠ p, es'.read i = es.read i) ∧
      (∀ i, entryPrev es' i = entryPrev es i) ∧ (p ≠ uint32Max → entryNext es' p = some n) ∧
      ∀ i e, es.read i = some e →
        ∃ q m, es'.read i = some { e with prevIdx := q, nextIdx := m } := by
  by_cases hp : p = uint32Max
  · exact ⟨es, if_neg (not_not.mpr hp), rfl, fun _ _ => rfl, fun _ => rfl, fun hp' => absurd hp hp',
      fun i e he => ⟨e.prevIdx, e.nextIdx, he⟩⟩
  · obtain ⟨ep, hep⟩ := h hp
    have hread : ∀ i, (es.put p { ep with nextIdx := n }).read i
        = if p = i then some { ep with nextIdx := n } else es.read i :=
      Block.read_put _ (Block.lt_of_read hep)
    refine ⟨es.put p { ep with nextIdx := n }, ?_, Block.size_put _ _ _, fun i hi => ?_,
      fun i => ?_,
      fun _ => ?_, fun i e he => ?_⟩
    · rw [setNextIdx, if_pos hp, Block.modify_of_read _ hep]
    · rw [hread, if_neg (Ne.symm hi)]
    · rw [entryPrev, entryPrev, hread]
      split
      · rename_i hi
        rw [← hi, hep]
        rfl
      · rfl
    · rw [entryNext, hread, if_pos rfl]
      rfl
    · rw [hread]
      split
      · rename_i hi
        rw [← hi, hep, Option.some_inj] at he
        exact ⟨e.prevIdx, n, by rw [he]⟩
      · exact ⟨e.prevIdx, e.nextIdx, he⟩

/-- Taking entry `idx` out of the linked list. -/
theorem unlinkEntry_eq {t : Htable K D} {idx : ℕ} {l₁ l₂ : List ℕ}
    (hl : DList (entryNext t.entries) (entryPrev t.entries) uint32Max t.headIdx t.tailIdx
      (l₁ ++ idx :: l₂)) :
    ∃ es headIdx tailIdx, unlinkEntry t idx
        = some { t with entries := es, headIdx := headIdx, tailIdx := tailIdx } ∧
      es.size = t.entries.size ∧ es.read idx = t.entries.read idx ∧
      (∀ i e, t.entries.read i = some e →
        ∃ p n, es.read i = some { e with prevIdx := p, nextIdx := n }) ∧
      DList (entryNext es) (entryPrev es) uint32Max headIdx tailIdx (l₁ ++ l₂) := by
  have hread : ∀ i ∈ l₁ ++ idx :: l₂, ∃ e, t.entries.read i = some e := fun i hi => by
    obtain ⟨m₁, m₂, hm⟩ := List.append_of_mem hi
    rw [hm] at hl
    have hn := hl.isSome_links.1
    rw [entryNext, Option.map_eq_some_iff] at hn
    exact ⟨_, hn.choose_spec.1⟩
  obtain ⟨e, he⟩ := hread idx (by simp)
  obtain ⟨hnext, hprev⟩ := hl.isSome_links
  rw [entryNext, he, Option.map_some, Option.some_inj] at hnext
  rw [entryPrev, he, Option.map_some, Option.some_inj] at hprev
  -- The neighbours are members of the two halves, hence distinct from `idx` and each other.
  obtain ⟨hnd₁, hnd₂, hdisj⟩ := List.nodup_append.mp hl.nodup
  have hidx₂ := (List.nodup_cons.mp hnd₂).1
  have hnmem : e.nextIdx ≠ uint32Max → e.nextIdx ∈ l₂ := fun hn => by
    rw [hnext] at hn ⊢
    cases l₂ with
    | nil => exact absurd rfl hn
    | cons b l => simp
  have hpmem : e.prevIdx ≠ uint32Max → e.prevIdx ∈ l₁ := fun hp => by
    rw [hprev] at hp ⊢
    by_cases h₁ : l₁ = []
    · rw [h₁] at hp
      exact absurd rfl hp
    · exact List.getLastD_mem_of_ne_nil h₁ _
  obtain ⟨es₁, hm₁, hsz₁, hr₁, hn₁, hp₁, hf₁⟩ := setPrevIdx_eq
    (p := e.prevIdx) (show e.nextIdx ≠ uint32Max → ∃ e', t.entries.read e.nextIdx = some e' from
      fun hn => hread e.nextIdx (by simp [hnmem hn]))
  have hidxn : e.nextIdx ≠ uint32Max → idx ≠ e.nextIdx := fun hn he => hidx₂ (he ▸ hnmem hn)
  have hread₁ : es₁.read idx = some e := by
    by_cases hn : e.nextIdx = uint32Max
    · rw [setPrevIdx, if_neg (not_not.mpr hn), Option.some_inj] at hm₁
      rw [← hm₁, he]
    · rw [hr₁ idx (hidxn hn), he]
  have hread₁' : e.prevIdx ≠ uint32Max → ∃ e', es₁.read e.prevIdx = some e' := fun hp => by
    obtain ⟨e', he'⟩ := hread e.prevIdx (by simp [hpmem hp])
    obtain ⟨q, m, hqm⟩ := hf₁ _ _ he'
    exact ⟨_, hqm⟩
  obtain ⟨es₂, hm₂, hsz₂, hr₂, hp₂, hn₂, hf₂⟩ := setNextIdx_eq (n := e.nextIdx) hread₁'
  have hidxp : e.prevIdx ≠ uint32Max → idx ≠ e.prevIdx := fun hp he =>
    hdisj _ (hpmem hp) idx (by simp) he.symm
  have hread₂ : es₂.read idx = some e := by
    by_cases hp : e.prevIdx = uint32Max
    · rw [setNextIdx, if_neg (not_not.mpr hp), Option.some_inj] at hm₂
      rw [← hm₂, hread₁]
    · rw [hr₂ idx (hidxp hp), hread₁]
  refine ⟨es₂, _, _, ?_, by rw [hsz₂, hsz₁], by rw [hread₂, he], fun i e' he' => ?_,
    hl.unlink hnext hprev (fun i hi hip => ?_) hn₂ (fun i hi hin => ?_) fun hn => ?_⟩
  · rw [unlinkEntry, he]
    simp only [Option.bind_eq_bind, Option.bind_some, hm₁, hread₁, hm₂]
  · obtain ⟨q, m, hqm⟩ := hf₁ _ _ he'
    obtain ⟨q', m', hqm'⟩ := hf₂ _ _ hqm
    exact ⟨q', m', hqm'⟩
  · rw [entryNext, hr₂ i hip]
    exact hn₁ i
  · rw [hp₂, entryPrev, entryPrev, hr₁ i hin]
  · rw [hp₂]
    exact hp₁ hn

/-! ### The deleted list -/

/-- The deleted list has room for one more slot, or can be given it. -/
def Htable.CanDelete (t : Htable K D) (reallocDeleted : Bool) : Prop :=
  reallocDeleted = true ∨ t.deletedCount < t.deletedCapacity

instance (t : Htable K D) (reallocDeleted : Bool) : Decidable (t.CanDelete reallocDeleted) :=
  inferInstanceAs (Decidable (_ ∨ _))

/-- After `growDeleted` the deleted list has room for one more slot; it fails
only if its `realloc` does. -/
theorem growDeleted_eq [BEq K] [Hashable K] {t : Htable K D} {cs : List (LiveEntry K D)}
    {ds : List ℕ} (h : t.Inv cs ds) (reallocDeleted : Bool) :
    (growDeleted reallocDeleted t = none ∧ ¬ t.CanDelete reallocDeleted) ∨
    ∃ deletedIndexList deletedCapacity, growDeleted reallocDeleted t = some
        { t with deletedIndexList := deletedIndexList, deletedCapacity := deletedCapacity } ∧
      deletedIndexList.size = deletedCapacity ∧ deletedIndexList.Holds ds ∧
      ds.length < deletedCapacity ∧ t.CanDelete reallocDeleted := by
  have hdc := h.deletedCount_eq
  have hle : ds.length ≤ t.deletedCapacity := h.deleted_size ▸ h.deleted_holds.length_le
  rw [growDeleted]
  by_cases hfull : t.deletedCount ≥ t.deletedCapacity
  · rw [if_pos hfull]
    cases reallocDeleted with
    | false =>
      refine .inl ⟨rfl, fun hcan => ?_⟩
      rcases hcan with hr | hlt
      · exact Bool.noConfusion hr
      · omega
    | true =>
      have hsmall : t.deletedCapacity < uint32Max := by
        have := h.length_add
        have := h.nextInsert_lt
        omega
      have hroom : ds.length
          < if t.deletedCapacity ≠ 0 then u64 (t.deletedCapacity <<< 1) else 16 := by
        rw [uint32Max] at hsmall
        split
        · rw [Nat.shiftLeft_eq, u64_of_lt (by omega)]
          omega
        · omega
      exact .inr ⟨_, _, rfl, Block.size_realloc _ _,
        h.deleted_holds.realloc (Nat.le_of_lt hroom), hroom, .inl rfl⟩
  · rw [if_neg hfull]
    exact .inr ⟨t.deletedIndexList, t.deletedCapacity, rfl, h.deleted_size, h.deleted_holds,
      by omega, .inr (by omega)⟩

/-! ### Removal -/

section Remove

variable [BEq K] [Hashable K] {t : Htable K D} {ds : List ℕ}

/-- An entry was removed: its index slot is marked and its entry slot goes to
the deleted list. -/
theorem Htable.Inv.remove {cs₁ cs₂ : List (LiveEntry K D)} {c : LiveEntry K D}
    (h : t.Inv (cs₁ ++ c :: cs₂) ds) {t' : Htable K D} {s : ℕ} (hs : s < t.indexCapacity)
    (hfull : indexCell t.indexList s = .full c.idx)
    (hcap : t'.indexCapacity = t.indexCapacity) (hecap : t'.entryCapacity = t.entryCapacity)
    (hil : t'.indexList = t.indexList.put s htDeleted)
    (hsize : t'.entries.size = t.entries.size)
    (hframe : ∀ i e, t.entries.read i = some e →
      ∃ p n, t'.entries.read i = some { e with prevIdx := p, nextIdx := n })
    (hlinks : DList (entryNext t'.entries) (entryPrev t'.entries) uint32Max t'.headIdx
      t'.tailIdx (cs₁.map LiveEntry.idx ++ cs₂.map LiveEntry.idx))
    (hnext : t'.entryNextInsert = t.entryNextInsert) (hcount : t'.count = t.count - 1)
    (hdc : t'.deletedCount = ds.length + 1)
    (hds : t'.deletedIndexList.size = t'.deletedCapacity)
    (hdh : t'.deletedIndexList.Holds (ds ++ [c.idx])) :
    t'.Inv (cs₁ ++ cs₂) (ds ++ [c.idx]) := by
  have hslt : s < t.indexList.size := by rwa [h.indexList_size]
  have hself : indexCell t'.indexList s = .deleted := by
    rw [hil]
    exact indexCell_put_deleted hslt
  have hother : ∀ s', s' ≠ s → indexCell t'.indexList s' = indexCell t.indexList s' :=
    fun s' hs' => by rw [hil, indexCell_put_of_ne (Ne.symm hs')]
  have hsub : ∀ c' ∈ cs₁ ++ cs₂, c' ∈ cs₁ ++ c :: cs₂ := fun c' hc' => by
    rcases List.mem_append.mp hc' with hc' | hc' <;> simp [hc']
  have hne : ∀ c' ∈ cs₁ ++ cs₂, c'.idx ≠ c.idx := fun c' hc' he => by
    have hnd := h.links.nodup
    rw [List.map_append, List.map_cons] at hnd
    have hnd' := (List.nodup_middle.mp hnd)
    exact (List.nodup_cons.mp hnd').1 (by
      rw [← List.map_append, ← he]
      exact List.mem_map_of_mem hc')
  refine
    { cap_pow := by rw [hcap]; exact h.cap_pow
      entryCapacity_eq := by rw [hecap, hcap]; exact h.entryCapacity_eq
      indexList_size := by rw [hil, Block.size_put, hcap]; exact h.indexList_size
      indexList_init := fun s' hs' => ?_
      entries_size := by rw [hsize, hecap]; exact h.entries_size
      nextInsert_le := by rw [hnext, hecap]; exact h.nextInsert_le
      nextInsert_lt := by rw [hnext]; exact h.nextInsert_lt
      slots := fun s' hs' i hi => ?_
      slot_inj := fun s' hs' s'' hs'' i hi hi' => ?_
      entry := fun c' hc' => ?_
      onPath := fun c' hc' => ?_
      distinct := ?_
      links := by simpa using hlinks
      partition := ?_
      count_eq := ?_
      deletedCount_eq := by simp [hdc]
      deleted_size := hds
      deleted_holds := hdh }
  · rw [hil, Block.read_put _ hslt]
    split
    · rfl
    · exact h.indexList_init s' (hcap ▸ hs')
  · -- Another slot holds what it held, and not the removed entry, which was in `s` alone.
    by_cases he : s' = s
    · rw [he, hself] at hi
      exact absurd hi (by simp)
    · rw [hother s' he] at hi
      have hi' := h.slots s' (hcap ▸ hs') i hi
      have hic : i ≠ c.idx := fun hic => he (h.slot_inj s' (hcap ▸ hs') s hs i hi (hic ▸ hfull))
      simp only [List.map_append, List.map_cons, List.mem_append, List.mem_cons, hic,
        false_or] at hi' ⊢
      exact hi'
  · -- Neither slot is the marked one.
    rw [hcap] at hs' hs''
    have he : s' ≠ s := fun he => by
      rw [he, hself] at hi
      exact absurd hi (by simp)
    have he' : s'' ≠ s := fun he => by
      rw [he, hself] at hi'
      exact absurd hi' (by simp)
    rw [hother _ he] at hi
    rw [hother _ he'] at hi'
    exact h.slot_inj s' hs' s'' hs'' i hi hi'
  · obtain ⟨p, n, he⟩ := h.entry c' (hsub c' hc')
    obtain ⟨p', n', he'⟩ := hframe _ _ he
    exact ⟨p', n', he'⟩
  · -- A mark does not end the path of another key.
    rw [hcap]
    refine (h.onPath c' (hsub c' hc')).congr_set (fun s' _ hs' => hother s' hs')
      (by simp [hself]) ?_
    rw [hfull]
    exact fun he => hne c' hc' (Cell.full.inj he).symm
  · refine List.Pairwise.sublist ?_ h.distinct
    exact ((List.sublist_cons_self c cs₂).append_left cs₁).map _
  · -- The entry slot moves from the live ones to the deleted ones.
    rw [hnext]
    refine List.Perm.trans ?_ h.partition
    simp only [List.map_append, List.map_cons, List.append_assoc, List.cons_append]
    refine List.Perm.append_left _ ?_
    rw [← List.append_assoc]
    exact List.perm_append_singleton _ _
  · rw [hcount, h.count_eq]
    simp only [List.length_append, List.length_cons]
    omega

/-- Removing the entry of `key` from the live entries deletes `key` from the
contents. -/
theorem Htable.Inv.map_pair_remove [EquivBEq K] {cs₁ cs₂ : List (LiveEntry K D)}
    {c : LiveEntry K D} (h : t.Inv (cs₁ ++ c :: cs₂) ds) {key : K}
    (hk : (c.key == key) = true) :
    (cs₁ ++ cs₂).map LiveEntry.pair = Assoc.del ((cs₁ ++ c :: cs₂).map LiveEntry.pair) key := by
  have hd := h.distinct
  rw [Assoc.Distinct, List.map_append, List.map_cons] at hd
  obtain ⟨-, hd₂, hd₁⟩ := List.pairwise_append.mp hd
  have hne : ∀ p : K × Option D, (p.1 == c.key) = false → (!(p.1 == key)) = true := fun p hp => by
    rw [← BEq.congr_right hk, hp]
    rfl
  rw [Assoc.del, List.map_append, List.map_append, List.map_cons, List.filter_append,
    List.filter_cons_of_neg (by simpa [LiveEntry.pair] using hk), List.filter_eq_self.mpr,
    List.filter_eq_self.mpr]
  · exact fun p hp => hne p (by
      rw [BEq.comm]
      exact (List.pairwise_cons.mp hd₂).1 p hp)
  · exact fun p hp => hne p (hd₁ p hp c.pair (by simp))

variable [EquivBEq K] [LawfulHashable K] {cs : List (LiveEntry K D)}

omit [EquivBEq K] [LawfulHashable K] in
/-- Deleting an absent key changes nothing. -/
theorem htableDelete_of_forall_ne (h : t.Inv cs ds) {key : K}
    (hk : ∀ c ∈ cs, (c.key == key) = false) (reallocDeleted : Bool) :
    htableDeleteWithFlag t key reallocDeleted = some ⟨none, false, none, t⟩ := by
  rw [htableDeleteWithFlag, h.find_of_forall_ne hk]
  rfl

/-- Deleting a present key removes its entry, unless the deleted list could not
grow.  The entry itself stays as it was, its links included. -/
theorem htableDelete_of_mem {cs₁ cs₂ : List (LiveEntry K D)} {c : LiveEntry K D}
    (h : t.Inv (cs₁ ++ c :: cs₂) ds) {key : K} (hk : (c.key == key) = true)
    (reallocDeleted : Bool) :
    (htableDeleteWithFlag t key reallocDeleted = some ⟨none, false, none, t⟩ ∧
      ¬ t.CanDelete reallocDeleted) ∨
    t.CanDelete reallocDeleted ∧ ∃ t',
      htableDeleteWithFlag t key reallocDeleted = some ⟨c.data, true, some c.key, t'⟩ ∧
      (t'.indexCapacity = t.indexCapacity ∧ t'.entries.read c.idx = t.entries.read c.idx) ∧
      t'.Inv (cs₁ ++ cs₂) (ds ++ [c.idx]) := by
  have hc : c ∈ cs₁ ++ c :: cs₂ := by simp
  obtain ⟨s, hs, hfull, hfind⟩ := h.find_of_mem hc hk
  obtain ⟨p, n, he⟩ := h.entry c hc
  rw [htableDeleteWithFlag, hfind]
  simp only [Option.bind_eq_bind, Option.bind_some, he]
  rcases growDeleted_eq h reallocDeleted with
    ⟨hgrow, hr⟩ | ⟨dlist, dcap, hgrow, hdsz, hdh, hlt, hcan⟩
  · exact .inl ⟨by rw [hgrow], hr⟩
  right
  have hlinks := h.links
  rw [List.map_append, List.map_cons] at hlinks
  have hdc := h.deletedCount_eq
  obtain ⟨es, headIdx, tailIdx, hunlink, hsize, hself, hframe, hl⟩ := unlinkEntry_eq
    (t := { t with
      deletedIndexList := dlist.put ds.length c.idx
      deletedCapacity := dcap
      deletedCount := ds.length + 1 }) hlinks
  have h64 : u64 (ds.length + 1) = ds.length + 1 := u64_of_lt (by
    have := h.length_add
    have := h.nextInsert_lt
    rw [uint32Max] at this
    omega)
  refine ⟨hcan,
    { t with
      entries := es
      indexList := t.indexList.put s htDeleted
      deletedIndexList := dlist.put ds.length c.idx
      count := t.count - 1
      headIdx := headIdx
      tailIdx := tailIdx
      deletedCount := ds.length + 1
      deletedCapacity := dcap }, ?_, ⟨rfl, hself.trans he⟩, ?_⟩
  · rw [hgrow]
    simp only [hdc, Block.write_of_lt c.idx (show ds.length < dlist.size by rw [hdsz]; exact hlt),
      Option.bind_some, h64, hunlink]
    rw [Block.write_of_lt _ (by rw [h.indexList_size]; exact hs)]
    rfl
  · exact h.remove hs hfull rfl rfl rfl hsize hframe hl rfl rfl rfl
      (by rw [← hdsz]; exact Block.size_put _ _ _)
      (hdh.push c.idx (by rw [hdsz]; exact hlt))

end Remove

end Freehttpd
