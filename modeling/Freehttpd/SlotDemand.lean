/-
The slots that linear probing with deletion marks ever uses.

A placement gives the home slot of the item in each slot.  Seen from one slot, the items
whose way leads into it and those that are at home there either stay or go on to the next
slot (`inflow_succ`).  So an item that is put at the first free slot from its home never
gets further than in a placement that holds more items with every home slot:

* `Linked` — the slots between an item and its home are taken;
* `Within` — no home slot has more items, and no slot is passed by more;
* `Within.put` — the first free slot from the home of one more item is taken in a linked
  placement that has room for it;
* `Reserved` — slots set aside for the most items that every home slot had at once: they
  are enough whatever is removed and put in between (`Reserved.put`, `Reserved.remove`), so
  the slots in use are no more (`Reserved.used_le`).
-/
import Freehttpd.OpenAddressing
import Mathlib.Algebra.BigOperators.Group.Finset.Piecewise
import Mathlib.Algebra.Order.BigOperators.Group.Finset

namespace OpenAddressing

open Finset

/-- The home slot of the item in each slot that has one. -/
abbrev Placement := ℕ → Option ℕ

variable {cap : ℕ} {p q : Placement}

/-! ### Ways -/

/-- The number of steps from slot `g` on to slot `s`. -/
def steps (cap g s : ℕ) : ℕ := (s + (cap - g)) % cap

theorem steps_lt {g s : ℕ} (hs : s < cap) : steps cap g s < cap := Nat.mod_lt _ (by omega)

theorem steps_of_le {g s : ℕ} (hs : s < cap) (h : g ≤ s) : steps cap g s = s - g := by
  rw [steps, show s + (cap - g) = s - g + cap by omega, Nat.add_mod_right,
    Nat.mod_eq_of_lt (by omega)]

theorem steps_of_lt {g s : ℕ} (hg : g < cap) (h : s < g) : steps cap g s = s + cap - g := by
  rw [steps, Nat.mod_eq_of_lt (by omega)]
  omega

theorem steps_slotAt {g j : ℕ} (hg : g < cap) (hj : j < cap) :
    steps cap g (slotAt cap g j) = j := by
  rw [slotAt]
  rcases Nat.lt_or_ge (g + j) cap with hlt | hge
  · rw [Nat.mod_eq_of_lt hlt, steps_of_le hlt (Nat.le_add_right _ _)]
    omega
  · rw [Nat.mod_eq_sub_mod hge, Nat.mod_eq_of_lt (by omega), steps_of_lt hg (by omega)]
    omega

theorem slotAt_steps {g s : ℕ} (hg : g < cap) (hs : s < cap) :
    slotAt cap g (steps cap g s) = s := by
  obtain ⟨j, hj, rfl⟩ := exists_slotAt g hs
  rw [steps_slotAt hg hj]

/-- Whether the way from the home slot `g` to the slot `s` leads into slot `h`. -/
def Enters (cap h g s : ℕ) : Prop := 0 < steps cap g h ∧ steps cap g h ≤ steps cap g s

instance (cap h g s : ℕ) : Decidable (Enters cap h g s) :=
  inferInstanceAs (Decidable (_ ∧ _))

/-- A way that leads into slot `h` or starts there ends there or leads into the next slot. -/
theorem enters_succ {g h s : ℕ} (hg : g < cap) (hh : h < cap) (hs : s < cap) :
    (if Enters cap ((h + 1) % cap) g s then 1 else 0) + (if s = h then 1 else 0)
      = (if Enters cap h g s then 1 else 0) + if g = h then 1 else 0 := by
  have hsteps : steps cap g ((h + 1) % cap)
      = if steps cap g h + 1 = cap then 0 else steps cap g h + 1 := by
    conv_lhs => rw [← slotAt_steps hg hh]
    have hlt := steps_lt (g := g) hh
    rw [show (slotAt cap g (steps cap g h) + 1) % cap = slotAt cap g (steps cap g h + 1) by
      rw [slotAt, slotAt, Nat.mod_add_mod, Nat.add_assoc]]
    split
    · rename_i he
      rw [he, show slotAt cap g cap = slotAt cap g 0 by rw [slotAt, Nat.add_mod_right]; rfl,
        steps_slotAt hg (by omega)]
    · exact steps_slotAt hg (by omega)
  have hh0 : steps cap g h = 0 ↔ g = h := by
    constructor
    · intro h0
      rw [← slotAt_steps hg hh, h0, slotAt_zero hg]
    · rintro rfl
      rw [steps_of_le hg (Nat.le_refl _), Nat.sub_self]
  have hsh : steps cap g s = steps cap g h ↔ s = h := by
    constructor
    · intro he
      rw [← slotAt_steps hg hs, he, slotAt_steps hg hh]
    · rintro rfl
      rfl
  have hslt := steps_lt (g := g) hs
  have hnext : Enters cap ((h + 1) % cap) g s ↔ steps cap g h < steps cap g s := by
    unfold Enters
    rw [hsteps]
    split <;> omega
  have hhere : Enters cap h g s ↔ 0 < steps cap g h ∧ steps cap g h ≤ steps cap g s := Iff.rfl
  simp only [hnext, hhere, ← hh0, ← hsh]
  split_ifs <;> omega

/-! ### Counting the items of a placement -/

/-- The sum of a weight over the slots. -/
def total (cap : ℕ) (w : ℕ → Option ℕ → ℕ) (p : Placement) : ℕ := ∑ s ∈ range cap, w s (p s)

/-- A write changes one summand. -/
theorem total_update (w : ℕ → Option ℕ → ℕ) (p : Placement) {s : ℕ} (hs : s < cap)
    (x : Option ℕ) :
    total cap w (Function.update p s x) + w s (p s) = total cap w p + w s x := by
  have hmem : s ∈ range cap := mem_range.mpr hs
  have hrest : ∑ i ∈ (range cap).erase s, w i (Function.update p s x i)
      = ∑ i ∈ (range cap).erase s, w i (p i) :=
    sum_congr rfl fun i hi => by rw [Function.update_of_ne (ne_of_mem_erase hi)]
  rw [total, total, ← add_sum_erase _ _ hmem, ← add_sum_erase _ _ hmem, hrest,
    Function.update_self]
  omega

/-- How many items have the home slot `h`. -/
def demand (cap : ℕ) (p : Placement) (h : ℕ) : ℕ :=
  total cap (fun _ x => if x = some h then 1 else 0) p

/-- How many items are on a way that leads into slot `h`. -/
def inflow (cap : ℕ) (p : Placement) (h : ℕ) : ℕ :=
  total cap (fun s x => x.elim 0 fun g => if Enters cap h g s then 1 else 0) p

/-- How many slots are taken. -/
def load (cap : ℕ) (p : Placement) : ℕ := total cap (fun _ x => if x.isSome then 1 else 0) p

/-- The home slots are slots. -/
def HomesLt (cap : ℕ) (p : Placement) : Prop := ∀ s < cap, ∀ g, p s = some g → g < cap

theorem HomesLt.update (h : HomesLt cap p) {s : ℕ} {x : Option ℕ} (hx : ∀ g, x = some g → g < cap) :
    HomesLt cap (Function.update p s x) := fun i hi g hg => by
  by_cases he : i = s
  · subst he
    rw [Function.update_self] at hg
    exact hx g hg
  · rw [Function.update_of_ne he] at hg
    exact h i hi g hg

/-- What comes into a slot or starts there stays there or comes into the next slot. -/
theorem inflow_succ (hp : HomesLt cap p) {h : ℕ} (hh : h < cap) :
    inflow cap p ((h + 1) % cap) + (if (p h).isSome then 1 else 0)
      = inflow cap p h + demand cap p h := by
  have hstay : (∑ s ∈ range cap, if s = h then if (p s).isSome then 1 else 0 else 0)
      = if (p h).isSome then 1 else 0 := by
    rw [sum_ite_eq' (range cap) h, if_pos (mem_range.mpr hh)]
  rw [inflow, inflow, demand, total, total, total, ← hstay, ← sum_add_distrib, ← sum_add_distrib]
  refine sum_congr rfl fun s hs => ?_
  have hs := mem_range.mp hs
  cases hx : p s with
  | none => simp
  | some g =>
    have hway := enters_succ (hp s hs g hx) hh hs
    simpa using hway

/-- Every item has one home slot. -/
theorem sum_demand (hp : HomesLt cap p) : ∑ h ∈ range cap, demand cap p h = load cap p := by
  simp only [demand, load, total]
  rw [sum_comm]
  refine sum_congr rfl fun s hs => ?_
  cases hx : p s with
  | none => simp
  | some g =>
    have hg := mem_range.mpr (hp s (mem_range.mp hs) g hx)
    simp [hg]

theorem demand_put {s g : ℕ} (hs : s < cap) (hfree : p s = none) (h : ℕ) :
    demand cap (Function.update p s (some g)) h = demand cap p h + if h = g then 1 else 0 := by
  have htotal := total_update (fun _ x => if x = some h then 1 else 0) p hs (some g)
  rw [hfree] at htotal
  simp only [reduceCtorEq, if_false, Nat.add_zero, Option.some.injEq, eq_comm (a := g)] at htotal
  exact htotal

theorem inflow_put {s g : ℕ} (hs : s < cap) (hfree : p s = none) (h : ℕ) :
    inflow cap (Function.update p s (some g)) h
      = inflow cap p h + if Enters cap h g s then 1 else 0 := by
  have htotal := total_update
    (fun s x => x.elim 0 fun g => if Enters cap h g s then 1 else 0) p hs (some g)
  rwa [hfree] at htotal

theorem demand_remove_le {s : ℕ} (hs : s < cap) (h : ℕ) :
    demand cap (Function.update p s none) h ≤ demand cap p h := by
  have htotal := total_update (fun _ x => if x = some h then 1 else 0) p hs none
  exact Nat.le.intro htotal

theorem inflow_remove_le {s : ℕ} (hs : s < cap) (h : ℕ) :
    inflow cap (Function.update p s none) h ≤ inflow cap p h := by
  have htotal := total_update
    (fun s x => x.elim 0 fun g => if Enters cap h g s then 1 else 0) p hs none
  exact Nat.le.intro htotal

/-! ### Linked placements -/

/-- The slots between an item and its home slot are taken. -/
def Linked (cap : ℕ) (p : Placement) : Prop :=
  ∀ s < cap, ∀ g, p s = some g → ∀ k ≤ steps cap g s, (p (slotAt cap g k)).isSome

/-- A slot that something comes into or starts at is taken. -/
theorem Linked.taken (h : Linked cap p) (hp : HomesLt cap p) {i : ℕ} (hi : i < cap)
    (hpos : 0 < inflow cap p i + demand cap p i) : (p i).isSome := by
  by_contra hfree
  have hzero : inflow cap p i + demand cap p i = 0 := by
    rw [inflow, demand, total, total, ← sum_add_distrib]
    refine sum_eq_zero fun s hs => ?_
    have hs := mem_range.mp hs
    cases hx : p s with
    | none => simp
    | some g =>
      -- Were `i` on the way of this item, or its home, it would be taken.
      have hg := hp s hs g hx
      have hlong : ¬ steps cap g i ≤ steps cap g s := fun hle => by
        have htaken := h s hs g hx _ hle
        rw [slotAt_steps hg hi] at htaken
        exact hfree htaken
      have hhome : g ≠ i := by
        rintro rfl
        rw [steps_of_le hg (Nat.le_refl _), Nat.sub_self] at hlong
        exact hlong (Nat.zero_le _)
      simp [Enters, hlong, hhome]
  omega

/-- One more item at the first free slot from its home. -/
theorem Linked.put (h : Linked cap p) {g j : ℕ} (hg : g < cap) (hj : j < cap)
    (hfull : ∀ k < j, (p (slotAt cap g k)).isSome) :
    Linked cap (Function.update p (slotAt cap g j) (some g)) := by
  have hkeep : ∀ i, (p i).isSome → (Function.update p (slotAt cap g j) (some g) i).isSome :=
    fun i hi => by
      by_cases he : i = slotAt cap g j
      · rw [he, Function.update_self]
        rfl
      · rwa [Function.update_of_ne he]
  intro s hs g' hx k hk
  by_cases he : s = slotAt cap g j
  · subst he
    rw [Function.update_self, Option.some_inj] at hx
    subst hx
    rw [steps_slotAt hg hj] at hk
    rcases Nat.lt_or_eq_of_le hk with hlt | rfl
    · exact hkeep _ (hfull k hlt)
    · rw [Function.update_self]
      rfl
  · rw [Function.update_of_ne he] at hx
    exact hkeep _ (h s hs g' hx k hk)

/-- The first free slot from `g` on. -/
theorem exists_free (hload : load cap p < cap) (g : ℕ) :
    ∃ j < cap, p (slotAt cap g j) = none ∧ ∀ k < j, (p (slotAt cap g k)).isSome := by
  have hsome : ∃ j, j < cap ∧ p (slotAt cap g j) = none := by
    by_contra hall
    push Not at hall
    have hfull : load cap p = cap := by
      rw [load, total, sum_congr rfl fun s hs => ?_, sum_const, card_range, Nat.nsmul_eq_mul,
        Nat.mul_one]
      obtain ⟨j, hj, rfl⟩ := exists_slotAt g (mem_range.mp hs)
      exact if_pos (Option.isSome_iff_ne_none.mpr (hall j hj))
    omega
  obtain ⟨hj, hfree⟩ := Nat.find_spec hsome
  refine ⟨Nat.find hsome, hj, hfree, fun k hk => Option.isSome_iff_ne_none.mpr fun hnone => ?_⟩
  exact Nat.find_min hsome hk ⟨by omega, hnone⟩

/-! ### A placement within another -/

/-- No home slot has more items in `p` than in `q`, and no slot is passed by more. -/
structure Within (cap : ℕ) (p q : Placement) : Prop where
  demand_le : ∀ h < cap, demand cap p h ≤ demand cap q h
  inflow_le : ∀ h < cap, inflow cap p h ≤ inflow cap q h

/-- If `q` has room for one more item with home slot `g` and the slots from `g` on are
taken in `p`, one more item may pass each of them. -/
theorem Within.inflow_lt (h : Within cap p q) (hp : HomesLt cap p) (hq : HomesLt cap q)
    {g j : ℕ} (hg : g < cap) (hj : j < cap) (hroom : demand cap p g < demand cap q g)
    (hfull : ∀ k < j, (p (slotAt cap g k)).isSome) (hpos : 0 < j) :
    inflow cap p (slotAt cap g j) < inflow cap q (slotAt cap g j) := by
  induction j with
  | zero => exact absurd hpos (Nat.lt_irrefl 0)
  | succ j ih =>
    -- All that comes into the slot before, or starts there, is passed on but for one item.
    have hslot := slotAt_lt (by omega : 0 < cap) g j
    have hpflow := inflow_succ hp hslot
    have hqflow := inflow_succ hq hslot
    have hnext : (slotAt cap g j + 1) % cap = slotAt cap g (j + 1) := by
      rw [slotAt, slotAt, Nat.mod_add_mod, Nat.add_assoc]
    rw [if_pos (hfull j (Nat.lt_succ_self j)), hnext] at hpflow
    rw [hnext] at hqflow
    have hone : (if (q (slotAt cap g j)).isSome then 1 else 0) ≤ 1 := by split <;> omega
    have hin := h.inflow_le _ hslot
    have hdem := h.demand_le _ hslot
    rcases Nat.eq_zero_or_pos j with rfl | hj0
    · rw [slotAt_zero hg] at *
      omega
    · have hlt := ih (by omega) (fun k hk => hfull k (by omega)) hj0
      omega

/-- One more item at the first free slot from its home is within a linked placement that
has room for it, and its slot is taken there. -/
theorem Within.put (h : Within cap p q) (hp : HomesLt cap p) (hq : HomesLt cap q)
    (hlinked : Linked cap q) {g j : ℕ} (hg : g < cap) (hj : j < cap)
    (hroom : demand cap p g < demand cap q g) (hfull : ∀ k < j, (p (slotAt cap g k)).isSome)
    (hfree : p (slotAt cap g j) = none) :
    Within cap (Function.update p (slotAt cap g j) (some g)) q ∧
      (q (slotAt cap g j)).isSome := by
  have hslot := slotAt_lt (by omega : 0 < cap) g j
  have hlt : ∀ k ≤ j, 0 < k →
      inflow cap p (slotAt cap g k) < inflow cap q (slotAt cap g k) := fun k hk =>
    h.inflow_lt hp hq hg (by omega) hroom fun i hi => hfull i (by omega)
  refine ⟨⟨fun i hi => ?_, fun i hi => ?_⟩, hlinked.taken hq hslot ?_⟩
  · rw [demand_put hslot hfree]
    split
    · rename_i he
      rw [he]
      exact hroom
    · exact h.demand_le i hi
  · rw [inflow_put hslot hfree]
    split
    · rename_i henters
      rw [Enters, steps_slotAt hg hj] at henters
      have hi' := hlt _ henters.2 henters.1
      rw [slotAt_steps hg hi] at hi'
      exact hi'
    · exact h.inflow_le i hi
  · rcases Nat.eq_zero_or_pos j with rfl | hj0
    · rw [slotAt_zero hg]
      omega
    · have hin := hlt j (Nat.le_refl _) hj0
      omega

theorem Within.remove (h : Within cap p q) {s : ℕ} (hs : s < cap) :
    Within cap (Function.update p s none) q where
  demand_le i hi := (demand_remove_le hs i).trans (h.demand_le i hi)
  inflow_le i hi := (inflow_remove_le hs i).trans (h.inflow_le i hi)

/-! ### Slots set aside -/

/-- The placement `q` sets slots aside for `peak h` items with each home slot `h`: the
items of `p` are within it, and so are the slots in use. -/
structure Reserved (cap : ℕ) (p q : Placement) (used : ℕ → Prop) (peak : ℕ → ℕ) : Prop where
  homes : HomesLt cap p
  homes_aside : HomesLt cap q
  linked : Linked cap q
  within : Within cap p q
  used_aside : ∀ s < cap, used s → (q s).isSome
  demand_eq : ∀ h < cap, demand cap q h = peak h

namespace Reserved

variable {used used' : ℕ → Prop} {peak peak' : ℕ → ℕ}

/-- Without deletion marks the items themselves are the slots set aside. -/
theorem self (hp : HomesLt cap p) (hlinked : Linked cap p)
    (hused : ∀ s < cap, used s → (p s).isSome) (hpeak : ∀ h < cap, demand cap p h = peak h) :
    Reserved cap p p used peak :=
  ⟨hp, hp, hlinked, ⟨fun _ _ => Nat.le_refl _, fun _ _ => Nat.le_refl _⟩, hused, hpeak⟩

theorem congr (h : Reserved cap p q used peak) (hused : ∀ s < cap, used' s → used s)
    (hpeak : ∀ h < cap, peak' h = peak h) : Reserved cap p q used' peak' :=
  { h with
    used_aside := fun s hs hu => h.used_aside s hs (hused s hs hu)
    demand_eq := fun i hi => (h.demand_eq i hi).trans (hpeak i hi).symm }

/-- The slots set aside are as many as the peaks together. -/
theorem load_eq (h : Reserved cap p q used peak) : load cap q = ∑ i ∈ range cap, peak i := by
  rw [← sum_demand h.homes_aside]
  exact sum_congr rfl fun i hi => h.demand_eq i (mem_range.mp hi)

/-- Aside for one more item with home slot `g`. -/
theorem aside (h : Reserved cap p q used peak) {g : ℕ} (hg : g < cap)
    (hpeak : ∀ i < cap, peak' i = peak i + if i = g then 1 else 0)
    (hload : ∑ i ∈ range cap, peak i < cap) : ∃ q', Reserved cap p q' used peak' := by
  obtain ⟨j, hj, hfree, hfull⟩ := exists_free (h.load_eq ▸ hload) g
  have hslot := slotAt_lt (by omega : 0 < cap) g j
  refine ⟨Function.update q (slotAt cap g j) (some g), h.homes,
    h.homes_aside.update fun g' hx => Option.some_inj.mp hx ▸ hg, h.linked.put hg hj hfull,
    ⟨fun i hi => ?_, fun i hi => ?_⟩, fun s hs hu => ?_, fun i hi => ?_⟩
  · rw [demand_put hslot hfree]
    exact (h.within.demand_le i hi).trans (Nat.le_add_right _ _)
  · rw [inflow_put hslot hfree]
    exact (h.within.inflow_le i hi).trans (Nat.le_add_right _ _)
  · by_cases he : s = slotAt cap g j
    · rw [he, Function.update_self]
      rfl
    · rw [Function.update_of_ne he]
      exact h.used_aside s hs hu
  · rw [demand_put hslot hfree, h.demand_eq i hi, hpeak i hi]

/-- An item with home slot `g` is put at the first free slot from `g` on. -/
theorem put (h : Reserved cap p q used peak) {g j : ℕ} (hg : g < cap) (hj : j < cap)
    (hfull : ∀ k < j, (p (slotAt cap g k)).isSome) (hfree : p (slotAt cap g j) = none)
    (hpeak : ∀ i < cap, peak' i = max (peak i) (demand cap p i + if i = g then 1 else 0))
    (hused : ∀ s < cap, used' s → s = slotAt cap g j ∨ used s)
    (hload : ∑ i ∈ range cap, peak' i < cap) :
    ∃ q', Reserved cap (Function.update p (slotAt cap g j) (some g)) q' used' peak' := by
  have hle : ∀ i < cap, demand cap p i ≤ peak i := fun i hi =>
    (h.within.demand_le i hi).trans_eq (h.demand_eq i hi)
  -- If the item is one more than its home slot ever had, a slot is set aside for it.
  obtain ⟨q', h'⟩ : ∃ q', Reserved cap p q' used peak' := by
    have hgle := hle g hg
    rcases Nat.lt_or_eq_of_le hgle with hlt | heq
    · refine ⟨q, h.congr (fun _ _ hu => hu) fun i hi => ?_⟩
      rw [hpeak i hi]
      have := hle i hi
      split
      · rename_i he
        subst he
        omega
      · omega
    · have hone : ∀ i < cap, peak' i = peak i + if i = g then 1 else 0 := fun i hi => by
        rw [hpeak i hi]
        have := hle i hi
        split
        · rename_i he
          subst he
          omega
        · omega
      refine h.aside hg hone (Nat.lt_of_le_of_lt (sum_le_sum fun i hi => ?_) hload)
      rw [hone i (mem_range.mp hi)]
      exact Nat.le_add_right _ _
  have hroom : demand cap p g < demand cap q' g := by
    rw [h'.demand_eq g hg, hpeak g hg, if_pos rfl]
    omega
  obtain ⟨hwithin, htaken⟩ :=
    h'.within.put h'.homes h'.homes_aside h'.linked hg hj hroom hfull hfree
  refine ⟨q', h'.homes.update fun g' hx => Option.some_inj.mp hx ▸ hg, h'.homes_aside, h'.linked,
    hwithin, fun s hs hu => ?_, h'.demand_eq⟩
  rcases hused s hs hu with rfl | hu
  · exact htaken
  · exact h'.used_aside s hs hu

theorem remove (h : Reserved cap p q used peak) {s : ℕ} (hs : s < cap) :
    Reserved cap (Function.update p s none) q used peak :=
  { h with
    homes := h.homes.update fun _ hx => nomatch hx
    within := h.within.remove hs }

/-- The slots in use are no more than the peaks together. -/
theorem used_le [DecidablePred used] (h : Reserved cap p q used peak) :
    (∑ s ∈ range cap, if used s then 1 else 0) ≤ ∑ i ∈ range cap, peak i := by
  rw [← h.load_eq, load, total]
  refine sum_le_sum fun s hs => ?_
  split
  · rename_i hu
    rw [if_pos (h.used_aside s (mem_range.mp hs) hu)]
  · exact Nat.zero_le _

end Reserved

end OpenAddressing
