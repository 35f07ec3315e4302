/-
The load of the hash table's index.

A probe stops at an `EMPTY` slot, so some must remain.  The growth check counts the
keys but not the tombstones, which every deletion leaves behind and which only an
insertion whose probe meets one removes, or a growth:

* `HtOp.KeepsLoad` — the sets that the slots set aside for the keys held so far are
  enough for;
* `Loaded` — what the growth check keeps, about the counters alone;
* `Loading` — the invariant of a run;
* `findLoop_of_empty` — a probe needs no more rounds than it takes to meet an
  `EMPTY` slot;
* `htable_load_bounded` — a run whose sets are those of `HtOp.KeepsLoad` keeps a
  quarter of the index `EMPTY`;
* `htable_load_full` — four keys, set and deleted one after the other.
-/
import Freehttpd.HtableDemand

namespace Freehttpd

open Runs OpenAddressing

variable {K D : Type}

/-! ### Statement -/

section Statement

variable [BEq K] [Hashable K]

/-- The probe for `key` meets an `EMPTY` slot after less than `index_capacity` rounds, and
further rounds make no difference. -/
def Htable.ProbeStops (t : Htable K D) (key : K) : Prop :=
  ∃ n < t.indexCapacity,
    t.indexList.read (slotAt t.indexCapacity (homeSlot t.indexCapacity key) n) = some htEmpty ∧
    ∀ m, n < m → findLoop t key (t.indexCapacity - 1) m
      ((hash key).toNat &&& (t.indexCapacity - 1)) = htableFind t key

/-- At most three quarters of the index are in use, from a capacity of four on; some slot
is `EMPTY`, and every probe stops at one. -/
def Htable.HasRoom (t : Htable K D) : Prop :=
  (4 ≤ t.indexCapacity → 4 * t.usedSlots ≤ 3 * t.indexCapacity) ∧
    (∃ s < t.indexCapacity, t.indexList.read s = some htEmpty) ∧ ∀ key, t.ProbeStops key

/-- The calls that keep the load.  Take for each home slot the most keys with it that the
table has held at once since it last grew, or was created.  A set that does not grow the
table must find that these, its own key included, are together at most three quarters of
the index. -/
def HtOp.KeepsLoad (s : Htable K D × (ℕ → ℕ)) : HtOp K D → Prop
  | .set key data _ _ => s.1.mustGrow = false → 4 ≤ s.1.indexCapacity →
      4 * ∑ h ∈ Finset.range s.1.indexCapacity, max (s.2 h) (s.1.keysAtWith key data h)
        ≤ 3 * s.1.indexCapacity
  | _ => True

instance (s : Htable K D × (ℕ → ℕ)) : ∀ op : HtOp K D, Decidable (op.KeepsLoad s)
  | .set _ _ _ _ => inferInstanceAs (Decidable (_ → _))
  | .get _ => .isTrue trivial
  | .has _ => .isTrue trivial
  | .delete _ _ => .isTrue trivial
  | .count => .isTrue trivial

end Statement

/-! ### The growth check -/

/-- The counters of a table that grows in time.  In a table of capacity two there is
nothing to recycle, because every set but the first grows it. -/
structure Loaded (t : Htable K D) : Prop where
  shape : t.Shape
  two_le : 2 ≤ t.indexCapacity
  count_lt : 4 * t.count < 3 * t.indexCapacity
  full_le : t.fullSlots ≤ t.count
  small : t.indexCapacity = 2 → t.usedSlots ≤ t.entryNextInsert ∧
    t.count + t.deletedCount ≤ t.entryNextInsert ∧ t.entryNextInsert ≤ 1

namespace Loaded

variable {t t' : Htable K D}

theorem same (h : Loaded t) (hs : t.SameCounters t') : Loaded t' where
  shape := h.shape.same hs.cap
  two_le := hs.cap.1 ▸ h.two_le
  count_lt := by
    rw [hs.count, hs.cap.1]
    exact h.count_lt
  full_le := by
    rw [Htable.fullSlots, hs.list, hs.count]
    exact h.full_le
  small := by
    rw [Htable.usedSlots, hs.list, hs.cap.1, hs.count, hs.deleted, hs.next]
    exact h.small

theorem deletes (h : Loaded t) {s : ℕ} (hd : t.Deletes s t') : Loaded t' := by
  obtain ⟨hfull, hused⟩ := hd.counts
  have hcap := hd.cap.1
  have hcount := hd.count
  have hlt := h.count_lt
  have hfull_le := h.full_le
  refine ⟨h.shape.same hd.cap, hcap ▸ h.two_le, by omega, by omega, fun h2 => ?_⟩
  obtain ⟨hu, hd', hn⟩ := h.small (hcap ▸ h2)
  have hdel := hd.deleted
  rw [u64_of_lt (by omega)] at hdel
  have hnext := hd.next
  exact ⟨by omega, by omega, by omega⟩

/-- The growth check keeps the number of keys below three quarters. -/
theorem count_succ_lt (h : Loaded t) (hg : t.mustGrow = false) :
    4 * (t.count + 1) < 3 * t.indexCapacity := by
  have hlt := h.count_lt
  have htwo := h.two_le
  rw [Htable.mustGrow, Bool.or_eq_false_iff, decide_eq_false_iff_not, decide_eq_false_iff_not,
    u64, u64] at hg
  rcases h.shape.cap_cases with hcap | hcap | hcap | ⟨q, hq, hcap, hle⟩
  · omega
  · rw [hcap] at hg hlt ⊢
    omega
  · rw [hcap] at hg hlt ⊢
    omega
  · rw [hcap] at hg hlt ⊢
    omega

/-- A set that does not grow. -/
theorem set (h : Loaded t) (hg : t.mustGrow = false) {s : ℕ} (hi : t.Inserts s t') :
    Loaded t' := by
  obtain ⟨hfull, hused, -⟩ := hi.counts
  have hcap := hi.cap.1
  have hlt := h.count_succ_lt hg
  have hle := h.shape.cap_le
  have hcount := hi.count
  rw [u64_of_lt (by omega)] at hcount
  have hfull_le := h.full_le
  refine ⟨h.shape.same hi.cap, hcap ▸ h.two_le, by omega, by omega, fun h2 => ?_⟩
  -- With two slots this is the first set.
  obtain ⟨hu, hd, hn⟩ := h.small (hcap ▸ h2)
  have hecap : t.entryCapacity = 1 := by
    rw [h.shape.entryCap, ← hcap, h2]
    rfl
  rw [Htable.mustGrow, Bool.or_eq_false_iff, decide_eq_false_iff_not] at hg
  rcases hi.slot with ⟨hne, -⟩ | ⟨hz, hz', hnext⟩
  · omega
  · rw [u32_of_lt (by omega)] at hnext
    exact ⟨by omega, by omega, by omega⟩

/-- A set that grows the table leaves the tombstones behind. -/
theorem grow (h : Loaded t) {t₁ : Htable K D} (hg : t.Grows t₁)
    (hroom : t₁.entryNextInsert < t₁.entryCapacity)
    (hi : t₁.SameCounters t' ∨ ∃ s, t₁.Inserts s t') : Loaded t' := by
  have hshape₁ := h.shape.grows hg
  have hcap := hg.cap
  rw [Nat.shiftLeft_eq, Nat.pow_one] at hcap
  have hle := h.shape.cap_le
  have htwo := h.two_le
  have hlt := h.count_lt
  have hcap₁ : t₁.indexCapacity = 2 * t.indexCapacity := by
    rcases Nat.lt_or_ge t.indexCapacity (2 ^ 63) with hlt' | hge
    · rw [hcap, u64_of_lt (by omega)]
      omega
    · -- Twice `2 ^ 63` wraps to zero, which leaves no entry slots.
      have h63 : t.indexCapacity = 2 ^ 63 := by omega
      rw [h63] at hcap
      have hzero : t₁.indexCapacity = 0 := hcap
      rw [hshape₁.entryCap, hzero] at hroom
      exact absurd hroom (Nat.not_lt_zero _)
  have hused := hg.used
  have hfull := h.full_le
  have hfull₁ := t₁.fullSlots_le_usedSlots
  have hcount := hg.count
  have hloaded₁ : Loaded t₁ := ⟨hshape₁, by omega, by omega, by omega, fun h2 => by omega⟩
  rcases hi with hs | ⟨s, hi⟩
  · exact hloaded₁.same hs
  · obtain ⟨hfull', hused', -⟩ := hi.counts
    have hcap' := hi.cap.1
    have hle₁ := hshape₁.cap_le
    have hcount' := hi.count
    rw [u64_of_lt (by omega)] at hcount'
    exact ⟨hshape₁.same hi.cap, by omega, by omega, by omega, fun h2 => by omega⟩

theorem effect [BEq K] [Hashable K] (h : Loaded t) {op : HtOp K D} (he : HtEffect t op t') :
    Loaded t' := by
  cases he with
  | same hs => exact h.same hs
  | set hg _ _ hi => exact h.set hg hi
  | grow _ hgrow hroom hi => exact h.grow hgrow hroom hi
  | delete hd => exact h.deletes hd

/-- Some slot is `EMPTY`. -/
theorem exists_empty (h : Loaded t)
    (hused : 4 ≤ t.indexCapacity → 4 * t.usedSlots ≤ 3 * t.indexCapacity) :
    ∃ s < t.indexCapacity, t.indexList.read s = some htEmpty := by
  have htwo := h.two_le
  have hlt : t.indexList.countCells isUsed < t.indexList.size := by
    rw [h.shape.size]
    show t.usedSlots < t.indexCapacity
    rcases h.shape.cap_cases with hcap | hcap | hcap | ⟨q, hq, hcap, -⟩
    · omega
    · have hsmall := h.small hcap
      omega
    · have hle := hused (by omega)
      omega
    · have hle := hused (by omega)
      omega
  obtain ⟨s, hs, hread⟩ := Block.exists_read_of_countCells_lt hlt
  exact ⟨s, h.shape.size ▸ hs, by simpa [isUsed] using hread⟩

end Loaded

/-! ### Probes -/

section Probes

variable [BEq K] [Hashable K] {t : Htable K D}

omit [Hashable K] in
/-- Two probes that both have the rounds to meet an `EMPTY` slot end alike. -/
theorem findLoop_of_empty {key : K} {mask : ℕ}
    (hmask : ∀ x, x &&& mask = x % t.indexCapacity) {h n m m' : ℕ} (hh : h < t.indexCapacity)
    (hread : t.indexList.read (slotAt t.indexCapacity h n) = some htEmpty) (hm : n < m)
    (hm' : n < m') : findLoop t key mask m h = findLoop t key mask m' h := by
  induction n generalizing h m m' with
  | zero =>
    obtain ⟨j, rfl⟩ : ∃ j, m = j + 1 := ⟨m - 1, by omega⟩
    obtain ⟨j', rfl⟩ : ∃ j', m' = j' + 1 := ⟨m' - 1, by omega⟩
    rw [slotAt_zero hh] at hread
    rw [findLoop, findLoop, hread]
    rfl
  | succ n ih =>
    obtain ⟨j, rfl⟩ : ∃ j, m = j + 1 := ⟨m - 1, by omega⟩
    obtain ⟨j', rfl⟩ : ∃ j', m' = j' + 1 := ⟨m' - 1, by omega⟩
    have hpos : 0 < t.indexCapacity := Nat.lt_of_le_of_lt (Nat.zero_le _) hh
    have hnext : findLoop t key mask j ((h + 1) &&& mask)
        = findLoop t key mask j' ((h + 1) &&& mask) := by
      rw [hmask]
      refine ih (Nat.mod_lt _ hpos) ?_ (by omega) (by omega)
      rw [slotAt_succ]
      exact hread
    rw [findLoop, findLoop, hnext]

/-- With an `EMPTY` slot every probe stops at one. -/
theorem Loaded.probeStops (h : Loaded t)
    (hempty : ∃ s < t.indexCapacity, t.indexList.read s = some htEmpty) (key : K) :
    t.ProbeStops key := by
  obtain ⟨s, hs, hread⟩ := hempty
  have hpos : 0 < t.indexCapacity := Nat.lt_of_lt_of_le Nat.two_pos h.two_le
  obtain ⟨n, hn, rfl⟩ := exists_slotAt (homeSlot t.indexCapacity key) hs
  have hmask : ∀ x, x &&& (t.indexCapacity - 1) = x % t.indexCapacity := by
    intro x
    rcases h.shape.cap with hcap | ⟨k, -, -, hcap⟩
    · omega
    · rw [hcap, Nat.and_two_pow_sub_one_eq_mod]
  refine ⟨n, hn, hread, fun m hm => ?_⟩
  rw [htableFind, hmask]
  exact findLoop_of_empty hmask (Nat.mod_lt _ hpos) hread hm hn

end Probes

/-! ### Runs -/

section Runs

variable [BEq K] [Hashable K] {t t' : Htable K D} {peak : ℕ → ℕ}

/-- The invariant of a run: the slots set aside for the peaks are at most three quarters of
the index, from a capacity of four on. -/
structure Loading (t : Htable K D) (peak : ℕ → ℕ) : Prop where
  loaded : Loaded t
  reserved : ∃ cs ds, t.Inv cs ds ∧ (4 ≤ t.indexCapacity →
    (∃ q, Reserved t.indexCapacity (placed t cs) q t.Used peak) ∧
      4 * ∑ h ∈ Finset.range t.indexCapacity, peak h ≤ 3 * t.indexCapacity)

theorem Loading.hasRoom (h : Loading t peak) : t.HasRoom := by
  obtain ⟨hloaded, cs, ds, hinv, hres⟩ := h
  have hused : 4 ≤ t.indexCapacity → 4 * t.usedSlots ≤ 3 * t.indexCapacity := fun h4 => by
    obtain ⟨⟨q, hr⟩, hsum⟩ := hres h4
    have hle := hr.used_le
    rw [Htable.usedSlots, Block.countCells_eq_sum, hinv.indexList_size]
    exact (Nat.mul_le_mul_left 4 hle).trans hsum
  have hempty := hloaded.exists_empty hused
  exact ⟨hused, hempty, hloaded.probeStops hempty⟩

/-- Behind a growth the peaks are the keys that are there. -/
theorem Loading.of_grown {cs : List (LiveEntry K D)} {ds : List ℕ} (hloaded : Loaded t)
    (hinv : t.Inv cs ds) (hused : t.usedSlots ≤ t.count) : Loading t t.keysAt := by
  refine ⟨hloaded, cs, ds, hinv, fun _ => ⟨⟨_, hinv.reserved_of_used_le hused⟩, ?_⟩⟩
  have hload := (hinv.reserved_of_used_le hused).load_eq
  rw [hinv.load_placed] at hload
  have hlt := hloaded.count_lt
  omega

variable [EquivBEq K] [LawfulHashable K]

/-- A call that keeps the load. -/
theorem Loading.step (h : Loading t peak) {op : HtOp K D} (hfits : op.Fits t)
    (hkeep : op.KeepsLoad (t, peak)) {out : HtOut D} (hstep : htStep t op = some (out, t')) :
    Loading t' (t.peakAfter t' peak) := by
  obtain ⟨hloaded, cs, ds, hinv, hres⟩ := h
  obtain ⟨cs', ds', hinv', hmoves⟩ := hinv.moves hfits hstep
  have hloaded' := hloaded.effect (htStep_effect hloaded.shape.size hstep)
  by_cases hcap : t'.indexCapacity = t.indexCapacity
  · refine ⟨hloaded', cs', ds', hinv', fun h4 => ?_⟩
    rw [hcap] at h4 ⊢
    obtain ⟨⟨q, hr⟩, hsum⟩ := hres h4
    obtain ⟨hr', hsum'⟩ := hmoves.reserved hinv hinv' hcap (n := 3 * t.indexCapacity / 4)
      (by omega) (fun key data al flag he hg => by
        rw [he] at hkeep
        have hle := hkeep hg h4
        dsimp only at hle
        omega) (by omega) hr
    exact ⟨hr', by omega⟩
  · -- The table has grown.
    rw [Htable.peakAfter, if_neg hcap]
    cases hmoves with
    | same hcap' => exact absurd hcap' hcap
    | put _ _ hcap' => exact absurd hcap' hcap
    | remove hcap' => exact absurd hcap' hcap
    | grow _ hused => exact .of_grown hloaded' hinv' hused

/-- In every state of a run from `htable_create` whose sets are those of `HtOp.KeepsLoad`,
at most three quarters of the index are in use, some slot is `EMPTY`, and every probe
stops at one. -/
theorem htable_load_bounded {al : CreateAlloc} {initialCap : ℕ} {t₀ : Htable K D}
    (hcap : initialCap ≤ 2 ^ 62) (hcreate : htableCreate al initialCap = some (some t₀))
    {ops : List (HtOp K D)} (hops : EachStep htPeakStep
      (fun s op => op.Fits s.1 ∧ op.KeepsLoad s) (t₀, fun _ => 0) ops) :
    Always htStep Htable.HasRoom t₀ ops := by
  obtain ⟨hshape, hused, hcount, hnext, hdel, htwo⟩ := htableCreate_shape hcreate
  obtain ⟨⟨cs, ds, hinv, -⟩, -⟩ := MapOf.create hcap hcreate
  have hfull := t₀.fullSlots_le_usedSlots
  have hloaded : Loaded t₀ :=
    ⟨hshape, htwo, by omega, by omega, fun _ => ⟨by omega, by omega, by omega⟩⟩
  have hle : t₀.usedSlots ≤ t₀.count := by omega
  have hzero : (fun _ => 0) = t₀.keysAt := funext fun h => by
    have hlen := hinv.count_eq
    rw [hcount, eq_comm, List.length_eq_zero_iff] at hlen
    rw [Htable.keysAt, hinv.htableContents_eq, hlen]
    rfl
  have hpeaks : Always htPeakStep (fun s => s.1.HasRoom) (t₀, fun _ => 0) ops := by
    refine always_of_invariant (I := fun s => Loading s.1 s.2) (fun s h => h.hasRoom) ?_
      (hzero ▸ .of_grown hloaded hinv hle) hops
    rintro ⟨t, peak⟩ op h ⟨hfits, hkeep⟩
    obtain ⟨cs', ds', hinv', -⟩ := h.reserved
    obtain ⟨out, t', -, -, -, hstep, -⟩ := htStep_eq hinv' hfits
    exact ⟨out, (t', t.peakAfter t' peak), by rw [htPeakStep, hstep]; rfl,
      h.step hfits hkeep hstep⟩
  exact Always.map htPeakStep_fst hpeaks

end Runs

/-- A run on the table that `int_htable_create` makes for four entries: two keys, one of
them deleted and set again. -/
theorem htable_load_bounded_int : ∃ t₀ : Htable IntKey ℕ,
    htableCreate ⟨true, true, true⟩ 4 = some (some t₀) ∧
    Always htStep Htable.HasRoom t₀
      [.set (intKey 1) (some 10) (intSetAlloc true true true _) false,
        .set (intKey 2) (some 20) (intSetAlloc true true true _) false,
        .delete (intKey 1) true,
        .set (intKey 1) (some 30) (intSetAlloc true true true _) false] := by
  obtain ⟨t₀, hcreate⟩ : ∃ t₀ : Htable IntKey ℕ,
      htableCreate ⟨true, true, true⟩ 4 = some (some t₀) := ⟨_, rfl⟩
  have ht := Option.some.inj (Option.some.inj hcreate)
  have hops : EachStep htPeakStep (fun s op => op.Fits s.1 ∧ op.KeepsLoad s) (t₀, fun _ => 0)
      [.set (intKey 1) (some 10) (intSetAlloc true true true _) false,
        .set (intKey 2) (some 20) (intSetAlloc true true true _) false,
        .delete (intKey 1) true,
        .set (intKey 1) (some 30) (intSetAlloc true true true _) false] := by
    rw [← ht]
    decide +kernel
  exact ⟨t₀, hcreate, htable_load_bounded (by decide) hcreate hops⟩

/-- Four keys with the home slots 0 to 3, set and deleted one after the other, turn all
four slots of the index into tombstones.  The table never grows: it never holds more than
one key. -/
theorem htable_load_full : ∃ t₀ : Htable IntKey ℕ,
    htableCreate ⟨true, true, true⟩ 4 = some (some t₀) ∧
    ∃ outs t, runs htStep t₀
        ([0, 1, 2, 9].flatMap fun n =>
          [.set (intKey n) (some n) (intSetAlloc true true true _) false,
            .delete (intKey n) true]) = some (outs, t) ∧
      t.indexCapacity = 4 ∧ t.usedSlots = 4 ∧ t.count = 0 ∧
      (∀ s < t.indexCapacity, t.indexList.read s ≠ some htEmpty) ∧ ¬ t.HasRoom := by
  obtain ⟨t₀, hcreate⟩ : ∃ t₀ : Htable IntKey ℕ,
      htableCreate ⟨true, true, true⟩ 4 = some (some t₀) := ⟨_, rfl⟩
  have ht := Option.some.inj (Option.some.inj hcreate)
  have hany : (runs htStep t₀ ([0, 1, 2, 9].flatMap fun n =>
      [.set (intKey n) (some n) (intSetAlloc true true true _) false,
        .delete (intKey n) true])).any (fun r => decide (r.2.indexCapacity = 4 ∧
      r.2.usedSlots = 4 ∧ r.2.count = 0 ∧
      ∀ s < r.2.indexCapacity, r.2.indexList.read s ≠ some htEmpty)) = true := by
    rw [← ht]
    decide +kernel
  obtain ⟨⟨outs, t⟩, hruns, hfull⟩ := (Option.any_eq_true _ _).mp hany
  obtain ⟨hcap, hused, hcount, hne⟩ := of_decide_eq_true hfull
  refine ⟨t₀, hcreate, outs, t, hruns, hcap, hused, hcount, hne, ?_⟩
  rintro ⟨-, ⟨s, hs, hread⟩, -⟩
  exact hne s hs hread

end Freehttpd
