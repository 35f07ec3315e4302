/-
Scanning a circle in capped batches.

The positions `0 .. n - 1` lie on a circle, and some of them are ready.  A batch
starts at the position behind the last one examined, and ends when it has met
`m` ready positions or has gone once around.

* `met`, `length_met` — the ready positions among the first ones examined, and
  how many they are;
* `circle`, `met_eq_take` — all positions in the order of a scan, and the ready ones
  among them that a batch meets;
* `Batches` — a sequence of batches, each given by the number of positions it
  examined;
* `Batches.covers` — if the batches have room for all ready positions, each of
  them is met.
-/
import Freehttpd.OpenAddressing
import Mathlib.Data.Nat.Count

namespace CircularScan

open OpenAddressing

variable {ready : ℕ → Prop} [DecidablePred ready] {n m b : ℕ}

theorem slotAt_slotAt (n b j k : ℕ) : slotAt n (slotAt n b j) k = slotAt n b (j + k) := by
  rw [slotAt, slotAt, slotAt, Nat.mod_add_mod, Nat.add_assoc]

theorem slotAt_add_one (n b j : ℕ) : slotAt n b (j + 1) = (slotAt n b j + 1) % n := by
  rw [slotAt, slotAt, Nat.mod_add_mod, Nat.add_assoc]

/-- The number of ready positions among the first `e` from `b` on. -/
def readyCount (ready : ℕ → Prop) [DecidablePred ready] (n b e : ℕ) : ℕ :=
  Nat.count (fun k => ready (slotAt n b k)) e

/-- The ready positions among the first `e` from `b` on, in their order. -/
def met (ready : ℕ → Prop) [DecidablePred ready] (n b e : ℕ) : List ℕ :=
  ((List.range e).map (slotAt n b)).filter fun i => ready i

theorem readyCount_succ (e : ℕ) : readyCount ready n b (e + 1)
    = readyCount ready n b e + if ready (slotAt n b e) then 1 else 0 :=
  Nat.count_succ _ e

theorem readyCount_add (e f : ℕ) : readyCount ready n b (e + f)
    = readyCount ready n b e + readyCount ready n (slotAt n b e) f := by
  induction f with
  | zero => rfl
  | succ f ih =>
    rw [← Nat.add_assoc, readyCount_succ, readyCount_succ, ih, slotAt_slotAt, Nat.add_assoc]

theorem met_succ (e : ℕ) : met ready n b (e + 1)
    = met ready n b e ++ if ready (slotAt n b e) then [slotAt n b e] else [] := by
  rw [met, met, List.range_succ, List.map_append, List.filter_append, List.map_singleton,
    List.filter_singleton]
  by_cases h : ready (slotAt n b e) <;> simp [h]

theorem length_met (e : ℕ) : (met ready n b e).length = readyCount ready n b e := by
  induction e with
  | zero => rfl
  | succ e ih =>
    rw [met_succ, readyCount_succ, List.length_append, ih]
    split <;> rfl

theorem mem_met {i e : ℕ} : i ∈ met ready n b e ↔ (∃ j < e, slotAt n b j = i) ∧ ready i := by
  simp [met]

/-- The positions of the circle, in the order in which they are met from `b` on. -/
def circle (n b : ℕ) : List ℕ := (List.range n).map (slotAt n b)

theorem circle_nodup (n b : ℕ) : (circle n b).Nodup := by
  refine List.nodup_range.map_on fun j hj k hk he => ?_
  rw [List.mem_range] at hj hk
  rcases Nat.lt_trichotomy j k with hjk | hjk | hjk
  · exact absurd he (slotAt_ne_of_lt hjk hk)
  · exact hjk
  · exact absurd he.symm (slotAt_ne_of_lt hjk hj)

theorem take_circle {e : ℕ} (he : e ≤ n) (b : ℕ) :
    (circle n b).take e = (List.range e).map (slotAt n b) := by
  rw [circle, ← List.map_take, List.take_range, Nat.min_eq_left he]

theorem mem_circle (hn : 0 < n) (b : ℕ) {i : ℕ} : i ∈ circle n b ↔ i < n := by
  rw [circle, List.mem_map]
  constructor
  · rintro ⟨j, -, rfl⟩
    exact slotAt_lt hn b j
  · intro hi
    obtain ⟨j, hj, rfl⟩ := exists_slotAt b hi
    exact ⟨j, List.mem_range.mpr hj, rfl⟩

/-- The ready positions, in the order in which they are met from `b` on. -/
theorem met_eq_filter_circle (n b : ℕ) : met ready n b n = (circle n b).filter fun i => ready i :=
  rfl

/-- A batch that ends when it is full, or has gone around, met the first `m` of all that
are ready. -/
theorem met_eq_take {e : ℕ} (he : e ≤ n) (hle : readyCount ready n b e ≤ m)
    (hstop : e = n ∨ readyCount ready n b e = m) :
    met ready n b e = (met ready n b n).take m := by
  rcases hstop with rfl | hfull
  · rw [List.take_of_length_le (by rwa [length_met])]
  · have hprefix : met ready n b e <+: met ready n b n := by
      rw [met, ← take_circle he, met_eq_filter_circle]
      exact (List.take_prefix _ _).filter _
    rw [List.prefix_iff_eq_take, length_met, hfull] at hprefix
    exact hprefix

theorem length_filter_range (n : ℕ) :
    ((List.range n).filter fun i => ready i).length = Nat.count ready n := by
  induction n with
  | zero => rfl
  | succ n ih =>
    rw [List.range_succ, List.filter_append, List.length_append, ih, Nat.count_succ,
      List.filter_singleton]
    by_cases h : ready n <;> simp [h]

/-- Going once around meets every ready position, wherever it starts. -/
theorem readyCount_full (hn : 0 < n) (b : ℕ) : readyCount ready n b n = Nat.count ready n := by
  have hmet : (met ready n b n).Perm ((List.range n).filter fun i => ready i) := by
    refine List.Perm.filter _ ?_
    refine (List.perm_ext_iff_of_nodup (circle_nodup n b) List.nodup_range).mpr fun i => ?_
    rw [List.mem_range]
    exact mem_circle hn b
  rw [← length_met, hmet.length_eq, length_filter_range]

/-- Batches of capacity `m`, of which the first starts at `b`; each is given by
the number of positions it examines. -/
def Batches (ready : ℕ → Prop) [DecidablePred ready] (n m : ℕ) : ℕ → List ℕ → Prop
  | _, [] => True
  | b, e :: es =>
    e ≤ n ∧ (e = n ∨ readyCount ready n b e = m) ∧ Batches ready n m (slotAt n b e) es

/-- Some batch examines position `i`. -/
def Covers (n : ℕ) : ℕ → List ℕ → ℕ → Prop
  | _, [], _ => False
  | b, e :: es, i => (∃ j < e, slotAt n b j = i) ∨ Covers n (slotAt n b e) es i

/-- After the first `d` positions have been examined, batches with room for the
remaining ready ones meet each of those. -/
theorem Batches.covers_from {d j : ℕ} {es : List ℕ}
    (h : Batches ready n m (slotAt n b d) es)
    (hroom : readyCount ready n b n ≤ readyCount ready n b d + es.length * m) (hd : d ≤ j)
    (hj : j < n) (hready : ready (slotAt n b j)) :
    Covers n (slotAt n b d) es (slotAt n b j) := by
  induction es generalizing d with
  | nil =>
    have hlt : readyCount ready n b j < readyCount ready n b n :=
      Nat.count_strict_mono (p := fun k => ready (slotAt n b k)) hready hj
    have hle : readyCount ready n b d ≤ readyCount ready n b j := Nat.count_monotone _ hd
    rw [List.length_nil, Nat.zero_mul] at hroom
    omega
  | cons e es ih =>
    obtain ⟨-, hstop, hrest⟩ := h
    rcases Nat.lt_or_ge j (d + e) with hlt | hge
    · exact .inl ⟨j - d, by omega, by rw [slotAt_slotAt, Nat.add_sub_cancel' hd]⟩
    · -- This batch ended before going around, so it was full.
      have hfull : readyCount ready n (slotAt n b d) e = m := hstop.resolve_left (by omega)
      rw [slotAt_slotAt] at hrest
      refine .inr ?_
      rw [slotAt_slotAt]
      refine ih hrest ?_ hge
      rw [List.length_cons, Nat.succ_mul] at hroom
      rw [readyCount_add, hfull]
      omega

/-- No ready position is left out when the batches together have room for all
of them. -/
theorem Batches.covers {es : List ℕ} (h : Batches ready n m b es) (hb : b < n)
    (hroom : Nat.count ready n ≤ es.length * m) {i : ℕ} (hi : i < n) (hready : ready i) :
    Covers n b es i := by
  obtain ⟨j, hj, rfl⟩ := exists_slotAt b hi
  rw [← readyCount_full (by omega) b] at hroom
  have hcovers := covers_from (d := 0) (by rwa [slotAt_zero hb])
    (Nat.le_trans hroom (Nat.le_add_left _ _)) (Nat.zero_le j) hj hready
  rwa [slotAt_zero hb] at hcovers

end CircularScan
