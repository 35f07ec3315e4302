/-
Open addressing with linear probing and deletion marks.

A table of `cap` slots is a function `cell`; a slot is empty, carries a
deletion mark, or names an item.  An item whose key has home slot `h` may be
found only if no slot on the way from `h` to it is empty (`OnPath`), and that is
all a search needs:

* `probe_hit` — the search from the home slot finds an item that is on its path;
* `probe_miss` — a search without a matching item ends with the first slot that
  could be taken, provided some slot is not full;
* `OnPath.congr_set`, `OnPath.of_free` — what writing one slot does to the
  paths;
* `exists_not_full` — fewer items than slots leave a slot to take.
-/
import Mathlib.Data.List.Basic
import Mathlib.Data.Finset.Card
import Mathlib.Data.Nat.ModEq
import Mathlib.Tactic.Common

/-- The contents of one slot. -/
inductive Cell (ι : Type*)
  | empty
  | deleted
  | full (i : ι)
deriving DecidableEq, Repr

namespace OpenAddressing

variable {ι : Type*}

/-- The slot reached from `h` after `j` steps. -/
def slotAt (cap h j : ℕ) : ℕ := (h + j) % cap

theorem slotAt_lt {cap : ℕ} (hc : 0 < cap) (h j : ℕ) : slotAt cap h j < cap :=
  Nat.mod_lt _ hc

theorem slotAt_zero {cap h : ℕ} (hh : h < cap) : slotAt cap h 0 = h := by
  rw [slotAt, Nat.add_zero, Nat.mod_eq_of_lt hh]

theorem slotAt_succ (cap h j : ℕ) : slotAt cap ((h + 1) % cap) j = slotAt cap h (j + 1) := by
  rw [slotAt, slotAt, Nat.mod_add_mod]
  congr 1
  omega

theorem slotAt_ne_of_lt {cap h j k : ℕ} (hkj : k < j) (hj : j < cap) :
    slotAt cap h k ≠ slotAt cap h j := fun he => by
  have hmod : k % cap = j % cap := Nat.ModEq.add_left_cancel' h he
  rw [Nat.mod_eq_of_lt (Nat.lt_trans hkj hj), Nat.mod_eq_of_lt hj] at hmod
  omega

/-- Every slot is met within `cap` steps. -/
theorem exists_slotAt {cap s : ℕ} (h : ℕ) (hs : s < cap) : ∃ j < cap, slotAt cap h j = s := by
  refine ⟨(s + (cap - h % cap)) % cap, Nat.mod_lt _ (by omega), ?_⟩
  have hh : h % cap < cap := Nat.mod_lt _ (by omega)
  rw [slotAt, Nat.add_mod_mod, ← Nat.mod_add_mod,
    show h % cap + (s + (cap - h % cap)) = s + cap by omega, Nat.add_mod_right,
    Nat.mod_eq_of_lt hs]

/-! ### Searching -/

/-- How a search ends: at a matching item, or without one but possibly with a
slot that an insertion may take. -/
inductive Probe (ι : Type*)
  | hit (slot : ℕ) (i : ι)
  | miss (free : Option ℕ)
deriving DecidableEq, Repr

/-- Search at most `n` slots from `s` on; `free` is the first slot that may be
taken among those already visited. -/
def probe (cap : ℕ) (cell : ℕ → Cell ι) (hit : ι → Bool) : ℕ → ℕ → Option ℕ → Probe ι
  | 0, _, free => .miss free
  | n + 1, s, free =>
    match cell s with
    | .empty => .miss (free.or (some s))
    | .deleted => probe cap cell hit n ((s + 1) % cap) (free.or (some s))
    | .full i => if hit i then .hit s i else probe cap cell hit n ((s + 1) % cap) free

section Probe

variable {cap : ℕ} {cell : ℕ → Cell ι} {hit : ι → Bool}

/-- The search stops at the first matching item that no empty slot hides. -/
theorem probe_hit {n s j : ℕ} {i : ι} (free : Option ℕ) (hs : s < cap) (hj : j < n)
    (hi : cell (slotAt cap s j) = .full i) (hhit : hit i = true)
    (hne : ∀ k < j, cell (slotAt cap s k) ≠ .empty)
    (hmiss : ∀ k < j, ∀ i', cell (slotAt cap s k) = .full i' → hit i' = false) :
    probe cap cell hit n s free = .hit (slotAt cap s j) i := by
  induction j generalizing n s free with
  | zero =>
    obtain ⟨n, rfl⟩ : ∃ m, n = m + 1 := ⟨n - 1, by omega⟩
    rw [slotAt_zero hs] at hi ⊢
    rw [probe, hi]
    simp [hhit]
  | succ j ih =>
    obtain ⟨n, rfl⟩ : ∃ m, n = m + 1 := ⟨n - 1, by omega⟩
    have hne0 := hne 0 (by omega)
    have hmiss0 := hmiss 0 (by omega)
    rw [slotAt_zero hs] at hne0 hmiss0
    have hnext : ∀ free, probe cap cell hit n ((s + 1) % cap) free
        = .hit (slotAt cap s (j + 1)) i := fun free => by
      rw [← slotAt_succ] at hi ⊢
      refine ih free (Nat.mod_lt _ (by omega)) (by omega) hi (fun k hk => ?_) fun k hk => ?_
      · rw [slotAt_succ]
        exact hne (k + 1) (by omega)
      · rw [slotAt_succ]
        exact hmiss (k + 1) (by omega)
    cases hc : cell s with
    | empty => exact absurd hc hne0
    | deleted => rw [probe, hc]; exact hnext _
    | full i' => rw [probe, hc]; simpa [hmiss0 i' hc] using hnext free

/-- Without a matching item the search reports a slot that may be taken: the
one it was given, or else the first slot that is not full. -/
theorem probe_miss {n s : ℕ} (free : Option ℕ) (hs : s < cap)
    (hmiss : ∀ k < n, ∀ i, cell (slotAt cap s k) = .full i → hit i = false) :
    ∃ free', probe cap cell hit n s free = .miss free' ∧
      (∀ f, free = some f → free' = some f) ∧
      (free = none → (∃ j < n, ∀ i, cell (slotAt cap s j) ≠ .full i) →
        ∃ j < n, free' = some (slotAt cap s j) ∧ (∀ i, cell (slotAt cap s j) ≠ .full i) ∧
          ∀ k < j, ∃ i, cell (slotAt cap s k) = .full i) := by
  induction n generalizing s free with
  | zero =>
    exact ⟨free, rfl, fun _ h => h, fun _ ⟨j, hj, _⟩ => absurd hj (Nat.not_lt_zero j)⟩
  | succ n ih =>
    have hmiss' : ∀ k < n, ∀ i, cell (slotAt cap ((s + 1) % cap) k) = .full i →
        hit i = false := fun k hk => by
      rw [slotAt_succ]
      exact hmiss (k + 1) (by omega)
    have ih' := fun free => ih free (Nat.mod_lt _ (by omega)) hmiss'
    have hmiss0 := hmiss 0 (by omega)
    rw [slotAt_zero hs] at hmiss0
    -- A free slot met here is the one reported, whatever follows.
    have hhere : (∀ i, cell s ≠ .full i) → ∃ j < n + 1, some s = some (slotAt cap s j) ∧
        (∀ i, cell (slotAt cap s j) ≠ .full i) ∧
        ∀ k < j, ∃ i, cell (slotAt cap s k) = .full i :=
      fun hnf => ⟨0, by omega, by rw [slotAt_zero hs], by rwa [slotAt_zero hs],
        fun k hk => absurd hk (Nat.not_lt_zero k)⟩
    cases hc : cell s with
    | empty =>
      refine ⟨free.or (some s), by rw [probe, hc], fun f hf => by rw [hf]; rfl, fun hf _ => ?_⟩
      rw [hf, Option.none_or]
      exact hhere fun i => by simp [hc]
    | deleted =>
      obtain ⟨free', hp, hkeep, -⟩ := ih' (free.or (some s))
      refine ⟨free', by rw [probe, hc]; exact hp, fun f hf => hkeep f (by rw [hf]; rfl), ?_⟩
      intro hf _
      rw [hkeep s (by rw [hf]; rfl)]
      exact hhere fun i => by simp [hc]
    | full i' =>
      obtain ⟨free', hp, hkeep, hfree⟩ := ih' free
      refine ⟨free', by rw [probe, hc]; simpa [hmiss0 i' hc] using hp, hkeep, ?_⟩
      rintro hf ⟨j, hj, hnf⟩
      have hj0 : j ≠ 0 := by
        rintro rfl
        rw [slotAt_zero hs] at hnf
        exact hnf i' hc
      obtain ⟨j', hj', hfj, hnfj, hchain⟩ := hfree hf ⟨j - 1, by omega, fun i => by
        rw [slotAt_succ, Nat.sub_add_cancel (Nat.pos_of_ne_zero hj0)]
        exact hnf i⟩
      rw [slotAt_succ] at hfj hnfj
      refine ⟨j' + 1, by omega, hfj, hnfj, fun k hk => ?_⟩
      rcases Nat.eq_zero_or_pos k with rfl | hk0
      · rw [slotAt_zero hs]
        exact ⟨i', hc⟩
      · rw [← Nat.sub_add_cancel hk0, ← slotAt_succ]
        exact hchain (k - 1) (by omega)

end Probe

/-! ### Paths -/

/-- The item `i` with home slot `h` occupies a slot that a search from `h`
reaches before any empty slot. -/
def OnPath (cap : ℕ) (cell : ℕ → Cell ι) (h : ℕ) (i : ι) : Prop :=
  ∃ j < cap, cell (slotAt cap h j) = .full i ∧ ∀ k < j, cell (slotAt cap h k) ≠ .empty

section Path

variable {cap h s : ℕ} {cell cell' : ℕ → Cell ι} {i : ι}

/-- Writing anything but `empty` to a slot that the item does not occupy keeps
the item on its path. -/
theorem OnPath.congr_set (hp : OnPath cap cell h i) (hne : ∀ t < cap, t ≠ s → cell' t = cell t)
    (hs : cell' s ≠ .empty) (hi : cell s ≠ .full i) : OnPath cap cell' h i := by
  obtain ⟨j, hj, hfull, hchain⟩ := hp
  refine ⟨j, hj, ?_, fun k hk => ?_⟩
  · rw [hne _ (slotAt_lt (by omega) h j) fun he => hi (he ▸ hfull)]
    exact hfull
  · by_cases he : slotAt cap h k = s
    · rwa [he]
    · rw [hne _ (slotAt_lt (by omega) h k) he]
      exact hchain k hk

/-- Taking the slot that a failed search reports puts the new item on its
path. -/
theorem OnPath.of_free {j : ℕ} (hj : j < cap)
    (hchain : ∀ k < j, cell (slotAt cap h k) ≠ .empty)
    (hne : ∀ t < cap, t ≠ slotAt cap h j → cell' t = cell t)
    (hs : cell' (slotAt cap h j) = .full i) : OnPath cap cell' h i := by
  refine ⟨j, hj, hs, fun k hk => ?_⟩
  by_cases he : slotAt cap h k = slotAt cap h j
  · rw [he, hs]
    simp
  · rw [hne _ (slotAt_lt (by omega) h k) he]
    exact hchain k hk

end Path

/-- Fewer items than slots leave a slot that is not full, within `cap` steps of
any slot. -/
theorem exists_not_full [DecidableEq ι] {cap : ℕ} {cell : ℕ → Cell ι} {l : List ι} (h : ℕ)
    (hmem : ∀ s < cap, ∀ i, cell s = .full i → i ∈ l)
    (hinj : ∀ s < cap, ∀ s' < cap, ∀ i, cell s = .full i → cell s' = .full i → s = s')
    (hlen : l.length < cap) : ∃ j < cap, ∀ i, cell (slotAt cap h j) ≠ .full i := by
  by_contra hall
  push Not at hall
  have hfull : ∀ s < cap, ∃ i, cell s = .full i := fun s hs => by
    obtain ⟨j, hj, rfl⟩ := exists_slotAt h hs
    exact hall j hj
  choose f hf using hfull
  -- The items of the slots are pairwise different members of `l`.
  have hcard : (Finset.range cap).card ≤ l.toFinset.card := by
    refine Finset.card_le_card_of_injOn (fun s => if hs : s < cap then f s hs else f 0 (by omega))
      (fun s hs => ?_) fun s hs s' hs' he => ?_
    · have hs : s < cap := by simpa using hs
      simpa [hs] using hmem s hs _ (hf s hs)
    · have hs : s < cap := by simpa using hs
      have hs' : s' < cap := by simpa using hs'
      simp only [hs, hs', dif_pos] at he
      exact hinj s hs s' hs' _ (hf s hs) (he ▸ hf s' hs')
  rw [Finset.card_range] at hcard
  have := l.toFinset_card_le
  omega

end OpenAddressing
