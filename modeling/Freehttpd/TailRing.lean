/-
Rings that are filled behind a 16-bit tail and published by moving it.

A `TailRing α` has `2 ^ k` slots.  The producer writes entries at growing offsets
behind the tail (`add`), where the consumer does not look yet, and hands them over
all at once (`advance`).  The tail counts modulo `2 ^ 16`, a slot is its low `k`
bits:

* `Staged` — the entries written since the tail was moved last, with
  `Staged.add`;
* `Staged.published` — moving the tail by their number hands over exactly them,
  in order, through any wrap of the tail;
* `add_advance` — an entry goes to the same slot whether the tail moves before or
  after.
-/
import Freehttpd.Block
import Mathlib.Data.Nat.Bitwise
import Mathlib.Data.Nat.ModEq
import Mathlib.Tactic.Common

/-- The slots, and the number of entries handed over, modulo `2 ^ 16`. -/
structure TailRing (α : Type*) where
  slots : Block α
  tail : ℕ
deriving DecidableEq, Repr

namespace TailRing

variable {α : Type*}

/-- Write `a` at offset `off` behind the tail. -/
def add (r : TailRing α) (a : α) (mask off : ℕ) : Option (TailRing α) := do
  let slots ← r.slots.write ((r.tail + off) &&& mask) a
  some { r with slots := slots }

/-- Move the tail. -/
def advance (r : TailRing α) (count : ℕ) : TailRing α :=
  { r with tail := (r.tail + count) % 2 ^ 16 }

/-- What the consumer of `r` finds when the ring has become `r'`: the slots from
the old tail to the new one. -/
def published (r r' : TailRing α) (mask : ℕ) : List (Option α) :=
  (List.range ((r'.tail + 2 ^ 16 - r.tail) % 2 ^ 16)).map fun i =>
    r'.slots.read ((r.tail + i) &&& mask)

/-- A ring of `2 ^ k` slots with a tail in range. -/
structure Wf (r : TailRing α) (k : ℕ) : Prop where
  size_eq : r.slots.size = 2 ^ k
  tail_lt : r.tail < 2 ^ 16

theorem and_mask (n k : ℕ) : n &&& (2 ^ k - 1) = n % 2 ^ k := Nat.and_two_pow_sub_one_eq_mod n k

/-- Two offsets below the size name two slots. -/
theorem slot_inj {t i j k : ℕ} (hi : i < 2 ^ k) (hj : j < 2 ^ k)
    (h : (t + i) &&& (2 ^ k - 1) = (t + j) &&& (2 ^ k - 1)) : i = j := by
  rw [and_mask, and_mask] at h
  have hmod : i % 2 ^ k = j % 2 ^ k := Nat.ModEq.add_left_cancel (Nat.ModEq.refl t) h
  rwa [Nat.mod_eq_of_lt hi, Nat.mod_eq_of_lt hj] at hmod

/-- `r'` is `r` with the entries `as` written behind the tail. -/
structure Staged (r r' : TailRing α) (k : ℕ) (as : List α) : Prop where
  tail_eq : r'.tail = r.tail
  size_eq : r'.slots.size = 2 ^ k
  length_le : as.length ≤ 2 ^ k
  read_eq : ∀ i, (hi : i < as.length) →
    r'.slots.read ((r.tail + i) &&& (2 ^ k - 1)) = some as[i]

namespace Staged

variable {r r' : TailRing α} {k : ℕ} {as : List α}

theorem nil (hr : r.Wf k) : Staged r r k [] where
  tail_eq := rfl
  size_eq := hr.size_eq
  length_le := Nat.zero_le _
  read_eq i hi := absurd hi (Nat.not_lt_zero i)

/-- The next entry goes to the slot behind those of `as`. -/
theorem add (h : Staged r r' k as) (a : α) (hlt : as.length < 2 ^ k) :
    ∃ r'', r'.add a (2 ^ k - 1) as.length = some r'' ∧ Staged r r'' k (as ++ [a]) := by
  have hslot : (r'.tail + as.length) &&& (2 ^ k - 1) < r'.slots.size := by
    rw [h.size_eq, and_mask]
    exact Nat.mod_lt _ (Nat.two_pow_pos k)
  refine ⟨{ r' with slots := r'.slots.put ((r'.tail + as.length) &&& (2 ^ k - 1)) a },
    by rw [TailRing.add, Block.write_of_lt a hslot]; rfl, h.tail_eq, ?_, ?_, ?_⟩
  · show (r'.slots.put _ a).size = 2 ^ k
    rw [Block.size_put, h.size_eq]
  · rw [List.length_append, List.length_singleton]
    omega
  · intro i hi
    rw [List.length_append, List.length_singleton] at hi
    show (r'.slots.put _ a).read _ = _
    rw [h.tail_eq] at hslot ⊢
    rw [Block.read_put a hslot]
    rcases Nat.lt_or_ge i as.length with hlt' | hge
    · -- An older entry is in another slot.
      have hne : ¬ (r.tail + as.length) &&& (2 ^ k - 1) = (r.tail + i) &&& (2 ^ k - 1) :=
        fun he => hlt'.ne (slot_inj hlt (hlt'.trans hlt) he).symm
      rw [if_neg hne, h.read_eq i hlt', List.getElem_append_left]
    · obtain rfl : i = as.length := by omega
      rw [if_pos rfl, List.getElem_concat_length rfl]

/-- Moving the tail by the number of the staged entries publishes them. -/
theorem published (h : Staged r r' k as) (hr : r.Wf k) (hlt : as.length < 2 ^ 16) :
    r.published (r'.advance as.length) (2 ^ k - 1) = as.map some := by
  have hcount : ((r'.advance as.length).tail + 2 ^ 16 - r.tail) % 2 ^ 16 = as.length := by
    have := hr.tail_lt
    rw [advance, h.tail_eq]
    dsimp only
    omega
  rw [TailRing.published, hcount]
  refine List.ext_getElem (by simp) fun i hi _ => ?_
  rw [List.length_map, List.length_range] at hi
  rw [List.getElem_map, List.getElem_range, List.getElem_map]
  exact h.read_eq i hi

theorem advance_wf (h : Staged r r' k as) : (r'.advance as.length).Wf k :=
  ⟨h.size_eq, Nat.mod_lt _ (by decide)⟩

end Staged

/-! ### The tail moved in several steps -/

theorem advance_zero {r : TailRing α} (h : r.tail < 2 ^ 16) : r.advance 0 = r := by
  rw [advance, Nat.add_zero, Nat.mod_eq_of_lt h]

theorem advance_advance (r : TailRing α) (m n : ℕ) :
    (r.advance m).advance n = r.advance (m + n) := by
  simp only [advance, Nat.mod_add_mod, Nat.add_assoc]

/-- A mask of at most 16 bits does not see the wrap of the tail. -/
theorem mod_and_of_lt {mask : ℕ} (hmask : mask < 2 ^ 16) (n : ℕ) :
    n % 2 ^ 16 &&& mask = n &&& mask := by
  rw [← and_mask, Nat.and_assoc, Nat.and_comm (2 ^ 16 - 1), and_mask, Nat.mod_eq_of_lt hmask]

/-- Writing behind a tail that has moved is writing further behind one that has not. -/
theorem add_advance (r : TailRing α) (a : α) {mask : ℕ} (hmask : mask < 2 ^ 16) (m off : ℕ) :
    (r.advance m).add a mask off = (r.add a mask (m + off)).map fun r => r.advance m := by
  have hslot : (r.advance m).tail + off &&& mask = r.tail + (m + off) &&& mask := by
    rw [← mod_and_of_lt hmask, ← mod_and_of_lt hmask (r.tail + (m + off))]
    simp only [advance, Nat.mod_add_mod, Nat.add_assoc]
  rw [add, add, hslot]
  cases hw : r.slots.write (r.tail + (m + off) &&& mask) a with
  | none => simp only [advance, hw, Option.bind_eq_bind, Option.bind_none, Option.map_none]
  | some slots => simp only [advance, hw, Option.bind_eq_bind, Option.bind_some, Option.map_some]

/-- Nothing is published where the tail stands still. -/
theorem published_self {r r' : TailRing α} (h : r'.tail = r.tail) (mask : ℕ) :
    r.published r' mask = [] := by
  have hcount : (r'.tail + 2 ^ 16 - r.tail) % 2 ^ 16 = 0 := by omega
  rw [published, hcount]
  rfl

end TailRing
