/-
Draining queues into bounded room.

The queues `q k` of the keys `ks` are emptied one after the other, each from the
front, by a taker with room for `room` items.  A key may come up twice, and then
finds its queue as the first time left it.

* `length_drained_le`, `remaining_suffix`, `remaining_of_notMem` — what is taken
  fits, and what remains of a queue is its end, all of it if it was not asked;
* `add_drained` — nothing is lost and nothing doubled: what is taken and what
  remains together are what was queued, in any count of the items;
* `drained_image` — the keys and the items may be renamed;
* `forall_remaining_eq_nil_iff` — every queue asked is emptied if and only if the
  room is enough for all of them;
* `drained_perm` — what is taken is then exactly what was queued.
-/
import Mathlib.Algebra.BigOperators.Group.Finset.Basic
import Mathlib.Data.Finset.Dedup
import Mathlib.Logic.Function.Basic

variable {κ α : Type*} [DecidableEq κ]

/-- What the queues of `ks` give to a taker with room for `room` items. -/
def drained : ℕ → List κ → (κ → List α) → List α
  | _, [], _ => []
  | room, k :: ks, q =>
    (q k).take room ++ drained (room - (q k).length) ks (Function.update q k ((q k).drop room))

/-- What remains in the queues. -/
def remaining : ℕ → List κ → (κ → List α) → κ → List α
  | _, [], q => q
  | room, k :: ks, q =>
    remaining (room - (q k).length) ks (Function.update q k ((q k).drop room))

variable {q : κ → List α}

/-- Without room nothing is taken. -/
@[simp] theorem drained_zero (ks : List κ) (q : κ → List α) : drained 0 ks q = [] := by
  induction ks with
  | nil => rfl
  | cons k ks ih =>
    rw [drained, List.take_zero, List.drop_zero, Function.update_eq_self, Nat.zero_sub, ih]
    rfl

@[simp] theorem remaining_zero (ks : List κ) (q : κ → List α) : remaining 0 ks q = q := by
  induction ks with
  | nil => rfl
  | cons k ks ih =>
    rw [remaining, List.drop_zero, Function.update_eq_self, Nat.zero_sub, ih]

theorem length_drained_le (room : ℕ) (ks : List κ) (q : κ → List α) :
    (drained room ks q).length ≤ room := by
  induction ks generalizing room q with
  | nil => exact Nat.zero_le _
  | cons k ks ih =>
    have h := ih (room - (q k).length) (Function.update q k ((q k).drop room))
    rw [drained, List.length_append, List.length_take]
    omega

theorem remaining_suffix (room : ℕ) (ks : List κ) (q : κ → List α) (k : κ) :
    remaining room ks q k <:+ q k := by
  induction ks generalizing room q with
  | nil => exact List.suffix_refl _
  | cons k' ks ih =>
    refine (ih _ _).trans ?_
    rcases eq_or_ne k k' with rfl | hne
    · rw [Function.update_self]
      exact List.drop_suffix _ _
    · rw [Function.update_of_ne hne]

/-- A queue that is not asked stays. -/
theorem remaining_of_notMem {ks : List κ} {k : κ} (hk : k ∉ ks) (room : ℕ) (q : κ → List α) :
    remaining room ks q k = q k := by
  induction ks generalizing room q with
  | nil => rfl
  | cons k' ks ih =>
    rw [List.mem_cons, not_or] at hk
    rw [remaining, ih hk.2, Function.update_of_ne hk.1]

/-- Only the queues asked matter. -/
theorem drained_congr {ks : List κ} {q q' : κ → List α} (h : ∀ k ∈ ks, q' k = q k) (room : ℕ) :
    drained room ks q' = drained room ks q := by
  induction ks generalizing room q q' with
  | nil => rfl
  | cons k ks ih =>
    have hk := h k List.mem_cons_self
    rw [drained, drained, hk]
    refine congrArg _ (ih (fun k' hk' => ?_) _)
    rcases eq_or_ne k' k with rfl | hne
    · rw [Function.update_self, Function.update_self]
    · rw [Function.update_of_ne hne, Function.update_of_ne hne]
      exact h k' (List.mem_cons_of_mem _ hk')

/-- The same queues under other keys, with other items: the keys that matter are told
apart. -/
theorem drained_image {κ' β : Type*} [DecidableEq κ'] {f : κ' → κ} {g : α → β} {S : κ' → Prop}
    (hf : ∀ k k', S k → S k' → f k = f k' → k = k') {ks : List κ'} (hks : ∀ k ∈ ks, S k)
    {q : κ → List α} {q' : κ' → List β} (hq : ∀ k, S k → q' k = (q (f k)).map g) (room : ℕ) :
    drained room ks q' = (drained room (ks.map f) q).map g ∧
      ∀ k, S k → remaining room ks q' k = (remaining room (ks.map f) q (f k)).map g := by
  induction ks generalizing room q q' with
  | nil => exact ⟨rfl, hq⟩
  | cons k ks ih =>
    have hk := hks k List.mem_cons_self
    -- The rest of the first queue is the same under both keys.
    have hrest : ∀ k', S k' → Function.update q' k ((q' k).drop room) k'
        = (Function.update q (f k) ((q (f k)).drop room) (f k')).map g := fun k' hk' => by
      rcases eq_or_ne k' k with rfl | hne
      · rw [Function.update_self, Function.update_self, hq k' hk', List.map_drop]
      · rw [Function.update_of_ne hne,
          Function.update_of_ne fun he => hne (hf k' k hk' hk he), hq k' hk']
    obtain ⟨hdrained, hremaining⟩ := ih (fun k' hk' => hks k' (List.mem_cons_of_mem _ hk')) hrest
      (room - (q (f k)).length)
    have hlen : (q' k).length = (q (f k)).length := by rw [hq k hk, List.length_map]
    rw [List.map_cons, drained, drained, remaining, remaining, hlen, hdrained, List.map_append,
      hq k hk, List.map_take]
    rw [hq k hk] at hremaining
    exact ⟨rfl, hremaining⟩

section Sums

variable {M : Type*} [AddCommMonoid M] {f : List α → M}

/-- A sum over the queues when one of them is replaced. -/
theorem sum_update (f : List α → M) {s : Finset κ} {k : κ} (hk : k ∈ s) (q : κ → List α)
    (l : List α) :
    ∑ k' ∈ s, f (Function.update q k l k') = f l + ∑ k' ∈ s.erase k, f (q k') := by
  rw [← Finset.add_sum_erase s _ hk, Function.update_self]
  refine congrArg _ (Finset.sum_congr rfl fun k' hk' => ?_)
  rw [Function.update_of_ne (Finset.ne_of_mem_erase hk')]

theorem sum_update_add (f : List α → M) {s : Finset κ} {k : κ} (hk : k ∈ s) (q : κ → List α)
    (l : List α) :
    ∑ k' ∈ s, f (Function.update q k l k') + f (q k) = ∑ k' ∈ s, f (q k') + f l := by
  rw [sum_update f hk, ← Finset.add_sum_erase s (fun k' => f (q k')) hk, add_comm (f l),
    add_right_comm, add_comm (f (q k))]

/-- What is taken and what remains are together what was queued, in any count of the
items. -/
theorem add_drained (hnil : f [] = 0) (happ : ∀ l l', f (l ++ l') = f l + f l') {ks : List κ}
    {s : Finset κ} (hks : ∀ k ∈ ks, k ∈ s) (room : ℕ) (q : κ → List α) :
    f (drained room ks q) + ∑ k ∈ s, f (remaining room ks q k) = ∑ k ∈ s, f (q k) := by
  induction ks generalizing room q with
  | nil => rw [drained, hnil, zero_add, remaining]
  | cons k ks ih =>
    have hk := hks k List.mem_cons_self
    have ih := ih (fun k' hk' => hks k' (List.mem_cons_of_mem _ hk')) (room - (q k).length)
      (Function.update q k ((q k).drop room))
    rw [drained, remaining, happ, add_assoc, ih, sum_update f hk, ← add_assoc, ← happ,
      List.take_append_drop, Finset.add_sum_erase s (fun k' => f (q k')) hk]

end Sums

/-- The items with a property, in particular. -/
theorem countP_drained (p : α → Bool) {ks : List κ} {s : Finset κ} (hks : ∀ k ∈ ks, k ∈ s)
    (room : ℕ) (q : κ → List α) :
    (drained room ks q).countP p + ∑ k ∈ s, (remaining room ks q k).countP p
      = ∑ k ∈ s, (q k).countP p :=
  add_drained List.countP_nil (fun _ _ => List.countP_append) hks room q

/-- All the queues asked are emptied if and only if the room is enough for all of
them. -/
theorem forall_remaining_eq_nil_iff (room : ℕ) (ks : List κ) (q : κ → List α) :
    (∀ k ∈ ks, remaining room ks q k = []) ↔ ∑ k ∈ ks.toFinset, (q k).length ≤ room := by
  induction ks generalizing room q with
  | nil => simp
  | cons k ks ih =>
    have hk : k ∈ (k :: ks).toFinset := List.mem_toFinset.mpr List.mem_cons_self
    have hsum := Finset.add_sum_erase (k :: ks).toFinset (fun k' => (q k').length) hk
    rw [remaining]
    by_cases hroom : (q k).length ≤ room
    · rw [List.drop_of_length_le hroom]
      have ih := ih (room - (q k).length) (Function.update q k [])
      -- The queue of `k` is empty from here on.
      have hnil : remaining (room - (q k).length) ks (Function.update q k []) k = [] := by
        have hsuf := remaining_suffix (room - (q k).length) ks (Function.update q k []) k
        rw [Function.update_self] at hsuf
        exact List.suffix_nil.mp hsuf
      have hrest : ∑ k' ∈ ks.toFinset, (Function.update q k [] k').length
          = ∑ k' ∈ (k :: ks).toFinset.erase k, (q k').length := by
        rw [List.toFinset_cons, Finset.erase_insert_eq_erase, ← Finset.sum_erase ks.toFinset
          (f := fun k' => (Function.update q k [] k').length) (a := k)
          (by rw [Function.update_self]; rfl)]
        exact Finset.sum_congr rfl fun k' hk' => by
          rw [Function.update_of_ne (Finset.ne_of_mem_erase hk')]
      rw [List.forall_mem_cons, and_iff_right hnil, ih, hrest]
      omega
    · refine iff_of_false (fun h => ?_) (by omega)
      have hnil := h k List.mem_cons_self
      rw [show room - (q k).length = 0 by omega, remaining_zero, Function.update_self,
        List.drop_eq_nil_iff] at hnil
      exact hroom hnil

/-- With enough room exactly what was queued is taken. -/
theorem drained_perm [DecidableEq α] {room : ℕ} {ks : List κ}
    (h : ∑ k ∈ ks.toFinset, (q k).length ≤ room) :
    (drained room ks q).Perm (ks.dedup.flatMap q) := by
  rw [List.perm_iff_count]
  intro a
  have hmem : ∀ k ∈ ks, k ∈ ks.toFinset := fun k hk => List.mem_toFinset.mpr hk
  have hcount := countP_drained (fun b => b == a) hmem room q
  have hnil := (forall_remaining_eq_nil_iff room ks q).mpr h
  rw [Finset.sum_eq_zero fun k hk => by rw [hnil k (List.mem_toFinset.mp hk)]; rfl,
    Nat.add_zero] at hcount
  have hks : ks.dedup.toFinset = ks.toFinset := Finset.ext fun k => by
    rw [List.mem_toFinset, List.mem_toFinset, List.mem_dedup]
  rw [List.count_flatMap, ← List.sum_toFinset _ ks.nodup_dedup, hks]
  exact hcount
