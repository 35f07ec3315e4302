/-
Blocks of C memory.

A `Block α` is what `malloc`, `calloc` or `realloc` returned: a fixed number of
cells of type `α`, some of them not yet written.  Every access is checked, so a
program that leaves its allocation or uses a cell before writing it evaluates
to `none`:

* `read_put`, `write_of_lt`, `modify_of_read` — the effect of a write on later
  reads;
* `read_realloc`, `read_fill` — what `realloc` keeps and what `memset` sets;
* `Holds` — the first cells of a block hold a given list, with the lemmas for
  pushing (`Holds.push`), popping (`Holds.pop`) and resizing
  (`Holds.realloc`) the prefix;
* `IsStack` — a block used as a stack, with `IsStack.push` and `IsStack.pop`;
* `countCells` — the number of cells with a property, before and after a write.
-/
import Mathlib.Algebra.BigOperators.Group.Finset.Basic
import Mathlib.Data.List.Basic
import Mathlib.Data.List.Count
import Mathlib.Data.List.Perm.Basic
import Mathlib.Tactic.Common

/-- A block of C memory; a `none` cell has not been written since it was
allocated. -/
structure Block (α : Type*) where
  cells : List (Option α)
deriving DecidableEq, Repr

namespace Block

variable {α : Type*}

/-- The number of cells that were allocated. -/
def size (b : Block α) : ℕ := b.cells.length

/-- `malloc`: `n` cells with indeterminate contents. -/
def malloc (n : ℕ) : Block α := ⟨List.replicate n none⟩

/-- `calloc`: `n` cells, all holding the zero value `z` of their type. -/
def calloc (n : ℕ) (z : α) : Block α := ⟨List.replicate n (some z)⟩

/-- `realloc` to `n` cells: the common prefix is kept, the rest is new. -/
def realloc (b : Block α) (n : ℕ) : Block α :=
  ⟨b.cells.take n ++ List.replicate (n - b.size) none⟩

/-- The block of `n` cells of which the `i`th was set to `f i`. -/
def tabulate (n : ℕ) (f : ℕ → α) : Block α := ⟨(List.range n).map fun i => some (f i)⟩

/-- Reading cell `i`; `none` outside the block or in an unwritten cell. -/
def read (b : Block α) (i : ℕ) : Option α := b.cells[i]?.join

/-- The block with cell `i` set to `a`. -/
def put (b : Block α) (i : ℕ) (a : α) : Block α := ⟨b.cells.set i (some a)⟩

/-- Writing cell `i`; `none` outside the block. -/
def write (b : Block α) (i : ℕ) (a : α) : Option (Block α) :=
  if i < b.size then some (b.put i a) else none

/-- Updating cell `i` in place, as an assignment to one of its fields does. -/
def modify (b : Block α) (i : ℕ) (f : α → α) : Option (Block α) := do
  let a ← b.read i
  b.write i (f a)

/-- `memset`: the `n` cells from `start` on are set to `a`. -/
def fill (b : Block α) (start n : ℕ) (a : α) : Option (Block α) :=
  if start + n ≤ b.size then
    some ⟨b.cells.take start ++ List.replicate n (some a) ++ b.cells.drop (start + n)⟩
  else none

/-! ### Sizes -/

@[simp] theorem size_malloc (n : ℕ) : (malloc n : Block α).size = n := by
  simp [malloc, size]

@[simp] theorem size_calloc (n : ℕ) (z : α) : (calloc n z).size = n := by
  simp [calloc, size]

@[simp] theorem size_realloc (b : Block α) (n : ℕ) : (b.realloc n).size = n := by
  simp only [realloc, size, List.length_append, List.length_take, List.length_replicate]
  omega

@[simp] theorem size_put (b : Block α) (i : ℕ) (a : α) : (b.put i a).size = b.size := by
  simp [put, size]

@[simp] theorem size_tabulate (n : ℕ) (f : ℕ → α) : (tabulate n f).size = n := by
  simp [tabulate, size]

theorem write_eq_some {b b' : Block α} {i : ℕ} {a : α} (h : b.write i a = some b') :
    i < b.size ∧ b' = b.put i a := by
  rw [write] at h
  split at h
  · rename_i hi
    exact ⟨hi, (Option.some.inj h).symm⟩
  · exact absurd h (by simp)

theorem size_write {b b' : Block α} {i : ℕ} {a : α} (h : b.write i a = some b') :
    b'.size = b.size := by
  rw [(write_eq_some h).2, size_put]

theorem modify_eq_some {b b' : Block α} {i : ℕ} {f : α → α} (h : b.modify i f = some b') :
    ∃ a, b.read i = some a ∧ b' = b.put i (f a) := by
  rw [modify, Option.bind_eq_bind, Option.bind_eq_some_iff] at h
  obtain ⟨a, ha, h⟩ := h
  exact ⟨a, ha, (write_eq_some h).2⟩

/-! ### Reads -/

theorem lt_of_read {b : Block α} {i : ℕ} {a : α} (h : b.read i = some a) : i < b.size := by
  by_contra hi
  rw [read, List.getElem?_eq_none (by simpa [size] using hi)] at h
  exact absurd h (by simp)

theorem read_calloc {n i : ℕ} (z : α) (hi : i < n) : (calloc n z).read i = some z := by
  simp [calloc, read, hi]

theorem read_tabulate {n i : ℕ} (f : ℕ → α) (hi : i < n) :
    (tabulate n f).read i = some (f i) := by
  simp [tabulate, read, hi]

theorem read_put_self {b : Block α} {i : ℕ} (a : α) (hi : i < b.size) :
    (b.put i a).read i = some a := by
  rw [size] at hi
  simp [put, read, hi]

theorem read_put_of_ne {b : Block α} {i j : ℕ} (a : α) (hij : i ≠ j) :
    (b.put i a).read j = b.read j := by
  simp [put, read, List.getElem?_set_ne hij]

theorem read_put {b : Block α} {i : ℕ} (a : α) (hi : i < b.size) (j : ℕ) :
    (b.put i a).read j = if i = j then some a else b.read j := by
  by_cases hij : i = j
  · rw [if_pos hij, ← hij, read_put_self a hi]
  · rw [if_neg hij, read_put_of_ne a hij]

theorem put_put (b : Block α) (i : ℕ) (a a' : α) : (b.put i a).put i a' = b.put i a' := by
  simp [put]

/-- Setting a cell to what it holds changes nothing. -/
theorem put_of_read {b : Block α} {i : ℕ} {a : α} (h : b.read i = some a) : b.put i a = b := by
  have hi : i < b.cells.length := lt_of_read h
  rw [read, List.getElem?_eq_getElem hi, Option.join_some] at h
  rw [put, ← h, List.set_getElem_self]

theorem read_realloc {b : Block α} {n i : ℕ} (hi : i < n) :
    (b.realloc n).read i = b.read i := by
  rw [read, read, realloc]
  rcases Nat.lt_or_ge i b.size with hb | hb
  · rw [List.getElem?_append_left (by simp only [List.length_take, size] at hb ⊢; omega),
      List.getElem?_take_of_lt hi]
  · rw [size] at hb
    have hlen : (b.cells.take n).length ≤ i := by rw [List.length_take]; omega
    rw [List.getElem?_append_right hlen, List.getElem?_replicate, List.getElem?_eq_none hb]
    split <;> rfl

theorem read_fill {b b' : Block α} {start n : ℕ} {a : α} (h : b.fill start n a = some b')
    (i : ℕ) : b'.read i = if start ≤ i ∧ i < start + n then some a else b.read i := by
  rw [fill] at h
  split at h
  · rename_i hle
    rw [size] at hle
    rw [Option.some_inj] at h
    rw [← h, read, read]
    have hlen : (b.cells.take start).length = start := by simp; omega
    rcases Nat.lt_or_ge i start with hi | hi
    · rw [if_neg (by omega), List.append_assoc, List.getElem?_append_left (by omega),
        List.getElem?_take_of_lt hi]
    · rw [List.append_assoc, List.getElem?_append_right (by omega), hlen]
      rcases Nat.lt_or_ge i (start + n) with hn | hn
      · rw [if_pos ⟨hi, hn⟩, List.getElem?_append_left (by simp; omega),
          List.getElem?_replicate, if_pos (by omega)]
        rfl
      · rw [if_neg (by omega), List.getElem?_append_right (by simp; omega),
          List.length_replicate, List.getElem?_drop]
        congr 2
        omega
  · exact absurd h (by simp)

/-! ### Writes -/

theorem write_of_lt {b : Block α} {i : ℕ} (a : α) (hi : i < b.size) :
    b.write i a = some (b.put i a) := by
  rw [write, if_pos hi]

theorem modify_of_read {b : Block α} {i : ℕ} {a : α} (f : α → α) (h : b.read i = some a) :
    b.modify i f = some (b.put i (f a)) := by
  rw [modify, h]
  exact write_of_lt (f a) (lt_of_read h)

theorem fill_isSome {b : Block α} {start n : ℕ} (a : α) (h : start + n ≤ b.size) :
    ∃ b', b.fill start n a = some b' ∧ b'.size = b.size := by
  refine ⟨_, if_pos h, ?_⟩
  rw [size] at h
  simp only [size, List.length_append, List.length_take, List.length_replicate,
    List.length_drop]
  omega

/-! ### Prefixes -/

/-- The first `l.length` cells of `b` hold the elements of `l`. -/
def Holds (b : Block α) (l : List α) : Prop := b.cells.take l.length = l.map some

@[simp] theorem holds_nil (b : Block α) : b.Holds [] := by simp [Holds]

theorem Holds.length_le {b : Block α} {l : List α} (h : b.Holds l) : l.length ≤ b.size := by
  have := congrArg List.length h
  rw [List.length_take, List.length_map] at this
  rw [size]
  omega

theorem Holds.read {b : Block α} {l : List α} (h : b.Holds l) {i : ℕ} (hi : i < l.length) :
    b.read i = some l[i] := by
  have := congrArg (·[i]?) h
  simp only [List.getElem?_take_of_lt hi, List.getElem?_map, List.getElem?_eq_getElem hi,
    Option.map_some] at this
  rw [Block.read, this]
  rfl

theorem holds_iff {b : Block α} {l : List α} :
    b.Holds l ↔ ∀ i, (hi : i < l.length) → b.read i = some l[i] := by
  refine ⟨fun h i hi => h.read hi, fun h => List.ext_getElem? fun i => ?_⟩
  rcases Nat.lt_or_ge i l.length with hi | hi
  · have hr := h i hi
    have hlt : i < b.cells.length := lt_of_read hr
    rw [Block.read, List.getElem?_eq_getElem hlt] at hr
    rw [List.getElem?_take_of_lt hi, List.getElem?_map, List.getElem?_eq_getElem hi,
      List.getElem?_eq_getElem hlt, Option.map_some]
    exact congrArg some hr
  · rw [List.getElem?_eq_none (by simp; omega), List.getElem?_eq_none (by simpa using hi)]

theorem Holds.unique {b : Block α} {l l' : List α} (h : b.Holds l) (h' : b.Holds l')
    (hlen : l.length = l'.length) : l = l' :=
  List.ext_getElem hlen fun _ hi hi' => Option.some.inj ((h.read hi).symm.trans (h'.read hi'))

theorem Holds.congr {b b' : Block α} {l : List α} (h : b.Holds l)
    (heq : ∀ i < l.length, b'.read i = b.read i) : b'.Holds l :=
  holds_iff.mpr fun i hi => by rw [heq i hi, h.read hi]

theorem Holds.push {b : Block α} {l : List α} (h : b.Holds l) (a : α)
    (hlt : l.length < b.size) : (b.put l.length a).Holds (l ++ [a]) := by
  refine holds_iff.mpr fun i hi => ?_
  rw [List.length_append, List.length_singleton] at hi
  rw [read_put a hlt]
  by_cases hil : l.length = i
  · subst hil
    simp
  · rw [if_neg hil, h.read (by omega), List.getElem_append_left]

theorem Holds.pop {b : Block α} {l : List α} {a : α} (h : b.Holds (l ++ [a])) : b.Holds l :=
  holds_iff.mpr fun i hi => by
    rw [h.read (by simp; omega), List.getElem_append_left]

theorem Holds.read_last {b : Block α} {l : List α} {a : α} (h : b.Holds (l ++ [a])) :
    b.read l.length = some a := by
  rw [h.read (by simp)]
  simp

theorem Holds.realloc {b : Block α} {l : List α} {n : ℕ} (h : b.Holds l)
    (hn : l.length ≤ n) : (b.realloc n).Holds l :=
  h.congr fun _ hi => read_realloc (Nat.lt_of_lt_of_le hi hn)

theorem Holds.put {b : Block α} {l : List α} (h : b.Holds l) {i : ℕ} (a : α)
    (hi : i < l.length) : (b.put i a).Holds (l.set i a) := by
  refine holds_iff.mpr fun j hj => ?_
  rw [List.length_set] at hj
  rw [read_put a (Nat.lt_of_lt_of_le hi h.length_le), List.getElem_set]
  split
  · rfl
  · exact h.read hj

theorem Holds.dropLast {b : Block α} {l : List α} (h : b.Holds l) : b.Holds l.dropLast :=
  holds_iff.mpr fun i hi => by
    rw [List.length_dropLast] at hi
    rw [h.read (by omega), List.getElem_dropLast]

/-- Removing element `i` by moving the last one into its place. -/
theorem Holds.swapRemove {b : Block α} {l : List α} {a : α} (h : b.Holds (l ++ [a])) {i : ℕ}
    (hi : i < (l ++ [a]).length) :
    ∃ l', (b.put i a).Holds l' ∧ l'.length = l.length ∧
      ((l ++ [a])[i] :: l').Perm (l ++ [a]) := by
  refine ⟨_, (h.put a hi).dropLast, by simp, ?_⟩
  rw [List.length_append, List.length_singleton] at hi
  rcases Nat.lt_or_ge i l.length with hlt | hge
  · -- What is left is `l` with element `i` replaced by `a`.
    have hset : ((l ++ [a]).set i a).dropLast = l.set i a := by
      rw [List.set_append_left _ _ hlt, List.dropLast_concat]
    have hperm : (l[i] :: l.eraseIdx i).Perm l := List.getElem_cons_eraseIdx_perm hlt
    rw [List.getElem_append_left hlt, hset]
    exact ((List.set_perm_cons_eraseIdx hlt a).cons _).trans
      ((List.Perm.swap _ _ _).trans ((hperm.cons a).trans (List.perm_append_singleton a l).symm))
  · obtain rfl : i = l.length := by omega
    have hset : ((l ++ [a]).set l.length a).dropLast = l := by simp
    rw [List.getElem_concat_length rfl, hset]
    exact (List.perm_append_singleton a l).symm

/-! ### Stacks -/

/-- The block, of `n` cells, is a stack with `top` elements on it: those of
`l`. -/
structure IsStack (b : Block α) (top n : ℕ) (l : List α) : Prop where
  size_eq : b.size = n
  holds : b.Holds l
  length_eq : l.length = top

namespace IsStack

variable {b : Block α} {top n : ℕ} {l : List α}

theorem tabulate (n : ℕ) (f : ℕ → α) :
    (Block.tabulate n f).IsStack n n ((List.range n).map f) where
  size_eq := size_tabulate n f
  holds := holds_iff.mpr fun i hi => by
    rw [List.length_map, List.length_range] at hi
    rw [List.getElem_map, List.getElem_range]
    exact read_tabulate f hi
  length_eq := by rw [List.length_map, List.length_range]

theorem top_le (h : b.IsStack top n l) : top ≤ n := by
  rw [← h.length_eq, ← h.size_eq]
  exact h.holds.length_le

theorem push (h : b.IsStack top n l) (a : α) (hlt : top < n) :
    (b.put top a).IsStack (top + 1) n (l ++ [a]) where
  size_eq := by rw [size_put, h.size_eq]
  holds := h.length_eq ▸ h.holds.push a (by rw [h.size_eq, h.length_eq]; exact hlt)
  length_eq := by rw [List.length_append, h.length_eq, List.length_singleton]

/-- A stack that is not empty has a last element, which may be popped. -/
theorem pop (h : b.IsStack top n l) (hne : top ≠ 0) :
    ∃ l' a, l = l' ++ [a] ∧ b.read (top - 1) = some a ∧ b.IsStack (top - 1) n l' := by
  have hlen := h.length_eq
  rcases List.eq_nil_or_concat l with rfl | ⟨l', a, rfl⟩
  · exact absurd hlen.symm hne
  · rw [List.concat_eq_append] at h hlen ⊢
    rw [List.length_append, List.length_singleton] at hlen
    have htop : top - 1 = l'.length := by omega
    exact ⟨l', a, rfl, by rw [htop]; exact h.holds.read_last, h.size_eq, h.holds.pop, htop.symm⟩

/-- Element `i` is removed by moving the last one into its place. -/
theorem swapRemove (h : b.IsStack top n l) {i : ℕ} (hi : i < l.length) :
    ∃ l' a, b.read (top - 1) = some a ∧ (b.put i a).IsStack (top - 1) n l' ∧
      (l[i] :: l').Perm l := by
  obtain ⟨l₀, a, rfl, hread, hpop⟩ := h.pop (by rw [← h.length_eq]; omega)
  obtain ⟨l', hholds, hlen, hperm⟩ := h.holds.swapRemove hi
  exact ⟨l', a, hread, ⟨by rw [size_put, h.size_eq], hholds, hlen.trans hpop.length_eq⟩, hperm⟩

end IsStack

/-- Two stacks hold the same elements. -/
def SameStack (b b' : Block α) (top top' : ℕ) : Prop :=
  top' = top ∧ ∀ i < top, b'.read i = b.read i

theorem IsStack.sameStack_iff {b b' : Block α} {top top' n : ℕ} {l l' : List α}
    (h : b.IsStack top n l) (h' : b'.IsStack top' n l') : b.SameStack b' top top' ↔ l' = l := by
  constructor
  · rintro ⟨htop, hread⟩
    have hlen : l'.length = l.length := by rw [h'.length_eq, h.length_eq, htop]
    refine (h.holds.congr fun i hi => hread i (h.length_eq ▸ hi)).unique h'.holds hlen.symm |>.symm
  · rintro rfl
    refine ⟨h'.length_eq.symm.trans h.length_eq, fun i hi => ?_⟩
    rw [← h.length_eq] at hi
    rw [h'.holds.read hi, h.holds.read hi]

/-! ### Counting cells -/

/-- The number of cells whose contents satisfy `p`, `none` standing for a cell that
was never written. -/
def countCells (b : Block α) (p : Option α → Bool) : ℕ := b.cells.countP p

theorem countCells_put {b : Block α} {i : ℕ} (p : Option α → Bool) (a : α) (hi : i < b.size) :
    (b.put i a).countCells p + (if p (b.read i) then 1 else 0)
      = b.countCells p + if p (some a) then 1 else 0 := by
  have hi : i < b.cells.length := hi
  have hread : b.read i = b.cells[i] := by
    rw [read, List.getElem?_eq_getElem hi]
    rfl
  have hpos : p b.cells[i] = true → 0 < b.cells.countP p := fun hp =>
    List.countP_pos_iff.mpr ⟨_, List.getElem_mem hi, hp⟩
  rw [countCells, countCells, put, List.countP_set hi, hread]
  split
  · rename_i hp
    have := hpos hp
    omega
  · omega

theorem countCells_calloc (n : ℕ) (z : α) (p : Option α → Bool) :
    (calloc n z).countCells p = if p (some z) then n else 0 :=
  List.countP_replicate

/-- The count, cell by cell. -/
theorem countCells_eq_sum (b : Block α) (p : Option α → Bool) :
    b.countCells p = ∑ i ∈ Finset.range b.size, if p (b.read i) then 1 else 0 := by
  obtain ⟨cells⟩ := b
  induction cells using List.reverseRecOn with
  | nil => rfl
  | append_singleton cells c ih =>
    have hlast : (⟨cells ++ [c]⟩ : Block α).read cells.length = c := by
      rw [read, List.getElem?_concat_length, Option.join_some]
    have hinit : ∀ i ∈ Finset.range cells.length,
        (⟨cells ++ [c]⟩ : Block α).read i = (⟨cells⟩ : Block α).read i := fun i hi => by
      rw [read, read, List.getElem?_append_left (Finset.mem_range.mp hi)]
    rw [countCells, size] at ih ⊢
    rw [List.countP_append, ih, List.length_append, List.length_singleton,
      Finset.sum_range_succ, hlast, List.countP_singleton]
    congr 1
    exact Finset.sum_congr rfl fun i hi => by rw [hinit i hi]

theorem countCells_mono {b : Block α} {p q : Option α → Bool} (h : ∀ c, p c → q c) :
    b.countCells p ≤ b.countCells q :=
  List.countP_mono_left fun c _ hc => h c hc

/-- Fewer cells satisfy `p` than there are if one does not. -/
theorem countCells_lt_of_read {b : Block α} {p : Option α → Bool} {i : ℕ} {a : α}
    (h : b.read i = some a) (hp : p (some a) = false) : b.countCells p < b.size := by
  have hi : i < b.cells.length := lt_of_read h
  rw [read, List.getElem?_eq_getElem hi, Option.join_some] at h
  exact List.countP_lt_length_iff.mpr ⟨_, List.getElem_mem hi, by rw [h]; exact hp⟩

/-- A cell does not satisfy `p` if fewer do than there are. -/
theorem exists_read_of_countCells_lt {b : Block α} {p : Option α → Bool}
    (h : b.countCells p < b.size) : ∃ i < b.size, p (b.read i) = false := by
  obtain ⟨c, hc, hp⟩ := List.countP_lt_length_iff.mp h
  obtain ⟨i, hi, rfl⟩ := List.getElem_of_mem hc
  refine ⟨i, hi, ?_⟩
  rw [read, List.getElem?_eq_getElem hi]
  exact hp

end Block
