/-
Doubly linked lists threaded through an index memory.

`Linked next prev p l n` says that the cells of `l` are chained in order, with
`p` before the first and `n` behind the last; `DList` is the whole list with
its head and tail words, `nil` being the end marker:

* `DList.pushBack` — linking a new cell behind the tail;
* `DList.unlink` — the neighbours of a cell are joined, in both directions;
* `DList.reverse` — exchanging the two link fields reverses the list;
* `DList.walk_eq` — following `next` from the head ends and visits exactly `l`.

The memory before and after an update is only compared at the cells of the
list, so a memory with unused or stale cells is covered.
-/
import Mathlib.Data.List.Basic
import Mathlib.Data.List.Nodup
import Mathlib.Tactic.Common

variable {ι : Type*}

theorem List.getLastD_mem_of_ne_nil {l : List ι} (h : l ≠ []) (d : ι) : l.getLastD d ∈ l := by
  rw [List.getLastD_eq_getLast?, List.getLast?_eq_some_getLast h]
  exact List.getLast_mem h

/-- A segment of a doubly linked list. -/
def Linked (next prev : ι → Option ι) : ι → List ι → ι → Prop
  | _, [], _ => True
  | p, a :: l, n => prev a = some p ∧ next a = some (l.headD n) ∧ Linked next prev a l n

namespace Linked

variable {next prev next' prev' : ι → Option ι} {p n m : ι} {l l₁ l₂ : List ι}

theorem append_iff : Linked next prev p (l₁ ++ l₂) n ↔
    Linked next prev p l₁ (l₂.headD n) ∧ Linked next prev (l₁.getLastD p) l₂ n := by
  induction l₁ generalizing p with
  | nil => simp [Linked]
  | cons a l ih =>
    have hlast : (a :: l).getLastD p = l.getLastD a := by cases l <;> rfl
    have hhead : (l ++ l₂).headD n = l.headD (l₂.headD n) := by cases l <;> rfl
    rw [List.cons_append, Linked, Linked, ih, hlast, hhead, and_assoc, and_assoc]

theorem congr (h : Linked next prev p l n) (hnext : ∀ i ∈ l, next' i = next i)
    (hprev : ∀ i ∈ l, prev' i = prev i) : Linked next' prev' p l n := by
  induction l generalizing p with
  | nil => trivial
  | cons a l ih =>
    obtain ⟨hp, hn, hl⟩ := h
    refine ⟨by rw [hprev a (by simp), hp], by rw [hnext a (by simp), hn], ?_⟩
    exact ih hl (fun i hi => hnext i (List.mem_cons_of_mem a hi))
      fun i hi => hprev i (List.mem_cons_of_mem a hi)

/-- Redirecting the last forward link of a segment. -/
theorem set_next (h : Linked next prev p l n) (hnd : l.Nodup)
    (hnext : ∀ i ∈ l, i ≠ l.getLastD p → next' i = next i)
    (hlast : l ≠ [] → next' (l.getLastD p) = some m)
    (hprev : ∀ i ∈ l, prev' i = prev i) : Linked next' prev' p l m := by
  induction l generalizing p with
  | nil => trivial
  | cons a l ih =>
    obtain ⟨hp, hn, hl⟩ := h
    obtain ⟨ha, hnd⟩ := List.nodup_cons.mp hnd
    have hlastD : (a :: l).getLastD p = l.getLastD a := by cases l <;> rfl
    rw [hlastD] at hnext hlast
    refine ⟨by rw [hprev a (by simp), hp], ?_, ?_⟩
    · cases l with
      | nil => exact hlast (by simp)
      | cons b l =>
        have hne : a ≠ (b :: l).getLastD a := by
          intro he
          have hmem := List.getLastD_mem_of_ne_nil (List.cons_ne_nil b l) a
          rw [← he] at hmem
          exact ha hmem
        rw [hnext a (by simp) hne, hn]
        rfl
    · exact ih hl hnd (fun i hi => hnext i (List.mem_cons_of_mem a hi))
        (fun _ => hlast (List.cons_ne_nil a l)) fun i hi => hprev i (List.mem_cons_of_mem a hi)

/-- Redirecting the first backward link of a segment. -/
theorem set_prev (h : Linked next prev p l n) (hnd : l.Nodup)
    (hprev : ∀ i ∈ l, i ≠ l.headD n → prev' i = prev i)
    (hhead : l ≠ [] → prev' (l.headD n) = some m)
    (hnext : ∀ i ∈ l, next' i = next i) : Linked next' prev' m l n := by
  cases l with
  | nil => trivial
  | cons a l =>
    obtain ⟨-, hn, hl⟩ := h
    obtain ⟨ha, hnd⟩ := List.nodup_cons.mp hnd
    refine ⟨hhead (List.cons_ne_nil a l), by rw [hnext a (by simp), hn], ?_⟩
    refine hl.congr (fun i hi => hnext i (List.mem_cons_of_mem a hi)) fun i hi => ?_
    refine hprev i (List.mem_cons_of_mem a hi) fun he => ha ?_
    rw [List.headD_cons] at he
    exact he ▸ hi

/-- Exchanging the link fields reverses a segment. -/
theorem reverse (h : Linked next prev p l n) : Linked prev next n l.reverse p := by
  induction l generalizing p with
  | nil => trivial
  | cons a l ih =>
    obtain ⟨hp, hn, hl⟩ := h
    rw [List.reverse_cons, append_iff]
    refine ⟨ih hl, ?_, by simpa using hp, trivial⟩
    rw [hn]
    cases l <;> simp

end Linked

/-- A doubly linked list with its head and tail words. -/
structure DList (next prev : ι → Option ι) (nil head tail : ι) (l : List ι) : Prop where
  linked : Linked next prev nil l nil
  head_eq : head = l.headD nil
  tail_eq : tail = l.getLastD nil
  nil_notMem : nil ∉ l
  nodup : l.Nodup

namespace DList

variable {next prev next' prev' : ι → Option ι} {nil head tail x : ι} {l l₁ l₂ : List ι}

theorem empty (next prev : ι → Option ι) (nil : ι) : DList next prev nil nil nil [] :=
  ⟨trivial, rfl, rfl, by simp, by simp⟩

theorem tail_eq_nil_iff (h : DList next prev nil head tail l) : tail = nil ↔ l = [] := by
  rw [h.tail_eq]
  refine ⟨fun he => ?_, fun he => by rw [he]; rfl⟩
  by_contra hl
  have hmem := List.getLastD_mem_of_ne_nil hl nil
  rw [he] at hmem
  exact h.nil_notMem hmem

theorem tail_mem (h : DList next prev nil head tail l) (hl : l ≠ []) : tail ∈ l := by
  rw [h.tail_eq]
  exact List.getLastD_mem_of_ne_nil hl nil

/-- Every cell of the list has both links. -/
theorem isSome_links (h : DList next prev nil head tail (l₁ ++ x :: l₂)) :
    next x = some (l₂.headD nil) ∧ prev x = some (l₁.getLastD nil) := by
  obtain ⟨-, hp, hn, -⟩ := Linked.append_iff.mp h.linked
  exact ⟨hn, hp⟩

theorem reverse (h : DList next prev nil head tail l) :
    DList prev next nil tail head l.reverse where
  linked := h.linked.reverse
  head_eq := by rw [h.tail_eq]; simp
  tail_eq := by rw [h.head_eq]; simp
  nil_notMem := by simpa using h.nil_notMem
  nodup := List.nodup_reverse.mpr h.nodup

theorem congr (h : DList next prev nil head tail l) (hnext : ∀ i ∈ l, next' i = next i)
    (hprev : ∀ i ∈ l, prev' i = prev i) : DList next' prev' nil head tail l where
  linked := h.linked.congr hnext hprev
  head_eq := h.head_eq
  tail_eq := h.tail_eq
  nil_notMem := h.nil_notMem
  nodup := h.nodup

/-- Linking a new cell behind the tail. -/
theorem pushBack [DecidableEq ι] (h : DList next prev nil head tail l) (hx : x ≠ nil) (hxl : x ∉ l)
    (hnext : ∀ i ∈ l, i ≠ tail → next' i = next i) (htail : l ≠ [] → next' tail = some x)
    (hprev : ∀ i ∈ l, prev' i = prev i) (hxn : next' x = some nil)
    (hxp : prev' x = some tail) :
    DList next' prev' nil (if tail = nil then x else head) x (l ++ [x]) where
  linked := by
    rw [Linked.append_iff]
    rw [h.tail_eq] at hnext htail hxp
    exact ⟨h.linked.set_next h.nodup hnext htail hprev, hxp, hxn, trivial⟩
  head_eq := by
    by_cases hl : l = []
    · rw [if_pos (h.tail_eq_nil_iff.mpr hl), hl]
      rfl
    · rw [if_neg (mt h.tail_eq_nil_iff.mp hl), h.head_eq]
      cases l with
      | nil => exact absurd rfl hl
      | cons a l => rfl
  tail_eq := by simp
  nil_notMem := by simpa [h.nil_notMem] using Ne.symm hx
  nodup := List.nodup_append.mpr ⟨h.nodup, by simp, fun a ha b hb => by
    rw [List.mem_singleton.mp hb]
    exact fun he => hxl (he ▸ ha)⟩

/-- Unlinking a cell: its neighbours, or the head and tail words, are joined. -/
theorem unlink [DecidableEq ι] (h : DList next prev nil head tail (l₁ ++ x :: l₂)) {p n : ι}
    (hn : n = l₂.headD nil) (hp : p = l₁.getLastD nil)
    (hnext : ∀ i ∈ l₁ ++ l₂, i ≠ p → next' i = next i) (hnextp : p ≠ nil → next' p = some n)
    (hprev : ∀ i ∈ l₁ ++ l₂, i ≠ n → prev' i = prev i) (hprevn : n ≠ nil → prev' n = some p) :
    DList next' prev' nil (if x = head then n else head) (if x = tail then p else tail)
      (l₁ ++ l₂) := by
  obtain ⟨hl₁, -, -, hl₂⟩ := Linked.append_iff.mp h.linked
  obtain ⟨hnd₁, hnd₂, hdisj⟩ := List.nodup_append.mp h.nodup
  obtain ⟨hx₂, hnd₂⟩ := List.nodup_cons.mp hnd₂
  have hnil : nil ∉ l₁ ∧ nil ≠ x ∧ nil ∉ l₂ := by simpa using h.nil_notMem
  -- A neighbour word that is not `nil` names the neighbour, so it lies on one side only.
  have hp_mem : l₁ ≠ [] → p ∈ l₁ ∧ p ≠ nil := fun hl => by
    have hmem : p ∈ l₁ := hp ▸ List.getLastD_mem_of_ne_nil hl nil
    exact ⟨hmem, fun he => hnil.1 (he ▸ hmem)⟩
  have hn_mem : l₂ ≠ [] → n ∈ l₂ ∧ n ≠ nil := fun hl => by
    obtain ⟨b, l, rfl⟩ := List.exists_cons_of_ne_nil hl
    exact ⟨by simp [hn], fun he => hnil.2.2 (by rw [← he, hn]; simp)⟩
  have hp₂ : ∀ i ∈ l₂, i ≠ p := by
    intro i hi he
    by_cases hl : l₁ = []
    · rw [hp, hl, List.getLastD_nil] at he
      exact hnil.2.2 (he ▸ hi)
    · exact hdisj p (hp_mem hl).1 i (List.mem_cons_of_mem x hi) he.symm
  have hn₁ : ∀ i ∈ l₁, i ≠ n := by
    intro i hi he
    by_cases hl : l₂ = []
    · rw [hn, hl, List.headD_nil] at he
      exact hnil.1 (he ▸ hi)
    · exact hdisj i hi n (List.mem_cons_of_mem x (hn_mem hl).1) he
  refine ⟨Linked.append_iff.mpr ⟨?_, ?_⟩, ?_, ?_, ?_, ?_⟩
  · rw [← hn]
    exact hl₁.set_next hnd₁ (fun i hi hip => hnext i (by simp [hi]) (hp ▸ hip))
      (fun hl => by rw [← hp]; exact hnextp (hp_mem hl).2)
      fun i hi => hprev i (by simp [hi]) (hn₁ i hi)
  · rw [← hp]
    exact hl₂.set_prev hnd₂ (fun i hi hin => hprev i (by simp [hi]) (hn ▸ hin))
      (fun hl => by rw [← hn]; exact hprevn (hn_mem hl).2)
      fun i hi => hnext i (by simp [hi]) (hp₂ i hi)
  · cases l₁ with
    | nil => rw [h.head_eq, if_pos (by simp), hn]; rfl
    | cons a l =>
      have hne : x ≠ a := fun he => hdisj a (by simp) x (by simp) he.symm
      rw [h.head_eq, if_neg (by simpa using hne)]
      rfl
  · rcases List.eq_nil_or_concat l₂ with rfl | ⟨l, a, rfl⟩
    · rw [h.tail_eq, if_pos (by simp), hp, List.append_nil]
    · have hne : x ≠ a := fun he => hx₂ (by simp [he])
      have htail : tail = a := by
        rw [h.tail_eq, List.concat_eq_append, ← List.cons_append, ← List.append_assoc,
          List.getLastD_concat]
      rw [htail, if_neg hne, List.concat_eq_append, ← List.append_assoc, List.getLastD_concat]
  · simpa using ⟨hnil.1, hnil.2.2⟩
  · exact List.nodup_append.mpr ⟨hnd₁, hnd₂, fun a ha b hb =>
      hdisj a ha b (List.mem_cons_of_mem x hb)⟩

end DList

/-! ### Traversal -/

section Walk

variable [DecidableEq ι]

/-- The cells met when `next` is followed from `i` until `nil`, for at most
`fuel` steps. -/
def walk (next : ι → Option ι) (nil : ι) : ℕ → ι → Option (List ι)
  | 0, _ => none
  | fuel + 1, i =>
    if i = nil then some []
    else do
      let j ← next i
      let rest ← walk next nil fuel j
      some (i :: rest)

theorem Linked.walk_eq {next prev : ι → Option ι} {nil p : ι} {l : List ι}
    (h : Linked next prev p l nil) (hnil : nil ∉ l) {fuel : ℕ} (hf : l.length < fuel) :
    walk next nil fuel (l.headD nil) = some l := by
  induction l generalizing p fuel with
  | nil =>
    obtain ⟨k, rfl⟩ : ∃ k, fuel = k + 1 := ⟨fuel - 1, by simp at hf; omega⟩
    rw [List.headD_nil, walk, if_pos rfl]
  | cons a l ih =>
    obtain ⟨k, rfl⟩ : ∃ k, fuel = k + 1 := ⟨fuel - 1, by simp at hf; omega⟩
    obtain ⟨-, hn, hl⟩ := h
    obtain ⟨ha, hnil⟩ := not_or.mp (mt List.mem_cons.mpr hnil)
    rw [List.headD_cons, walk, if_neg (Ne.symm ha), hn]
    simp only [Option.bind_eq_bind, Option.bind_some]
    rw [ih hl hnil (by simpa using hf)]
    rfl

/-- The traversal of a list ends, and visits exactly the cells of the list. -/
theorem DList.walk_eq {next prev : ι → Option ι} {nil head tail : ι} {l : List ι}
    (h : DList next prev nil head tail l) {fuel : ℕ} (hf : l.length < fuel) :
    walk next nil fuel head = some l := by
  rw [h.head_eq]
  exact h.linked.walk_eq h.nil_notMem hf

end Walk
