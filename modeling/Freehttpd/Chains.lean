/-
Singly linked lists threaded through an index memory.

`Chained next head l` says that following `next` from `head` visits the cells of
`l` and ends; a pointer is an `Option`, `none` ending the list:

* `Chained.congr` — only the links of the cells of `l` matter;
* `follow_eq` — following the links with enough fuel gives `l`.
-/
import Mathlib.Data.List.Basic
import Mathlib.Tactic.Common

variable {ι : Type*}

/-- The cells of `l` are linked in order, from `head` on. -/
def Chained (next : ι → Option (Option ι)) : Option ι → List ι → Prop
  | head, [] => head = none
  | head, a :: l => head = some a ∧ ∃ n, next a = some n ∧ Chained next n l

/-- The cells met from `head` on, for at most `fuel` of them. -/
def follow (next : ι → Option (Option ι)) : ℕ → Option ι → Option (List ι)
  | _, none => some []
  | 0, some _ => none
  | fuel + 1, some a => do
    let head ← next a
    let rest ← follow next fuel head
    some (a :: rest)

namespace Chained

variable {next next' : ι → Option (Option ι)} {head : Option ι} {l : List ι}

theorem congr (h : Chained next head l) (heq : ∀ a ∈ l, next' a = next a) :
    Chained next' head l := by
  induction l generalizing head with
  | nil => exact h
  | cons a l ih =>
    obtain ⟨hhead, n, hn, hl⟩ := h
    exact ⟨hhead, n, by rw [heq a (by simp), hn],
      ih hl fun b hb => heq b (List.mem_cons_of_mem a hb)⟩

theorem follow_eq (h : Chained next head l) {fuel : ℕ} (hf : l.length ≤ fuel) :
    follow next fuel head = some l := by
  induction l generalizing head fuel with
  | nil =>
    obtain rfl : head = none := h
    rw [follow]
  | cons a l ih =>
    obtain ⟨rfl, n, hn, hl⟩ := h
    obtain ⟨k, rfl⟩ : ∃ k, fuel = k + 1 := ⟨fuel - 1, by simp at hf; omega⟩
    rw [follow, hn]
    simp only [Option.bind_eq_bind, Option.bind_some, ih hl (by simpa using hf)]

end Chained
