/-
Bit tricks on words.

* `Smeared.double`, `Smeared.eq` — or-ing a number with its own right shifts by 1, 2, 4, …
  sets every bit below its highest one;
* `xorShift_injective` — xor-ing a word with its own right shift can be undone, bit by bit
  from the top;
* `mul_injective_of_mul_eq_one` — so can a multiplication by a factor that has an inverse
  modulo the word size.
-/
import Mathlib.Data.Nat.Bitwise
import Mathlib.Tactic.Common

/-! ### Smearing -/

/-- Bit `i` of `x` is set when one of the `n` bits of `v` from `i` on is. -/
def Smeared (v n x : ℕ) : Prop :=
  ∀ i, x.testBit i = true ↔ ∃ d < n, v.testBit (i + d) = true

namespace Smeared

variable {v n x : ℕ}

theorem refl (v : ℕ) : Smeared v 1 v := by
  intro i
  constructor
  · intro h
    exact ⟨0, Nat.one_pos, h⟩
  · rintro ⟨d, hd, h⟩
    obtain rfl : d = 0 := by omega
    exact h

/-- One more shift doubles the reach. -/
theorem double (h : Smeared v n x) : Smeared v (2 * n) (x ||| x >>> n) := by
  intro i
  rw [Nat.testBit_or, Nat.testBit_shiftRight, Bool.or_eq_true, h, h]
  constructor
  · rintro (⟨d, hd, hbit⟩ | ⟨d, hd, hbit⟩)
    · exact ⟨d, by omega, hbit⟩
    · exact ⟨n + d, by omega, by rwa [show i + (n + d) = n + i + d by omega]⟩
  · rintro ⟨d, hd, hbit⟩
    rcases Nat.lt_or_ge d n with hlt | hge
    · exact .inl ⟨d, hlt, hbit⟩
    · exact .inr ⟨d - n, by omega, by rwa [show n + i + (d - n) = i + d by omega]⟩

/-- With a reach of the whole word only the highest bit of `v` matters. -/
theorem eq (h : Smeared v n x) (hv : v ≠ 0) (hlt : v < 2 ^ n) :
    x = 2 ^ (Nat.log2 v + 1) - 1 := by
  refine Nat.eq_of_testBit_eq fun i => ?_
  rw [Bool.eq_iff_iff, h, Nat.testBit_two_pow_sub_one, decide_eq_true_eq]
  constructor
  · rintro ⟨d, -, hbit⟩
    by_contra hi
    have hsmall : v < 2 ^ (i + d) := Nat.lt_of_lt_of_le Nat.lt_log2_self
      (Nat.pow_le_pow_right Nat.two_pos (by omega))
    rw [Nat.testBit_lt_two_pow hsmall] at hbit
    exact Bool.false_ne_true hbit
  · intro hi
    have hlog : Nat.log2 v < n := (Nat.log2_lt hv).mpr hlt
    refine ⟨Nat.log2 v - i, by omega, ?_⟩
    rw [show i + (Nat.log2 v - i) = Nat.log2 v by omega]
    exact Nat.testBit_log2 hv

end Smeared

/-! ### Mixing -/

section Mixing

variable {w : ℕ}

/-- A word is determined by what its xor-shift leaves: the bits from `i + s` on give bit
`i`, so they are found from the top down. -/
theorem xorShift_injective {s : ℕ} (hs : 0 < s) :
    Function.Injective fun x : BitVec w => x ^^^ x >>> s := by
  intro x y h
  have hbit : ∀ i, (x.getLsbD i ^^ x.getLsbD (s + i)) = (y.getLsbD i ^^ y.getLsbD (s + i)) := by
    intro i
    have hi := congrArg (fun z : BitVec w => z.getLsbD i) h
    simpa only [BitVec.getLsbD_xor, BitVec.getLsbD_ushiftRight] using hi
  -- Induction on the distance from the top of the word.
  have htop : ∀ k i, w ≤ i + k → x.getLsbD i = y.getLsbD i := by
    intro k
    induction k with
    | zero =>
      intro i hi
      rw [BitVec.getLsbD_of_ge x i hi, BitVec.getLsbD_of_ge y i hi]
    | succ k ih =>
      intro i hi
      have hi' := hbit i
      rw [ih (s + i) (by omega)] at hi'
      exact Bool.xor_left_inj.mp hi'
  refine BitVec.eq_of_getLsbD_eq fun i _ => htop w i (by omega)

/-- A word is determined by its product with an invertible factor. -/
theorem mul_injective_of_mul_eq_one {c d : BitVec w} (h : c * d = 1#w) :
    Function.Injective fun x : BitVec w => x * c := by
  refine Function.LeftInverse.injective (g := fun x => x * d) fun x => ?_
  show x * c * d = x
  rw [BitVec.mul_assoc, h, BitVec.mul_one]

end Mixing
