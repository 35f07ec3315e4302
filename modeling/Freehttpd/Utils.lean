/-
Machine words, and `src/utils/utils.c`.

Values of the source's unsigned types are natural numbers; the operations that
may wrap reduce explicitly with `u16`, `u32` and `u64` (for `size_t` and
`uint64_t`).  `utilRoundCeil2Ull_spec` says that `util_round_ceil2_ull`
returns the least power of two that is not below its argument, and
`utilRoundCeil2Ull_isSome` that it does so up to `2 ^ 63`; there the branch for
other compilers returns the same (`utilRoundCeil2UllPortable_eq`).
-/
import Freehttpd.Bits
import Mathlib.Data.Nat.Log
import Mathlib.Data.Nat.Bitwise
import Mathlib.Tactic.Common

namespace Freehttpd

/-- Conversion to `uint16_t`. -/
def u16 (n : ℕ) : ℕ := n % 2 ^ 16

/-- Conversion to `uint32_t`. -/
def u32 (n : ℕ) : ℕ := n % 2 ^ 32

/-- Conversion to `uint64_t` (and `size_t`). -/
def u64 (n : ℕ) : ℕ := n % 2 ^ 64

/-- `UINT32_MAX`. -/
def uint32Max : ℕ := 2 ^ 32 - 1

/-- `UINT64_MAX`. -/
def uint64Max : ℕ := 2 ^ 64 - 1

theorem u16_of_lt {n : ℕ} (h : n < 2 ^ 16) : u16 n = n := Nat.mod_eq_of_lt h

theorem u32_of_lt {n : ℕ} (h : n < 2 ^ 32) : u32 n = n := Nat.mod_eq_of_lt h

theorem u64_of_lt {n : ℕ} (h : n < 2 ^ 64) : u64 n = n := Nat.mod_eq_of_lt h

/-- `assert`; `ndebug` says that the checks were compiled out. -/
def cAssert (ndebug : Bool) (p : Prop) [Decidable p] : Option Unit :=
  if ndebug = true ∨ p then some () else none

theorem cAssert_of {ndebug : Bool} {p : Prop} [Decidable p] (h : p) :
    cAssert ndebug p = some () :=
  if_pos (.inr h)

theorem cAssert_false_eq_some {p : Prop} [Decidable p] {u : Unit}
    (h : cAssert false p = some u) : p := by
  rw [cAssert] at h
  by_contra hp
  rw [if_neg (by simp [hp])] at h
  exact absurd h (by simp)

/-- `__builtin_clzll`, for a nonzero 64-bit argument. -/
def builtinClzll (value : ℕ) : ℕ := 63 - Nat.log2 value

/-- `util_round_ceil2_ull`, the branch compiled by GCC and Clang; `none` is the
undefined shift by 64. -/
def utilRoundCeil2Ull (value : ℕ) : Option ℕ :=
  if value ≤ 2 then some value
  else if 64 - builtinClzll (value - 1) < 64 then
    some (1 <<< (64 - builtinClzll (value - 1)))
  else none

theorem utilRoundCeil2Ull_spec {value p : ℕ} (h2 : 2 ≤ value)
    (h : utilRoundCeil2Ull value = some p) :
    ∃ k, 1 ≤ k ∧ k ≤ 63 ∧ p = 2 ^ k ∧ value ≤ 2 ^ k ∧ 2 ^ (k - 1) < value := by
  rw [utilRoundCeil2Ull] at h
  split at h
  · obtain rfl : value = 2 := by omega
    exact ⟨1, by omega, by omega, by simpa using h.symm, by decide, by decide⟩
  · split at h
    · rename_i hv hsh
      rw [Option.some_inj, Nat.one_shiftLeft] at h
      have hexp : 64 - builtinClzll (value - 1) = Nat.log2 (value - 1) + 1 := by
        rw [builtinClzll] at hsh ⊢
        omega
      have hlo := Nat.log2_self_le (n := value - 1) (by omega)
      have hhi := Nat.lt_log2_self (n := value - 1)
      rw [hexp] at h hsh
      refine ⟨Nat.log2 (value - 1) + 1, by omega, by omega, h.symm, by omega, ?_⟩
      rw [Nat.add_sub_cancel]
      omega
    · exact absurd h (by simp)

/-- `util_round_ceil2_ull`, the branch for other compilers. -/
def utilRoundCeil2UllPortable (value : ℕ) : ℕ :=
  if value ≤ 2 then value
  else
    let value := value - 1
    let value := value ||| value >>> 1
    let value := value ||| value >>> 2
    let value := value ||| value >>> 4
    let value := value ||| value >>> 8
    let value := value ||| value >>> 16
    let value := value ||| value >>> 32
    u64 (value + 1)

/-- Every value up to `2 ^ 63` has a rounding. -/
theorem utilRoundCeil2Ull_isSome {value : ℕ} (h63 : value ≤ 2 ^ 63) :
    (utilRoundCeil2Ull value).isSome := by
  rw [utilRoundCeil2Ull]
  split
  · rfl
  · have hlog : Nat.log2 (value - 1) < 63 := (Nat.log2_lt (by omega)).mpr (by omega)
    rw [if_pos (by rw [builtinClzll]; omega)]
    rfl

/-- The or-shifts set every bit of the word below the highest one. -/
theorem utilRoundCeil2UllPortable_of_lt {value : ℕ} (h2 : 2 < value) (h64 : value < 2 ^ 64) :
    utilRoundCeil2UllPortable value = u64 (2 ^ (Nat.log2 (value - 1) + 1)) := by
  have hsmear := (Smeared.refl (value - 1)).double.double.double.double.double.double
  have heq := hsmear.eq (by omega) (by omega)
  have hpow := Nat.two_pow_pos (Nat.log2 (value - 1) + 1)
  rw [utilRoundCeil2UllPortable, if_neg (by omega), ← Nat.sub_add_cancel hpow, ← heq]

/-- Up to `2 ^ 63` the two branches agree. -/
theorem utilRoundCeil2UllPortable_eq {value : ℕ} (h63 : value ≤ 2 ^ 63) :
    utilRoundCeil2Ull value = some (utilRoundCeil2UllPortable value) := by
  rcases Nat.lt_or_ge 2 value with h2 | h2
  · have hlog : Nat.log2 (value - 1) < 63 := (Nat.log2_lt (by omega)).mpr (by omega)
    have hclz : 64 - builtinClzll (value - 1) = Nat.log2 (value - 1) + 1 := by
      rw [builtinClzll]
      omega
    have hpow : 2 ^ (Nat.log2 (value - 1) + 1) < 2 ^ 64 :=
      Nat.pow_lt_pow_right (by decide) (by omega)
    rw [utilRoundCeil2UllPortable_of_lt h2 (by omega), u64_of_lt hpow, utilRoundCeil2Ull,
      if_neg (by omega), hclz, if_pos (by omega), Nat.one_shiftLeft]
  · rw [utilRoundCeil2Ull, if_pos h2, utilRoundCeil2UllPortable, if_pos h2]

end Freehttpd
