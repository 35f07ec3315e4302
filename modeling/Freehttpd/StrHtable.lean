/-
The instance of the hash table in `src/hash/str_htable.c`: keys are C strings,
compared by `strcmp`, hashed by `rapidhashMicro`, copied by `strdup` and freed.

A key is the pointer together with the bytes it points to.  Equality and hash see
the bytes alone; the pointer tells the copy in the table from the string of the
caller.
-/
import Freehttpd.Htable
import Freehttpd.Rapidhash

namespace Freehttpd

/-- A key of `str_htable_t`: a pointer and the bytes in front of the terminating
zero. -/
structure StrKey where
  ptr : ℕ
  chars : List UInt8
  chars_ne_zero : 0 ∉ chars

/-- `HT_KEY_EQUAL_CB`. -/
instance : BEq StrKey := ⟨fun key1 key2 => key1.chars == key2.chars⟩

theorem StrKey.beq_iff {key1 key2 : StrKey} :
    (key1 == key2) = true ↔ key1.chars = key2.chars :=
  show (key1.chars == key2.chars) = true ↔ _ from beq_iff_eq

instance : EquivBEq StrKey where
  rfl := StrKey.beq_iff.mpr rfl
  symm h := StrKey.beq_iff.mpr (StrKey.beq_iff.mp h).symm
  trans h h' := StrKey.beq_iff.mpr ((StrKey.beq_iff.mp h).trans (StrKey.beq_iff.mp h'))

/-- `str_htable_key_hash`. -/
def strHtableKeyHash (key : StrKey) : UInt64 := rapidhashMicro key.chars

instance : Hashable StrKey := ⟨strHtableKeyHash⟩

instance : LawfulHashable StrKey where
  hash_eq _ _ h := congrArg rapidhashMicro (StrKey.beq_iff.mp h)

/-- `HT_KEY_DUP_CB`: the copy that `strdup` places at `ptr`. -/
def StrKey.strdup (key : StrKey) (ptr : ℕ) : StrKey := { key with ptr := ptr }

/-- The allocations of a call of `str_htable_set`: `dup` is the pointer that `strdup`
returns. -/
def strSetAlloc (calloc malloc : Bool) (dup : Option ℕ) (reallocDeleted : Bool)
    (key : StrKey) : SetAlloc StrKey key :=
  { calloc := calloc
    malloc := malloc
    dupKey := dup.map fun ptr => ⟨key.strdup ptr, StrKey.beq_iff.mpr rfl⟩
    reallocDeleted := reallocDeleted }

/-! ### Strings by number -/

/-- A digit in base 128, as a character that is not zero. -/
def digitChar (n : ℕ) : UInt8 := UInt8.ofNat (n % 128 + 1)

theorem toNat_digitChar (n : ℕ) : (digitChar n).toNat = n % 128 + 1 := by
  rw [digitChar, UInt8.toNat_ofNat']
  omega

theorem zero_ne_digitChar (n : ℕ) : 0 ≠ digitChar n := by
  intro h
  have hn := congrArg UInt8.toNat h
  rw [toNat_digitChar] at hn
  exact absurd hn (Nat.ne_of_lt (Nat.succ_pos _))

theorem mod_eq_of_digitChar {m n : ℕ} (h : digitChar m = digitChar n) : m % 128 = n % 128 := by
  have hn := congrArg UInt8.toNat h
  rw [toNat_digitChar, toNat_digitChar] at hn
  exact Nat.succ.inj hn

/-- The string of the number `n`: its five digits in base 128. -/
def numberedKey (n : ℕ) : StrKey where
  ptr := 0
  chars := [digitChar (n / 128 ^ 4), digitChar (n / 128 ^ 3), digitChar (n / 128 ^ 2),
    digitChar (n / 128), digitChar n]
  chars_ne_zero := by simp [zero_ne_digitChar]

/-- Numbers with the same string differ by more than five digits. -/
theorem numberedKey_beq {m n : ℕ} (h : (numberedKey m == numberedKey n) = true) :
    m % 128 ^ 5 = n % 128 ^ 5 := by
  have hchars := StrKey.beq_iff.mp h
  simp only [numberedKey, List.cons.injEq, and_true] at hchars
  obtain ⟨h4, h3, h2, h1, h0⟩ := hchars
  have h4 := mod_eq_of_digitChar h4
  have h3 := mod_eq_of_digitChar h3
  have h2 := mod_eq_of_digitChar h2
  have h1 := mod_eq_of_digitChar h1
  have h0 := mod_eq_of_digitChar h0
  omega

end Freehttpd
