/-
The instance of the hash table in `src/hash/int_htable.c`: keys are `uint64_t`,
compared by `==` and hashed by the SplitMix64 finalizer.
-/
import Freehttpd.Htable

namespace Freehttpd

/-- A key of `int_htable_t`. -/
structure IntKey where
  key : UInt64
deriving DecidableEq, Repr

/-- `int_htable_key_hash`. -/
def intHtableKeyHash (key : UInt64) : UInt64 :=
  let hash := key
  let hash := hash ^^^ (hash >>> 30)
  let hash := hash * 0xbf58476d1ce4e5b9
  let hash := hash ^^^ (hash >>> 27)
  let hash := hash * 0x94d049bb133111eb
  hash ^^^ (hash >>> 31)

instance : Hashable IntKey := ⟨fun k => intHtableKeyHash k.key⟩

/-- The key a `uint64_t` cast gives. -/
def intKey (n : ℕ) : IntKey := ⟨UInt64.ofNat n⟩

theorem intKey_beq_iff {m n : ℕ} (hm : m < 2 ^ 64) (hn : n < 2 ^ 64) :
    (intKey m == intKey n) = true ↔ m = n := by
  rw [beq_iff_eq, intKey, intKey, IntKey.mk.injEq]
  constructor
  · intro h
    have h' := congrArg UInt64.toNat h
    rwa [UInt64.toNat_ofNat', UInt64.toNat_ofNat', Nat.mod_eq_of_lt hm, Nat.mod_eq_of_lt hn] at h'
  · rintro rfl
    rfl

/-- The keys that number the entries of a full table differ. -/
theorem intKey_beq_of_lt (i j : ℕ) (hij : i < j) (hj : j ≤ uint32Max) :
    (intKey i == intKey j) = false := by
  rw [uint32Max] at hj
  rw [Bool.eq_false_iff]
  intro hk
  have hne := (intKey_beq_iff (by omega) (by omega)).mp hk
  omega

/-- The allocations of a call of `int_htable_set`: the key is copied by value,
which cannot fail. -/
def intSetAlloc (calloc malloc reallocDeleted : Bool) (key : IntKey) : SetAlloc IntKey key :=
  { calloc := calloc
    malloc := malloc
    dupKey := some ⟨key, beq_self_eq_true key⟩
    reallocDeleted := reallocDeleted }

end Freehttpd
