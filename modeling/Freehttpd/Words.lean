/-
Words as numbers: carries, limbs and bytes.

* `carry_eq` — the carry of a sum is read off by comparing it with a summand;
* `limbs_mul` — the product of two double limbs from the four products of their
  limbs, with every intermediate sum reduced to a double limb;
* `leWord`, `beWord` — the words that bytes in memory are, by the order of the bytes;
  `toNat_leWord`, `bytesNat_digit`, `beWord_eq` — as a numeral, the bytes back from it,
  and the one order from the other;
* `wordBytes` — the bytes of a word; `wordBytes_leWord`, `beWord_wordBytes`;
* `and_field`, `or_field` — a byte masked where it stands, and bytes put together;
  `shiftRight_field`, `shiftLeft_field` — a byte moved before it is masked.
-/
import Mathlib.Algebra.Order.Ring.Nat
import Mathlib.Data.Nat.Digits.Defs
import Mathlib.Tactic.Linarith
import Mathlib.Tactic.Ring

/-! ### Carries -/

/-- A sum wrapped around is less than a summand exactly if it did wrap around. -/
theorem carry_eq {M x y : ℕ} (hx : x < M) (hy : y < M) :
    (x + y) % M + (if (x + y) % M < x then 1 else 0) * M = x + y := by
  rcases Nat.lt_or_ge (x + y) M with h | h
  · rw [Nat.mod_eq_of_lt h, if_neg (by omega), Nat.zero_mul, Nat.add_zero]
  · rw [Nat.mod_eq_sub_mod h, Nat.mod_eq_of_lt (by omega), if_pos (by omega)]
    omega

/-- The low double limb of a product and the carries, as they are computed from the
products of the limbs `ah`, `al` and `bh`, `bl`. -/
theorem limbs_mul {R ah al bh bl t lo : ℕ} (hal : al < R) (hbl : bl < R)
    (ht : t = (al * bl + ah * bl % R * R) % (R * R))
    (hlo : lo = (t + bh * al % R * R) % (R * R)) :
    (ah * bh + ah * bl / R + bh * al / R +
        ((if t < al * bl then 1 else 0) + if lo < t then 1 else 0)) * (R * R) + lo
      = (ah * R + al) * (bh * R + bl) := by
  have hR : 0 < R := Nat.zero_lt_of_lt hal
  have hRR : 0 < R * R := Nat.mul_pos hR hR
  have hrl : al * bl < R * R := Nat.mul_lt_mul'' hal hbl
  have hm₀ : ah * bl % R * R < R * R := Nat.mul_lt_mul_of_pos_right (Nat.mod_lt _ hR) hR
  have hm₁ : bh * al % R * R < R * R := Nat.mul_lt_mul_of_pos_right (Nat.mod_lt _ hR) hR
  have htlt : t < R * R := ht ▸ Nat.mod_lt _ hRR
  have hc₀ := carry_eq hrl hm₀
  have hc₁ := carry_eq htlt hm₁
  rw [← ht] at hc₀
  rw [← hlo] at hc₁
  have hd₀ := Nat.div_add_mod (ah * bl) R
  have hd₁ := Nat.div_add_mod (bh * al) R
  generalize (if t < al * bl then 1 else 0) = c₀ at *
  generalize (if lo < t then 1 else 0) = c₁ at *
  -- Both sums put back together, and the middle products from their halves.
  calc (ah * bh + ah * bl / R + bh * al / R + (c₀ + c₁)) * (R * R) + lo
      = (ah * bh + ah * bl / R + bh * al / R) * (R * R) + c₀ * (R * R) + (lo + c₁ * (R * R)) := by
        ring
    _ = (ah * bh + ah * bl / R + bh * al / R) * (R * R) + (t + c₀ * (R * R))
          + bh * al % R * R := by
        rw [hc₁]
        ring
    _ = ah * bh * (R * R) + al * bl + (R * (ah * bl / R) + ah * bl % R) * R
          + (R * (bh * al / R) + bh * al % R) * R := by
        rw [hc₀]
        ring
    _ = (ah * R + al) * (bh * R + bl) := by
        rw [hd₀, hd₁]
        ring

/-! ### Bytes -/

/-- The number that bytes are, the lowest first. -/
def bytesNat (bytes : List UInt8) : ℕ := Nat.ofDigits 256 (bytes.map UInt8.toNat)

/-- The word that bytes are on a little endian machine. -/
def leWord (bytes : List UInt8) : UInt64 :=
  bytes.foldr (fun b v => v <<< 8 ||| b.toUInt64) 0

/-- The word that bytes are on a big endian machine. -/
def beWord (bytes : List UInt8) : UInt64 :=
  bytes.foldl (fun v b => v <<< 8 ||| b.toUInt64) 0

theorem bytesNat_cons (b : UInt8) (bytes : List UInt8) :
    bytesNat (b :: bytes) = b.toNat + 256 * bytesNat bytes := by
  rw [bytesNat, List.map_cons, Nat.ofDigits_cons]
  rfl

theorem bytesNat_lt (bytes : List UInt8) : bytesNat bytes < 256 ^ bytes.length := by
  have h := Nat.ofDigits_lt_base_pow_length (by decide : 1 < 256) (l := bytes.map UInt8.toNat)
    (by
      intro d hd
      obtain ⟨b, -, rfl⟩ := List.mem_map.mp hd
      exact b.toNat_lt)
  rwa [List.length_map] at h

/-- The digits are the bytes. -/
theorem bytesNat_digit (bytes : List UInt8) (i : ℕ) :
    bytesNat bytes / 256 ^ i % 256 = (bytes.getD i 0).toNat := by
  induction i generalizing bytes with
  | zero =>
    cases bytes with
    | nil => rfl
    | cons b bytes =>
      rw [bytesNat_cons, Nat.pow_zero, Nat.div_one, Nat.add_mul_mod_self_left]
      exact Nat.mod_eq_of_lt b.toNat_lt
  | succ i ih =>
    cases bytes with
    | nil => rw [show bytesNat [] = 0 from rfl, Nat.zero_div, Nat.zero_mod, List.getD_nil]; rfl
    | cons b bytes =>
      rw [bytesNat_cons, Nat.pow_succ', ← Nat.div_div_eq_div_mul,
        Nat.add_mul_div_left _ _ (by decide), Nat.div_eq_of_lt b.toNat_lt, Nat.zero_add,
        List.getD_cons_succ]
      exact ih bytes

/-- At most eight bytes make a word without overflow. -/
theorem toNat_leWord {bytes : List UInt8} (h : bytes.length ≤ 8) :
    (leWord bytes).toNat = bytesNat bytes := by
  induction bytes with
  | nil => rfl
  | cons b bytes ih =>
    rw [List.length_cons] at h
    have ih := ih (by omega)
    have hlt : bytesNat bytes < 2 ^ 56 :=
      (bytesNat_lt bytes).trans_le
        ((Nat.pow_le_pow_right (by decide) (by omega : bytes.length ≤ 7)).trans (by decide))
    rw [bytesNat_cons]
    show (leWord bytes <<< 8 ||| b.toUInt64).toNat = _
    rw [UInt64.toNat_or, UInt64.toNat_shiftLeft, ih, UInt8.toNat_toUInt64, Nat.shiftLeft_eq]
    have hb : b.toNat < 2 ^ 8 := b.toNat_lt
    have hmod : bytesNat bytes * 2 ^ ((8 : UInt64).toNat % 64) % 2 ^ 64
        = 2 ^ 8 * bytesNat bytes := by
      rw [show (8 : UInt64).toNat % 64 = 8 from rfl, Nat.mod_eq_of_lt (by omega), Nat.mul_comm]
    rw [hmod, ← Nat.two_pow_add_eq_or_of_lt hb]
    omega

/-- The other order. -/
theorem beWord_eq (bytes : List UInt8) : beWord bytes = leWord bytes.reverse := by
  rw [leWord, beWord, List.foldr_reverse]

/-- The lowest `n` bytes of a word, the lowest first. -/
def wordBytes : ℕ → UInt64 → List UInt8
  | 0, _ => []
  | n + 1, v => v.toUInt8 :: wordBytes n (v >>> 8)

/-- The bytes of a word are those it was made of. -/
theorem wordBytes_leWord {bytes : List UInt8} (h : bytes.length ≤ 8) :
    wordBytes bytes.length (leWord bytes) = bytes := by
  induction bytes with
  | nil => rfl
  | cons b bytes ih =>
    rw [List.length_cons] at h
    have hv : (leWord (b :: bytes)).toNat = b.toNat + 256 * bytesNat bytes := by
      rw [toNat_leWord (by simpa using h), bytesNat_cons]
    have hb : b.toNat < 256 := b.toNat_lt
    have hlow : (leWord (b :: bytes)).toUInt8 = b := by
      refine UInt8.toNat_inj.mp ?_
      rw [UInt64.toNat_toUInt8, hv]
      omega
    have hrest : leWord (b :: bytes) >>> 8 = leWord bytes := by
      refine UInt64.toNat_inj.mp ?_
      rw [UInt64.toNat_shiftRight, hv, toNat_leWord (by omega), Nat.shiftRight_eq_div_pow,
        show (8 : UInt64).toNat % 64 = 8 from rfl]
      omega
    rw [List.length_cons, wordBytes, hlow, hrest, ih (by omega)]

/-- The bytes of a word of a big endian memory, reversed. -/
theorem beWord_wordBytes {bytes : List UInt8} (h : bytes.length ≤ 8) :
    beWord (wordBytes bytes.length (beWord bytes)) = leWord bytes := by
  have hr : wordBytes bytes.reverse.length (leWord bytes.reverse) = bytes.reverse :=
    wordBytes_leWord (by rwa [List.length_reverse])
  rw [List.length_reverse] at hr
  rw [beWord_eq bytes, hr, beWord_eq, List.reverse_reverse]

/-- The mask for one byte cuts it out in place. -/
theorem and_field (x k : ℕ) : x &&& 255 * 2 ^ k = x / 2 ^ k % 256 * 2 ^ k := by
  have h : x / 2 ^ k % 256 = x / 2 ^ k &&& 255 := (Nat.and_two_pow_sub_one_eq_mod _ 8).symm
  rw [h, ← Nat.shiftLeft_eq, ← Nat.shiftLeft_eq, ← Nat.shiftRight_eq_div_pow,
    Nat.shiftLeft_and_distrib]
  refine Nat.eq_of_testBit_eq fun i => ?_
  by_cases hi : k ≤ i
  · simp [Nat.testBit_shiftLeft, hi]
  · simp [Nat.testBit_shiftLeft, hi]

/-- A byte moved down, and masked. -/
theorem shiftRight_field (x n k : ℕ) :
    x >>> n &&& 255 * 2 ^ k = x / 2 ^ (n + k) % 256 * 2 ^ k := by
  rw [and_field, Nat.shiftRight_eq_div_pow, Nat.div_div_eq_div_mul, ← Nat.pow_add]

/-- A byte of a word moved up within it, and masked. -/
theorem shiftLeft_field {n k w : ℕ} (h : n + k + 8 ≤ w) (x : ℕ) :
    x <<< n % 2 ^ w &&& 255 * 2 ^ (n + k) = x / 2 ^ k % 256 * 2 ^ (n + k) := by
  have hw : 2 ^ w = 2 ^ (w - (n + k)) * 2 ^ (n + k) := by
    rw [← Nat.pow_add, Nat.sub_add_cancel (by omega)]
  have hdvd : 256 ∣ 2 ^ (w - (n + k)) := Nat.pow_dvd_pow 2 (by omega : 8 ≤ w - (n + k))
  rw [and_field, hw, Nat.mod_mul_left_div_self, Nat.mod_mod_of_dvd _ hdvd, Nat.shiftLeft_eq,
    Nat.pow_add, Nat.mul_comm (2 ^ n), Nat.mul_div_mul_right _ _ (Nat.two_pow_pos n)]

/-- A field above all others is added to them. -/
theorem or_field {v k : ℕ} (h : v < 2 ^ k) (b : ℕ) : v ||| b * 2 ^ k = v + b * 2 ^ k := by
  rw [Nat.or_comm, Nat.mul_comm, ← Nat.two_pow_add_eq_or_of_lt h, Nat.add_comm]

/-- A byte above all fields so far, and the room that it leaves. -/
theorem or_byte {v k b : ℕ} (h : v < 2 ^ k) (hb : b < 256) :
    v ||| b * 2 ^ k = v + b * 2 ^ k ∧ v + b * 2 ^ k < 2 ^ (k + 8) := by
  refine ⟨or_field h b, ?_⟩
  have : b * 2 ^ k ≤ 255 * 2 ^ k := Nat.mul_le_mul_right _ (by omega)
  rw [Nat.pow_add]
  omega
