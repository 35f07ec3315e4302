/-
`rapidhashMicro` as it is compiled for the different machines.

The header selects the code of the product and of the reads by what the compiler
knows of the machine. Here every branch of it is followed, and the reads are checked:
a read that is not within the key has no value.

* `rapidMumPortable` — the product from 32-bit limbs; `rapidMumPortable_eq`;
* `bswap64`, `bswap32` — the bytes reversed by shifts and masks;
* `Platform` — what the header asks about the machine;
* `rapidhashMicroOn` — the hash on a machine;
* `rapidhashMicroOn_eq` — it is the same on all of them, and every read is in the key.
-/
import Mathlib.Tactic.Ring
import Freehttpd.Rapidhash
import Freehttpd.Words

namespace Freehttpd

/-! ### The product -/

/-- The last branch of `rapid_mum`, for a compiler without a 128-bit product. -/
def rapidMumPortable (a b : UInt64) : UInt64 × UInt64 :=
  let ha := a >>> 32
  let hb := b >>> 32
  let la := a.toUInt32.toUInt64
  let lb := b.toUInt32.toUInt64
  let rh := ha * hb
  let rm₀ := ha * lb
  let rm₁ := hb * la
  let rl := la * lb
  let t := rl + rm₀ <<< 32
  let c : UInt64 := if t < rl then 1 else 0
  let lo := t + rm₁ <<< 32
  let c := c + if lo < t then 1 else 0
  let hi := rh + rm₀ >>> 32 + rm₁ >>> 32 + c
  (lo, hi)

/-- The product of two halves of words does not wrap around. -/
theorem toNat_mul_halves {x y : UInt64} (hx : x.toNat < 2 ^ 32) (hy : y.toNat < 2 ^ 32) :
    (x * y).toNat = x.toNat * y.toNat := by
  have h : x.toNat * y.toNat < 2 ^ 32 * 2 ^ 32 := Nat.mul_lt_mul'' hx hy
  rw [UInt64.toNat_mul]
  exact Nat.mod_eq_of_lt h

theorem toNat_shiftLeft_half (x : UInt64) :
    (x <<< 32).toNat = x.toNat % 2 ^ 32 * 2 ^ 32 := by
  rw [UInt64.toNat_shiftLeft, Nat.shiftLeft_eq, show (32 : UInt64).toNat % 64 = 32 from rfl]
  omega

theorem toNat_high_half (x : UInt64) : (x >>> 32).toNat = x.toNat / 2 ^ 32 := by
  rw [UInt64.toNat_shiftRight, Nat.shiftRight_eq_div_pow,
    show (32 : UInt64).toNat % 64 = 32 from rfl]

theorem toNat_low_half (x : UInt64) : x.toUInt32.toUInt64.toNat = x.toNat % 2 ^ 32 := by
  rw [UInt32.toNat_toUInt64, UInt64.toNat_toUInt32]

theorem high_half_lt (x : UInt64) : (x >>> 32).toNat < 2 ^ 32 := by
  rw [toNat_high_half]
  have := x.toNat_lt
  omega

theorem low_half_lt (x : UInt64) : x.toUInt32.toUInt64.toNat < 2 ^ 32 := by
  rw [toNat_low_half]
  exact Nat.mod_lt _ (by decide)

theorem halves_eq (x : UInt64) :
    (x >>> 32).toNat * 2 ^ 32 + x.toUInt32.toUInt64.toNat = x.toNat := by
  rw [toNat_high_half, toNat_low_half]
  omega

/-- A carry as a number. -/
theorem toNat_carry (x y : UInt64) :
    (if x < y then (1 : UInt64) else 0).toNat = if x.toNat < y.toNat then 1 else 0 := by
  by_cases h : x < y
  · rw [if_pos h, if_pos (UInt64.lt_iff_toNat_lt.mp h)]
    rfl
  · rw [if_neg h, if_neg fun h' => h (UInt64.lt_iff_toNat_lt.mpr h')]
    rfl

/-- The two words computed from limbs, put together, are the whole product. -/
theorem limbs_words {ha hb la lb rl t lo : UInt64} (hha : ha.toNat < 2 ^ 32)
    (hhb : hb.toNat < 2 ^ 32) (hla : la.toNat < 2 ^ 32) (hlb : lb.toNat < 2 ^ 32)
    (hrl : rl = la * lb) (ht : t = rl + (ha * lb) <<< 32) (hlo : lo = t + (hb * la) <<< 32) :
    (ha * hb + (ha * lb) >>> 32 + (hb * la) >>> 32 +
        ((if t < rl then 1 else 0) + if lo < t then 1 else 0)).toNat * 2 ^ 64 + lo.toNat
      = (ha.toNat * 2 ^ 32 + la.toNat) * (hb.toNat * 2 ^ 32 + lb.toNat) := by
  have hrl' : rl.toNat = la.toNat * lb.toNat := by rw [hrl, toNat_mul_halves hla hlb]
  have ht' : t.toNat = (la.toNat * lb.toNat + ha.toNat * lb.toNat % 2 ^ 32 * 2 ^ 32)
      % (2 ^ 32 * 2 ^ 32) := by
    rw [ht, UInt64.toNat_add, toNat_shiftLeft_half, toNat_mul_halves hha hlb, hrl']
    rfl
  have hlo' : lo.toNat = (t.toNat + hb.toNat * la.toNat % 2 ^ 32 * 2 ^ 32)
      % (2 ^ 32 * 2 ^ 32) := by
    rw [hlo, UInt64.toNat_add, toNat_shiftLeft_half, toNat_mul_halves hhb hla]
    rfl
  have key := limbs_mul hla hlb ht' hlo'
  -- The product is less than 2 ^ 128, so the high word did not wrap around.
  have hprod : (ha.toNat * 2 ^ 32 + la.toNat) * (hb.toNat * 2 ^ 32 + lb.toNat)
      < 2 ^ 64 * 2 ^ 64 := Nat.mul_lt_mul'' (by omega) (by omega)
  rw [← key] at hprod ⊢
  rw [UInt64.toNat_add, UInt64.toNat_add, UInt64.toNat_add, UInt64.toNat_add,
    toNat_carry, toNat_carry, toNat_high_half, toNat_high_half, toNat_mul_halves hha hhb,
    toNat_mul_halves hha hlb, toNat_mul_halves hhb hla, hrl']
  have hmod (n : ℕ) (h : n * (2 ^ 32 * 2 ^ 32) + lo.toNat < 2 ^ 64 * 2 ^ 64) : n % 2 ^ 64 = n :=
    Nat.mod_eq_of_lt (by omega)
  rw [← hmod _ hprod]
  congr 2
  omega

/-- The limbs give the same halves as the wide product. -/
theorem rapidMumPortable_eq (a b : UInt64) : rapidMumPortable a b = rapidMum a b := by
  have key : (rapidMumPortable a b).2.toNat * 2 ^ 64 + (rapidMumPortable a b).1.toNat
      = a.toNat * b.toNat := by
    rw [← halves_eq a, ← halves_eq b]
    exact limbs_words (high_half_lt a) (high_half_lt b) (low_half_lt a) (low_half_lt b)
      rfl rfl rfl
  have hlo := (rapidMumPortable a b).1.toNat_lt
  have hhi := (rapidMumPortable a b).2.toNat_lt
  refine Prod.ext (UInt64.toNat_inj.mp ?_) (UInt64.toNat_inj.mp ?_)
  · show _ = (UInt64.ofNat (a.toNat * b.toNat)).toNat
    rw [UInt64.toNat_ofNat', ← key]
    omega
  · show _ = (UInt64.ofNat ((a.toNat * b.toNat) >>> 64)).toNat
    rw [UInt64.toNat_ofNat', Nat.shiftRight_eq_div_pow, ← key]
    omega

/-! ### The reads -/

/-- The swap that the last branch of `rapid_read64` spells out. -/
def bswap64 (v : UInt64) : UInt64 :=
  (v >>> 56 &&& (0xff : UInt64)) ||| (v >>> 40 &&& (0xff00 : UInt64)) |||
    (v >>> 24 &&& (0xff0000 : UInt64)) ||| (v >>> 8 &&& (0xff000000 : UInt64)) |||
    (v <<< 8 &&& (0xff00000000 : UInt64)) ||| (v <<< 24 &&& (0xff0000000000 : UInt64)) |||
    (v <<< 40 &&& (0xff000000000000 : UInt64)) ||| (v <<< 56 &&& (0xff00000000000000 : UInt64))

/-- The swap that the last branch of `rapid_read32` spells out. -/
def bswap32 (v : UInt32) : UInt32 :=
  (v >>> 24 &&& (0xff : UInt32)) ||| (v >>> 8 &&& (0xff00 : UInt32)) |||
    (v <<< 8 &&& (0xff0000 : UInt32)) ||| (v <<< 24 &&& (0xff000000 : UInt32))

theorem bswap64_toNat (v : UInt64) :
    (bswap64 v).toNat = v.toNat / 2 ^ 56 % 256 * 2 ^ 0 + v.toNat / 2 ^ 48 % 256 * 2 ^ 8
      + v.toNat / 2 ^ 40 % 256 * 2 ^ 16 + v.toNat / 2 ^ 32 % 256 * 2 ^ 24
      + v.toNat / 2 ^ 24 % 256 * 2 ^ 32 + v.toNat / 2 ^ 16 % 256 * 2 ^ 40
      + v.toNat / 2 ^ 8 % 256 * 2 ^ 48 + v.toNat / 2 ^ 0 % 256 * 2 ^ 56 := by
  have h₀ : (v >>> 56 &&& (0xff : UInt64)).toNat = v.toNat / 2 ^ 56 % 256 * 2 ^ 0 :=
    shiftRight_field v.toNat 56 0
  have h₁ : (v >>> 40 &&& (0xff00 : UInt64)).toNat = v.toNat / 2 ^ 48 % 256 * 2 ^ 8 :=
    shiftRight_field v.toNat 40 8
  have h₂ : (v >>> 24 &&& (0xff0000 : UInt64)).toNat = v.toNat / 2 ^ 40 % 256 * 2 ^ 16 :=
    shiftRight_field v.toNat 24 16
  have h₃ : (v >>> 8 &&& (0xff000000 : UInt64)).toNat = v.toNat / 2 ^ 32 % 256 * 2 ^ 24 :=
    shiftRight_field v.toNat 8 24
  have h₄ : (v <<< 8 &&& (0xff00000000 : UInt64)).toNat = v.toNat / 2 ^ 24 % 256 * 2 ^ 32 :=
    shiftLeft_field (n := 8) (k := 24) (w := 64) (by decide) v.toNat
  have h₅ : (v <<< 24 &&& (0xff0000000000 : UInt64)).toNat = v.toNat / 2 ^ 16 % 256 * 2 ^ 40 :=
    shiftLeft_field (n := 24) (k := 16) (w := 64) (by decide) v.toNat
  have h₆ : (v <<< 40 &&& (0xff000000000000 : UInt64)).toNat
      = v.toNat / 2 ^ 8 % 256 * 2 ^ 48 :=
    shiftLeft_field (n := 40) (k := 8) (w := 64) (by decide) v.toNat
  have h₇ : (v <<< 56 &&& (0xff00000000000000 : UInt64)).toNat
      = v.toNat / 2 ^ 0 % 256 * 2 ^ 56 :=
    shiftLeft_field (n := 56) (k := 0) (w := 64) (by decide) v.toNat
  rw [bswap64, UInt64.toNat_or, UInt64.toNat_or, UInt64.toNat_or, UInt64.toNat_or,
    UInt64.toNat_or, UInt64.toNat_or, UInt64.toNat_or, h₀, h₁, h₂, h₃, h₄, h₅, h₆, h₇]
  -- From the lowest field up, so that each one lies above the sum so far.
  have hb (x : ℕ) : x % 256 < 256 := Nat.mod_lt _ (by decide)
  obtain ⟨e₁, l₁⟩ := or_byte (k := 8) (b := v.toNat / 2 ^ 48 % 256)
    (by omega : v.toNat / 2 ^ 56 % 256 * 2 ^ 0 < 2 ^ 8) (hb _)
  obtain ⟨e₂, l₂⟩ := or_byte l₁ (hb (v.toNat / 2 ^ 40))
  obtain ⟨e₃, l₃⟩ := or_byte l₂ (hb (v.toNat / 2 ^ 32))
  obtain ⟨e₄, l₄⟩ := or_byte l₃ (hb (v.toNat / 2 ^ 24))
  obtain ⟨e₅, l₅⟩ := or_byte l₄ (hb (v.toNat / 2 ^ 16))
  obtain ⟨e₆, l₆⟩ := or_byte l₅ (hb (v.toNat / 2 ^ 8))
  obtain ⟨e₇, -⟩ := or_byte l₆ (hb (v.toNat / 2 ^ 0))
  rw [e₁, e₂, e₃, e₄, e₅, e₆, e₇]

theorem bswap32_toNat (v : UInt32) :
    (bswap32 v).toNat = v.toNat / 2 ^ 24 % 256 * 2 ^ 0 + v.toNat / 2 ^ 16 % 256 * 2 ^ 8
      + v.toNat / 2 ^ 8 % 256 * 2 ^ 16 + v.toNat / 2 ^ 0 % 256 * 2 ^ 24 := by
  have h₀ : (v >>> 24 &&& (0xff : UInt32)).toNat = v.toNat / 2 ^ 24 % 256 * 2 ^ 0 :=
    shiftRight_field v.toNat 24 0
  have h₁ : (v >>> 8 &&& (0xff00 : UInt32)).toNat = v.toNat / 2 ^ 16 % 256 * 2 ^ 8 :=
    shiftRight_field v.toNat 8 8
  have h₂ : (v <<< 8 &&& (0xff0000 : UInt32)).toNat = v.toNat / 2 ^ 8 % 256 * 2 ^ 16 :=
    shiftLeft_field (n := 8) (k := 8) (w := 32) (by decide) v.toNat
  have h₃ : (v <<< 24 &&& (0xff000000 : UInt32)).toNat = v.toNat / 2 ^ 0 % 256 * 2 ^ 24 :=
    shiftLeft_field (n := 24) (k := 0) (w := 32) (by decide) v.toNat
  rw [bswap32, UInt32.toNat_or, UInt32.toNat_or, UInt32.toNat_or, h₀, h₁, h₂, h₃]
  have hb (x : ℕ) : x % 256 < 256 := Nat.mod_lt _ (by decide)
  obtain ⟨e₁, l₁⟩ := or_byte (k := 8) (b := v.toNat / 2 ^ 16 % 256)
    (by omega : v.toNat / 2 ^ 24 % 256 * 2 ^ 0 < 2 ^ 8) (hb _)
  obtain ⟨e₂, l₂⟩ := or_byte l₁ (hb (v.toNat / 2 ^ 8))
  obtain ⟨e₃, -⟩ := or_byte l₂ (hb (v.toNat / 2 ^ 0))
  rw [e₁, e₂, e₃]

/-- A word of eight bytes from a big endian memory, swapped. -/
theorem bswap64_beWord (a b c d e f g h : UInt8) :
    bswap64 (beWord [a, b, c, d, e, f, g, h]) = leWord [a, b, c, d, e, f, g, h] := by
  refine UInt64.toNat_inj.mp ?_
  have hv : (beWord [a, b, c, d, e, f, g, h]).toNat = bytesNat [h, g, f, e, d, c, b, a] := by
    rw [beWord_eq]
    exact toNat_leWord (Nat.le_refl [h, g, f, e, d, c, b, a].length)
  have hw : (leWord [a, b, c, d, e, f, g, h]).toNat = bytesNat [a, b, c, d, e, f, g, h] :=
    toNat_leWord (Nat.le_refl 8)
  have hd := bytesNat_digit [h, g, f, e, d, c, b, a]
  rw [bswap64_toNat, hv, hw, show 2 ^ 56 = 256 ^ 7 from rfl, hd 7, show 2 ^ 48 = 256 ^ 6 from rfl,
    hd 6, show 2 ^ 40 = 256 ^ 5 from rfl, hd 5, show 2 ^ 32 = 256 ^ 4 from rfl, hd 4,
    show 2 ^ 24 = 256 ^ 3 from rfl, hd 3, show 2 ^ 16 = 256 ^ 2 from rfl, hd 2,
    show 2 ^ 8 = 256 ^ 1 from rfl, hd 1, show 2 ^ 0 = 256 ^ 0 from rfl, hd 0]
  simp only [bytesNat_cons, show bytesNat [] = 0 from rfl, List.getD_cons_succ,
    List.getD_cons_zero]
  ring

/-- A word of four bytes from a big endian memory, swapped. -/
theorem bswap32_beWord (a b c d : UInt8) :
    (bswap32 (beWord [a, b, c, d]).toUInt32).toUInt64 = leWord [a, b, c, d] := by
  refine UInt64.toNat_inj.mp ?_
  have hv : (beWord [a, b, c, d]).toUInt32.toNat = bytesNat [d, c, b, a] := by
    rw [UInt64.toNat_toUInt32, beWord_eq]
    show (leWord [d, c, b, a]).toNat % 2 ^ 32 = _
    rw [toNat_leWord (show [d, c, b, a].length ≤ 8 from Nat.le_add_left 4 4)]
    have hlt : bytesNat [d, c, b, a] < 256 ^ 4 := bytesNat_lt [d, c, b, a]
    exact Nat.mod_eq_of_lt (hlt.trans_eq (by decide))
  have hw : (leWord [a, b, c, d]).toNat = bytesNat [a, b, c, d] :=
    toNat_leWord (show [a, b, c, d].length ≤ 8 from Nat.le_add_left 4 4)
  have hd := bytesNat_digit [d, c, b, a]
  rw [UInt32.toNat_toUInt64, bswap32_toNat, hv, hw, show 2 ^ 24 = 256 ^ 3 from rfl, hd 3,
    show 2 ^ 16 = 256 ^ 2 from rfl, hd 2, show 2 ^ 8 = 256 ^ 1 from rfl, hd 1,
    show 2 ^ 0 = 256 ^ 0 from rfl, hd 0]
  simp only [bytesNat_cons, show bytesNat [] = 0 from rfl, List.getD_cons_succ,
    List.getD_cons_zero]
  ring

/-! ### The machine -/

/-- What the header asks about the machine and its compiler. -/
structure Platform where
  /-- `RAPIDHASH_LITTLE_ENDIAN` -/
  littleEndian : Bool
  /-- There is a product of 128 bits, by `__uint128_t` or by the intrinsics. -/
  wideProduct : Bool
  /-- There is a swap of bytes: `__builtin_bswap64` or `_byteswap_uint64`. -/
  builtinSwap : Bool

/-- `rapid_mum`. -/
def rapidMumOn (m : Platform) (a b : UInt64) : UInt64 × UInt64 :=
  if m.wideProduct then rapidMum a b else rapidMumPortable a b

/-- `rapid_mix`. -/
def rapidMixOn (m : Platform) (a b : UInt64) : UInt64 :=
  let (a, b) := rapidMumOn m a b
  a ^^^ b

/-- The bytes that `memcpy` copies from the key, if they all are in it. -/
def copyFrom (key : List UInt8) (p n : ℕ) : Option (List UInt8) :=
  if p + n ≤ key.length then some ((key.drop p).take n) else none

/-- The value of the variable that the bytes were copied to. -/
def Platform.word (m : Platform) (bytes : List UInt8) : UInt64 :=
  if m.littleEndian then leWord bytes else beWord bytes

/-- The builtin swap of the `n` bytes of a value. -/
def builtinSwap (n : ℕ) (v : UInt64) : UInt64 := beWord (wordBytes n v)

/-- `rapid_read64`. -/
def rapidRead64On (m : Platform) (key : List UInt8) (p : ℕ) : Option UInt64 := do
  let bytes ← copyFrom key p 8
  let v := m.word bytes
  if m.littleEndian then some v
  else if m.builtinSwap then some (builtinSwap 8 v)
  else some (bswap64 v)

/-- `rapid_read32`. -/
def rapidRead32On (m : Platform) (key : List UInt8) (p : ℕ) : Option UInt64 := do
  let bytes ← copyFrom key p 4
  let v := m.word bytes
  if m.littleEndian then some v
  else if m.builtinSwap then some (builtinSwap 4 v)
  else some (bswap32 v.toUInt32).toUInt64

/-- A byte of the key. -/
def rapidByteOn (key : List UInt8) (p : ℕ) : Option UInt64 := (key[p]?).map UInt8.toUInt64

/-- A pointer moved back, if that is not in front of the key. -/
def moveBack (p n : ℕ) : Option ℕ := if n ≤ p then some (p - n) else none

/-! ### The hash -/

/-- The end of `rapidhashMicro_internal`. -/
def rapidMicroFinishOn (m : Platform) (seed a b : UInt64) (i : ℕ) : UInt64 :=
  let (a, b) := rapidMumOn m (a ^^^ rapidSecret 1) (b ^^^ seed)
  rapidMixOn m (a ^^^ rapidSecret 7) (b ^^^ rapidSecret 1 ^^^ UInt64.ofNat i)

/-- One product of the loop and of what follows it. -/
def rapidStepOn (m : Platform) (key : List UInt8) (p secret : ℕ) (see : UInt64) :
    Option UInt64 := do
  let x ← rapidRead64On m key p
  let y ← rapidRead64On m key (p + 8)
  some (rapidMixOn m (x ^^^ rapidSecret secret) (y ^^^ see))

/-- The body of the loop. -/
def RapidMicro.roundOn (m : Platform) (key : List UInt8) (s : RapidMicro) :
    Option RapidMicro := do
  let seed ← rapidStepOn m key s.p 0 s.seed
  let see1 ← rapidStepOn m key (s.p + 16) 1 s.see1
  let see2 ← rapidStepOn m key (s.p + 32) 2 s.see2
  let see3 ← rapidStepOn m key (s.p + 48) 3 s.see3
  let see4 ← rapidStepOn m key (s.p + 64) 4 s.see4
  let i ← moveBack s.i 80
  some { seed, see1, see2, see3, see4, p := s.p + 80, i }

/-- `do .. while (i > 80)`, if it ends within `n` rounds. -/
def RapidMicro.loopOn (m : Platform) (key : List UInt8) : ℕ → RapidMicro → Option RapidMicro
  | 0, _ => none
  | n + 1, s => do
    let s ← s.roundOn m key
    if 80 < s.i then s.loopOn m key n else some s

/-- The branch `if (i > 80)`. -/
def rapidMicroBlocksOn (m : Platform) (key : List UInt8) (seed : UInt64) :
    Option (UInt64 × ℕ × ℕ) :=
  if 80 < key.length then do
    let s ← RapidMicro.loopOn m key key.length ⟨seed, seed, seed, seed, seed, 0, key.length⟩
    some (s.seed ^^^ s.see1 ^^^ s.see4 ^^^ (s.see2 ^^^ s.see3), s.p, s.i)
  else some (seed, 0, key.length)

/-- The branch `if (i > 16)`. -/
def rapidMicroTailOn (m : Platform) (key : List UInt8) (seed : UInt64) (p i : ℕ) :
    Option UInt64 := do
  if 16 < i then
    let seed ← rapidStepOn m key p 2 seed
    if 32 < i then
      let seed ← rapidStepOn m key (p + 16) 2 seed
      if 48 < i then
        let seed ← rapidStepOn m key (p + 32) 1 seed
        if 64 < i then rapidStepOn m key (p + 48) 1 seed else some seed
      else some seed
    else some seed
  else some seed

/-- `rapidhashMicro_internal`, with the default secrets. -/
def rapidhashMicroInternalOn (m : Platform) (key : List UInt8) (seed : UInt64) :
    Option UInt64 := do
  let len := key.length
  let seed := seed ^^^ rapidMixOn m (seed ^^^ rapidSecret 2) (rapidSecret 1)
  if len ≤ 16 then
    if 4 ≤ len then
      let seed := seed ^^^ UInt64.ofNat len
      if 8 ≤ len then
        let plast ← moveBack len 8
        let a ← rapidRead64On m key 0
        let b ← rapidRead64On m key plast
        some (rapidMicroFinishOn m seed a b len)
      else
        let plast ← moveBack len 4
        let a ← rapidRead32On m key 0
        let b ← rapidRead32On m key plast
        some (rapidMicroFinishOn m seed a b len)
    else if 0 < len then
      let first ← rapidByteOn key 0
      let last ← moveBack len 1 >>= rapidByteOn key
      let b ← rapidByteOn key (len >>> 1)
      some (rapidMicroFinishOn m seed (first <<< 45 ||| last) b len)
    else some (rapidMicroFinishOn m seed 0 0 len)
  else
    let (seed, p, i) ← rapidMicroBlocksOn m key seed
    let seed ← rapidMicroTailOn m key seed p i
    let a ← moveBack (p + i) 16 >>= rapidRead64On m key
    let b ← moveBack (p + i) 8 >>= rapidRead64On m key
    some (rapidMicroFinishOn m seed (a ^^^ UInt64.ofNat i) b i)

/-- `rapidhashMicro`. -/
def rapidhashMicroOn (m : Platform) (key : List UInt8) : Option UInt64 :=
  rapidhashMicroInternalOn m key 0

/-! ### Every machine computes the same -/

variable (m : Platform)

theorem rapidMumOn_eq (a b : UInt64) : rapidMumOn m a b = rapidMum a b := by
  rw [rapidMumOn]
  split
  · rfl
  · exact rapidMumPortable_eq a b

theorem rapidMixOn_eq (a b : UInt64) : rapidMixOn m a b = rapidMix a b := by
  rw [rapidMixOn, rapidMumOn_eq]
  rfl

theorem rapidMicroFinishOn_eq (seed a b : UInt64) (i : ℕ) :
    rapidMicroFinishOn m seed a b i = rapidMicroFinish seed a b i := by
  rw [rapidMicroFinishOn, rapidMumOn_eq]
  exact rapidMixOn_eq m _ _

theorem moveBack_eq {p n : ℕ} (h : n ≤ p) : moveBack p n = some (p - n) := if_pos h

theorem copyFrom_eq {key : List UInt8} {p n : ℕ} (h : p + n ≤ key.length) :
    copyFrom key p n = some ((key.drop p).take n) := if_pos h

theorem length_copied {key : List UInt8} {p n : ℕ} (h : p + n ≤ key.length) :
    ((key.drop p).take n).length = n := by
  rw [List.length_take, List.length_drop]
  omega

/-- Eight bytes, whatever their order in a word. -/
theorem read64_word {bytes : List UInt8} (h : bytes.length = 8) :
    (if m.littleEndian then some (m.word bytes)
      else if m.builtinSwap then some (builtinSwap 8 (m.word bytes))
      else some (bswap64 (m.word bytes))) = some (leWord bytes) := by
  cases hm : m.littleEndian with
  | true => rw [if_pos rfl, Platform.word, if_pos hm]
  | false =>
    have hw : m.word bytes = beWord bytes := by rw [Platform.word, hm, if_neg Bool.false_ne_true]
    rw [if_neg Bool.false_ne_true, hw]
    split
    · have := beWord_wordBytes h.le
      rw [builtinSwap, ← h, this]
    · match bytes, h with
      | [a, b, c, d, e, f, g, h], _ => rw [bswap64_beWord]

/-- Four bytes, whatever their order in a word. -/
theorem read32_word {bytes : List UInt8} (h : bytes.length = 4) :
    (if m.littleEndian then some (m.word bytes)
      else if m.builtinSwap then some (builtinSwap 4 (m.word bytes))
      else some (bswap32 (m.word bytes).toUInt32).toUInt64) = some (leWord bytes) := by
  cases hm : m.littleEndian with
  | true => rw [if_pos rfl, Platform.word, if_pos hm]
  | false =>
    have hw : m.word bytes = beWord bytes := by rw [Platform.word, hm, if_neg Bool.false_ne_true]
    rw [if_neg Bool.false_ne_true, hw]
    split
    · have := beWord_wordBytes (show bytes.length ≤ 8 by omega)
      rw [builtinSwap, ← h, this]
    · match bytes, h with
      | [a, b, c, d], _ => rw [bswap32_beWord]

theorem rapidRead64On_eq {key : List UInt8} {p : ℕ} (h : p + 8 ≤ key.length) :
    rapidRead64On m key p = some (rapidRead64 key p) := by
  rw [rapidRead64On, copyFrom_eq h]
  exact read64_word m (length_copied h)

theorem rapidRead32On_eq {key : List UInt8} {p : ℕ} (h : p + 4 ≤ key.length) :
    rapidRead32On m key p = some (rapidRead32 key p) := by
  rw [rapidRead32On, copyFrom_eq h]
  exact read32_word m (length_copied h)

theorem rapidByteOn_eq {key : List UInt8} {p : ℕ} (h : p < key.length) :
    rapidByteOn key p = some (rapidByte key p) := by
  rw [rapidByteOn, rapidByte, List.getD_eq_getElem?_getD, List.getElem?_eq_getElem h]
  rfl

theorem rapidStepOn_eq {key : List UInt8} {p : ℕ} (h : p + 16 ≤ key.length) (secret : ℕ)
    (see : UInt64) :
    rapidStepOn m key p secret see = some (rapidMix (rapidRead64 key p ^^^ rapidSecret secret)
      (rapidRead64 key (p + 8) ^^^ see)) := by
  rw [rapidStepOn, rapidRead64On_eq m (by omega), rapidRead64On_eq m (by omega)]
  show some (rapidMixOn m _ _) = _
  rw [rapidMixOn_eq]

theorem roundOn_eq {key : List UInt8} {s : RapidMicro} (h : s.p + 80 ≤ key.length)
    (hi : 80 ≤ s.i) : s.roundOn m key = some (s.round key) := by
  rw [RapidMicro.roundOn, rapidStepOn_eq m (by omega), rapidStepOn_eq m (by omega),
    rapidStepOn_eq m (by omega), rapidStepOn_eq m (by omega), rapidStepOn_eq m (by omega),
    moveBack_eq hi]
  rfl

/-- The loop keeps what is left of the key after `p` in `i`, and leaves one to eighty
bytes; `n` rounds are enough for it as they are for `RapidMicro.loop`. -/
theorem loopOn_eq {key : List UInt8} (n : ℕ) {s : RapidMicro} (h : s.p + s.i = key.length)
    (hi : 80 < s.i) (hn : s.i ≤ n) :
    s.loopOn m key n = some (s.loop key n) ∧
      (s.loop key n).p + (s.loop key n).i = key.length ∧ (s.loop key n).i ≤ 80 := by
  induction n generalizing s with
  | zero => omega
  | succ n ih =>
    have hround := roundOn_eq m (show s.p + 80 ≤ key.length by omega) (show 80 ≤ s.i by omega)
    have hp : (s.round key).p = s.p + 80 := rfl
    have hi' : (s.round key).i = s.i - 80 := rfl
    rw [RapidMicro.loopOn, RapidMicro.loop, hround]
    show (if 80 < (s.round key).i then _ else _) = _ ∧ _
    by_cases hmore : 80 < (s.round key).i
    · simp only [if_pos hmore]
      exact ih (by omega) hmore (by omega)
    · simp only [if_neg hmore]
      exact ⟨trivial, by omega, by omega⟩

theorem rapidMicroBlocksOn_eq (key : List UInt8) (seed : UInt64) :
    rapidMicroBlocksOn m key seed = some (rapidMicroBlocks key seed) ∧
      (rapidMicroBlocks key seed).2.1 + (rapidMicroBlocks key seed).2.2 = key.length ∧
      (rapidMicroBlocks key seed).2.2 ≤ 80 := by
  rw [rapidMicroBlocksOn, rapidMicroBlocks]
  by_cases h : 80 < key.length
  · obtain ⟨hloop, hlen, hle⟩ := loopOn_eq m (key.length)
      (s := ⟨seed, seed, seed, seed, seed, 0, key.length⟩) (Nat.zero_add _) h (Nat.le_refl _)
    rw [if_pos h, if_pos h, hloop]
    exact ⟨rfl, hlen, hle⟩
  · rw [if_neg h, if_neg h]
    exact ⟨rfl, Nat.zero_add _, Nat.le_of_not_lt h⟩

theorem rapidMicroTailOn_eq {key : List UInt8} (seed : UInt64) {p i : ℕ}
    (h : p + i = key.length) :
    rapidMicroTailOn m key seed p i = some (rapidMicroTail key seed p i) := by
  rw [rapidMicroTailOn, rapidMicroTail]
  -- The bounds are nested in the one and follow each other in the other.
  by_cases h₁ : 16 < i
  · rw [if_pos h₁, rapidStepOn_eq m (by omega)]
    by_cases h₂ : 32 < i
    · by_cases h₃ : 48 < i
      · by_cases h₄ : 64 < i
        · simp only [if_pos h₁, if_pos h₂, if_pos h₃, if_pos h₄, Option.bind_eq_bind,
            Option.bind_some, rapidStepOn_eq m (by omega : p + 16 + 16 ≤ key.length),
            rapidStepOn_eq m (by omega : p + 32 + 16 ≤ key.length),
            rapidStepOn_eq m (by omega : p + 48 + 16 ≤ key.length)]
          rfl
        · simp only [if_pos h₁, if_pos h₂, if_pos h₃, if_neg h₄, Option.bind_eq_bind,
            Option.bind_some, rapidStepOn_eq m (by omega : p + 16 + 16 ≤ key.length),
            rapidStepOn_eq m (by omega : p + 32 + 16 ≤ key.length)]
          rfl
      · simp only [if_pos h₁, if_pos h₂, if_neg h₃, if_neg (by omega : ¬ 64 < i),
          Option.bind_eq_bind, Option.bind_some,
          rapidStepOn_eq m (by omega : p + 16 + 16 ≤ key.length)]
        rfl
    · simp only [if_pos h₁, if_neg h₂, if_neg (by omega : ¬ 48 < i),
        if_neg (by omega : ¬ 64 < i), Option.bind_eq_bind, Option.bind_some]
      rfl
  · simp only [if_neg h₁, if_neg (by omega : ¬ 32 < i), if_neg (by omega : ¬ 48 < i),
      if_neg (by omega : ¬ 64 < i)]

theorem rapidhashMicroInternalOn_eq (key : List UInt8) (seed : UInt64) :
    rapidhashMicroInternalOn m key seed = some (rapidhashMicroInternal key seed) := by
  rw [rapidhashMicroInternalOn, rapidhashMicroInternal]
  simp only [rapidMixOn_eq, rapidMicroFinishOn_eq]
  by_cases h₁₆ : key.length ≤ 16
  · rw [if_pos h₁₆, if_pos h₁₆]
    by_cases h₄ : 4 ≤ key.length
    · rw [if_pos h₄, if_pos h₄]
      by_cases h₈ : 8 ≤ key.length
      · rw [if_pos h₈, if_pos h₈, moveBack_eq h₈, rapidRead64On_eq m (by omega)]
        simp only [Option.bind_eq_bind, Option.bind_some]
        rw [rapidRead64On_eq m (by omega)]
        rfl
      · rw [if_neg h₈, if_neg h₈, moveBack_eq h₄, rapidRead32On_eq m (by omega)]
        simp only [Option.bind_eq_bind, Option.bind_some]
        rw [rapidRead32On_eq m (by omega)]
        rfl
    · rw [if_neg h₄, if_neg h₄]
      by_cases h₀ : 0 < key.length
      · have hmid : key.length >>> 1 < key.length := by
          rw [Nat.shiftRight_eq_div_pow]
          omega
        rw [if_pos h₀, if_pos h₀, rapidByteOn_eq h₀, moveBack_eq h₀, rapidByteOn_eq hmid]
        simp only [Option.bind_eq_bind, Option.bind_some]
        rw [rapidByteOn_eq (by omega)]
        rfl
      · rw [if_neg h₀, if_neg h₀]
  · obtain ⟨hblocks, hlen, -⟩ :=
      rapidMicroBlocksOn_eq m key (seed ^^^ rapidMix (seed ^^^ rapidSecret 2) (rapidSecret 1))
    rw [if_neg h₁₆, if_neg h₁₆, hblocks]
    generalize rapidMicroBlocks key _ = blocks at hlen
    obtain ⟨seed, p, i⟩ := blocks
    simp only [Option.bind_eq_bind, Option.bind_some]
    have hlen : p + i = key.length := hlen
    rw [rapidMicroTailOn_eq m seed hlen, moveBack_eq (by omega), moveBack_eq (by omega)]
    simp only [Option.bind_some]
    rw [rapidRead64On_eq m (by omega), rapidRead64On_eq m (by omega)]
    rfl

/-- On every machine the hash of every key has a value, so no read leaves the key and
the loop ends, and the value is the one of the default code. -/
theorem rapidhashMicroOn_eq (key : List UInt8) :
    rapidhashMicroOn m key = some (rapidhashMicro key) :=
  rapidhashMicroInternalOn_eq m key 0

end Freehttpd
