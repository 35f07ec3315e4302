/-
The part of `src/hash/rapidhash.h` that `str_htable` uses.

`rapidhashMicro` hashes the bytes of a key; a pointer into the key is its offset.
The variant is the one that the header selects by default: `RAPIDHASH_FAST`, on a
little endian machine with a 128-bit integer type.
-/
import Mathlib.Tactic.Common
import Mathlib.Data.Nat.Notation

namespace Freehttpd

/-- `rapid_secret`. -/
def rapidSecret (i : ℕ) : UInt64 :=
  [0x2d358dccaa6c78a5, 0x8bb84b93962eacc9, 0x4b33a62ed433d4a3, 0x4d5a2da51de1aa47,
    0xa0761d6478bd642f, 0xe7037ed1a0b428db, 0x90ed1765281c388c, 0xaaaaaaaaaaaaaaaa].getD i 0

/-- `rapid_mum`: the low and the high half of the product. -/
def rapidMum (a b : UInt64) : UInt64 × UInt64 :=
  let r := a.toNat * b.toNat
  (UInt64.ofNat r, UInt64.ofNat (r >>> 64))

/-- `rapid_mix`. -/
def rapidMix (a b : UInt64) : UInt64 :=
  let (a, b) := rapidMum a b
  a ^^^ b

/-- The little endian value of `n` bytes from offset `p` on. -/
def rapidRead (n : ℕ) (key : List UInt8) (p : ℕ) : UInt64 :=
  ((key.drop p).take n).foldr (fun b v => v <<< 8 ||| b.toUInt64) 0

/-- `rapid_read64`. -/
def rapidRead64 (key : List UInt8) (p : ℕ) : UInt64 := rapidRead 8 key p

/-- `rapid_read32`. -/
def rapidRead32 (key : List UInt8) (p : ℕ) : UInt64 := rapidRead 4 key p

/-- The byte at offset `p`. -/
def rapidByte (key : List UInt8) (p : ℕ) : UInt64 := (key.getD p 0).toUInt64

/-! ### Long keys -/

/-- The local variables of the loop of `rapidhashMicro_internal`. -/
structure RapidMicro where
  seed : UInt64
  see1 : UInt64
  see2 : UInt64
  see3 : UInt64
  see4 : UInt64
  p : ℕ
  i : ℕ

/-- The body of the loop. -/
def RapidMicro.round (key : List UInt8) (s : RapidMicro) : RapidMicro :=
  let mix (k : ℕ) (see : UInt64) : UInt64 :=
    rapidMix (rapidRead64 key (s.p + 16 * k) ^^^ rapidSecret k)
      (rapidRead64 key (s.p + 16 * k + 8) ^^^ see)
  { seed := mix 0 s.seed
    see1 := mix 1 s.see1
    see2 := mix 2 s.see2
    see3 := mix 3 s.see3
    see4 := mix 4 s.see4
    p := s.p + 80
    i := s.i - 80 }

/-- `do .. while (i > 80)`, for at most `n` rounds. -/
def RapidMicro.loop (key : List UInt8) : ℕ → RapidMicro → RapidMicro
  | 0, s => s
  | n + 1, s =>
    let s := s.round key
    if 80 < s.i then s.loop key n else s

/-- The branch `if (i > 80)`: what is left of the key, and the seed. -/
def rapidMicroBlocks (key : List UInt8) (seed : UInt64) : UInt64 × ℕ × ℕ :=
  if 80 < key.length then
    let s := RapidMicro.loop key key.length ⟨seed, seed, seed, seed, seed, 0, key.length⟩
    (s.seed ^^^ s.see1 ^^^ s.see4 ^^^ (s.see2 ^^^ s.see3), s.p, s.i)
  else (seed, 0, key.length)

/-- The branch `if (i > 16)`: sixteen bytes at a time, of which the last are left. -/
def rapidMicroTail (key : List UInt8) (seed : UInt64) (p i : ℕ) : UInt64 :=
  let mix (k secret : ℕ) (seed : UInt64) : UInt64 :=
    rapidMix (rapidRead64 key (p + 16 * k) ^^^ rapidSecret secret)
      (rapidRead64 key (p + 16 * k + 8) ^^^ seed)
  let seed := if 16 < i then mix 0 2 seed else seed
  let seed := if 32 < i then mix 1 2 seed else seed
  let seed := if 48 < i then mix 2 1 seed else seed
  if 64 < i then mix 3 1 seed else seed

/-! ### The hash -/

/-- The end of `rapidhashMicro_internal`. -/
def rapidMicroFinish (seed a b : UInt64) (i : ℕ) : UInt64 :=
  let (a, b) := rapidMum (a ^^^ rapidSecret 1) (b ^^^ seed)
  rapidMix (a ^^^ rapidSecret 7) (b ^^^ rapidSecret 1 ^^^ UInt64.ofNat i)

/-- `rapidhashMicro_internal`, with the default secrets. -/
def rapidhashMicroInternal (key : List UInt8) (seed : UInt64) : UInt64 :=
  let len := key.length
  let seed := seed ^^^ rapidMix (seed ^^^ rapidSecret 2) (rapidSecret 1)
  if len ≤ 16 then
    if 4 ≤ len then
      let seed := seed ^^^ UInt64.ofNat len
      if 8 ≤ len then
        rapidMicroFinish seed (rapidRead64 key 0) (rapidRead64 key (len - 8)) len
      else rapidMicroFinish seed (rapidRead32 key 0) (rapidRead32 key (len - 4)) len
    else if 0 < len then
      rapidMicroFinish seed ((rapidByte key 0) <<< 45 ||| rapidByte key (len - 1))
        (rapidByte key (len >>> 1)) len
    else rapidMicroFinish seed 0 0 len
  else
    let (seed, p, i) := rapidMicroBlocks key seed
    let seed := rapidMicroTail key seed p i
    -- The last sixteen bytes may begin in front of `p`, but not of the key.
    rapidMicroFinish seed (rapidRead64 key (p + i - 16) ^^^ UInt64.ofNat i)
      (rapidRead64 key (p + i - 8)) i

/-- `rapidhashMicro`. -/
def rapidhashMicro (key : List UInt8) : UInt64 := rapidhashMicroInternal key 0

end Freehttpd
