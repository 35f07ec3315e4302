/-
The byte ranges that the slices of the xpoll backend hand out.

`rangeStep` acquires slices together with the buffer that
`fh_xio_request_prep_slice_get_buffer` gives for them, and releases the
references again; beside the pool it keeps the references that are out.  The
slices lie side by side in the memory from `mem` on, and a slice hands its bytes
out from its `off` upwards.  So a new range lies behind every range of its slice
that is out, as long as `off` is not set back while one of them is
(`RangeOp.Unwrapped`).

* `slice_ranges_apart` — then, in every run that fails no assert, the ranges that
  are out lie in the blocks of their slices and share no byte;
* `RangeOp.unwrapped_of_lt` — nothing is set back too early while fewer than
  `2 ^ 16` references of a slice are out;
* `slice_ranges_overlap` — with `2 ^ 16` references to no bytes the 16-bit count
  wraps around, and two ranges overlap.
-/
import Freehttpd.XioSlices
import Mathlib.Order.Interval.Set.Basic

namespace Freehttpd

open Runs

/-- A reference to a slice that was acquired for `size` bytes, with the buffer
that belongs to it. -/
structure SliceRef where
  slice : ℕ
  buf : ℕ
  size : ℕ
deriving DecidableEq, Repr

/-- The bytes of a reference. -/
def SliceRef.bytes (r : SliceRef) : Set ℕ := Set.Ico r.buf (r.buf + r.size)

/-- The references share no byte. -/
def SliceRef.Apart (r r' : SliceRef) : Prop := ∀ a ∈ r.bytes, a ∉ r'.bytes

/-- The reference lies in the block of its slice, in the memory at `mem`. -/
def SliceRef.Inside (mem : ℕ) (r : SliceRef) : Prop :=
  r.slice < xioBufCount ∧ mem + r.slice * xioBufSize ≤ r.buf ∧
    r.buf + r.size ≤ mem + r.slice * xioBufSize + xioBufSize

/-- A call, with the reference that it gives back. -/
inductive RangeOp
  | acquire (size : ℕ)
  | release (ref : SliceRef)

/-- One call, with the asserts compiled in.  The second part of the state lists
the references that are out. -/
def rangeStep (s : SlicePool × List SliceRef) :
    RangeOp → Option (Option SliceRef × SlicePool × List SliceRef)
  | .acquire size => do
    match ← fhXioAcquireSlice false s.1 size with
    | none => some (none, s)
    | some (slice, p) => do
      let sl ← p.bufList.read slice
      let buf ← fhXioRequestPrepSliceGetBuffer false sl size
      some (some ⟨slice, buf, size⟩, p, ⟨slice, buf, size⟩ :: s.2)
  | .release ref => do
    let p ← fhXioReleaseSlice false s.1 ref.slice
    some (none, p, s.2.erase ref)

/-- Sizes up to the size of a slice, and references that are out. -/
def RangeOp.Admissible (s : SlicePool × List SliceRef) : RangeOp → Prop
  | .acquire size => size ≤ xioBufSize
  | .release ref => ref ∈ s.2

/-- The two asserts of `fh_xio_release_slice` hold. -/
def RangeOp.Passes (s : SlicePool × List SliceRef) : RangeOp → Prop
  | .acquire _ => True
  | .release ref => s.1.freeBufListTop < xioBufCount ∧
    ∃ sl, s.1.bufList.read ref.slice = some sl ∧ 0 < sl.refs

/-- How many references of a slice are out. -/
def refsOut (out : List SliceRef) (slice : ℕ) : ℕ := out.countP fun r => r.slice = slice

/-- A release that brings the 16-bit count of a slice to zero leaves no byte of the
slice out. -/
def RangeOp.Unwrapped (s : SlicePool × List SliceRef) : RangeOp → Prop
  | .acquire _ => True
  | .release ref => refsOut s.2 ref.slice % 2 ^ 16 = 1 →
    ∀ r ∈ s.2.erase ref, r.slice = ref.slice → r.size = 0

instance RangeOp.decidableAdmissible (s : SlicePool × List SliceRef) :
    ∀ op : RangeOp, Decidable (op.Admissible s)
  | .acquire size => inferInstanceAs (Decidable (size ≤ xioBufSize))
  | .release ref => inferInstanceAs (Decidable (ref ∈ s.2))

instance RangeOp.decidablePasses (s : SlicePool × List SliceRef) :
    ∀ op : RangeOp, Decidable (op.Passes s)
  | .acquire _ => .isTrue trivial
  | .release ref =>
    decidable_of_iff (s.1.freeBufListTop < xioBufCount ∧
      (s.1.bufList.read ref.slice).any fun sl => 0 < sl.refs)
      (by simp [RangeOp.Passes, Option.any_eq_true])

instance RangeOp.decidableUnwrapped (s : SlicePool × List SliceRef) :
    ∀ op : RangeOp, Decidable (op.Unwrapped s)
  | .acquire _ => .isTrue trivial
  | .release ref => inferInstanceAs (Decidable (refsOut s.2 ref.slice % 2 ^ 16 = 1 →
      ∀ r ∈ s.2.erase ref, r.slice = ref.slice → r.size = 0))

/-- The ranges that are out lie in their blocks, and no two share a byte. -/
def RangesApart (mem : ℕ) (s : SlicePool × List SliceRef) : Prop :=
  (∀ r ∈ s.2, r.Inside mem) ∧ s.2.Pairwise SliceRef.Apart

/-! ### Counting references -/

theorem refsOut_cons (r : SliceRef) (out : List SliceRef) (b : ℕ) :
    refsOut (r :: out) b = refsOut out b + if r.slice = b then 1 else 0 := by
  simp [refsOut, List.countP_cons]

theorem refsOut_erase {out : List SliceRef} {r : SliceRef} (h : r ∈ out) (b : ℕ) :
    refsOut out b = refsOut (out.erase r) b + if r.slice = b then 1 else 0 := by
  rw [← refsOut_cons]
  exact (List.perm_cons_erase h).countP_eq _

/-- While fewer than `2 ^ 16` references of a slice are out the count does not
wrap around. -/
theorem RangeOp.unwrapped_of_lt {s : SlicePool × List SliceRef} {op : RangeOp}
    (hadm : op.Admissible s) (hlt : ∀ b, refsOut s.2 b < 2 ^ 16) : op.Unwrapped s := by
  cases op with
  | acquire size => trivial
  | release ref =>
    intro hone r hr hslice
    have hcount := refsOut_erase hadm ref.slice
    rw [if_pos rfl] at hcount
    have hpos : 0 < refsOut (s.2.erase ref) ref.slice :=
      List.countP_pos_iff.mpr ⟨r, hr, decide_eq_true hslice⟩
    have hs := hlt ref.slice
    omega

/-! ### The invariant -/

/-- Ranges of different slices share no byte. -/
theorem SliceRef.apart_of_slice_ne {mem : ℕ} {r r' : SliceRef} (h : r.Inside mem)
    (h' : r'.Inside mem) (hne : r.slice ≠ r'.slice) : r.Apart r' := by
  obtain ⟨-, hlo, hhi⟩ := h
  obtain ⟨-, hlo', hhi'⟩ := h'
  rw [xioBufSize] at hlo hhi hlo' hhi'
  rintro a ⟨hge, hlt⟩ ⟨hge', hlt'⟩
  omega

/-- What holds between the calls: the references are counted modulo `2 ^ 16`, and
the bytes of a slice that are out lie below its `off`. -/
structure RangesInv (mem : ℕ) (s : SlicePool × List SliceRef) : Prop where
  exists_free : ∃ free, s.1.Wf free
  buf_eq : ∀ b < xioBufCount, ∀ sl, s.1.bufList.read b = some sl → sl.buf = mem + b * xioBufSize
  refs_eq : ∀ b < xioBufCount, ∀ sl, s.1.bufList.read b = some sl →
    sl.refs = refsOut s.2 b % 2 ^ 16
  below_off : ∀ r ∈ s.2, 0 < r.size → ∀ sl, s.1.bufList.read r.slice = some sl →
    r.buf + r.size ≤ sl.buf + sl.off
  apart : RangesApart mem s

theorem rangesInv_init (mem : ℕ) : RangesInv mem (initSlices mem, []) := by
  have hread : ∀ b < xioBufCount, ∀ sl, (initSlices mem).bufList.read b = some sl →
      ({ buf := mem + b * xioBufSize, off := 0, bid := b, refs := 0 } : XioSlice) = sl := by
    intro b hb sl hsl
    rwa [initSlices, Block.read_tabulate _ hb, Option.some_inj] at hsl
  constructor
  · exact ⟨_, initSlices_wf mem⟩
  · intro b hb sl hsl
    rw [← hread b hb sl hsl]
  · intro b hb sl hsl
    rw [← hread b hb sl hsl]
    rfl
  · simp
  · exact ⟨by simp, List.Pairwise.nil⟩

namespace RangesInv

variable {mem : ℕ} {s : SlicePool × List SliceRef}

/-- The buffer of a slice that was just acquired begins where its `off` was. -/
theorem getBuffer_eq {sl : XioSlice} {size : ℕ} (hfit : sl.off + size ≤ xioBufSize) :
    fhXioRequestPrepSliceGetBuffer false
        { sl with off := sl.off + size, refs := u16 (sl.refs + 1) } size
      = some (sl.buf + sl.off) := by
  rw [xioBufSize] at hfit
  have h32 : u32 size = size := u32_of_lt (by omega)
  have h16 : u16 size = size := u16_of_lt (by omega)
  have hle : size ≤ 2 ^ 16 - 1 := by omega
  have hoff : sl.off + size ≥ size := Nat.le_add_left _ _
  simp only [fhXioRequestPrepSliceGetBuffer, h32, h16, cAssert_of hle, cAssert_of hoff,
    Option.bind_eq_bind, Option.bind_some]
  congr 1
  omega

/-- A new range lies behind the ranges of its slice that are out. -/
theorem acquire (h : RangesInv mem s) {size : ℕ} (hsize : size ≤ xioBufSize) :
    ∃ o s', rangeStep s (.acquire size) = some (o, s') ∧ RangesInv mem s' := by
  obtain ⟨free, hwf⟩ := h.exists_free
  rcases hwf.fhXioAcquireSlice_eq false hsize with
    ⟨hnone, -⟩ | ⟨b, sl, p', free', hacq, -, hmem, hsl, hfit, hwf', hbuf, -, -⟩
  · exact ⟨none, s, by rw [rangeStep, hnone]; rfl, h⟩
  have hb := hwf.free_lt b hmem
  have hblt := Block.lt_of_read hsl
  have hbase := h.buf_eq b hb sl hsl
  have hread : ∀ b', p'.bufList.read b' = if b = b' then
      some { sl with off := sl.off + size, refs := u16 (sl.refs + 1) }
      else s.1.bufList.read b' := by
    rw [hbuf]
    exact Block.read_put _ hblt
  -- The new reference.
  set r : SliceRef := ⟨b, sl.buf + sl.off, size⟩ with hr
  have hstep : rangeStep s (.acquire size) = some (some r, p', r :: s.2) := by
    simp only [rangeStep, hacq, hread, if_pos, getBuffer_eq hfit, Option.bind_eq_bind,
      Option.bind_some, hr]
  have hinside : r.Inside mem := by
    refine ⟨hb, ?_, ?_⟩
    · show mem + b * xioBufSize ≤ sl.buf + sl.off
      omega
    · show sl.buf + sl.off + size ≤ mem + b * xioBufSize + xioBufSize
      omega
  have hnew : ∀ r' ∈ s.2, r.Apart r' := by
    intro r' hr'
    by_cases hslice : r.slice = r'.slice
    · -- In the slice itself the new range begins where the others end.
      rintro a ⟨hge, -⟩ ⟨hge', hlt'⟩
      have hbelow := h.below_off r' hr' (by omega) sl (hslice ▸ hsl)
      have hrbuf : r.buf = sl.buf + sl.off := rfl
      omega
    · exact SliceRef.apart_of_slice_ne hinside (h.apart.1 r' hr') hslice
  refine ⟨some r, (p', r :: s.2), hstep, ?_⟩
  constructor
  · exact ⟨free', hwf'⟩
  · intro b' hb' sl' hsl'
    simp only [hread] at hsl'
    split at hsl'
    · rename_i hbb
      rw [← Option.some.inj hsl', ← hbb]
      exact hbase
    · exact h.buf_eq b' hb' sl' hsl'
  · intro b' hb' sl' hsl'
    simp only [hread] at hsl'
    simp only [refsOut_cons]
    split at hsl'
    · rename_i hbb
      rw [← Option.some.inj hsl', if_pos hbb, ← hbb, u16, h.refs_eq b hb sl hsl, Nat.mod_add_mod]
    · rename_i hbb
      rw [if_neg hbb, Nat.add_zero]
      exact h.refs_eq b' hb' sl' hsl'
  · intro r' hr' hpos sl' hsl'
    simp only [hread] at hsl'
    rcases List.mem_cons.mp hr' with rfl | hr'
    · rw [if_pos rfl] at hsl'
      rw [← Option.some.inj hsl']
      show sl.buf + sl.off + size ≤ sl.buf + (sl.off + size)
      omega
    · split at hsl'
      · rename_i hbb
        have hbelow := h.below_off r' hr' hpos sl (hbb ▸ hsl)
        rw [← Option.some.inj hsl']
        show r'.buf + r'.size ≤ sl.buf + (sl.off + size)
        omega
      · exact h.below_off r' hr' hpos sl' hsl'
  · refine ⟨?_, List.pairwise_cons.mpr ⟨hnew, h.apart.2⟩⟩
    intro r' hr'
    rcases List.mem_cons.mp hr' with rfl | hr'
    · exact hinside
    · exact h.apart.1 r' hr'

/-- A release keeps the ranges that stay out where they are. -/
theorem release (h : RangesInv mem s) {ref : SliceRef} (hadm : ref ∈ s.2)
    (hpass : (RangeOp.release ref).Passes s) (hunw : (RangeOp.release ref).Unwrapped s) :
    ∃ o s', rangeStep s (.release ref) = some (o, s') ∧ RangesInv mem s' := by
  obtain ⟨free, hwf⟩ := h.exists_free
  obtain ⟨htop, sl, hsl, hpos⟩ := hpass
  have hb : ref.slice < xioBufCount := (h.apart.1 ref hadm).1
  have hblt := Block.lt_of_read hsl
  have hrefs := h.refs_eq ref.slice hb sl hsl
  have hcount := refsOut_erase hadm
  have hkeep : ∀ r ∈ s.2.erase ref, r ∈ s.2 := fun r hr => List.mem_of_mem_erase hr
  have happ : RangesApart mem (s.1, s.2.erase ref) :=
    ⟨fun r hr => h.apart.1 r (hkeep r hr), h.apart.2.sublist List.erase_sublist⟩
  -- Both kinds of release store the slice with one reference less, and differ in its `off`.
  obtain ⟨p', free', off, hrel, hwf', hbuf, hoff⟩ : ∃ p' free' off,
      fhXioReleaseSlice false s.1 ref.slice = some p' ∧ p'.Wf free' ∧
      p'.bufList = s.1.bufList.put ref.slice { sl with refs := sl.refs - 1, off := off } ∧
      (off = sl.off ∨ sl.refs = 1) := by
    rcases Nat.lt_or_eq_of_le (show 1 ≤ sl.refs from hpos) with hmany | hone
    · obtain ⟨p', hrel, hwf', hbuf⟩ := hwf.fhXioReleaseSlice_shared false hb hsl hmany htop
      exact ⟨p', free, sl.off, hrel, hwf', hbuf, .inl rfl⟩
    · obtain ⟨p', hrel, hwf', hbuf⟩ := hwf.fhXioReleaseSlice_last false hb hsl hone.symm htop
      refine ⟨p', _, 0, hrel, hwf', ?_, .inr hone.symm⟩
      rw [hbuf, ← hone]
  have hread : ∀ b', p'.bufList.read b' = if ref.slice = b' then
      some { sl with refs := sl.refs - 1, off := off } else s.1.bufList.read b' := by
    rw [hbuf]
    exact Block.read_put _ hblt
  refine ⟨none, (p', s.2.erase ref), by rw [rangeStep, hrel]; rfl, ?_⟩
  constructor
  · exact ⟨free', hwf'⟩
  · intro b' hb' sl' hsl'
    simp only [hread] at hsl'
    split at hsl'
    · rename_i hbb
      rw [← Option.some.inj hsl', ← hbb]
      exact h.buf_eq ref.slice hb sl hsl
    · exact h.buf_eq b' hb' sl' hsl'
  · intro b' hb' sl' hsl'
    have hcount := hcount b'
    simp only [hread] at hsl'
    split at hsl'
    · rename_i hbb
      subst hbb
      rw [if_pos rfl] at hcount
      rw [← Option.some.inj hsl']
      show sl.refs - 1 = refsOut (s.2.erase ref) ref.slice % 2 ^ 16
      omega
    · rename_i hbb
      rw [if_neg hbb, Nat.add_zero] at hcount
      show sl'.refs = refsOut (s.2.erase ref) b' % 2 ^ 16
      rw [← hcount]
      exact h.refs_eq b' hb' sl' hsl'
  · intro r hr hsize sl' hsl'
    simp only [hread] at hsl'
    split at hsl'
    · rename_i hbb
      rw [← Option.some.inj hsl']
      show r.buf + r.size ≤ sl.buf + off
      rcases hoff with rfl | hone
      · exact h.below_off r (hkeep r hr) hsize sl (hbb ▸ hsl)
      · -- `off` is set back, so nothing of the slice is out.
        have hzero := hunw (by omega) r hr hbb.symm
        omega
    · exact h.below_off r (hkeep r hr) hsize sl' hsl'
  · exact happ

end RangesInv

/-! ### Runs -/

/-- In a run of acquisitions and releases that fails no assert, and that never brings
the count of a slice to zero while bytes of it are out, the ranges that are out
lie in the blocks of their slices and are disjoint. -/
theorem slice_ranges_apart (mem : ℕ) {ops : List RangeOp}
    (hadm : EachStep rangeStep (fun s op => op.Admissible s ∧ op.Passes s)
      (initSlices mem, []) ops)
    (hunw : EachStep rangeStep (fun s op => op.Unwrapped s) (initSlices mem, []) ops) :
    Always rangeStep (RangesApart mem) (initSlices mem, []) ops := by
  refine always_of_invariant (C := fun s op => (op.Admissible s ∧ op.Passes s) ∧ op.Unwrapped s)
    (I := RangesInv mem) (fun s h => h.apart) ?_ (rangesInv_init mem) (hadm.and hunw)
  rintro s (size | ref) h ⟨⟨hadm, hpass⟩, hunw⟩
  · exact h.acquire hadm
  · exact h.release hadm hpass hunw

/-- A slice that is shared, emptied and filled again. -/
theorem slice_ranges_apart_shared :
    Always rangeStep (RangesApart 4096) (initSlices 4096, [])
      [.acquire 4096, .acquire 100, .acquire 50, .release ⟨2046, 2047 * 4096, 100⟩,
        .release ⟨2046, 2047 * 4096 + 100, 50⟩, .acquire 4000] := by
  have hops : EachStep rangeStep
      (fun s op => (op.Admissible s ∧ op.Passes s) ∧ op.Unwrapped s) (initSlices 4096, [])
      [.acquire 4096, .acquire 100, .acquire 50, .release ⟨2046, 2047 * 4096, 100⟩,
        .release ⟨2046, 2047 * 4096 + 100, 50⟩, .acquire 4000] := by
    decide +kernel
  exact slice_ranges_apart 4096 (hops.imp fun _ _ h => h.1) (hops.imp fun _ _ h => h.2)

/-! ### The count wraps around -/

/-- Acquiring no bytes of the top slice only counts the reference. -/
theorem rangeStep_acquire_zero {p : SlicePool} {b : ℕ} {sl : XioSlice} (out : List SliceRef)
    (htop : 0 < p.freeBufListTop) (hfree : p.freeBufList.read (p.freeBufListTop - 1) = some b)
    (hsl : p.bufList.read b = some sl) (hroom : sl.off < xioBufSize) :
    rangeStep (p, out) (.acquire 0) = some (some ⟨b, sl.buf + sl.off, 0⟩,
      { p with bufList := p.bufList.put b { sl with refs := u16 (sl.refs + 1) } },
      ⟨b, sl.buf + sl.off, 0⟩ :: out) := by
  have hlt : sl.off < 4096 := hroom
  have h64 : u64 sl.off = sl.off := u64_of_lt (by omega)
  have h32 : u32 sl.off = sl.off := u32_of_lt (by omega)
  have hblt := Block.lt_of_read hsl
  obtain ⟨n, hn⟩ : ∃ n, p.freeBufListTop = n + 1 := ⟨p.freeBufListTop - 1, by omega⟩
  rw [hn, Nat.add_sub_cancel] at hfree
  have hacq : fhXioAcquireSlice false p 0 = some (some (b,
      { p with bufList := p.bufList.put b { sl with refs := u16 (sl.refs + 1) } })) := by
    rw [fhXioAcquireSlice, cAssert_of (Nat.zero_le _), hn]
    simp only [acquireLoop, takeSlice, hn, hfree, hsl, Nat.add_zero, h64, h32, if_neg (by omega : ¬
      sl.off > xioBufSize), if_neg (Nat.ne_of_lt hroom), Block.write_of_lt _ hblt,
      Option.bind_eq_bind, Option.bind_some]
  have hbuffer : fhXioRequestPrepSliceGetBuffer false { sl with refs := u16 (sl.refs + 1) } 0
      = some (sl.buf + sl.off) := RangesInv.getBuffer_eq (Nat.le_of_lt hroom)
  simp only [rangeStep, hacq, Block.read_put_self _ hblt, hbuffer, Option.bind_eq_bind,
    Option.bind_some]

/-- The same `n` times. -/
theorem runs_acquire_zero {p : SlicePool} {b : ℕ} {sl : XioSlice} (out : List SliceRef) (n : ℕ)
    (htop : 0 < p.freeBufListTop) (hfree : p.freeBufList.read (p.freeBufListTop - 1) = some b)
    (hsl : p.bufList.read b = some sl) (hroom : sl.off < xioBufSize) (hrefs : sl.refs < 2 ^ 16) :
    ∃ os, runs rangeStep (p, out) (List.replicate n (.acquire 0)) = some (os,
      { p with bufList := p.bufList.put b { sl with refs := u16 (sl.refs + n) } },
      List.replicate n ⟨b, sl.buf + sl.off, 0⟩ ++ out) := by
  induction n generalizing p sl out with
  | zero =>
    refine ⟨[], ?_⟩
    rw [Nat.add_zero, u16_of_lt hrefs, Block.put_of_read hsl]
    rfl
  | succ n ih =>
    have hblt := Block.lt_of_read hsl
    obtain ⟨os, hruns⟩ := @ih
      { p with bufList := p.bufList.put b { sl with refs := u16 (sl.refs + 1) } }
      { sl with refs := u16 (sl.refs + 1) } (⟨b, sl.buf + sl.off, 0⟩ :: out) htop hfree
      (Block.read_put_self _ hblt) hroom (Nat.mod_lt _ (Nat.two_pow_pos 16))
    refine ⟨some ⟨b, sl.buf + sl.off, 0⟩ :: os, ?_⟩
    rw [List.replicate_succ, runs_cons_of_step (rangeStep_acquire_zero out htop hfree hsl hroom),
      hruns, Option.map_some]
    simp only [Block.put_put]
    have hcount : u16 (u16 (sl.refs + 1) + n) = u16 (sl.refs + (n + 1)) := by
      rw [u16, u16, u16, Nat.mod_add_mod, Nat.add_assoc, Nat.add_comm 1 n]
    rw [hcount, List.replicate_succ', List.append_assoc, List.singleton_append]

/-- A slice is filled, so that the free list has room; of the next one a byte is taken.
References to no bytes then bring its count back to one, and one of them is
released. -/
def wrappingOps : List RangeOp :=
  [.acquire 4096, .acquire 1] ++
    (List.replicate (2 ^ 16) (.acquire 0) ++ [.release ⟨2046, 2047 * 4096 + 1, 0⟩, .acquire 1])

/-- What the other calls of `wrappingOps` do. -/
theorem exists_before_wrap : ∃ os p sl p₁ p₂ sl₂,
    runs rangeStep (initSlices 4096, []) [.acquire 4096, .acquire 1] = some (os, p,
      [⟨2046, 2047 * 4096, 1⟩, ⟨2047, 2048 * 4096, 4096⟩]) ∧
    p.freeBufListTop = 2047 ∧ p.freeBufList.read 2046 = some 2046 ∧
    p.bufList.read 2046 = some sl ∧ sl = ⟨2047 * 4096, 1, 2046, 1⟩ ∧
    fhXioReleaseSlice false p 2046 = some p₁ ∧
    fhXioAcquireSlice false p₁ 1 = some (some (2046, p₂)) ∧
    p₂.bufList.read 2046 = some sl₂ ∧
    fhXioRequestPrepSliceGetBuffer false sl₂ 1 = some (2047 * 4096) := by
  have hrun : (runs rangeStep (initSlices 4096, []) [.acquire 4096, .acquire 1]).any (fun r =>
      decide (r.2.2 = [⟨2046, 2047 * 4096, 1⟩, ⟨2047, 2048 * 4096, 4096⟩] ∧
        r.2.1.freeBufListTop = 2047 ∧ r.2.1.freeBufList.read 2046 = some 2046 ∧
        r.2.1.bufList.read 2046 = some ⟨2047 * 4096, 1, 2046, 1⟩) &&
      (fhXioReleaseSlice false r.2.1 2046).any fun p₁ =>
        (fhXioAcquireSlice false p₁ 1).any fun a => a.any fun x => decide (x.1 = 2046) &&
          (x.2.bufList.read 2046).any fun sl₂ =>
            decide (fhXioRequestPrepSliceGetBuffer false sl₂ 1 = some (2047 * 4096))) = true := by
    decide +kernel
  simp only [Option.any_eq_true, Bool.and_eq_true, decide_eq_true_eq] at hrun
  obtain ⟨⟨os, p, out⟩, hrun, ⟨hout, htop, hfree, hsl⟩, p₁, hrel, a, hacq, ⟨slice, p₂⟩, ha, hslice,
    sl₂, hsl₂, hbuffer⟩ := hrun
  simp only at hout hslice
  subst hout hslice ha
  exact ⟨os, p, _, p₁, p₂, sl₂, hrun, htop, hfree, hsl, rfl, hrel, hacq, hsl₂, hbuffer⟩

/-- The byte is handed out again while its first reference is out. -/
theorem slice_ranges_overlap :
    EachStep rangeStep (fun s op => op.Admissible s ∧ op.Passes s) (initSlices 4096, [])
        wrappingOps ∧
      ¬ Always rangeStep (RangesApart 4096) (initSlices 4096, []) wrappingOps := by
  obtain ⟨os, p, sl, p₁, p₂, sl₂, hrun, htop, hfree, hsl, rfl, hrel, hacq, hsl₂, hbuffer⟩ :=
    exists_before_wrap
  have htop' : p.freeBufListTop - 1 = 2046 := by rw [htop]
  -- After `2 ^ 16` references the pool is what it was before.
  obtain ⟨os₁, hrun₁⟩ := runs_acquire_zero [⟨2046, 2047 * 4096, 1⟩, ⟨2047, 2048 * 4096, 4096⟩]
    (2 ^ 16) (by omega) (htop' ▸ hfree) hsl (by decide) (by decide)
  have hcount : u16 (1 + 2 ^ 16) = 1 := rfl
  rw [hcount, Block.put_of_read hsl] at hrun₁
  set zero : SliceRef := ⟨2046, 2047 * 4096 + 1, 0⟩ with hzero
  set out : List SliceRef := [⟨2046, 2047 * 4096, 1⟩, ⟨2047, 2048 * 4096, 4096⟩] with hout
  have hmem : zero ∈ List.replicate (2 ^ 16) zero ++ out :=
    List.mem_append_left _ (List.mem_replicate.mpr ⟨by decide, rfl⟩)
  have hstep : rangeStep (p, List.replicate (2 ^ 16) zero ++ out) (.release zero)
      = some (none, p₁, (List.replicate (2 ^ 16) zero ++ out).erase zero) := by
    simp only [rangeStep, hzero, hrel, Option.bind_eq_bind, Option.bind_some]
  have hstep₁ (out' : List SliceRef) : rangeStep (p₁, out') (.acquire 1)
      = some (some ⟨2046, 2047 * 4096, 1⟩, p₂, ⟨2046, 2047 * 4096, 1⟩ :: out') := by
    simp only [rangeStep, hacq, hsl₂, hbuffer, Option.bind_eq_bind, Option.bind_some]
  constructor
  · refine (eachStep_append hrun).mpr ⟨?_, (eachStep_append hrun₁).mpr ⟨?_, ?_⟩⟩
    · refine eachStep_of_forall (fun op hop s => ?_) _
      rcases List.mem_pair.mp hop with rfl | rfl
      · exact ⟨Nat.le_refl _, trivial⟩
      · exact ⟨show 1 ≤ xioBufSize by decide, trivial⟩
    · refine eachStep_of_forall (fun op hop s => ?_) _
      rw [List.eq_of_mem_replicate hop]
      exact ⟨Nat.zero_le _, trivial⟩
    · rw [eachStep_cons_of_step hstep, eachStep_singleton]
      refine ⟨⟨hmem, ?_, _, hsl, Nat.one_pos⟩, show 1 ≤ xioBufSize by decide, trivial⟩
      show p.freeBufListTop < 2048
      omega
  · intro h
    have h := (h.append hrun).append hrun₁
    rw [always_cons_of_step hstep, always_cons_of_step (hstep₁ _)] at h
    obtain ⟨-, -, -, hapart⟩ := h
    -- The byte at the beginning of slice 2046 is out twice.
    have hstill : (⟨2046, 2047 * 4096, 1⟩ : SliceRef)
        ∈ (List.replicate (2 ^ 16) zero ++ out).erase zero :=
      (List.mem_erase_of_ne (by decide)).mpr (List.mem_append_right _ List.mem_cons_self)
    have hbyte : 2047 * 4096 ∈ SliceRef.bytes ⟨2046, 2047 * 4096, 1⟩ :=
      ⟨Nat.le_refl _, Nat.lt_succ_self _⟩
    exact (List.pairwise_cons.mp hapart).1 _ hstill _ hbyte hbyte

end Freehttpd
