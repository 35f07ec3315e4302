/-
The slices of the xpoll backend and their free list.

`SlicePool.Wf p free` is what every state keeps, however often a slice was
pushed: the free list holds `free`, and the slices are where they belong.  It is
enough for both operations to be defined:

* `fhXioAcquireSlice_eq` — an acquisition takes the last slice of the free list
  that has room, and drops it from the list once it is full;
* `fhXioReleaseSlice_shared`, `fhXioReleaseSlice_last` — a release counts the
  reference down, and the last one pushes the slice, whether it was on the list
  or not.

`FreeListExact` is what the list should be.  Because of that push it survives a
release only in the cases of `SliceOp.Balanced`:

* `slices_exact_iff` — a run of acquisitions and releases keeps it throughout,
  without a failed assert, if and only if every release is one of those.
-/
import Freehttpd.Runs
import Freehttpd.XioXpoll

namespace Freehttpd

open Runs

/-- The pool is well formed, and its free list holds `free`. -/
structure SlicePool.Wf (p : SlicePool) (free : List ℕ) : Prop where
  stack : p.freeBufList.IsStack p.freeBufListTop xioBufCount free
  free_lt : ∀ b ∈ free, b < xioBufCount
  slice : ∀ b < xioBufCount, ∃ s, p.bufList.read b = some s ∧ s.bid = b ∧
    s.off ≤ xioBufSize ∧ s.refs < 2 ^ 16

theorem initSlices_wf (mem : ℕ) : (initSlices mem).Wf (List.range xioBufCount) where
  stack := by
    have hstack := Block.IsStack.tabulate xioBufCount (id : ℕ → ℕ)
    rwa [List.map_id] at hstack
  free_lt b hb := List.mem_range.mp hb
  slice b hb := ⟨_, Block.read_tabulate _ hb, rfl, Nat.zero_le _, Nat.two_pow_pos 16⟩

/-- Of the slices at the first `n` places of the free list, the last one with
room for `size` bytes. -/
def SlicePool.lastFit (p : SlicePool) (size n : ℕ) : Option XioSlice :=
  (List.range n).reverse.findSome? fun i => do
    let slice ← p.bufList.read (← p.freeBufList.read i)
    if slice.off + size ≤ xioBufSize then some slice else none

theorem SlicePool.lastFit_succ (p : SlicePool) (size n : ℕ) {b : ℕ} {s : XioSlice}
    (hb : p.freeBufList.read n = some b) (hs : p.bufList.read b = some s) :
    p.lastFit size (n + 1) = if s.off + size ≤ xioBufSize then some s else p.lastFit size n := by
  rw [lastFit, List.range_succ, List.reverse_concat, List.findSome?_cons]
  simp only [hb, hs, Option.bind_eq_bind, Option.bind_some]
  by_cases hfit : s.off + size ≤ xioBufSize
  · simp only [if_pos hfit]
  · simp only [if_neg hfit]
    rfl

namespace SlicePool.Wf

variable {p : SlicePool} {free : List ℕ}

/-- Replacing one slice by another with the same number keeps the pool well
formed. -/
theorem put (h : p.Wf free) {b : ℕ} {s : XioSlice} (hb : b < xioBufCount) (hbid : s.bid = b)
    (hoff : s.off ≤ xioBufSize) (hrefs : s.refs < 2 ^ 16) :
    { p with bufList := p.bufList.put b s }.Wf free :=
  { h with
    slice := fun b' hb' => by
      obtain ⟨s₀, hs₀, -⟩ := h.slice b hb
      rw [Block.read_put _ (Block.lt_of_read hs₀)]
      split
      · rename_i hbb
        exact ⟨s, rfl, hbid.trans hbb, hoff, hrefs⟩
      · exact h.slice b' hb' }

/-! ### Acquiring -/

/-- The loop finds the last listed slice with room for `size` bytes. -/
theorem acquireLoop_eq (h : p.Wf free) {size : ℕ} (hsize : size ≤ xioBufSize) {n : ℕ}
    (hn : n ≤ free.length) :
    (acquireLoop p size n = some none ∧ p.lastFit size n = none) ∨
    ∃ i, ∃ hi : i < free.length, ∃ s, p.bufList.read free[i] = some s ∧
      s.off + size ≤ xioBufSize ∧ p.lastFit size n = some s ∧
      acquireLoop p size n = (takeSlice p size i free[i] s).map fun p' => some (free[i], p') := by
  induction n with
  | zero => exact .inl ⟨rfl, rfl⟩
  | succ n ih =>
    obtain ⟨s, hs, -, hoff, -⟩ := h.slice free[n] (h.free_lt _ (List.getElem_mem (by omega)))
    have h64 : u64 (s.off + size) = s.off + size := u64_of_lt (by
      rw [xioBufSize] at hoff hsize
      omega)
    have hread : p.freeBufList.read n = some free[n] := h.stack.holds.read (by omega)
    rw [p.lastFit_succ size n hread hs]
    simp only [acquireLoop, hread, hs, h64, Option.bind_eq_bind, Option.bind_some]
    by_cases hfit : s.off + size > xioBufSize
    · rw [if_pos hfit, if_neg (by omega)]
      exact ih (by omega)
    · rw [if_neg hfit, if_pos (by omega)]
      refine .inr ⟨n, by omega, s, hs, by omega, rfl, ?_⟩
      cases takeSlice p size n free[n] s <;> rfl

/-- A slice found on the list is taken; it leaves the list when it is full. -/
theorem takeSlice_eq (h : p.Wf free) {size i : ℕ} (hi : i < free.length) {s : XioSlice}
    (hs : p.bufList.read free[i] = some s) (hfit : s.off + size ≤ xioBufSize) :
    ∃ p' free', takeSlice p size i free[i] s = some p' ∧ p'.Wf free' ∧
      p'.bufList = p.bufList.put free[i]
        { s with off := s.off + size, refs := u16 (s.refs + 1) } ∧
      (s.off + size < xioBufSize → free' = free) ∧
      (s.off + size = xioBufSize → (free[i] :: free').Perm free) := by
  have hb := h.free_lt _ (List.getElem_mem hi)
  obtain ⟨s', hs', hbid, -, -⟩ := h.slice _ hb
  rw [hs, Option.some_inj] at hs'
  subst hs'
  have h32 : u32 (s.off + size) = s.off + size := u32_of_lt (by rw [xioBufSize] at hfit; omega)
  have hput := h.put (s := { s with off := s.off + size, refs := u16 (s.refs + 1) }) hb hbid hfit
    (Nat.mod_lt _ (by decide))
  simp only [takeSlice, h32, Block.write_of_lt _ (Block.lt_of_read hs), Option.bind_eq_bind,
    Option.bind_some]
  by_cases hfull : s.off + size = xioBufSize
  · have hlt : i < p.freeBufList.size := Nat.lt_of_lt_of_le hi h.stack.holds.length_le
    obtain ⟨free', last, hread, hstack, hperm⟩ := h.stack.swapRemove hi
    simp only [if_pos hfull, hread, Block.write_of_lt _ hlt, Option.bind_some]
    refine ⟨_, free', rfl, ?_, rfl, fun hne => by omega, fun _ => hperm⟩
    exact
      { stack := hstack
        free_lt := fun b hb => h.free_lt b (hperm.mem_iff.mp (List.mem_cons_of_mem _ hb))
        slice := hput.slice }
  · rw [if_neg hfull]
    exact ⟨_, free, rfl, hput, rfl, fun _ => rfl, fun he => absurd he hfull⟩

/-- What `fh_xio_acquire_slice` does: either no slice of the list has room, or
one that has is taken. -/
theorem fhXioAcquireSlice_eq (h : p.Wf free) (ndebug : Bool) {size : ℕ}
    (hsize : size ≤ xioBufSize) :
    (fhXioAcquireSlice ndebug p size = some none ∧
      p.lastFit size p.freeBufListTop = none) ∨
    ∃ b s p' free', fhXioAcquireSlice ndebug p size = some (some (b, p')) ∧
      p.lastFit size p.freeBufListTop = some s ∧ b ∈ free ∧
      p.bufList.read b = some s ∧ s.off + size ≤ xioBufSize ∧ p'.Wf free' ∧
      p'.bufList = p.bufList.put b { s with off := s.off + size, refs := u16 (s.refs + 1) } ∧
      (s.off + size < xioBufSize → free' = free) ∧
      (s.off + size = xioBufSize → (b :: free').Perm free) := by
  rw [fhXioAcquireSlice, cAssert_of hsize, Option.bind_eq_bind, Option.bind_some,
    ← h.stack.length_eq]
  rcases h.acquireLoop_eq hsize (Nat.le_refl _) with hnone | ⟨i, hi, s, hs, hfit, hlast, heq⟩
  · exact .inl hnone
  · obtain ⟨p', free', htake, hwf, hbuf, hkeep, hdrop⟩ := h.takeSlice_eq hi hs hfit
    rw [heq, htake]
    exact .inr ⟨free[i], s, p', free', rfl, hlast, List.getElem_mem hi, hs, hfit, hwf, hbuf, hkeep,
      hdrop⟩

/-! ### Releasing -/

/-- A release of a slice that stays referenced. -/
theorem fhXioReleaseSlice_shared (h : p.Wf free) (ndebug : Bool) {b : ℕ} (hb : b < xioBufCount)
    {s : XioSlice} (hs : p.bufList.read b = some s) (hrefs : 1 < s.refs)
    (htop : p.freeBufListTop < xioBufCount) :
    ∃ p', fhXioReleaseSlice ndebug p b = some p' ∧ p'.Wf free ∧
      p'.bufList = p.bufList.put b { s with refs := s.refs - 1 } := by
  obtain ⟨s', hs', hbid, hoff, hlt⟩ := h.slice b hb
  rw [hs, Option.some_inj] at hs'
  subst hs'
  have h16 : u16 (s.refs + (2 ^ 16 - 1)) = s.refs - 1 := by rw [u16]; omega
  refine ⟨{ p with bufList := p.bufList.put b { s with refs := s.refs - 1 } }, ?_,
    h.put (s := { s with refs := s.refs - 1 }) hb hbid hoff (show s.refs - 1 < 2 ^ 16 by omega), rfl⟩
  rw [fhXioReleaseSlice]
  simp only [cAssert_of htop, hs, cAssert_of (show s.refs > 0 by omega), h16,
    Option.bind_eq_bind, Option.bind_some]
  rw [if_pos (by omega), Block.write_of_lt _ (Block.lt_of_read hs)]
  rfl

/-- A release of the last reference pushes the slice. -/
theorem fhXioReleaseSlice_last (h : p.Wf free) (ndebug : Bool) {b : ℕ} (hb : b < xioBufCount)
    {s : XioSlice} (hs : p.bufList.read b = some s) (hrefs : s.refs = 1)
    (htop : p.freeBufListTop < xioBufCount) :
    ∃ p', fhXioReleaseSlice ndebug p b = some p' ∧ p'.Wf (free ++ [b]) ∧
      p'.bufList = p.bufList.put b { s with refs := 0, off := 0 } := by
  obtain ⟨s', hs', hbid, hoff, hlt⟩ := h.slice b hb
  rw [hs, Option.some_inj] at hs'
  subst hs'
  have h16 : u16 (s.refs + (2 ^ 16 - 1)) = 0 := by rw [u16, hrefs]; rfl
  have htop16 : u16 (p.freeBufListTop + 1) = p.freeBufListTop + 1 := u16_of_lt (by
    rw [xioBufCount] at htop
    omega)
  have hput := h.put (s := { s with refs := 0, off := 0 }) hb hbid (Nat.zero_le _)
    (Nat.two_pow_pos 16)
  refine ⟨
    { bufList := p.bufList.put b { s with refs := 0, off := 0 }
      freeBufList := p.freeBufList.put p.freeBufListTop s.bid
      freeBufListTop := p.freeBufListTop + 1 }, ?_, ?_, rfl⟩
  · rw [fhXioReleaseSlice]
    simp only [cAssert_of htop, hs, cAssert_of (show s.refs > 0 by omega), h16, htop16,
      Option.bind_eq_bind, Option.bind_some]
    rw [if_neg (not_not.mpr rfl), Block.write_of_lt _ (Block.lt_of_read hs),
      Block.write_of_lt _ (by rw [h.stack.size_eq]; exact htop)]
    rfl
  · exact
      { stack := hbid ▸ h.stack.push s.bid htop
        free_lt := fun b' hb' => by
          rcases List.mem_append.mp hb' with hb' | hb'
          · exact h.free_lt b' hb'
          · rw [List.mem_singleton.mp hb']
            exact hb
        slice := hput.slice }

/-- With the asserts compiled in a release fails unless both hold. -/
theorem asserts_of_release {b : ℕ} {p p' : SlicePool} {s : XioSlice}
    (hs : p.bufList.read b = some s) (h : fhXioReleaseSlice false p b = some p') :
    p.freeBufListTop < xioBufCount ∧ 0 < s.refs := by
  rw [fhXioReleaseSlice, hs] at h
  simp only [Option.bind_eq_bind, Option.bind_some, Option.bind_eq_some_iff] at h
  obtain ⟨_, htop, _, hrefs, -⟩ := h
  exact ⟨cAssert_false_eq_some htop, cAssert_false_eq_some hrefs⟩

/-- A release that fails no assert keeps the pool well formed. -/
theorem fhXioReleaseSlice_eq (h : p.Wf free) {b : ℕ} (hb : b < xioBufCount) {s : XioSlice}
    (hs : p.bufList.read b = some s) :
    (fhXioReleaseSlice false p b = none ∧ ¬(p.freeBufListTop < xioBufCount ∧ 0 < s.refs)) ∨
    ∃ p' free', fhXioReleaseSlice false p b = some p' ∧ p'.Wf free' ∧
      p.freeBufListTop < xioBufCount ∧ 0 < s.refs := by
  by_cases hok : p.freeBufListTop < xioBufCount ∧ 0 < s.refs
  · refine .inr ?_
    rcases Nat.lt_or_eq_of_le (show 1 ≤ s.refs from hok.2) with hmany | hone
    · obtain ⟨p', hrel, hwf, -⟩ := h.fhXioReleaseSlice_shared false hb hs hmany hok.1
      exact ⟨p', free, hrel, hwf, hok⟩
    · obtain ⟨p', hrel, hwf, -⟩ := h.fhXioReleaseSlice_last false hb hs hone.symm hok.1
      exact ⟨p', _, hrel, hwf, hok⟩
  · refine .inl ⟨?_, hok⟩
    cases hrel : fhXioReleaseSlice false p b with
    | none => rfl
    | some p' => exact absurd (asserts_of_release hs hrel) hok

end SlicePool.Wf

/-! ### Runs -/

/-- A call, with the slice a reference points to as its argument or result. -/
inductive SliceOp
  | acquire (size : ℕ)
  | release (slice : ℕ)

/-- One call, with the asserts compiled in.  The second part of the state is not
in the source: it lists the references that were acquired and not yet
released. -/
def sliceStep (s : SlicePool × List ℕ) : SliceOp → Option (Option ℕ × SlicePool × List ℕ)
  | .acquire size => do
    match ← fhXioAcquireSlice false s.1 size with
    | none => some (none, s)
    | some (slice, p) => some (some slice, p, slice :: s.2)
  | .release slice => do
    let p ← fhXioReleaseSlice false s.1 slice
    some (none, p, s.2.erase slice)

/-- The calls the statement is about: sizes up to the size of a slice, and
releases of outstanding references. -/
def SliceOp.Admissible (s : SlicePool × List ℕ) : SliceOp → Prop
  | .acquire size => size ≤ xioBufSize
  | .release slice => slice ∈ s.2

instance SliceOp.decidableAdmissible (s : SlicePool × List ℕ) :
    ∀ op : SliceOp, Decidable (op.Admissible s)
  | .acquire size => inferInstanceAs (Decidable (size ≤ xioBufSize))
  | .release slice => inferInstanceAs (Decidable (slice ∈ s.2))

/-- Slice `b` is filled exactly. -/
def SlicePool.Full (p : SlicePool) (b : ℕ) : Prop :=
  ∃ s, p.bufList.read b = some s ∧ s.off = xioBufSize

instance (p : SlicePool) (b : ℕ) : Decidable (p.Full b) :=
  decidable_of_iff ((p.bufList.read b).any fun s => s.off = xioBufSize)
    (by simp [SlicePool.Full, Option.any_eq_true])

/-- The releases that keep the free list right: some slice is full, the
outstanding references of the released slice are not a multiple of `2 ^ 16`, and
if they are one more than a multiple the slice is full itself. -/
def SliceOp.Balanced (s : SlicePool × List ℕ) : SliceOp → Prop
  | .acquire _ => True
  | .release slice => (∃ b < xioBufCount, s.1.Full b) ∧ s.2.count slice % 2 ^ 16 ≠ 0 ∧
    (s.2.count slice % 2 ^ 16 = 1 → s.1.Full slice)

/-- Every buffer id is on the free list exactly once if its slice has room and
not at all if it is full. -/
def FreeListExact (p : SlicePool) : Prop :=
  p.freeBufListTop ≤ xioBufCount ∧ ∃ free : List ℕ, free.length = p.freeBufListTop ∧
    p.freeBufList.Holds free ∧ (∀ b ∈ free, b < xioBufCount) ∧
    ∀ b < xioBufCount, ∃ s, p.bufList.read b = some s ∧ s.off ≤ xioBufSize ∧
      free.count b = if s.off < xioBufSize then 1 else 0

/-- The invariant behind `FreeListExact`: the references are counted modulo
`2 ^ 16`. -/
structure SlicesInv (s : SlicePool × List ℕ) : Prop where
  exists_free : ∃ free, s.1.Wf free ∧ ∀ b < xioBufCount, ∀ sl, s.1.bufList.read b = some sl →
    free.count b = if sl.off < xioBufSize then 1 else 0
  refs_eq : ∀ b < xioBufCount, ∀ sl, s.1.bufList.read b = some sl →
    sl.refs = s.2.count b % 2 ^ 16
  held_lt : ∀ b ∈ s.2, b < xioBufCount

theorem SlicesInv.freeListExact {s : SlicePool × List ℕ} (h : SlicesInv s) :
    FreeListExact s.1 := by
  obtain ⟨free, hwf, hcount⟩ := h.exists_free
  refine ⟨hwf.stack.top_le, free, hwf.stack.length_eq, hwf.stack.holds, hwf.free_lt, fun b hb => ?_⟩
  obtain ⟨sl, hsl, -, hoff, -⟩ := hwf.slice b hb
  exact ⟨sl, hsl, hoff, hcount b hb sl hsl⟩

theorem slicesInv_init (mem : ℕ) : SlicesInv (initSlices mem, []) where
  exists_free := by
    refine ⟨_, initSlices_wf mem, fun b hb sl hsl => ?_⟩
    rw [initSlices, Block.read_tabulate _ hb, Option.some_inj] at hsl
    rw [← hsl, List.count_eq_one_of_mem List.nodup_range (List.mem_range.mpr hb)]
    rfl
  refs_eq b hb sl hsl := by
    rw [initSlices, Block.read_tabulate _ hb, Option.some_inj] at hsl
    rw [← hsl]
    rfl
  held_lt := by simp

namespace SlicesInv

variable {s : SlicePool × List ℕ}

/-- An acquisition keeps the free list right: a slice that it fills leaves the
list. -/
theorem acquire (h : SlicesInv s) {size : ℕ} (hsize : size ≤ xioBufSize) :
    ∃ o s', sliceStep s (.acquire size) = some (o, s') ∧ SlicesInv s' := by
  obtain ⟨free, hwf, hcount⟩ := h.exists_free
  rcases hwf.fhXioAcquireSlice_eq false hsize with
    ⟨hnone, -⟩ | ⟨b, sl, p', free', hacq, -, hmem, hsl, hfit, hwf', hbuf, hkeep, hdrop⟩
  · exact ⟨none, s, by rw [sliceStep, hnone]; rfl, h⟩
  · refine ⟨some b, (p', b :: s.2), by rw [sliceStep, hacq]; rfl, ?_⟩
    have hb := hwf.free_lt b hmem
    have hread : ∀ b', p'.bufList.read b' = if b = b' then
        some { sl with off := sl.off + size, refs := u16 (sl.refs + 1) }
        else s.1.bufList.read b' := by
      rw [hbuf]
      exact Block.read_put _ (Block.lt_of_read hsl)
    -- A slice of the list has room, so it stands on it once.
    have hone : free.count b = 1 := by
      have hpos := List.count_pos_iff.mpr hmem
      rw [hcount b hb sl hsl] at hpos ⊢
      split at hpos
      · rw [if_pos ‹_›]
      · exact absurd hpos (Nat.lt_irrefl 0)
    refine
      { exists_free := ⟨free', hwf', fun b' hb' sl' hsl' => ?_⟩
        refs_eq := fun b' hb' sl' hsl' => ?_
        held_lt := fun b' hb' => ?_ }
    · simp only [hread] at hsl'
      rcases Nat.lt_or_eq_of_le hfit with hlt | heq
      · rw [hkeep hlt]
        split at hsl'
        · rename_i hbb
          rw [← Option.some.inj hsl', ← hbb, hone, if_pos hlt]
        · exact hcount b' hb' sl' hsl'
      · have hperm := (hdrop heq).count_eq b'
        rw [List.count_cons] at hperm
        split at hsl'
        · rename_i hbb
          rw [← Option.some.inj hsl', if_neg (by simp only; omega)]
          rw [← hbb, hone, if_pos (beq_self_eq_true b)] at hperm
          rw [← hbb]
          omega
        · rename_i hbb
          rw [if_neg (by simpa using hbb), Nat.add_zero] at hperm
          rw [hperm]
          exact hcount b' hb' sl' hsl'
    · simp only [hread] at hsl'
      simp only [List.count_cons, beq_iff_eq]
      split at hsl'
      · rename_i hbb
        rw [← Option.some.inj hsl', if_pos hbb, ← hbb, u16, h.refs_eq b hb sl hsl, Nat.mod_add_mod]
      · rename_i hbb
        rw [if_neg hbb, Nat.add_zero]
        exact h.refs_eq b' hb' sl' hsl'
    · rcases List.mem_cons.mp hb' with rfl | hb'
      · exact hb
      · exact h.held_lt b' hb'

/-- The list has room for one more id if and only if some slice is full. -/
theorem top_lt_of_full (h : SlicesInv s) {b : ℕ} (hb : b < xioBufCount) (hfull : s.1.Full b) :
    s.1.freeBufListTop < xioBufCount := by
  obtain ⟨free, hwf, hcount⟩ := h.exists_free
  obtain ⟨sl, hsl, hoff⟩ := hfull
  have hnd : free.Nodup := List.nodup_iff_count_le_one.mpr fun a => by
    rcases Nat.lt_or_ge a xioBufCount with ha | ha
    · obtain ⟨sa, hsa, -⟩ := hwf.slice a ha
      rw [hcount a ha sa hsa]
      split <;> omega
    · rw [List.count_eq_zero.mpr fun hm => by have := hwf.free_lt a hm; omega]
      omega
  have hnot : b ∉ free := fun hm => by
    have hpos := List.count_pos_iff.mpr hm
    rw [hcount b hb sl hsl, if_neg (by omega)] at hpos
    exact Nat.lt_irrefl 0 hpos
  have hsub : (b :: free) ⊆ List.range xioBufCount := fun a ha => by
    rw [List.mem_range]
    rcases List.mem_cons.mp ha with rfl | ha
    · exact hb
    · exact hwf.free_lt a ha
  have hlen := (List.subperm_of_subset (List.nodup_cons.mpr ⟨hnot, hnd⟩) hsub).length_le
  rw [List.length_range, List.length_cons, hwf.stack.length_eq] at hlen
  omega

theorem exists_full_of_top_lt (h : SlicesInv s) (htop : s.1.freeBufListTop < xioBufCount) :
    ∃ b < xioBufCount, s.1.Full b := by
  obtain ⟨free, hwf, hcount⟩ := h.exists_free
  by_contra hnone
  have hsub : List.range xioBufCount ⊆ free := fun b hb => by
    rw [List.mem_range] at hb
    obtain ⟨sl, hsl, -, hoff, -⟩ := hwf.slice b hb
    have hlt : sl.off < xioBufSize := Nat.lt_of_le_of_ne hoff fun he =>
      hnone ⟨b, hb, sl, hsl, he⟩
    refine List.count_pos_iff.mp ?_
    rw [hcount b hb sl hsl, if_pos hlt]
    exact Nat.one_pos
  have hlen := (List.subperm_of_subset List.nodup_range hsub).length_le
  rw [List.length_range, hwf.stack.length_eq] at hlen
  omega

/-- A balanced release keeps the free list right. -/
theorem release (h : SlicesInv s) {b : ℕ} (hmem : b ∈ s.2)
    (hbal : (SliceOp.release b).Balanced s) :
    ∃ o s', sliceStep s (.release b) = some (o, s') ∧ SlicesInv s' := by
  obtain ⟨⟨bf, hbf, hfull⟩, hne, hlast⟩ := hbal
  have htop := h.top_lt_of_full hbf hfull
  obtain ⟨free, hwf, hcount⟩ := h.exists_free
  have hb := h.held_lt b hmem
  obtain ⟨sl, hsl, -, hoff, -⟩ := hwf.slice b hb
  have hrefs := h.refs_eq b hb sl hsl
  have hpos := List.count_pos_iff.mpr hmem
  have herase : ∀ b', (s.2.erase b).count b' = s.2.count b' - if b = b' then 1 else 0 :=
    fun b' => by
      rw [List.count_erase]
      by_cases hbb : b = b' <;> simp [hbb]
  have hheld : ∀ b' ∈ s.2.erase b, b' < xioBufCount := fun b' hb' =>
    h.held_lt b' (List.mem_of_mem_erase hb')
  rcases Nat.lt_or_eq_of_le (show 1 ≤ sl.refs by omega) with hmany | hone
  · -- Others still hold the slice: only its count changes.
    obtain ⟨p', hrel, hwf', hbuf⟩ := hwf.fhXioReleaseSlice_shared false hb hsl hmany htop
    have hread : ∀ b', p'.bufList.read b' = if b = b' then some { sl with refs := sl.refs - 1 }
        else s.1.bufList.read b' := by
      rw [hbuf]
      exact Block.read_put _ (Block.lt_of_read hsl)
    refine ⟨none, (p', s.2.erase b), by rw [sliceStep, hrel]; rfl,
      ⟨⟨free, hwf', fun b' hb' sl' hsl' => ?_⟩, fun b' hb' sl' hsl' => ?_, hheld⟩⟩
    · simp only [hread] at hsl'
      split at hsl'
      · rename_i hbb
        rw [← Option.some.inj hsl', ← hbb]
        exact hcount b hb sl hsl
      · exact hcount b' hb' sl' hsl'
    · simp only [hread] at hsl'
      rw [herase]
      split at hsl'
      · rename_i hbb
        rw [← Option.some.inj hsl', if_pos hbb, ← hbb]
        simp only
        omega
      · rename_i hbb
        rw [if_neg hbb, Nat.sub_zero]
        exact h.refs_eq b' hb' sl' hsl'
  · -- The last reference: the slice is full, so it is not on the list.
    obtain ⟨sl', hsl', hoff'⟩ := hlast (by omega)
    rw [hsl, Option.some_inj] at hsl'
    subst hsl'
    obtain ⟨p', hrel, hwf', hbuf⟩ :=
      hwf.fhXioReleaseSlice_last false hb hsl hone.symm htop
    have hread : ∀ b', p'.bufList.read b' = if b = b' then some { sl with refs := 0, off := 0 }
        else s.1.bufList.read b' := by
      rw [hbuf]
      exact Block.read_put _ (Block.lt_of_read hsl)
    refine ⟨none, (p', s.2.erase b), by rw [sliceStep, hrel]; rfl,
      ⟨⟨free ++ [b], hwf', fun b' hb' sl' hsl' => ?_⟩, fun b' hb' sl' hsl' => ?_, hheld⟩⟩
    · simp only [hread] at hsl'
      rw [List.count_append, List.count_singleton]
      simp only [beq_iff_eq]
      split at hsl'
      · rename_i hbb
        have hfree := hcount b hb sl hsl
        rw [if_neg (by omega)] at hfree
        rw [← Option.some.inj hsl', if_pos hbb, ← hbb, hfree, if_pos (show 0 < xioBufSize by decide)]
      · rename_i hbb
        rw [if_neg hbb, Nat.add_zero]
        exact hcount b' hb' sl' hsl'
    · simp only [hread] at hsl'
      rw [herase]
      split at hsl'
      · rename_i hbb
        rw [← Option.some.inj hsl', if_pos hbb, ← hbb]
        simp only
        omega
      · rename_i hbb
        rw [if_neg hbb, Nat.sub_zero]
        exact h.refs_eq b' hb' sl' hsl'

/-- Any other release fails an assert or pushes an id that is on the list. -/
theorem not_exact_of_not_balanced (h : SlicesInv s) {op : SliceOp} (hadm : op.Admissible s)
    (hbal : ¬ op.Balanced s) {o : Option ℕ} {s' : SlicePool × List ℕ}
    (hstep : sliceStep s op = some (o, s')) : ¬ FreeListExact s'.1 := by
  cases op with
  | acquire size => exact absurd trivial hbal
  | release b =>
    obtain ⟨free, hwf, hcount⟩ := h.exists_free
    have hb := h.held_lt b hadm
    obtain ⟨sl, hsl, -, hoff, -⟩ := hwf.slice b hb
    have hrefs := h.refs_eq b hb sl hsl
    rw [sliceStep, Option.bind_eq_bind, Option.bind_eq_some_iff] at hstep
    obtain ⟨p', hrel, hs'⟩ := hstep
    obtain ⟨htop, hpos⟩ := SlicePool.Wf.asserts_of_release hsl hrel
    -- No assert failed, so it was the last reference of a slice that has room.
    have hlast : ¬ (s.2.count b % 2 ^ 16 = 1 → s.1.Full b) := fun hl =>
      hbal ⟨h.exists_full_of_top_lt htop, by omega, hl⟩
    rw [Classical.not_imp] at hlast
    obtain ⟨hone, hnot⟩ := hlast
    obtain ⟨p'', hrel', hwf', hbuf⟩ :=
      hwf.fhXioReleaseSlice_last false hb hsl (by omega) htop
    obtain rfl : p'' = p' := Option.some.inj (hrel'.symm.trans hrel)
    obtain ⟨-, rfl⟩ := Prod.mk.inj (Option.some.inj hs')
    rintro ⟨-, free', hlen, hholds, -, hexact⟩
    have hfree' : free' = free ++ [b] :=
      hholds.unique hwf'.stack.holds (hlen.trans hwf'.stack.length_eq.symm)
    obtain ⟨sl', hsl', -, hcount'⟩ := hexact b hb
    have hlt : sl.off < xioBufSize := Nat.lt_of_le_of_ne hoff fun he => hnot ⟨sl, hsl, he⟩
    have hfree := hcount b hb sl hsl
    rw [if_pos hlt] at hfree
    rw [hfree', List.count_append, hfree, List.count_singleton_self] at hcount'
    split at hcount' <;> omega

end SlicesInv

/-- A run of acquisitions and releases from the freshly allocated slices keeps
the free list right in every state and fails no assert, if and only if each of
its releases is balanced. -/
theorem slices_exact_iff (mem : ℕ) {ops : List SliceOp}
    (hadm : EachStep sliceStep (fun s op => op.Admissible s) (initSlices mem, []) ops) :
    Always sliceStep (fun s => FreeListExact s.1) (initSlices mem, []) ops ↔
      EachStep sliceStep (fun s op => op.Balanced s) (initSlices mem, []) ops := by
  refine always_iff (fun s h => SlicesInv.freeListExact h) (fun s op h hC hD => ?_)
    (fun s op o s' h hC hD hs => h.not_exact_of_not_balanced hC hD hs) (slicesInv_init mem) hadm
  cases op with
  | acquire size => exact h.acquire hC
  | release slice => exact h.release hC hD

/-- A slice that is filled at once and released again comes back to the list. -/
theorem slices_exact_filled :
    Always sliceStep (fun s => FreeListExact s.1) (initSlices 0, [])
      [.acquire 4096, .release 2047] :=
  (slices_exact_iff 0 (by decide +kernel)).mpr <| by
    obtain ⟨⟨o, s⟩, hs⟩ := Option.isSome_iff_exists.mp (show
      (sliceStep (initSlices 0, []) (.acquire 4096)).isSome = true by decide +kernel)
    have hfull : (sliceStep (initSlices 0, []) (.acquire 4096)).all (fun r =>
        decide (r.2.1.Full 2047 ∧ r.2.2.count 2047 = 1)) = true := by decide +kernel
    rw [hs] at hfull
    obtain ⟨hfull, hone⟩ := of_decide_eq_true hfull
    rw [eachStep_cons_of_step hs, eachStep_singleton]
    exact ⟨trivial, ⟨2047, by decide, hfull⟩, by rw [hone]; decide, fun _ => hfull⟩

/-- A slice that still has room when its last reference goes is not: releasing
the first slice of a fresh pool fails an assert. -/
theorem slices_not_exact :
    EachStep sliceStep (fun s op => op.Admissible s) (initSlices 0, [])
        [.acquire 100, .release 2047] ∧
      ¬ Always sliceStep (fun s => FreeListExact s.1) (initSlices 0, [])
        [.acquire 100, .release 2047] := by
  refine ⟨by decide +kernel, ?_⟩
  rintro ⟨-, o, s, hs, -, o', s', hs', -⟩
  have hnone : (sliceStep (initSlices 0, []) (.acquire 100)).all (fun r =>
      (sliceStep r.2 (.release 2047)).isNone) = true := by decide +kernel
  rw [hs, Option.all_some, hs'] at hnone
  cases hnone

end Freehttpd
