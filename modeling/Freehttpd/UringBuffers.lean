/-
The provided buffers of the io_uring backend.

`BufPool.Wf b off cnt` reads the two arrays off as functions of the buffer id.  A
`Ledger` is what the count of a buffer stands for: `held` are the results that are
returned and not given back, and `fin bid` says that the last completion of the
buffer was harvested; the word in `buf_refcount` is then `refcountOf held fin bid`.

* `account_eq` — what `fh_xio_wait` does to the arrays;
* `freeInternal_eq` — giving back one result: the buffer goes back to the ring
  exactly when its last completion is harvested and no other result refers to it;
* `fhXioResultsFree_eq` — the same for a batch, whatever its order;
* `fhXioResultFree_eq` — a single result is a batch of one;
* `fhXioResultsFree_sequential` — a batch, of any results and on any state, is its results
  given back one after another.
-/
import Freehttpd.XioUring
import Mathlib.Data.List.Perm.Subperm

namespace Freehttpd.Uring

variable {U : Type}

/-- The arrays hold `off` and `cnt`, and the ring has its size. -/
structure BufPool.Wf (b : BufPool) (off cnt : ℕ → ℕ) : Prop where
  size_off : b.bufOffsets.size = xioRingBufCount
  size_cnt : b.bufRefcount.size = xioRingBufCount
  off_eq : ∀ bid < xioRingBufCount, b.bufOffsets.read bid = some (off bid)
  cnt_eq : ∀ bid < xioRingBufCount, b.bufRefcount.read bid = some (cnt bid)
  ring : b.bufRing.Wf 10
  mask_eq : b.bufMask = 2 ^ 10 - 1

/-- Two runs of the arrays that differ in one cell. -/
theorem read_put_update {b : Block ℕ} {f : ℕ → ℕ} {n i : ℕ} (hsize : b.size = n)
    (h : ∀ j < n, b.read j = some (f j)) (hi : i < n) (v : ℕ) :
    ∀ j < n, (b.put i v).read j = some (Function.update f i v j) := by
  intro j hj
  rw [Block.read_put v (hsize ▸ hi)]
  rcases eq_or_ne i j with rfl | hne
  · rw [if_pos rfl, Function.update_self]
  · rw [if_neg hne, h j hj, Function.update_of_ne hne.symm]

/-! ### Creation -/

/-- The ring that `fh_xio_create` fills: every buffer is on it, once, in order. -/
theorem initBufRing_eq (buf : ℕ) :
    ∃ r, initBufRing buf = some r ∧ r.Wf 10 ∧
      TailRing.published ⟨Block.malloc xioRingBufCount, 0⟩ r (2 ^ 10 - 1)
        = (List.range xioRingBufCount).map fun bid => some (bufEntry buf bid) := by
  have hwf : (⟨Block.malloc xioRingBufCount, 0⟩ : TailRing IoUringBuf).Wf 10 :=
    ⟨Block.size_malloc _, by decide⟩
  -- The loop, after `n` turns.
  have hloop : ∀ n ≤ xioRingBufCount, ∃ r, (List.range n).foldlM
      (fun (r : TailRing IoUringBuf) i => r.add (bufEntry buf i) (xioRingBufCount - 1) i)
        ⟨Block.malloc xioRingBufCount, 0⟩ = some r ∧
      TailRing.Staged ⟨Block.malloc xioRingBufCount, 0⟩ r 10
        ((List.range n).map (bufEntry buf)) := by
    intro n
    induction n with
    | zero => exact fun _ => ⟨_, rfl, TailRing.Staged.nil hwf⟩
    | succ n ih =>
      intro hn
      obtain ⟨r, hr, hs⟩ := ih (Nat.le_of_succ_le hn)
      have hlen : ((List.range n).map (bufEntry buf)).length = n := by simp
      obtain ⟨r', hadd, hs'⟩ := hs.add (bufEntry buf n) (by rw [hlen]; exact hn)
      rw [hlen] at hadd
      refine ⟨r', ?_, ?_⟩
      · rw [List.range_succ, List.foldlM_append, hr]
        show (do
          let r' ← r.add (bufEntry buf n) (xioRingBufCount - 1) n
          some r') = some r'
        rw [show xioRingBufCount - 1 = 2 ^ 10 - 1 from rfl, hadd]
        rfl
      · rw [List.range_succ, List.map_append]
        exact hs'
  obtain ⟨r, hr, hs⟩ := hloop xioRingBufCount (le_refl _)
  have hlen : ((List.range xioRingBufCount).map (bufEntry buf)).length = xioRingBufCount := by simp
  have hpub := hs.published hwf (by rw [hlen]; decide)
  have hring := hs.advance_wf
  rw [hlen] at hpub hring
  refine ⟨r.advance xioRingBufCount, by rw [initBufRing, hr]; rfl, hring, ?_⟩
  rw [hpub, List.map_map]
  rfl

/-! ### Accounting -/

/-- The offset behind a completion of `size` bytes. -/
def nextOff (off size : ℕ) : ℕ :=
  if u64 (off + size) ≥ xioRingBufSize then xioRingBufSize else u32 (u64 (off + size))

/-- The word behind a completion, `more` saying that others will follow. -/
def nextCnt (cnt : ℕ) (more : Bool) : ℕ :=
  if more = true then u32 (cnt + 1) else u32 (cnt + 1) ||| xioRingBufFlagDone

/-- Counting a completion of a buffer that is not finished. -/
theorem nextCnt_eq {n : ℕ} (h : n + 1 < 2 ^ 31) (more : Bool) :
    nextCnt n more = n + 1 + if (!more) = true then xioRingBufFlagDone else 0 := by
  have hu : u32 (n + 1) = n + 1 := u32_of_lt (by omega)
  rw [nextCnt, hu]
  cases more with
  | true => rfl
  | false =>
    have hor := Nat.two_pow_add_eq_or_of_lt h 1
    rw [Nat.mul_one] at hor
    show (n + 1) ||| 2 ^ 31 = n + 1 + 2 ^ 31
    rw [Nat.or_comm, ← hor, Nat.add_comm]

theorem account_eq {b : BufPool} {off cnt : ℕ → ℕ} (h : b.Wf off cnt) {flags : ℕ}
    (hbid : flagsBid flags < xioRingBufCount) (size : ℕ) :
    ∃ b', accountBuffer b flags size = some b' ∧ b'.bufRing = b.bufRing ∧ b'.buf = b.buf ∧
      b'.Wf (Function.update off (flagsBid flags) (nextOff (off (flagsBid flags)) size))
        (Function.update cnt (flagsBid flags)
          (nextCnt (cnt (flagsBid flags)) (hasFlag flags ioringCqeFBufMore))) := by
  refine ⟨{ b with
    bufOffsets := b.bufOffsets.put (flagsBid flags) (nextOff (off (flagsBid flags)) size)
    bufRefcount := b.bufRefcount.put (flagsBid flags)
      (nextCnt (cnt (flagsBid flags)) (hasFlag flags ioringCqeFBufMore)) }, ?_, rfl, rfl, ?_⟩
  · rw [accountBuffer, h.cnt_eq _ hbid, h.off_eq _ hbid]
    simp only [Option.bind_eq_bind, Option.bind_some]
    rw [Block.write_of_lt _ (h.size_cnt ▸ hbid), Option.bind_some,
      Block.write_of_lt _ (h.size_off ▸ hbid), Option.bind_some]
    rfl
  · exact
      { size_off := by rw [Block.size_put, h.size_off]
        size_cnt := by rw [Block.size_put, h.size_cnt]
        off_eq := read_put_update h.size_off h.off_eq hbid _
        cnt_eq := read_put_update h.size_cnt h.cnt_eq hbid _
        ring := h.ring
        mask_eq := h.mask_eq }

/-- The ways a result given back leaves the pool: it had no buffer, it was not the last
reference, or its buffer went back to the ring. -/
theorem freeInternal_outcome {ndebug : Bool} {b b' : BufPool} {r : XioResult U} {n : ℕ}
    {restored : Bool} (h : fhXioResultFreeInternal ndebug b r n = some (restored, b')) :
    (restored = false ∧ b' = b) ∨
      ∃ c, b.bufRefcount.read (flagsBid r.flags) = some c ∧
        ((restored = false ∧ ∃ refcount bufRefcount,
            b.bufRefcount.write (flagsBid r.flags) refcount = some bufRefcount ∧
            b' = { b with bufRefcount := bufRefcount }) ∨
          restored = true ∧ ∃ bufOffsets bufRefcount bufRing,
            b.bufOffsets.write (flagsBid r.flags) 0 = some bufOffsets ∧
            b.bufRefcount.write (flagsBid r.flags) 0 = some bufRefcount ∧
            b.bufRing.add (bufEntry b.buf (flagsBid r.flags)) b.bufMask n = some bufRing ∧
            b' = { b with
              bufOffsets := bufOffsets
              bufRefcount := bufRefcount
              bufRing := bufRing }) := by
  rw [fhXioResultFreeInternal] at h
  split at h
  · obtain ⟨rfl, rfl⟩ := Prod.mk.inj (Option.some.inj h)
    exact .inl ⟨rfl, rfl⟩
  · simp only [Option.bind_eq_bind, Option.bind_eq_some_iff] at h
    obtain ⟨c, hc, -, -, h⟩ := h
    refine .inr ⟨c, hc, ?_⟩
    split at h
    · obtain ⟨bufRefcount, hwrite, h⟩ := Option.bind_eq_some_iff.mp h
      obtain ⟨rfl, rfl⟩ := Prod.mk.inj (Option.some.inj h)
      exact .inl ⟨rfl, _, bufRefcount, hwrite, rfl⟩
    · simp only [Option.bind_eq_some_iff] at h
      obtain ⟨bufOffsets, hoff, bufRefcount, hwrite, bufRing, hadd, h⟩ := h
      obtain ⟨rfl, rfl⟩ := Prod.mk.inj (Option.some.inj h)
      exact .inr ⟨rfl, bufOffsets, bufRefcount, bufRing, hoff, hwrite, hadd, rfl⟩

/-- Whatever results are given back, the pool keeps its shape. -/
theorem BufPool.Wf.freeInternal {ndebug : Bool} {b b' : BufPool} {off cnt : ℕ → ℕ}
    (h : b.Wf off cnt) {r : XioResult U} {n : ℕ} {restored : Bool}
    (hfree : fhXioResultFreeInternal ndebug b r n = some (restored, b')) :
    ∃ off' cnt', b'.Wf off' cnt' := by
  rcases freeInternal_outcome hfree with ⟨-, rfl⟩ | ⟨c, hc, hcases⟩
  · exact ⟨off, cnt, h⟩
  have hbid : flagsBid r.flags < xioRingBufCount := h.size_cnt ▸ Block.lt_of_read hc
  rcases hcases with ⟨-, refcount, _, hwrite, rfl⟩ | ⟨-, _, _, ring, hoff, hwrite, hadd, rfl⟩
  · rw [Block.write_of_lt _ (h.size_cnt ▸ hbid)] at hwrite
    obtain rfl := Option.some.inj hwrite
    exact ⟨off, _,
      { size_off := h.size_off
        size_cnt := by rw [Block.size_put, h.size_cnt]
        off_eq := h.off_eq
        cnt_eq := read_put_update h.size_cnt h.cnt_eq hbid _
        ring := h.ring
        mask_eq := h.mask_eq }⟩
  · rw [Block.write_of_lt _ (h.size_off ▸ hbid)] at hoff
    rw [Block.write_of_lt _ (h.size_cnt ▸ hbid)] at hwrite
    obtain rfl := Option.some.inj hoff
    obtain rfl := Option.some.inj hwrite
    rw [TailRing.add, Option.bind_eq_bind, Option.bind_eq_some_iff] at hadd
    obtain ⟨slots, hslots, hring⟩ := hadd
    have hring := Option.some.inj hring
    exact ⟨_, _,
      { size_off := by rw [Block.size_put, h.size_off]
        size_cnt := by rw [Block.size_put, h.size_cnt]
        off_eq := read_put_update h.size_off h.off_eq hbid _
        cnt_eq := read_put_update h.size_cnt h.cnt_eq hbid _
        ring := ⟨by rw [← hring, Block.size_write hslots, h.ring.size_eq],
          by rw [← hring]; exact h.ring.tail_lt⟩
        mask_eq := h.mask_eq }⟩

theorem BufPool.Wf.resultsFreeLoop {ndebug : Bool} {b b' : BufPool} {off cnt : ℕ → ℕ}
    (h : b.Wf off cnt) {rs : List (XioResult U)} {n n' : ℕ}
    (hfree : fhXioResultsFreeLoop ndebug rs b n = some (b', n')) :
    ∃ off' cnt', b'.Wf off' cnt' := by
  induction rs generalizing b off cnt n with
  | nil => exact ⟨off, cnt, (Prod.mk.inj (Option.some.inj hfree)).1 ▸ h⟩
  | cons r rs ih =>
    rw [fhXioResultsFreeLoop, Option.bind_eq_bind, Option.bind_eq_some_iff] at hfree
    obtain ⟨⟨restored, b₁⟩, hr, hfree⟩ := hfree
    obtain ⟨off₁, cnt₁, h₁⟩ := h.freeInternal hr
    exact ih h₁ hfree

theorem BufPool.Wf.resultsFree {ndebug : Bool} {b b' : BufPool} {off cnt : ℕ → ℕ}
    (h : b.Wf off cnt) {rs : List (XioResult U)}
    (hfree : fhXioResultsFree ndebug b rs = some b') : ∃ off' cnt', b'.Wf off' cnt' := by
  rw [fhXioResultsFree, Option.bind_eq_bind, Option.bind_eq_some_iff] at hfree
  obtain ⟨⟨b₁, n⟩, hfree, heq⟩ := hfree
  obtain ⟨off', cnt', h'⟩ := h.resultsFreeLoop hfree
  refine ⟨off', cnt', ?_⟩
  rw [← Option.some.inj heq]
  exact
    { size_off := h'.size_off
      size_cnt := h'.size_cnt
      off_eq := h'.off_eq
      cnt_eq := h'.cnt_eq
      ring := ⟨h'.ring.size_eq, Nat.mod_lt _ (by decide)⟩
      mask_eq := h'.mask_eq }

/-! ### The ledger -/

/-- The result refers to buffer `bid`. -/
def refersTo (bid : ℕ) (r : XioResult U) : Bool :=
  hasFlag r.flags ioringCqeFBuffer && flagsBid r.flags == bid

/-- The results among `held` that refer to buffer `bid`. -/
def refs (held : List (XioResult U)) (bid : ℕ) : ℕ := held.countP (refersTo bid)

/-- The word of buffer `bid` in `buf_refcount`. -/
def refcountOf (held : List (XioResult U)) (fin : ℕ → Bool) (bid : ℕ) : ℕ :=
  refs held bid + if fin bid then xioRingBufFlagDone else 0

/-- What the counts stand for. -/
structure Ledger (held : List (XioResult U)) (fin : ℕ → Bool) : Prop where
  bid_lt : ∀ r ∈ held, hasFlag r.flags ioringCqeFBuffer = true →
    flagsBid r.flags < xioRingBufCount
  refs_lt : ∀ bid, refs held bid < 2 ^ 31
  refs_pos : ∀ bid, fin bid = true → 0 < refs held bid

theorem refersTo_iff {bid : ℕ} {r : XioResult U} :
    refersTo bid r = true ↔ hasFlag r.flags ioringCqeFBuffer = true ∧ flagsBid r.flags = bid := by
  rw [refersTo, Bool.and_eq_true, beq_iff_eq]

theorem refs_append (held held' : List (XioResult U)) (bid : ℕ) :
    refs (held ++ held') bid = refs held bid + refs held' bid :=
  List.countP_append

theorem refs_eq_zero_iff {held : List (XioResult U)} {bid : ℕ} :
    refs held bid = 0 ↔ ∀ r ∈ held, refersTo bid r = false := by
  rw [refs, List.countP_eq_zero]
  simp

theorem refcountOf_mod {held : List (XioResult U)} {fin : ℕ → Bool} (h : Ledger held fin)
    (bid : ℕ) : refcountOf held fin bid % 2 ^ 31 = refs held bid := by
  have := h.refs_lt bid
  rw [refcountOf, xioRingBufFlagDone]
  split <;> omega

theorem refs_pos_of_mem {held : List (XioResult U)} {r : XioResult U} (hr : r ∈ held) {bid : ℕ}
    (hb : refersTo bid r = true) : 0 < refs held bid :=
  List.countP_pos_iff.mpr ⟨r, hr, hb⟩

/-- The arrays may be described by other functions that agree below the number of
buffers. -/
theorem BufPool.Wf.congr {b : BufPool} {off cnt off' cnt' : ℕ → ℕ} (h : b.Wf off cnt)
    (hoff : ∀ bid < xioRingBufCount, off' bid = off bid)
    (hcnt : ∀ bid < xioRingBufCount, cnt' bid = cnt bid) : b.Wf off' cnt' where
  size_off := h.size_off
  size_cnt := h.size_cnt
  off_eq bid hbid := by rw [h.off_eq bid hbid, hoff bid hbid]
  cnt_eq bid hbid := by rw [h.cnt_eq bid hbid, hcnt bid hbid]
  ring := h.ring
  mask_eq := h.mask_eq

/-- A result without a buffer is passed over. -/
theorem freeInternal_of_not_buffer (ndebug : Bool) (b : BufPool)
    {r : XioResult U}
    (hbuf : hasFlag r.flags ioringCqeFBuffer = false) (n : ℕ) :
    fhXioResultFreeInternal ndebug b r n = some (false, b) := by
  rw [fhXioResultFreeInternal, if_pos hbuf]

section Free

variable [DecidableEq U] {b : BufPool} {off : ℕ → ℕ} {held : List (XioResult U)}
  {fin : ℕ → Bool} {r : XioResult U} {r₀ : TailRing IoUringBuf} {as : List IoUringBuf}

/-- Giving `r` back takes one reference from its buffer. -/
theorem refs_erase (hr : r ∈ held) (bid : ℕ) :
    refs held bid = refs (held.erase r) bid + if refersTo bid r then 1 else 0 := by
  rw [refs, (List.perm_cons_erase hr).countP_eq, List.countP_cons]
  rfl

theorem refs_erase_of_not (hr : r ∈ held) {bid : ℕ} (hb : refersTo bid r = false) :
    refs (held.erase r) bid = refs held bid := by
  rw [refs_erase hr bid, hb]
  rfl

/-- Giving `r` back puts its buffer back. -/
def restores (held : List (XioResult U)) (fin : ℕ → Bool) (r : XioResult U) : Prop :=
  hasFlag r.flags ioringCqeFBuffer = true ∧ fin (flagsBid r.flags) = true ∧
    refs (held.erase r) (flagsBid r.flags) = 0

instance decidableRestores (held : List (XioResult U)) (fin : ℕ → Bool) (r : XioResult U) :
    Decidable (restores held fin r) :=
  inferInstanceAs (Decidable (_ ∧ _ ∧ _))

theorem Ledger.erase (h : Ledger held fin) (hr : r ∈ held) (hno : ¬ restores held fin r) :
    Ledger (held.erase r) fin where
  bid_lt r' hr' := h.bid_lt r' (List.mem_of_mem_erase hr')
  refs_lt bid := by
    have := h.refs_lt bid
    rw [refs_erase hr] at this
    omega
  refs_pos bid hfin := by
    have hpos := h.refs_pos bid hfin
    by_cases hb : refersTo bid r = true
    · -- The last reference to a finished buffer would restore it.
      obtain ⟨hbuf, rfl⟩ := refersTo_iff.mp hb
      exact Nat.pos_of_ne_zero fun h0 => hno ⟨hbuf, hfin, h0⟩
    · rwa [refs_erase_of_not hr (by simpa using hb)]

theorem Ledger.erase_of_restores (h : Ledger held fin) (hr : r ∈ held) :
    Ledger (held.erase r) (Function.update fin (flagsBid r.flags) false) where
  bid_lt r' hr' := h.bid_lt r' (List.mem_of_mem_erase hr')
  refs_lt bid := by
    have := h.refs_lt bid
    rw [refs_erase hr] at this
    omega
  refs_pos bid hfin := by
    rcases eq_or_ne bid (flagsBid r.flags) with rfl | hne
    · rw [Function.update_self] at hfin
      cases hfin
    · rw [Function.update_of_ne hne] at hfin
      have hb : refersTo bid r = false := by
        rw [Bool.eq_false_iff]
        exact fun hb => hne (refersTo_iff.mp hb).2.symm
      rw [refs_erase_of_not hr hb]
      exact h.refs_pos bid hfin

/-- The word of a buffer that a held result refers to. -/
theorem freeInternal_word (hl : Ledger held fin) (hr : r ∈ held)
    (hbuf : hasFlag r.flags ioringCqeFBuffer = true) :
    refcountOf held fin (flagsBid r.flags) &&& (uint32Max - xioRingBufFlagDone) > 0 ∧
      u32 (refcountOf held fin (flagsBid r.flags) + (2 ^ 32 - 1))
        = refcountOf (held.erase r) fin (flagsBid r.flags) := by
  have hself : refersTo (flagsBid r.flags) r = true := refersTo_iff.mpr ⟨hbuf, rfl⟩
  have hpos := refs_pos_of_mem hr hself
  have hlt := hl.refs_lt (flagsBid r.flags)
  have herase := refs_erase hr (flagsBid r.flags)
  rw [if_pos hself] at herase
  have hmask : uint32Max - xioRingBufFlagDone = 2 ^ 31 - 1 := by decide
  refine ⟨?_, ?_⟩
  · rw [hmask, Nat.and_two_pow_sub_one_eq_mod, refcountOf_mod hl]
    exact hpos
  · rw [refcountOf, refcountOf, u32, xioRingBufFlagDone]
    split <;> omega

/-- Giving back a result that is not the last of a finished buffer. -/
theorem freeInternal_shared (ndebug : Bool) (h : b.Wf off (refcountOf held fin))
    (hl : Ledger held fin) (hr : r ∈ held) (hno : ¬ restores held fin r) (n : ℕ) :
    ∃ b', fhXioResultFreeInternal ndebug b r n = some (false, b') ∧ b'.bufRing = b.bufRing ∧
      b'.buf = b.buf ∧ b'.Wf off (refcountOf (held.erase r) fin) := by
  cases hbuf : hasFlag r.flags ioringCqeFBuffer with
  | false =>
    refine ⟨b, freeInternal_of_not_buffer ndebug b hbuf n, rfl, rfl, h.congr (fun _ _ => rfl) ?_⟩
    intro bid _
    rw [refcountOf, refs_erase_of_not hr (by simp [refersTo, hbuf]), refcountOf]
  | true =>
    have hbid := hl.bid_lt r hr hbuf
    obtain ⟨hassert, hword⟩ := freeInternal_word hl hr hbuf
    have hne :
        u32 (refcountOf held fin (flagsBid r.flags) + (2 ^ 32 - 1)) ≠ xioRingBufFlagDone := by
      have hlt := (hl.erase hr hno).refs_lt (flagsBid r.flags)
      intro he
      rw [hword, refcountOf] at he
      split at he
      · rename_i hfin
        exact hno ⟨hbuf, hfin, by omega⟩
      · rw [xioRingBufFlagDone] at he
        omega
    refine ⟨{ b with
      bufRefcount := b.bufRefcount.put (flagsBid r.flags)
        (refcountOf (held.erase r) fin (flagsBid r.flags)) }, ?_, rfl, rfl, ?_⟩
    · rw [fhXioResultFreeInternal, if_neg (by rw [hbuf]; exact Bool.noConfusion), h.cnt_eq _ hbid]
      simp only [Option.bind_eq_bind, Option.bind_some]
      rw [cAssert_of hassert, Option.bind_some, if_pos hne,
        Block.write_of_lt _ (h.size_cnt ▸ hbid), Option.bind_some, hword]
    · refine (?_ : BufPool.Wf _ off (Function.update (refcountOf held fin) (flagsBid r.flags)
        (refcountOf (held.erase r) fin (flagsBid r.flags)))).congr (fun _ _ => rfl) ?_
      · exact
          { size_off := h.size_off
            size_cnt := by rw [Block.size_put, h.size_cnt]
            off_eq := h.off_eq
            cnt_eq := read_put_update h.size_cnt h.cnt_eq hbid _
            ring := h.ring
            mask_eq := h.mask_eq }
      · intro bid _
        rcases eq_or_ne bid (flagsBid r.flags) with rfl | hbne
        · rw [Function.update_self]
        · have hb : refersTo bid r = false := by
            rw [Bool.eq_false_iff]
            exact fun hb => hbne (refersTo_iff.mp hb).2.symm
          rw [Function.update_of_ne hbne, refcountOf, refs_erase_of_not hr hb, refcountOf]

/-- Giving back the last result of a finished buffer. -/
theorem freeInternal_last (ndebug : Bool) (h : b.Wf off (refcountOf held fin))
    (hl : Ledger held fin) (hr : r ∈ held) (hyes : restores held fin r)
    (hs : r₀.Staged b.bufRing 10 as) (hroom : as.length < 2 ^ 10) :
    ∃ b', fhXioResultFreeInternal ndebug b r as.length = some (true, b') ∧ b'.buf = b.buf ∧
      r₀.Staged b'.bufRing 10 (as ++ [bufEntry b.buf (flagsBid r.flags)]) ∧
      b'.Wf (Function.update off (flagsBid r.flags) 0)
        (refcountOf (held.erase r) (Function.update fin (flagsBid r.flags) false)) := by
  obtain ⟨hbuf, hfin, hzero⟩ := hyes
  have hbid := hl.bid_lt r hr hbuf
  obtain ⟨hassert, hword⟩ := freeInternal_word hl hr hbuf
  have heq : u32 (refcountOf held fin (flagsBid r.flags) + (2 ^ 32 - 1)) = xioRingBufFlagDone := by
    rw [hword, refcountOf, hzero, if_pos hfin, Nat.zero_add]
  obtain ⟨ring, hadd, hs'⟩ := hs.add (bufEntry b.buf (flagsBid r.flags)) hroom
  refine ⟨{ b with
    bufOffsets := b.bufOffsets.put (flagsBid r.flags) 0
    bufRefcount := b.bufRefcount.put (flagsBid r.flags) 0
    bufRing := ring }, ?_, rfl, hs', ?_⟩
  · rw [fhXioResultFreeInternal, if_neg (by rw [hbuf]; exact Bool.noConfusion), h.cnt_eq _ hbid]
    simp only [Option.bind_eq_bind, Option.bind_some]
    rw [cAssert_of hassert, Option.bind_some, if_neg (not_not.mpr heq),
      Block.write_of_lt _ (h.size_off ▸ hbid), Option.bind_some,
      Block.write_of_lt _ (h.size_cnt ▸ hbid), Option.bind_some, h.mask_eq, hadd, Option.bind_some]
  · refine (?_ : BufPool.Wf _ (Function.update off (flagsBid r.flags) 0)
      (Function.update (refcountOf held fin) (flagsBid r.flags) 0)).congr (fun _ _ => rfl) ?_
    · exact
        { size_off := by rw [Block.size_put, h.size_off]
          size_cnt := by rw [Block.size_put, h.size_cnt]
          off_eq := read_put_update h.size_off h.off_eq hbid _
          cnt_eq := read_put_update h.size_cnt h.cnt_eq hbid _
          ring := ⟨hs'.size_eq, by rw [hs'.tail_eq, ← hs.tail_eq]; exact h.ring.tail_lt⟩
          mask_eq := h.mask_eq }
    · intro bid _
      rcases eq_or_ne bid (flagsBid r.flags) with rfl | hbne
      · rw [Function.update_self, refcountOf, hzero, Function.update_self]
        rfl
      · have hb : refersTo bid r = false := by
          rw [Bool.eq_false_iff]
          exact fun hb => hbne (refersTo_iff.mp hb).2.symm
        rw [Function.update_of_ne hbne, refcountOf, refs_erase_of_not hr hb,
          Function.update_of_ne hbne, refcountOf]

/-- What is left of `fin` when the buffers of `bids` went back to the ring. -/
def finWithout (fin : ℕ → Bool) (bids : List ℕ) (bid : ℕ) : Bool := fin bid && decide (bid ∉ bids)

theorem finWithout_update (fin : ℕ → Bool) (bid : ℕ) (bids : List ℕ) :
    finWithout (Function.update fin bid false) bids = finWithout fin (bid :: bids) := by
  funext bid'
  rw [finWithout, finWithout]
  rcases eq_or_ne bid' bid with rfl | hne
  · simp
  · rw [Function.update_of_ne hne]
    simp [hne]

/-- Different buffers that go back to the ring leave a slot for one more. -/
theorem length_lt_of_restored {bids : List ℕ} {bid : ℕ} (hnd : (bids ++ [bid]).Nodup)
    (hlt : ∀ bid' ∈ bids, bid' < xioRingBufCount) (hbid : bid < xioRingBufCount) :
    bids.length < 2 ^ 10 := by
  have hrange : bids ++ [bid] ⊆ List.range xioRingBufCount := by
    intro bid' hmem
    rw [List.mem_append, List.mem_singleton] at hmem
    rcases hmem with hmem | rfl
    · exact List.mem_range.mpr (hlt bid' hmem)
    · exact List.mem_range.mpr hbid
  have hlen := (List.subperm_of_subset hnd hrange).length_le
  rw [List.length_range, List.length_append, List.length_singleton, xioRingBufCount] at hlen
  omega

/-- The loop of `fh_xio_results_free`, with `bids` already restored: it goes on to
restore the finished buffers that no result refers to afterwards. -/
theorem resultsFreeLoop_eq (ndebug : Bool) {rs : List (XioResult U)} {bids : List ℕ}
    (h : b.Wf off (refcountOf held fin)) (hl : Ledger held fin) (hsub : rs.Subperm held)
    (hs : r₀.Staged b.bufRing 10 (bids.map (bufEntry b.buf))) (hnd : bids.Nodup)
    (hdone : ∀ bid ∈ bids, bid < xioRingBufCount ∧ refs held bid = 0) :
    ∃ b' bids', fhXioResultsFreeLoop ndebug rs b bids.length
        = some (b', (bids ++ bids').length) ∧ b'.buf = b.buf ∧
      (bids ++ bids').Nodup ∧ (∀ bid ∈ bids', bid < xioRingBufCount) ∧
      r₀.Staged b'.bufRing 10 ((bids ++ bids').map (bufEntry b.buf)) ∧
      (∀ bid, bid ∈ bids' ↔ fin bid = true ∧ refs (held.diff rs) bid = 0) ∧
      b'.Wf (fun bid => if bid ∈ bids' then 0 else off bid)
        (refcountOf (held.diff rs) (finWithout fin bids')) ∧
      Ledger (held.diff rs) (finWithout fin bids') := by
  induction rs generalizing b off held fin bids with
  | nil =>
    have hfin : finWithout fin [] = fin := by
      funext bid
      simp [finWithout]
    refine ⟨b, [], by rw [fhXioResultsFreeLoop, List.append_nil], rfl, by rwa [List.append_nil],
      by simp, by rwa [List.append_nil], fun bid => ?_, ?_, ?_⟩
    · -- A finished buffer has a reference.
      refine iff_of_false List.not_mem_nil fun ⟨hf, h0⟩ => ?_
      exact absurd h0 (hl.refs_pos bid hf).ne'
    · rw [hfin, List.diff_nil]
      exact h.congr (fun _ _ => if_neg List.not_mem_nil) fun _ _ => rfl
    · rw [hfin, List.diff_nil]
      exact hl
  | cons r rs ih =>
    have hr : r ∈ held := hsub.subset List.mem_cons_self
    have hsub' : rs.Subperm (held.erase r) := by
      have := hsub.erase r
      rwa [List.erase_cons_head] at this
    have hzero : ∀ bid, refs held bid = 0 → refs (held.erase r) bid = 0 := by
      intro bid h0
      have := refs_erase hr bid
      omega
    rw [List.diff_cons, fhXioResultsFreeLoop]
    by_cases hyes : restores held fin r
    · -- The buffer goes back to the ring, behind those of `bids`.
      obtain ⟨hbuf, hfin, h0⟩ := hyes
      have hbid := hl.bid_lt r hr hbuf
      -- A buffer in `bids` has no reference left, and this one had one.
      have hnew : flagsBid r.flags ∉ bids := fun hmem =>
        absurd (hdone _ hmem).2 (hl.refs_pos _ hfin).ne'
      have hnd' : (bids ++ [flagsBid r.flags]).Nodup := List.nodup_append.mpr
        ⟨hnd, by simp, fun a ha c hc => by
          rw [List.mem_singleton.mp hc]
          exact fun he => hnew (he ▸ ha)⟩
      have hroom : (bids.map (bufEntry b.buf)).length < 2 ^ 10 := by
        rw [List.length_map]
        exact length_lt_of_restored hnd' (fun bid hmem => (hdone bid hmem).1) hbid
      obtain ⟨b₁, hfree, hbuf₁, hs₁, h₁⟩ :=
        freeInternal_last ndebug h hl hr ⟨hbuf, hfin, h0⟩ hs hroom
      have hs₁' : r₀.Staged b₁.bufRing 10
          ((bids ++ [flagsBid r.flags]).map (bufEntry b₁.buf)) := by
        rw [List.map_append, hbuf₁]
        exact hs₁
      obtain ⟨b', bids', hloop, hbuf', hnd'', hlt, hs', hiff, hwf, hled⟩ :=
        ih h₁ (hl.erase_of_restores hr) hsub' hs₁' hnd' (fun bid hmem => by
          rw [List.mem_append, List.mem_singleton] at hmem
          rcases hmem with hmem | rfl
          · exact ⟨(hdone bid hmem).1, hzero bid (hdone bid hmem).2⟩
          · exact ⟨hbid, h0⟩)
      rw [finWithout_update] at hwf hled
      rw [List.append_assoc, List.singleton_append] at hloop hnd'' hs'
      refine ⟨b', flagsBid r.flags :: bids', ?_, hbuf'.trans hbuf₁, hnd'', ?_, hbuf₁ ▸ hs',
        fun bid => ?_, hwf.congr (fun bid _ => ?_) fun _ _ => rfl, hled⟩
      · rw [List.length_append, List.length_singleton] at hloop
        rw [List.length_map] at hfree
        rw [hfree]
        simp only [Option.bind_eq_bind, Option.bind_some, if_true]
        exact hloop
      · intro bid hmem
        rcases List.mem_cons.mp hmem with rfl | hmem
        · exact hbid
        · exact hlt bid hmem
      · rw [List.mem_cons, hiff]
        rcases eq_or_ne bid (flagsBid r.flags) with rfl | hne
        · refine iff_of_true (.inl rfl) ⟨hfin, ?_⟩
          rw [refs_eq_zero_iff] at h0 ⊢
          exact fun r' hr' => h0 r' ((List.diff_sublist _ _).subset hr')
        · rw [Function.update_of_ne hne]
          simp [hne]
      · rcases eq_or_ne bid (flagsBid r.flags) with rfl | hne
        · simp
        · rw [Function.update_of_ne hne]
          simp [hne]
    · -- Others hold the buffer, or it is not finished: only a count changes.
      obtain ⟨b₁, hfree, hring, hbuf₁, h₁⟩ := freeInternal_shared ndebug h hl hr hyes bids.length
      obtain ⟨b', bids', hloop, hbuf', hrest⟩ := ih h₁ (hl.erase hr hyes) hsub'
        (by rw [hring, hbuf₁]; exact hs) hnd
        fun bid hmem => ⟨(hdone bid hmem).1, hzero bid (hdone bid hmem).2⟩
      refine ⟨b', bids', ?_, hbuf'.trans hbuf₁, hbuf₁ ▸ hrest⟩
      rw [hfree]
      simp only [Option.bind_eq_bind, Option.bind_some]
      exact hloop

/-- `fh_xio_results_free`, for results that are held: the finished buffers that no
result refers to afterwards go back to the ring, each once, and nothing else. -/
theorem fhXioResultsFree_eq (ndebug : Bool) {rs : List (XioResult U)}
    (h : b.Wf off (refcountOf held fin)) (hl : Ledger held fin) (hsub : rs.Subperm held) :
    ∃ b' bids, fhXioResultsFree ndebug b rs = some b' ∧ b'.buf = b.buf ∧ bids.Nodup ∧
      (∀ bid ∈ bids, bid < xioRingBufCount) ∧
      b.bufRing.published b'.bufRing (2 ^ 10 - 1) = bids.map (fun bid => some (bufEntry b.buf bid)) ∧
      (∀ bid, bid ∈ bids ↔ fin bid = true ∧ refs (held.diff rs) bid = 0) ∧
      b'.Wf (fun bid => if bid ∈ bids then 0 else off bid)
        (refcountOf (held.diff rs) (finWithout fin bids)) ∧
      Ledger (held.diff rs) (finWithout fin bids) := by
  have hstart : b.bufRing.Staged b.bufRing 10 (([] : List ℕ).map (bufEntry b.buf)) :=
    TailRing.Staged.nil h.ring
  obtain ⟨b', bids, hloop, hbuf, hnd, hlt, hs, hiff, hwf, hled⟩ :=
    resultsFreeLoop_eq ndebug h hl hsub hstart List.nodup_nil (by simp)
  rw [List.nil_append] at hloop hnd hs
  have hlen : (bids.map (bufEntry b.buf)).length < 2 ^ 16 :=
    lt_of_le_of_lt hs.length_le (by decide)
  have hpub := hs.published h.ring hlen
  have hring := hs.advance_wf
  rw [List.length_map] at hpub hring
  refine ⟨{ b' with bufRing := b'.bufRing.advance bids.length }, bids, ?_, hbuf, hnd, hlt, ?_, hiff,
    ?_, hled⟩
  · rw [fhXioResultsFree, ← List.length_nil (α := ℕ), hloop]
    rfl
  · rw [List.map_map] at hpub
    exact hpub
  · exact
      { size_off := hwf.size_off
        size_cnt := hwf.size_cnt
        off_eq := hwf.off_eq
        cnt_eq := hwf.cnt_eq
        ring := hring
        mask_eq := hwf.mask_eq }

end Free

/-- Where nothing is restored the ring stays as it is. -/
theorem bufRing_of_not_restored {ndebug : Bool} {b b' : BufPool} {r : XioResult U} {n : ℕ}
    (h : fhXioResultFreeInternal ndebug b r n = some (false, b')) : b'.bufRing = b.bufRing := by
  rcases freeInternal_outcome h with ⟨-, rfl⟩ | ⟨_, -, ⟨-, _, _, -, rfl⟩ | ⟨htrue, -⟩⟩
  · rfl
  · rfl
  · exact absurd htrue Bool.false_ne_true

/-- A result given back alone is a batch of one. -/
theorem fhXioResultFree_eq (ndebug : Bool) {b : BufPool} (h : b.bufRing.tail < 2 ^ 16)
    (r : XioResult U) : fhXioResultFree ndebug b r = fhXioResultsFree ndebug b [r] := by
  rw [fhXioResultFree, fhXioResultsFree, fhXioResultsFreeLoop]
  cases hfree : fhXioResultFreeInternal ndebug b r 0 with
  | none => rfl
  | some res =>
    obtain ⟨restored, b'⟩ := res
    cases restored with
    | true => rfl
    | false =>
      -- Nothing is published, and the tail stays where it is.
      have hring := bufRing_of_not_restored hfree
      have htail : b'.bufRing.advance 0 = b'.bufRing := by
        rw [TailRing.advance, hring, Nat.add_zero, Nat.mod_eq_of_lt h]
      show some b' = some { b' with bufRing := b'.bufRing.advance 0 }
      rw [htail]

/-! ### Batches and single results -/

/-- The pool with the tail of its ring moved. -/
def BufPool.advance (b : BufPool) (n : ℕ) : BufPool := { b with bufRing := b.bufRing.advance n }

/-- Giving back a result behind a tail that has moved. -/
theorem freeInternal_advance (ndebug : Bool) {b : BufPool} (hmask : b.bufMask < 2 ^ 16)
    (r : XioResult U) (n : ℕ) :
    fhXioResultFreeInternal ndebug (b.advance n) r 0
      = (fhXioResultFreeInternal ndebug b r n).map fun p => (p.1, p.2.advance n) := by
  have hadd := b.bufRing.add_advance (bufEntry b.buf (flagsBid r.flags)) hmask n 0
  rw [Nat.add_zero] at hadd
  simp only [fhXioResultFreeInternal, BufPool.advance, hadd, Option.bind_eq_bind]
  split
  · rfl
  · -- Up to the ring the two calls do the same.
    cases b.bufRefcount.read (flagsBid r.flags) with
    | none => rfl
    | some refcount =>
      rw [Option.bind_some, Option.bind_some]
      generalize cAssert ndebug (refcount &&& uint32Max - xioRingBufFlagDone > 0) = asserted
      generalize u32 (refcount + (2 ^ 32 - 1)) = refcount'
      cases asserted with
      | none => rfl
      | some _ =>
        rw [Option.bind_some, Option.bind_some]
        split
        · cases b.bufRefcount.write (flagsBid r.flags) refcount' with
          | none => rfl
          | some bufRefcount => rfl
        · cases b.bufOffsets.write (flagsBid r.flags) 0 with
          | none => rfl
          | some bufOffsets =>
            cases b.bufRefcount.write (flagsBid r.flags) 0 with
            | none => rfl
            | some bufRefcount =>
              cases b.bufRing.add (bufEntry b.buf (flagsBid r.flags)) b.bufMask n with
              | none => rfl
              | some bufRing => rfl

/-- No result given back changes the mask. -/
theorem freeInternal_mask {ndebug : Bool} {b b' : BufPool} {r : XioResult U} {n : ℕ}
    {restored : Bool} (h : fhXioResultFreeInternal ndebug b r n = some (restored, b')) :
    b'.bufMask = b.bufMask := by
  rcases freeInternal_outcome h with
    ⟨-, rfl⟩ | ⟨_, -, ⟨-, _, _, -, rfl⟩ | ⟨-, _, _, _, -, -, -, rfl⟩⟩ <;> rfl

/-- The loop, with `n` entries written behind the tail, does what single results do once
the tail has moved by `n`. -/
theorem fhXioResultsFreeLoop_advance (ndebug : Bool) {b : BufPool} (hmask : b.bufMask < 2 ^ 16)
    (rs : List (XioResult U)) (n : ℕ) :
    (fhXioResultsFreeLoop ndebug rs b n).map (fun p => p.1.advance p.2)
      = rs.foldlM (fhXioResultFree ndebug) (b.advance n) := by
  induction rs generalizing b n with
  | nil => rfl
  | cons r rs ih =>
    rw [List.foldlM_cons, fhXioResultsFreeLoop, fhXioResultFree, freeInternal_advance ndebug hmask]
    cases hfree : fhXioResultFreeInternal ndebug b r n with
    | none => rfl
    | some p =>
      obtain ⟨restored, b'⟩ := p
      have ih := fun m => ih (b := b') (freeInternal_mask hfree ▸ hmask) m
      cases restored with
      | false => exact ih n
      | true =>
        -- The tail moves by one more.
        have hmoved : (b'.advance n).advance 1 = b'.advance (n + 1) := by
          rw [BufPool.advance, BufPool.advance, BufPool.advance, TailRing.advance_advance]
        show _ = rs.foldlM (fhXioResultFree ndebug) ((b'.advance n).advance 1)
        rw [hmoved]
        exact ih (n + 1)

/-- `fh_xio_results_free` leaves what `fh_xio_result_free` leaves when it is called on the
results one after another, whatever they are and whatever the counts are.  The tail and
the mask of the ring are 16-bit words. -/
theorem fhXioResultsFree_sequential (ndebug : Bool) {b : BufPool}
    (htail : b.bufRing.tail < 2 ^ 16) (hmask : b.bufMask < 2 ^ 16) (rs : List (XioResult U)) :
    fhXioResultsFree ndebug b rs = rs.foldlM (fhXioResultFree ndebug) b := by
  have hloop := fhXioResultsFreeLoop_advance ndebug hmask rs 0
  have hzero : b.advance 0 = b := by
    rw [BufPool.advance, TailRing.advance_zero htail]
  rw [hzero] at hloop
  rw [← hloop, fhXioResultsFree]
  cases fhXioResultsFreeLoop ndebug rs b 0 with
  | none => rfl
  | some p => rfl

/-- Three results on a ring whose tail is about to wrap: one without a buffer, and the last
two references to a buffer whose last completion was harvested. -/
theorem fhXioResultsFree_sequential_wrap : ∃ b b' : BufPool, ∃ rs : List (XioResult ℕ),
    b.bufRing.tail = 2 ^ 16 - 1 ∧ rs.map XioResult.flags = [0, 2 ^ 16 + 1, 2 ^ 16 + 1] ∧
    fhXioResultsFree false b rs = some b' ∧ rs.foldlM (fhXioResultFree false) b = some b' ∧
    b'.bufRing.tail = 0 ∧ b'.bufRefcount.read 1 = some 0 := by
  let b : BufPool :=
    { bufRing := ⟨Block.malloc xioRingBufCount, 2 ^ 16 - 1⟩
      buf := 0
      bufMask := xioRingBufCount - 1
      bufOffsets := Block.calloc xioRingBufCount 0
      bufRefcount := (Block.calloc xioRingBufCount 0).put 1 (xioRingBufFlagDone + 2) }
  let result (flags : ℕ) : XioResult ℕ :=
    { op := some .recv, flags := flags, res := 1, buf := none, udata := none }
  have hrun : (fhXioResultsFree false b [result 0, result (2 ^ 16 + 1), result (2 ^ 16 + 1)]).map
      (fun b' => (b'.bufRing.tail, b'.bufRefcount.read 1)) = some (0, some 0) := by
    decide +kernel
  obtain ⟨b', hb', hq⟩ := Option.map_eq_some_iff.mp hrun
  obtain ⟨htail, hcount⟩ := Prod.mk.inj hq
  refine ⟨b, b', _, rfl, rfl, hb', ?_, htail, hcount⟩
  rw [← fhXioResultsFree_sequential false (by decide) (by decide)]
  exact hb'

end Freehttpd.Uring
