/-
Where the kernel writes into a provided buffer, and where the results point.

The kernel has a consumption point in every buffer on the ring.  A completion is
written there, and the point moves on: by the length that was asked for, cut to what
is left, for a read or a write, and by the bytes transferred for a receive or a send.
`fh_xio_wait` follows the point with the offsets.

* `nextOff_eq_iff` — one completion is followed exactly if it is `Tracked`;
* `uring_pointers_iff` — in every run the results of a cycle point to what the kernel
  wrote, apart from each other and inside the buffer, if and only if every completion
  but the last one harvested is `Tracked`.
-/
import Freehttpd.UringCycles
import Mathlib.Order.Interval.Set.Basic

namespace Freehttpd.Uring

open Runs

variable {U : Type}

/-! ### The kernel -/

/-- The size in a request. -/
def XioOpData.size : XioOpData → ℕ
  | .read _ _ size => size
  | .write _ _ size => size
  | .recv _ _ size _ => size
  | .send _ _ size _ => size
  | .accept .. => 0

/-- A length that is asked for, cut to what is left behind `p`; zero asks for all. -/
def kernelClamp (len p : ℕ) : ℕ :=
  if len = 0 then xioRingBufSize - p else min len (xioRingBufSize - p)

/-- How far the consumption point `p` moves on; the submission entry has 32 bits for
the length. -/
def kernelAdvance (p : ℕ) (w : Write) : ℕ :=
  match w.opdata with
  | .read _ _ size => kernelClamp (u32 size) p
  | .write _ _ size => kernelClamp (u32 size) p
  | _ => w.res.toNat

/-- The consumption points at which some completions are written. -/
def kernelPoints : ℕ → List Write → List ℕ
  | _, [] => []
  | p, w :: ws => p :: kernelPoints (p + kernelAdvance p w) ws

/-- The consumption point behind some completions. -/
def kernelPoint (p : ℕ) (ws : List Write) : ℕ := ws.foldl (fun p w => p + kernelAdvance p w) p

/-- What the kernel writes at `p`: an operation without a buffer of its own, and no more
than was asked for and is left. -/
structure WriteOk (p : ℕ) (w : Write) : Prop where
  selected : w.opdata.buf = none
  transfer : w.opdata.op ≠ .accept
  size_lt : w.opdata.size < 2 ^ 64
  res_le : w.res ≤ kernelClamp (u32 w.opdata.size) p

/-- Completions that the kernel writes one behind the other. -/
def WritesOk : ℕ → List Write → Prop
  | _, [] => True
  | p, w :: ws => WriteOk p w ∧ WritesOk (p + kernelAdvance p w) ws

/-- The offset follows the consumption point `p` over the completion. -/
def Tracked (p : ℕ) (w : Write) : Prop :=
  match w.opdata with
  | .read _ _ size | .write _ _ size =>
    (w.res < 0 → p = xioRingBufSize) ∧ (0 ≤ w.res → p + size < 2 ^ 64 ∧
      (p = xioRingBufSize ∨
        size ≠ 0 ∧ (size < 2 ^ 32 ∨ u32 size = 0 ∨ xioRingBufSize ≤ p + u32 size)))
  | .recv _ _ size _ | .send _ _ size _ => size ≠ 0 ∨ w.res ≤ 0
  | .accept .. => True

/-- All of the completions are followed. -/
def AllTracked : ℕ → List Write → Prop
  | _, [] => True
  | p, w :: ws => Tracked p w ∧ AllTracked (p + kernelAdvance p w) ws

theorem kernelClamp_le (len : ℕ) {p : ℕ} (hp : p ≤ xioRingBufSize) :
    p + kernelClamp len p ≤ xioRingBufSize := by
  rw [kernelClamp]
  split <;> omega

theorem WriteOk.advance_le {p : ℕ} {w : Write} (h : WriteOk p w) (hp : p ≤ xioRingBufSize) :
    p + kernelAdvance p w ≤ xioRingBufSize := by
  have hres := h.res_le
  have hcl := kernelClamp_le (u32 w.opdata.size) hp
  rw [kernelAdvance]
  cases hop : w.opdata with
  | read fd buf size => exact kernelClamp_le _ hp
  | write fd buf size => exact kernelClamp_le _ hp
  | recv fd buf size flags => dsimp only; omega
  | send fd buf size flags => dsimp only; omega
  | accept fd addr addrLen flags => exact absurd (by rw [hop]; rfl) h.transfer

/-- The bytes written lie in what the point moves over. -/
theorem WriteOk.res_le_advance {p : ℕ} {w : Write} (h : WriteOk p w) :
    w.res.toNat ≤ kernelAdvance p w := by
  have hres := h.res_le
  rw [kernelAdvance]
  cases hop : w.opdata with
  | read fd buf size =>
    rw [hop] at hres
    exact Int.toNat_le.mpr hres
  | write fd buf size =>
    rw [hop] at hres
    exact Int.toNat_le.mpr hres
  | _ => exact le_refl _

/-! ### One completion -/

theorem nextOff_of_le {p n : ℕ} (h : p + n ≤ xioRingBufSize) : nextOff p n = p + n := by
  rw [nextOff, u64_of_lt (lt_of_le_of_lt h (by decide))]
  split
  · exact le_antisymm ‹_› h
  · exact u32_of_lt (lt_of_le_of_lt h (by decide))

theorem nextOff_of_ge {p n : ℕ} (h : xioRingBufSize ≤ p + n) (hlt : p + n < 2 ^ 64) :
    nextOff p n = xioRingBufSize := by
  rw [nextOff, u64_of_lt hlt, if_pos h]

/-- The offset that wraps around falls behind. -/
theorem nextOff_of_wrap {p n : ℕ} (hp : p ≤ xioRingBufSize) (hn : n < 2 ^ 64)
    (h : 2 ^ 64 ≤ p + n) : nextOff p n < p := by
  rw [xioRingBufSize] at hp
  have hu : u64 (p + n) = p + n - 2 ^ 64 := by rw [u64]; omega
  rw [nextOff, hu, if_neg (by rw [xioRingBufSize]; omega), u32_of_lt (by omega)]
  omega

/-- A transfer, which moves the point by its result. -/
theorem nextOff_min_iff {p size : ℕ} {res : ℤ} (hp : p ≤ xioRingBufSize)
    (hres : res ≤ kernelClamp (u32 size) p) :
    nextOff p (min size res.toNat) = p + res.toNat ↔ size ≠ 0 ∨ res ≤ 0 := by
  have hcl := kernelClamp_le (u32 size) hp
  by_cases h0 : size = 0
  · rw [h0, Nat.zero_min, nextOff_of_le hp]
    omega
  · have hle : res.toNat ≤ size := by
      rw [kernelClamp, u32] at hres
      split at hres
      · -- The length is cut to zero only from `2 ^ 32` on.
        rw [xioRingBufSize] at hres
        omega
      · omega
    rw [Nat.min_eq_right hle]
    exact iff_of_true (nextOff_of_le (by omega)) (.inl h0)

/-- A read or a write, which moves the point by its length. -/
theorem nextOff_size_iff {p size : ℕ} (hp : p ≤ xioRingBufSize) (hsize : size < 2 ^ 64) :
    nextOff p size = p + kernelClamp (u32 size) p ↔ p + size < 2 ^ 64 ∧
      (p = xioRingBufSize ∨
        size ≠ 0 ∧ (size < 2 ^ 32 ∨ u32 size = 0 ∨ xioRingBufSize ≤ p + u32 size)) := by
  rcases Nat.lt_or_ge (p + size) (2 ^ 64) with hlt | hge
  · rw [and_iff_right hlt]
    rcases Nat.lt_or_ge size (2 ^ 32) with hs | hs
    · rw [u32_of_lt hs, kernelClamp]
      by_cases h0 : size = 0
      · rw [h0, if_pos rfl, nextOff_of_le hp]
        omega
      · rw [if_neg h0]
        refine iff_of_true ?_ (.inr ⟨h0, .inl hs⟩)
        rcases Nat.le_total (p + size) xioRingBufSize with hle | hle
        · rw [nextOff_of_le hle, Nat.min_eq_left (by omega)]
        · rw [nextOff_of_ge hle hlt, Nat.min_eq_right (by omega)]
          omega
    · -- The offset is at the end, and the kernel only sees the low half of the length.
      have hge : xioRingBufSize ≤ p + size := by rw [xioRingBufSize]; omega
      rw [nextOff_of_ge hge hlt, kernelClamp]
      split
      · exact iff_of_true (by omega) (.inr ⟨by omega, .inr (.inl ‹_›)⟩)
      · omega
  · refine iff_of_false (fun he => ?_) fun h => absurd h.1 (Nat.not_lt.mpr hge)
    have := nextOff_of_wrap hp hsize hge
    omega

/-- The offset follows the consumption point over a completion exactly if it is
`Tracked`. -/
theorem nextOff_eq_iff {p : ℕ} {w : Write} (h : WriteOk p w) (hp : p ≤ xioRingBufSize) :
    nextOff p w.size = p + kernelAdvance p w ↔ Tracked p w := by
  have hres := h.res_le
  have hsize := h.size_lt
  -- Reads and writes: the size of the request counts, whatever was transferred.
  have hfile : ∀ size : ℕ, size < 2 ^ 64 →
      (nextOff p (if w.res < 0 then 0 else size) = p + kernelClamp (u32 size) p ↔
        (w.res < 0 → p = xioRingBufSize) ∧ (0 ≤ w.res → p + size < 2 ^ 64 ∧
          (p = xioRingBufSize ∨
            size ≠ 0 ∧ (size < 2 ^ 32 ∨ u32 size = 0 ∨ xioRingBufSize ≤ p + u32 size)))) := by
    intro size hs
    by_cases hneg : w.res < 0
    · rw [if_pos hneg, nextOff_of_le hp, kernelClamp]
      split <;> omega
    · rw [if_neg hneg, nextOff_size_iff hp hs]
      omega
  -- Receives and sends: what was transferred counts.
  have hdfl : (if w.res < 0 then 0 else w.res.toNat) = w.res.toNat := by
    split <;> omega
  rw [Tracked, kernelAdvance, Write.size, populateSize]
  cases hop : w.opdata with
  | read fd buf size =>
    rw [hop] at hsize
    exact hfile size hsize
  | write fd buf size =>
    rw [hop] at hsize
    exact hfile size hsize
  | recv fd buf size flags =>
    rw [hop] at hres
    show nextOff p (min size (if w.res < 0 then 0 else w.res.toNat)) = _ ↔ _
    rw [hdfl]
    exact nextOff_min_iff hp hres
  | send fd buf size flags =>
    rw [hop] at hres
    show nextOff p (min size (if w.res < 0 then 0 else w.res.toNat)) = _ ↔ _
    rw [hdfl]
    exact nextOff_min_iff hp hres
  | accept fd addr addrLen flags => exact absurd (by rw [hop]; rfl) h.transfer

/-! ### All completions of a cycle -/

theorem writesOk_append {p : ℕ} {ws ws' : List Write} :
    WritesOk p (ws ++ ws') ↔ WritesOk p ws ∧ WritesOk (kernelPoint p ws) ws' := by
  induction ws generalizing p with
  | nil => exact (and_iff_right trivial).symm
  | cons w ws ih =>
    rw [List.cons_append, WritesOk, WritesOk, ih, and_assoc]
    rfl

theorem sigs_res (base p : ℕ) (ws : List Write) :
    (sigs base p ws).map Prod.fst = ws.map Write.res := by
  induction ws generalizing p with
  | nil => rfl
  | cons w ws ih => rw [sigs, List.map_cons, List.map_cons, ih]

/-- The results point to the consumption points exactly if everything but the last
completion is followed. -/
theorem sigs_bufs_iff (base : ℕ) {p : ℕ} {ws : List Write} (h : WritesOk p ws)
    (hp : p ≤ xioRingBufSize) :
    (sigs base p ws).map (fun q => q.2.2) = (kernelPoints p ws).map (fun q => some (base + q)) ↔
      AllTracked p ws.dropLast := by
  induction ws generalizing p with
  | nil => exact iff_of_true rfl trivial
  | cons w ws ih =>
    have hw := h.1
    rw [sigs, kernelPoints, List.map_cons, List.map_cons, hw.selected, Option.none_or,
      List.cons.injEq, and_iff_right rfl]
    cases ws with
    | nil => exact iff_of_true rfl trivial
    | cons w' ws =>
      rw [List.dropLast_cons_cons, AllTracked, ← ih h.2 (hw.advance_le hp), ← nextOff_eq_iff hw hp]
      by_cases he : nextOff p w.size = p + kernelAdvance p w
      · rw [he, and_iff_right rfl]
      · -- The next result already points elsewhere.
        refine iff_of_false (fun hmap => he ?_) fun hall => he hall.1
        rw [sigs, kernelPoints, List.map_cons, List.map_cons, h.2.1.selected, Option.none_or] at hmap
        have hhead := Option.some.inj (List.cons.inj hmap).1
        omega

/-- The bytes of a result. -/
def bytes (r : XioResult U) : Set ℕ :=
  match r.buf with
  | some buf => Set.Ico buf (buf + r.res.toNat)
  | none => ∅

/-- What the kernel writes lies apart, and inside the buffer. -/
theorem bytes_apart {base p : ℕ} {ws : List Write} {rs : List (XioResult U)} (h : WritesOk p ws)
    (hp : p ≤ xioRingBufSize) (hres : rs.map XioResult.res = ws.map Write.res)
    (hbuf : rs.map XioResult.buf = (kernelPoints p ws).map (fun q => some (base + q))) :
    (∀ r ∈ rs, bytes r ⊆ Set.Ico (base + p) (base + xioRingBufSize)) ∧
      rs.Pairwise (fun r r' => ∀ n ∈ bytes r, n ∉ bytes r') := by
  induction ws generalizing p rs with
  | nil =>
    rw [List.map_nil, List.map_eq_nil_iff] at hres
    rw [hres]
    exact ⟨fun r hr => absurd hr List.not_mem_nil, List.Pairwise.nil⟩
  | cons w ws ih =>
    cases rs with
    | nil => cases hres
    | cons r rs =>
      rw [List.map_cons, List.map_cons] at hres
      rw [kernelPoints, List.map_cons, List.map_cons] at hbuf
      obtain ⟨hr, hrest⟩ := List.cons.inj hres
      obtain ⟨hb, hbufs⟩ := List.cons.inj hbuf
      have hadv := h.1.advance_le hp
      have hle := h.1.res_le_advance
      have hbytes : bytes r ⊆ Set.Ico (base + p) (base + (p + kernelAdvance p w)) := by
        rw [bytes, hb, hr]
        exact Set.Ico_subset_Ico_right (by omega)
      obtain ⟨hinside, hapart⟩ := ih h.2 hadv hrest hbufs
      refine ⟨fun r' hr' => ?_, List.pairwise_cons.mpr ⟨fun r' hr' => ?_, hapart⟩⟩
      · rcases List.mem_cons.mp hr' with rfl | hr'
        · exact hbytes.trans (Set.Ico_subset_Ico_right (by omega))
        · exact (hinside r' hr').trans (Set.Ico_subset_Ico_left (by omega))
      · intro n hn hn'
        exact absurd (hbytes hn).2 (Nat.not_lt.mpr (hinside r' hr' hn').1)

/-! ### Runs -/

/-- The kernel writes where its consumption point is, and sizes are of type `size_t`. -/
def KernelWrites (s : Machine U) : UringOp U → Prop
  | .request _ _ opdata _ => opdata.size < 2 ^ 64
  | .post cqe => hasFlag cqe.flags ioringCqeFBuffer = true →
      ∀ r, requestOf s.requests cqe = some r → r.opdata.buf = none ∧ r.opdata.op ≠ .accept ∧
        cqe.res ≤ kernelClamp (u32 r.opdata.size) (kernelPoint 0 (s.writes (flagsBid cqe.flags)))
  | _ => True

/-- What the kernel wrote so far. -/
structure Machine.Written (s : Machine U) : Prop where
  size_lt : ∀ a r, s.requests a = some r → r.opdata.size < 2 ^ 64
  writes : ∀ bid, WritesOk 0 (s.writes bid)

theorem Machine.written_start (x : Xio U) : (Machine.start x).Written where
  size_lt a r hr := by cases hr
  writes bid := trivial

variable [DecidableEq U]

theorem Machine.Written.afterFree {s : Machine U} (h : s.Written) (rs : List (XioResult U))
    (b : BufPool) : (s.afterFree rs b).Written := by
  refine ⟨h.size_lt, fun bid => ?_⟩
  show WritesOk 0 (if bid ∈ putBack s.xio.bufs b then [] else s.writes bid)
  split
  · trivial
  · exact h.writes bid

/-- Every step keeps what the kernel wrote in order. -/
theorem Machine.Written.step {s s' : Machine U}
    {consumed : List (IoUringCqe × Option (XioRequest U))} (h : s.Written)
    (hinv : s.Inv consumed) {op : UringOp U} (hadm : Admissible s op) (hop : KernelWrites s op)
    {ret : UringRet U} (hstep : uringStep s op = some (ret, s')) : s'.Written := by
  cases op with
  | request env udata opdata offset =>
    obtain ⟨rc, sqe, x, hreq, -, -, -, hrequests⟩ := hinv.request hadm udata opdata offset
    rw [uringStep, hreq] at hstep
    obtain ⟨-, rfl⟩ := Prod.mk.inj (Option.some.inj hstep)
    refine ⟨fun a r hr => ?_, h.writes⟩
    rcases hrequests with ⟨-, -, heq⟩ | ⟨e, a', -, -, -, -, -, heq⟩
    · rw [heq] at hr
      exact h.size_lt a r hr
    · rw [heq] at hr
      rcases eq_or_ne a a' with rfl | hne
      · rw [Function.update_self] at hr
        rw [← Option.some.inj hr]
        exact hop
      · rw [Function.update_of_ne hne] at hr
        exact h.size_lt a r hr
  | post cqe =>
    obtain ⟨-, rfl⟩ := Prod.mk.inj (Option.some.inj hstep)
    refine ⟨h.size_lt, fun bid => ?_⟩
    rw [s.afterPost_writes cqe bid, writesOk_append]
    refine ⟨h.writes bid, ?_⟩
    rw [writeOf]
    by_cases hc : carries bid cqe = true
    · obtain ⟨hb, rfl⟩ := carries_iff.mp hc
      rw [if_pos hc]
      cases hr : requestOf s.requests cqe with
      | none => trivial
      | some r =>
        obtain ⟨hsel, hop', hres⟩ := hop hb r hr
        have hsize : r.opdata.size < 2 ^ 64 := by
          rw [requestOf] at hr
          split at hr
          · exact h.size_lt _ r hr
          · cases hr
        exact ⟨⟨hsel, hop', hsize, hres⟩, trivial⟩
    · rw [if_neg hc]
      trivial
  | wait maxResults rc =>
    obtain ⟨w, x, -, -, rfl⟩ := uringStep_wait_eq_some hstep
    exact ⟨fun a r hr => h.size_lt a r (foldl_finish_eq_some hr).1, h.writes⟩
  | free result =>
    obtain ⟨b, -, -, rfl⟩ := uringStep_free_eq_some hstep
    exact h.afterFree [result] b
  | freeAll results =>
    obtain ⟨b, -, -, rfl⟩ := uringStep_freeAll_eq_some hstep
    exact h.afterFree results b

/-- A run whose steps keep to all conditions does not fail. -/
theorem Machine.Written.run {s : Machine U}
    {consumed : List (IoUringCqe × Option (XioRequest U))} (h : s.Written) (hacc : s.Accounts)
    (hinv : s.Inv consumed) {ops : List (UringOp U)}
    (hops : EachStep uringStep (fun s op => Allowed s op ∧ KernelWrites s op) s ops) :
    ∃ (outs : List (UringRet U)) (t : Machine U), runs uringStep s ops = some (outs, t) ∧
      t.Accounts ∧ t.Written := by
  induction ops generalizing s consumed with
  | nil => exact ⟨[], s, rfl, hacc, h⟩
  | cons op ops ih =>
    obtain ⟨hallowed, hwrites⟩ := hops.1
    obtain ⟨ret, s', bids, hstep, hacc', -, -⟩ := hacc.step hinv hallowed
    obtain ⟨newly, hinv', -⟩ := hinv.step hallowed.1 hstep
    obtain ⟨outs, t, hruns, ht⟩ := ih (h.step hinv hallowed.1 hwrites hstep) hacc' hinv'
      ((eachStep_cons_of_step hstep ops).mp hops).2
    refine ⟨ret :: outs, t, ?_, ht⟩
    rw [runs_cons_of_step hstep, hruns]
    rfl

/-- In a cycle every result points to where its completion was written, inside the
buffer and apart from the others. -/
structure Placed (s : Machine U) (bid : ℕ) : Prop where
  buf_eq : (s.harvested bid).map XioResult.buf
    = (kernelPoints 0 ((s.writes bid).take (s.harvested bid).length)).map
        fun p => some (fhXioRingGetBuffer s.xio.bufs.buf bid + p)
  inside : ∀ r ∈ s.harvested bid, bytes r ⊆ Set.Ico (fhXioRingGetBuffer s.xio.bufs.buf bid)
    (fhXioRingGetBuffer s.xio.bufs.buf bid + xioRingBufSize)
  apart : (s.harvested bid).Pairwise fun r r' => ∀ n ∈ bytes r, n ∉ bytes r'

/-- In every run from `fh_xio_create` in which the kernel writes every completion at its
consumption point, the results of a cycle are of its first completions, and they are
all `Placed` if and only if every completion harvested but the last is `Tracked`. -/
theorem uring_pointers_iff {calloc queueInit setupBufRing : Bool} {memalign : Option ℕ}
    {x₀ : Xio U} {ops : List (UringOp U)} {outs : List (UringRet U)} {s : Machine U}
    (hcreate : fhXioCreate calloc queueInit setupBufRing memalign = some (some x₀))
    (hops : EachStep uringStep (fun s op => Allowed s op ∧ KernelWrites s op)
      (Machine.start x₀) ops)
    (hruns : runs uringStep (Machine.start x₀) ops = some (outs, s)) (bid : ℕ) :
    (s.harvested bid).map XioResult.res
        = ((s.writes bid).take (s.harvested bid).length).map Write.res ∧
      (Placed s bid ↔ AllTracked 0 ((s.writes bid).take (s.harvested bid).length).dropLast) := by
  obtain ⟨outs', t, hruns', hacc, hw⟩ := (Machine.written_start x₀).run
    (Machine.accounts_start hcreate) (Machine.inv_start hcreate) hops
  obtain ⟨rfl, rfl⟩ := Prod.mk.inj (Option.some.inj (hruns.symm.trans hruns'))
  obtain ⟨off, cnt, done, -, hs⟩ := hacc
  -- The results are those of `done`, the first completions of the cycle.
  have hsigs := hs.sigs_eq bid
  have hlen : (s.harvested bid).length = (done bid).length := by
    have := congrArg List.length (hs.more_eq bid)
    rwa [List.length_map, List.length_map] at this
  have htake : (s.writes bid).take (s.harvested bid).length = done bid := by
    rw [hs.writes_eq, hlen, List.take_left]
  have hok : WritesOk 0 (done bid) := (writesOk_append.mp (hs.writes_eq bid ▸ hw.writes bid)).1
  have hres : (s.harvested bid).map XioResult.res = (done bid).map Write.res := by
    have := congrArg (List.map Prod.fst) hsigs
    rwa [List.map_map, sigs_res] at this
  have hbufs : (s.harvested bid).map XioResult.buf
      = (sigs (fhXioRingGetBuffer s.xio.bufs.buf bid) 0 (done bid)).map fun q => q.2.2 := by
    rw [← hsigs, List.map_map]
    rfl
  rw [htake]
  refine ⟨hres, ?_⟩
  rw [← sigs_bufs_iff (fhXioRingGetBuffer s.xio.bufs.buf bid) hok (Nat.zero_le _), ← hbufs]
  constructor
  · intro hplaced
    rw [hplaced.buf_eq, htake]
  · intro hbuf
    obtain ⟨hinside, hapart⟩ := bytes_apart hok (Nat.zero_le _) hres hbuf
    exact ⟨by rw [hbuf, htake], hinside, hapart⟩

/-- Two receive requests of `size` bytes without a buffer, whose completions land in
the same one, and a wait. -/
def recvTwice (size : ℕ) : List (UringOp ℕ) :=
  [.request ⟨some 1, true, false⟩ (some 7) (.recv 5 none size 0) 0,
    .request ⟨some 2, true, false⟩ (some 8) (.recv 6 none size 0) 0, .post ⟨.data 1, 10, 17⟩,
    .post ⟨.data 2, 20, 17⟩, .wait 4 0]

/-- The results of `recvTwice`. -/
def recvTwiceResults (size : ℕ) : List (XioResult ℕ) :=
  [⟨some .recv, 17, 10, some (fhXioRingGetBuffer 0 0 + 0), some 7⟩,
    ⟨some .recv, 17, 20, some (fhXioRingGetBuffer 0 0 + nextOff 0 (min size 10)), some 8⟩]

set_option maxRecDepth 20000 in
theorem recvTwice_runs (r : TailRing IoUringBuf) {size : ℕ} (hsize : size < 2 ^ 64)
    (h₁ : 10 ≤ kernelClamp (u32 size) 0) (h₂ : 20 ≤ kernelClamp (u32 size) 10) :
    ∃ outs s, runs uringStep (Machine.start (freshXio 0 r)) (recvTwice size) = some (outs, s) ∧
      (EachStep uringStep (fun s op => Allowed s op ∧ KernelWrites s op)
        (Machine.start (freshXio 0 r)) (recvTwice size)) ∧
      s.xio.bufs.buf = 0 ∧ s.harvested 0 = s.held.filter (refersTo 0) ∧
      s.held = recvTwiceResults size ∧
      s.writes 0 = [⟨.recv 5 none size 0, 10, true⟩, ⟨.recv 6 none size 0, 20, true⟩] := by
  have hop : XioOp.recv ≠ .accept := by decide
  refine ⟨_, _, rfl, ?_, rfl, rfl, rfl, rfl⟩
  refine (eachStep_cons_of_step rfl _).mpr ⟨⟨⟨fun a ha => rfl, trivial⟩, hsize⟩, ?_⟩
  refine (eachStep_cons_of_step rfl _).mpr ⟨⟨⟨fun a ha => ?_, trivial⟩, hsize⟩, ?_⟩
  · obtain rfl : 2 = a := Option.some.inj ha
    rfl
  -- The first completion finds the buffer as it was put on the ring.
  refine (eachStep_cons_of_step rfl _).mpr
    ⟨⟨⟨fun a ha => ?_, fun _ => ⟨⟨1, rfl⟩, fun w hw => (by cases hw)⟩⟩, fun _ q hq => ?_⟩, ?_⟩
  · obtain rfl : 1 = a := UserData.data.inj ha
    exact ⟨⟨_, rfl⟩, fun c hc => absurd hc List.not_mem_nil, fun _ => by decide⟩
  · obtain rfl := Option.some.inj hq
    exact ⟨rfl, hop, Int.ofNat_le.mpr h₁⟩
  -- The second finds ten bytes of it used.
  refine (eachStep_cons_of_step rfl _).mpr
    ⟨⟨⟨fun a ha => ?_, fun _ => ⟨⟨2, rfl⟩, fun w hw => ?_⟩⟩, fun _ q hq => ?_⟩, ?_⟩
  · obtain rfl : 2 = a := UserData.data.inj ha
    refine ⟨⟨_, rfl⟩, fun c hc hc' => ?_, fun _ => by decide⟩
    obtain rfl := List.mem_singleton.mp hc
    cases hc'
  · obtain rfl := List.mem_singleton.mp hw
    rfl
  · obtain rfl := Option.some.inj hq
    exact ⟨rfl, hop, Int.ofNat_le.mpr h₂⟩
  · refine eachStep_singleton.mpr ⟨⟨trivial, fun ret x hwait bid => ?_⟩, trivial⟩
    obtain ⟨rfl, -⟩ := Prod.mk.inj (Option.some.inj hwait)
    have hlen : (2 : ℕ) < 2 ^ 31 := by decide
    exact lt_of_le_of_lt List.countP_le_length hlen

/-- Two receive requests of 64 bytes: the results are placed. -/
theorem uring_pointers_recv_sized : ∃ x₀ : Xio ℕ, ∃ outs s,
    fhXioCreate true true true (some 0) = some (some x₀) ∧
    runs uringStep (Machine.start x₀) (recvTwice 64) = some (outs, s) ∧ Placed s 0 := by
  obtain ⟨r, hcreate⟩ := fhXioCreate_succeeds (U := ℕ) 0
  obtain ⟨outs, s, hruns, hops, hbuf, hharvested, hheld, hwrites⟩ :=
    recvTwice_runs r (by decide : 64 < 2 ^ 64) (by decide) (by decide)
  refine ⟨_, outs, s, hcreate, hruns, (uring_pointers_iff hcreate hops hruns 0).2.mpr ?_⟩
  rw [hwrites, hharvested, hheld]
  exact ⟨.inl (by decide), trivial⟩

/-- Two receive requests of size 0: the second result points to the first one's bytes. -/
theorem uring_pointers_recv_zero : ∃ x₀ : Xio ℕ, ∃ outs s,
    fhXioCreate true true true (some 0) = some (some x₀) ∧
    EachStep uringStep (fun s op => Allowed s op ∧ KernelWrites s op) (Machine.start x₀)
      (recvTwice 0) ∧
    runs uringStep (Machine.start x₀) (recvTwice 0) = some (outs, s) ∧
    s.held.map (fun r => (r.res, r.buf)) = [(10, some 0), (20, some 0)] ∧ ¬ Placed s 0 := by
  obtain ⟨r, hcreate⟩ := fhXioCreate_succeeds (U := ℕ) 0
  obtain ⟨outs, s, hruns, hops, hbuf, hharvested, hheld, hwrites⟩ :=
    recvTwice_runs r (by decide : 0 < 2 ^ 64) (by decide) (by decide)
  refine ⟨_, outs, s, hcreate, hops, hruns, by rw [hheld]; decide, fun hplaced => ?_⟩
  have hbufs := hplaced.buf_eq
  rw [hbuf, hwrites, hharvested, hheld] at hbufs
  exact absurd hbufs (by decide)

end Freehttpd.Uring
