/-
Waiting on the generic `poll(2)` backend.

`xpoll_wait` scans its entries on a circle, from the saved index on, and stops
when the caller's array is full or it has gone once around.

* `loopAt` — the variables of the loop after it examined `j` entries;
* `waitTrace_eq` — the loop ends, and has reported the ready entries it examined;
* `xpollWait_eq` — one call is a capped batch of the circular scan;
* `xpoll_wait_first_ready` — which examines no entry twice and reports the first ready
  ones;
* `runs_wait` — so consecutive calls are consecutive batches;
* `xpoll_wait_not_starved` — and no ready entry is left out by enough of them.
-/
import Freehttpd.CircularScan
import Freehttpd.Runs
import Freehttpd.Xpoll

namespace Freehttpd

open CircularScan OpenAddressing Runs

variable {U : Type}

/-- The variables of the loop when `j` entries from `start` on were examined. -/
def loopAt (n start j : ℕ) (out : List (XpollEvent U)) : WaitLoop U :=
  if start = 0 ∨ start + j < n then
    { i := start + j, limit := n, rotated := false, out := out }
  else { i := start + j - n, limit := start, rotated := true, out := out }

section Loop

variable {n start j : ℕ} {out : List (XpollEvent U)}

@[simp] theorem loopAt_out : (loopAt n start j out).out = out := by
  rw [loopAt]
  split <;> rfl

theorem loopAt_lt_iff (hj : j ≤ n) :
    (loopAt n start j out).i < (loopAt n start j out).limit ↔ j < n := by
  rw [loopAt]
  split <;> simp only <;> omega

theorem loopAt_i (hs : start < n) (hj : j < n) :
    (loopAt n start j out).i = slotAt n start j := by
  rw [loopAt, slotAt]
  split
  · rw [Nat.mod_eq_of_lt (by omega)]
  · rw [Nat.mod_eq_sub_mod (by omega), Nat.mod_eq_of_lt (by omega)]

/-- The two branches at the end of the body both step to the next position. -/
theorem loopAt_succ (hj : j < n) (out' : List (XpollEvent U)) :
    (if (loopAt n start j out).i + 1 ≥ n ∧ (loopAt n start j out).rotated = false ∧ start ≠ 0 then
      { i := 0, limit := start, rotated := true, out := out' }
    else
      { i := (loopAt n start j out).i + 1
        limit := (loopAt n start j out).limit
        rotated := (loopAt n start j out).rotated
        out := out' })
      = loopAt n start (j + 1) out' := by
  by_cases h0 : start = 0
  · rw [if_neg (by simp [h0]), loopAt, loopAt, if_pos (.inl h0), if_pos (.inl h0)]
    rfl
  · rcases Nat.lt_trichotomy (start + j + 1) n with hlt | heq | hgt
    · have h₁ : start = 0 ∨ start + j < n := .inr (by omega)
      have h₂ : start = 0 ∨ start + (j + 1) < n := .inr (by omega)
      rw [loopAt, loopAt, if_pos h₁, if_pos h₂, if_neg (by simp only; omega)]
      rfl
    · have h₁ : start = 0 ∨ start + j < n := .inr (by omega)
      have h₂ : ¬ (start = 0 ∨ start + (j + 1) < n) := by omega
      rw [loopAt, loopAt, if_pos h₁, if_neg h₂, if_pos ⟨by simp only; omega, rfl, h0⟩]
      congr 1
      omega
    · have h₁ : ¬ (start = 0 ∨ start + j < n) := by omega
      have h₂ : ¬ (start = 0 ∨ start + (j + 1) < n) := by omega
      rw [loopAt, loopAt, if_neg h₁, if_neg h₂, if_neg (by simp)]
      congr 1
      simp only
      omega

end Loop

section Wait

variable {pfdList : Block Pollfd} {fdInfoList : Block (Option U)} {n m start : ℕ}
  {p : ℕ → Pollfd} {u : ℕ → Option U}

/-- The events of the ready entries among the first `e` examined. -/
def eventsOf (p : ℕ → Pollfd) (u : ℕ → Option U) (n start e : ℕ) : List (XpollEvent U) :=
  (met (fun i => (p i).revents ≠ 0) n start e).map fun i => waitEvent (p i) (u i)

theorem length_eventsOf (e : ℕ) : (eventsOf p u n start e).length
    = readyCount (fun i => (p i).revents ≠ 0) n start e := by
  rw [eventsOf, List.length_map, length_met]

/-- The first `if` of the body appends the event of a ready entry. -/
theorem reportEntry_eq {e : ℕ} (hu : fdInfoList.read (slotAt n start e)
    = some (u (slotAt n start e))) :
    reportEntry fdInfoList (slotAt n start e) (p (slotAt n start e)) (eventsOf p u n start e)
      = some (eventsOf p u n start (e + 1)) := by
  rw [reportEntry, eventsOf, eventsOf, met_succ, List.map_append, hu]
  split
  · rfl
  · rw [List.map_nil, List.append_nil]

/-- The loop with a record of the entries it examines. -/
def waitTrace (pfdList : Block Pollfd) (fdInfoList : Block (Option U))
    (pfdCount start maxEvents : ℕ) : ℕ → WaitLoop U → Option (List ℕ × WaitLoop U)
  | 0, _ => none
  | fuel + 1, w =>
    if w.i < w.limit ∧ w.out.length < maxEvents then do
      let p ← pfdList.read w.i
      let out ← reportEntry fdInfoList w.i p w.out
      let (examined, w') ← waitTrace pfdList fdInfoList pfdCount start maxEvents fuel
        (if w.i + 1 ≥ pfdCount ∧ w.rotated = false ∧ start ≠ 0 then
          { i := 0, limit := start, rotated := true, out := out }
        else { w with i := w.i + 1, out := out })
      some (w.i :: examined, w')
    else some ([], w)

/-- Without the record it is the loop. -/
theorem waitTrace_snd (fuel : ℕ) (w : WaitLoop U) :
    (waitTrace pfdList fdInfoList n start m fuel w).map Prod.snd
      = waitLoop pfdList fdInfoList n start m fuel w := by
  induction fuel generalizing w with
  | zero => rfl
  | succ fuel ih =>
    rw [waitTrace, waitLoop]
    split
    · cases pfdList.read w.i with
      | none => rfl
      | some p =>
        simp only [Option.bind_eq_bind, Option.bind_some]
        cases reportEntry fdInfoList w.i p w.out with
        | none => rfl
        | some out =>
          simp only [Option.bind_some]
          rw [← ih]
          cases waitTrace pfdList fdInfoList n start m fuel _ <;> rfl
    · rfl

theorem waitLoop_of_trace {fuel : ℕ} {w w' : WaitLoop U} {examined : List ℕ}
    (h : waitTrace pfdList fdInfoList n start m fuel w = some (examined, w')) :
    waitLoop pfdList fdInfoList n start m fuel w = some w' := by
  rw [← waitTrace_snd, h, Option.map_some]

/-- The loop ends, after examining `e` entries on the circle: all of them, or the last of
them filled the array. -/
theorem waitTrace_eq (hs : start < n) (hp : ∀ i < n, pfdList.read i = some (p i))
    (hu : ∀ i < n, fdInfoList.read i = some (u i)) {fuel j : ℕ} (hj : j ≤ n)
    (hfuel : n - j < fuel)
    (hcount : readyCount (fun i => (p i).revents ≠ 0) n start j ≤ m) :
    ∃ e, j ≤ e ∧ e ≤ n ∧
      waitTrace pfdList fdInfoList n start m fuel (loopAt n start j (eventsOf p u n start j))
        = some ((List.range' j (e - j)).map (slotAt n start),
          loopAt n start e (eventsOf p u n start e)) ∧
      readyCount (fun i => (p i).revents ≠ 0) n start e ≤ m ∧
      (e = n ∨ readyCount (fun i => (p i).revents ≠ 0) n start e = m) := by
  induction fuel generalizing j with
  | zero => exact absurd hfuel (Nat.not_lt_zero _)
  | succ fuel ih =>
    have hiff : ((loopAt n start j (eventsOf p u n start j)).i
          < (loopAt n start j (eventsOf p u n start j)).limit ∧
        (loopAt n start j (eventsOf p u n start j)).out.length < m) ↔
        j < n ∧ readyCount (fun i => (p i).revents ≠ 0) n start j < m := by
      rw [loopAt_lt_iff hj, loopAt_out, length_eventsOf]
    rw [waitTrace]
    by_cases hcond : j < n ∧ readyCount (fun i => (p i).revents ≠ 0) n start j < m
    · -- One more entry is examined, and reported if it is ready.
      have hi : (loopAt n start j (eventsOf p u n start j)).i = slotAt n start j :=
        loopAt_i hs hcond.1
      have hslot := slotAt_lt (show 0 < n by omega) start j
      have hread : pfdList.read (loopAt n start j (eventsOf p u n start j)).i
          = some (p (slotAt n start j)) := by rw [hi, hp _ hslot]
      have hreport : reportEntry fdInfoList (loopAt n start j (eventsOf p u n start j)).i
          (p (slotAt n start j)) (loopAt n start j (eventsOf p u n start j)).out
          = some (eventsOf p u n start (j + 1)) := by
        rw [hi, loopAt_out, reportEntry_eq (hu _ hslot)]
      rw [if_pos (hiff.mpr hcond)]
      simp only [hread, hreport, Option.bind_eq_bind, Option.bind_some]
      rw [loopAt_succ hcond.1]
      have hcount' : readyCount (fun i => (p i).revents ≠ 0) n start (j + 1) ≤ m := by
        rw [readyCount_succ]
        split <;> omega
      obtain ⟨e, hje, hen, heq, hle, hstop⟩ := ih (by omega) (by omega) hcount'
      refine ⟨e, by omega, hen, ?_, hle, hstop⟩
      rw [heq, hi, show e - j = (e - (j + 1)) + 1 by omega, List.range'_succ, List.map_cons]
      rfl
    · rw [if_neg fun h => hcond (hiff.mp h)]
      refine ⟨j, Nat.le_refl j, hj, ?_, hcount, by omega⟩
      rw [Nat.sub_self]
      rfl

/-- The index that is saved is the position behind the last entry examined. -/
theorem saved_eq {e : ℕ} {out : List (XpollEvent U)} (hs : start < n) (hn : n < 2 ^ 32)
    (he : e ≤ n) :
    (if (loopAt n start e out).i ≥ n then 0 else u32 (loopAt n start e out).i)
      = slotAt n start e := by
  rw [loopAt, slotAt]
  split
  · split
    · rename_i hi
      simp only at hi
      obtain ⟨rfl, rfl⟩ : start = 0 ∧ e = n := by omega
      rw [Nat.zero_add, Nat.mod_self]
    · rename_i hi
      simp only at hi ⊢
      rw [u32_of_lt (by omega), Nat.mod_eq_of_lt (by omega)]
  · rw [if_neg (by simp only; omega)]
    simp only
    rw [u32_of_lt (by omega), Nat.mod_eq_sub_mod (by omega), Nat.mod_eq_of_lt (by omega)]

theorem read_pollRevents {revents : ℕ → BitVec 16} {i : ℕ} {q : Pollfd} (hi : i < n)
    (hread : pfdList.read i = some q) :
    (pollRevents pfdList n revents).read i = some { q with revents := revents i } := by
  rw [Block.read, Option.join_eq_some_iff] at hread
  rw [pollRevents, Block.read, List.getElem?_mapIdx, hread, Option.map_some, if_pos hi]
  rfl

end Wait

/-! ### One call -/

/-- Entry `i` behind a call of `poll`. -/
def polled (p : ℕ → Pollfd) (revents : ℕ → BitVec 16) (i : ℕ) : Pollfd :=
  { p i with revents := revents i }

/-- The two lists hold `n` entries, of which the `i`th is `p i` up to its
`revents`. -/
structure Entries (xp : Xpoll U) (n : ℕ) (p : ℕ → Pollfd) (u : ℕ → Option U) : Prop where
  count_eq : xp.pfdCount = n
  pfd_read : ∀ i < n, ∃ revents, xp.pfdList.read i = some { p i with revents := revents }
  info_read : ∀ i < n, xp.fdInfoList.read i = some (u i)

section Call

variable {xp : Xpoll U} {n m : ℕ} {p : ℕ → Pollfd} {u : ℕ → Option U}

/-- One call is a batch of the circular scan. -/
theorem xpollWait_eq (h : Entries xp n p u) (hn : 0 < n) (hn32 : n < 2 ^ 32) (hm : 0 < m)
    (revents : ℕ → BitVec 16) :
    ∃ e xp', e ≤ n ∧ (∃ w, waitTrace (pollRevents xp.pfdList n revents) xp.fdInfoList n
          (xp.pfdLastWaitIndex % n) m (n + 1)
          { i := xp.pfdLastWaitIndex % n, limit := n, rotated := false, out := [] }
        = some ((circle n (xp.pfdLastWaitIndex % n)).take e, w)) ∧
      xpollWait xp (.ready revents) m
        = some ⟨(eventsOf (polled p revents) u n (xp.pfdLastWaitIndex % n) e).length, none,
          eventsOf (polled p revents) u n (xp.pfdLastWaitIndex % n) e, xp'⟩ ∧
      Entries xp' n p u ∧ xp'.pfdLastWaitIndex = slotAt n (xp.pfdLastWaitIndex % n) e ∧
      readyCount (fun i => revents i ≠ 0) n (xp.pfdLastWaitIndex % n) e ≤ m ∧
      (e = n ∨ readyCount (fun i => revents i ≠ 0) n (xp.pfdLastWaitIndex % n) e = m) := by
  have hs : xp.pfdLastWaitIndex % n < n := Nat.mod_lt _ hn
  have hpolled : ∀ i < n, (pollRevents xp.pfdList n revents).read i
      = some (polled p revents i) := fun i hi => by
    obtain ⟨r, hr⟩ := h.pfd_read i hi
    rw [read_pollRevents hi hr]
    rfl
  obtain ⟨e, -, hen, htrace, hle, hstop⟩ := waitTrace_eq (m := m) hs hpolled h.info_read
    (Nat.zero_le n) (show n - 0 < n + 1 by omega) (Nat.zero_le _)
  have hstart : loopAt n (xp.pfdLastWaitIndex % n) 0
        (eventsOf (polled p revents) u n (xp.pfdLastWaitIndex % n) 0)
      = { i := xp.pfdLastWaitIndex % n, limit := n, rotated := false, out := [] } := by
    rw [loopAt, if_pos (.inr (by omega))]
    rfl
  rw [hstart] at htrace
  have hloop := waitLoop_of_trace htrace
  refine ⟨e,
    { xp with
      pfdList := pollRevents xp.pfdList n revents
      pfdLastWaitIndex := slotAt n (xp.pfdLastWaitIndex % n) e }, hen,
    ⟨_, by rw [htrace, take_circle hen, Nat.sub_zero, List.range_eq_range']⟩, ?_,
    ⟨h.count_eq, fun i hi => ⟨_, hpolled i hi⟩, h.info_read⟩, rfl, hle, hstop⟩
  rw [xpollWait, if_pos (by omega), if_neg (by omega)]
  simp only [h.count_eq]
  rw [if_neg (by omega), Int.toNat_natCast]
  simp only [hloop, Option.bind_eq_bind, Option.bind_some, saved_eq hs hn32 hen, loopAt_out]

/-- One call examines no entry twice, and reports the first `m` of the ready entries in the
circular order from the saved index on, which it moves behind the last entry examined. -/
theorem xpoll_wait_first_ready (h : Entries xp n p u) (hn : 1 ≤ n) (hn32 : n < 2 ^ 32)
    (hm : 1 ≤ m) (revents : ℕ → BitVec 16) :
    ∃ examined last w r,
      waitTrace (pollRevents xp.pfdList n revents) xp.fdInfoList n (xp.pfdLastWaitIndex % n) m
          (n + 1) { i := xp.pfdLastWaitIndex % n, limit := n, rotated := false, out := [] }
        = some (examined, w) ∧
      examined <+: circle n (xp.pfdLastWaitIndex % n) ∧ examined.Nodup ∧
      xpollWait xp (.ready revents) m = some r ∧
      r.events = ((((circle n (xp.pfdLastWaitIndex % n)).filter fun i => revents i ≠ 0).take m).map
        fun i => waitEvent (polled p revents i) (u i)) ∧
      r.ret = (min m ((circle n (xp.pfdLastWaitIndex % n)).filter
        fun i => revents i ≠ 0).length : ℕ) ∧
      (((circle n (xp.pfdLastWaitIndex % n)).filter fun i => revents i ≠ 0).length ≤ m →
        ∀ i < n, revents i ≠ 0 → waitEvent (polled p revents i) (u i) ∈ r.events) ∧
      examined.getLast? = some last ∧ r.xp.pfdLastWaitIndex < n ∧
      r.xp.pfdLastWaitIndex = (last + 1) % n ∧
      (examined.length = n → r.xp.pfdLastWaitIndex = xp.pfdLastWaitIndex % n) := by
  obtain ⟨e, xp', hen, ⟨w, htrace⟩, hwait, -, hidx, hle, hstop⟩ :=
    xpollWait_eq h hn hn32 hm revents
  set start := xp.pfdLastWaitIndex % n
  have hs : start < n := Nat.mod_lt _ hn
  -- The first entry is always examined.
  have hpos : 0 < e := by
    rcases Nat.eq_zero_or_pos e with rfl | hpos
    · have hzero : readyCount (fun i => revents i ≠ 0) n start 0 = 0 := rfl
      omega
    · exact hpos
  have hevents : eventsOf (polled p revents) u n start e
      = (((circle n start).filter fun i => revents i ≠ 0).take m).map
        fun i => waitEvent (polled p revents i) (u i) := by
    rw [eventsOf, ← met_eq_filter_circle, ← met_eq_take hen hle hstop]
    rfl
  have hlast : ((circle n start).take e).getLast? = some (slotAt n start (e - 1)) := by
    rw [take_circle hen, List.getLast?_map, List.getLast?_range, if_neg (by omega)]
    rfl
  refine ⟨(circle n start).take e, slotAt n start (e - 1), w, _, htrace, List.take_prefix _ _,
    (circle_nodup n start).sublist (List.take_sublist _ _), hwait, hevents, ?_, ?_, hlast, ?_, ?_,
    ?_⟩
  · rw [hevents, List.length_map, List.length_take]
  · intro hall i hi hready
    rw [hevents, List.take_of_length_le hall]
    exact List.mem_map_of_mem
      (List.mem_filter.mpr ⟨(mem_circle hn start).mpr hi, decide_eq_true hready⟩)
  · rw [hidx]
    exact slotAt_lt hn start e
  · rw [hidx, ← slotAt_add_one, Nat.sub_add_cancel hpos]
  · intro hall
    rw [List.length_take, circle, List.length_map, List.length_range] at hall
    obtain rfl : e = n := by omega
    rw [hidx, slotAt, Nat.add_mod_right, Nat.mod_eq_of_lt hs]

end Call

/-- Three entries of which the second is not ready, from a saved index beyond the end: one
event fits, and is that of the last entry. -/
theorem xpoll_wait_first_ready_three : ∃ examined last w r,
    waitTrace (pollRevents ⟨[some ⟨0, 1, 0⟩, some ⟨1, 1, 0⟩, some ⟨2, 1, 0⟩]⟩ 3
        fun i => if i = 1 then 0 else 1) (Block.calloc 3 (some 7)) 3 2 1 4
        { i := 2, limit := 3, rotated := false, out := [] } = some (examined, w) ∧
      examined <+: circle 3 2 ∧ xpollWait
        { pfdCount := 3
          pfdCap := 3
          fdTableCap := 0
          pfdLastWaitIndex := 5
          fdTable := Block.malloc 0
          pfdList := ⟨[some ⟨0, 1, 0⟩, some ⟨1, 1, 0⟩, some ⟨2, 1, 0⟩]⟩
          fdInfoList := Block.calloc 3 (some 7) } (.ready fun i => if i = 1 then 0 else 1) 1
        = some r ∧ r.ret = 1 ∧ examined.getLast? = some last ∧
      r.xp.pfdLastWaitIndex = (last + 1) % 3 := by
  have hentries : Entries
      { pfdCount := 3
        pfdCap := 3
        fdTableCap := 0
        pfdLastWaitIndex := 5
        fdTable := Block.malloc 0
        pfdList := ⟨[some ⟨0, 1, 0⟩, some ⟨1, 1, 0⟩, some ⟨2, 1, 0⟩]⟩
        fdInfoList := Block.calloc 3 (some 7) } 3
      (fun i => ⟨BitVec.ofNat 32 i, 1, 0⟩) (fun _ => some 7) :=
    { count_eq := rfl
      pfd_read := fun i hi => ⟨0, by
        obtain rfl | rfl | rfl : i = 0 ∨ i = 1 ∨ i = 2 := by omega
        all_goals rfl⟩
      info_read := fun _ hi => Block.read_calloc _ hi }
  obtain ⟨examined, last, w, r, htrace, hprefix, -, hwait, -, hret, -, hlast, -, hsaved, -⟩ :=
    xpoll_wait_first_ready (m := 1) hentries (by decide) (by decide) (by decide)
      fun i => if i = 1 then 0 else 1
  exact ⟨examined, last, w, r, htrace, hprefix, hwait, hret.trans (by decide), hlast, hsaved⟩

section Call

variable {xp : Xpoll U} {n m : ℕ} {p : ℕ → Pollfd} {u : ℕ → Option U}

/-! ### Consecutive calls -/

/-- A call with an array of `m` events, as a step of a machine: what `poll` sets
goes in, the reported events come out. -/
def waitStep (m : ℕ) (xp : Xpoll U) (revents : ℕ → BitVec 16) :
    Option (List (XpollEvent U) × Xpoll U) := do
  let r ← xpollWait xp (.ready revents) m
  some (r.events, r.xp)

/-- Consecutive calls are consecutive batches: entry `i` is reported by one of
them if a batch examines it. -/
theorem runs_wait (h : Entries xp n p u) (hn : 0 < n) (hn32 : n < 2 ^ 32) (hm : 0 < m)
    {ready : ℕ → Prop} [DecidablePred ready] {polls : List (ℕ → BitVec 16)}
    (hpolls : ∀ revents ∈ polls, ∀ i < n, revents i ≠ 0 ↔ ready i) :
    ∃ es outs xp', es.length = polls.length ∧
      Batches ready n m (xp.pfdLastWaitIndex % n) es ∧
      runs (waitStep m) xp polls = some (outs, xp') ∧
      ∀ i < n, ready i → Covers n (xp.pfdLastWaitIndex % n) es i →
        ∃ call ∈ polls.zip outs, waitEvent (polled p call.1 i) (u i) ∈ call.2 := by
  induction polls generalizing xp with
  | nil => exact ⟨[], [], xp, rfl, trivial, rfl, fun _ _ _ h => h.elim⟩
  | cons revents polls ih =>
    obtain ⟨e, xp₁, hen, -, hwait, hent, hidx, -, hstop⟩ := xpollWait_eq h hn hn32 hm revents
    obtain ⟨es, outs, xp', hlen, hbatches, hruns, hcov⟩ :=
      ih hent fun r hr => hpolls r (by simp [hr])
    have hrev : ∀ k, (fun i => revents i ≠ 0) (slotAt n (xp.pfdLastWaitIndex % n) k) ↔
        ready (slotAt n (xp.pfdLastWaitIndex % n) k) := fun k =>
      hpolls revents (by simp) _ (slotAt_lt hn _ k)
    have hcount : readyCount (fun i => revents i ≠ 0) n (xp.pfdLastWaitIndex % n) e
        = readyCount ready n (xp.pfdLastWaitIndex % n) e := by
      rw [readyCount, readyCount]
      congr! 2 with k
      exact hrev k
    rw [hcount] at hstop
    have hstart : xp₁.pfdLastWaitIndex % n = slotAt n (xp.pfdLastWaitIndex % n) e := by
      rw [hidx, Nat.mod_eq_of_lt (slotAt_lt hn _ _)]
    rw [hstart] at hbatches hcov
    have hstep : waitStep m xp revents
        = some (eventsOf (polled p revents) u n (xp.pfdLastWaitIndex % n) e, xp₁) := by
      rw [waitStep, hwait]
      rfl
    refine ⟨e :: es, _ :: outs, xp', by simp [hlen], ⟨hen, hstop, hbatches⟩,
      by rw [runs_cons_of_step hstep, hruns]; rfl, fun i hi hready hc => ?_⟩
    rcases hc with ⟨j, hj, rfl⟩ | hc
    · -- Reported by the first call.
      refine ⟨(revents, _), by rw [List.zip_cons_cons]; exact List.mem_cons_self, ?_⟩
      exact List.mem_map_of_mem (mem_met.mpr ⟨⟨j, hj, rfl⟩, (hrev j).mpr hready⟩)
    · obtain ⟨call, hcall, hmem⟩ := hcov i hi hready hc
      exact ⟨call, by rw [List.zip_cons_cons]; exact List.mem_cons_of_mem _ hcall, hmem⟩

/-- No ready entry is starved: as many calls as it takes to report all ready
entries report each of them at least once. -/
theorem xpoll_wait_not_starved (h : Entries xp n p u) (hn : 1 ≤ n) (hn32 : n < 2 ^ 32)
    (hm : 1 ≤ m) {ready : ℕ → Prop} [DecidablePred ready] {polls : List (ℕ → BitVec 16)}
    (hpolls : ∀ revents ∈ polls, ∀ i < n, revents i ≠ 0 ↔ ready i)
    (hcalls : (Nat.count ready n + m - 1) / m ≤ polls.length) :
    ∃ outs xp', runs (waitStep m) xp polls = some (outs, xp') ∧
      ∀ i < n, ready i →
        ∃ call ∈ polls.zip outs, waitEvent (polled p call.1 i) (u i) ∈ call.2 := by
  obtain ⟨es, outs, xp', hlen, hbatches, hruns, hcov⟩ := runs_wait h hn hn32 hm hpolls
  refine ⟨outs, xp', hruns, fun i hi hready => hcov i hi hready ?_⟩
  refine hbatches.covers (Nat.mod_lt _ hn) ?_ hi hready
  rw [hlen]
  have hdiv := Nat.div_mul_le_self (Nat.count ready n + m - 1) m
  have hmod := Nat.div_add_mod (Nat.count ready n + m - 1) m
  have hlt := Nat.mod_lt (Nat.count ready n + m - 1) hm
  have hmul : (Nat.count ready n + m - 1) / m * m ≤ polls.length * m :=
    Nat.mul_le_mul_right m hcalls
  rw [Nat.mul_comm] at hmod
  omega

end Call

/-- Three entries of which the second is not ready, one event a call, from a
saved index beyond the end: two calls report both ready entries. -/
theorem xpoll_wait_not_starved_three : ∃ outs xp', runs (waitStep 1)
      { pfdCount := 3
        pfdCap := 3
        fdTableCap := 0
        pfdLastWaitIndex := 5
        fdTable := Block.malloc 0
        pfdList := ⟨[some ⟨0, 1, 0⟩, some ⟨1, 1, 0⟩, some ⟨2, 1, 0⟩]⟩
        fdInfoList := Block.calloc 3 (some 7) }
      [fun i => if i = 1 then 0 else 1, fun i => if i = 1 then 0 else 4] = some (outs, xp') ∧
    ∀ i < 3, i ≠ 1 → ∃ call ∈ [fun i => if i = 1 then (0 : BitVec 16) else 1,
        fun i => if i = 1 then 0 else 4].zip outs,
      waitEvent (polled (fun i => ⟨BitVec.ofNat 32 i, 1, 0⟩) call.1 i) (some 7) ∈ call.2 := by
  refine xpoll_wait_not_starved (n := 3)
    { count_eq := rfl
      pfd_read := fun i hi => ⟨0, ?_⟩
      info_read := fun i hi => Block.read_calloc _ hi } (by decide) (by decide) (by decide)
    (List.forall_mem_cons.mpr ⟨fun i _ => ?_, List.forall_mem_singleton.mpr fun i _ => ?_⟩)
    (by decide)
  · obtain rfl | rfl | rfl : i = 0 ∨ i = 1 ∨ i = 2 := by omega
    all_goals rfl
  · by_cases h : i = 1 <;> simp [h]
  · by_cases h : i = 1 <;> simp [h]

end Freehttpd
