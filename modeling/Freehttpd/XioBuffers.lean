/-
The buffers of the xpoll backend: the references to its slices.

A request without a buffer of its own takes a slice, and its task holds the
reference: `Xio.RefsExact`.  The error paths of a request give it back, but
`fh_xio_wait` recycles a task without a look at its flags, and a request resets
the queues of the fd state it takes without a look at what is left there.

* `SlicePool.Counted` — the references of every slice are as many as they should be;
* `Pins` — they are those of the labels of the queued tasks, and of the labels `lost`
  that no queued task has;
* `Pins.recv`, `Pins.wait` — what a request and a wait leave behind;
* `buffers_exact_iff` — a run from `fh_xio_create` keeps the references exact
  throughout if and only if each of its calls is one of `XioCall.KeepsRefs`;
* `buffers_leaked` — one queued request and an error event.
-/
import Freehttpd.XioLabels

namespace Freehttpd

open Runs

variable {U : Type}

/-! ### Statement -/

/-- The slice that a task holds a reference to, if it has `XIO_TASK_F_BUFFER`. -/
def TaskPool.slice (p : TaskPool U) (task : ℕ) : Option ℕ := do
  let t ← p.taskList.read task
  if t.flags &&& xioTaskFBuffer ≠ 0 then some t.bid else none

/-- The number of tasks of the queues `q` that hold a reference to slice `b`. -/
def TaskPool.pins (p : TaskPool U) (q : ℕ → List ℕ) (b : ℕ) : ℕ :=
  ∑ k ∈ Finset.range xioXpollMaxTaskCount, (q k).countP fun t => p.slice t == some b

/-- The references of every slice are those of the queued tasks. -/
def Xio.RefsExact (x : Xio U) : Prop :=
  ∀ b < xioBufCount, ∃ s, x.slices.bufList.read b = some s ∧ s.refs = x.tasks.pins x.queued b

/-- The calls that leave no reference behind.  A request that takes a fd state from
the free list must find no task with a buffer in its queues, which are reset.  In a
wait, the tasks at the heads of the queues of the errored fd states, as many as
there is room for, must have no buffer. -/
def XioCall.KeepsRefs (ndebug : Bool) (x : Xio U) : XioCall U → Prop
  | .recv c => c.Creates ndebug x →
      ∀ k, x.fdStateFor c.fd = some k → ∀ t ∈ x.queued k, x.tasks.slice t = none
  | .wait maxResults events => ∀ es ∈ events,
      ∀ t ∈ drained (waitRoom maxResults) (errored es) x.queued, x.tasks.slice t = none

/-! ### Counting -/

/-- The number of the labels that hold a reference to slice `b`. -/
def TaskLabel.refs (held : Multiset (TaskLabel U)) (b : ℕ) : ℕ :=
  held.countP fun l => l.slice = some b

namespace TaskLabel

variable {b : ℕ}

theorem refs_add (held held' : Multiset (TaskLabel U)) (b : ℕ) :
    refs (held + held') b = refs held b + refs held' b :=
  Multiset.countP_add _ _ _

theorem refs_singleton (l : TaskLabel U) (b : ℕ) :
    refs {l} b = if l.slice = some b then 1 else 0 := by
  rw [refs, ← Multiset.cons_zero, Multiset.countP_cons, Multiset.countP_zero, zero_add]

theorem refs_eq_zero {held : Multiset (TaskLabel U)} (h : ∀ l ∈ held, l.slice = none) :
    refs held b = 0 :=
  Multiset.countP_eq_zero.mpr fun l hl => by
    rw [h l hl]
    exact (Option.some_ne_none b).symm

end TaskLabel

namespace TaskPool

theorem slice_eq (p : TaskPool U) (t : ℕ) : p.slice t = (p.label t).bind TaskLabel.slice := by
  rw [slice, label]
  cases p.taskList.read t <;> rfl

/-- A queue holds the references of its labels. -/
theorem refs_labels (p : TaskPool U) (l : List ℕ) (b : ℕ) :
    TaskLabel.refs (p.labels l) b = l.countP fun t => p.slice t == some b := by
  rw [TaskLabel.refs, labels, Multiset.coe_countP, List.countP_filterMap]
  refine List.countP_congr fun t _ => ?_
  rw [slice_eq]
  cases p.label t with
  | none => simp
  | some l => simp

theorem pins_eq (p : TaskPool U) (q : ℕ → List ℕ) (b : ℕ) :
    p.pins q b
      = TaskLabel.refs (∑ k ∈ Finset.range xioXpollMaxTaskCount, p.labels (q k)) b := by
  have hsum := map_sum (Multiset.countPAddMonoidHom fun l : TaskLabel U => l.slice = some b)
    (fun k => p.labels (q k)) (Finset.range xioXpollMaxTaskCount)
  rw [pins, TaskLabel.refs, ← Multiset.coe_countPAddMonoidHom, hsum]
  exact Finset.sum_congr rfl fun k _ => (p.refs_labels (q k) b).symm

theorem forall_slice_eq_none_iff {p : TaskPool U} {l : List ℕ} :
    (∀ t ∈ l, p.slice t = none) ↔ ∀ a ∈ p.labels l, a.slice = none := by
  constructor
  · intro h a ha
    obtain ⟨t, ht, hlabel⟩ := mem_labels.mp ha
    have hslice := h t ht
    rwa [slice_eq, hlabel] at hslice
  · intro h t ht
    rw [slice_eq]
    cases hlabel : p.label t with
    | none => rfl
    | some a => exact h a (mem_labels.mpr ⟨t, ht, hlabel⟩)

end TaskPool

/-! ### The references of a pool -/

/-- Slice `b` has `refs b` references. -/
structure SlicePool.Counted (p : SlicePool) (refs : ℕ → ℕ) : Prop where
  size_eq : p.bufList.size = xioBufCount
  slice : ∀ b < xioBufCount, ∃ s, p.bufList.read b = some s ∧ s.bid = b ∧ s.refs < 2 ^ 16 ∧
    s.refs = refs b

namespace SlicePool

variable {p p' : SlicePool} {size n b : ℕ} {ndebug : Bool} {refs refs' : ℕ → ℕ}

/-- The loop of `fh_xio_acquire_slice` adds a reference to the slice that it finds. -/
theorem acquireLoop_refs (hacq : acquireLoop p size n = some (some (b, p'))) :
    ∃ s off, p.bufList.read b = some s ∧
      p'.bufList = p.bufList.put b { s with off := off, refs := u16 (s.refs + 1) } := by
  induction n with
  | zero => cases Option.some.inj hacq
  | succ n ih =>
    rw [acquireLoop, Option.bind_eq_bind, Option.bind_eq_some_iff] at hacq
    obtain ⟨idx, -, hacq⟩ := hacq
    obtain ⟨s, hs, hacq⟩ := Option.bind_eq_some_iff.mp hacq
    split at hacq
    · exact ih hacq
    · obtain ⟨p₁, htake, hacq⟩ := Option.bind_eq_some_iff.mp hacq
      obtain ⟨rfl, rfl⟩ := Prod.mk.inj (Option.some.inj (Option.some.inj hacq))
      refine ⟨s, u32 (s.off + size), hs, ?_⟩
      rw [takeSlice, Option.bind_eq_bind, Option.bind_eq_some_iff] at htake
      obtain ⟨bufList, hw, htake⟩ := htake
      obtain ⟨-, rfl⟩ := Block.write_eq_some hw
      split at htake
      · obtain ⟨last, -, htake⟩ := Option.bind_eq_some_iff.mp htake
        obtain ⟨free, -, htake⟩ := Option.bind_eq_some_iff.mp htake
        rw [← Option.some.inj htake]
      · rw [← Option.some.inj htake]

/-- `fh_xio_release_slice` takes a reference away from the slice. -/
theorem fhXioReleaseSlice_refs (hrel : fhXioReleaseSlice ndebug p b = some p') :
    ∃ s off, p.bufList.read b = some s ∧
      p'.bufList
        = p.bufList.put b { s with off := off, refs := u16 (s.refs + (2 ^ 16 - 1)) } := by
  rw [fhXioReleaseSlice, Option.bind_eq_bind, Option.bind_eq_some_iff] at hrel
  obtain ⟨_, -, hrel⟩ := hrel
  obtain ⟨s, hs, hrel⟩ := Option.bind_eq_some_iff.mp hrel
  obtain ⟨_, -, hrel⟩ := Option.bind_eq_some_iff.mp hrel
  dsimp only at hrel
  split at hrel
  · obtain ⟨bufList, hw, hrel⟩ := Option.bind_eq_some_iff.mp hrel
    obtain ⟨-, rfl⟩ := Block.write_eq_some hw
    exact ⟨s, s.off, hs, by rw [← Option.some.inj hrel]⟩
  · obtain ⟨bufList, hw, hrel⟩ := Option.bind_eq_some_iff.mp hrel
    obtain ⟨-, rfl⟩ := Block.write_eq_some hw
    obtain ⟨free, -, hrel⟩ := Option.bind_eq_some_iff.mp hrel
    exact ⟨s, 0, hs, by rw [← Option.some.inj hrel]⟩

namespace Counted

/-- A slice is written whose references are counted. -/
theorem put (h : p.Counted refs) {s s' : XioSlice} (hs : p.bufList.read b = some s)
    (hput : p'.bufList = p.bufList.put b s') (hbid : s'.bid = s.bid)
    (hrefs : s'.refs < 2 ^ 16 ∧ s'.refs = refs' b) (hrest : ∀ b' ≠ b, refs' b' = refs b') :
    p'.Counted refs' where
  size_eq := by rw [hput, Block.size_put, h.size_eq]
  slice b' hb' := by
    rw [hput, Block.read_put _ (Block.lt_of_read hs)]
    obtain ⟨s₀, hs₀, hbid₀, hlt₀, hrefs₀⟩ := h.slice b' hb'
    split
    · rename_i hbb
      obtain rfl := hbb
      obtain rfl : s = s₀ := Option.some.inj (hs.symm.trans hs₀)
      exact ⟨s', rfl, hbid.trans hbid₀, hrefs⟩
    · rename_i hbb
      exact ⟨s₀, hs₀, hbid₀, hlt₀, hrefs₀.trans (hrest b' (Ne.symm hbb)).symm⟩

/-- What a request takes gets a reference, unless the count overflows. -/
theorem takes (h : p.Counted refs) (hlt : ∀ b, refs b + 1 < 2 ^ 16) {c : RecvCall U}
    {slice bid : Option ℕ} (htakes : c.Takes ndebug p slice bid p') :
    bid = slice ∧ (∀ b, slice = some b → b < xioBufCount) ∧
      p'.Counted fun b => refs b + if slice = some b then 1 else 0 := by
  cases htakes with
  | own => exact ⟨rfl, by simp, by simpa using h⟩
  | @slice b s _ hacq hs =>
    rw [fhXioAcquireSlice, Option.bind_eq_bind, Option.bind_eq_some_iff] at hacq
    obtain ⟨_, -, hacq⟩ := hacq
    obtain ⟨s₀, off, hs₀, hput⟩ := acquireLoop_refs hacq
    have hb : b < xioBufCount := h.size_eq ▸ Block.lt_of_read hs₀
    obtain ⟨s₁, hs₁, hbid, -, hrefs⟩ := h.slice b hb
    obtain rfl : s₀ = s₁ := Option.some.inj (hs₀.symm.trans hs₁)
    have hlt := hlt b
    have hs' := Block.read_put_self { s₀ with off := off, refs := u16 (s₀.refs + 1) }
      (Block.lt_of_read hs₀)
    rw [hput, hs', Option.some_inj] at hs
    refine ⟨?_, fun b' hb' => by rwa [← Option.some.inj hb'], h.put hs₀ hput rfl ?_ ?_⟩
    · rw [← hs]
      exact congrArg some hbid
    · show u16 (s₀.refs + 1) < 2 ^ 16 ∧ u16 (s₀.refs + 1) = _
      rw [u16_of_lt (by omega), if_pos rfl]
      omega
    · intro b' hne
      rw [if_neg fun he => hne (Option.some.inj he).symm]
      rfl

/-- What is given back loses a reference. -/
theorem givenBack {slice : Option ℕ}
    (h : p.Counted fun b => refs b + if slice = some b then 1 else 0)
    (hlt : ∀ b, slice = some b → b < xioBufCount) (hgive : p.GivenBack ndebug slice p') :
    p'.Counted refs := by
  cases slice with
  | none =>
    obtain rfl : p' = p := hgive
    simpa using h
  | some b =>
    obtain ⟨s, off, hs, hput⟩ := fhXioReleaseSlice_refs hgive
    obtain ⟨s₀, hs₀, -, hlt₀, hrefs⟩ := h.slice b (hlt b rfl)
    obtain rfl : s = s₀ := Option.some.inj (hs.symm.trans hs₀)
    rw [if_pos rfl] at hrefs
    refine h.put hs hput rfl ?_ fun b' hne => ?_
    · show u16 (s.refs + (2 ^ 16 - 1)) < 2 ^ 16 ∧ u16 (s.refs + (2 ^ 16 - 1)) = refs b
      rw [u16]
      omega
    · rw [if_neg fun he => hne (Option.some.inj he).symm]
      rfl

end Counted

end SlicePool

/-! ### The invariant -/

/-- The queued tasks have the labels `held`, and the references of the slices are
theirs, with those of the labels `lost`, which no queued task has. -/
structure Pins (x : Xio U) (held lost : Multiset (TaskLabel U)) : Prop where
  queued : ∃ ft qin qout, Held x ft qin qout held
  counted : x.slices.Counted (TaskLabel.refs (held + lost))
  slice_lt : ∀ l ∈ held + lost, ∀ b, l.slice = some b → b < xioBufCount

namespace Pins

variable {x x' : Xio U} {held lost : Multiset (TaskLabel U)} {ndebug : Bool}

/-- The references are exact if and only if there are no others. -/
theorem exact_iff (h : Pins x held lost) : x.RefsExact ↔ ∀ l ∈ lost, l.slice = none := by
  obtain ⟨ft, qin, qout, hheld⟩ := h.queued
  have hpins : ∀ b, x.tasks.pins x.queued b = TaskLabel.refs held b := fun b => by
    rw [TaskPool.pins_eq, hheld.sum_queued]
  constructor
  · intro hexact l hl
    cases hb : l.slice with
    | none => rfl
    | some b =>
      have hlt := h.slice_lt l (Multiset.mem_add.mpr (.inr hl)) b hb
      obtain ⟨s, hs, hrefs⟩ := hexact b hlt
      obtain ⟨s', hs', -, -, hrefs'⟩ := h.counted.slice b hlt
      obtain rfl : s = s' := Option.some.inj (hs.symm.trans hs')
      rw [hpins] at hrefs
      rw [TaskLabel.refs_add] at hrefs'
      have hzero : TaskLabel.refs lost b = 0 := by omega
      exact absurd hb (Multiset.countP_eq_zero.mp hzero l hl)
  · intro hnone b hb
    obtain ⟨s, hs, -, -, hrefs⟩ := h.counted.slice b hb
    exact ⟨s, hs, by rw [hrefs, TaskLabel.refs_add, TaskLabel.refs_eq_zero hnone, add_zero, hpins]⟩

/-- Labels without a reference may be forgotten. -/
theorem forget (h : Pins x held lost) (hnone : ∀ l ∈ lost, l.slice = none) :
    Pins x held 0 where
  queued := h.queued
  counted := by
    refine ⟨h.counted.size_eq, fun b hb => ?_⟩
    obtain ⟨s, hs, hbid, hlt, hrefs⟩ := h.counted.slice b hb
    refine ⟨s, hs, hbid, hlt, ?_⟩
    rw [hrefs, TaskLabel.refs_add, TaskLabel.refs_eq_zero hnone, add_zero, add_zero]
  slice_lt l hl := by
    rw [add_zero] at hl
    exact h.slice_lt l (Multiset.mem_add.mpr (.inl hl))

/-- What a request leaves behind: the references of the labels that it drops. -/
theorem recv (h : Pins x held 0) {c : RecvCall U} {ret : ℤ}
    (hrun : c.runWith ndebug x = some (ret, x')) :
    ∃ held', Pins x' held' (c.dropsLabels ndebug x) := by
  obtain ⟨ft, qin, qout, hheld⟩ := h.queued
  obtain ⟨ft', qin', qout', held', slice, bid, p, label, hheld', hlabel, htakes, hcase⟩ :=
    hheld.recv hrun
  have hcounted := h.counted
  have hlt := h.slice_lt
  rw [add_zero] at hcounted hlt
  -- There are too few tasks for a count to overflow.
  have hfew : ∀ b, TaskLabel.refs held b + 1 < 2 ^ 16 := fun b => by
    have hle : TaskLabel.refs held b ≤ xioXpollMaxTaskCount :=
      (Multiset.countP_le_card _ _).trans hheld.card_le
    rw [xioXpollMaxTaskCount] at hle
    omega
  obtain ⟨rfl, hslice, hp⟩ := hcounted.takes hfew htakes
  refine ⟨held', ⟨_, _, _, hheld'⟩, ?_, ?_⟩
  · rcases hcase with ⟨-, hsame, hbal⟩ | ⟨-, hgive, hbal⟩
    · have hrefs : TaskLabel.refs (held' + c.dropsLabels ndebug x)
          = fun b => TaskLabel.refs held b + if bid = some b then 1 else 0 := by
        funext b
        rw [hbal, TaskLabel.refs_add, TaskLabel.refs_singleton, hlabel.slice_eq]
      rw [hrefs, hsame]
      exact hp
    · rw [hbal]
      exact hp.givenBack hslice hgive
  · intro l hl b hb
    rcases hcase with ⟨-, -, hbal⟩ | ⟨-, -, hbal⟩
    · rw [hbal, Multiset.mem_add, Multiset.mem_singleton] at hl
      rcases hl with hl | rfl
      · exact hlt l hl b hb
      · exact hslice b (hlabel.slice_eq.symm.trans hb)
    · rw [hbal] at hl
      exact hlt l hl b hb

/-- A wait leaves the references of the tasks behind that it frees. -/
theorem wait (h : Pins x held 0) {maxResults : ℕ} {events : List (BitVec 32 × ℕ)}
    (hev : ∀ e ∈ events, e.2 < xioXpollMaxTaskCount) {ret : ℤ} {results : List (XioResult U)}
    (hrun : fhXioWait ndebug x maxResults (some events) = some (ret, results, x')) :
    ∃ held', Pins x' held'
      (x.tasks.labels (drained (waitRoom maxResults) (errored events) x.queued)) := by
  obtain ⟨ft, qin, qout, hheld⟩ := h.queued
  obtain ⟨ft', qin', qout', held', hheld', hslices, hbal, -⟩ := hheld.wait hev hrun
  have hcounted := h.counted
  have hlt := h.slice_lt
  rw [add_zero, ← hbal] at hcounted hlt
  exact ⟨held', ⟨_, _, _, hheld'⟩, hslices ▸ hcounted, hlt⟩

/-! ### Runs -/

/-- What is left behind is nothing, or a reference. -/
theorem keeps_or_not (h : Pins x' held lost) :
    ((∀ l ∈ lost, l.slice = none) ∧ Pins x' held 0) ∨
      (¬ (∀ l ∈ lost, l.slice = none) ∧ ¬ x'.RefsExact) := by
  by_cases hall : ∀ l ∈ lost, l.slice = none
  · exact .inl ⟨hall, h.forget hall⟩
  · exact .inr ⟨hall, fun hexact => hall (h.exact_iff.mp hexact)⟩

/-- A call keeps the references exact, or loses one, by whether it is one of
`XioCall.KeepsRefs`. -/
theorem step (h : Pins x held 0) {call : XioCall U} (hev : call.EventsKnown)
    {o : ℤ × List (XioResult U)} (hstep : xioStepWith ndebug x call = some (o, x')) :
    (call.KeepsRefs ndebug x ∧ ∃ held', Pins x' held' 0) ∨
      (¬ call.KeepsRefs ndebug x ∧ ¬ x'.RefsExact) := by
  cases call with
  | recv c =>
    obtain ⟨ret, hrun⟩ := runWith_of_step hstep
    obtain ⟨held', hpins⟩ := h.recv hrun
    have hkeeps : (XioCall.recv c).KeepsRefs ndebug x
        ↔ ∀ l ∈ c.dropsLabels ndebug x, l.slice = none := by
      rw [XioCall.KeepsRefs, RecvCall.dropsLabels]
      split
      · rename_i hc
        cases hfor : x.fdStateFor c.fd with
        | none => simp
        | some k =>
          rw [Option.map_some, Option.getD_some, ← TaskPool.forall_slice_eq_none_iff]
          exact ⟨fun hkeep => hkeep hc k rfl, fun hall _ k' hk' => Option.some.inj hk' ▸ hall⟩
      · rename_i hc
        exact iff_of_true (fun hc' => absurd hc' hc) fun l hl => absurd hl (Multiset.notMem_zero l)
    rw [hkeeps]
    exact hpins.keeps_or_not.imp_left fun hk => ⟨hk.1, _, hk.2⟩
  | wait maxResults events =>
    cases events with
    | none =>
      obtain ⟨-, rfl⟩ := Prod.mk.inj (Option.some.inj hstep)
      exact .inl ⟨by simp [XioCall.KeepsRefs], held, h⟩
    | some events =>
      obtain ⟨ret, results, hrun⟩ := wait_of_step hstep
      obtain ⟨held', hpins⟩ := h.wait (hev events rfl) hrun
      have hkeeps : (XioCall.wait (U := U) maxResults (some events)).KeepsRefs ndebug x
          ↔ ∀ l ∈ x.tasks.labels (drained (waitRoom maxResults) (errored events) x.queued),
            l.slice = none := by
        rw [← TaskPool.forall_slice_eq_none_iff]
        refine ⟨fun hkeep => hkeep events rfl, fun hall es hes => ?_⟩
        rwa [← Option.some.inj hes]
      rw [hkeeps]
      exact hpins.keeps_or_not.imp_left fun hk => ⟨hk.1, _, hk.2⟩

/-- Nothing is referenced in a fresh backend. -/
theorem create {calloc xpoll : Bool} {table : CreateAlloc} {mmap : Option ℕ}
    (h : fhXioCreate calloc xpoll table mmap = some (some x)) : Pins x 0 0 := by
  refine ⟨Held.create h, ?_, fun l hl => absurd hl (Multiset.notMem_zero l)⟩
  obtain ⟨t, mem, ht, rfl⟩ := fhXioCreate_eq_some h
  exact ⟨Block.size_tabulate _ _, fun b hb =>
    ⟨_, Block.read_tabulate _ hb, rfl, Nat.two_pow_pos 16, rfl⟩⟩

/-- In a run the references stay exact if and only if each call keeps them so. -/
theorem always_iff (h : Pins x held 0) {calls : List (XioCall U)}
    {outs : List (ℤ × List (XioResult U))} (hev : ∀ call ∈ calls, call.EventsKnown)
    (hruns : runs (xioStepWith ndebug) x calls = some (outs, x')) :
    Always (xioStepWith ndebug) Xio.RefsExact x calls ↔
      EachStep (xioStepWith ndebug) (XioCall.KeepsRefs ndebug) x calls := by
  refine always_iff_of_runs (I := fun x => ∃ held, Pins x held 0)
    (fun x hx => ?_) (fun x call o x' hx hq hk hstep => ?_)
    (fun x call o x' hx hq hk hstep => ?_) ⟨held, h⟩ hev hruns
  · obtain ⟨held, h⟩ := hx
    exact h.exact_iff.mpr fun l hl => absurd hl (Multiset.notMem_zero l)
  · obtain ⟨held, h⟩ := hx
    rcases h.step hq hstep with ⟨-, hx'⟩ | ⟨hno, -⟩
    · exact hx'
    · exact absurd hk hno
  · obtain ⟨held, h⟩ := hx
    rcases h.step hq hstep with ⟨hok, -⟩ | ⟨-, hx'⟩
    · exact absurd hok hk
    · exact hx'

end Pins

/-- A run of requests and waits from `fh_xio_create` that does not abort, whatever the
allocations and `xpoll` answer and whether or not the asserts are compiled in, has
the references of every slice exact in every state if and only if each of its calls
is one of `XioCall.KeepsRefs`. -/
theorem buffers_exact_iff {calloc xpoll : Bool} {table : CreateAlloc} {mmap : Option ℕ}
    {x₀ x : Xio U} {calls : List (XioCall U)} {outs : List (ℤ × List (XioResult U))}
    (hcreate : fhXioCreate calloc xpoll table mmap = some (some x₀)) (ndebug : Bool)
    (hev : ∀ call ∈ calls, call.EventsKnown)
    (hruns : runs (xioStepWith ndebug) x₀ calls = some (outs, x)) :
    Always (xioStepWith ndebug) Xio.RefsExact x₀ calls ↔
      EachStep (xioStepWith ndebug) (XioCall.KeepsRefs ndebug) x₀ calls := by
  exact (Pins.create hcreate).always_iff hev hruns

/-- The request for descriptor 5 without a buffer, with a call to `xpoll` that fails. -/
def recvFd5Slice : RecvCall ℕ := { recvFd5Queued with buf := none }

/-- The first request registers the descriptor and fails; the second is queued, with a
reference to a slice.  Both take fd state 2047, whose queues are empty. -/
theorem recvFd5Slice_run :
    freshXio.any (fun o => o.any fun x₀ => (xioStepWith false x₀ (.recv recvFd5)).any fun r₁ =>
      (xioStepWith false r₁.2 (.recv recvFd5Slice)).any fun r₂ => decide
        (x₀.fdStateFor 5 = some 2047 ∧ x₀.queued 2047 = [] ∧ r₁.2.fdStateFor 5 = some 2047 ∧
          r₁.2.queued 2047 = []) &&
        (r₂.2.slices.bufList.read (xioBufCount - 1)).any fun s => s.refs == 1) = true := by
  decide +kernel

/-- Two requests for descriptor 5, the second of which holds a reference. -/
theorem buffers_exact_once :
    ∃ x₀ x : Xio ℕ, ∃ outs s, fhXioCreate true true ⟨true, true, true⟩ (some 0) = some (some x₀) ∧
      runs (xioStepWith false) x₀ [.recv recvFd5, .recv recvFd5Slice] = some (outs, x) ∧
      x.slices.bufList.read (xioBufCount - 1) = some s ∧ s.refs = 1 ∧
      Always (xioStepWith false) Xio.RefsExact x₀ [.recv recvFd5, .recv recvFd5Slice] := by
  obtain ⟨o, hcreate, ho⟩ := (Option.any_eq_true _ _).mp recvFd5Slice_run
  obtain ⟨x₀, rfl, hx⟩ := (Option.any_eq_true _ _).mp ho
  obtain ⟨⟨o₁, x₁⟩, h₁, hx₁⟩ := (Option.any_eq_true _ _).mp hx
  obtain ⟨⟨o₂, x₂⟩, h₂, hx₂⟩ := (Option.any_eq_true _ _).mp hx₁
  rw [Bool.and_eq_true, decide_eq_true_eq] at hx₂
  obtain ⟨⟨hfor₀, hq₀, hfor₁, hq₁⟩, hs⟩ := hx₂
  obtain ⟨s, hs, hrefs⟩ := (Option.any_eq_true _ _).mp hs
  have hruns : runs (xioStepWith false) x₀ [.recv recvFd5, .recv recvFd5Slice]
      = some ([o₁, o₂], x₂) := by
    rw [runs_cons_of_step h₁, runs_cons_of_step h₂]
    rfl
  have hev : ∀ call ∈ [XioCall.recv recvFd5, .recv recvFd5Slice], call.EventsKnown := by
    intro call hcall
    rw [List.mem_cons, List.mem_singleton] at hcall
    rcases hcall with rfl | rfl <;> trivial
  refine ⟨x₀, x₂, _, s, hcreate, hruns, hs, beq_iff_eq.mp hrefs,
    (buffers_exact_iff hcreate false hev hruns).mpr ?_⟩
  rw [eachStep_cons_of_step h₁, eachStep_singleton]
  refine ⟨fun _ k hk t ht => ?_, fun _ k hk t ht => ?_⟩
  · rw [← Option.some.inj (hfor₀.symm.trans hk), hq₀] at ht
    cases ht
  · rw [← Option.some.inj (hfor₁.symm.trans hk), hq₁] at ht
    cases ht

/-- An error event finds the second request. -/
def bufferLeaked : List (XioCall ℕ) :=
  [.recv recvFd5, .recv recvFd5Slice, .wait 1 (some errorEvent)]

theorem bufferLeaked_run :
    freshXio.any (fun o => o.any fun x₀ => (xioStepWith false x₀ (.recv recvFd5)).any fun r₁ =>
      (xioStepWith false r₁.2 (.recv recvFd5Slice)).any fun r₂ =>
        (xioStepWith false r₂.2 (.wait 1 (some errorEvent))).isSome &&
          (drained (waitRoom 1) (errored errorEvent) r₂.2.queued).any fun t =>
            (r₂.2.tasks.slice t).isSome) = true := by decide +kernel

/-- The reference outlives its task. -/
theorem buffers_leaked :
    ∃ x₀ x : Xio ℕ, ∃ outs, fhXioCreate true true ⟨true, true, true⟩ (some 0) = some (some x₀) ∧
      runs (xioStepWith false) x₀ bufferLeaked = some (outs, x) ∧
      ¬ Always (xioStepWith false) Xio.RefsExact x₀ bufferLeaked := by
  obtain ⟨o, hcreate, ho⟩ := (Option.any_eq_true _ _).mp bufferLeaked_run
  obtain ⟨x₀, rfl, hx⟩ := (Option.any_eq_true _ _).mp ho
  obtain ⟨⟨o₁, x₁⟩, h₁, hx₁⟩ := (Option.any_eq_true _ _).mp hx
  obtain ⟨⟨o₂, x₂⟩, h₂, hx₂⟩ := (Option.any_eq_true _ _).mp hx₁
  rw [Bool.and_eq_true] at hx₂
  obtain ⟨⟨o₃, x⟩, h₃⟩ := Option.isSome_iff_exists.mp hx₂.1
  obtain ⟨t, ht, hslice⟩ := List.any_eq_true.mp hx₂.2
  have hruns : runs (xioStepWith false) x₀ bufferLeaked = some ([o₁, o₂, o₃], x) := by
    rw [bufferLeaked, runs_cons_of_step h₁, runs_cons_of_step h₂, runs_cons_of_step h₃]
    rfl
  have hev : ∀ call ∈ bufferLeaked, call.EventsKnown := fun call hcall => by
    rw [bufferLeaked, List.mem_cons, List.mem_cons, List.mem_singleton] at hcall
    rcases hcall with rfl | rfl | rfl
    · trivial
    · trivial
    · intro es hes
      rw [← Option.some.inj hes]
      exact errorEvent_lt
  refine ⟨x₀, x, _, hcreate, hruns, fun halways => ?_⟩
  have hsteps := ((Pins.create hcreate).always_iff hev hruns).mp halways
  rw [bufferLeaked, eachStep_cons_of_step h₁, eachStep_cons_of_step h₂,
    eachStep_singleton] at hsteps
  rw [hsteps.2.2 errorEvent rfl t ht] at hslice
  cases hslice

end Freehttpd
