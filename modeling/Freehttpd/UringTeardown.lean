/-
Where the request records of the io_uring backend are, and how they end.

* `uring_records` — in every state reached from `fh_xio_create` each allocated record
  is on the free list, once, or in flight; the list is the same forward and backward
  and has the length `data_count` says; no request gets a record that another one
  holds; and a `fh_xio_free` whose drain succeeds frees every record, each once.
-/
import Freehttpd.Chains
import Freehttpd.UringRuns

namespace Freehttpd.Uring

open Runs

variable {U : Type}

/-! ### The drain -/

/-- What the kernel posts during the drain: completions of open requests, and that of
the drain's own entry, which comes when all requests are completed. -/
def Posts (requests : ℕ → Option (XioRequest U)) :
    List IoUringCqe → List IoUringCqe → Prop
  | _, [] => True
  | cq, c :: cqes => PostOk requests cq c ∧
      (c.userData = .xio → ∀ a r, requests a = some r →
        ∃ c' ∈ cq, c'.userData = .data a ∧ hasFlag c'.flags ioringCqeFMore = false) ∧
      Posts requests (cq ++ [c]) cqes

/-- The same over the rounds of the drain. -/
def DrainPosts (requests : ℕ → Option (XioRequest U)) (cq : List IoUringCqe) :
    List (ℤ × List IoUringCqe) → Prop
  | [] => True
  | (rc, cqes) :: rounds => Posts requests cq cqes ∧
      if rc < 0 then DrainPosts requests (cq ++ cqes) rounds
      else DrainPosts ((cq ++ cqes).foldl finish requests) [] rounds

/-- The kernel completes the entry of the drain last, and no other entry has its
`user_data`. -/
def DrainEnv.Admissible (env : DrainEnv) (s : Machine U) : Prop :=
  (∀ c ∈ s.xio.cq, c.userData ≠ .xio) ∧ DrainPosts s.requests s.xio.cq env.rounds

/-- The drain's own completion is there only if every open request has its last one. -/
def Synced (cq : List IoUringCqe) (requests : ℕ → Option (XioRequest U)) : Prop :=
  ∀ c ∈ cq, c.userData = .xio → ∀ a r, requests a = some r →
    ∃ c' ∈ cq, c'.userData = .data a ∧ hasFlag c'.flags ioringCqeFMore = false

theorem Posts.pending {requests : ℕ → Option (XioRequest U)} {cq cqes : List IoUringCqe}
    (h : Posts requests cq cqes) (hp : Pending cq requests) (hs : Synced cq requests) :
    Pending (cq ++ cqes) requests ∧ Synced (cq ++ cqes) requests := by
  induction cqes generalizing cq with
  | nil =>
    rw [List.append_nil]
    exact ⟨hp, hs⟩
  | cons c cqes ih =>
    obtain ⟨hc, hxio, hrest⟩ := h
    have hs' : Synced (cq ++ [c]) requests := by
      intro d hd hdx a r hr
      have hlast : ∃ c' ∈ cq, c'.userData = .data a ∧ hasFlag c'.flags ioringCqeFMore = false := by
        rcases List.mem_append.mp hd with hd | hd
        · exact hs d hd hdx a r hr
        · rw [List.mem_singleton.mp hd] at hdx
          exact hxio hdx a r hr
      obtain ⟨c', hc', hlast⟩ := hlast
      exact ⟨c', List.mem_append_left _ hc', hlast⟩
    have hih := ih hrest (hp.post hc) hs'
    rwa [List.append_assoc, List.singleton_append] at hih

/-- A round of the drain frees the records of the requests that are over. -/
theorem drainEntries_eq {cq : List IoUringCqe} {requests : ℕ → Option (XioRequest U)}
    {p : DataPool U} {free : List ℕ} (h : p.Wf free requests none) (hp : Pending cq requests)
    (done : Bool) :
    ∃ done' p', drainEntries cq done p = some (done', p') ∧
      (done' = true → done = true ∨ ∃ c ∈ cq, c.userData = .xio) ∧
      ∃ free', p'.Wf free' (cq.foldl finish requests) none := by
  induction cq generalizing requests p free done with
  | nil => exact ⟨done, p, rfl, .inl, free, h⟩
  | cons c cq ih =>
    rw [drainEntries, List.foldl_cons]
    have hp' := hp.tail
    cases hc : c.userData with
    | null =>
      have hfin : finish requests c = requests := by rw [finish, hc]
      rw [hfin] at hp' ⊢
      obtain ⟨done', p', heq, hdone, hwf⟩ := ih h hp' done
      refine ⟨done', p', heq, fun hd => ?_, hwf⟩
      rcases hdone hd with hd | ⟨c', hc', hx⟩
      · exact .inl hd
      · exact .inr ⟨c', List.mem_cons_of_mem c hc', hx⟩
    | xio =>
      have hfin : finish requests c = requests := by rw [finish, hc]
      rw [hfin] at hp' ⊢
      obtain ⟨done', p', heq, -, hwf⟩ := ih h hp' true
      exact ⟨done', p', heq, fun _ => .inr ⟨c, List.mem_cons_self, hc⟩, hwf⟩
    | data a =>
      -- What becomes of the record, and the rest of the round.
      have hstep : ∃ p₁ free₁, (if hasFlag c.flags ioringCqeFMore = true then some p else p.free a)
          = some p₁ ∧ p₁.Wf free₁ (finish requests c) none := by
        rw [finish, hc]
        dsimp only
        by_cases hm : hasFlag c.flags ioringCqeFMore = true
        · rw [if_pos hm, if_pos hm]
          exact ⟨p, free, rfl, h⟩
        · rw [if_neg hm, if_neg hm]
          obtain ⟨r, hr⟩ := hp.request c List.mem_cons_self a hc
          obtain ⟨p₁, hfree, hwf⟩ := (h.retire hr).release
          exact ⟨p₁, free, hfree, hwf⟩
      obtain ⟨p₁, free₁, hp₁, h₁⟩ := hstep
      obtain ⟨done', p', heq, hdone, hwf⟩ := ih h₁ hp' done
      refine ⟨done', p', ?_, fun hd => ?_, hwf⟩
      · dsimp only
        split at hp₁
        · rw [if_pos ‹_›, Option.some.inj hp₁]
          exact heq
        · rw [if_neg ‹_›, hp₁]
          exact heq
      · rcases hdone hd with hd | ⟨c', hc', hx⟩
        · exact .inl hd
        · exact .inr ⟨c', List.mem_cons_of_mem c hc', hx⟩

/-- A drain that succeeds leaves no request open. -/
theorem drainRounds_eq {rounds : List (ℤ × List IoUringCqe)} {x : Xio U}
    {requests : ℕ → Option (XioRequest U)} {free : List ℕ} (h : x.records.Wf free requests none)
    (hp : Pending x.cq requests) (hs : Synced x.cq requests)
    (hposts : DrainPosts requests x.cq rounds) :
    ∃ o x', drainRounds rounds x = some (o, x') ∧
      (o = some true → ∃ free', x'.records.Wf free' (fun _ => none) none) := by
  induction rounds generalizing x requests free with
  | nil => exact ⟨none, x, rfl, fun ho => (by cases ho)⟩
  | cons round rounds ih =>
    obtain ⟨rc, cqes⟩ := round
    obtain ⟨hround, hrest⟩ := hposts
    obtain ⟨hp', hs'⟩ := hround.pending hp hs
    rw [drainRounds]
    by_cases hrc : rc < 0
    · rw [if_pos hrc] at hrest
      dsimp only
      rw [if_pos hrc]
      by_cases hintr : rc = -eIntr
      · rw [if_pos hintr]
        exact ih (x := { x with cq := x.cq ++ cqes }) h hp' hs' hrest
      · rw [if_neg hintr]
        exact ⟨some false, _, rfl, fun ho => (by cases ho)⟩
    · rw [if_neg hrc] at hrest
      dsimp only
      rw [if_neg hrc]
      obtain ⟨done, p, hentries, hdone, free', hwf⟩ := drainEntries_eq h hp' false
      rw [hentries]
      simp only [Option.bind_eq_bind, Option.bind_some]
      cases done with
      | true =>
        -- With the completion of the cancellation come the last ones of all requests.
        obtain ⟨c, hc, hx⟩ := (hdone rfl).resolve_left (by simp)
        have hnone : (x.cq ++ cqes).foldl finish requests = fun _ => none := by
          funext a
          by_contra hne
          obtain ⟨r, hr⟩ := Option.ne_none_iff_exists'.mp hne
          obtain ⟨hr', hmore⟩ := foldl_finish_eq_some hr
          obtain ⟨c', hc', hd, hlast⟩ := hs' c hc hx a r hr'
          rw [hmore c' hc' hd] at hlast
          cases hlast
        exact ⟨some true, _, rfl, fun _ => ⟨free', hnone ▸ hwf⟩⟩
      | false =>
        exact ih (x := { x with cq := [], records := p }) hwf (Pending.nil _)
          (fun c hc => absurd hc List.not_mem_nil) hrest

/-! ### The free list -/

/-- The free list, as the loop of `fh_xio_free` follows it. -/
theorem chained_of_linked {p : DataPool U} {l : List ℕ} {q : Option ℕ}
    (h : Linked (dataNext p) (dataPrev p) q (l.map some) none) :
    Chained (fun a => (p.heap a).map XioData.next) ((l.map some).headD none) l := by
  induction l generalizing q with
  | nil => rfl
  | cons a l ih =>
    obtain ⟨-, hn, hl⟩ := h
    exact ⟨rfl, _, hn, ih hl⟩

/-- The loop of `fh_xio_free` frees the records of the list. -/
theorem freeLoop_eq {p : DataPool U} {l : List ℕ}
    (h : Chained (fun a => (p.heap a).map XioData.next) p.dataHead l) (hnd : l.Nodup) {fuel : ℕ}
    (hf : l.length < fuel) :
    ∃ p', freeLoop fuel p = some p' ∧ ∀ a, p'.heap a = if a ∈ l then none else p.heap a := by
  induction l generalizing p fuel with
  | nil =>
    have hhead : p.dataHead = none := h
    refine ⟨p, ?_, fun a => by rw [if_neg List.not_mem_nil]⟩
    cases fuel with
    | zero => rw [freeLoop, if_pos hhead]
    | succ k => rw [freeLoop, hhead]
  | cons a l ih =>
    obtain ⟨hhead, n, hn, hl⟩ := h
    obtain ⟨d, hd, rfl⟩ := Option.map_eq_some_iff.mp hn
    obtain ⟨hal, hnd⟩ := List.nodup_cons.mp hnd
    -- The loop runs once for each record, and once more to see the end.
    obtain ⟨k, rfl⟩ : ∃ k, fuel = k + 1 := ⟨fuel - 1, by omega⟩
    have hother : ∀ b ∈ l, Function.update p.heap a none b = p.heap b := fun b hb =>
      Function.update_of_ne (fun he : b = a => hal (he ▸ hb)) _ _
    have hf' : l.length < k := by
      rw [List.length_cons] at hf
      omega
    obtain ⟨p', hloop, hheap⟩ := ih (p := { p with
        dataHead := d.next
        heap := Function.update p.heap a none })
      (hl.congr fun b hb => by dsimp only; rw [hother b hb]) hnd hf'
    refine ⟨p', ?_, fun b => ?_⟩
    · rw [freeLoop, hhead]
      simp only [Option.bind_eq_bind, hd, Option.bind_some]
      rw [DataPool.free_eq (p := { p with dataHead := d.next }) hd, Option.bind_some]
      exact hloop
    · rw [hheap]
      dsimp only
      rcases eq_or_ne b a with rfl | hne
      · rw [Function.update_self, if_pos List.mem_cons_self, ite_self]
      · rw [Function.update_of_ne hne]
        simp [hne]

/-- `fh_xio_free`, when its drain succeeds: no record is left. -/
theorem Machine.Inv.teardown {s : Machine U}
    {consumed : List (IoUringCqe × Option (XioRequest U))} (h : s.Inv consumed) {env : DrainEnv}
    (henv : env.Admissible s) :
    ∃ o x, fhXioDrain env s.xio = some (o, x) ∧
      (o = some true → ∃ p, fhXioFree env s.xio = some (some (true, p)) ∧ ∀ a, p.heap a = none) := by
  obtain ⟨free, hrec⟩ := h.records
  have hdrain : ∃ o x, fhXioDrain env s.xio = some (o, x) ∧
      (o = some true → ∃ free', x.records.Wf free' (fun _ => none) none) := by
    rw [fhXioDrain]
    split
    · exact ⟨some false, _, rfl, fun ho => (by cases ho)⟩
    · split
      · exact ⟨some false, _, rfl, fun ho => (by cases ho)⟩
      · exact drainRounds_eq hrec h.pending (fun c hc hx => absurd hx (henv.1 c hc)) henv.2
  obtain ⟨o, x, hdrain, hdone⟩ := hdrain
  refine ⟨o, x, hdrain, fun ho => ?_⟩
  obtain ⟨free', hwf⟩ := hdone ho
  obtain rfl := ho
  have hfuel : free'.length < x.records.dataCount + 1 := by rw [hwf.count_eq]; omega
  obtain ⟨p, hloop, hheap⟩ :=
    freeLoop_eq (hwf.list.head_eq ▸ chained_of_linked hwf.list.linked) hwf.nodup hfuel
  refine ⟨p, by rw [fhXioFree, hdrain]; simp only [Option.bind_eq_bind, Option.bind_some, hloop],
    fun a => ?_⟩
  rw [hheap]
  by_cases ha : a ∈ free'
  · rw [if_pos ha]
  · -- With no request open, a record that is not listed is not allocated.
    rw [if_neg ha]
    by_contra hne
    obtain ⟨d, hd⟩ := Option.ne_none_iff_exists'.mp hne
    rcases hwf.live a d hd with hmem | ⟨r, hr⟩ | htaken
    · exact ha hmem
    · cases hr
    · cases htaken

/-! ### Runs -/

variable [DecidableEq U]

/-- In every state of a run from `fh_xio_create`, whatever is given back: the list read
from `data_head` and backward from `data_tail` is the same list, without repetitions,
of the length `data_count` says; the allocated records are those of the list and those
of the requests in flight, and no record is both; a new request gets a record that no
request holds; and `fh_xio_free`, when its drain succeeds, frees every record that is
allocated, freeing none twice. -/
theorem uring_records {calloc queueInit setupBufRing : Bool} {memalign : Option ℕ}
    {x₀ : Xio U} {ops : List (UringOp U)} {outs : List (UringRet U)} {s : Machine U}
    (hcreate : fhXioCreate calloc queueInit setupBufRing memalign = some (some x₀))
    (hadm : EachStep uringStep Admissible (Machine.start x₀) ops)
    (hruns : runs uringStep (Machine.start x₀) ops = some (outs, s)) :
    (∃ free : List ℕ,
      walk (dataNext s.xio.records) none (free.length + 1) s.xio.records.dataHead
        = some (free.map some) ∧
      walk (dataPrev s.xio.records) none (free.length + 1) s.xio.records.dataTail
        = some (free.map some).reverse ∧
      free.Nodup ∧ s.xio.records.dataCount = free.length ∧
      free.length ≤ xioMaxDataFreelistCount ∧
      (∀ a, (∃ d, s.xio.records.heap a = some d) ↔ a ∈ free ∨ ∃ r, s.requests a = some r) ∧
      ∀ a ∈ free, s.requests a = none) ∧
    (∀ env udata opdata offset, (∀ a, env.malloc = some a → s.xio.records.heap a = none) →
      ∃ rc sqe x, fhXioRequest env s.xio udata opdata offset = some ((rc, sqe), x) ∧
        ∀ e, sqe = some e → ∃ a, e.userData = .data a ∧ s.requests a = none) ∧
    ∀ env : DrainEnv, env.Admissible s → ∃ o x, fhXioDrain env s.xio = some (o, x) ∧
      (o = some true → ∃ p, fhXioFree env s.xio = some (some (true, p)) ∧ ∀ a, p.heap a = none) := by
  obtain ⟨consumed, hinv, -⟩ := (Machine.inv_start hcreate).run hadm hruns
  obtain ⟨free, hrec⟩ := hinv.records
  have hlen : (free.map some).length < free.length + 1 := by rw [List.length_map]; omega
  refine ⟨⟨free, hrec.list.walk_eq hlen, hrec.list.reverse.walk_eq (by
      rw [List.length_reverse]; exact hlen), hrec.nodup, hrec.count_eq, hrec.count_le,
    fun a => ⟨fun ⟨d, hd⟩ => ?_, fun ha => ?_⟩, fun a ha => ?_⟩,
    fun env udata opdata offset hmalloc => ?_,
    fun env henv => hinv.teardown henv⟩
  · -- Outside `fh_xio_request` no record is in hand.
    rcases hrec.live a d hd with hmem | hreq | htaken
    · exact .inl hmem
    · exact .inr hreq
    · cases htaken
  · rcases ha with hmem | ⟨r, hr⟩
    · exact hrec.exists_of_mem hmem
    · obtain ⟨-, d, hd, -⟩ := hrec.request a r hr
      exact ⟨d, hd⟩
  · by_contra hne
    obtain ⟨r, hr⟩ := Option.ne_none_iff_exists'.mp hne
    exact (hrec.request a r hr).1 ha
  · obtain ⟨rc, sqe, x, hreq, -, -, -, hcase⟩ := hinv.request hmalloc udata opdata offset
    refine ⟨rc, sqe, x, hreq, fun e he => ?_⟩
    rcases hcase with ⟨hnone, -⟩ | ⟨e', a, hsome, -, hud, -, hfresh, -⟩
    · rw [hnone] at he
      cases he
    · obtain rfl := Option.some.inj (hsome.symm.trans he)
      exact ⟨a, hud, hfresh⟩

/-- A drain in which the kernel completes the drain's entry at once. -/
def promptDrain : DrainEnv := ⟨(true, false), (true, false), [(1, [⟨.xio, 0, 0⟩])]⟩

theorem uring_records_recv : ∃ x₀ : Xio ℕ, ∃ outs s,
    fhXioCreate true true true (some 0) = some (some x₀) ∧
    runs uringStep (Machine.start x₀) recvOps = some (outs, s) ∧
    ∃ p, fhXioFree promptDrain s.xio = some (some (true, p)) ∧ ∀ a, p.heap a = none := by
  obtain ⟨r, hcreate⟩ := fhXioCreate_succeeds (U := ℕ) 0
  obtain ⟨outs, s, hruns, hadm, -, hcq, hnone⟩ := recvOps_runs r
  have henv : promptDrain.Admissible s := by
    refine ⟨by simp [hcq], ⟨?_, ?_, trivial⟩, trivial⟩
    · intro a ha
      cases ha
    · intro _ a r hr
      rw [hnone] at hr
      cases hr
  have hdrained : fhXioDrain promptDrain s.xio = some (some true, { s.xio with cq := [] }) := by
    show drainRounds [(1, [⟨.xio, 0, 0⟩])] s.xio = _
    rw [drainRounds, hcq]
    rfl
  obtain ⟨o, x, hdrain, hdone⟩ := (uring_records hcreate hadm hruns).2.2 promptDrain henv
  obtain ⟨rfl, -⟩ := Prod.mk.inj (Option.some.inj (hdrained.symm.trans hdrain))
  exact ⟨_, outs, s, hcreate, hruns, hdone rfl⟩

end Freehttpd.Uring
