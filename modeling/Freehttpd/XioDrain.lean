/-
Completion on the xpoll backend: what `fh_xio_wait` does to the queues.

`Queues tasks states ft qin qout` relates the pools to ghosts, the free tasks and
the two queues of every fd state.  Over the ghosts the loops of `fh_xio_wait` are
a bounded drain of the queues of the errored fd states, the input queue of each
in front of its output queue:

* `drainQueue_eq` — one queue;
* `Queues.waitEventBody_eq` — one event;
* `Queues.fhXioWaitLoop_eq` — all events: the tasks taken become the results and
  the end of the free list.
-/
import Freehttpd.BoundedDrain
import Freehttpd.XioInv

namespace Freehttpd

variable {U : Type}

/-! ### Ghosts -/

/-- The result of a task that `fh_xio_wait` takes from a queue. -/
def TaskPool.errorResult (p : TaskPool U) (task : ℕ) : Option (XioResult U) :=
  (p.taskList.read task).map fun t =>
    { op := t.op, flags := xioTaskFInternalError, res := -1, buf := none, udata := t.udata }

/-- The fd states of the events of a batch that have `XPOLL_ERROR`. -/
def errored (events : List (BitVec 32 × ℕ)) : List ℕ :=
  (events.filter fun e => e.1 &&& Epoll.xpollError ≠ 0).map Prod.snd

/-- A fd state without its queues. -/
def XioFdState.unqueued (s : XioFdState) : XioFdState :=
  { s with taskInHead := none, taskOutHead := none }

/-- The fd states are the same but for their queues. -/
def SameFdStates (states states' : Block XioFdState) : Prop :=
  states'.size = states.size ∧
    ∀ k, (states'.read k).map XioFdState.unqueued = (states.read k).map XioFdState.unqueued

/-- The pools hold the free tasks `ft` and the queues `qin k` and `qout k`. -/
structure Queues (tasks : TaskPool U) (states : Block XioFdState) (ft : List ℕ)
    (qin qout : ℕ → List ℕ) : Prop where
  pool : tasks.Wf ft
  apart : TasksApart ft fun k => qin k ++ qout k
  state : ∀ k < xioXpollMaxTaskCount, ∃ s, states.read k = some s ∧
    Chained (taskNext tasks) s.taskInHead (qin k) ∧
    Chained (taskNext tasks) s.taskOutHead (qout k)

theorem SameFdStates.refl (states : Block XioFdState) : SameFdStates states states :=
  ⟨rfl, fun _ => rfl⟩

theorem SameFdStates.trans {s₁ s₂ s₃ : Block XioFdState} (h : SameFdStates s₁ s₂)
    (h' : SameFdStates s₂ s₃) : SameFdStates s₁ s₃ :=
  ⟨h'.1.trans h.1, fun k => (h'.2 k).trans (h.2 k)⟩

/-- Writing the queues of a fd state changes nothing else. -/
theorem SameFdStates.put {states : Block XioFdState} {k : ℕ} {s : XioFdState} (s' : XioFdState)
    (hs : states.read k = some s) (h : s'.unqueued = s.unqueued) :
    SameFdStates states (states.put k s') := by
  refine ⟨Block.size_put _ _ _, fun k' => ?_⟩
  rw [Block.read_put _ (Block.lt_of_read hs)]
  split
  · rename_i hkk
    rw [← hkk, hs, Option.map_some, Option.map_some, h]
  · rfl

theorem SameFdStates.of_read {states states' : Block XioFdState} (h : SameFdStates states states')
    {k : ℕ} {s s' : XioFdState} (hs : states.read k = some s) (hs' : states'.read k = some s') :
    s'.fd = s.fd ∧ s'.idx = s.idx := by
  have hun : s'.unqueued = s.unqueued := by
    have hk := h.2 k
    rw [hs, hs', Option.map_some, Option.map_some, Option.some_inj] at hk
    exact hk
  obtain ⟨hfd, -, -, -, hidx⟩ := XioFdState.mk.inj hun
  exact ⟨hfd, hidx⟩

theorem errored_cons_of_error {mask : BitVec 32} (h : mask &&& Epoll.xpollError ≠ 0) (k : ℕ)
    (events : List (BitVec 32 × ℕ)) : errored ((mask, k) :: events) = k :: errored events := by
  rw [errored, List.filter_cons_of_pos (by simpa using h)]
  rfl

theorem errored_cons_of_not {mask : BitVec 32} (h : ¬ mask &&& Epoll.xpollError ≠ 0) (k : ℕ)
    (events : List (BitVec 32 × ℕ)) : errored ((mask, k) :: events) = errored events := by
  rw [errored, List.filter_cons_of_neg (by simpa using h)]
  rfl

theorem mem_errored {events : List (BitVec 32 × ℕ)} {k : ℕ} :
    k ∈ errored events ↔ ∃ mask, (mask, k) ∈ events ∧ mask &&& Epoll.xpollError ≠ 0 := by
  simp [errored]

theorem taskNext_congr {p p' : TaskPool U} (h : p'.taskList = p.taskList) :
    taskNext p' = taskNext p := by
  funext t
  rw [taskNext, taskNext, h]

theorem TaskPool.errorResult_congr {p p' : TaskPool U} (h : p'.taskList = p.taskList) :
    p'.errorResult = p.errorResult := by
  funext t
  rw [errorResult, errorResult, h]

/-- The head of a queue leaves it before it is given back. -/
theorem TasksApart.pop {ft : List ℕ} {q : ℕ → List ℕ} {k a : ℕ} {l : List ℕ}
    (h : TasksApart ft (Function.update q k (a :: l))) :
    TasksApart ft (Function.update q k l) ∧ Taken ft (Function.update q k l) a := by
  have hsub := h.update k (l := l) (by
    rw [Function.update_self]
    exact List.sublist_cons_self a l)
  rw [Function.update_idem] at hsub
  have hmem : a ∈ Function.update q k (a :: l) k := by
    rw [Function.update_self]
    exact List.mem_cons_self
  refine ⟨hsub, h.queue_lt k a hmem, h.not_free k a hmem, fun j hj => ?_⟩
  rcases eq_or_ne j k with rfl | hne
  · have hnd := h.queue_nodup j
    rw [Function.update_self] at hj hnd
    exact (List.nodup_cons.mp hnd).1 hj
  · rw [Function.update_of_ne hne] at hj
    refine hne (h.inj j k a ?_ hmem)
    rwa [Function.update_of_ne hne]

/-! ### One queue -/

/-- The drain of a queue stops at its end or when the room is used up, and gives
back the tasks in front.  The queue `l` may be the front of a longer one. -/
theorem drainQueue_eq (ndebug : Bool) {q : ℕ → List ℕ} {k : ℕ} {l rest ft : List ℕ}
    {head : Option ℕ} {w : XioWait U} (hw : w.tasks.Wf ft)
    (hapart : TasksApart ft (Function.update q k (l ++ rest)))
    (hl : Chained (taskNext w.tasks) head l) (room : ℕ) :
    ∃ head' w', drainQueue ndebug room head w = some (head', decide (l.length ≤ room), w') ∧
      w'.tasks.Wf (ft ++ l.take room) ∧ w'.tasks.taskList = w.tasks.taskList ∧
      TasksApart (ft ++ l.take room) (Function.update q k (l.drop room ++ rest)) ∧
      Chained (taskNext w.tasks) head' (l.drop room) ∧
      w'.results.map some
        = w.results.map some ++ (l.take room).map w.tasks.errorResult := by
  induction l generalizing ft head w room with
  | nil =>
    obtain rfl : head = none := hl
    refine ⟨none, w, by cases room <;> rfl, ?_⟩
    rw [List.take_nil, List.drop_nil, List.append_nil, List.map_nil, List.append_nil]
    exact ⟨hw, rfl, hapart, rfl, rfl⟩
  | cons a l ih =>
    obtain ⟨rfl, n, hn, hl'⟩ := hl
    obtain ⟨e, he, hen⟩ := Option.map_eq_some_iff.mp hn
    -- Without room the drain leaves the queue as it is.
    cases room with
    | zero =>
      refine ⟨some a, w, by rw [drainQueue, he]; rfl, ?_⟩
      rw [List.take_zero, List.append_nil, List.map_nil, List.append_nil]
      exact ⟨hw, rfl, hapart, ⟨rfl, n, hn, hl'⟩, rfl⟩
    | succ room =>
      -- The task in front goes back, and `ih` drains the rest.
      obtain ⟨hapart', ht⟩ := hapart.pop
      obtain ⟨p, hp, hlist, hwf⟩ := hw.release ndebug hapart' ht
      have hnext := taskNext_congr hlist
      have hl'' : Chained (taskNext p) n l := hnext ▸ hl'
      obtain ⟨head', w', hd, hw', hlist', hap, hch, hres⟩ := ih
        (w := ⟨p, w.results ++ [⟨e.op, xioTaskFInternalError, -1, none, e.udata⟩]⟩) hwf
        (hapart'.give ht) hl'' room
      have ha : w.tasks.errorResult a
          = some ⟨e.op, xioTaskFInternalError, -1, none, e.udata⟩ := by
        rw [TaskPool.errorResult, he]
        rfl
      refine ⟨head', w', ?_, ?_, hlist'.trans hlist, ?_, hnext ▸ hch, ?_⟩
      · rw [drainQueue, he]
        simp only [Option.bind_eq_bind, Option.bind_some, hp, hen, hd, List.length_cons,
          Nat.add_le_add_iff_right]
      · rwa [List.append_assoc] at hw'
      · rwa [List.append_assoc] at hap
      · have hcons : ((a :: l).take (room + 1)).map w.tasks.errorResult
            = some ⟨e.op, xioTaskFInternalError, -1, none, e.udata⟩ ::
              (l.take room).map w.tasks.errorResult := by
          rw [List.take_succ_cons, List.map_cons, ha]
        rw [hres, hcons, TaskPool.errorResult_congr hlist, List.map_append, List.append_assoc]
        rfl

/-! ### The events -/

namespace Queues

variable {tasks : TaskPool U} {states : Block XioFdState} {ft : List ℕ} {qin qout : ℕ → List ℕ}

/-- New heads for the queues of fd state `k`. -/
theorem put (h : Queues tasks states ft qin qout) {k : ℕ} {s : XioFdState} (s' : XioFdState)
    (hs : states.read k = some s) {tasks' : TaskPool U} {ft' lin lout : List ℕ}
    (hlist : tasks'.taskList = tasks.taskList) (hwf : tasks'.Wf ft')
    (hin : Chained (taskNext tasks) s'.taskInHead lin)
    (hout : Chained (taskNext tasks) s'.taskOutHead lout)
    (hapart : TasksApart ft' (Function.update (fun j => qin j ++ qout j) k (lin ++ lout))) :
    Queues tasks' (states.put k s') ft' (Function.update qin k lin)
      (Function.update qout k lout) where
  pool := hwf
  apart := by
    have hq : (fun j => Function.update qin k lin j ++ Function.update qout k lout j)
        = Function.update (fun j => qin j ++ qout j) k (lin ++ lout) := by
      funext j
      rcases eq_or_ne j k with rfl | hne
      · simp only [Function.update_self]
      · simp only [Function.update_of_ne hne]
    rw [hq]
    exact hapart
  state j hj := by
    rw [Block.read_put _ (Block.lt_of_read hs), taskNext_congr hlist]
    split
    · rename_i hkj
      rw [← hkj, Function.update_self, Function.update_self]
      exact ⟨s', rfl, hin, hout⟩
    · rename_i hkj
      rw [Function.update_of_ne (Ne.symm hkj), Function.update_of_ne (Ne.symm hkj)]
      exact h.state j hj

/-- An event with `XPOLL_ERROR` drains the queues of its fd state. -/
theorem waitEventBody_eq (h : Queues tasks states ft qin qout) (ndebug : Bool) (maxResults : ℕ)
    {mask : BitVec 32} (hmask : mask &&& Epoll.xpollError ≠ 0) {k : ℕ}
    (hk : k < xioXpollMaxTaskCount) (results : List (XioResult U)) {room : ℕ}
    (hroom : room = maxResults - results.length) :
    ∃ states' w', waitEventBody ndebug maxResults mask k states ⟨tasks, results⟩
        = some (decide ((qin k ++ qout k).length ≤ room), states', w') ∧
      Queues w'.tasks states' (ft ++ (qin k ++ qout k).take room)
        (Function.update qin k ((qin k).drop room))
        (Function.update qout k ((qout k).drop (room - (qin k).length))) ∧
      w'.tasks.taskList = tasks.taskList ∧ SameFdStates states states' ∧
      w'.results.map some
        = results.map some ++ ((qin k ++ qout k).take room).map tasks.errorResult := by
  obtain ⟨s, hs, hin, hout⟩ := h.state k hk
  have hapart := h.apart
  rw [← Function.update_eq_self k fun j => qin j ++ qout j] at hapart
  obtain ⟨head, w₁, hd, hwf, hlist, hapart₁, hch, hres⟩ :=
    drainQueue_eq ndebug (w := ⟨tasks, results⟩) h.pool hapart hin room
  have hlt := Block.lt_of_read hs
  have h₁ := h.put { s with taskInHead := head } hs hlist hwf hch hout hapart₁
  have hsame := SameFdStates.put { s with taskInHead := head } hs rfl
  rw [waitEventBody, if_pos hmask, hs]
  simp only [Option.bind_eq_bind, Option.bind_some, ← hroom, hd, Block.write_of_lt _ hlt,
    decide_eq_true_eq]
  by_cases hle : (qin k).length ≤ room
  · -- The input queue is empty now, and the output queue comes next.
    rw [if_pos hle]
    rw [List.drop_of_length_le hle, List.take_of_length_le hle] at *
    have hlen : w₁.results.length = results.length + (qin k).length := by
      have := congrArg List.length hres
      simpa using this
    have hroom₂ : maxResults - w₁.results.length = room - (qin k).length := by omega
    rw [Function.update_eq_self] at h₁
    have hapart₂ : TasksApart (ft ++ qin k)
        (Function.update (fun j => Function.update qin k [] j ++ qout j) k (qout k ++ [])) := by
      have hapart₂ := h₁.apart
      rw [← Function.update_eq_self k fun j => Function.update qin k [] j ++ qout j,
        Function.update_self] at hapart₂
      rwa [List.append_nil]
    obtain ⟨head₂, w₂, hd₂, hwf₂, hlist₂, hapart₃, hch₂, hres₂⟩ :=
      drainQueue_eq ndebug h₁.pool hapart₂ (taskNext_congr hlist ▸ hout) (room - (qin k).length)
    have h₂ := h₁.put { s with taskInHead := head, taskOutHead := head₂ }
      (Block.read_put_self _ hlt) hlist₂ hwf₂ (show Chained _ head [] from hch) hch₂
      (by rwa [List.append_nil] at hapart₃)
    have hput : (states.put k { s with taskInHead := head }).write k
        { s with taskInHead := head, taskOutHead := head₂ }
        = some ((states.put k { s with taskInHead := head }).put k
          { s with taskInHead := head, taskOutHead := head₂ }) :=
      Block.write_of_lt _ (by rw [Block.size_put]; exact hlt)
    have htake : (qin k ++ qout k).take room = qin k ++ (qout k).take (room - (qin k).length) := by
      rw [List.take_append, List.take_of_length_le hle]
    have hmore : decide ((qout k).length ≤ room - (qin k).length)
        = decide ((qin k ++ qout k).length ≤ room) := by
      rw [List.length_append, decide_eq_decide]
      omega
    simp only [hroom₂, hd₂, Option.bind_some, hput, hmore]
    rw [Function.update_idem, List.append_assoc] at h₂
    rw [htake]
    refine ⟨_, w₂, rfl, h₂, hlist₂.trans hlist,
      hsame.trans (SameFdStates.put _ (Block.read_put_self _ hlt) rfl), ?_⟩
    rw [hres₂, hres, TaskPool.errorResult_congr hlist, List.map_append, List.append_assoc]
  · -- The room is used up within the input queue.
    have htake : (qin k ++ qout k).take room = (qin k).take room :=
      List.take_append_of_le_length (by omega)
    have hmore : decide ((qin k ++ qout k).length ≤ room) = false := by
      rw [List.length_append]
      exact decide_eq_false (by omega)
    rw [if_neg hle, htake, hmore, show room - (qin k).length = 0 by omega, List.drop_zero]
    exact ⟨_, w₁, rfl, h₁, hlist, hsame, hres⟩

/-- Dropping from two queues in a row is dropping from their concatenation. -/
theorem update_append_drop (qin qout : ℕ → List ℕ) (k room : ℕ) :
    (fun j => Function.update qin k ((qin k).drop room) j ++
        Function.update qout k ((qout k).drop (room - (qin k).length)) j)
      = Function.update (fun j => qin j ++ qout j) k ((qin k ++ qout k).drop room) := by
  funext j
  rcases eq_or_ne j k with rfl | hne
  · simp only [Function.update_self, List.drop_append]
  · simp only [Function.update_of_ne hne]

/-- The loop drains the queues of the errored fd states, with room for what is
missing in `maxResults`. -/
theorem fhXioWaitLoop_eq (h : Queues tasks states ft qin qout) (ndebug : Bool) (maxResults : ℕ)
    {events : List (BitVec 32 × ℕ)} (hev : ∀ e ∈ events, e.2 < xioXpollMaxTaskCount)
    (results : List (XioResult U)) {room : ℕ} (hroom : room = maxResults - results.length) :
    ∃ states' w' qin' qout', fhXioWaitLoop ndebug maxResults events states ⟨tasks, results⟩
        = some (states', w') ∧
      Queues w'.tasks states'
        (ft ++ drained room (errored events) fun k => qin k ++ qout k) qin' qout' ∧
      (∀ k, qin' k ++ qout' k = remaining room (errored events) (fun k => qin k ++ qout k) k) ∧
      (∀ k, qout' k <:+ qout k) ∧ w'.tasks.taskList = tasks.taskList ∧
      SameFdStates states states' ∧
      w'.results.map some = results.map some ++
        (drained room (errored events) fun k => qin k ++ qout k).map tasks.errorResult := by
  induction events generalizing tasks states ft qin qout results room with
  | nil =>
    refine ⟨states, ⟨tasks, results⟩, qin, qout, rfl, ?_, fun _ => rfl,
      fun _ => List.suffix_refl _, rfl, .refl _, ?_⟩
    · rw [errored, List.filter_nil, List.map_nil, drained, List.append_nil]
      exact h
    · exact (List.append_nil _).symm
  | cons e events ih =>
    obtain ⟨mask, k⟩ := e
    have hk := hev _ List.mem_cons_self
    have hev' := fun e he => hev e (List.mem_cons_of_mem _ he)
    by_cases hmask : mask &&& Epoll.xpollError ≠ 0
    · obtain ⟨states₁, w₁, hbody, h₁, hlist, hsame, hres⟩ :=
        h.waitEventBody_eq ndebug maxResults hmask hk results hroom
      rw [fhXioWaitLoop, hbody, errored_cons_of_error hmask, drained, remaining,
        ← update_append_drop]
      simp only [Option.bind_eq_bind, Option.bind_some, decide_eq_true_eq]
      by_cases hle : (qin k ++ qout k).length ≤ room
      · have hlen : w₁.results.length = results.length + (qin k ++ qout k).length := by
          have hlen := congrArg List.length hres
          rw [List.length_map, List.length_append, List.length_map, List.length_map,
            List.take_of_length_le hle] at hlen
          exact hlen
        have hroom' : room - (qin k ++ qout k).length = maxResults - w₁.results.length := by omega
        rw [if_pos hle]
        obtain ⟨states', w', qin', qout', hloop, h', hq', hsuf, hlist', hsame', hres'⟩ :=
          ih h₁ hev' w₁.results hroom'
        refine ⟨states', w', qin', qout', hloop, ?_, hq', fun j => (hsuf j).trans ?_,
          hlist'.trans hlist, hsame.trans hsame', ?_⟩
        · rwa [← List.append_assoc]
        · rcases eq_or_ne j k with rfl | hne
          · rw [Function.update_self]
            exact List.drop_suffix _ _
          · rw [Function.update_of_ne hne]
        · rw [hres', hres, TaskPool.errorResult_congr hlist, List.map_append, List.append_assoc]
      · -- The loop ends here, which is as good as going on without room.
        rw [if_neg hle, show room - (qin k ++ qout k).length = 0 by omega, drained_zero,
          remaining_zero, List.append_nil]
        refine ⟨states₁, w₁, _, _, rfl, h₁, fun _ => rfl, fun j => ?_, hlist, hsame, hres⟩
        rcases eq_or_ne j k with rfl | hne
        · rw [Function.update_self]
          exact List.drop_suffix _ _
        · rw [Function.update_of_ne hne]
    · rw [fhXioWaitLoop, waitEventBody, if_neg hmask, errored_cons_of_not hmask]
      exact ih h hev' results hroom

end Queues

/-! ### Waiting -/

/-- The room that `fh_xio_wait` has for results. -/
def waitRoom (maxResults : ℕ) : ℕ := min maxResults xioXpollMaxEvents

/-- `fh_xio_wait` drains the queues of the errored fd states. -/
theorem Queues.fhXioWait_eq {x : Xio U} {ft : List ℕ} {qin qout : ℕ → List ℕ}
    (h : Queues x.tasks x.fdStates.fdStateList ft qin qout) (ndebug : Bool) (maxResults : ℕ)
    {events : List (BitVec 32 × ℕ)} (hev : ∀ e ∈ events, e.2 < xioXpollMaxTaskCount) :
    ∃ results tasks states qin' qout', fhXioWait ndebug x maxResults (some events)
        = some (results.length, results,
          { x with tasks := tasks, fdStates := { x.fdStates with fdStateList := states } }) ∧
      Queues tasks states
        (ft ++ drained (waitRoom maxResults) (errored events) fun k => qin k ++ qout k)
        qin' qout' ∧
      (∀ k, qin' k ++ qout' k
        = remaining (waitRoom maxResults) (errored events) (fun k => qin k ++ qout k) k) ∧
      (∀ k, qout' k <:+ qout k) ∧ tasks.taskList = x.tasks.taskList ∧
      SameFdStates x.fdStates.fdStateList states ∧
      results.map some = (drained (waitRoom maxResults) (errored events)
        fun k => qin k ++ qout k).map x.tasks.errorResult := by
  obtain ⟨states, w, qin', qout', hloop, h', hrest⟩ :=
    h.fhXioWaitLoop_eq ndebug (waitRoom maxResults) hev [] (Nat.sub_zero _).symm
  refine ⟨w.results, w.tasks, states, qin', qout', ?_, h', hrest⟩
  rw [fhXioWait, show min maxResults xioXpollMaxEvents = waitRoom maxResults from rfl]
  simp only [Option.bind_eq_bind, hloop, Option.bind_some]

namespace Xio.Inv

variable {x : Xio U} {ft fs : List ℕ} {q : ℕ → List ℕ} {m : List (IntKey × Option ℕ)}

theorem queues (h : x.Inv ft fs q m) :
    Queues x.tasks x.fdStates.fdStateList ft q fun _ => [] where
  pool := h.tasks
  apart := by
    simp only [List.append_nil]
    exact h.apart
  state k hk := by
    obtain ⟨s, hs, -, hout⟩ := h.states.state k hk
    exact ⟨s, hs, h.chained k hk s hs, hout⟩

/-- `fh_xio_wait` keeps the invariant: the tasks at the heads of the queues of the
errored fd states go to the end of the free list. -/
theorem wait (h : x.Inv ft fs q m) (ndebug : Bool) (maxResults : ℕ)
    {events : List (BitVec 32 × ℕ)} (hev : ∀ e ∈ events, e.2 < xioXpollMaxTaskCount) :
    ∃ results tasks states, fhXioWait ndebug x maxResults (some events)
        = some (results.length, results,
          { x with tasks := tasks, fdStates := { x.fdStates with fdStateList := states } }) ∧
      { x with tasks := tasks, fdStates := { x.fdStates with fdStateList := states } }.Inv
        (ft ++ drained (waitRoom maxResults) (errored events) q) fs
        (remaining (waitRoom maxResults) (errored events) q) m ∧
      tasks.taskList = x.tasks.taskList ∧ SameFdStates x.fdStates.fdStateList states ∧
      results.map some
        = (drained (waitRoom maxResults) (errored events) q).map x.tasks.errorResult := by
  obtain ⟨results, tasks, states, qin', qout', hwait, h', hq', hsuf, hlist, hsame, hres⟩ :=
    h.queues.fhXioWait_eq ndebug maxResults hev
  simp only [List.append_nil] at h' hq' hres
  have hout : ∀ k, qout' k = [] := fun k => List.suffix_nil.mp (hsuf k)
  have hin : qin' = remaining (waitRoom maxResults) (errored events) q := by
    funext k
    rw [← hq' k, hout k, List.append_nil]
  have hapart := h'.apart
  simp only [hq'] at hapart
  refine ⟨results, tasks, states, hwait,
    { h with
      tasks := h'.pool
      apart := hapart
      states := ⟨hsame.1.trans h.states.size_eq, h.states.stack, fun k hk => ?_⟩
      chained := fun k hk s hs => ?_
      entries := fun p hp => ?_ }, hlist, hsame, hres⟩
  · obtain ⟨s, hs, -, houtk⟩ := h'.state k hk
    obtain ⟨s₀, hs₀, hidx, -⟩ := h.states.state k hk
    rw [hout k] at houtk
    exact ⟨s, hs, (hsame.of_read hs₀ hs).2.trans hidx, houtk⟩
  · obtain ⟨s', hs', hch, -⟩ := h'.state k hk
    rw [hs', Option.some_inj] at hs
    rw [← hs, ← hin]
    exact hch
  · obtain ⟨fd, k, rfl, hk, hneg⟩ := h.entries p hp
    refine ⟨fd, k, rfl, hk, fun hf => ⟨(hneg hf).1, ?_⟩⟩
    obtain ⟨-, s, hs, hsfd⟩ := hneg hf
    obtain ⟨s', hs', -⟩ := h'.state k hk
    exact ⟨s', hs', (hsame.of_read hs hs').1.trans hsfd⟩

end Xio.Inv

end Freehttpd
