/-
What a call does to the queues of the xpoll backend.

A queued task keeps its label: the operation and the `udata` of its request, and the
slice it holds a reference to.  `Held` has the queues over ghosts, with the labels of
the queued tasks.  What becomes of the requests and of their buffers can be read off
from what a call does to the labels:

* `Carried` — the same in the middle of a request, for the task in hand;
* `Held.recv` — a request that succeeds adds its label, and one that takes a fd state
  from the free list drops the labels of the tasks queued there;
* `Held.wait` — a wait takes away the labels of the tasks that it drains.
-/
import Freehttpd.XioSteps
import Mathlib.Algebra.Order.BigOperators.Group.Finset

namespace Freehttpd

variable {U : Type}

/-! ### Labels -/

/-- The fields that a request sets in its task before it queues it. -/
structure TaskLabel (U : Type) where
  op : Option XioOp
  udata : Option U
  flags : ℕ
  bid : ℕ

def XioTask.label (t : XioTask U) : TaskLabel U := ⟨t.op, t.udata, t.flags, t.bid⟩

/-- The slice that a task holds a reference to, if it has `XIO_TASK_F_BUFFER`. -/
def TaskLabel.slice (l : TaskLabel U) : Option ℕ :=
  if l.flags &&& xioTaskFBuffer ≠ 0 then some l.bid else none

theorem TaskLabel.slice_eq_none {l : TaskLabel U} (h : l.flags = 0) : l.slice = none := by
  rw [slice, if_neg (by rw [h]; decide)]

theorem TaskLabel.slice_eq_some {l : TaskLabel U} (h : l.flags = xioTaskFBuffer) :
    l.slice = some l.bid := by
  rw [slice, if_pos (by rw [h]; decide)]

namespace TaskPool

/-- The label of a task. -/
def label (p : TaskPool U) (task : ℕ) : Option (TaskLabel U) :=
  (p.taskList.read task).map XioTask.label

/-- The labels of the tasks `l`. -/
def labels (p : TaskPool U) (l : List ℕ) : Multiset (TaskLabel U) :=
  (l.filterMap p.label : List (TaskLabel U))

variable {p p' : TaskPool U}

@[simp] theorem labels_nil (p : TaskPool U) : p.labels [] = 0 := rfl

theorem labels_append (p : TaskPool U) (l l' : List ℕ) :
    p.labels (l ++ l') = p.labels l + p.labels l' := by
  rw [labels, List.filterMap_append, ← Multiset.coe_add]
  rfl

theorem labels_cons {t : ℕ} {label : TaskLabel U} (ht : p.label t = some label) (l : List ℕ) :
    p.labels (t :: l) = {label} + p.labels l := by
  rw [show t :: l = [t] ++ l from rfl, labels_append]
  congr 1
  rw [labels, List.filterMap_cons_some ht]
  rfl

theorem label_congr (h : p'.taskList = p.taskList) : p'.label = p.label := by
  funext t
  rw [label, label, h]

theorem labels_congr {l : List ℕ} (h : ∀ t ∈ l, p'.label t = p.label t) :
    p'.labels l = p.labels l :=
  congrArg _ (List.filterMap_congr h)

/-- Only the task written changes. -/
theorem label_put {t : ℕ} {e e' : XioTask U} (he : p.taskList.read t = some e) (t' : ℕ) :
    ({ p with taskList := p.taskList.put t e' } : TaskPool U).label t'
      = if t = t' then some e'.label else p.label t' := by
  rw [label, label]
  dsimp only
  rw [Block.read_put _ (Block.lt_of_read he)]
  split
  · rfl
  · rfl

theorem mem_labels {l : List ℕ} {a : TaskLabel U} :
    a ∈ p.labels l ↔ ∃ t ∈ l, p.label t = some a := by
  rw [labels, Multiset.mem_coe, List.mem_filterMap]

theorem card_labels_le (p : TaskPool U) (l : List ℕ) : (p.labels l).card ≤ l.length := by
  rw [labels, Multiset.coe_card]
  exact List.length_filterMap_le _ _

end TaskPool

instance RecvCall.decidableStarts (ndebug : Bool) (c : RecvCall U) (x : Xio U) :
    Decidable (c.Starts ndebug x) :=
  decidable_of_iff (x.tasks.freeTaskListTop ≠ 0 ∧
      (c.buf = none → (fhXioAcquireSlice ndebug x.slices c.size).join.isSome = true)) (by
    refine and_congr_right fun _ => imp_congr_right fun _ => ?_
    rw [Option.isSome_iff_exists]
    simp only [Option.join_eq_some_iff, Prod.exists])

instance RecvCall.decidableCreates (ndebug : Bool) (c : RecvCall U) (x : Xio U) :
    Decidable (c.Creates ndebug x) :=
  inferInstanceAs (Decidable (_ ∧ _ ∧ _))

/-- The labels that a request drops: those of the tasks queued on the fd state that it
takes from the free list. -/
def RecvCall.dropsLabels (ndebug : Bool) (c : RecvCall U) (x : Xio U) : Multiset (TaskLabel U) :=
  if c.Creates ndebug x then
    ((x.fdStateFor c.fd).map fun k => x.tasks.labels (x.queued k)).getD 0
  else 0

/-- The `udata` of an event points to a fd state. -/
def XioCall.EventsKnown : XioCall U → Prop
  | .recv _ => True
  | .wait _ events => ∀ es ∈ events, ∀ e ∈ es, e.2 < xioXpollMaxTaskCount

/-- What a request takes for its buffer from the pool `p`: nothing, or `slice`, of which
the task gets `bid`. -/
inductive RecvCall.Takes (ndebug : Bool) (c : RecvCall U) (p : SlicePool) :
    Option ℕ → Option ℕ → SlicePool → Prop
  | own : c.Takes ndebug p none none p
  | slice {b : ℕ} {s : XioSlice} {p' : SlicePool}
      (hacq : fhXioAcquireSlice ndebug p c.size = some (some (b, p')))
      (hs : p'.bufList.read b = some s) : c.Takes ndebug p (some b) (some s.bid) p'

/-- The label of a request that has taken `bid`. -/
structure RecvCall.Labels (c : RecvCall U) (bid : Option ℕ) (label : TaskLabel U) : Prop where
  op_eq : label.op = some .recv
  udata_eq : label.udata = c.udata
  slice_eq : label.slice = bid

/-! ### The invariant -/

/-- The pools hold the free tasks `ft` and the queues `qin k` and `qout k`, and the
labels of the queued tasks are `held`. -/
structure Held (x : Xio U) (ft : List ℕ) (qin qout : ℕ → List ℕ) (held : Multiset (TaskLabel U)) :
    Prop where
  queues : Queues x.tasks x.fdStates.fdStateList ft qin qout
  states_size : x.fdStates.fdStateList.size = xioXpollMaxTaskCount
  sum_eq : ∑ k ∈ Finset.range xioXpollMaxTaskCount, x.tasks.labels (qin k ++ qout k) = held

namespace Held

variable {x x' : Xio U} {ft : List ℕ} {qin qout : ℕ → List ℕ} {held : Multiset (TaskLabel U)}
  {ndebug : Bool}

/-- The queues are those of the state. -/
theorem sum_queued (h : Held x ft qin qout held) :
    ∑ k ∈ Finset.range xioXpollMaxTaskCount, x.tasks.labels (x.queued k) = held := by
  rw [← h.sum_eq]
  exact Finset.sum_congr rfl fun k hk => by rw [h.queues.queued_eq (Finset.mem_range.mp hk)]

/-- There are no more labels than tasks. -/
theorem card_le (h : Held x ft qin qout held) : held.card ≤ xioXpollMaxTaskCount := by
  rw [← h.sum_eq, Multiset.card_sum]
  exact (Finset.sum_le_sum fun k _ => x.tasks.card_labels_le _).trans
    (h.queues.apart.sum_length_le _)

/-- Other parts of the state do not matter. -/
theorem congr (h : Held x ft qin qout held) (htasks : x'.tasks = x.tasks)
    (hstates : x'.fdStates.fdStateList = x.fdStates.fdStateList) : Held x' ft qin qout held where
  queues := by
    rw [htasks, hstates]
    exact h.queues
  states_size := hstates ▸ h.states_size
  sum_eq := by
    rw [htasks]
    exact h.sum_eq

/-- The free list of the tasks changes. -/
theorem withFree (h : Held x ft qin qout held) {tasks : TaskPool U} {ft' : List ℕ}
    (hlist : tasks.taskList = x.tasks.taskList) (hwf : tasks.Wf ft')
    (hapart : TasksApart ft' fun k => qin k ++ qout k) :
    Held { x with tasks := tasks } ft' qin qout held where
  queues := ⟨hwf, hapart, by rw [taskNext_congr hlist]; exact h.queues.state⟩
  states_size := h.states_size
  sum_eq := by
    rw [← h.sum_eq]
    refine Finset.sum_congr rfl fun k _ => TaskPool.labels_congr fun t _ => ?_
    exact congrFun (TaskPool.label_congr hlist) t

/-- `fh_xio_acquire_task` takes the last free task. -/
theorem acquireTask (h : Held x ft qin qout held) {t : ℕ} {tasks : TaskPool U}
    (hacq : fhXioAcquireTask x.tasks = some (some (t, tasks))) :
    ∃ ft', tasks.taskList = x.tasks.taskList ∧ Taken ft' (fun k => qin k ++ qout k) t ∧
      Held { x with tasks := tasks } ft' qin qout held := by
  obtain ⟨hne, hread, rfl⟩ := fhXioAcquireTask_eq_some hacq
  obtain ⟨ft', t', rfl, hread', hstack⟩ := h.queues.pool.stack.pop hne
  obtain rfl : t = t' := Option.some.inj (hread.symm.trans hread')
  obtain ⟨hapart, ht⟩ := h.queues.apart.take
  exact ⟨ft', rfl, ht, h.withFree rfl ⟨hstack, h.queues.pool.task⟩ hapart⟩

/-- The error paths give the task back. -/
theorem release (h : Held x ft qin qout held) {t : ℕ}
    (ht : Taken ft (fun k => qin k ++ qout k) t) {slice : Option ℕ}
    (hrel : prepRelease ndebug x t slice = some x') :
    Held x' (ft ++ [t]) qin qout held ∧ x.slices.GivenBack ndebug slice x'.slices := by
  obtain ⟨tasks, slices, htasks, hslices, rfl⟩ := prepRelease_eq_some hrel
  obtain ⟨tasks', hrel', hlist, hwf⟩ := h.queues.pool.release ndebug h.queues.apart ht
  obtain rfl : tasks' = tasks := Option.some.inj (hrel'.symm.trans htasks)
  exact ⟨(h.withFree hlist hwf (h.queues.apart.give ht)).congr rfl rfl, hslices⟩

/-- A task that is in no queue may be written, and so may the fields of any other that
are neither its link nor part of its label. -/
theorem putTask (h : Held x ft qin qout held) {t : ℕ} {e : XioTask U} (e' : XioTask U)
    (ht : t < xioXpollMaxTaskCount) (he : x.tasks.taskList.read t = some e)
    (hidx : e'.idx = e.idx)
    (hq : (e'.next = e.next ∧ e'.label = e.label) ∨ ∀ k, t ∉ qin k ++ qout k) :
    Held { x with tasks := { x.tasks with taskList := x.tasks.taskList.put t e' } } ft qin qout
      held := by
  obtain ⟨e₀, he₀, hidx₀⟩ := h.queues.pool.task t ht
  obtain rfl : e = e₀ := Option.some.inj (he.symm.trans he₀)
  have hnext : ∀ k, ∀ t' ∈ qin k ++ qout k,
      taskNext { x.tasks with taskList := x.tasks.taskList.put t e' } t' = taskNext x.tasks t' := by
    intro k t' ht'
    rw [taskNext, taskNext]
    dsimp only
    rw [Block.read_put _ (Block.lt_of_read he)]
    split
    · -- The task itself: it keeps its link, or no queue holds it.
      rename_i htt
      rcases hq with ⟨hn, -⟩ | hq
      · rw [← htt, he, Option.map_some, Option.map_some, hn]
      · exact absurd (htt ▸ ht') (hq k)
    · rfl
  refine ⟨⟨h.queues.pool.put ht (by rw [hidx, hidx₀]), h.queues.apart, fun k hk => ?_⟩,
    h.states_size, ?_⟩
  · obtain ⟨s, hs, hin, hout⟩ := h.queues.state k hk
    exact ⟨s, hs, hin.congr fun a ha => hnext k a (List.mem_append_left _ ha),
      hout.congr fun a ha => hnext k a (List.mem_append_right _ ha)⟩
  · rw [← h.sum_eq]
    refine Finset.sum_congr rfl fun k _ => TaskPool.labels_congr fun t' ht' => ?_
    rw [TaskPool.label_put he]
    split
    · rename_i htt
      rcases hq with ⟨-, hl⟩ | hq
      · rw [← htt, TaskPool.label, he, Option.map_some, hl]
      · exact absurd (htt ▸ ht') (hq k)
    · rfl

/-- The queues of a fd state are replaced, and their labels with them. -/
theorem putQueues (h : Held x ft qin qout held) {k : ℕ} {s : XioFdState} (s' : XioFdState)
    (hs : x.fdStates.fdStateList.read k = some s) {lin lout : List ℕ}
    (hin : Chained (taskNext x.tasks) s'.taskInHead lin)
    (hout : Chained (taskNext x.tasks) s'.taskOutHead lout)
    (hapart : TasksApart ft (Function.update (fun j => qin j ++ qout j) k (lin ++ lout))) :
    ∃ held', Held { x with fdStates :=
        { x.fdStates with fdStateList := x.fdStates.fdStateList.put k s' } }
      ft (Function.update qin k lin) (Function.update qout k lout) held' ∧
      held' + x.tasks.labels (qin k ++ qout k) = held + x.tasks.labels (lin ++ lout) := by
  have hk : k < xioXpollMaxTaskCount := h.states_size ▸ Block.lt_of_read hs
  have hq : (fun j => Function.update qin k lin j ++ Function.update qout k lout j)
      = Function.update (fun j => qin j ++ qout j) k (lin ++ lout) := by
    funext j
    rcases eq_or_ne j k with rfl | hne
    · simp only [Function.update_self]
    · simp only [Function.update_of_ne hne]
  refine ⟨_, ⟨h.queues.put s' hs rfl h.queues.pool hin hout hapart,
    (Block.size_put _ _ _).trans h.states_size, rfl⟩, ?_⟩
  rw [← h.sum_eq]
  have hsum := sum_update_add x.tasks.labels (Finset.mem_range.mpr hk) (fun j => qin j ++ qout j)
    (lin ++ lout)
  rw [← hq] at hsum
  exact hsum

/-- Fields of a fd state that are not a queue may be written. -/
theorem putState (h : Held x ft qin qout held) {k : ℕ} {s : XioFdState} (s' : XioFdState)
    (hs : x.fdStates.fdStateList.read k = some s)
    (hin : s'.taskInHead = s.taskInHead) (hout : s'.taskOutHead = s.taskOutHead) :
    Held { x with fdStates :=
        { x.fdStates with fdStateList := x.fdStates.fdStateList.put k s' } } ft qin qout held := by
  have hk : k < xioXpollMaxTaskCount := h.states_size ▸ Block.lt_of_read hs
  obtain ⟨s₀, hs₀, hcin, hcout⟩ := h.queues.state k hk
  obtain rfl : s = s₀ := Option.some.inj (hs.symm.trans hs₀)
  obtain ⟨held', hheld, hbal⟩ := h.putQueues s' hs (hin ▸ hcin) (hout ▸ hcout) (by
    rw [Function.update_eq_self k fun j => qin j ++ qout j]
    exact h.queues.apart)
  rwa [add_right_cancel hbal, Function.update_eq_self, Function.update_eq_self] at hheld

end Held

/-! ### Requests -/

/-- In the middle of a request: task `t` is in hand, with its label. -/
structure Carried (x : Xio U) (ft : List ℕ) (qin qout : ℕ → List ℕ)
    (held : Multiset (TaskLabel U)) (t : ℕ) (label : TaskLabel U) : Prop where
  held : Held x ft qin qout held
  taken : Taken ft (fun k => qin k ++ qout k) t
  label_eq : x.tasks.label t = some label

/-- The end of a request that has taken task `t` and `slice`: the task is queued, or both
are given back. -/
def PrepResult.Settled (ndebug : Bool) (r : PrepResult U) (p : SlicePool) (t : ℕ)
    (slice : Option ℕ) (held : Multiset (TaskLabel U)) (label : TaskLabel U) : Prop :=
  ∃ ft qin qout,
    (r.prep = some (t, slice) ∧ r.xio.slices = p ∧ Held r.xio ft qin qout (held + {label})) ∨
    (r.prep = none ∧ p.GivenBack ndebug slice r.xio.slices ∧ Held r.xio ft qin qout held)

namespace Carried

variable {x x' : Xio U} {ft : List ℕ} {qin qout : ℕ → List ℕ} {held : Multiset (TaskLabel U)}
  {t : ℕ} {label : TaskLabel U} {ndebug : Bool} {env : PrepEnv} {fd : BitVec 32} {k : ℕ}
  {slice : Option ℕ} {created : Bool}

theorem congr (h : Carried x ft qin qout held t label) (htasks : x'.tasks = x.tasks)
    (hstates : x'.fdStates.fdStateList = x.fdStates.fdStateList) :
    Carried x' ft qin qout held t label :=
  ⟨h.held.congr htasks hstates, h.taken, htasks ▸ h.label_eq⟩

/-- The task in hand becomes the head of a queue. -/
theorem queue (h : Carried x ft qin qout held t label)
    (hqueue : prepQueue x .prepIn t k = some x') :
    (∃ qin', Held x' ft qin' qout (held + {label})) ∧ x'.slices = x.slices := by
  obtain ⟨s, e, hs, he, rfl⟩ := prepQueue_eq_some hqueue
  refine ⟨?_, rfl⟩
  have hk : k < xioXpollMaxTaskCount := h.held.states_size ▸ Block.lt_of_read hs
  have hput := h.held.putTask { e with next := s.taskInHead } h.taken.1 he rfl (.inr h.taken.2.2)
  obtain ⟨s₀, hs₀, hin, hout⟩ := hput.queues.state k hk
  obtain rfl : s = s₀ := Option.some.inj (hs.symm.trans hs₀)
  have hnext : taskNext { x.tasks with
      taskList := x.tasks.taskList.put t { e with next := s.taskInHead } } t
        = some s.taskInHead := by
    rw [taskNext]
    dsimp only
    rw [Block.read_put_self _ (Block.lt_of_read he)]
    rfl
  -- The link of the task is not part of its label.
  have hlabel : ({ x.tasks with
      taskList := x.tasks.taskList.put t { e with next := s.taskInHead } } : TaskPool U).label t
        = some label := by
    rw [TaskPool.label_put he, if_pos rfl, ← h.label_eq, TaskPool.label, he]
    rfl
  have hapart : TasksApart ft (Function.update (fun j => qin j ++ qout j) k
      (t :: qin k ++ qout k)) := h.held.queues.apart.enqueue h.taken k
  obtain ⟨held', hheld, hbal⟩ := hput.putQueues { s with taskInHead := some t } hs
    (show Chained _ _ (t :: qin k) from ⟨rfl, _, hnext, hin⟩) hout hapart
  rw [List.cons_append, TaskPool.labels_cons hlabel, ← add_assoc] at hbal
  rw [add_right_cancel hbal, Function.update_eq_self] at hheld
  exact ⟨_, hheld⟩

/-- From the check of the events on, a request queues the task or gives it back. -/
theorem register (h : Carried x ft qin qout held t label) {r : PrepResult U}
    (hrun : prepRegister ndebug env x .prepIn fd t slice k created = some r) :
    r.Settled ndebug x.slices t slice held label := by
  cases prepRegister_cases hrun with
  | watched hs hread hqueue =>
    obtain ⟨⟨qin', hheld⟩, hslices⟩ := h.queue hqueue
    exact ⟨ft, qin', qout, .inl ⟨rfl, hslices, hheld⟩⟩
  | @queued _ _ s hs hread hno hqueue =>
    -- The new events of the fd state leave its queues alone.
    have hput := h.held.putState { s with events := s.events ||| Epoll.xpollRead } hs rfl rfl
    have hstate : Carried _ ft qin qout held t label := ⟨hput, h.taken, h.label_eq⟩
    obtain ⟨⟨qin', hheld⟩, hslices⟩ := hstate.queue hqueue
    exact ⟨ft, qin', qout, .inl ⟨rfl, hslices, hheld⟩⟩
  | removed hs hread hreg hun hrel =>
    obtain ⟨d, p, -, hp, rfl⟩ := prepUncreate_eq_some hun
    obtain ⟨hheld, hslices⟩ := (h.held.congr (by rfl)
      (by exact fhXioReleaseFdState_eq_some hp)).release h.taken hrel
    exact ⟨_, qin, qout, .inr ⟨rfl, hslices, hheld⟩⟩
  | @refused _ s hs hread hreg hrel =>
    obtain ⟨hheld, hslices⟩ := (h.held.congr (by rfl) (by rfl)).release h.taken hrel
    exact ⟨_, qin, qout, .inr ⟨rfl, hslices, hheld⟩⟩

/-- The set-up of a fd state drops what was queued on it. -/
theorem create (h : Carried x ft qin qout held t label)
    (hc : prepCreate ndebug env x fd k = some x') :
    k < xioXpollMaxTaskCount ∧ x'.slices = x.slices ∧
      ∃ qin' qout' held', Carried x' ft qin' qout' held' t label ∧
        held' + x.tasks.labels (qin k ++ qout k) = held := by
  obtain ⟨s, table, hs, -, rfl⟩ := prepCreate_eq_some hc
  have hk : k < xioXpollMaxTaskCount := h.held.states_size ▸ Block.lt_of_read hs
  obtain ⟨held', hreset, hbal⟩ := h.held.putQueues (s.setUp fd) hs
    (show Chained _ _ [] from rfl) (show Chained _ _ [] from rfl)
    (h.held.queues.apart.update k (List.nil_sublist _))
  rw [List.append_nil, TaskPool.labels_nil, add_zero] at hbal
  have htaken : Taken ft
      (fun j => Function.update qin k [] j ++ Function.update qout k [] j) t := by
    refine ⟨h.taken.1, h.taken.2.1, fun j hj => ?_⟩
    rcases eq_or_ne j k with rfl | hne
    · simp only [Function.update_self, List.append_nil, List.not_mem_nil] at hj
    · simp only [Function.update_of_ne hne] at hj
      exact h.taken.2.2 j hj
  exact ⟨hk, rfl, _, _, held', ⟨hreset.congr rfl rfl, htaken, h.label_eq⟩, hbal⟩

/-- From the lookup of the fd state on, a request queues the task or gives it back, and
drops what was queued on a fd state that it took from the free list. -/
theorem fdState (h : Carried x ft qin qout held t label) {r : PrepResult U}
    (hrun : prepFdState ndebug env x .prepIn fd t slice = some r) :
    ∃ held' lost, r.Settled ndebug x.slices t slice held' label ∧ held' + lost = held ∧
      ((¬ (x.stateOf fd = none ∧ x.fdStates.freeFdStateListTop ≠ 0) ∧ lost = 0) ∨
        ((x.stateOf fd = none ∧ x.fdStates.freeFdStateListTop ≠ 0) ∧
          ∃ k, x.fdStateFor fd = some k ∧ k < xioXpollMaxTaskCount ∧
            lost = x.tasks.labels (qin k ++ qout k))) := by
  cases prepFdState_cases hrun with
  | known hst hrun =>
    refine ⟨held, 0, h.register hrun, add_zero _, .inl ⟨fun hc => ?_, rfl⟩⟩
    rw [hst] at hc
    cases hc.1
  | exhausted hst htop hrel =>
    obtain ⟨hheld, hslices⟩ := h.held.release h.taken hrel
    exact ⟨held, 0, ⟨_, qin, qout, .inr ⟨rfl, hslices, hheld⟩⟩, add_zero _,
      .inl ⟨fun hc => hc.2 htop, rfl⟩⟩
  | created hst htop hk hcreate hrun =>
    obtain ⟨hlt, hslices, qin₁, qout₁, held₁, hcarried, hbal⟩ :=
      (h.congr (by rfl) (by rfl)).create hcreate
    have hset := hcarried.register hrun
    rw [hslices] at hset
    exact ⟨held₁, _, hset, hbal, .inr ⟨⟨hst, htop⟩, _, (Xio.fdStateFor_of_new hst htop).trans hk,
      hlt, rfl⟩⟩

end Carried

namespace Held

variable {x x' : Xio U} {ft : List ℕ} {qin qout : ℕ → List ℕ} {held : Multiset (TaskLabel U)}
  {ndebug : Bool}

/-- The fields that a request sets first give the task its label. -/
theorem prepTask (h : Held x ft qin qout held) {t : ℕ}
    (ht : Taken ft (fun k => qin k ++ qout k) t) {op : XioOp} {udata : Option U} {flags : ℕ}
    {bid : Option ℕ} (hrun : Freehttpd.prepTask x op udata t flags bid = some x') :
    x'.slices = x.slices ∧
      (∃ b, Carried x' ft qin qout held t ⟨some op, udata, flags, bid.getD b⟩) ∧
      ∀ k, x'.tasks.labels (qin k ++ qout k) = x.tasks.labels (qin k ++ qout k) := by
  obtain ⟨e, he, rfl⟩ := prepTask_eq_some hrun
  refine ⟨rfl, ⟨e.bid, h.putTask _ ht.1 he rfl (.inr ht.2.2), ht, ?_⟩, fun k =>
    TaskPool.labels_congr fun t' ht' => ?_⟩
  · rw [TaskPool.label_put he, if_pos rfl]
    rfl
  · rw [TaskPool.label_put he, if_neg]
    rintro rfl
    exact ht.2.2 k ht'

/-- A request begins with its task in hand, and a slice if it has no buffer. -/
theorem begins (h : Held x ft qin qout held) {c : RecvCall U} {t : ℕ} {slice : Option ℕ}
    {x₁ : Xio U} (hbegin : c.Begins ndebug x t slice x₁) :
    ∃ ft' bid label, Carried x₁ ft' qin qout held t label ∧ c.Labels bid label ∧
      c.Takes ndebug x.slices slice bid x₁.slices ∧
      ∀ k, x₁.tasks.labels (qin k ++ qout k) = x.tasks.labels (qin k ++ qout k) := by
  obtain ⟨tasks, hacq, hbegin⟩ := hbegin
  obtain ⟨ft', hlist, ht, hheld⟩ := h.acquireTask hacq
  have hsame : ∀ k, tasks.labels (qin k ++ qout k) = x.tasks.labels (qin k ++ qout k) :=
    fun k => TaskPool.labels_congr fun t _ => congrFun (TaskPool.label_congr hlist) t
  rcases hbegin with ⟨rfl, htask⟩ | ⟨b, slices, s, rfl, hacq, hs, htask⟩
  · obtain ⟨hslices, ⟨b, hcarried⟩, hframe⟩ := hheld.prepTask ht htask
    have hslices : x₁.slices = x.slices := hslices
    exact ⟨ft', none, _, hcarried, ⟨rfl, rfl, TaskLabel.slice_eq_none rfl⟩, hslices ▸ .own,
      fun k => (hframe k).trans (hsame k)⟩
  · have hheld : Held { x with tasks := tasks, slices := slices } ft' qin qout held :=
      hheld.congr rfl rfl
    obtain ⟨hslices, ⟨b', hcarried⟩, hframe⟩ := hheld.prepTask ht htask
    have hslices : x₁.slices = slices := hslices
    exact ⟨ft', some s.bid, _, hcarried, ⟨rfl, rfl, TaskLabel.slice_eq_some rfl⟩,
      hslices ▸ .slice hacq hs, fun k => (hframe k).trans (hsame k)⟩

/-- A request ends with the `recv` field of its task. -/
theorem ends {r : PrepResult U} (h : Held r.xio ft qin qout held)
    (hp : ∀ p, r.prep = some p → p.1 < xioXpollMaxTaskCount) (hend : RecvCall.Ends r x') :
    Held x' ft qin qout held ∧ x'.slices = r.xio.slices := by
  rcases hend with ⟨-, rfl⟩ | ⟨p, recv, taskList, hprep, hm, rfl⟩
  · exact ⟨h, rfl⟩
  · obtain ⟨e, he, rfl⟩ := Block.modify_eq_some hm
    exact ⟨h.putTask _ (hp p hprep) he rfl (.inl ⟨rfl, rfl⟩), rfl⟩

/-- What a request does to the labels and to the slices. -/
theorem recv (h : Held x ft qin qout held) {c : RecvCall U} {ret : ℤ}
    (hrun : c.runWith ndebug x = some (ret, x')) :
    ∃ ft' qin' qout' held' slice bid p label, Held x' ft' qin' qout' held' ∧
      c.Labels bid label ∧ c.Takes ndebug x.slices slice bid p ∧
      ((ret = 0 ∧ x'.slices = p ∧ held' + c.dropsLabels ndebug x = held + {label}) ∨
        (ret ≠ 0 ∧ p.GivenBack ndebug slice x'.slices ∧
          held' + c.dropsLabels ndebug x = held)) := by
  obtain ⟨r, hprep, hend, hret⟩ := runWith_prep hrun
  rcases prep_steps hprep with ⟨hno, hnone, hx⟩ | ⟨hs, t, slice, x₁, hbegin, hrun⟩
  · -- Nothing is queued, and no fd state is looked for.
    have hx' : x' = r.xio := by
      rcases hend with ⟨-, hx'⟩ | ⟨p, -, -, hp, -⟩
      · exact hx'
      · rw [hnone] at hp
        cases hp
    have hret : ret ≠ 0 := fun h0 => by
      rw [hnone] at hret
      exact Bool.false_ne_true (hret.mp h0)
    have hdrops : c.dropsLabels ndebug x = 0 := if_neg fun hc => hno hc.1
    rw [hdrops, hx']
    rcases hx with hx | ⟨task, tasks, hacq, hrel⟩
    · exact ⟨ft, qin, qout, held, none, none, x.slices, ⟨some .recv, c.udata, 0, 0⟩, hx ▸ h,
        ⟨rfl, rfl, TaskLabel.slice_eq_none rfl⟩, .own,
        .inr ⟨hret, congrArg Xio.slices hx, add_zero _⟩⟩
    · obtain ⟨ft', -, ht, hheld⟩ := h.acquireTask hacq
      obtain ⟨hheld', hslices⟩ := hheld.release ht hrel
      exact ⟨_, qin, qout, held, none, none, x.slices, ⟨some .recv, c.udata, 0, 0⟩, hheld',
        ⟨rfl, rfl, TaskLabel.slice_eq_none rfl⟩, .own, .inr ⟨hret, hslices, add_zero _⟩⟩
  · obtain ⟨ft', bid, label, hcarried, hlabels, htakes, hframe⟩ := h.begins hbegin
    obtain ⟨held', lost, ⟨ft₂, qin₂, qout₂, hset⟩, hbal, hcase⟩ := hcarried.fdState hrun
    obtain ⟨hst, htab, -⟩ := hbegin.same
    rw [Xio.fdStateFor_congr hst htab, Xio.stateOf, htab, hst] at hcase
    have hdrops : c.dropsLabels ndebug x = lost := by
      rcases hcase with ⟨hno, rfl⟩ | ⟨hyes, k, hfor, hk, rfl⟩
      · exact if_neg fun hc => hno hc.2
      · rw [RecvCall.dropsLabels, if_pos ⟨hs, hyes⟩, hfor, Option.map_some, Option.getD_some,
          h.queues.queued_eq hk, hframe k]
    have hlt : ∀ p, r.prep = some p → p = (t, slice) → p.1 < xioXpollMaxTaskCount :=
      fun p _ hp => hp ▸ hcarried.taken.1
    rcases hset with ⟨hprep, hslices, hheld⟩ | ⟨hprep, hslices, hheld⟩
    · obtain ⟨hfin, hsame⟩ := hheld.ends (fun p hp =>
        hlt p hp (Option.some.inj (hp.symm.trans hprep))) hend
      refine ⟨ft₂, qin₂, qout₂, _, slice, bid, x₁.slices, label, hfin, hlabels, htakes,
        .inl ⟨hret.mpr (hprep ▸ rfl), hsame.trans hslices, ?_⟩⟩
      rw [hdrops, add_right_comm, hbal]
    · obtain ⟨hfin, hsame⟩ := hheld.ends (fun p hp => by
        rw [hprep] at hp
        cases hp) hend
      refine ⟨ft₂, qin₂, qout₂, _, slice, bid, x₁.slices, label, hfin, hlabels, htakes,
        .inr ⟨fun h0 => ?_, hsame ▸ hslices, hdrops ▸ hbal⟩⟩
      rw [hprep] at hret
      exact Bool.false_ne_true (hret.mp h0)

/-- What a wait does to the labels and to the slices. -/
theorem wait (h : Held x ft qin qout held) {maxResults : ℕ} {events : List (BitVec 32 × ℕ)}
    (hev : ∀ e ∈ events, e.2 < xioXpollMaxTaskCount) {ret : ℤ} {results : List (XioResult U)}
    (hrun : fhXioWait ndebug x maxResults (some events) = some (ret, results, x')) :
    ∃ ft' qin' qout' held', Held x' ft' qin' qout' held' ∧ x'.slices = x.slices ∧
      held' + x.tasks.labels (drained (waitRoom maxResults) (errored events) x.queued) = held ∧
      results.map some
        = (drained (waitRoom maxResults) (errored events) x.queued).map x.tasks.errorResult := by
  obtain ⟨results', tasks, states, qin', qout', hwait, h', hq', -, hlist, hsame, hres⟩ :=
    h.queues.fhXioWait_eq ndebug maxResults hev
  obtain ⟨-, he⟩ := Prod.mk.inj (Option.some.inj (hrun.symm.trans hwait))
  obtain ⟨rfl, rfl⟩ := Prod.mk.inj he
  have hrange : ∀ k ∈ errored events, k ∈ Finset.range xioXpollMaxTaskCount := fun k hk => by
    obtain ⟨mask, hm, -⟩ := mem_errored.mp hk
    exact Finset.mem_range.mpr (hev _ hm)
  have hqueued : drained (waitRoom maxResults) (errored events) x.queued
      = drained (waitRoom maxResults) (errored events) fun k => qin k ++ qout k :=
    drained_congr (fun k hk => h.queues.queued_eq (Finset.mem_range.mp (hrange k hk))) _
  have hlabels : tasks.labels = x.tasks.labels := by
    funext l
    exact TaskPool.labels_congr fun t _ => congrFun (TaskPool.label_congr hlist) t
  rw [hqueued]
  refine ⟨_, qin', qout', _, ⟨h', hsame.1.trans h.states_size, rfl⟩, rfl, ?_, hres⟩
  rw [add_comm, ← h.sum_eq, ← add_drained (TaskPool.labels_nil x.tasks) x.tasks.labels_append
    hrange (waitRoom maxResults)]
  refine congrArg _ (Finset.sum_congr rfl fun k _ => ?_)
  rw [← hq' k]
  exact congrFun hlabels _

/-- Nothing is queued in a fresh backend. -/
theorem create {calloc xpoll : Bool} {table : CreateAlloc} {mmap : Option ℕ}
    (h : fhXioCreate calloc xpoll table mmap = some (some x)) :
    ∃ ft qin qout, Held x ft qin qout 0 := by
  have hinv := fhXioCreate_inv h
  refine ⟨_, _, _, hinv.queues, hinv.states.size_eq, ?_⟩
  exact Finset.sum_eq_zero fun k _ => rfl

end Held

end Freehttpd
