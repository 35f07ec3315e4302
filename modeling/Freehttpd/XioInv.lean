/-
The invariant of the xpoll backend.

`Xio.Inv x ft fs q m` relates the pools of `x` to ghosts: the free tasks `ft`,
the free fd states `fs`, the queue `q k` of every fd state and the contents `m`
of the fd-state table.  No task is in two places.  A task that was taken and a
fd state that was taken are simply in none, so the invariant holds in the middle
of a request as well:

* `Inv.acquireTask`, `Inv.releaseTask`, `Inv.acquireFdState`,
  `Inv.releaseFdState` — the pools;
* `Inv.putTask`, `Inv.putState` — writes to a task and to a fd state;
* `Inv.queue_eq` — the queues are what following the links gives;
* `Inv.length_entries_le` — the table cannot fill up: an entry has a fd state of
  its own, or belongs to a descriptor that is not negative.
-/
import Freehttpd.Chains
import Freehttpd.HtableMap
import Freehttpd.XioSlices

namespace Freehttpd

variable {U : Type}

/-! ### What a state holds -/

/-- The head of a queue. -/
def XioPrepType.head : XioPrepType → XioFdState → Option ℕ
  | prepIn, s => s.taskInHead
  | prepOut, s => s.taskOutHead

/-- The tasks queued on fd state `k`. -/
def Xio.queue (x : Xio U) (prepType : XioPrepType) (k : ℕ) : Option (List ℕ) := do
  let s ← x.fdStates.fdStateList.read k
  follow (taskNext x.tasks) xioXpollMaxTaskCount (prepType.head s)

/-- The fd state that the table has for `fd`. -/
def Xio.stateOf (x : Xio U) (fd : BitVec 32) : Option ℕ :=
  (htableGet x.fdStateTable (fdKey fd)).join

/-! ### The pools of tasks and of fd states -/

/-- The pool is well formed, and its free list holds `free`. -/
structure TaskPool.Wf (p : TaskPool U) (free : List ℕ) : Prop where
  stack : p.freeTaskList.IsStack p.freeTaskListTop xioXpollMaxTaskCount free
  task : ∀ t < xioXpollMaxTaskCount, ∃ e, p.taskList.read t = some e ∧ e.idx = t

/-- The pool is well formed, and its free list holds `free`.  No request of the
source queues a task for output. -/
structure FdStatePool.Wf (p : FdStatePool) (free : List ℕ) : Prop where
  size_eq : p.fdStateList.size = xioXpollMaxTaskCount
  stack : p.freeFdStateList.IsStack p.freeFdStateListTop xioXpollMaxTaskCount free
  state : ∀ k < xioXpollMaxTaskCount, ∃ s, p.fdStateList.read k = some s ∧ s.idx = k ∧
    s.taskOutHead = none

theorem initTasks_wf :
    (initTasks : TaskPool U).Wf ((List.range xioXpollMaxTaskCount).map id) where
  stack := Block.IsStack.tabulate _ _
  task _ ht := ⟨_, Block.read_tabulate _ ht, rfl⟩

theorem initFdStates_wf : initFdStates.Wf ((List.range xioXpollMaxTaskCount).map id) where
  size_eq := Block.size_tabulate _ _
  stack := Block.IsStack.tabulate _ _
  state _ hk := ⟨_, Block.read_tabulate _ hk, rfl, rfl⟩

/-- Writing a task keeps the pool well formed. -/
theorem TaskPool.Wf.put {p : TaskPool U} {free : List ℕ} (h : p.Wf free) {t : ℕ}
    {e : XioTask U} (ht : t < xioXpollMaxTaskCount) (he : e.idx = t) :
    { p with taskList := p.taskList.put t e }.Wf free where
  stack := h.stack
  task t' ht' := by
    obtain ⟨e₀, he₀, -⟩ := h.task t ht
    rw [Block.read_put _ (Block.lt_of_read he₀)]
    split
    · rename_i htt
      exact ⟨e, rfl, he.trans htt⟩
    · exact h.task t' ht'

/-- Writing a fd state keeps the pool well formed. -/
theorem FdStatePool.Wf.put {p : FdStatePool} {free : List ℕ} (h : p.Wf free) {k : ℕ}
    {s : XioFdState} (hk : k < xioXpollMaxTaskCount) (hs : s.idx = k)
    (hout : s.taskOutHead = none) :
    { p with fdStateList := p.fdStateList.put k s }.Wf free where
  size_eq := by rw [Block.size_put, h.size_eq]
  stack := h.stack
  state k' hk' := by
    obtain ⟨s₀, hs₀, -⟩ := h.state k hk
    rw [Block.read_put _ (Block.lt_of_read hs₀)]
    split
    · rename_i hkk
      exact ⟨s, rfl, hs.trans hkk, hout⟩
    · exact h.state k' hk'

/-! ### The invariant -/

/-- No task is in two places: the free list `ft` and the queues `q k`. -/
structure TasksApart (ft : List ℕ) (q : ℕ → List ℕ) : Prop where
  free_nodup : ft.Nodup
  free_lt : ∀ t ∈ ft, t < xioXpollMaxTaskCount
  queue_nodup : ∀ k, (q k).Nodup
  queue_lt : ∀ k, ∀ t ∈ q k, t < xioXpollMaxTaskCount
  not_free : ∀ k, ∀ t ∈ q k, t ∉ ft
  inj : ∀ k k' t, t ∈ q k → t ∈ q k' → k = k'

/-- A task in none of these places. -/
def Taken (ft : List ℕ) (q : ℕ → List ℕ) (t : ℕ) : Prop :=
  t < xioXpollMaxTaskCount ∧ t ∉ ft ∧ ∀ k, t ∉ q k

namespace TasksApart

variable {ft : List ℕ} {q : ℕ → List ℕ} {t : ℕ}

theorem length_lt (h : TasksApart ft q) (ht : Taken ft q t) :
    ft.length < xioXpollMaxTaskCount := by
  have hsub : (t :: ft) ⊆ List.range xioXpollMaxTaskCount := fun a ha => by
    rw [List.mem_range]
    rcases List.mem_cons.mp ha with rfl | ha
    · exact ht.1
    · exact h.free_lt a ha
  have hnd : (t :: ft).Nodup := List.nodup_cons.mpr ⟨ht.2.1, h.free_nodup⟩
  have hlen := (List.subperm_of_subset hnd hsub).length_le
  rw [List.length_range, List.length_cons] at hlen
  omega

/-- The last of the free tasks is taken. -/
theorem take (h : TasksApart (ft ++ [t]) q) : TasksApart ft q ∧ Taken ft q t := by
  have hnd := List.nodup_append.mp h.free_nodup
  refine ⟨{ h with
    free_nodup := hnd.1
    free_lt := fun a ha => h.free_lt a (List.mem_append_left _ ha)
    not_free := fun k a ha hm => h.not_free k a ha (List.mem_append_left _ hm) }, ?_, ?_, ?_⟩
  · exact h.free_lt t (by simp)
  · exact fun hm => hnd.2.2 t hm t (by simp) rfl
  · exact fun k hm => h.not_free k t hm (by simp)

/-- A taken task is given back. -/
theorem give (h : TasksApart ft q) (ht : Taken ft q t) : TasksApart (ft ++ [t]) q where
  free_nodup := List.nodup_append.mpr ⟨h.free_nodup, List.nodup_singleton t, fun a ha b hb he =>
    ht.2.1 (by rw [List.mem_singleton.mp hb] at he; exact he ▸ ha)⟩
  free_lt a ha := by
    rcases List.mem_append.mp ha with ha | ha
    · exact h.free_lt a ha
    · rw [List.mem_singleton.mp ha]
      exact ht.1
  queue_nodup := h.queue_nodup
  queue_lt := h.queue_lt
  not_free k a ha hm := by
    rcases List.mem_append.mp hm with hm | hm
    · exact h.not_free k a ha hm
    · rw [List.mem_singleton.mp hm] at ha
      exact ht.2.2 k ha
  inj := h.inj

/-- A queue is replaced by a part of it. -/
theorem update (h : TasksApart ft q) (k : ℕ) {l : List ℕ} (hl : l.Sublist (q k)) :
    TasksApart ft (Function.update q k l) := by
  have hmem : ∀ k' a, a ∈ Function.update q k l k' → a ∈ q k' := fun k' a ha => by
    rcases eq_or_ne k' k with rfl | hne
    · rw [Function.update_self] at ha
      exact hl.mem ha
    · rwa [Function.update_of_ne hne] at ha
  refine
    { free_nodup := h.free_nodup
      free_lt := h.free_lt
      queue_nodup := fun k' => ?_
      queue_lt := fun k' a ha => h.queue_lt k' a (hmem k' a ha)
      not_free := fun k' a ha => h.not_free k' a (hmem k' a ha)
      inj := fun k₁ k₂ a h₁ h₂ => h.inj k₁ k₂ a (hmem _ _ h₁) (hmem _ _ h₂) }
  rcases eq_or_ne k' k with rfl | hne
  · rw [Function.update_self]
    exact hl.nodup (h.queue_nodup _)
  · rw [Function.update_of_ne hne]
    exact h.queue_nodup k'

/-- A taken task becomes the head of a queue. -/
theorem enqueue (h : TasksApart ft q) (ht : Taken ft q t) (k : ℕ) :
    TasksApart ft (Function.update q k (t :: q k)) := by
  have hmem : ∀ k' a, a ∈ Function.update q k (t :: q k) k' ↔ (k' = k ∧ a = t) ∨ a ∈ q k' :=
    fun k' a => by
      rcases eq_or_ne k' k with rfl | hne
      · rw [Function.update_self, List.mem_cons]
        simp
      · rw [Function.update_of_ne hne]
        simp [hne]
  refine
    { free_nodup := h.free_nodup
      free_lt := h.free_lt
      queue_nodup := fun k' => ?_
      queue_lt := fun k' a ha => ?_
      not_free := fun k' a ha => ?_
      inj := fun k₁ k₂ a h₁ h₂ => ?_ }
  · rcases eq_or_ne k' k with rfl | hne
    · rw [Function.update_self]
      exact List.nodup_cons.mpr ⟨ht.2.2 _, h.queue_nodup _⟩
    · rw [Function.update_of_ne hne]
      exact h.queue_nodup k'
  · rcases (hmem k' a).mp ha with ⟨-, rfl⟩ | ha
    · exact ht.1
    · exact h.queue_lt k' a ha
  · rcases (hmem k' a).mp ha with ⟨-, rfl⟩ | ha
    · exact ht.2.1
    · exact h.not_free k' a ha
  · rcases (hmem k₁ a).mp h₁ with ⟨hk₁, rfl⟩ | h₁ <;> rcases (hmem k₂ a).mp h₂ with ⟨hk₂, he⟩ | h₂
    · rw [hk₁, hk₂]
    · exact absurd h₂ (ht.2.2 k₂)
    · exact absurd (he ▸ h₁) (ht.2.2 k₁)
    · exact h.inj k₁ k₂ a h₁ h₂

end TasksApart

/-- `fh_xio_release_task` gives a taken task back. -/
theorem TaskPool.Wf.release {p : TaskPool U} {ft : List ℕ} {q : ℕ → List ℕ} (h : p.Wf ft)
    (ndebug : Bool) (hapart : TasksApart ft q) {t : ℕ} (ht : Taken ft q t) :
    ∃ p', fhXioReleaseTask ndebug p t = some p' ∧ p'.taskList = p.taskList ∧
      p'.Wf (ft ++ [t]) := by
  have htop : p.freeTaskListTop < xioXpollMaxTaskCount := by
    rw [← h.stack.length_eq]
    exact hapart.length_lt ht
  obtain ⟨e, he, hidx⟩ := h.task t ht.1
  have htop16 : u16 (p.freeTaskListTop + 1) = p.freeTaskListTop + 1 :=
    u16_of_lt (by rw [xioXpollMaxTaskCount] at htop; omega)
  refine ⟨{ p with
      freeTaskList := p.freeTaskList.put p.freeTaskListTop t
      freeTaskListTop := p.freeTaskListTop + 1 }, ?_, rfl, ⟨h.stack.push t htop, h.task⟩⟩
  rw [fhXioReleaseTask]
  simp only [cAssert_of htop, he, hidx, htop16, Option.bind_eq_bind, Option.bind_some]
  rw [Block.write_of_lt _ (by rw [h.stack.size_eq]; exact htop)]
  rfl

/-- What is known of an entry of the fd-state table: it maps a descriptor to a
fd state, and a negative descriptor still owns it. -/
def EntryOk (fs : List ℕ) (states : Block XioFdState) (p : IntKey × Option ℕ) : Prop :=
  ∃ fd k, p = (fdKey fd, some k) ∧ k < xioXpollMaxTaskCount ∧
    (fd.msb = true → k ∉ fs ∧ ∃ s, states.read k = some s ∧ s.fd = fd)

/-- The invariant; see the head of this file. -/
structure Xio.Inv (x : Xio U) (ft fs : List ℕ) (q : ℕ → List ℕ)
    (m : List (IntKey × Option ℕ)) : Prop where
  slices : ∃ free, x.slices.Wf free
  tasks : x.tasks.Wf ft
  apart : TasksApart ft q
  states : x.fdStates.Wf fs
  states_nodup : fs.Nodup
  states_lt : ∀ k ∈ fs, k < xioXpollMaxTaskCount
  chained : ∀ k < xioXpollMaxTaskCount, ∀ s, x.fdStates.fdStateList.read k = some s →
    Chained (taskNext x.tasks) s.taskInHead (q k)
  table : MapOf x.fdStateTable m
  next_le : x.fdStateTable.entryNextInsert ≤ 2 ^ 31 + xioXpollMaxTaskCount + 1
  entries : ∀ p ∈ m, EntryOk fs x.fdStates.fdStateList p

namespace Xio.Inv

variable {x : Xio U} {ft fs : List ℕ} {q : ℕ → List ℕ} {m : List (IntKey × Option ℕ)}

/-! ### Tasks -/

/-- `fh_xio_acquire_task` fails on an empty pool and takes the last free task
otherwise. -/
theorem acquireTask (h : x.Inv ft fs q m) (hne : x.tasks.freeTaskListTop ≠ 0) :
    ∃ t ft', ft = ft' ++ [t] ∧ fhXioAcquireTask x.tasks
        = some (some (t, { x.tasks with freeTaskListTop := x.tasks.freeTaskListTop - 1 })) ∧
      Taken ft' q t ∧
      { x with
        tasks := { x.tasks with freeTaskListTop := x.tasks.freeTaskListTop - 1 } }.Inv
          ft' fs q m := by
  obtain ⟨ft', t, rfl, hread, hstack⟩ := h.tasks.stack.pop hne
  obtain ⟨hapart, ht⟩ := h.apart.take
  refine ⟨t, ft', rfl, ?_, ht, { h with tasks := ⟨hstack, h.tasks.task⟩, apart := hapart }⟩
  rw [fhXioAcquireTask, if_neg hne, hread]
  rfl

/-- `fh_xio_release_task` gives a taken task back. -/
theorem releaseTask (h : x.Inv ft fs q m) (ndebug : Bool) {t : ℕ} (ht : Taken ft q t) :
    ∃ p, fhXioReleaseTask ndebug x.tasks t = some p ∧
      { x with tasks := p }.Inv (ft ++ [t]) fs q m := by
  obtain ⟨p, hp, htasks, hwf⟩ := h.tasks.release ndebug h.apart ht
  refine ⟨p, hp, { h with tasks := hwf, apart := h.apart.give ht, chained := fun k hk s hs => ?_ }⟩
  exact (h.chained k hk s hs).congr fun a _ => by rw [taskNext, taskNext, htasks]

/-- Writing a task that is in no queue keeps the invariant, and so does writing
the fields of any other that are not its link. -/
theorem putTask (h : x.Inv ft fs q m) (e' : XioTask U) {t : ℕ} (ht : t < xioXpollMaxTaskCount)
    {e : XioTask U} (he : x.tasks.taskList.read t = some e) (hidx : e'.idx = e.idx)
    (hnext : e'.next = e.next ∨ ∀ k, t ∉ q k) :
    { x with tasks := { x.tasks with taskList := x.tasks.taskList.put t e' } }.Inv ft fs q m := by
  obtain ⟨e₀, he₀, hidx₀⟩ := h.tasks.task t ht
  rw [he, Option.some_inj] at he₀
  refine
    { h with
      tasks := h.tasks.put ht (by rw [hidx, he₀, hidx₀])
      chained := fun k hk s hs => (h.chained k hk s hs).congr fun a ha => ?_ }
  rw [taskNext, taskNext]
  simp only [Block.read_put _ (Block.lt_of_read he)]
  split
  · rename_i hta
    rcases hnext with hnext | hnext
    · rw [← hta, he, Option.map_some, Option.map_some, hnext]
    · exact absurd (hta ▸ ha) (hnext k)
  · rfl

/-! ### Fd states -/

/-- `fh_xio_acquire_fd_state` takes the last free fd state. -/
theorem acquireFdState (h : x.Inv ft fs q m) (hne : x.fdStates.freeFdStateListTop ≠ 0) :
    ∃ k fs', fs = fs' ++ [k] ∧
      x.fdStates.freeFdStateList.read (x.fdStates.freeFdStateListTop - 1) = some k ∧
      fhXioAcquireFdState x.fdStates = some (some (k,
        { x.fdStates with freeFdStateListTop := x.fdStates.freeFdStateListTop - 1 })) ∧
      k < xioXpollMaxTaskCount ∧ k ∉ fs' ∧
      { x with
        fdStates :=
          { x.fdStates with freeFdStateListTop := x.fdStates.freeFdStateListTop - 1 } }.Inv
        ft fs' q m := by
  obtain ⟨fs', k, rfl, hread, hstack⟩ := h.states.stack.pop hne
  have hnd := List.nodup_append.mp h.states_nodup
  refine ⟨k, fs', rfl, hread, ?_, h.states_lt k (by simp),
    fun hm => hnd.2.2 k hm k (by simp) rfl,
    { h with
      states := ⟨h.states.size_eq, hstack, h.states.state⟩
      states_nodup := hnd.1
      states_lt := fun a ha => h.states_lt a (List.mem_append_left _ ha)
      entries := fun p hp => ?_ }⟩
  · rw [fhXioAcquireFdState, if_neg hne, hread]
    rfl
  · obtain ⟨fd, k', he, hk', hneg⟩ := h.entries p hp
    exact ⟨fd, k', he, hk', fun hf => ⟨fun hm => (hneg hf).1 (List.mem_append_left _ hm),
      (hneg hf).2⟩⟩

/-- `fh_xio_release_fd_state` gives a taken fd state back, if it belongs to a
descriptor that is not negative. -/
theorem releaseFdState (h : x.Inv ft fs q m) (ndebug : Bool) {k : ℕ}
    (hk : k < xioXpollMaxTaskCount) (hkf : k ∉ fs) {s : XioFdState}
    (hs : x.fdStates.fdStateList.read k = some s) (hfd : s.fd.msb = false) :
    ∃ p, fhXioReleaseFdState ndebug x.fdStates k = some p ∧
      p.fdStateList = x.fdStates.fdStateList ∧
      { x with fdStates := p }.Inv ft (fs ++ [k]) q m := by
  have hsub : (k :: fs) ⊆ List.range xioXpollMaxTaskCount := fun a ha => by
    rw [List.mem_range]
    rcases List.mem_cons.mp ha with rfl | ha
    · exact hk
    · exact h.states_lt a ha
  have hlen := (List.subperm_of_subset (List.nodup_cons.mpr ⟨hkf, h.states_nodup⟩)
    hsub).length_le
  rw [List.length_range, List.length_cons, h.states.stack.length_eq] at hlen
  have htop16 : u16 (x.fdStates.freeFdStateListTop + 1) = x.fdStates.freeFdStateListTop + 1 :=
    u16_of_lt (by rw [xioXpollMaxTaskCount] at hlen; omega)
  obtain ⟨s', hs', hidx, hout⟩ := h.states.state k hk
  rw [hs, Option.some_inj] at hs'
  rw [← hs'] at hidx
  refine ⟨{ x.fdStates with
      freeFdStateList := x.fdStates.freeFdStateList.put x.fdStates.freeFdStateListTop k
      freeFdStateListTop := x.fdStates.freeFdStateListTop + 1 }, ?_, rfl,
    { h with
      states := ⟨h.states.size_eq, h.states.stack.push k (by omega), h.states.state⟩
      states_nodup := List.nodup_append.mpr ⟨h.states_nodup, List.nodup_singleton k,
        fun a ha b hb he => hkf (by rw [List.mem_singleton.mp hb] at he; exact he ▸ ha)⟩
      states_lt := fun a ha => ?_
      entries := fun p hp => ?_ }⟩
  · rw [fhXioReleaseFdState]
    simp only [cAssert_of (show x.fdStates.freeFdStateListTop < xioXpollMaxTaskCount by omega), hs,
      hidx, htop16, Option.bind_eq_bind, Option.bind_some]
    rw [Block.write_of_lt _ (by rw [h.states.stack.size_eq]; omega)]
    rfl
  · rcases List.mem_append.mp ha with ha | ha
    · exact h.states_lt a ha
    · rw [List.mem_singleton.mp ha]
      exact hk
  · obtain ⟨fd, k', he, hk', hneg⟩ := h.entries p hp
    refine ⟨fd, k', he, hk', fun hf => ?_⟩
    obtain ⟨hfree, s'', hs'', hsfd⟩ := hneg hf
    refine ⟨fun hm => ?_, s'', hs'', hsfd⟩
    rcases List.mem_append.mp hm with hm | hm
    · exact hfree hm
    · -- The released state belongs to a descriptor that is not negative.
      rw [List.mem_singleton.mp hm, hs, Option.some_inj] at hs''
      rw [hs'', hsfd, hf] at hfd
      exact Bool.noConfusion hfd

/-- Writing a fd state, with the queue that its new head starts; the free list of
the tasks may change as well. -/
theorem putState (h : x.Inv ft fs q m) (s' : XioFdState) {k : ℕ}
    (hk : k < xioXpollMaxTaskCount) {s : XioFdState}
    (hs : x.fdStates.fdStateList.read k = some s) (hidx : s'.idx = s.idx)
    (hout : s'.taskOutHead = none) {l : List ℕ} (hl : Chained (taskNext x.tasks) s'.taskInHead l)
    {tasks : TaskPool U} {ft' : List ℕ} (hlist : tasks.taskList = x.tasks.taskList)
    (htasks : tasks.Wf ft') (hapart : TasksApart ft' (Function.update q k l))
    (hfd : s'.fd = s.fd ∨ ∀ fd, (fdKey fd, some k) ∈ m → fd.msb = false) :
    { x with
      tasks := tasks
      fdStates := { x.fdStates with fdStateList := x.fdStates.fdStateList.put k s' } }.Inv
      ft' fs (Function.update q k l) m := by
  have hnext : taskNext tasks = taskNext x.tasks := by
    funext t
    rw [taskNext, taskNext, hlist]
  obtain ⟨s₀, hs₀, hidx₀, -⟩ := h.states.state k hk
  rw [hs, Option.some_inj] at hs₀
  have hread : ∀ k', (x.fdStates.fdStateList.put k s').read k'
      = if k = k' then some s' else x.fdStates.fdStateList.read k' :=
    Block.read_put _ (Block.lt_of_read hs)
  refine
    { h with
      tasks := htasks
      apart := hapart
      states := h.states.put hk (by rw [hidx, hs₀, hidx₀]) hout
      chained := fun k' hk' s'' hs'' => ?_
      entries := fun p hp => ?_ }
  · -- The queue of `k` is the new one.
    simp only [hread] at hs''
    show Chained (taskNext tasks) _ _
    rw [hnext]
    split at hs''
    · rename_i hkk
      rw [← hkk, Function.update_self, ← Option.some.inj hs'']
      exact hl
    · rename_i hkk
      rw [Function.update_of_ne (Ne.symm hkk)]
      exact h.chained k' hk' s'' hs''
  · -- A negative descriptor in the table still has a fd state that names it.
    obtain ⟨fd, k', rfl, hk', hneg⟩ := h.entries p hp
    refine ⟨fd, k', rfl, hk', fun hf => ⟨(hneg hf).1, ?_⟩⟩
    obtain ⟨-, s'', hs'', hsfd⟩ := hneg hf
    simp only [hread]
    split
    · rename_i hkk
      rw [← hkk, hs, Option.some_inj] at hs''
      rcases hfd with hfd | hfd
      · exact ⟨s', rfl, by rw [hfd, hs'', hsfd]⟩
      · rw [hfd fd (hkk ▸ hp)] at hf
        exact Bool.noConfusion hf
    · exact ⟨s'', hs'', hsfd⟩

/-! ### Queues -/

theorem queue_in (h : x.Inv ft fs q m) {k : ℕ} (hk : k < xioXpollMaxTaskCount) :
    x.queue .prepIn k = some (q k) := by
  obtain ⟨s, hs, -⟩ := h.states.state k hk
  have hsub : q k ⊆ List.range xioXpollMaxTaskCount := fun a ha =>
    List.mem_range.mpr (h.apart.queue_lt k a ha)
  have hlen := (List.subperm_of_subset (h.apart.queue_nodup k) hsub).length_le
  rw [List.length_range] at hlen
  rw [Xio.queue, hs]
  exact (h.chained k hk s hs).follow_eq hlen

theorem queue_out (h : x.Inv ft fs q m) {k : ℕ} (hk : k < xioXpollMaxTaskCount) :
    x.queue .prepOut k = some [] := by
  obtain ⟨s, hs, -, hout⟩ := h.states.state k hk
  rw [Xio.queue, hs]
  simp only [Option.bind_eq_bind, Option.bind_some, XioPrepType.head, hout]
  rfl

theorem queue_of_le (h : x.Inv ft fs q m) {k : ℕ} (hk : xioXpollMaxTaskCount ≤ k)
    (prepType : XioPrepType) : x.queue prepType k = none := by
  have hread : x.fdStates.fdStateList.read k = none := by
    cases hr : x.fdStates.fdStateList.read k with
    | none => rfl
    | some s =>
      have hlt := Block.lt_of_read hr
      rw [h.states.size_eq] at hlt
      omega
  rw [Xio.queue, hread]
  rfl

/-- The queues are those of the ghosts, in any two states. -/
theorem queue_congr (h : x.Inv ft fs q m) {x' : Xio U} {ft' fs' : List ℕ} {q' : ℕ → List ℕ}
    {m' : List (IntKey × Option ℕ)} (h' : x'.Inv ft' fs' q' m') {prepType : XioPrepType} {k : ℕ}
    (hq : prepType = .prepIn → q' k = q k) : x'.queue prepType k = x.queue prepType k := by
  rcases Nat.lt_or_ge k xioXpollMaxTaskCount with hk | hk
  · cases prepType with
    | prepIn => rw [h.queue_in hk, h'.queue_in hk, hq rfl]
    | prepOut => rw [h.queue_out hk, h'.queue_out hk]
  · rw [h.queue_of_le hk, h'.queue_of_le hk]

/-! ### The table -/

theorem stateOf_eq (h : x.Inv ft fs q m) (fd : BitVec 32) :
    x.stateOf fd = (Assoc.get m (fdKey fd)).join := by
  rw [Xio.stateOf, h.table.get_eq]
  rfl

end Xio.Inv

theorem fdKey_inj {fd fd' : BitVec 32} (h : fdKey fd = fdKey fd') : fd = fd' := by
  have h' : fd.signExtend 64 = fd'.signExtend 64 := by
    have h' := congrArg (fun k => k.key.toBitVec) h
    simpa [fdKey] using h'
  have hint := congrArg BitVec.toInt h'
  rw [BitVec.toInt_signExtend_of_le (by decide), BitVec.toInt_signExtend_of_le (by decide)] at hint
  exact BitVec.eq_of_toInt_eq hint

namespace Xio.Inv

variable {x : Xio U} {ft fs : List ℕ} {q : ℕ → List ℕ} {m : List (IntKey × Option ℕ)}

/-- A descriptor in the table has a fd state. -/
theorem get_eq_some (h : x.Inv ft fs q m) {fd : BitVec 32} {d : Option ℕ}
    (hget : Assoc.get m (fdKey fd) = some d) :
    ∃ k, d = some k ∧ k < xioXpollMaxTaskCount := by
  obtain ⟨p, hp, -, rfl⟩ := (Assoc.get_eq_some_iff h.table.distinct).mp hget
  obtain ⟨_, k, rfl, hk, -⟩ := h.entries p hp
  exact ⟨k, rfl, hk⟩

/-- The table cannot fill up: send an entry to its descriptor, or to its fd state
where the descriptor is negative. -/
theorem length_entries_le (h : x.Inv ft fs q m) :
    m.length ≤ 2 ^ 31 + xioXpollMaxTaskCount := by
  refine h.table.distinct.length_le
    (R := fun p n => ∃ fd k, p = (fdKey fd, some k) ∧
      n = if fd.msb then 2 ^ 31 + k else fd.toNat) (fun p hp => ?_) fun p hp p' hp' n hn hn' => ?_
  · obtain ⟨fd, k, he, hk, -⟩ := h.entries p hp
    refine ⟨_, ?_, fd, k, he, rfl⟩
    split
    · omega
    · rename_i hf
      have hlt := BitVec.toNat_lt_of_msb_false (Bool.not_eq_true _ ▸ hf)
      omega
  · obtain ⟨fd, k, rfl, rfl⟩ := hn
    obtain ⟨fd', k', rfl, he⟩ := hn'
    rw [beq_iff_eq]
    show fdKey fd = fdKey fd'
    cases hf : fd.msb <;> cases hf' : fd'.msb <;>
      simp only [hf, hf', if_true, if_false, Bool.false_eq_true] at he
    · rw [BitVec.eq_of_toNat_eq he]
    · have hlt := BitVec.toNat_lt_of_msb_false hf
      omega
    · have hlt := BitVec.toNat_lt_of_msb_false hf'
      omega
    · -- Both own the same fd state, which holds their descriptor.
      obtain ⟨fd₁, k₁, he₁, -, hneg⟩ := h.entries _ hp
      obtain ⟨fd₂, k₂, he₂, -, hneg'⟩ := h.entries _ hp'
      obtain ⟨hfd₁, hk₁⟩ := Prod.mk.inj he₁
      obtain ⟨hfd₂, hk₂⟩ := Prod.mk.inj he₂
      rw [← fdKey_inj hfd₁, ← Option.some.inj hk₁] at hneg
      rw [← fdKey_inj hfd₂, ← Option.some.inj hk₂] at hneg'
      obtain ⟨s, hs, hsfd⟩ := (hneg hf).2
      obtain ⟨s', hs', hsfd'⟩ := (hneg' hf').2
      rw [show k = k' by omega, hs', Option.some_inj] at hs
      rw [← hsfd, ← hsfd', hs]

end Xio.Inv

end Freehttpd
