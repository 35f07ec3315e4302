/-
A request on the xpoll backend, step by step.

Each lemma says what one part of `fh_xio_request_prep_with_size` does to a state
that satisfies the invariant, with the task in hand:

* `Inv.prepRelease` — the release of the task and of the slice;
* `Inv.prepQueue` — the task becomes the head of its queue;
* `Inv.prepCreate` — a fresh fd state enters the table;
* `Inv.prepRegister_of_not`, `Inv.prepRegister_of_modifies`,
  `Inv.prepRegister_of_adds` — the task is queued, unless the call to `xpoll` returns
  `true`, which the source takes for an error;
* `Inv.prepFdState_of_none`, `Inv.prepFdState_of_known`, `Inv.prepFdState_of_passes`,
  `Inv.prepFdState_of_new`, `Inv.prepFdState_of_some` — all of this together, with the
  condition `PrepEnv.GoesThrough` under which the task is queued.
-/
import Freehttpd.XioInv

namespace Freehttpd

variable {U : Type}

/-- `fd` is registered for `XPOLL_READ`, with fd state `k` as its `udata`. -/
def Xio.ReadRegistered (x : Xio U) (fd : BitVec 32) (k : ℕ) : Prop :=
  ∃ events, Assoc.get x.xp fd = some (events, k) ∧ events &&& Epoll.xpollRead = Epoll.xpollRead

/-- The call to `xpoll` succeeds: `xpoll_add_fd` for a created fd state,
`xpoll_modify_fd` otherwise. -/
def PrepEnv.Registers (env : PrepEnv) (fd : BitVec 32) : Prop :=
  env.xpollRet = true ∧ fd.msb = false

instance (env : PrepEnv) (fd : BitVec 32) : Decidable (env.Registers fd) :=
  inferInstanceAs (Decidable (_ ∧ _))

/-- The call to `xpoll` registers the descriptor, or does nothing. -/
theorem register_eq (env : PrepEnv) (xp : Registrations) (fd : BitVec 32) (created : Bool)
    (k : ℕ) (events : BitVec 32) :
    (if created then xpAddFd env.xpollRet xp fd k events
      else xpModifyFd env.xpollRet xp fd k events)
      = if env.Registers fd then (true, Assoc.set xp fd (events, k)) else (false, xp) := by
  cases created <;> rfl

/-- The events that a fd state is set up with. -/
def setupEvents : BitVec 32 := Epoll.xpollEdge ||| Epoll.xpollReadHangup ||| Epoll.xpollHangup

/-- The removal of a fd state that the call created has memory for the deleted list. -/
def PrepEnv.Removes (env : PrepEnv) (x : Xio U) : Prop :=
  env.htGrow = true ∨ 0 < x.fdStateTable.deletedCapacity

instance (env : PrepEnv) (x : Xio U) : Decidable (env.Removes x) :=
  inferInstanceAs (Decidable (_ ∨ _))

/-- The slice, if there is one, may be given back. -/
def SlicePool.Releasable (p : SlicePool) (slice : Option ℕ) : Prop :=
  ∀ b ∈ slice, p.freeBufListTop < xioBufCount ∧ ∃ s, p.bufList.read b = some s ∧ 0 < s.refs

/-- The release of the slice, if there is one. -/
def SlicePool.giveBack (p : SlicePool) : Option ℕ → Option SlicePool
  | none => some p
  | some b => fhXioReleaseSlice false p b

theorem SlicePool.releasable_none (p : SlicePool) : p.Releasable none := by
  simp [Releasable]

theorem SlicePool.releasable_some {p : SlicePool} {b : ℕ} {s : XioSlice}
    (hs : p.bufList.read b = some s) :
    p.Releasable (some b) ↔ p.freeBufListTop < xioBufCount ∧ 0 < s.refs := by
  simp [Releasable, hs]

/-- What a queued task keeps of its fields. -/
def XioTask.Same (e e' : XioTask U) : Prop :=
  e'.op = e.op ∧ e'.udata = e.udata

namespace Xio.Inv

variable {x : Xio U} {ft fs : List ℕ} {q : ℕ → List ℕ} {m : List (IntKey × Option ℕ)}

/-- The release on the error paths fails only in `fh_xio_release_slice`. -/
theorem prepRelease (h : x.Inv ft fs q m) {t : ℕ} (ht : Taken ft q t) {slice : Option ℕ}
    (hslice : ∀ b ∈ slice, b < xioBufCount) :
    (¬ x.slices.Releasable slice ∧ prepRelease false x t slice = none) ∨
    (x.slices.Releasable slice ∧ ∃ x', prepRelease false x t slice = some x' ∧
      x'.Inv (ft ++ [t]) fs q m ∧ x'.xp = x.xp ∧ x'.fdStates = x.fdStates ∧
      x.slices.giveBack slice = some x'.slices) := by
  obtain ⟨p, hp, hinv⟩ := h.releaseTask false ht
  cases slice with
  | none =>
    refine .inr ⟨x.slices.releasable_none, { x with tasks := p }, ?_, hinv, rfl, rfl, rfl⟩
    rw [Freehttpd.prepRelease, hp]
    rfl
  | some b =>
    have hb := hslice b rfl
    obtain ⟨free, hwf⟩ := h.slices
    obtain ⟨s, hs, -⟩ := hwf.slice b hb
    rcases hwf.fhXioReleaseSlice_eq hb hs with ⟨hnone, hbad⟩ | ⟨p', free', hrel, hwf', hok⟩
    · refine .inl ⟨fun hr => hbad ((SlicePool.releasable_some hs).mp hr), ?_⟩
      rw [Freehttpd.prepRelease, hp]
      simp only [Option.bind_eq_bind, Option.bind_some, hnone, Option.bind_none]
    · refine .inr ⟨(SlicePool.releasable_some hs).mpr hok, { x with tasks := p, slices := p' }, ?_,
        { hinv with slices := ⟨free', hwf'⟩ }, rfl, rfl, hrel⟩
      rw [Freehttpd.prepRelease, hp]
      simp only [Option.bind_eq_bind, Option.bind_some, hrel]

/-- The task in hand becomes the head of the queue. -/
theorem prepQueue (h : x.Inv ft fs q m) {t k : ℕ} (ht : Taken ft q t)
    (hk : k < xioXpollMaxTaskCount) {e : XioTask U} (he : x.tasks.taskList.read t = some e) :
    ∃ x' e', prepQueue x .prepIn t k = some x' ∧
      x'.Inv ft fs (Function.update q k (t :: q k)) m ∧ x'.xp = x.xp ∧ x'.slices = x.slices ∧
      x'.tasks.taskList.read t = some e' ∧ e.Same e' := by
  obtain ⟨s, hs, -, hout⟩ := h.states.state k hk
  have hinv := h.putTask { e with next := s.taskInHead } ht.1 he rfl (.inr ht.2.2)
  have hread := Block.read_put_self { e with next := s.taskInHead } (Block.lt_of_read he)
  refine ⟨_, _, ?_, hinv.putState { s with taskInHead := some t } hk hs rfl hout
    (l := t :: q k) ⟨rfl, s.taskInHead, ?_, hinv.chained k hk s hs⟩ rfl hinv.tasks
    (h.apart.enqueue ht k) (.inl rfl), rfl, rfl, hread, rfl, rfl⟩
  · rw [Freehttpd.prepQueue, hs]
    simp only [Option.bind_eq_bind, Option.bind_some, Block.modify_of_read _ he,
      Block.write_of_lt _ (Block.lt_of_read hs)]
  · exact congrArg (Option.map XioTask.next) hread

/-- A fresh fd state, with an empty queue, enters the table; with the asserts
compiled in a failed insertion stops the program. -/
theorem prepCreate (h : x.Inv ft fs q m) (env : PrepEnv) {fd : BitVec 32} {k : ℕ}
    (hk : k < xioXpollMaxTaskCount) (hkf : k ∉ fs) (hnew : ∀ fd, (fdKey fd, some k) ∈ m →
      fd.msb = false) (hget : Assoc.get m (fdKey fd) = none) :
    (¬ (intSetAlloc env.htCalloc env.htMalloc env.htShrink (fdKey fd)).Suffice x.fdStateTable ∧
      prepCreate false env x fd k = none) ∨
    ∃ x' s, prepCreate false env x fd k = some x' ∧
      (intSetAlloc env.htCalloc env.htMalloc env.htShrink (fdKey fd)).Suffice x.fdStateTable ∧
      x'.Inv ft fs (Function.update q k []) (m ++ [(fdKey fd, some k)]) ∧ x'.xp = x.xp ∧
      x'.slices = x.slices ∧ x'.tasks = x.tasks ∧
      x'.fdStates.fdStateList = x.fdStates.fdStateList.put k s ∧
      x'.fdStates.fdStateList.read k = some s ∧ s.fd = fd ∧ s.events = setupEvents ∧
      (x'.fdStateTable.CanDelete env.htGrow ↔ env.Removes x) := by
  obtain ⟨s, hs, -, hout⟩ := h.states.state k hk
  set s' : XioFdState :=
    { s with
      events := Epoll.xpollEdge ||| Epoll.xpollReadHangup ||| Epoll.xpollHangup
      fd := fd
      taskInHead := none
      taskOutHead := none } with hs'
  have hinv := h.putState s' hk hs rfl rfl (l := []) rfl rfl h.tasks
    (h.apart.update k (List.nil_sublist _)) (.inr hnew)
  have hread := Block.read_put_self s' (Block.lt_of_read hs)
  have hlen := h.length_entries_le
  have hnext := h.next_le
  obtain ⟨r, hr, hrnext, hcase⟩ := h.table.set (by
    rw [uint32Max]
    rw [xioXpollMaxTaskCount] at hnext
    omega) (fdKey fd) (some k)
    (intSetAlloc env.htCalloc env.htMalloc env.htShrink (fdKey fd)) false
  rcases hcase with ⟨hret, hflag, hmap⟩ | ⟨hret, hns, -⟩
  · -- The insertion succeeded.
    rw [hget] at hflag
    refine .inr ⟨
      { x with
        fdStateTable := r.table
        fdStates := { x.fdStates with fdStateList := x.fdStates.fdStateList.put k s' } },
      s', ?_, MapOf.suffice_of_set rfl hr hret,
      { hinv with
        table := ?_
        next_le := ?_
        entries := fun p hp => ?_ }, rfl, rfl, rfl, rfl, hread, rfl, rfl,
      canDelete_of_set h.table.deletedCount_le hr hret hflag _⟩
    · rw [Freehttpd.prepCreate, Block.modify_of_read _ hs]
      simp only [Option.bind_eq_bind, Option.bind_some, Bool.false_eq_true, if_false, hr,
        cAssert_of hret]
      rfl
    · have hmap : MapOf r.table (Assoc.set m (fdKey fd) (some k)) := hmap
      rw [Assoc.set_of_absent hget] at hmap
      exact hmap
    · show r.table.entryNextInsert ≤ _
      omega
    · rcases List.mem_append.mp hp with hp | hp
      · exact hinv.entries p hp
      · rw [List.mem_singleton.mp hp]
        exact ⟨fd, k, rfl, hk, fun _ => ⟨hkf, s', hread, rfl⟩⟩
  · -- It failed, and the assert stops the program.
    refine .inl ⟨hns, ?_⟩
    rw [Freehttpd.prepCreate, Block.modify_of_read _ hs]
    simp only [Option.bind_eq_bind, Option.bind_some, Bool.false_eq_true, if_false, hr, hret]
    rfl

/-! ### Registration -/

/-- The removal of a created fd state from the table, and its release.  The removal
needs memory. -/
theorem prepUncreate (h : x.Inv ft fs q m) (env : PrepEnv) {fd : BitVec 32} {k : ℕ}
    (hk : k < xioXpollMaxTaskCount) (hkf : k ∉ fs) (hfd : fd.msb = false)
    (hget : Assoc.get m (fdKey fd) = some (some k)) {s : XioFdState}
    (hs : x.fdStates.fdStateList.read k = some s) (hsfd : s.fd = fd) :
    ∃ x', prepUncreate false env x fd k
        = some (if x.fdStateTable.CanDelete env.htGrow then env.errno else eNoMem, x') ∧
      x'.Inv ft (fs ++ [k]) q
        (if x.fdStateTable.CanDelete env.htGrow then Assoc.del m (fdKey fd) else m) ∧
      x'.xp = x.xp ∧ x'.slices = x.slices ∧
      x'.fdStates.fdStateList = x.fdStates.fdStateList := by
  obtain ⟨r, hr, hrnext, hcase⟩ := h.table.delete (by rw [hget]; rfl) env.htGrow
  obtain ⟨found, hfind, hfound⟩ := h.table.find_eq (fdKey fd)
  rw [hget, Option.isSome_some] at hfound
  have hnext := hrnext ▸ h.next_le
  have hinv : { x with fdStateTable := r.table }.Inv ft fs q
      (if x.fdStateTable.CanDelete env.htGrow then Assoc.del m (fdKey fd) else m) ∧
      (if found.isSome && !r.flag then eNoMem else env.errno)
        = if x.fdStateTable.CanDelete env.htGrow then env.errno else eNoMem := by
    rcases hcase with ⟨hcan, hflag, hmap⟩ | ⟨hno, hflag, htab⟩
    · rw [if_pos hcan, if_pos hcan, hfound, hflag]
      exact ⟨{ h with
        table := hmap
        next_le := hnext
        entries := fun p hp => h.entries p (List.mem_of_mem_filter hp) }, rfl⟩
    · rw [if_neg hno, if_neg hno, hfound, hflag]
      exact ⟨{ h with table := htab.symm ▸ h.table, next_le := hnext }, rfl⟩
  obtain ⟨hinv, herrno⟩ := hinv
  obtain ⟨p, hp, hlist, hinv'⟩ := hinv.releaseFdState false hk hkf hs (by rw [hsfd]; exact hfd)
  refine ⟨_, ?_, hinv', rfl, rfl, hlist⟩
  rw [Freehttpd.prepUncreate, hr, hfind]
  simp only [Option.bind_eq_bind, Option.bind_some, herrno]
  rw [show fhXioReleaseFdState false x.fdStates k = some p from hp]
  rfl

/-- `READ` is among the events of the fd state, or the call to `xpoll` fails: the
task in hand is queued. -/
theorem prepRegister_of_not (h : x.Inv ft fs q m) (env : PrepEnv) {fd : BitVec 32} {t k : ℕ}
    (ht : Taken ft q t) (hk : k < xioXpollMaxTaskCount) {e : XioTask U}
    (he : x.tasks.taskList.read t = some e) (slice : Option ℕ) {s : XioFdState}
    (hs : x.fdStates.fdStateList.read k = some s) (created : Bool)
    (hrc : s.events &&& Epoll.xpollRead = Epoll.xpollRead ∨ ¬ env.Registers fd) :
    ∃ x' e', prepRegister false env x .prepIn fd t slice k created
        = some ⟨some (t, slice), env.errno, x'⟩ ∧
      x'.Inv ft fs (Function.update q k (t :: q k)) m ∧ x'.xp = x.xp ∧
      x'.slices = x.slices ∧ x'.tasks.taskList.read t = some e' ∧ e.Same e' := by
  by_cases hread : s.events &&& Epoll.xpollRead = Epoll.xpollRead
  · obtain ⟨x', e', hqueue, hinv⟩ := h.prepQueue ht hk he
    refine ⟨x', e', ?_, hinv⟩
    rw [Freehttpd.prepRegister, hs]
    simp only [Option.bind_eq_bind, Option.bind_some, XioPrepType.events, ne_eq, hread,
      not_true_eq_false, if_false, hqueue]
  · have hrc := hrc.resolve_left hread
    obtain ⟨s₀, hs₀, -, hout⟩ := h.states.state k hk
    rw [hs, Option.some_inj] at hs₀
    have hinv := h.putState { s with events := s.events ||| Epoll.xpollRead } hk hs rfl
      (by rw [hs₀]; exact hout) (h.chained k hk s hs) rfl h.tasks
      (h.apart.update k (List.Sublist.refl _)) (.inl rfl)
    rw [Function.update_eq_self] at hinv
    obtain ⟨x', e', hqueue, hinv'⟩ := hinv.prepQueue ht hk he
    refine ⟨x', e', ?_, hinv'⟩
    rw [Freehttpd.prepRegister, hs]
    simp only [Option.bind_eq_bind, Option.bind_some, XioPrepType.events, ne_eq, hread,
      not_false_eq_true, if_true, register_eq, if_neg hrc, Bool.false_eq_true, if_false,
      Block.write_of_lt _ (Block.lt_of_read hs), hqueue]

/-- Otherwise the `true` of the call to `xpoll` leads to the error path.  The new
registration of a descriptor that has a fd state stays, and no task is queued. -/
theorem prepRegister_of_modifies (h : x.Inv ft fs q m) (env : PrepEnv) {fd : BitVec 32}
    {t k : ℕ} (ht : Taken ft q t) {slice : Option ℕ} (hslice : ∀ b ∈ slice, b < xioBufCount)
    {s : XioFdState} (hs : x.fdStates.fdStateList.read k = some s)
    (hread : s.events &&& Epoll.xpollRead ≠ Epoll.xpollRead)
    (hrc : env.Registers fd) :
    (¬ x.slices.Releasable slice ∧ prepRegister false env x .prepIn fd t slice k false = none) ∨
    (x.slices.Releasable slice ∧ ∃ x', prepRegister false env x .prepIn fd t slice k false
        = some ⟨none, env.errno, x'⟩ ∧ x'.Inv (ft ++ [t]) fs q m ∧
      x'.xp = Assoc.set x.xp fd (s.events ||| Epoll.xpollRead, k) ∧
      x'.fdStates = x.fdStates ∧ x.slices.giveBack slice = some x'.slices) := by
  set xp := Assoc.set x.xp fd (s.events ||| Epoll.xpollRead, k) with hxp
  have hinv : { x with xp := xp }.Inv ft fs q m := { h with }
  have hcall : xpModifyFd env.xpollRet x.xp fd k (s.events ||| Epoll.xpollRead)
      = (true, xp) := (register_eq env x.xp fd false k _).trans (if_pos hrc)
  have heq : prepRegister false env x .prepIn fd t slice k false
      = (Freehttpd.prepRelease false { x with xp := xp } t slice).bind
        fun x => some ⟨none, env.errno, x⟩ := by
    rw [Freehttpd.prepRegister, hs]
    simp only [Option.bind_eq_bind, Option.bind_some, XioPrepType.events, if_pos hread,
      Bool.false_eq_true, if_false, hcall, if_true]
  rw [heq]
  refine (hinv.prepRelease ht hslice).imp ?_ ?_
  · rintro ⟨hns, hnone⟩
    exact ⟨hns, by rw [hnone]; rfl⟩
  · rintro ⟨hr, x', hrel, hrest⟩
    exact ⟨hr, x', by rw [hrel]; rfl, hrest⟩

/-- The descriptor of a created fd state stays registered as well. -/
theorem prepRegister_of_adds (h : x.Inv ft fs q m) (env : PrepEnv) {fd : BitVec 32}
    {t k : ℕ} (ht : Taken ft q t) (hk : k < xioXpollMaxTaskCount) {slice : Option ℕ}
    (hslice : ∀ b ∈ slice, b < xioBufCount) {s : XioFdState}
    (hs : x.fdStates.fdStateList.read k = some s) (hkf : k ∉ fs) (hsfd : s.fd = fd)
    (hget : Assoc.get m (fdKey fd) = some (some k))
    (hread : s.events &&& Epoll.xpollRead ≠ Epoll.xpollRead)
    (hrc : env.Registers fd) :
    (¬ x.slices.Releasable slice ∧ prepRegister false env x .prepIn fd t slice k true = none) ∨
      ∃ x', prepRegister false env x .prepIn fd t slice k true
          = some ⟨none, if x.fdStateTable.CanDelete env.htGrow then env.errno else eNoMem, x'⟩ ∧
        x'.Inv (ft ++ [t]) (fs ++ [k]) q
          (if x.fdStateTable.CanDelete env.htGrow then Assoc.del m (fdKey fd) else m) ∧
        x'.xp = Assoc.set x.xp fd (s.events ||| Epoll.xpollRead, k) ∧
        x'.fdStates.fdStateList = x.fdStates.fdStateList ∧
        x.slices.giveBack slice = some x'.slices := by
  set xp := Assoc.set x.xp fd (s.events ||| Epoll.xpollRead, k) with hxp
  have hinv : { x with xp := xp }.Inv ft fs q m := { h with }
  obtain ⟨x₁, hun, hinv₁, hxp₁, hsl₁, hlist₁⟩ :=
    hinv.prepUncreate env hk hkf hrc.2 hget hs hsfd
  have hcall : xpAddFd env.xpollRet x.xp fd k (s.events ||| Epoll.xpollRead) = (true, xp) :=
    (register_eq env x.xp fd true k _).trans (if_pos hrc)
  have heq : prepRegister false env x .prepIn fd t slice k true
      = (Freehttpd.prepRelease false x₁ t slice).bind fun x₂ => some
        ⟨none, if x.fdStateTable.CanDelete env.htGrow then env.errno else eNoMem, x₂⟩ := by
    rw [Freehttpd.prepRegister, hs]
    simp only [Option.bind_eq_bind, Option.bind_some, XioPrepType.events, if_pos hread,
      if_true, hcall, hun]
  have hsl₁ : x₁.slices = x.slices := hsl₁
  rcases hinv₁.prepRelease ht hslice with
    ⟨hns, hnone⟩ | ⟨-, x', hrel, hinv', hxp', hst', hgive⟩
  · exact .inl ⟨hsl₁ ▸ hns, by rw [heq, hnone]; rfl⟩
  · refine .inr ⟨x', by rw [heq, hrel]; rfl, hinv', hxp'.trans hxp₁, ?_, hsl₁ ▸ hgive⟩
    rw [hst']
    exact hlist₁

end Xio.Inv

/-! ### From the lookup of the fd state on -/

/-- The fd state that a request for `fd` uses: the one in the table, or else the
next free one. -/
def Xio.fdStateFor (x : Xio U) (fd : BitVec 32) : Option ℕ :=
  match x.stateOf fd with
  | some k => some k
  | none =>
    if x.fdStates.freeFdStateListTop = 0 then none
    else x.fdStates.freeFdStateList.read (x.fdStates.freeFdStateListTop - 1)

/-- With a fd state the request uses the one of its descriptor, or the last free one. -/
theorem Xio.fdStateFor_of_known {x : Xio U} {fd : BitVec 32} {k : ℕ}
    (h : x.stateOf fd = some k) : x.fdStateFor fd = some k := by
  rw [fdStateFor, h]

theorem Xio.fdStateFor_of_new {x : Xio U} {fd : BitVec 32} (hst : x.stateOf fd = none)
    (htop : x.fdStates.freeFdStateListTop ≠ 0) :
    x.fdStateFor fd
      = x.fdStates.freeFdStateList.read (x.fdStates.freeFdStateListTop - 1) := by
  rw [fdStateFor, hst]
  exact if_neg htop

/-- Events with `READ` added have it. -/
theorem read_or_events (events : BitVec 32) :
    (events ||| Epoll.xpollRead) &&& Epoll.xpollRead = Epoll.xpollRead := by
  rw [BitVec.and_comm]
  ext i hi
  simp
  grind

/-- A registration with the events of a fd state and `READ` is one for `READ`. -/
theorem Xio.readRegistered_of_set {x : Xio U} {xp : Registrations} {fd : BitVec 32}
    {events : BitVec 32} {k : ℕ} (h : x.xp = Assoc.set xp fd (events ||| Epoll.xpollRead, k)) :
    x.ReadRegistered fd k := by
  refine ⟨events ||| Epoll.xpollRead, ?_, read_or_events events⟩
  rw [h, Assoc.get_set, if_pos (beq_self_eq_true fd)]

/-- `READ` is among the events of fd state `k`. -/
def Xio.ReadStored (x : Xio U) (k : ℕ) : Prop :=
  ∃ s, x.fdStates.fdStateList.read k = some s ∧ s.events &&& Epoll.xpollRead = Epoll.xpollRead

/-- A request for `fd`, which uses fd state `k`, gets as far as the queue: the
insertion into the table succeeds if there is one, and the call to `xpoll` fails
if there is one. -/
def PrepEnv.GoesThrough (env : PrepEnv) (x : Xio U) (fd : BitVec 32) (k : ℕ) : Prop :=
  if (x.stateOf fd).isSome then x.ReadStored k ∨ ¬ env.Registers fd
  else (intSetAlloc env.htCalloc env.htMalloc env.htShrink (fdKey fd)).Suffice x.fdStateTable ∧
    ¬ env.Registers fd

namespace Xio.Inv

variable {x : Xio U} {ft fs : List ℕ} {q : ℕ → List ℕ} {m : List (IntKey × Option ℕ)}

/-- No fd state: the task and the slice are given back. -/
theorem prepFdState_of_none (h : x.Inv ft fs q m) (env : PrepEnv) {fd : BitVec 32} {t : ℕ}
    (ht : Taken ft q t) {slice : Option ℕ} (hslice : ∀ b ∈ slice, b < xioBufCount)
    (hfor : x.fdStateFor fd = none) :
    (¬ x.slices.Releasable slice ∧ prepFdState false env x .prepIn fd t slice = none) ∨
    (x.slices.Releasable slice ∧ ∃ x', prepFdState false env x .prepIn fd t slice
        = some ⟨none, eNoMem, x'⟩ ∧ x'.Inv (ft ++ [t]) fs q m ∧ x'.xp = x.xp ∧
      x'.fdStates = x.fdStates ∧ x.slices.giveBack slice = some x'.slices) := by
  rw [Xio.fdStateFor] at hfor
  split at hfor
  · cases hfor
  · rename_i hst
    have htop : x.fdStates.freeFdStateListTop = 0 := by
      by_contra hne
      obtain ⟨k, fs', -, hread, -⟩ := h.acquireFdState hne
      rw [if_neg hne, hread] at hfor
      cases hfor
    have hget : htableGet x.fdStateTable (fdKey fd) = some none := by
      rw [h.stateOf_eq] at hst
      rw [h.table.get_eq, hst]
    have heq : prepFdState false env x .prepIn fd t slice
        = (Freehttpd.prepRelease false x t slice).bind fun x => some ⟨none, eNoMem, x⟩ := by
      rw [prepFdState, hget]
      simp only [Option.bind_eq_bind, Option.bind_some, fhXioAcquireFdState, htop, if_true]
    rw [heq]
    refine (h.prepRelease ht hslice).imp ?_ ?_
    · rintro ⟨hns, hnone⟩
      exact ⟨hns, by rw [hnone]; rfl⟩
    · rintro ⟨hs, x', hrel, hrest⟩
      exact ⟨hs, x', by rw [hrel]; rfl, hrest⟩

/-- The descriptor is in the table: the task is queued on its fd state, if `xpoll` lets it. -/
theorem prepFdState_eq (h : x.Inv ft fs q m) (env : PrepEnv) {fd : BitVec 32} (t : ℕ) {k : ℕ}
    (slice : Option ℕ) (hst : x.stateOf fd = some k) :
    k < xioXpollMaxTaskCount ∧ Assoc.get m (fdKey fd) = some (some k) ∧
      prepFdState false env x .prepIn fd t slice
        = Freehttpd.prepRegister false env x .prepIn fd t slice k false ∧
      ∃ s, x.fdStates.fdStateList.read k = some s := by
  rw [h.stateOf_eq, Option.join_eq_some_iff] at hst
  obtain ⟨k', hk', hk⟩ := h.get_eq_some hst
  obtain rfl : k = k' := Option.some.inj hk'
  obtain ⟨s, hs, -⟩ := h.states.state k hk
  refine ⟨hk, hst, ?_, s, hs⟩
  rw [prepFdState, h.table.get_eq, hst]
  rfl

/-- The descriptor is in the table, and the request does not go through: the new
registration stays. -/
theorem prepFdState_of_known (h : x.Inv ft fs q m) (env : PrepEnv) {fd : BitVec 32} {t k : ℕ}
    (ht : Taken ft q t) {slice : Option ℕ} (hslice : ∀ b ∈ slice, b < xioBufCount)
    (hst : x.stateOf fd = some k) (hno : ¬ env.GoesThrough x fd k) :
    (¬ x.slices.Releasable slice ∧ prepFdState false env x .prepIn fd t slice = none) ∨
    (x.slices.Releasable slice ∧ ∃ x' s, prepFdState false env x .prepIn fd t slice
        = some ⟨none, env.errno, x'⟩ ∧ x'.Inv (ft ++ [t]) fs q m ∧
      x.fdStates.fdStateList.read k = some s ∧
      x'.xp = Assoc.set x.xp fd (s.events ||| Epoll.xpollRead, k) ∧
      x'.fdStates = x.fdStates ∧ x.slices.giveBack slice = some x'.slices) := by
  obtain ⟨-, -, heq, s, hs⟩ := h.prepFdState_eq env t slice hst
  rw [PrepEnv.GoesThrough, hst, Option.isSome_some, if_pos rfl, not_or, not_not] at hno
  have hread : s.events &&& Epoll.xpollRead ≠ Epoll.xpollRead := fun hr => hno.1 ⟨s, hs, hr⟩
  rw [heq]
  refine (h.prepRegister_of_modifies env ht hslice hs hread hno.2).imp_right ?_
  rintro ⟨hr, x', hreg, hinv, hrest⟩
  exact ⟨hr, x', s, hreg, hinv, hs, hrest⟩

/-- The descriptor is in the table, and the request goes through. -/
theorem prepFdState_of_passes (h : x.Inv ft fs q m) (env : PrepEnv) {fd : BitVec 32} {t k : ℕ}
    (ht : Taken ft q t) {e : XioTask U} (he : x.tasks.taskList.read t = some e)
    (slice : Option ℕ) (hst : x.stateOf fd = some k) (hgo : env.GoesThrough x fd k) :
    ∃ x' e', prepFdState false env x .prepIn fd t slice = some ⟨some (t, slice), env.errno, x'⟩ ∧
      x'.Inv ft fs (Function.update q k (t :: q k)) m ∧ x'.xp = x.xp ∧ x'.slices = x.slices ∧
      x'.tasks.taskList.read t = some e' ∧ e.Same e' := by
  obtain ⟨hk, -, heq, s, hs⟩ := h.prepFdState_eq env t slice hst
  rw [PrepEnv.GoesThrough, hst, Option.isSome_some, if_pos rfl, Xio.ReadStored, hs] at hgo
  rw [heq]
  exact h.prepRegister_of_not env ht hk he slice hs false (by simpa using hgo)

/-- The descriptor is not in the table, and gets the fd state on top of the free list. -/
theorem prepFdState_of_new (h : x.Inv ft fs q m) (env : PrepEnv) {fd : BitVec 32} {t k : ℕ}
    (ht : Taken ft q t) {e : XioTask U} (he : x.tasks.taskList.read t = some e)
    {slice : Option ℕ} (hslice : ∀ b ∈ slice, b < xioBufCount) (hst : x.stateOf fd = none)
    (hfor : x.fdStateFor fd = some k) :
    k < xioXpollMaxTaskCount ∧
    Assoc.get m (fdKey fd) = none ∧
    (env.GoesThrough x fd k → ∃ x' e' fs', fs = fs' ++ [k] ∧
      prepFdState false env x .prepIn fd t slice = some ⟨some (t, slice), env.errno, x'⟩ ∧
      x'.Inv ft fs' (Function.update q k [t]) (m ++ [(fdKey fd, some k)]) ∧
      x'.xp = x.xp ∧ x'.slices = x.slices ∧ x'.tasks.taskList.read t = some e' ∧ e.Same e') ∧
    (¬ env.GoesThrough x fd k →
      ((x.slices.Releasable slice →
          ¬ (intSetAlloc env.htCalloc env.htMalloc env.htShrink (fdKey fd)).Suffice
            x.fdStateTable) ∧
        prepFdState false env x .prepIn fd t slice = none) ∨
      ∃ x' s, env.Registers fd ∧
        (intSetAlloc env.htCalloc env.htMalloc env.htShrink (fdKey fd)).Suffice
          x.fdStateTable ∧
        prepFdState false env x .prepIn fd t slice
          = some ⟨none, if env.Removes x then env.errno else eNoMem, x'⟩ ∧
        x'.Inv (ft ++ [t]) fs (Function.update q k [])
          (if env.Removes x then m else m ++ [(fdKey fd, some k)]) ∧
        x'.xp = Assoc.set x.xp fd (setupEvents ||| Epoll.xpollRead, k) ∧
        x'.fdStates.fdStateList = x.fdStates.fdStateList.put k s ∧ s.events = setupEvents ∧
        x.slices.giveBack slice = some x'.slices) := by
  have hgett : htableGet x.fdStateTable (fdKey fd) = some none := by
    rw [h.stateOf_eq] at hst
    rw [h.table.get_eq, hst]
  have hget : Assoc.get m (fdKey fd) = none := by
    cases hget : Assoc.get m (fdKey fd) with
    | none => rfl
    | some d =>
      obtain ⟨k', rfl, -⟩ := h.get_eq_some hget
      rw [h.stateOf_eq, hget] at hst
      cases hst
  rw [Xio.fdStateFor, hst] at hfor
  dsimp only at hfor
  split at hfor
  · cases hfor
  rename_i hne
  obtain ⟨k', fs', rfl, hread, hacq, hk, hkf, hinv⟩ := h.acquireFdState hne
  rw [hread] at hfor
  obtain rfl : k' = k := Option.some.inj hfor
  -- The fd state was free, so a descriptor in the table with it is not negative.
  have hnew : ∀ fd, (fdKey fd, some k') ∈ m → fd.msb = false := fun fd' hm => by
    obtain ⟨fd₁, k₁, hp, -, hneg⟩ := h.entries _ hm
    obtain ⟨hfd, hk₁⟩ := Prod.mk.inj hp
    rw [← fdKey_inj hfd, ← Option.some.inj hk₁] at hneg
    cases hf : fd'.msb with
    | false => rfl
    | true => exact absurd (by simp) (hneg hf).1
  -- From here the call is the set-up of the fd state and its registration.
  have heq : prepFdState false env x .prepIn fd t slice
      = (Freehttpd.prepCreate false env
          { x with fdStates :=
            { x.fdStates with freeFdStateListTop := x.fdStates.freeFdStateListTop - 1 } }
          fd k').bind fun x => Freehttpd.prepRegister false env x .prepIn fd t slice k' true := by
    rw [prepFdState, hgett]
    simp only [Option.bind_eq_bind, Option.bind_some, hacq]
  rw [PrepEnv.GoesThrough, hst]
  simp only [Option.isSome_none, Bool.false_eq_true, if_false]
  rw [heq]
  refine ⟨hk, hget, ?_⟩
  rcases hinv.prepCreate env hk hkf hnew hget with
    ⟨hns, hnone⟩ |
    ⟨x₁, s, hcreate, hsuff, hinv₁, hxp, hslices, htasks, hlist, hs, hsfd, hev, hcan⟩
  · exact ⟨fun hgo => absurd hgo.1 hns, fun _ => .inl ⟨fun _ => hns, by rw [hnone]; rfl⟩⟩
  · have ht₁ : Taken ft (Function.update q k' []) t :=
      ⟨ht.1, ht.2.1, fun j hj => by
        rcases eq_or_ne j k' with rfl | hne
        · rw [Function.update_self] at hj
          cases hj
        · rw [Function.update_of_ne hne] at hj
          exact ht.2.2 j hj⟩
    have hnread : s.events &&& Epoll.xpollRead ≠ Epoll.xpollRead := by
      rw [hev]
      decide
    have hget₁ : Assoc.get (m ++ [(fdKey fd, some k')]) (fdKey fd) = some (some k') := by
      rw [← Assoc.set_of_absent hget, Assoc.get_set, if_pos (beq_self_eq_true _)]
    rw [hcreate, Option.bind_some]
    refine ⟨fun hgo => ?_, fun hgo => ?_⟩
    · obtain ⟨x', e', hr, hinv', hxp', hslices', htask⟩ :=
        hinv₁.prepRegister_of_not env ht₁ hk (by rw [htasks]; exact he) slice hs true
          (.inr hgo.2)
      rw [Function.update_self, Function.update_idem] at hinv'
      exact ⟨x', e', _, rfl, hr, hinv', hxp'.trans hxp, hslices'.trans hslices, htask⟩
    · -- `xpoll_add_fd` returns true, which the code takes for a failure.
      have hreg : env.Registers fd := not_not.mp fun hn => hgo ⟨hsuff, hn⟩
      have hslices : x₁.slices = x.slices := hslices
      have hcan : x₁.fdStateTable.CanDelete env.htGrow ↔ env.Removes x := hcan
      rcases hinv₁.prepRegister_of_adds env ht₁ hk hslice hs hkf hsfd hget₁ hnread hreg with
        ⟨hns, hnone⟩ | ⟨x', hr, hinv', hxp', hlist', hgive⟩
      · exact .inl ⟨fun hrel => absurd hrel (hslices ▸ hns), hnone⟩
      · simp only [hcan, Assoc.del_append_of_absent hget] at hr hinv'
        refine .inr ⟨x', s, hreg, hsuff, hr, hinv', ?_, hlist'.trans hlist, hev,
          hslices ▸ hgive⟩
        rw [hxp', hev, hxp]

/-- With fd state `k`: the task in hand is queued on it if the request goes
through, and otherwise the descriptor is left registered. -/
theorem prepFdState_of_some (h : x.Inv ft fs q m) (env : PrepEnv) {fd : BitVec 32} {t k : ℕ}
    (ht : Taken ft q t) {e : XioTask U} (he : x.tasks.taskList.read t = some e)
    {slice : Option ℕ} (hslice : ∀ b ∈ slice, b < xioBufCount)
    (hfor : x.fdStateFor fd = some k) :
    k < xioXpollMaxTaskCount ∧
    (env.GoesThrough x fd k → ∃ x' e' fs' m',
      prepFdState false env x .prepIn fd t slice = some ⟨some (t, slice), env.errno, x'⟩ ∧
      x'.Inv ft fs'
        (Function.update q k (t :: if (x.stateOf fd).isSome then q k else [])) m' ∧
      (∀ j ∈ fs', j ∈ fs) ∧
      Assoc.get m' (fdKey fd) = some (some k) ∧ x'.xp = x.xp ∧ x'.slices = x.slices ∧
      x'.tasks.taskList.read t = some e' ∧ e.Same e') ∧
    (¬ env.GoesThrough x fd k → prepFdState false env x .prepIn fd t slice = none ∨
      ∃ x' errno m', prepFdState false env x .prepIn fd t slice = some ⟨none, errno, x'⟩ ∧
        x'.Inv (ft ++ [t]) fs
          (if (x.stateOf fd).isSome then q else Function.update q k []) m' ∧
        ∃ k, x'.ReadRegistered fd k) := by
  cases hst : x.stateOf fd with
  | some k' =>
    obtain rfl : k' = k := Option.some.inj ((Xio.fdStateFor_of_known hst).symm.trans hfor)
    obtain ⟨hk, hget, -⟩ := h.prepFdState_eq env t slice hst
    refine ⟨hk, fun hgo => ?_, fun hno => ?_⟩
    · obtain ⟨x', e', hr, hinv, hrest⟩ := h.prepFdState_of_passes env ht he slice hst hgo
      exact ⟨x', e', fs, m, hr, hinv, fun _ hj => hj, hget, hrest⟩
    · refine (h.prepFdState_of_known env ht hslice hst hno).imp And.right ?_
      rintro ⟨-, x', s', hr, hinv, -, hxp, -⟩
      exact ⟨x', _, m, hr, hinv, k', Xio.readRegistered_of_set hxp⟩
  | none =>
    obtain ⟨hk, hget, hgo, hno⟩ := h.prepFdState_of_new env ht he hslice hst hfor
    refine ⟨hk, fun hg => ?_, fun hn => (hno hn).imp And.right ?_⟩
    · obtain ⟨x', e', fs', rfl, hr, hinv, hrest⟩ := hgo hg
      refine ⟨x', e', fs', _, hr, hinv, fun j hj => List.mem_append_left _ hj, ?_, hrest⟩
      rw [← Assoc.set_of_absent hget, Assoc.get_set, if_pos (beq_self_eq_true _)]
    · rintro ⟨x', s', -, -, hr, hinv, hset, -⟩
      exact ⟨x', _, _, hr, hinv, k, Xio.readRegistered_of_set hset⟩

end Xio.Inv

end Freehttpd
