/-
What a failed receive request leaves behind on the xpoll backend.

A request that fails should leave the backend as it found it (`Xio.Restored`).
The release of a slice is not an inverse of its acquisition: it keeps the bytes
that the failed request took, unless the slice has no other reference, and then
it pushes the slice on the free list whether it had left the list or not.  And
the source has the answer of `xpoll` the wrong way round: a call to it that
succeeds fails the request and leaves the descriptor registered, and a call that
fails leaves the task queued.

* `SlicePool.Wf.undone_iff` — an acquisition is undone by the release if and only
  if it is one of `SlicePool.Undoable`;
* `xio_recv_restores_iff` — in every state reached from `fh_xio_create` a request
  returns, and leaves the backend as it was if it fails, if and only if it is one
  of `RecvCall.Undone`.
-/
import Freehttpd.XioRuns

namespace Freehttpd

open Runs

variable {U : Type}

/-! ### Slices -/

/-- The two pools have the same free list, and the same `off` and `refs` in every
slice. -/
structure SlicePool.Same (p p' : SlicePool) : Prop where
  free : p.freeBufList.SameStack p'.freeBufList p.freeBufListTop p'.freeBufListTop
  slice : ∀ b < xioBufCount, (p'.bufList.read b).map (fun s => (s.off, s.refs))
    = (p.bufList.read b).map fun s => (s.off, s.refs)

theorem SlicePool.Same.refl (p : SlicePool) : p.Same p :=
  ⟨⟨rfl, fun _ _ => rfl⟩, fun _ _ => rfl⟩

/-- Taking `size` bytes of the slice `s` can be undone: no bytes are taken, and the
slice is referenced already and stays on the list; or all bytes are taken, and
the slice was unused and on top of the list. -/
def SlicePool.Undoable (p : SlicePool) (size : ℕ) (s : XioSlice) : Prop :=
  (size = 0 ∧ 0 < s.refs ∧ s.refs + 1 < 2 ^ 16 ∧ s.off < xioBufSize ∧
    p.freeBufListTop < xioBufCount) ∨
  (size = xioBufSize ∧ s.refs = 0 ∧ s.off = 0 ∧
    p.freeBufList.read (p.freeBufListTop - 1) = some s.bid)

instance (p : SlicePool) (size : ℕ) (s : XioSlice) : Decidable (p.Undoable size s) :=
  inferInstanceAs (Decidable (_ ∨ _))

namespace SlicePool.Wf

variable {p p₁ : SlicePool} {free : List ℕ} {size b : ℕ} {s : XioSlice}

/-- An unused slice on top of the list that is taken as a whole leaves the list. -/
theorem acquire_top (h : p.Wf free) (hb : p.freeBufList.read (p.freeBufListTop - 1) = some b)
    (hne : free ≠ []) (hs : p.bufList.read b = some s) (hoff : s.off = 0) (hrefs : s.refs = 0) :
    fhXioAcquireSlice false p xioBufSize = some (some (b,
      { p with
        bufList := p.bufList.put b { s with off := xioBufSize, refs := 1 }
        freeBufListTop := p.freeBufListTop - 1 })) := by
  have hlen := h.stack.length_eq
  obtain ⟨n, hn⟩ : ∃ n, p.freeBufListTop = n + 1 :=
    ⟨p.freeBufListTop - 1, by have := List.length_pos_iff.mpr hne; omega⟩
  rw [hn, Nat.add_sub_cancel] at hb
  have hlt : n < p.freeBufList.size := Block.lt_of_read hb
  have h64 : ¬ u64 (s.off + xioBufSize) > xioBufSize := by rw [hoff]; decide
  have h32 : u32 (s.off + xioBufSize) = xioBufSize := by rw [hoff]; rfl
  have h16 : u16 (s.refs + 1) = 1 := by rw [hrefs]; rfl
  rw [fhXioAcquireSlice, cAssert_of (Nat.le_refl _), hn]
  simp only [acquireLoop, takeSlice, hn, hb, hs, h32, h16, if_neg h64, if_true,
    Nat.add_sub_cancel, Block.write_of_lt _ (Block.lt_of_read hs), Block.write_of_lt _ hlt,
    Block.put_of_read hb, Option.bind_eq_bind, Option.bind_some]

/-- Of two pools that differ in one slice. -/
theorem same_iff_of_put (h : p.Wf free) {p' : SlicePool} {free' : List ℕ} (h' : p'.Wf free')
    (hb : b < xioBufCount) (hs : p.bufList.read b = some s) {s' : XioSlice}
    (hput : p'.bufList = p.bufList.put b s') :
    p.Same p' ↔ free' = free ∧ s'.off = s.off ∧ s'.refs = s.refs := by
  have hread : ∀ b', p'.bufList.read b' = if b = b' then some s' else p.bufList.read b' := by
    rw [hput]
    exact Block.read_put _ (Block.lt_of_read hs)
  constructor
  · rintro ⟨hfree, hslice⟩
    have heq := hslice b hb
    rw [hread, if_pos rfl, hs, Option.map_some, Option.map_some, Option.some_inj,
      Prod.mk.injEq] at heq
    exact ⟨(h.stack.sameStack_iff h'.stack).mp hfree, heq⟩
  · rintro ⟨hfree, hoff, hrefs⟩
    refine ⟨(h.stack.sameStack_iff h'.stack).mpr hfree, fun b' hb' => ?_⟩
    rw [hread]
    split
    · rename_i hbb
      rw [← hbb, hs, Option.map_some, Option.map_some, hoff, hrefs]
    · rfl

/-- The slice `b` of the list, which was `s`, has been taken. -/
structure Took (p : SlicePool) (free : List ℕ) (size b : ℕ) (s : XioSlice) (p₁ : SlicePool)
    (free₁ : List ℕ) : Prop where
  mem : b ∈ free
  read : p.bufList.read b = some s
  fit : s.off + size ≤ xioBufSize
  wf : p₁.Wf free₁
  put : p₁.bufList
    = p.bufList.put b { s with off := s.off + size, refs := u16 (s.refs + 1) }
  keep : s.off + size < xioBufSize → free₁ = free
  drop : s.off + size = xioBufSize → (b :: free₁).Perm free

namespace Took

variable {free₁ : List ℕ}

theorem read_taken (k : Took p free size b s p₁ free₁) : p₁.bufList.read b
    = some { s with off := s.off + size, refs := u16 (s.refs + 1) } := by
  rw [k.put]
  exact Block.read_put_self _ (Block.lt_of_read k.read)

/-- The release gives back an unused slice: its bytes come back, and it is pushed on the
list. -/
theorem undone_iff_of_unused (k : Took p free size b s p₁ free₁) (h : p.Wf free)
    (hacq : fhXioAcquireSlice false p size = some (some (b, p₁))) (hunused : s.refs = 0) :
    (∃ p₂, fhXioReleaseSlice false p₁ b = some p₂ ∧ p.Same p₂) ↔ p.Undoable size s := by
  have hb := h.free_lt _ k.mem
  obtain ⟨s₀, hs₀, hbid, -, -⟩ := h.slice _ hb
  obtain rfl : s = s₀ := Option.some.inj (k.read.symm.trans hs₀)
  have hfit := k.fit
  have hlen := h.stack.length_eq
  have hlen₁ := k.wf.stack.length_eq
  have hone : u16 (s.refs + 1) = 1 := by rw [hunused]; rfl
  by_cases htop : p₁.freeBufListTop < xioBufCount
  · obtain ⟨p₂, hrel, hwf₂, hput₂⟩ := k.wf.fhXioReleaseSlice_last false hb k.read_taken hone htop
    rw [k.put, Block.put_put] at hput₂
    have hiff := h.same_iff_of_put hwf₂ hb k.read hput₂
    constructor
    · rintro ⟨p₃, hrel', hsame⟩
      obtain rfl : p₂ = p₃ := Option.some.inj (hrel.symm.trans hrel')
      obtain ⟨hfree, hoff, -⟩ := hiff.mp hsame
      have hoff : 0 = s.off := hoff
      have hfull : s.off + size = xioBufSize := by
        by_contra hne
        have hlen₂ := congrArg List.length hfree
        rw [k.keep (Nat.lt_of_le_of_ne hfit hne), List.length_append, List.length_singleton]
          at hlen₂
        omega
      have hstack : p.freeBufList.IsStack p.freeBufListTop xioBufCount (free₁ ++ [b]) :=
        hfree.symm ▸ h.stack
      have hlast₂ := hstack.holds.read_last
      have hlen₂ := hstack.length_eq
      rw [List.length_append, List.length_singleton] at hlen₂
      refine .inr ⟨by omega, hunused, hoff.symm, ?_⟩
      rw [hbid, ← hlen₂]
      exact hlast₂
    · rintro (⟨-, hpos, -⟩ | ⟨rfl, -, hoff, htopb⟩)
      · omega
      · have hacq₂ := h.acquire_top (hbid ▸ htopb) (List.ne_nil_of_mem k.mem) k.read hoff hunused
        obtain ⟨-, rfl⟩ := Prod.mk.inj (Option.some.inj (Option.some.inj (hacq₂.symm.trans hacq)))
        obtain ⟨l, a, hfree, htopa, hpop⟩ := h.stack.pop (by
          have hpos := List.length_pos_of_mem k.mem
          omega)
        obtain rfl : free₁ = l := k.wf.stack.holds.unique hpop.holds
          (k.wf.stack.length_eq.trans hpop.length_eq.symm)
        obtain rfl : b = a := Option.some.inj ((hbid ▸ htopb).symm.trans htopa)
        exact ⟨p₂, hrel, hiff.mpr ⟨hfree.symm, hoff.symm, hunused.symm⟩⟩
  · -- The list is full, and the assert of the release fails.
    refine iff_of_false ?_ ?_
    · rintro ⟨p₂, hrel, -⟩
      exact htop (asserts_of_release k.read_taken hrel).1
    · rintro (⟨-, hpos, -⟩ | ⟨hfull, -, hoff, -⟩)
      · omega
      · have hlen₂ := (k.drop (by omega)).length_eq
        rw [List.length_cons] at hlen₂
        have hle := h.stack.top_le
        omega

/-- The release of a slice that stays referenced keeps the bytes that were taken. -/
theorem undone_iff_of_shared (k : Took p free size b s p₁ free₁) (h : p.Wf free)
    (hpos : 0 < s.refs) (hrefs : s.refs + 1 < 2 ^ 16) :
    (∃ p₂, fhXioReleaseSlice false p₁ b = some p₂ ∧ p.Same p₂) ↔ p.Undoable size s := by
  have hb := h.free_lt _ k.mem
  have hfit := k.fit
  have hlen := h.stack.length_eq
  have hlen₁ := k.wf.stack.length_eq
  have hcount : u16 (s.refs + 1) = s.refs + 1 := u16_of_lt hrefs
  by_cases htop : p₁.freeBufListTop < xioBufCount
  · obtain ⟨p₂, hrel, hwf₂, hput₂⟩ := k.wf.fhXioReleaseSlice_shared false hb k.read_taken
      (show 1 < u16 (s.refs + 1) by omega) htop
    rw [k.put, Block.put_put] at hput₂
    have hiff := h.same_iff_of_put hwf₂ hb k.read hput₂
    constructor
    · rintro ⟨p₃, hrel', hsame⟩
      obtain rfl : p₂ = p₃ := Option.some.inj (hrel.symm.trans hrel')
      obtain ⟨rfl, hoff, -⟩ := hiff.mp hsame
      have hoff : s.off + size = s.off := hoff
      refine .inl ⟨by omega, hpos, hrefs, Nat.lt_of_not_le fun hfull => ?_, by omega⟩
      have hlen₂ := (k.drop (by omega)).length_eq
      rw [List.length_cons] at hlen₂
      omega
    · rintro (⟨rfl, -, -, hroom, -⟩ | ⟨-, hunused, -⟩)
      · refine ⟨p₂, hrel, hiff.mpr ⟨k.keep hroom, rfl, ?_⟩⟩
        show u16 (s.refs + 1) - 1 = s.refs
        omega
      · omega
  · -- A full free list: the assert of `fh_xio_release_slice` fails.
    refine iff_of_false ?_ ?_
    · rintro ⟨p₂, hrel, -⟩
      exact htop (asserts_of_release k.read_taken hrel).1
    · rintro (⟨rfl, -, -, hroom, htop'⟩ | ⟨-, hunused, -⟩)
      · have hlen₂ := congrArg List.length (k.keep hroom)
        omega
      · omega

end Took

/-- The release undoes the acquisition if and only if it can be undone. -/
theorem undone_iff (h : p.Wf free) (hsize : size ≤ xioBufSize)
    (hacq : fhXioAcquireSlice false p size = some (some (b, p₁)))
    (hlast : p.lastFit size p.freeBufListTop = some s) :
    (∃ p₂, fhXioReleaseSlice false p₁ b = some p₂ ∧ p.Same p₂) ↔ p.Undoable size s := by
  rcases h.fhXioAcquireSlice_eq false hsize with ⟨hnone, -⟩ |
    ⟨b', s', p', free', hacq', hlast', hmem, hs, hfit, hwf, hput, hkeep, hdrop⟩
  · rw [hnone] at hacq
    cases hacq
  obtain ⟨rfl, rfl⟩ := Prod.mk.inj (Option.some.inj (Option.some.inj (hacq'.symm.trans hacq)))
  obtain rfl : s' = s := Option.some.inj (hlast'.symm.trans hlast)
  have htook : Took p free size b' s' p' free' := ⟨hmem, hs, hfit, hwf, hput, hkeep, hdrop⟩
  obtain ⟨s₀, hs₀, -, -, hrefs⟩ := h.slice _ (h.free_lt _ hmem)
  obtain rfl : s' = s₀ := Option.some.inj (hs.symm.trans hs₀)
  rcases Nat.eq_zero_or_pos s'.refs with hunused | hpos
  · exact htook.undone_iff_of_unused h hacq hunused
  rcases Nat.lt_or_ge (s'.refs + 1) (2 ^ 16) with hlt | hge
  · exact htook.undone_iff_of_shared h hpos hlt
  · -- The count has wrapped around, and the assert of the release fails.
    have hwrap : u16 (s'.refs + 1) = 0 := by
      rw [u16]
      omega
    refine iff_of_false ?_ ?_
    · rintro ⟨p₂, hrel, -⟩
      have hcount : 0 < u16 (s'.refs + 1) := (asserts_of_release htook.read_taken hrel).2
      omega
    · rintro (⟨-, -, hlt, -⟩ | ⟨-, hunused, -⟩)
      · omega
      · omega

end SlicePool.Wf

theorem SlicePool.releasable_of_giveBack {p p' : SlicePool} {slice : Option ℕ}
    (h : p.giveBack slice = some p') : p.Releasable slice := by
  cases slice with
  | none => exact p.releasable_none
  | some b =>
    have hrel : fhXioReleaseSlice false p b = some p' := h
    cases hs : p.bufList.read b with
    | none =>
      rw [fhXioReleaseSlice, hs] at hrel
      simp at hrel
    | some s => exact (releasable_some hs).mpr (Wf.asserts_of_release hs hrel)

/-! ### Requests -/

/-- `x'` is as `x` was: the same free tasks, fd states and slices, the same contents
of the slices and of the fd-state table, and the same events and registrations. -/
structure Xio.Restored (x x' : Xio U) : Prop where
  tasks : x.tasks.freeTaskList.SameStack x'.tasks.freeTaskList x.tasks.freeTaskListTop
    x'.tasks.freeTaskListTop
  states : x.fdStates.freeFdStateList.SameStack x'.fdStates.freeFdStateList
    x.fdStates.freeFdStateListTop x'.fdStates.freeFdStateListTop
  slices : x.slices.Same x'.slices
  table : ∀ key, htableGet x'.fdStateTable key = htableGet x.fdStateTable key
  events : ∀ k < xioXpollMaxTaskCount, (x'.fdStates.fdStateList.read k).map XioFdState.events
    = (x.fdStates.fdStateList.read k).map XioFdState.events
  xp : ∀ fd, Assoc.get x'.xp fd = Assoc.get x.xp fd

/-- The registration that a request for `fd` makes with fd state `k` is there
already. -/
def Xio.KeepsRegistered (x : Xio U) (fd : BitVec 32) (k : ℕ) : Prop :=
  ∃ s, x.fdStates.fdStateList.read k = some s ∧
    Assoc.get x.xp fd = some (s.events ||| Epoll.xpollRead, k)

namespace RecvCall

/-- The call gets as far as `xpoll_add_fd` or `xpoll_modify_fd`, which fails. -/
def XpollFails (c : RecvCall U) (x : Xio U) : Prop :=
  c.Available x ∧ (∀ k, x.stateOf c.fd = some k → ¬ x.ReadStored k) ∧ ¬ c.env.Registers c.fd

/-- The call returns, and if it fails, or `xpoll` does, the backend is as it was. -/
def Restores (c : RecvCall U) (x : Xio U) : Prop :=
  ∃ ret x', c.run x = some (ret, x') ∧ (ret < 0 ∨ c.XpollFails x → x.Restored x')

/-- The slice that the call takes can be given back. -/
def SliceUndone (c : RecvCall U) (x : Xio U) : Prop :=
  c.buf = none → ∀ s ∈ c.slice x, x.slices.Undoable c.size s

/-- So can fd state `k` that the call sets up: it had the events that it is set up
with, and both the insertion into the table and the removal have memory. -/
def StateUndone (c : RecvCall U) (x : Xio U) (k : ℕ) : Prop :=
  (x.fdStates.fdStateList.read k).map XioFdState.events = some setupEvents ∧
    (intSetAlloc c.env.htCalloc c.env.htMalloc c.env.htShrink (fdKey c.fd)).Suffice
      x.fdStateTable ∧ c.env.Removes x

/-- When the call leaves nothing behind.  If there is no task or no slice for it, it
has taken nothing yet.  If there is no fd state, the slice can be given back.
Otherwise `READ` is among the events of the fd state in the table, and the call goes
through; or it fails because `xpoll` succeeds, whose registration was there already,
and the slice and a fd state that it created can be given back. -/
def Undone (c : RecvCall U) (x : Xio U) : Prop :=
  x.tasks.freeTaskListTop ≠ 0 → (c.buf = none → (c.slice x).isSome) →
    (x.fdStateFor c.fd = none → c.SliceUndone x) ∧
    ∀ k, x.fdStateFor c.fd = some k → (x.stateOf c.fd = some k ∧ x.ReadStored k) ∨
      (c.env.Registers c.fd ∧ x.KeepsRegistered c.fd k ∧ c.SliceUndone x ∧
        (x.stateOf c.fd = none → c.StateUndone x k))

theorem restores_of_run {c : RecvCall U} {x x' : Xio U} {ret : ℤ}
    (hrun : c.run x = some (ret, x')) :
    c.Restores x ↔ (ret < 0 ∨ c.XpollFails x → x.Restored x') := by
  constructor
  · rintro ⟨ret', x'', hrun', hr⟩
    obtain ⟨rfl, rfl⟩ := Prod.mk.inj (Option.some.inj (hrun.symm.trans hrun'))
    exact hr
  · exact fun hr => ⟨ret, x', hrun, hr⟩

theorem not_restores_of_run {c : RecvCall U} {x : Xio U} (hrun : c.run x = none) :
    ¬ c.Restores x := by
  rintro ⟨ret, x', hrun', -⟩
  rw [hrun] at hrun'
  cases hrun'

end RecvCall

namespace Xio.Inv

variable {x x' : Xio U} {ft fs : List ℕ} {q : ℕ → List ℕ} {m : List (IntKey × Option ℕ)}

/-- Where the invariant holds with the same ghosts, slices and registrations are what
may differ. -/
theorem restored_iff (h : x.Inv ft fs q m) (h' : x'.Inv ft fs q m)
    (hst : x'.fdStates = x.fdStates) : x.Restored x' ↔
      x.slices.Same x'.slices ∧ ∀ fd, Assoc.get x'.xp fd = Assoc.get x.xp fd := by
  constructor
  · intro hr
    exact ⟨hr.slices, hr.xp⟩
  · rintro ⟨hslices, hxp⟩
    constructor
    · exact (h.tasks.stack.sameStack_iff h'.tasks.stack).mpr rfl
    · rw [hst]
      exact ⟨rfl, fun _ _ => rfl⟩
    · exact hslices
    · intro key
      rw [h.table.get_eq, h'.table.get_eq]
    · intro k _
      rw [hst]
    · exact hxp

/-- The slice that was taken is given back as it was, or it cannot be. -/
theorem giveBack_same_iff (h : x.Inv ft fs q m) {c : RecvCall U} (hadm : c.Admissible)
    {slice : Option ℕ} {p : SlicePool} (htakes : c.TakesSlice x slice p) :
    (∃ p', p.giveBack slice = some p' ∧ x.slices.Same p') ↔ c.SliceUndone x := by
  cases slice with
  | none =>
    obtain ⟨hbuf, rfl⟩ := htakes
    refine iff_of_true ⟨x.slices, rfl, .refl _⟩ fun hnone => ?_
    rw [hnone] at hbuf
    cases hbuf
  | some b =>
    obtain ⟨hbuf, hacq⟩ := htakes
    obtain ⟨free, hwf⟩ := h.slices
    have hsize : c.size ≤ xioBufSize :=
      hadm.resolve_left (by rw [hbuf]; exact Bool.false_ne_true)
    obtain ⟨s, hs⟩ : ∃ s, c.slice x = some s := by
      rcases hwf.fhXioAcquireSlice_eq false hsize with ⟨hnone, -⟩ | ⟨_, s, _, _, _, hlast, -⟩
      · rw [hnone] at hacq
        cases hacq
      · exact ⟨s, hlast⟩
    rw [RecvCall.SliceUndone, hs]
    refine (hwf.undone_iff hsize hacq hs).trans ⟨fun hu _ s' hs' => ?_, fun hu => hu hbuf s rfl⟩
    rw [← Option.some.inj hs']
    exact hu

/-- A call that fails restores the backend if slices and registrations are as they
were. -/
theorem restores_iff (h : x.Inv ft fs q m) (h' : x'.Inv ft fs q m)
    (hst : x'.fdStates = x.fdStates) {c : RecvCall U} {ret : ℤ} (hret : ret < 0)
    (hrun : c.run x = some (ret, x')) : c.Restores x ↔
      x.slices.Same x'.slices ∧ ∀ fd, Assoc.get x'.xp fd = Assoc.get x.xp fd := by
  rw [RecvCall.restores_of_run hrun, ← h.restored_iff h' hst]
  exact ⟨fun hr => hr (.inl hret), fun hr _ => hr⟩

/-- Registering anew what is registered already changes nothing. -/
theorem set_same_iff {xp : Registrations} {fd : BitVec 32} {r : BitVec 32 × ℕ} :
    (∀ fd', Assoc.get (Assoc.set xp fd r) fd' = Assoc.get xp fd') ↔ Assoc.get xp fd = some r := by
  constructor
  · intro h
    rw [← h fd, Assoc.get_set, if_pos (beq_self_eq_true fd)]
  · intro h fd'
    rw [Assoc.get_set]
    split
    · rename_i heq
      rw [← h, beq_iff_eq.mp heq]
    · rfl

/-- Without a fd state it depends on the slice. -/
theorem recv_restores_of_none (h : x.Inv ft fs q m) {c : RecvCall U} (hadm : c.Admissible)
    (htop : x.tasks.freeTaskListTop ≠ 0) (hbuf : c.buf = none → (c.slice x).isSome)
    (hfor : x.fdStateFor c.fd = none) : c.Restores x ↔ c.SliceUndone x := by
  obtain ⟨x₁, t, ft₁, e, slice, rfl, hrun, hinv, hxp, hst, htab, ht, -, -, -, hslice, -, -,
    htakes⟩ := h.recv_start hadm htop hbuf
  have hfor₁ : x₁.fdStateFor c.fd = none := (Xio.fdStateFor_congr hst htab c.fd).trans hfor
  rw [← h.giveBack_same_iff hadm htakes]
  rcases hinv.prepFdState_of_none c.env ht hslice hfor₁ with
    ⟨hns, hnone⟩ | ⟨-, x', hr, hinv', hxp', hst', hgive⟩
  · refine iff_of_false ?_ ?_
    · rintro ⟨ret, x', hrun', -⟩
      rw [hrun, hnone] at hrun'
      cases hrun'
    · rintro ⟨p', hgive, -⟩
      exact hns (SlicePool.releasable_of_giveBack hgive)
  · obtain ⟨ret, hret, hfin⟩ := c.finish_none eNoMem x'
    rw [h.restores_iff hinv' (hst'.trans hst) hret (by rw [hrun, hr]; exact hfin)]
    constructor
    · rintro ⟨hsame, -⟩
      exact ⟨_, hgive, hsame⟩
    · rintro ⟨p', hgive', hsame⟩
      rw [Option.some.inj (hgive.symm.trans hgive'), hxp', hxp]
      exact ⟨hsame, fun _ => rfl⟩

/-- A call that goes through keeps its task, so `xpoll` must not have been called. -/
theorem recv_restores_of_goesThrough (h : x.Inv ft fs q m) {c : RecvCall U}
    (hadm : c.Admissible) (hav : c.Available x) {k : ℕ} (hfor : x.fdStateFor c.fd = some k)
    (hgo : c.env.GoesThrough x c.fd k) :
    c.Restores x ↔ x.stateOf c.fd = some k ∧ x.ReadStored k := by
  obtain ⟨k', t, ft', rfl, hfor', -, hsucceeds, -⟩ := h.recv_available hadm hav
  obtain rfl : k = k' := Option.some.inj (hfor.symm.trans hfor')
  obtain ⟨x', e, fs', m', hrun, hinv, -⟩ := hsucceeds hgo
  have hnot : ¬ x.Restored x' := fun hr => by
    have heq : ft' = ft' ++ [t] := (h.tasks.stack.sameStack_iff hinv.tasks.stack).mp hr.tasks
    have hlen := congrArg List.length heq
    rw [List.length_append, List.length_singleton] at hlen
    omega
  rw [RecvCall.restores_of_run hrun]
  constructor
  · intro hr
    have hcall : ¬ c.XpollFails x := fun hf => hnot (hr (.inr hf))
    rw [PrepEnv.GoesThrough] at hgo
    cases hst : x.stateOf c.fd with
    | none =>
      rw [hst, Option.isSome_none, if_neg Bool.false_ne_true] at hgo
      refine absurd ⟨hav, fun j hj => ?_, hgo.2⟩ hcall
      rw [hst] at hj
      cases hj
    | some j =>
      obtain rfl : j = k := Option.some.inj ((Xio.fdStateFor_of_known hst).symm.trans hfor)
      refine ⟨rfl, ?_⟩
      rw [hst, Option.isSome_some, if_pos rfl] at hgo
      by_contra hread
      refine hcall ⟨hav, fun i hi => ?_, hgo.resolve_left hread⟩
      rwa [← Option.some.inj (hst.symm.trans hi)]
  · rintro ⟨hst, hread⟩ (hlt | hf)
    · exact absurd hlt (lt_irrefl 0)
    · exact absurd hread (hf.2.1 k hst)

/-- With the fd state of a known descriptor, behind `xpoll_modify_fd`, it depends on the
registration as well. -/
theorem recv_restores_of_known (h : x.Inv ft fs q m) {c : RecvCall U} (hadm : c.Admissible)
    (htop : x.tasks.freeTaskListTop ≠ 0) (hbuf : c.buf = none → (c.slice x).isSome) {k : ℕ}
    (hk : x.stateOf c.fd = some k) (hno : ¬ c.env.GoesThrough x c.fd k) :
    c.Restores x ↔ x.KeepsRegistered c.fd k ∧ c.SliceUndone x := by
  obtain ⟨x₁, t, ft₁, e, slice, rfl, hrun, hinv, hxp, hst, htab, ht, -, -, -, hslice, -, -,
    htakes⟩ := h.recv_start hadm htop hbuf
  have hk₁ : x₁.stateOf c.fd = some k := by
    rw [Xio.stateOf, htab]
    exact hk
  have hno₁ : ¬ c.env.GoesThrough x₁ c.fd k := by
    rwa [PrepEnv.goesThrough_congr hst htab]
  rw [← h.giveBack_same_iff hadm htakes]
  rcases hinv.prepFdState_of_known c.env ht hslice hk₁ hno₁ with
    ⟨hns, hnone⟩ | ⟨-, x', s, hr, hinv', hs, hxp', hst', hgive⟩
  · refine iff_of_false (RecvCall.not_restores_of_run (by rw [hrun, hnone]; rfl)) ?_
    rintro ⟨-, p', hgive, -⟩
    exact hns (SlicePool.releasable_of_giveBack hgive)
  · obtain ⟨ret, hret, hfin⟩ := c.finish_none c.env.errno x'
    rw [h.restores_iff hinv' (hst'.trans hst) hret (by rw [hrun, hr]; exact hfin), hxp', hxp,
      set_same_iff]
    rw [hst] at hs
    constructor
    · rintro ⟨hsame, hget⟩
      exact ⟨⟨s, hs, hget⟩, _, hgive, hsame⟩
    · rintro ⟨⟨s', hs', hget⟩, p', hgive', hsame⟩
      obtain rfl : s = s' := Option.some.inj (hs.symm.trans hs')
      rw [Option.some.inj (hgive.symm.trans hgive')]
      exact ⟨hsame, hget⟩

/-- A fd state that was set up and given back leaves its events behind, and the table
has it still if the removal failed. -/
theorem restored_iff_of_created (h : x.Inv ft fs q m) {fd : BitVec 32} {k : ℕ}
    (hk : k < xioXpollMaxTaskCount) (hget : Assoc.get m (fdKey fd) = none) {removed : Prop}
    [Decidable removed] {q' : ℕ → List ℕ}
    (h' : x'.Inv ft fs q' (if removed then m else m ++ [(fdKey fd, some k)])) {s : XioFdState}
    (hlist : x'.fdStates.fdStateList = x.fdStates.fdStateList.put k s)
    (hev : s.events = setupEvents)
    (hxp : x'.xp = Assoc.set x.xp fd (setupEvents ||| Epoll.xpollRead, k)) :
    x.Restored x' ↔ x.slices.Same x'.slices ∧ x.KeepsRegistered fd k ∧ removed ∧
      (x.fdStates.fdStateList.read k).map XioFdState.events = some setupEvents := by
  obtain ⟨s₀, hs₀, -⟩ := h.states.state k hk
  have hread : ∀ j, x'.fdStates.fdStateList.read j
      = if k = j then some s else x.fdStates.fdStateList.read j := by
    rw [hlist]
    exact Block.read_put _ (Block.lt_of_read hs₀)
  have hkeep : (x.fdStates.fdStateList.read k).map XioFdState.events = some setupEvents →
      (x.KeepsRegistered fd k ↔ ∀ fd', Assoc.get x'.xp fd' = Assoc.get x.xp fd') := by
    intro hsame
    rw [hs₀, Option.map_some, Option.some_inj] at hsame
    rw [hxp, set_same_iff, Xio.KeepsRegistered, hs₀, ← hsame]
    constructor
    · rintro ⟨s', hs', hreg⟩
      rw [Option.some.inj hs']
      exact hreg
    · exact fun hreg => ⟨s₀, rfl, hreg⟩
  constructor
  · intro hr
    have hevents := hr.events k hk
    rw [hread, if_pos rfl, Option.map_some, hev] at hevents
    refine ⟨hr.slices, (hkeep hevents.symm).mpr hr.xp, ?_, hevents.symm⟩
    by_contra hno
    have htab := hr.table (fdKey fd)
    rw [h'.table.get_eq, h.table.get_eq, if_neg hno, ← Assoc.set_of_absent hget, Assoc.get_set,
      if_pos (beq_self_eq_true _), hget] at htab
    cases htab
  · rintro ⟨hslices, hreg, hremoved, hsame⟩
    rw [if_pos hremoved] at h'
    constructor
    · exact (h.tasks.stack.sameStack_iff h'.tasks.stack).mpr rfl
    · exact (h.states.stack.sameStack_iff h'.states.stack).mpr rfl
    · exact hslices
    · intro key
      rw [h.table.get_eq, h'.table.get_eq]
    · intro j _
      rw [hread]
      split
      · rename_i hkj
        rw [← hkj, hsame, Option.map_some, hev]
      · rfl
    · exact (hkeep hsame).mp hreg

/-- With a fd state that the call created, behind `xpoll_add_fd`, it depends on the fd
state and the table as well. -/
theorem recv_restores_of_new (h : x.Inv ft fs q m) {c : RecvCall U} (hadm : c.Admissible)
    (htop : x.tasks.freeTaskListTop ≠ 0) (hbuf : c.buf = none → (c.slice x).isSome) {k : ℕ}
    (hst : x.stateOf c.fd = none) (hfor : x.fdStateFor c.fd = some k)
    (hno : ¬ c.env.GoesThrough x c.fd k) :
    c.Restores x ↔ c.env.Registers c.fd ∧ x.KeepsRegistered c.fd k ∧ c.SliceUndone x ∧
      c.StateUndone x k := by
  obtain ⟨x₁, t, ft₁, e, slice, rfl, hrun, hinv, hxp, hst₁, htab, ht, he, -, -, hslice, -, -,
    htakes⟩ := h.recv_start hadm htop hbuf
  have hnew₁ : x₁.stateOf c.fd = none := by
    rw [Xio.stateOf, htab]
    exact hst
  have hno₁ : ¬ c.env.GoesThrough x₁ c.fd k := by
    rwa [PrepEnv.goesThrough_congr hst₁ htab]
  obtain ⟨hk, hget, -, hfails⟩ := hinv.prepFdState_of_new c.env ht he hslice hnew₁
    ((Xio.fdStateFor_congr hst₁ htab c.fd).trans hfor)
  rw [← h.giveBack_same_iff hadm htakes, RecvCall.StateUndone]
  rcases hfails hno₁ with
    ⟨hns, hnone⟩ | ⟨x', s, hreg, hsuff, hr, hinv', hxp', hlist, hev, hgive⟩
  · refine iff_of_false (RecvCall.not_restores_of_run (by rw [hrun, hnone]; rfl)) ?_
    rintro ⟨-, -, ⟨p', hgive, -⟩, -, hsuff, -⟩
    exact hns (SlicePool.releasable_of_giveBack hgive) (htab ▸ hsuff)
  · obtain ⟨ret, hret, hfin⟩ := c.finish_none
      (if c.env.Removes x₁ then c.env.errno else eNoMem) x'
    have hrem : c.env.Removes x₁ ↔ c.env.Removes x := by
      rw [PrepEnv.Removes, PrepEnv.Removes, htab]
    have hsuff' := htab ▸ hsuff
    rw [RecvCall.restores_of_run (by rw [hrun, hr]; exact hfin),
      h.restored_iff_of_created hk hget hinv' (hst₁ ▸ hlist) hev (hxp ▸ hxp'), hrem]
    constructor
    · intro hr
      obtain ⟨hsame, hkeep, hremoves, hevents⟩ := hr (.inl hret)
      exact ⟨hreg, hkeep, ⟨_, hgive, hsame⟩, hevents, hsuff', hremoves⟩
    · rintro ⟨-, hkeep, ⟨p', hgive', hsame⟩, hevents, -, hremoves⟩ -
      rw [Option.some.inj (hgive.symm.trans hgive')]
      exact ⟨hsame, hkeep, hremoves, hevents⟩

/-- A request leaves nothing behind if and only if it is one of `RecvCall.Undone`. -/
theorem recv_restores_iff (h : x.Inv ft fs q m) {c : RecvCall U} (hadm : c.Admissible) :
    c.Restores x ↔ c.Undone x := by
  by_cases hstart : x.tasks.freeTaskListTop ≠ 0 ∧ (c.buf = none → (c.slice x).isSome)
  · obtain ⟨htop, hbuf⟩ := hstart
    cases hfor : x.fdStateFor c.fd with
    | none =>
      rw [h.recv_restores_of_none hadm htop hbuf hfor]
      refine ⟨fun hs _ _ => ⟨fun _ => hs, fun k hk => ?_⟩, fun hu => (hu htop hbuf).1 hfor⟩
      rw [hfor] at hk
      cases hk
    | some k =>
      have hiff : c.Undone x ↔ (x.stateOf c.fd = some k ∧ x.ReadStored k) ∨
          (c.env.Registers c.fd ∧ x.KeepsRegistered c.fd k ∧ c.SliceUndone x ∧
            (x.stateOf c.fd = none → c.StateUndone x k)) := by
        refine ⟨fun hu => (hu htop hbuf).2 k hfor, fun hu _ _ => ⟨fun hn => ?_, fun k' hk' => ?_⟩⟩
        · rw [hfor] at hn
          cases hn
        · rw [← Option.some.inj (hfor.symm.trans hk')]
          exact hu
      rw [hiff]
      by_cases hgo : c.env.GoesThrough x c.fd k
      · rw [h.recv_restores_of_goesThrough hadm ⟨htop, hbuf, Option.isSome_of_eq_some hfor⟩ hfor
          hgo]
        refine (or_iff_left_of_imp ?_).symm
        -- Where `xpoll` succeeds, only a fd state with `READ` lets the call through.
        rintro ⟨hreg, -, -, -⟩
        rw [PrepEnv.GoesThrough] at hgo
        split at hgo
        · rename_i hsome
          obtain ⟨j, hst⟩ := Option.isSome_iff_exists.mp hsome
          obtain rfl : j = k := Option.some.inj ((Xio.fdStateFor_of_known hst).symm.trans hfor)
          exact ⟨hst, hgo.resolve_right fun hn => hn hreg⟩
        · exact absurd hreg hgo.2
      · cases hst : x.stateOf c.fd with
        | none =>
          rw [h.recv_restores_of_new hadm htop hbuf hst hfor hgo, or_iff_right (by simp)]
          simp only [forall_const]
        | some k' =>
          obtain rfl : k' = k := Option.some.inj ((Xio.fdStateFor_of_known hst).symm.trans hfor)
          rw [h.recv_restores_of_known hadm htop hbuf hst hgo]
          rw [PrepEnv.GoesThrough, hst, Option.isSome_some, if_pos rfl, not_or, not_not] at hgo
          simp [hgo.1, hgo.2]
  · refine iff_of_true ?_ fun htop hbuf => absurd ⟨htop, hbuf⟩ hstart
    obtain ⟨ret, hret, x', hrun, hinv, hxp, hst, hsl, -⟩ := h.recv_starved hadm hstart
    refine (h.restores_iff hinv hst hret hrun).mpr ?_
    rw [hsl, hxp]
    exact ⟨.refl _, fun _ => rfl⟩

end Xio.Inv

/-- In every state reached from `fh_xio_create`, whatever the allocations and `xpoll`
answer, `fh_xio_request_recv` returns and leaves the backend as it was if it
fails, or `xpoll` does, if and only if the call is one of `RecvCall.Undone`. -/
theorem xio_recv_restores_iff {calloc xpoll : Bool} {table : CreateAlloc} {mmap : Option ℕ}
    {x₀ x : Xio U} {calls : List (XioCall U)} {outs : List (ℤ × List (XioResult U))}
    (hcreate : fhXioCreate calloc xpoll table mmap = some (some x₀))
    (hadm : ∀ call ∈ calls, call.Admissible) (hruns : runs xioStep x₀ calls = some (outs, x))
    {c : RecvCall U} (hc : c.Admissible) : c.Restores x ↔ c.Undone x := by
  obtain ⟨ft, fs, q, m, hx⟩ := inv_of_runs hcreate hadm hruns
  exact hx.recv_restores_iff hc

/-- After a first request for descriptor 5 a second one fails as well, and leaves nothing
behind: the registration was there already. -/
theorem xio_recv_restores_again :
    ∃ x₀ x : Xio ℕ, ∃ outs, fhXioCreate true true ⟨true, true, true⟩ (some 0) = some (some x₀) ∧
      runs xioStep x₀ [.recv recvFd5] = some (outs, x) ∧ recvFd5.Restores x := by
  obtain ⟨o, hcreate, ho⟩ := (Option.any_eq_true _ _).mp recvFd5_run
  obtain ⟨x₀, rfl, hx⟩ := (Option.any_eq_true _ _).mp ho
  obtain ⟨⟨ret, x⟩, hrun, hr⟩ := (Option.any_eq_true _ _).mp hx
  obtain ⟨-, -, -, hget, -, hfor, -, -, hgrow, hevents⟩ := of_decide_eq_true hr
  have hruns : runs xioStep x₀ [.recv recvFd5] = some ([(ret, [])], x) :=
    runs_cons_of_step (xioStep_recv hrun) []
  have hadm : ∀ call ∈ [XioCall.recv recvFd5], call.Admissible := by
    intro call hcall
    rw [List.mem_singleton.mp hcall]
    exact .inl rfl
  refine ⟨x₀, x, _, hcreate, hruns,
    (xio_recv_restores_iff hcreate hadm hruns (.inl rfl)).mpr ?_⟩
  intro _ _
  refine ⟨fun hn => ?_, fun k hk => .inr ?_⟩
  · rw [show x.fdStateFor recvFd5.fd = some 2047 from hfor] at hn
    cases hn
  · obtain rfl : 2047 = k := Option.some.inj (hfor.symm.trans hk)
    refine ⟨⟨rfl, rfl⟩, ?_, fun hbuf => recvFd5_buf hbuf, fun _ => ⟨hevents, ⟨fun hg => ?_, rfl⟩,
      .inl rfl⟩⟩
    · obtain ⟨s, hs, hev⟩ := Option.map_eq_some_iff.mp hevents
      exact ⟨s, hs, hev ▸ hget⟩
    · rw [show x.fdStateTable.mustGrow = false from hgrow] at hg
      cases hg

/-- The first request fails, and leaves the descriptor registered. -/
theorem xio_recv_not_restored :
    ∃ x₀ x : Xio ℕ, ∃ ret, fhXioCreate true true ⟨true, true, true⟩ (some 0) = some (some x₀) ∧
      recvFd5.Admissible ∧ recvFd5.run x₀ = some (ret, x) ∧ ret < 0 ∧ ¬ x₀.Restored x := by
  obtain ⟨x₀, x, ret, hx₀, hrun, -, hret, ⟨events, hget, -⟩, -⟩ := recvFd5_reached
  refine ⟨x₀, x, ret, hx₀, .inl rfl, hrun, hret, fun hr => ?_⟩
  obtain ⟨t, mem, -, rfl⟩ := fhXioCreate_eq_some hx₀
  rw [hr.xp] at hget
  cases hget

end Freehttpd
