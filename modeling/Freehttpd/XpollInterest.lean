/-
The interest sets of the kqueue backend.

A caller asks for a set of flags, an `Interest`, and passes their bitwise or.  On
this platform `XPOLL_READ` is -1 and `XPOLL_WRITE` is -2, so every test of one of
them is a test for anything at all.

* `xpollCtlFd_add`, `xpollCtlFd_delete` — what the calls do to the queue;
* `xpollCtlFd_frame` — other descriptors are not touched;
* `kqueue_interest_iff` — the steps of a run do what is asked of them if and only if
  whatever is installed was asked for to be read, written and edge-triggered, and
  `kevent` returns no event.
-/
import Freehttpd.Runs
import Freehttpd.XpollKqueue

namespace Freehttpd.Kqueue

open Runs

variable {U : Type}

/-! ### Flags -/

/-- A set of flags. -/
structure Interest where
  read : Bool
  write : Bool
  error : Bool
  hangup : Bool
  readHangup : Bool
  edge : Bool
  exclusive : Bool
deriving DecidableEq, Repr

/-- A flag, if it is in the set. -/
def flagIf (present : Bool) (flag : BitVec 32) : BitVec 32 := if present then flag else 0

/-- The flags of the set, or-ed as a caller writes them. -/
def Interest.events (i : Interest) : BitVec 32 :=
  flagIf i.read xpollRead ||| flagIf i.write xpollWrite ||| flagIf i.error xpollError
    ||| flagIf i.hangup xpollHangup ||| flagIf i.readHangup xpollReadHangup
    ||| flagIf i.edge xpollEdge ||| flagIf i.exclusive xpollExclusive

/-- Every set but the empty one passes both tests, and `XPOLL_READ` and `XPOLL_WRITE`
bring the bit of `XPOLL_EDGE` with them. -/
theorem Interest.tests (i : Interest) :
    (i.events &&& xpollRead ≠ 0 ↔ i.events ≠ 0) ∧ (i.events &&& xpollWrite ≠ 0 ↔ i.events ≠ 0) ∧
      (i.events &&& xpollEdge = xpollEdge ↔ i.read = true ∨ i.write = true ∨ i.edge = true) := by
  obtain ⟨read, write, error, hangup, readHangup, edge, exclusive⟩ := i
  revert read write error hangup readHangup edge exclusive
  decide

/-! ### One call -/

theorem Kq.set_self (kq : Kq U) (fd : BitVec 32) (f : BitVec 16) (note : Option (Knote U)) :
    kq.set fd f note fd f = note := by
  rw [Kq.set, Function.update_self, Function.update_self]

theorem Kq.set_of_ne (kq : Kq U) {fd fd' : BitVec 32} {f f' : BitVec 16} (note : Option (Knote U))
    (h : fd' ≠ fd ∨ f' ≠ f) : kq.set fd f note fd' f' = kq fd' f' := by
  rw [Kq.set]
  by_cases hfd : fd' = fd
  · rw [hfd, Function.update_self, Function.update_of_ne (h.resolve_left (not_not.mpr hfd))]
  · rw [Function.update_of_ne hfd]

/-- A change touches its own filter only. -/
theorem kevent_frame (kq : Kq U) (ok : BitVec 16 → Bool) (ev : Kevent U) {fd : BitVec 32}
    {f : BitVec 16} (h : fd ≠ ev.ident ∨ f ≠ ev.filter) :
    (kevent kq ok ev).2 fd f = kq fd f := by
  rw [kevent]
  split
  · split
    · exact kq.set_of_ne _ h
    · rfl
  · split
    · exact kq.set_of_ne _ h
    · rfl

/-- Behind a deletion the filter is not installed. -/
theorem kevent_delete (kq : Kq U) (ok : BitVec 16 → Bool) {ev : Kevent U}
    (h : ev.flags &&& evDelete ≠ 0) : (kevent kq ok ev).2 = kq.set ev.ident ev.filter none := by
  rw [kevent, if_pos h]
  by_cases hn : (kq ev.ident ev.filter).isSome = true
  · rw [if_pos hn]
  · rw [if_neg hn]
    funext fd f
    by_cases he : fd = ev.ident ∧ f = ev.filter
    · rw [he.1, he.2, Kq.set_self]
      exact Option.not_isSome_iff_eq_none.mp hn
    · rw [Kq.set_of_ne]
      exact not_and_or.mp he

theorem ctlFilter_frame {ok : BitVec 16 → Bool} {ev : Kevent U} {r : Bool} {w w' : CtlState U}
    (h : ctlFilter ok ev r w = some w') {fd : BitVec 32} {f : BitVec 16}
    (hne : fd ≠ ev.ident ∨ f ≠ ev.filter) : w'.kq fd f = w.kq fd f := by
  have hframe := kevent_frame w.kq ok ev hne
  rw [ctlFilter] at h
  cases hk : kevent w.kq ok ev with
  | mk done kq =>
    rw [hk] at h hframe
    cases done with
    | true =>
      rw [← Option.some.inj h]
      exact hframe
    | false =>
      dsimp only at h
      split at h
      · cases h
      · rw [← Option.some.inj h]
        exact hframe

/-- A call touches the two filters of its descriptor only. -/
theorem xpollCtlFd_frame (kq : Kq U) (ok : BitVec 16 → Bool) {fd : BitVec 32} (udata : Option U)
    (op : BitVec 16) (events : BitVec 32) (r : Bool) {fd' : BitVec 32} {f : BitVec 16}
    (h : fd' ≠ fd ∨ (f ≠ evfiltRead ∧ f ≠ evfiltWrite)) :
    (xpollCtlFd kq ok fd udata op events r).kq fd' f = kq fd' f := by
  have hread : fd' ≠ fd ∨ f ≠ evfiltRead := h.imp_right And.left
  have hwrite : fd' ≠ fd ∨ f ≠ evfiltWrite := h.imp_right And.right
  rw [xpollCtlFd]
  dsimp only
  split
  · rfl
  · rename_i w₁ h₁
    have hw₁ : w₁.kq fd' f = kq fd' f := by
      split at h₁
      · exact ctlFilter_frame h₁ hread
      · rw [← Option.some.inj h₁]
    split
    · split
      · dsimp only
        rw [kevent_frame _ _ _ hread, hw₁]
      · exact hw₁
    · rename_i w₂ h₂
      have hw₂ : w₂.kq fd' f = kq fd' f := by
        split at h₂
        · rw [ctlFilter_frame h₂ hwrite, hw₁]
        · rw [← Option.some.inj h₂, hw₁]
      split
      · exact hw₂
      · exact hw₂

/-- The note that a call leaves for a filter. -/
def addNote (udata : Option U) (events : BitVec 32) : Knote U :=
  ⟨decide (events &&& xpollEdge = xpollEdge), udata⟩

/-- An addition whose flags may have `EV_CLEAR`. -/
theorem kevent_add (kq : Kq U) (ok : BitVec 16 → Bool) (fd : BitVec 32) (filter : BitVec 16)
    (udata : Option U) (events : BitVec 32) :
    kevent kq ok ⟨fd, filter, evAdd ||| (if events &&& xpollEdge = xpollEdge then evClear else 0),
      udata⟩ = if ok filter then (true, kq.set fd filter (some (addNote udata events)))
        else (false, kq) := by
  have hflags : ∀ flags : BitVec 16, flags &&& evDelete = 0 →
      kevent kq ok ⟨fd, filter, flags, udata⟩ = if ok filter then
        (true, kq.set fd filter (some ⟨decide (flags &&& evClear ≠ 0), udata⟩)) else (false, kq) :=
    fun flags hdel => if_neg (not_not.mpr hdel)
  rw [addNote]
  by_cases he : events &&& xpollEdge = xpollEdge
  · have hclear : (evAdd ||| evClear) &&& evClear ≠ 0 := by decide
    rw [if_pos he, hflags _ (by decide), decide_eq_true he, decide_eq_true hclear]
  · have hclear : ¬ (evAdd ||| 0) &&& evClear ≠ 0 := by decide
    rw [if_neg he, hflags _ (by decide), decide_eq_false he, decide_eq_false hclear]

/-- Adding with events that pass both tests installs both filters, or fails. -/
theorem xpollCtlFd_add (kq : Kq U) (ok : BitVec 16 → Bool) (fd : BitVec 32) (udata : Option U)
    {events : BitVec 32} (hread : events &&& xpollRead ≠ 0) (hwrite : events &&& xpollWrite ≠ 0) :
    (xpollCtlFd kq ok fd udata evAdd events true).ret = (ok evfiltRead && ok evfiltWrite) ∧
      ((ok evfiltRead && ok evfiltWrite) = true →
        (xpollCtlFd kq ok fd udata evAdd events true).kq
          = (kq.set fd evfiltRead (some (addNote udata events))).set fd evfiltWrite
              (some (addNote udata events))) := by
  rw [xpollCtlFd]
  dsimp only
  rw [if_pos hread, ctlFilter]
  dsimp only
  rw [kevent_add]
  by_cases hr : ok evfiltRead = true
  · rw [if_pos hr, hr, Bool.true_and]
    dsimp only
    rw [if_pos hwrite, ctlFilter]
    dsimp only
    rw [kevent_add]
    by_cases hw : ok evfiltWrite = true
    · rw [if_pos hw, hw]
      exact ⟨rfl, fun _ => rfl⟩
    · rw [if_neg hw, Bool.eq_false_iff.mpr hw]
      dsimp only
      rw [if_pos rfl]
      dsimp only
      refine ⟨?_, fun h => Bool.noConfusion h⟩
      split <;> rfl
  · rw [if_neg hr, Bool.eq_false_iff.mpr hr]
    exact ⟨rfl, fun h => Bool.noConfusion h⟩

/-- Without any events nothing is done. -/
theorem xpollCtlFd_zero (kq : Kq U) (ok : BitVec 16 → Bool) (fd : BitVec 32) (udata : Option U)
    (op : BitVec 16) (r : Bool) : xpollCtlFd kq ok fd udata op 0 r = ⟨false, some .EINVAL, kq⟩ := rfl

/-- Deleting with events that pass both tests removes both filters. -/
theorem xpollCtlFd_delete (kq : Kq U) (ok : BitVec 16 → Bool) (fd : BitVec 32) (udata : Option U)
    {events : BitVec 32} (hread : events &&& xpollRead ≠ 0) (hwrite : events &&& xpollWrite ≠ 0) :
    (xpollCtlFd kq ok fd udata evDelete events false).kq
      = (kq.set fd evfiltRead none).set fd evfiltWrite none := by
  have hdel : (evDelete ||| if events &&& xpollEdge = xpollEdge then evClear else 0)
      &&& evDelete ≠ 0 := by
    split <;> decide
  have hfilter : ∀ (ev : Kevent U) (w : CtlState U), ev.flags &&& evDelete ≠ 0 →
      ∃ ret, ctlFilter ok ev false w = some ⟨ret, w.count + 1, w.kq.set ev.ident ev.filter none⟩ := by
    intro ev w hev
    have hkq := kevent_delete w.kq ok hev
    rw [ctlFilter]
    cases hk : kevent w.kq ok ev with
    | mk done kq' =>
      rw [hk] at hkq
      cases done with
      | true => exact ⟨true, by rw [← hkq]⟩
      | false => exact ⟨w.ret, by rw [← hkq]; rfl⟩
  rw [xpollCtlFd]
  dsimp only
  obtain ⟨ret₁, h₁⟩ := hfilter ⟨fd, evfiltRead, evDelete ||| (if events &&& xpollEdge = xpollEdge
    then evClear else 0), udata⟩ ⟨false, 0, kq⟩ hdel
  rw [if_pos hread, h₁]
  dsimp only
  obtain ⟨ret₂, h₂⟩ := hfilter ⟨fd, evfiltWrite, evDelete ||| (if events &&& xpollEdge = xpollEdge
    then evClear else 0), udata⟩ ⟨ret₁, 1, kq.set fd evfiltRead none⟩ hdel
  rw [if_pos hwrite, h₂]
  rfl

/-! ### What is asked of a step -/

/-- The operations of a run. -/
inductive KqOp (U : Type)
  | add (ok : BitVec 16 → Bool) (fd : BitVec 32) (udata : Option U) (interest : Interest)
  | modify (ok : BitVec 16 → Bool) (fd : BitVec 32) (udata : Option U) (interest : Interest)
  | remove (ok : BitVec 16 → Bool) (fd : BitVec 32)
  | wait (eventList : Option (List (Kevent U))) (eventsOut : ℕ → XpollEvent U) (maxEvents : ℤ)

/-- What an operation returns. -/
inductive KqRet (U : Type)
  | ctl (ret : Bool) (errno : Option Errno)
  | waited (ret : ℤ) (errno : Option Errno) (events : List (XpollEvent U))

/-- One step. -/
def kqStep (kq : Kq U) : KqOp U → Option (KqRet U × Kq U)
  | .add ok fd udata i => do
    let r ← xpollAddFd kq ok fd udata i.events
    some (.ctl r.ret r.errno, r.kq)
  | .modify ok fd udata i =>
    let r := xpollModifyFd kq ok fd udata i.events
    some (.ctl r.ret r.errno, r.kq)
  | .remove ok fd =>
    let r := xpollRemoveFd kq ok fd
    some (.ctl r.ret r.errno, r.kq)
  | .wait eventList eventsOut maxEvents => do
    let r ← xpollWait eventList eventsOut maxEvents
    some (.waited r.ret r.errno r.events, kq)

/-- Descriptors are not negative, and `kevent` returns events of filters that are
installed, as many as there is room for. -/
def Admissible (kq : Kq U) : KqOp U → Prop
  | .add _ fd _ _ => 0 ≤ fd.toInt
  | .wait eventList _ maxEvents => 0 ≤ maxEvents ∧ ∀ list, eventList = some list →
      list.length ≤ maxEvents ∧ list.length ≤ xpollMaxEvents ∧
      ∀ ev ∈ list, (kq ev.ident ev.filter).isSome = true
  | _ => True

/-- Exactly the filters asked for are installed for `fd`, edge-triggered exactly if that
was asked for. -/
def Installed (kq : Kq U) (fd : BitVec 32) (i : Interest) : Prop :=
  ∀ f, (kq fd f).map Knote.clear
    = if (f = evfiltRead ∧ i.read = true) ∨ (f = evfiltWrite ∧ i.write = true) then some i.edge
      else none

/-- The other descriptors are as they were. -/
def Untouched (kq kq' : Kq U) (fd : BitVec 32) : Prop := ∀ fd' f, fd' ≠ fd → kq' fd' f = kq fd' f

/-- An event says what happened. -/
def Reports (ev : Kevent U) (out : XpollEvent U) : Prop :=
  (out.events &&& xpollRead ≠ 0 → ev.filter = evfiltRead) ∧
  (out.events &&& xpollWrite ≠ 0 → ev.filter = evfiltWrite) ∧
  (out.events &&& xpollError ≠ 0 → ev.flags &&& evError ≠ 0) ∧
  (out.events &&& xpollHangup ≠ 0 → ev.flags &&& evEof ≠ 0)

/-- A step does what is asked of it. -/
def Meets (kq : Kq U) (op : KqOp U) (ret : KqRet U) (kq' : Kq U) : Prop :=
  match op, ret with
  | .add _ fd _ i, .ctl ret _ =>
    (ret = true → (∀ f, kq fd f = none) → Installed kq' fd i) ∧ Untouched kq kq' fd
  | .modify _ fd _ i, .ctl ret _ => (ret = true → Installed kq' fd i) ∧ Untouched kq kq' fd
  | .remove _ fd, .ctl _ _ => (∀ f, kq' fd f = none) ∧ Untouched kq kq' fd
  | .wait (some list) _ _, .waited _ _ events =>
    kq' = kq ∧ ∀ (i : ℕ) ev out, list[i]? = some ev → events[i]? = some out → Reports ev out
  | _, _ => True

/-- The condition: what is installed was asked for with `XPOLL_READ`, `XPOLL_WRITE` and
`XPOLL_EDGE`, and `kevent` returns no event. -/
def AsksForAll (kq : Kq U) : KqOp U → Prop
  | .add ok fd _ i =>
    i.events ≠ 0 → (ok evfiltRead && ok evfiltWrite) = true → (∀ f, kq fd f = none) →
      i.read = true ∧ i.write = true ∧ i.edge = true
  | .modify ok _ _ i =>
    i.events ≠ 0 → (ok evfiltRead && ok evfiltWrite) = true →
      i.read = true ∧ i.write = true ∧ i.edge = true
  | .remove _ _ => True
  | .wait eventList _ _ => ∀ list, eventList = some list → list = []

/-! ### Steps -/

/-- Only the two filters are ever installed. -/
def Confined (kq : Kq U) : Prop :=
  ∀ fd f, f ≠ evfiltRead → f ≠ evfiltWrite → kq fd f = none

theorem evfiltRead_ne : evfiltRead ≠ evfiltWrite := by decide

theorem Confined.xpollCtlFd {kq : Kq U} (h : Confined kq) (ok : BitVec 16 → Bool) (fd : BitVec 32)
    (udata : Option U) (op : BitVec 16) (events : BitVec 32) (r : Bool) :
    Confined (xpollCtlFd kq ok fd udata op events r).kq := by
  intro fd' f hr hw
  rw [xpollCtlFd_frame kq ok udata op events r (.inr ⟨hr, hw⟩)]
  exact h fd' f hr hw

/-- What a successful addition installs was asked for only in one case. -/
theorem installed_iff {kq : Kq U} (h : Confined kq) (fd : BitVec 32) (udata : Option U)
    (i : Interest) :
    Installed ((kq.set fd evfiltRead (some (addNote udata i.events))).set fd evfiltWrite
        (some (addNote udata i.events))) fd i
      ↔ i.read = true ∧ i.write = true ∧ i.edge = true := by
  have hread : ((kq.set fd evfiltRead (some (addNote udata i.events))).set fd evfiltWrite
      (some (addNote udata i.events))) fd evfiltRead = some (addNote udata i.events) := by
    rw [Kq.set_of_ne _ _ (.inr evfiltRead_ne), Kq.set_self]
  have hwrite := Kq.set_self (kq.set fd evfiltRead (some (addNote udata i.events))) fd evfiltWrite
    (some (addNote udata i.events))
  constructor
  · intro hinst
    have hr := hinst evfiltRead
    have hw := hinst evfiltWrite
    rw [hread, Option.map_some] at hr
    rw [hwrite, Option.map_some] at hw
    have hir : i.read = true := by
      by_contra hno
      rw [if_neg (by simp [hno, evfiltRead_ne])] at hr
      cases hr
    have hiw : i.write = true := by
      by_contra hno
      rw [if_neg (by simp [hno, evfiltRead_ne.symm])] at hw
      cases hw
    -- The bit of `XPOLL_EDGE` is set in any case.
    rw [if_pos (.inl ⟨rfl, hir⟩)] at hr
    have hedge : (addNote udata i.events).clear = true :=
      decide_eq_true (i.tests.2.2.mpr (.inl hir))
    exact ⟨hir, hiw, (Option.some.inj hr).symm.trans hedge⟩
  · rintro ⟨hir, hiw, hie⟩ f
    have hedge : (addNote udata i.events).clear = i.edge :=
      (decide_eq_true (i.tests.2.2.mpr (.inl hir))).trans hie.symm
    by_cases hfr : f = evfiltRead
    · rw [hfr, hread, if_pos (.inl ⟨rfl, hir⟩), Option.map_some, hedge]
    · by_cases hfw : f = evfiltWrite
      · rw [hfw, hwrite, if_pos (.inr ⟨rfl, hiw⟩), Option.map_some, hedge]
      · rw [if_neg (by simp [hfr, hfw]), Kq.set_of_ne _ _ (.inr hfw), Kq.set_of_ne _ _ (.inr hfr),
          h fd f hfr hfw]
        rfl

/-- Adding installs what was asked for, if it succeeds, only in one case. -/
theorem add_installed_iff {kq : Kq U} (h : Confined kq) (ok : BitVec 16 → Bool) (fd : BitVec 32)
    (udata : Option U) (i : Interest) :
    ((xpollCtlFd kq ok fd udata evAdd i.events true).ret = true →
        Installed (xpollCtlFd kq ok fd udata evAdd i.events true).kq fd i) ↔
      (i.events ≠ 0 → (ok evfiltRead && ok evfiltWrite) = true →
        i.read = true ∧ i.write = true ∧ i.edge = true) := by
  by_cases h0 : i.events = 0
  · rw [h0, xpollCtlFd_zero]
    exact iff_of_true (fun hf => Bool.noConfusion hf) fun hne => absurd rfl hne
  · obtain ⟨hret, hkq⟩ := xpollCtlFd_add kq ok fd udata (i.tests.1.mpr h0) (i.tests.2.1.mpr h0)
    rw [hret]
    constructor
    · intro hinst _ hok
      have hi := hinst hok
      rw [hkq hok] at hi
      exact (installed_iff h fd udata i).mp hi
    · intro hall hok
      rw [hkq hok]
      exact (installed_iff h fd udata i).mpr (hall h0 hok)

/-- A modification deletes something only where nothing is asked for. -/
theorem xpollModifyFd_eq (kq : Kq U) (ok : BitVec 16 → Bool) (fd : BitVec 32) (udata : Option U)
    {i : Interest} (h : i.events ≠ 0) :
    xpollModifyFd kq ok fd udata i.events = xpollCtlFd kq ok fd udata evAdd i.events true := by
  rw [xpollModifyFd, if_pos (i.tests.1.mpr h), if_pos (i.tests.2.1.mpr h), if_neg (by decide)]

theorem or_flagIf (c : Prop) [Decidable c] (events flag : BitVec 32) :
    (if c then events ||| flag else events) = events ||| flagIf (decide c) flag := by
  by_cases hc : c
  · rw [if_pos hc, decide_eq_true hc]
    rfl
  · rw [if_neg hc, decide_eq_false hc]
    exact BitVec.or_zero.symm

/-- No event of one of the two filters is reported as it should be. -/
theorem not_reports {ev : Kevent U} (h : ev.filter = evfiltRead ∨ ev.filter = evfiltWrite)
    (out : XpollEvent U) : ¬ Reports ev (waitEvent ev out) := by
  intro hrep
  -- Either word passes the test of the other filter, whatever is or-ed to it.
  have hbits : ∀ e f : Bool,
      (evfiltRead.signExtend 32 ||| flagIf e xpollError ||| flagIf f xpollHangup) &&& xpollWrite ≠ 0
      ∧ (evfiltWrite.signExtend 32 ||| flagIf e xpollError ||| flagIf f xpollHangup) &&& xpollRead
        ≠ 0 := by decide
  have hevents : (waitEvent ev out).events = ev.filter.signExtend 32
      ||| flagIf (decide (ev.flags &&& evError ≠ 0)) xpollError
      ||| flagIf (decide (ev.flags &&& evEof ≠ 0)) xpollHangup := by
    rw [waitEvent, or_flagIf, or_flagIf]
  obtain ⟨hr, hw, -, -⟩ := hrep
  rw [hevents] at hr hw
  rcases h with h | h
  · rw [h] at hw
    exact evfiltRead_ne (hw (hbits _ _).1)
  · rw [h] at hr
    exact evfiltRead_ne (hr (hbits _ _).2).symm

/-- What a call does to other descriptors. -/
theorem xpollCtlFd_untouched (kq : Kq U) (ok : BitVec 16 → Bool) (fd : BitVec 32)
    (udata : Option U) (op : BitVec 16) (events : BitVec 32) (r : Bool) :
    Untouched kq (xpollCtlFd kq ok fd udata op events r).kq fd :=
  fun _ _ hne => xpollCtlFd_frame kq ok udata op events r (.inl hne)

/-- A removal leaves no filter behind. -/
theorem xpollRemoveFd_none {kq : Kq U} (h : Confined kq) (ok : BitVec 16 → Bool) (fd : BitVec 32)
    (f : BitVec 16) : (xpollRemoveFd kq ok fd).kq fd f = none := by
  rw [xpollRemoveFd, xpollCtlFd_delete kq ok fd none (by decide) (by decide)]
  by_cases hw : f = evfiltWrite
  · rw [hw, Kq.set_self]
  · rw [Kq.set_of_ne _ _ (.inr hw)]
    by_cases hr : f = evfiltRead
    · rw [hr, Kq.set_self]
    · rw [Kq.set_of_ne _ _ (.inr hr)]
      exact h fd f hr hw

/-- A modification, in all cases. -/
theorem xpollModifyFd_spec {kq : Kq U} (h : Confined kq) (ok : BitVec 16 → Bool) (fd : BitVec 32)
    (udata : Option U) (i : Interest) :
    Confined (xpollModifyFd kq ok fd udata i.events).kq ∧
      Untouched kq (xpollModifyFd kq ok fd udata i.events).kq fd ∧
      (((xpollModifyFd kq ok fd udata i.events).ret = true →
          Installed (xpollModifyFd kq ok fd udata i.events).kq fd i) ↔
        (i.events ≠ 0 → (ok evfiltRead && ok evfiltWrite) = true →
          i.read = true ∧ i.write = true ∧ i.edge = true)) := by
  by_cases h0 : i.events = 0
  · have heq : xpollModifyFd kq ok fd udata i.events = ⟨false, some .EINVAL,
        (xpollCtlFd kq ok fd none evDelete (xpollRead ||| xpollWrite) false).kq⟩ := by
      rw [h0]
      rfl
    rw [heq]
    exact ⟨h.xpollCtlFd _ _ _ _ _ _, xpollCtlFd_untouched _ _ _ _ _ _ _,
      iff_of_true (fun hf => Bool.noConfusion hf) fun hne => absurd h0 hne⟩
  · rw [xpollModifyFd_eq kq ok fd udata h0]
    exact ⟨h.xpollCtlFd _ _ _ _ _ _, xpollCtlFd_untouched _ _ _ _ _ _ _,
      add_installed_iff h ok fd udata i⟩

/-- A step does what is asked of it exactly under the condition. -/
theorem kqStep_iff {kq : Kq U} (h : Confined kq) {op : KqOp U} (hadm : Admissible kq op) :
    ∃ ret kq', kqStep kq op = some (ret, kq') ∧ Confined kq' ∧
      (Meets kq op ret kq' ↔ AsksForAll kq op) := by
  cases op with
  | add ok fd udata i =>
    have hadd : xpollAddFd kq ok fd udata i.events
        = some (xpollCtlFd kq ok fd udata evAdd i.events true) := if_pos hadm
    refine ⟨_, _, by rw [kqStep, hadd]; rfl, h.xpollCtlFd _ _ _ _ _ _, ?_⟩
    have hiff := add_installed_iff h ok fd udata i
    constructor
    · rintro ⟨hmeets, -⟩ h0 hok hnone
      exact hiff.mp (fun hret => hmeets hret hnone) h0 hok
    · intro hall
      exact ⟨fun hret hnone => hiff.mpr (fun h0 hok => hall h0 hok hnone) hret,
        xpollCtlFd_untouched kq ok fd udata evAdd i.events true⟩
  | modify ok fd udata i =>
    obtain ⟨hconf, huntouched, hiff⟩ := xpollModifyFd_spec h ok fd udata i
    exact ⟨_, _, rfl, hconf, and_iff_left huntouched |>.trans hiff⟩
  | remove ok fd =>
    exact ⟨_, _, rfl, h.xpollCtlFd _ _ _ _ _ _, iff_of_true
      ⟨xpollRemoveFd_none h ok fd, xpollCtlFd_untouched kq ok fd none evDelete _ false⟩ trivial⟩
  | wait eventList eventsOut maxEvents =>
    obtain ⟨hmax, hlist⟩ := hadm
    cases eventList with
    | none =>
      rw [kqStep, xpollWait, if_pos hmax]
      by_cases h0 : maxEvents = 0
      · rw [if_pos h0]
        exact ⟨_, _, rfl, h, iff_of_true trivial fun list hl => (by cases hl)⟩
      · rw [if_neg h0]
        exact ⟨_, _, rfl, h, iff_of_true trivial fun list hl => (by cases hl)⟩
    | some list =>
      obtain ⟨hlen, hlen', hreg⟩ := hlist list rfl
      rw [kqStep, xpollWait, if_pos hmax]
      by_cases h0 : maxEvents = 0
      · -- Without room there is no event.
        have hnil : list = [] := List.length_eq_zero_iff.mp (by omega)
        subst hnil
        rw [if_pos h0]
        refine ⟨_, _, rfl, h, iff_of_true ⟨rfl, fun i ev out hi => (by cases hi)⟩ fun list hl => ?_⟩
        exact (Option.some.inj hl).symm
      · have hroom : (if maxEvents > xpollMaxEvents then xpollMaxEvents else maxEvents)
            ≥ list.length := by
          split <;> assumption
        rw [if_neg h0]
        dsimp only
        rw [if_pos hroom]
        refine ⟨_, _, rfl, h, ?_⟩
        cases list with
        | nil =>
          refine iff_of_true ⟨rfl, fun i ev out hi => (by cases hi)⟩ fun list hl => ?_
          exact (Option.some.inj hl).symm
        | cons ev list =>
          refine iff_of_false (fun hmeets => ?_) fun hall => ?_
          · have hfilter : ev.filter = evfiltRead ∨ ev.filter = evfiltWrite := by
              by_contra hno
              rw [not_or] at hno
              have hsome := hreg ev List.mem_cons_self
              rw [h ev.ident ev.filter hno.1 hno.2] at hsome
              cases hsome
            exact not_reports hfilter (eventsOut 0) (hmeets.2 0 ev _ rfl
              (by rw [List.getElem?_mapIdx]; rfl))
          · have := hall (ev :: list) rfl
            cases this

/-! ### Runs -/

/-- Whatever a step returns, it does what is asked of it. -/
def StepMeets (kq : Kq U) (op : KqOp U) : Prop :=
  ∀ ret kq', kqStep kq op = some (ret, kq') → Meets kq op ret kq'

/-- Every run from `xpoll_create` returns, and its steps all do what is asked of them if
and only if they all meet the condition. -/
theorem kqueue_interest_iff {ops : List (KqOp U)}
    (hadm : EachStep kqStep Admissible Kq.empty ops) :
    (∃ rets kq, runs kqStep Kq.empty ops = some (rets, kq)) ∧
      (EachStep kqStep StepMeets Kq.empty ops ↔ EachStep kqStep AsksForAll Kq.empty ops) := by
  have hempty : Confined (Kq.empty : Kq U) := fun fd f _ _ => rfl
  have hstep : ∀ (kq : Kq U) op, Confined kq → Admissible kq op →
      ∃ ret kq', kqStep kq op = some (ret, kq') ∧ Confined kq' := by
    intro kq op h hop
    obtain ⟨ret, kq', hs, hconf, -⟩ := kqStep_iff h hop
    exact ⟨ret, kq', hs, hconf⟩
  constructor
  · obtain ⟨rets, kq, hruns, -⟩ := runs_invariant hstep hempty hadm
    exact ⟨rets, kq, hruns⟩
  · refine eachStep_congr hstep (fun kq op h hop => ?_) hempty hadm
    obtain ⟨ret, kq', hs, -, hiff⟩ := kqStep_iff h hop
    rw [← hiff]
    refine ⟨fun hall => hall ret kq' hs, fun hmeets ret₁ kq₁ hs₁ => ?_⟩
    obtain ⟨rfl, rfl⟩ := Prod.mk.inj (Option.some.inj (hs.symm.trans hs₁))
    exact hmeets

/-- Nothing but `XPOLL_READ`. -/
def readOnly : Interest :=
  { read := true
    write := false
    error := false
    hangup := false
    readHangup := false
    edge := false
    exclusive := false }

theorem kqueue_interest_read_only :
    EachStep kqStep Admissible (Kq.empty : Kq ℕ) [.add (fun _ => true) 3 (some 7) readOnly] ∧
      ¬ EachStep kqStep StepMeets (Kq.empty : Kq ℕ) [.add (fun _ => true) 3 (some 7) readOnly] ∧
      ∃ rets kq, runs kqStep (Kq.empty : Kq ℕ) [.add (fun _ => true) 3 (some 7) readOnly]
        = some (rets, kq) ∧ kq 3 evfiltWrite = some ⟨true, some 7⟩ := by
  have hfd : 0 ≤ (3 : BitVec 32).toInt := by decide
  refine ⟨eachStep_singleton.mpr hfd, fun h => ?_, _, _, rfl, rfl⟩
  have hmeets := (eachStep_singleton.mp h) _ _ rfl
  exact absurd (hmeets.1 rfl (fun f => rfl) evfiltWrite) (by decide)

/-- A descriptor is added to be read and written with edges, and removed again. -/
def addForAll : List (KqOp ℕ) :=
  [.add (fun _ => true) 3 (some 7) { readOnly with write := true, edge := true },
    .remove (fun _ => true) 3]

theorem kqueue_interest_for_all : EachStep kqStep StepMeets (Kq.empty : Kq ℕ) addForAll := by
  have hfd : 0 ≤ (3 : BitVec 32).toInt := by decide
  have hadm : EachStep kqStep Admissible (Kq.empty : Kq ℕ) addForAll :=
    (eachStep_cons_of_step rfl _).mpr ⟨hfd, eachStep_singleton.mpr trivial⟩
  refine (kqueue_interest_iff hadm).2.mpr ?_
  exact (eachStep_cons_of_step rfl _).mpr
    ⟨fun _ _ _ => ⟨rfl, rfl, rfl⟩, eachStep_singleton.mpr trivial⟩

end Freehttpd.Kqueue
