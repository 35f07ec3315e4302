/-
Registrations of the kqueue backend that fail half-way.

`xpoll_ctl_fd` registers the filters of a descriptor one after the other.  If it can
register the one for reading and not the one for writing, it deletes the first and
fails.  `EV_ADD` also succeeds for a filter that is installed, which is then deleted
although the call did not install it:

* `xpollCtlFd_add_half` — a registration that fails half-way;
* `xpollCtlFd_add_failed` — any other that fails, which changes nothing;
* `kqueue_undo_iff` — a call that fails leaves the filters of its descriptor as they
  were if and only if it does not fail half-way over a filter for reading.
-/
import Freehttpd.XpollInterest

namespace Freehttpd.Kqueue

variable {U : Type}

/-! ### Statement -/

/-- The filters of `fd` are the same, with their `udata`. -/
def SameFilters (kq kq' : Kq U) (fd : BitVec 32) : Prop :=
  ∀ f, (kq' fd f).map Knote.udata = (kq fd f).map Knote.udata

/-- If the call fails, the filters of `fd` are those from before. -/
def FailsCleanly (kq : Kq U) (fd : BitVec 32) (r : CtlResult U) : Prop :=
  r.ret = false → SameFilters kq r.kq fd

/-- Both filters are asked for and only the one for reading can be registered. -/
def HalfRegistered (ok : BitVec 16 → Bool) (events : BitVec 32) : Prop :=
  (events &&& xpollRead ≠ 0 ∧ events &&& xpollWrite ≠ 0) ∧
    ok evfiltRead = true ∧ ok evfiltWrite = false

/-! ### Proof -/

/-- The later change of a filter counts. -/
theorem Kq.set_set (kq : Kq U) (fd : BitVec 32) (f : BitVec 16) (note note' : Option (Knote U)) :
    (kq.set fd f note).set fd f note' = kq.set fd f note' := by
  rw [Kq.set, Kq.set, Kq.set, Function.update_self, Function.update_idem, Function.update_idem]

/-- A registration that fails half-way deletes the filter for reading. -/
theorem xpollCtlFd_add_half (kq : Kq U) {ok : BitVec 16 → Bool} (fd : BitVec 32)
    (udata : Option U) {events : BitVec 32} (h : HalfRegistered ok events) :
    xpollCtlFd kq ok fd udata evAdd events true
      = ⟨false, none, kq.set fd evfiltRead none⟩ := by
  obtain ⟨⟨hread, hwrite⟩, hr, hw⟩ := h
  rw [xpollCtlFd]
  dsimp only
  rw [if_pos hread, ctlFilter]
  dsimp only
  rw [kevent_add, if_pos hr]
  dsimp only
  rw [if_pos hwrite, ctlFilter]
  dsimp only
  rw [kevent_add, if_neg (by rw [hw]; exact Bool.false_ne_true)]
  dsimp only
  rw [if_pos rfl]
  dsimp only
  rw [if_pos ⟨rfl, hread⟩, kevent_delete, Kq.set_set]
  show evDelete &&& evDelete ≠ 0
  decide

/-- Any other registration that fails changes nothing. -/
theorem xpollCtlFd_add_failed (kq : Kq U) {ok : BitVec 16 → Bool} (fd : BitVec 32)
    (udata : Option U) {events : BitVec 32} (h : ¬ HalfRegistered ok events)
    (hret : (xpollCtlFd kq ok fd udata evAdd events true).ret = false) :
    (xpollCtlFd kq ok fd udata evAdd events true).kq = kq := by
  rw [xpollCtlFd] at hret ⊢
  dsimp only at hret ⊢
  by_cases hread : events &&& xpollRead ≠ 0
  · rw [if_pos hread, ctlFilter] at hret ⊢
    dsimp only at hret ⊢
    rw [kevent_add] at hret ⊢
    by_cases hr : ok evfiltRead = true
    · -- The filter for reading is registered, so the other one makes the call fail.
      rw [if_pos hr] at hret ⊢
      dsimp only at hret ⊢
      by_cases hwrite : events &&& xpollWrite ≠ 0
      · rw [if_pos hwrite, ctlFilter] at hret
        dsimp only at hret
        rw [kevent_add] at hret
        by_cases hw : ok evfiltWrite = true
        · rw [if_pos hw] at hret
          exact absurd hret.symm Bool.false_ne_true
        · exact absurd ⟨⟨hread, hwrite⟩, hr, Bool.eq_false_iff.mpr hw⟩ h
      · rw [if_neg hwrite] at hret
        exact absurd hret.symm Bool.false_ne_true
    · rw [if_neg hr]
      rfl
  · rw [if_neg hread] at hret ⊢
    dsimp only at hret ⊢
    by_cases hwrite : events &&& xpollWrite ≠ 0
    · rw [if_pos hwrite, ctlFilter] at hret ⊢
      dsimp only at hret ⊢
      rw [kevent_add] at hret ⊢
      by_cases hw : ok evfiltWrite = true
      · rw [if_pos hw] at hret
        exact absurd hret.symm Bool.false_ne_true
      · rw [if_neg hw]
        dsimp only
        rw [if_pos rfl]
        dsimp only
        rw [if_neg fun hc => hread hc.2]
    · rw [if_neg hwrite]
      rfl

/-- A registration leaves the filters of its descriptor as they were, if it fails,
unless it fails half-way over a filter for reading. -/
theorem xpollCtlFd_failsCleanly_iff (kq : Kq U) (ok : BitVec 16 → Bool) (fd : BitVec 32)
    (udata : Option U) (events : BitVec 32) :
    FailsCleanly kq fd (xpollCtlFd kq ok fd udata evAdd events true)
      ↔ ¬ (HalfRegistered ok events ∧ (kq fd evfiltRead).isSome = true) := by
  constructor
  · rintro hclean ⟨hhalf, hsome⟩
    rw [xpollCtlFd_add_half kq fd udata hhalf] at hclean
    -- What was installed for reading is gone.
    have hread := hclean rfl evfiltRead
    dsimp only at hread
    rw [Kq.set_self, Option.map_none, eq_comm, Option.map_eq_none_iff] at hread
    rw [hread] at hsome
    exact Bool.false_ne_true hsome
  · intro hno hret f
    by_cases hhalf : HalfRegistered ok events
    · rw [xpollCtlFd_add_half kq fd udata hhalf]
      dsimp only
      by_cases hf : f = evfiltRead
      · have hnone : kq fd evfiltRead = none :=
          Option.not_isSome_iff_eq_none.mp fun hsome => hno ⟨hhalf, hsome⟩
        rw [hf, Kq.set_self, hnone]
      · rw [Kq.set_of_ne _ _ (.inr hf)]
    · rw [xpollCtlFd_add_failed kq fd udata hhalf hret]

/-- Whatever is installed, whatever is asked for and whichever registrations succeed,
the two calls leave the filters of `fd` as they were, if they fail, unless they fail
half-way over a filter for reading. -/
theorem kqueue_undo_iff (kq : Kq U) (ok : BitVec 16 → Bool) (fd : BitVec 32) (udata : Option U)
    (events : BitVec 32) :
    (0 ≤ fd.toInt → ∃ r, xpollAddFd kq ok fd udata events = some r ∧
      (FailsCleanly kq fd r
        ↔ ¬ (HalfRegistered ok events ∧ (kq fd evfiltRead).isSome = true))) ∧
    (FailsCleanly kq fd (xpollAddOrModifyFd kq ok fd udata events)
      ↔ ¬ (HalfRegistered ok events ∧ (kq fd evfiltRead).isSome = true)) := by
  have hiff := xpollCtlFd_failsCleanly_iff kq ok fd udata events
  exact ⟨fun hfd => ⟨_, if_pos hfd, hiff⟩, hiff⟩

theorem kqueue_undo_absent :
    ∃ r : CtlResult ℕ, xpollAddFd Kq.empty (· == evfiltRead) 3 (some 7) (xpollRead ||| xpollWrite)
        = some r ∧ r.ret = false ∧ FailsCleanly Kq.empty 3 r := by
  have hfd : 0 ≤ (3 : BitVec 32).toInt := by decide
  obtain ⟨r, hr, hiff⟩ := (kqueue_undo_iff Kq.empty (· == evfiltRead) 3 (some 7)
    (xpollRead ||| xpollWrite)).1 hfd
  have hret : (xpollAddFd Kq.empty (· == evfiltRead) 3 (some 7)
      (xpollRead ||| xpollWrite)).map CtlResult.ret = some false := rfl
  rw [hr] at hret
  exact ⟨r, hr, Option.some.inj hret, hiff.mpr fun h => Bool.false_ne_true h.2⟩

/-- A descriptor is added, and added again when the kernel cannot register it for
writing. -/
theorem kqueue_undo_installed :
    ∃ r : CtlResult ℕ, xpollAddFd Kq.empty (fun _ => true) 3 (some 7) (xpollRead ||| xpollWrite)
        = some r ∧ r.ret = true ∧ r.kq 3 evfiltRead = some ⟨true, some 7⟩ ∧
      (xpollAddOrModifyFd r.kq (· == evfiltRead) 3 (some 7) (xpollRead ||| xpollWrite)).kq 3
        evfiltRead = none ∧
      ¬ FailsCleanly r.kq 3
        (xpollAddOrModifyFd r.kq (· == evfiltRead) 3 (some 7) (xpollRead ||| xpollWrite)) := by
  refine ⟨_, rfl, rfl, rfl, rfl, fun hclean => ?_⟩
  have hread := hclean rfl evfiltRead
  cases hread

end Freehttpd.Kqueue
