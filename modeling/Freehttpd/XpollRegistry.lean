/-
The registry of the generic `poll(2)` backend over whole runs.

* `regStep` — a finite map from descriptors, as the specification of a call;
* `Registry` — what the three arrays should say about such a map;
* `Xpoll.Inv.step` — a call that removes nothing but the last position does what
  the map does;
* `Xpoll.Inv.not_registry_of_moved` — after any other removal the arrays no
  longer represent the map;
* `xpoll_registry_iff` — so a run keeps the registry coherent throughout if and
  only if each of its removals is of the last position.
-/
import Freehttpd.Runs
import Freehttpd.XpollInv

namespace Freehttpd

open Runs

variable {U : Type}

/-- A call, with the outcomes of its reallocations. -/
inductive XpollOp (U : Type)
  | add (fd : BitVec 32) (udata : Option U) (events : BitVec 32) (al : CtlAlloc)
  | modify (fd : BitVec 32) (udata : Option U) (events : BitVec 32)
  | addOrModify (fd : BitVec 32) (udata : Option U) (events : BitVec 32) (al : CtlAlloc)
  | remove (fd : BitVec 32) (al : CtlAlloc)

/-- One call, with its return value. -/
def xpollStep (xp : Xpoll U) : XpollOp U → Option (Bool × Xpoll U)
  | .add fd udata events al => (xpollAddFd xp fd udata events al).map fun r => (r.ret, r.xp)
  | .modify fd udata events => (xpollModifyFd xp fd udata events).map fun r => (r.ret, r.xp)
  | .addOrModify fd udata events al =>
    (xpollAddOrModifyFd xp fd udata events al).map fun r => (r.ret, r.xp)
  | .remove fd al => (xpollRemoveFd xp fd al).map fun r => (r.ret, r.xp)

/-- What a finite map from descriptors does with a call. -/
def regStep (m : RegMap U) : XpollOp U → Bool × RegMap U
  | .add fd udata events _ =>
    if (Assoc.get m fd).isSome then (false, m)
    else (true, Assoc.set m fd (pollEvents events, udata))
  | .modify fd udata events =>
    if (Assoc.get m fd).isSome then (true, Assoc.set m fd (pollEvents events, udata))
    else (false, m)
  | .addOrModify fd udata events _ => (true, Assoc.set m fd (pollEvents events, udata))
  | .remove fd _ => if (Assoc.get m fd).isSome then (true, Assoc.del m fd) else (false, m)

/-- The calls the statement is about: a descriptor that may be added is not
negative and lies below the capacity behind the growth step, and the
reallocations of an addition succeed. -/
def XpollOp.Admissible (xp : Xpoll U) : XpollOp U → Prop
  | .add fd _ _ al => fd.toNat < 2 ^ 31 ∧ fd.toNat < capAfterGrowth xp fd ∧ al = ⟨true, true, true⟩
  | .addOrModify fd _ _ al =>
    fd.toNat < 2 ^ 31 ∧ fd.toNat < capAfterGrowth xp fd ∧ al = ⟨true, true, true⟩
  | _ => True

/-- A removal of a registered descriptor empties the last position. -/
def XpollOp.RemovesLast (xp : Xpoll U) : XpollOp U → Prop
  | .remove fd _ => ∀ i, lookupFd xp fd = some (some i) → i + 1 = xp.pfdCount
  | _ => True

instance (xp : Xpoll U) : ∀ op : XpollOp U, Decidable (op.Admissible xp)
  | .add _ _ _ _ => inferInstanceAs (Decidable (_ ∧ _ ∧ _))
  | .addOrModify _ _ _ _ => inferInstanceAs (Decidable (_ ∧ _ ∧ _))
  | .modify _ _ _ => .isTrue trivial
  | .remove _ _ => .isTrue trivial

instance (xp : Xpoll U) : ∀ op : XpollOp U, Decidable (op.RemovesLast xp)
  | .remove fd _ =>
    match h : lookupFd xp fd with
    | some (some i) => decidable_of_iff (i + 1 = xp.pfdCount)
      ⟨fun hi j hj => Option.some.inj (Option.some.inj (h.symm.trans hj)) ▸ hi, fun hi => hi i h⟩
    | some none => .isTrue fun i hi => absurd (h.symm.trans hi) (by simp)
    | none => .isTrue fun i hi => absurd (h.symm.trans hi) (by simp)
  | .add _ _ _ _ => .isTrue trivial
  | .addOrModify _ _ _ _ => .isTrue trivial
  | .modify _ _ _ => .isTrue trivial

/-- The arrays are a coherent representation of the finite map `m`. -/
structure Registry (xp : Xpoll U) (m : RegMap U) : Prop where
  registered : ∀ fd events udata, Assoc.get m fd = some (events, udata) →
    ∃ i p, i < xp.pfdCount ∧ fd.toNat < xp.fdTableCap ∧
      xp.fdTable.read fd.toNat = some i ∧ xp.pfdList.read i = some p ∧ p.fd = fd ∧
      p.events = events ∧ xp.fdInfoList.read i = some udata
  once : ∀ i < xp.pfdCount, ∀ j < xp.pfdCount, ∀ p q, xp.pfdList.read i = some p →
    xp.pfdList.read j = some q → p.fd = q.fd → i = j
  positions : ∀ i < xp.pfdCount, ∃ p, xp.pfdList.read i = some p ∧ (Assoc.get m p.fd).isSome
  unregistered : ∀ fd : BitVec 32, fd.toNat < xp.fdTableCap → Assoc.get m fd = none →
    xp.fdTable.read fd.toNat = some uint32Max

/-- The invariant gives a coherent registry. -/
theorem Xpoll.Inv.registry {xp : Xpoll U} {m : RegMap U} (h : xp.Inv m) : Registry xp m where
  registered fd events udata hget := by
    obtain ⟨i, hi, rfl⟩ := h.exists_position (by rw [hget]; rfl)
    obtain ⟨revents, hread⟩ := h.pfd_read i hi
    rw [h.get_position hi, Option.some_inj] at hget
    refine ⟨i, _, by rw [h.count_eq]; exact hi, h.fd_lt _ (List.getElem_mem hi),
      h.table_read i hi, hread, rfl, by rw [hget], ?_⟩
    rw [h.info_read i hi, hget]
  once i hi j hj p q hp hq hpq := by
    rw [h.count_eq] at hi hj
    obtain ⟨_, hp'⟩ := h.pfd_read i hi
    obtain ⟨_, hq'⟩ := h.pfd_read j hj
    rw [hp', Option.some_inj] at hp
    rw [hq', Option.some_inj] at hq
    rw [← hp, ← hq] at hpq
    have hti := h.table_read i hi
    rw [show m[i].1 = m[j].1 from hpq, h.table_read j hj, Option.some_inj] at hti
    exact hti.symm
  positions i hi := by
    rw [h.count_eq] at hi
    obtain ⟨_, hp⟩ := h.pfd_read i hi
    exact ⟨_, hp, by rw [h.get_position hi]; rfl⟩
  unregistered := h.table_absent

namespace Xpoll.Inv

variable {xp : Xpoll U} {m : RegMap U}

/-- Deleting the descriptor of the last registration. -/
theorem del_last {r : BitVec 32 × BitVec 16 × Option U} (h : xp.Inv (m ++ [r])) :
    Assoc.del (m ++ [r]) r.1 = m := by
  have hne := (List.pairwise_append.mp h.distinct).2.2
  rw [Assoc.del, List.filter_append, List.filter_eq_self.mpr, List.filter_cons_of_neg (by simp),
    List.filter_nil, List.append_nil]
  intro s hs
  rw [hne s hs r (by simp)]
  rfl

/-- A call whose removals are of the last position does what the map does. -/
theorem step (h : xp.Inv m) {op : XpollOp U} (hadm : op.Admissible xp)
    (hlast : op.RemovesLast xp) :
    ∃ xp', xpollStep xp op = some ((regStep m op).1, xp') ∧ xp'.Inv (regStep m op).2 := by
  cases op with
  | add fd udata events al =>
    obtain ⟨hnn, hfd, hal⟩ := hadm
    rw [xpollStep, regStep, xpollAddFd, if_pos (toInt_nonneg_iff.mpr hnn)]
    by_cases hreg : (Assoc.get m fd).isSome
    · obtain ⟨i, hi, rfl⟩ := h.exists_position hreg
      rw [if_pos hreg, h.xpollCtlAdd_of_mem hi]
      exact ⟨xp, rfl, h⟩
    · have habs := Option.not_isSome_iff_eq_none.mp hreg
      obtain ⟨xp', hxp', hinv⟩ := h.xpollCtlAdd_of_absent hnn hfd habs hal udata events
      rw [if_neg hreg, hxp', Assoc.set_of_absent habs]
      exact ⟨xp', rfl, hinv⟩
  | modify fd udata events =>
    rw [xpollStep, regStep, xpollModifyFd]
    by_cases hreg : (Assoc.get m fd).isSome
    · obtain ⟨i, hi, rfl⟩ := h.exists_position hreg
      obtain ⟨xp', hxp', hinv⟩ := h.xpollCtlMod_of_mem hi udata events
      rw [if_pos hreg, hxp']
      exact ⟨xp', rfl, hinv⟩
    · rw [if_neg hreg, h.xpollCtlMod_of_absent (Option.not_isSome_iff_eq_none.mp hreg)]
      exact ⟨xp, rfl, h⟩
  | addOrModify fd udata events al =>
    obtain ⟨hnn, hfd, hal⟩ := hadm
    rw [xpollStep, regStep, xpollAddOrModifyFd]
    by_cases hreg : (Assoc.get m fd).isSome
    · obtain ⟨i, hi, rfl⟩ := h.exists_position hreg
      obtain ⟨xp', hxp', hinv⟩ := h.xpollCtlMod_of_mem hi udata events
      rw [hxp']
      exact ⟨xp', rfl, hinv⟩
    · have habs := Option.not_isSome_iff_eq_none.mp hreg
      obtain ⟨xp', hxp', hinv⟩ := h.xpollCtlAdd_of_absent hnn hfd habs hal udata events
      rw [h.xpollCtlMod_of_absent habs, Assoc.set_of_absent habs]
      simp only [Option.bind_eq_bind, Option.bind_some, Bool.false_eq_true, if_false, hxp',
        Option.map_some]
      exact ⟨xp', rfl, hinv⟩
  | remove fd al =>
    rw [xpollStep, regStep, xpollRemoveFd]
    by_cases hreg : (Assoc.get m fd).isSome
    · -- The position found is the last one, so the map loses its last pair.
      obtain ⟨i, hi, rfl⟩ := h.exists_position hreg
      have hi' : i + 1 = m.length := (hlast i (h.lookupFd_of_mem hi)).trans h.count_eq
      obtain ⟨m', r, rfl⟩ : ∃ m' r, m = m' ++ [r] := by
        rcases List.eq_nil_or_concat m with rfl | ⟨m', r, rfl⟩
        · exact absurd hi (Nat.not_lt_zero _)
        · exact ⟨m', r, List.concat_eq_append⟩
      have hr : (m' ++ [r])[i] = r := by
        rw [List.length_append, List.length_singleton] at hi'
        obtain rfl : i = m'.length := by omega
        simp
      rw [hr] at hreg ⊢
      obtain ⟨xp', hxp', hinv⟩ := h.xpollCtlDel_last al
      rw [if_pos hreg, hxp', h.del_last]
      exact ⟨xp', rfl, hinv⟩
    · rw [if_neg hreg, h.xpollCtlDel_of_absent (Option.not_isSome_iff_eq_none.mp hreg)]
      exact ⟨xp, rfl, h⟩

/-- After any other removal the descriptor that was moved into the hole is still
registered, but its table entry points behind the last position. -/
theorem not_registry_of_moved (h : xp.Inv m) {op : XpollOp U} (hmoved : ¬ op.RemovesLast xp)
    {o : Bool} {xp' : Xpoll U} (hstep : xpollStep xp op = some (o, xp')) :
    ¬ Registry xp' (regStep m op).2 := by
  cases op with
  | remove fd al =>
    simp only [XpollOp.RemovesLast, not_forall] at hmoved
    obtain ⟨i, hlookup, hi⟩ := hmoved
    rw [xpollStep, xpollRemoveFd, Option.map_eq_some_iff] at hstep
    obtain ⟨r, hdel, hr⟩ := hstep
    obtain ⟨-, rfl⟩ := Prod.mk.inj hr
    obtain ⟨htable, hcount⟩ := xpollCtlDel_fdTable hlookup hdel
    have hreg : (Assoc.get m fd).isSome := by
      by_contra hreg
      rw [h.lookupFd_of_absent (Option.not_isSome_iff_eq_none.mp hreg)] at hlookup
      exact absurd hlookup (by simp)
    obtain ⟨i', hi', rfl⟩ := h.exists_position hreg
    rw [h.lookupFd_of_mem hi', Option.some_inj, Option.some_inj] at hlookup
    subst hlookup
    rw [h.count_eq] at hi hcount
    -- The last registration is another one, and survives the deletion.
    have hlast : m.length - 1 < m.length := by omega
    have hne : m[i'].1 ≠ m[m.length - 1].1 := fun he => by
      have hti := h.table_read i' hi'
      rw [he, h.table_read _ hlast, Option.some_inj] at hti
      omega
    rw [regStep, if_pos hreg]
    intro hregistry
    have hget : Assoc.get (Assoc.del m m[i'].1) m[m.length - 1].1 = some m[m.length - 1].2 := by
      rw [Assoc.get_del, if_neg (by simpa using hne), h.get_position hlast]
    obtain ⟨j, -, hj, -, hread, -⟩ := hregistry.registered _ _ _ hget
    rw [htable, Block.read_put_of_ne _ fun he => hne (BitVec.eq_of_toNat_eq he),
      h.table_read _ hlast, Option.some_inj] at hread
    omega
  | add => exact absurd trivial hmoved
  | modify => exact absurd trivial hmoved
  | addOrModify => exact absurd trivial hmoved

end Xpoll.Inv

/-- A run of calls on a new registry answers as a finite map does and keeps the
arrays coherent with it throughout, if and only if every removal of a registered
descriptor is of the last position of `pfd_list`. -/
theorem xpoll_registry_iff {xp : Xpoll U} (hcreate : xpollCreate true = some xp)
    {ops : List (XpollOp U)}
    (hadm : EachStep xpollStep (fun xp op => op.Admissible xp) xp ops) :
    RefinesThroughout xpollStep regStep Registry xp [] ops ↔
      EachStep xpollStep (fun xp op => op.RemovesLast xp) xp ops :=
  refinesThroughout_iff (fun _ _ h => h.registry) (fun _ _ _ h hC hD => h.step hC hD)
    (fun _ _ _ _ h _ hD hs => h.not_registry_of_moved hD hs) (xpollCreate_inv hcreate) hadm

/-- Two descriptors added, the last one removed and added again. -/
theorem xpoll_registry_coherent : ∃ xp : Xpoll ℕ, xpollCreate true = some xp ∧
    RefinesThroughout xpollStep regStep Registry xp []
      [.add 3 (some 30) 1 ⟨true, true, true⟩, .add 4 (some 40) 1 ⟨true, true, true⟩,
        .remove 4 ⟨true, true, true⟩, .addOrModify 4 (some 41) 4 ⟨true, true, true⟩] := by
  obtain ⟨xp, hcreate⟩ : ∃ xp : Xpoll ℕ, xpollCreate true = some xp := ⟨_, rfl⟩
  refine ⟨xp, hcreate, (xpoll_registry_iff hcreate ?_).mpr ?_⟩
  · obtain rfl := Option.some.inj hcreate
    decide +kernel
  · obtain rfl := Option.some.inj hcreate
    decide +kernel

/-- Descriptor 3 is removed while 4 is the last: 4 moves to position 0, but its
table entry still says 1, where nothing is registered any more. -/
theorem xpoll_registry_incoherent : ∃ xp : Xpoll ℕ, xpollCreate true = some xp ∧
    EachStep xpollStep (fun xp op => op.Admissible xp) xp
      [.add 3 (some 30) 1 ⟨true, true, true⟩, .add 4 (some 40) 1 ⟨true, true, true⟩,
        .remove 3 ⟨true, true, true⟩] ∧
    ¬ RefinesThroughout xpollStep regStep Registry xp []
      [.add 3 (some 30) 1 ⟨true, true, true⟩, .add 4 (some 40) 1 ⟨true, true, true⟩,
        .remove 3 ⟨true, true, true⟩] := by
  obtain ⟨xp, hcreate⟩ : ∃ xp : Xpoll ℕ, xpollCreate true = some xp := ⟨_, rfl⟩
  have hxp := Option.some.inj hcreate
  refine ⟨xp, hcreate, hxp ▸ by decide +kernel, fun h => ?_⟩
  obtain ⟨xp', hruns, hregistry⟩ := h _ (List.prefix_refl _)
  obtain ⟨i, -, hi, -, hread, -⟩ := hregistry.registered 4 1 (some 40) (by decide)
  have hfacts := congrArg (Option.map fun r => (r.2.pfdCount, r.2.fdTable.read 4)) hruns
  rw [← hxp] at hfacts
  obtain ⟨hcount, htable⟩ : xp'.pfdCount = 1 ∧ xp'.fdTable.read 4 = some 1 :=
    Prod.mk.inj (Option.some.inj (hfacts.symm.trans (by decide +kernel)))
  rw [show (4 : BitVec 32).toNat = 4 from rfl, htable, Option.some_inj] at hread
  omega

end Freehttpd
