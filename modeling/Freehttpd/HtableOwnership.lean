/-
Who owns the keys of the hash table, and what `htable_free_with_cleanup` releases.

A `Ledger` is a table together with what its calls have done so far: the keys copied
by `HT_KEY_DUP_CB`, the keys freed by `HT_KEY_FREE_CB`, and the contents as the return
values of set and delete tell them.

* `setCopies_eq`, `deleteFrees_eq` — which call copies and which frees a key;
* `Htable.Inv.cleanup_eq` — the final walk meets every live entry once;
* `htable_owned` — over a run the copies are those freed and those of the entries
  present, one for one.
-/
import Freehttpd.HtableCounters
import Freehttpd.HtableTraversal
import Freehttpd.StrHtable

namespace Freehttpd

open Runs

variable {K D : Type}

/-! ### The final walk -/

/-- What `htable_free_with_cleanup` hands to `HT_KEY_FREE_CB` and to `data_free_cb`, in
the order of the calls. -/
structure CleanupResult (K D : Type) where
  freed : List K
  calls : List (Option D)

/-- The loop of `htable_free_with_cleanup` from entry `idx` on; `dataFreeCb` says that
`data_free_cb` is not `NULL`, and `none` that the loop is still running after `fuel`
rounds. -/
def cleanupLoop (entries : Block (HtEntry K D)) (dataFreeCb : Bool) :
    ℕ → ℕ → Option (CleanupResult K D)
  | 0, _ => none
  | fuel + 1, idx =>
    if idx = uint32Max then some ⟨[], []⟩
    else do
      let entry ← entries.read idx
      let r ← cleanupLoop entries dataFreeCb fuel entry.nextIdx
      some ⟨entry.key :: r.freed, if dataFreeCb then entry.data :: r.calls else r.calls⟩

/-- `htable_free_with_cleanup`. -/
def htableFreeWithCleanup (t : Htable K D) (dataFreeCb : Bool) (fuel : ℕ) :
    Option (CleanupResult K D) :=
  cleanupLoop t.entries dataFreeCb fuel t.headIdx

/-- `htable_free`. -/
def htableFree (t : Htable K D) (fuel : ℕ) : Option (CleanupResult K D) :=
  htableFreeWithCleanup t false fuel

/-- The result of a walk over the given keys and data. -/
def cleanupOf (dataFreeCb : Bool) (l : List (K × Option D)) : CleanupResult K D :=
  ⟨l.map Prod.fst, if dataFreeCb then l.map Prod.snd else []⟩

/-- Along the links of the live entries the loop meets each of them once. -/
theorem cleanupLoop_eq [Hashable K] {es : Block (HtEntry K D)} {dataFreeCb : Bool}
    {cs : List (LiveEntry K D)} {p fuel : ℕ}
    (hlinks : Linked (entryNext es) (entryPrev es) p (cs.map LiveEntry.idx) uint32Max)
    (hnil : uint32Max ∉ cs.map LiveEntry.idx)
    (hentry : ∀ c ∈ cs, ∃ p n, es.read c.idx = some ⟨c.key, c.data, hash c.key, p, n⟩)
    (hfuel : cs.length < fuel) :
    cleanupLoop es dataFreeCb fuel ((cs.map LiveEntry.idx).headD uint32Max)
      = some (cleanupOf dataFreeCb (cs.map LiveEntry.pair)) := by
  induction cs generalizing p fuel with
  | nil =>
    obtain ⟨n, rfl⟩ : ∃ n, fuel = n + 1 := ⟨fuel - 1, by omega⟩
    cases dataFreeCb <;> rfl
  | cons c cs ih =>
    obtain ⟨n, rfl⟩ : ∃ n, fuel = n + 1 := ⟨fuel - 1, by omega⟩
    obtain ⟨-, hnext, hlinks⟩ := hlinks
    obtain ⟨q, m, he⟩ := hentry c List.mem_cons_self
    rw [List.map_cons, List.mem_cons, not_or] at hnil
    rw [entryNext, he, Option.map_some, Option.some_inj] at hnext
    have ih := ih hlinks hnil.2 (fun c' hc' => hentry c' (List.mem_cons_of_mem c hc'))
      (Nat.lt_of_succ_lt_succ hfuel)
    rw [List.map_cons, List.headD_cons, cleanupLoop, if_neg (Ne.symm hnil.1), he]
    simp only [Option.bind_eq_bind, Option.bind_some]
    rw [show m = _ from hnext, ih]
    cases dataFreeCb <;> rfl

/-- The final walk of a table that satisfies the invariant. -/
theorem Htable.Inv.cleanup_eq [BEq K] [Hashable K] {t : Htable K D} {cs : List (LiveEntry K D)}
    {ds : List ℕ} (h : t.Inv cs ds) (dataFreeCb : Bool) {fuel : ℕ} (hfuel : t.count < fuel) :
    htableFreeWithCleanup t dataFreeCb fuel
      = some (cleanupOf dataFreeCb (cs.map LiveEntry.pair)) := by
  rw [htableFreeWithCleanup, h.links.head_eq]
  exact cleanupLoop_eq h.links.linked h.links.nil_notMem h.entry (h.count_eq ▸ hfuel)

/-- What `htable_foreach` and the final walk meet is the map. -/
theorem MapOf.contents [BEq K] [Hashable K] {t : Htable K D} {m : List (K × Option D)}
    (h : MapOf t m) :
    ∃ l, htableContents t = some l ∧
      (∀ dataFreeCb, htableFreeWithCleanup t dataFreeCb (t.count + 1)
        = some (cleanupOf dataFreeCb l)) ∧
      Assoc.Distinct l ∧ ∀ key, Assoc.get l key = Assoc.get m key := by
  obtain ⟨cs, ds, hinv, -, -, hget⟩ := h
  exact ⟨cs.map LiveEntry.pair, hinv.htableContents_eq,
    fun dataFreeCb => hinv.cleanup_eq dataFreeCb (Nat.lt_succ_self _), hinv.distinct,
    fun key => (hget key).symm⟩

/-! ### The ledger -/

section Ledger

variable [BEq K] [Hashable K]

/-- The keys that `htable_set_with_flag` gets from `HT_KEY_DUP_CB` behind its growth check:
one, if the probe ends at a free slot and `HT_KEY_DUP_CHECK` passes. -/
def insertCopies (t : Htable K D) (key : K) (al : SetAlloc K key) : Option (List K) := do
  match ← t.setProbe key with
  | .found _ => some []
  | .absent insertTargetHash =>
    if insertTargetHash = uint64Max then some []
    else some (al.dupKey.toList.map Subtype.val)

/-- The keys that `htable_set_with_flag` gets from `HT_KEY_DUP_CB`. -/
def setCopies (t : Htable K D) (key : K) (al : SetAlloc K key) : Option (List K) :=
  if t.mustGrow then do
    match ← htableGrow al.calloc al.malloc t with
    | none => some []
    | some t => insertCopies t key al
  else insertCopies t key al

/-- The keys that a call copies. -/
def HtOp.copies (t : Htable K D) : HtOp K D → Option (List K)
  | .set key _ al _ => setCopies t key al
  | _ => some []

/-- The keys that a call frees. -/
def HtOp.frees (t : Htable K D) : HtOp K D → Option (List K)
  | .delete key reallocDeleted =>
    (htableDeleteWithFlag t key reallocDeleted).map fun r => r.freed.toList
  | _ => some []

variable (K D) in
/-- A table, the keys copied and the keys freed so far, and the contents that the return
values of the calls so far amount to. -/
structure Ledger where
  table : Htable K D
  copies : List K
  frees : List K
  contents : List (K × Option D)

/-- One call. -/
def ledgerStep (l : Ledger K D) (op : HtOp K D) : Option (HtOut D × Ledger K D) := do
  let (out, table) ← htStep l.table op
  let copies ← op.copies l.table
  let frees ← op.frees l.table
  some (out,
    { table := table
      copies := l.copies ++ copies
      frees := l.frees ++ frees
      contents := orderStep l.contents op out })

theorem htStep_of_ledgerStep {l l' : Ledger K D} {op : HtOp K D} {out : HtOut D}
    (h : ledgerStep l op = some (out, l')) : htStep l.table op = some (out, l'.table) := by
  obtain ⟨⟨out', table⟩, hstep, h⟩ := Option.bind_eq_some_iff.mp h
  obtain ⟨copies, -, h⟩ := Option.bind_eq_some_iff.mp h
  obtain ⟨frees, -, h⟩ := Option.bind_eq_some_iff.mp h
  obtain ⟨rfl, rfl⟩ := Prod.mk.inj (Option.some.inj h)
  exact hstep

/-- The copies made so far are those freed and the keys of the entries present, one for
one; the table holds the data last set; and if it is now freed, the rest of the copies
are freed with it and `data_free_cb` is called for the data of each entry present. -/
structure Ledger.Owned (l : Ledger K D) : Prop where
  owned : l.copies.Perm (l.frees ++ l.contents.map Prod.fst)
  get : ∀ key, htableGetWithFlag l.table key
    = some ((Assoc.get l.contents key).join, (Assoc.get l.contents key).isSome)
  cleanup : ∀ dataFreeCb fuel, l.table.count < fuel →
    ∃ r, htableFreeWithCleanup l.table dataFreeCb fuel = some r ∧
      l.copies.Perm (l.frees ++ r.freed) ∧
      r.calls.Perm (if dataFreeCb then l.contents.map Prod.snd else [])

end Ledger

/-! ### Copies and frees -/

section Copies

variable [BEq K] [Hashable K] {t : Htable K D} {key : K} {data : Option D} {al : SetAlloc K key}
  {flagCreated : Bool} {r : SetResult K D}

theorem insertCopies_eq (h : htableInsert t key data al flagCreated = some r) :
    insertCopies t key al = some (if r.ret && r.flagCreated then [al.copy] else []) := by
  obtain ⟨-, probe, hprobe, h⟩ := htableInsert_outcome h
  rw [insertCopies, Htable.setProbe, hprobe, Option.bind_eq_bind, Option.bind_some]
  cases h with
  | overwritten => rfl
  | full =>
    dsimp only
    rw [if_pos rfl]
    rfl
  | uncopied hs hdup =>
    dsimp only
    rw [if_neg hs, hdup]
    rfl
  | inserted hs hdup htake hwrite hlink =>
    dsimp only
    rw [if_neg hs, SetAlloc.copy, hdup]
    rfl

/-- A set copies its key just when it reports a new one. -/
theorem setCopies_eq (h : htableSetWithFlag t key data al flagCreated = some r) :
    setCopies t key al = some (if r.ret && r.flagCreated then [al.copy] else []) := by
  rw [setCopies]
  rcases htableSetWithFlag_eq_some h with ⟨hg, hgrow, rfl⟩ | ⟨hg, t₁, hgrow, h⟩ | ⟨hg, h⟩
  · rw [if_pos hg, hgrow]
    rfl
  · rw [if_pos hg, hgrow, Option.bind_eq_bind, Option.bind_some]
    exact insertCopies_eq h
  · rw [if_neg (Bool.not_eq_true _ ▸ hg)]
    exact insertCopies_eq h

end Copies

/-! ### Steps -/

section Step

variable [BEq K] [Hashable K]

/-- The invariant of a ledger. -/
def Ledger.Inv (l : Ledger K D) : Prop :=
  ∃ cs ds, l.table.Inv cs ds ∧ (cs.map LiveEntry.pair).Perm l.contents ∧
    l.copies.Perm (l.frees ++ l.contents.map Prod.fst)

variable [EquivBEq K] [LawfulHashable K] {l : Ledger K D}

theorem Ledger.Inv.owned (h : l.Inv) : l.Owned := by
  obtain ⟨cs, ds, hinv, hperm, hcopies⟩ := h
  refine ⟨hcopies, fun key => ?_, fun dataFreeCb fuel hfuel => ?_⟩
  · rw [hinv.htableGetWithFlag_eq, Assoc.get_perm hinv.distinct hperm]
  · refine ⟨_, hinv.cleanup_eq dataFreeCb hfuel, ?_, ?_⟩
    · exact hcopies.trans (List.Perm.append_left _ (hperm.symm.map _))
    · rw [cleanupOf]
      split
      · exact hperm.map _
      · exact List.Perm.refl _

omit [EquivBEq K] [LawfulHashable K] in
theorem ledgerStep_set {key : K} {data : Option D} {al : SetAlloc K key} {flagCreated : Bool}
    {r : SetResult K D} (hr : htableSetWithFlag l.table key data al flagCreated = some r) :
    ledgerStep l (.set key data al flagCreated) = some (.set r.ret r.flagCreated,
      { table := r.table
        copies := l.copies ++ if r.ret && r.flagCreated then [al.copy] else []
        frees := l.frees
        contents := orderStep l.contents (.set key data al flagCreated)
          (.set r.ret r.flagCreated) }) := by
  rw [ledgerStep, htStep, hr]
  simp only [HtOp.copies, HtOp.frees, Option.bind_eq_bind, Option.bind_some, setCopies_eq hr,
    List.append_nil]

/-- A set that reports success has appended the key, and the copy is its new owner, or
changed its data. -/
theorem Ledger.Inv.set (h : l.Inv) {key : K} {data : Option D} {al : SetAlloc K key}
    {flagCreated : Bool} (hfits : (HtOp.set key data al flagCreated).Fits l.table) :
    ∃ out l', ledgerStep l (.set key data al flagCreated) = some (out, l') ∧ l'.Inv := by
  obtain ⟨cs, ds, hinv, hperm, hcopies⟩ := h
  obtain ⟨r, cs', ds', m, hr, hinv', hmperm, -, -, -, hcase⟩ :=
    htableSetWithFlag_eq hinv key (hinv.count_lt_of_fits hfits) data al flagCreated
  have hcontents : m.Perm l.contents := hmperm.trans hperm
  refine ⟨_, _, ledgerStep_set hr, cs', ds', hinv', ?_, ?_⟩
  · rcases hcase with ⟨hret, -, hcs⟩ | ⟨hret, -, hcs⟩
    · rw [hcs, hret]
      exact Assoc.set_perm hcontents _ _
    · rw [hcs, hret]
      exact hcontents
  · rcases hcase with ⟨hret, hflag, -⟩ | ⟨hret, -, -⟩
    · have hget : Assoc.get (cs.map LiveEntry.pair) key = Assoc.get l.contents al.copy := by
        rw [Assoc.get_perm hinv.distinct hperm, Assoc.get_congr al.copy_beq]
      rw [hret, hflag, hget, orderStep, Assoc.map_fst_set]
      cases Assoc.get l.contents al.copy with
      | none =>
        -- A new key.
        show (l.copies ++ [al.copy]).Perm (l.frees ++ (l.contents.map Prod.fst ++ [al.copy]))
        rw [← List.append_assoc]
        exact hcopies.append_right _
      | some d =>
        show (l.copies ++ []).Perm (l.frees ++ l.contents.map Prod.fst)
        rw [List.append_nil]
        exact hcopies
    · rw [hret]
      show (l.copies ++ []).Perm (l.frees ++ l.contents.map Prod.fst)
      rw [List.append_nil]
      exact hcopies

/-- A deletion frees the copy of the key it removes. -/
theorem Ledger.Inv.delete (h : l.Inv) (key : K) (reallocDeleted : Bool) :
    ∃ out l', ledgerStep l (.delete key reallocDeleted) = some (out, l') ∧ l'.Inv := by
  obtain ⟨cs, ds, hinv, hperm, hcopies⟩ := h
  have hsame : htableDeleteWithFlag l.table key reallocDeleted
      = some ⟨none, false, none, l.table⟩ →
      ∃ out l', ledgerStep l (.delete key reallocDeleted) = some (out, l') ∧ l'.Inv := by
    intro hd
    refine ⟨.delete none false, l, ?_, cs, ds, hinv, hperm, hcopies⟩
    rw [ledgerStep, htStep, hd]
    simp only [HtOp.copies, HtOp.frees, hd, Option.bind_eq_bind, Option.bind_some,
      Option.map_some, Option.toList_none, List.append_nil, orderStep]
  rcases exists_mem_or_forall_ne cs key with ⟨c, hc, hk⟩ | hk
  · obtain ⟨cs₁, cs₂, rfl⟩ := List.append_of_mem hc
    rcases htableDelete_of_mem hinv hk reallocDeleted with ⟨hd, -⟩ | ⟨-, t', hd, -, hinv'⟩
    · exact hsame hd
    · have hdel : ((cs₁ ++ cs₂).map LiveEntry.pair).Perm (Assoc.del l.contents key) := by
        rw [hinv.map_pair_remove hk]
        exact Assoc.del_perm hperm key
      refine ⟨.delete c.data true,
        { table := t'
          copies := l.copies ++ []
          frees := l.frees ++ [c.key]
          contents := Assoc.del l.contents key }, ?_, cs₁ ++ cs₂, ds ++ [c.idx], hinv', hdel, ?_⟩
      · rw [ledgerStep, htStep, hd]
        simp only [HtOp.copies, HtOp.frees, hd, Option.bind_eq_bind, Option.bind_some,
          Option.map_some, Option.toList_some, orderStep]
      · -- The freed key leaves the keys of the contents.
        have hkeys : (l.contents.map Prod.fst).Perm
            (c.key :: (Assoc.del l.contents key).map Prod.fst) := by
          refine (hperm.map Prod.fst).symm.trans ?_
          refine List.Perm.trans ?_ ((hdel.map Prod.fst).cons c.key)
          simp only [List.map_append, List.map_cons, List.map_map]
          exact List.perm_middle
        rw [List.append_nil, List.append_assoc]
        exact hcopies.trans (hkeys.append_left _)
  · exact hsame (htableDelete_of_forall_ne hinv hk reallocDeleted)

omit [EquivBEq K] [LawfulHashable K] in
/-- A lookup leaves the ledger as it is. -/
theorem ledgerStep_same {op : HtOp K D} {out : HtOut D}
    (hstep : htStep l.table op = some (out, l.table)) (hcopies : op.copies l.table = some [])
    (hfrees : op.frees l.table = some []) (hsame : orderStep l.contents op out = l.contents) :
    ledgerStep l op = some (out, l) := by
  rw [ledgerStep, hstep]
  simp only [hcopies, hfrees, hsame, Option.bind_eq_bind, Option.bind_some, List.append_nil]

/-- One call that fits. -/
theorem Ledger.Inv.step (h : l.Inv) {op : HtOp K D} (hfits : op.Fits l.table) :
    ∃ out l', ledgerStep l op = some (out, l') ∧ l'.Inv := by
  have hget := h.owned.get
  cases op with
  | set key data al flagCreated => exact h.set hfits
  | delete key reallocDeleted => exact h.delete key reallocDeleted
  | get key =>
    have hstep : htStep l.table (.get key) = some (.get (Assoc.get l.contents key).join
        (Assoc.get l.contents key).isSome, l.table) := by
      rw [htStep, hget]
      rfl
    exact ⟨_, l, ledgerStep_same hstep rfl rfl rfl, h⟩
  | has key =>
    have hstep : htStep l.table (.has key)
        = some (.has (Assoc.get l.contents key).isSome, l.table) := by
      rw [htStep, htableHas, hget]
      rfl
    exact ⟨_, l, ledgerStep_same hstep rfl rfl rfl, h⟩
  | count => exact ⟨_, l, ledgerStep_same rfl rfl rfl rfl, h⟩

end Step

/-! ### Runs -/

/-- In every state of a run of calls that fit, whatever their allocations do, the copies
made so far are those freed and the keys of the entries present; and if the table is then
freed, every copy has been freed once and `data_free_cb` was called once for the data of
each entry present. -/
theorem htable_owned [BEq K] [Hashable K] [EquivBEq K] [LawfulHashable K] {al : CreateAlloc}
    {initialCap : ℕ} {t₀ : Htable K D} (hcap : initialCap ≤ 2 ^ 62)
    (hcreate : htableCreate al initialCap = some (some t₀)) {ops : List (HtOp K D)}
    (hops : EachStep ledgerStep (fun l op => op.Fits l.table) ⟨t₀, [], [], []⟩ ops) :
    Always ledgerStep Ledger.Owned ⟨t₀, [], [], []⟩ ops := by
  obtain ⟨⟨cs, ds, hinv, -, hlen, -⟩, -⟩ := MapOf.create hcap hcreate
  obtain rfl : cs = [] := List.eq_nil_of_length_eq_zero hlen.symm
  have hstart : Ledger.Inv ⟨t₀, [], [], []⟩ :=
    ⟨[], ds, hinv, List.Perm.refl _, List.Perm.refl _⟩
  exact always_of_invariant (fun _ => Ledger.Inv.owned)
    (fun _ _ h hfits => Ledger.Inv.step h hfits) hstart hops

/-- Two strings in a table of capacity two.  The first is overwritten, deleted and set
again, with a copy that fails on the way. -/
theorem htable_owned_str : ∃ t₀ : Htable StrKey ℕ,
    htableCreate ⟨true, true, true⟩ 2 = some (some t₀) ∧
    Always ledgerStep Ledger.Owned ⟨t₀, [], [], []⟩
      [.set ⟨1, [97], by decide⟩ (some 10) (strSetAlloc true true (some 100) true _) false,
        .set ⟨2, [98, 99], by decide⟩ (some 20) (strSetAlloc true true none true _) false,
        .set ⟨3, [98, 99], by decide⟩ (some 20) (strSetAlloc true true (some 101) true _) false,
        .set ⟨4, [97], by decide⟩ (some 11) (strSetAlloc true true (some 102) true _) false,
        .delete ⟨5, [97], by decide⟩ true,
        .set ⟨6, [97], by decide⟩ (some 12) (strSetAlloc true true (some 100) true _) false] := by
  obtain ⟨t₀, hcreate⟩ : ∃ t₀ : Htable StrKey ℕ,
      htableCreate ⟨true, true, true⟩ 2 = some (some t₀) := ⟨_, rfl⟩
  have ht := Option.some.inj (Option.some.inj hcreate)
  refine ⟨t₀, hcreate, htable_owned (by decide) hcreate ?_⟩
  rw [← ht]
  decide +kernel

end Freehttpd
