/-
Runs of a deterministic machine whose steps can fail.

A machine is a function `step : σ → ι → Option (ω × σ)`: in state `s` the input
`i` either goes wrong (`none`) or gives an output and the next state.

* `runs` — feed a list of inputs, collecting the outputs;
* `runLog` — collect what a step has on record instead;
* `EachStep` — every step of a run meets a condition on the state before it and
  on its input;
* `runs_invariant` — an invariant kept by every step that meets the condition
  holds at the end of every run whose steps all do, and the run does not fail;
* `runs_iff_someStep` — what comes about at certain steps holds at the end if the
  run has one of them;
* `eachStep_le_final` — a quantity that only grows is bounded by its final value;
* `runs_refine` — the same for a simulation of a machine that cannot fail;
* `runs_agree` — two machines that fail together answer every run alike;
* `runs_follow` — and for a second state that only the inputs determine;
* `refinesThroughout_iff`, `always_iff`, `always_iff_of_runs` — the exact
  condition on the steps under which every state of a run has a property.
-/
import Mathlib.Data.List.Basic
import Mathlib.Tactic.Common

namespace Runs

variable {σ τ ι ω : Type*}

/-- Feed the inputs one after the other, collecting the outputs. -/
def runs (step : σ → ι → Option (ω × σ)) : σ → List ι → Option (List ω × σ)
  | s, [] => some ([], s)
  | s, i :: is => do
    let (o, s) ← step s i
    let (os, s) ← runs step s is
    some (o :: os, s)

/-- Feed the inputs one after the other, collecting what `log` says of each step from
the state before it and from its input.  Nothing is logged behind a step that fails. -/
def runLog {κ : Type*} (step : σ → ι → Option (ω × σ)) (log : σ → ι → List κ) :
    σ → List ι → List κ
  | _, [] => []
  | s, i :: is => log s i ++ match step s i with
    | none => []
    | some (_, s) => runLog step log s is

/-- Every step meets `C`, a condition on the state before the step and on the
input.  Nothing is asked behind a step that fails. -/
def EachStep (step : σ → ι → Option (ω × σ)) (C : σ → ι → Prop) : σ → List ι → Prop
  | _, [] => True
  | s, i :: is => C s i ∧ match step s i with
    | none => True
    | some (_, s) => EachStep step C s is

instance decidableEachStep (step : σ → ι → Option (ω × σ)) (C : σ → ι → Prop)
    [∀ s i, Decidable (C s i)] : ∀ s is, Decidable (EachStep step C s is)
  | _, [] => .isTrue trivial
  | s, i :: is =>
    have : Decidable (match step s i with | none => True | some (_, s) => EachStep step C s is) :=
      match step s i with
      | none => .isTrue trivial
      | some (_, s) => decidableEachStep step C s is
    inferInstanceAs (Decidable (C s i ∧ _))

/-- The run of a machine that cannot fail. -/
def runsTotal (step : τ → ι → ω × τ) : τ → List ι → List ω × τ
  | a, [] => ([], a)
  | a, i :: is =>
    let (os, b) := runsTotal step (step a i).2 is
    ((step a i).1 :: os, b)

variable {step : σ → ι → Option (ω × σ)} {C : σ → ι → Prop}

theorem runs_cons_of_step {s s' : σ} {i : ι} {o : ω} (h : step s i = some (o, s')) (is : List ι) :
    runs step s (i :: is) = (runs step s' is).map fun r => (o :: r.1, r.2) := by
  rw [runs, h, Option.bind_eq_bind, Option.bind_some]
  cases hr : runs step s' is <;> simp [hr]

theorem runs_cons_eq_some {s t : σ} {i : ι} {is : List ι} {os : List ω}
    (h : runs step s (i :: is) = some (os, t)) :
    ∃ o s' os', step s i = some (o, s') ∧ runs step s' is = some (os', t) ∧ os = o :: os' := by
  rw [runs, Option.bind_eq_bind, Option.bind_eq_some_iff] at h
  obtain ⟨⟨o, s'⟩, hs, h⟩ := h
  obtain ⟨⟨os', t'⟩, hr, h⟩ := Option.bind_eq_some_iff.mp h
  obtain ⟨rfl, rfl⟩ := Prod.mk.inj (Option.some.inj h)
  exact ⟨o, s', os', hs, hr, rfl⟩

theorem runLog_cons_of_step {κ : Type*} {log : σ → ι → List κ} {s s' : σ} {i : ι} {o : ω}
    (h : step s i = some (o, s')) (is : List ι) :
    runLog step log s (i :: is) = log s i ++ runLog step log s' is := by
  rw [runLog, h]

theorem runs_append (s : σ) (is js : List ι) :
    runs step s (is ++ js) = (runs step s is).bind fun r =>
      (runs step r.2 js).map fun r' => (r.1 ++ r'.1, r'.2) := by
  induction is generalizing s with
  | nil => simp [runs]
  | cons i is ih =>
    rw [List.cons_append]
    cases hs : step s i with
    | none => rw [runs, runs, hs]; rfl
    | some r =>
      rw [runs_cons_of_step hs, runs_cons_of_step hs, ih]
      cases runs step r.2 is with
      | none => rfl
      | some r' => cases h : runs step r'.2 js <;> simp [h]

/-- A run is also one of a machine that sees less of the state. -/
theorem runs_map {step' : τ → ι → Option (ω × τ)} {f : σ → τ}
    (hstep : ∀ s i o s', step s i = some (o, s') → step' (f s) i = some (o, f s')) {s t : σ}
    {is : List ι} {os : List ω} (hr : runs step s is = some (os, t)) :
    runs step' (f s) is = some (os, f t) := by
  induction is generalizing s os with
  | nil =>
    obtain ⟨rfl, rfl⟩ := Prod.mk.inj (Option.some.inj hr)
    rfl
  | cons i is ih =>
    obtain ⟨o, s', os', hs, hr', rfl⟩ := runs_cons_eq_some hr
    rw [runs_cons_of_step (hstep s i o s' hs), ih hr', Option.map_some]

theorem eachStep_cons_of_step {s s' : σ} {i : ι} {o : ω} (h : step s i = some (o, s'))
    (is : List ι) : EachStep step C s (i :: is) ↔ C s i ∧ EachStep step C s' is := by
  rw [EachStep, h]

theorem eachStep_singleton {s : σ} {i : ι} : EachStep step C s [i] ↔ C s i := by
  rw [EachStep]
  cases step s i <;> simp [EachStep]

theorem eachStep_append {s t : σ} {is js : List ι} {os : List ω}
    (h : runs step s is = some (os, t)) :
    EachStep step C s (is ++ js) ↔ EachStep step C s is ∧ EachStep step C t js := by
  induction is generalizing s os with
  | nil =>
    obtain ⟨rfl, rfl⟩ := Prod.mk.inj (Option.some.inj h)
    simp [EachStep]
  | cons i is ih =>
    obtain ⟨o, s', os', hs, hr, -⟩ := runs_cons_eq_some h
    rw [List.cons_append, eachStep_cons_of_step hs, eachStep_cons_of_step hs, ih hr, and_assoc]

/-- What every step of a run meets, those of a prefix do. -/
theorem EachStep.of_append {s : σ} {is js : List ι} (h : EachStep step C s (is ++ js)) :
    EachStep step C s is := by
  induction is generalizing s with
  | nil => trivial
  | cons i is ih =>
    rw [List.cons_append, EachStep] at h
    rw [EachStep]
    refine ⟨h.1, ?_⟩
    cases hs : step s i with
    | none => trivial
    | some r =>
      rw [hs] at h
      exact ih h.2

/-- A condition may be weakened along a run. -/
theorem EachStep.imp {C' : σ → ι → Prop} {s : σ} {is : List ι} (h : EachStep step C s is)
    (hc : ∀ s i, C s i → C' s i) : EachStep step C' s is := by
  induction is generalizing s with
  | nil => trivial
  | cons i is ih =>
    rw [EachStep] at h ⊢
    refine ⟨hc s i h.1, ?_⟩
    cases hs : step s i with
    | none => trivial
    | some r =>
      rw [hs] at h
      exact ih h.2

/-- Where an invariant makes two conditions the same, a run meets one throughout if it
meets the other. -/
theorem eachStep_congr {I : σ → Prop} {P Q : σ → ι → Prop}
    (hstep : ∀ s i, I s → C s i → ∃ o s', step s i = some (o, s') ∧ I s')
    (hiff : ∀ s i, I s → C s i → (P s i ↔ Q s i)) {s : σ} {is : List ι} (hs : I s)
    (hC : EachStep step C s is) : EachStep step P s is ↔ EachStep step Q s is := by
  induction is generalizing s with
  | nil => exact Iff.rfl
  | cons i is ih =>
    obtain ⟨o, s', hss', hI⟩ := hstep s i hs hC.1
    rw [eachStep_cons_of_step hss'] at hC
    rw [eachStep_cons_of_step hss', eachStep_cons_of_step hss', hiff s i hs hC.1, ih hI hC.2]

/-- Two conditions that say the same of every step from a state with the invariant, if the
steps that meet them keep it. -/
theorem eachStep_iff {I : σ → Prop} {P D : σ → ι → Prop} {Q : ι → Prop}
    (hgood : ∀ s i, I s → Q i → D s i → ∃ o s', step s i = some (o, s') ∧ I s')
    (hiff : ∀ s i, I s → Q i → (P s i ↔ D s i)) {s : σ} {is : List ι} (hs : I s)
    (hQ : ∀ i ∈ is, Q i) : EachStep step P s is ↔ EachStep step D s is := by
  induction is generalizing s with
  | nil => exact Iff.rfl
  | cons i is ih =>
    have hi := hQ i List.mem_cons_self
    by_cases hD : D s i
    · obtain ⟨o, s', hss', hI⟩ := hgood s i hs hi hD
      rw [eachStep_cons_of_step hss', eachStep_cons_of_step hss', hiff s i hs hi,
        ih hI fun j hj => hQ j (List.mem_cons_of_mem i hj)]
    · exact iff_of_false (fun h => hD ((hiff s i hs hi).mp h.1)) fun h => hD h.1

/-- Two conditions that hold at every step hold together. -/
theorem EachStep.and {C' : σ → ι → Prop} {s : σ} {is : List ι} (h : EachStep step C s is)
    (h' : EachStep step C' s is) : EachStep step (fun s i => C s i ∧ C' s i) s is := by
  induction is generalizing s with
  | nil => trivial
  | cons i is ih =>
    rw [EachStep] at h h' ⊢
    refine ⟨⟨h.1, h'.1⟩, ?_⟩
    cases hs : step s i with
    | none => trivial
    | some r =>
      rw [hs] at h h'
      exact ih h.2 h'.2

/-- What holds of the inputs whatever the state is holds at every step. -/
theorem eachStep_of_forall {is : List ι} (h : ∀ i ∈ is, ∀ s, C s i) (s : σ) :
    EachStep step C s is := by
  induction is generalizing s with
  | nil => trivial
  | cons i is ih =>
    rw [EachStep]
    refine ⟨h i (by simp) s, ?_⟩
    cases step s i with
    | none => trivial
    | some r => exact ih (fun j hj => h j (by simp [hj])) r.2

/-- A condition on the inputs alone holds at every step. -/
theorem EachStep.and_forall {Q : ι → Prop} {s : σ} {is : List ι} (h : EachStep step C s is)
    (hq : ∀ i ∈ is, Q i) : EachStep step (fun s i => C s i ∧ Q i) s is :=
  h.and (eachStep_of_forall (fun i hi _ => hq i hi) s)

/-- An invariant that every step keeps holds at the end of every run. -/
theorem runs_invariant {I : σ → Prop}
    (hstep : ∀ s i, I s → C s i → ∃ o s', step s i = some (o, s') ∧ I s') {s : σ} {is : List ι}
    (hs : I s) (hC : EachStep step C s is) :
    ∃ os t, runs step s is = some (os, t) ∧ I t := by
  induction is generalizing s with
  | nil => exact ⟨[], s, rfl, hs⟩
  | cons i is ih =>
    obtain ⟨o, s', hss', hI⟩ := hstep s i hs hC.1
    obtain ⟨os, t, hr, ht⟩ := ih hI ((eachStep_cons_of_step hss' is).mp hC).2
    exact ⟨o :: os, t, by rw [runs_cons_of_step hss', hr]; rfl, ht⟩

/-- The same for an invariant that only the steps that do not fail keep. -/
theorem runs_preserves {I : σ → Prop} {Q : ι → Prop}
    (hstep : ∀ s i o s', I s → Q i → step s i = some (o, s') → I s') {s t : σ} {is : List ι}
    {os : List ω} (hs : I s) (hQ : ∀ i ∈ is, Q i) (hr : runs step s is = some (os, t)) : I t := by
  induction is generalizing s os with
  | nil =>
    obtain ⟨-, rfl⟩ := Prod.mk.inj (Option.some.inj hr)
    exact hs
  | cons i is ih =>
    obtain ⟨o, s', os', hss', hr', -⟩ := runs_cons_eq_some hr
    exact ih (hstep s i o s' hs (hQ i (by simp)) hss') (fun j hj => hQ j (by simp [hj])) hr'

/-- What no step decreases was never more than it is at the end of the run. -/
theorem eachStep_le_final {I : σ → Prop} {f : σ → ℕ}
    (hstep : ∀ s i o s', I s → step s i = some (o, s') → I s' ∧ f s ≤ f s') {s t : σ}
    {is : List ι} {os : List ω} (hs : I s) (hr : runs step s is = some (os, t)) :
    f s ≤ f t ∧ EachStep step (fun s _ => f s ≤ f t) s is := by
  induction is generalizing s os with
  | nil =>
    obtain ⟨-, rfl⟩ := Prod.mk.inj (Option.some.inj hr)
    exact ⟨Nat.le_refl _, trivial⟩
  | cons i is ih =>
    obtain ⟨o, s', os', hss', hr', -⟩ := runs_cons_eq_some hr
    obtain ⟨hs', hle⟩ := hstep s i o s' hs hss'
    obtain ⟨hle', heach⟩ := ih hs' hr'
    exact ⟨Nat.le_trans hle hle', (eachStep_cons_of_step hss' is).mpr
      ⟨Nat.le_trans hle hle', heach⟩⟩

/-- Some step meets `C`, a condition on the state before the step and on the input. -/
def SomeStep (step : σ → ι → Option (ω × σ)) (C : σ → ι → Prop) : σ → List ι → Prop
  | _, [] => False
  | s, i :: is => C s i ∨ match step s i with
    | none => False
    | some (_, s) => SomeStep step C s is

theorem someStep_cons_of_step {s s' : σ} {i : ι} {o : ω} (h : step s i = some (o, s'))
    (is : List ι) : SomeStep step C s (i :: is) ↔ C s i ∨ SomeStep step C s' is := by
  rw [SomeStep, h]

/-- What only the steps that meet `C` bring about, and no step undoes, holds at the end
of a run if it held before or one of the steps meets `C`. -/
theorem runs_iff_someStep {I P : σ → Prop} {Q : ι → Prop}
    (hstep : ∀ s i o s', I s → Q i → step s i = some (o, s') → I s' ∧ (P s' ↔ P s ∨ C s i))
    {s t : σ} {is : List ι} {os : List ω} (hs : I s) (hQ : ∀ i ∈ is, Q i)
    (hr : runs step s is = some (os, t)) : P t ↔ P s ∨ SomeStep step C s is := by
  induction is generalizing s os with
  | nil =>
    obtain ⟨-, rfl⟩ := Prod.mk.inj (Option.some.inj hr)
    exact ⟨.inl, fun h => h.resolve_right id⟩
  | cons i is ih =>
    obtain ⟨o, s', os', hss', hr', -⟩ := runs_cons_eq_some hr
    obtain ⟨hI, hiff⟩ := hstep s i o s' hs (hQ i List.mem_cons_self) hss'
    rw [someStep_cons_of_step hss', ih hI (fun j hj => hQ j (List.mem_cons_of_mem _ hj)) hr', hiff,
      or_assoc]

/-- A simulation of a machine that cannot fail: the outputs agree, and the
related states stay related. -/
theorem runs_refine {R : σ → τ → Prop} {astep : τ → ι → ω × τ}
    (hstep : ∀ s a i, R s a → C s i →
      ∃ s', step s i = some ((astep a i).1, s') ∧ R s' (astep a i).2)
    {s : σ} {a : τ} {is : List ι} (hs : R s a) (hC : EachStep step C s is) :
    ∃ t, runs step s is = some ((runsTotal astep a is).1, t) ∧ R t (runsTotal astep a is).2 := by
  induction is generalizing s a with
  | nil => exact ⟨s, rfl, hs⟩
  | cons i is ih =>
    obtain ⟨s', hss', hR⟩ := hstep s a i hs hC.1
    obtain ⟨t, hr, ht⟩ := ih hR ((eachStep_cons_of_step hss' is).mp hC).2
    exact ⟨t, by rw [runs_cons_of_step hss', hr]; rfl, ht⟩

/-- Two machines that fail together or answer the same run alike. -/
theorem runs_agree {R : σ → τ → Prop} {astep : τ → ι → Option (ω × τ)} {Q : ι → Prop}
    (hstep : ∀ s a i, R s a → Q i → (step s i = none ∧ astep a i = none) ∨
      ∃ o s' a', step s i = some (o, s') ∧ astep a i = some (o, a') ∧ R s' a')
    {s : σ} {a : τ} {is : List ι} (hs : R s a) (hQ : ∀ i ∈ is, Q i) :
    (runs step s is = none ∧ runs astep a is = none) ∨
      ∃ os t b, runs step s is = some (os, t) ∧ runs astep a is = some (os, b) ∧ R t b := by
  induction is generalizing s a with
  | nil => exact .inr ⟨[], s, a, rfl, rfl, hs⟩
  | cons i is ih =>
    rcases hstep s a i hs (hQ i List.mem_cons_self) with ⟨hno, hano⟩ | ⟨o, s', a', hss', haa', hR⟩
    · exact .inl ⟨by rw [runs, hno]; rfl, by rw [runs, hano]; rfl⟩
    · rw [runs_cons_of_step hss', runs_cons_of_step haa']
      rcases ih hR fun i' hi' => hQ i' (List.mem_cons_of_mem _ hi') with
        ⟨hno, hano⟩ | ⟨os, t, b, hr, har, hR'⟩
      · exact .inl ⟨by rw [hno]; rfl, by rw [hano]; rfl⟩
      · exact .inr ⟨o :: os, t, b, by rw [hr]; rfl, by rw [har]; rfl, hR'⟩

/-- A run beside a second state that follows from the inputs alone. -/
theorem runs_follow {R : σ → τ → Prop} {f : τ → ι → τ}
    (hstep : ∀ s a i, R s a → C s i → ∃ o s', step s i = some (o, s') ∧ R s' (f a i))
    {s : σ} {a : τ} {is : List ι} (hs : R s a) (hC : EachStep step C s is) :
    ∃ os t, runs step s is = some (os, t) ∧ R t (is.foldl f a) := by
  induction is generalizing s a with
  | nil => exact ⟨[], s, rfl, hs⟩
  | cons i is ih =>
    obtain ⟨o, s', hss', hR⟩ := hstep s a i hs hC.1
    obtain ⟨os, t, hr, ht⟩ := ih hR ((eachStep_cons_of_step hss' is).mp hC).2
    exact ⟨o :: os, t, by rw [runs_cons_of_step hss', hr]; rfl, ht⟩

/-- Every prefix of the inputs runs as the machine that cannot fail does, and
ends in related states. -/
def RefinesThroughout (step : σ → ι → Option (ω × σ)) (astep : τ → ι → ω × τ)
    (R : σ → τ → Prop) (s : σ) (a : τ) (is : List ι) : Prop :=
  ∀ p, p <+: is → ∃ t, runs step s p = some ((runsTotal astep a p).1, t) ∧
    R t (runsTotal astep a p).2

theorem refinesThroughout_nil {R : σ → τ → Prop} {astep : τ → ι → ω × τ} {s : σ} {a : τ} :
    RefinesThroughout step astep R s a [] ↔ R s a := by
  constructor
  · intro h
    obtain ⟨t, ht, hR⟩ := h [] (List.prefix_refl _)
    obtain ⟨-, rfl⟩ := Prod.mk.inj (Option.some.inj ht)
    exact hR
  · intro h p hp
    rw [List.prefix_nil.mp hp]
    exact ⟨s, rfl, h⟩

theorem refinesThroughout_cons {R : σ → τ → Prop} {astep : τ → ι → ω × τ} {s : σ} {a : τ}
    {i : ι} {is : List ι} :
    RefinesThroughout step astep R s a (i :: is) ↔
      R s a ∧ ∃ s', step s i = some ((astep a i).1, s') ∧
        RefinesThroughout step astep R s' (astep a i).2 is := by
  constructor
  · intro h
    obtain ⟨t₀, ht₀, hR⟩ := h [] (List.nil_prefix)
    obtain ⟨-, rfl⟩ := Prod.mk.inj (Option.some.inj ht₀)
    obtain ⟨t, ht, -⟩ := h [i] ⟨is, rfl⟩
    obtain ⟨o, s', os, hs, -, hos⟩ := runs_cons_eq_some ht
    obtain rfl : o = (astep a i).1 := (List.cons.inj hos).1.symm
    refine ⟨hR, s', hs, fun p hp => ?_⟩
    obtain ⟨t', ht', hR'⟩ := h (i :: p) (List.cons_prefix_cons.mpr ⟨rfl, hp⟩)
    rw [runs_cons_of_step hs, Option.map_eq_some_iff] at ht'
    obtain ⟨⟨os', t''⟩, hr, he⟩ := ht'
    obtain ⟨hos', rfl⟩ := Prod.mk.inj he
    obtain rfl : os' = (runsTotal astep (astep a i).2 p).1 := (List.cons.inj hos').2
    exact ⟨_, hr, hR'⟩
  · rintro ⟨hR, s', hs, h⟩ p hp
    cases p with
    | nil => exact ⟨s, rfl, hR⟩
    | cons j p =>
      obtain ⟨rfl, hp'⟩ := List.cons_prefix_cons.mp hp
      obtain ⟨t, ht, hR'⟩ := h p hp'
      exact ⟨t, by rw [runs_cons_of_step hs, ht]; rfl, hR'⟩

/-- When the property of a state is all that is asked, and `D` says exactly which
steps keep it, a run has the property throughout if and only if each of its
steps meets `D`. -/
theorem refinesThroughout_iff {I R : σ → τ → Prop} {astep : τ → ι → ω × τ}
    {D : σ → ι → Prop} (hIR : ∀ s a, I s a → R s a)
    (hgood : ∀ s a i, I s a → C s i → D s i →
      ∃ s', step s i = some ((astep a i).1, s') ∧ I s' (astep a i).2)
    (hbad : ∀ s a i s', I s a → C s i → ¬ D s i → step s i = some ((astep a i).1, s') →
      ¬ R s' (astep a i).2)
    {s : σ} {a : τ} {is : List ι} (hI : I s a) (hC : EachStep step C s is) :
    RefinesThroughout step astep R s a is ↔ EachStep step D s is := by
  induction is generalizing s a with
  | nil => exact iff_of_true (refinesThroughout_nil.mpr (hIR s a hI)) trivial
  | cons i is ih =>
    rw [refinesThroughout_cons]
    by_cases hD : D s i
    · obtain ⟨s', hs, hI'⟩ := hgood s a i hI hC.1 hD
      have ih := ih hI' ((eachStep_cons_of_step hs is).mp hC).2
      rw [eachStep_cons_of_step hs, ← ih]
      refine ⟨fun ⟨_, s'', hs'', h⟩ => ⟨hD, ?_⟩, fun ⟨_, h⟩ => ⟨hIR s a hI, s', hs, h⟩⟩
      obtain ⟨-, rfl⟩ := Prod.mk.inj (Option.some.inj (hs.symm.trans hs''))
      exact h
    · refine iff_of_false (fun ⟨_, s', hs, h⟩ => ?_) fun h => hD h.1
      obtain ⟨t, ht, hR⟩ := h [] List.nil_prefix
      obtain ⟨-, rfl⟩ := Prod.mk.inj (Option.some.inj ht)
      exact hbad s a i _ hI hC.1 hD hs hR

/-- No step fails, and every state satisfies `P`. -/
def Always (step : σ → ι → Option (ω × σ)) (P : σ → Prop) : σ → List ι → Prop
  | s, [] => P s
  | s, i :: is => P s ∧ ∃ o s', step s i = some (o, s') ∧ Always step P s' is

theorem Always.head {P : σ → Prop} {s : σ} {is : List ι} (h : Always step P s is) : P s := by
  cases is with
  | nil => exact h
  | cons i is => exact h.1

/-- A property of every state holds in every state behind a prefix. -/
theorem Always.append {P : σ → Prop} {s t : σ} {is js : List ι} {os : List ω}
    (h : Always step P s (is ++ js)) (hr : runs step s is = some (os, t)) :
    Always step P t js := by
  induction is generalizing s os with
  | nil =>
    obtain ⟨-, rfl⟩ := Prod.mk.inj (Option.some.inj hr)
    exact h
  | cons i is ih =>
    obtain ⟨o, s', os', hs, hr', -⟩ := runs_cons_eq_some hr
    obtain ⟨-, o', s'', hs', h⟩ := h
    obtain ⟨-, rfl⟩ := Prod.mk.inj (Option.some.inj (hs.symm.trans hs'))
    exact ih h hr'

/-- A property of every state holds at the end, and there is an end. -/
theorem Always.last {P : σ → Prop} {s : σ} {is : List ι} (h : Always step P s is) :
    ∃ os t, runs step s is = some (os, t) ∧ P t := by
  induction is generalizing s with
  | nil => exact ⟨[], s, rfl, h⟩
  | cons i is ih =>
    obtain ⟨-, o, s', hs, h⟩ := h
    obtain ⟨os, t, hr, ht⟩ := ih h
    exact ⟨o :: os, t, by rw [runs_cons_of_step hs, hr]; rfl, ht⟩

theorem always_cons_of_step {P : σ → Prop} {s s' : σ} {i : ι} {o : ω}
    (h : step s i = some (o, s')) (is : List ι) :
    Always step P s (i :: is) ↔ P s ∧ Always step P s' is := by
  constructor
  · rintro ⟨hP, o', s'', hs, hrest⟩
    obtain ⟨-, rfl⟩ := Prod.mk.inj (Option.some.inj (h.symm.trans hs))
    exact ⟨hP, hrest⟩
  · rintro ⟨hP, hrest⟩
    exact ⟨hP, o, s', h, hrest⟩

instance decidableAlways (step : σ → ι → Option (ω × σ)) (P : σ → Prop) [∀ s, Decidable (P s)] :
    ∀ s is, Decidable (Always step P s is)
  | s, [] => inferInstanceAs (Decidable (P s))
  | s, i :: is =>
    match h : step s i with
    | none => .isFalse fun ⟨_, o, s', hs, _⟩ => by rw [h] at hs; cases hs
    | some (_, s') =>
      have := decidableAlways step P s' is
      decidable_of_iff (P s ∧ Always step P s' is) (always_cons_of_step h is).symm

/-- A property of every state may be used by an invariant. -/
theorem Always.invariant {I P : σ → Prop}
    (hstep : ∀ s i o s', I s → P s' → step s i = some (o, s') → I s') {s : σ} {is : List ι}
    (hs : I s) (h : Always step P s is) : Always step I s is := by
  induction is generalizing s with
  | nil => exact hs
  | cons i is ih =>
    obtain ⟨-, o, s', hss', h⟩ := h
    exact ⟨hs, o, s', hss', ih (hstep s i o s' hs h.head hss') h⟩

theorem Always.imp {P Q : σ → Prop} {s : σ} {is : List ι} (h : Always step P s is)
    (hPQ : ∀ s, P s → Q s) : Always step Q s is := by
  induction is generalizing s with
  | nil => exact hPQ s h
  | cons i is ih =>
    obtain ⟨hs, o, s', hss', h⟩ := h
    exact ⟨hPQ s hs, o, s', hss', ih h⟩

/-- A property of what a machine sees of the state holds throughout its own run. -/
theorem Always.map {step' : τ → ι → Option (ω × τ)} {f : σ → τ} {P : τ → Prop}
    (hstep : ∀ s i o s', step s i = some (o, s') → step' (f s) i = some (o, f s')) {s : σ}
    {is : List ι} (h : Always step (fun s => P (f s)) s is) : Always step' P (f s) is := by
  induction is generalizing s with
  | nil => exact h
  | cons i is ih =>
    obtain ⟨hs, o, s', hss', h⟩ := h
    exact ⟨hs, o, f s', hstep s i o s' hss', ih h⟩

/-- What follows from a property of the state before it holds at every step. -/
theorem Always.eachStep {P : σ → Prop} {s : σ} {is : List ι} (h : Always step P s is)
    (hPC : ∀ s i, P s → C s i) : EachStep step C s is := by
  induction is generalizing s with
  | nil => trivial
  | cons i is ih =>
    obtain ⟨hs, o, s', hss', h⟩ := h
    exact (eachStep_cons_of_step hss' is).mpr ⟨hPC s i hs, ih h⟩

/-- An invariant that every step keeps, and with it what follows from it. -/
theorem always_of_invariant {I P : σ → Prop} (hIP : ∀ s, I s → P s)
    (hstep : ∀ s i, I s → C s i → ∃ o s', step s i = some (o, s') ∧ I s') {s : σ} {is : List ι}
    (hs : I s) (hC : EachStep step C s is) : Always step P s is := by
  induction is generalizing s with
  | nil => exact hIP s hs
  | cons i is ih =>
    obtain ⟨o, s', hss', hI⟩ := hstep s i hs hC.1
    exact ⟨hIP s hs, o, s', hss', ih hI ((eachStep_cons_of_step hss' is).mp hC).2⟩

/-- Where `D` says exactly which steps keep `P`, a run satisfies `P` throughout
if and only if each of its steps meets `D`. -/
theorem always_iff {I P : σ → Prop} {D : σ → ι → Prop} (hIP : ∀ s, I s → P s)
    (hgood : ∀ s i, I s → C s i → D s i → ∃ o s', step s i = some (o, s') ∧ I s')
    (hbad : ∀ s i o s', I s → C s i → ¬ D s i → step s i = some (o, s') → ¬ P s')
    {s : σ} {is : List ι} (hI : I s) (hC : EachStep step C s is) :
    Always step P s is ↔ EachStep step D s is := by
  induction is generalizing s with
  | nil => exact iff_of_true (hIP s hI) trivial
  | cons i is ih =>
    by_cases hD : D s i
    · obtain ⟨o, s', hs, hI'⟩ := hgood s i hI hC.1 hD
      rw [eachStep_cons_of_step hs, ← ih hI' ((eachStep_cons_of_step hs is).mp hC).2]
      refine ⟨fun ⟨_, o', s'', hs'', h⟩ => ⟨hD, ?_⟩, fun ⟨_, h⟩ => ⟨hIP s hI, o, s', hs, h⟩⟩
      obtain ⟨-, rfl⟩ := Prod.mk.inj (Option.some.inj (hs.symm.trans hs''))
      exact h
    · exact iff_of_false (fun ⟨_, o, s', hs, h⟩ => hbad s i o s' hI hC.1 hD hs h.head)
        fun h => hD h.1

/-- A run that is known not to fail satisfies `P` throughout if its steps meet a `D` that
keeps it. -/
theorem always_of_runs {I P : σ → Prop} {D : σ → ι → Prop} (hIP : ∀ s, I s → P s)
    (hkeep : ∀ s i o s', I s → D s i → step s i = some (o, s') → I s') {s t : σ} {is : List ι}
    {os : List ω} (hI : I s) (hr : runs step s is = some (os, t)) (hD : EachStep step D s is) :
    Always step P s is := by
  induction is generalizing s os with
  | nil => exact hIP s hI
  | cons i is ih =>
    obtain ⟨o, s', os', hs, hr', -⟩ := runs_cons_eq_some hr
    obtain ⟨hd, hD⟩ := (eachStep_cons_of_step hs is).mp hD
    exact ⟨hIP s hI, o, s', hs, ih (hkeep s i o s' hI hd hs) hr' hD⟩

/-- The condition is exact for a run that is known not to fail, if a step that does not
meet it goes wrong; neither kind of step need be shown to succeed. -/
theorem always_iff_of_runs {I P : σ → Prop} {D : σ → ι → Prop} {Q : ι → Prop}
    (hIP : ∀ s, I s → P s)
    (hkeep : ∀ s i o s', I s → Q i → D s i → step s i = some (o, s') → I s')
    (hbad : ∀ s i o s', I s → Q i → ¬ D s i → step s i = some (o, s') → ¬ P s')
    {s t : σ} {is : List ι} {os : List ω} (hI : I s) (hQ : ∀ i ∈ is, Q i)
    (hr : runs step s is = some (os, t)) : Always step P s is ↔ EachStep step D s is := by
  induction is generalizing s os with
  | nil => exact iff_of_true (hIP s hI) trivial
  | cons i is ih =>
    obtain ⟨o, s', os', hs, hr', -⟩ := runs_cons_eq_some hr
    have hi := hQ i List.mem_cons_self
    rw [eachStep_cons_of_step hs]
    by_cases hD : D s i
    · rw [← ih (hkeep s i o s' hI hi hD hs) (fun j hj => hQ j (List.mem_cons_of_mem _ hj)) hr']
      refine ⟨fun ⟨_, o', s'', hs'', h⟩ => ⟨hD, ?_⟩, fun ⟨_, h⟩ => ⟨hIP s hI, o, s', hs, h⟩⟩
      obtain ⟨-, rfl⟩ := Prod.mk.inj (Option.some.inj (hs.symm.trans hs''))
      exact h
    · refine iff_of_false (fun ⟨_, o', s'', hs'', h⟩ => ?_) fun h => hD h.1
      exact hbad s i o' s'' hI hi hD hs'' h.head

end Runs
