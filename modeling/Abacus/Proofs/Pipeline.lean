import Abacus.CommandLine.Run
import Abacus.Proofs.Calculation

/-!
Pipelines under the two policies. A pipeline calculates a text and applies
functions to the value, one after another, up to the first error. Each stage asks
the policy once, about its value alone. A pipeline that rejects therefore does what
the one that allows does, up to the first value that is not finite.
-/

namespace Abacus

/-- The function does not look at the policy. -/
def Function.IgnoresPolicy (f : Function) : Prop :=
  ∀ (options : Options) (policy : NonFinitePolicy) (x : Float),
    f.call { options with nonFinite := policy } x = f.call options x

def Registry.IgnoresPolicy (registry : Registry) : Prop :=
  ∀ f ∈ registry.functions, f.IgnoresPolicy

namespace Calculator

def withPolicy (calculator : Calculator) (policy : NonFinitePolicy) : Calculator :=
  { calculator with options := { calculator.options with nonFinite := policy } }

/-- The outcomes of the stages, from the first one on. -/
def stagesFrom (calculator : Calculator) :
    Except CalcError Float → List String → List (Except CalcError Float)
  | .error e, _ => [.error e]
  | .ok x, [] => [.ok x]
  | .ok x, name :: names => .ok x :: calculator.stagesFrom (calculator.apply name x) names

/-- The outcomes of a pipeline, of which the last one is the outcome of the whole. -/
def stages (calculator : Calculator) (text : String) (names : List String) :
    List (Except CalcError Float) :=
  calculator.stagesFrom (calculator.calculate text) names

/-- A stage with this outcome is refused with the error. -/
inductive Refused : Except CalcError Float → CalcError → Prop where
  | error (e : CalcError) : Refused (.error e) e
  | notANumber {x : Float} (h : x.isNaN = true) : Refused (.ok x) .notANumber
  | overflow {x : Float} (h : x.isInf = true) : Refused (.ok x) .overflow

/-- The outcome is a finite value. -/
def IsFiniteOk (outcome : Except CalcError Float) : Prop :=
  ∃ x, outcome = .ok x ∧ x.isFinite = true

/-- The stages `strict` end with the error of the first of the stages `lax` that is refused,
behind the finite values in front of it. -/
def StopsAtRefused (strict lax : List (Except CalcError Float)) : Prop :=
  ∃ before outcome behind e, lax = before ++ outcome :: behind ∧
    (∀ earlier ∈ before, IsFiniteOk earlier) ∧ Refused outcome e ∧ strict = before ++ [.error e]

/-- The stages `strict` are the stages `lax` up to the first one that is refused. -/
inductive Mirrors : List (Except CalcError Float) → List (Except CalcError Float) → Prop where
  | done {x : Float} (h : x.isFinite = true) : Mirrors [.ok x] [.ok x]
  | next {x : Float} (h : x.isFinite = true) {strict lax : List (Except CalcError Float)}
      (hrest : Mirrors strict lax) : Mirrors (.ok x :: strict) (.ok x :: lax)
  | stop {outcome : Except CalcError Float} {e : CalcError} (h : Refused outcome e)
      (behind : List (Except CalcError Float)) : Mirrors [.error e] (outcome :: behind)

/-- The command line runs a pipeline of at most one function. -/
theorem getLast?_stages_evaluate (calculator : Calculator) (request : CommandLine.Request)
    (text : String) :
    (calculator.stages text request.function.toList).getLast? =
      some (request.evaluate calculator text) := by
  simp only [stages, CommandLine.Request.evaluate, bind, Except.bind]
  cases calculator.calculate text with
  | error e => simp [stagesFrom]
  | ok x =>
    cases request.function with
    | none => simp [stagesFrom]
    | some name => cases happly : calculator.apply name x <;> simp [stagesFrom, happly]

section Stages

variable (calculator : Calculator)

theorem check_reject_cases (options : Options) (h : options.nonFinite = .reject) (x : Float) :
    (x.isFinite = true ∧ options.check x = .ok x) ∨
      ∃ e, Refused (.ok x) e ∧ options.check x = .error e := by
  rw [Options.check, h]
  cases hread : Double.read x with
  | notANumber => exact Or.inr ⟨_, .notANumber ((Double.isNaN_iff x).mpr hread), rfl⟩
  | infinite negative => exact Or.inr ⟨_, .overflow ((Double.isInf_iff x).mpr ⟨_, hread⟩), rfl⟩
  | finite negative m e =>
    exact Or.inl ⟨(Double.isFinite_iff x).mpr ⟨_, _, _, hread⟩, rfl⟩

theorem evaluateChecked_reject (resolved : String) :
    (calculator.withPolicy .reject).evaluateChecked resolved =
      (calculator.withPolicy .allow).evaluateChecked resolved >>=
        (calculator.withPolicy .reject).options.check := by
  rw [evaluateChecked, evaluateChecked]
  cases Expression.evaluate resolved <;> rfl

theorem calculate_reject (text : String) :
    (calculator.withPolicy .reject).calculate text =
      (calculator.withPolicy .allow).calculate text >>=
        (calculator.withPolicy .reject).options.check := by
  rw [calculate, calculate]
  split
  · rfl
  · exact calculator.evaluateChecked_reject _

theorem apply_reject {calculator : Calculator} (h : calculator.registry.IgnoresPolicy)
    (name : String) (x : Float) :
    (calculator.withPolicy .reject).apply name x =
      (calculator.withPolicy .allow).apply name x >>=
        (calculator.withPolicy .reject).options.check := by
  simp only [apply, withPolicy]
  cases hget : calculator.registry.get? name with
  | none => rfl
  | some f =>
    have hf : f.IgnoresPolicy := h f (List.mem_of_find?_eq_some hget)
    have hcall := (hf calculator.options .reject x).trans (hf calculator.options .allow x).symm
    simp only [applyFunction, hcall]
    cases f.call { calculator.options with nonFinite := .allow } x <;> rfl

theorem exists_stagesFrom_ok (x : Float) (names : List String) :
    ∃ behind, calculator.stagesFrom (.ok x) names = .ok x :: behind := by
  cases names with
  | nil => exact ⟨[], by rw [stagesFrom]⟩
  | cons name names => exact ⟨_, by rw [stagesFrom]⟩

/-- Behind the same outcome both pipelines go on in the same way, up to the first stage
that is refused. -/
theorem stagesFrom_mirrors {calculator : Calculator} (h : calculator.registry.IgnoresPolicy) :
    ∀ (names : List String) (outcome : Except CalcError Float),
      Mirrors
        ((calculator.withPolicy .reject).stagesFrom
          (outcome >>= (calculator.withPolicy .reject).options.check) names)
        ((calculator.withPolicy .allow).stagesFrom outcome names)
  | names, .error e => by
    change Mirrors (stagesFrom _ (.error e) names) (stagesFrom _ (.error e) names)
    rw [stagesFrom, stagesFrom]
    exact .stop (.error e) []
  | names, .ok x => by
    change Mirrors (stagesFrom _ ((calculator.withPolicy .reject).options.check x) names)
      (stagesFrom _ (.ok x) names)
    rcases check_reject_cases (calculator.withPolicy .reject).options rfl x with
      ⟨hfinite, hcheck⟩ | ⟨e, hrefused, hcheck⟩
    · cases names with
      | nil =>
        rw [hcheck, stagesFrom, stagesFrom]
        exact .done hfinite
      | cons name names =>
        rw [hcheck, stagesFrom, stagesFrom, apply_reject h]
        exact .next hfinite (stagesFrom_mirrors h names _)
    · obtain ⟨behind, hbehind⟩ := exists_stagesFrom_ok (calculator.withPolicy .allow) x names
      rw [hcheck, hbehind, stagesFrom]
      exact .stop hrefused behind

theorem stages_mirrors {calculator : Calculator} (h : calculator.registry.IgnoresPolicy)
    (text : String) (names : List String) :
    Mirrors ((calculator.withPolicy .reject).stages text names)
      ((calculator.withPolicy .allow).stages text names) := by
  rw [stages, stages, calculate_reject]
  exact stagesFrom_mirrors h names _

end Stages

section Mirrors

variable {strict lax : List (Except CalcError Float)}

theorem Refused.not_isFiniteOk {outcome : Except CalcError Float} {e : CalcError}
    (h : Refused outcome e) : ¬IsFiniteOk outcome := by
  rintro ⟨x, rfl, hfinite⟩
  obtain ⟨negative, m, e, hread⟩ := (Double.isFinite_iff x).mp hfinite
  cases h with
  | notANumber hnan =>
    rw [(Double.isNaN_iff x).mp hnan] at hread
    contradiction
  | overflow hinf =>
    obtain ⟨_, hinfinite⟩ := (Double.isInf_iff x).mp hinf
    rw [hinfinite] at hread
    contradiction

/-- Stages that mirror others are the same finite values, or stop at one that is refused. -/
theorem Mirrors.eq_or_stops (h : Mirrors strict lax) :
    (strict = lax ∧ ∀ stage ∈ lax, IsFiniteOk stage) ∨ StopsAtRefused strict lax := by
  induction h with
  | done hx => exact Or.inl ⟨rfl, List.forall_mem_singleton.mpr ⟨_, rfl, hx⟩⟩
  | @next x hx strict lax hrest ih =>
    have hstage : IsFiniteOk (.ok x) := ⟨x, rfl, hx⟩
    rcases ih with ⟨rfl, hall⟩ | ⟨before, outcome, behind, e, rfl, hbefore, hrefused, rfl⟩
    · exact Or.inl ⟨rfl, List.forall_mem_cons.mpr ⟨hstage, hall⟩⟩
    · exact Or.inr ⟨.ok x :: before, outcome, behind, e, rfl,
        List.forall_mem_cons.mpr ⟨hstage, hbefore⟩, hrefused, rfl⟩
  | @stop outcome e hrefused behind =>
    exact Or.inr ⟨[], outcome, behind, e, rfl, List.forall_mem_nil _, hrefused, rfl⟩

theorem Mirrors.getLast?_eq_ok_iff (h : Mirrors strict lax) (v : Float) :
    strict.getLast? = some (.ok v) ↔
      lax.getLast? = some (.ok v) ∧ ∀ stage ∈ lax, IsFiniteOk stage := by
  rcases h.eq_or_stops with ⟨rfl, hall⟩ | ⟨before, outcome, behind, e, rfl, -, hrefused, rfl⟩
  · exact (and_iff_left hall).symm
  · constructor
    · intro hlast
      simp at hlast
    · rintro ⟨-, hall⟩
      exact absurd (hall outcome (by simp)) hrefused.not_isFiniteOk

theorem Mirrors.stops (h : Mirrors strict lax)
    (hnone : ¬∃ v, strict.getLast? = some (.ok v)) : StopsAtRefused strict lax := by
  refine h.eq_or_stops.resolve_left ?_
  rintro ⟨rfl, hall⟩
  have hne : strict ≠ [] := by
    cases h <;> exact List.cons_ne_nil _ _
  obtain ⟨v, hv, -⟩ := hall _ (List.getLast_mem hne)
  exact hnone ⟨v, by rw [List.getLast?_eq_some_getLast hne, hv]⟩

end Mirrors

section Builtins

/-- The outcome is an error of the policy. -/
def IsRefusal (outcome : Except CalcError Float) : Prop :=
  outcome = .error .overflow ∨ outcome = .error .notANumber

theorem forall_mem_stagesFrom {calculator : Calculator} {p : Except CalcError Float → Prop}
    (happly : ∀ name x, p (calculator.apply name x)) (names : List String)
    {outcome : Except CalcError Float} (h : p outcome) :
    ∀ stage ∈ calculator.stagesFrom outcome names, p stage := by
  induction names generalizing outcome with
  | nil => cases outcome <;> simpa [stagesFrom] using h
  | cons name names ih =>
    cases outcome with
    | error e => simpa [stagesFrom] using h
    | ok x =>
      rw [stagesFrom]
      exact List.forall_mem_cons.mpr ⟨h, ih (happly name x)⟩

theorem not_isRefusal_calculate {calculator : Calculator}
    (h : calculator.options.nonFinite = .allow) (text : String) :
    ¬IsRefusal (calculator.calculate text) := by
  rw [calculate]
  split
  · simp [IsRefusal]
  · rw [evaluateChecked]
    cases Expression.evaluate (calculator.resolve (Text.trim text)) with
    | error e => simp [IsRefusal, Except.mapError, bind, Except.bind]
    | ok x =>
      simp [IsRefusal, Except.mapError, bind, Except.bind, Options.check_of_allow h]

theorem not_isRefusal_apply {calculator : Calculator}
    (h : calculator.options.nonFinite = .allow)
    (hregistry : ∀ f ∈ calculator.registry.functions, ∀ x,
      ¬IsRefusal (f.call calculator.options x)) (name : String) (x : Float) :
    ¬IsRefusal (calculator.apply name x) := by
  rw [apply]
  split
  · rename_i f hget
    have hcall := hregistry f (List.mem_of_find?_eq_some hget) x
    rw [applyFunction]
    cases hout : f.call calculator.options x with
    | error e => rwa [hout] at hcall
    | ok y => simp [IsRefusal, bind, Except.bind, Options.check_of_allow h]
  · simp [IsRefusal]

end Builtins

end Calculator

namespace Function

open Calculator (IsRefusal)

theorem not_isRefusal_factorialValue (x : Float) : ¬IsRefusal (factorialValue x) := by
  rw [factorialValue]
  repeat' split
  all_goals simp [IsRefusal]

/-- Of the functions that are always there, only the factorial fails. -/
theorem call_builtin_cases {f : Function} (h : f ∈ builtins) (options : Options) (x : Float) :
    (∃ y, f.call options x = .ok y) ∨ f.call options x = factorialValue x := by
  simp only [builtins, List.mem_cons, List.not_mem_nil, or_false] at h
  rcases h with rfl | rfl | rfl | rfl | rfl | rfl | rfl | rfl | rfl | rfl | rfl | rfl | rfl
  all_goals first
    | exact .inl ⟨_, rfl⟩
    | exact .inr rfl

/-- The functions that are always there do not look at the policy, and do not fail with
its errors. -/
theorem builtins_cases {f : Function} (h : f ∈ builtins) :
    f.IgnoresPolicy ∧ ∀ options x, ¬IsRefusal (f.call options x) := by
  constructor
  · simp only [builtins, List.mem_cons, List.not_mem_nil, or_false] at h
    rcases h with rfl | rfl | rfl | rfl | rfl | rfl | rfl | rfl | rfl | rfl | rfl | rfl | rfl
    all_goals exact fun _ _ _ => rfl
  · intro options x
    rcases call_builtin_cases h options x with ⟨y, hy⟩ | hy
    · simp [hy, IsRefusal]
    · rw [hy]
      exact not_isRefusal_factorialValue x

end Function

namespace Registry

theorem mem_foldl_register {f : Function} {list : List Function} {registry : Registry}
    (h : f ∈ (list.foldl register registry).functions) :
    f ∈ list ∨ f ∈ registry.functions := by
  induction list generalizing registry with
  | nil => exact Or.inr h
  | cons head rest ih =>
    rcases ih h with hrest | hregister
    · exact Or.inl (List.mem_cons_of_mem _ hrest)
    · rcases Function.mem_insertInto hregister with rfl | hold
      · exact Or.inl List.mem_cons_self
      · exact Or.inr hold

theorem mem_builtins {f : Function} (h : f ∈ builtins.functions) : f ∈ Function.builtins :=
  (mem_foldl_register h).resolve_right (List.not_mem_nil)

theorem builtins_ignoresPolicy : builtins.IgnoresPolicy :=
  fun _ h => (Function.builtins_cases (mem_builtins h)).1

end Registry

namespace Calculator

/-- A pipeline that rejects has the same value at its end as one that allows if every
stage has a finite value, and otherwise it stops at the first stage that has none, with
the error of this stage or that of the policy. The built-in functions do not look at
the policy, their pipelines do not fail with its errors unless they reject, and
within an expression the policy sees no value. -/
theorem reject_mirrors_allow (calculator : Calculator) (h : calculator.registry.IgnoresPolicy)
    (text : String) (names : List String) :
    let strict := (calculator.withPolicy .reject).stages text names
    let lax := (calculator.withPolicy .allow).stages text names
    (∀ v, strict.getLast? = some (.ok v) ↔
      lax.getLast? = some (.ok v) ∧ ∀ stage ∈ lax, IsFiniteOk stage) ∧
    ((¬∃ v, strict.getLast? = some (.ok v)) → StopsAtRefused strict lax) ∧
    Registry.builtins.IgnoresPolicy ∧
    (calculator.registry = .builtins → ∀ stage ∈ lax, ¬IsRefusal stage) ∧
    ∀ tree : Grammar.Expression,
      Text.Spaced tree.tokens (calculator.resolve (Text.trim text)).toList →
      tree.depth ≤ Expression.maxDepth →
        (calculator.withPolicy .allow).calculate text = .ok tree.value ∧
          (tree.value.isFinite →
            (calculator.withPolicy .reject).calculate text = .ok tree.value) := by
  intro strict lax
  have hmirrors : Mirrors strict lax := stages_mirrors h text names
  refine ⟨hmirrors.getLast?_eq_ok_iff, hmirrors.stops, Registry.builtins_ignoresPolicy,
    fun hbuiltins => ?_, fun tree hspaced hdepth => ⟨?_, fun hfinite => ?_⟩⟩
  · apply forall_mem_stagesFrom
    · apply not_isRefusal_apply rfl
      intro f hf x
      exact (Function.builtins_cases (Registry.mem_builtins (hbuiltins ▸ hf))).2 _ x
    · exact not_isRefusal_calculate rfl text
  · have hcheck := (calculator.withPolicy .allow).calculate_of_resolved hspaced hdepth
    rw [hcheck]
    exact Options.check_of_allow rfl _
  · have hcheck := (calculator.withPolicy .reject).calculate_of_resolved hspaced hdepth
    rw [hcheck]
    exact Options.check_of_finite _ hfinite

/-- The quotient is infinite, and its reciprocal is zero again. -/
theorem reject_mirrors_allow_reciprocal :
    let calculator : Calculator := {}
    let strict := (calculator.withPolicy .reject).stages "5/0" ["reciprocal"]
    let lax := (calculator.withPolicy .allow).stages "5/0" ["reciprocal"]
    calculator.registry.IgnoresPolicy ∧ ¬(∃ v, strict.getLast? = some (.ok v)) ∧
      StopsAtRefused strict lax :=
  have hnone : ¬∃ v, (stages (withPolicy {} .reject) "5/0" ["reciprocal"]).getLast? =
      some (.ok v) := by
    rintro ⟨v, hv⟩
    have herror : (calculate (withPolicy {} .reject) "5/0").isOk = false := by decide +kernel
    rw [stages] at hv
    cases hout : calculate (withPolicy {} .reject) "5/0" with
    | error e => simp [hout, stagesFrom] at hv
    | ok x => simp [hout, Except.isOk, Except.toBool] at herror
  ⟨Registry.builtins_ignoresPolicy, hnone,
    (reject_mirrors_allow {} Registry.builtins_ignoresPolicy "5/0" ["reciprocal"]).2.1 hnone⟩

end Calculator

end Abacus
