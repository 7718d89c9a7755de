import Abacus.Proofs.Pipeline
import Abacus.Session

/-!
Runs of sessions. What a command can do to a session is one of a few changes, and a command
that fails does none. So a registry is changed by registrations in it only, and as long as
nobody allows other values, the last value of a session is finite.
-/

namespace Abacus.Session

/-- The session behind a sequence of commands, and the replies to them. -/
def run (session : Session) : List Command → Session × List Reply
  | [] => (session, [])
  | command :: commands =>
    (((session.step command).1.run commands).1,
      (session.step command).2 :: ((session.step command).1.run commands).2)

/-- What a command can do to a session. -/
inductive Changes (session : Session) : Command → Reply → Session → Prop where
  | none {command : Command} {reply : Reply} : Changes session command reply session
  | value {command : Command} {x y : Float} (hcheck : session.calculator.options.check x = .ok y) :
    Changes session command (.value y) { session with last := y }
  | last (x : Float) : Changes session (.setLast x) .nothing { session with last := x }
  | options (options : Options) :
    Changes session (.setOptions options) .nothing (session.setOptions options)
  | loaded {text : String} {options : Options} (hjson : Options.ofJson text = .ok options) :
    Changes session (.loadOptions text) .nothing (session.setOptions options)
  | added {command : Command} (registry : Registry) :
    Changes session command (session.addRegistry registry).2 (session.addRegistry registry).1
  | registered {n : Nat} {f : Function} {registry : Registry}
    (hn : session.registries[n]? = some registry) :
    Changes session (.register n f) (.names (registry.register f).names)
      { session with registries := session.registries.set n (registry.register f) }
  | used {command : Command} (registry : Registry) :
    Changes session command (.names registry.names)
      { session with calculator := { registry := registry } }

section Steps

variable {session after : Session} {command : Command} {reply : Reply}

theorem exists_check_of_calculate {calculator : Calculator} {text : String} {y : Float}
    (h : calculator.calculate text = .ok y) : ∃ x, calculator.options.check x = .ok y := by
  unfold Calculator.calculate at h
  simp only at h
  split at h
  · cases h
  · unfold Calculator.evaluateChecked at h
    cases hvalue : Expression.evaluate (calculator.resolve (Text.trim text)) with
    | error e => simp [hvalue, Except.mapError, bind, Except.bind] at h
    | ok x =>
      rw [hvalue] at h
      exact ⟨x, h⟩

theorem exists_check_of_apply {calculator : Calculator} {name : String} {x y : Float}
    (h : calculator.apply name x = .ok y) : ∃ z, calculator.options.check z = .ok y := by
  unfold Calculator.apply at h
  split at h
  · rename_i f hf
    unfold Calculator.applyFunction at h
    cases hcall : f.call calculator.options x with
    | error e =>
      rw [hcall] at h
      contradiction
    | ok z =>
      rw [hcall] at h
      exact ⟨z, h⟩
  · contradiction

theorem changes_conclude {outcome : Except CalcError Float}
    (h : ∀ y, outcome = .ok y → ∃ x, session.calculator.options.check x = .ok y) :
    session.Changes command (session.conclude outcome).2 (session.conclude outcome).1 := by
  cases outcome with
  | error reason => exact .none
  | ok y =>
    obtain ⟨x, hcheck⟩ := h y rfl
    exact .value hcheck

theorem changes_withRegistry {n : Nat} {act : Registry → Session × Reply}
    (h : ∀ registry, session.registries[n]? = some registry →
      session.Changes command (act registry).2 (act registry).1) :
    session.Changes command (session.withRegistry n act).2 (session.withRegistry n act).1 := by
  unfold withRegistry
  split
  · rename_i registry hregistry
    exact h registry hregistry
  · exact .none

theorem changes_step (session : Session) (command : Command) :
    session.Changes command (session.step command).2 (session.step command).1 := by
  unfold step
  cases command with
  | calculate text => exact changes_conclude fun _ => exists_check_of_calculate
  | feed template => exact changes_conclude fun _ => exists_check_of_calculate
  | apply name => exact changes_conclude fun _ => exists_check_of_apply
  | call n name => exact changes_withRegistry fun _ _ => .none
  | check => exact .none
  | setLast x => exact .last x
  | setOptions options => exact .options options
  | loadOptions text =>
    simp only
    cases hjson : Options.ofJson text with
    | error fault => exact .none
    | ok options => exact .loaded hjson
  | addRegistry registry => exact .added registry
  | cloneRegistry n => exact changes_withRegistry fun registry _ => .added registry
  | register n f => exact changes_withRegistry fun _ hn => .registered hn
  | names n => exact changes_withRegistry fun _ _ => .none
  | get n name => exact changes_withRegistry fun _ _ => .none
  | use n => exact changes_withRegistry fun registry _ => .used registry
  | reset => exact .used Registry.builtins

/-- A command that fails leaves the session as it was. -/
theorem Changes.eq_of_failed {reason : CalcError}
    (h : session.Changes command (.failed reason) after) : after = session := by
  cases h
  rfl

/-- The registry that a command registers in is the only one that it changes. -/
theorem Changes.getElem?_registries (h : session.Changes command reply after) {n : Nat}
    (hn : n < session.registries.length) (hcommand : ∀ f, command ≠ .register n f) :
    after.registries[n]? = session.registries[n]? := by
  cases h with
  | none | value | last | options | loaded | used => rfl
  | added registry => exact List.getElem?_append_left hn
  | @registered target f registry htarget =>
    have hne : target ≠ n := by
      rintro rfl
      exact hcommand f rfl
    exact List.getElem?_set_ne hne

theorem Changes.length_le (h : session.Changes command reply after) :
    session.registries.length ≤ after.registries.length := by
  cases h with
  | none | value | last | options | loaded | used => exact Nat.le_refl _
  | added registry =>
    simp only [addRegistry, List.length_append]
    omega
  | registered hn => simp only [List.length_set, Nat.le_refl]

/-- Only finite values are let through, and the last one is finite. -/
structure IsFinite (session : Session) : Prop where
  reject : session.calculator.options.nonFinite = .reject
  finite : session.last.isFinite = true

/-- The command neither allows other values nor sets one. -/
def KeepsFinite : Command → Prop
  | .setLast x => x.isFinite = true
  | .setOptions options => options.nonFinite = .reject
  | .loadOptions text => ∀ options, Options.ofJson text = .ok options → options.nonFinite = .reject
  | _ => True

theorem Changes.isFinite (h : session.Changes command reply after) (hsession : session.IsFinite)
    (hcommand : KeepsFinite command) : after.IsFinite := by
  cases h with
  | none => exact hsession
  | @value _ x y hcheck =>
    refine ⟨hsession.reject, ?_⟩
    rcases Calculator.check_reject_cases _ hsession.reject x with ⟨hfinite, hx⟩ | ⟨e, -, hx⟩
    · rw [hx] at hcheck
      cases hcheck
      exact hfinite
    · rw [hx] at hcheck
      contradiction
  | last x => exact ⟨hsession.reject, hcommand⟩
  | options options => exact ⟨hcommand, hsession.finite⟩
  | loaded hjson => exact ⟨hcommand _ hjson, hsession.finite⟩
  | added registry => exact ⟨hsession.reject, hsession.finite⟩
  | registered hn => exact ⟨hsession.reject, hsession.finite⟩
  | used registry => exact ⟨rfl, hsession.finite⟩

end Steps

section Runs

variable {session : Session} {commands : List Command}

/-- Nothing comes of commands that all fail. -/
theorem run_eq_of_failed
    (h : ∀ reply ∈ (session.run commands).2, ∃ reason, reply = .failed reason) :
    (session.run commands).1 = session := by
  induction commands generalizing session with
  | nil => rfl
  | cons command commands ih =>
    obtain ⟨⟨reason, hreply⟩, hrest⟩ := List.forall_mem_cons.mp h
    have hchange := session.changes_step command
    rw [hreply] at hchange
    have hsame := hchange.eq_of_failed
    rw [hsame] at hrest
    rw [run, hsame]
    exact ih hrest

/-- A registry is as it was when nothing has been registered in it. -/
theorem getElem?_registries_run {n : Nat} (hn : n < session.registries.length)
    (h : ∀ f, .register n f ∉ commands) :
    (session.run commands).1.registries[n]? = session.registries[n]? := by
  induction commands generalizing session with
  | nil => rfl
  | cons command commands ih =>
    have hchange := session.changes_step command
    have hcommand : ∀ f, command ≠ .register n f := by
      rintro f rfl
      exact h f List.mem_cons_self
    rw [run, ← hchange.getElem?_registries hn hcommand]
    exact ih (Nat.lt_of_lt_of_le hn hchange.length_le) fun f hf => h f (List.mem_cons_of_mem _ hf)

/-- The last value stays finite while no other is allowed or set. -/
theorem isFinite_run (hsession : session.IsFinite) (h : ∀ command ∈ commands, KeepsFinite command) :
    (session.run commands).1.IsFinite := by
  induction commands generalizing session with
  | nil => exact hsession
  | cons command commands ih =>
    obtain ⟨hcommand, hrest⟩ := List.forall_mem_cons.mp h
    exact ih ((session.changes_step command).isFinite hsession hcommand) hrest

end Runs

end Abacus.Session
