import Mathlib.Logic.Relation
import Abacus.Proofs.DepthCounter

/-!
The calls that productions make of one another. A call is a production with the room and
the cursor that it is given. It makes the calls that its text leads it to, and a call that
fails makes its caller fail with the same error. So an error of any call that the
evaluation of a text comes to is the error of the evaluation.
-/

namespace Abacus.Expression

open Text Text.Cursor Automaton

structure Call where
  part : Part
  room : Nat
  place : Cursor

def Call.outcome (call : Call) : Outcome :=
  call.part.production call.room call.place

/-- Behind an operand at `c` an operator and an operand are read, up to `d`. -/
def Round (operation? : Char → Option Operation) (operand : Production) (c d : Cursor) : Prop :=
  ∃ operation y, c.skipSpaces.peek.bind operation? = some operation ∧
    operand c.skipSpaces.next = .ok (y, d)

/-- Behind a first operand at `c`, and after some rounds, an operator is read, up to `d`. -/
def Continues (operation? : Char → Option Operation) (operand : Production) (c d : Cursor) :
    Prop :=
  ∃ x first last operation, operand c = .ok (x, first) ∧
    Relation.ReflTransGen (Round operation? operand) first last ∧
      last.skipSpaces.peek.bind operation? = some operation ∧ d = last.skipSpaces.next

/-- The calls that a call makes itself. -/
inductive Calls : Call → Call → Prop where
  | firstTerm (room : Nat) (c : Cursor) : Calls ⟨.expression, room, c⟩ ⟨.term, room, c⟩
  | nextTerm {room : Nat} {c d : Cursor} (h : Continues additive (Part.term.production room) c d) :
      Calls ⟨.expression, room, c⟩ ⟨.term, room, d⟩
  | firstFactor (room : Nat) (c : Cursor) : Calls ⟨.term, room, c⟩ ⟨.factor, room, c⟩
  | nextFactor {room : Nat} {c d : Cursor}
      (h : Continues multiplicative (Part.factor.production room) c d) :
      Calls ⟨.term, room, c⟩ ⟨.factor, room, d⟩
  | plus {room : Nat} {c ahead : Cursor} (h : c.eat '+' = (true, ahead)) :
      Calls ⟨.factor, room + 1, c⟩ ⟨.factor, room, ahead⟩
  | minus {room : Nat} {c d ahead : Cursor} (hplus : c.eat '+' = (false, d))
      (h : d.eat '-' = (true, ahead)) : Calls ⟨.factor, room + 1, c⟩ ⟨.factor, room, ahead⟩
  | power {room : Nat} {c d ahead : Cursor} (hplus : c.eat '+' = (false, d))
      (hminus : d.eat '-' = (false, ahead)) :
      Calls ⟨.factor, room + 1, c⟩ ⟨.power, room, ahead⟩
  | base (room : Nat) (c : Cursor) : Calls ⟨.power, room, c⟩ ⟨.primary, room, c⟩
  | exponent {room : Nat} {c d ahead : Cursor} {x : Float}
      (hbase : Part.primary.production room c = .ok (x, d)) (h : d.eat '^' = (true, ahead)) :
      Calls ⟨.power, room, c⟩ ⟨.factor, room, ahead⟩
  | group {room : Nat} {c inside : Cursor} (h : c.eat '(' = (true, inside)) :
      Calls ⟨.primary, room, c⟩ ⟨.expression, room, inside⟩

/-- The evaluation of the text comes to the call. -/
def Reaches (text : String) : Call → Prop :=
  Relation.ReflTransGen Calls ⟨.expression, maxDepth, Cursor.start text⟩

/-- What a production reads is a piece of the text. -/
theorem Part.leads (part : Part) {room : Nat} (hroom : room ≤ maxDepth) {c d : Cursor} {x : Float}
    (h : part.production room c = .ok (x, d)) : ∃ before, c.Leads before d := by
  have hframes : maxDepth ≤ maxDepth - room + room := by omega
  have hfollows := part.follows (Nat.sub_le maxDepth room) hframes c
  rw [Nat.sub_sub_self hroom, h] at hfollows
  exact hfollows.leads

section Loops

variable {operation? : Char → Option Operation} {operand : Production} {c d : Cursor}
  {operation : Operation} {e : SyntaxError}

theorem leads_operator (hseparable : Separable operation?)
    (h : c.skipSpaces.peek.bind operation? = some operation) :
    ∃ before, c.Leads before c.skipSpaces.next ∧
      c.skipSpaces.next.rest.length < c.rest.length := by
  obtain ⟨before, ch, -, hlead, -⟩ := hseparable.exists_operator h
  exact ⟨_, hlead, hlead.length_lt⟩

theorem Round.leads (hseparable : Separable operation?)
    (hoperand : ∀ {c d x}, operand c = .ok (x, d) → ∃ before, c.Leads before d)
    (h : Round operation? operand c d) :
    ∃ before, c.Leads before d ∧ d.rest.length < c.rest.length := by
  obtain ⟨operation, y, hbind, hy⟩ := h
  obtain ⟨before, hlead, hlt⟩ := leads_operator hseparable hbind
  obtain ⟨between, hbetween⟩ := hoperand hy
  exact ⟨_, hlead.trans hbetween, Nat.lt_of_le_of_lt hbetween.length_le hlt⟩

theorem leads_of_rounds (hseparable : Separable operation?)
    (hoperand : ∀ {c d x}, operand c = .ok (x, d) → ∃ before, c.Leads before d)
    (h : Relation.ReflTransGen (Round operation? operand) c d) : ∃ before, c.Leads before d := by
  induction h with
  | refl => exact ⟨[], .refl c⟩
  | tail _ hround ih =>
    obtain ⟨before, hlead⟩ := ih
    obtain ⟨between, hbetween, -⟩ := hround.leads hseparable hoperand
    exact ⟨_, hlead.trans hbetween⟩

theorem Continues.leads (hseparable : Separable operation?)
    (hoperand : ∀ {c d x}, operand c = .ok (x, d) → ∃ before, c.Leads before d)
    (h : Continues operation? operand c d) : ∃ before, c.Leads before d := by
  obtain ⟨x, first, last, operation, hx, hrounds, hbind, rfl⟩ := h
  obtain ⟨before, hbefore⟩ := hoperand hx
  obtain ⟨between, hbetween⟩ := leads_of_rounds hseparable hoperand hrounds
  obtain ⟨behind, hbehind, -⟩ := leads_operator hseparable hbind
  exact ⟨_, (hbefore.trans hbetween).trans hbehind⟩

theorem chainFrom_of_rounds (hseparable : Separable operation?)
    (hoperand : ∀ {c d x}, operand c = .ok (x, d) → ∃ before, c.Leads before d)
    (h : Relation.ReflTransGen (Round operation? operand) c d)
    (hbind : d.skipSpaces.peek.bind operation? = some operation)
    (herror : operand d.skipSpaces.next = .error e) (x : Float) :
    chainFrom operation? operand x c = .error e := by
  induction h using Relation.ReflTransGen.head_induction_on generalizing x with
  | refl =>
    rw [chainFrom]
    simp only [hbind, herror]
  | head hround _ ih =>
    obtain ⟨-, -, hlt⟩ := hround.leads hseparable hoperand
    obtain ⟨operation, y, hbind, hy⟩ := hround
    rw [chainFrom]
    simp only [hbind, hy, if_pos hlt]
    exact ih _

/-- An operand that fails makes its chain fail. -/
theorem chain_of_continues (hseparable : Separable operation?)
    (hoperand : ∀ {c d x}, operand c = .ok (x, d) → ∃ before, c.Leads before d)
    (h : Continues operation? operand c d) (herror : operand d = .error e) :
    chain operation? operand c = .error e := by
  obtain ⟨x, first, last, operation, hx, hrounds, hbind, rfl⟩ := h
  have htail := chainFrom_of_rounds hseparable hoperand hrounds hbind herror x
  simp [chain, hx, htail, bind, Except.bind]

theorem chain_of_first (herror : operand c = .error e) : chain operation? operand c = .error e := by
  simp [chain, herror, bind, Except.bind]

end Loops

section Calls

variable {a b : Call} {e : SyntaxError}

theorem Calls.room_le (h : Calls a b) : b.room ≤ a.room := by
  cases h <;> simp

/-- A call stands behind what its caller has read. -/
theorem Calls.leads (hroom : a.room ≤ maxDepth) (h : Calls a b) :
    ∃ before, a.place.Leads before b.place := by
  have heat : ∀ {c d : Cursor} {ch : Char} {taken : Bool}, StandsAlone ch →
      c.eat ch = (taken, d) → ∃ before, c.Leads before d := by
    intro c d ch taken hch heat
    rcases c.eat_cases ch hch with ⟨before, after, heat', hlead, -⟩ | ⟨heat', -⟩
    · rw [heat'] at heat
      cases heat
      exact ⟨_, hlead⟩
    · rw [heat'] at heat
      cases heat
      exact ⟨_, leads_skipSpaces c⟩
  cases h with
  | firstTerm | firstFactor | base => exact ⟨[], .refl _⟩
  | nextTerm h => exact h.leads separable_additive (Part.term.leads hroom)
  | nextFactor h => exact h.leads separable_multiplicative (Part.factor.leads hroom)
  | plus h => exact heat (by decide) h
  | minus hplus h | power hplus h =>
    obtain ⟨before, hbefore⟩ := heat (by decide) hplus
    obtain ⟨between, hbetween⟩ := heat (by decide) h
    exact ⟨_, hbefore.trans hbetween⟩
  | exponent hbase h =>
    obtain ⟨before, hbefore⟩ := Part.primary.leads hroom hbase
    obtain ⟨between, hbetween⟩ := heat (by decide) h
    exact ⟨_, hbefore.trans hbetween⟩
  | group h => exact heat (by decide) h

/-- A call that fails makes its caller fail. -/
theorem Calls.outcome_eq_error (hroom : a.room ≤ maxDepth) (h : Calls a b)
    (herror : b.outcome = .error e) : a.outcome = .error e := by
  cases h with
  | firstTerm | firstFactor => exact chain_of_first herror
  | nextTerm h => exact chain_of_continues separable_additive (Part.term.leads hroom) h herror
  | nextFactor h =>
    exact chain_of_continues separable_multiplicative (Part.factor.leads hroom) h herror
  | plus h =>
    simp only [Call.outcome, Part.production, factor] at herror ⊢
    simp only [h, herror]
  | minus hplus h =>
    simp only [Call.outcome, Part.production, factor] at herror ⊢
    simp [hplus, h, negated, herror, bind, Except.bind]
  | power hplus hminus =>
    simp only [Call.outcome, Part.production, factor] at herror ⊢
    simp only [hplus, hminus, herror]
  | base =>
    simp only [Call.outcome, Part.production] at herror ⊢
    simp [Expression.power, herror, bind, Except.bind]
  | exponent hbase h =>
    simp only [Call.outcome, Part.production] at herror hbase ⊢
    simp [Expression.power, hbase, h, herror, bind, Except.bind]
  | group h =>
    simp only [Call.outcome, Part.production] at herror ⊢
    simp [Expression.primary, h, herror, bind, Except.bind]

end Calls

namespace Reaches

variable {text : String} {call : Call} {e : SyntaxError}

theorem room_le (h : Reaches text call) : call.room ≤ maxDepth := by
  induction h with
  | refl => exact Nat.le_refl _
  | tail _ hcall ih => exact hcall.room_le.trans ih

theorem leads (h : Reaches text call) : ∃ before, (Cursor.start text).Leads before call.place := by
  induction h with
  | refl => exact ⟨[], .refl _⟩
  | tail hreaches hcall ih =>
    obtain ⟨before, hbefore⟩ := ih
    obtain ⟨between, hbetween⟩ := hcall.leads (room_le hreaches)
    exact ⟨_, hbefore.trans hbetween⟩

/-- The error of a call that is reached is the error of the whole evaluation. -/
theorem evaluate_eq_error (h : Reaches text call) (herror : call.outcome = .error e) :
    evaluate text = .error e := by
  have hwhole : Call.outcome ⟨.expression, maxDepth, Cursor.start text⟩ = .error e := by
    induction h with
    | refl => exact herror
    | tail hreaches hcall ih => exact ih (hcall.outcome_eq_error (room_le hreaches) herror)
  simp only [Call.outcome, Part.production] at hwhole
  simp [evaluate, evaluateWithin, hwhole, bind, Except.bind]

end Reaches

end Abacus.Expression
