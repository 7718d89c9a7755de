import Abacus.CommandLine.Run
import Abacus.Proofs.Json.WrittenNumbers
import Abacus.Proofs.Json.Writing

/-!
Reports as JSON objects. For every expression one line is printed, and it is an object from
which the expression can be read back as it was given, and with it either the value, to the
last bit, and its display text, or the message of the error.
-/

namespace Abacus.Report

open Json Double

/-- The value of a report: the number to which the double alone is nearest, or null if the
double is not finite. -/
inductive ShowsValue (x : Float) : Value → Prop
  | number {n : Numeral} (hfinite : x.isFinite = true)
      (hnearest : ∀ y, IsNearest n.negative n.magnitude y ↔ y = x) : ShowsValue x (.number n)
  | null (hfinite : x.isFinite = false) : ShowsValue x .null

/-- The members of a report on an expression with its outcome. -/
inductive Shows (text : String) : Except CalcError Float → List (String × Value) → Prop
  | value {x : Float} {expression display : Body} {v : Value}
      (hexpression : expression.Means text) (hvalue : ShowsValue x v)
      (hdisplay : display.Means (Style.display.write x)) :
      Shows text (.ok x)
        [("expression", .string expression), ("value", v), ("display", .string display)]
  | error {reason : CalcError} {expression message : Body} (hexpression : expression.Means text)
      (hmessage : message.Means reason.message) :
      Shows text (.error reason) [("expression", .string expression), ("error", .string message)]

theorem exists_showsValue (x : Float) :
    ∃ v, ShowsValue x v ∧ Spells v (writeFloat x).toList ∧ NoControl (writeFloat x).toList := by
  cases hfinite : x.isFinite with
  | true =>
    obtain ⟨n, htext, hnearest⟩ := exists_numeral_writeFloat hfinite
    rw [htext]
    exact ⟨.number n, .number hfinite hnearest, .number n, noControl_numeral n⟩
  | false =>
    rw [writeFloat_of_not_finite hfinite]
    have hletters : NoControl "null".toList := by simp [NoControl]
    exact ⟨.null, .null hfinite, .null, hletters⟩

theorem noControl_writeString (text : String) : NoControl (writeString text).toList := by
  rw [toList_writeString]
  exact noControl_quoted _

/-- A report is an object on one line that shows the expression and its outcome. -/
theorem write_shows (text : String) (outcome : Except CalcError Float) :
    ∃ members, SpellsObject members (write text outcome).toList ∧ Shows text outcome members ∧
      NoControl (write text outcome).toList := by
  cases outcome with
  | ok x =>
    obtain ⟨v, hvalue, hspells, hcontrol⟩ := exists_showsValue x
    refine ⟨_, spellsObject_writeObject (spells_writeString text)
      (.cons hspells (.cons (spells_writeString _) .nil)),
      .value (means_ofText text) hvalue (means_ofText _), noControl_writeObject ?_⟩
    simp [members, noControl_writeString, hcontrol]
  | error reason =>
    refine ⟨_, spellsObject_writeObject (spells_writeString text)
      (.cons (spells_writeString _) .nil),
      .error (means_ofText text) (means_ofText _), noControl_writeObject ?_⟩
    simp [members, noControl_writeString]

end Abacus.Report

namespace Abacus.CommandLine.Request

open Json

/-- With the JSON flag, an expression gives entries of the log and one printed line without
control characters. The line is an object that shows the expression as it was given, and
its outcome. -/
theorem expressionEvents_json (request : Request) (calculator : Calculator) (text : String)
    (hjson : request.json = true) :
    ∃ (entries : List LogEntry) (line : String) (members : List (String × Value)),
      request.expressionEvents calculator text = entries.map Event.log ++ [.print line] ∧
      NoControl line.toList ∧ SpellsObject members line.toList ∧
      Report.Shows text (request.evaluate calculator text) members := by
  obtain ⟨members, hspells, hshows, hcontrol⟩ :=
    Report.write_shows text (request.evaluate calculator text)
  have hanswer : request.answer text (request.evaluate calculator text) =
      .print (Report.write text (request.evaluate calculator text)) := if_pos hjson
  refine ⟨(request.logEntries calculator text).filter request.shows,
    Report.write text (request.evaluate calculator text), members, ?_, hcontrol, hspells, hshows⟩
  rw [expressionEvents, hanswer]

/-- A line with a quote, a tab and a letter of three bytes. -/
theorem expressionEvents_json_quote :
    ∃ (entries : List LogEntry) (line : String) (members : List (String × Value)),
      Request.expressionEvents { json := true } {} "\"\t√" =
        entries.map Event.log ++ [.print line] ∧
      NoControl line.toList ∧ SpellsObject members line.toList ∧
      Report.Shows "\"\t√" (Request.evaluate { json := true } {} "\"\t√") members :=
  expressionEvents_json { json := true } {} "\"\t√" rfl

end Abacus.CommandLine.Request
