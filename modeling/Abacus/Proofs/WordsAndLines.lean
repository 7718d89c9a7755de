import Abacus.Proofs.Arguments
import Abacus.Proofs.InputLines

/-!
Words and lines. The words of a run are joined by single spaces, and the joined text is
evaluated as a line of the input is that has the same text, or as a single word is that has
it. Behind a double hyphen the words may look like options. Only a blank text makes a
difference: as words it is an empty input, which fails, and as lines it is passed over.
-/

namespace Abacus

open Text

namespace Calculator

variable (calculator : Calculator) {text : String}

theorem calculate_blank (h : IsBlank text) : calculator.calculate text = .error .emptyInput := by
  simp [calculate, (isEmpty_trim_iff text).mpr h]

theorem calculationLog_blank (h : IsBlank text) : calculator.calculationLog text = [] := by
  simp [calculationLog, (isEmpty_trim_iff text).mpr h]

end Calculator

namespace CommandLine

theorem expressions_of_blank {chars : List Char} (h : ∀ c ∈ chars, isBlank c = true) :
    expressions (splitLines (encode chars)) = [] := by
  rw [expressions, List.filter_eq_nil_iff]
  intro text htext
  obtain ⟨line, hline, hsome⟩ := List.mem_filterMap.mp htext
  obtain ⟨part, hpart, hsub⟩ := exists_part_of_mem_splitLines chars line hline
  have hblank : IsBlank text := fun c hc => h c (hsub (subset_of_text? hpart hsome hc))
  simpa using hblank

theorem expressions_of_line {text : String} (hblank : ¬IsBlank text)
    (hnewline : '\n' ∉ text.toList) (hreturn : text.toList.getLast? ≠ some '\r') :
    expressions (splitLines (encode (text.toList ++ ['\n']))) = [text] := by
  have hbytes : encode (text.toList ++ ['\n']) = encode text.toList ++ newline :: [] := by
    rw [encode_append, encode_cons, encode_nil, utf8EncodeChar_newline, List.append_nil]
  rw [hbytes, Request.expressions_line hblank hnewline hreturn, splitLines_nil]
  rfl

namespace Request

variable {request : Request} {calculator : Calculator} {load : Loader}

/-- A run over lines that are all texts. -/
theorem run_encode (hwords : request.words = [])
    (hcalculator : request.calculator load = .ok calculator) (chars : List Char) :
    request.run load (encode chars) =
      let texts := expressions (splitLines (encode chars))
      ⟨texts.flatMap (request.expressionEvents calculator),
        exitCode (texts.any (request.fails calculator))⟩ := by
  rw [run_lines hwords hcalculator, runLines_texts (isSome_text?_of_mem_splitLines chars)]

theorem evaluate_blank {text : String} (h : IsBlank text) :
    request.evaluate calculator text = .error .emptyInput := by
  rw [evaluate, calculator.calculate_blank h]
  rfl

theorem expressionEvents_blank {text : String} (h : IsBlank text) :
    request.expressionEvents calculator text = [request.answer text (.error .emptyInput)] := by
  rw [expressionEvents, evaluate_blank h, logEntries, calculator.calculationLog_blank h,
    calculator.calculate_blank h]
  rfl

theorem answer_emptyInput (text : String) :
    request.answer text (.error .emptyInput) =
      if request.json then .print (Report.write text (.error .emptyInput))
      else .complain (text ++ ": no input provided") := by
  have hmessage : text ++ ": " ++ CalcError.emptyInput.message = text ++ ": no input provided" := by
    rw [String.append_assoc]
    rfl
  rw [answer]
  simp only [hmessage]

theorem fails_blank {text : String} (h : IsBlank text) :
    request.fails calculator text = true := by
  exact (fails_iff text).mpr ⟨_, evaluate_blank h⟩

end Request

section Words

variable {load : Loader} {flags words : List String} {request : Request}
  {calculator : Calculator}

/-- Behind a double hyphen, the words are the text of one expression. -/
theorem outcome_append_words (hflags : Invocation.ofArguments flags = .run request)
    (hnone : request.words = []) (hopen : "--" ∉ flags)
    (hcalculator : request.calculator load = .ok calculator) (hwords : words ≠ [])
    (input : List UInt8) :
    (Invocation.ofArguments (flags ++ "--" :: words)).outcome load input =
      let text := String.intercalate " " words
      ⟨request.expressionEvents calculator text,
        Request.exitCode (request.fails calculator text)⟩ := by
  have hsame : Request.calculator { request with words := words } load = .ok calculator :=
    hcalculator
  rw [ofArguments_append hflags hnone hopen words, Invocation.outcome,
    Request.run_words hwords hsame]
  rfl

/-- Words behind a double hyphen are evaluated as the text that they make, and give what a
line with this text gives, and what a single word with it gives. If the text is blank they
fail as an empty input, and lines with this text give nothing. -/
theorem outcome_of_words (hflags : Invocation.ofArguments flags = .run request)
    (hnone : request.words = []) (hopen : "--" ∉ flags)
    (hcalculator : request.calculator load = .ok calculator) (hwords : words ≠ []) :
    let outcome (arguments : List String) (input : List UInt8) : Outcome :=
      (Invocation.ofArguments arguments).outcome load input
    let text := String.intercalate " " words
    (∀ input, outcome (flags ++ "--" :: words) input =
      ⟨request.expressionEvents calculator text,
        Request.exitCode (request.fails calculator text)⟩) ∧
    (¬IsBlank text → '\n' ∉ text.toList → text.toList.getLast? ≠ some '\r' → ∀ input,
      outcome (flags ++ "--" :: words) input = outcome flags (encode (text.toList ++ ['\n'])) ∧
      outcome (flags ++ "--" :: words) input = outcome (flags ++ ["--", text]) input) ∧
    (IsBlank text → ∀ input,
      request.evaluate calculator text = .error .emptyInput ∧
      outcome (flags ++ "--" :: words) input =
        ⟨[if request.json then .print (Report.write text (.error .emptyInput))
          else .complain (text ++ ": no input provided")], 1⟩ ∧
      outcome flags (encode (text.toList ++ ['\n'])) = ⟨[], 0⟩) := by
  intro outcome text
  have hrun : ∀ {others : List String}, others ≠ [] → ∀ input,
      outcome (flags ++ "--" :: others) input = _ :=
    outcome_append_words hflags hnone hopen hcalculator
  have hline : ∀ input, outcome flags input = request.run load input := by
    intro input
    simp only [outcome, hflags, Invocation.outcome]
  refine ⟨hrun hwords, fun hblank hnewline hreturn input => ⟨?_, ?_⟩,
    fun hblank input => ⟨?_, ?_, ?_⟩⟩
  · rw [hrun hwords, hline, Request.run_encode hnone hcalculator,
      expressions_of_line hblank hnewline hreturn]
    simp [text]
  · have hsingle : String.intercalate " " [text] = text := by simp
    rw [hrun hwords, hrun (List.cons_ne_nil text []), hsingle]
  · exact Request.evaluate_blank hblank
  · rw [hrun hwords]
    simp only
    rw [Request.expressionEvents_blank hblank, Request.fails_blank hblank,
      Request.answer_emptyInput]
    rfl
  · have hchars : ∀ c ∈ text.toList ++ ['\n'], isBlank c = true := by
      intro c hc
      rcases List.mem_append.mp hc with hc | hc
      · exact hblank c hc
      · rw [List.mem_singleton.mp hc]
        decide
    rw [hline, Request.run_encode hnone hcalculator, expressions_of_blank hchars]
    rfl

end Words

/-- Words that look like options, and one that is empty. -/
theorem outcome_of_words_hyphens :
    let load : Loader := fun _ => .error .notFound
    let flags := ["-vv", "--radians"]
    let words := ["--", "-2", "", "--json"]
    let request : Request := { radians := true, verbosity := 2 }
    let calculator : Calculator := { options := { angle := .radians } }
    let outcome (arguments : List String) (input : List UInt8) : Outcome :=
      (Invocation.ofArguments arguments).outcome load input
    let text := "-- -2  --json"
    Invocation.ofArguments flags = .run request ∧ request.words = [] ∧ "--" ∉ flags ∧
      request.calculator load = .ok calculator ∧ words ≠ [] ∧ ¬IsBlank text ∧
      '\n' ∉ text.toList ∧ text.toList.getLast? ≠ some '\r' ∧
      outcome (flags ++ "--" :: words) [] = outcome flags (encode (text.toList ++ ['\n'])) ∧
      outcome (flags ++ "--" :: words) [] = outcome (flags ++ ["--", text]) [] := by
  intro load flags words request calculator outcome text
  have hflags : Invocation.ofArguments flags = .run request := by decide
  have hnone : request.words = [] := rfl
  have hopen : "--" ∉ flags := by decide
  have hcalculator : request.calculator load = .ok calculator := rfl
  have hwords : words ≠ [] := List.cons_ne_nil _ _
  have hjoin : String.intercalate " " words = text := by decide +kernel
  have hhyphen : '-' ∈ text.toList := by simp [text]
  have hblank : ¬IsBlank text := not_isBlank_of_mem hhyphen (by decide)
  have hnewline : '\n' ∉ text.toList := by decide +kernel
  have hreturn : text.toList.getLast? ≠ some '\r' := by decide +kernel
  obtain ⟨-, hline, -⟩ := outcome_of_words hflags hnone hopen hcalculator hwords
  rw [hjoin] at hline
  exact ⟨hflags, hnone, hopen, hcalculator, hwords, hblank, hnewline, hreturn,
    hline hblank hnewline hreturn []⟩

end CommandLine

end Abacus
