import Abacus.Proofs.Arguments
import Abacus.Proofs.FileTrees
import Abacus.Proofs.InputLines
import Abacus.Proofs.Pipeline
import Abacus.Proofs.SharedRegistries

/-!
The set-up of a run. The file with the options comes first and the function second, and what
is wrong with either is all that the run says. Otherwise there is one calculator for all
expressions of the run, with the options of the file and the switches on top of them, and it
knows the function.
-/

namespace Abacus

namespace Options

/-- The options that a run starts from: those of the file, or the defaults without one. -/
inductive Provided (load : CommandLine.Loader) : Option String → Options → Prop where
  | default : Provided load none {}
  | file {path text : String} {bytes : List UInt8} {options : Options}
      (hload : load path = .ok bytes) (hdecode : Text.decode? bytes = some text)
      (hjson : ofJson text = .ok options) : Provided load (some path) options

/-- What is wrong with the file. -/
inductive Refused (load : CommandLine.Loader) : Option String → ConfigError → Prop where
  | unread {path : String} {reason : FileError} (hload : load path = .error reason) :
      Refused load (some path) (.unreadable path reason)
  | notText {path : String} {bytes : List UInt8} (hload : load path = .ok bytes)
      (hdecode : Text.decode? bytes = none) :
      Refused load (some path) (.unreadable path .notText)
  | invalid {path text : String} {bytes : List UInt8} {fault : Json.Fault}
      (hload : load path = .ok bytes) (hdecode : Text.decode? bytes = some text)
      (hjson : ofJson text = .error fault) : Refused load (some path) (.invalid fault)

theorem provided_or_refused (load : CommandLine.Loader) (config : Option String) :
    (∃ options, Provided load config options) ∨ ∃ reason, Refused load config reason := by
  cases config with
  | none => exact .inl ⟨_, .default⟩
  | some path =>
    cases hload : load path with
    | error reason => exact .inr ⟨_, .unread hload⟩
    | ok bytes =>
      cases hdecode : Text.decode? bytes with
      | none => exact .inr ⟨_, .notText hload hdecode⟩
      | some text =>
        cases hjson : ofJson text with
        | error fault => exact .inr ⟨_, .invalid hload hdecode hjson⟩
        | ok options => exact .inl ⟨_, .file hload hdecode hjson⟩

theorem check_ne_unknown (options : Options) (x : Float) {name : String} :
    options.check x ≠ .error (.unknownFunction name) := by
  unfold check
  split <;> simp

end Options

namespace Calculator

theorem calculate_ne_unknown (calculator : Calculator) (text : String) {name : String} :
    calculator.calculate text ≠ .error (.unknownFunction name) := by
  unfold calculate
  simp only
  split
  · simp
  · unfold evaluateChecked
    cases Expression.evaluate (calculator.resolve (Text.trim text)) with
    | error e => simp [Except.mapError, bind, Except.bind]
    | ok x => exact calculator.options.check_ne_unknown x

end Calculator

namespace Function

theorem factorialValue_ne_unknown (x : Float) {name : String} :
    factorialValue x ≠ .error (.unknownFunction name) := by
  unfold factorialValue
  repeat' split
  all_goals simp

end Function

namespace Calculator

/-- A function that is registered is found again. -/
theorem apply_ne_unknown (options : Options) {name unknown : String}
    (h : (Registry.builtins.get? name).isSome = true) (x : Float) :
    Calculator.apply { options := options } name x ≠ .error (.unknownFunction unknown) := by
  obtain ⟨f, hf⟩ := Option.isSome_iff_exists.mp h
  have hbuiltin : f ∈ Function.builtins := Registry.mem_builtins (List.mem_of_find?_eq_some hf)
  simp only [apply, hf, applyFunction]
  rcases Function.call_builtin_cases hbuiltin options x with ⟨y, hy⟩ | hy
  · rw [hy]
    exact options.check_ne_unknown y
  · rw [hy]
    cases hvalue : Function.factorialValue x with
    | ok y => exact options.check_ne_unknown y
    | error e =>
      intro heq
      cases heq
      exact Function.factorialValue_ne_unknown x hvalue

end Calculator

def Text.Line.isText (line : Line) : Bool :=
  line.text?.isSome

namespace CommandLine

open Text

/-- The options of the file, changed by the switches among the arguments. -/
def switched (arguments : List String) (options : Options) : Options where
  nonFinite := if "--allow-non-finite" ∈ arguments then .allow else options.nonFinite
  angle := if "--radians" ∈ arguments then .radians else options.angle
  substituteConstants :=
    if "--no-constants" ∈ arguments then false else options.substituteConstants

namespace Request

variable {request : Request} {load : Loader} {calculator : Calculator}

theorem options_of_provided {options : Options} (h : options.Provided load request.config) :
    request.options load = .ok (request.override options) := by
  unfold Request.options
  generalize request.config = config at h
  cases h with
  | default => rfl
  | file hload hdecode hjson =>
    simp [loadOptions, hload, hdecode, hjson, Except.mapError, bind, Except.bind]

theorem options_of_refused {reason : ConfigError} (h : Options.Refused load request.config reason) :
    request.options load = .error (.config reason) := by
  unfold Request.options
  generalize request.config = config at h
  cases h with
  | unread hload =>
    simp [loadOptions, hload, Except.mapError, bind, Except.bind]
  | notText hload hdecode =>
    simp [loadOptions, hload, hdecode, Except.mapError, bind, Except.bind]
  | invalid hload hdecode hjson =>
    simp [loadOptions, hload, hdecode, hjson, Except.mapError, bind, Except.bind]

section Calculator

variable {options : Options}

theorem calculator_of_refused {reason : ConfigError}
    (h : request.options load = .error (.config reason)) :
    request.calculator load = .error ("config error: " ++ reason.message) := by
  unfold Request.calculator
  rw [h]
  rfl

theorem calculator_of_known (h : request.options load = .ok options)
    (hknown : ∀ name, request.function = some name →
      (Registry.builtins.get? name).isSome = true) :
    request.calculator load = .ok { options := options } := by
  unfold Request.calculator
  rw [h]
  cases hfunction : request.function with
  | none => rfl
  | some name =>
    simp only [Except.mapError, bind, Except.bind]
    exact if_pos (hknown name hfunction)

theorem calculator_of_unknown {name : String} (h : request.options load = .ok options)
    (hfunction : request.function = some name)
    (hunknown : ¬(Registry.builtins.get? name).isSome = true) :
    request.calculator load = .error (unknownFunctionMessage { options := options } name) := by
  unfold Request.calculator
  rw [h, hfunction]
  simp only [Except.mapError, bind, Except.bind]
  exact if_neg hunknown

end Calculator

theorem run_of_error {line : String} (h : request.calculator load = .error line)
    (input : List UInt8) : request.run load input = ⟨[.complain line], 2⟩ := by
  rw [run, h]

/-- The texts of a run: the words, or the lines that are not blank, up to a line that is no
text. -/
def texts (request : Request) (input : List UInt8) : List String :=
  if request.words = [] then
    expressions ((splitLines input).takeWhile Line.isText)
  else [String.intercalate " " request.words]

/-- A run reads its input only without words, and stops at a line that is no text. -/
def ReadsAll (request : Request) (input : List UInt8) : Prop :=
  request.words ≠ [] ∨ ∀ line ∈ splitLines input, line.isText = true

theorem readsAll_encode (request : Request) (chars : List Char) :
    request.ReadsAll (encode chars) :=
  .inr (isSome_text?_of_mem_splitLines chars)

theorem texts_encode (hwords : request.words = []) (chars : List Char) :
    request.texts (encode chars) = expressions (splitLines (encode chars)) := by
  have hall : ∀ line ∈ splitLines (encode chars), line.isText = true :=
    isSome_text?_of_mem_splitLines chars
  rw [texts, if_pos hwords, List.takeWhile_eq_self_iff.mpr hall]

/-- A line that is no text stops the run, whatever has failed before. -/
theorem runLines_of_stop {lines : List Line} (h : ∃ line ∈ lines, ¬line.isText = true) :
    request.runLines calculator false lines =
      ⟨(expressions (lines.takeWhile Line.isText)).flatMap (request.expressionEvents calculator) ++
        [.complain invalidLine], 2⟩ := by
  have hfront : ∀ line ∈ lines.takeWhile Line.isText, line.isText = true :=
    fun _ hline => List.mem_takeWhile_imp hline
  have hsplit : lines.takeWhile Line.isText ++ lines.dropWhile Line.isText = lines :=
    List.takeWhile_append_dropWhile
  have hhead := List.head?_dropWhile_not Line.isText lines
  cases hdrop : lines.dropWhile Line.isText with
  | nil =>
    obtain ⟨line, hline, hnot⟩ := h
    exact absurd (List.dropWhile_eq_nil_iff.mp hdrop line hline) hnot
  | cons line behind =>
    rw [hdrop, List.head?_cons] at hhead
    have hnone : line.text? = none := by simpa [Line.isText] using hhead
    rw [hdrop] at hsplit
    generalize lines.takeWhile Line.isText = front at *
    subst hsplit
    rw [runLines_append hfront]
    simp only [runLines, hnone]

theorem run_of_readsAll (hcalculator : request.calculator load = .ok calculator)
    {input : List UInt8} (h : request.ReadsAll input) :
    request.run load input =
      ⟨(request.texts input).flatMap (request.expressionEvents calculator),
        exitCode ((request.texts input).any (request.fails calculator))⟩ := by
  by_cases hwords : request.words = []
  · have hlines : ∀ line ∈ splitLines input, line.isText = true :=
      h.resolve_left fun hne => hne hwords
    rw [run_lines hwords hcalculator, texts, if_pos hwords,
      List.takeWhile_eq_self_iff.mpr hlines]
    exact runLines_texts hlines
  · rw [run_words hwords hcalculator, texts, if_neg hwords]
    simp [runWords]

theorem run_of_not_readsAll (hcalculator : request.calculator load = .ok calculator)
    {input : List UInt8} (h : ¬request.ReadsAll input) :
    request.run load input =
      ⟨(request.texts input).flatMap (request.expressionEvents calculator) ++
        [.complain invalidLine], 2⟩ := by
  unfold ReadsAll at h
  push Not at h
  obtain ⟨hwords, hstop⟩ := h
  rw [run_lines hwords hcalculator, texts, if_pos hwords]
  exact runLines_of_stop hstop

/-- The function, if there is one, is applied to what the calculator makes of the text. -/
theorem evaluate_eq (request : Request) (calculator : Calculator) (text : String) :
    request.evaluate calculator text =
      (calculator.calculate text).bind fun x =>
        request.function.elim (.ok x) fun name => calculator.apply name x := by
  unfold evaluate
  cases calculator.calculate text with
  | error reason => rfl
  | ok x => cases request.function <;> rfl

/-- The set-up leaves no function unknown. -/
theorem evaluate_ne_unknown (options : Options)
    (h : ∀ name, request.function = some name → (Registry.builtins.get? name).isSome = true)
    (text : String) {unknown : String} :
    request.evaluate { options := options } text ≠ .error (.unknownFunction unknown) := by
  unfold evaluate
  cases hvalue : Calculator.calculate { options := options } text with
  | error e =>
    intro heq
    cases heq
    exact Calculator.calculate_ne_unknown _ text hvalue
  | ok x =>
    cases hfunction : request.function with
    | none =>
      intro heq
      cases heq
    | some name => exact Calculator.apply_ne_unknown options (h name hfunction) x

theorem override_eq_switched {front : List String} {options : Options}
    (h : ∀ t : Switch, ¬t.HasLetter → (request.isOn t = true ↔ "--" ++ t.name ∈ front)) :
    request.override options = switched front options := by
  have hallow : request.allowNonFinite = true ↔ "--allow-non-finite" ∈ front :=
    h .allowNonFinite (by simp [Switch.HasLetter])
  have hradians : request.radians = true ↔ "--radians" ∈ front :=
    h .radians (by simp [Switch.HasLetter])
  have hconstants : request.noConstants = true ↔ "--no-constants" ∈ front :=
    h .noConstants (by simp [Switch.HasLetter])
  simp only [override, switched, ← hallow, ← hradians, ← hconstants]
  cases request.noConstants <;> rfl

end Request

/-- The set-up comes before any evaluation. Without a usable file a run says what is wrong with
the file, whatever function is named. With one, but with a function that is not registered,
it says so and lists the functions by name. Otherwise all texts of the run are evaluated with
the same options: those of the file or the defaults, changed where a switch is given. Then no
text fails because the function is unknown. -/
theorem outcome_of_set_up {arguments : List String} {request : Request}
    (h : Invocation.ofArguments arguments = .run request) (load : Loader) (input : List UInt8) :
    let outcome := (Invocation.ofArguments arguments).outcome load input
    let names := Registry.builtins.names
    ∃ front ending : List String, arguments = front ++ ending ++ request.words ∧
      (ending = [] ∨ ending = ["--"]) ∧ "--" ∉ front ∧
      ((∃ options, Options.Provided load request.config options) ∨
        ∃ reason, Options.Refused load request.config reason) ∧
      (∀ reason, Options.Refused load request.config reason →
        outcome = ⟨[.complain ("config error: " ++ reason.message)], 2⟩) ∧
      (∀ options, Options.Provided load request.config options →
        (∀ name, request.function = some name → name ∉ names →
          outcome = ⟨[.complain ("unknown function: " ++ name ++ " (known: " ++
            String.intercalate ", " names ++ ")")], 2⟩) ∧
        ((∀ name, request.function = some name → name ∈ names) →
          let calculator : Calculator := { options := switched front options }
          let result (text : String) : Except CalcError Float :=
            (calculator.calculate text).bind fun x =>
              request.function.elim (.ok x) fun name => calculator.apply name x
          let texts := request.texts input
          let events := texts.flatMap fun text =>
            ((request.logEntries calculator text).filter request.shows).map Event.log ++
              [request.answer text (result text)]
          (request.ReadsAll input →
            outcome = ⟨events, if texts.any fun text => !(result text).isOk then 1 else 0⟩) ∧
          (¬request.ReadsAll input →
            outcome = ⟨events ++ [.complain Request.invalidLine], 2⟩) ∧
          ∀ text unknown, result text ≠ .error (.unknownFunction unknown))) ∧
      (names.Pairwise fun a b => encode a.toList < encode b.toList) ∧
      ∀ name, name ∈ names ↔ (Registry.builtins.get? name).isSome = true := by
  intro outcome names
  obtain ⟨front, ending, harguments, hending, hopen, hon⟩ := exists_front h
  have hrun : outcome = request.run load input := by
    simp only [outcome, h, Invocation.outcome]
  refine ⟨front, ending, harguments, hending, hopen, Options.provided_or_refused _ _,
    fun reason hrefused => ?_,
    fun options hprovided => ⟨fun name hname hnot => ?_, fun hknown => ?_⟩,
    Registry.pairwise_names _, Registry.mem_names_iff _⟩
  · rw [hrun]
    exact Request.run_of_error
      (Request.calculator_of_refused (Request.options_of_refused hrefused)) input
  · rw [Registry.mem_names_iff] at hnot
    rw [hrun]
    exact Request.run_of_error
      (Request.calculator_of_unknown (Request.options_of_provided hprovided) hname hnot) input
  · intro calculator result texts events
    have hfound : ∀ name, request.function = some name →
        (Registry.builtins.get? name).isSome = true :=
      fun name hname => (Registry.mem_names_iff _ _).mp (hknown name hname)
    have hcalculator := Request.calculator_of_known (Request.options_of_provided hprovided) hfound
    rw [Request.override_eq_switched hon] at hcalculator
    have hresult : request.evaluate calculator = result :=
      funext (request.evaluate_eq calculator)
    have hevents : texts.flatMap (request.expressionEvents calculator) = events := by
      simp only [events, ← hresult]
      rfl
    have hcode : Request.exitCode (texts.any (request.fails calculator)) =
        if texts.any fun text => !(result text).isOk then 1 else 0 := by
      simp only [← hresult]
      rfl
    refine ⟨fun hreads => ?_, fun hstops => ?_, fun text _ => ?_⟩
    · rw [hrun, Request.run_of_readsAll hcalculator hreads, hevents, hcode]
    · rw [hrun, Request.run_of_not_readsAll hcalculator hstops, hevents]
    · rw [← hresult]
      exact Request.evaluate_ne_unknown _ hfound text

/-- A run over two lines. The file allows the infinite value of the first, and a switch keeps
the second from naming a constant. A missing file is reported, though the function is unknown
as well. -/
theorem outcome_of_set_up_file_and_switch :
    let tree : FileTree :=
      { files := [(["home", "opts"], encode "\x7b\"non_finite\":\"allow\"\x7d".toList)]
        folders := []
        start := ["home"] }
    let outcome (arguments : List String) (input : List UInt8) : Outcome :=
      (Invocation.ofArguments arguments).outcome tree.load input
    let arguments := ["--config", "opts", "--no-constants"]
    let request : Request := { config := some "opts", noConstants := true }
    let others := ["--config", "none", "--apply", "sine", "1+1"]
    let other : Request :=
      { words := ["1+1"], config := some "none", function := some "sine" }
    Invocation.ofArguments arguments = .run request ∧
      outcome arguments (encode "1/0\ne\n".toList) =
        ⟨[.print "Infinity", .complain "e: syntax error: unexpected character 'e' at position 0"],
          1⟩ ∧
      Invocation.ofArguments others = .run other ∧
      outcome others [] =
        ⟨[.complain "config error: none: No such file or directory (os error 2)"], 2⟩ := by
  intro tree outcome arguments request others other
  have h : Invocation.ofArguments arguments = .run request := by decide
  have hother : Invocation.ofArguments others = .run other := by decide
  have hformed : tree.WellFormed := ⟨by simp [tree], by simp [tree, FileTree.places]⟩
  have hload : tree.load "opts" =
      .ok (encode "\x7b\"non_finite\":\"allow\"\x7d".toList) := by
    have hsplit : "opts".splitOn "/" = ["opts"] := by cbv
    have hentry : FileTree.IsEntry "opts" := by constructor <;> decide +kernel
    exact hformed.load_name hentry hsplit (by decide +kernel) List.mem_cons_self
  have hmissing : tree.load "none" = .error .notFound := by
    have hsplit : "none".splitOn "/" = ["none"] := by cbv
    have hentry : FileTree.IsEntry "none" := by constructor <;> decide +kernel
    refine FileTree.load_name_notFound hentry hsplit (by decide +kernel) ?_ ?_
    · simp [tree]
    · simp [tree, FileTree.places]
  have hprovided : Options.Provided tree.load request.config { nonFinite := .allow } :=
    .file hload (decode?_encode _) (by rw [String.ofList_toList]; cbv)
  have hrefusal : Options.Refused tree.load other.config (.unreadable "none" .notFound) :=
    .unread hmissing
  obtain ⟨front, ending, harguments, hending, hopen, -, -, hfile, -⟩ :=
    outcome_of_set_up h tree.load (encode "1/0\ne\n".toList)
  obtain ⟨_, _, -, -, -, -, hrefused, -⟩ := outcome_of_set_up hother tree.load []
  have hfront : front = arguments := by
    rcases hending with rfl | rfl
    · simpa [request] using harguments.symm
    · have hmem : "--" ∈ arguments := by simp [harguments]
      exact absurd hmem (by decide)
  have hrun := ((hfile _ hprovided).2 (by simp [request])).1 (request.readsAll_encode _)
  have htexts : request.texts (encode "1/0\ne\n".toList) = ["1/0", "e"] := by
    have hbytes : encode "1/0\ne\n".toList =
        encode "1/0".toList ++ newline :: (encode "e".toList ++ newline :: []) := by decide +kernel
    have hone : '1' ∈ "1/0".toList := by simp
    have hletter : 'e' ∈ "e".toList := by simp
    rw [Request.texts_encode rfl, hbytes,
      Request.expressions_line (not_isBlank_of_mem hone (by decide)) (by simp) (by simp),
      Request.expressions_line (not_isBlank_of_mem hletter (by decide)) (by simp) (by simp),
      splitLines_nil]
    rfl
  have hoptions : switched front { nonFinite := .allow } =
      { nonFinite := .allow, substituteConstants := false } := by
    rw [hfront]
    decide
  have hquiet : request.shows = fun _ => false := by
    funext entry
    cases entry <;> rfl
  let calculator : Calculator :=
    { options := { nonFinite := .allow, substituteConstants := false } }
  have hcalculate (text : String) (hne : text ≠ "") (htrim : trim text = text) :
      calculator.calculate text = (Expression.evaluate text).mapError .badExpression := by
    have hresolve : calculator.resolve text = text := rfl
    rw [calculator.calculate_of_allow rfl (by rwa [htrim]), htrim, hresolve]
  obtain ⟨x, hquotient, hshown⟩ : ∃ x, calculator.calculate "1/0" = .ok x ∧
      Double.Style.display.write x = "Infinity" := by
    let quotient := Expression.Literal.value ⟨['1'], []⟩ / Expression.Literal.value ⟨['0'], []⟩
    have hvalue : Expression.evaluate "1/0" = .ok quotient := by with_unfolding_all rfl
    have hinfinite : Double.read quotient = .infinite false := by decide +kernel
    refine ⟨quotient, ?_, ?_⟩
    · rw [hcalculate _ (by decide) (by decide +kernel), hvalue]
      rfl
    · rw [Double.Style.write, hinfinite]
      rfl
  have hletter : calculator.calculate "e" =
      .error (.badExpression ⟨.unexpectedCharacter 'e', 0, some 'e'⟩) := by
    have hvalue : Expression.evaluate "e" = .error ⟨.unexpectedCharacter 'e', 0, some 'e'⟩ := by
      with_unfolding_all rfl
    rw [hcalculate _ (by decide) (by decide +kernel), hvalue]
    rfl
  have hmessage : "e: " ++
      (CalcError.badExpression ⟨.unexpectedCharacter 'e', 0, some 'e'⟩).message =
        "e: syntax error: unexpected character 'e' at position 0" := by
    decide +kernel
  have hreason : "config error: " ++ (ConfigError.unreadable "none" .notFound).message =
      "config error: none: No such file or directory (os error 2)" := by
    decide +kernel
  refine ⟨h, ?_, hother, ?_⟩
  · simp only [outcome, hrun, htexts, hoptions, hquiet]
    simp [calculator, hquotient, hletter, Request.answer, Except.bind, request, hshown, hmessage,
      Except.isOk, Except.toBool]
  · simp only [outcome, hrefused _ hrefusal, hreason]

end CommandLine

end Abacus
