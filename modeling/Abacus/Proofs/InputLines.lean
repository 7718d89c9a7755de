import Mathlib.Data.List.TakeWhile
import Abacus.CommandLine.Run
import Abacus.Proofs.Utf8

/-!
Runs over the lines of the input. The lines are the input, cut behind its newlines, so
the lines of a text that ends in a newline come before the lines of whatever is put
behind it. A run has the events of one line after the other: no line leaves anything
to the next but that a run that has failed stays failed. A line that is no text ends
the run.
-/

namespace Abacus.Text

/-- A line with its end. -/
def Line.raw (line : Line) : List UInt8 :=
  if line.ended then line.bytes ++ [newline] else line.bytes

/-- A new line may start behind the bytes. -/
def EndsLine (bytes : List UInt8) : Prop :=
  bytes = [] ∨ bytes.getLast? = some newline

section Split

variable {front rest : List UInt8}

theorem ne_newline_of_notMem (h : newline ∉ front) : ∀ b ∈ front, (b != newline) = true := by
  intro b hb
  rw [bne_iff_ne]
  rintro rfl
  exact h hb

theorem splitLines_nil : splitLines [] = [] := by
  rw [splitLines]
  rfl

theorem splitLines_append_newline (h : newline ∉ front) (rest : List UInt8) :
    splitLines (front ++ newline :: rest) = ⟨front, true⟩ :: splitLines rest := by
  have hfront := ne_newline_of_notMem h
  rw [splitLines]
  simp [List.takeWhile_append_of_pos hfront, List.dropWhile_append_of_pos hfront]

theorem splitLines_of_notMem (h : newline ∉ front) (hne : front ≠ []) :
    splitLines front = [⟨front, false⟩] := by
  have hfront := ne_newline_of_notMem h
  rw [splitLines]
  simp [List.takeWhile_eq_self_iff.mpr hfront, List.dropWhile_eq_nil_iff.mpr hfront, hne,
    splitLines_nil]

/-- Bytes are empty, or one line without a newline, or a line with its newline and the
lines behind it. -/
theorem lines_induction {motive : List UInt8 → Prop} (nil : motive [])
    (last : ∀ front, newline ∉ front → front ≠ [] → motive front)
    (line : ∀ front rest, newline ∉ front → motive rest → motive (front ++ newline :: rest))
    (bytes : List UInt8) : motive bytes := by
  induction hlength : bytes.length using Nat.strong_induction_on generalizing bytes with
  | _ n ih =>
    by_cases hmem : newline ∈ bytes
    · obtain ⟨front, rest, rfl, hfront⟩ := List.eq_append_cons_of_mem hmem
      have hshorter : rest.length < n := by
        rw [← hlength, List.length_append, List.length_cons]
        omega
      exact line front rest hfront (ih _ hshorter rest rfl)
    · by_cases hne : bytes = []
      · rw [hne]
        exact nil
      · exact last bytes hmem hne

/-- The lines with their ends are the whole input. -/
theorem flatMap_raw_splitLines (bytes : List UInt8) :
    (splitLines bytes).flatMap Line.raw = bytes := by
  induction bytes using lines_induction with
  | nil => simp [splitLines_nil]
  | last front h hne => simp [splitLines_of_notMem h hne, Line.raw]
  | line front rest h ih => simp [splitLines_append_newline h, Line.raw, ih]

theorem newline_notMem_of_mem_splitLines {bytes : List UInt8} {line : Line}
    (hline : line ∈ splitLines bytes) : newline ∉ line.bytes := by
  induction bytes using lines_induction with
  | nil => simp [splitLines_nil] at hline
  | last front h hne =>
    rw [splitLines_of_notMem h hne, List.mem_singleton] at hline
    rwa [hline]
  | line front rest h ih =>
    rw [splitLines_append_newline h, List.mem_cons] at hline
    rcases hline with rfl | hline
    · exact h
    · exact ih hline

/-- Whatever is behind a newline is split on its own. -/
theorem splitLines_append {bytes : List UInt8} (h : EndsLine bytes) (more : List UInt8) :
    splitLines (bytes ++ more) = splitLines bytes ++ splitLines more := by
  induction bytes using lines_induction with
  | nil => rw [splitLines_nil, List.nil_append, List.nil_append]
  | last front hnot hne =>
    rcases h with h | h
    · exact absurd h hne
    · exact absurd (List.mem_of_getLast? h) hnot
  | line front rest hnot ih =>
    have hrest : EndsLine rest := by
      rcases h with h | h
      · simp at h
      · cases rest with
        | nil => exact .inl rfl
        | cons b rest =>
          right
          simpa using h
    rw [List.append_assoc, List.cons_append, splitLines_append_newline hnot,
      splitLines_append_newline hnot, ih hrest, List.cons_append]

/-- The lines in front of another line are split as they were in the whole. -/
theorem splitLines_flatMap_raw {bytes : List UInt8} {front behind : List Line}
    (h : splitLines bytes = front ++ behind) (hbehind : behind ≠ []) :
    splitLines (front.flatMap Line.raw) = front := by
  induction bytes using lines_induction generalizing front with
  | nil =>
    rw [splitLines_nil] at h
    exact absurd (List.append_eq_nil_iff.mp h.symm).2 hbehind
  | last bytes hnot hne =>
    rw [splitLines_of_notMem hnot hne] at h
    cases front with
    | nil => exact splitLines_nil
    | cons line front => simp_all
  | line bytes rest hnot ih =>
    rw [splitLines_append_newline hnot] at h
    cases front with
    | nil => exact splitLines_nil
    | cons line front =>
      rw [List.cons_append, List.cons.injEq] at h
      obtain ⟨rfl, hrest⟩ := h
      have hraw : (⟨bytes, true⟩ :: front).flatMap Line.raw =
          bytes ++ newline :: front.flatMap Line.raw := by
        simp [Line.raw]
      rw [hraw, splitLines_append_newline hnot, ih hrest]

theorem newline_notMem_encode {chars : List Char} (h : '\n' ∉ chars) :
    newline ∉ encode chars := by
  intro hmem
  obtain ⟨c, hc, hbyte⟩ := List.mem_flatMap.mp hmem
  apply newline_notMem_utf8EncodeChar _ hbyte
  rintro rfl
  exact h hc

theorem isSome_text?_iff (line : Line) :
    line.text?.isSome = true ↔ ∃ chars, encode chars = line.bytes := by
  rw [Line.text?, Option.isSome_map, Option.isSome_iff_exists]
  constructor
  · rintro ⟨text, htext⟩
    exact ⟨text.toList, decode?_eq_some_iff.mp htext⟩
  · rintro ⟨chars, hchars⟩
    rw [← hchars]
    exact ⟨_, decode?_encode chars⟩

/-- Every line of a text is a part of it. -/
theorem exists_part_of_mem_splitLines (chars : List Char) :
    ∀ line ∈ splitLines (encode chars), ∃ part, encode part = line.bytes ∧ part ⊆ chars := by
  induction hlength : chars.length using Nat.strong_induction_on generalizing chars with
  | _ n ih =>
    by_cases hmem : '\n' ∈ chars
    · obtain ⟨front, rest, rfl, hfront⟩ := List.eq_append_cons_of_mem hmem
      have hshorter : rest.length < n := by
        rw [← hlength, List.length_append, List.length_cons]
        omega
      have hencode : encode (front ++ '\n' :: rest) = encode front ++ newline :: encode rest := by
        rw [encode_append, encode_cons, utf8EncodeChar_newline, List.singleton_append]
      rw [hencode, splitLines_append_newline (newline_notMem_encode hfront)]
      intro line hline
      rcases List.mem_cons.mp hline with rfl | hline
      · exact ⟨front, rfl, List.subset_append_left _ _⟩
      · obtain ⟨part, hpart, hsub⟩ := ih _ hshorter rest rfl line hline
        exact ⟨part, hpart, fun c hc =>
          List.mem_append_right _ (List.mem_cons_of_mem _ (hsub hc))⟩
    · by_cases hne : encode chars = []
      · simp [hne, splitLines_nil]
      · rw [splitLines_of_notMem (newline_notMem_encode hmem) hne]
        intro line hline
        rw [List.mem_singleton.mp hline]
        exact ⟨chars, rfl, List.Subset.refl chars⟩

/-- Every line of a text is a text. -/
theorem isSome_text?_of_mem_splitLines (chars : List Char) :
    ∀ line ∈ splitLines (encode chars), line.text?.isSome = true := by
  intro line hline
  obtain ⟨part, hpart, -⟩ := exists_part_of_mem_splitLines chars line hline
  exact (isSome_text?_iff line).mpr ⟨part, hpart⟩

theorem dropReturn_subset (text : String) : (dropReturn text).toList ⊆ text.toList := by
  unfold dropReturn
  split
  · rw [String.toList_ofList]
    exact List.dropLast_subset _
  · exact List.Subset.refl _

/-- The text of a line has no characters but those of the line. -/
theorem subset_of_text? {line : Line} {part : List Char} {text : String}
    (hpart : encode part = line.bytes) (h : line.text? = some text) : text.toList ⊆ part := by
  rw [Line.text?, ← hpart, decode?_encode, Option.map_some] at h
  obtain rfl := Option.some.inj h
  have hsub := dropReturn_subset (String.ofList part)
  rw [String.toList_ofList] at hsub
  split
  · exact hsub
  · rw [String.toList_ofList]
    exact List.Subset.refl part

end Split

/-- A text of white space only, or of nothing. -/
def IsBlank (text : String) : Prop :=
  ∀ c ∈ text.toList, isBlank c = true

instance (text : String) : Decidable (IsBlank text) :=
  inferInstanceAs (Decidable (∀ c ∈ text.toList, isBlank c = true))

theorem not_isBlank_of_mem {text : String} {c : Char} (hc : c ∈ text.toList)
    (h : isBlank c = false) : ¬IsBlank text := by
  intro hblank
  rw [hblank c hc] at h
  contradiction

theorem isEmpty_trim_iff (text : String) : (trim text).isEmpty = true ↔ IsBlank text := by
  have hchars : (trim text).isEmpty = true ↔ trimChars text.toList = [] := by
    rw [String.isEmpty_iff, trim, ← String.toList_eq_nil_iff, String.toList_ofList]
  rw [hchars, trimChars, List.reverse_eq_nil_iff, List.dropWhile_eq_nil_iff]
  constructor
  · intro h
    apply List.dropWhile_eq_nil_iff.mp
    have hhead := List.head?_dropWhile_not isBlank text.toList
    cases hdrop : text.toList.dropWhile isBlank with
    | nil => rfl
    | cons c rest =>
      rw [hdrop] at hhead
      have hc : isBlank c = true := h c (by simp [hdrop])
      rw [List.head?_cons] at hhead
      simp [hc] at hhead
  · intro h c hc
    have hdrop : text.toList.dropWhile isBlank = [] := List.dropWhile_eq_nil_iff.mpr h
    simp [hdrop] at hc

end Abacus.Text

namespace Abacus.CommandLine

open Text

/-- The texts that are evaluated: those of the lines that are not blank. -/
def expressions (lines : List Line) : List String :=
  (lines.filterMap Line.text?).filter fun text => ¬IsBlank text

namespace Request

variable {request : Request} {calculator : Calculator} {front : List Line}

theorem expressions_cons {line : Line} {text : String} (h : line.text? = some text)
    (lines : List Line) :
    expressions (line :: lines) =
      if IsBlank text then expressions lines else text :: expressions lines := by
  rw [expressions, List.filterMap_cons_some h, List.filter_cons]
  by_cases hblank : IsBlank text
  · simp [hblank, expressions]
  · simp [hblank, expressions]

/-- A text with a newline behind it is the first expression. -/
theorem expressions_line {text : String} (hblank : ¬IsBlank text)
    (hnewline : '\n' ∉ text.toList) (hreturn : text.toList.getLast? ≠ some '\r')
    (bytes : List UInt8) :
    expressions (splitLines (encode text.toList ++ newline :: bytes)) =
      text :: expressions (splitLines bytes) := by
  have htext : Line.text? ⟨encode text.toList, true⟩ = some text := by
    rw [Line.text?, decode?_encode, Option.map_some, String.ofList_toList, if_pos rfl, dropReturn,
      if_neg hreturn]
  rw [splitLines_append_newline (newline_notMem_encode hnewline), expressions_cons htext,
    if_neg hblank]

/-- Lines that are texts give the events of their expressions, and leave to the lines
behind them whether one of them failed. -/
theorem runLines_append (hfront : ∀ line ∈ front, line.text?.isSome = true) (failed : Bool)
    (lines : List Line) :
    request.runLines calculator failed (front ++ lines) =
      let rest := request.runLines calculator
        (failed || (expressions front).any (request.fails calculator)) lines
      ⟨(expressions front).flatMap (request.expressionEvents calculator) ++ rest.events,
        rest.code⟩ := by
  induction front generalizing failed with
  | nil => simp [expressions]
  | cons line front ih =>
    obtain ⟨text, htext⟩ := Option.isSome_iff_exists.mp (hfront line List.mem_cons_self)
    have hrest := ih fun line hline => hfront line (List.mem_cons_of_mem _ hline)
    rw [List.cons_append, runLines, htext, expressions_cons htext]
    by_cases hblank : IsBlank text
    · simp only [if_pos ((isEmpty_trim_iff text).mpr hblank), if_pos hblank]
      exact hrest failed
    · have htrim : ¬(trim text).isEmpty = true := mt (isEmpty_trim_iff text).mp hblank
      simp only [if_neg htrim, if_neg hblank, hrest, List.any_cons, List.flatMap_cons,
        List.append_assoc, Bool.or_assoc]

theorem exitCode_or (a b : Bool) : exitCode (a || b) = max (exitCode a) (exitCode b) := by
  cases a <;> cases b <;> rfl

/-- A run that has failed before has the same events, and the code of a failure unless
its own code is higher. -/
theorem runLines_failed (request : Request) (calculator : Calculator) (failed : Bool)
    (lines : List Line) :
    (request.runLines calculator failed lines).events =
        (request.runLines calculator false lines).events ∧
      (request.runLines calculator failed lines).code =
        max (exitCode failed) (request.runLines calculator false lines).code := by
  induction lines generalizing failed with
  | nil =>
    refine ⟨rfl, ?_⟩
    simp [runLines, exitCode]
  | cons line lines ih =>
    simp only [runLines]
    cases line.text? with
    | none =>
      refine ⟨rfl, ?_⟩
      cases failed <;> rfl
    | some text =>
      by_cases htrim : (trim text).isEmpty = true
      · simp only [if_pos htrim]
        exact ih failed
      · simp only [if_neg htrim]
        obtain ⟨hevents, hcode⟩ := ih (failed || request.fails calculator text)
        obtain ⟨hevents', hcode'⟩ := ih (false || request.fails calculator text)
        refine ⟨by rw [hevents, hevents'], ?_⟩
        rw [hcode, hcode', exitCode_or, exitCode_or, max_assoc]
        rfl

theorem run_lines {load : Loader} (hwords : request.words = [])
    (hcalculator : request.calculator load = .ok calculator) (input : List UInt8) :
    request.run load input = request.runLines calculator false (splitLines input) := by
  simp [run, hcalculator, hwords]

theorem run_words {load : Loader} (hwords : request.words ≠ [])
    (hcalculator : request.calculator load = .ok calculator) (input : List UInt8) :
    request.run load input = request.runWords calculator := by
  simp [run, hcalculator, hwords]

/-- Lines that are all texts. -/
theorem runLines_texts {lines : List Line} (h : ∀ line ∈ lines, line.text?.isSome = true) :
    request.runLines calculator false lines =
      ⟨(expressions lines).flatMap (request.expressionEvents calculator),
        exitCode ((expressions lines).any (request.fails calculator))⟩ := by
  calc request.runLines calculator false lines
    _ = request.runLines calculator false (lines ++ []) := by rw [List.append_nil]
    _ = _ := by
      rw [runLines_append h]
      simp [runLines]

theorem map_text?_eq {lines : List Line} (h : ∀ line ∈ lines, line.text?.isSome = true) :
    lines.map Line.text? = (lines.filterMap Line.text?).map some := by
  induction lines with
  | nil => rfl
  | cons line lines ih =>
    obtain ⟨text, htext⟩ := Option.isSome_iff_exists.mp (h line List.mem_cons_self)
    rw [List.map_cons, List.filterMap_cons_some htext, List.map_cons, htext,
      ih fun line hline => h line (List.mem_cons_of_mem _ hline)]

theorem fails_iff (text : String) :
    request.fails calculator text = true ↔
      ∃ reason, request.evaluate calculator text = .error reason := by
  rw [fails]
  cases request.evaluate calculator text with
  | ok x => simp [Except.isOk, Except.toBool]
  | error reason => simp [Except.isOk, Except.toBool]

theorem any_fails_iff (lines : List Line) :
    (expressions lines).any (request.fails calculator) = true ↔
      ∃ text ∈ lines.filterMap Line.text?, ¬IsBlank text ∧
        ∃ reason, request.evaluate calculator text = .error reason := by
  rw [List.any_eq_true]
  constructor
  · rintro ⟨text, htext, hfails⟩
    obtain ⟨hmem, hblank⟩ := List.mem_filter.mp htext
    exact ⟨text, hmem, of_decide_eq_true hblank, (fails_iff text).mp hfails⟩
  · rintro ⟨text, hmem, hblank, hfails⟩
    exact ⟨text, List.mem_filter.mpr ⟨hmem, decide_eq_true hblank⟩, (fails_iff text).mpr hfails⟩

theorem isSome_text?_of_decode? {bytes : List UInt8} (h : (decode? bytes).isSome = true) :
    ∀ line ∈ splitLines bytes, line.text?.isSome = true := by
  obtain ⟨text, htext⟩ := Option.isSome_iff_exists.mp h
  rw [← decode?_eq_some_iff.mp htext]
  exact isSome_text?_of_mem_splitLines _

end Request

/-- Runs of a request without words, if its options and its function are in order. A text
that ends its last line may be put in front of any input: the events are those of the
one and then those of the other, and the code is the larger one. A text gives the events
of its lines that are not blank, in turn, and fails if one of these lines does. The first
line that is no text ends the run, with the events of the lines in front of it and the
code 2. -/
theorem outcome_of_lines (load : Loader) (request : Request) (calculator : Calculator)
    (hwords : request.words = []) (hcalculator : request.calculator load = .ok calculator) :
    let outcome (input : List UInt8) : Outcome := Invocation.outcome load input (.run request)
    (∀ a b, (decode? a).isSome = true → EndsLine a →
      (outcome (a ++ b)).events = (outcome a).events ++ (outcome b).events ∧
        (outcome (a ++ b)).code = max (outcome a).code (outcome b).code) ∧
    (∀ a, (decode? a).isSome = true → ∃ texts : List String,
      (splitLines a).map Line.text? = texts.map some ∧
      (outcome a).events = (texts.filter fun text => ¬IsBlank text).flatMap
        (request.expressionEvents calculator) ∧
      ((outcome a).code = 1 ↔ ∃ text ∈ texts, ¬IsBlank text ∧
        ∃ reason, request.evaluate calculator text = .error reason) ∧
      ((outcome a).code = 0 ∨ (outcome a).code = 1)) ∧
    (∀ bytes front line behind, splitLines bytes = front ++ line :: behind →
      (∀ earlier ∈ front, (decode? earlier.bytes).isSome = true) → decode? line.bytes = none →
      outcome bytes =
        ⟨(outcome (front.flatMap Line.raw)).events ++
          [.complain "stdin: stream did not contain valid UTF-8"], 2⟩) ∧
    ∀ bytes, (splitLines bytes).flatMap Line.raw = bytes ∧
      ∀ line ∈ splitLines bytes, newline ∉ line.bytes := by
  intro outcome
  have hrun : ∀ input, outcome input = request.runLines calculator false (splitLines input) :=
    Request.run_lines hwords hcalculator
  refine ⟨fun a b ha hends => ?_, fun a ha => ?_,
    fun bytes front line behind hsplit hfront hline => ?_,
    fun bytes => ⟨flatMap_raw_splitLines bytes, fun _ => newline_notMem_of_mem_splitLines⟩⟩
  · have hlines := Request.isSome_text?_of_decode? ha
    obtain ⟨hevents, hcode⟩ := request.runLines_failed calculator
      ((expressions (splitLines a)).any (request.fails calculator)) (splitLines b)
    rw [hrun, hrun, hrun, splitLines_append hends, Request.runLines_append hlines,
      Request.runLines_texts hlines, Bool.false_or]
    exact ⟨congrArg (_ ++ ·) hevents, hcode⟩
  · have hlines := Request.isSome_text?_of_decode? ha
    rw [hrun, Request.runLines_texts hlines]
    refine ⟨_, Request.map_text?_eq hlines, rfl, ?_, ?_⟩
    · rw [← Request.any_fails_iff]
      cases (expressions (splitLines a)).any (request.fails calculator) <;> simp [Request.exitCode]
    · cases (expressions (splitLines a)).any (request.fails calculator)
      · exact .inl rfl
      · exact .inr rfl
  · have hlines : ∀ earlier ∈ front, earlier.text?.isSome = true := by
      intro earlier hearlier
      rw [Line.text?, Option.isSome_map]
      exact hfront earlier hearlier
    have hnone : line.text? = none := by rw [Line.text?, hline, Option.map_none]
    have hsplit' : splitLines (front.flatMap Line.raw) = front :=
      splitLines_flatMap_raw hsplit (List.cons_ne_nil _ _)
    rw [hrun, hrun, hsplit', hsplit, Request.runLines_append hlines, Request.runLines_texts hlines]
    simp only [Request.runLines, hnone]
    rfl

/-- A blank line and one that fails, in front of a line that is no text. -/
theorem outcome_of_lines_invalid :
    let request : Request := { function := some "sqrt", json := true, verbosity := 2 }
    let calculator : Calculator := {}
    let load : Loader := fun _ => .error .notFound
    let outcome (input : List UInt8) : Outcome := Invocation.outcome load input (.run request)
    let a : List UInt8 := encode " \t\n2 +\r\n9\n".toList
    let b : List UInt8 := [0xff, newline]
    request.words = [] ∧ request.calculator load = .ok calculator ∧ (decode? a).isSome = true ∧
      EndsLine a ∧ (outcome (a ++ b)).events = (outcome a).events ++ (outcome b).events ∧
      (outcome (a ++ b)).code = max (outcome a).code (outcome b).code := by
  intro request calculator load outcome a b
  have hwords : request.words = [] := rfl
  have hcalculator : request.calculator load = .ok calculator := rfl
  have ha : (decode? a).isSome = true := by rw [decode?_encode, Option.isSome_some]
  have hends : EndsLine a := .inr (by decide)
  have hlines := outcome_of_lines load request calculator hwords hcalculator
  exact ⟨hwords, hcalculator, ha, hends, hlines.1 a b ha hends⟩

end Abacus.CommandLine
