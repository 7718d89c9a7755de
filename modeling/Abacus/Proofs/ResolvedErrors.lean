import Abacus.Proofs.ErrorPlaces
import Abacus.Proofs.Spacing
import Abacus.Proofs.Substitution

/-!
Errors in a text into which constants have been put, seen from the text without them. A
place in the resolved text lies between the images of two characters or inside the group
that stands for a constant. The machine refuses such a group at its parenthesis or reads
all of it, unless the numeral inside it is the first factor that is too deep. An error
therefore stands where the image of a character starts, or at the end; only an error
about depth may stand inside a group, just behind the parenthesis.
-/

namespace Abacus.Expression

open Text

/-- The tokens of a numeral in parentheses. -/
def Numeral.group (numeral : Numeral) : List Token :=
  [.single '(', .run numeral.first numeral.rest, .single ')']

namespace Automaton

variable (limit : Nat)

/-- The machine reads all tokens in front of others, or it stops in front of some of
them, whatever the others are. -/
theorem run_append_cases (s : State) (front : List Token) :
    (∃ s', ∀ more, run limit s (front ++ more) = run limit s' more) ∨
      ∃ cause ahead, ∀ more, run limit s (front ++ more) = .error (cause, ahead ++ more) := by
  induction front generalizing s with
  | nil => exact .inl ⟨s, fun more => rfl⟩
  | cons t front ih =>
    rcases Nat.lt_or_ge limit s.active with hdeep | hactive
    · exact .inr ⟨.nestedTooDeeply, t :: front, fun more => run_tooDeep _ hdeep⟩
    · cases hread : s.read t with
      | error cause =>
        exact .inr ⟨cause, t :: front, fun more => run_cons_of_error hactive hread _⟩
      | ok next =>
        have hstep : ∀ more, run limit s (t :: front ++ more) = run limit next (front ++ more) :=
          fun more => run_cons_of_ok hactive hread _
        rcases ih next with ⟨s', hs'⟩ | ⟨cause, ahead, hstop⟩
        · exact .inl ⟨s', fun more => (hstep more).trans (hs' more)⟩
        · exact .inr ⟨cause, ahead, fun more => (hstep more).trans (hstop more)⟩

/-- A group is refused at its parenthesis, or its numeral is too deep, or it is read. -/
theorem run_group_cases (numeral : Numeral) (s : State) (more : List Token) :
    (∃ cause, run limit s (numeral.group ++ more) = .error (cause, numeral.group ++ more)) ∨
      (∃ ahead, run limit s (numeral.group ++ more) = .error (.nestedTooDeeply, ahead)) ∨
      ∃ s', run limit s (numeral.group ++ more) = run limit s' more := by
  rcases Nat.lt_or_ge limit s.active with hdeep | hactive
  · exact .inl ⟨_, run_tooDeep _ hdeep⟩
  cases hread : s.read (.single '(') with
  | error cause => exact .inl ⟨cause, run_cons_of_error hactive hread _⟩
  | ok inside =>
    right
    have hopen : run limit s (numeral.group ++ more) =
        run limit inside (.run numeral.first numeral.rest :: .single ')' :: more) :=
      run_cons_of_ok hactive hread _
    rw [hopen]
    rcases Nat.lt_or_ge limit inside.active with hdeep | hinside
    · exact .inl ⟨_, run_tooDeep _ hdeep⟩
    · right
      obtain ⟨outer, level, operand⟩ := s
      obtain rfl : operand = none := by
        cases operand with
        | none => rfl
        | some x =>
          have hrefused : State.leave ⟨outer, level, some x⟩ x '(' = .ok inside := hread
          cases outer <;> simp [State.leave] at hrefused
      obtain rfl : (⟨level :: outer, {}, none⟩ : State) = inside := Except.ok.inj hread
      have hfilled :
          State.active ⟨level :: outer, {}, some numeral.literal.value⟩ ≤ limit := hinside
      refine ⟨⟨outer, level, some numeral.literal.value⟩, ?_⟩
      rw [run_cons_of_ok hinside (read_numeral numeral {})]
      exact run_cons_of_ok hfilled rfl more

variable {limit} in
/-- An error that is not about depth leaves a group whole, or leaves none of it. -/
theorem length_ahead_of_group {s : State} {front behind ahead : List Token} {cause : Cause}
    (numeral : Numeral)
    (h : run limit s (front ++ (numeral.group ++ behind)) = .error (cause, ahead))
    (hcause : cause ≠ .nestedTooDeeply) :
    ahead.length ≤ behind.length ∨ behind.length + numeral.group.length ≤ ahead.length := by
  rcases run_append_cases limit s front with ⟨s', hread⟩ | ⟨cause', ahead', hstop⟩
  · rw [hread] at h
    rcases run_group_cases limit numeral s' behind with
      ⟨cause', hrefused⟩ | ⟨ahead', hdeep⟩ | ⟨s'', hbehind⟩
    · rw [hrefused] at h
      cases h
      right
      rw [List.length_append]
      omega
    · rw [hdeep] at h
      cases h
      exact absurd rfl hcause
    · rw [hbehind] at h
      obtain ⟨tokens, -, hsplit, -⟩ := exists_stops h
      left
      rw [hsplit, List.length_append]
      omega
  · rw [hstop] at h
    cases h
    right
    simp only [List.length_append]
    omega

end Automaton

end Abacus.Expression

namespace Abacus.Constant

open Text Expression

/-- The character with which the image of a character starts. -/
def firstOfImage (c : Char) : Char :=
  if c = 'π' ∨ c = 'e' then '(' else c

section Image

variable {c : Char} {constant : Constant}

theorem ofSymbol?_eq_none_iff : ofSymbol? c = none ↔ ¬(c = 'π' ∨ c = 'e') := by
  have hpi : pi.symbol = 'π' := rfl
  have heuler : euler.symbol = 'e' := rfl
  rw [ofSymbol?, List.find?_eq_none, all, List.forall_mem_cons, List.forall_mem_singleton, hpi,
    heuler, beq_iff_eq, beq_iff_eq, not_or, eq_comm, @eq_comm _ 'e']

theorem ofSymbol?_of_mem (h : constant ∈ all) : ofSymbol? constant.symbol = some constant :=
  (find?_symbol_eq_some (List.Subset.refl all)).mpr ⟨h, rfl⟩

theorem head?_image (c : Char) : (image c).head? = some (firstOfImage c) := by
  cases hsymbol : ofSymbol? c with
  | none => rw [image_of_none hsymbol, firstOfImage, if_neg (ofSymbol?_eq_none_iff.mp hsymbol)]; rfl
  | some constant =>
    have hname : c = 'π' ∨ c = 'e' := by
      by_contra hnot
      rw [ofSymbol?_eq_none_iff.mpr hnot] at hsymbol
      contradiction
    obtain ⟨numeral, htext, -⟩ := exists_numeral (ofSymbol?_mem hsymbol).1
    rw [image_of_symbol hsymbol, htext, firstOfImage, if_pos hname]
    rfl

theorem ne_nil_of_image (c : Char) : image c ≠ [] := by
  intro hnil
  have hhead := head?_image c
  rw [hnil] at hhead
  contradiction

theorem head?_flatMap_image (chars : List Char) :
    (chars.flatMap image).head? = chars.head?.map firstOfImage := by
  cases chars with
  | nil => rfl
  | cons c rest => rw [List.flatMap_cons, List.head?_append, head?_image]; rfl

/-- Constants are put neither into a run nor in front of the rest of one. -/
theorem takeWhile_flatMap_image (chars : List Char) :
    (chars.flatMap image).takeWhile isNumberChar = chars.takeWhile isNumberChar := by
  induction chars with
  | nil => rfl
  | cons c rest ih =>
    rw [List.flatMap_cons]
    by_cases hc : isNumberChar c = true
    · rw [image_of_none (IsPlain.ofSymbol?_eq (.inl hc)), List.singleton_append,
        List.takeWhile_cons_of_pos hc, List.takeWhile_cons_of_pos hc, ih]
    · have hhead := isNumberChar_head_image (by simpa using hc) (rest.flatMap image)
      rw [List.takeWhile_cons_of_neg hc]
      cases himage : image c ++ rest.flatMap image with
      | nil => rfl
      | cons b tail =>
        rw [himage] at hhead
        rw [List.takeWhile_cons_of_neg]
        simpa using hhead

/-- A cut through a row of images goes between two of them or through one. -/
theorem flatMap_image_eq_append {chars before behind : List Char}
    (h : chars.flatMap image = before ++ behind) :
    (∃ front rest, chars = front ++ rest ∧ before = front.flatMap image ∧
        behind = rest.flatMap image) ∨
      ∃ front c rest u v, chars = front ++ c :: rest ∧ image c = u ++ v ∧ u ≠ [] ∧ v ≠ [] ∧
        before = front.flatMap image ++ u ∧ behind = v ++ rest.flatMap image := by
  induction chars generalizing before with
  | nil =>
    obtain ⟨rfl, rfl⟩ := List.append_eq_nil_iff.mp h.symm
    exact .inl ⟨[], [], rfl, rfl, rfl⟩
  | cons c rest ih =>
    rw [List.flatMap_cons] at h
    rcases List.append_eq_append_iff.mp h with ⟨mid, rfl, hrest⟩ | ⟨mid, himage, rfl⟩
    · rcases ih hrest with ⟨front, tail, rfl, rfl, rfl⟩ |
        ⟨front, d, tail, u, v, rfl, himage, hu, hv, rfl, rfl⟩
      · exact .inl ⟨c :: front, tail, rfl, rfl, rfl⟩
      · refine .inr ⟨c :: front, d, tail, u, v, rfl, himage, hu, hv, ?_, rfl⟩
        rw [List.flatMap_cons, List.append_assoc]
    · by_cases hbefore : before = []
      · subst hbefore
        rw [List.nil_append] at himage
        exact .inl ⟨[], c :: rest, rfl, rfl, by rw [List.flatMap_cons, himage]⟩
      · by_cases hmid : mid = []
        · subst hmid
          rw [List.append_nil] at himage
          exact .inl ⟨[c], rest, rfl, by simp [himage], rfl⟩
        · exact .inr ⟨[], c, rest, before, mid, rfl, himage, hbefore, hmid, rfl, rfl⟩

end Image

end Abacus.Constant

namespace Abacus.Expression

open Text Text.Cursor Automaton Constant

theorem tokensOf_ne_nil {chars : List Char} (hne : chars ≠ []) (hspace : ' ' ∉ chars) :
    tokensOf chars ≠ [] := by
  have hsettled : Cursor.Settled ⟨0, chars⟩ := fun h => hspace (List.mem_of_mem_head? h)
  exact mt (rest_eq_nil_iff hsettled).mpr hne

theorem apart_of_getLast? {before behind : List Char} {c : Char} (h : before.getLast? = some c)
    (hc : isNumberChar c = false) : Apart before behind := by
  obtain ⟨front, rfl⟩ := List.getLast?_eq_some_iff.mp h
  exact apart_concat front behind hc

/-- Only the images of constants can be cut. -/
theorem exists_constant_of_cut {c : Char} {u v : List Char} (himage : image c = u ++ v)
    (hu : u ≠ []) (hv : v ≠ []) :
    ∃ constant ∈ Constant.all, ofSymbol? c = some constant ∧ constant.text.toList = u ++ v := by
  cases hsymbol : ofSymbol? c with
  | none =>
    rw [image_of_none hsymbol] at himage
    obtain ⟨a, u, rfl⟩ := List.exists_cons_of_ne_nil hu
    obtain ⟨b, v, rfl⟩ := List.exists_cons_of_ne_nil hv
    simp at himage
  | some constant =>
    rw [image_of_symbol hsymbol] at himage
    exact ⟨constant, (ofSymbol?_mem hsymbol).1, rfl, himage⟩

section Group

variable {constant : Constant} {u v : List Char} (hconstant : constant ∈ Constant.all)
  (htext : constant.text.toList = u ++ v)

include hconstant htext

/-- In a group that is cut, only the parenthesis opens a factor. -/
theorem eq_parenthesis_of_isOpener {o : Char} (hv : v ≠ []) (ho : o ∈ u.getLast?)
    (hopens : isOpener o = true) : u = ['('] := by
  obtain ⟨numeral, hnumeral, -⟩ := exists_numeral hconstant
  obtain ⟨front, rfl⟩ := List.getLast?_eq_some_iff.mp ho
  cases front with
  | nil =>
    rw [htext] at hnumeral
    simp only [List.nil_append, List.cons_append, List.cons.injEq] at hnumeral
    rw [hnumeral.1, List.nil_append]
  | cons a front =>
    exfalso
    rw [htext, List.cons_append, List.cons_append, List.cons.injEq] at hnumeral
    have hlast : o ∈ numeral.first :: numeral.rest := by
      rcases List.eq_nil_or_concat v with rfl | ⟨w, b, rfl⟩
      · exact absurd rfl hv
      · rw [List.concat_eq_append, ← List.append_assoc] at hnumeral
        rw [← (List.append_inj' hnumeral.2 rfl).1]
        simp
    have hnumber := numeral.isNumeral.1 o hlast
    rw [(standsAlone_of_isOpener hopens).2] at hnumber
    contradiction

/-- A cut between two tokens of a group leaves some of them and not all. -/
theorem length_tokensOf_cut (hu : u ≠ []) (hv : v ≠ []) (hapart : Apart u v) :
    0 < (tokensOf v).length ∧ (tokensOf v).length < (tokensOf (u ++ v)).length := by
  have hspace : ' ' ∉ u ++ v := by
    obtain ⟨numeral, hnumeral, -⟩ := exists_numeral hconstant
    rw [← htext, hnumeral]
    intro hmem
    rcases List.mem_cons.mp hmem with h | h
    · contradiction
    · rcases List.mem_append.mp h with h | h
      · have hnumber := numeral.isNumeral.1 ' ' h
        contradiction
      · simp at h
  rw [List.mem_append, not_or] at hspace
  have hfront := List.length_pos_of_ne_nil (tokensOf_ne_nil hu hspace.1)
  have hback := List.length_pos_of_ne_nil (tokensOf_ne_nil hv hspace.2)
  rw [tokensOf_append hapart, List.length_append]
  omega

theorem getLast?_of_text (hv : v ≠ []) : v.getLast? = some ')' := by
  obtain ⟨numeral, hnumeral, -⟩ := exists_numeral hconstant
  have hlast : (u ++ v).getLast? = some ')' := by
    rw [← htext, hnumeral, ← List.cons_append, List.getLast?_concat]
  rwa [List.getLast?_append_of_ne_nil _ hv] at hlast

/-- Between two tokens of a group, only an error about depth stops the machine. -/
theorem tooDeep_of_cut {front rest : List Char} {c : Char} {cause : Cause} (hu : u ≠ [])
    (hv : v ≠ []) (hsymbol : ofSymbol? c = some constant) (hcut : Apart u v)
    (h : run maxDepth .start
        (tokensOf (front.flatMap image ++ u ++ (v ++ rest.flatMap image))) =
      .error (cause, tokensOf (v ++ rest.flatMap image))) : cause = .nestedTooDeeply := by
  by_contra hdeep
  have hlast := getLast?_of_text hconstant htext hv
  have hclosed : (u ++ v).getLast? = some ')' := by rwa [List.getLast?_append_of_ne_nil _ hv]
  obtain ⟨numeral, hgroup, -⟩ := tokensOf_text hconstant
  rw [htext] at hgroup
  have himage : image c = u ++ v := by rw [image_of_symbol hsymbol, htext]
  have hnumber : isNumberChar c = false := by
    rw [← (ofSymbol?_mem hsymbol).2]
    exact (standsAlone hconstant).2
  have happart : Apart (front.flatMap image) (u ++ v ++ rest.flatMap image) := by
    apply apart_of_head
    rw [← himage]
    exact isNumberChar_head_image hnumber _
  have htokens : tokensOf (front.flatMap image ++ u ++ (v ++ rest.flatMap image)) =
      tokensOf (front.flatMap image) ++ (numeral.group ++ tokensOf (rest.flatMap image)) := by
    calc tokensOf (front.flatMap image ++ u ++ (v ++ rest.flatMap image))
      _ = tokensOf (front.flatMap image ++ (u ++ v ++ rest.flatMap image)) := by
        simp only [List.append_assoc]
      _ = tokensOf (front.flatMap image) ++ (numeral.group ++ tokensOf (rest.flatMap image)) := by
        rw [tokensOf_append happart, tokensOf_append (apart_of_getLast? hclosed (by decide)),
          hgroup]
        rfl
  rw [htokens, tokensOf_append (apart_of_getLast? hlast (by decide))] at h
  have hlength := length_ahead_of_group numeral h hdeep
  obtain ⟨hsome, hnotAll⟩ := length_tokensOf_cut hconstant htext hu hv hcut
  rw [hgroup] at hnotAll
  rw [List.length_append] at hlength
  change (tokensOf v).length < numeral.group.length at hnotAll
  omega

end Group

/-- Where an error stands among the images of characters. -/
theorem exists_place_of_error {chars : List Char} {e : SyntaxError}
    (h : evaluate (String.ofList (chars.flatMap image)) = .error e) :
    ∃ front rest, chars = front ++ rest ∧
      (e.position = width (front.flatMap image) ∧ e.found = rest.head?.map firstOfImage ∧
          e.cause.Fits (front.flatMap image) (rest.flatMap image) ∨
        e.cause = .nestedTooDeeply ∧ e.position = width (front.flatMap image) + 1 ∧
          ∃ c ∈ rest.head?, (ofSymbol? c).isSome = true) := by
  obtain ⟨before, d, state, hlead, he, hstop, hrun, hplace⟩ := exists_state_of_error h
  have hsplit : chars.flatMap image = before ++ d.rest := by
    simpa [Cursor.start] using hlead.rest_eq
  have hposition : e.position = width before := by
    rw [he]
    simpa [failAt, Cursor.start] using hlead.offset_eq
  have hfound : e.found = d.rest.head? := congrArg SyntaxError.found he
  have hwhole : run maxDepth .start (tokensOf (before ++ d.rest)) = .error (e.cause, d.tokens) :=
    (hrun _ hlead.apart).trans hstop.run_eq
  have hfits : e.cause.Fits before d.rest := by
    refine Cause.fits_of_stops hstop (fun hne => ?_) hlead.apart
    rwa [if_neg hne] at hplace
  rcases flatMap_image_eq_append hsplit with ⟨front, rest, rfl, rfl, hrest⟩ |
    ⟨front, c, rest, u, v, rfl, himage, hu, hv, rfl, hrest⟩
  · rw [hrest, head?_flatMap_image] at hfound
    exact ⟨front, rest, rfl, .inl ⟨hposition, hfound, hrest ▸ hfits⟩⟩
  obtain ⟨constant, hconstant, hsymbol, htext⟩ := exists_constant_of_cut himage hu hv
  by_cases hdeep : e.cause = .nestedTooDeeply
  · refine ⟨front, c :: rest, rfl, .inr ⟨hdeep, ?_, c, rfl, by rw [hsymbol]; rfl⟩⟩
    have hstart : ¬(front.flatMap image ++ u = [] ∧ maxDepth < State.start.active) := by
      rintro ⟨-, hstart⟩
      exact absurd hstart (by decide)
    rw [if_pos hdeep] at hplace
    obtain ⟨o, ho, hopens⟩ := hplace.resolve_right hstart
    rw [List.getLast?_append_of_ne_nil _ hu] at ho
    rw [hposition, eq_parenthesis_of_isOpener hconstant htext hv ho hopens, width_append]
    rfl
  · have hcut : Apart u v := by
      intro a ha b hb
      have hinside : Apart u d.rest := hlead.apart.of_suffix (List.suffix_append _ _)
      refine hinside a ha b ?_
      rwa [hrest, List.head?_append_of_ne_nil _ hv]
    rw [Cursor.tokens, hrest] at hwhole
    exact absurd (tooDeep_of_cut hconstant htext hu hv hsymbol hcut hwhole) hdeep

end Abacus.Expression

namespace Abacus.Constant

open Text

theorem utf8ByteSize_substitute (input : String) :
    (substitute input).utf8ByteSize = width (input.toList.flatMap image) := by
  rw [← width_toList, substitute, String.toList_ofList]

theorem width_image_pos (c : Char) : 0 < width (image c) :=
  Nat.pos_of_ne_zero fun h => ne_nil_of_image c (eq_nil_of_width h)

/-- A place inside the image of a character is just behind the start of an image only if
it is the image of the same character. -/
theorem eq_of_inside {front rest before behind : List Char} {c : Char} {position : Nat}
    (hsplit : front ++ rest = before ++ c :: behind)
    (hfrom : width (front.flatMap image) ≤ position)
    (hto : position ≤ width (front.flatMap image) + 1)
    (hlow : width (before.flatMap image) < position)
    (hhigh : position < width (before.flatMap image) + width (image c)) : front = before := by
  rcases List.append_eq_append_iff.mp hsplit with ⟨mid, rfl, -⟩ | ⟨mid, rfl, hmid⟩
  · cases mid with
    | nil => rw [List.append_nil]
    | cons d mid =>
      have hpos := width_image_pos d
      rw [List.flatMap_append, List.flatMap_cons, width_append, width_append] at hlow
      omega
  · cases mid with
    | nil => rw [List.append_nil]
    | cons d mid =>
      obtain rfl : c = d := (List.cons.inj hmid).1
      rw [List.flatMap_append, List.flatMap_cons, width_append, width_append] at hfrom
      omega

end Abacus.Constant

namespace Abacus.Calculator

open Text Expression Constant

/-- A syntax error of a calculation is one of the text that is evaluated. -/
theorem evaluate_of_badExpression {calculator : Calculator} {text : String} {e : SyntaxError}
    (h : calculator.calculate text = .error (.badExpression e)) :
    evaluate (calculator.resolve (trim text)) = .error e := by
  have hne : trim text ≠ "" := by
    intro hempty
    rw [calculate, hempty] at h
    cases h
  rw [calculate_of_ne calculator hne, evaluateChecked] at h
  cases hout : evaluate (calculator.resolve (trim text)) with
  | error e' =>
    rw [hout] at h
    cases h
    rfl
  | ok x =>
    have hcheck : calculator.options.check x = .error (.badExpression e) := by rwa [hout] at h
    rw [Options.check] at hcheck
    split at hcheck <;> cases hcheck

/-- With the constants put in, a syntax error stands where the image of a character of the
trimmed input starts, or at the end of the resolved text. It has found the first character
of this image, and a malformed number is written in the input. Only an error about depth
may stand inside the text of a constant, and only just behind its parenthesis. -/
theorem calculate_error_outside_constants {calculator : Calculator} {text : String}
    {e : SyntaxError} (hsubstitute : calculator.options.substituteConstants = true)
    (h : calculator.calculate text = .error (.badExpression e)) :
    evaluate (substitute (trim text)) = .error e ∧
    (∃ before behind : String, trim text = before ++ behind ∧
      (e.message ≠ "expression nested too deeply" →
        e.position = (substitute before).utf8ByteSize ∧
        e.found = behind.toList.head?.map firstOfImage ∧
        ∀ literal, e.message = "malformed number '" ++ literal ++ "'" →
          literal.toList = behind.toList.takeWhile isNumberChar) ∧
      (e.message = "expression nested too deeply" →
        e.position = (substitute before).utf8ByteSize ∨
          e.position = (substitute before).utf8ByteSize + 1 ∧
            ∃ c ∈ behind.toList.head?, c = 'π' ∨ c = 'e')) ∧
    ∀ constant ∈ Constant.all, ∀ before behind : String,
      trim text = before ++ String.singleton constant.symbol ++ behind →
      (substitute before).utf8ByteSize < e.position →
      e.position < (substitute before).utf8ByteSize + constant.text.utf8ByteSize →
      e.message = "expression nested too deeply" ∧
        e.position = (substitute before).utf8ByteSize + 1 := by
  have hevaluate : evaluate (substitute (trim text)) = .error e := by
    have hresolve : calculator.resolve (trim text) = substitute (trim text) := if_pos hsubstitute
    rw [← hresolve]
    exact evaluate_of_badExpression h
  obtain ⟨front, rest, hsplit, hplace⟩ := exists_place_of_error hevaluate
  have hdeep := e.cause.message_eq_tooDeep_iff
  refine ⟨hevaluate,
    ⟨String.ofList front, String.ofList rest, ?_, fun hnot => ?_, fun hmessage => ?_⟩,
    fun constant hconstant before behind hinput hlow hhigh => ?_⟩
  · rw [← String.ofList_append, ← hsplit, String.ofList_toList]
  · rcases hplace with ⟨hposition, hfound, hfits⟩ | ⟨htooDeep, -⟩
    · rw [utf8ByteSize_substitute, String.toList_ofList, String.toList_ofList]
      refine ⟨hposition, hfound, fun literal hliteral => ?_⟩
      have hcause : e.cause = .malformedNumber literal := Cause.message_injective hliteral
      rw [hcause] at hfits
      rw [hfits.1, takeWhile_flatMap_image]
    · exact absurd (hdeep.mpr htooDeep) hnot
  · rw [utf8ByteSize_substitute, String.toList_ofList, String.toList_ofList]
    rcases hplace with ⟨hposition, -⟩ | ⟨-, hposition, c, hc, hsymbol⟩
    · exact .inl hposition
    · refine .inr ⟨hposition, c, hc, ?_⟩
      by_contra hname
      rw [ofSymbol?_eq_none_iff.mpr hname] at hsymbol
      exact Bool.false_ne_true hsymbol
  · have htext : (image constant.symbol) = constant.text.toList :=
      image_of_symbol (ofSymbol?_of_mem hconstant)
    have hchars : front ++ rest = before.toList ++ constant.symbol :: behind.toList := by
      rw [← hsplit, hinput]
      simp
    rw [utf8ByteSize_substitute] at hlow hhigh ⊢
    rw [← width_toList, ← htext] at hhigh
    rcases hplace with ⟨hposition, -⟩ | ⟨htooDeep, hposition, -⟩
    · obtain rfl := eq_of_inside hchars (by omega) (by omega) hlow hhigh
      omega
    · obtain rfl := eq_of_inside hchars (by omega) (by omega) hlow hhigh
      exact ⟨hdeep.mpr htooDeep, hposition⟩

/-- A second dot behind a constant, and in front of one. -/
theorem calculate_error_outside_constants_second_dot :
    let calculator : Calculator := {}
    let e : SyntaxError := ⟨.malformedNumber "1.2.", 20, some '1'⟩
    calculator.options.substituteConstants = true ∧
      calculator.calculate " π*1.2.e" = .error (.badExpression e) ∧
      ∃ before behind : String, trim " π*1.2.e" = before ++ behind ∧
        e.position = (substitute before).utf8ByteSize ∧
        e.found = behind.toList.head?.map firstOfImage := by
  intro calculator e
  have h : calculator.calculate " π*1.2.e" = .error (.badExpression e) := by
    have hne : trim " π*1.2.e" ≠ "" := by decide +kernel
    have hresolve : calculator.resolve (trim " π*1.2.e") =
        "(3.141592653589793)*1.2.(2.718281828459045)" := by decide +kernel
    have hevaluate : evaluate "(3.141592653589793)*1.2.(2.718281828459045)" = .error e := by
      with_unfolding_all rfl
    rw [calculate_of_ne _ hne, evaluateChecked, hresolve, hevaluate]
    rfl
  have hsubstitute : calculator.options.substituteConstants = true := rfl
  obtain ⟨-, ⟨before, behind, hinput, hplace, -⟩, -⟩ :=
    calculate_error_outside_constants hsubstitute h
  obtain ⟨hposition, hfound, -⟩ := hplace (by decide +kernel)
  exact ⟨rfl, h, before, behind, hinput, hposition, hfound⟩

end Abacus.Calculator
