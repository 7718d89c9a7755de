import Mathlib.Data.List.TakeWhile
import Abacus.Calculator
import Abacus.Proofs.Derivation
import Abacus.Proofs.Double.Encoding

/-!
The steps of a calculation apart from the evaluation. The policy lets every finite
value pass, trimming keeps the tokens of an expression, and an expression names no
constant. An expression with a finite value therefore has this value under all
options.
-/

namespace Abacus

namespace Options

theorem check_of_allow {options : Options} (h : options.nonFinite = .allow) (x : Float) :
    options.check x = .ok x := by
  rw [check, h]

theorem check_of_finite (options : Options) {x : Float} (h : x.isFinite = true) :
    options.check x = .ok x := by
  obtain ⟨negative, m, e, hread⟩ := (Double.isFinite_iff x).mp h
  rw [check, hread]
  cases options.nonFinite <;> rfl

end Options

namespace Text

theorem exists_trimChars (chars : List Char) :
    ∃ before behind, chars = before ++ (trimChars chars ++ behind) ∧
      (∀ c ∈ before, isBlank c = true) ∧ ∀ c ∈ behind, isBlank c = true := by
  have hfront : chars.takeWhile isBlank ++ chars.dropWhile isBlank = chars :=
    List.takeWhile_append_dropWhile
  have hback := List.takeWhile_append_dropWhile (p := isBlank)
    (l := (chars.dropWhile isBlank).reverse)
  refine ⟨chars.takeWhile isBlank, ((chars.dropWhile isBlank).reverse.takeWhile isBlank).reverse,
    ?_, List.all_eq_true.mp List.all_takeWhile, ?_⟩
  · rw [trimChars, ← List.reverse_append, hback, List.reverse_reverse, hfront]
  · intro c hc
    exact List.all_eq_true.mp List.all_takeWhile c (List.mem_reverse.mp hc)

theorem toList_trim (text : String) : (trim text).toList = trimChars text.toList := by
  rw [trim, String.toList_ofList]

/-- Trimming keeps the tokens of a text whose only blanks are spaces. -/
theorem tokensOf_trimChars {chars : List Char} (h : ∀ c ∈ chars, isBlank c = true → c = ' ') :
    tokensOf (trimChars chars) = tokensOf chars := by
  obtain ⟨before, behind, hsplit, hbefore, hbehind⟩ := exists_trimChars chars
  have hspaces : ∀ part : List Char, (∀ c ∈ part, c ∈ chars) → (∀ c ∈ part, isBlank c = true) →
      part = List.replicate part.length ' ' := by
    intro part hpart hblank
    exact List.eq_replicate_iff.mpr ⟨rfl, fun c hc => h c (hpart c hc) (hblank c hc)⟩
  have hfront := hspaces before (fun c hc => by rw [hsplit]; simp [hc]) hbefore
  have hback := hspaces behind (fun c hc => by rw [hsplit]; simp [hc]) hbehind
  have hapart : Apart (trimChars chars) behind := by
    apply apart_of_head
    rw [hback]
    intro c hc
    rw [List.eq_of_mem_replicate (List.mem_of_mem_head? hc)]
    rfl
  have hnil : tokensOf behind = [] := by
    rw [hback, ← List.append_nil (List.replicate _ _), tokensOf_replicate_append, tokensOf_nil]
  calc tokensOf (trimChars chars)
    _ = tokensOf (trimChars chars ++ behind) := by
      rw [tokensOf_append hapart, hnil, List.append_nil]
    _ = tokensOf (before ++ (trimChars chars ++ behind)) := by
      rw [hfront, tokensOf_replicate_append]
    _ = tokensOf chars := by rw [← hsplit]

/-- The characters of expressions, except for the spaces between tokens. -/
def IsPlain (c : Char) : Prop :=
  isNumberChar c = true ∨ c ∈ ['+', '-', '*', '/', '%', '^', '(', ')']

theorem toNat_of_isDigit {c : Char} (h : c.isDigit = true) : 48 ≤ c.toNat ∧ c.toNat ≤ 57 := by
  simpa [Char.isDigit, UInt32.le_iff_toNat_le] using h

theorem IsPlain.toNat_cases {c : Char} (h : IsPlain c) :
    37 ≤ c.toNat ∧ c.toNat ≤ 57 ∨ c.toNat = 94 := by
  rcases h with h | h
  · rw [isNumberChar, Bool.or_eq_true, beq_iff_eq] at h
    rcases h with hdigit | rfl
    · have hrange := toNat_of_isDigit hdigit
      omega
    · decide
  · simp only [List.mem_cons, List.not_mem_nil, or_false] at h
    rcases h with rfl | rfl | rfl | rfl | rfl | rfl | rfl | rfl <;> decide

theorem IsPlain.isBlank_eq {c : Char} (h : IsPlain c) : isBlank c = false := by
  have hcases := h.toNat_cases
  simp only [isBlank, blankRanges, inRanges]
  grind

theorem IsPlain.ofSymbol?_eq {c : Char} (h : IsPlain c) : Constant.ofSymbol? c = none := by
  have hcases := h.toNat_cases
  have hall : ∀ constant ∈ Constant.all,
      ¬(37 ≤ constant.symbol.toNat ∧ constant.symbol.toNat ≤ 57 ∨ constant.symbol.toNat = 94) := by
    decide
  rw [Constant.ofSymbol?, List.find?_eq_none]
  intro constant hconstant hsymbol
  apply hall constant hconstant
  rwa [eq_of_beq hsymbol]

theorem Spaced.mem_cases {ts : List Token} {text : List Char} (h : Spaced ts text) {c : Char}
    (hc : c ∈ text) : c = ' ' ∨ ∃ t ∈ ts, c ∈ t.chars := by
  induction h with
  | nil n => exact Or.inl (List.eq_of_mem_replicate hc)
  | @cons n t ts text h ih =>
    rcases List.mem_append.mp hc with hc | hc
    · exact Or.inl (List.eq_of_mem_replicate hc)
    · rcases List.mem_append.mp hc with hc | hc
      · exact Or.inr ⟨t, List.mem_cons_self, hc⟩
      · exact (ih hc).imp_right fun ⟨u, hu, hcu⟩ => ⟨u, List.mem_cons_of_mem _ hu, hcu⟩

end Text

namespace Constant

theorem image_of_none {c : Char} (h : ofSymbol? c = none) : image c = [c] := by
  rw [image, h]

theorem flatMap_image_eq_self {chars : List Char} (h : ∀ c ∈ chars, ofSymbol? c = none) :
    chars.flatMap image = chars := by
  have himage : ∀ c ∈ chars, image c = [c] := fun c hc => image_of_none (h c hc)
  rw [List.flatMap_def, List.map_congr_left himage, ← List.flatMap_def, List.flatMap_singleton']

theorem substitute_eq_self {input : String} (h : ∀ c ∈ input.toList, ofSymbol? c = none) :
    substitute input = input := by
  rw [substitute, flatMap_image_eq_self h, String.ofList_toList]

end Constant

namespace Grammar

open Text

/-- The tokens consist of plain characters. -/
def ArePlain (ts : List Token) : Prop :=
  ∀ t ∈ ts, ∀ c ∈ t.chars, IsPlain c

theorem ArePlain.append {before behind : List Token} (h : ArePlain before)
    (h' : ArePlain behind) : ArePlain (before ++ behind) :=
  List.forall_mem_append.mpr ⟨h, h'⟩

theorem ArePlain.single {c : Char} {ts : List Token} (hc : IsPlain c) (h : ArePlain ts) :
    ArePlain (.single c :: ts) := by
  refine List.forall_mem_cons.mpr ⟨fun d hd => ?_, h⟩
  rwa [List.mem_singleton.mp hd]

theorem Sign.isPlain (sign : Sign) : IsPlain sign.char := by
  cases sign <;> exact Or.inr (by decide)

theorem Scaling.isPlain (scaling : Scaling) : IsPlain scaling.char := by
  cases scaling <;> exact Or.inr (by decide)

theorem follows_nil : Follows [] :=
  ⟨by simp, trivial⟩

theorem Expression.separated_tokens (tree : Expression) : Separated tree.tokens := by
  rw [← List.append_nil tree.tokens]
  exact tree.separated follows_nil

mutual
/-- Trees are spelled in plain characters. -/
theorem Expression.arePlain : ∀ tree : Expression, ArePlain tree.tokens
  | .mk head tail => head.arePlain.append tail.arePlain

theorem Sums.arePlain : ∀ tree : Sums, ArePlain tree.tokens
  | .nil => List.forall_mem_nil _
  | .cons sign head tail => (head.arePlain.append tail.arePlain).single sign.isPlain

theorem Term.arePlain : ∀ tree : Term, ArePlain tree.tokens
  | .mk head tail => head.arePlain.append tail.arePlain

theorem Products.arePlain : ∀ tree : Products, ArePlain tree.tokens
  | .nil => List.forall_mem_nil _
  | .cons scaling head tail => (head.arePlain.append tail.arePlain).single scaling.isPlain

theorem Factor.arePlain : ∀ tree : Factor, ArePlain tree.tokens
  | .signed sign inner => inner.arePlain.single sign.isPlain
  | .power inner => inner.arePlain

theorem Power.arePlain : ∀ tree : Power, ArePlain tree.tokens
  | .plain base => base.arePlain
  | .raised base exponent => base.arePlain.append (exponent.arePlain.single (Or.inr (by decide)))

theorem Primary.arePlain : ∀ tree : Primary, ArePlain tree.tokens
  | .number numeral => by
    refine List.forall_mem_singleton.mpr fun c hc => Or.inl ?_
    exact numeral.isNumeral.1 c hc
  | .group inner => by
    have hclose : ArePlain [.single ')'] :=
      ArePlain.single (Or.inr (by decide)) (List.forall_mem_nil _)
    exact (inner.arePlain.append hclose).single (Or.inr (by decide))
end

end Grammar

namespace Calculator

open Text

theorem calculate_of_ne {text : String} (calculator : Calculator)
    (h : trim text ≠ "") :
    calculator.calculate text = calculator.evaluateChecked (calculator.resolve (trim text)) := by
  rw [calculate]
  simp [h]

/-- Where every value is allowed, a calculation fails only on an empty text or a syntax error. -/
theorem calculate_of_allow {text : String} (calculator : Calculator)
    (hallow : calculator.options.nonFinite = .allow) (h : trim text ≠ "") :
    calculator.calculate text =
      (Expression.evaluate (calculator.resolve (trim text))).mapError .badExpression := by
  rw [calculate_of_ne calculator h, evaluateChecked]
  cases Expression.evaluate (calculator.resolve (trim text)) with
  | error e => rfl
  | ok x => exact Options.check_of_allow hallow x

theorem resolve_eq_self {input : String} (calculator : Calculator)
    (h : ∀ c ∈ input.toList, Constant.ofSymbol? c = none) : calculator.resolve input = input := by
  rw [resolve, Constant.substitute_eq_self h]
  exact ite_self _

/-- A calculator checks the value of the text that it resolves to, and nothing else. -/
theorem calculate_of_resolved {text : String} {tree : Grammar.Expression}
    (calculator : Calculator)
    (hspaced : Spaced tree.tokens (calculator.resolve (trim text)).toList)
    (hdepth : tree.depth ≤ Expression.maxDepth) :
    calculator.calculate text = calculator.options.check tree.value := by
  have hvalue : Expression.evaluate (calculator.resolve (trim text)) = .ok tree.value :=
    Expression.evaluateWithin_of_tree hspaced hdepth
  have hne : trim text ≠ "" := by
    intro hempty
    rw [hempty, resolve_eq_self calculator (by simp)] at hvalue
    contradiction
  rw [calculate_of_ne calculator hne, evaluateChecked, hvalue]
  rfl

/-- The text of a tree names no constant and is trimmed to a text of the same tree. -/
theorem spaced_resolve_trim {text : String} {tree : Grammar.Expression}
    (calculator : Calculator) (hspaced : Spaced tree.tokens text.toList) :
    Spaced tree.tokens (calculator.resolve (trim text)).toList := by
  have hchars : ∀ c ∈ text.toList, c = ' ' ∨ IsPlain c := by
    intro c hc
    exact (hspaced.mem_cases hc).imp_right fun ⟨t, ht, hct⟩ => tree.arePlain t ht c hct
  have htrim : Spaced tree.tokens (trim text).toList := by
    have htokens : tokensOf text.toList = tree.tokens :=
      hspaced.tokensOf_eq tree.separated_tokens
    rw [← htokens, toList_trim, ← tokensOf_trimChars]
    · exact spaced_tokensOf _
    · intro c hc hblank
      refine (hchars c hc).resolve_right fun hplain => ?_
      rw [hplain.isBlank_eq] at hblank
      contradiction
  rw [resolve_eq_self]
  · exact htrim
  · intro c hc
    rcases htrim.mem_cases hc with rfl | ⟨t, ht, hct⟩
    · decide
    · exact (tree.arePlain t ht c hct).ofSymbol?_eq

/-- A text with a finite value has this value under all options. -/
theorem calculate_of_tree {text : String} {tree : Grammar.Expression}
    (calculator : Calculator) (hspaced : Spaced tree.tokens text.toList)
    (hdepth : tree.depth ≤ Expression.maxDepth) (hfinite : tree.value.isFinite = true) :
    calculator.calculate text = .ok tree.value := by
  rw [calculator.calculate_of_resolved (calculator.spaced_resolve_trim hspaced) hdepth]
  exact calculator.options.check_of_finite hfinite

end Calculator

end Abacus
