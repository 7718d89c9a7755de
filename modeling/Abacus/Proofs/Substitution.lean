import Abacus.Proofs.NamedConstants
import Abacus.Proofs.ReadBack

/-!
Constants by substitution. Putting the decimal of a constant in parentheses into a
text puts a group of one numeral between the tokens of the text, and changes nothing
else among them. The expressions that are evaluated then are those of the grammar
with named constants.
-/

namespace Abacus.Constant

open Text Expression

theorem standsAlone {constant : Constant} (h : constant ∈ all) : StandsAlone constant.symbol := by
  revert constant
  decide

theorem eq_of_symbol {a b : Constant} (ha : a ∈ all) (hb : b ∈ all)
    (h : a.symbol = b.symbol) : a = b := by
  simp only [all, List.mem_cons, List.not_mem_nil, or_false] at ha hb
  rcases ha with rfl | rfl <;> rcases hb with rfl | rfl <;>
    first | rfl | exact absurd h (by decide)

theorem read_value {constant : Constant} (h : constant ∈ all) :
    ∃ m e, Double.read constant.value = .finite false m e := by
  simp only [all, List.mem_cons, List.not_mem_nil, or_false] at h
  rcases h with rfl | rfl
  · exact ⟨7074237752028440, -51, by decide +kernel⟩
  · exact ⟨6121026514868073, -51, by decide +kernel⟩

/-- The text of a constant is a numeral in parentheses, which has the value of the constant. -/
theorem exists_numeral {constant : Constant} (h : constant ∈ all) :
    ∃ numeral : Numeral,
      constant.text.toList = '(' :: (numeral.first :: numeral.rest ++ [')']) ∧
      numeral.literal.value = constant.value := by
  obtain ⟨m, e, hread⟩ := read_value h
  obtain ⟨numeral, htext, hvalue⟩ := exists_numeral_of_read hread
  refine ⟨numeral, ?_, hvalue.trans (Double.eq_assemble_of_read hread).symm⟩
  simp [text, htext, Double.Style.signText]

/-- The tokens of the text of a constant. -/
theorem tokensOf_text {constant : Constant} (h : constant ∈ all) :
    ∃ numeral : Numeral,
      tokensOf constant.text.toList =
        [.single '(', .run numeral.first numeral.rest, .single ')'] ∧
      numeral.literal.value = constant.value := by
  obtain ⟨numeral, htext, hvalue⟩ := exists_numeral h
  refine ⟨numeral, ?_, hvalue⟩
  let group : Grammar.Primary := .group (.ofFactor (.ofNumeral numeral))
  have hspaced : Spaced group.tokens constant.text.toList := by
    rw [htext]
    exact ((((Spaced.nil 0).token (.single ')')).token
      (.run numeral.first numeral.rest)).token (.single '('))
  have hseparated : Separated group.tokens := by
    rw [← List.append_nil group.tokens]
    exact group.separated Grammar.follows_nil
  rw [hspaced.tokensOf_eq hseparated]
  rfl

/-- What a token of the input becomes. -/
def tokenImage (constants : List Constant) : Token → List Token
  | .run first rest => [.run first rest]
  | .single c =>
    match constants.find? fun constant => constant.symbol == c with
    | some constant => tokensOf constant.text.toList
    | none => [.single c]

section Image

variable {constants : List Constant} (hconstants : constants ⊆ all)

include hconstants

theorem find?_symbol_eq_some {c : Char} {constant : Constant} :
    (constants.find? fun other => other.symbol == c) = some constant ↔
      constant ∈ constants ∧ constant.symbol = c := by
  constructor
  · intro h
    have hsymbol := List.find?_some h
    exact ⟨List.mem_of_find?_eq_some h, eq_of_beq hsymbol⟩
  · rintro ⟨hmem, rfl⟩
    cases hfind : constants.find? fun other => other.symbol == constant.symbol with
    | none => exact absurd BEq.rfl (List.find?_eq_none.mp hfind constant hmem)
    | some other =>
      have hsymbol := List.find?_some hfind
      have hother := List.mem_of_find?_eq_some hfind
      rw [eq_of_symbol (hconstants hother) (hconstants hmem) (eq_of_beq hsymbol)]

theorem tokenImage_symbol {constant : Constant} (h : constant ∈ constants) :
    ∃ numeral : Numeral,
      tokenImage constants (.single constant.symbol) =
        [.single '(', .run numeral.first numeral.rest, .single ')'] ∧
      numeral.literal.value = constant.value := by
  simp only [tokenImage, (find?_symbol_eq_some hconstants).mpr ⟨h, rfl⟩]
  exact tokensOf_text (hconstants h)

theorem tokenImage_cases (t : Token) :
    tokenImage constants t = [t] ∨ ∃ constant ∈ constants, t = .single constant.symbol := by
  cases t with
  | run first rest => exact Or.inl rfl
  | single c =>
    cases hfind : constants.find? fun constant => constant.symbol == c with
    | none => exact Or.inl (by simp only [tokenImage, hfind])
    | some constant =>
      obtain ⟨hmem, hsymbol⟩ := (find?_symbol_eq_some hconstants).mp hfind
      exact Or.inr ⟨constant, hmem, by rw [hsymbol]⟩

theorem tokenImage_of_plain {c : Char} (h : IsPlain c) :
    tokenImage constants (.single c) = [.single c] := by
  refine (tokenImage_cases hconstants (.single c)).resolve_right ?_
  rintro ⟨constant, hmem, hsymbol⟩
  obtain rfl : c = constant.symbol := by simpa using hsymbol
  have hself := (find?_symbol_eq_some (List.Subset.refl all)).mpr ⟨hconstants hmem, rfl⟩
  have hnone := h.ofSymbol?_eq
  rw [ofSymbol?, hself] at hnone
  contradiction

end Image

section Text

theorem ofSymbol?_mem {c : Char} {constant : Constant} (h : ofSymbol? c = some constant) :
    constant ∈ all ∧ constant.symbol = c :=
  (find?_symbol_eq_some (List.Subset.refl all)).mp h

theorem image_of_symbol {c : Char} {constant : Constant} (h : ofSymbol? c = some constant) :
    image c = constant.text.toList := by
  rw [image, h]

/-- No character becomes a text that starts with a digit or a dot, except for these. -/
theorem isNumberChar_head_image {c : Char} (hc : isNumberChar c = false) (behind : List Char) :
    ∀ b ∈ (image c ++ behind).head?, isNumberChar b = false := by
  intro b hb
  cases hsymbol : ofSymbol? c with
  | none =>
    rw [image_of_none hsymbol] at hb
    obtain rfl : c = b := by simpa using hb
    exact hc
  | some constant =>
    obtain ⟨numeral, htext, -⟩ := exists_numeral (ofSymbol?_mem hsymbol).1
    rw [image_of_symbol hsymbol, htext] at hb
    obtain rfl : '(' = b := by simpa using hb
    decide

theorem flatMap_image_of_number {chars : List Char} (h : ∀ c ∈ chars, isNumberChar c = true) :
    chars.flatMap image = chars :=
  flatMap_image_eq_self fun c hc => IsPlain.ofSymbol?_eq (Or.inl (h c hc))

theorem tokensOf_numberChars {c : Char} {rest : List Char}
    (h : ∀ d ∈ c :: rest, isNumberChar d = true) : tokensOf (c :: rest) = [.run c rest] := by
  obtain ⟨hc, hrest⟩ := List.forall_mem_cons.mp h
  rw [tokensOf_run _ hc, List.takeWhile_eq_self_iff.mpr hrest,
    List.dropWhile_eq_nil_iff.mpr hrest, tokensOf_nil]

/-- Substitution acts on the tokens of a text one by one. -/
theorem tokensOf_flatMap_image (chars : List Char) :
    tokensOf (chars.flatMap image) = (tokensOf chars).flatMap (tokenImage all) := by
  rw [tokensOf.eq_def chars]
  fun_induction lexemesFrom 0 chars with
  | case1 => simp
  | case2 offset rest ih =>
    have hspace : image ' ' = [' '] := image_of_none (by decide)
    rw [List.flatMap_cons, hspace, List.singleton_append, tokensOf_space]
    exact ih
  | case3 offset c rest hspace hnumber ih =>
    have hrun : ∀ d ∈ c :: rest.takeWhile isNumberChar, isNumberChar d = true :=
      List.forall_mem_cons.mpr ⟨hnumber, List.all_eq_true.mp List.all_takeWhile⟩
    have hsplit : (c :: rest).flatMap image = (c :: rest.takeWhile isNumberChar) ++
        (rest.dropWhile isNumberChar).flatMap image := by
      calc (c :: rest).flatMap image
        _ = ((c :: rest.takeWhile isNumberChar) ++ rest.dropWhile isNumberChar).flatMap image := by
          rw [List.cons_append, List.takeWhile_append_dropWhile]
        _ = _ := by rw [List.flatMap_append, flatMap_image_of_number hrun]
    have happart : Apart (c :: rest.takeWhile isNumberChar)
        ((rest.dropWhile isNumberChar).flatMap image) := by
      apply apart_of_head
      cases hdrop : rest.dropWhile isNumberChar with
      | nil => simp
      | cons d tail =>
        have hd : isNumberChar d = false := by
          have hhead := List.head?_dropWhile_not isNumberChar rest
          rw [hdrop] at hhead
          simpa using hhead
        exact isNumberChar_head_image hd _
    rw [hsplit, tokensOf_append happart, ih, tokensOf_numberChars hrun]
    rfl
  | case4 offset c rest hspace hnumber ih =>
    have hc : StandsAlone c := ⟨hspace, Bool.not_eq_true _ ▸ hnumber⟩
    rw [List.flatMap_cons, List.map_cons, List.flatMap_cons, ← ih]
    cases hsymbol : ofSymbol? c with
    | none =>
      have htoken : tokenImage all (.single c) = [.single c] := by
        simp only [tokenImage, ← ofSymbol?.eq_def, hsymbol]
      rw [image_of_none hsymbol, htoken]
      exact tokensOf_single _ hc
    | some constant =>
      obtain ⟨numeral, htext, -⟩ := exists_numeral (ofSymbol?_mem hsymbol).1
      have htoken : tokenImage all (.single c) = tokensOf constant.text.toList := by
        simp only [tokenImage, ← ofSymbol?.eq_def, hsymbol]
      have happart : Apart constant.text.toList (rest.flatMap image) := by
        rw [htext]
        exact apart_concat ('(' :: numeral.first :: numeral.rest) _ (by decide)
      rw [image_of_symbol hsymbol, htoken, tokensOf_append happart]

end Text

end Abacus.Constant
