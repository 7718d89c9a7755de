import Mathlib.Data.List.Chain
import Abacus.Proofs.Calculation

/-!
The grammar of expressions with named constants. A constant is a primary, and takes
the room of a group: one factor inside it, which nothing else uses. Neither a
product nor a longer number is ever written without an operator, with or without
constants.
-/

namespace Abacus.Grammar

open Text Abacus.Expression

inductive Nonterminal where
  | expression
  | term
  | factor
  | power
  | primary

/-- The nonterminal derives the tokens with the value, with at most `room` factors
inside one another. Sums and products are derived from the left. -/
inductive Derives (constants : List Constant) :
    Nonterminal → Nat → List Token → Float → Prop where
  | term {room : Nat} {ts : List Token} {x : Float} (h : Derives constants .term room ts x) :
      Derives constants .expression room ts x
  | sum (sign : Sign) {room : Nat} {ts us : List Token} {x y : Float}
      (h : Derives constants .expression room ts x) (h' : Derives constants .term room us y) :
      Derives constants .expression room (ts ++ .single sign.char :: us) (sign.combine x y)
  | factor {room : Nat} {ts : List Token} {x : Float} (h : Derives constants .factor room ts x) :
      Derives constants .term room ts x
  | product (scaling : Scaling) {room : Nat} {ts us : List Token} {x y : Float}
      (h : Derives constants .term room ts x) (h' : Derives constants .factor room us y) :
      Derives constants .term room (ts ++ .single scaling.char :: us) (scaling.combine x y)
  | signed (sign : Sign) {room : Nat} {ts : List Token} {x : Float}
      (h : Derives constants .factor room ts x) :
      Derives constants .factor (room + 1) (.single sign.char :: ts) (sign.apply x)
  | power {room : Nat} {ts : List Token} {x : Float} (h : Derives constants .power room ts x) :
      Derives constants .factor (room + 1) ts x
  | plain {room : Nat} {ts : List Token} {x : Float} (h : Derives constants .primary room ts x) :
      Derives constants .power room ts x
  | raised {room : Nat} {ts us : List Token} {x y : Float}
      (h : Derives constants .primary room ts x) (h' : Derives constants .factor room us y) :
      Derives constants .power room (ts ++ .single '^' :: us) (Float.pow x y)
  | number (room : Nat) (numeral : Numeral) :
      Derives constants .primary room [.run numeral.first numeral.rest] numeral.literal.value
  | group {room : Nat} {ts : List Token} {x : Float}
      (h : Derives constants .expression room ts x) :
      Derives constants .primary room (.single '(' :: (ts ++ [.single ')'])) x
  | constant (room : Nat) {constant : Constant} (h : constant ∈ constants) :
      Derives constants .primary (room + 1) [.single constant.symbol] constant.value

/-- The token may be the last one of an operand. -/
def EndsOperand : Token → Prop
  | .run _ _ => True
  | .single c => c = ')' ∨ (Constant.ofSymbol? c).isSome = true

/-- The token may be the first one of an operand. -/
def StartsOperand : Token → Prop
  | .run _ _ => True
  | .single c => c = '(' ∨ (Constant.ofSymbol? c).isSome = true

/-- No operand ends where another one starts. -/
def Joins (a b : Token) : Prop :=
  ¬(EndsOperand a ∧ StartsOperand b)

/-- The character is no part of an operand. -/
def IsOperator (c : Char) : Prop :=
  ¬EndsOperand (.single c) ∧ ¬StartsOperand (.single c)

theorem Sign.isOperator (sign : Sign) : IsOperator sign.char := by
  cases sign <;> simp only [IsOperator, EndsOperand, StartsOperand] <;> decide

theorem Scaling.isOperator (scaling : Scaling) : IsOperator scaling.char := by
  cases scaling <;> simp only [IsOperator, EndsOperand, StartsOperand] <;> decide

/-- An operator keeps what is around it apart, whatever the two sides are. -/
theorem isChain_operator {c : Char} (hc : IsOperator c) {ts us : List Token}
    (hts : ts.IsChain Joins) (hus : us.IsChain Joins) :
    (ts ++ .single c :: us).IsChain Joins := by
  refine hts.append (List.isChain_cons.mpr ⟨fun u _ h => hc.1 h.1, hus⟩) fun t _ u hu h => ?_
  obtain rfl : .single c = u := by simpa using hu
  exact hc.2 h.2

variable {constants : List Constant} {nonterminal : Nonterminal} {room : Nat} {ts : List Token}
  {x : Float}

/-- Between two operands stands an operator. -/
theorem Derives.isChain (h : Derives constants nonterminal room ts x) : ts.IsChain Joins := by
  induction h with
  | term _ ih | factor _ ih | power _ ih | plain _ ih => exact ih
  | sum sign _ _ ih ih' => exact isChain_operator sign.isOperator ih ih'
  | product scaling _ _ ih ih' => exact isChain_operator scaling.isOperator ih ih'
  | signed sign _ ih => exact isChain_operator sign.isOperator .nil ih
  | raised _ _ ih ih' =>
    refine isChain_operator ?_ ih ih'
    simp only [IsOperator, EndsOperand, StartsOperand]
    decide
  | number | constant => exact .singleton _
  | group _ ih =>
    refine List.isChain_cons.mpr ⟨fun u _ h => ?_, ih.append (.singleton _) fun t _ u hu h => ?_⟩
    · simp only [EndsOperand] at h
      exact absurd h.1 (by decide)
    · obtain rfl : .single ')' = u := by simpa using hu
      simp only [StartsOperand] at h
      exact absurd h.2 (by decide)

/-- A token that a text may have. -/
def IsToken : Token → Prop
  | .run first rest => ∀ c ∈ first :: rest, isNumberChar c = true
  | .single c => StandsAlone c

theorem separated_of_isChain {ts : List Token} (htokens : ∀ t ∈ ts, IsToken t)
    (hchain : ts.IsChain Joins) : Separated ts := by
  induction ts with
  | nil => trivial
  | cons t ts ih =>
    obtain ⟨ht, hts⟩ := List.forall_mem_cons.mp htokens
    obtain ⟨hnext, hrest⟩ := List.isChain_cons.mp hchain
    cases t with
    | single c => exact ⟨ht, ih hts hrest⟩
    | run first rest =>
      refine ⟨ht, fun u hu => ?_, ih hts hrest⟩
      cases u with
      | single c => exact (hts _ (List.mem_of_mem_head? hu)).2
      | run => exact absurd ⟨trivial, trivial⟩ (hnext _ hu)

theorem Derives.isToken (hconstants : ∀ constant ∈ constants, StandsAlone constant.symbol)
    (h : Derives constants nonterminal room ts x) : ∀ t ∈ ts, IsToken t := by
  induction h with
  | term _ ih | factor _ ih | power _ ih | plain _ ih => exact ih
  | sum sign _ _ ih ih' =>
    exact List.forall_mem_append.mpr ⟨ih, List.forall_mem_cons.mpr ⟨sign.standsAlone, ih'⟩⟩
  | product scaling _ _ ih ih' =>
    exact List.forall_mem_append.mpr ⟨ih, List.forall_mem_cons.mpr ⟨scaling.standsAlone, ih'⟩⟩
  | signed sign _ ih => exact List.forall_mem_cons.mpr ⟨sign.standsAlone, ih⟩
  | raised _ _ ih ih' =>
    have hcaret : StandsAlone '^' := by decide
    exact List.forall_mem_append.mpr ⟨ih, List.forall_mem_cons.mpr ⟨hcaret, ih'⟩⟩
  | number room numeral => exact List.forall_mem_singleton.mpr numeral.isNumeral.1
  | constant room hconstant => exact List.forall_mem_singleton.mpr (hconstants _ hconstant)
  | group _ ih =>
    have hopen : StandsAlone '(' := by decide
    have hclose : StandsAlone ')' := by decide
    exact List.forall_mem_cons.mpr ⟨hopen,
      List.forall_mem_append.mpr ⟨ih, List.forall_mem_singleton.mpr hclose⟩⟩

theorem Derives.separated (hconstants : ∀ constant ∈ constants, StandsAlone constant.symbol)
    (h : Derives constants nonterminal room ts x) : Separated ts :=
  separated_of_isChain (h.isToken hconstants) h.isChain

end Abacus.Grammar
