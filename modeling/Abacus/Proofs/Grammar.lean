import Abacus.Double.Remainder
import Abacus.Expression.Literal
import Abacus.Proofs.SpacedTokens

/-!
The derivation trees of the grammar of expressions, one type for each production
and one for each repeated part. A tree has the tokens that it spells, a value,
and a depth, which counts the factors on the longest chain of factors inside one
another. Nothing here refers to the way in which a text is read.
-/

namespace Abacus.Expression

open Text

/-- A run is a literal when it has a digit, at most one dot, and nothing else. -/
def IsNumeral (run : List Char) : Prop :=
  (∀ c ∈ run, isNumberChar c = true) ∧ (∃ c ∈ run, c.isDigit = true) ∧ run.count '.' ≤ 1

theorem isNumberChar_of_isDigit {c : Char} (h : c.isDigit = true) : isNumberChar c = true := by
  rw [isNumberChar, h, Bool.true_or]

theorem isDigit_of_isNumberChar {c : Char} (h : isNumberChar c = true) (hdot : c ≠ '.') :
    c.isDigit = true := by
  simpa [isNumberChar, hdot] using h

theorem count_dot_of_digits {digits : List Char} (h : ∀ c ∈ digits, c.isDigit = true) :
    digits.count '.' = 0 := by
  apply List.count_eq_zero.mpr
  intro hdot
  have hdigit := h _ hdot
  contradiction

theorem isNumeral_digits_iff {whole : List Char} (hwhole : ∀ c ∈ whole, c.isDigit = true) :
    IsNumeral whole ↔ whole ≠ [] := by
  constructor
  · rintro ⟨-, ⟨c, hc, -⟩, -⟩
    exact List.ne_nil_of_mem hc
  · intro hne
    obtain ⟨c, hc⟩ := List.exists_mem_of_ne_nil whole hne
    refine ⟨fun d hd => isNumberChar_of_isDigit (hwhole d hd), ⟨c, hc, hwhole c hc⟩, ?_⟩
    rw [count_dot_of_digits hwhole]
    exact Nat.zero_le 1

theorem isNumeral_dot_iff {whole fraction : List Char}
    (hwhole : ∀ c ∈ whole, c.isDigit = true) :
    IsNumeral (whole ++ '.' :: fraction) ↔
      (∀ c ∈ fraction, c.isDigit = true) ∧ whole ++ fraction ≠ [] := by
  have hcount : (whole ++ '.' :: fraction).count '.' = fraction.count '.' + 1 := by
    rw [List.count_append, count_dot_of_digits hwhole, List.count_cons_self, Nat.zero_add]
  constructor
  · rintro ⟨hnumber, ⟨c, hc, hdigit⟩, hdots⟩
    have hnone : '.' ∉ fraction := by
      apply List.count_eq_zero.mp
      omega
    refine ⟨fun d hd => ?_, ?_⟩
    · apply isDigit_of_isNumberChar (hnumber d (by simp [hd]))
      rintro rfl
      exact hnone hd
    · rcases List.mem_append.mp hc with hc | hc
      · simp [List.ne_nil_of_mem hc]
      · rcases List.mem_cons.mp hc with rfl | hc
        · contradiction
        · simp [List.ne_nil_of_mem hc]
  · rintro ⟨hfraction, hne⟩
    obtain ⟨c, hc⟩ := List.exists_mem_of_ne_nil _ hne
    have hdigit : ∀ d ∈ whole ++ fraction, d.isDigit = true := by
      intro d hd
      exact (List.mem_append.mp hd).elim (hwhole d) (hfraction d)
    refine ⟨fun d hd => ?_, ⟨c, ?_, hdigit c hc⟩, ?_⟩
    · rcases List.mem_append.mp hd with hd | hd
      · exact isNumberChar_of_isDigit (hwhole d hd)
      · rcases List.mem_cons.mp hd with rfl | hd
        · rfl
        · exact isNumberChar_of_isDigit (hfraction d hd)
    · rw [List.mem_append, List.mem_cons]
      exact (List.mem_append.mp hc).imp_right Or.inr
    · rw [hcount, count_dot_of_digits hfraction]

theorem isSome_ofParts?_iff (whole fraction : List Char) :
    (Literal.ofParts? whole fraction).isSome = true ↔
      (∀ c ∈ fraction, c.isDigit = true) ∧ whole ++ fraction ≠ [] := by
  simp only [Literal.ofParts?]
  split <;> simp_all

/-- Literals are read from exactly the runs that are numerals. -/
theorem isSome_ofRun?_iff (run : List Char) :
    (Literal.ofRun? run).isSome = true ↔ IsNumeral run := by
  have hwhole : ∀ c ∈ run.takeWhile Char.isDigit, c.isDigit = true :=
    List.all_eq_true.mp List.all_takeWhile
  have hsplit : run.takeWhile Char.isDigit ++ run.dropWhile Char.isDigit = run :=
    List.takeWhile_append_dropWhile
  have hhead := List.head?_dropWhile_not Char.isDigit run
  rw [Literal.ofRun?]
  split
  · rename_i hdrop
    rw [hdrop, List.append_nil] at hsplit
    rw [isSome_ofParts?_iff, List.append_nil, ← isNumeral_digits_iff hwhole, hsplit]
    simp
  · rename_i fraction hdrop
    rw [hdrop] at hsplit
    rw [isSome_ofParts?_iff, ← isNumeral_dot_iff hwhole, hsplit]
  · rename_i hnil hdot
    constructor
    · intro h
      contradiction
    · rintro ⟨hnumber, -, -⟩
      cases hdrop : run.dropWhile Char.isDigit with
      | nil => exact absurd hdrop hnil
      | cons c tail =>
        rw [hdrop] at hsplit hhead
        have hc := hnumber c (by rw [← hsplit]; simp)
        have hdotc : c ≠ '.' := by
          rintro rfl
          exact hdot tail hdrop
        have hdigit := isDigit_of_isNumberChar hc hdotc
        simp [hdigit] at hhead

/-- A number token. -/
structure Numeral where
  first : Char
  rest : List Char
  isNumeral : IsNumeral (first :: rest)

namespace Numeral

def literal (numeral : Numeral) : Literal :=
  (Literal.ofRun? (numeral.first :: numeral.rest)).get
    ((isSome_ofRun?_iff _).mpr numeral.isNumeral)

theorem ofRun?_eq (numeral : Numeral) :
    Literal.ofRun? (numeral.first :: numeral.rest) = some numeral.literal :=
  (Option.some_get _).symm

end Numeral

end Abacus.Expression

namespace Abacus.Grammar

open Text Abacus.Expression

inductive Sign where
  | plus
  | minus

def Sign.char : Sign → Char
  | plus => '+'
  | minus => '-'

/-- The sign as an operator between two terms. -/
def Sign.combine : Sign → Float → Float → Float
  | plus => Float.add
  | minus => Float.sub

/-- The sign in front of a factor. -/
def Sign.apply : Sign → Float → Float
  | plus, x => x
  | minus, x => -x

inductive Scaling where
  | multiply
  | divide
  | modulo

def Scaling.char : Scaling → Char
  | multiply => '*'
  | divide => '/'
  | modulo => '%'

def Scaling.combine : Scaling → Float → Float → Float
  | multiply => Float.mul
  | divide => Float.div
  | modulo => Double.remainder

mutual
/-- `expression := term { ('+' | '-') term }` -/
inductive Expression where
  | mk (head : Term) (tail : Sums)

inductive Sums where
  | nil
  | cons (sign : Sign) (head : Term) (tail : Sums)

/-- `term := factor { ('*' | '/' | '%') factor }` -/
inductive Term where
  | mk (head : Factor) (tail : Products)

inductive Products where
  | nil
  | cons (scaling : Scaling) (head : Factor) (tail : Products)

/-- `factor := ('+' | '-') factor | power` -/
inductive Factor where
  | signed (sign : Sign) (inner : Factor)
  | power (inner : Power)

/-- `power := primary [ '^' factor ]` -/
inductive Power where
  | plain (base : Primary)
  | raised (base : Primary) (exponent : Factor)

/-- `primary := number | '(' expression ')'` -/
inductive Primary where
  | number (numeral : Numeral)
  | group (inner : Expression)
end

mutual
def Expression.tokens : Expression → List Token
  | .mk head tail => head.tokens ++ tail.tokens

def Sums.tokens : Sums → List Token
  | .nil => []
  | .cons sign head tail => .single sign.char :: (head.tokens ++ tail.tokens)

def Term.tokens : Term → List Token
  | .mk head tail => head.tokens ++ tail.tokens

def Products.tokens : Products → List Token
  | .nil => []
  | .cons scaling head tail => .single scaling.char :: (head.tokens ++ tail.tokens)

def Factor.tokens : Factor → List Token
  | .signed sign inner => .single sign.char :: inner.tokens
  | .power inner => inner.tokens

def Power.tokens : Power → List Token
  | .plain base => base.tokens
  | .raised base exponent => base.tokens ++ .single '^' :: exponent.tokens

def Primary.tokens : Primary → List Token
  | .number numeral => [.run numeral.first numeral.rest]
  | .group inner => .single '(' :: (inner.tokens ++ [.single ')'])
end

mutual
/-- The number of factors on the longest chain of factors inside one another. -/
def Expression.depth : Expression → Nat
  | .mk head tail => max head.depth tail.depth

def Sums.depth : Sums → Nat
  | .nil => 0
  | .cons _ head tail => max head.depth tail.depth

def Term.depth : Term → Nat
  | .mk head tail => max head.depth tail.depth

def Products.depth : Products → Nat
  | .nil => 0
  | .cons _ head tail => max head.depth tail.depth

def Factor.depth : Factor → Nat
  | .signed _ inner => inner.depth + 1
  | .power inner => inner.depth + 1

def Power.depth : Power → Nat
  | .plain base => base.depth
  | .raised base exponent => max base.depth exponent.depth

def Primary.depth : Primary → Nat
  | .number _ => 0
  | .group inner => inner.depth
end

mutual
def Expression.value : Expression → Float
  | .mk head tail => tail.fold head.value

/-- Folds the terms from the left, from the value in front of them. -/
def Sums.fold : Sums → Float → Float
  | .nil, x => x
  | .cons sign head tail, x => tail.fold (sign.combine x head.value)

def Term.value : Term → Float
  | .mk head tail => tail.fold head.value

def Products.fold : Products → Float → Float
  | .nil, x => x
  | .cons scaling head tail, x => tail.fold (scaling.combine x head.value)

/-- A sign belongs to the whole factor behind it. -/
def Factor.value : Factor → Float
  | .signed sign inner => sign.apply inner.value
  | .power inner => inner.value

/-- The exponent is the whole factor behind the operator. -/
def Power.value : Power → Float
  | .plain base => base.value
  | .raised base exponent => Float.pow base.value exponent.value

def Primary.value : Primary → Float
  | .number numeral => numeral.literal.value
  | .group inner => inner.value
end

theorem Primary.tokens_ne_nil (tree : Primary) : tree.tokens ≠ [] := by
  cases tree <;> simp [Primary.tokens]

theorem Power.tokens_ne_nil (tree : Power) : tree.tokens ≠ [] := by
  cases tree with
  | plain base => exact base.tokens_ne_nil
  | raised base exponent => simp [Power.tokens]

theorem Factor.tokens_ne_nil (tree : Factor) : tree.tokens ≠ [] := by
  cases tree with
  | signed sign inner => simp [Factor.tokens]
  | power inner => exact inner.tokens_ne_nil

theorem Term.tokens_ne_nil (tree : Term) : tree.tokens ≠ [] := by
  cases tree with
  | mk head tail => exact List.append_ne_nil_of_left_ne_nil head.tokens_ne_nil _

theorem Expression.tokens_ne_nil (tree : Expression) : tree.tokens ≠ [] := by
  cases tree with
  | mk head tail => exact List.append_ne_nil_of_left_ne_nil head.tokens_ne_nil _

theorem Sign.standsAlone (sign : Sign) : StandsAlone sign.char := by
  cases sign <;> decide

theorem Scaling.standsAlone (scaling : Scaling) : StandsAlone scaling.char := by
  cases scaling <;> decide

/-- Tokens that may stand behind any token. -/
def Follows (ts : List Token) : Prop :=
  (∀ t ∈ ts.head?, isNumberChar t.head = false) ∧ Separated ts

theorem follows_single {c : Char} {ts : List Token} (hc : StandsAlone c)
    (hts : Separated ts) : Follows (.single c :: ts) := by
  refine ⟨fun t ht => ?_, hc, hts⟩
  obtain rfl : .single c = t := by simpa using ht
  exact hc.2

mutual
/-- The tokens of a tree stay apart, and stay apart from tokens that may follow. -/
theorem Expression.separated : ∀ (tree : Expression) {ts : List Token}, Follows ts →
    Separated (tree.tokens ++ ts)
  | .mk head tail, _, h => by
    rw [Expression.tokens, List.append_assoc]
    exact head.separated (tail.follows h)

theorem Sums.follows : ∀ (tree : Sums) {ts : List Token}, Follows ts →
    Follows (tree.tokens ++ ts)
  | .nil, _, h => h
  | .cons sign head tail, _, h => by
    rw [Sums.tokens, List.cons_append, List.append_assoc]
    exact follows_single sign.standsAlone (head.separated (tail.follows h))

theorem Term.separated : ∀ (tree : Term) {ts : List Token}, Follows ts →
    Separated (tree.tokens ++ ts)
  | .mk head tail, _, h => by
    rw [Term.tokens, List.append_assoc]
    exact head.separated (tail.follows h)

theorem Products.follows : ∀ (tree : Products) {ts : List Token}, Follows ts →
    Follows (tree.tokens ++ ts)
  | .nil, _, h => h
  | .cons scaling head tail, _, h => by
    rw [Products.tokens, List.cons_append, List.append_assoc]
    exact follows_single scaling.standsAlone (head.separated (tail.follows h))

theorem Factor.separated : ∀ (tree : Factor) {ts : List Token}, Follows ts →
    Separated (tree.tokens ++ ts)
  | .signed sign inner, _, h => ⟨sign.standsAlone, inner.separated h⟩
  | .power inner, _, h => inner.separated h

theorem Power.separated : ∀ (tree : Power) {ts : List Token}, Follows ts →
    Separated (tree.tokens ++ ts)
  | .plain base, _, h => base.separated h
  | .raised base exponent, _, h => by
    rw [Power.tokens, List.append_assoc]
    exact base.separated (follows_single (by decide) (exponent.separated h))

theorem Primary.separated : ∀ (tree : Primary) {ts : List Token}, Follows ts →
    Separated (tree.tokens ++ ts)
  | .number numeral, _, h => ⟨numeral.isNumeral.1, h⟩
  | .group inner, _, h => by
    rw [Primary.tokens, List.cons_append, List.append_assoc]
    exact ⟨by decide, inner.separated (follows_single (by decide) h.2)⟩
end

theorem Factor.depth_pos (tree : Factor) : 0 < tree.depth := by
  cases tree <;> exact Nat.succ_pos _

theorem Term.depth_pos (tree : Term) : 0 < tree.depth := by
  obtain ⟨head, tail⟩ := tree
  exact Nat.lt_of_lt_of_le head.depth_pos (Nat.le_max_left _ _)

theorem Expression.depth_pos (tree : Expression) : 0 < tree.depth := by
  obtain ⟨head, tail⟩ := tree
  exact Nat.lt_of_lt_of_le head.depth_pos (Nat.le_max_left _ _)

end Abacus.Grammar
