import Abacus.Proofs.Calculation
import Abacus.Proofs.Calls
import Abacus.Proofs.Double.NearestDouble
import Abacus.Proofs.Double.Positional

/-!
Runs of digits and dots where an operand is read. A run is taken as a whole, and only
then it is looked at: if it has a digit and at most one dot it has the double nearest to
the number it writes, and otherwise it is refused as a whole, which ends the evaluation.
-/

namespace Abacus.Expression

open Text Text.Cursor Automaton Double

/-- The number that a run of digits and dots writes. Its digits are those of an integer,
which is divided by ten once for each character behind the first dot. -/
def decimal (run : List Char) : ℚ :=
  Nat.ofDigitChars 10 (run.filter Char.isDigit) 0 / 10 ^ ((run.dropWhile (· != '.')).length - 1)

section Decimal

theorem ne_dot_of_isDigit {c : Char} (h : c.isDigit = true) : (c != '.') = true := by
  rw [bne_iff_ne]
  rintro rfl
  contradiction

theorem decimal_digits {whole : List Char} (hwhole : ∀ c ∈ whole, c.isDigit = true) :
    decimal whole = Nat.ofDigitChars 10 whole 0 := by
  have hdrop : whole.dropWhile (· != '.') = [] :=
    List.dropWhile_eq_nil_iff.mpr fun c hc => ne_dot_of_isDigit (hwhole c hc)
  rw [decimal, List.filter_eq_self.mpr hwhole, hdrop]
  simp

theorem decimal_dot {whole fraction : List Char} (hwhole : ∀ c ∈ whole, c.isDigit = true)
    (hfraction : ∀ c ∈ fraction, c.isDigit = true) :
    decimal (whole ++ '.' :: fraction) =
      Nat.ofDigitChars 10 (whole ++ fraction) 0 / 10 ^ fraction.length := by
  have hdrop : (whole ++ '.' :: fraction).dropWhile (· != '.') = '.' :: fraction := by
    rw [List.dropWhile_append_of_pos fun c hc => ne_dot_of_isDigit (hwhole c hc)]
    simp
  have hfilter : (whole ++ '.' :: fraction).filter Char.isDigit = whole ++ fraction := by
    rw [List.filter_append, List.filter_eq_self.mpr hwhole, List.filter_cons_of_neg (by decide),
      List.filter_eq_self.mpr hfraction]
  rw [decimal, hdrop, hfilter]
  simp

/-- A zero in front changes nothing. -/
theorem decimal_zero_cons (run : List Char) : decimal ('0' :: run) = decimal run := by
  have hdigit : ('0' : Char).isDigit = true := rfl
  rw [decimal, decimal, List.filter_cons_of_pos hdigit, List.dropWhile_cons_of_pos (by decide)]
  simp [Nat.ofDigitChars_cons]

/-- Neither does a zero at the end of a fraction. -/
theorem decimal_append_zero {run : List Char} (h : '.' ∈ run) :
    decimal (run ++ ['0']) = decimal run := by
  have hne : run.dropWhile (· != '.') ≠ [] := by
    intro hnil
    have hdot := List.dropWhile_eq_nil_iff.mp hnil '.' h
    contradiction
  obtain ⟨c, rest, hrest⟩ := List.exists_cons_of_ne_nil hne
  rw [decimal, decimal, List.dropWhile_append, hrest, List.filter_append,
    show ['0'].filter Char.isDigit = ['0'] from rfl, Nat.ofDigitChars_append]
  have hone : Nat.ofDigitChars 10 ['0'] (Nat.ofDigitChars 10 (run.filter Char.isDigit) 0) =
      10 * Nat.ofDigitChars 10 (run.filter Char.isDigit) 0 := by
    simp [Nat.ofDigitChars_cons]
  rw [hone]
  simp only [List.isEmpty_cons, Bool.false_eq_true, if_false, List.cons_append, List.length_cons,
    List.length_append, List.length_nil, Nat.add_sub_cancel, pow_succ]
  push_cast
  field_simp

/-- Neither does a dot behind an integer. -/
theorem decimal_append_dot {run : List Char} (h : '.' ∉ run) :
    decimal (run ++ ['.']) = decimal run := by
  have hne : ∀ c ∈ run, (c != '.') = true := by
    intro c hc
    rw [bne_iff_ne]
    rintro rfl
    exact h hc
  rw [decimal, decimal, List.dropWhile_append_of_pos hne, List.dropWhile_eq_nil_iff.mpr hne,
    List.filter_append]
  simp

theorem ofParts?_eq_some {whole fraction : List Char} {literal : Literal}
    (h : Literal.ofParts? whole fraction = some literal) :
    literal = ⟨whole, fraction⟩ ∧ ∀ c ∈ fraction, c.isDigit = true := by
  rw [Literal.ofParts?] at h
  split at h
  · rename_i hparts
    rw [Bool.and_eq_true] at hparts
    exact ⟨(Option.some.inj h).symm, List.all_eq_true.mp hparts.1⟩
  · contradiction

/-- A literal stands for the number that its run writes. -/
theorem quotient_of_ofRun? {run : List Char} {literal : Literal}
    (h : Literal.ofRun? run = some literal) : literal.quotient = decimal run := by
  have hwhole : ∀ c ∈ run.takeWhile Char.isDigit, c.isDigit = true :=
    List.all_eq_true.mp List.all_takeWhile
  have hsplit : run.takeWhile Char.isDigit ++ run.dropWhile Char.isDigit = run :=
    List.takeWhile_append_dropWhile
  rw [Literal.ofRun?] at h
  split at h
  · rename_i hdrop
    obtain ⟨rfl, -⟩ := ofParts?_eq_some h
    rw [hdrop, List.append_nil] at hsplit
    rw [hsplit] at hwhole ⊢
    simp [Literal.quotient, Literal.digits, Literal.scale, decimal_digits hwhole]
  · rename_i fraction hdrop
    obtain ⟨rfl, hfraction⟩ := ofParts?_eq_some h
    rw [hdrop] at hsplit
    rw [← hsplit, decimal_dot hwhole hfraction, hsplit]
    rfl
  · contradiction

end Decimal

/-- The value of a literal is the double nearest to the number that its run writes, and
no other double is. -/
theorem isNearest_literal_iff {run : List Char} {literal : Literal}
    (h : Literal.ofRun? run = some literal) (x : Float) :
    IsNearest false (decimal run) x ↔ x = literal.value := by
  have hvalue : decimal run = (literal.digits : ℚ) / (10 ^ literal.scale : Nat) := by
    rw [← quotient_of_ofRun? h, Literal.quotient]
    push_cast
    rfl
  rw [hvalue, isNearest_iff false (Nat.pow_pos (by decide))]
  rfl

section Runs

variable {run behind : List Char}

theorem width_of_ascii {chars : List Char} (h : ∀ c ∈ chars, c.toNat ≤ 127) :
    width chars = chars.length := by
  induction chars with
  | nil => rfl
  | cons c rest ih =>
    have hsize : c.utf8Size = 1 :=
      Char.utf8Size_eq_one_iff.mpr (UInt32.le_iff_toNat_le.mpr (h c List.mem_cons_self))
    have hrest := ih fun d hd => h d (List.mem_cons_of_mem _ hd)
    simp only [width, List.foldr_cons, List.length_cons] at hrest ⊢
    omega

theorem toNat_of_isNumberChar {c : Char} (h : isNumberChar c = true) : c.toNat ≤ 127 := by
  rw [isNumberChar, Bool.or_eq_true, beq_iff_eq] at h
  rcases h with hdigit | rfl
  · exact (toNat_of_isDigit hdigit).2.trans (by decide)
  · decide

/-- A number that stands on a run takes all of it. -/
theorem number_at_run {offset : Nat} (hne : run ≠ [])
    (hrun : ∀ ch ∈ run, isNumberChar ch = true)
    (hbehind : ∀ ch ∈ behind.head?, isNumberChar ch = false) :
    number ⟨offset, run ++ behind⟩ =
      match Literal.ofRun? run with
      | some literal => .ok (literal.value, ⟨offset + run.length, behind⟩)
      | none => .error ⟨.malformedNumber (String.ofList run), offset, run.head?⟩ := by
  obtain ⟨htake, hdrop⟩ := takeWhile_append_eq hrun hbehind
  have hpeek : Cursor.peek ⟨offset, run ++ behind⟩ = run.head? :=
    List.head?_append_of_ne_nil run hne
  have hwidth : width run = run.length :=
    width_of_ascii fun ch hch => toNat_of_isNumberChar (hrun ch hch)
  have hany : run.head?.any isNumberChar = true := by
    obtain ⟨first, rest, rfl⟩ := List.exists_cons_of_ne_nil hne
    exact hrun first List.mem_cons_self
  cases hliteral : Literal.ofRun? run
  all_goals
    simp only [number, hpeek, if_pos hany, scanNumber, skipWhile, htake, hdrop, hliteral, hwidth,
      failAt]

/-- A primary that stands on a run is the number that the run writes. -/
theorem primary_at_run (inner : Production) {c : Cursor} (hrest : c.rest = run ++ behind)
    (hne : run ≠ []) (hrun : ∀ ch ∈ run, isNumberChar ch = true)
    (hbehind : ∀ ch ∈ behind.head?, isNumberChar ch = false) :
    primary inner c =
      match Literal.ofRun? run with
      | some literal => .ok (literal.value, ⟨c.offset + run.length, behind⟩)
      | none => .error ⟨.malformedNumber (String.ofList run), c.offset, run.head?⟩ := by
  obtain ⟨offset, rest⟩ := c
  subst hrest
  obtain ⟨first, rest, rfl⟩ := List.exists_cons_of_ne_nil hne
  have hfirst : isNumberChar first = true := hrun first List.mem_cons_self
  have hspace : first ≠ ' ' := by
    rintro rfl
    contradiction
  have hskip : Cursor.skipSpaces ⟨offset, first :: rest ++ behind⟩ =
      ⟨offset, first :: rest ++ behind⟩ := by
    simp [skipSpaces, skipWhile, hspace, width]
  have heat : Cursor.eat ⟨offset, first :: rest ++ behind⟩ '(' =
      (false, ⟨offset, first :: rest ++ behind⟩) := by
    rw [Cursor.eat, hskip, if_neg]
    intro hpeek
    obtain rfl : first = '(' := by simpa [Cursor.peek] using hpeek
    contradiction
  simp only [primary, heat, number_at_run hne hrun hbehind]

end Runs

/-- Wherever the evaluation of a text comes to a primary that stands on a run of digits and
dots, the primary takes exactly the run. If the run has a digit and at most one dot, its
value is the double nearest to the number that the run writes, which zeros in front, zeros
at the end of a fraction and a dot at the end do not change. If not, the evaluation of the
whole text fails at the start of the run because of it. -/
theorem run_taken_whole {text : String} {room : Nat} {c : Cursor} {run behind : List Char}
    (hreaches : Reaches text ⟨.primary, room, c⟩) (hrest : c.rest = run ++ behind)
    (hne : run ≠ []) (hrun : ∀ ch ∈ run, isNumberChar ch = true)
    (hbehind : ∀ ch ∈ behind.head?, isNumberChar ch = false) :
    let outcome := Part.primary.production room c
    let e : SyntaxError := ⟨.malformedNumber (String.ofList run), c.offset, run.head?⟩
    (∃ before : String, text = before ++ String.ofList run ++ String.ofList behind ∧
      before.utf8ByteSize = c.offset) ∧
    ((∃ ch ∈ run, ch.isDigit = true) ∧ run.count '.' ≤ 1 →
      ∃ x, outcome = .ok (x, ⟨c.offset + run.length, behind⟩) ∧
        ∀ y, IsNearest false (decimal run) y ↔ y = x) ∧
    (¬((∃ ch ∈ run, ch.isDigit = true) ∧ run.count '.' ≤ 1) →
      outcome = .error e ∧ evaluate text = .error e) ∧
    decimal ('0' :: run) = decimal run ∧
    ('.' ∈ run → decimal (run ++ ['0']) = decimal run) ∧
    ('.' ∉ run → decimal (run ++ ['.']) = decimal run) := by
  intro outcome e
  have houtcome := primary_at_run (expression (factor room)) hrest hne hrun hbehind
  refine ⟨?_, ?_, ?_, decimal_zero_cons run, decimal_append_zero, decimal_append_dot⟩
  · obtain ⟨before, hlead⟩ := hreaches.leads
    have hsplit : text.toList = before ++ c.rest := hlead.rest_eq
    have hoffset : c.offset = 0 + width before := hlead.offset_eq
    refine ⟨String.ofList before, ?_, ?_⟩
    · rw [← String.toList_inj, hsplit, hrest]
      simp
    · rw [← width_toList, String.toList_ofList, hoffset, Nat.zero_add]
  · intro hnumeral
    obtain ⟨literal, hliteral⟩ :=
      Option.isSome_iff_exists.mp ((isSome_ofRun?_iff run).mpr ⟨hrun, hnumeral⟩)
    rw [hliteral] at houtcome
    exact ⟨literal.value, houtcome, isNearest_literal_iff hliteral⟩
  · intro hnumeral
    have hnone : Literal.ofRun? run = none := by
      rw [← Option.not_isSome_iff_eq_none, isSome_ofRun?_iff]
      exact fun h => hnumeral h.2
    rw [hnone] at houtcome
    exact ⟨houtcome, hreaches.evaluate_eq_error houtcome⟩

/-- A run with two dots, behind an operator, a parenthesis and a sign. -/
theorem run_taken_whole_second_dot :
    let text := "2*(-1..5)"
    let c : Cursor := ⟨4, ['1', '.', '.', '5', ')']⟩
    let run : List Char := ['1', '.', '.', '5']
    Reaches text ⟨.primary, 509, c⟩ ∧ c.rest = run ++ [')'] ∧ run ≠ [] ∧
      (∀ ch ∈ run, isNumberChar ch = true) ∧ (∀ ch ∈ [')'].head?, isNumberChar ch = false) ∧
      ¬((∃ ch ∈ run, ch.isDigit = true) ∧ run.count '.' ≤ 1) ∧
      evaluate text = .error ⟨.malformedNumber "1..5", 4, some '1'⟩ := by
  intro text c run
  have hstart : Cursor.start "2*(-1..5)" = ⟨0, ['2', '*', '(', '-', '1', '.', '.', '5', ')']⟩ := by
    rfl
  have hfirst : Part.factor.production maxDepth ⟨0, ['2', '*', '(', '-', '1', '.', '.', '5', ')']⟩ =
      .ok (Literal.value ⟨['2'], []⟩, ⟨1, ['*', '(', '-', '1', '.', '.', '5', ')']⟩) := by
    with_unfolding_all rfl
  have hproduct : Continues multiplicative (Part.factor.production maxDepth) (Cursor.start text)
      ⟨2, ['(', '-', '1', '.', '.', '5', ')']⟩ := by
    rw [show Cursor.start text = _ from hstart]
    exact ⟨_, _, _, Float.mul, hfirst, .refl, rfl, rfl⟩
  have hoperand : Calls ⟨.term, maxDepth, Cursor.start text⟩
      ⟨.factor, 511 + 1, ⟨2, ['(', '-', '1', '.', '.', '5', ')']⟩⟩ := .nextFactor hproduct
  have hgroup : Calls ⟨.factor, 511 + 1, ⟨2, ['(', '-', '1', '.', '.', '5', ')']⟩⟩
      ⟨.power, 511, ⟨2, ['(', '-', '1', '.', '.', '5', ')']⟩⟩ := .power rfl rfl
  have hinside : Calls ⟨.primary, 511, ⟨2, ['(', '-', '1', '.', '.', '5', ')']⟩⟩
      ⟨.expression, 511, ⟨3, ['-', '1', '.', '.', '5', ')']⟩⟩ := .group rfl
  have hsign : Calls ⟨.factor, 510 + 1, ⟨3, ['-', '1', '.', '.', '5', ')']⟩⟩
      ⟨.factor, 509 + 1, c⟩ := .minus rfl rfl
  have hpower : Calls ⟨.factor, 509 + 1, c⟩ ⟨.power, 509, c⟩ := .power rfl rfl
  have hreaches : Reaches text ⟨.primary, 509, c⟩ :=
    .tail (.tail (.tail (.tail (.tail (.tail (.tail (.tail (.tail (.tail .refl
      (.firstTerm _ _)) hoperand) hgroup) (.base _ _)) hinside) (.firstTerm _ _))
      (.firstFactor _ _)) hsign) hpower) (.base _ _)
  have hrun : ∀ ch ∈ run, isNumberChar ch = true := by simp [run, isNumberChar]
  have hbehind : ∀ ch ∈ [')'].head?, isNumberChar ch = false := by simp [isNumberChar]
  have hdots : ¬((∃ ch ∈ run, ch.isDigit = true) ∧ run.count '.' ≤ 1) := by simp [run]
  exact ⟨hreaches, rfl, by simp [run], hrun, hbehind, hdots,
    ((run_taken_whole hreaches rfl (by simp) hrun hbehind).2.2.1 hdots).2⟩

end Abacus.Expression
