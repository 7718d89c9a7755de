import Abacus.Text.Cursor

/-!
The tokens of a text are its maximal runs of digits and dots and its other
characters, each alone; spaces only keep tokens apart. Cutting a text in two
cuts its tokens in two, unless the cut goes through a run. A cursor therefore
leaves tokens behind and sees tokens ahead, and if it stands on no space, the
tokens ahead determine where in the text it stands.
-/

namespace Abacus.Text

theorem width_append (a b : List Char) : width (a ++ b) = width a + width b := by
  induction a with
  | nil => simp [width]
  | cons c rest ih =>
    simp only [width, List.cons_append, List.foldr_cons] at ih ⊢
    omega

theorem width_toList (text : String) : width text.toList = text.utf8ByteSize := by
  rw [← String.ofList_toList (s := text)]
  generalize text.toList = chars
  induction chars with
  | nil => simp [width]
  | cons c rest ih =>
    rw [String.toList_ofList] at ih ⊢
    rw [← List.singleton_append, String.ofList_append, String.utf8ByteSize_append,
      width_append, ih, ← String.singleton_eq_ofList, String.utf8ByteSize_singleton]
    simp [width]

theorem eq_nil_of_width {chars : List Char} (h : width chars = 0) : chars = [] := by
  cases chars with
  | nil => rfl
  | cons c rest =>
    have hc := c.utf8Size_pos
    simp only [width, List.foldr_cons] at h
    omega

/-- Of two prefixes of one text with the same width neither is longer. -/
theorem eq_of_width {a b tail tail' : List Char} (hsplit : a ++ tail = b ++ tail')
    (hwidth : width a = width b) : a = b := by
  rcases List.append_eq_append_iff.mp hsplit with ⟨mid, hmid, -⟩ | ⟨mid, hmid, -⟩
  · have hzero : mid = [] := by
      apply eq_nil_of_width
      rw [hmid, width_append] at hwidth
      omega
    rw [hmid, hzero, List.append_nil]
  · have hzero : mid = [] := by
      apply eq_nil_of_width
      rw [hmid, width_append] at hwidth
      omega
    rw [hmid, hzero, List.append_nil]

/-- A run ends where its characters end. -/
theorem takeWhile_append_eq {p : Char → Bool} {front rest : List Char}
    (hfront : ∀ ch ∈ front, p ch = true) (hrest : ∀ ch ∈ rest.head?, p ch = false) :
    (front ++ rest).takeWhile p = front ∧ (front ++ rest).dropWhile p = rest := by
  rw [List.takeWhile_append_of_pos hfront, List.dropWhile_append_of_pos hfront]
  cases rest with
  | nil => simp
  | cons ch rest => simp [hrest ch rfl]

/-- A run keeps its first character apart, so that it is never empty. -/
inductive Token where
  | run (first : Char) (rest : List Char)
  | single (c : Char)
deriving DecidableEq, Repr

namespace Token

def head : Token → Char
  | run first _ => first
  | single c => c

def chars : Token → List Char
  | run first rest => first :: rest
  | single c => [c]

end Token

/-- A token of a text with the byte offset of its first character. -/
structure Lexeme where
  start : Nat
  token : Token
deriving DecidableEq, Repr

/-- The byte offset just past the token. -/
def Lexeme.stop (lexeme : Lexeme) : Nat :=
  lexeme.start + width lexeme.token.chars

def lexemesFrom (offset : Nat) : List Char → List Lexeme
  | [] => []
  | c :: rest =>
    if c = ' ' then lexemesFrom (offset + c.utf8Size) rest
    else if isNumberChar c then
      ⟨offset, .run c (rest.takeWhile isNumberChar)⟩ ::
        lexemesFrom (offset + width (c :: rest.takeWhile isNumberChar))
          (rest.dropWhile isNumberChar)
    else ⟨offset, .single c⟩ :: lexemesFrom (offset + c.utf8Size) rest
termination_by chars => chars.length
decreasing_by
  · simp
  · exact Nat.lt_succ_of_le (List.dropWhile_sublist _).length_le
  · simp

/-- The character is a token of its own wherever it stands. -/
def StandsAlone (c : Char) : Prop :=
  c ≠ ' ' ∧ isNumberChar c = false

instance : DecidablePred StandsAlone := fun c =>
  inferInstanceAs (Decidable (c ≠ ' ' ∧ isNumberChar c = false))

def tokensOf (chars : List Char) : List Token :=
  (lexemesFrom 0 chars).map Lexeme.token

def lexemes (text : String) : List Lexeme :=
  lexemesFrom 0 text.toList

def tokens (text : String) : List Token :=
  tokensOf text.toList

theorem map_token_lexemesFrom (m n : Nat) (chars : List Char) :
    (lexemesFrom m chars).map Lexeme.token = (lexemesFrom n chars).map Lexeme.token := by
  fun_induction lexemesFrom m chars generalizing n with
  | case1 => simp [lexemesFrom]
  | case2 offset rest ih =>
    rw [lexemesFrom, if_pos rfl]
    exact ih _
  | case3 offset c rest hspace hnumber ih =>
    rw [lexemesFrom, if_neg hspace, if_pos hnumber, List.map_cons, List.map_cons]
    exact congrArg _ (ih _)
  | case4 offset c rest hspace hnumber ih =>
    rw [lexemesFrom, if_neg hspace, if_neg hnumber, List.map_cons, List.map_cons]
    exact congrArg _ (ih _)

@[simp]
theorem tokensOf_nil : tokensOf [] = [] := by
  simp [tokensOf, lexemesFrom]

@[simp]
theorem tokensOf_space (rest : List Char) : tokensOf (' ' :: rest) = tokensOf rest := by
  rw [tokensOf, lexemesFrom, if_pos rfl]
  exact map_token_lexemesFrom _ _ rest

theorem tokensOf_run {c : Char} (rest : List Char) (hc : isNumberChar c = true) :
    tokensOf (c :: rest) =
      .run c (rest.takeWhile isNumberChar) :: tokensOf (rest.dropWhile isNumberChar) := by
  have hspace : c ≠ ' ' := by
    rintro rfl
    simp [isNumberChar] at hc
  rw [tokensOf, lexemesFrom, if_neg hspace, if_pos hc, List.map_cons]
  exact congrArg _ (map_token_lexemesFrom _ _ _)

theorem tokensOf_single {c : Char} (rest : List Char) (hc : StandsAlone c) :
    tokensOf (c :: rest) = .single c :: tokensOf rest := by
  have hnumber : ¬isNumberChar c = true := by simp [hc.2]
  rw [tokensOf, lexemesFrom, if_neg hc.1, if_neg hnumber, List.map_cons]
  exact congrArg _ (map_token_lexemesFrom _ _ _)

/-- A cut between `before` and `behind` goes through no run. -/
def Apart (before behind : List Char) : Prop :=
  ∀ a ∈ before.getLast?, ∀ b ∈ behind.head?, isNumberChar a = true → isNumberChar b = false

theorem Apart.of_suffix {before tail behind : List Char} (h : Apart before behind)
    (htail : tail <:+ before) : Apart tail behind := by
  obtain ⟨front, rfl⟩ := htail
  intro a ha
  apply h
  rw [List.getLast?_append, Option.mem_def.mp ha]
  rfl

theorem apart_of_head {before behind : List Char}
    (h : ∀ b ∈ behind.head?, isNumberChar b = false) : Apart before behind :=
  fun _ _ b hb _ => h b hb

theorem apart_concat {c : Char} (before behind : List Char) (hc : isNumberChar c = false) :
    Apart (before ++ [c]) behind := by
  intro a ha b _ hnumber
  rw [List.getLast?_concat, Option.mem_some] at ha
  rw [← ha, hc] at hnumber
  contradiction

/-- A run that ends before the cut is the same run with or without the text behind. -/
theorem takeWhile_dropWhile_append {c : Char} {rest behind : List Char}
    (h : Apart (c :: rest) behind) (hc : isNumberChar c = true) :
    (rest ++ behind).takeWhile isNumberChar = rest.takeWhile isNumberChar ∧
      (rest ++ behind).dropWhile isNumberChar = rest.dropWhile isNumberChar ++ behind := by
  induction rest generalizing c with
  | nil =>
    cases behind with
    | nil => simp
    | cons b tail =>
      have hb : isNumberChar b = false := h c (by simp) b (by simp) hc
      simp [hb]
  | cons d tail ih =>
    by_cases hd : isNumberChar d = true
    · obtain ⟨htake, hdrop⟩ := ih (h.of_suffix (List.suffix_cons c _)) hd
      simp [hd, htake, hdrop]
    · simp [hd]

theorem lexemesFrom_append {before behind : List Char} (h : Apart before behind) (n : Nat) :
    lexemesFrom n (before ++ behind) =
      lexemesFrom n before ++ lexemesFrom (n + width before) behind := by
  fun_induction lexemesFrom n before with
  | case1 => simp [width]
  | case2 offset rest ih =>
    rw [List.cons_append, lexemesFrom, if_pos rfl, ih (h.of_suffix (List.suffix_cons _ _))]
    simp [width, Nat.add_assoc]
  | case3 offset c rest hspace hnumber ih =>
    obtain ⟨htake, hdrop⟩ := takeWhile_dropWhile_append h hnumber
    have htail : rest.dropWhile isNumberChar <:+ c :: rest :=
      (List.dropWhile_suffix _).trans (List.suffix_cons _ _)
    have hwidth : width (c :: rest) = width (c :: rest.takeWhile isNumberChar) +
        width (rest.dropWhile isNumberChar) := by
      rw [← width_append, List.cons_append, List.takeWhile_append_dropWhile]
    rw [List.cons_append, lexemesFrom, if_neg hspace, if_pos hnumber, htake, hdrop,
      ih (h.of_suffix htail), hwidth, Nat.add_assoc, List.cons_append]
  | case4 offset c rest hspace hnumber ih =>
    rw [List.cons_append, lexemesFrom, if_neg hspace, if_neg hnumber,
      ih (h.of_suffix (List.suffix_cons _ _)), List.cons_append]
    simp [width, Nat.add_assoc]

theorem tokensOf_append {before behind : List Char} (h : Apart before behind) :
    tokensOf (before ++ behind) = tokensOf before ++ tokensOf behind := by
  rw [tokensOf, lexemesFrom_append h, List.map_append]
  exact congrArg _ (map_token_lexemesFrom _ _ _)

end Abacus.Text
