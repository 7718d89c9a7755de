import Mathlib.Data.List.Basic
import Abacus.Proofs.Tokens

/-!
Cursors and tokens. Each move of a cursor goes over whole tokens and spaces, so
what it leaves behind and what it still has ahead are tokens of the same text.
A cursor that stands on no space is determined by the number of tokens ahead,
and starts the next of them.
-/

namespace Abacus.Text.Cursor

/-- The tokens ahead of a cursor. -/
def tokens (c : Cursor) : List Token :=
  tokensOf c.rest

def lexemes (c : Cursor) : List Lexeme :=
  lexemesFrom c.offset c.rest

/-- Going over `before` leads from `c` to `d`, and ends in no run. -/
structure Leads (c : Cursor) (before : List Char) (d : Cursor) : Prop where
  rest_eq : c.rest = before ++ d.rest
  offset_eq : d.offset = c.offset + width before
  apart : Apart before d.rest

/-- The cursor stands on a character that is no space, or at the end. -/
def Settled (c : Cursor) : Prop :=
  c.peek ≠ some ' '

theorem map_token_lexemes (c : Cursor) : c.lexemes.map Lexeme.token = c.tokens :=
  map_token_lexemesFrom _ _ c.rest

theorem length_lexemes (c : Cursor) : c.lexemes.length = c.tokens.length := by
  rw [← map_token_lexemes, List.length_map]

namespace Leads

variable {c d e : Cursor} {before between : List Char}

theorem refl (c : Cursor) : c.Leads [] c :=
  ⟨rfl, by simp [width], by simp [Apart]⟩

theorem trans (h : c.Leads before d) (h' : d.Leads between e) :
    c.Leads (before ++ between) e where
  rest_eq := by rw [h.rest_eq, h'.rest_eq, List.append_assoc]
  offset_eq := by rw [h'.offset_eq, h.offset_eq, width_append, Nat.add_assoc]
  apart := by
    cases between with
    | nil =>
      have hrest : d.rest = e.rest := h'.rest_eq
      rw [List.append_nil, ← hrest]
      exact h.apart
    | cons b tail =>
      intro a ha
      have hlast : (b :: tail).getLast? = some ((b :: tail).getLast (by simp)) :=
        List.getLast?_eq_some_getLast _
      rw [List.getLast?_append, hlast] at ha
      exact h'.apart a (hlast ▸ ha)

theorem length_le (h : c.Leads before d) : d.rest.length ≤ c.rest.length := by
  rw [h.rest_eq, List.length_append]
  omega

theorem offset_le (h : c.Leads before d) : c.offset ≤ d.offset := by
  rw [h.offset_eq]
  exact Nat.le_add_right _ _

/-- Every character has a width, so a cursor that has gone over one stands further on. -/
theorem offset_lt (h : c.Leads before d) (hbefore : before ≠ []) : c.offset < d.offset := by
  obtain ⟨ch, tail, rfl⟩ := List.exists_cons_of_ne_nil hbefore
  have hwidth : width (ch :: tail) = ch.utf8Size + width tail := rfl
  have hpos := ch.utf8Size_pos
  rw [h.offset_eq]
  omega

theorem tokens_eq (h : c.Leads before d) : c.tokens = tokensOf before ++ d.tokens := by
  rw [tokens, h.rest_eq, tokensOf_append h.apart]
  rfl

theorem lexemes_eq (h : c.Leads before d) :
    c.lexemes = lexemesFrom c.offset before ++ d.lexemes := by
  rw [lexemes, h.rest_eq, lexemesFrom_append h.apart, ← h.offset_eq]
  rfl

theorem end_eq (h : c.Leads before d) :
    d.offset + width d.rest = c.offset + width c.rest := by
  rw [h.offset_eq, h.rest_eq, width_append, Nat.add_assoc]

end Leads

theorem leads_skipSpaces (c : Cursor) :
    c.Leads (c.rest.takeWhile (· == ' ')) c.skipSpaces where
  rest_eq := List.takeWhile_append_dropWhile.symm
  offset_eq := rfl
  apart := by
    intro a ha
    have hmem := List.mem_of_getLast? (Option.mem_def.mp ha)
    have hspace := List.all_eq_true.mp (List.all_takeWhile (p := (· == ' '))) a hmem
    rw [beq_iff_eq] at hspace
    subst a
    simp [isNumberChar]

theorem settled_skipSpaces (c : Cursor) : c.skipSpaces.Settled := by
  intro h
  have hnot := List.head?_dropWhile_not (· == ' ') c.rest
  change (c.rest.dropWhile (· == ' ')).head? = some ' ' at h
  rw [h] at hnot
  simp at hnot

theorem tokens_skipSpaces (c : Cursor) : c.skipSpaces.tokens = c.tokens := by
  obtain ⟨offset, rest⟩ := c
  simp only [tokens, skipSpaces, skipWhile]
  induction rest with
  | nil => rfl
  | cons b tail ih =>
    by_cases hb : b = ' '
    · subst b
      simpa using ih
    · simp [hb]

/-- A settled cursor starts its first token. -/
theorem peek_of_settled {c : Cursor} (h : c.Settled) :
    c.peek = c.tokens.head?.map Token.head := by
  obtain ⟨offset, rest⟩ := c
  cases rest with
  | nil => simp [peek, tokens]
  | cons b tail =>
    have hb : b ≠ ' ' := by
      rintro rfl
      exact h rfl
    by_cases hnumber : isNumberChar b = true
    · simp [peek, tokens, tokensOf_run _ hnumber, Token.head]
    · have halone : StandsAlone b := ⟨hb, by simpa using hnumber⟩
      simp [peek, tokens, tokensOf_single _ halone, Token.head]

theorem head_lexemes_of_settled {c : Cursor} (h : c.Settled) (hrest : c.rest ≠ []) :
    c.lexemes.head?.map Lexeme.start = some c.offset := by
  obtain ⟨offset, rest⟩ := c
  cases rest with
  | nil => exact absurd rfl hrest
  | cons b tail =>
    have hb : b ≠ ' ' := by
      rintro rfl
      exact h rfl
    by_cases hnumber : isNumberChar b = true <;>
      simp [lexemes, lexemesFrom, hb, hnumber]

theorem rest_eq_nil_iff {c : Cursor} (h : c.Settled) : c.rest = [] ↔ c.tokens = [] := by
  constructor
  · intro hrest
    simp [tokens, hrest]
  · intro htokens
    have hpeek := peek_of_settled h
    rw [htokens] at hpeek
    simpa [peek] using hpeek

/-- A later cursor is determined by its offset. -/
theorem Leads.unique {c d e : Cursor} {before between : List Char}
    (h : c.Leads before d) (h' : c.Leads between e) (hoffset : d.offset = e.offset) :
    before = between ∧ d = e := by
  have hsplit : before ++ d.rest = between ++ e.rest := h.rest_eq.symm.trans h'.rest_eq
  have hwidth : width before = width between := by
    have hd := h.offset_eq
    have he := h'.offset_eq
    omega
  have hbefore : before = between := eq_of_width hsplit hwidth
  rw [hbefore] at hsplit
  have hrest : d.rest = e.rest := List.append_cancel_left hsplit
  obtain ⟨offset, rest⟩ := d
  exact ⟨hbefore, by simp_all⟩

/-- Two settled cursors of one text with as many tokens ahead are the same. -/
theorem Leads.eq_of_settled {c d e : Cursor} {before between : List Char}
    (h : c.Leads before d) (h' : c.Leads between e) (hd : d.Settled) (he : e.Settled)
    (hlength : d.tokens.length = e.tokens.length) : before = between ∧ d = e := by
  apply h.unique h'
  have hlexemes : d.lexemes = e.lexemes := by
    have hsplit := h.lexemes_eq.symm.trans h'.lexemes_eq
    rw [← length_lexemes, ← length_lexemes] at hlength
    exact (List.append_inj' hsplit hlength).2
  by_cases hrest : d.rest = []
  · have hrest' : e.rest = [] := by
      rw [rest_eq_nil_iff he, List.eq_nil_iff_length_eq_zero, ← hlength,
        (rest_eq_nil_iff hd).mp hrest]
      rfl
    have hend := h.end_eq.trans h'.end_eq.symm
    rw [hrest, hrest'] at hend
    exact Nat.add_right_cancel hend
  · have hrest' : e.rest ≠ [] := by
      intro hnil
      have hzero := (rest_eq_nil_iff he).mp hnil
      rw [hzero] at hlength
      exact hrest ((rest_eq_nil_iff hd).mpr (List.length_eq_zero_iff.mp hlength))
    have hstart := head_lexemes_of_settled hd hrest
    rw [hlexemes, head_lexemes_of_settled he hrest'] at hstart
    exact (Option.some.inj hstart).symm

theorem lexemesFrom_concat (n : Nat) (before : List Char) {ch : Char} (hch : StandsAlone ch) :
    lexemesFrom n (before ++ [ch]) =
      lexemesFrom n before ++ [⟨n + width before, .single ch⟩] := by
  have hapart : Apart before [ch] := by
    apply apart_of_head
    rintro b hb
    obtain rfl : ch = b := by simpa using hb
    exact hch.2
  rw [lexemesFrom_append hapart]
  simp [lexemesFrom, hch.1, hch.2]

/-- So are two cursors that stand just behind a single token. -/
theorem Leads.eq_of_concat {c d e : Cursor} {before between : List Char} {a b : Char}
    (h : c.Leads (before ++ [a]) d) (h' : c.Leads (between ++ [b]) e)
    (ha : StandsAlone a) (hb : StandsAlone b)
    (hlength : d.tokens.length = e.tokens.length) :
    before ++ [a] = between ++ [b] ∧ d = e := by
  apply h.unique h'
  have hsplit := h.lexemes_eq.symm.trans h'.lexemes_eq
  rw [← length_lexemes, ← length_lexemes] at hlength
  have hbehind := (List.append_inj' hsplit hlength).1
  rw [lexemesFrom_concat _ _ ha, lexemesFrom_concat _ _ hb] at hbehind
  have hlast := (List.append_inj' hbehind rfl).2
  simp only [List.cons.injEq, Lexeme.mk.injEq, Token.single.injEq, and_true] at hlast
  obtain ⟨hstart, rfl⟩ := hlast
  rw [h.offset_eq, h'.offset_eq, width_append, width_append]
  omega

theorem Leads.length_lt {c d : Cursor} {before : List Char} {ch : Char}
    (h : c.Leads (before ++ [ch]) d) : d.rest.length < c.rest.length := by
  rw [h.rest_eq]
  simp only [List.length_append, List.length_cons, List.length_nil]
  omega

theorem leads_next {c : Cursor} {ch : Char} (h : c.peek = some ch) (hch : StandsAlone ch) :
    c.Leads [ch] c.next := by
  obtain ⟨offset, rest⟩ := c
  cases rest with
  | nil => simp [peek] at h
  | cons b tail =>
    obtain rfl : b = ch := by simpa [peek] using h
    exact ⟨rfl, by simp [next, width], apart_concat [] _ hch.2⟩

theorem tokens_next {c : Cursor} {ch : Char} (h : c.peek = some ch) (hch : StandsAlone ch) :
    c.tokens = .single ch :: c.next.tokens := by
  rw [(leads_next h hch).tokens_eq, tokensOf_single _ hch, tokensOf_nil]
  rfl

/-- At a number character the cursor scans exactly the run that is its next token. -/
theorem exists_scanNumber {c : Cursor} {ch : Char} (h : c.peek = some ch)
    (hch : isNumberChar ch = true) :
    ∃ run after, c.scanNumber = (ch :: run, after) ∧ c.Leads (ch :: run) after ∧
      c.tokens = .run ch run :: after.tokens := by
  obtain ⟨offset, rest⟩ := c
  cases rest with
  | nil => simp [peek] at h
  | cons b tail =>
    obtain rfl : b = ch := by simpa [peek] using h
    refine ⟨tail.takeWhile isNumberChar, Cursor.skipWhile isNumberChar ⟨offset, b :: tail⟩,
      by simp [scanNumber, hch], ⟨?_, ?_, ?_⟩, ?_⟩
    · simp [skipWhile, hch]
    · simp [skipWhile, hch]
    · apply apart_of_head
      intro a ha
      have hnot := List.head?_dropWhile_not isNumberChar (b :: tail)
      simp only [skipWhile, Option.mem_def] at ha
      rwa [ha] at hnot
    · simp [tokens, tokensOf_run tail hch, skipWhile, hch]

/-- Eating a character takes it off if it is the next token, and only skips
spaces otherwise. -/
theorem eat_cases (c : Cursor) (ch : Char) (hch : StandsAlone ch) :
    (∃ before after, c.eat ch = (true, after) ∧ c.Leads (before ++ [ch]) after ∧
      c.tokens = .single ch :: after.tokens) ∨
    (c.eat ch = (false, c.skipSpaces) ∧ c.tokens.head?.map Token.head ≠ some ch) := by
  by_cases hpeek : c.skipSpaces.peek = some ch
  · left
    refine ⟨_, c.skipSpaces.next, by rw [eat, if_pos hpeek],
      (leads_skipSpaces c).trans (leads_next hpeek hch), ?_⟩
    rw [← tokens_skipSpaces, tokens_next hpeek hch]
  · right
    refine ⟨by rw [eat, if_neg hpeek], ?_⟩
    rwa [← tokens_skipSpaces, ← peek_of_settled (settled_skipSpaces c)]

end Abacus.Text.Cursor
