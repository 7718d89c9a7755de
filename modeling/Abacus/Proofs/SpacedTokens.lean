import Mathlib.Data.List.TakeWhile
import Abacus.Proofs.Tokens

/-!
Writing tokens with spaces. Every text consists of its own tokens and spaces. In
the other direction, tokens are read back from every text that spaces them out,
if no run among them touches another one.
-/

namespace Abacus.Text

/-- The text consists of the tokens with any number of spaces before, between
and after them. -/
inductive Spaced : List Token → List Char → Prop where
  | nil (n : Nat) : Spaced [] (List.replicate n ' ')
  | cons (n : Nat) (t : Token) {ts : List Token} {text : List Char} (h : Spaced ts text) :
      Spaced (t :: ts) (List.replicate n ' ' ++ (t.chars ++ text))

namespace Spaced

variable {ts : List Token} {text : List Char}

theorem space (h : Spaced ts text) : Spaced ts (' ' :: text) := by
  cases h with
  | nil n => exact .nil (n + 1)
  | cons n t h => exact .cons (n + 1) t h

theorem token (t : Token) (h : Spaced ts text) : Spaced (t :: ts) (t.chars ++ text) :=
  .cons 0 t h

theorem head_cases (h : Spaced ts text) {c : Char} (hc : c ∈ text.head?) :
    c = ' ' ∨ ∃ t ∈ ts.head?, c = t.head := by
  cases h with
  | nil n =>
    left
    exact List.eq_of_mem_replicate (List.mem_of_mem_head? hc)
  | cons n t h =>
    cases n with
    | zero =>
      right
      refine ⟨t, rfl, ?_⟩
      cases t <;> simpa [Token.chars, Token.head] using hc.symm
    | succ n =>
      left
      simpa [List.replicate_succ] using hc.symm

end Spaced

/-- Every text consists of its tokens. -/
theorem spaced_tokensOf (text : List Char) : Spaced (tokensOf text) text := by
  rw [tokensOf]
  fun_induction lexemesFrom 0 text with
  | case1 => exact .nil 0
  | case2 offset rest ih => exact ih.space
  | case3 offset c rest hspace hnumber ih =>
    have hchars : c :: rest =
        Token.chars (.run c (rest.takeWhile isNumberChar)) ++ rest.dropWhile isNumberChar := by
      simp only [Token.chars, List.cons_append, List.takeWhile_append_dropWhile]
    rw [hchars]
    exact ih.token _
  | case4 offset c rest hspace hnumber ih => exact ih.token (.single c)

/-- Tokens that stay apart without spaces: no run stands behind a run. -/
def Separated : List Token → Prop
  | [] => True
  | .run first rest :: ts =>
    (∀ c ∈ first :: rest, isNumberChar c = true) ∧
      (∀ t ∈ ts.head?, isNumberChar t.head = false) ∧ Separated ts
  | .single c :: ts => StandsAlone c ∧ Separated ts

theorem tokensOf_replicate_append (n : Nat) (text : List Char) :
    tokensOf (List.replicate n ' ' ++ text) = tokensOf text := by
  induction n with
  | zero => rfl
  | succ n ih => rw [List.replicate_succ, List.cons_append, tokensOf_space, ih]

/-- Such tokens are the tokens of the text, however they are spaced. -/
theorem Spaced.tokensOf_eq {ts : List Token} {text : List Char} (h : Spaced ts text)
    (hts : Separated ts) : tokensOf text = ts := by
  induction h with
  | nil n =>
    have hspaces := tokensOf_replicate_append n []
    rwa [List.append_nil, tokensOf_nil] at hspaces
  | @cons n t ts text h ih =>
    rw [tokensOf_replicate_append]
    cases t with
    | run first rest =>
      obtain ⟨hnumber, hnext, hts⟩ := hts
      have htext : ∀ b ∈ text.head?, isNumberChar b = false := by
        intro b hb
        rcases h.head_cases hb with rfl | ⟨t, ht, rfl⟩
        · decide
        · exact hnext t ht
      have hrun : tokensOf (first :: rest) = [.run first rest] := by
        have hrest : ∀ c ∈ rest, isNumberChar c = true :=
          fun c hc => hnumber c (List.mem_cons_of_mem _ hc)
        rw [tokensOf_run _ (hnumber first List.mem_cons_self),
          List.takeWhile_eq_self_iff.mpr hrest, List.dropWhile_eq_nil_iff.mpr hrest, tokensOf_nil]
      rw [Token.chars, tokensOf_append (apart_of_head htext), hrun, ih hts]
      rfl
    | single c =>
      obtain ⟨hc, hts⟩ := hts
      rw [Token.chars, List.singleton_append, tokensOf_single _ hc, ih hts]

end Abacus.Text
