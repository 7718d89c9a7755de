import Abacus.Proofs.Json.Grammar
import Abacus.Proofs.Tokens

/-!
The readers on what the grammar spells. White space, words, colons and numbers are gone over
to their ends. A string that is skipped may hold any escapes; one that is read gives the text
that it stands for, and fails if it stands for none.
-/

namespace Abacus.Json

open Text Cursor

/-- A reader gives what it is asked for and stops in front of the rest, or there is no such
thing and it fails. -/
def Decides {α : Type} (given : α → Prop) (result : Except Failure (Read α))
    (rest : List Char) : Prop :=
  (∃ x after, given x ∧ result = .ok (x, ⟨after, rest⟩)) ∨
    (∀ x, ¬given x) ∧ ∃ failure, result = .error failure

theorem Decides.of_iff {α : Type} {given given' : α → Prop} {result : Except Failure (Read α)}
    {rest : List Char} (h : Decides given result rest) (hiff : ∀ x, given x ↔ given' x) :
    Decides given' result rest := by
  obtain ⟨x, after, hx, hresult⟩ | ⟨hnone, hresult⟩ := h
  · exact .inl ⟨x, after, (hiff x).mp hx, hresult⟩
  · exact .inr ⟨fun x hx => hnone x ((hiff x).mpr hx), hresult⟩

/-- What becomes of the thing that was read. -/
theorem Decides.map {α β : Type} {given : α → Prop} {result : Except Failure (Read α)}
    {rest : List Char} (h : Decides given result rest) (f : α → β) :
    Decides (fun y => ∃ x, given x ∧ y = f x)
      (do
        let (x, c) ← result
        .ok (f x, c)) rest := by
  obtain ⟨x, after, hx, rfl⟩ | ⟨hnone, failure, rfl⟩ := h
  · exact .inl ⟨f x, after, ⟨x, hx, rfl⟩, rfl⟩
  · refine .inr ⟨?_, failure, rfl⟩
    rintro _ ⟨x, hx, -⟩
    exact hnone x hx

section Steps

variable {σ α : Type} {step : σ → Cursor → Except Failure (Read (Next σ α))} {state next : σ}
  {c d : Cursor}

theorem repeatStep_of_done {result : α} (h : step state c = .ok (.done result, d)) :
    repeatStep step state c = .ok (result, d) := by
  rw [repeatStep, h]

theorem repeatStep_of_error {failure : Failure} (h : step state c = .error failure) :
    repeatStep step state c = .error failure := by
  rw [repeatStep, h]

theorem repeatStep_of_more (h : step state c = .ok (.more next, d))
    (hlt : d.rest.length < c.rest.length) :
    repeatStep step state c = repeatStep step next d := by
  rw [repeatStep, h]
  exact if_pos hlt

end Steps

section Runs

variable {p : Char → Bool} {front gap rest : List Char}

theorem peek_cons (ch : Char) (rest : List Char) (offset : Nat) :
    Cursor.peek ⟨offset, ch :: rest⟩ = some ch := rfl

theorem skipWhile_append (hfront : ∀ c ∈ front, p c = true)
    (hrest : ∀ c ∈ rest.head?, p c = false) (offset : Nat) :
    Cursor.skipWhile p ⟨offset, front ++ rest⟩ = ⟨offset + width front, rest⟩ := by
  obtain ⟨htake, hdrop⟩ := takeWhile_append_eq hfront hrest
  rw [Cursor.skipWhile, htake, hdrop]

theorem skipBlanks_append (hgap : Blanks gap) (hrest : ∀ c ∈ rest.head?, isBlank c = false)
    (offset : Nat) : skipBlanks ⟨offset, gap ++ rest⟩ = ⟨offset + width gap, rest⟩ :=
  skipWhile_append hgap hrest offset

theorem skipBlanks_cons {ch : Char} (hgap : Blanks gap) (hch : isBlank ch = false)
    (offset : Nat) : skipBlanks ⟨offset, gap ++ ch :: rest⟩ = ⟨offset + width gap, ch :: rest⟩ :=
  skipBlanks_append hgap (by simp [hch]) offset

theorem digitRun_append (hfront : ∀ c ∈ front, c.isDigit = true)
    (hrest : ∀ c ∈ rest.head?, c.isDigit = false) (offset : Nat) :
    digitRun ⟨offset, front ++ rest⟩ = (front, ⟨offset + width front, rest⟩) := by
  rw [digitRun, skipWhile_append hfront hrest, (takeWhile_append_eq hfront hrest).1]

theorem readWord_append (word : List Char) (offset : Nat) (rest : List Char) :
    readWord word ⟨offset, word ++ rest⟩ = .ok ((), ⟨offset + width word, rest⟩) := by
  induction word generalizing offset with
  | nil => rfl
  | cons letter word ih =>
    have hnext : Cursor.next ⟨offset, letter :: (word ++ rest)⟩ =
        ⟨offset + letter.utf8Size, word ++ rest⟩ := rfl
    rw [List.cons_append, readWord, peek_cons]
    simp only [if_true, hnext, ih, Nat.add_assoc]
    rfl

theorem readColon_append (hgap : Blanks gap) (offset : Nat) :
    readColon ⟨offset, gap ++ ':' :: rest⟩ = .ok ((), ⟨offset + width gap + 1, rest⟩) := by
  have hcolon : isBlank ':' = false := rfl
  simp only [readColon, skipBlanks_cons hgap hcolon]
  rfl

end Runs

section Strings

theorem hexDigit?_char (digit : HexDigit) : hexDigit? digit.char = some digit.value.val := by
  obtain ⟨value, capital⟩ := digit
  revert value capital
  decide

theorem readHex_chars (u : CodeUnit) (offset : Nat) (rest : List Char) :
    readHex ⟨offset, u.chars ++ rest⟩ = .ok (u.value, ⟨offset + 4, rest⟩) := by
  have htake : (u.chars ++ rest).take 4 = u.chars := rfl
  have hdrop : (u.chars ++ rest).drop 4 = rest := rfl
  have hdigits : u.chars.mapM hexDigit? =
      some [u.first.value.val, u.second.value.val, u.third.value.val, u.fourth.value.val] := by
    simp [CodeUnit.chars, hexDigit?_char]
  simp only [readHex, htake, hdrop, hdigits, CodeUnit.value]
  congr 3
  omega

theorem isControl_of_plain {c : Char} (h : 0x20 ≤ c.toNat) : isControl c = false := by
  simpa [isControl] using h

theorem isTrailingSurrogate_iff (u : CodeUnit) :
    isTrailingSurrogate u.value = true ↔ u.Trailing := by
  simp only [isTrailingSurrogate, CodeUnit.Trailing, Bool.and_eq_true, decide_eq_true_eq]
  omega

theorem isLeadingSurrogate_iff (u : CodeUnit) :
    isLeadingSurrogate u.value = true ↔ u.Leading := by
  simp only [isLeadingSurrogate, CodeUnit.Leading, Bool.and_eq_true, decide_eq_true_eq]
  omega

theorem joinSurrogates_value (u v : CodeUnit) : joinSurrogates u.value v.value = u.pair v := by
  rw [joinSurrogates, CodeUnit.pair, Nat.mul_comm]

variable (reversed : List Char) (offset : Nat) (rest : List Char)

/-- A character that is neither a quote nor a backslash stands for itself. -/
theorem readStringStep_plain {c : Char} (h : c ≠ '"' ∧ c ≠ '\\' ∧ 0x20 ≤ c.toNat) :
    readStringStep reversed ⟨offset, c :: rest⟩ =
      .ok (.more (c :: reversed), ⟨offset + c.utf8Size, rest⟩) := by
  obtain ⟨hquote, hbackslash, hplain⟩ := h
  rw [readStringStep, peek_cons]
  split
  · contradiction
  · rename_i heq
    exact absurd (Option.some.inj heq) hquote
  · rename_i heq
    exact absurd (Option.some.inj heq) hbackslash
  · rename_i heq
    obtain rfl := Option.some.inj heq
    simp [isControl_of_plain hplain, Cursor.next]

theorem readEscape_letter (l : Letter) :
    readEscape ⟨offset, l.char :: rest⟩ = .ok (l.meaning, ⟨offset + 1, rest⟩) := by
  cases l <;> rfl

theorem readEscape_unit (u : CodeUnit) :
    readEscape ⟨offset, 'u' :: (u.chars ++ rest)⟩ =
      if u.Trailing then failHere .loneSurrogate ⟨offset + 5, rest⟩
      else if u.Leading then do
        let ((), c) ← readMark '\\' ⟨offset + 5, rest⟩
        let ((), c) ← readMark 'u' c
        let (second, c) ← readHex c
        if isTrailingSurrogate second then .ok (joinSurrogates u.value second, c)
        else failHere .loneSurrogate c
      else .ok (Char.ofNat u.value, ⟨offset + 5, rest⟩) := by
  have hnext : Cursor.next ⟨offset, 'u' :: (u.chars ++ rest)⟩ = ⟨offset + 1, u.chars ++ rest⟩ := rfl
  have hread : readEscape ⟨offset, 'u' :: (u.chars ++ rest)⟩ =
      readCodePoint ⟨offset + 1, u.chars ++ rest⟩ := rfl
  rw [hread, readCodePoint, readHex_chars]
  simp only [bind, Except.bind, isTrailingSurrogate_iff, isLeadingSurrogate_iff]

theorem readEscape_trailing {u : CodeUnit} (hu : u.Trailing) :
    readEscape ⟨offset, 'u' :: (u.chars ++ rest)⟩ = .error ⟨.loneSurrogate, offset + 5⟩ := by
  rw [readEscape_unit, if_pos hu]
  rfl

theorem readEscape_single {u : CodeUnit} (htrailing : ¬u.Trailing) (hleading : ¬u.Leading) :
    readEscape ⟨offset, 'u' :: (u.chars ++ rest)⟩ =
      .ok (Char.ofNat u.value, ⟨offset + 5, rest⟩) := by
  rw [readEscape_unit, if_neg htrailing, if_neg hleading]

theorem readEscape_pair {u v : CodeUnit} (hu : u.Leading) (hv : v.Trailing) :
    readEscape ⟨offset, 'u' :: (u.chars ++ '\\' :: 'u' :: (v.chars ++ rest))⟩ =
      .ok (u.pair v, ⟨offset + 11, rest⟩) := by
  have htrailing : ¬u.Trailing := fun h => absurd hu.2 (not_lt.mpr h.1)
  rw [readEscape_unit, if_neg htrailing, if_pos hu]
  have hbackslash : readMark '\\' ⟨offset + 5, '\\' :: 'u' :: (v.chars ++ rest)⟩ =
      .ok ((), ⟨offset + 6, 'u' :: (v.chars ++ rest)⟩) := rfl
  have hletter : readMark 'u' ⟨offset + 6, 'u' :: (v.chars ++ rest)⟩ =
      .ok ((), ⟨offset + 7, v.chars ++ rest⟩) := rfl
  simp only [hbackslash, hletter, readHex_chars, bind, Except.bind, isTrailingSurrogate_iff,
    if_pos hv, joinSurrogates_value]

/-- Half of a pair is refused unless the other half follows. -/
theorem readEscape_unpaired {u : CodeUnit} {body : Body} (hu : u.Leading)
    (hbody : ∀ v body', body = .unit v :: body' → ¬v.Trailing) :
    ∃ failure, readEscape ⟨offset, 'u' :: (u.chars ++ (body.chars ++ '"' :: rest))⟩ =
      .error failure := by
  have htrailing : ¬u.Trailing := fun h => absurd hu.2 (not_lt.mpr h.1)
  rw [readEscape_unit, if_neg htrailing, if_pos hu]
  cases body with
  | nil => exact ⟨_, rfl⟩
  | cons piece body =>
    cases piece with
    | plain c h =>
      have hmark : readMark '\\' ⟨offset + 5, c :: (Body.chars body ++ '"' :: rest)⟩ =
          failPast .unfinishedSurrogates ⟨offset + 5, c :: (Body.chars body ++ '"' :: rest)⟩ :=
        if_neg h.2.1
      rw [Body.chars_cons, Piece.chars, List.append_assoc, List.singleton_append, hmark]
      exact ⟨_, rfl⟩
    | letter l => cases l <;> exact ⟨_, rfl⟩
    | unit v =>
      have hv : ¬isTrailingSurrogate v.value = true :=
        (isTrailingSurrogate_iff v).not.mpr (hbody v body rfl)
      have hmarks : Body.chars (.unit v :: body) ++ '"' :: rest =
          '\\' :: 'u' :: (v.chars ++ (Body.chars body ++ '"' :: rest)) := by
        rw [Body.chars_cons, List.append_assoc]
        rfl
      have hread := readHex_chars v (offset + 7) (Body.chars body ++ '"' :: rest)
      have hbackslash : readMark '\\'
          ⟨offset + 5, '\\' :: 'u' :: (v.chars ++ (Body.chars body ++ '"' :: rest))⟩ =
          .ok ((), ⟨offset + 6, 'u' :: (v.chars ++ (Body.chars body ++ '"' :: rest))⟩) := rfl
      have hletter : readMark 'u'
          ⟨offset + 6, 'u' :: (v.chars ++ (Body.chars body ++ '"' :: rest))⟩ =
          .ok ((), ⟨offset + 7, v.chars ++ (Body.chars body ++ '"' :: rest)⟩) := rfl
      simp only [hmarks, hbackslash, hletter, hread, bind, Except.bind, if_neg hv]
      exact ⟨_, rfl⟩

theorem readStringStep_escape {ch : Char} {c : Cursor}
    (h : readEscape ⟨offset + 1, rest⟩ = .ok (ch, c)) :
    readStringStep reversed ⟨offset, '\\' :: rest⟩ = .ok (.more (ch :: reversed), c) := by
  have hnext : Cursor.next ⟨offset, '\\' :: rest⟩ = ⟨offset + 1, rest⟩ := rfl
  simp only [readStringStep, peek_cons, hnext, h, bind, Except.bind]

theorem readStringStep_refused {failure : Failure}
    (h : readEscape ⟨offset + 1, rest⟩ = .error failure) :
    readStringStep reversed ⟨offset, '\\' :: rest⟩ = .error failure := by
  have hnext : Cursor.next ⟨offset, '\\' :: rest⟩ = ⟨offset + 1, rest⟩ := rfl
  simp only [readStringStep, peek_cons, hnext, h, bind, Except.bind]

end Strings

section Bodies

/-- Reading ends behind the quote with the meaning, and fails if there is none. -/
def ReadsString (reversed : List Char) (c : Cursor) (meaning : Option (List Char))
    (rest : List Char) : Prop :=
  match meaning with
  | some text => ∃ after, repeatStep readStringStep reversed c =
      .ok (String.ofList (reversed.reverse ++ text), ⟨after, rest⟩)
  | none => ∃ failure, repeatStep readStringStep reversed c = .error failure

variable {reversed rest : List Char} {c d : Cursor}

theorem ReadsString.step {ch : Char} {meaning : Option (List Char)}
    (hstep : readStringStep reversed c = .ok (.more (ch :: reversed), d))
    (hlt : d.rest.length < c.rest.length) (h : ReadsString (ch :: reversed) d meaning rest) :
    ReadsString reversed c (meaning.map (ch :: ·)) rest := by
  cases meaning with
  | none =>
    obtain ⟨failure, hloop⟩ := h
    exact ⟨failure, by rw [repeatStep_of_more hstep hlt, hloop]⟩
  | some text =>
    obtain ⟨after, hloop⟩ := h
    exact ⟨after, by rw [repeatStep_of_more hstep hlt, hloop]; simp⟩

theorem ReadsString.refused {failure : Failure}
    (hstep : readStringStep reversed c = .error failure) : ReadsString reversed c none rest :=
  ⟨failure, repeatStep_of_error hstep⟩

/-- The loop goes over the pieces as the decoding does. -/
theorem readsString_body (body : Body) (reversed rest : List Char) (offset : Nat) :
    ReadsString reversed ⟨offset, body.chars ++ '"' :: rest⟩ body.decode? rest := by
  fun_induction Body.decode? body generalizing reversed offset with
  | case1 =>
    have hdone : readStringStep reversed ⟨offset, '"' :: rest⟩ =
        .ok (.done (String.ofList reversed.reverse), ⟨offset + 1, rest⟩) := rfl
    refine ⟨offset + 1, ?_⟩
    rw [List.append_nil]
    exact repeatStep_of_done hdone
  | case2 ch h body ih =>
    rw [Body.chars_cons, List.append_assoc]
    exact (ih _ _).step (readStringStep_plain _ _ _ h) (by simp [Piece.chars])
  | case3 l body ih =>
    have hpiece : (Piece.letter l).chars ++ (Body.chars body ++ '"' :: rest) =
        '\\' :: l.char :: (Body.chars body ++ '"' :: rest) := rfl
    rw [Body.chars_cons, List.append_assoc, hpiece]
    exact (ih _ _).step (readStringStep_escape _ _ _ (readEscape_letter _ _ l))
      (by simp only [List.length_cons]; omega)
  | case4 u body htrailing =>
    rw [Body.chars_cons, List.append_assoc]
    exact .refused (readStringStep_refused _ _ _ (readEscape_trailing _ _ htrailing))
  | case5 u htrailing hleading v body hv ih =>
    rw [Body.chars_cons, Body.chars_cons, List.append_assoc, List.append_assoc]
    exact (ih _ _).step (readStringStep_escape _ _ _ (readEscape_pair _ _ hleading hv))
      (by simp only [Piece.chars, List.cons_append, List.length_cons, List.length_append]; omega)
  | case6 u htrailing hleading v body hv =>
    rw [Body.chars_cons, List.append_assoc]
    have hbody : ∀ w body', Piece.unit v :: body = .unit w :: body' → ¬w.Trailing := by
      intro w body' h
      obtain rfl : v = w := by simpa using (List.cons.inj h).1
      exact hv
    obtain ⟨failure, hfail⟩ := readEscape_unpaired (offset + 1) rest hleading hbody
    exact .refused (readStringStep_refused _ _ _ hfail)
  | case7 u body htrailing hleading hbody =>
    rw [Body.chars_cons, List.append_assoc]
    obtain ⟨failure, hfail⟩ := readEscape_unpaired (offset + 1) rest hleading
      fun v body' h => (hbody v body' h).elim
    exact .refused (readStringStep_refused _ _ _ hfail)
  | case8 u body htrailing hleading ih =>
    rw [Body.chars_cons, List.append_assoc]
    exact (ih _ _).step
      (readStringStep_escape _ _ _ (readEscape_single _ _ htrailing hleading))
      (by simp only [Piece.chars, List.cons_append, List.length_cons, List.length_append]; omega)

variable (body : Body) (offset : Nat) (rest : List Char)

/-- A string is read as the text that it stands for, if there is one. -/
theorem readString_decides :
    Decides body.Means (readString ⟨offset, body.chars ++ '"' :: rest⟩) rest := by
  have hreads := readsString_body body [] rest offset
  cases hdecode : body.decode? with
  | none =>
    rw [hdecode] at hreads
    exact .inr ⟨fun text h => by simp [Body.Means, hdecode] at h, hreads⟩
  | some text =>
    rw [hdecode] at hreads
    obtain ⟨after, hread⟩ := hreads
    exact .inl ⟨String.ofList text, after, by simp [Body.Means, hdecode], hread⟩

theorem readString_of_means {text : String} (h : body.Means text) :
    ∃ after, readString ⟨offset, body.chars ++ '"' :: rest⟩ = .ok (text, ⟨after, rest⟩) := by
  obtain ⟨text', after, h', hread⟩ | ⟨hnone, -⟩ := readString_decides body offset rest
  · have htext : some text.toList = some text'.toList := h.symm.trans h'
    obtain rfl : text = text' := String.toList_inj.mp (Option.some.inj htext)
    exact ⟨after, hread⟩
  · exact absurd h (hnone text)

theorem skipStringStep_piece (piece : Piece) :
    ∃ after, skipStringStep () ⟨offset, piece.chars ++ rest⟩ =
      .ok (.more (), ⟨after, rest⟩) := by
  cases piece with
  | plain c h =>
    obtain ⟨hquote, hbackslash, hplain⟩ := h
    refine ⟨offset + c.utf8Size, ?_⟩
    rw [Piece.chars, List.singleton_append, skipStringStep, peek_cons]
    split
    · contradiction
    · rename_i heq
      exact absurd (Option.some.inj heq) hquote
    · rename_i heq
      exact absurd (Option.some.inj heq) hbackslash
    · rename_i heq
      obtain rfl := Option.some.inj heq
      rw [isControl_of_plain hplain]
      rfl
  | letter l => cases l <;> exact ⟨_, rfl⟩
  | unit u =>
    have hnext : Cursor.next ⟨offset, '\\' :: 'u' :: (u.chars ++ rest)⟩ =
        ⟨offset + 1, 'u' :: (u.chars ++ rest)⟩ := rfl
    have hescape : skipEscape ⟨offset + 1, 'u' :: (u.chars ++ rest)⟩ =
        .ok ((), ⟨offset + 6, rest⟩) := by
      have hhex := readHex_chars u (offset + 2) rest
      have hnext : Cursor.next ⟨offset + 1, 'u' :: (u.chars ++ rest)⟩ =
          ⟨offset + 2, u.chars ++ rest⟩ := rfl
      simp only [skipEscape, peek_cons, hnext, hhex, bind, Except.bind]
    refine ⟨offset + 6, ?_⟩
    simp only [Piece.chars, List.cons_append, skipStringStep, peek_cons, hnext, hescape, bind,
      Except.bind]

/-- A string is skipped whatever escapes it holds. -/
theorem skipString_body :
    ∃ after, skipString ⟨offset, body.chars ++ '"' :: rest⟩ = .ok ((), ⟨after, rest⟩) := by
  induction body generalizing offset with
  | nil =>
    have hdone : skipStringStep () ⟨offset, '"' :: rest⟩ =
        .ok (.done (), ⟨offset + 1, rest⟩) := rfl
    exact ⟨offset + 1, repeatStep_of_done hdone⟩
  | cons piece body ih =>
    obtain ⟨between, hstep⟩ := skipStringStep_piece offset (Body.chars body ++ '"' :: rest) piece
    obtain ⟨after, hskip⟩ := ih between
    have hlt : (Body.chars body ++ '"' :: rest).length <
        (piece.chars ++ (Body.chars body ++ '"' :: rest)).length := by
      have hpos : 0 < piece.chars.length := by cases piece <;> exact Nat.succ_pos _
      simp only [List.length_append]
      omega
    rw [Body.chars_cons, List.append_assoc, skipString, repeatStep_of_more hstep hlt]
    exact ⟨after, hskip⟩

end Bodies

section Numbers

/-- What can stand behind a value: white space, a comma or a closing bracket. -/
def Ends (rest : List Char) : Prop :=
  ∀ c ∈ rest.head?, isBlank c = true ∨ c = ',' ∨ c = ']' ∨ c = '\x7d'

variable {rest : List Char}

/-- None of these characters goes on with a number. -/
theorem Ends.not_number (h : Ends rest) :
    ∀ c ∈ rest.head?, c.isDigit = false ∧ c ≠ '.' ∧ c ≠ 'e' ∧ c ≠ 'E' := by
  intro c hc
  rcases h c hc with hblank | rfl | rfl | rfl
  · simp only [isBlank, Bool.or_eq_true, beq_iff_eq] at hblank
    rcases hblank with ((rfl | rfl) | rfl) | rfl <;> decide
  all_goals decide

theorem skipExponent_chars (hrest : Ends rest) (k : Exponent) (offset : Nat) :
    ∃ after, skipExponent ⟨offset, Exponent.signChars k.sign ++ (k.digits ++ rest)⟩ =
      .ok ((), ⟨after, rest⟩) := by
  have hrun := digitRun_append k.isDigit fun c hc => (hrest.not_number c hc).1
  have hnonempty : k.digits.isEmpty = false := by simp [k.digits_ne_nil]
  have hsign : ∃ between, (exponentSign ⟨offset, Exponent.signChars k.sign ++
      (k.digits ++ rest)⟩).2 = ⟨between, k.digits ++ rest⟩ := by
    cases k.sign with
    | some down => cases down <;> exact ⟨offset + 1, rfl⟩
    | none =>
      obtain ⟨d, digits, hdigits⟩ := List.exists_cons_of_ne_nil k.digits_ne_nil
      have hd : d.isDigit = true := k.isDigit d (by simp [hdigits])
      refine ⟨offset, ?_⟩
      rw [hdigits, exponentSign]
      split
      · rename_i hpeek
        obtain rfl : d = '-' := by simpa [Cursor.peek, Exponent.signChars] using hpeek
        contradiction
      · rename_i hpeek
        obtain rfl : d = '+' := by simpa [Cursor.peek, Exponent.signChars] using hpeek
        contradiction
      · rfl
  obtain ⟨between, hsign⟩ := hsign
  exact ⟨between + width k.digits, by simp [skipExponent, hsign, hrun, hnonempty]⟩

/-- What is left of a number behind its digits. -/
theorem skipExponent_optional (hrest : Ends rest) (k : Option Exponent) (offset : Nat) :
    let c : Cursor := ⟨offset, Numeral.exponentChars k ++ rest⟩
    ∃ after, (if hasExponentMark c then skipExponent c.next else .ok ((), c)) =
      .ok ((), ⟨after, rest⟩) := by
  intro c
  cases k with
  | none =>
    have hmark : hasExponentMark c = false := by
      cases hpeek : rest.head? with
      | none => simp [hasExponentMark, c, Numeral.exponentChars, Cursor.peek, hpeek]
      | some ch =>
        have hch := hrest.not_number ch (by simp [hpeek])
        simp [hasExponentMark, c, Numeral.exponentChars, Cursor.peek, hpeek, hch]
    exact ⟨offset, by rw [hmark]; rfl⟩
  | some k =>
    obtain ⟨after, hskip⟩ := skipExponent_chars hrest k (offset + 1)
    have hchars : Numeral.exponentChars (some k) ++ rest =
        (if k.capital then 'E' else 'e') ::
          (Exponent.signChars k.sign ++ (k.digits ++ rest)) := by
      simp [Numeral.exponentChars, Exponent.chars]
    refine ⟨after, ?_⟩
    cases hcapital : k.capital
    all_goals
      simp only [hcapital] at hchars
      simp only [c, hchars]
      exact hskip

theorem head_exponentChars (hrest : Ends rest) (k : Option Exponent) :
    ∀ c ∈ (Numeral.exponentChars k ++ rest).head?, c.isDigit = false ∧ c ≠ '.' := by
  cases k with
  | none => exact fun c hc => ⟨(hrest.not_number c hc).1, (hrest.not_number c hc).2.1⟩
  | some k =>
    intro c hc
    have hc : (if k.capital then 'E' else 'e') = c := by
      simpa [Numeral.exponentChars, Exponent.chars] using hc
    subst hc
    split <;> decide

theorem skipNumber_of_digitRun {digits : List Char} {c after : Cursor}
    (hrun : digitRun c = (digits, after)) (hne : digits ≠ [])
    (hzero : digits.head? = some '0' → digits = ['0']) :
    skipNumber c =
      if after.peek = some '.' then skipFraction after.next
      else if hasExponentMark after then skipExponent after.next
      else .ok ((), after) := by
  simp only [skipNumber, hrun]
  split
  · exact absurd rfl hne
  · have hsingle := hzero rfl
    simp at hsingle
  · rfl

/-- What is left of a number behind the digits in front of its dot. -/
theorem skipFraction_optional (hrest : Ends rest) (k : Option Exponent) {fraction : List Char}
    (hdigits : ∀ c ∈ fraction, c.isDigit = true) (offset : Nat) :
    let c : Cursor :=
      ⟨offset, Numeral.fractionChars fraction ++ (Numeral.exponentChars k ++ rest)⟩
    ∃ after, (if c.peek = some '.' then skipFraction c.next
      else if hasExponentMark c then skipExponent c.next else .ok ((), c)) =
        .ok ((), ⟨after, rest⟩) := by
  intro c
  have hbehind := head_exponentChars hrest k
  cases fraction with
  | nil =>
    have hpeek : c.peek ≠ some '.' := fun h => (hbehind '.' h).2 rfl
    rw [if_neg hpeek]
    exact skipExponent_optional hrest k offset
  | cons d digits =>
    have hpeek : c.peek = some '.' := rfl
    have hnext : c.next = ⟨offset + 1, d :: digits ++ (Numeral.exponentChars k ++ rest)⟩ := rfl
    have hrun := digitRun_append hdigits (fun c hc => (hbehind c hc).1) (offset + 1)
    obtain ⟨after, hskip⟩ := skipExponent_optional hrest k (offset + 1 + width (d :: digits))
    refine ⟨after, ?_⟩
    rw [if_pos hpeek, hnext]
    simp only [skipFraction, hrun]
    exact hskip

theorem skipNumber_unsigned (hrest : Ends rest) (n : Numeral) (offset : Nat) :
    ∃ after, skipNumber ⟨offset, n.unsigned ++ rest⟩ = .ok ((), ⟨after, rest⟩) := by
  have hwhole : ∀ c ∈ n.whole, c.isDigit = true :=
    fun c hc => n.isDigit c (List.mem_append_left _ hc)
  have hfraction : ∀ c ∈ n.fraction, c.isDigit = true :=
    fun c hc => n.isDigit c (List.mem_append_right _ hc)
  have hbehind : ∀ c ∈ (Numeral.fractionChars n.fraction ++
      (Numeral.exponentChars n.exponent ++ rest)).head?, c.isDigit = false := by
    intro c hc
    cases hcases : n.fraction with
    | nil =>
      rw [hcases] at hc
      exact (head_exponentChars hrest n.exponent c hc).1
    | cons d digits =>
      obtain rfl : '.' = c := by simpa [hcases, Numeral.fractionChars] using hc
      rfl
  have hrun := digitRun_append hwhole hbehind offset
  rw [Numeral.unsigned, List.append_assoc, List.append_assoc,
    skipNumber_of_digitRun hrun n.whole_ne_nil n.zero_alone]
  exact skipFraction_optional hrest n.exponent hfraction _

end Numbers

end Abacus.Json
