import Abacus.Proofs.Json.Reading

/-!
Values that are skipped. From the first character of a value, with any brackets open around
it, the loop comes to the end of the value and goes on there as if nothing had been in
between. The induction is on the derivation of the value's text, so there is no bound on how
deep lists and objects are nested.
-/

namespace Abacus.Json

open Text Cursor

/-- The first character of a value tells its kind. -/
def Value.StartsWith : Value → Char → Prop
  | null, c => c = 'n'
  | boolean true, c => c = 't'
  | boolean false, c => c = 'f'
  | number _, c => c = '-' ∨ c.isDigit = true
  | string _, c => c = '"'
  | list _, c => c = '['
  | object _, c => c = '\x7b'

theorem Value.StartsWith.standsApart {v : Value} {c : Char} (h : v.StartsWith c) :
    isBlank c = false ∧ c ≠ ',' ∧ c ≠ ']' ∧ c ≠ '\x7d' := by
  have hdigit : c.isDigit = true → isBlank c = false ∧ c ≠ ',' ∧ c ≠ ']' ∧ c ≠ '\x7d' := by
    intro hdigit
    refine ⟨?_, ?_, ?_, ?_⟩
    · by_contra hblank
      simp only [isBlank, Bool.not_eq_false, Bool.or_eq_true, beq_iff_eq] at hblank
      rcases hblank with ((rfl | rfl) | rfl) | rfl <;> contradiction
    all_goals
      rintro rfl
      contradiction
  cases v with
  | number n =>
    rcases h with rfl | h
    · decide
    · exact hdigit h
  | boolean value => cases value <;> (obtain rfl := h; decide)
  | _ => obtain rfl := h; decide

/-- A number starts with its sign or a digit. -/
theorem Value.StartsWith.number_ne {n : Numeral} {c d : Char} (h : (number n).StartsWith c)
    (hminus : d ≠ '-') (hdigit : d.isDigit = false) : c ≠ d := by
  rintro rfl
  rcases h with h | h
  · exact hminus h
  · rw [hdigit] at h
    contradiction

theorem Spells.startsWith {v : Value} {chars : List Char} (h : Spells v chars) :
    ∃ first behind, chars = first :: behind ∧ v.StartsWith first := by
  cases h with
  | number n =>
    obtain ⟨negative, whole, fraction, exponent, hwhole, hdigits, hzero⟩ := n
    cases negative with
    | true => exact ⟨'-', _, rfl, .inl rfl⟩
    | false =>
      obtain ⟨first, behind, rfl⟩ := List.exists_cons_of_ne_nil hwhole
      exact ⟨first, _, rfl, .inr (hdigits first (by simp))⟩
  | boolean value => cases value <;> exact ⟨_, _, rfl, rfl⟩
  | _ => exact ⟨_, _, rfl, rfl⟩

theorem SpellsItems.startsWith {items : List Value} {chars : List Char}
    (h : SpellsItems items chars) :
    ∃ first behind, chars = first :: behind ∧ isBlank first = false ∧ first ≠ ']' := by
  cases h with
  | last h =>
    obtain ⟨first, behind, rfl, hfirst⟩ := h.startsWith
    exact ⟨first, behind, rfl, hfirst.standsApart.1, hfirst.standsApart.2.2.1⟩
  | more h =>
    obtain ⟨first, behind, rfl, hfirst⟩ := h.startsWith
    exact ⟨first, _, rfl, hfirst.standsApart.1, hfirst.standsApart.2.2.1⟩

theorem SpellsKey.startsWith {key : Body} {label : List Char} (h : SpellsKey key label) :
    ∃ behind, label = '"' :: behind := by
  cases h
  exact ⟨_, rfl⟩

theorem SpellsMembers.startsWith {members : List (Body × Value)} {chars : List Char}
    (h : SpellsMembers members chars) : ∃ behind, chars = '"' :: behind := by
  cases h with
  | last hkey | more hkey =>
    obtain ⟨behind, rfl⟩ := hkey.startsWith
    exact ⟨_, rfl⟩

section Scalars

variable {rest : List Char} (offset : Nat)

theorem skipScalar_null :
    ∃ after, skipScalar ⟨offset, "null".toList ++ rest⟩ = .ok ((), ⟨after, rest⟩) :=
  ⟨_, readWord_append "ull".toList (offset + 1) rest⟩

theorem skipScalar_boolean (value : Bool) :
    ∃ after, skipScalar ⟨offset, (toString value).toList ++ rest⟩ = .ok ((), ⟨after, rest⟩) := by
  cases value with
  | true => exact ⟨_, readWord_append "rue".toList (offset + 1) rest⟩
  | false => exact ⟨_, readWord_append "alse".toList (offset + 1) rest⟩

theorem skipScalar_string (body : Body) :
    ∃ after, skipScalar ⟨offset, body.quoted ++ rest⟩ = .ok ((), ⟨after, rest⟩) := by
  obtain ⟨after, hskip⟩ := skipString_body body (offset + 1) rest
  refine ⟨after, ?_⟩
  rw [Body.quoted, List.cons_append, List.append_assoc]
  exact hskip

theorem skipScalar_of_isDigit {c : Cursor} {d : Char} (hpeek : c.peek = some d)
    (hd : d.isDigit = true) : skipScalar c = skipNumber c := by
  simp only [skipScalar, hpeek]
  split
  all_goals rename_i heq
  case h_6 =>
    obtain rfl := Option.some.inj heq
    rw [if_pos hd]
  case h_7 => contradiction
  all_goals
    obtain rfl := Option.some.inj heq
    contradiction

theorem skipScalar_number (hrest : Ends rest) (n : Numeral) :
    ∃ after, skipScalar ⟨offset, n.chars ++ rest⟩ = .ok ((), ⟨after, rest⟩) := by
  rw [Numeral.chars]
  split
  · exact skipNumber_unsigned hrest n (offset + 1)
  · obtain ⟨first, behind, hwhole⟩ := List.exists_cons_of_ne_nil n.whole_ne_nil
    have hdigit : first.isDigit = true := n.isDigit first (by simp [hwhole])
    have hpeek : Cursor.peek ⟨offset, n.unsigned ++ rest⟩ = some first := by
      simp [Cursor.peek, Numeral.unsigned, hwhole]
    rw [skipScalar_of_isDigit hpeek hdigit]
    exact skipNumber_unsigned hrest n offset

end Scalars

section Loop

/-- What the loop does at the end of a value. -/
def proceed (enclosing : List Bracket) (c : Cursor) : Except Failure (Read Unit) :=
  match skipClosings enclosing c with
  | .error failure => .error failure
  | .ok (.done (), after) => .ok ((), after)
  | .ok (.more state, after) => repeatStep skipValueStep state after

/-- Behind a value, the loop does not come to a place further in front. -/
def Forward (enclosing : List Bracket) (rest : List Char) : Prop :=
  ∀ offset next after, skipClosings enclosing ⟨offset, rest⟩ = .ok (next, after) →
    after.rest.length ≤ rest.length

variable {enclosing : List Bracket} {c : Cursor} {rest : List Char} {offset : Nat}

theorem forward_nil (rest : List Char) : Forward [] rest := by
  intro offset next after h
  obtain ⟨-, rfl⟩ := Prod.mk.inj (Except.ok.inj h)
  exact le_rfl

theorem repeatStep_of_skipClosings (hforward : Forward enclosing rest)
    (hlt : rest.length < c.rest.length)
    (hstep : skipValueStep enclosing c = skipClosings enclosing ⟨offset, rest⟩) :
    repeatStep skipValueStep enclosing c = proceed enclosing ⟨offset, rest⟩ := by
  rw [proceed]
  split
  · rename_i hclosings
    exact repeatStep_of_error (hstep.trans hclosings)
  · rename_i hclosings
    exact repeatStep_of_done (hstep.trans hclosings)
  · rename_i state after hclosings
    exact repeatStep_of_more (hstep.trans hclosings) ((hforward _ _ _ hclosings).trans_lt hlt)

end Loop

section Parts

/-- What stands in front of a value in a list or an object. -/
inductive Labels : Bracket → List Char → Prop
  | list : Labels .list []
  | object {key : Body} {label gap : List Char} (hkey : SpellsKey key label)
      (hgap : Blanks gap) : Labels .object (label ++ gap)

def Bracket.opening : Bracket → Char
  | list => '['
  | object => '\x7b'

/-- The loop comes past the value. -/
structure SkipsValue (chars : List Char) : Prop where
  comesPast : ∀ {enclosing : List Bracket} {gap rest : List Char} (offset : Nat), Blanks gap →
    Ends rest → Forward enclosing rest → ∃ after,
      repeatStep skipValueStep enclosing ⟨offset, gap ++ (chars ++ rest)⟩ =
        proceed enclosing ⟨after, rest⟩

/-- The loop comes past the values inside a bracket, and past the end of the bracket. -/
structure SkipsItems (bracket : Bracket) (chars : List Char) : Prop where
  comesPast : ∀ {enclosing : List Bracket} {before after rest : List Char} (offset : Nat),
    Blanks before → Blanks after → Forward enclosing rest → ∃ first last,
      skipKey bracket ⟨offset, before ++ (chars ++ (after ++ bracket.closing :: rest))⟩ =
        .ok ((), first) ∧
      first.rest.length ≤ (before ++ (chars ++ (after ++ bracket.closing :: rest))).length ∧
      repeatStep skipValueStep (bracket :: enclosing) first = proceed enclosing ⟨last, rest⟩

variable {bracket : Bracket} {enclosing : List Bracket}
  {chars label gap before after rest : List Char}

theorem Bracket.closing_standsApart (bracket : Bracket) :
    isBlank bracket.closing = false ∧ bracket.closing ≠ ',' := by
  cases bracket <;> decide

theorem ends_closing (hgap : Blanks gap) (bracket : Bracket) (rest : List Char) :
    Ends (gap ++ bracket.closing :: rest) := by
  intro c hc
  cases gap with
  | nil =>
    obtain rfl : bracket.closing = c := by simpa using hc
    cases bracket <;> simp [Bracket.closing]
  | cons d gap =>
    obtain rfl : d = c := by simpa using hc
    exact .inl (hgap d List.mem_cons_self)

theorem ends_comma (hgap : Blanks gap) (rest : List Char) : Ends (gap ++ ',' :: rest) := by
  intro c hc
  cases gap with
  | nil =>
    obtain rfl : ',' = c := by simpa using hc
    exact .inr (.inl rfl)
  | cons d gap =>
    obtain rfl : d = c := by simpa using hc
    exact .inl (hgap d List.mem_cons_self)

theorem skipKey_of_quote {c between : Cursor} {offset : Nat} {text : List Char}
    (hblanks : skipBlanks c = ⟨offset, '"' :: text⟩)
    (hstring : skipString ⟨offset + 1, text⟩ = .ok ((), between)) :
    skipKey .object c = readColon between := by
  have hnext : Cursor.next ⟨offset, '"' :: text⟩ = ⟨offset + 1, text⟩ := rfl
  simp only [skipKey, hblanks, peek_cons, hnext, hstring, bind, Except.bind]

theorem skipKey_label (hlabel : Labels bracket label) (hgap : Blanks gap) (offset : Nat) :
    ∃ after front, skipKey bracket ⟨offset, gap ++ (label ++ rest)⟩ =
      .ok ((), ⟨after, front ++ rest⟩) ∧ Blanks front ∧
        (front ++ rest).length ≤ (gap ++ (label ++ rest)).length := by
  cases hlabel with
  | list => exact ⟨offset, gap, rfl, hgap, le_rfl⟩
  | @object key label front hkey hfront =>
    obtain @⟨inner, _, hinner⟩ := hkey
    have hquote : isBlank '"' = false := rfl
    obtain ⟨between, hstring⟩ := skipString_body key (offset + width gap + 1)
      (inner ++ ':' :: (front ++ rest))
    refine ⟨between + width inner + 1, front, ?_, hfront, ?_⟩
    · simp only [Body.quoted, List.cons_append, List.append_assoc, List.nil_append]
      rw [skipKey_of_quote (skipBlanks_cons hgap hquote offset) hstring]
      exact readColon_append hinner between
    · simp only [List.length_append]
      omega

theorem skipClosings_closing (hgap : Blanks gap) (offset : Nat) :
    skipClosings (bracket :: enclosing) ⟨offset, gap ++ bracket.closing :: rest⟩ =
      skipClosings enclosing ⟨offset + width gap + 1, rest⟩ := by
  obtain ⟨hclosing, hcomma⟩ := bracket.closing_standsApart
  have hnext : Cursor.next ⟨offset + width gap, bracket.closing :: rest⟩ =
      ⟨offset + width gap + 1, rest⟩ := by cases bracket <;> rfl
  simp only [skipClosings, skipBlanks_cons hgap hclosing, peek_cons, hnext, Option.some.injEq,
    if_neg hcomma, if_true]

theorem skipClosings_comma {first : Cursor} (hgap : Blanks gap) {offset : Nat}
    (hkey : skipKey bracket ⟨offset + width gap + 1, rest⟩ = .ok ((), first)) :
    skipClosings (bracket :: enclosing) ⟨offset, gap ++ ',' :: rest⟩ =
      .ok (.more (bracket :: enclosing), first) := by
  have hcomma : isBlank ',' = false := rfl
  have hnext : Cursor.next ⟨offset + width gap, ',' :: rest⟩ =
      ⟨offset + width gap + 1, rest⟩ := rfl
  simp only [skipClosings, skipBlanks_cons hgap hcomma, peek_cons, hnext, hkey, if_true, bind,
    Except.bind]

theorem forward_closing (hgap : Blanks gap) (h : Forward enclosing rest) :
    Forward (bracket :: enclosing) (gap ++ bracket.closing :: rest) := by
  intro offset next after hclosings
  rw [skipClosings_closing hgap] at hclosings
  have hle := h _ _ _ hclosings
  simp only [List.length_append, List.length_cons]
  omega

theorem proceed_closing (hgap : Blanks gap) (offset : Nat) :
    proceed (bracket :: enclosing) ⟨offset, gap ++ bracket.closing :: rest⟩ =
      proceed enclosing ⟨offset + width gap + 1, rest⟩ := by
  rw [proceed, skipClosings_closing hgap]
  rfl

theorem SkipsItems.last (hlabel : Labels bracket label) (h : SkipsValue chars) :
    SkipsItems bracket (label ++ chars) := by
  constructor
  intro enclosing before after rest offset hbefore hafter hforward
  rw [List.append_assoc]
  obtain ⟨between, front, hkey, hfront, hle⟩ := skipKey_label hlabel hbefore offset
  obtain ⟨last, hvalue⟩ := h.comesPast between hfront (ends_closing hafter bracket rest)
    (forward_closing hafter hforward)
  rw [proceed_closing hafter] at hvalue
  exact ⟨_, _, hkey, hle, hvalue⟩

theorem SkipsItems.more (hlabel : Labels bracket label) (h : SkipsValue chars)
    (hbefore : Blanks before) (hafter : Blanks after) {items : List Char}
    (hitems : SkipsItems bracket items) :
    SkipsItems bracket (label ++ (chars ++ (before ++ ',' :: (after ++ items)))) := by
  constructor
  intro enclosing gap last rest offset hblanks hlast hforward
  simp only [List.append_assoc, List.cons_append]
  obtain ⟨between, front, hkey, hfront, hle⟩ := skipKey_label hlabel hblanks offset
  have hforward' : Forward (bracket :: enclosing)
      (before ++ ',' :: (after ++ (items ++ (last ++ bracket.closing :: rest)))) := by
    intro offset next behind hclosings
    obtain ⟨first, -, hkey, hle, -⟩ :=
      hitems.comesPast (offset + width before + 1) hafter hlast hforward
    rw [skipClosings_comma hbefore hkey] at hclosings
    obtain ⟨-, rfl⟩ := Prod.mk.inj (Except.ok.inj hclosings)
    rw [List.length_append, List.length_cons]
    omega
  obtain ⟨behind, hvalue⟩ := h.comesPast between hfront (ends_comma hbefore _) hforward'
  obtain ⟨first, stop, hkey', -, hloop⟩ :=
    hitems.comesPast (behind + width before + 1) hafter hlast hforward
  refine ⟨_, stop, hkey, hle, ?_⟩
  rw [hvalue, proceed, skipClosings_comma hbefore hkey']
  exact hloop

theorem skipValueStep_opening (hgap : Blanks gap) (offset : Nat) :
    skipValueStep enclosing ⟨offset, gap ++ bracket.opening :: rest⟩ =
      skipOpening bracket enclosing ⟨offset + width gap + 1, rest⟩ := by
  have hopening : isBlank bracket.opening = false := by cases bracket <;> rfl
  simp only [skipValueStep, skipBlanks_cons hgap hopening]
  cases bracket <;> rfl

theorem skipValueStep_scalar {first : Char} (hgap : Blanks gap) (hfirst : isBlank first = false)
    (hopening : first ≠ '[' ∧ first ≠ '\x7b') {after : Cursor} {offset : Nat}
    (h : skipScalar ⟨offset + width gap, first :: rest⟩ = .ok ((), after)) :
    skipValueStep enclosing ⟨offset, gap ++ first :: rest⟩ = skipClosings enclosing after := by
  simp only [skipValueStep, skipBlanks_cons hgap hfirst, peek_cons]
  split
  · rename_i heq
    exact absurd (Option.some.inj heq) hopening.1
  · rename_i heq
    exact absurd (Option.some.inj heq) hopening.2
  · simp only [h, bind, Except.bind]

theorem SkipsValue.scalar {first : Char} {behind : List Char} (hfirst : isBlank first = false)
    (hopening : first ≠ '[' ∧ first ≠ '\x7b')
    (h : ∀ rest offset, Ends rest → ∃ after,
      skipScalar ⟨offset, first :: behind ++ rest⟩ = .ok ((), ⟨after, rest⟩)) :
    SkipsValue (first :: behind) := by
  constructor
  intro enclosing gap rest offset hgap hends hforward
  obtain ⟨after, hscalar⟩ := h rest (offset + width gap) hends
  refine ⟨after, repeatStep_of_skipClosings hforward ?_
    (skipValueStep_scalar hgap hfirst hopening hscalar)⟩
  simp only [List.length_append, List.length_cons]
  omega

theorem skipOpening_closing (hgap : Blanks gap) (offset : Nat) :
    skipOpening bracket enclosing ⟨offset, gap ++ bracket.closing :: rest⟩ =
      skipClosings enclosing ⟨offset + width gap + 1, rest⟩ := by
  have hclosing := bracket.closing_standsApart.1
  have hnext : Cursor.next ⟨offset + width gap, bracket.closing :: rest⟩ =
      ⟨offset + width gap + 1, rest⟩ := by cases bracket <;> rfl
  simp only [skipOpening, skipBlanks_cons hgap hclosing, peek_cons, hnext, if_true]

theorem skipOpening_key {first : Char} (hgap : Blanks gap) (hfirst : isBlank first = false)
    (hclosing : first ≠ bracket.closing) {inside : Cursor} {offset : Nat}
    (h : skipKey bracket ⟨offset + width gap, first :: rest⟩ = .ok ((), inside)) :
    skipOpening bracket enclosing ⟨offset, gap ++ first :: rest⟩ =
      .ok (.more (bracket :: enclosing), inside) := by
  have hend : ¬Cursor.atEnd ⟨offset + width gap, first :: rest⟩ = true := Bool.false_ne_true
  simp only [skipOpening, skipBlanks_cons hgap hfirst, peek_cons, Option.some.injEq,
    if_neg hclosing, if_neg hend, h, bind, Except.bind]

theorem SkipsValue.empty (bracket : Bracket) (hinner : Blanks before) :
    SkipsValue (bracket.opening :: (before ++ [bracket.closing])) := by
  constructor
  intro enclosing gap rest offset hgap hends hforward
  simp only [List.cons_append, List.append_assoc, List.nil_append]
  refine ⟨_, repeatStep_of_skipClosings hforward ?_
    ((skipValueStep_opening hgap offset).trans (skipOpening_closing hinner _))⟩
  simp only [List.length_append, List.length_cons]
  omega

theorem SkipsValue.bracketed {first : Char} {behind : List Char} (hbefore : Blanks before)
    (hafter : Blanks after) (hfirst : isBlank first = false)
    (hclosing : first ≠ bracket.closing) (h : SkipsItems bracket (first :: behind)) :
    SkipsValue (bracket.opening ::
      (before ++ (first :: behind ++ (after ++ [bracket.closing])))) := by
  constructor
  intro enclosing gap rest offset hgap hends hforward
  obtain ⟨inside, last, hkey, hle, hloop⟩ := h.comesPast (offset + width gap + 1 + width before)
    blanks_nil hafter hforward
  simp only [List.cons_append, List.append_assoc, List.nil_append] at hkey hle ⊢
  have hstep : skipValueStep enclosing ⟨offset, gap ++ bracket.opening ::
      (before ++ first :: (behind ++ (after ++ bracket.closing :: rest)))⟩ =
      .ok (.more (bracket :: enclosing), inside) :=
    (skipValueStep_opening hgap offset).trans (skipOpening_key hbefore hfirst hclosing hkey)
  refine ⟨last, ?_⟩
  rw [repeatStep_of_more hstep ?_, hloop]
  simp only [List.length_append, List.length_cons] at hle ⊢
  omega

theorem Spells.skips_scalar {v : Value} (hspells : Spells v chars)
    (hopening : ∀ c, v.StartsWith c → c ≠ '[' ∧ c ≠ '\x7b')
    (h : ∀ rest offset, Ends rest → ∃ after,
      skipScalar ⟨offset, chars ++ rest⟩ = .ok ((), ⟨after, rest⟩)) : SkipsValue chars := by
  obtain ⟨first, behind, rfl, hfirst⟩ := hspells.startsWith
  exact .scalar hfirst.standsApart.1 (hopening first hfirst) h

end Parts

mutual

theorem Spells.skips {v : Value} {chars : List Char} (h : Spells v chars) : SkipsValue chars := by
  cases h with
  | null =>
    refine Spells.null.skips_scalar ?_ fun _ offset _ => skipScalar_null offset
    rintro _ rfl
    decide
  | boolean value =>
    refine (Spells.boolean value).skips_scalar ?_ fun _ offset _ => skipScalar_boolean offset value
    cases value <;> (rintro _ rfl; decide)
  | number n =>
    refine (Spells.number n).skips_scalar ?_ fun _ offset hrest => skipScalar_number offset hrest n
    exact fun c hc => ⟨hc.number_ne (by decide) rfl, hc.number_ne (by decide) rfl⟩
  | string body =>
    refine (Spells.string body).skips_scalar ?_ fun _ offset _ => skipScalar_string offset body
    rintro _ rfl
    decide
  | emptyList hgap => exact .empty .list hgap
  | list hbefore hitems hafter =>
    obtain ⟨first, behind, rfl, hfirst, hclosing⟩ := hitems.startsWith
    have hclosing : first ≠ Bracket.list.closing := hclosing
    exact SkipsValue.bracketed hbefore hafter hfirst hclosing hitems.skips
  | emptyObject hgap => exact .empty .object hgap
  | object hbefore hmembers hafter =>
    obtain ⟨behind, rfl⟩ := hmembers.startsWith
    exact .bracketed hbefore hafter (by decide) (by decide) hmembers.skips

theorem SpellsItems.skips {items : List Value} {chars : List Char}
    (h : SpellsItems items chars) : SkipsItems .list chars := by
  cases h with
  | last h => exact .last .list h.skips
  | more h hbefore hafter hrest => exact .more .list h.skips hbefore hafter hrest.skips

theorem SpellsMembers.skips {members : List (Body × Value)} {chars : List Char}
    (h : SpellsMembers members chars) : SkipsItems .object chars := by
  cases h with
  | last hkey hgap h =>
    rw [← List.append_assoc]
    exact .last (.object hkey hgap) h.skips
  | more hkey hgap h hbefore hafter hrest =>
    rw [← List.append_assoc]
    exact .more (.object hkey hgap) h.skips hbefore hafter hrest.skips

end

/-- A value is skipped to its end. -/
theorem Spells.skipValue {v : Value} {chars gap rest : List Char} (h : Spells v chars)
    (hgap : Blanks gap) (hends : Ends rest) (offset : Nat) :
    ∃ after, Json.skipValue ⟨offset, gap ++ (chars ++ rest)⟩ = .ok ((), ⟨after, rest⟩) :=
  h.skips.comesPast offset hgap hends (forward_nil rest)

end Abacus.Json
