import Abacus.Options.Text
import Abacus.Proofs.Json.Skipping

/-!
The values of the members of an options object. A choice is given by its name as a string,
or by an object with the name as its only key and null behind it; a flag is given by a truth
value. The readers take a value that gives something for what it gives, and refuse every
other value.
-/

namespace Abacus.Options

open Text Cursor Json

/-- A value that an options object gives to one of its members. -/
inductive Setting where
  | nonFinite (policy : NonFinitePolicy)
  | angle (unit : AngleUnit)
  | substituteConstants (flag : Bool)
deriving DecidableEq, Repr

def Setting.member : Setting → Member
  | nonFinite _ => .nonFinite
  | angle _ => .angle
  | substituteConstants _ => .substituteConstants

/-- The two ways in which a JSON value names a choice. -/
inductive Names (name : String) : Value → Prop
  | bare {body : Body} (h : body.Means name) : Names name (.string body)
  | tagged {key : Body} (h : key.Means name) : Names name (.object [(key, .null)])

/-- The JSON value gives the setting. -/
inductive Setting.GivenBy : Setting → Value → Prop
  | nonFinite {policy : NonFinitePolicy} {v : Value} (h : Names policy.name v) :
      GivenBy (.nonFinite policy) v
  | angle {unit : AngleUnit} {v : Value} (h : Names unit.name v) : GivenBy (.angle unit) v
  | substituteConstants (flag : Bool) : GivenBy (.substituteConstants flag) (.boolean flag)

/-- The JSON value is one that the member can have. -/
def Accepts (member : Member) (v : Value) : Prop :=
  ∃ setting : Setting, setting.member = member ∧ setting.GivenBy v

theorem means_unique {body : Body} {a b : String} (ha : body.Means a) (hb : body.Means b) :
    a = b :=
  String.toList_inj.mp (Option.some.inj (ha.symm.trans hb))

theorem Names.unique {a b : String} {v : Value} (ha : Names a v) (hb : Names b v) : a = b := by
  cases ha with
  | bare ha =>
    cases hb with
    | bare hb => exact means_unique ha hb
  | tagged ha =>
    cases hb with
    | tagged hb => exact means_unique ha hb

/-- A value gives at most one setting of a member. -/
theorem Setting.GivenBy.unique {s t : Setting} {v : Value} (hs : s.GivenBy v) (ht : t.GivenBy v)
    (h : s.member = t.member) : s = t := by
  cases hs with
  | @nonFinite p _ hs =>
    cases ht with
    | @nonFinite q _ ht =>
      have hname := hs.unique ht
      cases p <;> cases q <;> first | rfl | (revert hname; decide)
    | angle => contradiction
    | substituteConstants => contradiction
  | @angle p _ hs =>
    cases ht with
    | @angle q _ ht =>
      have hname := hs.unique ht
      cases p <;> cases q <;> first | rfl | (revert hname; decide)
    | nonFinite => contradiction
    | substituteConstants => contradiction
  | substituteConstants flag =>
    cases ht with
    | substituteConstants => rfl
    | nonFinite => contradiction
    | angle => contradiction

/-- Whatever stands where a value of another kind is expected, it is refused. -/
theorem refuse_eq_error {α : Type} (expected : String) (c : Cursor) :
    ∃ failure, (refuse expected c : Except Failure α) = .error failure := by
  rw [refuse]
  cases readKind c with
  | error failure => exact ⟨failure, rfl⟩
  | ok result => exact ⟨_, rfl⟩

section Readers

variable {α : Type} (name : α → String) (first second : α) {v : Value}
  {gap chars rest : List Char}

theorem skipBlanks_spells (h : Spells v chars) (hgap : Blanks gap) (offset : Nat)
    (rest : List Char) :
    ∃ c behind, chars = c :: behind ∧ v.StartsWith c ∧
      skipBlanks ⟨offset, gap ++ (chars ++ rest)⟩ =
        ⟨offset + width gap, c :: (behind ++ rest)⟩ := by
  obtain ⟨c, behind, rfl, hc⟩ := h.startsWith
  exact ⟨c, behind, rfl, hc, skipBlanks_cons hgap hc.standsApart.1 offset⟩

theorem readName_decides (body : Body) (offset : Nat) (rest : List Char) :
    Decides (fun x => (x = first ∨ x = second) ∧ body.Means (name x))
      (readName name first second ⟨offset, body.chars ++ '"' :: rest⟩) rest := by
  obtain ⟨text, after, hmeans, hread⟩ | ⟨hnone, failure, hread⟩ :=
    readString_decides body offset rest
  · by_cases hfirst : text = name first
    · refine .inl ⟨first, after, ⟨.inl rfl, hfirst ▸ hmeans⟩, ?_⟩
      simp only [readName, hread, bind, Except.bind, if_pos hfirst]
    · by_cases hsecond : text = name second
      · refine .inl ⟨second, after, ⟨.inr rfl, hsecond ▸ hmeans⟩, ?_⟩
        simp only [readName, hread, bind, Except.bind, if_neg hfirst, if_pos hsecond]
      · refine .inr ⟨?_, ⟨.unknownVariant text (name first) (name second), after⟩, ?_⟩
        · rintro x ⟨rfl | rfl, h⟩
          · exact hfirst (means_unique hmeans h)
          · exact hsecond (means_unique hmeans h)
        · simp only [readName, hread, bind, Except.bind, if_neg hfirst, if_neg hsecond]
          rfl
  · refine .inr ⟨fun x h => hnone _ h.2, failure, ?_⟩
    simp only [readName, hread, bind, Except.bind]

section Tagged

theorem eq_null_of_startsWith (h : v.StartsWith 'n') : v = .null := by
  cases v with
  | null => rfl
  | boolean flag => cases flag <;> exact absurd (Eq.symm h) (by decide)
  | number n =>
    rcases h with h | h
    · exact absurd h (by decide)
    · contradiction
  | string body => exact absurd h (show 'n' ≠ '"' by decide)
  | list items => exact absurd h (show 'n' ≠ '[' by decide)
  | object members => exact absurd h (show 'n' ≠ '\x7b' by decide)

theorem readUnit_decides (h : Spells v chars) (hgap : Blanks gap) (offset : Nat)
    (rest : List Char) :
    Decides (fun _ => v = .null) (readUnit ⟨offset, gap ++ (chars ++ rest)⟩) rest := by
  obtain ⟨c, behind, hchars, hc, hblanks⟩ := skipBlanks_spells h hgap offset rest
  by_cases hnull : v = .null
  · subst hnull
    cases h with
    | null =>
      obtain rfl : 'n' = c := (List.cons.inj hchars).1
      obtain rfl : "ull".toList = behind := (List.cons.inj hchars).2
      refine .inl ⟨(), offset + width gap + 1 + width "ull".toList, rfl, ?_⟩
      simp only [readUnit, hblanks, peek_cons]
      exact readWord_append "ull".toList _ rest
  · refine .inr ⟨fun _ => hnull, ?_⟩
    simp only [readUnit, hblanks, peek_cons]
    split
    · rename_i heq
      obtain rfl := Option.some.inj heq
      exact absurd (eq_null_of_startsWith hc) hnull
    · exact refuse_eq_error _ _
    · contradiction

/-- What is left to read of an object behind its first member. -/
def closeTagged (x : α) (c : Cursor) : Except Failure (Read α) :=
  let c := skipBlanks c
  match c.peek with
  | some '\x7d' => .ok (x, c.next)
  | some _ => failHere .expectedValue c
  | none => failHere .endInObject c

theorem readTagged_append (hgap : Blanks gap) (offset : Nat) :
    readTagged name first second ⟨offset, gap ++ '"' :: rest⟩ =
      (do
        let (x, c) ← readName name first second ⟨offset + width gap + 1, rest⟩
        let ((), c) ← readColon c
        let ((), c) ← readUnit c
        closeTagged x c) := by
  have hquote : Json.isBlank '"' = false := rfl
  have hnext : Cursor.next ⟨offset + width gap, '"' :: rest⟩ =
      ⟨offset + width gap + 1, rest⟩ := rfl
  simp only [readTagged, skipBlanks_cons hgap hquote, peek_cons, hnext]
  rfl

/-- The first member of an object decides unless others follow. -/
theorem readTagged_cases {key : Body} {label before : List Char} (hkey : SpellsKey key label)
    (hbefore : Blanks before) (h : Spells v chars) (hgap : Blanks gap) (offset : Nat)
    (rest : List Char) :
    (∃ x after, ((x = first ∨ x = second) ∧ key.Means (name x) ∧ v = .null) ∧
      readTagged name first second ⟨offset, before ++ (label ++ (gap ++ (chars ++ rest)))⟩ =
        closeTagged x ⟨after, rest⟩) ∨
    (∀ x, ¬((x = first ∨ x = second) ∧ key.Means (name x) ∧ v = .null)) ∧ ∃ failure,
      readTagged name first second ⟨offset, before ++ (label ++ (gap ++ (chars ++ rest)))⟩ =
        .error failure := by
  obtain @⟨inner, _, hinner⟩ := hkey
  have htext : before ++ (key.quoted ++ (inner ++ [':']) ++ (gap ++ (chars ++ rest))) =
      before ++ '"' :: (key.chars ++ '"' :: (inner ++ ':' :: (gap ++ (chars ++ rest)))) := by
    simp [Body.quoted]
  rw [htext, readTagged_append name first second hbefore]
  obtain ⟨x, between, ⟨hx, hmeans⟩, hname⟩ | ⟨hnone, failure, hname⟩ :=
    readName_decides name first second key (offset + width before + 1)
      (inner ++ ':' :: (gap ++ (chars ++ rest)))
  · have hcolon : readColon ⟨between, inner ++ ':' :: (gap ++ (chars ++ rest))⟩ =
        .ok ((), ⟨between + width inner + 1, gap ++ (chars ++ rest)⟩) :=
      readColon_append hinner between
    obtain ⟨_, after, hnull, hunit⟩ | ⟨hnull, failure, hunit⟩ :=
      readUnit_decides h hgap (between + width inner + 1) rest
    · refine .inl ⟨x, after, ⟨hx, hmeans, hnull⟩, ?_⟩
      simp only [bind, Except.bind, hname, hcolon, hunit]
    · refine .inr ⟨fun _ h => hnull () h.2.2, failure, ?_⟩
      simp only [bind, Except.bind, hname, hcolon, hunit]
  · refine .inr ⟨fun x h => hnone x ⟨h.1, h.2.1⟩, failure, ?_⟩
    simp only [bind, Except.bind, hname]

theorem closeTagged_append (x : α) (hgap : Blanks gap) (offset : Nat) :
    closeTagged x ⟨offset, gap ++ '\x7d' :: rest⟩ =
      .ok (x, ⟨offset + width gap + 1, rest⟩) := by
  have hclosing : Json.isBlank '\x7d' = false := rfl
  simp only [closeTagged, skipBlanks_cons hgap hclosing]
  rfl

theorem closeTagged_comma (x : α) (hgap : Blanks gap) (offset : Nat) :
    closeTagged x ⟨offset, gap ++ ',' :: rest⟩ =
      .error ⟨.expectedValue, offset + width gap⟩ := by
  have hcomma : Json.isBlank ',' = false := rfl
  simp only [closeTagged, skipBlanks_cons hgap hcomma]
  rfl

theorem readTagged_empty (hgap : Blanks gap) (offset : Nat) :
    readTagged name first second ⟨offset, gap ++ '\x7d' :: rest⟩ =
      .error ⟨.expectedValue, offset + width gap + 1⟩ := by
  have hclosing : Json.isBlank '\x7d' = false := rfl
  simp only [readTagged, skipBlanks_cons hgap hclosing]
  rfl

theorem ne_nil_of_spellsMembers {members : List (Body × Value)}
    (h : SpellsMembers members chars) : members ≠ [] := by
  cases h <;> exact List.cons_ne_nil _ _

/-- An object names a choice with its only key. -/
theorem readTagged_decides {members : List (Body × Value)}
    (h : Spells (.object members) ('\x7b' :: chars)) (offset : Nat) (rest : List Char) :
    Decides (fun x => (x = first ∨ x = second) ∧ Names (name x) (.object members))
      (readTagged name first second ⟨offset, chars ++ rest⟩) rest := by
  cases h with
  | emptyObject hgap =>
    rw [List.append_assoc, List.singleton_append, readTagged_empty name first second hgap]
    refine .inr ⟨?_, _, rfl⟩
    rintro x ⟨-, hnames⟩
    cases hnames
  | object hbefore hmembers hafter =>
    cases hmembers with
    | last hkey hgap hvalue =>
      simp only [List.append_assoc, List.singleton_append]
      obtain ⟨x, at_, ⟨hx, hmeans, rfl⟩, hread⟩ | ⟨hnone, failure, hread⟩ :=
        readTagged_cases name first second hkey hbefore hvalue hgap offset _
      · exact .inl ⟨x, _, ⟨hx, .tagged hmeans⟩, hread.trans (closeTagged_append x hafter at_)⟩
      · refine .inr ⟨?_, failure, hread⟩
        rintro x ⟨hx, hnames⟩
        cases hnames with
        | tagged hmeans => exact hnone x ⟨hx, hmeans, rfl⟩
    | more hkey hgap hvalue hcomma hnext hrest =>
      simp only [List.append_assoc, List.cons_append]
      refine .inr ⟨?_, ?_⟩
      · rintro x ⟨-, hnames⟩
        have hrest := ne_nil_of_spellsMembers hrest
        cases hnames
        contradiction
      · obtain ⟨x, between, -, hread⟩ | ⟨-, failure, hread⟩ :=
          readTagged_cases name first second hkey hbefore hvalue hgap offset _
        · exact ⟨_, hread.trans (closeTagged_comma x hcomma between)⟩
        · exact ⟨failure, hread⟩

end Tagged

theorem Spells.eq_quoted {body : Body} (h : Spells (.string body) chars) :
    chars = body.quoted := by
  cases h
  rfl

theorem readChoice_refused {c : Char} {behind : List Char} {offset offset' : Nat}
    (hblanks : skipBlanks ⟨offset, chars⟩ = ⟨offset', c :: behind⟩)
    (hc : c ≠ '"' ∧ c ≠ '\x7b') :
    ∃ failure, readChoice name first second ⟨offset, chars⟩ = .error failure := by
  simp only [readChoice, hblanks, peek_cons]
  split
  · rename_i heq
    exact absurd (Option.some.inj heq) hc.1
  · rename_i heq
    exact absurd (Option.some.inj heq) hc.2
  · exact ⟨_, rfl⟩
  · contradiction

/-- The reader of a choice takes a value that names one of the two choices. -/
theorem readChoice_decides (h : Spells v chars) (hgap : Blanks gap) (offset : Nat)
    (rest : List Char) :
    Decides (fun x => (x = first ∨ x = second) ∧ Names (name x) v)
      (readChoice name first second ⟨offset, gap ++ (chars ++ rest)⟩) rest := by
  obtain ⟨c, behind, rfl, hc, hblanks⟩ := skipBlanks_spells h hgap offset rest
  have hrefused (hkind : c ≠ '"' ∧ c ≠ '\x7b') (hnone : ∀ choice, ¬Names choice v) :
      Decides (fun x => (x = first ∨ x = second) ∧ Names (name x) v)
        (readChoice name first second ⟨offset, gap ++ (c :: behind ++ rest)⟩) rest :=
    .inr ⟨fun x hx => hnone _ hx.2, readChoice_refused name first second hblanks hkind⟩
  cases v with
  | null =>
    obtain rfl := hc
    exact hrefused (by decide) nofun
  | boolean flag =>
    cases flag
    all_goals
      obtain rfl := hc
      exact hrefused (by decide) nofun
  | number n =>
    exact hrefused ⟨hc.number_ne (by decide) rfl, hc.number_ne (by decide) rfl⟩ nofun
  | list items =>
    obtain rfl := hc
    exact hrefused (by decide) nofun
  | string body =>
    obtain rfl := hc
    obtain rfl : behind = body.chars ++ ['"'] := (List.cons.inj (Spells.eq_quoted h)).2
    have hread : readChoice name first second
        ⟨offset, gap ++ ('"' :: (body.chars ++ ['"']) ++ rest)⟩ =
          readName name first second ⟨offset + width gap + 1, body.chars ++ '"' :: rest⟩ := by
      rw [readChoice, hblanks, List.append_assoc]
      rfl
    rw [hread]
    obtain ⟨x, after, ⟨hx, hmeans⟩, hname⟩ | ⟨hnone, failure, hname⟩ :=
      readName_decides name first second body (offset + width gap + 1) rest
    · exact .inl ⟨x, after, ⟨hx, .bare hmeans⟩, hname⟩
    · refine .inr ⟨?_, failure, hname⟩
      rintro x ⟨hx, hnames⟩
      cases hnames with
      | bare hmeans => exact hnone x ⟨hx, hmeans⟩
  | object members =>
    obtain rfl := hc
    have hread : readChoice name first second ⟨offset, gap ++ ('\x7b' :: behind ++ rest)⟩ =
        readTagged name first second ⟨offset + width gap + 1, behind ++ rest⟩ := by
      rw [readChoice, hblanks]
      rfl
    rw [hread]
    exact readTagged_decides name first second h _ rest

end Readers

section Members

theorem givenBy_nonFinite_iff {policy : NonFinitePolicy} {v : Value} :
    Setting.GivenBy (.nonFinite policy) v ↔ Names policy.name v := by
  constructor
  · intro h
    cases h with
    | nonFinite h => exact h
  · exact .nonFinite

theorem givenBy_angle_iff {unit : AngleUnit} {v : Value} :
    Setting.GivenBy (.angle unit) v ↔ Names unit.name v := by
  constructor
  · intro h
    cases h with
    | angle h => exact h
  · exact .angle

theorem givenBy_substituteConstants_iff {flag : Bool} {v : Value} :
    Setting.GivenBy (.substituteConstants flag) v ↔ v = .boolean flag := by
  constructor
  · intro h
    cases h
    rfl
  · rintro rfl
    exact .substituteConstants flag

variable {v : Value} {gap chars : List Char}

theorem readNonFinite_decides (h : Spells v chars) (hgap : Blanks gap) (offset : Nat)
    (rest : List Char) :
    Decides (fun policy => Setting.GivenBy (.nonFinite policy) v)
      (readNonFinite ⟨offset, gap ++ (chars ++ rest)⟩) rest := by
  refine (readChoice_decides NonFinitePolicy.name .reject .allow h hgap offset rest).of_iff ?_
  intro policy
  rw [givenBy_nonFinite_iff, and_iff_right]
  cases policy
  · exact .inl rfl
  · exact .inr rfl

theorem readAngle_decides (h : Spells v chars) (hgap : Blanks gap) (offset : Nat)
    (rest : List Char) :
    Decides (fun unit => Setting.GivenBy (.angle unit) v)
      (readAngle ⟨offset, gap ++ (chars ++ rest)⟩) rest := by
  refine (readChoice_decides AngleUnit.name .degrees .radians h hgap offset rest).of_iff ?_
  intro unit
  rw [givenBy_angle_iff, and_iff_right]
  cases unit
  · exact .inl rfl
  · exact .inr rfl

theorem Spells.eq_boolean {flag : Bool} (h : Spells (.boolean flag) chars) :
    chars = (toString flag).toList := by
  cases h
  rfl

theorem readFlag_boolean (flag : Bool) (hgap : Blanks gap) (offset : Nat) (rest : List Char) :
    ∃ after, readFlag ⟨offset, gap ++ ((toString flag).toList ++ rest)⟩ =
      .ok (flag, ⟨after, rest⟩) := by
  cases flag with
  | true =>
    have hfirst : Json.isBlank 't' = false := rfl
    have hword := readWord_append "rue".toList (offset + width gap + 1) rest
    refine ⟨offset + width gap + 1 + width "rue".toList, ?_⟩
    calc readFlag ⟨offset, gap ++ 't' :: ("rue".toList ++ rest)⟩
      _ = (do
          let ((), c) ← readWord "rue".toList ⟨offset + width gap + 1, "rue".toList ++ rest⟩
          .ok (true, c)) := by
        simp only [readFlag, skipBlanks_cons hgap hfirst]
        rfl
      _ = .ok (true, ⟨offset + width gap + 1 + width "rue".toList, rest⟩) := by
        rw [hword]
        rfl
  | false =>
    have hfirst : Json.isBlank 'f' = false := rfl
    have hword := readWord_append "alse".toList (offset + width gap + 1) rest
    refine ⟨offset + width gap + 1 + width "alse".toList, ?_⟩
    calc readFlag ⟨offset, gap ++ 'f' :: ("alse".toList ++ rest)⟩
      _ = (do
          let ((), c) ← readWord "alse".toList ⟨offset + width gap + 1, "alse".toList ++ rest⟩
          .ok (false, c)) := by
        simp only [readFlag, skipBlanks_cons hgap hfirst]
        rfl
      _ = .ok (false, ⟨offset + width gap + 1 + width "alse".toList, rest⟩) := by
        rw [hword]
        rfl

theorem readFlag_decides (h : Spells v chars) (hgap : Blanks gap) (offset : Nat)
    (rest : List Char) :
    Decides (fun flag => Setting.GivenBy (.substituteConstants flag) v)
      (readFlag ⟨offset, gap ++ (chars ++ rest)⟩) rest := by
  obtain ⟨c, behind, rfl, hc, hblanks⟩ := skipBlanks_spells h hgap offset rest
  have hrefused (hkind : c ≠ 't' ∧ c ≠ 'f') (hnone : ∀ flag, v ≠ .boolean flag) :
      Decides (fun flag => Setting.GivenBy (.substituteConstants flag) v)
        (readFlag ⟨offset, gap ++ (c :: behind ++ rest)⟩) rest := by
    refine .inr ⟨fun flag hflag => hnone flag (givenBy_substituteConstants_iff.mp hflag), ?_⟩
    simp only [readFlag, hblanks, peek_cons]
    split
    · rename_i heq
      exact absurd (Option.some.inj heq) hkind.1
    · rename_i heq
      exact absurd (Option.some.inj heq) hkind.2
    · exact refuse_eq_error _ _
    · contradiction
  cases v with
  | boolean flag =>
    obtain ⟨after, hread⟩ := readFlag_boolean flag hgap offset rest
    rw [Spells.eq_boolean h]
    exact .inl ⟨flag, after, .substituteConstants flag, hread⟩
  | number n =>
    exact hrefused ⟨hc.number_ne (by decide) rfl, hc.number_ne (by decide) rfl⟩ nofun
  | _ =>
    obtain rfl := hc
    exact hrefused (by decide) nofun

end Members

namespace Draft

variable (draft : Draft)

/-- What the draft holds for a member. -/
def get? : Member → Option Setting
  | .nonFinite => draft.nonFinite.map .nonFinite
  | .angle => draft.angle.map .angle
  | .substituteConstants => draft.substituteConstants.map .substituteConstants

def put : Setting → Draft
  | .nonFinite policy => ⟨some policy, draft.angle, draft.substituteConstants⟩
  | .angle unit => ⟨draft.nonFinite, some unit, draft.substituteConstants⟩
  | .substituteConstants flag => ⟨draft.nonFinite, draft.angle, some flag⟩

theorem has_eq (member : Member) : draft.has member = (draft.get? member).isSome := by
  cases member <;> simp [has, get?]

theorem get?_put (setting : Setting) (member : Member) :
    (draft.put setting).get? member =
      if member = setting.member then some setting else draft.get? member := by
  cases setting <;> cases member <;> rfl

variable {v : Value} {gap chars : List Char}

/-- A reader of settings of one member writes them into the draft. -/
theorem put_decides {α : Type} {make : α → Setting} {member : Member}
    (hmake : ∀ setting : Setting, setting.member = member ↔ ∃ x, setting = make x)
    {result : Except Failure (Read α)} {rest : List Char}
    (h : Decides (fun x => (make x).GivenBy v) result rest) :
    Decides (fun filled => ∃ setting : Setting, setting.member = member ∧ setting.GivenBy v ∧
      filled = draft.put setting)
      (do
        let (x, c) ← result
        .ok (draft.put (make x), c)) rest := by
  refine (h.map fun x => draft.put (make x)).of_iff fun filled => ⟨?_, ?_⟩
  · rintro ⟨x, hgiven, rfl⟩
    exact ⟨make x, (hmake _).mpr ⟨x, rfl⟩, hgiven, rfl⟩
  · rintro ⟨setting, hmember, hgiven, rfl⟩
    obtain ⟨x, rfl⟩ := (hmake setting).mp hmember
    exact ⟨x, hgiven, rfl⟩

/-- The reader of a member writes what its value gives into the draft. -/
theorem readMember_decides (member : Member) (h : Spells v chars) (hgap : Blanks gap)
    (offset : Nat) (rest : List Char) :
    Decides (fun result => ∃ setting : Setting, setting.member = member ∧ setting.GivenBy v ∧
      result = draft.put setting)
      (draft.readMember member ⟨offset, gap ++ (chars ++ rest)⟩) rest := by
  cases member with
  | nonFinite =>
    have hmake : ∀ setting : Setting, setting.member = .nonFinite ↔
        ∃ policy, setting = .nonFinite policy := by
      intro setting
      cases setting <;> simp [Setting.member]
    exact draft.put_decides hmake (readNonFinite_decides h hgap offset rest)
  | angle =>
    have hmake : ∀ setting : Setting, setting.member = .angle ↔
        ∃ unit, setting = .angle unit := by
      intro setting
      cases setting <;> simp [Setting.member]
    exact draft.put_decides hmake (readAngle_decides h hgap offset rest)
  | substituteConstants =>
    have hmake : ∀ setting : Setting, setting.member = .substituteConstants ↔
        ∃ flag, setting = .substituteConstants flag := by
      intro setting
      cases setting <;> simp [Setting.member]
    exact draft.put_decides hmake (readFlag_decides h hgap offset rest)

end Draft

end Abacus.Options
