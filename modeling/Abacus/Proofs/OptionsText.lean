import Mathlib.Data.List.Basic
import Mathlib.Data.List.TakeWhile
import Abacus.Proofs.Json.Writing
import Abacus.Proofs.OptionValues

/-!
Options from the text of an object. The members are read one after the other into a draft;
a member with an unknown key leaves it alone, and one with a known key fills a place that
must have been free. What comes out depends on the known members only, whatever their order,
and there is an error as soon as one of them is repeated or has a value of another kind.
-/

namespace Abacus.Options

open Text Cursor Json

namespace Member

theorem name_injective {a b : Member} (h : a.name = b.name) : a = b := by
  have hname := ofName?_name a
  rw [h, ofName?_name] at hname
  exact (Option.some.inj hname).symm

theorem ofName?_eq_some_iff {key : String} {member : Member} :
    ofName? key = some member ↔ key = member.name := by
  constructor
  · intro h
    have hfound := List.find?_some h
    exact (beq_iff_eq.mp hfound).symm
  · rintro rfl
    exact ofName?_name member

end Member

namespace Draft

theorem member_of_get? {draft : Draft} {member : Member} {setting : Setting}
    (h : draft.get? member = some setting) : setting.member = member := by
  cases member
  all_goals
    obtain ⟨value, -, rfl⟩ := Option.map_eq_some_iff.mp h
    rfl

/-- What a member does to the draft. -/
def Takes (draft : Draft) (m : String × Value) (result : Draft) : Prop :=
  match Member.ofName? m.1 with
  | none => result = draft
  | some member =>
    draft.has member = false ∧ ∃ setting : Setting, setting.member = member ∧
      setting.GivenBy m.2 ∧ result = draft.put setting

/-- What the members of an object do to the draft. -/
inductive Fills : Draft → List (String × Value) → Draft → Prop
  | nil (draft : Draft) : Fills draft [] draft
  | cons {draft next result : Draft} {m : String × Value} {members : List (String × Value)}
      (h : draft.Takes m next) (hrest : Fills next members result) :
      Fills draft (m :: members) result

theorem Takes.unique {draft a b : Draft} {m : String × Value} (ha : draft.Takes m a)
    (hb : draft.Takes m b) : a = b := by
  cases hname : Member.ofName? m.1 with
  | none =>
    simp only [Takes, hname] at ha hb
    exact ha.trans hb.symm
  | some member =>
    simp only [Takes, hname] at ha hb
    obtain ⟨-, s, hs, hgiven, rfl⟩ := ha
    obtain ⟨-, t, ht, hgiven', rfl⟩ := hb
    rw [hgiven.unique hgiven' (hs.trans ht.symm)]

section Fills

variable {draft next result : Draft} {m : String × Value} {members : List (String × Value)}

theorem Takes.get? (h : draft.Takes m next) (member : Member) :
    (m.1 = member.name → draft.get? member = none ∧
      ∃ setting, next.get? member = some setting ∧ setting.GivenBy m.2) ∧
    (m.1 ≠ member.name → next.get? member = draft.get? member) := by
  cases hname : Member.ofName? m.1 with
  | none =>
    simp only [Takes, hname] at h
    subst h
    refine ⟨fun hkey => ?_, fun _ => rfl⟩
    rw [hkey, Member.ofName?_name] at hname
    contradiction
  | some taken =>
    simp only [Takes, hname] at h
    obtain ⟨hfree, setting, rfl, hgiven, rfl⟩ := h
    have hkey := Member.ofName?_eq_some_iff.mp hname
    rw [has_eq, Option.isSome_eq_false_iff, Option.isNone_iff_eq_none] at hfree
    rw [get?_put]
    constructor
    · intro heq
      obtain rfl := Member.name_injective (heq.symm.trans hkey)
      exact ⟨hfree, setting, if_pos rfl, hgiven⟩
    · intro hne
      rw [if_neg]
      rintro rfl
      exact hne hkey

/-- A run of members leaves a place alone, or it comes to the place once and fills it. -/
theorem Fills.get? (h : draft.Fills members result) (member : Member) :
    (member.name ∉ members.map Prod.fst → result.get? member = draft.get? member) ∧
    (member.name ∈ members.map Prod.fst → draft.get? member = none ∧
      (members.map Prod.fst).count member.name = 1 ∧ ∀ v, (member.name, v) ∈ members →
        ∃ setting, result.get? member = some setting ∧ setting.GivenBy v) := by
  induction h with
  | nil draft => exact ⟨fun _ => rfl, fun h => absurd h List.not_mem_nil⟩
  | @cons draft next result m members htakes _ ih =>
    obtain ⟨hsame, hother⟩ := htakes.get? member
    obtain ⟨habsent, hpresent⟩ := ih
    obtain ⟨key, value⟩ := m
    by_cases hkey : key = member.name
    · subst hkey
      obtain ⟨hfree, setting, hsetting, hgiven⟩ := hsame rfl
      have hnot : member.name ∉ members.map Prod.fst := by
        intro hmem
        rw [(hpresent hmem).1] at hsetting
        contradiction
      refine ⟨fun h => absurd List.mem_cons_self h, fun _ => ⟨hfree, ?_, fun v hv => ?_⟩⟩
      · rw [List.map_cons, List.count_cons_self, List.count_eq_zero_of_not_mem hnot]
      · rcases List.mem_cons.mp hv with heq | hv
        · obtain rfl := (Prod.mk.inj heq).2
          exact ⟨setting, (habsent hnot).trans hsetting, hgiven⟩
        · exact absurd (List.mem_map_of_mem hv) hnot
    · have hget := hother hkey
      have hmem : member.name ∈ List.map Prod.fst ((key, value) :: members) ↔
          member.name ∈ members.map Prod.fst := by
        rw [List.map_cons, List.mem_cons, or_iff_right (Ne.symm hkey)]
      rw [hmem, List.map_cons, List.count_cons_of_ne hkey, ← hget]
      refine ⟨habsent, fun h => ⟨(hpresent h).1, (hpresent h).2.1, fun v hv => ?_⟩⟩
      rcases List.mem_cons.mp hv with heq | hv
      · exact absurd (Prod.mk.inj heq).1.symm hkey
      · exact (hpresent h).2.2 v hv

/-- Members with free places, none of them repeated and all with values that they can have,
fill the draft. -/
theorem exists_fills
    (hfree : ∀ member : Member, member.name ∈ members.map Prod.fst → draft.get? member = none)
    (honce : ∀ member : Member, (members.map Prod.fst).count member.name ≤ 1)
    (haccepts : ∀ (member : Member) v, (member.name, v) ∈ members → Accepts member v) :
    ∃ result, draft.Fills members result := by
  induction members generalizing draft with
  | nil => exact ⟨draft, .nil draft⟩
  | cons m members ih =>
    obtain ⟨key, v⟩ := m
    have honce' : ∀ member : Member, (members.map Prod.fst).count member.name ≤ 1 :=
      fun member => List.count_le_count_cons.trans (honce member)
    have haccepts' : ∀ (member : Member) v, (member.name, v) ∈ members → Accepts member v :=
      fun member v hv => haccepts member v (List.mem_cons_of_mem _ hv)
    cases hname : Member.ofName? key with
    | none =>
      have hfree' : ∀ member : Member, member.name ∈ members.map Prod.fst →
          draft.get? member = none := fun member hmem => hfree member (List.mem_cons_of_mem _ hmem)
      obtain ⟨result, hresult⟩ := ih hfree' honce' haccepts'
      exact ⟨result, .cons (by simp only [Takes, hname]) hresult⟩
    | some member =>
      obtain rfl := Member.ofName?_eq_some_iff.mp hname
      obtain ⟨setting, rfl, hgiven⟩ := haccepts member v List.mem_cons_self
      have hnot : setting.member.name ∉ members.map Prod.fst := by
        have hcount := honce setting.member
        rw [List.map_cons, List.count_cons_self] at hcount
        exact List.count_eq_zero.mp (by omega)
      have hfree' : ∀ member : Member, member.name ∈ members.map Prod.fst →
          (draft.put setting).get? member = none := by
        intro member hmem
        rw [get?_put, if_neg]
        · exact hfree member (List.mem_cons_of_mem _ hmem)
        · rintro rfl
          exact hnot hmem
      have hempty : draft.has setting.member = false := by
        rw [has_eq, hfree setting.member List.mem_cons_self]
        rfl
      obtain ⟨result, hresult⟩ := ih hfree' honce' haccepts'
      refine ⟨result, .cons ?_ hresult⟩
      simp only [Takes, hname]
      exact ⟨hempty, setting, rfl, hgiven, rfl⟩

end Fills

end Draft

section Entries

/-- A step of the loop from the key of a member on. -/
def readEntry (draft : Draft) (c : Cursor) :
    Except Failure (Read (Next (Draft × Bool) Draft)) := do
  let (key, c) ← readString c
  match Member.ofName? key with
  | none =>
    let ((), c) ← readColon c
    let ((), c) ← skipValue c
    .ok (.more (draft, false), c)
  | some member =>
    if draft.has member then refuseRepeated member c
    else
      let ((), c) ← readColon c
      let (draft, c) ← draft.readMember member c
      .ok (.more (draft, false), c)

variable {draft : Draft} {gap before after rest : List Char}

theorem readMemberStep_first (hgap : Blanks gap) (offset : Nat) :
    readMemberStep (draft, true) ⟨offset, gap ++ '"' :: rest⟩ =
      readEntry draft ⟨offset + width gap + 1, rest⟩ := by
  have hquote : Json.isBlank '"' = false := rfl
  simp only [readMemberStep, skipBlanks_cons hgap hquote]
  rfl

theorem readMemberStep_next (hbefore : Blanks before) (hafter : Blanks after) (offset : Nat) :
    readMemberStep (draft, false) ⟨offset, before ++ ',' :: (after ++ '"' :: rest)⟩ =
      readEntry draft ⟨offset + width before + 1 + width after + 1, rest⟩ := by
  have hcomma : Json.isBlank ',' = false := rfl
  have hquote : Json.isBlank '"' = false := rfl
  have hkey : nextKey false ⟨offset + width before, ',' :: (after ++ '"' :: rest)⟩ =
      .ok ⟨offset + width before + 1 + width after, '"' :: rest⟩ := by
    have hnext : Cursor.next ⟨offset + width before, ',' :: (after ++ '"' :: rest)⟩ =
        ⟨offset + width before + 1, after ++ '"' :: rest⟩ := rfl
    simp only [nextKey, peek_cons, hnext, skipBlanks_cons hafter hquote]
    rfl
  simp only [readMemberStep, skipBlanks_cons hbefore hcomma, peek_cons, hkey, bind, Except.bind]
  rfl

theorem readMemberStep_close (draft : Draft) (first : Bool) (hgap : Blanks gap) (offset : Nat)
    (rest : List Char) : readMemberStep (draft, first) ⟨offset, gap ++ '\x7d' :: rest⟩ =
      .ok (.done draft, ⟨offset + width gap + 1, rest⟩) := by
  have hclosing : Json.isBlank '\x7d' = false := rfl
  simp only [readMemberStep, skipBlanks_cons hgap hclosing]
  rfl

theorem exists_quote_of_key {key : Body} {label : List Char} (h : SpellsKey key label) :
    ∃ inner, Blanks inner ∧ ∀ rest, label ++ rest =
      '"' :: (key.chars ++ '"' :: (inner ++ ':' :: rest)) := by
  obtain @⟨inner, _, hinner⟩ := h
  exact ⟨inner, hinner, fun rest => by simp [Body.quoted]⟩

/-- A member does to the draft what its key and its value say, or is refused. -/
theorem readEntry_decides (draft : Draft) {key : Body} {name : String} {v : Value}
    {inner chars : List Char} (hkey : key.Means name) (hinner : Blanks inner)
    (hgap : Blanks gap) (h : Spells v chars) (hends : Ends rest) (offset : Nat) :
    Decides (fun next => ∃ result, draft.Takes (name, v) result ∧ next = .more (result, false))
      (readEntry draft
        ⟨offset, key.chars ++ '"' :: (inner ++ ':' :: (gap ++ (chars ++ rest)))⟩) rest := by
  obtain ⟨between, hread⟩ :=
    readString_of_means key offset (inner ++ ':' :: (gap ++ (chars ++ rest))) hkey
  have hcolon : readColon ⟨between, inner ++ ':' :: (gap ++ (chars ++ rest))⟩ =
      .ok ((), ⟨between + width inner + 1, gap ++ (chars ++ rest)⟩) :=
    readColon_append hinner between
  cases hname : Member.ofName? name with
  | none =>
    obtain ⟨last, hskip⟩ := h.skipValue hgap hends (between + width inner + 1)
    refine .inl ⟨.more (draft, false), last, ⟨draft, by rw [Draft.Takes, hname], rfl⟩, ?_⟩
    simp only [readEntry, hread, hname, hcolon, hskip, bind, Except.bind]
  | some member =>
    cases hhas : draft.has member with
    | true =>
      refine .inr ⟨?_, ?_⟩
      · rintro _ ⟨result, htakes, -⟩
        simp only [Draft.Takes, hname, hhas] at htakes
        exact absurd htakes.1 (by decide)
      · simp only [readEntry, hread, hname, hhas, bind, Except.bind, if_true]
        exact ⟨_, rfl⟩
    | false =>
      obtain ⟨result, last, hresult, hmember⟩ | ⟨hnone, failure, hmember⟩ :=
        draft.readMember_decides member h hgap (between + width inner + 1) rest
      · refine .inl ⟨.more (result, false), last, ⟨result, ?_, rfl⟩, ?_⟩
        · simp only [Draft.Takes, hname]
          exact ⟨hhas, hresult⟩
        · simp only [readEntry, hread, hname, hhas, hcolon, hmember, bind, Except.bind]
          rfl
      · refine .inr ⟨?_, failure, ?_⟩
        · rintro _ ⟨result, htakes, -⟩
          simp only [Draft.Takes, hname] at htakes
          exact hnone result htakes.2
        · simp only [readEntry, hread, hname, hhas, hcolon, hmember, bind, Except.bind]
          rfl

variable {draft : Draft} {state : Draft × Bool} {c : Cursor} {gap rest : List Char}

/-- The loop goes over a member, if it goes on well behind it. -/
theorem readMember_decides {key : Body} {name : String} {v : Value}
    {inner chars tail : List Char} {members : List (String × Value)} {offset : Nat}
    (hkey : key.Means name) (hinner : Blanks inner) (hgap : Blanks gap) (h : Spells v chars)
    (hends : Ends tail) (hlt : tail.length < c.rest.length)
    (hstep : readMemberStep state c = readEntry draft
      ⟨offset, key.chars ++ '"' :: (inner ++ ':' :: (gap ++ (chars ++ tail)))⟩)
    (hrest : ∀ result after, Decides (Draft.Fills result members)
      (repeatStep readMemberStep (result, false) ⟨after, tail⟩) rest) :
    Decides (draft.Fills ((name, v) :: members)) (repeatStep readMemberStep state c) rest := by
  obtain ⟨_, between, ⟨next, htakes, rfl⟩, hread⟩ | ⟨hnone, failure, hread⟩ :=
    readEntry_decides draft hkey hinner hgap h hends offset
  · rw [repeatStep_of_more (hstep.trans hread) hlt]
    refine (hrest next between).of_iff fun result => ⟨.cons htakes, fun hfills => ?_⟩
    cases hfills with
    | cons htakes' hfills =>
      rwa [htakes.unique htakes']
  · refine .inr ⟨fun result hfills => ?_, failure, repeatStep_of_error (hstep.trans hread)⟩
    cases hfills with
    | cons htakes _ => exact hnone _ ⟨_, htakes, rfl⟩

/-- From the first key on, the loop fills the draft with the members. -/
theorem readMembers_decides {raw : List (Body × Value)} {members : List (String × Value)}
    {chars behind : List Char} (h : SpellsMembers raw chars) (hkeys : Decodes raw members)
    (hchars : chars = '"' :: behind) (hgap : Blanks gap) {offset : Nat}
    (hlt : (behind ++ (gap ++ '\x7d' :: rest)).length < c.rest.length)
    (hstep : readMemberStep state c =
      readEntry draft ⟨offset, behind ++ (gap ++ '\x7d' :: rest)⟩) :
    Decides (draft.Fills members) (repeatStep readMemberStep state c) rest := by
  induction raw generalizing draft state c members chars behind offset with
  | nil => cases h
  | cons written raw ih =>
    obtain ⟨key, v⟩ := written
    obtain ⟨⟨name, _⟩, members, ⟨hmeans, rfl⟩, htail, rfl⟩ := List.forall₂_cons_left_iff.mp hkeys
    cases h with
    | last hkey hinside hvalue =>
      obtain rfl := List.forall₂_nil_left_iff.mp htail
      obtain ⟨inner, hinner, hquote⟩ := exists_quote_of_key hkey
      obtain rfl := (List.cons.inj (hchars.symm.trans (hquote _))).2
      simp only [List.append_assoc, List.cons_append] at hlt hstep
      refine readMember_decides hmeans hinner hinside hvalue (ends_closing hgap .object rest) ?_
        hstep fun result after => ?_
      · simp only [List.length_append, List.length_cons, Bracket.closing] at hlt ⊢
        omega
      · have hclose := readMemberStep_close result false hgap after rest
        exact .inl ⟨result, _, .nil result, repeatStep_of_done hclose⟩
    | more hkey hinside hvalue hbefore hafter hrest =>
      obtain ⟨inner, hinner, hquote⟩ := exists_quote_of_key hkey
      obtain rfl := (List.cons.inj (hchars.symm.trans (hquote _))).2
      obtain ⟨next, rfl⟩ := hrest.startsWith
      simp only [List.append_assoc, List.cons_append] at hlt hstep
      refine readMember_decides hmeans hinner hinside hvalue (ends_comma hbefore _) ?_ hstep
        fun result after => ?_
      · simp only [List.length_append, List.length_cons] at hlt ⊢
        omega
      · refine ih hrest htail rfl ?_ (readMemberStep_next hbefore hafter after)
        simp only [List.length_append, List.length_cons]
        omega

/-- The draft before the first member. -/
def Draft.blank : Draft := ⟨none, none, none⟩

theorem readObject_decides {raw : List (Body × Value)} {members : List (String × Value)}
    {chars : List Char} (h : Spells (.object raw) ('\x7b' :: chars)) (hkeys : Decodes raw members)
    (offset : Nat) (rest : List Char) :
    Decides (fun options => ∃ draft, Draft.blank.Fills members draft ∧ options = draft.finish)
      (readObject ⟨offset, chars ++ rest⟩) rest := by
  refine Decides.map ?_ Draft.finish
  cases h with
  | emptyObject hgap =>
    obtain rfl := List.forall₂_nil_left_iff.mp hkeys
    have hclose := readMemberStep_close Draft.blank true hgap offset rest
    rw [List.append_assoc, List.singleton_append]
    exact .inl ⟨Draft.blank, _, .nil _, repeatStep_of_done hclose⟩
  | object hbefore hmembers hafter =>
    obtain ⟨behind, rfl⟩ := hmembers.startsWith
    simp only [List.append_assoc, List.cons_append, List.nil_append]
    refine readMembers_decides hmembers hkeys rfl hafter ?_ (readMemberStep_first hbefore offset)
    simp only [List.length_append, List.length_cons]
    omega

theorem atEnd_skipBlanks_iff (offset : Nat) (rest : List Char) :
    (skipBlanks ⟨offset, rest⟩).atEnd = true ↔ Blanks rest := by
  simp only [skipBlanks, Cursor.skipWhile, Cursor.atEnd, List.isEmpty_iff,
    List.dropWhile_eq_nil_iff, Blanks]

/-- The options are those of the filled draft, if only white space follows. -/
theorem ofJson_cases {members : List (String × Value)} {before object after : List Char}
    {text : String} (hbefore : Blanks before) (hobject : SpellsObject members object)
    (htext : text.toList = before ++ (object ++ after)) :
    (∃ draft, Draft.blank.Fills members draft ∧ Blanks after ∧
      ofJson text = .ok draft.finish) ∨
    ((∀ draft, ¬(Draft.blank.Fills members draft ∧ Blanks after)) ∧
      ∃ fault, ofJson text = .error fault) := by
  obtain ⟨raw, hspells, hkeys⟩ := hobject
  obtain ⟨c, behind, rfl, hc⟩ := hspells.startsWith
  obtain rfl := hc
  have hopening : Json.isBlank '\x7b' = false := rfl
  have hvalue : readValue (Cursor.start text) =
      readObject ⟨0 + width before + 1, behind ++ after⟩ := by
    rw [Cursor.start, htext, readValue, List.cons_append, skipBlanks_cons hbefore hopening]
    rfl
  obtain ⟨_, last, ⟨draft, hfills, rfl⟩, hread⟩ | ⟨hnone, failure, hread⟩ :=
    readObject_decides hspells hkeys (0 + width before + 1) after
  · by_cases hafter : Blanks after
    · refine .inl ⟨draft, hfills, hafter, ?_⟩
      have hend := (atEnd_skipBlanks_iff last after).mpr hafter
      simp only [ofJson, readText, hvalue, hread, hend, bind, Except.bind, if_true]
      rfl
    · refine .inr ⟨fun _ h => hafter h.2, ?_⟩
      have hend := mt (atEnd_skipBlanks_iff last after).mp hafter
      simp only [ofJson, readText, hvalue, hread, bind, Except.bind, if_neg hend]
      exact ⟨_, rfl⟩
  · refine .inr ⟨fun draft h => hnone _ ⟨draft, h.1, rfl⟩, ?_⟩
    simp only [ofJson, readText, hvalue, hread, bind, Except.bind]
    exact ⟨_, rfl⟩

end Entries

section Settings

/-- The setting of a member in a record of options. -/
def get (options : Options) : Member → Setting
  | .nonFinite => .nonFinite options.nonFinite
  | .angle => .angle options.angle
  | .substituteConstants => .substituteConstants options.substituteConstants

theorem eq_of_get {a b : Options} (h : ∀ member, a.get member = b.get member) : a = b := by
  obtain ⟨nonFinite, angle, flag⟩ := a
  obtain ⟨nonFinite', angle', flag'⟩ := b
  obtain rfl := Setting.nonFinite.inj (h .nonFinite)
  obtain rfl := Setting.angle.inj (h .angle)
  obtain rfl := Setting.substituteConstants.inj (h .substituteConstants)
  rfl

theorem get_finish (draft : Draft) (member : Member) :
    draft.finish.get member = (draft.get? member).getD (get {} member) := by
  obtain ⟨nonFinite, angle, flag⟩ := draft
  cases member with
  | nonFinite => cases nonFinite <;> rfl
  | angle => cases angle <;> rfl
  | substituteConstants => cases flag <;> rfl

/-- The options are what the members give, and rejecting, in degrees and with constants
where there is no member. -/
structure Describes (members : List (String × Value)) (options : Options) : Prop where
  given : ∀ (member : Member) v, (member.name, v) ∈ members → (options.get member).GivenBy v
  absent : ∀ member : Member, member.name ∉ members.map Prod.fst →
    options.get member = get ⟨.reject, .degrees, true⟩ member

/-- No known member is repeated, and each has a value that it can have. -/
structure WellGiven (members : List (String × Value)) : Prop where
  once : ∀ member : Member, (members.map Prod.fst).count member.name ≤ 1
  accepts : ∀ (member : Member) v, (member.name, v) ∈ members → Accepts member v

variable {members : List (String × Value)}

theorem exists_mem_of_name_mem {member : Member} (h : member.name ∈ members.map Prod.fst) :
    ∃ v, (member.name, v) ∈ members := by
  obtain ⟨⟨key, v⟩, hmem, rfl⟩ := List.mem_map.mp h
  exact ⟨v, hmem⟩

theorem Describes.unique {a b : Options} (ha : Describes members a) (hb : Describes members b) :
    a = b := by
  refine eq_of_get fun member => ?_
  by_cases hmem : member.name ∈ members.map Prod.fst
  · obtain ⟨v, hv⟩ := exists_mem_of_name_mem hmem
    refine (ha.given member v hv).unique (hb.given member v hv) ?_
    cases member <;> rfl
  · rw [ha.absent member hmem, hb.absent member hmem]

theorem exists_fills_iff :
    (∃ draft, Draft.blank.Fills members draft) ↔ WellGiven members := by
  constructor
  · rintro ⟨draft, hfills⟩
    refine ⟨fun member => ?_, fun member v hv => ?_⟩
    · by_cases hmem : member.name ∈ members.map Prod.fst
      · exact ((hfills.get? member).2 hmem).2.1.le
      · rw [List.count_eq_zero_of_not_mem hmem]
        exact Nat.zero_le 1
    · obtain ⟨setting, hsetting, hgiven⟩ :=
        ((hfills.get? member).2 (List.mem_map_of_mem hv)).2.2 v hv
      exact ⟨setting, Draft.member_of_get? hsetting, hgiven⟩
  · intro h
    refine Draft.exists_fills (fun member _ => ?_) h.once h.accepts
    cases member <;> rfl

theorem describes_finish {draft : Draft} (h : Draft.blank.Fills members draft) :
    Describes members draft.finish := by
  refine ⟨fun member v hv => ?_, fun member hmem => ?_⟩
  · obtain ⟨setting, hsetting, hgiven⟩ := ((h.get? member).2 (List.mem_map_of_mem hv)).2.2 v hv
    rw [get_finish, hsetting]
    exact hgiven
  · rw [get_finish, (h.get? member).1 hmem]
    cases member <;> rfl

end Settings

section Texts

variable {members : List (String × Value)} {before object after : List Char} {text : String}

/-- Options are read from the text of an object exactly if its known members give them. -/
theorem ofJson_eq_ok_iff (hbefore : Blanks before) (hobject : SpellsObject members object)
    (htext : text.toList = before ++ (object ++ after)) (options : Options) :
    ofJson text = .ok options ↔
      WellGiven members ∧ Blanks after ∧ Describes members options := by
  obtain ⟨draft, hfills, hafter, hread⟩ | ⟨hnone, fault, hread⟩ :=
    ofJson_cases hbefore hobject htext
  · rw [hread, Except.ok.injEq]
    constructor
    · rintro rfl
      exact ⟨exists_fills_iff.mp ⟨draft, hfills⟩, hafter, describes_finish hfills⟩
    · exact fun h => (describes_finish hfills).unique h.2.2
  · rw [hread]
    constructor
    · intro h
      contradiction
    · rintro ⟨hgiven, hafter, -⟩
      obtain ⟨draft, hfills⟩ := exists_fills_iff.mpr hgiven
      exact absurd ⟨hfills, hafter⟩ (hnone draft)

/-- The members with a known key. -/
def known (members : List (String × Value)) : List (String × Value) :=
  members.filter fun m => (Member.ofName? m.1).isSome

theorem mem_known_iff {member : Member} {v : Value} :
    (member.name, v) ∈ known members ↔ (member.name, v) ∈ members := by
  simp [known, Member.ofName?_name]

theorem count_known (members : List (String × Value)) (member : Member) :
    ((known members).map Prod.fst).count member.name =
      (members.map Prod.fst).count member.name := by
  induction members with
  | nil => rfl
  | cons m members ih =>
    by_cases hkey : m.1 = member.name
    · have hknown : (Member.ofName? m.1).isSome = true := by
        rw [hkey, Member.ofName?_name]
        rfl
      rw [known, List.filter_cons_of_pos (by exact hknown), List.map_cons, List.map_cons, hkey,
        List.count_cons_self, List.count_cons_self, ← ih]
      rfl
    · rw [List.map_cons, List.count_cons_of_ne hkey, ← ih, known, List.filter_cons]
      split
      · rw [List.map_cons, List.count_cons_of_ne hkey]
        rfl
      · rfl

section Known

variable {members' : List (String × Value)} (hknown : (known members).Perm (known members'))
include hknown

theorem mem_iff_of_known (member : Member) (v : Value) :
    (member.name, v) ∈ members ↔ (member.name, v) ∈ members' := by
  rw [← mem_known_iff, hknown.mem_iff, mem_known_iff]

theorem count_eq_of_known (member : Member) :
    (members.map Prod.fst).count member.name = (members'.map Prod.fst).count member.name := by
  rw [← count_known, (hknown.map Prod.fst).count_eq, count_known]

theorem WellGiven.of_known (h : WellGiven members) : WellGiven members' where
  once member := count_eq_of_known hknown member ▸ h.once member
  accepts member v hv := h.accepts member v ((mem_iff_of_known hknown member v).mpr hv)

theorem Describes.of_known {options : Options} (h : Describes members options) :
    Describes members' options where
  given member v hv := h.given member v ((mem_iff_of_known hknown member v).mpr hv)
  absent member hmem := by
    refine h.absent member ?_
    rwa [← List.count_eq_zero, count_eq_of_known hknown, List.count_eq_zero]

end Known

/-- Reading options from the text of an object. If no known member is repeated and all of
them have values that they can have, and only white space follows, the options are those
that the members give, with the defaults in the other places; otherwise there is an error.
So the outcome depends on the known members only: not on their order, not on other members
and not on white space. -/
theorem ofJson_of_object (hbefore : Blanks before) (hobject : SpellsObject members object)
    (htext : text.toList = before ++ (object ++ after)) :
    ((∀ member : Member, (members.map Prod.fst).count member.name ≤ 1) →
      (∀ (member : Member) (v : Value), (member.name, v) ∈ members → Accepts member v) →
      Blanks after → ∃ options, ofJson text = .ok options ∧ Describes members options) ∧
    ((∃ member : Member, 2 ≤ (members.map Prod.fst).count member.name) ∨
      (∃ (member : Member) (v : Value), (member.name, v) ∈ members ∧ ¬Accepts member v) ∨
      ¬Blanks after → ∃ fault, ofJson text = .error fault) ∧
    ∀ (members' : List (String × Value)) (before' object' after' : List Char) (text' : String),
      Blanks before' → SpellsObject members' object' →
      text'.toList = before' ++ (object' ++ after') → (Blanks after ↔ Blanks after') →
      (known members).Perm (known members') → (ofJson text').toOption = (ofJson text).toOption := by
  have hiff := ofJson_eq_ok_iff hbefore hobject htext
  refine ⟨fun honce haccepts hafter => ?_, fun hbad => ?_, ?_⟩
  · obtain ⟨draft, hfills⟩ := exists_fills_iff.mpr ⟨honce, haccepts⟩
    have hdescribes := describes_finish hfills
    exact ⟨draft.finish, (hiff _).mpr ⟨⟨honce, haccepts⟩, hafter, hdescribes⟩, hdescribes⟩
  · cases hread : ofJson text with
    | error fault => exact ⟨fault, rfl⟩
    | ok options =>
      obtain ⟨⟨honce, haccepts⟩, hafter, -⟩ := (hiff options).mp hread
      rcases hbad with ⟨member, htwice⟩ | ⟨member, v, hv, hnot⟩ | hnot
      · have := honce member
        omega
      · exact absurd (haccepts member v hv) hnot
      · exact absurd hafter hnot
  · intro members' before' object' after' text' hbefore' hobject' htext' hafter hknown
    have hiff' := ofJson_eq_ok_iff hbefore' hobject' htext'
    have htoOption (result : Except Fault Options) (options : Options) :
        result.toOption = some options ↔ result = .ok options := by
      cases result <;> simp [Except.toOption]
    refine Option.ext fun options => ?_
    rw [htoOption, htoOption, hiff, hiff', hafter]
    constructor
    · rintro ⟨hgiven, hblank, hdescribes⟩
      exact ⟨hgiven.of_known hknown.symm, hblank, hdescribes.of_known hknown.symm⟩
    · rintro ⟨hgiven, hblank, hdescribes⟩
      exact ⟨hgiven.of_known hknown, hblank, hdescribes.of_known hknown⟩

/-- The first letter of the known key is written as an escape. -/
theorem ofJson_of_object_escaped_key :
    ∃ options, ofJson "\n\x7b\"\\u0061ngle\" :\"radians\", \"x\":[ ]\x7d " = .ok options ∧
      Describes [("angle", .string (Body.ofText "radians")), ("x", .list [])] options := by
  have hblank : Blanks [' '] := by simp [Blanks, Json.isBlank]
  have hmembers := SpellsMembers.more
    (.intro (.unit (.ofByte 0x61) :: Body.ofText "ngle") hblank) blanks_nil
    (.string (Body.ofText "radians")) blanks_nil hblank
    (.last (.intro (Body.ofText "x") blanks_nil) blanks_nil (.emptyList hblank))
  have hobject : SpellsObject
      [("angle", .string (Body.ofText "radians")), ("x", .list [])]
      "\x7b\"\\u0061ngle\" :\"radians\", \"x\":[ ]\x7d".toList :=
    ⟨_, .object blanks_nil hmembers blanks_nil,
      .cons ⟨rfl, rfl⟩ (.cons ⟨means_ofText "x", rfl⟩ .nil)⟩
  refine (ofJson_of_object (by simp [Blanks, Json.isBlank] : Blanks ['\n']) hobject rfl).1
    (fun member => ?_) (fun member v hv => ?_) hblank
  · cases member <;> decide
  · rcases List.mem_cons.mp hv with heq | hv
    · obtain ⟨hname, rfl⟩ := Prod.mk.inj heq
      obtain rfl : member = .angle := Member.name_injective hname
      exact ⟨.angle .radians, rfl, .angle (.bare (means_ofText "radians"))⟩
    · have hname := (Prod.mk.inj (List.mem_singleton.mp hv)).1
      cases member <;> exact absurd hname (by decide)

end Texts

end Abacus.Options
