import Abacus.Proofs.Automaton
import Abacus.Proofs.CursorTokens

/-!
Evaluation and machine agree. From a state that expects an operand, the machine
reads the tokens ahead of a cursor as a production reads the text: the value of
the production becomes the operand, and an error of the production stops the
machine at the same tokens. There is one statement for each production; what
follows at the end is about whole texts.
-/

namespace Abacus.Expression.Automaton

open Text Text.Cursor

theorem additive_eq_some {c : Char} {operation : Operation}
    (h : additive c = some operation) : c = '+' ∨ c = '-' := by
  unfold additive at h
  split at h <;> simp_all

theorem multiplicative_eq_some {c : Char} {operation : Operation}
    (h : multiplicative c = some operation) : c = '*' ∨ c = '/' ∨ c = '%' := by
  unfold multiplicative at h
  split at h <;> simp_all

/-- The operators are tokens of their own. -/
def Separable (operation? : Char → Option Operation) : Prop :=
  ∀ ⦃c operation⦄, operation? c = some operation → StandsAlone c

theorem separable_additive : Separable additive := by
  intro c operation h
  rcases additive_eq_some h with rfl | rfl <;> decide

theorem separable_multiplicative : Separable multiplicative := by
  intro c operation h
  rcases multiplicative_eq_some h with rfl | rfl | rfl <;> decide

/-- The operator ahead of a chain is the next token. -/
theorem Separable.exists_operator {operation? : Char → Option Operation} {c : Cursor}
    {operation : Operation} (h : Separable operation?)
    (hbind : c.skipSpaces.peek.bind operation? = some operation) :
    ∃ before ch, operation? ch = some operation ∧ c.Leads (before ++ [ch]) c.skipSpaces.next ∧
      c.tokens = .single ch :: c.skipSpaces.next.tokens := by
  obtain ⟨ch, hpeek, hch⟩ := Option.bind_eq_some_iff.mp hbind
  refine ⟨_, ch, hch, (leads_skipSpaces c).trans (leads_next hpeek (h hch)), ?_⟩
  rw [← tokens_skipSpaces, tokens_next hpeek (h hch)]

/-- The characters behind which a factor is read inside an open one. -/
def isOpener (c : Char) : Bool :=
  c == '(' || c == '+' || c == '-' || c == '^'

theorem standsAlone_of_isOpener {c : Char} (h : isOpener c = true) : StandsAlone c := by
  simp only [isOpener, Bool.or_eq_true, beq_iff_eq] at h
  rcases h with ((rfl | rfl) | rfl) | rfl <;> decide

/-- What comes of reading a number: a literal, or an error at the place of reading. -/
inductive NumberAt (c : Cursor) : Outcome → Prop where
  | literal {ch : Char} {run : List Char} {literal : Literal} {after : Cursor}
      (hliteral : Literal.ofRun? (ch :: run) = some literal) (hlead : c.Leads (ch :: run) after)
      (htokens : c.tokens = .run ch run :: after.tokens) : NumberAt c (.ok (literal.value, after))
  | malformed {ch : Char} {run : List Char} {after : Cursor}
      (hliteral : Literal.ofRun? (ch :: run) = none)
      (htokens : c.tokens = .run ch run :: after.tokens) :
      NumberAt c (.error (failAt (.malformedNumber (String.ofList (ch :: run))) c))
  | character {ch : Char} (hpeek : c.peek = some ch) (hnumber : isNumberChar ch = false) :
      NumberAt c (.error (failAt (.unexpectedCharacter ch) c))
  | atEnd (hpeek : c.peek = none) : NumberAt c (.error (failAt .unexpectedEnd c))

theorem number_spec (c : Cursor) : NumberAt c (number c) := by
  cases hpeek : c.peek with
  | none =>
    have hout : number c = .error (failAt .unexpectedEnd c) := by
      simp [number, unexpected, hpeek]
    rw [hout]
    exact .atEnd hpeek
  | some ch =>
    by_cases hnumber : isNumberChar ch = true
    · obtain ⟨run, after, hscan, hlead, htokens⟩ := exists_scanNumber hpeek hnumber
      simp only [number, hpeek, Option.any_some, if_pos hnumber, hscan]
      cases hliteral : Literal.ofRun? (ch :: run) with
      | some literal => exact .literal hliteral hlead htokens
      | none => exact .malformed hliteral htokens
    · have hout : number c = .error (failAt (.unexpectedCharacter ch) c) := by
        simp [number, unexpected, hpeek, hnumber]
      rw [hout]
      exact .character hpeek (by simpa using hnumber)

/-- A factor is a sign with the factor behind it, or a power. -/
theorem factor_succ_cases (room : Nat) (c : Cursor) :
    (∃ before ahead, c.Leads (before ++ ['+']) ahead ∧
      c.tokens = .single '+' :: ahead.tokens ∧ factor (room + 1) c = factor room ahead) ∨
    (∃ before ahead, c.Leads (before ++ ['-']) ahead ∧
      c.tokens = .single '-' :: ahead.tokens ∧
      factor (room + 1) c = negated (factor room) ahead) ∨
    ((∀ t ∈ c.tokens.head?, t.head ≠ '+' ∧ t.head ≠ '-') ∧
      factor (room + 1) c =
        power (primary (expression (factor room))) (factor room) c.skipSpaces.skipSpaces) := by
  rcases c.eat_cases '+' (by decide) with ⟨before, ahead, heat, hlead, htokens⟩ | ⟨heat, hplus⟩
  · left
    exact ⟨before, ahead, hlead, htokens, by simp only [factor, heat]⟩
  · right
    rcases c.skipSpaces.eat_cases '-' (by decide) with
      ⟨before, ahead, heat', hlead, htokens⟩ | ⟨heat', hminus⟩
    · left
      rw [tokens_skipSpaces] at htokens
      have hbehind := (leads_skipSpaces c).trans hlead
      rw [← List.append_assoc] at hbehind
      exact ⟨_, ahead, hbehind, htokens, by simp only [factor, heat, heat']⟩
    · right
      rw [tokens_skipSpaces] at hminus
      refine ⟨fun t ht => ?_, by simp only [factor, heat, heat']⟩
      rw [Option.mem_def.mp ht] at hplus hminus
      exact ⟨fun h => hplus (congrArg some h), fun h => hminus (congrArg some h)⟩

/-- The cursor stands at the end or on a token whose first character has `p`. -/
def Before (p : Char → Prop) (c : Cursor) : Prop :=
  c.Settled ∧ ∀ t ∈ c.tokens.head?, p t.head

/-- The text from `c` to `d` takes the machine from `s` to the operand `x`. -/
structure Reads (limit : Nat) (s : State) (c : Cursor) (x : Float) (d : Cursor) : Prop where
  leads : ∃ before, c.Leads before d
  run_eq : run limit s c.tokens = run limit (s.holding x) d.tokens
  active_le : s.active ≤ limit

/-- The error is about a place where the machine stops for the same cause. Too
deep a factor is noticed just behind the character that opens it, or at once. -/
def Fails (limit : Nat) (s : State) (c : Cursor) (e : SyntaxError) : Prop :=
  ∃ before d, c.Leads before d ∧ e = failAt e.cause d ∧
    run limit s c.tokens = .error (e.cause, d.tokens) ∧
    if e.cause = .nestedTooDeeply then
      (∃ o ∈ before.getLast?, isOpener o = true) ∨ (before = [] ∧ limit < s.active)
    else d.Settled

def Agrees (limit : Nat) (s : State) (stop : Cursor → Prop) (c : Cursor) : Outcome → Prop
  | .ok (x, d) => Reads limit s c x d ∧ stop d
  | .error e => Fails limit s c e

section Steps

variable {limit : Nat} {s s' : State} {c d : Cursor} {before : List Char}

theorem Reads.trans {x y : Float} {e : Cursor} (h : Reads limit s c x d)
    (h' : Reads limit (s.holding x) d y e) : Reads limit s c y e where
  leads := by
    obtain ⟨before, hbefore⟩ := h.leads
    obtain ⟨between, hbetween⟩ := h'.leads
    exact ⟨_, hbefore.trans hbetween⟩
  run_eq := h.run_eq.trans h'.run_eq
  active_le := h.active_le

theorem Fails.behind {e : SyntaxError} (hlead : c.Leads before d)
    (hrun : run limit s c.tokens = run limit s' d.tokens)
    (hopen : (∃ o ∈ before.getLast?, isOpener o = true) ∨ s'.active ≤ limit)
    (h : Fails limit s' d e) : Fails limit s c e := by
  obtain ⟨between, place, hlead', he, hrun', hplace⟩ := h
  refine ⟨before ++ between, place, hlead.trans hlead', he, hrun.trans hrun', ?_⟩
  split
  · rename_i hdeep
    rw [if_pos hdeep] at hplace
    rcases hplace with ⟨o, ho, hopens⟩ | ⟨hnil, hlimit⟩
    · left
      refine ⟨o, ?_, hopens⟩
      rw [List.getLast?_append, Option.mem_def.mp ho]
      rfl
    · rcases hopen with hopen | hle
      · left
        rwa [hnil, List.append_nil]
      · omega
  · rename_i hdeep
    rwa [if_neg hdeep] at hplace

theorem Agrees.behind_operand {x : Float} {stop : Cursor → Prop} {outcome : Outcome}
    (h : Reads limit s c x d) (h' : Agrees limit (s.holding x) stop d outcome) :
    Agrees limit s stop c outcome := by
  cases outcome with
  | ok result => exact ⟨h.trans h'.1, h'.2⟩
  | error e =>
    obtain ⟨before, hlead⟩ := h.leads
    exact Fails.behind hlead h.run_eq (Or.inr h.active_le) h'

/-- Spaces in front of a production change nothing. -/
theorem Agrees.skip {stop : Cursor → Prop} {outcome : Outcome} (hactive : s.active ≤ limit)
    (h : Agrees limit s stop c.skipSpaces outcome) : Agrees limit s stop c outcome := by
  have hlead := leads_skipSpaces c
  have hrun : run limit s c.tokens = run limit s c.skipSpaces.tokens := by
    rw [tokens_skipSpaces]
  cases outcome with
  | ok result =>
    obtain ⟨⟨between, hbetween⟩, hreads, _⟩ := h.1
    exact ⟨⟨⟨_, hlead.trans hbetween⟩, hrun.trans hreads, hactive⟩, h.2⟩
  | error e => exact Fails.behind hlead hrun (Or.inr hactive) h

/-- Once no power follows, a waiting factor may be closed. -/
theorem run_close {outer : List Level} {level : Level} {waiting : Waiting} {x : Float}
    {ts : List Token} (hactive : State.active ⟨outer, level.wait waiting, none⟩ ≤ limit)
    (hhead : ∀ t ∈ ts.head?, t.head ≠ '^') :
    run limit ⟨outer, level.wait waiting, some x⟩ ts =
      run limit ⟨outer, level, some (waiting.close x)⟩ ts := by
  apply run_congr
  · exact hactive
  · rw [State.active_wait _ _ _ _ none] at hactive
    exact Nat.le_of_succ_le hactive
  · intro t ht
    simp only [State.read, State.readBehind, if_neg (hhead t ht)]
    rfl
  · cases outer <;> rfl

/-- A product may be worked out once no power follows. -/
theorem run_product {outer : List Level} {sum : Pending} {x y : Float} {operation : Operation}
    {ts : List Token} (hactive : State.active ⟨outer, ⟨sum, some (x, operation), []⟩, none⟩ ≤ limit)
    (hhead : ∀ t ∈ ts.head?, t.head ≠ '^') :
    run limit ⟨outer, ⟨sum, some (x, operation), []⟩, some y⟩ ts =
      run limit ⟨outer, ⟨sum, none, []⟩, some (operation x y)⟩ ts := by
  apply run_congr
  · exact hactive
  · exact hactive
  · intro t ht
    simp only [State.read, State.readBehind, if_neg (hhead t ht)]
    rfl
  · cases outer <;> rfl

/-- A sum may be worked out once no tighter operator follows. -/
theorem run_sum {outer : List Level} {x y : Float} {operation : Operation} {ts : List Token}
    (hactive : State.active ⟨outer, ⟨some (x, operation), none, []⟩, none⟩ ≤ limit)
    (hhead : ∀ t ∈ ts.head?, t.head ≠ '^' ∧ multiplicative t.head = none) :
    run limit ⟨outer, ⟨some (x, operation), none, []⟩, some y⟩ ts =
      run limit ⟨outer, ⟨none, none, []⟩, some (operation x y)⟩ ts := by
  apply run_congr
  · exact hactive
  · exact hactive
  · intro t ht
    obtain ⟨hpower, hproduct⟩ := hhead t ht
    simp only [State.read, State.readBehind, if_neg hpower, hproduct]
    rfl
  · cases outer <;> rfl

/-- Where the machine expects an operand, and no sign and no group comes next, it
reads a token as a number is read. -/
theorem number_agrees (hoperand : s.operand = none) (hactive : s.active ≤ limit)
    (hc : c.Settled)
    (hhead : ∀ t ∈ c.tokens.head?, t.head ≠ '+' ∧ t.head ≠ '-' ∧ t.head ≠ '(') :
    Agrees limit s (fun _ => True) c (number c) := by
  have hread : ∀ t, s.read t = s.readOperand t := fun t => by rw [State.read, hoperand]
  have hspec := number_spec c
  generalize number c = outcome at hspec ⊢
  cases hspec with
  | literal hliteral hlead htokens =>
    refine ⟨⟨⟨_, hlead⟩, ?_, hactive⟩, trivial⟩
    rw [htokens]
    apply run_cons_of_ok hactive
    simp only [hread, State.readOperand, hliteral]
  | malformed hliteral htokens =>
    refine ⟨[], c, .refl c, rfl, ?_, hc⟩
    rw [htokens]
    apply run_cons_of_error hactive
    simp only [hread, State.readOperand, hliteral]
    rfl
  | @character ch hpeek hnumber =>
    have hspace : ch ≠ ' ' := by
      rintro rfl
      exact hc hpeek
    have htokens := tokens_next hpeek ⟨hspace, hnumber⟩
    have hne := hhead (.single ch) (by rw [htokens]; rfl)
    refine ⟨[], c, .refl c, rfl, ?_, hc⟩
    rw [htokens]
    apply run_cons_of_error hactive
    exact (hread _).trans (State.readOperand_single s hne)
  | atEnd hpeek =>
    have htokens : c.tokens = [] := by
      rw [peek_of_settled hc] at hpeek
      simpa using hpeek
    refine ⟨[], c, .refl c, rfl, ?_, hc⟩
    rw [htokens, run_nil hactive, State.finish, hoperand]
    rfl

end Steps

section Productions

variable {limit : Nat} {outer : List Level} {level : Level}

/-- No operator takes the character. -/
def Closes (c : Char) : Prop :=
  (c ≠ '^' ∧ multiplicative c = none) ∧ additive c = none

theorem readBehind_of_closes {s : State} {x : Float} {c : Char} (h : Closes c) :
    s.readBehind x c = s.leave x c := by
  simp only [State.readBehind, if_neg h.1.1, h.1.2, h.2]

/-- Behind the expression of a group the machine refuses all but the closing
parenthesis. -/
theorem run_missing {x : Float} {d : Cursor}
    (hactive : State.active ⟨level :: outer, {}, some x⟩ ≤ limit) (hd : Before Closes d)
    (hclose : d.tokens.head?.map Token.head ≠ some ')') :
    run limit ⟨level :: outer, {}, some x⟩ d.tokens = .error (.missingParenthesis, d.tokens) := by
  cases htokens : d.tokens with
  | nil => exact run_nil hactive
  | cons t rest =>
    apply run_cons_of_error hactive
    have ht : Closes t.head := hd.2 t (by rw [htokens]; rfl)
    have hne : t.head ≠ ')' := by
      intro hhead
      rw [htokens] at hclose
      exact hclose (congrArg some hhead)
    simp only [State.read, readBehind_of_closes ht, State.leave, if_neg hne]

theorem primary_agrees {inner : Production} {c : Cursor}
    (hactive : State.active ⟨outer, level, none⟩ ≤ limit)
    (hinner : ∀ d, Agrees limit ⟨level :: outer, {}, none⟩ (Before Closes) d (inner d))
    (hhead : ∀ t ∈ c.tokens.head?, t.head ≠ '+' ∧ t.head ≠ '-') :
    Agrees limit ⟨outer, level, none⟩ (fun _ => True) c (primary inner c) := by
  rcases c.eat_cases '(' (by decide) with
    ⟨before, inside, heat, hlead, htokens⟩ | ⟨heat, hne⟩
  · have hrun : run limit ⟨outer, level, none⟩ c.tokens =
        run limit ⟨level :: outer, {}, none⟩ inside.tokens := by
      rw [htokens]
      exact run_cons_of_ok hactive rfl _
    have hopen : ∃ o ∈ (before ++ ['(']).getLast?, isOpener o = true :=
      ⟨'(', by simp, rfl⟩
    have hinside := hinner inside
    cases hout : inner inside with
    | error e =>
      rw [hout] at hinside
      have hfail : primary inner c = .error e := by
        simp [primary, heat, hout, bind, Except.bind]
      rw [hfail]
      exact Fails.behind hlead hrun (Or.inl hopen) hinside
    | ok result =>
      obtain ⟨x, after⟩ := result
      rw [hout] at hinside
      obtain ⟨⟨⟨between, hbetween⟩, hreads, hle⟩, hstop⟩ := hinside
      have hactive' : State.active ⟨level :: outer, {}, some x⟩ ≤ limit := hle
      rcases after.eat_cases ')' (by decide) with
        ⟨between', outside, heat', hlead', htokens'⟩ | ⟨heat', hne'⟩
      · have hok : primary inner c = .ok (x, outside) := by
          simp [primary, heat, hout, heat', bind, Except.bind]
        rw [hok]
        refine ⟨⟨⟨_, (hlead.trans hbetween).trans hlead'⟩, ?_, hactive⟩, trivial⟩
        rw [hrun, hreads, htokens']
        exact run_cons_of_ok hactive' rfl _
      · have hfail : primary inner c = .error (failAt .missingParenthesis after.skipSpaces) := by
          simp [primary, heat, hout, heat', bind, Except.bind]
        rw [hfail]
        refine ⟨_, after.skipSpaces, (hlead.trans hbetween).trans (leads_skipSpaces after), rfl,
          ?_, settled_skipSpaces after⟩
        rw [hrun, hreads, tokens_skipSpaces]
        exact run_missing hactive' hstop hne'
  · have hnumber : primary inner c = number c.skipSpaces := by
      simp [primary, heat]
    have hagrees : Agrees limit ⟨outer, level, none⟩ (fun _ => True) c.skipSpaces
        (number c.skipSpaces) := by
      apply number_agrees rfl hactive (settled_skipSpaces c)
      rw [tokens_skipSpaces]
      intro t ht
      refine ⟨(hhead t ht).1, (hhead t ht).2, fun hpar => hne ?_⟩
      rw [Option.mem_def.mp ht, ← hpar]
      rfl
    rw [hnumber]
    exact Agrees.skip hactive hagrees

/-- A factor inside another one, behind the character that opens it. -/
theorem opened_agrees {s : State} (waiting : Waiting) {c ahead : Cursor} {before : List Char}
    {ch : Char} {outcome : Outcome} (hactive : s.active ≤ limit)
    (hread : s.read (.single ch) = .ok ⟨s.outer, s.level.wait waiting, none⟩)
    (hopen : isOpener ch = true) (hlead : c.Leads (before ++ [ch]) ahead)
    (htokens : c.tokens = .single ch :: ahead.tokens)
    (hinner : Agrees limit ⟨s.outer, s.level.wait waiting, none⟩ (Before (· ≠ '^')) ahead outcome) :
    Agrees limit s (Before (· ≠ '^')) c (outcome.map fun r => (waiting.close r.1, r.2)) := by
  have hrun : run limit s c.tokens =
      run limit ⟨s.outer, s.level.wait waiting, none⟩ ahead.tokens := by
    rw [htokens]
    exact run_cons_of_ok hactive hread _
  cases outcome with
  | error e => exact Fails.behind hlead hrun (Or.inl ⟨ch, by simp, hopen⟩) hinner
  | ok result =>
    obtain ⟨⟨⟨between, hbetween⟩, hrun', hactive'⟩, hstop⟩ := hinner
    refine ⟨⟨⟨_, hlead.trans hbetween⟩, ?_, hactive⟩, hstop⟩
    exact hrun.trans (hrun'.trans (run_close hactive' hstop.2))

theorem power_agrees {base exponent : Production} {c : Cursor}
    (hbase : Agrees limit ⟨outer, level, none⟩ (fun _ => True) c (base c))
    (hexponent : ∀ x d, Agrees limit ⟨outer, level.wait (.exponent x), none⟩
      (Before (· ≠ '^')) d (exponent d)) :
    Agrees limit ⟨outer, level, none⟩ (Before (· ≠ '^')) c (power base exponent c) := by
  cases hout : base c with
  | error e =>
    have hfail : power base exponent c = .error e := by
      simp [power, hout, bind, Except.bind]
    rw [hout] at hbase
    rw [hfail]
    exact hbase
  | ok result =>
    obtain ⟨x, after⟩ := result
    rw [hout] at hbase
    have hreads : Reads limit ⟨outer, level, none⟩ c x after := hbase.1
    have hactive : State.active ⟨outer, level, some x⟩ ≤ limit := hreads.active_le
    apply Agrees.behind_operand hreads
    rcases after.eat_cases '^' (by decide) with
      ⟨before, ahead, heat, hlead, htokens⟩ | ⟨heat, hne⟩
    · have hpower : power base exponent c =
          (exponent ahead).map fun r => (Float.pow x r.1, r.2) := by
        simp only [power, hout, heat, bind, Except.bind]
        cases exponent ahead <;> rfl
      rw [hpower]
      exact opened_agrees (.exponent x) hactive rfl rfl hlead htokens
        (hexponent x ahead)
    · have hok : power base exponent c = .ok (x, after.skipSpaces) := by
        simp [power, hout, heat, bind, Except.bind]
      rw [hok]
      apply Agrees.skip hactive
      refine ⟨⟨⟨[], .refl _⟩, rfl, hactive⟩, settled_skipSpaces after, ?_⟩
      rw [tokens_skipSpaces]
      intro t ht hhead
      rw [Option.mem_def.mp ht] at hne
      exact hne (congrArg some hhead)

/-- A chain of operands. `waiting` is the state while an operand is expected,
with what is pending in front of it. -/
structure Chained (limit : Nat) (operation? : Char → Option Operation) (operand : Production)
    (waiting : Pending → State) (p : Char → Prop) : Prop where
  operand_agrees : ∀ pending c, Agrees limit (waiting pending) (Before p) c (operand c)
  separable : Separable operation?
  read_operator : ∀ {c operation} x, operation? c = some operation →
    ((waiting none).holding x).read (.single c) = .ok (waiting (some (x, operation)))
  run_combine : ∀ {x y operation ts}, (waiting (some (x, operation))).active ≤ limit →
    (∀ t ∈ ts.head?, p t.head) →
      run limit ((waiting (some (x, operation))).holding y) ts =
        run limit ((waiting none).holding (operation x y)) ts
  active_eq : ∀ pending, (waiting pending).active = (waiting none).active

variable {operation? : Char → Option Operation} {operand : Production}
  {waiting : Pending → State} {p : Char → Prop}

/-- The operator ahead of a chain takes the machine to the next operand. -/
theorem Chained.exists_leads (h : Chained limit operation? operand waiting p) {x : Float}
    {c : Cursor} {operation : Operation} (hactive : ((waiting none).holding x).active ≤ limit)
    (hbind : c.skipSpaces.peek.bind operation? = some operation) :
    ∃ before ch, c.Leads (before ++ [ch]) c.skipSpaces.next ∧
      run limit ((waiting none).holding x) c.tokens =
        run limit (waiting (some (x, operation))) c.skipSpaces.next.tokens := by
  obtain ⟨before, ch, hch, hlead, htokens⟩ := h.separable.exists_operator hbind
  refine ⟨before, ch, hlead, ?_⟩
  rw [htokens]
  exact run_cons_of_ok hactive (h.read_operator x hch) _

/-- One operator and one operand are read to their combination. -/
theorem Chained.reads_operand (h : Chained limit operation? operand waiting p) {x y : Float}
    {c after : Cursor} {operation : Operation}
    (hactive : ((waiting none).holding x).active ≤ limit)
    (hbind : c.skipSpaces.peek.bind operation? = some operation)
    (hout : operand c.skipSpaces.next = .ok (y, after)) :
    Reads limit ((waiting none).holding x) c (operation x y) after ∧
      after.rest.length < c.rest.length ∧ ∀ t ∈ after.tokens.head?, p t.head := by
  obtain ⟨before, ch, hlead, hrun⟩ := h.exists_leads hactive hbind
  have hoperand := h.operand_agrees (some (x, operation)) c.skipSpaces.next
  rw [hout] at hoperand
  obtain ⟨⟨⟨between, hbetween⟩, hrun', hactive'⟩, hstop⟩ := hoperand
  refine ⟨⟨⟨_, hlead.trans hbetween⟩, ?_, hactive⟩, ?_, hstop.2⟩
  · exact hrun.trans (hrun'.trans (h.run_combine hactive' hstop.2))
  · exact Nat.lt_of_le_of_lt hbetween.length_le hlead.length_lt

theorem Chained.chainFrom_agrees (h : Chained limit operation? operand waiting p) {x : Float}
    {c : Cursor} (hactive : ((waiting none).holding x).active ≤ limit)
    (hc : ∀ t ∈ c.tokens.head?, p t.head) :
    Agrees limit ((waiting none).holding x) (Before fun ch => p ch ∧ operation? ch = none) c
      (chainFrom operation? operand x c) := by
  fun_induction chainFrom operation? operand x c with
  | case1 x c ahead hbind =>
    have hsettled : ahead.Settled := settled_skipSpaces c
    apply Agrees.skip hactive
    refine ⟨⟨⟨[], .refl _⟩, rfl, hactive⟩, hsettled, ?_⟩
    intro t ht
    have hpeek := peek_of_settled hsettled
    rw [Option.mem_def.mp ht, Option.map_some] at hpeek
    rw [hpeek, Option.bind_some] at hbind
    have hahead : ahead.tokens = c.tokens := tokens_skipSpaces c
    exact ⟨hc t (hahead ▸ ht), hbind⟩
  | case2 x c ahead operation hbind e hout =>
    obtain ⟨before, ch, hlead, hrun⟩ := h.exists_leads hactive hbind
    have hoperand := h.operand_agrees (some (x, operation)) ahead.next
    rw [hout] at hoperand
    have hactive' : (waiting (some (x, operation))).active ≤ limit := by
      rw [h.active_eq]
      exact hactive
    exact Fails.behind hlead hrun (Or.inr hactive') hoperand
  | case3 x c ahead operation hbind y after hout _ ih =>
    obtain ⟨hreads, -, hafter⟩ := h.reads_operand hactive hbind hout
    exact Agrees.behind_operand hreads (ih hactive hafter)
  | case4 x c ahead operation hbind y after hout hnot =>
    obtain ⟨-, hlt, -⟩ := h.reads_operand hactive hbind hout
    exact absurd hlt hnot

theorem Chained.chain_agrees (h : Chained limit operation? operand waiting p) (c : Cursor) :
    Agrees limit (waiting none) (Before fun ch => p ch ∧ operation? ch = none) c
      (chain operation? operand c) := by
  have hoperand := h.operand_agrees none c
  cases hout : operand c with
  | error e =>
    have hfail : chain operation? operand c = .error e := by
      simp [chain, hout, bind, Except.bind]
    rw [hout] at hoperand
    rw [hfail]
    exact hoperand
  | ok result =>
    obtain ⟨x, after⟩ := result
    have hok : chain operation? operand c = chainFrom operation? operand x after := by
      simp [chain, hout, bind, Except.bind]
    rw [hout] at hoperand
    rw [hok]
    exact Agrees.behind_operand hoperand.1
      (h.chainFrom_agrees hoperand.1.active_le hoperand.2.2)

theorem term_chained {factor : Production} {sum : Pending}
    (hfactor : ∀ product c, Agrees limit ⟨outer, ⟨sum, product, []⟩, none⟩
      (Before (· ≠ '^')) c (factor c)) :
    Chained limit multiplicative factor (fun product => ⟨outer, ⟨sum, product, []⟩, none⟩)
      (· ≠ '^') where
  operand_agrees := hfactor
  separable := separable_multiplicative
  read_operator := by
    intro c operation x h
    have hpower : c ≠ '^' := by
      rintro rfl
      simp [multiplicative] at h
    simp only [State.read, State.holding, Token.head, State.readBehind, if_neg hpower, h]
    rfl
  run_combine := run_product
  active_eq := fun _ => rfl

theorem expression_chained {term : Production}
    (hterm : ∀ sum c, Agrees limit ⟨outer, ⟨sum, none, []⟩, none⟩
      (Before fun ch => ch ≠ '^' ∧ multiplicative ch = none) c (term c)) :
    Chained limit additive term (fun sum => ⟨outer, ⟨sum, none, []⟩, none⟩)
      (fun ch => ch ≠ '^' ∧ multiplicative ch = none) where
  operand_agrees := hterm
  separable := separable_additive
  read_operator := by
    intro c operation x h
    have hne : c ≠ '^' ∧ multiplicative c = none := by
      rcases additive_eq_some h with rfl | rfl <;> decide
    simp only [State.read, State.holding, Token.head, State.readBehind, if_neg hne.1, hne.2, h]
    rfl
  run_combine := run_sum
  active_eq := fun _ => rfl

theorem expression_agrees {factor : Production}
    (hfactor : ∀ level c, level.factors = [] →
      Agrees limit ⟨outer, level, none⟩ (Before (· ≠ '^')) c (factor c)) (c : Cursor) :
    Agrees limit ⟨outer, {}, none⟩ (Before Closes) c (expression factor c) := by
  have hterm : ∀ sum c, Agrees limit ⟨outer, ⟨sum, none, []⟩, none⟩
      (Before fun ch => ch ≠ '^' ∧ multiplicative ch = none) c (chain multiplicative factor c) :=
    fun sum c => (term_chained fun product c => hfactor ⟨sum, product, []⟩ c rfl).chain_agrees c
  exact (expression_chained hterm).chain_agrees c

/-- The room of a factor is what the limit leaves open. -/
theorem factor_agrees (room : Nat) {outer : List Level} {level : Level} (c : Cursor)
    (hroom : State.active ⟨outer, level, none⟩ + room = limit + 1) :
    Agrees limit ⟨outer, level, none⟩ (Before (· ≠ '^')) c (factor room c) := by
  induction room generalizing outer level c with
  | zero =>
    have hdeep : limit < State.active ⟨outer, level, none⟩ := by omega
    exact ⟨[], c, .refl c, rfl, run_tooDeep _ hdeep, Or.inr ⟨rfl, hdeep⟩⟩
  | succ room ih =>
    have hactive : State.active ⟨outer, level, none⟩ ≤ limit := by omega
    have hinner : ∀ waiting d, Agrees limit ⟨outer, level.wait waiting, none⟩
        (Before (· ≠ '^')) d (factor room d) := by
      intro waiting d
      apply ih d
      rw [State.active_wait _ _ _ _ none]
      omega
    have hgroup : ∀ d, Agrees limit ⟨level :: outer, {}, none⟩ (Before Closes) d
        (expression (factor room) d) := by
      apply expression_agrees
      intro level' d hlevel
      apply ih d
      simp only [State.active, State.activeIn, hlevel, List.length_nil] at hroom ⊢
      omega
    rcases factor_succ_cases room c with
      ⟨before, ahead, hlead, htokens, hfactor⟩ | ⟨before, ahead, hlead, htokens, hfactor⟩ |
        ⟨hhead, hfactor⟩
    · have hmap : factor (room + 1) c = (factor room ahead).map fun r => (r.1, r.2) := by
        rw [hfactor]
        cases factor room ahead <;> rfl
      rw [hmap]
      exact opened_agrees (.sign false) hactive rfl rfl hlead htokens (hinner _ _)
    · have hmap : factor (room + 1) c = (factor room ahead).map fun r => (-r.1, r.2) := by
        rw [hfactor, negated]
        cases factor room ahead <;> rfl
      rw [hmap]
      exact opened_agrees (.sign true) hactive rfl rfl hlead htokens (hinner _ _)
    · rw [hfactor]
      apply Agrees.skip hactive
      apply Agrees.skip hactive
      refine power_agrees (primary_agrees hactive hgroup ?_) fun x d => hinner _ d
      rwa [tokens_skipSpaces, tokens_skipSpaces]

end Productions

section Texts

variable {limit : Nat} {text : String}

theorem tokens_start (text : String) : (Cursor.start text).tokens = tokens text := rfl

/-- The whole evaluation of a text and the whole run over its tokens. -/
theorem evaluateWithin_agrees (limit : Nat) (text : String) :
    match evaluateWithin limit text with
    | .ok x => run limit .start (tokens text) = .ok x
    | .error e => Fails limit .start (Cursor.start text) e := by
  have hfactor : ∀ level c, level.factors = [] →
      Agrees limit ⟨[], level, none⟩ (Before (· ≠ '^')) c (factor limit c) := by
    intro level c hlevel
    apply factor_agrees
    simp only [State.active, State.activeIn, hlevel, List.length_nil]
    omega
  have hagrees := expression_agrees hfactor (Cursor.start text)
  cases hout : expression (factor limit) (Cursor.start text) with
  | error e =>
    have hfail : evaluateWithin limit text = .error e := by
      simp [evaluateWithin, hout, bind, Except.bind]
    rw [hout] at hagrees
    rw [hfail]
    exact hagrees
  | ok result =>
    obtain ⟨x, after⟩ := result
    rw [hout] at hagrees
    obtain ⟨⟨⟨before, hlead⟩, hrun, hle⟩, hsettled, hcloses⟩ := hagrees
    have hactive : (State.start.holding x).active ≤ limit := hle
    rw [tokens_start] at hrun
    cases hrest : after.rest with
    | nil =>
      have hok : evaluateWithin limit text = .ok x := by
        simp [evaluateWithin, hout, Cursor.atEnd, hrest, bind, Except.bind]
      rw [hok]
      change run limit .start (tokens text) = .ok x
      refine hrun.trans ?_
      rw [(rest_eq_nil_iff hsettled).mp hrest]
      exact run_nil hactive
    | cons ch rest =>
      have hpeek : after.peek = some ch := by simp [Cursor.peek, hrest]
      have hfail : evaluateWithin limit text =
          .error (failAt (.unexpectedCharacter ch) after) := by
        simp [evaluateWithin, hout, Cursor.atEnd, hrest, unexpected, hpeek, bind, Except.bind]
      rw [hfail]
      refine ⟨before, after, hlead, rfl, hrun.trans ?_, hsettled⟩
      have hhead := peek_of_settled hsettled
      rw [hpeek] at hhead
      obtain ⟨t, ht, htch⟩ := Option.map_eq_some_iff.mp hhead.symm
      obtain ⟨more, htokens⟩ := List.head?_eq_some_iff.mp ht
      rw [htokens]
      apply run_cons_of_error hactive
      have hread : (State.start.holding x).read t = State.start.leave x ch := by
        rw [← htch]
        exact readBehind_of_closes (hcloses t ht)
      rw [hread]
      rfl

theorem evaluateWithin_eq_ok_iff {x : Float} :
    evaluateWithin limit text = .ok x ↔ run limit .start (tokens text) = .ok x := by
  have h := evaluateWithin_agrees limit text
  cases hout : evaluateWithin limit text with
  | ok y =>
    rw [hout] at h
    simp [h]
  | error e =>
    rw [hout] at h
    obtain ⟨_, _, _, _, hrun, _⟩ := h
    rw [tokens_start] at hrun
    simp [hrun]

theorem fails_of_evaluateWithin {e : SyntaxError} (h : evaluateWithin limit text = .error e) :
    Fails limit .start (Cursor.start text) e := by
  have hagrees := evaluateWithin_agrees limit text
  rwa [h] at hagrees

theorem exists_of_run_error {cause : Cause} {ahead : List Token}
    (h : run limit .start (tokens text) = .error (cause, ahead)) :
    ∃ e, evaluateWithin limit text = .error e ∧ e.cause = cause := by
  cases hout : evaluateWithin limit text with
  | ok x =>
    rw [evaluateWithin_eq_ok_iff.mp hout] at h
    contradiction
  | error e =>
    obtain ⟨_, _, _, _, hrun, _⟩ := fails_of_evaluateWithin hout
    rw [tokens_start, h] at hrun
    cases hrun
    exact ⟨e, rfl, rfl⟩

/-- An error of the machine is an error of the evaluation at the settled cursor
with the same tokens ahead. -/
theorem evaluateWithin_eq_error {cause : Cause} {before : List Char} {d : Cursor}
    (hlead : (Cursor.start text).Leads before d) (hd : d.Settled)
    (hcause : cause ≠ .nestedTooDeeply)
    (h : run limit .start (tokens text) = .error (cause, d.tokens)) :
    evaluateWithin limit text = .error (failAt cause d) := by
  obtain ⟨e, he, rfl⟩ := exists_of_run_error h
  obtain ⟨between, place, hlead', hfail, hrun, hplace⟩ := fails_of_evaluateWithin he
  rw [tokens_start, h] at hrun
  simp only [Except.error.injEq, Prod.mk.injEq, true_and] at hrun
  rw [if_neg hcause] at hplace
  obtain ⟨_, rfl⟩ := hlead.eq_of_settled hlead' hd hplace (by rw [hrun])
  rw [he, ← hfail]

/-- Where too deep a factor stops the machine, it stops the evaluation just
behind the character that opens the factor. -/
theorem evaluateWithin_eq_tooDeep {before : List Char} {o : Char} {d : Cursor}
    (hlead : (Cursor.start text).Leads (before ++ [o]) d) (ho : isOpener o = true)
    (hlimit : limit ≠ 0)
    (h : run limit .start (tokens text) = .error (.nestedTooDeeply, d.tokens)) :
    evaluateWithin limit text = .error (failAt .nestedTooDeeply d) := by
  obtain ⟨e, he, hcause⟩ := exists_of_run_error h
  obtain ⟨between, place, hlead', hfail, hrun, hplace⟩ := fails_of_evaluateWithin he
  rw [tokens_start, h, hcause] at hrun
  simp only [Except.error.injEq, Prod.mk.injEq, true_and] at hrun
  rw [if_pos hcause] at hplace
  rcases hplace with ⟨o', ho', hopens⟩ | ⟨_, hzero⟩
  · obtain ⟨front, rfl⟩ := List.getLast?_eq_some_iff.mp ho'
    obtain ⟨_, rfl⟩ := hlead.eq_of_concat hlead' (standsAlone_of_isOpener ho)
      (standsAlone_of_isOpener hopens) (by rw [hrun])
    rw [he, hfail, hcause]
  · have hone : State.start.active = 1 := rfl
    omega

/-- The text before an error takes the machine to a state that stops there, and
it does so with any text behind it that does not go on with its last run. -/
theorem exists_state_of_error {e : SyntaxError} (h : evaluateWithin limit text = .error e) :
    ∃ before d s', (Cursor.start text).Leads before d ∧ e = failAt e.cause d ∧
      Stops limit s' e.cause d.tokens ∧
      (∀ w, Apart before w →
        run limit .start (tokensOf (before ++ w)) = run limit s' (tokensOf w)) ∧
      if e.cause = .nestedTooDeeply then
        (∃ o ∈ before.getLast?, isOpener o = true) ∨ (before = [] ∧ limit < State.start.active)
      else d.Settled := by
  obtain ⟨before, d, hlead, he, hrun, hplace⟩ := fails_of_evaluateWithin h
  obtain ⟨behind, s', hsplit, hstop, hmore⟩ := exists_stops hrun
  have hbehind : behind = tokensOf before := by
    rw [hlead.tokens_eq] at hsplit
    exact (List.append_cancel_right hsplit).symm
  refine ⟨before, d, s', hlead, he, hstop, fun w hw => ?_, hplace⟩
  rw [tokensOf_append hw, ← hbehind, hmore]

end Texts

end Abacus.Expression.Automaton
