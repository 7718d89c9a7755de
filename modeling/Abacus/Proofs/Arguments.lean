import Mathlib.Data.List.TakeWhile
import Abacus.CommandLine.Arguments

/-!
Arguments in front of the words. They are options, with their values, and each of them
changes the request that the ones in front of it have made. Whatever is behind them is
read by the request they end with, so options can be put in front of any words.
-/

namespace Abacus.CommandLine

/-- The name of a switch behind a double hyphen. -/
def Switch.name : Switch → String
  | allowNonFinite => "allow-non-finite"
  | radians => "radians"
  | noConstants => "no-constants"
  | json => "json"
  | verbose => "verbose"
  | help => "help"
  | version => "version"

/-- Some switches can be given by a letter, too. -/
def Switch.HasLetter (s : Switch) : Prop :=
  s = verbose ∨ s = help ∨ s = version

/-- Whether a switch is turned on by a request. -/
def Request.isOn (request : Request) : Switch → Bool
  | .allowNonFinite => request.allowNonFinite
  | .radians => request.radians
  | .noConstants => request.noConstants
  | .json => request.json
  | .verbose => 0 < request.verbosity
  | .help => false
  | .version => false

namespace Switch

theorem ofName?_eq_some_iff {n : String} {s : Switch} : ofName? n = some s ↔ n = s.name := by
  constructor
  · intro h
    unfold ofName? at h
    split at h <;> cases h <;> rfl
  · rintro rfl
    cases s <;> rfl

theorem hasLetter_of_ofLetter? {c : Char} {s : Switch} (h : ofLetter? c = some s) :
    s.HasLetter := by
  unfold ofLetter? at h
  split at h <;> cases h
  · exact .inl rfl
  · exact .inr (.inl rfl)
  · exact .inr (.inr rfl)

end Switch

namespace Token

theorem ofArgument_name (s : Switch) : ofArgument ("--" ++ s.name) = .switches [s] := by
  cases s <;> rfl

/-- Without an equals sign, all of it is the name. -/
theorem splitName_eq {body : List Char} {name : String} (h : splitName body = (name, none)) :
    String.ofList body = name := by
  unfold splitName at h
  split at h
  · rename_i hdrop
    cases h
    have hall := List.dropWhile_eq_nil_iff.mp hdrop
    rw [List.takeWhile_eq_self_iff.mpr hall]
  · cases h

theorem ofLong_eq_switches {body : List Char} {list : List Switch}
    (h : ofLong body = .switches list) :
    ∃ s : Switch, String.ofList body = s.name ∧ list = [s] := by
  unfold ofLong at h
  split at h
  rename_i name value hsplit
  split at h
  · rename_i s hs
    cases h
    exact ⟨s, (splitName_eq hsplit).trans (Switch.ofName?_eq_some_iff.mp hs), rfl⟩
  all_goals cases h

theorem ofLetters_eq_switches {letters : List Char} {list : List Switch}
    (h : ofLetters letters = .switches list) : ∀ s ∈ list, s.HasLetter := by
  have hletters : letters.mapM Switch.ofLetter? = some list := by
    unfold ofLetters at h
    split at h <;> cases h
    assumption
  clear h
  induction letters generalizing list with
  | nil => simp_all
  | cons c letters ih =>
    rw [List.mapM_cons, Option.bind_eq_bind, Option.bind_eq_some_iff] at hletters
    obtain ⟨first, hfirst, hrest⟩ := hletters
    rw [Option.bind_eq_bind, Option.bind_eq_some_iff] at hrest
    obtain ⟨rest, hrest, hlist⟩ := hrest
    obtain rfl := Option.some.inj hlist
    intro s hs
    rcases List.mem_cons.mp hs with rfl | hs
    · exact Switch.hasLetter_of_ofLetter? hfirst
    · exact ih hrest s hs

/-- Switches are given by the name of one, or by letters. -/
theorem switches_cases {argument : String} {list : List Switch}
    (h : ofArgument argument = .switches list) :
    (∃ s : Switch, argument = "--" ++ s.name ∧ list = [s]) ∨ ∀ s ∈ list, s.HasLetter := by
  unfold ofArgument at h
  split at h
  · cases h
  · rename_i body _ hchars
    obtain ⟨s, hname, rfl⟩ := ofLong_eq_switches h
    refine .inl ⟨s, ?_, rfl⟩
    have hbody : s.name.toList = body := by rw [← hname, String.toList_ofList]
    rw [← String.toList_inj, hchars, String.toList_append, hbody]
    rfl
  · exact .inr (ofLetters_eq_switches h)
  · cases h

/-- A switch without a letter is given by its name only. -/
theorem mem_switches_iff {argument : String} {list : List Switch} {s : Switch}
    (h : ofArgument argument = .switches list) (hs : ¬s.HasLetter) :
    s ∈ list ↔ argument = "--" ++ s.name := by
  constructor
  · intro hmem
    rcases switches_cases h with ⟨t, rfl, rfl⟩ | hletters
    · rw [List.mem_singleton.mp hmem]
    · exact absurd (hletters s hmem) hs
  · rintro rfl
    rw [ofArgument_name] at h
    cases h
    exact List.mem_singleton_self s

theorem ofArgument_eq_endOfOptions {argument : String} (h : ofArgument argument = .endOfOptions) :
    argument = "--" := by
  unfold ofArgument at h
  split at h
  · rename_i hchars
    rw [← String.toList_inj, hchars]
    rfl
  · unfold ofLong at h
    split at h
    split at h <;> cases h
  · unfold ofLetters at h
    split at h <;> cases h
  · cases h

end Token

namespace Request

variable {request next last : Request}

theorem exists_of_bind_ok {r : Except Invocation Request}
    {f : Request → Except Invocation Request} (h : r >>= f = .ok last) :
    ∃ next, r = .ok next ∧ f next = .ok last := by
  cases r with
  | error invocation => cases h
  | ok next => exact ⟨next, rfl, h⟩

/-- A switch is turned on, and neither the other switches nor the words change. -/
theorem turnOn_spec {s : Switch} (h : request.turnOn s = .ok next) :
    next.words = request.words ∧ ∀ t, next.isOn t = true ↔ request.isOn t = true ∨ t = s := by
  unfold turnOn at h
  cases s <;> simp only at h <;> (try split at h) <;> cases h <;>
    exact ⟨rfl, fun t => by cases t <;> simp [isOn]⟩

theorem foldlM_turnOn_spec {list : List Switch} (h : list.foldlM turnOn request = .ok next) :
    next.words = request.words ∧
      ∀ t, next.isOn t = true ↔ request.isOn t = true ∨ t ∈ list := by
  induction list generalizing request with
  | nil =>
    obtain rfl := Except.ok.inj h
    exact ⟨rfl, fun t => by simp⟩
  | cons s list ih =>
    rw [List.foldlM_cons] at h
    obtain ⟨first, hfirst, hrest⟩ := exists_of_bind_ok h
    obtain ⟨hfirstWords, hfirstOn⟩ := turnOn_spec hfirst
    obtain ⟨hwords, hon⟩ := ih hrest
    refine ⟨hwords.trans hfirstWords, fun t => ?_⟩
    rw [hon, hfirstOn, List.mem_cons, or_assoc]

/-- A setting changes neither the words nor the switches. -/
theorem assign_spec {setting : Setting} {value : String}
    (h : request.assign setting value = .ok next) :
    next.words = request.words ∧ ∀ t, next.isOn t = request.isOn t := by
  unfold assign at h
  cases setting <;> simp only at h <;> split at h <;> cases h <;>
    exact ⟨rfl, fun t => by cases t <;> rfl⟩

/-- The request `last` is what the options `front` make of `request`. -/
inductive Reads : Request → List String → Request → Prop where
  | nil (request : Request) : Reads request [] request
  | switches {request next last : Request} {argument : String} {list : List Switch}
      {rest : List String} (hargument : Token.ofArgument argument = .switches list)
      (hturn : list.foldlM turnOn request = .ok next) (hrest : Reads next rest last) :
      Reads request (argument :: rest) last
  | valued {request next last : Request} {argument value : String} {setting : Setting}
      {rest : List String} (hargument : Token.ofArgument argument = .setting setting (some value))
      (hassign : request.assign setting value = .ok next) (hrest : Reads next rest last) :
      Reads request (argument :: rest) last
  | taking {request next last : Request} {argument value : String} {setting : Setting}
      {rest : List String} (hargument : Token.ofArgument argument = .setting setting none)
      (hvalue : Token.ofArgument value = .word)
      (hassign : request.assign setting value = .ok next) (hrest : Reads next rest last) :
      Reads request (argument :: value :: rest) last

/-- The request `last` has the words that stand behind the options. -/
inductive Ends (request : Request) : List String → Request → Prop where
  | silent : Ends request [] request
  | bare {word : String} (words : List String) (hword : Token.ofArgument word = .word) :
      Ends request (word :: words) { request with words := word :: words }
  | marked (words : List String) : Ends request ("--" :: words) { request with words := words }

section Reads

variable {front : List String}

theorem Reads.extend (h : Reads request front last) (rest : List String) :
    request.extend (front ++ rest) = last.extend rest := by
  induction h with
  | nil request => rfl
  | switches hargument hturn _ ih =>
    rw [List.cons_append, Request.extend, hargument]
    simp only [hturn]
    exact ih
  | valued hargument hassign _ ih =>
    rw [List.cons_append, Request.extend, hargument]
    simp only [hassign]
    exact ih
  | taking hargument hvalue hassign _ ih =>
    rw [List.cons_append, List.cons_append, Request.extend, hargument]
    simp only [hvalue, hassign]
    exact ih

theorem Reads.words (h : Reads request front last) : last.words = request.words := by
  induction h with
  | nil request => rfl
  | switches _ hturn _ ih => exact ih.trans (foldlM_turnOn_spec hturn).1
  | valued _ hassign _ ih => exact ih.trans (assign_spec hassign).1
  | taking _ _ hassign _ ih => exact ih.trans (assign_spec hassign).1

/-- Options do not end before the words. -/
theorem Reads.hyphens_notMem (h : Reads request front last) : "--" ∉ front := by
  have hends : Token.ofArgument "--" = .endOfOptions := rfl
  have hne : ∀ {argument : String}, Token.ofArgument argument ≠ .endOfOptions →
      "--" ≠ argument := by
    rintro argument hargument rfl
    exact hargument hends
  induction h with
  | nil request => exact List.not_mem_nil
  | switches hargument _ _ ih =>
    exact List.not_mem_cons_of_ne_of_not_mem (hne (by simp [hargument])) ih
  | valued hargument _ _ ih =>
    exact List.not_mem_cons_of_ne_of_not_mem (hne (by simp [hargument])) ih
  | taking hargument hvalue _ _ ih =>
    exact List.not_mem_cons_of_ne_of_not_mem (hne (by simp [hargument]))
      (List.not_mem_cons_of_ne_of_not_mem (hne (by simp [hvalue])) ih)

/-- A switch without a letter is on if its name is among the options, or if it was on. -/
theorem Reads.isOn_iff (h : Reads request front last) {t : Switch} (ht : ¬t.HasLetter) :
    last.isOn t = true ↔ request.isOn t = true ∨ "--" ++ t.name ∈ front := by
  have hname := Token.ofArgument_name t
  have hne : ∀ {argument : String}, Token.ofArgument argument ≠ .switches [t] →
      "--" ++ t.name ≠ argument := by
    rintro argument hargument rfl
    exact hargument hname
  induction h with
  | nil request => simp
  | switches hargument hturn _ ih =>
    refine ih.trans ?_
    rw [(foldlM_turnOn_spec hturn).2, Token.mem_switches_iff hargument ht, List.mem_cons, or_assoc,
      @eq_comm _ ("--" ++ t.name)]
  | valued hargument hassign _ ih =>
    refine ih.trans ?_
    rw [(assign_spec hassign).2, List.mem_cons, or_iff_right (hne (by simp [hargument]))]
  | taking hargument hvalue hassign _ ih =>
    refine ih.trans ?_
    rw [(assign_spec hassign).2, List.mem_cons, List.mem_cons,
      or_iff_right (hne (by simp [hargument])), or_iff_right (hne (by simp [hvalue]))]

end Reads

/-- What is read ends with the words. -/
theorem exists_reads {arguments : List String} (h : request.extend arguments = .ok last) :
    ∃ front behind next, arguments = front ++ behind ∧ Reads request front next ∧
      Ends next behind last := by
  fun_induction Request.extend request arguments with
  | case1 request =>
    obtain rfl := Except.ok.inj h
    exact ⟨[], [], request, rfl, .nil _, .silent⟩
  | case2 request argument rest hargument =>
    cases h
    obtain rfl := Token.ofArgument_eq_endOfOptions hargument
    exact ⟨[], _, request, rfl, .nil _, .marked rest⟩
  | case3 request argument rest hargument =>
    cases h
    exact ⟨[], _, request, rfl, .nil _, .bare rest hargument⟩
  | case4 request argument rest hargument => cases h
  | case5 request argument rest list hargument ih =>
    obtain ⟨next, hturn, hnext⟩ := exists_of_bind_ok h
    obtain ⟨front, behind, words, rfl, hreads, hends⟩ := ih next hnext
    exact ⟨argument :: front, behind, words, rfl, .switches hargument hturn hreads, hends⟩
  | case6 request argument rest setting value hargument ih =>
    obtain ⟨next, hassign, hnext⟩ := exists_of_bind_ok h
    obtain ⟨front, behind, words, rfl, hreads, hends⟩ := ih next hnext
    exact ⟨argument :: front, behind, words, rfl, .valued hargument hassign hreads, hends⟩
  | case7 request argument setting hargument => cases h
  | case8 request argument setting hargument value rest hvalue ih =>
    obtain ⟨next, hassign, hnext⟩ := exists_of_bind_ok h
    obtain ⟨front, behind, words, rfl, hreads, hends⟩ := ih next hnext
    exact ⟨argument :: value :: front, behind, words, rfl,
      .taking hargument hvalue hassign hreads, hends⟩
  | case9 request argument setting hargument value rest hvalue => cases h

section Refused

theorem bind_ne_run {r : Except Invocation Request} {f : Request → Except Invocation Request}
    (hr : r ≠ .error (.run last)) (hf : ∀ next, f next ≠ .error (.run last)) :
    r >>= f ≠ .error (.run last) := by
  cases r with
  | error invocation => exact hr
  | ok next => exact hf next

theorem turnOn_ne_run (request : Request) (s : Switch) :
    request.turnOn s ≠ .error (.run last) := by
  unfold turnOn
  cases s <;> simp only <;> (try split) <;> simp

theorem foldlM_turnOn_ne_run (list : List Switch) (request : Request) :
    list.foldlM turnOn request ≠ .error (.run last) := by
  induction list generalizing request with
  | nil => simp [pure, Except.pure]
  | cons s list ih => exact bind_ne_run (turnOn_ne_run request s) ih

theorem assign_ne_run (request : Request) (setting : Setting) (value : String) :
    request.assign setting value ≠ .error (.run last) := by
  unfold assign
  cases setting <;> simp only <;> split <;> simp

/-- What ends the reading early is no request. -/
theorem extend_ne_run (request : Request) (arguments : List String) :
    request.extend arguments ≠ .error (.run last) := by
  fun_induction Request.extend request arguments with
  | case5 request argument rest list hargument ih =>
    exact bind_ne_run (foldlM_turnOn_ne_run list request) ih
  | case6 request argument rest setting value hargument ih =>
    exact bind_ne_run (assign_ne_run request setting value) ih
  | case8 request argument setting hargument value rest hvalue ih =>
    exact bind_ne_run (assign_ne_run request setting value) ih
  | _ => simp

end Refused

end Request

variable {arguments : List String} {request : Request}

theorem exists_options (h : Invocation.ofArguments arguments = .run request) :
    ∃ front behind next, arguments = front ++ behind ∧ Request.Reads {} front next ∧
      Request.Ends next behind request := by
  unfold Invocation.ofArguments at h
  split at h
  · rename_i last hread
    cases h
    exact Request.exists_reads hread
  · rename_i invocation hread
    subst h
    exact absurd hread (Request.extend_ne_run _ _)

/-- The words come last, and maybe a double hyphen in front of them. In front of these the
switches that have no letter are on that are named. -/
theorem exists_front (h : Invocation.ofArguments arguments = .run request) :
    ∃ front ending, arguments = front ++ ending ++ request.words ∧
      (ending = [] ∨ ending = ["--"]) ∧ "--" ∉ front ∧
      ∀ t : Switch, ¬t.HasLetter → (request.isOn t = true ↔ "--" ++ t.name ∈ front) := by
  obtain ⟨front, behind, next, rfl, hreads, hends⟩ := exists_options h
  have hopen := hreads.hyphens_notMem
  have hnone : next.words = [] := hreads.words
  have hon : ∀ t : Switch, ¬t.HasLetter → (next.isOn t = true ↔ "--" ++ t.name ∈ front) := by
    intro t ht
    rw [hreads.isOn_iff ht]
    cases t <;> simp [Request.isOn]
  cases hends with
  | silent => exact ⟨front, [], by simp [hnone], .inl rfl, hopen, hon⟩
  | bare words hword => exact ⟨front, [], by simp, .inl rfl, hopen, hon⟩
  | marked words => exact ⟨front, ["--"], by simp, .inr rfl, hopen, hon⟩

/-- Behind options alone, a double hyphen lets any words follow. -/
theorem ofArguments_append (h : Invocation.ofArguments arguments = .run request)
    (hnone : request.words = []) (hopen : "--" ∉ arguments) (words : List String) :
    Invocation.ofArguments (arguments ++ "--" :: words) =
      .run { request with words := words } := by
  obtain ⟨front, behind, next, rfl, hreads, hends⟩ := exists_options h
  cases hends with
  | silent =>
    have hread : Request.extend {} (front ++ "--" :: words) =
        .ok { request with words := words } := (hreads.extend _).trans rfl
    rw [List.append_nil, Invocation.ofArguments, hread]
  | bare words hword => cases hnone
  | marked words => exact absurd (by simp) hopen

end Abacus.CommandLine
