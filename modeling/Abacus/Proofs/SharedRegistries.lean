import Mathlib.Data.List.Induction
import Mathlib.Data.List.NodupEquivFin
import Abacus.Calculator
import Abacus.Proofs.Utf8

/-!
Registries that share their tables. A handle on a registry, free or inside a
calculator, holds a table together with the handles that were cloned from it. A table
counts its holders: one that has a single holder is changed in place, and any other
is copied first. So a registration is seen through its own handle only, and what a
handle shows is what its own history of registrations makes of an empty registry.
-/

namespace Abacus

/-- The function that was registered last under the name. -/
def Function.MostRecent (history : List Function) (name : String) (f : Function) : Prop :=
  f.name = name ∧ ∃ earlier later, history = earlier ++ f :: later ∧ ∀ g ∈ later, g.name ≠ name

theorem Function.find?_insertInto (f : Function) (list : List Function) (name : String) :
    (f.insertInto list).find? (·.name == name) =
      if f.name = name then some f else list.find? (·.name == name) := by
  induction list with
  | nil =>
    by_cases h : f.name = name
    · simp [insertInto, h]
    · simp [insertInto, h]
  | cons g rest ih =>
    rw [insertInto]
    by_cases hname : f.name = name
    · rw [if_pos hname] at ih ⊢
      split
      · simp [hname]
      · split
        · simp [hname]
        · next _ hne =>
          have hg : ¬g.name = name := by rw [← hname]; exact Ne.symm hne
          simp [hg, ih]
    · rw [if_neg hname] at ih ⊢
      split
      · simp [hname]
      · split
        · next heq =>
          have hg : ¬g.name = name := by rwa [← heq]
          simp [hname, hg]
        · simp only [List.find?_cons, ih]

namespace Registry

theorem get?_register (registry : Registry) (f : Function) (name : String) :
    (registry.register f).get? name = if f.name = name then some f else registry.get? name :=
  f.find?_insertInto registry.functions name

theorem name_of_get? {registry : Registry} {name : String} {f : Function}
    (h : registry.get? name = some f) : f.name = name := by
  simpa using List.find?_some h

theorem mem_names_iff (registry : Registry) (name : String) :
    name ∈ registry.names ↔ (registry.get? name).isSome = true := by
  simp [names, get?, List.find?_isSome]

/-- Names are listed in the order of their bytes, each of them once. -/
theorem pairwise_names (registry : Registry) :
    registry.names.Pairwise fun a b => Text.encode a.toList < Text.encode b.toList :=
  List.pairwise_map.mpr (registry.sorted.imp Text.encode_lt_of_lt)

/-- What registrations make of an empty registry. -/
def ofHistory (history : List Function) : Registry :=
  history.foldl register empty

theorem ofHistory_append (history : List Function) (f : Function) :
    ofHistory (history ++ [f]) = (ofHistory history).register f :=
  List.foldl_concat _ _ _ _

theorem get?_ofHistory_eq_none_iff (history : List Function) (name : String) :
    (ofHistory history).get? name = none ↔ ∀ f ∈ history, f.name ≠ name := by
  induction history using List.reverseRecOn with
  | nil => simp [ofHistory, empty, get?]
  | append_singleton history f ih =>
    rw [ofHistory_append, get?_register]
    by_cases hname : f.name = name
    · rw [if_pos hname]
      simp [hname]
    · rw [if_neg hname, ih]
      simp [hname, or_imp, forall_and]

/-- Registrations under other names change nothing. -/
theorem get?_ofHistory_append (earlier : List Function) {later : List Function} {name : String}
    (h : ∀ g ∈ later, g.name ≠ name) :
    (ofHistory (earlier ++ later)).get? name = (ofHistory earlier).get? name := by
  induction later using List.reverseRecOn with
  | nil => rw [List.append_nil]
  | append_singleton later g ih =>
    have hg : g.name ≠ name := h g (by simp)
    rw [← List.append_assoc, ofHistory_append, get?_register, if_neg hg]
    exact ih fun g' hg' => h g' (by simp [hg'])

theorem get?_ofHistory_eq_some_iff (history : List Function) (name : String) (f : Function) :
    (ofHistory history).get? name = some f ↔ Function.MostRecent history name f := by
  constructor
  · intro h
    refine ⟨name_of_get? h, ?_⟩
    induction history using List.reverseRecOn with
    | nil => simp [ofHistory, empty, get?] at h
    | append_singleton history g ih =>
      rw [ofHistory_append, get?_register] at h
      by_cases hname : g.name = name
      · rw [if_pos hname] at h
        cases h
        exact ⟨history, [], rfl, by simp⟩
      · rw [if_neg hname] at h
        obtain ⟨earlier, later, rfl, hlater⟩ := ih h
        refine ⟨earlier, later ++ [g], by simp, ?_⟩
        intro g' hg'
        rcases List.mem_append.mp hg' with hg' | hg'
        · exact hlater g' hg'
        · rwa [List.mem_singleton.mp hg']
  · rintro ⟨hname, earlier, later, rfl, hlater⟩
    rw [List.append_cons, get?_ofHistory_append _ hlater, ofHistory_append, get?_register,
      if_pos hname]

end Registry

/-- A handle on a registry, free or inside a calculator, and what it holds. -/
structure Handle (α : Type) where
  inCalculator : Bool
  content : α

/-- What is done with registries. Handles are numbered in the order in which they are
made. -/
inductive Operation where
  | new
  | builtins
  | clone (source : Nat)
  | register (target : Nat) (f : Function)
  | calculator (source : Nat)
  | defaultCalculator

/-- The registrations that each handle has seen, those of the handle that it was cloned
from first. -/
abbrev Histories := List (Handle (List Function))

namespace Histories

def copy (inCalculator : Bool) (source : Nat) (histories : Histories) : Histories :=
  match histories[source]? with
  | some handle => histories ++ [⟨inCalculator, handle.content⟩]
  | none => histories

/-- Nothing is registered through a calculator. -/
def register (target : Nat) (f : Function) (histories : Histories) : Histories :=
  match histories[target]? with
  | some ⟨false, history⟩ => histories.set target ⟨false, history ++ [f]⟩
  | _ => histories

def step (histories : Histories) : Operation → Histories
  | .new => histories ++ [⟨false, []⟩]
  | .builtins => histories ++ [⟨false, Function.builtins⟩]
  | .clone source => histories.copy false source
  | .register target f => histories.register target f
  | .calculator source => histories.copy true source
  | .defaultCalculator => histories ++ [⟨true, Function.builtins⟩]

def run (operations : List Operation) : Histories :=
  operations.foldl step []

end Histories

/-- A table and the number of handles that hold it. -/
structure Table where
  registry : Registry
  holders : Nat

/-- Tables, and handles that hold them by their number. -/
structure Store where
  tables : List Table
  handles : List (Handle Nat)

namespace Store

/-- A handle on a table of its own. -/
def add (inCalculator : Bool) (registry : Registry) (store : Store) : Store where
  tables := store.tables ++ [⟨registry, 1⟩]
  handles := store.handles ++ [⟨inCalculator, store.tables.length⟩]

/-- A handle on the table of another one. -/
def copy (inCalculator : Bool) (source : Nat) (store : Store) : Store :=
  match store.handles[source]? with
  | some handle =>
    { tables := store.tables.modify handle.content fun table =>
        { table with holders := table.holders + 1 }
      handles := store.handles ++ [⟨inCalculator, handle.content⟩] }
  | none => store

/-- Changes a table in place if it has no other holder, and otherwise a copy of it, which
the handle holds from then on. -/
def write (target address : Nat) (f : Function) (store : Store) : Store :=
  match store.tables[address]? with
  | some table =>
    if table.holders = 1 then
      { store with tables := store.tables.set address ⟨table.registry.register f, 1⟩ }
    else
      { tables := store.tables.set address ⟨table.registry, table.holders - 1⟩ ++
          [⟨table.registry.register f, 1⟩]
        handles := store.handles.set target ⟨false, store.tables.length⟩ }
  | none => store

def register (target : Nat) (f : Function) (store : Store) : Store :=
  match store.handles[target]? with
  | some ⟨false, address⟩ => store.write target address f
  | _ => store

def step (store : Store) : Operation → Store
  | .new => store.add false Registry.empty
  | .builtins => store.add false Registry.builtins
  | .clone source => store.copy false source
  | .register target f => store.register target f
  | .calculator source => store.copy true source
  | .defaultCalculator => store.add true ({} : Calculator).registry

def run (operations : List Operation) : Store :=
  operations.foldl step ⟨[], []⟩

/-- How many handles hold a table. -/
def holders (store : Store) (address : Nat) : Nat :=
  (store.handles.map Handle.content).count address

end Store

/-- The handle with the registry that it shows. -/
def Handle.read? (tables : List Table) (handle : Handle Nat) : Option (Handle Registry) :=
  (tables[handle.content]?).map fun table => ⟨handle.inCalculator, table.registry⟩

/-- A handle shows the same if its table has the same registry. -/
theorem Handle.read?_congr {tables tables' : List Table} {handle : Handle Nat}
    (h : (tables'[handle.content]?).map Table.registry =
      (tables[handle.content]?).map Table.registry) :
    handle.read? tables' = handle.read? tables := by
  have hread : ∀ tables, handle.read? tables =
      ((tables[handle.content]?).map Table.registry).map fun registry =>
        ⟨handle.inCalculator, registry⟩ := by
    intro tables
    rw [Option.map_map]
    rfl
  rw [hread, hread, h]

/-- The handle with what its history makes of an empty registry. -/
def Handle.replay (handle : Handle (List Function)) : Handle Registry :=
  ⟨handle.inCalculator, .ofHistory handle.content⟩

namespace Store

/-- The registry that a handle shows. -/
def shown? (store : Store) (n : Nat) : Option Registry := do
  let handle ← store.handles[n]?
  let shown ← handle.read? store.tables
  some shown.content

/-- The calculator that a handle is inside of. -/
def calculator? (store : Store) (n : Nat) : Option Calculator := do
  let handle ← store.handles[n]?
  let shown ← handle.read? store.tables
  if shown.inCalculator then some { registry := shown.content } else none

/-- Tables count their holders, and each handle shows what its history makes. -/
structure Agrees (store : Store) (histories : Histories) : Prop where
  holders_eq : ∀ (address : Nat) (table : Table), store.tables[address]? = some table →
    table.holders = store.holders address
  read?_eq : store.handles.map (Handle.read? store.tables) =
    histories.map fun handle => some handle.replay

section Agrees

variable {store : Store} {histories : Histories} {n : Nat}

theorem Agrees.getElem?_eq (h : store.Agrees histories) (n : Nat) :
    (store.handles[n]?).map (Handle.read? store.tables) =
      (histories[n]?).map fun handle => some handle.replay := by
  rw [← List.getElem?_map, h.read?_eq, List.getElem?_map]

theorem Agrees.exists_table (h : store.Agrees histories) {handle : Handle Nat}
    (hn : store.handles[n]? = some handle) :
    ∃ history table, histories[n]? = some ⟨handle.inCalculator, history⟩ ∧
      store.tables[handle.content]? = some table ∧ table.registry = .ofHistory history := by
  have heq := h.getElem?_eq n
  rw [hn, Option.map_some] at heq
  obtain ⟨⟨inCalculator, history⟩, hhistory, hshown⟩ := Option.map_eq_some_iff.mp heq.symm
  obtain ⟨table, htable, hsame⟩ := Option.map_eq_some_iff.mp hshown.symm
  rw [Handle.replay, Handle.mk.injEq] at hsame
  obtain ⟨rfl, hregistry⟩ := hsame
  exact ⟨history, table, hhistory, htable, hregistry⟩

theorem Agrees.getElem?_eq_none (h : store.Agrees histories) (hn : store.handles[n]? = none) :
    histories[n]? = none := by
  have heq := h.getElem?_eq n
  rw [hn] at heq
  exact Option.map_eq_none_iff.mp heq.symm

theorem Agrees.address_lt (h : store.Agrees histories) {handle : Handle Nat}
    (hhandle : handle ∈ store.handles) : handle.content < store.tables.length := by
  obtain ⟨n, hn⟩ := List.mem_iff_getElem?.mp hhandle
  obtain ⟨_, _, -, htable, -⟩ := h.exists_table hn
  exact (List.getElem?_eq_some_iff.mp htable).1

/-- No handle holds a table that is still to be made. -/
theorem Agrees.holders_length (h : store.Agrees histories) :
    store.holders store.tables.length = 0 := by
  apply List.count_eq_zero.mpr
  intro hmem
  obtain ⟨handle, hhandle, hcontent⟩ := List.mem_map.mp hmem
  have hlt := h.address_lt hhandle
  omega

theorem holders_append (tables : List Table) (handles : List (Handle Nat)) (handle : Handle Nat)
    (address : Nat) :
    (⟨tables, handles ++ [handle]⟩ : Store).holders address =
      (⟨tables, handles⟩ : Store).holders address +
        if handle.content = address then 1 else 0 := by
  simp [holders, List.count_singleton]

/-- A handle on a table of its own shows what the table holds, and the other handles show
what they showed. -/
theorem Agrees.add (h : store.Agrees histories) (inCalculator : Bool) (history : List Function) :
    (store.add inCalculator (.ofHistory history)).Agrees (histories ++ [⟨inCalculator, history⟩])
    where
  holders_eq := by
    intro address table htable
    simp only [Store.add, List.getElem?_append] at htable
    simp only [Store.add, holders_append]
    split at htable
    · next hlt =>
      rw [h.holders_eq address table htable, if_neg (Nat.ne_of_gt hlt), Nat.add_zero]
      rfl
    · next hge =>
      obtain ⟨hlt, rfl⟩ := List.getElem?_eq_some_iff.mp htable
      have haddress : store.tables.length = address := by
        rw [List.length_singleton] at hlt
        omega
      have hnone : (⟨store.tables ++ [⟨.ofHistory history, 1⟩], store.handles⟩ : Store).holders
          address = 0 := haddress ▸ h.holders_length
      rw [if_pos haddress, hnone, List.getElem_singleton]
  read?_eq := by
    rw [Store.add, List.map_append, List.map_append, ← h.read?_eq]
    congr 1
    · apply List.map_congr_left
      intro handle hhandle
      rw [Handle.read?, Handle.read?, List.getElem?_append_left (h.address_lt hhandle)]
    · simp [Handle.read?, Handle.replay]

/-- A handle on the table of another one shows the same, and the table has one holder
more. -/
theorem Agrees.copy (h : store.Agrees histories) (inCalculator : Bool) (source : Nat) :
    (store.copy inCalculator source).Agrees (histories.copy inCalculator source) := by
  cases hsource : store.handles[source]? with
  | none =>
    have hnone := h.getElem?_eq_none hsource
    simpa only [Store.copy, Histories.copy, hsource, hnone] using h
  | some handle =>
    obtain ⟨history, table, hhistory, htable, hregistry⟩ := h.exists_table hsource
    simp only [Store.copy, Histories.copy, hsource, hhistory]
    constructor
    · intro address table' htable'
      rw [holders_append]
      simp only [List.getElem?_modify, Option.map_eq_map] at htable'
      obtain ⟨old, hold, rfl⟩ := Option.map_eq_some_iff.mp htable'
      have hcount : old.holders = store.holders address := h.holders_eq address old hold
      by_cases haddress : handle.content = address
      · simp only [if_pos haddress, hcount]
        rfl
      · simp only [if_neg haddress, hcount]
        rfl
    · have hkeep : ∀ other : Handle Nat,
          other.read? (store.tables.modify handle.content fun table =>
            { table with holders := table.holders + 1 }) = other.read? store.tables := by
        intro other
        apply Handle.read?_congr
        rw [List.getElem?_modify, Option.map_eq_map, Option.map_map]
        congr 1
        funext table
        simp only [Function.comp_apply]
        split <;> rfl
      rw [List.map_append, List.map_append, ← h.read?_eq]
      congr 1
      · exact List.map_congr_left fun other _ => hkeep other
      · rw [List.map_singleton, List.map_singleton, hkeep]
        simp [Handle.read?, Handle.replay, htable, hregistry]

/-- Two handles on a table make it shared. -/
theorem eq_of_holders_eq_one {address m : Nat} {handle other : Handle Nat}
    (hone : store.holders address = 1) (hn : store.handles[n]? = some handle)
    (hm : store.handles[m]? = some other) (hhandle : handle.content = address)
    (hother : other.content = address) : n = m := by
  have hn' : (store.handles.map Handle.content)[n]? = some address := by
    rw [List.getElem?_map, hn, Option.map_some, hhandle]
  have hm' : (store.handles.map Handle.content)[m]? = some address := by
    rw [List.getElem?_map, hm, Option.map_some, hother]
  by_contra hne
  have htwice : List.Duplicate address (store.handles.map Handle.content) := by
    rw [List.duplicate_iff_exists_distinct_get]
    obtain ⟨hltn, hgetn⟩ := List.getElem?_eq_some_iff.mp hn'
    obtain ⟨hltm, hgetm⟩ := List.getElem?_eq_some_iff.mp hm'
    rcases Nat.lt_or_gt_of_ne hne with hlt | hlt
    · exact ⟨⟨n, hltn⟩, ⟨m, hltm⟩, hlt, hgetn.symm, hgetm.symm⟩
    · exact ⟨⟨m, hltm⟩, ⟨n, hltn⟩, hlt, hgetm.symm, hgetn.symm⟩
  have htwo := List.duplicate_iff_two_le_count.mp htwice
  rw [holders] at hone
  omega

theorem holders_set {tables : List Table} {handles : List (Handle Nat)} {target : Nat}
    {handle : Handle Nat} (htarget : handles[target]? = some handle) (other : Handle Nat)
    (address : Nat) :
    (⟨tables, handles.set target other⟩ : Store).holders address =
      (⟨tables, handles⟩ : Store).holders address - (if handle.content = address then 1 else 0) +
        if other.content = address then 1 else 0 := by
  obtain ⟨hlt, hget⟩ := List.getElem?_eq_some_iff.mp htarget
  have hlt' : target < (handles.map Handle.content).length := by rwa [List.length_map]
  rw [holders, holders, List.map_set, List.count_set hlt', List.getElem_map, hget]
  simp only [beq_iff_eq]

section Write

variable {target address : Nat} {history : List Function} {table : Table}

/-- A table with one holder is changed in place. -/
theorem Agrees.write_own (h : store.Agrees histories)
    (htarget : store.handles[target]? = some ⟨false, address⟩)
    (hhistory : histories[target]? = some ⟨false, history⟩)
    (htable : store.tables[address]? = some table)
    (hregistry : table.registry = .ofHistory history) (hone : table.holders = 1)
    (f : Function) :
    (⟨store.tables.set address ⟨table.registry.register f, 1⟩, store.handles⟩ : Store).Agrees
      (histories.set target ⟨false, history ++ [f]⟩) := by
  obtain ⟨haddressLt, -⟩ := List.getElem?_eq_some_iff.mp htable
  obtain ⟨hhistoryLt, -⟩ := List.getElem?_eq_some_iff.mp hhistory
  have hholders : store.holders address = 1 := by rw [← h.holders_eq address table htable, hone]
  constructor
  · intro address' table' htable'
    by_cases haddress : address = address'
    · subst haddress
      rw [List.getElem?_set_self haddressLt] at htable'
      cases htable'
      exact hholders.symm
    · rw [List.getElem?_set_ne haddress] at htable'
      exact h.holders_eq address' table' htable'
  · apply List.ext_getElem?
    intro n
    rw [List.getElem?_map, List.getElem?_map]
    by_cases hn : target = n
    · subst hn
      rw [htarget, List.getElem?_set_self hhistoryLt, Option.map_some, Option.map_some,
        Handle.read?, List.getElem?_set_self haddressLt, Handle.replay,
        Registry.ofHistory_append, ← hregistry]
      rfl
    · rw [List.getElem?_set_ne hn, ← h.getElem?_eq n]
      cases hother : store.handles[n]? with
      | none => rfl
      | some other =>
        have hcontent : address ≠ other.content := by
          intro hsame
          exact hn (eq_of_holders_eq_one hholders htarget hother rfl hsame.symm)
        rw [Option.map_some, Option.map_some, Handle.read?_congr]
        rw [List.getElem?_set_ne hcontent]

/-- A shared table stays as it is for its other holders, and a copy of it is changed. -/
theorem Agrees.write_copy (h : store.Agrees histories)
    (htarget : store.handles[target]? = some ⟨false, address⟩)
    (hhistory : histories[target]? = some ⟨false, history⟩)
    (htable : store.tables[address]? = some table)
    (hregistry : table.registry = .ofHistory history) (f : Function) :
    (⟨store.tables.set address ⟨table.registry, table.holders - 1⟩ ++
        [⟨table.registry.register f, 1⟩],
      store.handles.set target ⟨false, store.tables.length⟩⟩ : Store).Agrees
      (histories.set target ⟨false, history ++ [f]⟩) := by
  obtain ⟨haddressLt, -⟩ := List.getElem?_eq_some_iff.mp htable
  obtain ⟨hhistoryLt, -⟩ := List.getElem?_eq_some_iff.mp hhistory
  obtain ⟨htargetLt, -⟩ := List.getElem?_eq_some_iff.mp htarget
  constructor
  · intro address' table' htable'
    have hcount : ∀ tables, (⟨tables, store.handles⟩ : Store).holders address' =
        store.holders address' := fun _ => rfl
    rw [holders_set htarget, hcount]
    simp only [List.getElem?_append, List.length_set] at htable'
    split at htable'
    · next hold =>
      rw [if_neg (Nat.ne_of_gt hold), Nat.add_zero]
      by_cases haddress : address = address'
      · subst haddress
        rw [List.getElem?_set_self haddressLt] at htable'
        cases htable'
        rw [if_pos rfl, h.holders_eq address table htable]
      · rw [List.getElem?_set_ne haddress] at htable'
        rw [if_neg haddress, h.holders_eq address' table' htable', Nat.sub_zero]
    · next hge =>
      obtain ⟨hlast, rfl⟩ := List.getElem?_eq_some_iff.mp htable'
      have haddress : store.tables.length = address' := by
        rw [List.length_singleton] at hlast
        omega
      have hnone : store.holders address' = 0 := haddress ▸ h.holders_length
      rw [if_pos haddress, hnone, Nat.zero_sub, List.getElem_singleton]
  · apply List.ext_getElem?
    intro n
    rw [List.getElem?_map, List.getElem?_map]
    by_cases hn : target = n
    · subst hn
      rw [List.getElem?_set_self htargetLt, List.getElem?_set_self hhistoryLt, Option.map_some,
        Option.map_some, Handle.replay, Registry.ofHistory_append, ← hregistry]
      simp [Handle.read?]
    · rw [List.getElem?_set_ne hn, List.getElem?_set_ne hn, ← h.getElem?_eq n]
      cases hother : store.handles[n]? with
      | none => rfl
      | some other =>
        have hold : other.content < store.tables.length :=
          h.address_lt (List.mem_of_getElem? hother)
        rw [Option.map_some, Option.map_some, Handle.read?_congr]
        rw [List.getElem?_append_left (by simpa using hold), List.getElem?_set]
        by_cases hcontent : address = other.content
        · rw [if_pos hcontent, if_pos haddressLt, ← hcontent, htable]
          rfl
        · rw [if_neg hcontent]

end Write

/-- A registration is seen through its own handle: a table with one holder is changed in
place, and one with more is left to the other holders. -/
theorem Agrees.register (h : store.Agrees histories) (target : Nat) (f : Function) :
    (store.register target f).Agrees (histories.register target f) := by
  cases htarget : store.handles[target]? with
  | none =>
    have hnone := h.getElem?_eq_none htarget
    simpa only [Store.register, Histories.register, htarget, hnone] using h
  | some handle =>
    obtain ⟨inCalculator, address⟩ := handle
    obtain ⟨history, table, hhistory, htable, hregistry⟩ := h.exists_table htarget
    cases inCalculator with
    | true => simpa only [Store.register, Histories.register, htarget, hhistory] using h
    | false =>
      simp only [Store.register, Histories.register, htarget, hhistory, write, htable]
      by_cases hone : table.holders = 1
      · rw [if_pos hone]
        exact h.write_own htarget hhistory htable hregistry hone f
      · rw [if_neg hone]
        exact h.write_copy htarget hhistory htable hregistry f

theorem Agrees.step (h : store.Agrees histories) (operation : Operation) :
    (store.step operation).Agrees (histories.step operation) := by
  cases operation with
  | new => exact h.add false []
  | builtins => exact h.add false Function.builtins
  | clone source => exact h.copy false source
  | register target f => exact h.register target f
  | calculator source => exact h.copy true source
  | defaultCalculator => exact h.add true Function.builtins

theorem run_agrees (operations : List Operation) :
    (Store.run operations).Agrees (Histories.run operations) := by
  induction operations using List.reverseRecOn with
  | nil => exact ⟨by simp [Store.run], rfl⟩
  | append_singleton operations operation ih =>
    rw [Store.run, Histories.run, List.foldl_concat, List.foldl_concat]
    exact ih.step operation

theorem Agrees.shown?_eq (h : store.Agrees histories) (n : Nat) :
    store.shown? n = (histories[n]?).map fun handle => .ofHistory handle.content := by
  cases hn : store.handles[n]? with
  | none => simp [shown?, hn, h.getElem?_eq_none hn]
  | some handle =>
    obtain ⟨history, table, hhistory, htable, hregistry⟩ := h.exists_table hn
    simp [shown?, Handle.read?, hn, hhistory, htable, hregistry]

theorem Agrees.calculator?_eq (h : store.Agrees histories) (n : Nat) :
    store.calculator? n = (histories[n]?).bind fun handle =>
      if handle.inCalculator then some { registry := .ofHistory handle.content } else none := by
  cases hn : store.handles[n]? with
  | none => simp [calculator?, hn, h.getElem?_eq_none hn]
  | some handle =>
    obtain ⟨history, table, hhistory, htable, hregistry⟩ := h.exists_table hn
    simp [calculator?, Handle.read?, hn, hhistory, htable, hregistry]

end Agrees

end Store

theorem Histories.getElem?_register (histories : Histories) {target n : Nat} (hn : n ≠ target)
    (f : Function) : (histories.register target f)[n]? = histories[n]? := by
  rw [register]
  split
  · exact List.getElem?_set_ne (Ne.symm hn)
  · rfl

/-- The handles of calculators are left as they are. -/
theorem Histories.bind_register {α : Type} (histories : Histories) (target n : Nat)
    (f : Function) (g : List Function → Option α) :
    ((histories.register target f)[n]?).bind
        (fun handle => if handle.inCalculator then g handle.content else none) =
      (histories[n]?).bind fun handle =>
        if handle.inCalculator then g handle.content else none := by
  by_cases hn : n = target
  · subst hn
    rw [register]
    split
    · next history hhistory =>
      obtain ⟨hlt, -⟩ := List.getElem?_eq_some_iff.mp hhistory
      rw [List.getElem?_set_self hlt, hhistory]
      rfl
    · rfl
  · rw [histories.getElem?_register hn]

namespace Store

/-- After any operations each handle shows what its own history of registrations makes:
under a name the function that was registered last under it and no other, and the names
in the order of their bytes. A calculator has the registry of its handle. A registration
changes what its own handle shows, and no other handle and no calculator. -/
theorem run_replays (operations : List Operation) :
    let store := Store.run operations
    let histories := Histories.run operations
    (∀ (n : Nat) (handle : Handle (List Function)), histories[n]? = some handle →
      ∃ registry, store.shown? n = some registry ∧
        (∀ name f, registry.get? name = some f ↔ Function.MostRecent handle.content name f) ∧
        (∀ name, registry.get? name = none ↔ ∀ f ∈ handle.content, f.name ≠ name) ∧
        (∀ name f, registry.get? name = some f → f.name = name) ∧
        registry.names.Pairwise (fun a b => Text.encode a.toList < Text.encode b.toList) ∧
        (∀ name, name ∈ registry.names ↔ (registry.get? name).isSome = true) ∧
        store.calculator? n =
          if handle.inCalculator then some { registry := registry } else none) ∧
    (∀ n, histories.length ≤ n → store.shown? n = none) ∧
    ∀ target f,
      let changed := Store.run (operations ++ [.register target f])
      (∀ n, n ≠ target → changed.shown? n = store.shown? n) ∧
        ∀ n, changed.calculator? n = store.calculator? n := by
  intro store histories
  have hagrees : store.Agrees histories := run_agrees operations
  refine ⟨fun n handle hhandle => ?_, fun n hn => ?_, fun target f => ?_⟩
  · refine ⟨.ofHistory handle.content, ?_, Registry.get?_ofHistory_eq_some_iff _,
      Registry.get?_ofHistory_eq_none_iff _, fun _ _ => Registry.name_of_get?,
      Registry.pairwise_names _, Registry.mem_names_iff _, ?_⟩
    · rw [hagrees.shown?_eq, hhandle, Option.map_some]
    · rw [hagrees.calculator?_eq, hhandle, Option.bind_some]
  · rw [hagrees.shown?_eq, List.getElem?_eq_none hn, Option.map_none]
  · intro changed
    have hchanged : changed.Agrees (histories.register target f) := by
      have hstep := hagrees.step (.register target f)
      have hrun : changed = store.step (.register target f) := List.foldl_concat _ _ _ _
      rwa [hrun]
    refine ⟨fun n hn => ?_, fun n => ?_⟩
    · rw [hchanged.shown?_eq, hagrees.shown?_eq, histories.getElem?_register hn]
    · rw [hchanged.calculator?_eq, hagrees.calculator?_eq]
      exact histories.bind_register target n f fun history =>
        some ({ registry := .ofHistory history } : Calculator)

/-- A name that is registered twice more along a line of clones, with a calculator made of
the clone in between. -/
theorem run_replays_clones :
    let f := Function.plain "sqrt" Float.abs
    let g := Function.plain "sqrt" Float.exp
    let operations : List Operation :=
      [.builtins, .clone 0, .register 1 f, .calculator 1, .clone 1, .register 3 g]
    (Histories.run operations)[2]? = some ⟨true, Function.builtins ++ [f]⟩ ∧
      (Histories.run operations)[3]? = some ⟨false, Function.builtins ++ [f] ++ [g]⟩ ∧
      (∃ registry, (Store.run operations).shown? 2 = some registry ∧
        registry.get? "sqrt" = some f) ∧
      ∃ registry, (Store.run operations).shown? 3 = some registry ∧
        registry.get? "sqrt" = some g := by
  intro f g operations
  have hcalculator : (Histories.run operations)[2]? = some ⟨true, Function.builtins ++ [f]⟩ := rfl
  have hclone : (Histories.run operations)[3]? =
      some ⟨false, Function.builtins ++ [f] ++ [g]⟩ := rfl
  obtain ⟨registry, hshown, hget, -⟩ := (run_replays operations).1 2 _ hcalculator
  obtain ⟨later, hshownLater, hgetLater, -⟩ := (run_replays operations).1 3 _ hclone
  refine ⟨hcalculator, hclone, ⟨registry, hshown, (hget "sqrt" f).mpr ?_⟩,
    later, hshownLater, (hgetLater "sqrt" g).mpr ?_⟩
  · exact ⟨rfl, Function.builtins, [], rfl, by simp⟩
  · exact ⟨rfl, Function.builtins ++ [f], [], rfl, by simp⟩

end Store
end Abacus
