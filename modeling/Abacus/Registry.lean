import Abacus.Function

/-!
Registries of functions. A registry holds one function for each name, in the
order of the names; registering a function replaces the one of the same name.
A registry is a value, so a copy never sees what is registered later.
-/

namespace Abacus

/-- Puts a function in its place in a list that is sorted by name. -/
def Function.insertInto (f : Function) : List Function → List Function
  | [] => [f]
  | g :: rest =>
    if f.name < g.name then f :: g :: rest
    else if f.name = g.name then f :: rest
    else g :: insertInto f rest

theorem Function.mem_insertInto {f g : Function} {list : List Function}
    (h : g ∈ f.insertInto list) : g = f ∨ g ∈ list := by
  induction list with
  | nil => simpa [insertInto] using h
  | cons head rest ih =>
    simp only [insertInto] at h
    split at h
    · simpa using h
    · split at h
      · rcases List.mem_cons.mp h with h | h
        · exact Or.inl h
        · exact Or.inr (List.mem_cons_of_mem _ h)
      · rcases List.mem_cons.mp h with h | h
        · exact Or.inr (h ▸ List.mem_cons_self)
        · rcases ih h with h | h
          · exact Or.inl h
          · exact Or.inr (List.mem_cons_of_mem _ h)

theorem Function.pairwise_insertInto (f : Function) {list : List Function}
    (h : list.Pairwise fun a b => a.name < b.name) :
    (f.insertInto list).Pairwise fun a b => a.name < b.name := by
  induction list with
  | nil => simp [insertInto]
  | cons head rest ih =>
    have hhead := (List.pairwise_cons.mp h).1
    have hrest := (List.pairwise_cons.mp h).2
    simp only [insertInto]
    split
    · next hlt =>
      refine List.pairwise_cons.mpr ⟨fun b hb => ?_, h⟩
      rcases List.mem_cons.mp hb with rfl | hb
      · exact hlt
      · exact String.lt_trans hlt (hhead b hb)
    · next hnot =>
      split
      · next heq =>
        exact List.pairwise_cons.mpr ⟨fun b hb => heq ▸ hhead b hb, hrest⟩
      · next hne =>
        refine List.pairwise_cons.mpr ⟨fun b hb => ?_, ih hrest⟩
        rcases Function.mem_insertInto hb with rfl | hb
        · exact Std.lt_of_le_of_ne (String.not_lt.mp hnot) (Ne.symm hne)
        · exact hhead b hb

structure Registry where
  functions : List Function
  sorted : functions.Pairwise fun a b => a.name < b.name

namespace Registry

def empty : Registry :=
  ⟨[], List.Pairwise.nil⟩

def register (registry : Registry) (f : Function) : Registry :=
  ⟨f.insertInto registry.functions, f.pairwise_insertInto registry.sorted⟩

def builtins : Registry :=
  Function.builtins.foldl register empty

def get? (registry : Registry) (name : String) : Option Function :=
  registry.functions.find? fun f => f.name == name

def names (registry : Registry) : List String :=
  registry.functions.map Function.name

end Registry

end Abacus
