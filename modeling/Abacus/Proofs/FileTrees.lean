import Mathlib.Data.List.Infix
import Mathlib.Data.List.Nodup
import Abacus.CommandLine.FileTree

/-!
Paths in trees of files. Each name of a path leads on from a folder of the tree to a folder
or a file of it, so that a path leads to no bytes but those of a file in the tree. In a tree
without files inside of files, the names of a place lead to the file at that place.
-/

namespace Abacus.CommandLine.FileTree

/-- The node is a file of the tree, or a folder on the way to a place in it or to the folder
where paths start. -/
def Holds (tree : FileTree) : Node → Prop
  | .file bytes => ∃ place, (place, bytes) ∈ tree.files
  | .folder place => place <+: tree.start ∨ ∃ other ∈ tree.places, place <+: other

/-- A name that leads from a folder to what is in it. -/
structure IsEntry (name : String) : Prop where
  ne_empty : name ≠ ""
  ne_here : name ≠ "."
  ne_above : name ≠ ".."
  size_le : name.utf8ByteSize ≤ maxNameSize

/-- There is one file at most at each place, and none inside of another file. -/
structure WellFormed (tree : FileTree) : Prop where
  nodup : (tree.files.map Prod.fst).Nodup
  eq_of_prefix : ∀ file ∈ tree.files, ∀ place ∈ tree.places, file.1 <+: place → file.1 = place

/-- The place at which the names of a path end, from the root or from where paths start. -/
def placeOf (tree : FileTree) (path : String) (names : List String) : List String :=
  (if path.startsWith "/" then [] else tree.start) ++ names

section Steps

variable {tree : FileTree} {node after : Node} {name : String} {place : List String}
  {reason : FileError}

theorem holds_of_nodeAt (h : tree.nodeAt place = .ok node) : tree.Holds node := by
  unfold nodeAt at h
  split at h
  · rename_i file hfind
    cases h
    have hmem := List.mem_of_find?_eq_some hfind
    exact ⟨file.1, hmem⟩
  · split at h
    · rename_i hany
      cases h
      obtain ⟨other, hother, hprefix⟩ := List.any_eq_true.mp hany
      exact .inr ⟨other, hother, List.isPrefixOf_iff_prefix.mp hprefix⟩
    · contradiction

/-- One name leads from the tree to the tree. -/
theorem holds_enter (h : tree.Holds node) (henter : tree.enter node name = .ok after) :
    tree.Holds after := by
  cases node with
  | file bytes => contradiction
  | folder place =>
    unfold enter at henter
    simp only at henter
    split at henter
    · cases henter
      exact h
    · split at henter
      · cases henter
        have hdrop : place.dropLast <+: place := List.dropLast_prefix place
        rcases h with hstart | ⟨other, hother, hprefix⟩
        · exact .inl (hdrop.trans hstart)
        · exact .inr ⟨other, hother, hdrop.trans hprefix⟩
      · split at henter
        · contradiction
        · exact holds_of_nodeAt henter

theorem holds_foldlM {names : List String} (h : tree.Holds node)
    (hnames : names.foldlM tree.enter node = .ok after) : tree.Holds after := by
  induction names generalizing node with
  | nil =>
    cases hnames
    exact h
  | cons name names ih =>
    rw [List.foldlM_cons] at hnames
    cases henter : tree.enter node name with
    | error reason =>
      rw [henter] at hnames
      contradiction
    | ok next =>
      rw [henter] at hnames
      exact ih (holds_enter h henter) hnames

theorem holds_resolve {path : String} (h : tree.resolve path = .ok node) : tree.Holds node := by
  unfold resolve at h
  split at h
  · contradiction
  · refine holds_foldlM ?_ h
    left
    split
    · exact List.nil_prefix
    · exact List.prefix_refl _

/-- What is loaded is a file of the tree. -/
theorem mem_files_of_load {path : String} {bytes : List UInt8} (h : tree.load path = .ok bytes) :
    ∃ place, (place, bytes) ∈ tree.files := by
  unfold load at h
  cases hresolve : tree.resolve path with
  | error reason =>
    rw [hresolve] at h
    contradiction
  | ok node =>
    rw [hresolve] at h
    cases node with
    | folder place => contradiction
    | file loaded =>
      cases h
      exact holds_resolve hresolve

end Steps

section Places

variable {tree : FileTree} {place names : List String} {name : String} {bytes : List UInt8}

theorem WellFormed.nodeAt_file (h : tree.WellFormed) (hmem : (place, bytes) ∈ tree.files) :
    tree.nodeAt place = .ok (.file bytes) := by
  unfold nodeAt
  split
  · rename_i file hfind
    have hfile := List.mem_of_find?_eq_some hfind
    have hplace : file.1 = place := by simpa using List.find?_some hfind
    have heq : file = (place, bytes) := List.inj_on_of_nodup_map h.nodup hfile hmem hplace
    rw [heq]
  · rename_i hnone
    have hnot := List.find?_eq_none.mp hnone _ hmem
    simp at hnot

/-- What is on the way to a place is a folder. -/
theorem WellFormed.nodeAt_folder (h : tree.WellFormed)
    (hmem : place ++ name :: names ∈ tree.places) : tree.nodeAt place = .ok (.folder place) := by
  unfold nodeAt
  split
  · rename_i file hfind
    have hfile := List.mem_of_find?_eq_some hfind
    have hplace : file.1 = place := by simpa using List.find?_some hfind
    have hprefix : file.1 <+: place ++ name :: names := hplace ▸ List.prefix_append _ _
    have heq := h.eq_of_prefix file hfile _ hmem hprefix
    rw [hplace] at heq
    simp at heq
  · have hany : (tree.places.any fun other => place.isPrefixOf other) = true := by
      apply List.any_eq_true.mpr
      exact ⟨_, hmem, List.isPrefixOf_iff_prefix.mpr (List.prefix_append _ _)⟩
    rw [if_pos hany]

theorem enter_entry (tree : FileTree) (place : List String) (h : IsEntry name) :
    tree.enter (.folder place) name = tree.nodeAt (place ++ [name]) := by
  unfold enter
  have hempty := h.ne_empty
  have hhere := h.ne_here
  have habove := h.ne_above
  have hsize := h.size_le
  simp only [hempty, hhere, habove, or_self, if_false]
  rw [if_neg (by omega)]

/-- The names of a place, one after the other, lead to the file there. -/
theorem WellFormed.foldlM_enter (h : tree.WellFormed) (hmem : (place ++ names, bytes) ∈ tree.files)
    (hnames : ∀ name ∈ names, IsEntry name) (hne : names ≠ []) :
    names.foldlM tree.enter (.folder place) = .ok (.file bytes) := by
  induction names generalizing place with
  | nil => contradiction
  | cons name names ih =>
    obtain ⟨hname, hrest⟩ := List.forall_mem_cons.mp hnames
    rw [List.foldlM_cons, enter_entry tree place hname]
    cases names with
    | nil =>
      rw [h.nodeAt_file hmem]
      rfl
    | cons next names =>
      rw [List.append_cons] at hmem
      have hplace : place ++ [name] ++ next :: names ∈ tree.places :=
        List.mem_append_left _ (List.mem_map_of_mem hmem)
      rw [h.nodeAt_folder hplace]
      exact ih hmem hrest (List.cons_ne_nil _ _)

/-- Names that lead to no place, and over no file, end where there is nothing. -/
theorem foldlM_enter_notFound (hfiles : ∀ file ∈ tree.files, ¬file.1 <+: place ++ names)
    (hplaces : ∀ other ∈ tree.places, ¬place ++ names <+: other)
    (hnames : ∀ name ∈ names, IsEntry name) (hne : names ≠ []) :
    names.foldlM tree.enter (.folder place) = .error .notFound := by
  induction names generalizing place with
  | nil => contradiction
  | cons name names ih =>
    obtain ⟨hname, hrest⟩ := List.forall_mem_cons.mp hnames
    rw [List.append_cons] at hfiles hplaces
    have hfind : (tree.files.find? fun file => file.1 == place ++ [name]) = none := by
      apply List.find?_eq_none.mpr
      intro file hfile heq
      rw [beq_iff_eq] at heq
      exact hfiles file hfile (heq ▸ List.prefix_append _ _)
    rw [List.foldlM_cons, enter_entry tree place hname, nodeAt, hfind]
    by_cases hany : (tree.places.any fun other => (place ++ [name]).isPrefixOf other) = true
    · simp only [hany, if_true]
      refine ih hfiles hplaces hrest ?_
      rintro rfl
      obtain ⟨other, hother, hprefix⟩ := List.any_eq_true.mp hany
      rw [List.append_nil] at hplaces
      exact hplaces other hother (List.isPrefixOf_iff_prefix.mp hprefix)
    · simp only [hany]
      rfl

theorem foldlM_enter_blanks (tree : FileTree) (place names : List String) (n : Nat) :
    (List.replicate n "" ++ names).foldlM tree.enter (.folder place) =
      names.foldlM tree.enter (.folder place) := by
  induction n with
  | zero => rfl
  | succ n ih =>
    rw [List.replicate_succ, List.cons_append, List.foldlM_cons, ← ih]
    rfl

section Paths

variable {path : String} {n : Nat}

theorem resolve_eq (tree : FileTree) (hsize : path.utf8ByteSize ≤ maxPathSize)
    (hsplit : path.splitOn "/" = List.replicate n "" ++ names) :
    tree.resolve path =
      names.foldlM tree.enter (.folder (if path.startsWith "/" then [] else tree.start)) := by
  unfold resolve
  rw [if_neg (by omega)]
  simp only [hsplit]
  exact foldlM_enter_blanks tree _ names n

/-- A path with the names of a file's place loads the file. Slashes in front of the names
change nothing more. -/
theorem WellFormed.load_eq_ok (h : tree.WellFormed) (hsize : path.utf8ByteSize ≤ maxPathSize)
    (hsplit : path.splitOn "/" = List.replicate n "" ++ names)
    (hnames : ∀ name ∈ names, IsEntry name) (hne : names ≠ [])
    (hmem : (tree.placeOf path names, bytes) ∈ tree.files) : tree.load path = .ok bytes := by
  rw [load, resolve_eq tree hsize hsplit, h.foldlM_enter hmem hnames hne]
  rfl

/-- A path with other names loads nothing. -/
theorem load_eq_notFound (hsize : path.utf8ByteSize ≤ maxPathSize)
    (hsplit : path.splitOn "/" = List.replicate n "" ++ names)
    (hnames : ∀ name ∈ names, IsEntry name) (hne : names ≠ [])
    (hfiles : ∀ file ∈ tree.files, ¬file.1 <+: tree.placeOf path names)
    (hplaces : ∀ other ∈ tree.places, ¬tree.placeOf path names <+: other) :
    tree.load path = .error .notFound := by
  rw [load, resolve_eq tree hsize hsplit, foldlM_enter_notFound hfiles hplaces hnames hne]
  rfl

end Paths

section Names

variable (hname : IsEntry name) (hsplit : name.splitOn "/" = [name])
  (hrelative : name.startsWith "/" = false)

include hname hsplit hrelative

/-- A name alone leads to the file of that name where paths start. -/
theorem WellFormed.load_name (h : tree.WellFormed)
    (hmem : (tree.start ++ [name], bytes) ∈ tree.files) : tree.load name = .ok bytes := by
  have hsize : name.utf8ByteSize ≤ maxPathSize := Nat.le_trans hname.size_le (by decide)
  have hblanks : name.splitOn "/" = List.replicate 0 "" ++ [name] := hsplit
  refine h.load_eq_ok hsize hblanks (by simpa using hname) (List.cons_ne_nil _ _) ?_
  simpa [placeOf, hrelative] using hmem

theorem load_name_notFound (hfiles : ∀ file ∈ tree.files, ¬file.1 <+: tree.start ++ [name])
    (hplaces : ∀ other ∈ tree.places, ¬tree.start ++ [name] <+: other) :
    tree.load name = .error .notFound := by
  have hsize : name.utf8ByteSize ≤ maxPathSize := Nat.le_trans hname.size_le (by decide)
  have hblanks : name.splitOn "/" = List.replicate 0 "" ++ [name] := hsplit
  have hplace : tree.placeOf name [name] = tree.start ++ [name] := by
    simp [placeOf, hrelative]
  refine load_eq_notFound hsize hblanks (by simpa using hname) (List.cons_ne_nil _ _) ?_ ?_
  · rwa [hplace]
  · rwa [hplace]

end Names

end Places

end Abacus.CommandLine.FileTree
