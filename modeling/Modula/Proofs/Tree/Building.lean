import Modula.Tree.Node

/-!
# What comes of building nodes

A node is built of its type or refused. One refusal matters more than the others: that of a set value whose type is a
designator with selectors, which the grammar allows and the schema does not (`NodeError.OfSelectedSetType`).
-/

set_option autoImplicit false

namespace Modula

/-- The types of a designator with selectors. -/
def NodeType.selected : List NodeType := [.fieldSelection, .indexing, .dereference]

/-- The error of a set value whose type is a designator with selectors. -/
inductive NodeError.OfSelectedSetType : NodeError → Prop
  | intro {t : NodeType} (h : t ∈ NodeType.selected) : OfSelectedSetType (.misplaced .setValue 1 t)

/-- What comes of building a node of the type: such a node, or an error, which is about the type of a set value only if
the node is one. -/
structure Node.Builds (t : NodeType) (r : Except NodeError Node) : Prop where
  type {n : Node} (h : r = .ok n) : n.type = t
  error {e : NodeError} (h : r = .error e) (he : e.OfSelectedSetType) : t = .setValue

namespace Node

variable {t : NodeType}

/-- What is said to be misplaced is one of the subnodes. -/
theorem misplaced?_eq_some {i : Nat} {ns : List Node} {e : NodeError} (h : misplaced? t i ns = some e) :
    ∃ j found, e = .misplaced t j found := by
  induction ns generalizing i with
  | nil => cases h
  | cons n ns ih =>
    unfold misplaced? at h
    split at h
    · exact ih h
    · exact ⟨i, n.type, (Option.some.inj h).symm⟩

/-- Only a set can have a type with selectors. -/
theorem eq_setValue_of_fault? {ns : List Node} {e : NodeError} (h : fault? t ns = some e) (he : e.OfSelectedSetType) :
    t = .setValue := by
  unfold fault? at h
  split at h
  · obtain ⟨j, found, rfl⟩ := misplaced?_eq_some h
    cases he
    rfl
  · cases h
    cases he

/-- A set value is refused for the type that it names only if that is a designator with selectors. -/
theorem selected_of_ofBranch {elements head : Node} {e : NodeError} (h : ofBranch .setValue [elements, head] = .error e)
    (he : e.OfSelectedSetType) : head.type ∈ NodeType.selected := by
  obtain ⟨ht⟩ := he
  have hbranch : NodeType.setValue.isBranch = true := by decide
  have hcount : NodeType.setValue.allowsCount [elements, head].length = true := by
    show NodeType.setValue.allowsCount 2 = true
    decide
  simp only [ofBranch, hbranch, fault?, hcount, misplaced?, if_true] at h
  grind

/-- What a branch is built to has its type, or is an error. -/
theorem builds_ofBranch (ns : List Node) : Builds t (ofBranch t ns) := by
  unfold ofBranch
  split
  · split
    · next e hfault => exact ⟨nofun, fun h he => eq_setValue_of_fault? (by cases h; exact hfault) he⟩
    · exact ⟨fun h => by cases h; rfl, nofun⟩
  · exact ⟨nofun, fun h he => by cases h; cases he⟩

/-- So it is with a list. -/
theorem builds_ofList (ns : List Node) : Builds t (ofList t ns) := by
  unfold ofList
  split
  · split
    · next e hfault => exact ⟨nofun, fun h he => eq_setValue_of_fault? (by cases h; exact hfault) he⟩
    · exact ⟨fun h => by cases h; rfl, nofun⟩
  · exact ⟨nofun, fun h he => by cases h; cases he⟩

/-- So it is with a value. -/
theorem builds_ofValue (value : String) : Builds t (ofValue t value) := by
  unfold ofValue
  split
  · exact ⟨fun h => by cases h; rfl, nofun⟩
  · exact ⟨nofun, fun h he => by cases h; cases he⟩

/-- So it is with several values. -/
theorem builds_ofValues (values : List String) : Builds t (ofValues t values) := by
  unfold ofValues
  split
  · split
    · exact ⟨fun h => by cases h; rfl, nofun⟩
    · exact ⟨nofun, fun h he => by cases h; cases he⟩
  · exact ⟨nofun, fun h he => by cases h; cases he⟩

/-! ## Nodes that are built -/

/-- A branch that could be built has the subnodes given. -/
theorem ofBranch_eq {ns : List Node} {n : Node} (h : ofBranch t ns = .ok n) :
    n = .inner t ns ∧ t.isBranch = true := by
  unfold ofBranch at h
  split at h
  · next hbranch =>
    split at h
    · cases h
    · exact ⟨(Except.ok.inj h).symm, hbranch⟩
  · cases h

/-- So has a list. -/
theorem ofList_eq {ns : List Node} {n : Node} (h : ofList t ns = .ok n) : n = .inner t ns ∧ t.isList = true := by
  unfold ofList at h
  split at h
  · next hlist =>
    split at h
    · cases h
    · exact ⟨(Except.ok.inj h).symm, hlist⟩
  · cases h

/-- A node of one value has that value. -/
theorem ofValue_eq {value : String} {n : Node} (h : ofValue t value = .ok n) :
    n = .leaf t [value] ∧ t.isTerminal = true := by
  unfold ofValue at h
  split at h
  · next hshape => exact ⟨(Except.ok.inj h).symm, by simp [NodeType.isTerminal, hshape]⟩
  · cases h

/-- A node of several values has these values. -/
theorem ofValues_eq {values : List String} {n : Node} (h : ofValues t values = .ok n) :
    n = .leaf t values ∧ t.isTerminal = true := by
  unfold ofValues at h
  split at h
  · next least hshape =>
    split at h
    · exact ⟨(Except.ok.inj h).symm, by simp [NodeType.isTerminal, hshape]⟩
    · cases h
  · cases h

end Node

end Modula
