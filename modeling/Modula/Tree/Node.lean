import Modula.Tree.Schema

/-!
# Tree nodes

A node is empty, holds subnodes, or holds values. Nodes are built and changed only as the schema allows: each function
here checks the parts it is given and refuses them with the reason. A changed node is returned together with the part
that was displaced.
-/

set_option autoImplicit false

namespace Modula

/-- A node of the syntax tree. -/
inductive Node where
  | empty
  | inner (type : NodeType) (subnodes : List Node)
  | leaf (type : NodeType) (values : List String)
deriving Inhabited

namespace Node

mutual

/-- Decides whether two nodes are equal. -/
def decideEq : (m n : Node) → Decidable (m = n)
  | .empty, .empty => isTrue rfl
  | .inner t ms, .inner u ns =>
    match decEq t u, decideEqAll ms ns with
    | isTrue ht, isTrue hs => isTrue (by rw [ht, hs])
    | isFalse ht, _ => isFalse (by intro h; exact ht (Node.inner.inj h).1)
    | _, isFalse hs => isFalse (by intro h; exact hs (Node.inner.inj h).2)
  | .leaf t vs, .leaf u ws =>
    match decEq t u, decEq vs ws with
    | isTrue ht, isTrue hv => isTrue (by rw [ht, hv])
    | isFalse ht, _ => isFalse (by intro h; exact ht (Node.leaf.inj h).1)
    | _, isFalse hv => isFalse (by intro h; exact hv (Node.leaf.inj h).2)
  | .empty, .inner _ _ | .empty, .leaf _ _ | .inner _ _, .empty | .inner _ _, .leaf _ _ | .leaf _ _, .empty
  | .leaf _ _, .inner _ _ => isFalse (by intro h; cases h)

/-- Decides whether two lists of nodes are equal. -/
def decideEqAll : (ms ns : List Node) → Decidable (ms = ns)
  | [], [] => isTrue rfl
  | m :: ms, n :: ns =>
    match decideEq m n, decideEqAll ms ns with
    | isTrue h, isTrue hs => isTrue (by rw [h, hs])
    | isFalse h, _ => isFalse (by intro e; exact h (List.cons.inj e).1)
    | _, isFalse hs => isFalse (by intro e; exact hs (List.cons.inj e).2)
  | [], _ :: _ | _ :: _, [] => isFalse (by intro h; cases h)

end

instance : DecidableEq Node := decideEq

/-- The construct that a node stands for. -/
def type : Node → NodeType
  | .empty => .empty
  | .inner t _ => t
  | .leaf t _ => t

/-- Whether a node stands for an absent part. -/
def isEmpty (n : Node) : Bool := n.type == .empty

/-- The subnodes; a node that holds values has none. -/
def subnodes : Node → List Node
  | .inner _ ns => ns
  | _ => []

/-- The values; a node that holds subnodes has none. -/
def values : Node → List String
  | .leaf _ vs => vs
  | _ => []

/-- The number of subnodes or values. -/
def count : Node → Nat
  | .empty => 0
  | .inner _ ns => ns.length
  | .leaf _ vs => vs.length

/-- The subnode at a place. -/
def subnode? (n : Node) (i : Nat) : Option Node := n.subnodes[i]?

/-- The value at a place. -/
def value? (n : Node) (i : Nat) : Option String := n.values[i]?

end Node

/-- The forms in which a node can be built. -/
inductive NodeKind where
  | branch
  | list
  | terminal
  | terminals
deriving DecidableEq, Repr

/-- A form in words. -/
def NodeKind.text : NodeKind → String
  | .branch => "branch"
  | .list => "list"
  | .terminal => "terminal"
  | .terminals => "terminal list"

/-- Why a node cannot be built or changed. -/
inductive NodeError where
  | wrongKind (type : NodeType) (kind : NodeKind)
  | wrongCount (type : NodeType) (count : Nat)
  | misplaced (type : NodeType) (index : Nat) (found : NodeType)
  | noSuchIndex (type : NodeType) (index : Nat)
deriving DecidableEq, Repr

/-- An error in words. -/
def NodeError.message : NodeError → String
  | .wrongKind type kind => type.name ++ " cannot be built as a " ++ kind.text ++ " node"
  | .wrongCount type count => type.name ++ " cannot have " ++ toString count ++ " subnodes"
  | .misplaced type index found =>
    found.name ++ " is not allowed at index " ++ toString index ++ " of " ++ type.name
  | .noSuchIndex type index => type.name ++ " has no subnode or value at index " ++ toString index

namespace Node

/-- The first subnode that may not stand at its place, given the place of the first one. -/
def misplaced? (t : NodeType) : Nat → List Node → Option NodeError
  | _, [] => none
  | i, n :: ns => if t.allowsAt i n.type then misplaced? t (i + 1) ns else some (.misplaced t i n.type)

/-- What is wrong with the subnodes for a node of the type: their number, or the first one out of place. -/
def fault? (t : NodeType) (ns : List Node) : Option NodeError :=
  if t.allowsCount ns.length then misplaced? t 0 ns else some (.wrongCount t ns.length)

/-- A node with one subnode for each slot of its type. -/
def ofBranch (t : NodeType) (ns : List Node) : Except NodeError Node :=
  if t.isBranch then
    match fault? t ns with
    | some e => .error e
    | none => .ok (.inner t ns)
  else .error (.wrongKind t .branch)

/-- A node with an open list of subnodes. -/
def ofList (t : NodeType) (ns : List Node) : Except NodeError Node :=
  if t.isList then
    match fault? t ns with
    | some e => .error e
    | none => .ok (.inner t ns)
  else .error (.wrongKind t .list)

/-- A node with one value. -/
def ofValue (t : NodeType) (value : String) : Except NodeError Node :=
  match t.shape with
  | .terminal => .ok (.leaf t [value])
  | _ => .error (.wrongKind t .terminal)

/-- A node with an open list of values. -/
def ofValues (t : NodeType) (values : List String) : Except NodeError Node :=
  match t.shape with
  | .terminals _ => if t.allowsCount values.length then .ok (.leaf t values) else .error (.wrongCount t values.length)
  | _ => .error (.wrongKind t .terminals)

/-- Puts a subnode in a place: the displaced subnode and the changed node. -/
def replaceSubnode (n : Node) (i : Nat) (m : Node) : Except NodeError (Node × Node) :=
  match n with
  | .inner t ns =>
    match ns[i]? with
    | none => .error (.noSuchIndex t i)
    | some old => if t.allowsAt i m.type then .ok (old, .inner t (ns.set i m)) else .error (.misplaced t i m.type)
  | _ => .error (.noSuchIndex n.type i)

/-- Puts a value in a place: the displaced value and the changed node. -/
def replaceValue (n : Node) (i : Nat) (value : String) : Except NodeError (String × Node) :=
  match n with
  | .leaf t vs =>
    match vs[i]? with
    | none => .error (.noSuchIndex t i)
    | some old => .ok (old, .leaf t (vs.set i value))
  | _ => .error (.noSuchIndex n.type i)

end Node

end Modula
