import Modula.Tree.Node

/-!
# Walking a tree

A walk visits every node of a tree once, each before its subnodes and those from left to right. It keeps the nodes still
to be visited on a stack and makes one visit at a time, so that it can be left after any visit: the node on top is
visited and its subnodes take its place.
-/

set_option autoImplicit false

namespace Modula

namespace Node

mutual

/-- The number of nodes of a tree. -/
def size : Node → Nat
  | .inner _ ns => sizeAll ns + 1
  | .empty => 1
  | .leaf _ _ => 1

/-- The number of nodes of the trees of a list. -/
def sizeAll : List Node → Nat
  | [] => 0
  | n :: ns => n.size + sizeAll ns

end

/-- A node counts itself and all of its subnodes. -/
theorem size_eq (n : Node) : n.size = sizeAll n.subnodes + 1 := by
  cases n <;> simp [size, subnodes, sizeAll]

/-- Nodes count one after the other. -/
theorem sizeAll_append (ms ns : List Node) : sizeAll (ms ++ ns) = sizeAll ms + sizeAll ns := by
  induction ms with
  | nil => simp [sizeAll]
  | cons m ms ih => simp [sizeAll, ih]; omega

end Node

/-- A walk under way. The nodes still to be visited are on a stack, whose top is at its end. -/
structure Walk where
  stack : Array Node

namespace Walk

/-- The walk of a tree, before the first visit. -/
def of (n : Node) : Walk := ⟨#[n]⟩

/-- The next visit and the walk after it, or nothing when no node is left. The subnodes of the visited node go on the
stack from the last one to the first one. -/
def next? (w : Walk) : Option (Node × Walk) :=
  match w.stack.back? with
  | none => none
  | some n => some (n, ⟨w.stack.pop ++ n.subnodes.reverse⟩)

/-- The nodes on the stack, from its top. -/
def pending (w : Walk) : List Node := w.stack.toList.reverse

/-- At its start a walk has one node pending. -/
theorem pending_of (n : Node) : (of n).pending = [n] := rfl

/-- A walk ends when nothing is pending. -/
theorem next?_eq_none_iff {w : Walk} : w.next? = none ↔ w.pending = [] := by
  have hback : w.stack.back? = none ↔ w.pending = [] := by simp [pending]
  rw [← hback, next?]
  cases w.stack.back? <;> simp

/-- A visit takes the node from the top of the stack and puts its subnodes there. -/
theorem pending_of_next? {w rest : Walk} {n : Node} (h : w.next? = some (n, rest)) :
    ∃ below, w.pending = n :: below ∧ rest.pending = n.subnodes ++ below := by
  unfold next? at h
  split at h
  · cases h
  · next m htop =>
    cases h
    rw [← Array.getLast?_toList] at htop
    obtain ⟨below, hbelow⟩ := List.getLast?_eq_some_iff.mp htop
    exact ⟨below.reverse, by simp [pending, hbelow], by simp [pending, hbelow]⟩

/-- The number of visits still to be made. -/
def remaining (w : Walk) : Nat := Node.sizeAll w.pending

/-- Each visit leaves one node less. -/
theorem remaining_of_next? {w rest : Walk} {n : Node} (h : w.next? = some (n, rest)) :
    w.remaining = rest.remaining + 1 := by
  obtain ⟨below, hw, hrest⟩ := pending_of_next? h
  rw [remaining, remaining, hw, hrest, Node.sizeAll_append, Node.sizeAll, Node.size_eq]
  omega

/-- Makes all visits of a walk, given the nodes visited so far, last one first. -/
def finish (visited : List Node) (w : Walk) : List Node :=
  match _ : w.next? with
  | none => visited.reverse
  | some (n, rest) => finish (n :: visited) rest
termination_by w.remaining
decreasing_by
  have hnext : w.next? = some (n, rest) := by assumption
  rw [remaining_of_next? hnext]
  exact Nat.lt_succ_self rest.remaining

end Walk

/-- The nodes of a tree in the order of visits. -/
def Node.walk (n : Node) : List Node := Walk.finish [] (.of n)

end Modula
