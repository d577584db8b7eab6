import Mathlib.Data.List.Basic
import Modula.Tree.Walk

/-!
# Preorder

The preorder of a tree is its node followed by the preorders of its subnodes, from left to right. A walk has no such
recursion: what it has still to visit is spread over a stack with nodes of several levels. But a visit takes the first
node from the preorders of what is on the stack and leaves the others (`Walk.ahead_of_next?`). So a walk that is left
after any number of visits has made so many of the preorder (`Walk.visits_eq`), and it ends with its last node.

Two nodes of a tree can be equal, but each is at a place of its own. Told with the places, the preorder has what the
tree has at each of its places, once (`Node.mem_located`), with a node before those below it and what is in a subnode
before what is in a later one (`Node.ordered_places`).
-/

set_option autoImplicit false

namespace Modula

namespace Node

/-- What holds of a node whenever it holds of its subnodes holds of every node. -/
@[elab_as_elim]
theorem induction {P : Node → Prop} (node : ∀ n, (∀ m ∈ n.subnodes, P m) → P n) (n : Node) : P n := by
  refine @Node.rec P (fun ns => ∀ m ∈ ns, P m) ?empty ?inner ?leaf ?nil ?cons n
  case empty => exact node .empty nofun
  case inner => exact fun t ns hns => node (.inner t ns) hns
  case leaf => exact fun t vs => node (.leaf t vs) nofun
  case nil => exact nofun
  case cons => exact fun m ms hm hms => List.forall_mem_cons.mpr ⟨hm, hms⟩

mutual

/-- The nodes of a tree, each before those of its subnodes and these from left to right. -/
def preorder : Node → List Node
  | .inner t ns => .inner t ns :: preorderAll ns
  | .empty => [.empty]
  | .leaf t vs => [.leaf t vs]

/-- The preorders of the trees of a list, one after the other. -/
def preorderAll : List Node → List Node
  | [] => []
  | n :: ns => n.preorder ++ preorderAll ns

end

/-- Nodes are listed one after the other, each before its parts. -/
theorem preorderAll_eq (ns : List Node) : preorderAll ns = ns.flatMap preorder := by
  induction ns with
  | nil => rfl
  | cons n ns ih => rw [preorderAll, ih, List.flatMap_cons]

/-- A node comes before all that is listed of its subnodes. -/
theorem preorder_eq (n : Node) : n.preorder = n :: n.subnodes.flatMap preorder := by
  rw [← preorderAll_eq]
  cases n <;> rfl

mutual

/-- As many nodes are listed as there are. -/
theorem length_preorder : ∀ n : Node, n.preorder.length = n.size
  | .inner t ns => by rw [preorder, List.length_cons, length_preorderAll ns, size]
  | .empty => rfl
  | .leaf t vs => rfl

/-- So it is with several nodes. -/
theorem length_preorderAll : ∀ ns : List Node, (preorderAll ns).length = sizeAll ns
  | [] => rfl
  | n :: ns => by rw [preorderAll, List.length_append, length_preorder n, length_preorderAll ns, sizeAll]

end

end Node

/-! ## The visits of a walk -/

namespace Walk

open Node

/-- What a walk has still to visit: the preorders of the trees on its stack. -/
def ahead (w : Walk) : List Node := w.pending.flatMap preorder

/-- At its start a walk has the whole preorder ahead. -/
theorem ahead_of (n : Node) : (of n).ahead = n.preorder := by
  rw [ahead, pending_of, List.flatMap_singleton]

/-- A visit takes the first node from what is ahead. -/
theorem ahead_of_next? {w rest : Walk} {n : Node} (h : w.next? = some (n, rest)) : w.ahead = n :: rest.ahead := by
  obtain ⟨below, hw, hrest⟩ := pending_of_next? h
  rw [ahead, ahead, hw, hrest, List.flatMap_cons, preorder_eq, List.flatMap_append, List.cons_append]

/-- A walk ends when nothing is ahead. -/
theorem next?_eq_none_iff_ahead {w : Walk} : w.next? = none ↔ w.ahead = [] := by
  constructor
  · intro hnone
    rw [ahead, next?_eq_none_iff.mp hnone, List.flatMap_nil]
  · intro hahead
    rw [Option.eq_none_iff_forall_ne_some]
    rintro ⟨n, rest⟩ hnext
    rw [ahead_of_next? hnext] at hahead
    cases hahead

/-- The first visits of a walk, as many as asked for if there are so many, and the walk after them. -/
def visits : Nat → Walk → List Node × Walk
  | 0, w => ([], w)
  | k + 1, w =>
    match w.next? with
    | none => ([], w)
    | some (n, rest) => (n :: (rest.visits k).1, (rest.visits k).2)

/-- The first visits are made to the first nodes ahead, and the others stay ahead. -/
theorem visits_eq (k : Nat) (w : Walk) : (w.visits k).1 = w.ahead.take k ∧ (w.visits k).2.ahead = w.ahead.drop k := by
  -- For every stack: that of the walk after the first visit is of no particular form.
  induction k generalizing w with
  | zero => exact ⟨rfl, rfl⟩
  | succ k ih =>
    rw [visits]
    cases hnext : w.next? with
    | none =>
      have hahead : w.ahead = [] := next?_eq_none_iff_ahead.mp hnext
      simp [hahead]
    | some visit =>
      obtain ⟨n, rest⟩ := visit
      obtain ⟨hvisits, hrest⟩ := ih rest
      rw [ahead_of_next? hnext, List.take_succ_cons, List.drop_succ_cons]
      exact ⟨congrArg (n :: ·) hvisits, hrest⟩

/-- A walk visits what is ahead, after what has been visited. -/
theorem finish_eq (visited : List Node) (w : Walk) : finish visited w = visited.reverse ++ w.ahead := by
  fun_induction finish visited w with
  | case1 visited w hnone => rw [next?_eq_none_iff_ahead.mp hnone, List.append_nil]
  | case2 visited w n rest hnext ih => rw [ih, ahead_of_next? hnext, List.reverse_cons, List.append_assoc]; rfl

end Walk

/-! ## The places of a tree -/

namespace Node

/-- The node at a place of a tree. A place is the way there from the root: at each node, the subnode to go on to. -/
def at? (n : Node) : List Nat → Option Node
  | [] => some n
  | i :: place => (n.subnode? i).bind fun m => m.at? place

/-- The order of places: a place comes before those below it, and a place in a subnode before those in later ones. -/
inductive Before : List Nat → List Nat → Prop
  | below (place : List Nat) (i : Nat) (way : List Nat) : Before place (place ++ i :: way)
  | beside (place way way' : List Nat) {i j : Nat} (h : i < j) : Before (place ++ i :: way) (place ++ j :: way')

/-- Of two places below the same subnode the same one comes first. -/
theorem Before.cons {place place' : List Nat} (h : Before place place') (i : Nat) :
    Before (i :: place) (i :: place') := by
  cases h with
  | below place j way => exact .below (i :: place) j way
  | beside place way way' h => exact .beside (i :: place) way way' h

/-- No place comes before itself. -/
theorem Before.ne {place place' : List Nat} (h : Before place place') : place ≠ place' := by
  cases h with
  | below place i way => simp
  | beside place way way' h => simp [Nat.ne_of_lt h]

mutual

/-- The preorder of a tree, with the place of each node. -/
def located : Node → List (List Nat × Node)
  | .inner t ns => ([], .inner t ns) :: locatedFrom 0 ns
  | .empty => [([], .empty)]
  | .leaf t vs => [([], .leaf t vs)]

/-- The preorders of subnodes with the places of the nodes, given the index of the first subnode. -/
def locatedFrom (i : Nat) : List Node → List (List Nat × Node)
  | [] => []
  | n :: ns => n.located.map (Prod.map (i :: ·) id) ++ locatedFrom (i + 1) ns

end

/-- Subnodes are located with their numbers before their places. -/
theorem locatedFrom_eq (i : Nat) (ns : List Node) :
    locatedFrom i ns = (ns.zipIdx i).flatMap fun x => x.1.located.map (Prod.map (x.2 :: ·) id) := by
  induction ns generalizing i with
  | nil => rfl
  | cons n ns ih => rw [locatedFrom, ih, List.zipIdx_cons, List.flatMap_cons]

/-- A node is at the empty place, and its subnodes are at their numbers. -/
theorem located_eq (n : Node) :
    n.located = ([], n) :: n.subnodes.zipIdx.flatMap fun x => x.1.located.map (Prod.map (x.2 :: ·) id) := by
  rw [← locatedFrom_eq]
  cases n <;> rfl

/-- Without the places, it is the preorder. -/
theorem map_snd_located (n : Node) : n.located.map Prod.snd = n.preorder := by
  induction n using induction with
  | node n ih =>
    have hsubnodes : ∀ x ∈ n.subnodes.zipIdx,
        (x.1.located.map (Prod.map (x.2 :: ·) id)).map Prod.snd = x.1.preorder := by
      intro x hx
      rw [List.map_map, ← ih x.1 (List.fst_mem_of_mem_zipIdx hx)]
      rfl
    rw [located_eq, preorder_eq, List.map_cons, List.map_flatMap, List.flatMap_congr hsubnodes, ← List.flatMap_map,
      List.zipIdx_map_fst]

/-- Below the root, a place is in the subnode that it starts with. -/
theorem cons_mem_located {n m : Node} {i : Nat} {place : List Nat} :
    (i :: place, m) ∈ n.located ↔ ∃ k, n.subnode? i = some k ∧ (place, m) ∈ k.located := by
  rw [located_eq, List.mem_cons, List.mem_flatMap]
  constructor
  · rintro (hroot | ⟨⟨k, j⟩, hk, hplace⟩)
    · cases hroot
    · obtain ⟨⟨place', m'⟩, hlocated, hsame⟩ := List.mem_map.mp hplace
      obtain ⟨⟨rfl, rfl⟩, rfl⟩ : (j = i ∧ place' = place) ∧ m' = m := by simpa using hsame
      exact ⟨k, List.mem_zipIdx_iff_getElem?.mp hk, hlocated⟩
  · rintro ⟨k, hk, hlocated⟩
    exact .inr ⟨(k, i), List.mem_zipIdx_iff_getElem?.mpr hk, List.mem_map.mpr ⟨(place, m), hlocated, rfl⟩⟩

/-- Every node of the tree is there with its place, and nothing else. -/
theorem mem_located {n m : Node} {place : List Nat} : (place, m) ∈ n.located ↔ n.at? place = some m := by
  induction place generalizing n with
  | nil =>
    rw [located_eq, at?]
    simp [eq_comm]
  | cons i place ih => simp only [cons_mem_located, at?, Option.bind_eq_some_iff, ih]

/-- The places of a tree in the order of visits. -/
def places (n : Node) : List (List Nat) := n.located.map Prod.fst

/-- So are their places. -/
theorem places_eq (n : Node) : n.places = [] :: n.subnodes.zipIdx.flatMap fun x => x.1.places.map (x.2 :: ·) := by
  rw [places, located_eq, List.map_cons, List.map_flatMap]
  simp only [places, List.map_map]
  rfl

/-- The order of visits is the order of places. -/
theorem ordered_places (n : Node) : n.places.Pairwise Before := by
  induction n using induction with
  | node n ih =>
    rw [places_eq, List.pairwise_cons, List.pairwise_flatMap]
    refine ⟨?root, ?within, ?between⟩
    case root =>
      intro place hplace
      obtain ⟨x, -, hplace⟩ := List.mem_flatMap.mp hplace
      obtain ⟨way, -, rfl⟩ := List.mem_map.mp hplace
      exact .below [] x.2 way
    case within =>
      intro x hx
      have hplaces : x.1.places.Pairwise Before := ih x.1 (List.fst_mem_of_mem_zipIdx hx)
      exact List.pairwise_map.mpr (hplaces.imp fun h => h.cons x.2)
    case between =>
      have hindices : n.subnodes.zipIdx.Pairwise fun x y => x.2 < y.2 := by
        rw [← List.pairwise_map, List.zipIdx_map_snd]
        exact List.pairwise_lt_range'
      refine hindices.imp fun {x y} hlt place hplace place' hplace' => ?_
      obtain ⟨way, -, rfl⟩ := List.mem_map.mp hplace
      obtain ⟨way', -, rfl⟩ := List.mem_map.mp hplace'
      exact .beside [] way way' hlt

/-- A tree is listed by its nodes and their places in the order of visits. -/
structure ListedBy (n : Node) (visits : List (List Nat × Node)) : Prop where
  /-- The list has what the tree has at its places. -/
  mem_iff : ∀ place m, (place, m) ∈ visits ↔ n.at? place = some m
  /-- No place is visited twice. -/
  once : (visits.map Prod.fst).Nodup
  ordered : (visits.map Prod.fst).Pairwise Before

/-- The located nodes are those of the tree, each at its place. -/
theorem listedBy_located (n : Node) : n.ListedBy n.located where
  mem_iff _ _ := mem_located
  once := (ordered_places n).imp Before.ne
  ordered := ordered_places n

/-- A walk visits the preorder of its tree. Left after any number of visits it has made so many of them, and it ends
after as many as there are nodes. Each visit is made at a place of its own, to the node that the tree has there, and
every place of the tree is visited: a place before those below it, and those in a subnode before those in a later
one. -/
theorem walk_eq_preorder (n : Node) :
    n.walk = n.preorder ∧
      (∀ k, ((Walk.of n).visits k).1 = n.preorder.take k ∧
        (((Walk.of n).visits k).2.next? = none ↔ n.size ≤ k)) ∧
      ∃ visits, visits.map Prod.snd = n.walk ∧ n.ListedBy visits := by
  have hwalk : n.walk = n.preorder := by rw [walk, Walk.finish_eq, Walk.ahead_of, List.reverse_nil, List.nil_append]
  refine ⟨hwalk, fun k => ?_, n.located, by rw [map_snd_located, hwalk], listedBy_located n⟩
  obtain ⟨hvisits, hahead⟩ := Walk.visits_eq k (.of n)
  rw [Walk.ahead_of] at hvisits hahead
  refine ⟨hvisits, ?_⟩
  rw [Walk.next?_eq_none_iff_ahead, hahead, List.drop_eq_nil_iff, length_preorder]

example :
    (Node.inner .plus [.inner .functionCall [.leaf .ident ["f"], .inner .arguments [.leaf .ident ["y"]]],
      .leaf .ident ["x"]]).walk.map (fun n => (n.type, n.values)) =
    [(.plus, []), (.functionCall, []), (.ident, ["f"]), (.arguments, []), (.ident, ["y"]), (.ident, ["x"])] := by
  cbv

end Node

end Modula
