import Mathlib.Data.List.Basic
import Modula.Proofs.Tree.Building

/-!
# Nodes that are valid at every depth

A node fits the schema if it holds the kind of content that its type asks for, as many subnodes or values as it may, and
subnodes that may stand where they stand (`Node.Fits`). It is valid if it and all nodes below it fit. Building a node
checks one level only, and replacing a subnode one place only; but valid parts make a valid node, and a valid node stays
valid (`valid_ofBranch` and the others).
-/

set_option autoImplicit false

namespace Modula

namespace Node

/-- Whether the node holds what the shape asks for: nothing, subnodes or values. -/
def holdsContentOf : Node → Shape → Bool
  | .empty, .empty => true
  | .inner _ _, .branch _ | .inner _ _, .list _ _ => true
  | .leaf _ _, .terminal | .leaf _ _, .terminals _ => true
  | _, _ => false

/-- The node itself fits the schema. -/
structure Fits (n : Node) : Prop where
  content : n.holdsContentOf n.type.shape = true
  least : n.type.countRange.1 ≤ n.count
  most : ∀ most ∈ n.type.countRange.2, n.count ≤ most
  places : ∀ i m, n.subnode? i = some m → n.type.allowsAt i m.type = true

/-- A node is in the tree of another one: it is that node, or in the tree of one of its subnodes. -/
inductive Within (m : Node) : Node → Prop
  | self : Within m m
  | deeper {n k : Node} {i : Nat} (hk : n.subnode? i = some k) (h : Within m k) : Within m n

/-- All nodes of the tree fit the schema. -/
def Valid (n : Node) : Prop := ∀ m : Node, m.Within n → m.Fits

variable {t : NodeType} {n m : Node} {ns : List Node}

/-- A valid node fits its own shape. -/
theorem Valid.fits (h : n.Valid) : n.Fits := h n .self

/-- A subnode of a valid node is valid. -/
theorem Valid.subnode {i : Nat} (h : n.Valid) (hm : n.subnode? i = some m) : m.Valid :=
  fun k hk => h k (.deeper hm hk)

/-- So are all of its subnodes. -/
theorem Valid.mem_subnodes (h : n.Valid) (hm : m ∈ n.subnodes) : m.Valid := by
  obtain ⟨i, hi⟩ := List.mem_iff_getElem?.mp hm
  exact h.subnode hi

/-- A node that fits over valid subnodes is valid. -/
theorem Fits.valid (h : n.Fits) (hsubnodes : ∀ m ∈ n.subnodes, m.Valid) : n.Valid := by
  intro m hm
  cases hm with
  | self => exact h
  | deeper hk hm => exact hsubnodes _ (List.mem_of_getElem? hk) m hm

/-! ## Nodes without parts -/

/-- The empty node is valid. -/
theorem valid_empty : Node.Valid .empty := by
  refine Fits.valid ⟨rfl, by decide, ?_, nofun⟩ nofun
  rintro most ⟨rfl⟩
  exact Nat.le_refl 0

/-- A leaf has no subnodes, so it is valid if it holds so many values as it may. -/
theorem valid_leaf {values : List String} (ht : t.isTerminal = true) (hcount : t.allowsCount values.length = true) :
    (Node.leaf t values).Valid := by
  rw [NodeType.allowsCount, Bool.and_eq_true, decide_eq_true_eq] at hcount
  refine Fits.valid ⟨?_, hcount.1, ?_, nofun⟩ nofun
  · show holdsContentOf (.leaf t values) t.shape = true
    unfold NodeType.isTerminal at ht
    revert ht
    cases t.shape <;> simp [holdsContentOf]
  · intro most hmost
    have hsome : t.countRange.2 = some most := hmost
    show values.length ≤ most
    simpa [hsome] using hcount.2

/-- What is built of a value is valid. -/
theorem valid_ofValue {value : String} (h : ofValue t value = .ok n) : n.Valid := by
  obtain ⟨rfl, ht⟩ := ofValue_eq h
  refine valid_leaf ht ?_
  have hshape : t.shape = .terminal := by
    unfold ofValue at h
    split at h
    · next hshape => exact hshape
    · cases h
  simp [NodeType.allowsCount, NodeType.countRange, hshape]

/-- So is what is built of several. -/
theorem valid_ofValues {values : List String} (h : ofValues t values = .ok n) : n.Valid := by
  obtain ⟨rfl, ht⟩ := ofValues_eq h
  refine valid_leaf ht ?_
  unfold ofValues at h
  split at h
  · split at h
    · next hcount => exact hcount
    · cases h
  · cases h

/-! ## Nodes with subnodes -/

/-- No subnode is out of place if each may stand at its place. -/
theorem misplaced?_eq_none_iff {i : Nat} :
    misplaced? t i ns = none ↔ ∀ j m, ns[j]? = some m → t.allowsAt (i + j) m.type = true := by
  induction ns generalizing i with
  | nil => simp [misplaced?]
  | cons n ns ih =>
    unfold misplaced?
    split
    · next hn =>
      rw [ih]
      constructor
      · rintro hns (- | j) m hm
        · obtain rfl : n = m := by simpa using hm
          exact hn
        · have hplace := hns j m (by simpa using hm)
          rwa [Nat.add_assoc, Nat.add_comm 1 j] at hplace
      · intro hns j m hm
        have hplace := hns (j + 1) m (by simpa using hm)
        rwa [Nat.add_comm j 1, ← Nat.add_assoc] at hplace
    · next hn =>
      refine iff_of_false (by simp) fun hns => hn ?_
      exact hns 0 n (by simp)

/-- A branch is not at fault if it has as many subnodes as its type takes, each of which may stand where it does. -/
theorem fault?_eq_none_iff : fault? t ns = none ↔
    t.allowsCount ns.length = true ∧ ∀ i m, ns[i]? = some m → t.allowsAt i m.type = true := by
  unfold fault?
  split
  · next hcount => simp [hcount, misplaced?_eq_none_iff]
  · next hcount => simp [hcount]

/-- A node over valid subnodes is valid if nothing is wrong with their number and places. -/
theorem valid_inner (ht : t.isBranch = true ∨ t.isList = true) (hfault : fault? t ns = none)
    (hns : ∀ m ∈ ns, m.Valid) : (Node.inner t ns).Valid := by
  obtain ⟨hcount, hplaces⟩ := fault?_eq_none_iff.mp hfault
  rw [NodeType.allowsCount, Bool.and_eq_true, decide_eq_true_eq] at hcount
  refine Fits.valid ⟨?_, hcount.1, ?_, hplaces⟩ hns
  · show holdsContentOf (.inner t ns) t.shape = true
    unfold NodeType.isBranch NodeType.isList at ht
    revert ht
    cases t.shape <;> simp [holdsContentOf]
  · intro most hmost
    have hsome : t.countRange.2 = some most := hmost
    show ns.length ≤ most
    simpa [hsome] using hcount.2

/-- A branch that could be built of valid nodes is valid. -/
theorem valid_ofBranch (h : ofBranch t ns = .ok n) (hns : ∀ m ∈ ns, m.Valid) : n.Valid := by
  obtain ⟨rfl, ht⟩ := ofBranch_eq h
  refine valid_inner (.inl ht) ?_ hns
  unfold ofBranch at h
  rw [if_pos ht] at h
  split at h
  · cases h
  · next hfault => exact hfault

/-- So is a list. -/
theorem valid_ofList (h : ofList t ns = .ok n) (hns : ∀ m ∈ ns, m.Valid) : n.Valid := by
  obtain ⟨rfl, ht⟩ := ofList_eq h
  refine valid_inner (.inr ht) ?_ hns
  unfold ofList at h
  rw [if_pos ht] at h
  split at h
  · cases h
  · next hfault => exact hfault

/-! ## Changed nodes -/

/-- A node with subnodes is known by its type and these. -/
theorem eq_inner_iff (hns : ns ≠ []) : n = .inner t ns ↔ n.type = t ∧ n.values = [] ∧ n.subnodes = ns := by
  cases n with
  | inner t' ns' => simp [Node.type, values, subnodes]
  | empty => simpa [subnodes] using fun _ _ => hns.symm
  | leaf t' vs => simpa [subnodes] using fun _ _ => hns.symm

/-- A node with values is known by its type and these. -/
theorem eq_leaf_iff {vs : List String} (hvs : vs ≠ []) :
    n = .leaf t vs ↔ n.type = t ∧ n.subnodes = [] ∧ n.values = vs := by
  cases n with
  | leaf t' vs' => simp [Node.type, values, subnodes]
  | empty => simpa [values] using fun _ _ => hvs.symm
  | inner t' ns' => simpa [values] using fun _ _ => hvs.symm

/-- A subnode is replaced if there is one at the place, where the new one may stand. -/
theorem replaceSubnode_inner_eq_ok_iff {i : Nat} {old changed : Node} :
    (Node.inner t ns).replaceSubnode i m = .ok (old, changed) ↔
      ns[i]? = some old ∧ t.allowsAt i m.type = true ∧ changed = .inner t (ns.set i m) := by
  rw [replaceSubnode]
  cases ns[i]? with
  | none => simp
  | some found => by_cases hplace : t.allowsAt i m.type = true <;> simp [hplace, eq_comm]

/-- A subnode is replaced if and only if there is one at the place and the new one may stand there. Then the old one is
returned, and nothing but the place has changed. -/
theorem replaceSubnode_eq_ok_iff {i : Nat} {old changed : Node} :
    n.replaceSubnode i m = .ok (old, changed) ↔
      n.subnode? i = some old ∧ n.type.allowsAt i m.type = true ∧ changed.type = n.type ∧
        changed.values = n.values ∧ changed.subnodes = n.subnodes.set i m := by
  cases n with
  | empty => simp [replaceSubnode, subnode?, subnodes]
  | leaf t vs => simp [replaceSubnode, subnode?, subnodes]
  | inner t ns =>
    rw [replaceSubnode_inner_eq_ok_iff]
    refine and_congr_right fun hold => and_congr_right fun _ => eq_inner_iff ?_
    rw [ne_eq, List.set_eq_nil_iff]
    rintro rfl
    cases hold

/-- A subnode that may stand at the place of another one takes it. -/
theorem exists_replaceSubnode {i : Nat} {old : Node} (hold : n.subnode? i = some old)
    (hplace : n.type.allowsAt i m.type = true) : ∃ changed, n.replaceSubnode i m = .ok (old, changed) := by
  cases n with
  | empty => cases hold
  | leaf t vs => cases hold
  | inner t ns => exact ⟨_, replaceSubnode_inner_eq_ok_iff.mpr ⟨hold, hplace, rfl⟩⟩

/-- A value is replaced if there is one at the place. -/
theorem replaceValue_leaf_eq_ok_iff {vs : List String} {i : Nat} {value old : String} {changed : Node} :
    (Node.leaf t vs).replaceValue i value = .ok (old, changed) ↔
      vs[i]? = some old ∧ changed = .leaf t (vs.set i value) := by
  rw [replaceValue]
  cases vs[i]? with
  | none => simp
  | some found => simp [eq_comm]

/-- A value is replaced if and only if there is one at the place. Then the old one is returned, and nothing but the
place has changed. -/
theorem replaceValue_eq_ok_iff {i : Nat} {value old : String} {changed : Node} :
    n.replaceValue i value = .ok (old, changed) ↔
      n.value? i = some old ∧ changed.type = n.type ∧ changed.subnodes = n.subnodes ∧
        changed.values = n.values.set i value := by
  cases n with
  | empty => simp [replaceValue, value?, values]
  | inner t ns => simp [replaceValue, value?, values]
  | leaf t vs =>
    rw [replaceValue_leaf_eq_ok_iff]
    refine and_congr_right fun hold => eq_leaf_iff ?_
    rw [ne_eq, List.set_eq_nil_iff]
    rintro rfl
    cases hold

/-- Any value may replace one that is there. -/
theorem exists_replaceValue {i : Nat} {old : String} (value : String) (hold : n.value? i = some old) :
    ∃ changed, n.replaceValue i value = .ok (old, changed) := by
  cases n with
  | empty => cases hold
  | inner t ns => cases hold
  | leaf t vs => exact ⟨_, replaceValue_leaf_eq_ok_iff.mpr ⟨hold, rfl⟩⟩

/-- What a node has to hold is of one kind, whatever it holds of it. -/
theorem holdsContentOf_inner_congr (ns' : List Node) (s : Shape) :
    (inner t ns).holdsContentOf s = (inner t ns').holdsContentOf s := by
  cases s <;> rfl

/-- Whether a node may have values does not depend on which they are. -/
theorem holdsContentOf_leaf_congr (vs vs' : List String) (s : Shape) :
    (leaf t vs).holdsContentOf s = (leaf t vs').holdsContentOf s := by
  cases s <;> rfl

/-- Only the replaced place is checked, but all others hold what they held, in a node of the same type. -/
theorem Valid.replaceSubnode {i : Nat} {old changed : Node} (hn : n.Valid) (hm : m.Valid)
    (h : n.replaceSubnode i m = .ok (old, changed)) : changed.Valid := by
  cases n with
  | empty => cases h
  | leaf t vs => cases h
  | inner t ns =>
    obtain ⟨-, hplace, rfl⟩ := replaceSubnode_inner_eq_ok_iff.mp h
    have hfits := hn.fits
    have hcount : (Node.inner t (ns.set i m)).count = (Node.inner t ns).count := List.length_set
    refine Fits.valid ⟨(holdsContentOf_inner_congr ns _).trans hfits.content, ?_, ?_, fun j k hk => ?_⟩ fun k hk => ?_
    · rw [hcount]
      exact hfits.least
    · rw [hcount]
      exact hfits.most
    · -- the new subnode was checked for its place, all others stand where they stood
      have hk : (ns.set i m)[j]? = some k := hk
      rw [List.getElem?_set] at hk
      split at hk
      · next hij =>
        obtain ⟨-, rfl⟩ : i < ns.length ∧ m = k := by simpa using hk
        exact hij ▸ hplace
      · exact hfits.places j k hk
    · obtain hk | rfl := List.mem_or_eq_of_mem_set hk
      · exact hn.mem_subnodes hk
      · exact hm

/-- Replacing a value leaves a node valid. -/
theorem Valid.replaceValue {i : Nat} {value old : String} {changed : Node} (hn : n.Valid)
    (h : n.replaceValue i value = .ok (old, changed)) : changed.Valid := by
  cases n with
  | empty => cases h
  | inner t ns => cases h
  | leaf t vs =>
    obtain ⟨-, rfl⟩ := replaceValue_leaf_eq_ok_iff.mp h
    have hfits := hn.fits
    have hcount : (Node.leaf t (vs.set i value)).count = (Node.leaf t vs).count := List.length_set
    refine Fits.valid ⟨(holdsContentOf_leaf_congr _ vs _).trans hfits.content, ?_, ?_, nofun⟩ nofun
    · rw [hcount]
      exact hfits.least
    · rw [hcount]
      exact hfits.most

end Node

end Modula
