import Mathlib.Data.Finset.Card
import Modula.Token.Set

/-!
# The members of a set of tokens

A set of tokens stands for the finite set of its members. Each operation does to the members what its name says, so a set
that is built in any number of steps has the members that the same steps give to a finite set
(`Construction.toFinset_build`). What is read off the whole word, be it equality, size or emptiness, agrees with what is
read off the bits of the tokens, because no step sets a bit beyond them.
-/

set_option autoImplicit false

namespace Modula.TokenSet

variable {s u : TokenSet} {t : Token}

/-- The members of a set. -/
def toFinset (s : TokenSet) : Finset Token := s.toList.toFinset

/-- The finite set has the members of the token set. -/
@[simp] theorem mem_toFinset : t ∈ s.toFinset ↔ s.contains t = true := by
  rw [toFinset, List.mem_toFinset, mem_toList]

/-- Sets are equal if their members are. -/
theorem toFinset_inj : s.toFinset = u.toFinset ↔ s = u := by
  constructor
  · intro h
    refine ext fun t => ?_
    rw [Bool.eq_iff_iff, ← mem_toFinset, ← mem_toFinset, h]
  · rintro rfl
    rfl

/-! ## What each step does to the members -/

/-- The empty set is empty. -/
@[simp] theorem toFinset_empty : empty.toFinset = ∅ := by
  ext t
  simp

/-- Inserting a token adds it. -/
@[simp] theorem toFinset_insert (s : TokenSet) (t : Token) : (s.insert t).toFinset = Insert.insert t s.toFinset := by
  ext u
  simp [or_comm]

/-- Erasing a token takes it out. -/
@[simp] theorem toFinset_erase (s : TokenSet) (t : Token) : (s.erase t).toFinset = s.toFinset.erase t := by
  ext u
  simp [and_comm]

/-- The union has the members of both. -/
@[simp] theorem toFinset_union (s u : TokenSet) : (s.union u).toFinset = s.toFinset ∪ u.toFinset := by
  ext t
  simp

/-- A set made of a list has the members of the list. -/
@[simp] theorem toFinset_ofList (ts : List Token) : (ofList ts).toFinset = ts.toFinset := by
  have hfold : ∀ (ts : List Token) (s : TokenSet), (ts.foldl insert s).toFinset = s.toFinset ∪ ts.toFinset := by
    intro ts
    induction ts with
    | nil => simp
    | cons t ts ih =>
      intro s
      rw [List.foldl_cons, ih, toFinset_insert, List.toFinset_cons, Finset.insert_union, Finset.union_insert]
  rw [ofList, hfold, toFinset_empty, Finset.empty_union]

/-! ## What is read off the members -/

/-- The members are listed in declaration order, each of them once. -/
theorem toList_ascending (s : TokenSet) : s.toList.Pairwise fun t u => t.index < u.index := by
  have hall : Token.all.Pairwise fun t u => t.index < u.index := by decide
  exact hall.filter _

/-- The list of a set has no token twice. -/
theorem nodup_toList (s : TokenSet) : s.toList.Nodup :=
  s.toList_ascending.imp fun hlt => ne_of_apply_ne Token.index (Nat.ne_of_lt hlt)

/-- The bits that are set are those of the members. -/
theorem size_eq_card (s : TokenSet) : s.size = s.toFinset.card := by
  have hwidth : List.range 128 = List.range Token.count ++ List.range' Token.count (128 - Token.count) := by decide
  have hbeyond : (List.range' Token.count (128 - Token.count)).countP s.bits.getLsbD = 0 := by
    rw [List.countP_eq_zero]
    intro i hi
    rw [s.clear i (List.mem_range'_1.mp hi).1]
    exact Bool.false_ne_true
  have hplaces : List.range Token.count = Token.all.map Token.index := by decide
  calc s.size = (List.range Token.count).countP s.bits.getLsbD := by
        rw [size, hwidth, List.countP_append, hbeyond, Nat.add_zero]
    _ = Token.all.countP s.contains := by
        rw [hplaces, List.countP_map]
        rfl
    _ = s.toList.length := List.countP_eq_length_filter
    _ = s.toFinset.card := (List.toFinset_card_of_nodup s.nodup_toList).symm

/-- A set is told to be empty if it is. -/
theorem isEmpty_iff : s.isEmpty = true ↔ s.toFinset = ∅ := by
  rw [← toFinset_empty, toFinset_inj]
  constructor
  · intro h
    have hbits : s.bits = 0 := by simpa [isEmpty] using h
    refine ext fun t => ?_
    rw [contains, hbits]
    rfl
  · rintro rfl
    rfl

/-- Some token is a member of a set that is not empty. -/
theorem exists_contains_of_not_isEmpty (h : s.isEmpty = false) : ∃ t, s.contains t = true := by
  have hne : s.toFinset ≠ ∅ := fun hempty => by simp [isEmpty_iff.mpr hempty] at h
  obtain ⟨t, ht⟩ := Finset.nonempty_iff_ne_empty.mpr hne
  exact ⟨t, mem_toFinset.mp ht⟩

/-- Sets are disjoint if no token is in both. -/
theorem isDisjoint_iff : s.isDisjoint u = true ↔ ∀ t, s.contains t = true → u.contains t = false := by
  have hcommon : s.isDisjoint u = true ↔ s.bits &&& u.bits = 0 := by simp [isDisjoint]
  rw [hcommon]
  constructor
  · intro h t ht
    have hbit : (s.bits &&& u.bits).getLsbD t.index = false := by rw [h]; simp
    rw [BitVec.getLsbD_and] at hbit
    unfold contains at ht ⊢
    simpa [ht] using hbit
  · intro h
    apply BitVec.eq_of_getLsbD_eq
    intro i _
    show (s.bits &&& u.bits).getLsbD i = (0#128).getLsbD i
    rw [BitVec.getLsbD_and, BitVec.getLsbD_zero]
    by_cases hi : Token.count ≤ i
    · rw [s.clear i hi, Bool.false_and]
    · obtain ⟨t, rfl⟩ := Token.exists_index (Nat.lt_of_not_le hi)
      cases hs : s.bits.getLsbD t.index with
      | false => rfl
      | true => exact h t hs

/-- What is in one of two disjoint sets is not in the other. -/
theorem not_contains_of_isDisjoint (h : s.isDisjoint u = true) (ht : s.contains t = true) : u.contains t = false :=
  isDisjoint_iff.mp h t ht

/-! ## Sets that are built step by step -/

/-- The steps by which a set is built. -/
inductive Construction where
  | empty
  /-- The set written out as a list, or collected from one. -/
  | ofList (ts : List Token)
  | insert (c : Construction) (t : Token)
  | erase (c : Construction) (t : Token)
  | union (c d : Construction)

namespace Construction

/-- The set of tokens that the steps build. -/
def build : Construction → TokenSet
  | empty => .empty
  | ofList ts => .ofList ts
  | insert c t => c.build.insert t
  | erase c t => c.build.erase t
  | union c d => c.build.union d.build

/-- The finite set that the same steps build. -/
def members : Construction → Finset Token
  | empty => ∅
  | ofList ts => ts.toFinset
  | insert c t => Insert.insert t c.members
  | erase c t => c.members.erase t
  | union c d => c.members ∪ d.members

/-- However a set is constructed, it has the members of the construction. -/
theorem toFinset_build (c : Construction) : c.build.toFinset = c.members := by
  induction c with
  | empty => exact toFinset_empty
  | ofList ts => exact toFinset_ofList ts
  | insert c t ih => rw [build, members, toFinset_insert, ih]
  | erase c t ih => rw [build, members, toFinset_erase, ih]
  | union c d ihc ihd => rw [build, members, toFinset_union, ihc, ihd]

end Construction

/-- A set of tokens that is built step by step agrees with the finite set that the same steps build: in its members, in
whether it has one in common with another set or is equal to it, in the list of its members in declaration order, in
their number, and in whether there is none. Its word has no bit set beyond those of the tokens. -/
theorem constructions_agree (c d : Construction) :
    (∀ t, c.build.contains t = true ↔ t ∈ c.members) ∧
      (c.build.isDisjoint d.build = true ↔ Disjoint c.members d.members) ∧
      (c.build = d.build ↔ c.members = d.members) ∧
      (∀ t, t ∈ c.build.toList ↔ t ∈ c.members) ∧ c.build.toList.Pairwise (fun t u => t.index < u.index) ∧
      c.build.size = c.members.card ∧
      (c.build.isEmpty = true ↔ c.members = ∅) ∧
      ∀ i, Token.count ≤ i → c.build.bits.getLsbD i = false := by
  have hcontains : ∀ (c : Construction) (t : Token), c.build.contains t = true ↔ t ∈ c.members := by
    intro c t
    rw [← c.toFinset_build, mem_toFinset]
  refine ⟨hcontains c, ?_, ?_, ?_, c.build.toList_ascending, ?_, ?_, c.build.clear⟩
  · rw [isDisjoint_iff, Finset.disjoint_left]
    apply forall_congr'
    intro t
    rw [hcontains c t, ← hcontains d t, Bool.not_eq_true]
  · rw [← toFinset_inj, c.toFinset_build, d.toFinset_build]
  · intro t
    rw [mem_toList, hcontains c t]
  · rw [size_eq_card, c.toFinset_build]
  · rw [isEmpty_iff, c.toFinset_build]

end Modula.TokenSet
