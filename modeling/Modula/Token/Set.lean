import Modula.Token.Basic

/-!
# Sets of tokens

A set of tokens is a word with one bit for each token; the word is wider than there are tokens, and its other bits stay
clear. Members are listed in declaration order, which keeps the written lists of expected tokens stable. `contains` is
the view that the other operations are described by: each has one lemma that says what it does to membership, and `ext`
says that two sets with the same members are the same set.
-/

set_option autoImplicit false

namespace Modula

/-- A set of tokens, one bit of a word for each token at its place in declaration order. -/
structure TokenSet where
  bits : BitVec 128
  /-- The bits beyond those of the tokens are clear. -/
  clear : ∀ i, Token.count ≤ i → bits.getLsbD i = false
deriving DecidableEq

namespace TokenSet

/-- The set without members. -/
def empty : TokenSet := ⟨0, fun _ _ => by simp⟩

/-- The word whose only bit is that of the token. -/
def mask (t : Token) : BitVec 128 := BitVec.twoPow 128 t.index

/-- The mask of a token has one bit, that of the token. -/
theorem getLsbD_mask (t : Token) (i : Nat) : (mask t).getLsbD i = decide (i = t.index) := by
  have hcount : Token.count ≤ 128 := by decide
  have ht : t.index < 128 := Nat.lt_of_lt_of_le t.index_lt_count hcount
  by_cases h : i = t.index
  · subst h
    simp [mask, ht]
  · have h' : t.index ≠ i := fun e => h e.symm
    simp [mask, BitVec.getLsbD_twoPow, h, h']

/-- The bit of a token is none of those beyond. -/
theorem mask_clear (t : Token) {i : Nat} (hi : Token.count ≤ i) : (mask t).getLsbD i = false := by
  have hlt : t.index < i := Nat.lt_of_lt_of_le t.index_lt_count hi
  simp [getLsbD_mask, Nat.ne_of_gt hlt]

/-- Whether the token is a member. -/
def contains (s : TokenSet) (t : Token) : Bool := s.bits.getLsbD t.index

/-- The set with the token added. -/
def insert (s : TokenSet) (t : Token) : TokenSet :=
  ⟨s.bits ||| mask t, fun i hi => by rw [BitVec.getLsbD_or, s.clear i hi, mask_clear t hi, Bool.or_false]⟩

/-- The set with the token taken out. -/
def erase (s : TokenSet) (t : Token) : TokenSet :=
  ⟨s.bits &&& ~~~mask t, fun i hi => by rw [BitVec.getLsbD_and, s.clear i hi, Bool.false_and]⟩

/-- The tokens that are members of one set or the other. -/
def union (s u : TokenSet) : TokenSet :=
  ⟨s.bits ||| u.bits, fun i hi => by rw [BitVec.getLsbD_or, s.clear i hi, u.clear i hi, Bool.or_false]⟩

/-- The set of the tokens of a list. -/
def ofList (ts : List Token) : TokenSet := ts.foldl insert empty

/-- The members, in declaration order. -/
def toList (s : TokenSet) : List Token := Token.all.filter s.contains

/-- The number of bits that are set. -/
def size (s : TokenSet) : Nat := (List.range 128).countP s.bits.getLsbD

/-- Whether no bit is set. -/
def isEmpty (s : TokenSet) : Bool := s.bits == 0

/-- Whether the sets have no member in common. -/
def isDisjoint (s u : TokenSet) : Bool := s.bits &&& u.bits == 0

instance : EmptyCollection TokenSet := ⟨empty⟩

instance : Inhabited TokenSet := ⟨empty⟩

instance : Singleton Token TokenSet := ⟨insert empty⟩

instance : Insert Token TokenSet := ⟨fun t s => s.insert t⟩

instance : Union TokenSet := ⟨union⟩

/-- The tags of the members between braces. -/
def text (s : TokenSet) : String := "\x7b" ++ String.intercalate ", " (s.toList.map Token.tag) ++ "\x7d"

/-- No token is in the empty set. -/
@[simp] theorem contains_empty (t : Token) : empty.contains t = false := by
  simp [contains, empty]

/-- Masks tell tokens apart. -/
theorem contains_mask (t u : Token) : (mask t).getLsbD u.index = decide (u = t) := by
  rw [getLsbD_mask]
  by_cases h : u = t
  · simp [h]
  · have h' : u.index ≠ t.index := fun e => h (Token.index_injective e)
    simp [h, h']

/-- A token that is inserted is a member, and the others stay. -/
@[simp] theorem contains_insert (s : TokenSet) (t u : Token) :
    (s.insert t).contains u = (s.contains u || decide (u = t)) := by
  simp [contains, insert, contains_mask]

/-- A singleton has one member. -/
@[simp] theorem contains_singleton (t u : Token) : ({t} : TokenSet).contains u = decide (u = t) := by
  show (empty.insert t).contains u = _
  simp

/-- Membership in a set that is written out. -/
@[simp] theorem contains_setInsert (t u : Token) (s : TokenSet) :
    (Insert.insert t s).contains u = (s.contains u || decide (u = t)) := contains_insert s t u

/-- A token that is erased is no member, and the others stay. -/
@[simp] theorem contains_erase (s : TokenSet) (t u : Token) :
    (s.erase t).contains u = (s.contains u && !decide (u = t)) := by
  have hu : u.index < 128 := Nat.lt_of_lt_of_le u.index_lt_count (by decide)
  rw [contains, erase, BitVec.getLsbD_and, BitVec.getLsbD_not, contains_mask]
  simp [contains, hu]

/-- A token is in the union if it is in either set. -/
@[simp] theorem contains_union (s u : TokenSet) (t : Token) :
    (s.union u).contains t = (s.contains t || u.contains t) := by
  simp [contains, union]

/-- The list of a set has its members. -/
theorem mem_toList {s : TokenSet} {t : Token} : t ∈ s.toList ↔ s.contains t = true := by
  simp [toList, Token.mem_all]

/-- Sets with the same members are equal. -/
theorem ext {s u : TokenSet} (h : ∀ t, s.contains t = u.contains t) : s = u := by
  have hbits : s.bits = u.bits := by
    apply BitVec.eq_of_getLsbD_eq
    intro i _
    by_cases hi : Token.count ≤ i
    · rw [s.clear i hi, u.clear i hi]
    · obtain ⟨t, rfl⟩ := Token.exists_index (Nat.lt_of_not_le hi)
      exact h t
  obtain ⟨sb, _⟩ := s
  obtain ⟨ub, _⟩ := u
  congr

end TokenSet

end Modula
