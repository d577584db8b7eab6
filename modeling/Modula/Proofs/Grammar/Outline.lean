import Mathlib.Computability.Language
import Mathlib.Data.List.Chain
import Mathlib.Data.List.Infix

/-!
# Outlines of regular languages

Of a regular language that is not empty, the following can be read off the expression that it is written as: whether it
has the empty word, the letters of its words, those that words start with, those that they end with, and the pairs of
letters that stand side by side in some word. This is the outline of the language, and for each way to build a language
from others there is a way to build its outline from theirs.
-/

set_option autoImplicit false

namespace Modula

/-- What can be seen of the words of a language one letter, or two neighbours, at a time. -/
structure Outline (α : Type) where
  /-- Whether the empty word is one of the words. -/
  skips : Bool
  letters : List α
  heads : List α
  lasts : List α
  /-- Letters that stand side by side. -/
  pairs : List (α × α)

namespace Outline

variable {α : Type}

/-- The outline of a language that has only the empty word. -/
def blank : Outline α := ⟨true, [], [], [], []⟩

/-- The outline of a language that has only the word of this letter. -/
def letter (a : α) : Outline α := ⟨false, [a], [a], [a], []⟩

/-- The outline of a union. -/
def either (o q : Outline α) : Outline α :=
  ⟨o.skips || q.skips, o.letters ++ q.letters, o.heads ++ q.heads, o.lasts ++ q.lasts, o.pairs ++ q.pairs⟩

/-- The outline of a concatenation. -/
def followedBy (o q : Outline α) : Outline α :=
  ⟨o.skips && q.skips, o.letters ++ q.letters, o.heads ++ (if o.skips then q.heads else []),
    q.lasts ++ (if q.skips then o.lasts else []), o.pairs ++ (q.pairs ++ o.lasts.product q.heads)⟩

/-- The outline of a repetition. -/
def repeated (o : Outline α) : Outline α :=
  ⟨true, o.letters, o.heads, o.lasts, o.pairs ++ o.lasts.product o.heads⟩

end Outline

/-- The outline is that of the language. -/
structure Outlines {α : Type} (o : Outline α) (l : Language α) : Prop where
  nonempty : ∃ w, w ∈ l
  skips : o.skips = true ↔ [] ∈ l
  letters : ∀ {a}, a ∈ o.letters ↔ ∃ w ∈ l, a ∈ w
  heads : ∀ {a}, a ∈ o.heads ↔ ∃ w ∈ l, w.head? = some a
  lasts : ∀ {a}, a ∈ o.lasts ↔ ∃ w ∈ l, w.getLast? = some a
  pairs : ∀ {a b}, (a, b) ∈ o.pairs ↔ ∃ w ∈ l, [a, b] <:+: w

namespace Outlines

variable {α : Type} {o q : Outline α} {l m : Language α} {a b : α} {u v : List α}

/-! ## Neighbours in words -/

/-- A single letter has no neighbour. -/
theorem not_pair_infix_singleton {c : α} : ¬[a, b] <:+: [c] := by
  intro h
  have hle := h.length_le
  simp at hle

/-- Neighbours in two words, one after the other, are neighbours in one of them or meet where the words do. -/
theorem pair_infix_append : [a, b] <:+: u ++ v ↔
    [a, b] <:+: u ∨ [a, b] <:+: v ∨ u.getLast? = some a ∧ v.head? = some b := by
  constructor
  · rintro ⟨before, after, h⟩
    rw [List.append_assoc] at h
    obtain ⟨rest, rfl, hrest⟩ | ⟨rest, rfl, rfl⟩ := List.append_eq_append_iff.mp h
    · -- the pair starts in the first word or later
      match rest, hrest with
      | [], hrest => exact .inr (.inl ⟨[], after, by simpa using hrest⟩)
      | [c], hrest =>
        simp only [List.cons_append, List.nil_append, List.cons.injEq] at hrest
        obtain ⟨rfl, rfl⟩ := hrest
        exact .inr (.inr ⟨by simp, by simp⟩)
      | c :: d :: rest, hrest =>
        simp only [List.cons_append, List.nil_append, List.cons.injEq] at hrest
        obtain ⟨rfl, rfl, -⟩ := hrest
        exact .inl ⟨before, rest, by simp⟩
    · exact .inr (.inl ⟨rest, after, by simp⟩)
  · rintro (h | h | ⟨hlast, hhead⟩)
    · exact h.trans (List.infix_append_left ..)
    · exact h.trans (List.infix_append_right ..)
    · obtain ⟨before, rfl⟩ := List.getLast?_eq_some_iff.mp hlast
      obtain ⟨after, rfl⟩ := List.head?_eq_some_iff.mp hhead
      exact ⟨before, after, by simp⟩

/-! ## Words of languages -/

/-- A language of one word has that word. -/
theorem mem_singleton {c : α} : u ∈ ({[c]} : Language α) ↔ u = [c] := Iff.rfl

/-- A word of a product is made of one of each. -/
theorem exists_mem_mul {P : List α → Prop} : (∃ w ∈ l * m, P w) ↔ ∃ u ∈ l, ∃ v ∈ m, P (u ++ v) := by
  constructor
  · rintro ⟨w, hw, hP⟩
    obtain ⟨u, hu, v, hv, rfl⟩ := Language.mem_mul.mp hw
    exact ⟨u, hu, v, hv, hP⟩
  · rintro ⟨u, hu, v, hv, hP⟩
    exact ⟨u ++ v, Language.append_mem_mul hu hv, hP⟩

/-- A word may be repeated once. -/
theorem mem_kstar_of_mem (hu : u ∈ l) : u ∈ KStar.kstar l :=
  Language.mem_kstar.mpr ⟨[u], by simp, by simpa using hu⟩

/-- Letters that count under a condition only. -/
theorem mem_ite_nil {c : Bool} {as : List α} : a ∈ (if c then as else []) ↔ c = true ∧ a ∈ as := by
  cases c <;> simp

/-! ## The outline of each construction -/

/-- The empty word has nothing. -/
theorem blank : Outlines (Outline.blank (α := α)) 1 where
  nonempty := ⟨[], Language.nil_mem_one⟩
  skips := by simp [Outline.blank]
  letters := by simp [Outline.blank, Language.mem_one]
  heads := by simp [Outline.blank, Language.mem_one]
  lasts := by simp [Outline.blank, Language.mem_one]
  pairs := by simp [Outline.blank, Language.mem_one]

/-- A letter is the first, last and only one. -/
theorem letter (c : α) : Outlines (.letter c) {[c]} where
  nonempty := ⟨[c], rfl⟩
  skips := by simp [Outline.letter, mem_singleton]
  letters := by simp [Outline.letter, mem_singleton]
  heads := by simp [Outline.letter, mem_singleton, eq_comm]
  lasts := by simp [Outline.letter, mem_singleton, eq_comm]
  pairs := by simp [Outline.letter, mem_singleton, not_pair_infix_singleton]

/-- Of two languages all words count. -/
theorem either (ho : Outlines o l) (hq : Outlines q m) : Outlines (o.either q) (l + m) where
  nonempty := by
    obtain ⟨w, hw⟩ := ho.nonempty
    exact ⟨w, .inl hw⟩
  skips := by simp [Outline.either, ho.skips, hq.skips, Language.mem_add]
  letters := by simp [Outline.either, ho.letters, hq.letters, Language.mem_add, or_and_right, exists_or]
  heads := by simp [Outline.either, ho.heads, hq.heads, Language.mem_add, or_and_right, exists_or]
  lasts := by simp [Outline.either, ho.lasts, hq.lasts, Language.mem_add, or_and_right, exists_or]
  pairs := by simp [Outline.either, ho.pairs, hq.pairs, Language.mem_add, or_and_right, exists_or]

/-- Where one language follows another, last letters of the one meet first letters of the other. -/
theorem followedBy (ho : Outlines o l) (hq : Outlines q m) : Outlines (o.followedBy q) (l * m) where
  nonempty := by
    obtain ⟨u, hu⟩ := ho.nonempty
    obtain ⟨v, hv⟩ := hq.nonempty
    exact ⟨u ++ v, Language.append_mem_mul hu hv⟩
  skips := by
    rw [Language.mem_mul]
    simp [Outline.followedBy, ho.skips, hq.skips]
  letters := by
    intro a
    -- what is found in a word of one language is found in a longer word, as the other has a word to go with it
    obtain ⟨u, hu⟩ := ho.nonempty
    obtain ⟨v, hv⟩ := hq.nonempty
    simp only [Outline.followedBy, List.mem_append, ho.letters, hq.letters, exists_mem_mul]
    constructor
    · rintro (⟨w, hw, ha⟩ | ⟨w, hw, ha⟩)
      · exact ⟨w, hw, v, hv, .inl ha⟩
      · exact ⟨u, hu, w, hw, .inr ha⟩
    · rintro ⟨u, hu, v, hv, ha | ha⟩
      · exact .inl ⟨u, hu, ha⟩
      · exact .inr ⟨v, hv, ha⟩
  heads := by
    intro a
    obtain ⟨v, hv⟩ := hq.nonempty
    simp only [Outline.followedBy, List.mem_append, mem_ite_nil, ho.heads, hq.heads, ho.skips, exists_mem_mul,
      List.head?_append, Option.or_eq_some_iff, List.head?_eq_none_iff]
    constructor
    · rintro (⟨w, hw, ha⟩ | ⟨hnil, w, hw, ha⟩)
      · exact ⟨w, hw, v, hv, .inl ha⟩
      · exact ⟨[], hnil, w, hw, .inr ⟨rfl, ha⟩⟩
    · rintro ⟨u, hu, v, hv, ha | ⟨rfl, ha⟩⟩
      · exact .inl ⟨u, hu, ha⟩
      · exact .inr ⟨hu, v, hv, ha⟩
  lasts := by
    intro a
    obtain ⟨u, hu⟩ := ho.nonempty
    simp only [Outline.followedBy, List.mem_append, mem_ite_nil, ho.lasts, hq.lasts, hq.skips, exists_mem_mul,
      List.getLast?_append, Option.or_eq_some_iff, List.getLast?_eq_none_iff]
    constructor
    · rintro (⟨w, hw, ha⟩ | ⟨hnil, w, hw, ha⟩)
      · exact ⟨u, hu, w, hw, .inl ha⟩
      · exact ⟨w, hw, [], hnil, .inr ⟨rfl, ha⟩⟩
    · rintro ⟨u, hu, v, hv, ha | ⟨rfl, ha⟩⟩
      · exact .inl ⟨v, hv, ha⟩
      · exact .inr ⟨hv, u, hu, ha⟩
  pairs := by
    intro a b
    obtain ⟨u, hu⟩ := ho.nonempty
    obtain ⟨v, hv⟩ := hq.nonempty
    simp only [Outline.followedBy, List.mem_append, List.pair_mem_product, ho.pairs, hq.pairs, ho.lasts, hq.heads,
      exists_mem_mul, pair_infix_append]
    constructor
    · rintro (⟨w, hw, h⟩ | ⟨w, hw, h⟩ | ⟨⟨w, hw, ha⟩, w', hw', hb⟩)
      · exact ⟨w, hw, v, hv, .inl h⟩
      · exact ⟨u, hu, w, hw, .inr (.inl h)⟩
      · exact ⟨w, hw, w', hw', .inr (.inr ⟨ha, hb⟩)⟩
    · rintro ⟨u, hu, v, hv, h | h | ⟨ha, hb⟩⟩
      · exact .inl ⟨u, hu, h⟩
      · exact .inr (.inl ⟨v, hv, h⟩)
      · exact .inr (.inr ⟨⟨u, hu, ha⟩, v, hv, hb⟩)

/-- What is seen of words of a language, one after the other, is in the outline of its repetition. -/
theorem flatten_repeated (ho : Outlines o l) {ws : List (List α)} (hws : ∀ w ∈ ws, w ∈ l) :
    (∀ a ∈ ws.flatten, a ∈ o.letters) ∧ (∀ a, ws.flatten.head? = some a → a ∈ o.heads) ∧
      (∀ a, ws.flatten.getLast? = some a → a ∈ o.lasts) ∧
      ∀ a b, [a, b] <:+: ws.flatten → (a, b) ∈ o.repeated.pairs := by
  induction ws with
  | nil => simp
  | cons w ws ih =>
    obtain ⟨hw, hws⟩ := List.forall_mem_cons.mp hws
    obtain ⟨hletters, hheads, hlasts, hpairs⟩ := ih hws
    rw [List.flatten_cons]
    refine ⟨fun a ha => ?_, fun a ha => ?_, fun a ha => ?_, fun a b hab => ?_⟩
    · obtain ha | ha := List.mem_append.mp ha
      · exact ho.letters.mpr ⟨w, hw, ha⟩
      · exact hletters a ha
    · rw [List.head?_append, Option.or_eq_some_iff] at ha
      obtain ha | ⟨-, ha⟩ := ha
      · exact ho.heads.mpr ⟨w, hw, ha⟩
      · exact hheads a ha
    · rw [List.getLast?_append, Option.or_eq_some_iff] at ha
      obtain ha | ⟨-, ha⟩ := ha
      · exact hlasts a ha
      · exact ho.lasts.mpr ⟨w, hw, ha⟩
    · obtain hab | hab | ⟨ha, hb⟩ := pair_infix_append.mp hab
      · exact List.mem_append_left _ (ho.pairs.mpr ⟨w, hw, hab⟩)
      · exact hpairs a b hab
      · exact List.mem_append_right _ (List.pair_mem_product.mpr ⟨ho.lasts.mpr ⟨w, hw, ha⟩, hheads b hb⟩)

/-- What is seen in one word of a language, and is seen wherever several in a row show it, is what its repetition shows. -/
theorem exists_mem_kstar_iff {P : List α → Prop} {seen : Prop} (hone : seen → ∃ w ∈ l, P w)
    (hmany : ∀ ws : List (List α), (∀ w ∈ ws, w ∈ l) → P ws.flatten → seen) : seen ↔ ∃ w ∈ KStar.kstar l, P w := by
  constructor
  · intro hseen
    obtain ⟨w, hw, hP⟩ := hone hseen
    exact ⟨w, mem_kstar_of_mem hw, hP⟩
  · rintro ⟨w, hw, hP⟩
    obtain ⟨ws, rfl, hws⟩ := Language.mem_kstar.mp hw
    exact hmany ws hws hP

/-- Where a language is repeated, its last letters meet its own first ones. -/
theorem repeated (ho : Outlines o l) : Outlines o.repeated (KStar.kstar l) where
  nonempty := ⟨[], Language.nil_mem_kstar l⟩
  skips := by simp [Outline.repeated, Language.nil_mem_kstar]
  letters := fun {a} => exists_mem_kstar_iff ho.letters.mp fun _ hws => (ho.flatten_repeated hws).1 a
  heads := fun {a} => exists_mem_kstar_iff ho.heads.mp fun _ hws => (ho.flatten_repeated hws).2.1 a
  lasts := fun {a} => exists_mem_kstar_iff ho.lasts.mp fun _ hws => (ho.flatten_repeated hws).2.2.1 a
  pairs := by
    intro a b
    constructor
    · intro hab
      obtain hab | hab := List.mem_append.mp hab
      · obtain ⟨w, hw, hab⟩ := ho.pairs.mp hab
        exact ⟨w, mem_kstar_of_mem hw, hab⟩
      · -- a last letter and a first one meet where two words follow each other
        obtain ⟨ha, hb⟩ := List.pair_mem_product.mp hab
        obtain ⟨u, hu, ha⟩ := ho.lasts.mp ha
        obtain ⟨v, hv, hb⟩ := ho.heads.mp hb
        have hmem : [u, v].flatten ∈ KStar.kstar l := Language.join_mem_kstar (by simp [hu, hv])
        exact ⟨_, hmem, by simpa using pair_infix_append.mpr (.inr (.inr ⟨ha, hb⟩))⟩
    · rintro ⟨w, hw, hab⟩
      obtain ⟨ws, rfl, hws⟩ := Language.mem_kstar.mp hw
      exact (ho.flatten_repeated hws).2.2.2 a b hab

end Outlines

end Modula
