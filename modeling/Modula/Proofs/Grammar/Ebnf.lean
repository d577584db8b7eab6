import Modula.Grammar.Production
import Modula.Symbol.Basic

/-!
# Grammars in extended Backus-Naur form

The grammar of a language gives each production a row of expressions, and a row derives the texts that consist of a
text for each of its expressions. Modules and procedures have names that are repeated at their ends; a derivation says
of each which names it found at the two places (`Derives`). For proofs about parsers, which have the text before them
that is still to come, a row takes the symbols of one such text to those of a later one (`Takes`).
-/

set_option autoImplicit false

namespace Modula

/-- An expression of the extended Backus-Naur form. -/
inductive Ebnf where
  | token (t : Token)
  /-- The identifier that names a module or a procedure. -/
  | opening
  /-- The identifier at the end of a module or a procedure. -/
  | closing
  | call (p : Production)
  /-- A text of the production that names what is being derived. -/
  | named (p : Production)
  | alt (a b : List Ebnf)
  | many (a : List Ebnf)

namespace Ebnf

/-- A row that may be absent. -/
def opt (a : List Ebnf) : Ebnf := .alt a []

/-- One of the rows. -/
def oneOf : List (List Ebnf) → List Ebnf
  | [] => []
  | [a] => a
  | a :: others => [.alt a (oneOf others)]

/-- One of the tokens. -/
def anyOf (ts : List Token) : List Ebnf := oneOf (ts.map fun t => [.token t])

/-- One text of the row or more, with the token between them. -/
def separated (separator : Token) (item : List Ebnf) : List Ebnf := item ++ [.many (.token separator :: item)]

end Ebnf

/-- A row derives a text under the rules of a grammar, as a part of something that has the name `x`. Each closing
identifier is put together with the name that it should be. -/
inductive Derives (rules : Production → List Ebnf) :
    String → List Ebnf → List Symbol → List (String × String) → Prop
  | nil {x : String} : Derives rules x [] [] []
  | token {x : String} {t : Token} {es : List Ebnf} {s : Symbol} {w : List Symbol} {closings : List (String × String)}
      (htoken : s.token = t) (h : Derives rules x es w closings) : Derives rules x (.token t :: es) (s :: w) closings
  | opening {x : String} {es : List Ebnf} {s : Symbol} {w : List Symbol} {closings : List (String × String)}
      (htoken : s.token = .ident) (hname : s.lexeme = x) (h : Derives rules x es w closings) :
      Derives rules x (.opening :: es) (s :: w) closings
  | closing {x : String} {es : List Ebnf} {s : Symbol} {w : List Symbol} {closings : List (String × String)}
      (htoken : s.token = .ident) (h : Derives rules x es w closings) :
      Derives rules x (.closing :: es) (s :: w) ((x, s.lexeme) :: closings)
  | call {x y : String} {p : Production} {es : List Ebnf} {w w' : List Symbol} {closings closings' : List (String × String)}
      (hcall : Derives rules y (rules p) w closings) (h : Derives rules x es w' closings') :
      Derives rules x (.call p :: es) (w ++ w') (closings ++ closings')
  | named {x : String} {p : Production} {es : List Ebnf} {w w' : List Symbol} {closings closings' : List (String × String)}
      (hcall : Derives rules x (rules p) w closings) (h : Derives rules x es w' closings') :
      Derives rules x (.named p :: es) (w ++ w') (closings ++ closings')
  | left {x : String} {a b es : List Ebnf} {w : List Symbol} {closings : List (String × String)}
      (h : Derives rules x (a ++ es) w closings) : Derives rules x (.alt a b :: es) w closings
  | right {x : String} {a b es : List Ebnf} {w : List Symbol} {closings : List (String × String)}
      (h : Derives rules x (b ++ es) w closings) : Derives rules x (.alt a b :: es) w closings
  | stop {x : String} {a es : List Ebnf} {w : List Symbol} {closings : List (String × String)}
      (h : Derives rules x es w closings) : Derives rules x (.many a :: es) w closings
  | more {x : String} {a es : List Ebnf} {w : List Symbol} {closings : List (String × String)}
      (h : Derives rules x (a ++ .many a :: es) w closings) : Derives rules x (.many a :: es) w closings

/-- A row takes the symbols `v` to `u` if it derives what is before `u`, with all closing identifiers as they
should be. -/
def Takes (rules : Production → List Ebnf) (x : String) (es : List Ebnf) (v u : List Symbol) : Prop :=
  ∃ w closings, v = w ++ u ∧ Derives rules x es w closings ∧ ∀ c ∈ closings, c.1 = c.2

variable {rules : Production → List Ebnf} {x : String} {es es' a b : List Ebnf} {v u : List Symbol}

/-- The derivation of two rows, one after the other, is one of each. -/
theorem Derives.split {w : List Symbol} {closings : List (String × String)} (h : Derives rules x (es ++ es') w closings) :
    ∃ w₁ w₂ closings₁ closings₂, w = w₁ ++ w₂ ∧ closings = closings₁ ++ closings₂ ∧ Derives rules x es w₁ closings₁ ∧
      Derives rules x es' w₂ closings₂ := by
  generalize hrow : es ++ es' = row at h
  induction h generalizing es with
  | nil =>
    obtain ⟨rfl, rfl⟩ := List.append_eq_nil_iff.mp hrow
    exact ⟨[], [], [], [], rfl, rfl, .nil, .nil⟩
  | token htoken h ih =>
    obtain ⟨rfl, rfl⟩ | ⟨es, rfl, rfl⟩ := List.append_eq_cons_iff.mp hrow
    · exact ⟨[], _, [], _, rfl, rfl, .nil, .token htoken h⟩
    · obtain ⟨w₁, w₂, c₁, c₂, rfl, rfl, h₁, h₂⟩ := ih rfl
      exact ⟨_ :: w₁, w₂, c₁, c₂, rfl, rfl, .token htoken h₁, h₂⟩
  | opening htoken hname h ih =>
    obtain ⟨rfl, rfl⟩ | ⟨es, rfl, rfl⟩ := List.append_eq_cons_iff.mp hrow
    · exact ⟨[], _, [], _, rfl, rfl, .nil, .opening htoken hname h⟩
    · obtain ⟨w₁, w₂, c₁, c₂, rfl, rfl, h₁, h₂⟩ := ih rfl
      exact ⟨_ :: w₁, w₂, c₁, c₂, rfl, rfl, .opening htoken hname h₁, h₂⟩
  | closing htoken h ih =>
    obtain ⟨rfl, rfl⟩ | ⟨es, rfl, rfl⟩ := List.append_eq_cons_iff.mp hrow
    · exact ⟨[], _, [], _, rfl, rfl, .nil, .closing htoken h⟩
    · obtain ⟨w₁, w₂, c₁, c₂, rfl, rfl, h₁, h₂⟩ := ih rfl
      exact ⟨_ :: w₁, w₂, _ :: c₁, c₂, rfl, rfl, .closing htoken h₁, h₂⟩
  | call hcall h ihcall ih =>
    obtain ⟨rfl, rfl⟩ | ⟨es, rfl, rfl⟩ := List.append_eq_cons_iff.mp hrow
    · exact ⟨[], _, [], _, rfl, rfl, .nil, .call hcall h⟩
    · obtain ⟨w₁, w₂, c₁, c₂, rfl, rfl, h₁, h₂⟩ := ih rfl
      exact ⟨_ ++ w₁, w₂, _ ++ c₁, c₂, by rw [List.append_assoc], by rw [List.append_assoc], .call hcall h₁, h₂⟩
  | named hcall h ihcall ih =>
    obtain ⟨rfl, rfl⟩ | ⟨es, rfl, rfl⟩ := List.append_eq_cons_iff.mp hrow
    · exact ⟨[], _, [], _, rfl, rfl, .nil, .named hcall h⟩
    · obtain ⟨w₁, w₂, c₁, c₂, rfl, rfl, h₁, h₂⟩ := ih rfl
      exact ⟨_ ++ w₁, w₂, _ ++ c₁, c₂, by rw [List.append_assoc], by rw [List.append_assoc], .named hcall h₁, h₂⟩
  | left h ih =>
    obtain ⟨rfl, rfl⟩ | ⟨es, rfl, rfl⟩ := List.append_eq_cons_iff.mp hrow
    · exact ⟨[], _, [], _, rfl, rfl, .nil, .left h⟩
    · obtain ⟨w₁, w₂, c₁, c₂, rfl, rfl, h₁, h₂⟩ := ih (List.append_assoc _ _ _)
      exact ⟨w₁, w₂, c₁, c₂, rfl, rfl, .left h₁, h₂⟩
  | right h ih =>
    obtain ⟨rfl, rfl⟩ | ⟨es, rfl, rfl⟩ := List.append_eq_cons_iff.mp hrow
    · exact ⟨[], _, [], _, rfl, rfl, .nil, .right h⟩
    · obtain ⟨w₁, w₂, c₁, c₂, rfl, rfl, h₁, h₂⟩ := ih (List.append_assoc _ _ _)
      exact ⟨w₁, w₂, c₁, c₂, rfl, rfl, .right h₁, h₂⟩
  | stop h ih =>
    obtain ⟨rfl, rfl⟩ | ⟨es, rfl, rfl⟩ := List.append_eq_cons_iff.mp hrow
    · exact ⟨[], _, [], _, rfl, rfl, .nil, .stop h⟩
    · obtain ⟨w₁, w₂, c₁, c₂, rfl, rfl, h₁, h₂⟩ := ih rfl
      exact ⟨w₁, w₂, c₁, c₂, rfl, rfl, .stop h₁, h₂⟩
  | @more x a es₀ w closings h ih =>
    obtain ⟨rfl, rfl⟩ | ⟨es, rfl, rfl⟩ := List.append_eq_cons_iff.mp hrow
    · exact ⟨[], _, [], _, rfl, rfl, .nil, .more h⟩
    · obtain ⟨w₁, w₂, c₁, c₂, rfl, rfl, h₁, h₂⟩ := @ih (a ++ .many a :: es) (by simp)
      exact ⟨w₁, w₂, c₁, c₂, rfl, rfl, .more h₁, h₂⟩

/-- Two rows derive their symbols one after the other. -/
theorem Derives.append {w w' : List Symbol} {closings closings' : List (String × String)}
    (h : Derives rules x es w closings) (h' : Derives rules x es' w' closings') :
    Derives rules x (es ++ es') (w ++ w') (closings ++ closings') := by
  induction h with
  | nil => exact h'
  | token htoken h ih => exact .token htoken (ih h')
  | opening htoken hname h ih => exact .opening htoken hname (ih h')
  | closing htoken h ih => exact .closing htoken (ih h')
  | call hcall h ihcall ih =>
    rw [List.append_assoc, List.append_assoc]
    exact .call hcall (ih h')
  | named hcall h ihcall ih =>
    rw [List.append_assoc, List.append_assoc]
    exact .named hcall (ih h')
  | left h ih => exact .left (List.append_assoc _ _ _ ▸ ih h')
  | right h ih => exact .right (List.append_assoc _ _ _ ▸ ih h')
  | stop h ih => exact .stop (ih h')
  | more h ih => exact .more (by simpa using ih h')

/-! ## What rows take -/

/-- The empty row takes nothing. -/
@[simp] theorem takes_nil : Takes rules x [] v u ↔ v = u := by
  constructor
  · rintro ⟨w, closings, rfl, h, -⟩
    cases h
    rfl
  · rintro rfl
    exact ⟨[], [], rfl, .nil, by simp⟩

/-- A token takes one symbol of it. -/
@[simp] theorem takes_token {t : Token} :
    Takes rules x (.token t :: es) v u ↔ ∃ s v', v = s :: v' ∧ s.token = t ∧ Takes rules x es v' u := by
  constructor
  · rintro ⟨w, closings, rfl, h, hall⟩
    cases h with
    | token htoken h => exact ⟨_, _, rfl, htoken, _, _, rfl, h, hall⟩
  · rintro ⟨s, v', rfl, htoken, w, closings, rfl, h, hall⟩
    exact ⟨s :: w, closings, rfl, .token htoken h, hall⟩

/-- The name at the start of a part is taken as an identifier with that name. -/
@[simp] theorem takes_opening : Takes rules x (.opening :: es) v u ↔
    ∃ s v', v = s :: v' ∧ s.token = .ident ∧ s.lexeme = x ∧ Takes rules x es v' u := by
  constructor
  · rintro ⟨w, closings, rfl, h, hall⟩
    cases h with
    | opening htoken hname h => exact ⟨_, _, rfl, htoken, hname, _, _, rfl, h, hall⟩
  · rintro ⟨s, v', rfl, htoken, hname, w, closings, rfl, h, hall⟩
    exact ⟨s :: w, closings, rfl, .opening htoken hname h, hall⟩

/-- So is the name at its end. -/
@[simp] theorem takes_closing : Takes rules x (.closing :: es) v u ↔
    ∃ s v', v = s :: v' ∧ s.token = .ident ∧ s.lexeme = x ∧ Takes rules x es v' u := by
  constructor
  · rintro ⟨w, closings, rfl, h, hall⟩
    cases h with
    | closing htoken h =>
      have hname : x = _ := hall _ (List.mem_cons_self ..)
      exact ⟨_, _, rfl, htoken, hname.symm, _, _, rfl, h, fun c hc => hall c (List.mem_cons_of_mem _ hc)⟩
  · rintro ⟨s, v', rfl, htoken, hname, w, closings, rfl, h, hall⟩
    refine ⟨s :: w, (x, s.lexeme) :: closings, rfl, .closing htoken h, ?_⟩
    rintro c (- | ⟨-, hc⟩)
    · exact hname.symm
    · exact hall c hc

/-- Two rows take what the first one does and the second one after it. -/
theorem takes_append : Takes rules x (es ++ es') v u ↔ ∃ m, Takes rules x es v m ∧ Takes rules x es' m u := by
  constructor
  · rintro ⟨w, closings, rfl, h, hall⟩
    obtain ⟨w₁, w₂, closings₁, closings₂, rfl, rfl, h₁, h₂⟩ := h.split
    obtain ⟨hall₁, hall₂⟩ := List.forall_mem_append.mp hall
    exact ⟨w₂ ++ u, ⟨w₁, closings₁, by simp, h₁, hall₁⟩, w₂, closings₂, rfl, h₂, hall₂⟩
  · rintro ⟨m, ⟨w₁, closings₁, rfl, h₁, hall₁⟩, ⟨w₂, closings₂, rfl, h₂, hall₂⟩⟩
    exact ⟨w₁ ++ w₂, closings₁ ++ closings₂, by simp, h₁.append h₂, List.forall_mem_append.mpr ⟨hall₁, hall₂⟩⟩

/-- A call takes what the row of its production takes, with a name of its own. -/
@[simp] theorem takes_call {p : Production} : Takes rules x (.call p :: es) v u ↔
    ∃ m, (∃ y, Takes rules y (rules p) v m) ∧ Takes rules x es m u := by
  constructor
  · rintro ⟨w, closings, rfl, h, hall⟩
    cases h with
    | @call _ y _ _ w w' closings closings' hcall h =>
      obtain ⟨hall, hall'⟩ := List.forall_mem_append.mp hall
      exact ⟨w' ++ u, ⟨y, w, closings, by simp, hcall, hall⟩, w', closings', rfl, h, hall'⟩
  · rintro ⟨m, ⟨y, w, closings, rfl, hcall, hall⟩, ⟨w', closings', rfl, h, hall'⟩⟩
    exact ⟨w ++ w', closings ++ closings', by simp, .call hcall h, List.forall_mem_append.mpr ⟨hall, hall'⟩⟩

/-- A part with the same name takes what its row takes with that name. -/
@[simp] theorem takes_named {p : Production} : Takes rules x (.named p :: es) v u ↔
    ∃ m, Takes rules x (rules p) v m ∧ Takes rules x es m u := by
  constructor
  · rintro ⟨w, closings, rfl, h, hall⟩
    cases h with
    | @named _ _ _ w w' closings closings' hcall h =>
      obtain ⟨hall, hall'⟩ := List.forall_mem_append.mp hall
      exact ⟨w' ++ u, ⟨w, closings, by simp, hcall, hall⟩, w', closings', rfl, h, hall'⟩
  · rintro ⟨m, ⟨w, closings, rfl, hcall, hall⟩, ⟨w', closings', rfl, h, hall'⟩⟩
    exact ⟨w ++ w', closings ++ closings', by simp, .named hcall h, List.forall_mem_append.mpr ⟨hall, hall'⟩⟩

/-- An alternative takes what either side does. -/
@[simp] theorem takes_alt :
    Takes rules x (.alt a b :: es) v u ↔ Takes rules x (a ++ es) v u ∨ Takes rules x (b ++ es) v u := by
  constructor
  · rintro ⟨w, closings, rfl, h, hall⟩
    cases h with
    | left h => exact .inl ⟨w, closings, rfl, h, hall⟩
    | right h => exact .inr ⟨w, closings, rfl, h, hall⟩
  · rintro (⟨w, closings, rfl, h, hall⟩ | ⟨w, closings, rfl, h, hall⟩)
    · exact ⟨w, closings, rfl, .left h, hall⟩
    · exact ⟨w, closings, rfl, .right h, hall⟩

/-- A repetition takes nothing, or one text and then what it takes after that. -/
theorem takes_many :
    Takes rules x (.many a :: es) v u ↔ Takes rules x es v u ∨ Takes rules x (a ++ .many a :: es) v u := by
  constructor
  · rintro ⟨w, closings, rfl, h, hall⟩
    cases h with
    | stop h => exact .inl ⟨w, closings, rfl, h, hall⟩
    | more h => exact .inr ⟨w, closings, rfl, h, hall⟩
  · rintro (⟨w, closings, rfl, h, hall⟩ | ⟨w, closings, rfl, h, hall⟩)
    · exact ⟨w, closings, rfl, .stop h, hall⟩
    · exact ⟨w, closings, rfl, .more h, hall⟩

/-- What is left was there before. -/
theorem Takes.length_le (h : Takes rules x es v u) : u.length ≤ v.length := by
  obtain ⟨w, closings, rfl, -, -⟩ := h
  rw [List.length_append]
  omega

/-- Items with a token between them are items with a token after each of them but the last one. -/
theorem takes_separated {separator : Token} :
    Takes rules x (Ebnf.separated separator es) v u ↔ Takes rules x (.many (es ++ [.token separator]) :: es) v u := by
  generalize hn : v.length = n
  induction n using Nat.strongRecOn generalizing v with
  | ind n ih =>
    constructor
    · intro h
      obtain ⟨m, hm, hmany⟩ := takes_append.mp h
      obtain hnil | hmore := takes_many.mp hmany
      · obtain rfl := takes_nil.mp hnil
        exact takes_many.mpr (.inl hm)
      · obtain ⟨s, w, rfl, hs, hw⟩ := takes_token.mp hmore
        have hle := hm.length_le
        rw [List.length_cons] at hle
        refine takes_many.mpr (.inr ?_)
        rw [List.append_assoc]
        exact takes_append.mpr ⟨s :: w, hm, takes_token.mpr ⟨s, w, rfl, hs, (ih w.length (by omega) rfl).mp hw⟩⟩
    · intro h
      obtain hlast | hnext := takes_many.mp h
      · exact takes_append.mpr ⟨u, hlast, takes_many.mpr (.inl (takes_nil.mpr rfl))⟩
      · rw [List.append_assoc] at hnext
        obtain ⟨m, hm, hnext⟩ := takes_append.mp hnext
        obtain ⟨s, w, rfl, hs, hw⟩ := takes_token.mp hnext
        have hle := hm.length_le
        rw [List.length_cons] at hle
        have hrest := (ih w.length (by omega) rfl).mpr hw
        exact takes_append.mpr ⟨s :: w, hm, takes_many.mpr (.inr (takes_token.mpr ⟨s, w, rfl, hs, hrest⟩))⟩

/-- What a row takes of all the symbols of a text, it derives. -/
theorem takes_all : Takes rules x es v [] ↔ ∃ closings, Derives rules x es v closings ∧ ∀ c ∈ closings, c.1 = c.2 := by
  constructor
  · rintro ⟨w, closings, rfl, h, hall⟩
    exact ⟨closings, by simpa using h, hall⟩
  · rintro ⟨closings, h, hall⟩
    exact ⟨v, closings, (List.append_nil v).symm, h, hall⟩

/-! ## The symbols of a text -/

mutual

/-- Whether an expression of the grammar has some tokens only, no closing identifiers, and calls only some productions. -/
def Ebnf.isWithin (allowed : Token → Bool) (called : List Production) : Ebnf → Bool
  | .token t => allowed t
  | .opening => allowed .ident
  | .closing => false
  | .call p | .named p => called.contains p
  | .alt a b => allWithin allowed called a && allWithin allowed called b
  | .many a => allWithin allowed called a

/-- Whether this is so of a row. -/
def allWithin (allowed : Token → Bool) (called : List Production) : List Ebnf → Bool
  | [] => true
  | e :: es => e.isWithin allowed called && allWithin allowed called es

end

/-- Two rows are within some tokens and productions if both are. -/
theorem allWithin_append (allowed : Token → Bool) (called : List Production) (es es' : List Ebnf) :
    allWithin allowed called (es ++ es') = (allWithin allowed called es && allWithin allowed called es') := by
  induction es with
  | nil => simp [allWithin]
  | cons e es ih => simp [allWithin, ih, Bool.and_assoc]

/-- The texts of productions that call each other only have symbols of some tokens and no closing identifiers, if their
rows have. -/
theorem Derives.within {allowed : Token → Bool} {called : List Production}
    (hrules : ∀ p ∈ called, allWithin allowed called (rules p) = true) {w : List Symbol}
    {closings : List (String × String)} (h : Derives rules x es w closings)
    (hes : allWithin allowed called es = true) : closings = [] ∧ ∀ s ∈ w, allowed s.token = true := by
  induction h with
  | nil => exact ⟨rfl, by simp⟩
  | token htoken h ih | opening htoken hname h ih =>
    simp only [allWithin, Ebnf.isWithin, Bool.and_eq_true] at hes
    exact ⟨(ih hes.2).1, List.forall_mem_cons.mpr ⟨by rw [htoken]; exact hes.1, (ih hes.2).2⟩⟩
  | closing htoken h ih => simp [allWithin, Ebnf.isWithin] at hes
  | call hcall h ihcall ih | named hcall h ihcall ih =>
    simp only [allWithin, Ebnf.isWithin, Bool.and_eq_true, List.contains_iff_mem] at hes
    obtain ⟨hnil, hall⟩ := ihcall (hrules _ hes.1)
    obtain ⟨hnil', hall'⟩ := ih hes.2
    exact ⟨by rw [hnil, hnil', List.append_nil], List.forall_mem_append.mpr ⟨hall, hall'⟩⟩
  | left h ih | right h ih | stop h ih | more h ih =>
    simp only [allWithin, Ebnf.isWithin, Bool.and_eq_true] at hes
    exact ih (by simp [allWithin_append, allWithin, Ebnf.isWithin, hes])

end Modula
