import Modula.Proofs.Grammar.Rules
import Modula.Proofs.Parser.Action
import Modula.Proofs.Token.Members

/-!
# What one token of lookahead decides

A parser that looks at one token has to find out from it which alternative to take and whether a repetition goes on.
Which tokens a row can start with follows from the FIRST sets (`leads`), and that each choice in a row is decided by
them is a check on the row (`decides`). The FIRST sets are right for the grammar, and but for a few productions all
choices are decided if what comes after a production is in its FOLLOW set.
-/

set_option autoImplicit false

namespace Modula

namespace TokenSet

/-- Whether all members of the set are members of another one. -/
def isSubset (s u : TokenSet) : Bool := s.union u == u

variable {s u : TokenSet} {t : Token}

/-- A member of a part is one of the whole. -/
theorem contains_of_isSubset (h : s.isSubset u = true) (ht : s.contains t = true) : u.contains t = true := by
  have hunion : s.union u = u := by simpa [isSubset] using h
  rw [← hunion, contains_union, ht, Bool.true_or]

end TokenSet

namespace Production

/-- Whether a text of the production may be empty. -/
def isNullable : Production → Bool
  | .fieldListSequence | .variantFieldListSeq | .statementSequence => true
  | _ => false

/-- The tokens that a parser may meet after the production if it has taken all that belongs to it. -/
def ends (ctx : Context) : Production → TokenSet
  | .qualident => (Production.qualident.follow ctx).erase .dot
  | p => p.follow ctx

end Production

/-! ## How rows start -/

mutual

/-- Whether a text of the expression may be empty. -/
def Ebnf.isNullable : Ebnf → Bool
  | .token _ | .opening | .closing => false
  | .call p | .named p => p.isNullable
  | .alt a b => allNullable a || allNullable b
  | .many _ => true

/-- Whether a text of the row may be empty. -/
def allNullable : List Ebnf → Bool
  | [] => true
  | e :: es => e.isNullable && allNullable es

end

mutual

/-- The tokens that a text of the expression can start with. -/
def Ebnf.first (ctx : Context) : Ebnf → TokenSet
  | .token t => {t}
  | .opening | .closing => {.ident}
  | .call p | .named p => p.first ctx
  | .alt a b => (firstOf ctx a).union (firstOf ctx b)
  | .many a => firstOf ctx a

/-- The tokens that a text of the row can start with. -/
def firstOf (ctx : Context) : List Ebnf → TokenSet
  | [] => ∅
  | e :: es => if e.isNullable then (e.first ctx).union (firstOf ctx es) else e.first ctx

end

/-- The tokens that a parser can meet at a text of the row if one of the set comes after it. -/
def leads (ctx : Context) (es : List Ebnf) (after : TokenSet) : TokenSet :=
  if allNullable es then (firstOf ctx es).union after else firstOf ctx es

mutual

/-- Whether one token is enough for each choice in an expression if one of the set comes after it. -/
def Ebnf.decides (ctx : Context) : Ebnf → TokenSet → Bool
  | .token _, _ | .opening, _ | .closing, _ => true
  | .call p, after | .named p, after => after.isSubset (p.ends ctx)
  | .alt a b, after =>
    (leads ctx a after).isDisjoint (leads ctx b after) && (decides ctx a after && decides ctx b after)
  | .many a, after =>
    (firstOf ctx a).isDisjoint after && !allNullable a && decides ctx a ((firstOf ctx a).union after)

/-- Whether one token is enough for each choice in a row if one of the set comes after it. -/
def decides (ctx : Context) : List Ebnf → TokenSet → Bool
  | [], _ => true
  | e :: es, after => e.decides ctx (leads ctx es after) && decides ctx es after

end

variable {ctx : Context} {es es' a b : List Ebnf} {e : Ebnf} {after : TokenSet} {t : Token}

/-- The empty row may stand for nothing. -/
@[simp] theorem allNullable_nil : allNullable [] = true := by rw [allNullable]

/-- A row may do so if all of its expressions may. -/
@[simp] theorem allNullable_cons : allNullable (e :: es) = (e.isNullable && allNullable es) := by rw [allNullable]

/-- Two rows may if both do. -/
@[simp] theorem allNullable_append : allNullable (es ++ es') = (allNullable es && allNullable es') := by
  induction es with
  | nil => simp
  | cons e es ih => simp [ih, Bool.and_assoc]

/-- The empty row starts with no token. -/
@[simp] theorem contains_firstOf_nil : (firstOf ctx []).contains t = false := by
  rw [firstOf]
  exact TokenSet.contains_empty t

/-- A row starts as its first expression does, and as the rest if that may stand for nothing. -/
@[simp] theorem contains_firstOf_cons :
    (firstOf ctx (e :: es)).contains t = ((e.first ctx).contains t || (e.isNullable && (firstOf ctx es).contains t)) := by
  rw [firstOf]
  cases e.isNullable <;> simp

/-- A call starts as its production does. -/
@[simp] theorem first_call {p : Production} : (Ebnf.call p).first ctx = p.first ctx := by rw [Ebnf.first]

/-- A token starts with itself. -/
@[simp] theorem firstOf_token : firstOf ctx (.token t :: es) = {t} := rfl

/-- A name at the start of a part is an identifier. -/
@[simp] theorem firstOf_opening : firstOf ctx (.opening :: es) = {.ident} := rfl

/-- Two rows start as the first one does, and as the second one if that may stand for nothing. -/
@[simp] theorem contains_firstOf_append : (firstOf ctx (es ++ es')).contains t =
    ((firstOf ctx es).contains t || (allNullable es && (firstOf ctx es').contains t)) := by
  induction es with
  | nil => simp
  | cons e es ih =>
    rw [List.cons_append, contains_firstOf_cons, contains_firstOf_cons, ih, allNullable_cons]
    cases e.isNullable <;> simp [Bool.or_assoc]

/-- One of several tokens is never nothing. -/
theorem allNullable_anyOf {ts : List Token} (hts : ts ≠ []) : allNullable (Ebnf.anyOf ts) = false := by
  induction ts with
  | nil => exact (hts rfl).elim
  | cons t ts ih =>
    cases ts with
    | nil => rfl
    | cons t' ts =>
      have hone : Ebnf.anyOf (t :: t' :: ts) = [.alt [.token t] (Ebnf.anyOf (t' :: ts))] := rfl
      simp [hone, Ebnf.isNullable, ih]

/-- One of several tokens starts with any of them. -/
theorem contains_firstOf_anyOf {ts : List Token} (hts : ts ≠ []) :
    (firstOf ctx (Ebnf.anyOf ts)).contains t = decide (t ∈ ts) := by
  induction ts with
  | nil => exact (hts rfl).elim
  | cons t₁ ts ih =>
    cases ts with
    | nil => simp [Ebnf.anyOf, Ebnf.oneOf]
    | cons t₂ ts =>
      have hone : Ebnf.anyOf (t₁ :: t₂ :: ts) = [.alt [.token t₁] (Ebnf.anyOf (t₂ :: ts))] := rfl
      rw [hone, contains_firstOf_cons, Ebnf.first, TokenSet.contains_union, firstOf_token, ih (by simp),
        contains_firstOf_nil, Bool.and_false, Bool.or_false]
      simp

/-- What a row starts with before some tokens includes these if it may stand for nothing. -/
theorem contains_leads :
    (leads ctx es after).contains t = ((firstOf ctx es).contains t || (allNullable es && after.contains t)) := by
  unfold leads
  cases allNullable es <;> simp

/-- The empty row starts with what comes after it. -/
@[simp] theorem leads_nil : leads ctx [] after = after := TokenSet.ext fun t => by simp [contains_leads]

/-- Before the first of two rows stands what the second one starts with. -/
theorem leads_append : leads ctx (es ++ es') after = leads ctx es (leads ctx es' after) := by
  refine TokenSet.ext fun t => ?_
  simp only [contains_leads, contains_firstOf_append, allNullable_append]
  cases allNullable es <;> simp [Bool.or_assoc]

/-- Two rows are decided if each is by what comes after it. -/
theorem decides_append :
    decides ctx (es ++ es') after = (decides ctx es (leads ctx es' after) && decides ctx es' after) := by
  induction es with
  | nil => rw [List.nil_append, decides, Bool.true_and]
  | cons e es ih => rw [List.cons_append, decides, decides, ih, leads_append, Bool.and_assoc]

/-- A call is decided if nothing comes after it that the production does not allow. -/
theorem decides_call {p : Production} : decides ctx [.call p] after = after.isSubset (p.ends ctx) := by
  rw [decides, Ebnf.decides, leads_nil, decides, Bool.and_true]

/-- So is a part with a name. -/
theorem decides_named {p : Production} : decides ctx [.named p] after = after.isSubset (p.ends ctx) := by
  rw [decides, Ebnf.decides, leads_nil, decides, Bool.and_true]

/-! ## The tables -/

/-- The FIRST sets are those of the grammar. -/
theorem first_rules (g : Grammar) (p : Production) : firstOf g.context (g.rules p) = p.first g.context := by
  have hall : ∀ c v n, ∀ p ∈ Production.all, firstOf ⟨c, v⟩ (Grammar.rules ⟨⟨c, v⟩, n⟩ p) = p.first ⟨c, v⟩ := by
    decide
  exact hall _ _ _ p p.mem_all

/-- A production may stand for nothing as the table says. -/
theorem nullable_rules (g : Grammar) (p : Production) : allNullable (g.rules p) = p.isNullable := by
  have hall : ∀ c v n, ∀ p ∈ Production.all, allNullable (Grammar.rules ⟨⟨c, v⟩, n⟩ p) = p.isNullable := by
    decide
  exact hall _ _ _ p p.mem_all

/-- Whether one token is not enough for the choices in the row of a production. -/
def Production.looksFurther : Production → Bool
  | .fieldListSequence | .variantFieldListSeq | .formalParamList | .statementSequence | .designator
  | .designatorOrFuncCall => true
  | _ => false

/-- The productions that only records with variants consist of. -/
def Production.isVariant : Production → Bool
  | .variantRecordType | .variantFieldListSeq | .variantFieldList | .variantFields | .variant => true
  | _ => false

/-- Every row is decided by the tokens that the production allows after it, but for those that look further. -/
theorem decides_rules (g : Grammar) (p : Production) (hfurther : p.looksFurther = false)
    (hvariant : p.isVariant = true → g.context.variantRecords = true) :
    decides g.context (g.rules p) (p.ends g.context) = true := by
  have hall : ∀ c v n, ∀ p ∈ Production.all, p.looksFurther = false → (p.isVariant = true → v = true) →
      decides ⟨c, v⟩ (Grammar.rules ⟨⟨c, v⟩, n⟩ p) (p.ends ⟨c, v⟩) = true := by
    decide
  exact hall _ _ _ p p.mem_all hfurther hvariant

/-! ## How derived texts start -/

variable {g : Grammar} {x : String} {v u : List Symbol}

/-- A text that is empty only if the row may be, and otherwise starts with a token that the row can start with. -/
def Suits (ctx : Context) (es : List Ebnf) (w : List Symbol) : Prop :=
  (w = [] → allNullable es = true) ∧ ∀ s w', w = s :: w' → (firstOf ctx es).contains s.token = true

/-- A text of a production and one of a row, one after the other. -/
theorem Suits.append {p : Production} {w w' : List Symbol} (hnull : e.isNullable = p.isNullable)
    (hfirst : e.first g.context = p.first g.context) (hcall : Suits g.context (g.rules p) w)
    (h : Suits g.context es w') : Suits g.context (e :: es) (w ++ w') := by
  unfold Suits at hcall
  rw [nullable_rules, first_rules, ← hnull, ← hfirst] at hcall
  constructor
  · intro happend
    obtain ⟨hw, hw'⟩ := List.append_eq_nil_iff.mp happend
    rw [allNullable_cons, hcall.1 hw, h.1 hw', Bool.and_self]
  · intro s others happend
    rw [contains_firstOf_cons]
    obtain ⟨hw, hw'⟩ | ⟨others', hw, -⟩ := List.append_eq_cons_iff.mp happend
    · rw [hcall.1 hw, h.2 s others hw', Bool.and_self, Bool.or_true]
    · rw [hcall.2 s others' hw, Bool.true_or]

/-- What a row derives starts as the row does. -/
theorem Derives.suits {w : List Symbol} {closings : List (String × String)} (h : Derives g.rules x es w closings) :
    Suits g.context es w := by
  induction h with
  | nil => simp [Suits]
  | token htoken h ih => simp [Suits, htoken]
  | opening htoken hname h ih => simp [Suits, htoken]
  | closing htoken h ih => simp [Suits, Ebnf.first, htoken]
  | call hcall h ihcall ih => exact .append (by rw [Ebnf.isNullable]) (by rw [Ebnf.first]) ihcall ih
  | named hcall h ihcall ih => exact .append (by rw [Ebnf.isNullable]) (by rw [Ebnf.first]) ihcall ih
  | left h ih =>
    refine ⟨fun hw => ?_, fun s w' hw => ?_⟩
    · have hnull := ih.1 hw
      simp_all [Ebnf.isNullable]
    · have hfirst := ih.2 s w' hw
      rw [contains_firstOf_append] at hfirst
      rw [contains_firstOf_cons, Ebnf.first, Ebnf.isNullable, TokenSet.contains_union]
      grind
  | right h ih =>
    refine ⟨fun hw => ?_, fun s w' hw => ?_⟩
    · have hnull := ih.1 hw
      simp_all [Ebnf.isNullable]
    · have hfirst := ih.2 s w' hw
      rw [contains_firstOf_append] at hfirst
      rw [contains_firstOf_cons, Ebnf.first, Ebnf.isNullable, TokenSet.contains_union]
      grind
  | stop h ih =>
    refine ⟨fun hw => ?_, fun s w' hw => ?_⟩
    · simp [Ebnf.isNullable, ih.1 hw]
    · simp [Ebnf.isNullable, ih.2 s w' hw]
  | more h ih =>
    refine ⟨fun hw => ?_, fun s w' hw => ?_⟩
    · have hnull := ih.1 hw
      simp_all [Ebnf.isNullable]
    · have hfirst := ih.2 s w' hw
      rw [contains_firstOf_append, contains_firstOf_cons, Ebnf.first, Ebnf.isNullable] at hfirst
      rw [contains_firstOf_cons, Ebnf.first, Ebnf.isNullable]
      grind

/-- What a row takes starts with a token that leads to the row and what comes after it. -/
theorem Takes.leads (h : Takes g.rules x es v u) (hu : after.contains (firstToken u) = true) :
    (leads g.context es after).contains (firstToken v) = true := by
  obtain ⟨w, closings, rfl, h, -⟩ := h
  rw [contains_leads]
  cases w with
  | nil => rw [h.suits.1 rfl, List.nil_append, hu, Bool.and_self, Bool.or_true]
  | cons s w => rw [List.cons_append, firstToken_cons, h.suits.2 s w rfl, Bool.true_or]

/-- What a row takes starts with a token of the row if its text cannot be empty. -/
theorem Takes.first (h : Takes g.rules x es v u) (hnull : allNullable es = false) :
    (firstOf g.context es).contains (firstToken v) = true := by
  obtain ⟨w, closings, rfl, h, -⟩ := h
  cases w with
  | nil => simp [h.suits.1 rfl] at hnull
  | cons s w => exact h.suits.2 s w rfl

end Modula
