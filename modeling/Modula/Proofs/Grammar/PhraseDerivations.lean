import Modula.Proofs.Grammar.Phrases
import Modula.Proofs.Parser.Parses

/-!
# Expressions that are derived have phrases

Every text that the grammar derives as an expression is that of a phrase (`exists_phrase`). The proof goes through the
rows of the grammar from the inside to the outside, for texts of a length at a time: an expression inside another one is
shorter than that.
-/

set_option autoImplicit false

namespace Modula

/-! ## What is derived has a phrase -/

/-- Induction on a repetition of a row that takes a symbol at least. -/
theorem Takes.many_induction {rules : Production → List Ebnf} {x : String} {a es : List Ebnf} {v u : List Symbol}
    {motive : List Symbol → Prop} (h : Takes rules x (.many a :: es) v u)
    (less : ∀ v m, Takes rules x a v m → m.length < v.length) (stop : ∀ v, Takes rules x es v u → motive v)
    (more : ∀ v m, Takes rules x a v m → m.length < v.length → motive m → motive v) : motive v := by
  generalize hn : v.length = n
  induction n using Nat.strongRecOn generalizing v with
  | ind n ih =>
    obtain hstop | hmore := takes_many.mp h
    · exact stop v hstop
    · obtain ⟨m, hm, hrest⟩ := takes_append.mp hmore
      have hless := less v m hm
      exact more v m hm hless (ih _ (by omega) hrest rfl)

/-- A grammar in which the types of set values are names. -/
def Grammar.naming (ctx : Context) : Grammar := ⟨ctx, true⟩

/-- The symbols that a production takes from a text are those of a phrase. -/
def HasPhrase (ctx : Context) (p : Production) (q : Part) (v : List Symbol) : Prop :=
  ∀ x u, Takes (Grammar.naming ctx).rules x ((Grammar.naming ctx).rules p) v u → ∃ e : Phrase q, v = e.symbols ++ u

section

variable {ctx : Context} {n : Nat} {v : List Symbol}

/-- A part of a row that is called takes the symbols of a phrase. -/
theorem HasPhrase.of_call {p : Production} {q : Part} (h : HasPhrase ctx p q v) {x : String} {es : List Ebnf}
    {u : List Symbol} (hu : Takes (Grammar.naming ctx).rules x (.call p :: es) v u) :
    ∃ (e : Phrase q) (m : List Symbol), v = e.symbols ++ m ∧ Takes (Grammar.naming ctx).rules x es m u := by
  obtain ⟨m, ⟨y, hm⟩, hrest⟩ := takes_call.mp hu
  obtain ⟨e, rfl⟩ := h y m hm
  exact ⟨e, m, rfl, hrest⟩

/-- Phrases with commas between them. -/
theorem hasPhrase_separated {p : Production} {q : Part} (h : ∀ v, v.length < n → HasPhrase ctx p q v) {x : String}
    {u : List Symbol} (hn : v.length < n)
    (hu : Takes (Grammar.naming ctx).rules x (Ebnf.separated .comma [.call p]) v u) :
    ∃ e : Phrase (.separated q), v = e.symbols ++ u := by
  obtain ⟨first, m, rfl, hothers⟩ := (h v hn).of_call hu
  have hall : m.length < n → ∀ first : Phrase q, ∃ e : Phrase (.separated q), first.symbols ++ m = e.symbols ++ u := by
    refine hothers.many_induction (motive := fun m => m.length < n → ∀ first : Phrase q,
      ∃ e : Phrase (.separated q), first.symbols ++ m = e.symbols ++ u) (fun v m hm => ?_) (fun v hv _ first => ?_)
      fun v m hm hless ih hn first => ?_
    · obtain ⟨s, v, rfl, -, hm⟩ := takes_token.mp hm
      have hle := hm.length_le
      rw [List.length_cons]
      omega
    · obtain rfl := takes_nil.mp hv
      exact ⟨.one first, rfl⟩
    · obtain ⟨s, v, rfl, hs, hm⟩ := takes_token.mp hm
      rw [List.length_cons] at hn
      obtain ⟨next, m', rfl, hnil⟩ := (h v (by omega)).of_call hm
      obtain rfl := takes_nil.mp hnil
      rw [List.length_append] at hn
      obtain ⟨others, hothers⟩ := ih (by omega) next
      exact ⟨.more first ⟨s, hs⟩ others, by simp [hothers]⟩
  rw [List.length_append] at hn
  exact hall (by omega) first

/-- What a qualified identifier takes is one. -/
theorem hasPhrase_qualident {x : String} {u : List Symbol}
    (hu : Takes (Grammar.naming ctx).rules x ((Grammar.naming ctx).rules .qualident) v u) :
    ∃ q : Qualified, v = q.symbols ++ u := by
  obtain ⟨s, v, rfl, hs, hparts⟩ := takes_token.mp hu
  have hall : ∃ parts : List (Terminal .dot × Terminal .ident), v = (parts.flatMap fun p => [p.1.symbol, p.2.symbol]) ++ u := by
    refine hparts.many_induction (motive := fun v => ∃ parts : List (Terminal .dot × Terminal .ident),
      v = (parts.flatMap fun p => [p.1.symbol, p.2.symbol]) ++ u) (fun v m hm => ?_) (fun v hv => ?_) fun v m hm _ ih => ?_
    · obtain ⟨s, v, rfl, -, hm⟩ := takes_token.mp hm
      have hle := hm.length_le
      rw [List.length_cons]
      omega
    · exact ⟨[], by simpa using takes_nil.mp hv⟩
    · obtain ⟨dot, v, rfl, hdot, hm⟩ := takes_token.mp hm
      obtain ⟨name, v, rfl, hname, hm⟩ := takes_token.mp hm
      obtain rfl := takes_nil.mp hm
      obtain ⟨parts, rfl⟩ := ih
      exact ⟨(⟨dot, hdot⟩, ⟨name, hname⟩) :: parts, by simp⟩
  obtain ⟨parts, rfl⟩ := hall
  exact ⟨⟨⟨s, hs⟩, parts⟩, rfl⟩

/-- The operators of sums or of products. -/
def Rank.operators : Rank → List Token
  | .sum => [.plus, .minus, .kwOr]
  | .product => [.star, .slash, .kwDiv, .kwMod, .kwAnd]

/-- Every rank has operators. -/
theorem Rank.operators_ne_nil (rank : Rank) : rank.operators ≠ [] := by cases rank <;> simp [operators]

/-- The operators of a rank, and no other tokens, join its operands. -/
theorem exists_joins_iff {rank : Rank} (t : Token) : (∃ type, Joins rank t type) ↔ t ∈ rank.operators := by
  constructor
  · rintro ⟨type, h⟩
    cases h <;> decide
  · intro h
    cases rank with
    | sum =>
      simp only [Rank.operators, List.mem_cons, List.not_mem_nil, or_false] at h
      obtain rfl | rfl | rfl := h
      exacts [⟨_, .plus⟩, ⟨_, .minus⟩, ⟨_, .disjunction⟩]
    | product =>
      simp only [Rank.operators, List.mem_cons, List.not_mem_nil, or_false] at h
      obtain rfl | rfl | rfl | rfl | rfl := h
      exacts [⟨_, .times⟩, ⟨_, .quotient⟩, ⟨_, .integerQuotient⟩, ⟨_, .remainder⟩, ⟨_, .conjunction⟩]

/-- These tokens, and no others, are relations. -/
theorem exists_relates_iff (t : Token) : (∃ type, Relates t type) ↔
    t ∈ [.equal, .notEqual, .less, .lessEqual, .greater, .greaterEqual, .kwIn] := by
  constructor
  · rintro ⟨type, h⟩
    cases h <;> decide
  · intro h
    simp only [List.mem_cons, List.not_mem_nil, or_false] at h
    obtain rfl | rfl | rfl | rfl | rfl | rfl | rfl := h
    exacts [⟨_, .equal⟩, ⟨_, .notEqual⟩, ⟨_, .less⟩, ⟨_, .lessEqual⟩, ⟨_, .greater⟩, ⟨_, .greaterEqual⟩, ⟨_, .membership⟩]

/-- These tokens, and no others, are literals. -/
theorem exists_represents_iff (t : Token) : (∃ type, Represents t type) ↔ t ∈ [.integer, .real, .char, .string] := by
  constructor
  · rintro ⟨type, h⟩
    cases h <;> decide
  · intro h
    simp only [List.mem_cons, List.not_mem_nil, or_false] at h
    obtain rfl | rfl | rfl | rfl := h
    exacts [⟨_, .integer⟩, ⟨_, .real⟩, ⟨_, .character⟩, ⟨_, .string⟩]

/-- A symbol with one of the tokens of a kind is an operator of the kind. -/
theorem exists_operator {kind : Token → NodeType → Prop} {ts : List Token} (hts : ∀ t, (∃ type, kind t type) ↔ t ∈ ts)
    {s : Symbol} (hs : s.token ∈ ts) : ∃ operator : Operator kind, operator.symbol = s := by
  obtain ⟨type, htype⟩ := (hts _).mpr hs
  exact ⟨⟨s, type, htype⟩, rfl⟩

variable (hE : ∀ v : List Symbol, v.length < n → HasPhrase ctx .expression .expression v)

include hE

/-- Arguments are phrases if the expressions in them are. -/
theorem hasPhrase_arguments (hn : v.length ≤ n) : HasPhrase ctx .actualParameters .arguments v := by
  intro x u hu
  obtain ⟨left, w, rfl, hleft, hw⟩ := takes_token.mp hu
  rw [List.length_cons] at hn
  obtain hsome | hnone := takes_alt.mp hw
  · obtain ⟨m, ⟨y, hm⟩, hlast⟩ := takes_call.mp hsome
    obtain ⟨values, rfl⟩ := hasPhrase_separated hE (by omega) hm
    obtain ⟨right, w, rfl, hright, hnil⟩ := takes_token.mp hlast
    obtain rfl := takes_nil.mp hnil
    exact ⟨.arguments ⟨left, hleft⟩ values ⟨right, hright⟩, by simp⟩
  · obtain ⟨right, w, rfl, hright, hnil⟩ := takes_token.mp hnone
    obtain rfl := takes_nil.mp hnil
    exact ⟨.noArguments ⟨left, hleft⟩ ⟨right, hright⟩, rfl⟩

/-- So are elements of sets. -/
theorem hasPhrase_element (hn : v.length < n) : HasPhrase ctx .element .element v := by
  intro x u hu
  obtain ⟨low, m, rfl, hm⟩ := (hE v hn).of_call hu
  rw [List.length_append] at hn
  obtain hrange | hsingle := takes_alt.mp hm
  · obtain ⟨dots, w, rfl, hdots, hw⟩ := takes_token.mp hrange
    rw [List.length_cons] at hn
    obtain ⟨high, w, rfl, hnil⟩ := (hE w (by omega)).of_call hw
    obtain rfl := takes_nil.mp hnil
    exact ⟨.range low ⟨dots, hdots⟩ high, by simp⟩
  · obtain rfl := takes_nil.mp hsingle
    exact ⟨.single low, rfl⟩

/-- So are sets. -/
theorem hasPhrase_setValue (hn : v.length ≤ n) : HasPhrase ctx .setValue .setValue v := by
  intro x u hu
  obtain ⟨left, w, rfl, hleft, hw⟩ := takes_token.mp hu
  rw [List.length_cons] at hn
  obtain hsome | hnone := takes_alt.mp hw
  · obtain ⟨m, hm, hlast⟩ := takes_append.mp hsome
    obtain ⟨values, rfl⟩ := hasPhrase_separated (fun v hv => hasPhrase_element hE hv) (by omega) hm
    obtain ⟨right, w, rfl, hright, hnil⟩ := takes_token.mp hlast
    obtain rfl := takes_nil.mp hnil
    exact ⟨.elements ⟨left, hleft⟩ values ⟨right, hright⟩, by simp⟩
  · obtain ⟨right, w, rfl, hright, hnil⟩ := takes_token.mp hnone
    obtain rfl := takes_nil.mp hnil
    exact ⟨.noElements ⟨left, hleft⟩ ⟨right, hright⟩, rfl⟩

/-- So are the selectors of a designator. -/
theorem hasPhrase_selectors (hn : v.length < n) {x : String} {u : List Symbol}
    (hu : Takes (Grammar.naming ctx).rules x [.many [.call .selector]] v u) :
    ∃ e : Phrase .selectors, v = e.symbols ++ u := by
  generalize hlength : v.length = k
  induction k using Nat.strongRecOn generalizing v with
  | ind k ih =>
    obtain hstop | hmore := takes_many.mp hu
    · exact ⟨.selected, takes_nil.mp hstop⟩
    obtain ⟨m, ⟨y, hselector⟩, hrest⟩ := takes_call.mp hmore
    have hrow : (Grammar.naming ctx).rules .selector = [.alt [.token .caret] [.alt [.token .dot, .token .ident]
      [.token .lbracket, .call .expressionList, .token .rbracket]]] := rfl
    rw [hrow] at hselector
    obtain hfirst | hother := takes_alt.mp hselector
    · obtain ⟨caret, w, rfl, hcaret, hnil⟩ := takes_token.mp hfirst
      obtain rfl := takes_nil.mp hnil
      rw [List.length_cons] at hn hlength
      obtain ⟨others, rfl⟩ := ih _ (by omega) (by omega) hrest rfl
      exact ⟨.dereferenced ⟨caret, hcaret⟩ others, rfl⟩
    obtain hfield | hindex := takes_alt.mp hother
    · obtain ⟨dot, w, rfl, hdot, hlast⟩ := takes_token.mp hfield
      obtain ⟨name, w, rfl, hname, hnil⟩ := takes_token.mp hlast
      obtain rfl := takes_nil.mp hnil
      rw [List.length_cons, List.length_cons] at hn hlength
      obtain ⟨others, rfl⟩ := ih _ (by omega) (by omega) hrest rfl
      exact ⟨.field ⟨dot, hdot⟩ ⟨name, hname⟩ others, rfl⟩
    · obtain ⟨left, w, rfl, hleft, hindices⟩ := takes_token.mp hindex
      rw [List.length_cons] at hn hlength
      obtain ⟨m', ⟨z, hindices⟩, hlast⟩ := takes_call.mp hindices
      obtain ⟨indices, rfl⟩ := hasPhrase_separated hE (by omega) hindices
      obtain ⟨right, w, rfl, hright, hnil⟩ := takes_token.mp hlast
      obtain rfl := takes_nil.mp hnil
      rw [List.length_append, List.length_cons] at hn hlength
      obtain ⟨others, rfl⟩ := ih _ (by omega) (by omega) hrest rfl
      exact ⟨.indexed ⟨left, hleft⟩ indices ⟨right, hright⟩ others, by simp⟩

/-- So are designators. -/
theorem hasPhrase_designator (hn : v.length ≤ n) : HasPhrase ctx .designator .designator v := by
  intro x u hu
  obtain ⟨m, ⟨y, hm⟩, hselectors⟩ := takes_call.mp hu
  obtain ⟨head, rfl⟩ := hasPhrase_qualident hm
  rw [List.length_append, Qualified.symbols, List.length_cons] at hn
  obtain ⟨selectors, rfl⟩ := hasPhrase_selectors hE (by omega) hselectors
  exact ⟨.designator head selectors, by simp⟩

/-- So are designators with a set or arguments after them. -/
theorem hasPhrase_designatorOrFuncCall (hn : v.length ≤ n) : HasPhrase ctx .designatorOrFuncCall .factor v := by
  intro x u hu
  have hrow : (Grammar.naming ctx).rules .designatorOrFuncCall =
      [.alt [.call .designator, Ebnf.opt [.call .actualParameters]] [.call .qualident, .call .setValue]] := rfl
  rw [hrow] at hu
  obtain hdesignator | htyped := takes_alt.mp hu
  · obtain ⟨head, m, rfl, hm⟩ := (hasPhrase_designator hE hn).of_call hdesignator
    rw [List.length_append] at hn
    obtain hcalled | hplain := takes_alt.mp hm
    · obtain ⟨values, m, rfl, hnil⟩ := (hasPhrase_arguments hE (by omega)).of_call hcalled
      obtain rfl := takes_nil.mp hnil
      exact ⟨.called head values, by simp⟩
    · obtain rfl := takes_nil.mp hplain
      exact ⟨.designated head, rfl⟩
  · obtain ⟨m, ⟨y, hm⟩, hset⟩ := takes_call.mp htyped
    obtain ⟨type, rfl⟩ := hasPhrase_qualident hm
    rw [List.length_append] at hn
    obtain ⟨value, m, rfl, hnil⟩ := (hasPhrase_setValue hE (by omega)).of_call hset
    obtain rfl := takes_nil.mp hnil
    exact ⟨.typedSet type value, by simp⟩

/-- So are factors, one symbol of which is a parenthesis or a negation if there are factors in them. -/
theorem hasPhrase_factor (hn : v.length ≤ n) : HasPhrase ctx .factor .factor v := by
  intro x u hu
  have hrow : (Grammar.naming ctx).rules .factor = [.alt (Ebnf.anyOf [.integer, .real, .char, .string])
      [.alt [.call .setValue] [.alt [.call .designatorOrFuncCall] [.token .lparen, .call .expression, .token .rparen]]]] := rfl
  rw [hrow] at hu
  obtain hliteral | hother := takes_alt.mp hu
  · obtain ⟨s, w, rfl, hs, hnil⟩ := (Script.Parses.takes_anyOf (by simp)).mp hliteral
    obtain rfl := takes_nil.mp hnil
    obtain ⟨value, rfl⟩ : ∃ value : Operator Represents, value.symbol = s := exists_operator exists_represents_iff hs
    exact ⟨.literal value, rfl⟩
  obtain hset | hother := takes_alt.mp hother
  · obtain ⟨value, m, rfl, hnil⟩ := (hasPhrase_setValue hE hn).of_call hset
    obtain rfl := takes_nil.mp hnil
    exact ⟨.set value, rfl⟩
  obtain hdesignator | hinner := takes_alt.mp hother
  · obtain ⟨e, m, rfl, hnil⟩ := (hasPhrase_designatorOrFuncCall hE hn).of_call hdesignator
    obtain rfl := takes_nil.mp hnil
    exact ⟨e, rfl⟩
  · obtain ⟨left, w, rfl, hleft, hinner⟩ := takes_token.mp hinner
    rw [List.length_cons] at hn
    obtain ⟨inner, m, rfl, hlast⟩ := (hE w (by omega)).of_call hinner
    obtain ⟨right, w, rfl, hright, hnil⟩ := takes_token.mp hlast
    obtain rfl := takes_nil.mp hnil
    exact ⟨.parenthesized ⟨left, hleft⟩ inner ⟨right, hright⟩, by simp⟩

/-- So are operands of products. -/
theorem hasPhrase_simpleTerm (hn : v.length ≤ n) : HasPhrase ctx .simpleTerm (.operand .product) v := by
  intro x u hu
  obtain hnot | hplain := takes_alt.mp hu
  · obtain ⟨sign, w, rfl, hsign, hfactor⟩ := takes_token.mp hnot
    rw [List.length_cons] at hn
    obtain ⟨factor, m, rfl, hnil⟩ := (hasPhrase_factor hE (by omega)).of_call hfactor
    obtain rfl := takes_nil.mp hnil
    exact ⟨.complement ⟨sign, hsign⟩ factor, rfl⟩
  · obtain ⟨factor, m, rfl, hnil⟩ := (hasPhrase_factor hE hn).of_call hplain
    obtain rfl := takes_nil.mp hnil
    exact ⟨.plain factor, rfl⟩

omit hE in
/-- Operands after the first one. -/
theorem hasPhrase_further {p : Production} {rank : Rank} (h : ∀ v, v.length ≤ n → HasPhrase ctx p (.operand rank) v) {x : String}
    {u : List Symbol} (hn : v.length ≤ n)
    (hu : Takes (Grammar.naming ctx).rules x [.many (Ebnf.anyOf rank.operators ++ [.call p])] v u) :
    ∃ e : Phrase (.further rank), v = e.symbols ++ u := by
  revert hn
  refine hu.many_induction (motive := fun v => v.length ≤ n → ∃ e : Phrase (.further rank), v = e.symbols ++ u)
    (fun v m hm => ?_) (fun v hv _ => ?_) fun v m hm _ ih hn => ?_
  · obtain ⟨s, w, rfl, -, hw⟩ := (Script.Parses.takes_anyOf rank.operators_ne_nil).mp hm
    have hle := hw.length_le
    rw [List.length_cons]
    omega
  · exact ⟨.last, takes_nil.mp hv⟩
  · obtain ⟨s, w, rfl, hs, hw⟩ := (Script.Parses.takes_anyOf rank.operators_ne_nil).mp hm
    obtain ⟨operator, rfl⟩ : ∃ operator : Operator (Joins rank), operator.symbol = s := exists_operator exists_joins_iff hs
    rw [List.length_cons] at hn
    obtain ⟨operand, m', rfl, hnil⟩ := (h w (by omega)).of_call hw
    obtain rfl := takes_nil.mp hnil
    rw [List.length_append] at hn
    obtain ⟨others, rfl⟩ := ih (by omega)
    exact ⟨.joined operator operand others, by simp⟩

/-- So are operands of sums. -/
theorem hasPhrase_term (hn : v.length ≤ n) : HasPhrase ctx .term (.operand .sum) v := by
  intro x u hu
  obtain ⟨first, m, rfl, hm⟩ := (hasPhrase_simpleTerm hE hn).of_call hu
  rw [List.length_append] at hn
  obtain ⟨others, rfl⟩ := hasPhrase_further (fun v hv => hasPhrase_simpleTerm hE hv)
    (by omega) hm
  exact ⟨.term first others, by simp⟩

/-- So are sums. -/
theorem hasPhrase_simpleExpression (hn : v.length ≤ n) : HasPhrase ctx .simpleExpression .simpleExpression v := by
  intro x u hu
  have hterms : ∀ v, v.length ≤ n → Takes (Grammar.naming ctx).rules x [.call .term,
      .many (Ebnf.anyOf [.plus, .minus, .kwOr] ++ [.call .term])] v u →
      ∃ (first : Phrase (.operand .sum)) (others : Phrase (.further .sum)), v = first.symbols ++ others.symbols ++ u := by
    intro v hn hv
    obtain ⟨first, m, rfl, hm⟩ := (hasPhrase_term hE hn).of_call hv
    rw [List.length_append] at hn
    obtain ⟨others, rfl⟩ := hasPhrase_further (fun v hv => hasPhrase_term hE hv) (by omega) hm
    exact ⟨first, others, by simp⟩
  have hrow : (Grammar.naming ctx).rules .simpleExpression = [.alt [.alt [.token .plus] [.token .minus]] [],
    .call .term, .many (Ebnf.anyOf [.plus, .minus, .kwOr] ++ [.call .term])] := rfl
  rw [hrow] at hu
  obtain hsigned | hunsigned := takes_alt.mp hu
  · obtain hsigned | hsigned := takes_alt.mp hsigned
    · obtain ⟨sign, w, rfl, hsign, hw⟩ := takes_token.mp hsigned
      rw [List.length_cons] at hn
      obtain ⟨first, others, rfl⟩ := hterms w (by omega) hw
      exact ⟨.positive ⟨sign, hsign⟩ first others, rfl⟩
    · obtain ⟨sign, w, rfl, hsign, hw⟩ := takes_token.mp hsigned
      rw [List.length_cons] at hn
      obtain ⟨first, others, rfl⟩ := hterms w (by omega) hw
      exact ⟨.negative ⟨sign, hsign⟩ first others, rfl⟩
  · obtain ⟨first, others, rfl⟩ := hterms v hn hunsigned
    exact ⟨.unsigned first others, rfl⟩

/-- So are expressions, at any length up to the one considered. -/
theorem hasPhrase_expression (hn : v.length ≤ n) : HasPhrase ctx .expression .expression v := by
  intro x u hu
  obtain ⟨left, m, rfl, hm⟩ := (hasPhrase_simpleExpression hE hn).of_call hu
  rw [List.length_append] at hn
  have hrow : Ebnf.opt (Ebnf.anyOf [.equal, .notEqual, .less, .lessEqual, .greater, .greaterEqual, .kwIn] ++
    [.call .simpleExpression]) = .alt (Ebnf.anyOf [.equal, .notEqual, .less, .lessEqual, .greater, .greaterEqual, .kwIn] ++
    [.call .simpleExpression]) [] := rfl
  obtain hrelation | hnil := takes_alt.mp hm
  · rw [List.append_nil] at hrelation
    obtain ⟨s, w, rfl, hs, hw⟩ := (Script.Parses.takes_anyOf (by simp)).mp hrelation
    obtain ⟨operator, rfl⟩ : ∃ operator : Operator Relates, operator.symbol = s := exists_operator exists_relates_iff hs
    rw [List.length_cons] at hn
    obtain ⟨right, m, rfl, hnil⟩ := (hasPhrase_simpleExpression hE (by omega)).of_call hw
    obtain rfl := takes_nil.mp hnil
    exact ⟨.relation left operator right, by simp⟩
  · obtain rfl := takes_nil.mp hnil
    exact ⟨.simple left, rfl⟩

end

/-! ## Derivations of expressions -/

/-- Whether a symbol with the token is taken as it is: it is no pragma, nor a malformed literal. -/
def Token.isPlain (t : Token) : Bool := t.wellFormed = t ∧ t ≠ .pragma

/-- The productions that derive expressions and their parts. -/
def Production.ofExpressions : List Production :=
  [.expression, .simpleExpression, .term, .simpleTerm, .factor, .designatorOrFuncCall, .designator, .qualident, .selector,
   .expressionList, .actualParameters, .setValue, .element]

/-- A text that is derived as an expression has plain symbols and no closing identifiers. -/
theorem Derives.expression_within {ctx : Context} {x : String} {w : List Symbol} {closings : List (String × String)}
    (h : Derives (Grammar.naming ctx).rules x [.call .expression] w closings) :
    closings = [] ∧ ∀ s ∈ w, s.token.isPlain = true := by
  have hrules : ∀ c v, ∀ p ∈ Production.ofExpressions,
      allWithin Token.isPlain Production.ofExpressions ((Grammar.naming ⟨c, v⟩).rules p) = true := by
    decide
  exact h.within (hrules ctx.constParameters ctx.variantRecords) (by decide)

/-- Every text that is derived as an expression, with names as the types of set values, is that of a phrase. -/
theorem exists_phrase {ctx : Context} {x : String} {w : List Symbol} {closings : List (String × String)}
    (h : Derives (Grammar.naming ctx).rules x [.call .expression] w closings) :
    ∃ e : Phrase .expression, e.symbols = w := by
  have hlengths : ∀ n (v : List Symbol), v.length < n → HasPhrase ctx .expression .expression v := by
    intro n
    induction n with
    | zero => exact fun v hv => absurd hv (Nat.not_lt_zero _)
    | succ n ih => exact fun v hv => hasPhrase_expression ih (Nat.le_of_lt_succ hv)
  obtain rfl := h.expression_within.1
  obtain ⟨e, m, rfl, hnil⟩ := (hlengths _ w (Nat.lt_succ_self _)).of_call (takes_all.mpr ⟨[], h, by simp⟩)
  obtain rfl := takes_nil.mp hnil
  exact ⟨e, by simp⟩

/-! ## Phrases are derived -/

/-- The production of operands. -/
def Rank.production : Rank → Production
  | .sum => .term
  | .product => .simpleTerm

/-- The row that derives the phrases of a part. -/
def Part.row : Part → List Ebnf
  | .expression => [.call .expression]
  | .simpleExpression => [.call .simpleExpression]
  | .operand rank => [.call rank.production]
  | .further rank => [.many (Ebnf.anyOf rank.operators ++ [.call rank.production])]
  | .factor => [.call .factor]
  | .designator => [.call .designator]
  | .selectors => [.many [.call .selector]]
  | .arguments => [.call .actualParameters]
  | .setValue => [.call .setValue]
  | .element => [.call .element]
  | .separated item => Ebnf.separated .comma item.row

section

variable {rules : Production → List Ebnf} {x : String} {es es' : List Ebnf} {v m u : List Symbol}

/-- What the row of a production takes is taken by calling it. -/
theorem takes_of_rules {p : Production} (h : Takes rules x (rules p) v u) : Takes rules x [.call p] v u :=
  takes_call.mpr ⟨u, ⟨x, h⟩, takes_nil.mpr rfl⟩

/-- The empty row takes nothing. -/
theorem takes_nothing : Takes rules x [] v v := takes_nil.mpr rfl

/-- Rows take their symbols one after the other. -/
theorem Takes.append (h : Takes rules x es v m) (h' : Takes rules x es' m u) : Takes rules x (es ++ es') v u :=
  takes_append.mpr ⟨m, h, h'⟩

/-- A token takes a symbol of it. -/
theorem Terminal.takes {t : Token} (s : Terminal t) (h : Takes rules x es v u) :
    Takes rules x (.token t :: es) (s.symbol :: v) u :=
  takes_token.mpr ⟨s.symbol, v, rfl, s.token_eq, h⟩

end

section

variable {ctx : Context} {x : String}

/-- One of the tokens of an operator takes its symbol. -/
theorem Operator.takes {kind : Token → NodeType → Prop} (o : Operator kind) {ts : List Token} {es : List Ebnf}
    {v u : List Symbol} (hne : ts ≠ []) (hts : ∀ t, (∃ type, kind t type) ↔ t ∈ ts)
    (h : Takes (Grammar.naming ctx).rules x es v u) :
    Takes (Grammar.naming ctx).rules x (Ebnf.anyOf ts ++ es) (o.symbol :: v) u :=
  (Script.Parses.takes_anyOf hne).mpr ⟨o.symbol, v, rfl, (hts _).mp ⟨o.type, o.of_kind⟩, h⟩

/-- The row of qualified identifiers takes the symbols of one. -/
theorem Qualified.takes (q : Qualified) (v : List Symbol) :
    Takes (Grammar.naming ctx).rules x [.call .qualident] (q.symbols ++ v) v := by
  have hparts : ∀ parts : List (Terminal .dot × Terminal .ident), Takes (Grammar.naming ctx).rules x
      [.many [.token .dot, .token .ident]] ((parts.flatMap fun p => [p.1.symbol, p.2.symbol]) ++ v) v := by
    intro parts
    induction parts with
    | nil => exact takes_many.mpr (.inl takes_nothing)
    | cons part parts ih => exact takes_many.mpr (.inr (part.1.takes (part.2.takes ih)))
  exact takes_of_rules (q.first.takes (hparts q.parts))

/-- The row of a part derives its phrases. -/
theorem Phrase.takes {p : Part} (e : Phrase p) (v : List Symbol) :
    Takes (Grammar.naming ctx).rules x p.row (e.symbols ++ v) v := by
  induction e generalizing v x with
  | simple operand ih => exact takes_of_rules ((ih _).append (takes_alt.mpr (.inr takes_nothing)))
  | relation left operator right ihleft ihright =>
    rw [Phrase.symbols, List.append_assoc]
    refine takes_of_rules ((ihleft _).append (takes_alt.mpr (.inl ?_)))
    rw [List.append_nil]
    exact operator.takes (by simp) exists_relates_iff (ihright v)
  | unsigned first others ihfirst ihothers =>
    rw [Phrase.symbols, List.append_assoc]
    exact takes_of_rules (takes_alt.mpr (.inr ((ihfirst _).append (ihothers v))))
  | positive sign first others ihfirst ihothers =>
    rw [Phrase.symbols, List.cons_append, List.append_assoc]
    exact takes_of_rules (takes_alt.mpr (.inl (takes_alt.mpr (.inl (sign.takes ((ihfirst _).append (ihothers v)))))))
  | negative sign first others ihfirst ihothers =>
    rw [Phrase.symbols, List.cons_append, List.append_assoc]
    exact takes_of_rules (takes_alt.mpr (.inl (takes_alt.mpr (.inr (sign.takes ((ihfirst _).append (ihothers v)))))))
  | term first others ihfirst ihothers =>
    rw [Phrase.symbols, List.append_assoc]
    exact takes_of_rules ((ihfirst _).append (ihothers v))
  | plain factor ih => exact takes_of_rules (takes_alt.mpr (.inr (ih v)))
  | complement sign factor ih => exact takes_of_rules (takes_alt.mpr (.inl (sign.takes (ih v))))
  | last | selected => exact takes_many.mpr (.inl takes_nothing)
  | @joined rank operator operand others ihoperand ihothers =>
    rw [Phrase.symbols, List.cons_append, List.append_assoc]
    refine takes_many.mpr (.inr ?_)
    rw [List.append_assoc]
    exact operator.takes rank.operators_ne_nil exists_joins_iff ((ihoperand _).append (ihothers v))
  | literal value => exact takes_of_rules (takes_alt.mpr (.inl (value.takes (by simp) exists_represents_iff takes_nothing)))
  | set value ih => exact takes_of_rules (takes_alt.mpr (.inr (takes_alt.mpr (.inl (ih v)))))
  | typedSet type value ih =>
    rw [Phrase.symbols, List.append_assoc]
    refine takes_of_rules (takes_alt.mpr (.inr (takes_alt.mpr (.inr (takes_alt.mpr (.inl (takes_of_rules ?_)))))))
    exact takes_alt.mpr (.inr ((type.takes _).append (ih v)))
  | designated only ih =>
    refine takes_of_rules (takes_alt.mpr (.inr (takes_alt.mpr (.inr (takes_alt.mpr (.inl (takes_of_rules ?_)))))))
    exact takes_alt.mpr (.inl ((ih v).append (takes_alt.mpr (.inr takes_nothing))))
  | called head values ihhead ihvalues =>
    rw [Phrase.symbols, List.append_assoc]
    refine takes_of_rules (takes_alt.mpr (.inr (takes_alt.mpr (.inr (takes_alt.mpr (.inl (takes_of_rules ?_)))))))
    exact takes_alt.mpr (.inl ((ihhead _).append (takes_alt.mpr (.inl (ihvalues v)))))
  | parenthesized left inner right ih =>
    rw [Phrase.symbols, List.cons_append, List.append_assoc]
    refine takes_of_rules (takes_alt.mpr (.inr (takes_alt.mpr (.inr (takes_alt.mpr (.inr ?_))))))
    exact left.takes ((ih _).append (right.takes takes_nothing))
  | designator head selectors ih =>
    rw [Phrase.symbols, List.append_assoc]
    exact takes_of_rules ((head.takes _).append (ih v))
  | dereferenced caret others ih =>
    exact takes_many.mpr (.inr (Takes.append (takes_of_rules (takes_alt.mpr (.inl (caret.takes takes_nothing)))) (ih v)))
  | field dot name others ih =>
    refine takes_many.mpr (.inr (Takes.append (takes_of_rules (takes_alt.mpr (.inr (takes_alt.mpr (.inl ?_))))) (ih v)))
    exact dot.takes (name.takes takes_nothing)
  | indexed left indices right others ihindices ihothers =>
    rw [Phrase.symbols, List.cons_append, List.append_assoc]
    refine takes_many.mpr (.inr (Takes.append (takes_of_rules (takes_alt.mpr (.inr (takes_alt.mpr (.inr ?_))))) (ihothers v)))
    exact left.takes (takes_call.mpr ⟨_, ⟨x, ihindices _⟩, right.takes takes_nothing⟩)
  | noArguments left right => exact takes_of_rules (left.takes (takes_alt.mpr (.inr (right.takes takes_nothing))))
  | arguments left values right ih =>
    rw [Phrase.symbols, List.cons_append, List.append_assoc]
    exact takes_of_rules (left.takes (takes_alt.mpr (.inl (Takes.append (takes_of_rules (ih _)) (right.takes takes_nothing)))))
  | noElements left right => exact takes_of_rules (left.takes (takes_alt.mpr (.inr (right.takes takes_nothing))))
  | elements left values right ih =>
    rw [Phrase.symbols, List.cons_append, List.append_assoc]
    exact takes_of_rules (left.takes (takes_alt.mpr (.inl ((ih _).append (right.takes takes_nothing)))))
  | single value ih => exact takes_of_rules ((ih v).append (takes_alt.mpr (.inr takes_nothing)))
  | range low dots high ihlow ihhigh =>
    rw [Phrase.symbols, List.append_assoc]
    exact takes_of_rules ((ihlow _).append (takes_alt.mpr (.inl (dots.takes (ihhigh v)))))
  | one only ih => exact (ih v).append (takes_many.mpr (.inl takes_nothing))
  | more first comma others ihfirst ihothers =>
    rw [Phrase.symbols, List.append_assoc]
    exact (ihfirst _).append (takes_many.mpr (.inr (comma.takes (ihothers v))))

end

/-- What the grammar derives as an expression is what phrases derive. -/
theorem exists_derives_expression_iff {ctx : Context} {x : String} {w : List Symbol} :
    (∃ closings, Derives (Grammar.naming ctx).rules x [.call .expression] w closings) ↔
      ∃ e : Phrase .expression, e.symbols = w := by
  constructor
  · rintro ⟨closings, h⟩
    exact exists_phrase h
  · rintro ⟨e, rfl⟩
    have h : Takes (Grammar.naming ctx).rules x [.call .expression] (e.symbols ++ []) [] := e.takes []
    rw [List.append_nil] at h
    obtain ⟨closings, h, -⟩ := takes_all.mp h
    exact ⟨closings, h⟩

end Modula
