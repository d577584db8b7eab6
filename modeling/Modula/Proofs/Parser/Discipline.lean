import Modula.Parser.Module
import Modula.Proofs.Parser.Ensures

/-!
# Disciplines

Much of what holds of every parse can be told from what the parser has at hand: the tokens ahead, the symbol accepted
last, and whether anything has been reported since. A `Discipline` says which nodes are good and what may come of the
symbols; from that follows what it asks of each action (`Discipline.Asks`). It takes one walk through the productions to
see that none of them asks for more, in all disciplines there are (`Script.Follows`).
-/

set_option autoImplicit false

namespace Modula

namespace Code

/-- The warnings of a semicolon that should not be there. -/
def ofSemicolon : Code → Bool
  | .semicolonAfterFields | .semicolonAfterParameters | .semicolonAfterStatements => true
  | _ => false

/-- The warnings of a sequence without items. -/
def ofNoItems : Code → Bool
  | .emptyFields | .emptyStatements => true
  | _ => false

end Code

namespace NodeType

/-- The types of the nodes whose values are identifiers. -/
def identifying : List NodeType := [.ident, .qualident, .identList]

/-- The types of the nodes of records with variants. -/
def ofVariants : List NodeType :=
  [.variantRecord, .variantFieldListSequence, .variantFieldList, .variantList, .variant]

/-- The types of the nodes of records that can be extended or vary in size. -/
def ofExtensions : List NodeType := [.extensibleRecord, .varSizeRecord, .varSizeField]

/-- Whether nodes of the type are built in every context and whatever symbols come next. -/
def isPlain (t : NodeType) : Bool :=
  t ∉ ofVariants && t ∉ ofExtensions && t != .constParameter && t != .character

end NodeType

/-! ## What is at hand -/

/-- What the symbols accepted end in. -/
@[ext]
structure Trail where
  /-- The token of the symbol accepted last. -/
  last : Token
  /-- Whether the symbols end in a qualified identifier, or in a point of one. -/
  naming : Bool

/-- The trail at the start of a parse. -/
def Trail.outset : Trail := ⟨.unknown, false⟩

/-- What the symbols accepted end in after one more, if another one comes right after it. An identifier is the first part
of a qualified one unless it comes after a point. -/
def Trail.after (trail : Trail) (t second : Token) : Trail where
  last := t
  naming := t = .ident ∧ (trail.last = .dot → trail.naming) ∨ t = .dot ∧ second = .ident ∧ trail.naming

/-- What a symbol makes of a trail: an identifier starts a qualified one or goes on with it, and a point leads on to the
identifier right after it. -/
theorem Trail.naming_after {trail : Trail} {t second : Token} : (trail.after t second).naming = true ↔
    t = .ident ∧ (trail.last = .dot → trail.naming = true) ∨ t = .dot ∧ second = .ident ∧ trail.naming = true :=
  decide_eq_true_iff

/-- What a parse has at hand. -/
structure AtHand extends Trail where
  /-- The tokens ahead, malformed literals taken as well-formed. -/
  ahead : List Token
  /-- The lexeme of the symbol accepted last. -/
  lexeme : String
  /-- Whether a symbol has been accepted and nothing reported of the next one since. -/
  fresh : Prop

namespace AtHand

/-- The next token. -/
def next (v : AtHand) : Token := v.ahead.headD .eof

/-- The token right after the next one. -/
def second (v : AtHand) : Token := v.ahead.tail.headD .eof

/-- What is at hand once the next symbol has been accepted and the pragmas after it have been passed. -/
def accept (lexeme : String) (v : AtHand) : AtHand where
  toTrail := v.toTrail.after v.next v.second
  ahead := v.ahead.tail.dropWhile (· = .pragma)
  lexeme := lexeme
  fresh := True

/-- What is at hand after an action that has yielded something. -/
def after {α : Type} (v : AtHand) : Action α → α → AtHand
  | .accept, lexeme => v.accept lexeme
  | .reject _, _ | .warnNext _, _ => { v with fresh := False }
  | .lookahead, _ | .qualifies, _ | .enter _, _ | .warnAccepted _, _ | .rejectClosing _, _ | .skipped _, _
  | .build _, _ => v

/-- An identifier right after the next symbol is next once that symbol has been accepted. -/
theorem next_accept {v : AtHand} (h : v.second = .ident) (lexeme : String) : (v.accept lexeme).next = .ident := by
  unfold second at h
  unfold accept next
  dsimp only
  cases htail : v.ahead.tail with
  | nil => simp [htail] at h
  | cons t others =>
    obtain rfl : t = .ident := by simpa [htail] using h
    rfl

end AtHand

/-- What is said of a parse: which nodes it builds, and what may come of the symbols. -/
structure Discipline (ctx : Context) where
  /-- What holds of nodes. -/
  good : Node → Prop
  /-- The types of nodes that may be built. -/
  allowed : NodeType → Prop
  /-- What holds of identifiers. -/
  admitted : String → Prop
  /-- The tokens that may come next. -/
  offered : Token → Prop
  /-- Whether nothing more is said once a symbol has been rejected. -/
  strict : Prop
  plain {t : NodeType} (ht : t.isPlain = true) : allowed t
  variants (hctx : ctx.variantRecords = true) : ∀ t ∈ NodeType.ofVariants, allowed t
  extensions (hctx : ctx.variantRecords = false) : ∀ t ∈ NodeType.ofExtensions, allowed t
  constParameter (hctx : ctx.constParameters = true) : allowed .constParameter
  literal {t : Token} {type : NodeType} (ht : offered t) (h : Script.literal? t = some type) : allowed type
  offered_eof : offered .eof
  good_empty : good .empty
  good_branch {t : NodeType} {ns : List Node} {n : Node} (ht : allowed t) (hns : ∀ m ∈ ns, good m)
    (h : Node.ofBranch t ns = .ok n) : good n
  good_list {t : NodeType} {ns : List Node} {n : Node} (ht : allowed t) (hns : ∀ m ∈ ns, good m)
    (h : Node.ofList t ns = .ok n) : good n
  good_value {t : NodeType} {value : String} {n : Node} (ht : allowed t)
    (hvalue : t ∈ NodeType.identifying → admitted value) (h : Node.ofValue t value = .ok n) : good n
  good_values {t : NodeType} {values : List String} {n : Node} (ht : allowed t)
    (hvalues : ∀ value ∈ values, admitted value) (h : Node.ofValues t values = .ok n) : good n

namespace Discipline

variable {ctx : Context} (D : Discipline ctx) {α : Type}

/-- What has to be so for an action to be taken. A symbol is rejected only if it is none of those expected; what is
reported of the symbol accepted last is so, and comes before anything is reported of the next one; a qualified identifier
is gone on with only behind one. -/
def Asks : Action α → AtHand → Prop
  | .qualifies, v => D.strict → v.naming
  | .reject expected, v => expected.tokens ≠ [] ∧ v.next ∉ expected.tokens
  | .warnNext code, _ => code.ofNoItems = true
  | .warnAccepted code, v => code.ofSemicolon = true ∧ v.last = .semicolon ∧ v.fresh
  | .rejectClosing closing, v => v.lexeme = closing ∧ v.fresh
  | .build r, _ => ∀ n, r = .ok n → D.good n
  | .lookahead, _ | .accept, _ | .enter _, _ | .skipped _, _ => True

/-- What is so after an action, of what it has yielded. -/
def Grants : Action α → AtHand → α → Prop
  | .lookahead, v, t => t = v.next ∧ D.offered t
  | .qualifies, v, b => b = true → v.next = .dot ∧ v.second = .ident
  | .accept, v, lexeme => v.next = .ident → D.admitted lexeme
  | .reject _, _, _ => ¬D.strict
  | .build _, _, n => D.good n
  | .enter _, _, _ | .warnNext _, _, _ | .warnAccepted _, _, _ | .rejectClosing _, _, _ | .skipped _, _, _ => True

/-- No point was accepted last. A qualified identifier starts only where that is so. -/
def Calm (v : AtHand) : Prop := D.strict → v.last ≠ .dot

/-- What it takes to call a rule. Variant fields are called only where they may be built, and by their first token. -/
def Calls (rule : Rule) (t : Token) : Prop :=
  rule = .variantFields → t = .kwCase ∧ ∀ type ∈ NodeType.ofVariants, D.allowed type

/-- The discipline in every action and call. -/
def care : Abstraction AtHand where
  act action v Q := D.Asks action v ∧ ∀ a, D.Grants action v a → Q a (v.after action a)
  call rule v Q := D.Calls rule v.next ∧ D.Calm v ∧ ∀ n w, D.Calm w ∧ D.good n → Q n w
  progress _ _ := True
  act_mono hPQ h := ⟨h.1, fun a ha => hPQ a _ (h.2 a ha)⟩
  call_mono hPQ h := ⟨h.1, h.2.1, fun n w hn => hPQ n w (h.2.2 n w hn)⟩

end Discipline

namespace Script

variable {ctx : Context} {α β : Type}

/-- What a loop has come to has the property, whether it goes on or not. -/
def RoundOf (P : α → Prop) : ForInStep α → Prop
  | .done a | .yield a => P a

/-- With the token next, whatever else is at hand, a script obeys the discipline and comes to what it is said to. -/
def Obeys (D : Discipline ctx) (t : Token) (script : Script α) (Q : α → AtHand → Prop) : Prop :=
  ∀ v, D.Calm v → v.next = t → script.Ensures D.care v Q

/-- With the token next, a script obeys the discipline, and what it yields has the property. -/
abbrev Follows (D : Discipline ctx) (t : Token) (script : Script α) (P : α → Prop) : Prop :=
  script.Obeys D t fun a w => D.Calm w ∧ P a

namespace Obeys

variable {D : Discipline ctx} {t : Token} {P : β → Prop} {Q : β → AtHand → Prop} {c d : Script β}

/-- A part of a script may leave any token next, and any node that is good, so the rest has to obey the discipline
whatever has come of the part. -/
theorem bind {P : α → Prop} {first : Script α} {next : α → Script β} (hfirst : first.Follows D t P)
    (h : ∀ a, P a → ∀ {u}, (next a).Obeys D u Q) : (first >>= next).Obeys D t Q :=
  fun v hv ht => ensures_bind.mpr ((hfirst v hv ht).mono fun a w ha => h a ha.2 w ha.1 rfl)

/-- What is at hand stays so if nothing is done. -/
theorem pure {b : β} (h : P b) : (Pure.pure b : Script β).Follows D t P := fun _ hv _ => ⟨hv, h⟩

/-- A part that is at hand. -/
theorem given {a : α} {next : α → Script β} (h : (next a).Obeys D t Q) : (Pure.pure a >>= next).Obeys D t Q := h

/-- A round that ends a loop. -/
theorem done {b : β} (h : P b) : (Pure.pure (.done b) : Script (ForInStep β)).Follows D t (RoundOf P) :=
  fun _ hv _ => ⟨hv, h⟩

/-- A round after which a loop goes on. -/
theorem yield {b : β} (h : P b) : (Pure.pure (.yield b) : Script (ForInStep β)).Follows D t (RoundOf P) :=
  fun _ hv _ => ⟨hv, h⟩

/-- Both branches obey the discipline under what led to them. -/
theorem ite {p : Prop} [Decidable p] (hc : p → c.Obeys D t Q) (hd : ¬p → d.Obeys D t Q) :
    (if p then c else d).Obeys D t Q := by
  split
  · next hp => exact hc hp
  · next hp => exact hd hp

end Obeys

end Script

/-! ## Expected tokens -/

/-- A single expected token is the only one. -/
@[simp] theorem Expected.tokens_token (t : Token) : (Expected.token t).tokens = [t] := rfl

/-- The tokens expected are those of the set. -/
@[simp] theorem Expected.tokens_ofSet (s : TokenSet) : (Expected.ofSet s).tokens = s.toList := by
  unfold ofSet
  split
  · next t ht => rw [ht, tokens_token]
  · rfl

namespace Production

variable {ctx : Context} {p : Production} {t : Token}

/-- Some token can come first in every production. -/
@[simp] theorem toList_first_ne_nil (ctx : Context) (p : Production) : (p.first ctx).toList ≠ [] := by
  have hall : ∀ ctx ∈ Context.all, ∀ p ∈ all, (p.first ctx).toList ≠ [] := by decide
  exact hall ctx ctx.mem_all p p.mem_all

/-- No production but a selector starts with a point. -/
theorem ne_dot_of_first (h : (p.first ctx).contains t = true) (hp : p ≠ .selector) : t ≠ .dot := by
  have hall : ∀ ctx ∈ Context.all, ∀ p ∈ all, p ≠ .selector → (p.first ctx).contains .dot = false := by decide
  rintro rfl
  rw [hall ctx ctx.mem_all p p.mem_all hp] at h
  cases h

/-- An attribute comes first with `CONST` only if that is an attribute. -/
theorem constParameters_of_first (h : (attributedFormalType.first ctx).contains .kwConst = true) :
    ctx.constParameters = true := by
  rw [first] at h
  split at h
  · next hctx => exact hctx
  · exact absurd h (by decide)

/-- Only where records can be extended may a declared type start like no other type. -/
theorem variantRecords_of_first (htype : ¬(typeExpression.first ctx).contains t = true)
    (htail : (typeDeclarationTail.first ctx).contains t = true) : ctx.variantRecords = false := by
  rw [first] at htail
  split at htail
  · exact (htype htail).elim
  · next hctx => exact eq_false_of_ne_true hctx

end Production

namespace Discipline

open Script

variable {ctx : Context} (D : Discipline ctx) {t : Token}
variable {α β : Type} {P : β → Prop} {Q : β → AtHand → Prop} {c d : Script β}

/-- A discipline that is not strict does not mind points. -/
theorem calm_of_lax (h : ¬D.strict) (v : AtHand) : D.Calm v := fun hstrict => (h hstrict).elim

/-- What holds at the start of a loop and after every round holds at its end. -/
theorem loop {first : β} {step : β → Script (ForInStep β)} (hfirst : P first)
    (hstep : ∀ b, P b → ∀ {u}, (step b).Follows D u (RoundOf P)) : (Script.loop first step).Follows D t P := by
  refine fun v hv _ => ⟨fun b w => D.Calm w ∧ P b, ⟨hv, hfirst⟩, fun b w hb => (hstep b hb.2 w hb.1 rfl).mono ?_⟩
  rintro (b | b) w hb
  · exact hb
  · exact ⟨hb, trivial⟩

/-! ## Looking and accepting

Each lemma is about a script that starts in one way, so that a production is followed from its start to its end.
-/

/-- Entering a production asks for nothing. -/
theorem enter {p : Production} {next : Unit → Script β} (h : (next ()).Obeys D t Q) :
    (Script.enter p >>= next).Obeys D t Q := fun v hv ht => ⟨trivial, fun _ _ => h v hv ht⟩

/-- A script may look at the next token, which is one of those offered. -/
theorem lookahead {next : Token → Script β} (h : D.offered t → (next t).Obeys D t Q) :
    (Script.lookahead >>= next).Obeys D t Q := by
  intro v hv ht
  refine ⟨trivial, ?_⟩
  rintro u ⟨rfl, hoffered⟩
  subst ht
  exact h hoffered v hv rfl

/-- A test, whose outcome may decide only how a part is found that the rest goes on with. -/
theorem test {u : Token} {next : Bool → Script β} (h : ∀ b, (b = true ↔ t = u) → (next b).Obeys D t Q) :
    (Script.nextIs u >>= next).Obeys D t Q :=
  show (Script.lookahead >>= fun t => next (decide (t = u))).Obeys D t Q from
    D.lookahead fun _ => h _ decide_eq_true_iff

/-- A test of whether a production starts here, whose outcome may decide only how a part is found. -/
theorem testStarts {p : Production} {next : Bool → Script β}
    (h : ∀ b, (b = true ↔ (p.first ctx).contains t = true) → (next b).Obeys D t Q) :
    (Script.starts ctx p >>= next).Obeys D t Q :=
  show (Script.lookahead >>= fun t => next ((p.first ctx).contains t)).Obeys D t Q from
    D.lookahead fun _ => h _ Iff.rfl

/-- A branch on the next token, with that token next or any other. -/
theorem nextIs {u : Token} (hc : c.Obeys D u Q) (hd : t ≠ u → d.Obeys D t Q) :
    (Script.nextIs u >>= fun b => if b = true then c else d).Obeys D t Q := by
  refine D.test fun b hb => .ite (fun h => ?_) fun h => hd fun ht => h (hb.mpr ht)
  obtain rfl := hb.mp h
  exact hc

/-- A branch on whether a production starts here. -/
theorem starts {p : Production} (hc : (p.first ctx).contains t = true → c.Obeys D t Q)
    (hd : ¬(p.first ctx).contains t = true → d.Obeys D t Q) :
    (Script.starts ctx p >>= fun b => if b = true then c else d).Obeys D t Q :=
  D.testStarts fun _ hb => .ite (fun h => hc (hb.mp h)) fun h => hd fun ht => h (hb.mpr ht)

/-- A script may accept any symbol but a point, and knows of an identifier that it is admitted. -/
theorem accept {next : String → Script β} (ht : t ≠ .dot)
    (h : ∀ lexeme, (t = .ident → D.admitted lexeme) → ∀ {u}, (next lexeme).Obeys D u Q) :
    (Script.accept >>= next).Obeys D t Q := by
  rintro v - rfl
  exact ⟨trivial, fun lexeme hlexeme => h lexeme hlexeme _ (fun _ => ht) rfl⟩

/-- A symbol is accepted whose characters do not matter. -/
theorem skip {next : Unit → Script β} (ht : t ≠ .dot) (h : ∀ {u}, (next ()).Obeys D u Q) :
    (Script.skip >>= next).Obeys D t Q :=
  show (Script.accept >>= fun _ => next ()).Obeys D t Q from D.accept ht fun _ _ => h

/-- After any symbol but a point a qualified identifier may start. -/
theorem skipped (ht : t ≠ .dot) : Script.skip.Follows D t fun _ => True := by
  rintro v - rfl
  exact ⟨trivial, fun _ _ => ⟨fun _ => ht, trivial⟩⟩

/-- A rule may be called by its first token, and yields a good node. -/
theorem call {rule : Rule} {next : Node → Script β} (hrule : D.Calls rule t)
    (h : ∀ n, D.good n → ∀ {u}, (next n).Obeys D u Q) : (Script.call rule >>= next).Obeys D t Q := by
  rintro v hv rfl
  exact ⟨hrule, hv, fun n w hn => h n hn.2 w hn.1 rfl⟩

/-- A part that a rule yields. -/
theorem called {rule : Rule} (hrule : D.Calls rule t) : (Script.call rule).Follows D t D.good := by
  rintro v hv rfl
  exact ⟨hrule, hv, fun n w hn => hn⟩

/-! ## Reporting -/

/-- A warning about the next symbol is of missing items. -/
theorem warnNext {code : Code} {next : Unit → Script β} (hcode : code.ofNoItems = true) (h : (next ()).Obeys D t Q) :
    (Script.act (.warnNext code) >>= next).Obeys D t Q := fun _ hv ht => ⟨hcode, fun _ _ => h _ hv ht⟩

/-- A symbol is rejected when it is none of those expected; under a strict discipline nothing is said of what follows.
-/
theorem reject {expected : Expected} {next : Unit → Script β} (hsome : expected.tokens ≠ [])
    (hother : t ∉ expected.tokens) (h : ¬D.strict → (next ()).Obeys D t Q) :
    (Script.act (.reject expected) >>= next).Obeys D t Q := by
  rintro v hv rfl
  exact ⟨⟨hsome, hother⟩, fun _ hlax => h hlax _ hv rfl⟩

/-- Nothing is asked of skipping symbols, nor is anything said of what is at hand then. -/
theorem ensures_skipTo {set : TokenSet} {v : AtHand} {Q : Unit → AtHand → Prop} (h : ∀ w, Q () w) :
    (skipTo set).Ensures D.care v Q := by
  refine ensures_bind.mpr ⟨fun _ _ => True, trivial, fun n w _ => ⟨trivial, fun t _ => ensures_ite.mpr ⟨?_, ?_⟩⟩⟩
  · exact fun _ => ⟨trivial, fun _ _ => h _⟩
  · exact fun _ => ⟨trivial, fun _ _ => ⟨trivial, trivial⟩⟩

/-- A token that is demanded is accepted, or another one is rejected. -/
theorem ensures_demand {u : Token} {resume : TokenSet} {v : AtHand} {Q : Option String → AtHand → Prop}
    (hfound : ∀ lexeme, v.next = u → (u = .ident → D.admitted lexeme) → Q (some lexeme) (v.accept lexeme))
    (hnone : ¬D.strict → ∀ w, Q none w) : (demand u resume).Ensures D.care v Q := by
  refine ⟨trivial, ?_⟩
  rintro t ⟨rfl, -⟩
  refine ensures_ite.mpr ⟨fun ht => ?_, fun ht => ?_⟩
  · obtain rfl : v.next = u := by simpa using ht
    exact ⟨trivial, fun lexeme hlexeme => hfound lexeme rfl hlexeme⟩
  · refine ⟨⟨by simp, fun hmem => ht (decide_eq_true (List.mem_singleton.mp hmem))⟩, fun _ hlax => ?_⟩
    exact ensures_bind.mpr (D.ensures_skipTo (hnone hlax))

/-- After symbols have been skipped the discipline cannot be strict. -/
theorem skipTo {set : TokenSet} {next : Unit → Script β} (hlax : ¬D.strict) (h : ∀ {u}, (next ()).Obeys D u Q) :
    (Script.skipTo set >>= next).Obeys D t Q :=
  fun _ _ _ => ensures_bind.mpr (D.ensures_skipTo fun w => h w (D.calm_of_lax hlax w) rfl)

/-- A demand, with what follows in each case. -/
theorem expect {u : Token} {resume : TokenSet} {next : Bool → Script β} (hu : u ≠ .dot)
    (h : ∀ b {t}, (next b).Obeys D t Q) : (Script.expect u resume >>= next).Obeys D t Q := by
  refine fun v _ _ => ensures_bind.mpr (ensures_bind.mpr (D.ensures_demand (fun lexeme hnext _ => ?_) fun hlax w => ?_))
  · exact h _ _ (fun _ => hnext.trans_ne hu) rfl
  · exact h _ _ (D.calm_of_lax hlax w) rfl

/-- An identifier is demanded even where a point was accepted last. -/
theorem ensures_ident {resume : TokenSet} (v : AtHand) : (Script.expectIdent resume).Ensures D.care v
    fun ident w => D.Calm w ∧ ∀ lexeme ∈ ident, D.admitted lexeme := by
  refine D.ensures_demand (fun lexeme hnext hlexeme => ⟨?_, ?_⟩) fun hlax w => ⟨D.calm_of_lax hlax w, nofun⟩
  · exact fun _ => hnext.trans_ne nofun
  · simpa using hlexeme

/-- An identifier that is demanded is admitted, if one is found. -/
theorem ident {resume : TokenSet} :
    (Script.expectIdent resume).Follows D t fun ident => ∀ lexeme ∈ ident, D.admitted lexeme :=
  fun v _ _ => D.ensures_ident v

/-- A script may demand an identifier, and goes on whether one is found or not. -/
theorem expectIdent {resume : TokenSet} {next : Option String → Script β}
    (h : ∀ ident, (∀ lexeme ∈ ident, D.admitted lexeme) → ∀ {u}, (next ident).Obeys D u Q) :
    (Script.expectIdent resume >>= next).Obeys D t Q := .bind D.ident h

/-- A point before a field is accepted, and then the field is demanded. -/
theorem selects {resume : TokenSet} {next : Option String → Script β}
    (h : ∀ ident, (∀ lexeme ∈ ident, D.admitted lexeme) → ∀ {u}, (next ident).Obeys D u Q) :
    (Script.skip >>= fun _ => Script.expectIdent resume >>= next).Obeys D .dot Q := by
  refine fun v _ _ => ⟨trivial, fun point _ => ensures_bind.mpr ((D.ensures_ident _).mono fun ident w hw => ?_)⟩
  exact h ident hw.2 w hw.1 rfl

/-- A closing identifier is compared as soon as it has been accepted. -/
theorem closing {resume : TokenSet} {opening : Option String} {next : Option String → Unit → Script β}
    (h : ∀ closing {u}, (next closing ()).Obeys D u Q) :
    (Script.expectIdent resume >>= fun closing => checkClosing opening closing >>= next closing).Obeys D t Q := by
  refine fun v _ _ => ensures_bind.mpr (D.ensures_demand (fun lexeme hnext _ => ?_) fun hlax w => ?_)
  · have hcalm : D.Calm (v.accept lexeme) := fun _ => hnext.trans_ne nofun
    unfold checkClosing
    split
    · next opening closing hclosing =>
      cases hclosing
      refine ensures_bind.mpr (ensures_ite.mpr ⟨fun _ => h _ _ hcalm rfl, fun _ => ⟨⟨rfl, trivial⟩, fun _ _ => ?_⟩⟩)
      exact h _ _ hcalm rfl
    · exact h _ _ hcalm rfl
  · unfold checkClosing
    split
    · next hclosing => cases hclosing
    · exact h _ _ (D.calm_of_lax hlax w) rfl

/-- Where no alternative of a production starts, the symbol is none of those expected. -/
theorem noAlternative {p : Production} (h : ¬(p.first ctx).contains t = true) :
    (Script.noAlternative ctx p).Follows D t D.good := by
  refine D.reject (by simp) (by simpa [TokenSet.mem_toList] using h) fun hlax => ?_
  exact D.skipTo hlax (.pure D.good_empty)

/-- Between a semicolon and the warning of it the parser only looks ahead. -/
theorem errant {code : Code} {follow : TokenSet} (hcode : code.ofSemicolon = true) (hc : ∀ {u}, c.Obeys D u Q)
    (hd : ∀ {u}, ¬follow.contains u = true → d.Obeys D u Q) :
    (Script.skip >>= fun _ => Script.lookahead >>= fun t =>
      if follow.contains t = true then Script.act (.warnAccepted code) >>= fun _ => c else d).Obeys D .semicolon Q := by
  intro v _ hv
  have hcalm : ∀ lexeme, D.Calm (v.accept lexeme) := fun lexeme _ => hv.trans_ne nofun
  refine ⟨trivial, fun lexeme _ => ⟨trivial, ?_⟩⟩
  rintro t ⟨rfl, -⟩
  refine ensures_ite.mpr ⟨fun _ => ⟨⟨hcode, hv, trivial⟩, fun _ _ => hc _ (hcalm _) rfl⟩, fun hfollow => ?_⟩
  exact hd hfollow _ (hcalm _) rfl

/-! ## Building nodes -/

/-- A script that builds a node and does nothing else. -/
def Builds (script : Script Node) : Prop := ∀ v, script.Ensures D.care v fun n w => w = v ∧ D.good n

variable {type : NodeType} {ns : List Node}

/-- Building a node leaves what is at hand. -/
theorem Builds.follows {D : Discipline ctx} {script : Script Node} (h : D.Builds script) :
    script.Follows D t D.good := by
  refine fun v hv _ => (h v).mono ?_
  rintro n w ⟨rfl, hn⟩
  exact ⟨hv, hn⟩

/-- The empty node is good under every discipline. -/
theorem builds_empty : D.Builds (Pure.pure .empty) := fun _ => ⟨rfl, D.good_empty⟩

/-- A branch of good nodes is good if its type may be built. -/
theorem builds_branch (htype : D.allowed type) (h : ∀ n ∈ ns, D.good n) : D.Builds (Script.branch type ns) :=
  fun _ => ⟨fun _ hn => D.good_branch htype h hn, fun _ hn => ⟨rfl, hn⟩⟩

/-- So is a list of good nodes, from which empty ones are left out. -/
theorem builds_list (htype : D.allowed type) (h : ∀ n ∈ ns, D.good n) : D.Builds (Script.list type ns) := by
  unfold Script.list
  split
  · exact D.builds_empty
  · refine fun _ => ⟨fun _ hn => D.good_list htype (fun n hmem => ?_) hn, fun _ hn => ⟨rfl, hn⟩⟩
    exact h n (List.mem_filter.mp hmem).1

/-- An identifier that is admitted makes a good node. -/
theorem builds_terminal {value : String} (h : D.admitted value) : D.Builds (Script.terminal .ident value) :=
  fun _ => ⟨fun _ hn => D.good_value (D.plain (t := .ident) rfl) (fun _ => h) hn, fun _ hn => ⟨rfl, hn⟩⟩

/-- So does one that was demanded; where it is missing the node is empty. -/
theorem builds_identNode {ident : Option String} (h : ∀ lexeme ∈ ident, D.admitted lexeme) :
    D.Builds (Script.identNode ident) := by
  cases ident with
  | none => exact D.builds_empty
  | some lexeme => exact D.builds_terminal (h lexeme rfl)

/-- An empty node stands for a part that is missing. -/
theorem empty : (Pure.pure .empty : Script Node).Follows D t D.good := D.builds_empty.follows

/-- A branch whose type may be built under the discipline. -/
theorem branchOf (htype : D.allowed type) (h : ∀ n ∈ ns, D.good n) : (Script.branch type ns).Follows D t D.good :=
  (D.builds_branch htype h).follows

/-- A list whose type may be built under the discipline. -/
theorem listOf (htype : D.allowed type) (h : ∀ n ∈ ns, D.good n) : (Script.list type ns).Follows D t D.good :=
  (D.builds_list htype h).follows

/-- A branch of a type that every discipline allows. -/
theorem branch (htype : type.isPlain = true) (h : ∀ n ∈ ns, D.good n) : (Script.branch type ns).Follows D t D.good :=
  D.branchOf (D.plain htype) h

/-- A list of a type that every discipline allows. -/
theorem list (htype : type.isPlain = true) (h : ∀ n ∈ ns, D.good n) : (Script.list type ns).Follows D t D.good :=
  D.listOf (D.plain htype) h

/-- A node of one identifier. -/
theorem terminal {value : String} (h : D.admitted value) : (Script.terminal .ident value).Follows D t D.good :=
  (D.builds_terminal h).follows

/-- A node of several identifiers, or an empty one if there are none. -/
theorem terminals {values : List String} (htype : type.isPlain = true) (h : ∀ value ∈ values, D.admitted value) :
    (Script.terminals type values).Follows D t D.good := by
  refine .ite (fun _ => D.empty) fun _ _ hv _ => ⟨fun _ hn => ?_, fun _ hn => ⟨hv, hn⟩⟩
  exact D.good_values (D.plain htype) h hn

/-- A node of the identifier that was demanded. -/
theorem identNode {ident : Option String} (h : ∀ lexeme ∈ ident, D.admitted lexeme) :
    (Script.identNode ident).Follows D t D.good := (D.builds_identNode h).follows

/-- Where a token is missing, a node is missing. -/
theorem orEmpty {u : Token} {resume : TokenSet} {c : Script Node} (hu : u ≠ .dot) (h : ∀ {t}, c.Follows D t D.good) :
    (Script.expect u resume >>= fun b => if b = true then c else Pure.pure .empty).Follows D t D.good :=
  D.expect hu fun _ => .ite (fun _ => h) fun _ => D.empty

/-! ## Rows of items -/

variable {P : α → Prop} {item : Script α}

/-- Each item is followed in turn, and a separator that is found leads to another one. -/
theorem separated {separator : Token} (hseparator : separator ≠ .dot) (hitem : ∀ {u}, item.Follows D u P) :
    (Script.separated separator item).Follows D t fun as => ∀ a ∈ as, P a := by
  refine .bind hitem fun first hfirst => .bind (D.loop (P := fun as => ∀ a ∈ as, P a) (by simpa using hfirst) ?_) ?_
  · refine fun as has => D.nextIs (D.skip hseparator (.bind hitem fun a ha => .yield ?_)) fun _ => .done has
    simpa using ⟨ha, has⟩
  · exact fun as has => .pure (by simpa using has)

/-- Items are followed as long as their production starts here. -/
theorem whileStarts {p : Production} (hitem : ∀ {u}, (p.first ctx).contains u = true → item.Follows D u P) :
    (Script.whileStarts ctx p item).Follows D t fun as => ∀ a ∈ as, P a := by
  refine .bind (D.loop (P := fun as => ∀ a ∈ as, P a) (by simp) fun as has => ?_) fun as has =>
    .pure (by simpa using has)
  refine D.starts (fun hu => .bind (hitem hu) fun a ha => .yield ?_) fun _ => .done has
  simpa using ⟨ha, has⟩

variable {item : Script Node} {P : Node → Prop}

/-- Items may be missing between bars, or anywhere else. -/
theorem barred {p : Production} (hitem : ∀ {u}, item.Follows D u P) :
    (Script.barred ctx p item).Follows D t fun ns => ∀ n ∈ ns, P n := by
  refine .bind (D.loop (P := fun ns => ∀ n ∈ ns, P n) (by simp) fun ns hns => ?_) fun ns hns =>
    .pure (by simpa using hns)
  refine D.testStarts fun more _ => ?_
  extract_lets rest
  have hrest : ∀ ns : List Node, (∀ n ∈ ns, P n) → ∀ {u}, (rest ns).Follows D u (RoundOf fun ns => ∀ n ∈ ns, P n) :=
    fun ns hns _ => D.nextIs (D.skip nofun (.yield hns)) fun _ => .done hns
  split
  · refine .bind hitem fun n hn => .given (hrest _ ?_)
    simpa using ⟨hn, hns⟩
  · exact .given (hrest ns hns)

/-- A semicolon leads to another item, unless what follows tells that it is one too many. -/
theorem semicolonSeparated {follow : TokenSet} {code : Code} (hcode : code.ofSemicolon = true)
    (hitem : ∀ {u}, item.Follows D u P) :
    (Script.semicolonSeparated follow code item).Follows D t fun ns => ∀ n ∈ ns, P n := by
  refine .bind hitem fun first hfirst => .bind (D.loop (P := fun ns => ∀ n ∈ ns, P n) (by simpa using hfirst) ?_) ?_
  · refine fun ns hns => D.nextIs (D.errant hcode (.done hns) fun _ => .bind hitem fun n hn => .yield ?_) fun _ =>
      .done hns
    simpa using ⟨hn, hns⟩
  · exact fun ns hns => .pure (by simpa using hns)

/-! ## Identifiers -/

/-- All identifiers that are found in the list are admitted. -/
theorem identList : (Script.identList ctx).Follows D t D.good := by
  refine D.enter (.bind (D.separated nofun D.ident) fun idents hidents => D.terminals rfl fun ident hident => ?_)
  obtain ⟨found, hfound, hsome⟩ := List.mem_filterMap.mp hident
  exact hidents found hfound ident hsome

/-- With an identifier accepted that does not come after a point, a qualified identifier is gone on with. -/
theorem ensures_parts {first : String} {v : AtHand} (hfirst : D.admitted first) (hlast : v.last = .ident)
    (hnaming : D.strict → v.naming) :
    (Script.loop [first] fun parts => do
      unless ← Script.act .qualifies do return ForInStep.done parts
      Script.skip
      return .yield ((← Script.accept) :: parts)).Ensures D.care v fun parts w =>
        D.Calm w ∧ ∀ part ∈ parts, D.admitted part := by
  refine ⟨fun parts w => (∀ part ∈ parts, D.admitted part) ∧ w.last = .ident ∧ (D.strict → w.naming),
    ⟨by simpa using hfirst, hlast, hnaming⟩, fun parts w hw => ?_⟩
  obtain ⟨hparts, hlast, hnaming⟩ := hw
  refine ⟨hnaming, fun b hb => ensures_ite.mpr ⟨fun hqualifies => ?_, fun _ => ⟨fun _ => hlast.trans_ne nofun, hparts⟩⟩⟩
  obtain ⟨hdot, hident⟩ := hb hqualifies
  refine ⟨trivial, fun point _ => ⟨trivial, fun part hpart => ⟨⟨?_, ?_, ?_⟩, trivial⟩⟩⟩
  · exact List.forall_mem_cons.mpr ⟨hpart (AtHand.next_accept hident point), hparts⟩
  · exact AtHand.next_accept hident point
  · intro hstrict
    have hpoint : (w.accept point).naming = true := Trail.naming_after.mpr (.inr ⟨hdot, hident, hnaming hstrict⟩)
    exact Trail.naming_after.mpr (.inl ⟨AtHand.next_accept hident point, fun _ => hpoint⟩)

/-- A qualified identifier asks for its next part only behind the parts before it, and never behind a point. -/
theorem qualident : (Script.qualident ctx).Follows D t D.good := by
  refine D.enter fun v hv _ => ensures_bind.mpr (D.ensures_demand (fun first hnext hfirst => ?_) fun hlax w => ?_)
  · have hparts := D.ensures_parts (v := v.accept first) (hfirst rfl) hnext fun hstrict =>
      Trail.naming_after.mpr (.inl ⟨hnext, fun hlast => (hv hstrict hlast).elim⟩)
    refine ensures_bind.mpr (hparts.mono fun parts w hw => ?_)
    obtain ⟨hcalm, hparts⟩ := hw
    split
    · exact D.terminal (hparts _ (by simp)) w hcalm rfl
    · exact D.terminals rfl (fun part hpart => hparts part (List.mem_reverse.mp hpart)) w hcalm rfl
  · exact ⟨D.calm_of_lax hlax w, D.good_empty⟩

end Discipline

end Modula
