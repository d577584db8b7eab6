import Modula.Proofs.Grammar.Lookahead
import Modula.Proofs.Parser.Ensures
import Modula.Proofs.Tree.Building

/-!
# Scripts that parse rows of the grammar

A script parses a row of the grammar if it takes what the row derives, and nothing else. That is two statements about
the symbols ahead: what it takes without a report is derived by the row (`sounding`), and if they start with a text
that the row derives, then it takes that text without a report (`completing`). For the latter, one token has to be
enough for each choice in the row, and the script may have to know something of the first symbols. `Parses` holds both,
and follows a script from its start to its end, together with the row that it parses.
-/

set_option autoImplicit false

namespace Modula

/-- The production of a rule. -/
def Rule.production : Rule → Production
  | .expression => .expression
  | .typeExpression => .typeExpression
  | .variantFields => .variantFields
  | .statementSequence => .statementSequence
  | .block => .block

/-- What has to be ahead when a rule is called. -/
def Rule.IsReady (g : Grammar) : Rule → List Symbol → Prop
  | .variantFields, v => g.context.variantRecords = true ∧ firstToken v = .kwCase
  | _, _ => True

/-- A production takes the symbols `v` to `u`, whatever name the text has. -/
def Grammar.Takes (g : Grammar) (p : Production) (v u : List Symbol) : Prop := ∃ x, Modula.Takes g.rules x (g.rules p) v u

/-- What an action has to establish if the symbols ahead are well-formed and no pragmas. Something may be rejected
only if that is allowed, and so may the type of a set value if the grammar asks for a name. Where it is allowed, there
may be pragmas between the symbols, and then a point with an identifier after it does not have to qualify. -/
def Action.shows (g : Grammar) (mayReject : Prop) {α : Type} : Action α → List Symbol → (α → List Symbol → Prop) → Prop
  | .lookahead, v, Q => Q (firstToken v) v
  | .qualifies, v, Q =>
    Q (decide (firstToken v = .dot ∧ firstToken v.tail = .ident)) v ∧ (mayReject → Q false v)
  | .accept, v, Q => ∀ lexeme, (∀ s ∈ v.head?, lexeme = s.lexeme) → Q lexeme v.tail
  | .enter _, v, Q | .skipped _, v, Q => Q () v
  | .reject _, _, _ | .rejectClosing _, _, _ => mayReject
  | .warnNext code, v, Q | .warnAccepted code, v, Q => code.isError = false ∧ Q () v
  | .build (.ok node), v, Q => Q node v
  | .build (.error e), v, Q =>
    (g.namesSetTypes = true ∧ e.OfSelectedSetType → mayReject) ∧ (¬ (g.namesSetTypes = true ∧ e.OfSelectedSetType) → Q .empty v)

/-- What an action is said to do may be said with less. -/
theorem Action.shows_mono {g : Grammar} {mayReject : Prop} {α : Type} {action : Action α} {v : List Symbol}
    {P Q : α → List Symbol → Prop} (hPQ : ∀ a w, P a w → Q a w) (h : action.shows g mayReject v P) :
    action.shows g mayReject v Q := by
  cases action with
  | lookahead => exact hPQ _ _ h
  | qualifies => exact ⟨hPQ _ _ h.1, fun hm => hPQ _ _ (h.2 hm)⟩
  | accept => exact fun lexeme hlexeme => hPQ lexeme _ (h lexeme hlexeme)
  | enter p | skipped n => exact hPQ () v h
  | reject expected | rejectClosing closing => exact h
  | warnNext code | warnAccepted code => exact ⟨h.1, hPQ () v h.2⟩
  | build node =>
    cases node with
    | ok node => exact hPQ node v h
    | error e => exact ⟨h.1, fun he => hPQ .empty v (h.2 he)⟩

/-- What is taken has to be derived. Rules take what their productions do. -/
def sounding (g : Grammar) : Abstraction (List Symbol) where
  act := Action.shows g True
  call rule v Q := rule.IsReady g v ∧ ∀ node u, g.Takes rule.production v u → Q node u
  progress _ _ := True
  act_mono := Action.shows_mono
  call_mono hPQ h := ⟨h.1, fun node u hu => hPQ node u (h.2 node u hu)⟩

/-- What is derived has to be taken, and nothing rejected. Rules take what their productions do if it ends properly. -/
def completing (g : Grammar) : Abstraction (List Symbol) where
  act := Action.shows g False
  call rule v Q := rule.IsReady g v ∧ ∃ u, g.Takes rule.production v u ∧
    (rule.production.ends g.context).contains (firstToken u) = true ∧ ∀ node, Q node u
  progress _ _ := True
  act_mono := Action.shows_mono
  call_mono hPQ h := ⟨h.1, h.2.imp fun u hu => ⟨hu.1, hu.2.1, fun node => hPQ node u (hu.2.2 node)⟩⟩

/-- An abstraction in which actions show what they show of the symbols ahead, whatever may be rejected. -/
def Abstraction.Shows (A : Abstraction (List Symbol)) (g : Grammar) : Prop :=
  ∃ mayReject : Prop, ∀ {α : Type} (action : Action α) (v : List Symbol) (Q : α → List Symbol → Prop),
    action.shows g mayReject v Q → A.act action v Q

/-- Where errors may be reported, actions still do what is said of them. -/
theorem shows_sounding {g : Grammar} : (sounding g).Shows g := ⟨True, fun _ _ _ h => h⟩

/-- So they do where errors must not be. -/
theorem shows_completing {g : Grammar} : (completing g).Shows g := ⟨False, fun _ _ _ h => h⟩

namespace Abstraction.Shows

variable {A : Abstraction (List Symbol)} {g : Grammar} {v : List Symbol}

/-- What is looked at is the first token ahead. -/
theorem lookahead (hA : A.Shows g) {Q : Token → List Symbol → Prop} (h : Q (firstToken v) v) : A.act .lookahead v Q := by
  obtain ⟨mayReject, hA⟩ := hA
  exact hA .lookahead v Q h

/-- What is accepted is the first symbol ahead. -/
theorem accept (hA : A.Shows g) {Q : String → List Symbol → Prop}
    (h : ∀ lexeme, (∀ s ∈ v.head?, lexeme = s.lexeme) → Q lexeme v.tail) : A.act .accept v Q := by
  obtain ⟨mayReject, hA⟩ := hA
  exact hA .accept v Q h

end Abstraction.Shows

namespace Script

/-- A script parses a row as a part of something that has the name `x`, if `known` holds of the symbols ahead. Its
result is as `R` says. -/
structure Parses (g : Grammar) (x : String) (known : List Symbol → Prop) {α : Type} (script : Script α)
    (es : List Ebnf) (R : α → Prop) : Prop where
  sound (v : List Symbol) : known v → script.Ensures (sounding g) v fun a u => Takes g.rules x es v u ∧ R a
  complete (after : TokenSet) (v u : List Symbol) : decides g.context es after = true → known v →
    Takes g.rules x es v u → after.contains (firstToken u) = true →
    script.Ensures (completing g) v fun a w => w = u ∧ R a

variable {g : Grammar} {x : String} {known known' : List Symbol → Prop} {α β : Type} {script : Script α}
  {es es' a b : List Ebnf} {R R' : α → Prop} {S : β → Prop}

/-- The same where one of the tokens of a set is known to come after the text of the row, so that nothing has to be said
about the choices in it. -/
structure ParsesBefore (g : Grammar) (x : String) (after : TokenSet) (known : List Symbol → Prop) {α : Type}
    (script : Script α) (es : List Ebnf) (R : α → Prop) : Prop where
  sound (v : List Symbol) : known v → script.Ensures (sounding g) v fun a u => Takes g.rules x es v u ∧ R a
  complete (v u : List Symbol) : known v → Takes g.rules x es v u → after.contains (firstToken u) = true →
    script.Ensures (completing g) v fun a w => w = u ∧ R a

/-- A row that is decided by the tokens after it is read whatever they are. -/
theorem Parses.before (h : Parses g x known script es R) {after : TokenSet} (hdecides : decides g.context es after = true) :
    ParsesBefore g x after known script es R :=
  ⟨h.sound, fun v u => h.complete after v u hdecides⟩

namespace Parses

/-- Nothing is known of the symbols ahead. -/
abbrev Unknown : List Symbol → Prop := fun _ => True

/-- Less may be said of what is yielded. -/
theorem mono (h : Parses g x known script es R) (hR : ∀ a, R a → R' a) : Parses g x known script es R' :=
  ⟨fun v hv => (h.sound v hv).mono fun a _ ha => ⟨ha.1, hR a ha.2⟩,
    fun after v u hdecides hv hu hafter => (h.complete after v u hdecides hv hu hafter).mono fun a _ ha => ⟨ha.1, hR a ha.2⟩⟩

/-- It may be known more of the symbols ahead than is asked for. -/
theorem of_known (hknown : ∀ v, known v → known' v) (h : Parses g x known' script es R) :
    Parses g x known script es R :=
  ⟨fun v hv => h.sound v (hknown v hv),
    fun after v u hdecides hv hu hafter => h.complete after v u hdecides (hknown v hv) hu hafter⟩

/-- What is known of the symbols ahead can be used for each of them. -/
theorem of_each (h : ∀ v, known v → Parses g x (· = v) script es R) : Parses g x known script es R :=
  ⟨fun v hv => (h v hv).sound v rfl,
    fun after v u hdecides hv hu hafter => (h v hv).complete after v u hdecides rfl hu hafter⟩

/-- A script that does nothing reads the empty row. -/
theorem pure {r : α} (hr : R r) : Parses g x known (Pure.pure r : Script α) [] R := by
  refine ⟨fun v _ => ⟨takes_nil.mpr rfl, hr⟩, fun after v u _ _ hu _ => ?_⟩
  exact ⟨takes_nil.mp hu, hr⟩

/-- A script that parses the empty row takes nothing. -/
theorem empty_sound (h : Parses g x Unknown script [] R) (v : List Symbol) :
    script.Ensures (sounding g) v fun a u => u = v ∧ R a :=
  (h.sound v trivial).mono fun _ _ ha => ⟨(takes_nil.mp ha.1).symm, ha.2⟩

/-- A script that reads the empty row takes nothing. -/
theorem empty_complete (h : Parses g x Unknown script [] R) (v : List Symbol) :
    script.Ensures (completing g) v fun a w => w = v ∧ R a :=
  h.complete {firstToken v} v v (by rw [decides]) trivial (takes_nil.mpr rfl) (by simp)

/-- One script after another one parses one row after another one. -/
theorem bind {first : Script β} {next : β → Script α} (hfirst : Parses g x known first es S)
    (hnext : ∀ c, S c → Parses g x Unknown (next c) es' R) : Parses g x known (first >>= next) (es ++ es') R := by
  refine ⟨fun v hv => ?_, fun after v u hdecides hv hu hafter => ?_⟩
  · refine ensures_bind.mpr ((hfirst.sound v hv).mono ?_)
    rintro c m ⟨hm, hc⟩
    refine ((hnext c hc).sound m trivial).mono ?_
    rintro r u ⟨hu, hr⟩
    exact ⟨takes_append.mpr ⟨m, hm, hu⟩, hr⟩
  · rw [decides_append, Bool.and_eq_true] at hdecides
    obtain ⟨m, hm, hu⟩ := takes_append.mp hu
    refine ensures_bind.mpr ((hfirst.complete _ v m hdecides.1 hv hm (hu.leads hafter)).mono ?_)
    rintro c w ⟨rfl, hc⟩
    exact (hnext c hc).complete after w u hdecides.2 trivial hu hafter

/-- A script for the first expression of a row, and one for the rest of it. -/
theorem part {e : Ebnf} {first : Script β} {next : β → Script α} (hfirst : Parses g x known first [e] S)
    (hnext : ∀ c, S c → Parses g x Unknown (next c) es R) : Parses g x known (first >>= next) (e :: es) R :=
  bind hfirst hnext

/-- A script that takes nothing after another one. -/
theorem ending {first : Script β} {next : β → Script α} (hfirst : Parses g x known first es S)
    (hnext : ∀ c, S c → Parses g x Unknown (next c) [] R) : Parses g x known (first >>= next) es R := by
  simpa using bind hfirst hnext

/-- A script that takes nothing before another one. -/
theorem preparing {first : Script β} {next : β → Script α} (hfirst : Parses g x known first [] S)
    (hnext : ∀ c, S c → Parses g x Unknown (next c) es R) : Parses g x known (first >>= next) es R := bind hfirst hnext

/-! ## Single actions -/

/-- Entering a production reads nothing. -/
theorem enter {p : Production} {next : Unit → Script α} (h : Parses g x known (next ()) es R) :
    Parses g x known (Script.enter p >>= next) es R := ⟨h.sound, h.complete⟩

/-- A lookahead makes the next token known. -/
theorem lookahead {next : Token → Script α}
    (h : ∀ t, Parses g x (fun v => known v ∧ firstToken v = t) (next t) es R) :
    Parses g x known (Script.lookahead >>= next) es R :=
  ⟨fun v hv => (h _).sound v ⟨hv, rfl⟩, fun after v u hdecides hv => (h _).complete after v u hdecides ⟨hv, rfl⟩⟩

/-- After a token the rest of a row decides. -/
theorem decides_token {t : Token} {after : TokenSet} :
    decides g.context (.token t :: es) after = decides g.context es after := by
  rw [decides, Ebnf.decides, Bool.true_and]

/-- Accepting a token that is known to be next. -/
theorem accept {t : Token} {next : String → Script α} (hknown : ∀ v, known v → firstToken v = t) (ht : t ≠ .eof)
    (hrest : ∀ s v, known (s :: v) → known' v) (h : ∀ lexeme, Parses g x known' (next lexeme) es R) :
    Parses g x known (Script.accept >>= next) (.token t :: es) R := by
  refine ⟨fun v hv lexeme _ => ?_, fun after v u hdecides hv hu hafter lexeme _ => ?_⟩
  · cases v with
    | nil => exact (ht (hknown [] hv).symm).elim
    | cons s v =>
      refine ((h lexeme).sound v (hrest s v hv)).mono ?_
      rintro r u ⟨hu, hr⟩
      exact ⟨takes_token.mpr ⟨s, v, rfl, hknown _ hv, hu⟩, hr⟩
  · obtain ⟨s, v, rfl, -, hu⟩ := takes_token.mp hu
    rw [decides_token] at hdecides
    exact (h lexeme).complete after v u hdecides (hrest s v hv) hu hafter

/-- Skipping a token that is known to be next. Something may be known of the symbols after it. -/
theorem skipTo {t : Token} {next : Unit → Script α} (hknown : ∀ v, known v → firstToken v = t) (ht : t ≠ .eof)
    (hrest : ∀ s v, known (s :: v) → known' v) (h : Parses g x known' (next ()) es R) :
    Parses g x known (Script.skip >>= next) (.token t :: es) R :=
  have haccept := accept hknown ht hrest fun _ => h
  ⟨haccept.sound, haccept.complete⟩

/-- A token that is known to be next is read. -/
theorem skip {t : Token} {next : Unit → Script α} (hknown : ∀ v, known v → firstToken v = t) (ht : t ≠ .eof)
    (h : Parses g x Unknown (next ()) es R) : Parses g x known (Script.skip >>= next) (.token t :: es) R :=
  skipTo hknown ht (fun _ _ _ => trivial) h

/-- One of several tokens is the first one taken. -/
theorem takes_anyOf {ts : List Token} {v u : List Symbol} (hts : ts ≠ []) :
    Takes g.rules x (Ebnf.anyOf ts ++ es) v u ↔ ∃ s v', v = s :: v' ∧ s.token ∈ ts ∧ Takes g.rules x es v' u := by
  induction ts with
  | nil => exact (hts rfl).elim
  | cons t ts ih =>
    cases ts with
    | nil => simp [Ebnf.anyOf, Ebnf.oneOf]
    | cons t' ts =>
      have hone : Ebnf.anyOf (t :: t' :: ts) = [.alt [.token t] (Ebnf.anyOf (t' :: ts))] := rfl
      rw [hone, List.cons_append, List.nil_append, takes_alt, ih (by simp)]
      simp only [List.cons_append, List.nil_append, takes_token, List.mem_cons]
      grind

/-- Accepting one of some tokens, which is known to be next. -/
theorem acceptAny {ts : List Token} {next : String → Script α} (hknown : ∀ v, known v → firstToken v ∈ ts)
    (heof : .eof ∉ ts) (h : ∀ lexeme, Parses g x Unknown (next lexeme) es R) :
    Parses g x known (Script.accept >>= next) (Ebnf.anyOf ts ++ es) R := by
  refine ⟨fun v hv lexeme _ => ?_, fun after v u hdecides hv hu hafter lexeme _ => ?_⟩
  · cases v with
    | nil => exact (heof (hknown [] hv)).elim
    | cons s v =>
      refine ((h lexeme).sound v trivial).mono ?_
      rintro r u ⟨hu, hr⟩
      exact ⟨(takes_anyOf (List.ne_nil_of_mem (hknown _ hv))).mpr ⟨s, v, rfl, hknown _ hv, hu⟩, hr⟩
  · rw [decides_append, Bool.and_eq_true] at hdecides
    obtain ⟨s, v, rfl, -, hu⟩ := (takes_anyOf (List.ne_nil_of_mem (hknown _ hv))).mp hu
    exact (h lexeme).complete after v u hdecides.2 trivial hu hafter

/-- One of several tokens that is known to be next is read. -/
theorem skipAny {ts : List Token} {next : Unit → Script α} (hknown : ∀ v, known v → firstToken v ∈ ts)
    (heof : .eof ∉ ts) (h : Parses g x Unknown (next ()) es R) :
    Parses g x known (Script.skip >>= next) (Ebnf.anyOf ts ++ es) R :=
  have haccept := acceptAny hknown heof fun _ => h
  ⟨haccept.sound, haccept.complete⟩

/-! ## Demanding tokens -/

/-- If the token that is demanded is next, it is accepted. -/
theorem ensures_demand {A : Abstraction (List Symbol)} (hact : A.Shows g) {t : Token} {resume : TokenSet}
    {next : Option String → Script α} {s : Symbol} {v : List Symbol}
    {Q : α → List Symbol → Prop} (ht : s.token = t) (h : (next (some s.lexeme)).Ensures A v Q) :
    (Script.demand t resume >>= next).Ensures A (s :: v) Q := by
  refine hact.lookahead ?_
  show Ensures A (if decide (firstToken (s :: v) = t) = true then _ else _) _ _
  rw [if_pos (by simp [ht])]
  refine hact.accept fun lexeme hlexeme => ?_
  rw [hlexeme s rfl]
  exact h

/-- If it is not next, something is rejected. -/
theorem ensures_demand_missing {t : Token} {resume : TokenSet} {next : Option String → Script α} {v : List Symbol}
    {Q : α → List Symbol → Prop} (ht : firstToken v ≠ t) : (Script.demand t resume >>= next).Ensures (sounding g) v Q := by
  show Ensures (sounding g) (if decide (firstToken v = t) = true then _ else _) _ _
  rw [if_neg (by simp [ht])]
  trivial

/-- A token that is demanded. The row may ask something of its lexeme that is known. -/
theorem demand {e : Ebnf} {t : Token} {L : String → Prop} {resume : TokenSet} {next : Option String → Script α}
    (htakes : ∀ v u, Takes g.rules x (e :: es) v u ↔
      ∃ s v', v = s :: v' ∧ s.token = t ∧ L s.lexeme ∧ Takes g.rules x es v' u)
    (hdecides : ∀ after, e.decides g.context after = true) (ht : t ≠ .eof)
    (hknown : ∀ s v, known (s :: v) → L s.lexeme ∧ known' v)
    (h : ∀ lexeme, L lexeme → Parses g x known' (next (some lexeme)) es R) :
    Parses g x known (Script.demand t resume >>= next) (e :: es) R := by
  refine ⟨fun v hv => ?_, fun after v u hrow hv hu hafter => ?_⟩
  · by_cases hfirst : firstToken v = t
    · cases v with
      | nil => exact (ht hfirst.symm).elim
      | cons s v =>
        obtain ⟨hlexeme, hv'⟩ := hknown s v hv
        refine ensures_demand shows_sounding hfirst ?_
        refine ((h _ hlexeme).sound v hv').mono ?_
        rintro r u ⟨hu, hr⟩
        exact ⟨(htakes _ _).mpr ⟨s, v, rfl, hfirst, hlexeme, hu⟩, hr⟩
    · exact ensures_demand_missing hfirst
  · obtain ⟨s, v', rfl, hfirst, hlexeme, hu⟩ := (htakes v u).mp hu
    rw [decides, hdecides, Bool.true_and] at hrow
    refine ensures_demand shows_completing hfirst ?_
    exact (h _ hlexeme).complete after v' u hrow (hknown s v' hv).2 hu hafter

/-- An expected token, after which something may be known of the symbols ahead. -/
theorem expectTo {t : Token} {resume : TokenSet} {next : Bool → Script α} (ht : t ≠ .eof)
    (hknown : ∀ s v, known (s :: v) → known' v) (h : Parses g x known' (next true) es R) :
    Parses g x known (Script.expect t resume >>= next) (.token t :: es) R :=
  have hdemand : Parses g x known (Script.demand t resume >>= fun lexeme => next lexeme.isSome) (.token t :: es) R :=
    demand (L := fun _ => True) (by simp) (fun _ => by rw [Ebnf.decides]) ht (fun s v hv => ⟨trivial, hknown s v hv⟩)
      fun _ _ => h
  ⟨hdemand.sound, hdemand.complete⟩

/-- An expected token; what the script does without it is no matter. -/
theorem expect {t : Token} {resume : TokenSet} {c d : Script α} (ht : t ≠ .eof) (h : Parses g x Unknown c es R) :
    Parses g x known (Script.expect t resume >>= fun found => if found = true then c else d) (.token t :: es) R :=
  expectTo ht (fun _ _ _ => trivial) (by simpa using h)

/-- An expected token with which and without which the script goes on. -/
theorem expectAnyway {t : Token} {resume : TokenSet} {next : Bool → Script α} (ht : t ≠ .eof)
    (h : Parses g x Unknown (next true) es R) : Parses g x known (Script.expect t resume >>= next) (.token t :: es) R :=
  expectTo ht (fun _ _ _ => trivial) h

/-- An identifier is read where one is expected. -/
theorem expectIdent {resume : TokenSet} {next : Option String → Script α}
    (h : ∀ lexeme, Parses g x Unknown (next (some lexeme)) es R) :
    Parses g x known (Script.expectIdent resume >>= next) (.token .ident :: es) R :=
  demand (L := fun _ => True) (by simp) (fun _ => by rw [Ebnf.decides]) (by simp) (fun _ _ _ => ⟨trivial, trivial⟩)
    fun lexeme _ => h lexeme

/-- The name of a module or a procedure, where it is known. -/
theorem opening {resume : TokenSet} {next : Option String → Script α} (hknown : ∀ s v, known (s :: v) → s.lexeme = x)
    (h : Parses g x Unknown (next (some x)) es R) :
    Parses g x known (Script.expectIdent resume >>= next) (.opening :: es) R :=
  demand (L := (· = x)) (by simp) (fun _ => by rw [Ebnf.decides]) (by simp) (fun s v hv => ⟨hknown s v hv, trivial⟩)
    fun lexeme hlexeme => hlexeme ▸ h

/-- The name at the end of a module or a procedure, which is compared with the name that it should be. -/
theorem closing {resume : TokenSet} {next : Option String → Script α} (h : Parses g x Unknown (next (some x)) es R) :
    Parses g x known (Script.expectIdent resume >>= fun closing => checkClosing (some x) closing >>= fun _ => next closing)
      (.closing :: es) R := by
  refine ⟨fun v _ => ?_, fun after v u hdecides _ hu hafter => ?_⟩
  · by_cases hfirst : firstToken v = .ident
    · cases v with
      | nil => cases hfirst
      | cons s v =>
        refine ensures_demand shows_sounding hfirst ?_
        by_cases hlexeme : x = s.lexeme
        · subst hlexeme
          simp only [checkClosing, if_true]
          refine (h.sound v trivial).mono ?_
          rintro r u ⟨hu, hr⟩
          exact ⟨takes_closing.mpr ⟨s, v, rfl, hfirst, rfl, hu⟩, hr⟩
        · simp only [checkClosing, hlexeme, if_false]
          trivial
    · exact ensures_demand_missing hfirst
  · obtain ⟨s, v, rfl, hfirst, rfl, hu⟩ := takes_closing.mp hu
    rw [decides, Ebnf.decides, Bool.true_and] at hdecides
    refine ensures_demand shows_completing hfirst ?_
    simp only [checkClosing, if_true]
    exact h.complete after v u hdecides trivial hu hafter

/-! ## Productions -/

/-- A rule that is called. -/
theorem call {rule : Rule} (hknown : ∀ v, known v → rule.IsReady g v) :
    Parses g x known (Script.call rule) [.call rule.production] fun _ => True := by
  refine ⟨fun v hv => ⟨hknown v hv, fun node u hu => ⟨?_, trivial⟩⟩, fun after v u hdecides hv hu hafter => ?_⟩
  · exact takes_call.mpr ⟨u, hu, takes_nil.mpr rfl⟩
  · obtain ⟨m, hm, hnil⟩ := takes_call.mp hu
    obtain rfl := takes_nil.mp hnil
    rw [decides_call] at hdecides
    exact ⟨hknown v hv, m, hm, TokenSet.contains_of_isSubset hdecides hafter, fun _ => ⟨rfl, trivial⟩⟩

/-- The script of a production, which parses its row whatever the name of the text is, if the text ends properly. -/
theorem productionBefore {p : Production} (h : ∀ y, ParsesBefore g y (p.ends g.context) known script (g.rules p) R) :
    Parses g x known script [.call p] R := by
  refine ⟨fun v hv => ?_, fun after v u hrow hv hu hafter => ?_⟩
  · refine ((h x).sound v hv).mono ?_
    rintro r u ⟨hu, hr⟩
    exact ⟨takes_call.mpr ⟨u, ⟨x, hu⟩, takes_nil.mpr rfl⟩, hr⟩
  · obtain ⟨m, ⟨y, hm⟩, hnil⟩ := takes_call.mp hu
    obtain rfl := takes_nil.mp hnil
    rw [decides_call] at hrow
    exact (h y).complete v m hv hm (TokenSet.contains_of_isSubset hrow hafter)

/-- The script of a production in which one token is enough for each choice. -/
theorem production {p : Production} (hdecides : decides g.context (g.rules p) (p.ends g.context) = true)
    (h : ∀ y, Parses g y known script (g.rules p) R) : Parses g x known script [.call p] R :=
  productionBefore fun y => (h y).before hdecides

/-- The lexeme of a symbol ahead, counted from zero. -/
def nameAt (i : Nat) (v : List Symbol) : String := (v[i]?.map (·.lexeme)).getD ""

/-- Skipping a token in front of a name. -/
theorem skipBefore {t : Token} {i : Nat} {name : String} {next : Unit → Script α} (ht : t ≠ .eof)
    (h : Parses g x (fun v => nameAt i v = name) (next ()) es R) :
    Parses g x (fun v => firstToken v = t ∧ nameAt (i + 1) v = name) (Script.skip >>= next) (.token t :: es) R :=
  skipTo (fun _ hv => hv.1) ht (fun _ _ hv => hv.2) h

/-- Expecting a token in front of a name. -/
theorem expectBefore {t : Token} {i : Nat} {name : String} {resume : TokenSet} {next : Bool → Script α} (ht : t ≠ .eof)
    (h : Parses g x (fun v => nameAt i v = name) (next true) es R) :
    Parses g x (fun v => nameAt (i + 1) v = name) (Script.expect t resume >>= next) (.token t :: es) R :=
  expectTo ht (fun _ _ hv => hv) h

/-- The script of a production whose texts have names, which are found at a certain place. -/
theorem productionAt {p : Production} (i : Nat) (hdecides : decides g.context (g.rules p) (p.ends g.context) = true)
    (hname : ∀ y v u, Takes g.rules y (g.rules p) v u → nameAt i v = y)
    (h : ∀ y, Parses g y (fun v => known v ∧ nameAt i v = y) script (g.rules p) R) :
    Parses g x known script [.call p] R := by
  refine ⟨fun v hv => ?_, fun after v u hrow hv hu hafter => ?_⟩
  · refine ((h (nameAt i v)).sound v ⟨hv, rfl⟩).mono ?_
    rintro r u ⟨hu, hr⟩
    exact ⟨takes_call.mpr ⟨u, ⟨_, hu⟩, takes_nil.mpr rfl⟩, hr⟩
  · obtain ⟨m, ⟨y, hm⟩, hnil⟩ := takes_call.mp hu
    obtain rfl := takes_nil.mp hnil
    rw [decides_call] at hrow
    exact (h y).complete _ v m hdecides ⟨hv, hname y v m hm⟩ hm (TokenSet.contains_of_isSubset hrow hafter)

/-- The script of a production that names what it is a part of. -/
theorem named {p : Production} (hdecides : decides g.context (g.rules p) (p.ends g.context) = true)
    (h : Parses g x known script (g.rules p) R) : Parses g x known script [.named p] R := by
  refine ⟨fun v hv => ?_, fun after v u hrow hv hu hafter => ?_⟩
  · refine (h.sound v hv).mono ?_
    rintro r u ⟨hu, hr⟩
    exact ⟨takes_named.mpr ⟨u, hu, takes_nil.mpr rfl⟩, hr⟩
  · obtain ⟨m, hm, hnil⟩ := takes_named.mp hu
    obtain rfl := takes_nil.mp hnil
    rw [decides_named] at hrow
    exact h.complete _ v m hdecides hv hm (TokenSet.contains_of_isSubset hrow hafter)

/-! ## Building nodes -/

variable {t : NodeType} {R : Node → Prop}

/-- A node that can be built. -/
theorem built {n : Node} (hR : R n) : Parses g x known (act (.build (.ok n))) [] R :=
  have hpure : Parses g x known (Pure.pure n : Script Node) [] R := pure hR
  ⟨hpure.sound, hpure.complete⟩

/-- Building a node, which yields the node or the empty one. -/
theorem build {r : Except NodeError Node} (htype : ∀ n, r = .ok n → n.type = t)
    (herror : ∀ e, r = .error e → g.namesSetTypes = true → ¬e.OfSelectedSetType)
    (hR : ∀ n : Node, n.type = .empty ∨ n.type = t → R n) : Parses g x known (act (.build r)) [] R := by
  have hshows : ∀ (m : Prop) (v : List Symbol) (Q : Node → List Symbol → Prop), (∀ n, R n → Q n v) →
      (Action.build r).shows g m v Q := by
    intro m v Q hQ
    cases r with
    | ok n => exact hQ n (hR n (.inr (htype n rfl)))
    | error e => exact ⟨fun he => (herror e rfl he.1 he.2).elim, fun _ => hQ .empty (hR .empty (.inl rfl))⟩
  refine ⟨fun v _ => hshows _ v _ fun n hn => ⟨takes_nil.mpr rfl, hn⟩, fun after v u _ _ hu _ => ?_⟩
  obtain rfl := takes_nil.mp hu
  exact hshows _ v _ fun n hn => ⟨rfl, hn⟩

/-- What a node without parts of its own is, if it could be built. -/
def HasType (t : NodeType) (n : Node) : Prop := n.type = .empty ∨ n.type = t

/-- Building a node reads nothing, and yields its type or an empty node. -/
theorem build_hasType {r : Except NodeError Node} (hbuilds : Node.Builds t r) (htype : t ≠ .setValue) :
    Parses g x known (act (.build r)) [] (HasType t) :=
  build (fun _ => hbuilds.type) (fun _ he _ hof => htype (hbuilds.error he hof)) fun _ hn => hn

/-- Building a branch reads nothing. -/
theorem branch {ns : List Node} (htype : t ≠ .setValue) : Parses g x known (Script.branch t ns) [] fun _ => True :=
  (build_hasType (Node.builds_ofBranch ns) htype).mono fun _ _ => trivial

/-- A set value, whose type may have to be a name. -/
theorem setValueNode {elements head : Node} (hhead : g.namesSetTypes = true → head.type ∉ NodeType.selected) :
    Parses g x known (Script.branch .setValue [elements, head]) [] fun _ => True :=
  build (fun _ => (Node.builds_ofBranch _).type) (fun _ he hnames hof => hhead hnames (Node.selected_of_ofBranch he hof))
    fun _ _ => trivial

/-- Building a list reads nothing, and yields its type or an empty node. -/
theorem list_hasType {ns : List Node} (htype : t ≠ .setValue) : Parses g x known (Script.list t ns) [] (HasType t) := by
  unfold Script.list
  split
  · exact pure (.inl rfl)
  · exact build_hasType (Node.builds_ofList _) htype

/-- Building a list reads nothing, whatever it yields. -/
theorem list {ns : List Node} (htype : t ≠ .setValue) : Parses g x known (Script.list t ns) [] fun _ => True :=
  (list_hasType htype).mono fun _ _ => trivial

/-- So it is with a node of one value, whose type is known. -/
theorem terminal_hasType {value : String} (htype : t ≠ .setValue) :
    Parses g x known (Script.terminal t value) [] (HasType t) := build_hasType (Node.builds_ofValue value) htype

/-- So it is with a node of one value. -/
theorem terminal {value : String} (htype : t ≠ .setValue) :
    Parses g x known (Script.terminal t value) [] fun _ => True := (terminal_hasType htype).mono fun _ _ => trivial

/-- So it is with a node of several values, whose type is known. -/
theorem terminals_hasType {values : List String} (htype : t ≠ .setValue) :
    Parses g x known (Script.terminals t values) [] (HasType t) := by
  unfold Script.terminals
  split
  · exact pure (.inl rfl)
  · exact build_hasType (Node.builds_ofValues values) htype

/-- So it is with a node of several values. -/
theorem terminals {values : List String} (htype : t ≠ .setValue) :
    Parses g x known (Script.terminals t values) [] fun _ => True := (terminals_hasType htype).mono fun _ _ => trivial

end Parses

end Script

end Modula
