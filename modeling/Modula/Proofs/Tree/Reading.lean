import Modula.Parser.Module
import Modula.Proofs.Parser.Ensures
import Modula.Proofs.Tree.Building

/-!
# Reading a tree

The values in a tree, read from left to right, are the names and literals of the text in the order in which they stand
there, but for the names that modules and procedures repeat at their ends. To see this, a script is followed together
with the names that are still to come: what it takes of them is what can be read off its result (`Carries`).
-/

set_option autoImplicit false

namespace Modula

open SymbolReader

/-! ## Values of nodes -/

/-- The parts of a node in the order in which they stand in a text. The type of a set value is written before its
elements, and the base type of a subrange before its bounds. -/
def NodeType.inTextOrder {α : Type} : NodeType → List α → List α
  | .setValue, [elements, head] => [head, elements]
  | .subrange, [low, high, base] => [base, low, high]
  | _, parts => parts

/-- Lists have their parts in the order of the text. -/
theorem NodeType.inTextOrder_of_isList {α : Type} {t : NodeType} (h : t.isList = true) (parts : List α) :
    t.inTextOrder parts = parts := by
  unfold inTextOrder
  split
  · cases h
  · cases h
  · rfl

/-- A single part is in order. -/
@[simp] theorem NodeType.inTextOrder_one {α : Type} (t : NodeType) (a : α) : t.inTextOrder [a] = [a] := by
  cases t <;> rfl

/-- Only a set has two parts in another order: its elements come before its type. -/
@[simp] theorem NodeType.inTextOrder_two {α : Type} {t : NodeType} (ht : t ≠ .setValue) (a b : α) :
    t.inTextOrder [a, b] = [a, b] := by
  unfold inTextOrder
  split
  · exact (ht rfl).elim
  · next heq => cases heq
  · rfl

/-- Only a range has three parts in another order: its base comes last. -/
@[simp] theorem NodeType.inTextOrder_three {α : Type} {t : NodeType} (ht : t ≠ .subrange) (a b c : α) :
    t.inTextOrder [a, b, c] = [a, b, c] := by
  unfold inTextOrder
  split
  · next heq => cases heq
  · exact (ht rfl).elim
  · rfl

/-- Four parts and more are always in order. -/
@[simp] theorem NodeType.inTextOrder_more {α : Type} (t : NodeType) (a b c d : α) (more : List α) :
    t.inTextOrder (a :: b :: c :: d :: more) = a :: b :: c :: d :: more := by
  cases t <;> rfl

namespace Node

mutual

/-- The values of the terminal nodes of a tree in the order in which they stand in a text. An empty node has none. -/
def reading : Node → List String
  | .empty => []
  | .leaf t values => if t.isTerminal then values else []
  | .inner t ns => if t = .empty then [] else (t.inTextOrder (readings ns)).flatten

/-- The values of the trees of a list. -/
def readings : List Node → List (List String)
  | [] => []
  | n :: ns => n.reading :: readings ns

end

end Node

open Node (reading)

/-- Subnodes are read one by one. -/
@[simp] theorem Node.readings_eq_map (ns : List Node) : Node.readings ns = ns.map reading := by
  induction ns with
  | nil => rfl
  | cons n ns ih => rw [Node.readings, ih, List.map_cons]

/-- An empty node has nothing to read. -/
@[simp] theorem Node.reading_empty : reading .empty = [] := by rw [reading]

/-- What is read off the items of a list. -/
def readingAll {α : Type} (R : α → List String) (items : List α) : List String := (items.map R).flatten

section

variable {α : Type} {R : α → List String}

/-- No items, nothing to read. -/
@[simp] theorem readingAll_nil : readingAll R [] = [] := rfl

/-- The first item is read first. -/
@[simp] theorem readingAll_cons (a : α) (items : List α) : readingAll R (a :: items) = R a ++ readingAll R items := by
  simp [readingAll]

/-- Items are read before those that come after them. -/
@[simp] theorem readingAll_append (items more : List α) :
    readingAll R (items ++ more) = readingAll R items ++ readingAll R more := by
  simp [readingAll]

/-- Lists are read one after the other. -/
@[simp] theorem readingAll_flatten (lists : List (List α)) :
    readingAll R lists.flatten = readingAll (readingAll R) lists := by
  induction lists with
  | nil => rfl
  | cons items lists ih => simp [ih]

end

/-- Empty nodes have nothing to be read off. -/
theorem readingAll_filter (ns : List Node) : readingAll reading (ns.filter (!·.isEmpty)) = readingAll reading ns := by
  induction ns with
  | nil => rfl
  | cons n ns ih =>
    by_cases hn : n.isEmpty = true
    · have hreading : n.reading = [] := by
        have htype : n.type = .empty := by simpa [Node.isEmpty] using hn
        cases n with
        | empty => rw [reading]
        | inner t ns =>
          obtain rfl : t = .empty := htype
          rw [reading, if_pos rfl]
        | leaf t values =>
          obtain rfl : t = .empty := htype
          rw [reading]
          rfl
      simp [hn, ih, hreading]
    · simp [hn, ih]

/-! ## Names in texts -/

/-- Whether a symbol with the token is an identifier or a literal. -/
def Token.isNaming : Token → Bool
  | .ident | .string | .integer | .real | .char => true
  | _ => false

/-- The lexemes of the identifiers and literals among some symbols, given the token before them. The identifier after
an `END` repeats the name of a module or a procedure and is left out. -/
def namesAfter : Token → List Symbol → List String
  | _, [] => []
  | last, s :: others =>
    if s.token.isNaming ∧ ¬(last = .kwEnd ∧ s.token = .ident) then s.lexeme :: namesAfter s.token others
    else namesAfter s.token others

/-- The symbols ahead without pragmas, after the token that was accepted last. -/
structure Tray where
  ahead : List Symbol
  last : Token

namespace Tray

/-- The names still to come. -/
def names (v : Tray) : List String := namesAfter v.last v.ahead

/-- Nothing is known of the symbols. -/
abbrev Any : Tray → Prop := fun _ => True

/-- An identifier that comes next is no repeated name. -/
def Open (v : Tray) : Prop := v.last ≠ .kwEnd

/-- An identifier that comes next repeats a name. -/
def Ended (v : Tray) : Prop := v.last = .kwEnd

/-- The next token is one of some. -/
def Next (T : Token → Prop) (v : Tray) : Prop := T (firstToken v.ahead)

end Tray

open Tray

/-- What has to be ahead when a rule is called. -/
def Rule.Expects : Rule → Tray → Prop
  | .variantFields, v => Open v ∧ Next (· = .kwCase) v
  | _, v => Open v

/-- Names are taken from the symbols ahead. Nothing is asked after a report or the loss of a node. A rule takes the names
that can be read off its node, and a block ends with its `END`. -/
def carrying : Abstraction Tray where
  act
    | .lookahead, v, Q => Q (firstToken v.ahead) v
    | .qualifies, v, Q => ∀ b, (b = true → firstToken v.ahead = .dot ∧ firstToken v.ahead.tail = .ident) → Q b v
    | .accept, v, Q => ∀ lexeme, (∀ s ∈ v.ahead.head?, lexeme = s.lexeme) → Q lexeme ⟨v.ahead.tail, firstToken v.ahead⟩
    | .enter _, v, Q | .warnNext _, v, Q | .warnAccepted _, v, Q | .skipped _, v, Q => Q () v
    | .reject _, _, _ | .rejectClosing _, _, _ | .build (.error _), _, _ => True
    | .build (.ok node), v, Q => Q node v
  call rule v Q :=
    rule.Expects v ∧ ∀ (node : Node) w, v.names = node.reading ++ w.names → (rule = .block → Ended w) → Q node w
  progress _ _ := True
  act_mono := by
    intro α action v P Q hPQ h
    cases action with
    | lookahead => exact hPQ _ _ h
    | qualifies => exact fun b hb => hPQ b _ (h b hb)
    | accept => exact fun lexeme hlexeme => hPQ lexeme _ (h lexeme hlexeme)
    | enter p | warnNext code | warnAccepted code | skipped n => exact hPQ () v h
    | reject expected | rejectClosing closing => trivial
    | build node =>
      cases node with
      | ok node => exact hPQ node v h
      | error e => trivial
  call_mono hPQ h := ⟨h.1, fun node w hnode hblock => hPQ node w (h.2 node w hnode hblock)⟩

namespace Script

variable {α β : Type} {known : Tray → Prop} {M : β → Tray → Prop} {E : α → Tray → Prop} {acc : List String}
  {R : α → List String}

/-- Together with the names `acc` that were there before, a script takes the names that are read off its result. -/
def Carries (known : Tray → Prop) (acc : List String) (script : Script α) (R : α → List String)
    (E : α → Tray → Prop) : Prop :=
  ∀ v, known v → script.Ensures carrying v fun a w => acc ++ v.names = R a ++ w.names ∧ E a w

namespace Carries

/-- A script carries the names as well if more is known before it, or less is claimed after it. -/
theorem mono {known' : Tray → Prop} {E' : α → Tray → Prop} {script : Script α} (hknown : ∀ v, known' v → known v)
    (hE : ∀ a v, E a v → E' a v) (h : Carries known acc script R E) : Carries known' acc script R E' :=
  fun v hv => (h v (hknown v hv)).mono fun a w ha => ⟨ha.1, hE a w ha.2⟩

/-- More may be known before a script than it takes. -/
theorem of_known {known' : Tray → Prop} {script : Script α} (hknown : ∀ v, known' v → known v)
    (h : Carries known acc script R E) : Carries known' acc script R E := h.mono hknown fun _ _ hE => hE

/-- What has been carried so far is what is read of the outcome. -/
theorem pure {a : α} (hacc : acc = R a) (hE : ∀ v, known v → E a v) : Carries known acc (Pure.pure a : Script α) R E :=
  fun v hv => ⟨by rw [hacc], hE v hv⟩

/-- The names that were there before stay in front. -/
theorem frame {script : Script α} (h : Carries known [] script R E) :
    Carries known acc script (fun a => acc ++ R a) E := by
  intro v hv
  refine (h v hv).mono ?_
  rintro a w ⟨hnames, hE⟩
  rw [List.append_assoc, ← hnames, List.nil_append]
  exact ⟨rfl, hE⟩

/-- What the first part yields carries what has been read of it. -/
theorem bind {first : Script β} {next : β → Script α} {S : β → List String} (hfirst : Carries known acc first S M)
    (hnext : ∀ b, Carries (M b) (S b) (next b) R E) : Carries known acc (first >>= next) R E := by
  intro v hv
  refine ensures_bind.mpr ((hfirst v hv).mono ?_)
  rintro b m ⟨hnames, hm⟩
  refine (hnext b m hm).mono ?_
  rintro a w ⟨hw, hE⟩
  exact ⟨hnames.trans hw, hE⟩

/-- A script for a part, which takes the names of the part, before the others. -/
theorem part {first : Script β} {next : β → Script α} {S : β → List String} (hfirst : Carries known [] first S M)
    (hnext : ∀ b, Carries (M b) (acc ++ S b) (next b) R E) : Carries known acc (first >>= next) R E :=
  bind hfirst.frame hnext

/-- Both branches carry the names. -/
theorem ite {p : Prop} [Decidable p] {c d : Script α} (hc : p → Carries known acc c R E)
    (hd : ¬p → Carries known acc d R E) : Carries known acc (if p then c else d) R E := by
  split
  · next hp => exact hc hp
  · next hp => exact hd hp

/-- A script that is not followed by anything. -/
theorem last {script : Script α} (h : Carries known acc (script >>= Pure.pure) R E) : Carries known acc script R E := h

/-! ## Actions -/

/-- Entering a production takes no symbol. -/
theorem enter {p : Production} {next : Unit → Script α} (h : Carries known acc (next ()) R E) :
    Carries known acc (Script.enter p >>= next) R E := h

/-- A warning about the next symbol takes none. -/
theorem warnNext {code : Code} {next : Unit → Script α} (h : Carries known acc (next ()) R E) :
    Carries known acc (act (.warnNext code) >>= next) R E := h

/-- A warning about the symbol accepted last takes none. -/
theorem warnAccepted {code : Code} {next : Unit → Script α} (h : Carries known acc (next ()) R E) :
    Carries known acc (act (.warnAccepted code) >>= next) R E := h

/-- What a lookahead has found is known. -/
theorem lookahead {next : Token → Script α} (h : ∀ t, Carries (fun v => known v ∧ Next (· = t) v) acc (next t) R E) :
    Carries known acc (Script.lookahead >>= next) R E := fun v hv => h _ v ⟨hv, rfl⟩

/-- In one branch the token is known to be next. -/
theorem nextIs {t : Token} {c d : Script α} (hc : Carries (fun v => known v ∧ Next (· = t) v) acc c R E)
    (hd : Carries known acc d R E) :
    Carries known acc (Script.nextIs t >>= fun b => if b = true then c else d) R E := by
  show Carries known acc (Script.lookahead >>= fun u => if decide (u = t) = true then c else d) R E
  refine lookahead fun u => ite (fun hu => ?_) fun _ => hd.of_known fun v hv => hv.1
  obtain rfl := of_decide_eq_true hu
  exact hc

/-- A test whose outcome does not matter. -/
theorem test {t : Token} {next : Bool → Script α} (h : ∀ b, Carries known acc (next b) R E) :
    Carries known acc (Script.nextIs t >>= next) R E := fun v hv => h _ v hv

/-- A test for a production, of which both outcomes are known. -/
theorem startsOr {ctx : Context} {p : Production} {c d : Script α}
    (hc : Carries (fun v => known v ∧ Next (fun t => (p.first ctx).contains t = true) v) acc c R E)
    (hd : Carries (fun v => known v ∧ Next (fun t => (p.first ctx).contains t = false) v) acc d R E) :
    Carries known acc (Script.starts ctx p >>= fun b => if b = true then c else d) R E := by
  show Carries known acc (Script.lookahead >>= fun u => if (p.first ctx).contains u = true then c else d) R E
  refine lookahead fun u => ite (fun hu => ?_) fun hu => ?_
  · refine hc.of_known fun v hv => ⟨hv.1, ?_⟩
    obtain ⟨-, rfl⟩ := hv
    exact hu
  · refine hd.of_known fun v hv => ⟨hv.1, ?_⟩
    obtain ⟨-, rfl⟩ := hv
    exact Bool.eq_false_iff.mpr hu

/-- In one branch the next token is known to start the production. -/
theorem starts {ctx : Context} {p : Production} {c d : Script α}
    (hc : Carries (fun v => known v ∧ Next (fun t => (p.first ctx).contains t = true) v) acc c R E)
    (hd : Carries known acc d R E) :
    Carries known acc (Script.starts ctx p >>= fun b => if b = true then c else d) R E :=
  startsOr hc (hd.of_known fun _ hv => hv.1)

/-- A production that starts with one token only. -/
theorem startsWith {ctx : Context} {p : Production} {t : Token} {c d : Script α}
    (hp : ∀ u, (p.first ctx).contains u = true → u = t)
    (hc : Carries (fun v => known v ∧ Next (· = t) v) acc c R E) (hd : Carries known acc d R E) :
    Carries known acc (Script.starts ctx p >>= fun b => if b = true then c else d) R E :=
  starts (hc.of_known fun _ hv => ⟨hv.1, hp _ hv.2⟩) hd

/-- A token that brings no name and ends nothing. -/
def Plain (t : Token) : Prop := t.isNaming = false ∧ t ≠ .kwEnd

instance (t : Token) : Decidable (Plain t) := inferInstanceAs (Decidable (_ ∧ _))

/-- A token that names nothing does not change the names after it. -/
theorem names_of_plain {v : Tray} (h : (firstToken v.ahead).isNaming = false) :
    v.names = Tray.names ⟨v.ahead.tail, firstToken v.ahead⟩ := by
  obtain ⟨ahead, last⟩ := v
  cases ahead with
  | nil => rfl
  | cons s others =>
    have hs : s.token.isNaming = false := h
    show namesAfter last (s :: others) = namesAfter s.token others
    rw [namesAfter, if_neg (by simp [hs])]

/-- Accepting a token that brings no name. -/
theorem skip {next : Unit → Script α} (hknown : ∀ v, known v → Next Plain v) (h : Carries Open acc (next ()) R E) :
    Carries known acc (Script.skip >>= next) R E := by
  intro v hv lexeme _
  have hplain := hknown v hv
  show (next ()).Ensures carrying ⟨v.ahead.tail, firstToken v.ahead⟩ _
  refine (h ⟨v.ahead.tail, firstToken v.ahead⟩ hplain.2).mono fun a w ha => ?_
  rw [names_of_plain hplain.1]
  exact ha

/-- Accepting a token that has been looked at. -/
theorem skipNext {t : Token} {next : Unit → Script α} (ht : Plain t) (h : Carries Open acc (next ()) R E) :
    Carries (fun v => known v ∧ Next (· = t) v) acc (Script.skip >>= next) R E :=
  skip (fun v hv => by rw [Next, hv.2]; exact ht) h

/-- Accepting the token with which a production was entered. -/
theorem skipFirst {t : Token} {next : Unit → Script α} (ht : Plain t) (h : Carries Open acc (next ()) R E) :
    Carries (Next (· = t)) acc (Script.skip >>= next) R E :=
  skip (fun v hv => by rw [Next, hv]; exact ht) h

/-- Accepting a name that is not a repeated one. -/
theorem accept {next : String → Script α} (hknown : ∀ v, known v → Open v ∧ Next (·.isNaming = true) v)
    (h : ∀ lexeme, Carries Open (acc ++ [lexeme]) (next lexeme) R E) :
    Carries known acc (Script.accept >>= next) R E := by
  intro v hv lexeme hlexeme
  obtain ⟨hopen, hnaming⟩ := hknown v hv
  obtain ⟨ahead, last⟩ := v
  cases ahead with
  | nil => cases hnaming
  | cons s others =>
    have hs : s.token.isNaming = true := hnaming
    have hlast : last ≠ .kwEnd := hopen
    have hnext : s.token ≠ .kwEnd := by
      intro hend
      rw [hend] at hs
      cases hs
    refine (h lexeme ⟨others, s.token⟩ hnext).mono fun a w ha => ?_
    have hnames : Tray.names ⟨s :: others, last⟩ = lexeme :: Tray.names ⟨others, s.token⟩ := by
      show namesAfter last (s :: others) = _
      rw [namesAfter, if_pos ⟨hs, fun hended => hlast hended.1⟩, hlexeme s rfl]
      rfl
    rw [hnames, ← ha.1]
    exact ⟨by simp, ha.2⟩

/-- Accepting a repeated name. -/
theorem acceptClosing {next : String → Script α} (hknown : ∀ v, known v → Ended v ∧ Next (· = .ident) v)
    (h : ∀ lexeme, Carries Open acc (next lexeme) R E) : Carries known acc (Script.accept >>= next) R E := by
  intro v hv lexeme hlexeme
  obtain ⟨hended, hident⟩ := hknown v hv
  obtain ⟨ahead, last⟩ := v
  cases ahead with
  | nil => cases hident
  | cons s others =>
    have hs : s.token = .ident := hident
    have hlast : last = .kwEnd := hended
    refine (h lexeme ⟨others, s.token⟩ (by simp [Open, hs])).mono fun a w ha => ?_
    have hnames : Tray.names ⟨s :: others, last⟩ = Tray.names ⟨others, s.token⟩ := by
      show namesAfter last (s :: others) = _
      rw [namesAfter, if_neg (by simp [hs, hlast])]
      rfl
    rw [hnames]
    exact ha

/-! ## Demanding tokens -/

/-- A token that is demanded and missing is rejected. -/
theorem demand {t : Token} {resume : TokenSet} {next : Option String → Script α}
    (h : Carries (fun v => known v ∧ Next (· = t) v) acc (Script.accept >>= fun lexeme => next (some lexeme)) R E) :
    Carries known acc (Script.demand t resume >>= next) R E := by
  intro v hv
  show Ensures carrying (if decide (firstToken v.ahead = t) = true then _ else _) v _
  refine ensures_ite.mpr ⟨fun ht => h v ⟨hv, ?_⟩, fun _ => trivial⟩
  show firstToken v.ahead = t
  exact of_decide_eq_true ht

/-- An identifier that is found is one more name. -/
theorem expectIdent {resume : TokenSet} {next : Option String → Script α} (hknown : ∀ v, known v → Open v)
    (h : ∀ ident, Carries Open (acc ++ [ident]) (next (some ident)) R E) :
    Carries known acc (Script.expectIdent resume >>= next) R E :=
  demand (accept (fun v hv => ⟨hknown v hv.1, by rw [Next, hv.2]; rfl⟩) h)

/-- An identifier at the end of what it names is passed, since it has been read at the start. -/
theorem expectClosing {resume : TokenSet} {next : Option String → Script α} (hknown : ∀ v, known v → Ended v)
    (h : ∀ ident, Carries Open acc (next (some ident)) R E) :
    Carries known acc (Script.expectIdent resume >>= next) R E :=
  demand (acceptClosing (fun v hv => ⟨hknown v hv.1, hv.2⟩) h)

/-- An expected token, without which the script may do something else. -/
theorem expectAnyway {t : Token} {resume : TokenSet} {next : Bool → Script α} (ht : Plain t)
    (h : Carries Open acc (next true) R E) : Carries known acc (Script.expect t resume >>= next) R E :=
  have hskip : Carries (fun v => known v ∧ Next (· = t) v) acc (Script.skip >>= fun _ => next true) R E := skipNext ht h
  have hdemand : Carries known acc (Script.demand t resume >>= fun lexeme => next lexeme.isSome) R E := demand hskip
  hdemand

/-- A plain token that is found is passed. -/
theorem expect {t : Token} {resume : TokenSet} {c d : Script α} (ht : Plain t) (h : Carries Open acc c R E) :
    Carries known acc (Script.expect t resume >>= fun found => if found = true then c else d) R E :=
  expectAnyway ht (by simpa using h)

/-- The `END` after which names may be repeated. -/
theorem expectEnd {resume : TokenSet} {next : Bool → Script α} (h : Carries Ended acc (next true) R E) :
    Carries known acc (Script.expect .kwEnd resume >>= next) R E := by
  have hdemand : Carries known acc (Script.demand .kwEnd resume >>= fun lexeme => next lexeme.isSome) R E := by
    refine demand fun v hv lexeme _ => ?_
    obtain ⟨-, hend⟩ := hv
    have hend : firstToken v.ahead = .kwEnd := hend
    refine (h ⟨v.ahead.tail, firstToken v.ahead⟩ hend).mono fun a w ha => ?_
    rw [names_of_plain (by rw [hend]; rfl)]
    exact ha
  exact hdemand

/-- After the word that ends a block its name may come again. -/
theorem ending {resume : TokenSet} {c d : Script α} (h : Carries Ended acc c R E) :
    Carries known acc (Script.expect .kwEnd resume >>= fun found => if found = true then c else d) R E :=
  expectEnd (by simpa using h)

/-! ## Building nodes -/

section

variable {t : NodeType} {next : Node → Script α}

/-- A node of which it is known what is read off it. -/
theorem build {r : Except NodeError Node} (h : ∀ node, r = .ok node → Carries known acc (next node) R E) :
    Carries known acc (act (.build r) >>= next) R E := by
  cases r with
  | ok node => exact h node rfl
  | error e => exact fun _ _ => trivial

/-- A branch is read as its subnodes in the order of the text. -/
theorem branch {ns : List Node}
    (h : ∀ node : Node, node.reading = (t.inTextOrder (ns.map reading)).flatten → Carries known acc (next node) R E) :
    Carries known acc (Script.branch t ns >>= next) R E := by
  refine build fun node hnode => h node ?_
  obtain ⟨rfl, hbranch⟩ := Node.ofBranch_eq hnode
  have hne : t ≠ .empty := by
    rintro rfl
    cases hbranch
  rw [reading, if_neg hne, Node.readings_eq_map]

/-- A node that is built last. -/
theorem branched {ns : List Node} (hacc : acc = (t.inTextOrder (ns.map reading)).flatten) :
    Carries known acc (Script.branch t ns) reading fun _ => Any :=
  last (branch fun _ hnode => pure (hacc.trans hnode.symm) fun _ _ => trivial)

/-- A list, which is absent if all its members are. -/
theorem list {ns : List Node}
    (h : ∀ node : Node, node.reading = readingAll reading ns → Carries known acc (next node) R E) :
    Carries known acc (Script.list t ns >>= next) R E := by
  have hfilter := readingAll_filter ns
  unfold Script.list
  split
  · next hnil =>
    rw [hnil] at hfilter
    exact h .empty (by rw [← hfilter]; rfl)
  · refine build fun node hnode => h node ?_
    obtain ⟨rfl, hlist⟩ := Node.ofList_eq hnode
    have hne : t ≠ .empty := by
      rintro rfl
      cases hlist
    rw [reading, if_neg hne, Node.readings_eq_map, NodeType.inTextOrder_of_isList hlist, ← hfilter]
    rfl

/-- A node of one value is read as the value. -/
theorem terminal {value : String} (h : ∀ node : Node, node.reading = [value] → Carries known acc (next node) R E) :
    Carries known acc (Script.terminal t value >>= next) R E :=
  build fun node hnode => h node (by rw [(Node.ofValue_eq hnode).1, reading, if_pos (Node.ofValue_eq hnode).2])

/-- A node of several values is read as them. -/
theorem terminals {values : List String}
    (h : ∀ node : Node, node.reading = values → Carries known acc (next node) R E) :
    Carries known acc (Script.terminals t values >>= next) R E := by
  unfold Script.terminals
  split
  · next hempty => exact h .empty (by rw [reading, List.isEmpty_iff.mp hempty])
  · exact build fun node hnode => h node (by rw [(Node.ofValues_eq hnode).1, reading, if_pos (Node.ofValues_eq hnode).2])

end

/-! ## Loops -/

/-- What is read off the outcome of a round. -/
def round (S R : α → List String) : ForInStep α → List String
  | .done a => R a
  | .yield a => S a

/-- What is known after a round. -/
def after (I E : α → Tray → Prop) : ForInStep α → Tray → Prop
  | .done a => E a
  | .yield a => I a

/-- What is carried from round to round is read of the outcome. -/
theorem loop {I : α → Tray → Prop} {S : α → List String} {init : α} {step : α → Script (ForInStep α)}
    (hacc : acc = S init) (hknown : ∀ v, known v → I init v)
    (hstep : ∀ a, Carries (I a) (S a) (step a) (round S R) (after I E)) :
    Carries known acc (Script.loop init step) R E := by
  intro v hv
  refine ⟨fun a w => acc ++ v.names = S a ++ w.names ∧ I a w, ⟨by rw [hacc], hknown v hv⟩, ?_⟩
  rintro a w ⟨hnames, hw⟩
  refine (hstep a w hw).mono ?_
  rintro (b | b) u ⟨hround, hu⟩
  · exact ⟨hnames.trans hround, hu⟩
  · exact ⟨⟨hnames.trans hround, hu⟩, trivial⟩

/-- A row of items that is collected backwards. -/
theorem row {I J : Tray → Prop} {items : List α} {step : List α → Script (ForInStep (List α))}
    (hacc : acc = readingAll R items.reverse) (hknown : ∀ v, known v → I v)
    (hstep : ∀ items : List α, Carries I (readingAll R items.reverse) (step items)
      (round (fun items => readingAll R items.reverse) fun items => readingAll R items.reverse)
      (after (fun _ => I) fun _ => J)) :
    Carries known acc (Script.loop items step >>= fun items => Pure.pure items.reverse) (readingAll R) fun _ => J :=
  bind (@loop _ _ _ _ _ (fun _ => I) _ _ _ hacc hknown hstep) fun _ => pure rfl fun _ hv => hv

/-- Items with a token between them. -/
theorem separated {separator : Token} {item : Script α} (hseparator : Plain separator)
    (hitem : Carries Open [] item R fun _ => Any) :
    Carries Open [] (Script.separated separator item) (readingAll R) fun _ => Any := by
  refine part hitem fun first => row (by simp) (fun _ hv => hv) fun items => nextIs ?_ (pure rfl fun _ _ => trivial)
  refine skipNext hseparator ?_
  exact part hitem fun a => pure (by simp [round]) fun _ _ => trivial

/-- Items for as long as the next token starts one. After each of them an identifier that comes next is no repeated
name. -/
theorem whileStarts {ctx : Context} {p : Production} {item : Script α}
    (hitem : Carries (fun v => Open v ∧ Next (fun t => (p.first ctx).contains t = true) v) [] item R fun _ => Open) :
    Carries Open [] (Script.whileStarts ctx p item) (readingAll R) fun _ => Open := by
  refine row (by simp) (fun _ hv => hv) fun items => starts ?_ (pure rfl fun _ hv => hv)
  exact part hitem fun a => pure (by simp [round]) fun _ hv => hv

/-- Items with semicolons between them and perhaps after them. -/
theorem semicolonSeparated {follow : TokenSet} {errant : Code} {item : Script Node}
    (hitem : Carries Open [] item reading fun _ => Any) :
    Carries Open [] (Script.semicolonSeparated follow errant item) (readingAll reading) fun _ => Any := by
  refine part hitem fun first => row (by simp) (fun _ hv => hv) fun items => nextIs ?_ (pure rfl fun _ _ => trivial)
  refine skipNext (by decide) (lookahead fun t => ite (fun _ => ?_) fun _ => ?_)
  · exact warnAccepted (pure rfl fun _ _ => trivial)
  · exact part (hitem.of_known fun v hv => hv.1) fun a => pure (by simp [round]) fun _ _ => trivial

/-- Items with bars between them, each of which may be absent. -/
theorem barred {ctx : Context} {p : Production} {item : Script Node}
    (hitem : Carries (fun v => Open v ∧ Next (fun t => (p.first ctx).contains t = true) v) [] item reading
      fun _ => Any) :
    Carries Open [] (Script.barred ctx p item) (readingAll reading) fun _ => Any := by
  refine row (I := Open) (by simp) (fun _ hv => hv) fun items => ?_
  have hnext : ∀ (known : Tray → Prop) (items : List Node), Carries known (readingAll reading items.reverse)
      (Script.nextIs .bar >>= fun b => if b = true then Script.skip >>= fun _ => Pure.pure (.yield items)
        else Pure.pure (.done items))
      (round (fun items => readingAll reading items.reverse) fun items => readingAll reading items.reverse)
      (after (fun _ => Open) fun _ => Any) := by
    refine fun known items => nextIs (skipNext (by decide) ?_) (pure rfl fun _ _ => trivial)
    exact pure rfl fun _ hv => hv
  refine starts (part hitem fun a => ?_) (hnext _ items)
  refine bind (M := fun _ => Any) (S := fun items => readingAll reading items.reverse) ?_ fun items => hnext _ items
  exact pure (by simp) fun _ _ => trivial

/-! ## Calls -/

/-- A rule that is called. -/
theorem call {rule : Rule} (hknown : ∀ v, known v → rule.Expects v) :
    Carries known [] (Script.call rule) reading fun _ w => rule = .block → Ended w :=
  fun v hv => ⟨hknown v hv, fun _ _ hnames hblock => ⟨hnames, hblock⟩⟩

end Carries

end Script

end Modula
