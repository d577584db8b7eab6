import Modula.Parser.Basic
import Modula.Proofs.Parser.Halting

/-!
# Progress

What makes a script halt is that its loops make progress. `Progresses` says so of every loop in a script; it is a
condition on the parts of the script one by one, and a script that meets it halts if there are fewer symbols ahead than
the limit (`Progresses.halts`). How a round of a loop comes to take a symbol is followed from its first lookahead on:
`Consumes` says that a script takes a symbol if the next token is one of some.
-/

set_option autoImplicit false

namespace Modula

open SymbolReader

namespace Script

variable {α β : Type} {limit most : Nat}

/-- A postcondition of a script that halts may as well say that what is left is some of what was found. -/
theorem Ensures.suffix {script : Script α} {ahead : List Symbol} {Q : α → List Symbol → Prop}
    (h : script.Ensures (halting limit) ahead Q) :
    script.Ensures (halting limit) ahead fun a left => Q a left ∧ left <:+ ahead := by
  induction script generalizing ahead with
  | pure a => exact ⟨h, List.suffix_refl _⟩
  | bind first next ihfirst ihnext =>
    refine (ihfirst h).mono ?_
    rintro a left ⟨hnext, hleft⟩
    refine (ihnext a hnext).mono ?_
    rintro b left' ⟨hQ, hleft'⟩
    exact ⟨hQ, hleft'.trans hleft⟩
  | act action =>
    intro a left hleaves
    exact ⟨h a left hleaves, hleaves.suffix⟩
  | call rule => exact ⟨h.1, fun node left hleft => ⟨h.2 node left hleft, hleft⟩⟩
  | loop init step ih =>
    obtain ⟨inv, hinit, hstep⟩ := h
    refine ⟨fun a left => inv a left ∧ left <:+ ahead, ⟨hinit, List.suffix_refl _⟩, ?_⟩
    rintro a left ⟨ha, hleft⟩
    refine (ih a (hstep a left ha)).mono ?_
    rintro (b | b) left' ⟨hb, hleft'⟩
    · exact ⟨hb, hleft'.trans hleft⟩
    · exact ⟨⟨hb.1, hleft'.trans hleft⟩, hb.2⟩

/-! ## Scripts whose loops make progress -/

/-- A script halts from at most so many symbols ahead on. -/
def Halts (limit most : Nat) (script : Script α) : Prop :=
  ∀ ahead : List Symbol, ahead.length ≤ most → script.Ensures (halting limit) ahead fun _ _ => True

/-- A round of a loop halts, and takes a symbol if the loop goes on. -/
def Rounds (limit most : Nat) (script : Script (ForInStep α)) : Prop :=
  ∀ ahead : List Symbol, ahead.length ≤ most → script.Ensures (halting limit) ahead fun
    | .done _, _ => True
    | .yield _, left => left.length < ahead.length

/-- Every loop of a script makes progress. It is also said whether the script may call rules; one that does has to be
run with fewer symbols ahead than the limit. -/
def Progresses (calls : Bool) : {α : Type} → Script α → Prop
  | _, .pure _ | _, .act _ => True
  | _, .call _ => calls = true
  | _, .bind first next => first.Progresses calls ∧ ∀ a, (next a).Progresses calls
  | _, .loop _ step => ∀ a limit most, (calls = true → most < limit) → Rounds limit most (step a)

/-- A script halts whose first part does and whose rest does whatever has come of it. -/
theorem Halts.bind {first : Script α} {next : α → Script β} (hfirst : Halts limit most first)
    (hnext : ∀ a, Halts limit most (next a)) : Halts limit most (first >>= next) := by
  intro ahead hmost
  refine (hfirst ahead hmost).suffix.mono ?_
  rintro a left ⟨-, hleft⟩
  have hlen := hleft.length_le
  exact hnext a left (by omega)

/-- A loop halts if every round does that goes on with fewer symbols. -/
theorem Halts.loop {init : α} {step : α → Script (ForInStep α)} (hstep : ∀ a, Rounds limit most (step a)) :
    Halts limit most (.loop init step) := by
  intro ahead hmost
  refine ⟨fun _ left => left.length ≤ most, hmost, fun a left hleft => ?_⟩
  refine (hstep a left hleft).mono ?_
  rintro (b | b) left' hb
  · trivial
  · have hless : left'.length < left.length := hb
    exact ⟨show left'.length ≤ most by omega, hb⟩

/-- A script whose loops make progress halts; if it calls rules, there are fewer symbols than the limit. -/
theorem Progresses.halts (calls : Bool) {script : Script α} (h : script.Progresses calls)
    (hmost : calls = true → most < limit) : Halts limit most script := by
  induction script with
  | pure a => exact fun _ _ => trivial
  | bind first next ihfirst ihnext => exact Halts.bind (ihfirst h.1) fun a => ihnext a (h.2 a)
  | act action => exact fun _ _ _ _ _ => trivial
  | call rule =>
    intro ahead hahead
    have hless := hmost h
    exact ⟨by omega, fun _ _ _ => trivial⟩
  | loop init step ih => exact Halts.loop fun a => h a limit most hmost

/-- What a script that makes progress leaves is some of what it found. -/
theorem Progresses.leaves_suffix {calls : Bool} {script : Script α} {ahead : List Symbol} (h : script.Progresses calls)
    (hless : calls = true → ahead.length < limit) :
    script.Ensures (halting limit) ahead fun _ left => left <:+ ahead :=
  (h.halts calls hless ahead le_rfl).suffix.mono fun _ _ hleft => hleft.2

/-! ## Taking a symbol -/

/-- A script takes a symbol if the next token is one of those given and the result is as wanted. -/
def Consumes (limit most : Nat) (tokens : Token → Prop) (wanted : α → Prop) (script : Script α) : Prop :=
  ∀ ahead : List Symbol, ahead.length ≤ most → withoutPragmas ahead = ahead →
    tokens (firstToken ahead).wellFormed → script.Ensures (halting limit) ahead fun a left =>
      wanted a → left.length < ahead.length

variable {tokens : Token → Prop} {wanted : β → Prop} {next : α → Script β}

/-- A symbol that is taken with some tokens next is taken with fewer of them as well. -/
theorem Consumes.of_imp (tokens' : Token → Prop) {script : Script β} (himp : ∀ t, tokens t → tokens' t)
    (h : Consumes limit most tokens' wanted script) : Consumes limit most tokens wanted script :=
  fun ahead hmost hsettled htokens => h ahead hmost hsettled (himp _ htokens)

/-- Once the next token has been looked at, it is known. -/
theorem Consumes.lookahead {next : Token → Script β}
    (h : ∀ t, tokens t → Consumes limit most (· = t) wanted (next t)) :
    Consumes limit most tokens wanted (lookahead >>= next) := by
  intro ahead hmost hsettled htokens t left hleaves
  obtain ⟨rfl, rfl⟩ := hleaves
  rw [hsettled]
  exact h _ htokens ahead hmost hsettled rfl

/-- Accepting a symbol takes it, unless the input has ended; what follows has fewer symbols than before. -/
theorem Consumes.accept (calls : Bool) {next : String → Script β} (htokens : ¬ tokens .eof)
    (hmost : calls = true → most ≤ limit) (hnext : ∀ lexeme, (next lexeme).Progresses calls) :
    Consumes limit most tokens wanted (accept >>= next) := by
  intro ahead hahead hsettled hfirst lexeme left hleaves
  cases ahead with
  | nil => exact (htokens hfirst).elim
  | cons s others =>
    have hleft : left.length ≤ others.length := by
      rw [hleaves.1]
      exact (withoutPragmas_suffix others).length_le
    rw [List.length_cons] at hahead
    refine ((hnext lexeme).leaves_suffix fun hcalls => ?_).mono fun b left' hleft' _ => ?_
    · have hle := hmost hcalls
      omega
    · have hlen := hleft'.length_le
      rw [List.length_cons]
      omega

/-- A script that takes nothing must not come to what is wanted. -/
theorem Consumes.pure {a : α} {wanted : α → Prop} (h : ¬ wanted a) :
    Consumes limit most tokens wanted (Pure.pure a : Script α) := fun _ _ _ _ ha => (h ha).elim

/-- Entering a production takes no symbol. -/
theorem Consumes.enter {p : Production} {next : Unit → Script β}
    (h : Consumes limit most tokens wanted (next ())) :
    Consumes limit most tokens wanted (enter p >>= next) := by
  intro ahead hmost hsettled htokens _ left hleaves
  obtain rfl : left = ahead := by
    obtain rfl | rfl := hleaves
    · rfl
    · exact hsettled
  exact h left hmost hsettled htokens

/-- Rejecting a symbol does not take it. -/
theorem Consumes.reject {expected : Expected} {next : Unit → Script β}
    (h : Consumes limit most tokens wanted (next ())) :
    Consumes limit most tokens wanted (act (.reject expected) >>= next) := by
  rintro ahead hmost hsettled htokens _ left (rfl : left = ahead)
  exact h left hmost hsettled htokens

/-- A test for a production looks at the next token. -/
theorem Consumes.starts {ctx : Context} {p : Production} {next : Bool → Script β}
    (h : ∀ t, tokens t → Consumes limit most (· = t) wanted (next ((p.first ctx).contains t))) :
    Consumes limit most tokens wanted (starts ctx p >>= next) :=
  show Consumes limit most tokens wanted (Script.lookahead >>= fun t => next ((p.first ctx).contains t)) from
    Consumes.lookahead h

/-- A test for a token looks at the next one. -/
theorem Consumes.nextIs {u : Token} {next : Bool → Script β}
    (h : ∀ t, tokens t → Consumes limit most (· = t) wanted (next (t = u))) :
    Consumes limit most tokens wanted (nextIs u >>= next) :=
  show Consumes limit most tokens wanted (Script.lookahead >>= fun t => next (t = u)) from Consumes.lookahead h

/-- A symbol is taken that is not the end, and what comes after it is one symbol behind the limit. -/
theorem Consumes.skip (calls : Bool) {next : Unit → Script β} (htokens : ¬ tokens .eof)
    (hmost : calls = true → most ≤ limit) (hnext : (next ()).Progresses calls) :
    Consumes limit most tokens wanted (skip >>= next) :=
  Consumes.accept calls htokens hmost fun _ => hnext

/-- If the first part of a script takes a symbol, so does the whole. -/
theorem Consumes.bind (calls : Bool) {first : Script α}
    (hfirst : Consumes limit most tokens (fun _ => True) first) (hmost : calls = true → most ≤ limit)
    (hnext : ∀ a, (next a).Progresses calls) :
    Consumes limit most tokens wanted (first >>= next) := by
  intro ahead hahead hsettled htokens
  rw [ensures_bind]
  refine (hfirst ahead hahead hsettled htokens).mono fun a left hleft => ?_
  have hless := hleft trivial
  refine ((hnext a).leaves_suffix fun hcalls => ?_).mono fun b left' hleft' _ => ?_
  · have hle := hmost hcalls
    omega
  · have hlen := hleft'.length_le
    omega

/-- To halt, a script need not take a symbol. -/
theorem Consumes.of_halts {script : Script β} (h : Halts limit most script) (hwanted : ∀ b, ¬ wanted b) :
    Consumes limit most tokens wanted script :=
  fun ahead hmost _ _ => (h ahead hmost).mono fun b _ _ hb => (hwanted b hb).elim

/-- A symbol that is taken for any outcome is taken for those that are wanted. -/
theorem Consumes.weaken {wanted' : β → Prop} {script : Script β} (himp : ∀ b, wanted b → wanted' b)
    (h : Consumes limit most tokens wanted' script) : Consumes limit most tokens wanted script :=
  fun ahead hmost hsettled htokens => (h ahead hmost hsettled htokens).mono fun b _ hless hb => hless (himp b hb)

/-- What a script does after a lookahead may depend on the token that it found. -/
theorem Halts.lookahead {next : Token → Script β}
    (h : ∀ t, Consumes limit most (· = t) (fun _ => False) (next t)) : Halts limit most (lookahead >>= next) := by
  intro ahead hmost t left hleaves
  obtain ⟨rfl, rfl⟩ := hleaves
  have hlen := (withoutPragmas_suffix ahead).length_le
  exact (h _ _ (by omega) (withoutPragmas_idem ahead) rfl).mono fun _ _ _ => trivial

/-- A script that starts with a test halts if it does for every token that may come next. -/
theorem Halts.starts {ctx : Context} {p : Production} {next : Bool → Script β}
    (h : ∀ t, Consumes limit most (· = t) (fun _ => False) (next ((p.first ctx).contains t))) :
    Halts limit most (Script.starts ctx p >>= next) :=
  show Halts limit most (Script.lookahead >>= fun t => next ((p.first ctx).contains t)) from Halts.lookahead h

/-- So it is with a test for a token. -/
theorem Halts.nextIs {u : Token} {next : Bool → Script β}
    (h : ∀ t, Consumes limit most (· = t) (fun _ => False) (next (t = u))) :
    Halts limit most (Script.nextIs u >>= next) :=
  show Halts limit most (Script.lookahead >>= fun t => next (t = u)) from Halts.lookahead h

/-- A round that starts with a lookahead goes on only after a symbol has been taken. -/
theorem Rounds.lookahead {next : Token → Script (ForInStep α)}
    (h : ∀ t, Consumes limit most (· = t) (fun r => ∃ b, r = .yield b) (next t)) :
    Rounds limit most (lookahead >>= next) := by
  intro ahead hmost t left hleaves
  obtain ⟨rfl, rfl⟩ := hleaves
  have hlen := (withoutPragmas_suffix ahead).length_le
  refine (h _ _ (by omega) (withoutPragmas_idem ahead) rfl).mono ?_
  rintro (b | b) left hb
  · trivial
  · have hless := hb ⟨b, rfl⟩
    exact show left.length < ahead.length by omega

/-- A round that starts with a test is good if it takes a symbol whenever the loop goes on. -/
theorem Rounds.starts {ctx : Context} {p : Production} {next : Bool → Script (ForInStep α)}
    (h : ∀ t, Consumes limit most (· = t) (fun r => ∃ b, r = .yield b) (next ((p.first ctx).contains t))) :
    Rounds limit most (Script.starts ctx p >>= next) :=
  show Rounds limit most (Script.lookahead >>= fun t => next ((p.first ctx).contains t)) from Rounds.lookahead h

/-- So is one with a test for a token. -/
theorem Rounds.nextIs {u : Token} {next : Bool → Script (ForInStep α)}
    (h : ∀ t, Consumes limit most (· = t) (fun r => ∃ b, r = .yield b) (next (t = u))) :
    Rounds limit most (Script.nextIs u >>= next) :=
  show Rounds limit most (Script.lookahead >>= fun t => next (t = u)) from Rounds.lookahead h

/-- A round that goes on with a qualified identifier has a point next, which it can take. -/
theorem Rounds.qualifies {next : Bool → Script (ForInStep α)}
    (hmore : Consumes limit most (· = .dot) (fun r => ∃ b, r = .yield b) (next true))
    (hstop : ∀ t, Consumes limit most (· = t) (fun r => ∃ b, r = .yield b) (next false)) :
    Rounds limit most (act .qualifies >>= next) := by
  intro ahead hmost b left hleaves
  obtain ⟨rfl, hb⟩ := hleaves
  have hlen := (withoutPragmas_suffix ahead).length_le
  have hsettled := withoutPragmas_idem ahead
  have hround : (next b).Ensures (halting limit) (withoutPragmas ahead) fun r left =>
      (∃ c, r = .yield c) → left.length < (withoutPragmas ahead).length := by
    cases b with
    | false => exact hstop _ _ (by omega) hsettled rfl
    | true =>
      have hqualifies := of_decide_eq_true hb.symm
      exact hmore _ (by omega) hsettled (by rw [hqualifies.1]; rfl)
  refine hround.mono ?_
  rintro (c | c) left hc
  · trivial
  · have hless := hc ⟨c, rfl⟩
    exact show left.length < ahead.length by omega

/-- A round may do something else first that halts. -/
theorem Rounds.bind {first : Script α} {next : α → Script (ForInStep β)} (hfirst : Halts limit most first)
    (hnext : ∀ a, Rounds limit most (next a)) : Rounds limit most (first >>= next) := by
  intro ahead hmost
  rw [ensures_bind]
  refine (hfirst ahead hmost).suffix.mono ?_
  rintro a left ⟨-, hleft⟩
  have hlen := hleft.length_le
  refine (hnext a left (by omega)).mono ?_
  rintro (b | b) left' hb
  · trivial
  · have hless : left'.length < left.length := hb
    exact show left'.length < ahead.length by omega

/-! ## Common parts of productions -/

variable {calls : Bool}

/-- A script that does nothing has no loop. -/
@[simp] theorem progresses_pure {a : α} : (Pure.pure a : Script α).Progresses calls := trivial

/-- Nor has an action. -/
@[simp] theorem progresses_act {action : Action α} : (act action).Progresses calls := trivial

/-- A call is left to its rule, and has to be foreseen. -/
@[simp] theorem progresses_call {rule : Rule} : (call rule).Progresses calls ↔ calls = true := Iff.rfl

/-- The loops of a script are those of its parts. -/
@[simp] theorem progresses_bind {first : Script α} {next : α → Script β} :
    (first >>= next).Progresses calls ↔ first.Progresses calls ∧ ∀ a, (next a).Progresses calls := Iff.rfl

/-- The loops of both branches make progress. -/
@[simp] theorem progresses_ite {p : Prop} [Decidable p] {c d : Script α} :
    (if p then c else d).Progresses calls ↔ (p → c.Progresses calls) ∧ (¬ p → d.Progresses calls) := by
  split <;> simp_all

/-- Looking ahead has no loop. -/
@[simp] theorem progresses_lookahead : lookahead.Progresses calls := trivial

/-- Nor has accepting a symbol. -/
@[simp] theorem progresses_accept : accept.Progresses calls := trivial

/-- Nor has accepting one whose characters do not matter. -/
@[simp] theorem progresses_skip : skip.Progresses calls := by simp [skip]

/-- Nor has entering a production. -/
@[simp] theorem progresses_enter {p : Production} : (enter p).Progresses calls := trivial

/-- Nor has a test for a production. -/
@[simp] theorem progresses_starts {ctx : Context} {p : Production} : (starts ctx p).Progresses calls := by simp [starts]

/-- Nor has a test for a token. -/
@[simp] theorem progresses_nextIs {t : Token} : (nextIs t).Progresses calls := by simp [nextIs]

/-- A loop makes progress if its rounds do from any limit. -/
theorem progresses_loop {init : α} {step : α → Script (ForInStep α)}
    (h : ∀ a limit most, (calls = true → most < limit) → Rounds limit most (step a)) :
    (loop init step).Progresses calls := h

/-- Skipping takes one symbol in each round, and stops at the end. -/
@[simp] theorem progresses_skipTo {set : TokenSet} : (skipTo set).Progresses calls := by
  unfold skipTo
  refine progresses_bind.mpr ⟨progresses_loop fun n limit most hmost => Rounds.lookahead fun t => ?_, by simp⟩
  split
  · exact Consumes.pure (by simp)
  · next ht =>
    refine Consumes.skip _ ?_ (fun hcalls => (hmost hcalls).le) (by simp)
    rintro rfl
    simp at ht

/-- Where a token is missing, symbols are skipped. -/
@[simp] theorem progresses_demand {t : Token} {resume : TokenSet} : (demand t resume).Progresses calls := by
  simp [demand]

/-- So they are where a token is expected. -/
@[simp] theorem progresses_expect {t : Token} {resume : TokenSet} : (expect t resume).Progresses calls := by
  simp [expect]

/-- So they are where an identifier is. -/
@[simp] theorem progresses_expectIdent {resume : TokenSet} : (expectIdent resume).Progresses calls := by
  simp [expectIdent]

/-- So they are where no alternative starts. -/
@[simp] theorem progresses_noAlternative {ctx : Context} {p : Production} :
    (noAlternative ctx p).Progresses calls := by
  simp [noAlternative]

/-- Building a branch has no loop. -/
@[simp] theorem progresses_branch {t : NodeType} {ns : List Node} : (branch t ns).Progresses calls := by simp [branch]

/-- Nor has building a list. -/
@[simp] theorem progresses_list {t : NodeType} {ns : List Node} : (list t ns).Progresses calls := by
  unfold list
  split <;> simp

/-- Nor has building a node of one value. -/
@[simp] theorem progresses_terminal {t : NodeType} {value : String} : (terminal t value).Progresses calls := by
  simp [terminal]

/-- Nor has building one of several. -/
@[simp] theorem progresses_terminals {t : NodeType} {values : List String} :
    (terminals t values).Progresses calls := by
  simp [terminals]

/-- Nor has building one of an identifier that may be missing. -/
@[simp] theorem progresses_identNode {ident : Option String} : (identNode ident).Progresses calls := by
  cases ident <;> simp [identNode]

/-- Nor has comparing names. -/
@[simp] theorem progresses_checkClosing {opening closing : Option String} :
    (checkClosing opening closing).Progresses calls := by
  cases opening <;> cases closing <;> simp [checkClosing]

/-- A round of a loop that goes on if a separator comes next, which it takes. -/
theorem rounds_separator {separator : Token} {rest : Script (ForInStep α)} {a : α} (hseparator : separator ≠ .eof)
    (hmost : calls = true → most < limit) (hrest : rest.Progresses calls) :
    Rounds limit most (nextIs separator >>= fun b => if b then skip >>= fun _ => rest else Pure.pure (.done a)) := by
  refine Rounds.nextIs fun t => ?_
  split
  · next ht =>
    refine Consumes.skip _ ?_ (fun hcalls => (hmost hcalls).le) hrest
    rintro rfl
    simp_all
  · exact Consumes.pure (by simp)

/-- Every further item takes its separator, which is not the end. -/
theorem progresses_separated {separator : Token} {item : Script α} (hseparator : separator ≠ .eof)
    (hitem : item.Progresses calls) : (separated separator item).Progresses calls := by
  unfold separated
  refine progresses_bind.mpr ⟨hitem, fun first => progresses_bind.mpr ⟨?_, by simp⟩⟩
  refine progresses_loop fun items limit most hmost => rounds_separator hseparator hmost ?_
  simp [hitem]

/-- Every further item takes its bar. -/
theorem progresses_barred {ctx : Context} {p : Production} {item : Script Node} (hitem : item.Progresses calls) :
    (barred ctx p item).Progresses calls := by
  unfold barred
  refine progresses_bind.mpr ⟨progresses_loop fun items limit most hmost => ?_, by simp⟩
  refine Rounds.bind (progresses_starts.halts calls hmost) fun starts => ?_
  have hbar : ∀ items : List Node, Rounds limit most
      (nextIs .bar >>= fun b => if b then skip >>= fun _ => Pure.pure (.yield items) else Pure.pure (.done items)) :=
    fun items => rounds_separator (by simp) hmost (by simp)
  dsimp only
  split
  · exact Rounds.bind (hitem.halts calls hmost) fun node => hbar _
  · exact hbar _

/-- Every further item takes its semicolon. -/
theorem progresses_semicolonSeparated {follow : TokenSet} {errant : Code} {item : Script Node}
    (hitem : item.Progresses calls) : (semicolonSeparated follow errant item).Progresses calls := by
  unfold semicolonSeparated
  refine progresses_bind.mpr ⟨hitem, fun first => progresses_bind.mpr ⟨?_, by simp⟩⟩
  refine progresses_loop fun items limit most hmost => rounds_separator (by simp) hmost ?_
  simp [hitem]

/-- A row of items goes on as long as the next token can start one, and then the item takes that token. -/
theorem rounds_whileStarts {ctx : Context} {p : Production} {item : Script α} {items : List α}
    (hitem : Consumes limit most (fun t => (p.first ctx).contains t) (fun _ => True) item) :
    Rounds limit most (starts ctx p >>= fun b =>
      if b then item >>= fun next => Pure.pure (.yield (next :: items)) else Pure.pure (.done items)) := by
  refine Rounds.starts fun t => ?_
  split
  · next ht =>
    intro ahead hmost hsettled htokens
    exact Consumes.bind false hitem (by simp) (by simp) ahead hmost hsettled (by simpa [htokens] using ht)
  · exact Consumes.pure (by simp)

/-- A row of items halts if each takes a symbol that its production starts with. -/
theorem Halts.whileStarts {ctx : Context} {p : Production} {item : Script α}
    (hitem : Consumes limit most (fun t => (p.first ctx).contains t) (fun _ => True) item) :
    Halts limit most (whileStarts ctx p item) :=
  Halts.bind (Halts.loop fun _ => rounds_whileStarts hitem) fun _ _ _ => trivial

/-- So its loop makes progress. -/
theorem progresses_whileStarts {ctx : Context} {p : Production} {item : Script α}
    (hitem : ∀ limit most, (calls = true → most < limit) →
      Consumes limit most (fun t => (p.first ctx).contains t) (fun _ => True) item) :
    (whileStarts ctx p item).Progresses calls := by
  unfold whileStarts
  exact progresses_bind.mpr ⟨progresses_loop fun items limit most hmost => rounds_whileStarts (hitem limit most hmost),
    by simp⟩

/-- Every further identifier of a list takes its comma. -/
@[simp] theorem progresses_identList {ctx : Context} : (identList ctx).Progresses calls := by
  simp [identList, progresses_separated]

/-- Every further part of a qualified identifier takes its point. -/
@[simp] theorem progresses_qualident {ctx : Context} : (qualident ctx).Progresses calls := by
  unfold qualident
  simp only [progresses_bind, progresses_enter, progresses_expectIdent, true_and, Option.forall, progresses_pure]
  refine fun _ first => ⟨progresses_loop fun parts limit most hmost => Rounds.qualifies ?_ fun t => ?_, fun parts => ?_⟩
  · exact Consumes.skip _ (by simp) (fun hcalls => (hmost hcalls).le) (by simp)
  · exact Consumes.pure (by simp)
  · split <;> simp

/-- If a token is demanded and found, it is taken. -/
theorem consumes_demand {t : Token} {resume : TokenSet} (ht : t ≠ .eof) :
    Consumes limit most (· = t) (fun _ => True) (demand t resume) := by
  refine Consumes.nextIs fun u hu => ?_
  subst hu
  simp only [decide_true, if_true]
  exact Consumes.accept false (fun heof => ht heof.symm) (by simp) (by simp)

/-- An identifier that is next is taken. -/
theorem consumes_expectIdent {resume : TokenSet} :
    Consumes limit most (· = .ident) (fun _ => True) (expectIdent resume) := consumes_demand (by simp)

/-- After a token that was expected and found there are fewer symbols ahead. -/
theorem Halts.expect {t : Token} {resume : TokenSet} {next : Bool → Script β} (ht : t ≠ .eof) (hmost : most ≤ limit)
    (hfound : (next true).Progresses true) (hmissing : Halts limit most (next false)) :
    Halts limit most (Script.expect t resume >>= next) := by
  let found : Bool → Script β := fun b =>
    if b then accept >>= fun _ => next true
    else act (.reject (.token t)) >>= fun _ => skipTo resume >>= fun _ => next false
  have h : Halts limit most (Script.nextIs t >>= found) := by
    refine Halts.nextIs fun u => ?_
    by_cases hu : u = t
    · subst hu
      simp only [found, decide_true, if_true]
      exact Consumes.accept _ (fun heof => ht heof.symm) (fun _ => hmost) fun _ => hfound
    · simp only [found, hu, decide_false, Bool.false_eq_true, if_false]
      refine Consumes.of_halts (Halts.bind (progresses_act.halts false (by simp)) fun _ => ?_) (by simp)
      exact Halts.bind (progresses_skipTo.halts false (by simp)) fun _ => hmissing
  intro ahead hahead
  have hfollowed := ensures_bind.mp (h ahead hahead)
  show (Script.nextIs t).Ensures (halting limit) ahead _
  refine hfollowed.mono ?_
  rintro (b | b) left hleft <;> exact hleft

end Script

end Modula
