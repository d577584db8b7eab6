import Modula.Proofs.Parser.Layout
import Modula.Proofs.Scan.Concatenation
import Modula.Proofs.Source.LineEnds

/-!
# Junk before a module

Whatever comes before the heading of a module is skipped up to that heading, and is reported once (`junk_before_heading`).
From there on a parse does what it does without the junk: it sees the same symbols, and its reports are those of the parse
without the junk and some more (`Advances.reporting`).
-/

set_option autoImplicit false

namespace Modula

open SymbolReader ParserState Scan

/-! ## Skipping -/

/-- The symbols from the first one on that a parse stops at when it skips to a set of tokens. -/
def afterSkip (set : TokenSet) (ahead : List Symbol) : List Symbol :=
  ahead.dropWhile fun u => !set.contains u.token.wellFormed

section

variable {set : TokenSet}

/-- Pragmas are skipped like anything else that is not in the set. -/
theorem afterSkip_withoutPragmas (hset : set.contains .pragma = false) (ahead : List Symbol) :
    afterSkip set (withoutPragmas ahead) = afterSkip set ahead := by
  induction ahead with
  | nil => rfl
  | cons u others ih =>
    by_cases hu : u.token = .pragma
    · have hskipped : set.contains u.token.wellFormed = false := by simpa [hu, Token.wellFormed] using hset
      have hpasses : withoutPragmas (u :: others) = withoutPragmas others := by simp [withoutPragmas, hu]
      rw [hpasses, ih]
      simp [afterSkip, hskipped]
    · have hstays : withoutPragmas (u :: others) = u :: others := by simp [withoutPragmas, hu]
      rw [hstays]

/-- Skipping stops at once at a token of the set, and at the end of the input. -/
theorem afterSkip_of_first {ahead : List Symbol}
    (h : set.contains (firstToken ahead).wellFormed = true ∨ ahead = []) : afterSkip set ahead = ahead := by
  cases ahead with
  | nil => rfl
  | cons u others =>
    have hu : set.contains u.token.wellFormed = true := h.resolve_right (List.cons_ne_nil u others)
    simp [afterSkip, hu]

/-- So is a first symbol that is not in the set. -/
theorem afterSkip_tail {ahead : List Symbol} (h : set.contains (firstToken ahead).wellFormed = false) :
    afterSkip set ahead.tail = afterSkip set ahead := by
  cases ahead with
  | nil => rfl
  | cons u others =>
    have hu : set.contains u.token.wellFormed = false := h
    simp [afterSkip, hu]

/-- Behind what is skipped no pragma comes first. -/
theorem firstToken_afterSkip (hset : set.contains .pragma = false) (ahead : List Symbol) :
    firstToken (afterSkip set ahead) ≠ .pragma := by
  induction ahead with
  | nil => simp [afterSkip]
  | cons u others ih =>
    cases hin : set.contains u.token.wellFormed with
    | true =>
      rw [afterSkip_of_first (.inl hin)]
      rintro hpragma
      rw [firstToken_cons] at hpragma
      simp [hpragma, Token.wellFormed, hset] at hin
    | false => simpa [afterSkip, hin] using ih

/-- Of what is left a parse sees what is left of what it sees. -/
theorem sight_afterSkip (hset : set.contains .pragma = false) (ahead : List Symbol) :
    sight .always (afterSkip set ahead) = (sight .always ahead).dropWhile fun v => !set.contains v.token.wellFormed := by
  induction ahead with
  | nil => rfl
  | cons u others ih =>
    by_cases hu : u.token = .pragma
    · rw [afterSkip, List.dropWhile_cons_of_pos (by simp [hu, Token.wellFormed, hset]), sight, if_pos hu]
      exact ih
    · rw [sight_cons _ hu]
      cases hin : set.contains u.token.wellFormed with
      | true => simp [afterSkip, hin, sight_cons _ hu]
      | false => simpa [afterSkip, hin] using ih

variable {body : Rule → Script Node} {limit : Nat} {s t : ParserState}

/-- A script that accepts a symbol first goes on behind it. -/
theorem Script.Advances.of_skip_bind {α : Type} {a : α} {next : Unit → Script α}
    (h : Advances body limit (Script.skip >>= next) s a t) :
    Advances body limit (next ()) (Action.accept.perform s).2 a t := by
  obtain ⟨u, s', hskip, hnext⟩ := h.of_bind
  obtain ⟨-, rfl⟩ := hskip.of_act_bind.of_pure
  exact hnext

/-- An action that reports nothing brings nothing but what symbols bring with them. -/
theorem Action.perform_quiet {α : Type} {action : Action α} (h : action.reports s = []) :
    (action.perform s).2.reader.reports.Perm s.reader.reports := by
  have hreports := action.perform_reports s
  rwa [h] at hreports

/-- Skipping leads to the first token of the set, and reports nothing but what symbols bring with them. -/
theorem Script.Advances.skips {u : Unit} (hset : set.contains .pragma = false)
    (h : Advances body limit (Script.skipTo set) s u t) (hs : s.Ready) :
    t.Ready ∧ t.reader.ahead = afterSkip set s.reader.ahead ∧ t.reader.reports.Perm s.reader.reports := by
  obtain ⟨skipped, s', hloop, hend⟩ := h.of_bind
  obtain ⟨-, rfl⟩ := hend.of_act
  suffices hskips : s'.Ready ∧ s'.reader.ahead = afterSkip set s.reader.ahead ∧
      s'.reader.reports.Perm s.reader.reports by
    obtain ⟨hready, hahead, hreports⟩ := hskips
    obtain ⟨hready', hleaves⟩ := (Action.skipped skipped).perform_leaves hready
    exact ⟨hready', Eq.trans hleaves hahead, (Action.perform_quiet rfl).trans hreports⟩
  generalize (0 : Nat) = n at hloop
  clear h hend
  induction hcount : s.remaining using Nat.strong_induction_on generalizing n s with
  | _ count ih =>
    subst hcount
    -- each round looks at the next token first
    obtain ⟨hready, hahead, hfirst⟩ := Action.lookahead.perform_leaves hs
    have hreports : (Action.lookahead.perform s).2.reader.reports.Perm s.reader.reports := Action.perform_quiet rfl
    have hkeeps : afterSkip set (Action.lookahead.perform s).2.reader.ahead = afterSkip set s.reader.ahead := by
      rw [hahead, afterSkip_withoutPragmas hset]
    obtain hstep | ⟨n', s₂, hstep, less, hrest⟩ := hloop.of_loop
    · have hstep := hstep.of_act_bind
      split at hstep
      · next hstop =>
        obtain ⟨-, rfl⟩ := hstep.of_pure
        refine ⟨hready, hkeeps ▸ (afterSkip_of_first ?_).symm, hreports⟩
        rw [Bool.or_eq_true, decide_eq_true_eq, hfirst] at hstop
        refine hstop.imp_right fun heof => ?_
        exact (hready.ends.at_end ((wellFormed_eq_iff (by simp)).mp heof)).1
      · cases hstep.of_skip_bind.of_pure.1
    · have hstep := hstep.of_act_bind
      split at hstep
      · cases hstep.of_pure.1
      · next hgoes =>
        obtain ⟨hyield, rfl⟩ := hstep.of_skip_bind.of_pure
        obtain rfl := ForInStep.yield.inj hyield
        obtain ⟨hready₂, hahead₂, -⟩ := Action.accept.perform_leaves hready
        obtain ⟨hready', hahead', hreports'⟩ := ih _ less hready₂ _ hrest rfl
        refine ⟨hready', ?_, hreports'.trans ((Action.perform_quiet rfl).trans hreports)⟩
        rw [Bool.or_eq_true, not_or, hfirst] at hgoes
        rw [hahead', hahead₂, afterSkip_withoutPragmas hset, ← hkeeps, afterSkip_tail (Bool.eq_false_iff.mpr hgoes.1)]

end

/-! ## Headings -/

section

variable {ctx : Context}

/-- The tokens that the heading of an implementation or program module can start with. -/
def headings (ctx : Context) : TokenSet :=
  (Production.implementationModule.first ctx).union (Production.programModule.first ctx)

/-- Two words start the heading of a module that is no definition. -/
theorem contains_headings {t : Token} :
    (headings ctx).contains t.wellFormed = true ↔ t = .kwImplementation ∨ t = .kwModule := by
  have hheading : ∀ u : Token, (headings ctx).contains u = true ↔ u = .kwImplementation ∨ u = .kwModule := by
    simp [headings, Production.first, TokenSet.contains_union]
  rw [hheading]
  cases t <;> simp [Token.wellFormed]

/-- A pragma is no heading. -/
theorem contains_headings_pragma : (headings ctx).contains .pragma = false := by
  have hpragma := (@contains_headings ctx .pragma).not.mpr (by simp)
  exact Bool.eq_false_iff.mpr hpragma

/-- A unit with an implementation or program module, from its heading on. -/
def Script.headedUnit (ctx : Context) : Script Node := do
  let t ← lookahead
  let module ←
    if (Production.implementationModule.first ctx).contains t then implementationModule ctx
    else if (Production.programModule.first ctx).contains t then programModule ctx .programModule
    else pure .empty
  expectEnd
  return module

/-- What comes before a heading is reported and skipped. -/
theorem Script.implementationUnit_eq (ctx : Context) : Script.implementationUnit ctx =
    Script.lookahead >>= fun t => if (headings ctx).contains t = true then Script.headedUnit ctx
      else Script.act (.reject (.ofSet (headings ctx))) >>= fun _ => Script.skipTo (headings ctx) >>= fun _ =>
        Script.headedUnit ctx := rfl

/-- A state that skipping to a heading leads to from another one. -/
structure ParserState.AtHeading (ctx : Context) (s t : ParserState) : Prop where
  ready : t.Ready
  ahead : t.reader.ahead = afterSkip (headings ctx) s.reader.ahead
  last : t.reader.last = s.reader.last
  tolerant : t.tolerant = s.tolerant

/-- If the symbols from the headings on look the same, a parse sees the same there. -/
theorem ParserState.AtHeading.seesAlike {s s' t t' : ParserState} (h : s.AtHeading ctx s') (h' : t.AtHeading ctx t')
    (hsight : sight .always (afterSkip (headings ctx) s.reader.ahead) = sight .always (afterSkip (headings ctx) t.reader.ahead))
    (hlast : s.reader.last.lexeme = t.reader.last.lexeme) (htolerant : s.tolerant = t.tolerant) : s'.SeesAlike .always t' := by
  have hpragma := @contains_headings_pragma ctx
  refine ⟨h.ready, h'.ready, ?_, ?_, by rw [h.ahead, h'.ahead, hsight], by rw [h.last, h'.last, hlast],
    by rw [h.tolerant, h'.tolerant, htolerant]⟩
  · exact h.ahead ▸ firstToken_afterSkip hpragma _
  · exact h'.ahead ▸ firstToken_afterSkip hpragma _

variable {limit : Nat} {s s' : ParserState} {node : Node}

/-- A unit without errors starts with a heading. -/
theorem Script.Advances.heading (h : Advances (Rule.body ctx) limit (implementationUnit ctx) s node s') (hs : s.Ready)
    (hzero : s'.reader.reporter.errorCount = 0) :
    ∃ t, s.AtHeading ctx t ∧ t.reader.reports.Perm s.reader.reports ∧
      Advances (Rule.body ctx) limit (headedUnit ctx) t node s' := by
  rw [implementationUnit_eq] at h
  obtain ⟨hready, hahead, hfirst⟩ := Action.lookahead.perform_leaves hs
  have h := h.of_act_bind
  split at h
  · next hheading =>
    rw [hfirst] at hheading
    refine ⟨_, ⟨hready, ?_, Action.perform_last _ _, rfl⟩, Action.perform_quiet rfl, h⟩
    rw [← afterSkip_withoutPragmas contains_headings_pragma, ← hahead]
    exact (afterSkip_of_first (.inl hheading)).symm
  · have hpos : 0 < ((Action.reject (.ofSet (headings ctx))).perform
        (Action.lookahead.perform s).2).2.reader.reporter.errorCount := errorCount_report_pos _ rfl
    have hreported := h.of_act_bind.grows.reported
    omega

/-- A unit that starts with no heading is reported once, and goes on from its first heading. -/
theorem Script.Advances.no_heading (h : Advances (Rule.body ctx) limit (implementationUnit ctx) s node s')
    (hs : s.Ready) (hnone : (headings ctx).contains (firstToken (withoutPragmas s.reader.ahead)).wellFormed = false) :
    ∃ t d, s.AtHeading ctx t ∧ d.code = .unexpectedToken ∧ t.reader.reports.Perm (d :: s.reader.reports) ∧
      Advances (Rule.body ctx) limit (headedUnit ctx) t node s' := by
  rw [implementationUnit_eq] at h
  obtain ⟨hready, hahead, hfirst⟩ := Action.lookahead.perform_leaves hs
  have h := h.of_act_bind
  rw [hfirst, hahead, hnone, if_neg (by simp)] at h
  obtain ⟨u, t, hskip, hrest⟩ := h.of_act_bind.of_bind
  have hrejected := (Action.reject (.ofSet (headings ctx))).perform_reports (Action.lookahead.perform s).2
  have hlooked : (Action.lookahead.perform s).2.reader.reports.Perm s.reader.reports := Action.perform_quiet rfl
  obtain ⟨hready', hleaves⟩ := (Action.reject (.ofSet (headings ctx))).perform_leaves hready
  obtain ⟨hready₂, hahead₂, hreports⟩ := hskip.skips contains_headings_pragma hready'
  refine ⟨t, _, ⟨hready₂, ?_, ?_, ?_⟩, rfl, hreports.trans (hrejected.trans (hlooked.cons _)), hrest⟩
  · rw [hahead₂, ← afterSkip_withoutPragmas contains_headings_pragma s.reader.ahead, ← hahead]
    exact congrArg _ hleaves
  · refine hskip.stays (P := fun t => t.reader.last = s.reader.last) (fun action t ht => ?_)
      ((Action.perform_last _ _).trans (Action.perform_last _ _))
    exact (action.perform_last t).trans ht
  · refine hskip.stays (P := fun t => t.tolerant = s.tolerant) (fun action t ht => ?_) rfl
    exact (action.perform_tolerant t).trans ht

end

/-! ## With and without the junk -/

section

variable {ctx : Context}

/-- Of two runs from states in which a parse sees the same, one of which has reported some more, it has reported as much
more at the end. -/
theorem Script.Advances.reporting {body : Rule → Script Node} {limit limit' : Nat} {α : Type} {script : Script α}
    {a b : α} {s s' t t' : ParserState} {more : List Diagnostic} (h : Advances body limit script s a s')
    (h' : Advances body limit' script t b t') (hst : s.SeesAlike .always t)
    (hreports : t.reader.reports.Perm (more ++ s.reader.reports)) :
    a = b ∧ s'.SeesAlike .always t' ∧ t'.reader.reports.Perm (more ++ s'.reader.reports) := by
  refine h.lockstep (R := fun s t => s.SeesAlike .always t ∧ t.reader.reports.Perm (more ++ s.reader.reports)) ?_ h'
    ⟨hst, hreports⟩
  rintro γ action s t ⟨hst, hreports⟩
  obtain ⟨hyields, hsees⟩ := action.perform_seesAlike hst fun _ => rfl
  refine ⟨hyields, hsees, ?_⟩
  have htold := action.perform_reports t
  rw [← action.reports_seesAlike hst] at htold
  refine (htold.trans (hreports.append_left _)).trans (.trans ?_ ((action.perform_reports s).symm.append_left more))
  rw [← List.append_assoc, ← List.append_assoc]
  exact List.perm_append_comm.append_right _

/-- Junk is passed on the way to a heading. -/
theorem afterSkip_append {junk : List Symbol} (h : ∀ u ∈ junk, u.token ≠ .kwModule ∧ u.token ≠ .kwImplementation)
    (others : List Symbol) : afterSkip (headings ctx) (junk ++ others) = afterSkip (headings ctx) others := by
  refine List.dropWhile_append_of_pos fun u hu => ?_
  have hnone := (@contains_headings ctx u.token).not.mpr (by simp [h u hu])
  simpa using hnone

/-- Junk that is not all pragmas starts with no heading. -/
theorem no_heading_append {junk : List Symbol} (h : ∀ u ∈ junk, u.token ≠ .kwModule ∧ u.token ≠ .kwImplementation)
    (hsome : ∃ u ∈ junk, u.token ≠ .pragma) (others : List Symbol) :
    (headings ctx).contains (firstToken (withoutPragmas (junk ++ others))).wellFormed = false := by
  induction junk with
  | nil => simp at hsome
  | cons u junk ih =>
    by_cases hu : u.token = .pragma
    · have hpasses : withoutPragmas (u :: junk ++ others) = withoutPragmas (junk ++ others) := by simp [withoutPragmas, hu]
      rw [hpasses]
      exact ih (fun v hv => h v (by simp [hv])) (by simpa [hu] using hsome)
    · have hstays : withoutPragmas (u :: junk ++ others) = u :: junk ++ others := by simp [withoutPragmas, hu]
      rw [hstays, Bool.eq_false_iff, Ne]
      exact contains_headings.not.mpr (by simp [h u (by simp)])

end

/-- What a scan finds before the end of the input is ahead of a parse. -/
theorem Scan.mem_body {rules : ScanRules} {s : Source} {u : Scanned} (hs : s.rest.length ≤ s.length)
    (hu : u ∈ Scan.symbols rules s) (heof : u.symbol.token ≠ .eof) : u.symbol ∈ Scan.body rules s := by
  obtain ⟨body, last, hbody, hnone, hlast⟩ := (reads_symbols rules s hs).eq_append
  rw [hbody] at hu
  rw [Scan.body, hbody, List.map_append, List.takeWhile_append_of_pos (by simpa using hnone)]
  obtain hu | hu := List.mem_append.mp hu
  · exact List.mem_append_left _ (List.mem_map_of_mem hu)
  · obtain rfl := List.mem_singleton.mp hu
    exact (heof hlast).elim

section

variable {rules : ScanRules} {filename : String} {junk text : List Char}

/-- Of two texts one after the other, the symbols are those of one and what looks like those of the other, and so are the
faults. -/
theorem body_concatenation (hline : junk.getLast? = some '\n')
    (houtside : EndsOutside rules (.ofNormalized filename junk)) :
    ∃ others, Scan.body rules (.ofNormalized filename (junk ++ text)) =
        Scan.body rules (.ofNormalized filename junk) ++ others ∧
      sight .always others = sight .always (Scan.body rules (.ofNormalized filename text)) ∧
      ((Scan.symbols rules (.ofNormalized filename (junk ++ text))).flatMap fun u => unplacedAll u.faults) =
        ((Scan.symbols rules (.ofNormalized filename junk)).flatMap fun u => unplacedAll u.faults) ++
          (Scan.symbols rules (.ofNormalized filename text)).flatMap fun u => unplacedAll u.faults := by
  have hreads := reads_symbols rules (.ofNormalized filename junk) le_rfl
  have hreads' := reads_symbols rules (.ofNormalized filename (junk ++ text)) le_rfl
  obtain ⟨front, last, b, back, found, hfront, hlast, hothers, hboth, halike⟩ := houtside.append hline
    (reads_symbols rules (.ofNormalized filename text) le_rfl) rfl (t := .ofNormalized filename (junk ++ text)) rfl rfl
  obtain ⟨body, last', hbody, hnone, -⟩ := hfront.eq_append
  have hnone : ∀ u ∈ front, u.symbol.token ≠ .eof := (List.append_inj' hbody rfl).1 ▸ hnone
  have htake : ∀ others : List Scanned, ((front ++ others).map (·.symbol)).takeWhile (·.token ≠ .eof) =
      front.map (·.symbol) ++ (others.map (·.symbol)).takeWhile (·.token ≠ .eof) := by
    intro others
    rw [List.map_append, List.takeWhile_append_of_pos (by simpa using hnone)]
  refine ⟨(found.map (·.symbol)).takeWhile (·.token ≠ .eof), ?_, ?_, ?_⟩
  · rw [Scan.body, Scan.body, hreads.unique hfront, hreads'.unique hboth, htake, htake]
    simp [hlast]
  · have hsame : List.Forall₂ Symbol.Same ((b :: back).map (·.symbol)) (found.map (·.symbol)) := by
      have hmapped : (b :: back).map (·.symbol) =
          (⟨b.symbol, last.faults ++ b.faults⟩ :: back : List Scanned).map (·.symbol) := rfl
      rw [hmapped, List.forall₂_map_left_iff, List.forall₂_map_right_iff]
      exact halike.imp fun u v huv => ⟨huv.token, huv.lexeme⟩
    rw [Scan.body, hothers, sight_takeWhile, sight_takeWhile, sight_congr _ hsame]
  · have hfaults := faults_of_alike halike
    rw [hreads.unique hfront, hreads'.unique hboth, hothers, List.flatMap_append, ← hfaults]
    simp

end

section

variable {o : Options} {filename : String} {junk text : List Char}

/-- In front of a text that is parsed without errors, junk changes nothing of the module. Besides the reports of that
text, there are one unexpected token and the faults of the junk. -/
theorem parse_concatenation (hline : junk.getLast? = some '\n')
    (houtside : EndsOutside o.scanRules (.ofNormalized filename junk))
    (hsome : ∃ u ∈ Scan.symbols o.scanRules (.ofNormalized filename junk),
      u.symbol.token ≠ .pragma ∧ u.symbol.token ≠ .eof)
    (hnone : ∀ u ∈ Scan.symbols o.scanRules (.ofNormalized filename junk),
      u.symbol.token ≠ .kwModule ∧ u.symbol.token ≠ .kwImplementation)
    (hzero : (parse o .implementation (.ofNormalized filename text)).errorCount = 0) :
    (parse o .implementation (.ofNormalized filename (junk ++ text))).module? =
        (parse o .implementation (.ofNormalized filename text)).module? ∧
      ∃ d : Diagnostic, d.code = .unexpectedToken ∧
        ((parse o .implementation (.ofNormalized filename (junk ++ text))).diagnostics.map Diagnostic.unplaced).Perm
          (d :: ((Scan.symbols o.scanRules (.ofNormalized filename junk)).flatMap fun u => unplacedAll u.faults) ++
            (parse o .implementation (.ofNormalized filename text)).diagnostics.map .unplaced) := by
  obtain ⟨others, hbody, hsight, hfaults⟩ := @body_concatenation _ _ _ text hline houtside
  obtain ⟨u, hu, hpragma, heof⟩ := hsome
  have hplain : ∃ v ∈ Scan.body o.scanRules (.ofNormalized filename junk), v.token ≠ .pragma :=
    ⟨u.symbol, mem_body le_rfl hu heof, hpragma⟩
  have hjunk : ∀ v ∈ Scan.body o.scanRules (.ofNormalized filename junk),
      v.token ≠ .kwModule ∧ v.token ≠ .kwImplementation := by
    intro v hv
    obtain ⟨w, hw, rfl⟩ := List.mem_map.mp ((List.takeWhile_sublist _).mem hv)
    exact hnone w hw
  have hahead : ∀ cs, (ParserState.start o (.ofSource o (.ofNormalized filename cs))).reader.ahead =
      Scan.body o.scanRules (.ofNormalized filename cs) := fun cs => Scan.ahead_ofSource le_rfl
  have hstart : ∀ cs, (ParserState.start o (.ofSource o (.ofNormalized filename cs))).reader.reports =
      (Scan.symbols o.scanRules (.ofNormalized filename cs)).flatMap fun u => unplacedAll u.faults :=
    fun cs => reports_ofSource o _
  -- without the junk, the heading comes first
  have hrun := (@parseSymbols_completes o .implementation (.ofNormalized filename text) le_rfl).advances
  obtain ⟨t, hheading, hreports, hrest⟩ := hrun.heading (ready_start le_rfl) hzero
  -- with the junk, it is skipped to
  have hrun' := (@parseSymbols_completes o .implementation (.ofNormalized filename (junk ++ text)) le_rfl).advances
  obtain ⟨t', d, hheading', hd, hreports', hrest'⟩ := hrun'.no_heading (ready_start le_rfl) (by
    rw [hahead, hbody]
    exact no_heading_append hjunk hplain _)
  have hsees : t.SeesAlike .always t' := by
    refine hheading.seesAlike hheading' ?_ ?_ rfl
    · rw [hahead, hahead, hbody, afterSkip_append hjunk, sight_afterSkip contains_headings_pragma,
        sight_afterSkip contains_headings_pragma, hsight]
    · exact (last_ofSource le_rfl).trans (last_ofSource le_rfl).symm
  have hmore : t'.reader.reports.Perm (d :: ((Scan.symbols o.scanRules (.ofNormalized filename junk)).flatMap
      fun u => unplacedAll u.faults) ++ t.reader.reports) := by
    rw [hstart] at hreports hreports'
    refine hreports'.trans (.trans ?_ (hreports.symm.append_left _))
    rw [hfaults, List.cons_append]
  obtain ⟨hmodule, hend, htotal⟩ := hrest.reporting hrest' hsees hmore
  obtain ⟨heof, hunseen⟩ := at_end_parse le_rfl hzero
  rw [reports_parse hunseen, reports_parse (hend.ready'.ends.unseen_eq_nil (hend.next.1.symm.trans heof))] at htotal
  exact ⟨by rw [module?_parse, module?_parse, hmodule], d, hd, htotal⟩

end

/-- Diagnostics that are the same but for places are as many of a kind, if the kind has nothing to do with places. -/
theorem length_filter_of_perm {p : Diagnostic → Bool} (hp : ∀ d, p d.unplaced = p d) {ds faults ds' : List Diagnostic}
    {d : Diagnostic} (h : (ds.map Diagnostic.unplaced).Perm (d :: unplacedAll faults ++ ds'.map .unplaced)) :
    (ds.filter p).length = ([d].filter p).length + (faults.filter p).length + (ds'.filter p).length := by
  have hsame : ∀ es : List Diagnostic, ((es.map Diagnostic.unplaced).filter p).length = (es.filter p).length := by
    intro es
    have hp : (fun d : Diagnostic => p d.unplaced) = p := funext hp
    rw [List.filter_map, List.length_map, Function.comp_def, hp]
  have hlength := (h.filter p).length_eq
  rw [← List.singleton_append, List.filter_append, List.filter_append, List.length_append, List.length_append] at hlength
  rwa [hsame, unplacedAll, hsame, hsame] at hlength

/-- A text `junk` ends with a line end, outside comments, pragmas and disabled sections, and has symbols besides pragmas,
none of which heads a module. In front of a text that is parsed without errors, under all options, it changes nothing of
the module. It is reported as one unexpected token; besides this there are as many errors as scanning finds in it. -/
theorem junk_before_heading (o : Options) (filename junk text : String) (g m s : Source)
    (hg : Source.ofText filename junk = .ok g) (hm : Source.ofText filename text = .ok m)
    (h : Source.ofText filename (junk ++ text) = .ok s) (hline : junk.toList.getLast? = some '\n')
    (houtside : EndsOutside o.scanRules g)
    (hsome : ∃ u ∈ Scan.symbols o.scanRules g, u.symbol.token ≠ .pragma ∧ u.symbol.token ≠ .eof)
    (hnone : ∀ u ∈ Scan.symbols o.scanRules g, u.symbol.token ≠ .kwModule ∧ u.symbol.token ≠ .kwImplementation)
    (hzero : (parse o .implementation m).errorCount = 0) :
    (parse o .implementation s).module? = (parse o .implementation m).module? ∧
      ((parse o .implementation s).diagnostics.filter (·.code = .unexpectedToken)).length = 1 ∧
      (parse o .implementation s).errorCount =
        1 + (((Scan.symbols o.scanRules g).flatMap (·.faults)).filter (·.isError)).length := by
  have hsplit : LineEnds.normalize (junk ++ text).toList =
      LineEnds.normalize junk.toList ++ LineEnds.normalize text.toList := by
    rw [String.toList_append]
    exact LineEnds.normalize_append (by simp [hline])
  obtain rfl := Source.eq_ofNormalized hg
  obtain rfl := Source.eq_ofNormalized hm
  obtain rfl := Source.eq_ofNormalized h
  rw [hsplit]
  obtain ⟨hmodule, d, hd, hreports⟩ :=
    parse_concatenation (LineEnds.getLast?_normalize hline) houtside hsome hnone hzero
  clear hg hm h hsplit hline
  generalize LineEnds.normalize junk.toList = junk at hreports hmodule ⊢
  generalize LineEnds.normalize text.toList = text at hreports hmodule hzero ⊢
  have hcounts := (@counts_parse o .implementation (.ofNormalized filename text) le_rfl).1
  rw [← unplacedAll_flatMap] at hreports
  refine ⟨hmodule, ?_, ?_⟩
  · -- neither the faults of the junk nor the reports of the text are unexpected tokens
    have hlexical := (reads_symbols o.scanRules (.ofNormalized filename junk) le_rfl).ascending.lexical
    have hfaults : ((Scan.symbols o.scanRules (.ofNormalized filename junk)).flatMap (·.faults)).filter
        (·.code = .unexpectedToken) = [] := by
      rw [List.filter_eq_nil_iff]
      intro e he hcode
      obtain ⟨u, hu, hmem⟩ := List.mem_flatMap.mp he
      have hcategory := hlexical u hu e hmem
      rw [of_decide_eq_true hcode] at hcategory
      cases hcategory
    have hquiet : (parse o .implementation (.ofNormalized filename text)).diagnostics.filter
        (·.code = .unexpectedToken) = [] := by
      have hnone := List.length_eq_zero_iff.mp (hcounts.symm.trans hzero)
      rw [List.filter_eq_nil_iff] at hnone ⊢
      intro e he hcode
      refine hnone e he ?_
      rw [Diagnostic.isError, of_decide_eq_true hcode]
      rfl
    rw [length_filter_of_perm (fun _ => rfl) hreports, hfaults, hquiet]
    simp [hd]
  · have herror : d.isError = true := by
      rw [Diagnostic.isError, hd]
      rfl
    rw [(counts_parse le_rfl).1, length_filter_of_perm (fun _ => rfl) hreports, ← hcounts, hzero]
    simp [herror]

/-- A program after a string that reaches the end of its line and a disabled section. -/
theorem junk_before_heading_string :
    ∃ g m s, Source.ofText "m" "'a\n?<\n>?\n" = .ok g ∧ Source.ofText "m" "MODULE M; END M." = .ok m ∧
      Source.ofText "m" ("'a\n?<\n>?\n" ++ "MODULE M; END M.") = .ok s ∧ EndsOutside Options.standard.scanRules g ∧
      (parse .standard .implementation s).module? = (parse .standard .implementation m).module? ∧
      (parse .standard .implementation s).errorCount = 2 := by
  have hg : Source.ofText "m" "'a\n?<\n>?\n" = .ok (.ofNormalized "m" "'a\n?<\n>?\n".toList) := by rfl
  have hm : Source.ofText "m" "MODULE M; END M." = .ok (.ofNormalized "m" "MODULE M; END M.".toList) := by rfl
  have h : Source.ofText "m" ("'a\n?<\n>?\n" ++ "MODULE M; END M.") =
      .ok (.ofNormalized "m" ("'a\n?<\n>?\n" ++ "MODULE M; END M.").toList) := by rfl
  have houtside : EndsOutside Options.standard.scanRules (.ofNormalized "m" "'a\n?<\n>?\n".toList) := by
    have hfinds := finds_symbol Options.standard.scanRules (.ofNormalized "m" "'a\n?<\n>?\n".toList) (by decide)
    refine ⟨_, _, .cons hfinds (by decide +kernel) .nil, by decide +kernel, ?_⟩
    have hplace : (symbol Options.standard.scanRules (.ofNormalized "m" "'a\n?<\n>?\n".toList)).2.position = ⟨1, 3⟩ ∧
        (symbol Options.standard.scanRules (.ofNormalized "m" "'a\n?<\n>?\n".toList)).2.rest =
          '\n' :: ('?' :: '<' :: "\n>?\n".toList ++ []) := by decide +kernel
    rw [hplace.1, hplace.2]
    exact .layout (.inr (.inr rfl)) (.disabled rfl
      (.other (by decide) (.other (by decide) (.line (.other (by decide) (.other (by decide) .ended))))) .nil)
  obtain ⟨hmodule, -, hcount⟩ := junk_before_heading .standard "m" _ _ _ _ _ hg hm h (by decide) houtside
    (by decide +kernel) (by decide +kernel) (by decide)
  exact ⟨_, _, _, hg, hm, h, houtside, hmodule, hcount.trans (by decide +kernel)⟩

end Modula
