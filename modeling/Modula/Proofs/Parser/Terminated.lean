import Modula.Proofs.Parser.Repeats

/-!
# Scripts for items with semicolons

Where items have semicolons between them and perhaps one after the last of them, one token does not tell whether a
semicolon is the last one. The parser takes it and then looks at the next token: if it is one of those that can come
after the row, there is no further item.
-/

set_option autoImplicit false

namespace Modula.Script

variable {g : Grammar} {x : String} {es : List Ebnf}

open Parses

/-- What comes after an item that a semicolon follows: the next item, or the end of the row, which is warned of. -/
def afterSemicolon (follow : TokenSet) (errant : Code) (item : Script Node) (items : List Node) :
    Script (ForInStep (List Node)) := do
  skip
  if follow.contains (← Script.lookahead) then
    act (.warnAccepted errant)
    return .done items
  return .yield ((← item) :: items)

/-- The end of a row of items, after the last of them. -/
def lastSemicolon : List Ebnf := [Ebnf.opt [.token .semicolon]]

/-- A row of items, as a repetition of what comes after the first of them. -/
theorem terminated_eq : Grammar.terminated es = es ++ (.many (.token .semicolon :: es) :: lastSemicolon) := by
  simp [Grammar.terminated, Ebnf.separated, lastSemicolon]

variable {follow : TokenSet} {errant : Code} {item : Script Node} {items : List Node} {S : Node → Prop}
  {v u m : List Symbol}

/-- At the end of statements a semicolon may be taken. -/
theorem takes_lastSemicolon :
    Takes g.rules x lastSemicolon v u ↔ u = v ∨ ∃ s : Symbol, s.token = .semicolon ∧ v = s :: u := by
  unfold lastSemicolon Ebnf.opt
  rw [takes_alt, or_comm]
  simp only [List.append_nil, takes_nil, takes_token]
  grind

/-- A semicolon is taken together with the next item, or alone as the last one. -/
theorem ensures_afterSemicolon_sounding (herrant : errant.isError = false) (hitem : Parses g x Unknown item es S)
    (hv : firstToken v = .semicolon) :
    (afterSemicolon follow errant item items).Ensures (sounding g) v fun
      | .done _, u => Takes g.rules x lastSemicolon v u
      | .yield _, u => Takes g.rules x (.token .semicolon :: es) v u := by
  cases v with
  | nil => cases hv
  | cons s v =>
    rintro lexeme -
    show Ensures (sounding g) (if follow.contains (firstToken v) = true then _ else _) _ _
    rw [ensures_ite]
    refine ⟨fun _ => ⟨herrant, takes_lastSemicolon.mpr (.inr ⟨s, hv, rfl⟩)⟩, fun _ => ?_⟩
    refine (hitem.sound v trivial).mono ?_
    rintro n u ⟨hu, -⟩
    exact takes_token.mpr ⟨s, v, rfl, hv, hu⟩

/-- If an item comes after the semicolon, it is taken. -/
theorem ensures_afterSemicolon_more (hitem : Parses g x Unknown item es S) (hnull : allNullable es = false)
    (hfollow : (firstOf g.context es).isDisjoint follow = true) {after : TokenSet}
    (hdecides : decides g.context es after = true) (hv : Takes g.rules x (.token .semicolon :: es) v m)
    (hafter : after.contains (firstToken m) = true) :
    (afterSemicolon follow errant item items).Ensures (completing g) v fun
      | .done _, _ => False
      | .yield _, w => w = m := by
  obtain ⟨s, v, rfl, -, hm⟩ := takes_token.mp hv
  rintro lexeme -
  show Ensures (completing g) (if follow.contains (firstToken v) = true then _ else _) _ _
  rw [if_neg (by rw [TokenSet.not_contains_of_isDisjoint hfollow (hm.first hnull)]; simp)]
  refine (hitem.complete after v m hdecides trivial hm hafter).mono ?_
  rintro n w ⟨hw, -⟩
  exact hw

/-- If the row ends after the semicolon, nothing else is taken. -/
theorem ensures_afterSemicolon_stop {s : Symbol} (herrant : errant.isError = false)
    (hu : follow.contains (firstToken u) = true) :
    (afterSemicolon follow errant item items).Ensures (completing g) (s :: u) fun
      | .done _, w => w = u
      | .yield _, _ => False := by
  rintro lexeme -
  show Ensures (completing g) (if follow.contains (firstToken u) = true then _ else _) _ _
  rw [if_pos hu]
  exact ⟨herrant, rfl⟩

/-- What a round of the loop over the items after the first one does at a token: it goes on at a semicolon, and at
another token it ends, or rejects the token if that cannot come after the row. -/
structure SemicolonRound (follow : TokenSet) (errant : Code) (item : Script Node)
    (step : List Node → Token → Script (ForInStep (List Node))) : Prop where
  semicolon (items : List Node) : step items .semicolon = afterSemicolon follow errant item items
  other (items : List Node) (t : Token) : t ≠ .semicolon → step items t = Pure.pure (.done items) ∨
    follow.contains t = false ∧ ∃ e next, step items t = act (.reject e) >>= next

/-- What one token decides about a row of items. -/
structure SemicolonRow (g : Grammar) (follow : TokenSet) (es : List Ebnf) : Prop where
  nonempty : allNullable es = false
  apart : (firstOf g.context es).isDisjoint follow = true
  semicolon : follow.contains .semicolon = false
  decided : decides g.context es (follow.insert .semicolon) = true

/-- Items with semicolons between them and perhaps one after the last of them. -/
theorem parsesBefore_terminated {first : Script Node} {step : List Node → Token → Script (ForInStep (List Node))}
    {known : List Symbol → Prop} (hrow : SemicolonRow g follow es) (herrant : errant.isError = false)
    (hround : SemicolonRound follow errant item step) (hfirst : Parses g x known first es S)
    (hitem : Parses g x Unknown item es S) :
    ParsesBefore g x follow known (first >>= fun n => loop [n] fun items => lookahead >>= step items)
      (Grammar.terminated es) fun _ => True := by
  have hlead : ∀ u w, follow.contains (firstToken u) = true →
      Takes g.rules x (.many (.token .semicolon :: es) :: lastSemicolon) w u →
      (follow.insert .semicolon).contains (firstToken w) = true := by
    intro u w hu hw
    have hlead := hw.leads hu
    simp [contains_leads, lastSemicolon, Ebnf.opt, Ebnf.first, Ebnf.isNullable] at hlead
    simpa [or_comm] using hlead
  rw [terminated_eq]
  refine ⟨fun v hv => ?_, fun v u hv hu hafter => ?_⟩
  -- what is taken is derived: a round without a semicolon stops, or it rejects
  · refine ensures_bind.mpr ((hfirst.sound v hv).mono fun n m hm => ?_)
    refine Ensures.mono (fun _ u hu => ⟨takes_append.mpr ⟨m, hm.1, hu.1⟩, trivial⟩)
      (ensures_loop_sounding (I := fun _ => True) (R := fun _ => True) trivial fun items w _ => ?_)
    show (step items (firstToken w)).Ensures (sounding g) w _
    by_cases hw : firstToken w = .semicolon
    · rw [hw, hround.semicolon]
      refine (ensures_afterSemicolon_sounding herrant hitem hw).mono ?_
      rintro (items | items) u hu <;> exact ⟨hu, trivial⟩
    · obtain hdone | ⟨-, e, next, hreject⟩ := hround.other items _ hw
      · rw [hdone]
        exact ⟨takes_lastSemicolon.mpr (.inl rfl), trivial⟩
      · rw [hreject]
        trivial
  -- what is derived is taken: after a semicolon the next token tells whether it is the last one
  · obtain ⟨m, hm, hmany⟩ := takes_append.mp hu
    refine ensures_bind.mpr ((hfirst.complete _ v m hrow.decided hv hm (hlead u m hafter hmany)).mono ?_)
    rintro n w ⟨rfl, -⟩
    refine ensures_loop_completing (I := fun _ => True) (R := fun _ => True) trivial hmany
      (fun items w m _ hw hu => ?_) fun items w _ hw => ?_
    · show (step items (firstToken w)).Ensures (completing g) w _
      have hnext : firstToken w = .semicolon := by
        obtain ⟨s, w, rfl, hs, -⟩ := takes_token.mp hw
        exact hs
      rw [hnext, hround.semicolon]
      refine (ensures_afterSemicolon_more hitem hrow.nonempty hrow.apart hrow.decided hw (hlead u m hafter hu)).mono ?_
      rintro (items | items) w' hw'
      · exact hw'.elim
      · exact ⟨hw', trivial⟩
    · show (step items (firstToken w)).Ensures (completing g) w _
      obtain rfl | ⟨s, hs, rfl⟩ := takes_lastSemicolon.mp hw
      · have hnext : firstToken u ≠ .semicolon := by
          intro hnext
          rw [hnext, hrow.semicolon] at hafter
          cases hafter
        obtain hdone | ⟨hreject, -⟩ := hround.other items _ hnext
        · rw [hdone]
          exact ⟨rfl, trivial⟩
        · rw [hreject] at hafter
          cases hafter
      · rw [firstToken_cons, hs, hround.semicolon]
        refine (ensures_afterSemicolon_stop herrant hafter).mono ?_
        rintro (items | items) w hw
        · exact ⟨hw, trivial⟩
        · exact hw.elim

/-- Items with semicolons between them, without recovery from a semicolon that is missing. -/
theorem parsesBefore_semicolonSeparated {known : List Symbol → Prop} (hrow : SemicolonRow g follow es)
    (herrant : errant.isError = false) (hfirst : Parses g x known item es S) (hitem : Parses g x Unknown item es S) :
    ParsesBefore g x follow known (semicolonSeparated follow errant item) (Grammar.terminated es) fun _ => True := by
  have hround : SemicolonRound follow errant item fun items t =>
      if decide (t = .semicolon) = true then afterSemicolon follow errant item items else Pure.pure (.done items) :=
    ⟨fun items => if_pos (by simp), fun items t ht => .inl (if_neg (by simpa using ht))⟩
  have hbefore := parsesBefore_terminated hrow herrant hround hfirst hitem
  exact ⟨hbefore.sound, hbefore.complete⟩

/-! ## Rows that may be empty -/

/-- A warning, which takes nothing. -/
theorem Parses.warning {α : Type} {code : Code} {next : Unit → Script α} {known : List Symbol → Prop} {R : α → Prop}
    (hcode : code.isError = false) (h : Parses g x known (next ()) es R) :
    Parses g x known (act (.warnNext code) >>= next) es R :=
  ⟨fun v hv => ⟨hcode, h.sound v hv⟩, fun after v u hdecides hv hu hafter => ⟨hcode, h.complete after v u hdecides hv hu hafter⟩⟩

namespace ParsesBefore

variable {α β : Type} {known : List Symbol → Prop} {R : α → Prop} {after : TokenSet}

/-- Entering a production reads nothing. -/
theorem enter {p : Production} {next : Unit → Script α} (h : ParsesBefore g x after known (next ()) es R) :
    ParsesBefore g x after known (Script.enter p >>= next) es R := ⟨h.sound, h.complete⟩

/-- A script that takes nothing after another one. -/
theorem ending {T : β → Prop} {first : Script β} {next : β → Script α} (hfirst : ParsesBefore g x after known first es T)
    (hnext : ∀ c, T c → Parses g x Unknown (next c) [] R) : ParsesBefore g x after known (first >>= next) es R := by
  refine ⟨fun v hv => ?_, fun v u hv hu hafter => ?_⟩
  · refine ensures_bind.mpr ((hfirst.sound v hv).mono ?_)
    rintro c m ⟨hm, hc⟩
    refine ((hnext c hc).empty_sound m).mono ?_
    rintro r u ⟨rfl, hr⟩
    exact ⟨hm, hr⟩
  · refine ensures_bind.mpr ((hfirst.complete v u hv hu hafter).mono ?_)
    rintro c w ⟨rfl, hc⟩
    exact (hnext c hc).empty_complete w

/-- A row that is absent if the next token can come after it. -/
theorem optional {present absent : Script α} (hnull : allNullable es = false)
    (hapart : (firstOf g.context es).isDisjoint after = true) (habsent : Parses g x Unknown absent [] R)
    (hpresent : ParsesBefore g x after Unknown present es R) :
    ParsesBefore g x after known
      (lookahead >>= fun t => if after.contains t = true then absent else present) [Ebnf.opt es] R := by
  refine ⟨fun v _ => ?_, fun v u _ hu hafter => ?_⟩
  · show Ensures (sounding g) (if after.contains (firstToken v) = true then _ else _) _ _
    rw [ensures_ite]
    refine ⟨fun _ => (habsent.sound v trivial).mono ?_, fun _ => (hpresent.sound v trivial).mono ?_⟩
    · rintro r u ⟨hu, hr⟩
      exact ⟨takes_alt.mpr (.inr hu), hr⟩
    · rintro r u ⟨hu, hr⟩
      exact ⟨takes_alt.mpr (.inl (by simpa using hu)), hr⟩
  · show Ensures (completing g) (if after.contains (firstToken v) = true then _ else _) _ _
    obtain hu | hu := takes_alt.mp hu
    · rw [List.append_nil] at hu
      rw [if_neg (by rw [TokenSet.not_contains_of_isDisjoint hapart (hu.first hnull)]; simp)]
      exact hpresent.complete v u trivial hu hafter
    · obtain rfl := takes_nil.mp hu
      rw [if_pos hafter]
      exact habsent.empty_complete v

end ParsesBefore

/-- What one token decides about a row of items, it decides about the whole row that starts with the first of them. -/
theorem SemicolonRow.whole (h : SemicolonRow g follow es) :
    allNullable (Grammar.terminated es) = false ∧
      (firstOf g.context (Grammar.terminated es)).isDisjoint follow = true := by
  have hfirst : firstOf g.context (Grammar.terminated es) = firstOf g.context es :=
    TokenSet.ext fun t => by simp [terminated_eq, h.nonempty]
  exact ⟨by simp [terminated_eq, h.nonempty], by rw [hfirst, h.apart]⟩

/-- The rows of items in the grammar. Records without variants are extended only if there are none with variants. -/
theorem semicolonRow_rules (g : Grammar) (p item : Production)
    (hp : (p, item) ∈ [(.fieldListSequence, .fieldList), (.variantFieldListSeq, .variantFieldList),
      (.formalParamList, .formalParams), (.statementSequence, .statement)])
    (hextensible : p = .fieldListSequence → g.context.variantRecords = false) :
    SemicolonRow g (p.ends g.context) [.call item] := by
  have hall : ∀ c v, ∀ q ∈ [((.fieldListSequence : Production), (.fieldList : Production)),
      (.variantFieldListSeq, .variantFieldList), (.formalParamList, .formalParams), (.statementSequence, .statement)],
      (q.1 = .fieldListSequence → v = false) →
      allNullable [.call q.2] = false ∧ (firstOf ⟨c, v⟩ [.call q.2]).isDisjoint (q.1.ends ⟨c, v⟩) = true ∧
        (q.1.ends ⟨c, v⟩).contains .semicolon = false ∧
        decides ⟨c, v⟩ [.call q.2] ((q.1.ends ⟨c, v⟩).insert .semicolon) = true := by
    decide
  obtain ⟨hnonempty, hapart, hsemicolon, hdecided⟩ := hall g.context.constParameters g.context.variantRecords _ hp hextensible
  exact ⟨hnonempty, hapart, hsemicolon, hdecided⟩

end Modula.Script
