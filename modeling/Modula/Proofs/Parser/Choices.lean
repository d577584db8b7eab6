import Modula.Proofs.Parser.Parses

/-!
# Scripts that choose

A script chooses between the alternatives of a row by the next token. Whether it tests for the start of a production,
for a single token, or looks the token up in a table, the token has to be one that the alternative can start with, and
then it can be none that another alternative can start with.
-/

set_option autoImplicit false

namespace Modula.Script.Parses

variable {g : Grammar} {x : String} {known : List Symbol → Prop} {α : Type} {script c d : Script α}
  {es a b : List Ebnf} {R : α → Prop}

/-! ## What is known -/

/-- What is known after a test for the start of a production. -/
abbrev Starts (g : Grammar) (p : Production) : List Symbol → Prop :=
  fun v => (p.first g.context).contains (firstToken v) = true

/-- A production that can start with one token only. -/
theorem eq_of_starts {p : Production} {t : Token} {v : List Symbol} (hp : p.first g.context = {t}) (hv : Starts g p v) :
    firstToken v = t := by
  have hfirst : (p.first g.context).contains (firstToken v) = true := hv
  rw [hp, TokenSet.contains_singleton] at hfirst
  exact of_decide_eq_true hfirst

/-- What is known after a test for a token. -/
abbrev Next (t : Token) : List Symbol → Prop := fun v => firstToken v = t

/-! ## Alternatives that are known -/

/-- An alternative is decided if its sides start apart and each side is decided. -/
theorem decides_alt {after : TokenSet} (h : decides g.context (.alt a b :: es) after = true) :
    (leads g.context a (leads g.context es after)).isDisjoint (leads g.context b (leads g.context es after)) = true ∧
      decides g.context (a ++ es) after = true ∧ decides g.context (b ++ es) after = true := by
  rw [decides, Ebnf.decides] at h
  simp only [Bool.and_eq_true] at h
  obtain ⟨⟨hdisjoint, ha, hb⟩, hes⟩ := h
  exact ⟨hdisjoint, by rw [decides_append, ha, hes, Bool.and_self], by rw [decides_append, hb, hes, Bool.and_self]⟩

/-- The first alternative, if it can start with the next token. -/
theorem left (hknown : ∀ v, known v → (firstOf g.context a).contains (firstToken v) = true)
    (h : Parses g x known script (a ++ es) R) : Parses g x known script (.alt a b :: es) R := by
  refine ⟨fun v hv => ?_, fun after v u hdecides hv hu hafter => ?_⟩
  · refine (h.sound v hv).mono ?_
    rintro r u ⟨hu, hr⟩
    exact ⟨takes_alt.mpr (.inl hu), hr⟩
  · obtain ⟨hdisjoint, hleft, -⟩ := decides_alt hdecides
    obtain hu | hu := takes_alt.mp hu
    · exact h.complete after v u hleft hv hu hafter
    · have hlead := hu.leads hafter
      rw [leads_append] at hlead
      have hfirst : (leads g.context a (leads g.context es after)).contains (firstToken v) = true := by
        rw [contains_leads, hknown v hv, Bool.true_or]
      rw [TokenSet.not_contains_of_isDisjoint hdisjoint hfirst] at hlead
      cases hlead

/-- The second alternative, if the first one has to start with another token. -/
theorem right (hnull : allNullable a = false)
    (hknown : ∀ v, known v → (firstOf g.context a).contains (firstToken v) = false)
    (h : Parses g x known script (b ++ es) R) : Parses g x known script (.alt a b :: es) R := by
  refine ⟨fun v hv => ?_, fun after v u hdecides hv hu hafter => ?_⟩
  · refine (h.sound v hv).mono ?_
    rintro r u ⟨hu, hr⟩
    exact ⟨takes_alt.mpr (.inr hu), hr⟩
  · obtain ⟨-, -, hright⟩ := decides_alt hdecides
    obtain hu | hu := takes_alt.mp hu
    · obtain ⟨m, hm, -⟩ := takes_append.mp hu
      have hfirst := hm.first hnull
      rw [hknown v hv] at hfirst
      cases hfirst
    · exact h.complete after v u hright hv hu hafter

/-- One of several alternatives, which is the first one that can start with the next token. -/
theorem pick {as : List (List Ebnf)} (hnull : as.all (!allNullable ·) = true)
    (hknown : ∀ v, known v → as.find? (fun a => (firstOf g.context a).contains (firstToken v)) = some a)
    (h : Parses g x known script a R) : Parses g x known script (Ebnf.oneOf as) R := by
  refine of_each fun v hv => ?_
  have hat : Parses g x (· = v) script a R := h.of_known fun w hw => hw ▸ hv
  have hfind := hknown v hv
  clear hknown h
  induction as with
  | nil => cases hfind
  | cons a' as ih =>
    rw [List.all_cons, Bool.and_eq_true, Bool.not_eq_true'] at hnull
    rw [List.find?_cons] at hfind
    cases as with
    | nil =>
      split at hfind
      · cases hfind
        exact hat
      · cases hfind
    | cons a'' as =>
      show Parses g x (· = v) script [.alt a' (Ebnf.oneOf (a'' :: as))] R
      split at hfind
      · next hfirst =>
        cases hfind
        exact left (fun w hw => hw ▸ hfirst) (by simpa using hat)
      · next hfirst =>
        exact right hnull.1 (fun w hw => hw ▸ hfirst) (by simpa using ih hnull.2 hfind)

/-- The alternative that can start with the next token, where that has been looked up. -/
theorem pickNext {as : List (List Ebnf)} {t : Token} (hnull : as.all (!allNullable ·) = true)
    (hfind : as.find? (fun a => (firstOf g.context a).contains t) = some a) (h : Parses g x (Next t) script a R) :
    Parses g x (Next t) script (Ebnf.oneOf as) R :=
  pick hnull (fun v hv => by rw [hv, hfind]) h

/-! ## Tests -/

/-- A test for the tokens that the first alternative can start with. -/
theorem choice (test : Token → Bool) (htest : ∀ t, test t = (firstOf g.context a).contains t)
    (hnull : allNullable a = false)
    (hc : Parses g x (fun v => known v ∧ test (firstToken v) = true) c (a ++ es) R)
    (hd : Parses g x (fun v => known v ∧ test (firstToken v) = false) d (b ++ es) R) :
    Parses g x known (Script.lookahead >>= fun t => if test t = true then c else d) (.alt a b :: es) R := by
  refine lookahead fun t => ?_
  cases ht : test t with
  | true =>
    rw [if_pos rfl]
    refine left (fun v hv => ?_) (hc.of_known fun v hv => ⟨hv.1, by rw [hv.2, ht]⟩)
    rw [hv.2, ← htest, ht]
  | false =>
    rw [if_neg (by simp)]
    refine right hnull (fun v hv => ?_) (hd.of_known fun v hv => ⟨hv.1, by rw [hv.2, ht]⟩)
    rw [hv.2, ← htest, ht]

/-- Whether the next token can start a production decides whether the first alternative is taken. -/
theorem starts {p : Production} (ha : firstOf g.context a = p.first g.context) (hnull : allNullable a = false)
    (hc : Parses g x (Starts g p) c (a ++ es) R) (hd : Parses g x (fun v => known v ∧ ¬Starts g p v) d (b ++ es) R) :
    Parses g x known (Script.starts g.context p >>= fun b => if b = true then c else d) (.alt a b :: es) R :=
  have h := choice (p.first g.context).contains (fun t => by rw [ha]) hnull (hc.of_known fun v hv => hv.2)
    (hd.of_known fun v hv => ⟨hv.1, by simp [hv.2]⟩)
  ⟨h.sound, h.complete⟩

/-- Whether a token is next decides whether the first alternative is taken. -/
theorem nextIs {t : Token} (ha : firstOf g.context a = {t}) (hnull : allNullable a = false)
    (hc : Parses g x (Next t) c (a ++ es) R) (hd : Parses g x known d (b ++ es) R) :
    Parses g x known (Script.nextIs t >>= fun b => if b = true then c else d) (.alt a b :: es) R :=
  have h := choice (fun u => decide (u = t)) (fun u => by rw [ha, TokenSet.contains_singleton]) hnull
    (hc.of_known fun v hv => of_decide_eq_true hv.2) (hd.of_known fun v hv => hv.1)
  ⟨h.sound, h.complete⟩

/-- A test for the start of a production that is known to fail. -/
theorem startsNot {p : Production} (hknown : ∀ v, known v → ¬Starts g p v) (hd : Parses g x known d es R) :
    Parses g x known (Script.starts g.context p >>= fun b => if b = true then c else d) es R := by
  refine ⟨fun v hv => ?_, fun after v u hdecides hv hu hafter => ?_⟩
  · show Ensures (sounding g) (if (p.first g.context).contains (firstToken v) = true then c else d) _ _
    rw [if_neg (hknown v hv)]
    exact hd.sound v hv
  · show Ensures (completing g) (if (p.first g.context).contains (firstToken v) = true then c else d) _ _
    rw [if_neg (hknown v hv)]
    exact hd.complete after v u hdecides hv hu hafter

/-- An optional part that starts with a token. The script goes on with what the part yields, or with what stands for
it. -/
theorem optionalNext {β : Type} {S : β → Prop} {t : Token} {next : β → Script α} {r : β} (ha : firstOf g.context a = {t})
    (hnull : allNullable a = false) (hr : S r) (hnext : ∀ b, S b → Parses g x Unknown (next b) es R)
    (hc : (∀ b, S b → Parses g x Unknown (next b) es R) → Parses g x (Next t) c (a ++ es) R) :
    Parses g x known (Script.nextIs t >>= fun b => if b = true then c else Script.pure r >>= next) (Ebnf.opt a :: es) R :=
  nextIs ha hnull (hc hnext) (bind (pure (R := S) hr) hnext)

/-- An optional part that starts as a production does. -/
theorem optionalStarts {β : Type} {S : β → Prop} {p : Production} {next : β → Script α} {r : β}
    (ha : firstOf g.context a = p.first g.context) (hnull : allNullable a = false) (hr : S r)
    (hnext : ∀ b, S b → Parses g x Unknown (next b) es R)
    (hc : (∀ b, S b → Parses g x Unknown (next b) es R) → Parses g x (Starts g p) c (a ++ es) R) :
    Parses g x known (Script.starts g.context p >>= fun b => if b = true then c else Script.pure r >>= next)
      (Ebnf.opt a :: es) R :=
  starts ha hnull (hc hnext) (bind (pure (R := S) hr) hnext)

/-- Where the row cannot start with the next token, nothing is derived, and something may be reported. -/
theorem rejected {expected : Expected} {next : Unit → Script α} (hnull : allNullable es = false) :
    Parses g x (fun v => (firstOf g.context es).contains (firstToken v) = false) (act (.reject expected) >>= next) es R := by
  refine ⟨fun v _ => trivial, fun after v u _ hv hu _ => ?_⟩
  rw [hu.first hnull] at hv
  cases hv

/-- Where a row cannot start there is nothing that it takes. -/
theorem noAlternative {p : Production} {R : Node → Prop} (hnull : allNullable es = false) :
    Parses g x (fun v => (firstOf g.context es).contains (firstToken v) = false) (Script.noAlternative g.context p) es R :=
  rejected hnull

/-- A test without which there is no alternative. It only has to be right for tokens that may be next. -/
theorem demandTest (test : Token → Bool)
    (htest : ∀ v, known v → test (firstToken v) = (firstOf g.context es).contains (firstToken v))
    (hc : Parses g x (fun v => (firstOf g.context es).contains (firstToken v) = true) c es R)
    (hd : Parses g x (fun v => (firstOf g.context es).contains (firstToken v) = false) d es R) :
    Parses g x known (Script.lookahead >>= fun t => if test t = true then c else d) es R := by
  refine lookahead fun t => ?_
  cases ht : test t with
  | true =>
    rw [if_pos rfl]
    exact hc.of_known fun v hv => by rw [← htest v hv.1, hv.2, ht]
  | false =>
    rw [if_neg (by simp)]
    exact hd.of_known fun v hv => by rw [← htest v hv.1, hv.2, ht]

/-- A row that has to be there is read if it starts, and rejected otherwise. -/
theorem demandStarts {p : Production}
    (he : ∀ v, known v → (p.first g.context).contains (firstToken v) = (firstOf g.context es).contains (firstToken v))
    (hc : Parses g x (fun v => (firstOf g.context es).contains (firstToken v) = true) c es R)
    (hd : Parses g x (fun v => (firstOf g.context es).contains (firstToken v) = false) d es R) :
    Parses g x known (Script.starts g.context p >>= fun b => if b = true then c else d) es R :=
  have h : Parses g x known (Script.lookahead >>= fun t => if (p.first g.context).contains t = true then c else d) es R :=
    demandTest (p.first g.context).contains he hc hd
  ⟨h.sound, h.complete⟩

/-- So is a row that starts with one token. -/
theorem demandNext {t : Token} (he : firstOf g.context es = {t}) (hc : Parses g x (Next t) c es R)
    (hd : Parses g x (fun v => (firstOf g.context es).contains (firstToken v) = false) d es R) :
    Parses g x known (Script.nextIs t >>= fun b => if b = true then c else d) es R :=
  have h : Parses g x known (Script.lookahead >>= fun u => if decide (u = t) = true then c else d) es R :=
    demandTest (fun u => decide (u = t)) (fun v _ => by rw [he, TokenSet.contains_singleton])
      (hc.of_known fun v hv => by simpa [he] using hv) hd
  ⟨h.sound, h.complete⟩

end Modula.Script.Parses
