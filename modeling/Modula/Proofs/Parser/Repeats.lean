import Modula.Proofs.Parser.Choices

/-!
# Scripts that repeat

A loop parses a repetition if each of its rounds either takes one text of the repeated row and goes on, or takes nothing
and ends, as the next token says (`Turns`).
-/

set_option autoImplicit false

namespace Modula.Script

variable {g : Grammar} {x : String} {known : List Symbol → Prop} {α β : Type} {es fs : List Ebnf} {I R : α → Prop}

/-! ## Loops -/

/-- A loop takes a repetition and what its last round takes, if each round before the last one takes one text of the
repeated row. -/
theorem ensures_loop_sounding {init : α} {round : α → Script (ForInStep α)} {v : List Symbol} (hinit : I init)
    (hround : ∀ a w, I a → (round a).Ensures (sounding g) w fun
      | .done b, u => Takes g.rules x fs w u ∧ R b
      | .yield b, u => Takes g.rules x es w u ∧ I b) :
    (loop init round).Ensures (sounding g) v fun b u => Takes g.rules x (.many es :: fs) v u ∧ R b := by
  -- What the loop has taken so far can be put before whatever the repetition takes next.
  refine ⟨fun a w => (∀ u, Takes g.rules x (.many es :: fs) w u → Takes g.rules x (.many es :: fs) v u) ∧ I a,
    ⟨fun u hu => hu, hinit⟩, ?_⟩
  rintro a w ⟨hw, ha⟩
  refine (hround a w ha).mono ?_
  rintro (b | b) u ⟨hu, hb⟩
  · exact ⟨hw u (takes_many.mpr (.inl hu)), hb⟩
  · refine ⟨⟨fun u' hu' => hw u' ?_, hb⟩, trivial⟩
    exact takes_many.mpr (.inr (takes_append.mpr ⟨u, hu, hu'⟩))

/-- A loop takes what the repetition takes if its rounds tell the texts of the repeated row from what comes after the
last one. -/
theorem ensures_loop_completing {init : α} {round : α → Script (ForInStep α)} {v u : List Symbol} (hinit : I init)
    (hu : Takes g.rules x (.many es :: fs) v u)
    (hmore : ∀ a w m, I a → Takes g.rules x es w m → Takes g.rules x (.many es :: fs) m u →
      (round a).Ensures (completing g) w fun
        | .done _, _ => False
        | .yield b, w => w = m ∧ I b)
    (hstop : ∀ a w, I a → Takes g.rules x fs w u → (round a).Ensures (completing g) w fun
      | .done b, w => w = u ∧ R b
      | .yield _, _ => False) :
    (loop init round).Ensures (completing g) v fun b w => w = u ∧ R b := by
  refine ⟨fun a w => Takes g.rules x (.many es :: fs) w u ∧ I a, ⟨hu, hinit⟩, ?_⟩
  rintro a w ⟨hw, ha⟩
  obtain hlast | hnext := takes_many.mp hw
  · refine (hstop a w ha hlast).mono ?_
    rintro (b | b) w' hb
    · exact hb
    · exact hb.elim
  · obtain ⟨m, hm, hu⟩ := takes_append.mp hnext
    refine (hmore a w m ha hm hu).mono ?_
    rintro (b | b) w' hb
    · exact hb.elim
    · obtain ⟨rfl, hb⟩ := hb
      exact ⟨⟨hu, hb⟩, trivial⟩

/-- A round of a loop takes one text of a row and goes on if the next token can start such a text, and otherwise takes
nothing and ends. What is said of the state of the loop is `I`, and of its result `R`. -/
structure Turns (g : Grammar) (x : String) {α : Type} (round : Script (ForInStep α)) (es : List Ebnf)
    (I R : α → Prop) : Prop where
  sound (v : List Symbol) : round.Ensures (sounding g) v fun
    | .done a, u => Takes g.rules x [] v u ∧ R a
    | .yield a, u => Takes g.rules x es v u ∧ I a
  more (after : TokenSet) (v u : List Symbol) : decides g.context es after = true → Takes g.rules x es v u →
    after.contains (firstToken u) = true → round.Ensures (completing g) v fun
      | .done _, _ => False
      | .yield a, w => w = u ∧ I a
  stop (v : List Symbol) : (firstOf g.context es).contains (firstToken v) = false →
    round.Ensures (completing g) v fun
      | .done a, w => w = v ∧ R a
      | .yield _, _ => False

namespace Turns

/-- The result of a round that goes on. -/
def GoesOn (I : α → Prop) : ForInStep α → Prop
  | .done _ => False
  | .yield a => I a

/-- A round that looks at the next token. -/
theorem lookahead {next : Token → Script (ForInStep α)} (hnull : allNullable es = false)
    (hmore : ∀ t, (firstOf g.context es).contains t = true → Parses g x (Parses.Next t) (next t) es (GoesOn I))
    (hstop : ∀ t, (firstOf g.context es).contains t = false → ∃ a, R a ∧ next t = Pure.pure (.done a)) :
    Turns g x (Script.lookahead >>= next) es I R := by
  refine ⟨fun v => ?_, fun after v u hdecides hu hafter => ?_, fun v hv => ?_⟩
  · show (next (firstToken v)).Ensures (sounding g) v _
    cases hfirst : (firstOf g.context es).contains (firstToken v) with
    | true =>
      refine ((hmore _ hfirst).sound v rfl).mono ?_
      rintro (b | b) u ⟨hu, hb⟩
      · exact hb.elim
      · exact ⟨hu, hb⟩
    | false =>
      obtain ⟨a, ha, hnext⟩ := hstop _ hfirst
      rw [hnext]
      exact ⟨takes_nil.mpr rfl, ha⟩
  · refine ((hmore _ (hu.first hnull)).complete after v u hdecides rfl hu hafter).mono ?_
    rintro (b | b) w ⟨hw, hb⟩
    · exact hb.elim
    · exact ⟨hw, hb⟩
  · obtain ⟨a, ha, hnext⟩ := hstop _ hv
    show (next (firstToken v)).Ensures (completing g) v _
    rw [hnext]
    exact ⟨rfl, ha⟩

/-- A round that tests the next token. -/
theorem test (test : Token → Bool) {body : Script (ForInStep α)} {a : α}
    (htest : ∀ t, test t = (firstOf g.context es).contains t) (hnull : allNullable es = false)
    (hbody : Parses g x (fun v => test (firstToken v) = true) body es (GoesOn I)) (ha : R a) :
    Turns g x (Script.lookahead >>= fun t => if test t = true then body else Pure.pure (.done a)) es I R := by
  refine lookahead hnull (fun t ht => ?_) fun t ht => ⟨a, ha, ?_⟩
  · rw [htest, ht, if_pos rfl]
    exact hbody.of_known fun v (hv : firstToken v = t) => by rw [hv, htest, ht]
  · rw [htest, ht, if_neg (by simp)]

/-- A round that starts with a token goes on as long as that is next. -/
theorem nextIs {t : Token} {body : Script (ForInStep α)} {a : α} (he : firstOf g.context es = {t})
    (hnull : allNullable es = false) (hbody : Parses g x (Parses.Next t) body es (GoesOn I)) (ha : R a) :
    Turns g x (Script.nextIs t >>= fun b => if b = true then body else Pure.pure (.done a)) es I R :=
  have h : Turns g x (Script.lookahead >>= fun u => if decide (u = t) = true then body else Pure.pure (.done a)) es I R :=
    test (fun u => decide (u = t)) (fun u => by rw [he, TokenSet.contains_singleton]) hnull
      (hbody.of_known fun v hv => of_decide_eq_true hv) ha
  ⟨h.sound, h.more, h.stop⟩

/-- A round over a production goes on as long as that starts. -/
theorem starts {p : Production} {body : Script (ForInStep α)} {a : α} (he : firstOf g.context es = p.first g.context)
    (hnull : allNullable es = false) (hbody : Parses g x (Parses.Starts g p) body es (GoesOn I)) (ha : R a) :
    Turns g x (Script.starts g.context p >>= fun b => if b = true then body else Pure.pure (.done a)) es I R :=
  have h : Turns g x (Script.lookahead >>= fun t =>
      if (p.first g.context).contains t = true then body else Pure.pure (.done a)) es I R :=
    test (p.first g.context).contains (fun t => by rw [he]) hnull hbody ha
  ⟨h.sound, h.more, h.stop⟩

end Turns

namespace Parses

/-- A repetition is decided if what it repeats does not start like what comes after it. -/
theorem decides_many {a : List Ebnf} {after : TokenSet} (h : decides g.context [.many a] after = true) :
    (firstOf g.context a).isDisjoint after = true ∧ decides g.context a ((firstOf g.context a).union after) = true := by
  rw [decides, Ebnf.decides, leads_nil, decides, Bool.and_true] at h
  simp only [Bool.and_eq_true] at h
  exact ⟨h.1.1, h.2⟩

/-- A loop parses a repetition. -/
theorem loop {init : α} {round : α → Script (ForInStep α)} (hinit : I init)
    (hround : ∀ a, I a → Turns g x (round a) es I R) : Parses g x known (Script.loop init round) [.many es] R := by
  refine ⟨fun v _ => ensures_loop_sounding hinit fun a w ha => (hround a ha).sound w,
    fun after v u hdecides _ hu hafter => ?_⟩
  obtain ⟨hdisjoint, hrow⟩ := decides_many hdecides
  refine ensures_loop_completing hinit hu (fun a w m ha hm hu => ?_) fun a w ha hw => ?_
  · have hlead := hu.leads hafter
    exact (hround a ha).more _ w m hrow hm (by simpa [contains_leads, Ebnf.first, Ebnf.isNullable] using hlead)
  · obtain rfl := takes_nil.mp hw
    refine (hround a ha).stop w ?_
    by_contra hfirst
    rw [TokenSet.not_contains_of_isDisjoint hdisjoint (Bool.not_eq_false _ ▸ hfirst)] at hafter
    cases hafter

/-- Items with a token between them. -/
theorem separated {separator : Token} {item : Script β} {S : β → Prop} (hne : separator ≠ .eof)
    (hfirst : Parses g x known item es S) (hitem : Parses g x Unknown item es S) :
    Parses g x known (Script.separated separator item) (Ebnf.separated separator es) fun _ => True := by
  refine bind hfirst fun first _ => ending (S := fun _ => True) (loop (I := fun _ => True) trivial fun items _ => ?_)
    fun items _ => pure trivial
  exact Turns.nextIs firstOf_token rfl (skip (fun v hv => hv) hne (ending hitem fun b _ => pure trivial)) trivial

/-- Items for as long as the next token can start one. -/
theorem whileStarts {p : Production} {item : Script β} {S : β → Prop} (he : firstOf g.context es = p.first g.context)
    (hnull : allNullable es = false) (hitem : Parses g x (Starts g p) item es S) :
    Parses g x known (Script.whileStarts g.context p item) [.many es] fun _ => True := by
  refine ending (S := fun _ => True) (loop (I := fun _ => True) trivial fun items _ => ?_) fun items _ => pure trivial
  exact Turns.starts he hnull (ending hitem fun b _ => pure trivial) trivial

/-- Operands with operators between them, which a table finds by their tokens. -/
theorem leftAssociative {operators : List Token} {operator? : Token → Option NodeType} {operand : Script Node}
    {first : Node} {S : Node → Prop} (hne : operators ≠ []) (heof : .eof ∉ operators)
    (htable : ∀ t, (operator? t).isSome = decide (t ∈ operators))
    (htype : ∀ t n, operator? t = some n → n ≠ .setValue) (hoperand : Parses g x Unknown operand es S) :
    Parses g x known (Script.leftAssociative operator? operand first) [.many (Ebnf.anyOf operators ++ es)]
      fun _ => True := by
  have hfirst : ∀ t, (firstOf g.context (Ebnf.anyOf operators ++ es)).contains t = (operator? t).isSome := by
    intro t
    rw [contains_firstOf_append, contains_firstOf_anyOf hne, allNullable_anyOf hne, htable, Bool.false_and, Bool.or_false]
  refine loop (I := fun _ => True) trivial fun left _ => Turns.lookahead ?_ (fun t ht => ?_) fun t ht => ⟨left, trivial, ?_⟩
  · rw [allNullable_append, allNullable_anyOf hne, Bool.false_and]
  · rw [hfirst] at ht
    obtain ⟨operator, hoperator⟩ := Option.isSome_iff_exists.mp ht
    have hmem : t ∈ operators := of_decide_eq_true (by rw [← htable, ht])
    rw [hoperator]
    refine skipAny (fun v hv => hv ▸ hmem) heof (ending hoperand fun right _ => ?_)
    exact ending (branch (htype t operator hoperator)) fun node (_ : True) => pure trivial
  · rw [hfirst, Option.isSome_eq_false_iff, Option.isNone_iff_eq_none] at ht
    rw [ht]

/-! ## Items between bars -/

/-- What a script ensures that goes on with the items after an optional one. -/
theorem ensures_optional {A : Abstraction (List Symbol)} {p : Production} {item : Script Node} {items : List Node}
    {next : List Node → Script α} {v : List Symbol} {Q : α → List Symbol → Prop}
    (h : (Script.starts g.context p >>= fun b =>
      if b = true then (item >>= fun n => Pure.pure (n :: items)) else Pure.pure items).Ensures A v
        fun items m => (next items).Ensures A m Q) :
    (Script.starts g.context p >>= fun b =>
      if b = true then (item >>= fun n => Script.pure (n :: items) >>= next) else Script.pure items >>= next).Ensures A v Q := by
  rw [ensures_bind] at h ⊢
  refine h.mono fun b m hb => ?_
  cases b <;> exact hb

/-- Items with bars between them, each of which may be absent. -/
theorem barred {p : Production} {item : Script Node} {S : Node → Prop} (hp : p.isNullable = false)
    (hitem : Parses g x (Starts g p) item [.call p] S) :
    Parses g x known (Script.barred g.context p item) (Ebnf.separated .bar [Ebnf.opt [.call p]]) fun _ => True := by
  have hnull : allNullable [.call p] = false := by simpa [Ebnf.isNullable] using hp
  have hfirst : firstOf g.context [.call p] = p.first g.context := by
    rw [firstOf, Ebnf.isNullable, hp]
    rfl
  have hoptional : ∀ items : List Node, Parses g x Unknown
      (Script.starts g.context p >>= fun b => if b = true then (item >>= fun n => Pure.pure (n :: items)) else Pure.pure items)
      [Ebnf.opt [.call p]] fun _ => True :=
    fun items => starts hfirst hnull (ending hitem fun n _ => pure trivial) (pure trivial)
  have hbar : ∀ items : List Node, Turns g x
      (Script.nextIs .bar >>= fun b =>
        if b = true then (Script.skip >>= fun _ => Pure.pure (.yield items)) else Pure.pure (.done items))
      [.token .bar] (fun _ => True) fun _ => True :=
    fun items => Turns.nextIs firstOf_token rfl (skip (fun v hv => hv) (by simp) (pure trivial)) trivial
  refine ending (S := fun _ => True) (?_ : Parses g x known (Script.loop _ _) _ _) fun items _ => pure trivial
  refine ⟨fun v _ => ?_, fun after v u hdecides _ hu hafter => ?_⟩
  · have htakes : ∀ u, Takes g.rules x [.many ([Ebnf.opt [.call p]] ++ [.token .bar]), Ebnf.opt [.call p]] v u →
        Takes g.rules x (Ebnf.separated .bar [Ebnf.opt [.call p]]) v u := fun u => takes_separated.mpr
    refine Ensures.mono (fun items u hu => ⟨htakes u hu.1, trivial⟩)
      (ensures_loop_sounding (I := fun _ => True) (R := fun _ => True) trivial fun items w _ => ensures_optional ?_)
    refine ((hoptional items).sound w trivial).mono fun items m hm => ((hbar items).sound m).mono ?_
    rintro (items | items) u ⟨hu, -⟩
    · obtain rfl := takes_nil.mp hu
      exact ⟨hm.1, trivial⟩
    · exact ⟨takes_append.mpr ⟨m, hm.1, hu⟩, trivial⟩
  · unfold Ebnf.separated at hdecides
    rw [decides_append, Bool.and_eq_true] at hdecides
    obtain ⟨hitemdecides, hmany⟩ := hdecides
    obtain ⟨hdisjoint, -⟩ := decides_many hmany
    have hlead : ∀ w : List Symbol, (leads g.context [.many [.token .bar, Ebnf.opt [.call p]]] after).contains (firstToken w) =
        (decide (firstToken w = .bar) || after.contains (firstToken w)) := by
      simp [contains_leads, Ebnf.first, Ebnf.isNullable]
    refine Ensures.mono (fun items w hw => ⟨hw.1, trivial⟩) (ensures_loop_completing (I := fun _ => True)
      (R := fun _ => True) trivial (takes_separated.mp hu) (fun items w m _ hw hu => ensures_optional ?_)
      fun items w _ hw => ensures_optional ?_)
    · obtain ⟨k, hk, hbar'⟩ := takes_append.mp hw
      have hnext : firstToken k = .bar := by
        obtain ⟨s, k, rfl, hs, -⟩ := takes_token.mp hbar'
        exact hs
      refine ((hoptional items).complete _ w k hitemdecides trivial hk (by rw [hlead, hnext]; rfl)).mono ?_
      rintro items k' ⟨rfl, -⟩
      exact (hbar items).more {firstToken m} k' m rfl hbar' (by simp)
    · refine ((hoptional items).complete _ w u hitemdecides trivial hw (by rw [hlead, hafter, Bool.or_true])).mono ?_
      rintro items u' ⟨rfl, -⟩
      refine (hbar items).stop u' ?_
      by_contra hfirst
      have hfirst' : (firstOf g.context [.token .bar, Ebnf.opt [.call p]]).contains (firstToken u') = true :=
        Bool.not_eq_false _ ▸ hfirst
      rw [TokenSet.not_contains_of_isDisjoint hdisjoint hfirst'] at hafter
      cases hafter

end Parses

end Modula.Script
