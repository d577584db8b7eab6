import Modula.Proofs.Parser.DeclarationRows

/-!
# Modules and the grammar

The script of each rule parses the row of its production, and the script of a unit the row of the unit. A module gets
its name behind one or two words, and repeats it in front of its point. When the point has been taken, the unit has to
be at its end.
-/

set_option autoImplicit false

namespace Modula.Script.Parses

variable {g : Grammar} {x : String} {known : List Symbol → Prop}

/-! ## Rules -/

/-- The body of a rule parses the row of its production, if the rule may be called. -/
theorem body (hplain : g.namesSetTypes = false) (rule : Rule) :
    Parses g x (rule.IsReady g) (rule.body g.context) [.call rule.production] fun _ => True := by
  cases rule with
  | expression => exact expression hplain
  | typeExpression => exact typeExpression
  | variantFields =>
    refine of_each fun v hv => ?_
    obtain ⟨hvariant, hcase⟩ := hv
    have hfields := variantFields (x := x) hvariant
    exact hfields.of_known fun w hw => by rw [hw]; exact hcase
  | statementSequence => exact statementSequence
  | block => exact block

/-! ## Modules -/

/-- A test whose outcome does not matter. -/
theorem nextIsAnyway {α : Type} {R : α → Prop} {es : List Ebnf} {t : Token} {next : Bool → Script α}
    (h : ∀ b, Parses g x known (next b) es R) : Parses g x known (Script.nextIs t >>= next) es R := by
  refine ⟨fun v hv => ?_, fun after v u hdecides hv hu hafter => ?_⟩
  · exact (h _).sound v hv
  · exact (h _).complete after v u hdecides hv hu hafter

/-- The name of a definition module comes after its two words. -/
theorem name_definitionModule {v u : List Symbol} (h : Takes g.rules x (g.rules .definitionModule) v u) :
    nameAt 2 v = x := by
  obtain ⟨s₁, v, rfl, -, h⟩ := takes_token.mp h
  obtain ⟨s₂, v, rfl, -, h⟩ := takes_token.mp h
  obtain ⟨s₃, v, rfl, -, hname, -⟩ := takes_opening.mp h
  exact hname

/-- A definition module reads its row, with the same name at its end. -/
theorem definitionModule :
    Parses g x known (Script.definitionModule g.context) [.call .definitionModule] fun _ => True := by
  refine productionAt 2 (decides_rules g .definitionModule rfl nofun) (fun _ _ _ => name_definitionModule) fun y => enter ?_
  refine of_known (fun v hv => show nameAt 2 v = y from hv.2) (expectBefore (by simp) ?_)
  refine expectBefore (by simp) (opening (fun s v hv => hv) (part endHeading fun _ _ => ?_))
  refine part imports fun _ _ => part (whileStarts rfl rfl definition) fun _ _ => ?_
  refine expectAnyway (by simp) (nextIsAnyway fun b => ?_)
  refine closing (expectAnyway (by simp) ?_)
  exact preparing identNode_some fun _ _ => ending (list (by simp)) fun _ _ => branch (by simp)

/-- The name of a program module comes after its word. -/
theorem name_programModule {v u : List Symbol} (h : Takes g.rules x (g.rules .programModule) v u) : nameAt 1 v = x := by
  obtain ⟨s₁, v, rfl, -, h⟩ := takes_token.mp h
  obtain ⟨s₂, v, rfl, -, hname, -⟩ := takes_opening.mp h
  exact hname

/-- So does a program module. -/
theorem programModule {type : NodeType} (htype : type ≠ .setValue) :
    Parses g x known (Script.programModule g.context type) [.call .programModule] fun _ => True := by
  refine productionAt 1 (decides_rules g .programModule rfl nofun) (fun _ _ _ => name_programModule) fun y => enter ?_
  refine of_known (fun v hv => show nameAt 1 v = y from hv.2) (expectBefore (by simp) ?_)
  refine opening (fun s v hv => hv) (part optionalPriority fun _ _ => part endHeading fun _ _ => ?_)
  refine part imports fun _ _ => part (call fun _ _ => trivial) fun _ _ => closing ?_
  exact expectAnyway (by simp) (preparing identNode_some fun _ _ => branch htype)

/-- An implementation module reads its first word before the rest. -/
theorem implementationModule : Parses g x (Starts g .implementationModule) (Script.implementationModule g.context)
    [.call .implementationModule] fun _ => True := by
  refine production (decides_rules g .implementationModule rfl nofun) fun y => enter ?_
  exact skip (fun v => eq_of_starts rfl) (by simp) (programModule (by simp))

/-! ## Units -/

/-- The end of a unit, after its module. -/
abbrev finish (module : Node) : Script Node := expectEnd >>= fun _ => Pure.pure module

/-- A unit that comes to its module has read the whole text. -/
theorem finish_sounding {v : List Symbol} {module : Node} {Q : Node → List Symbol → Prop}
    (h : firstToken v = .eof → Q module v) : (finish module).Ensures (sounding g) v Q := by
  show Ensures (sounding g) (if decide (firstToken v = .eof) = true then _ else _) _ _
  rw [ensures_ite]
  exact ⟨fun hend => h (of_decide_eq_true hend), fun _ => trivial⟩

/-- At the end of the text a unit comes to its module. -/
theorem finish_completing {module : Node} {Q : Node → List Symbol → Prop} (h : Q module []) :
    (finish module).Ensures (completing g) [] Q := h

/-- A module with the end of the input after it, where a test has found the module's first token. -/
theorem finished {p : Production} {script : Script Node} (hscript : Parses g x known script [.call p] fun _ => True)
    (hends : (p.ends g.context).contains .eof = true) {v : List Symbol} (hv : known v) :
    (script >>= finish).Ensures (sounding g) v (fun _ u => firstToken u = .eof ∧ Takes g.rules x [.call p] v u) ∧
      (Takes g.rules x [.call p] v [] → (script >>= finish).Ensures (completing g) v fun _ u => u = []) := by
  constructor
  · refine ensures_bind.mpr ((hscript.sound v hv).mono ?_)
    rintro module u ⟨hu, -⟩
    exact finish_sounding fun hend => ⟨hend, hu⟩
  · intro hu
    have hdecides : decides g.context [.call p] (p.ends g.context) = true := by
      rw [decides_call]
      simp [TokenSet.isSubset, TokenSet.union]
    refine ensures_bind.mpr ((hscript.complete _ v [] hdecides hv hu hends).mono ?_)
    rintro module u ⟨rfl, -⟩
    exact finish_completing rfl

/-- A unit that starts as a module does goes on with this module. -/
theorem ensures_implementationUnit {A : Abstraction (List Symbol)} (hA : A.Shows g) {v : List Symbol}
    {Q : Node → List Symbol → Prop}
    (h : firstToken v = .kwImplementation ∧ (Script.implementationModule g.context >>= finish).Ensures A v Q ∨
      firstToken v = .kwModule ∧ (Script.programModule g.context .programModule >>= finish).Ensures A v Q) :
    (implementationUnit g.context).Ensures A v Q := by
  refine hA.lookahead ?_
  have hheading : ((Production.implementationModule.first g.context).union
      (Production.programModule.first g.context)).contains (firstToken v) = true := by
    obtain ⟨hfirst, -⟩ | ⟨hfirst, -⟩ := h <;> simp [hfirst, Production.first]
  show Ensures A (if _ = true then _ else _) _ _
  rw [if_pos hheading]
  refine hA.lookahead ?_
  show Ensures A (if _ = true then _ else if _ = true then _ else _) _ _
  obtain ⟨hfirst, h⟩ | ⟨hfirst, h⟩ := h
  · rw [if_pos (by simp [hfirst, Production.first])]
    exact h
  · rw [if_neg (by simp [hfirst, Production.first]), if_pos (by simp [hfirst, Production.first])]
    exact h

/-- What a unit takes without a report, its row derives, and it leaves nothing. What its row derives, it takes. -/
theorem unit (kind : UnitKind) (v : List Symbol) :
    (Script.unit g.context kind).Ensures (sounding g) v
        (fun _ u => firstToken u = .eof ∧ Takes g.rules x (Grammar.start kind) v u) ∧
      (Takes g.rules x (Grammar.start kind) v [] →
        (Script.unit g.context kind).Ensures (completing g) v fun _ u => u = []) := by
  have hend : ∀ p ∈ [(.definitionModule : Production), .implementationModule, .programModule],
      (p.ends g.context).contains .eof = true := by
    simp [Production.ends, Production.follow]
  cases kind with
  | definition =>
    have hmodule : Parses g x Unknown (Script.definitionModule g.context) [.call .definitionModule] fun _ => True :=
      definitionModule
    exact finished hmodule (hend _ (by simp)) trivial
  | implementation =>
    have hfirst : ∀ p : Production, p.isNullable = false → Takes g.rules x [.call p] v [] → Starts g p v := by
      intro p hp hu
      have hstarts := hu.first (by simpa [Ebnf.isNullable] using hp)
      simpa [hp, Ebnf.isNullable] using hstarts
    have himplementation : ∀ hstarts : Starts g .implementationModule v, _ :=
      finished (x := x) implementationModule (hend _ (by simp))
    have hmodule : Parses g x Unknown (Script.programModule g.context .programModule) [.call .programModule]
        fun _ => True := programModule (by simp)
    have hprogram := finished hmodule (hend _ (by simp)) (v := v) trivial
    constructor
    · by_cases hheading : Starts g .implementationModule v ∨ Starts g .programModule v
      · refine ensures_implementationUnit shows_sounding ?_
        obtain hstarts | hstarts := hheading
        · refine .inl ⟨eq_of_starts rfl hstarts, (himplementation hstarts).1.mono ?_⟩
          rintro module u ⟨hend, hu⟩
          exact ⟨hend, takes_alt.mpr (.inl hu)⟩
        · refine .inr ⟨eq_of_starts rfl hstarts, hprogram.1.mono ?_⟩
          rintro module u ⟨hend, hu⟩
          exact ⟨hend, takes_alt.mpr (.inr hu)⟩
      · show Ensures (sounding g) (if _ = true then _ else _) _ _
        rw [if_neg (by simpa [TokenSet.contains_union] using hheading)]
        trivial
    · intro hu
      refine ensures_implementationUnit shows_completing ?_
      obtain hu | hu := takes_alt.mp hu
      · have hstarts := hfirst .implementationModule rfl hu
        exact .inl ⟨eq_of_starts rfl hstarts, (himplementation hstarts).2 hu⟩
      · have hstarts := hfirst .programModule rfl hu
        exact .inr ⟨eq_of_starts rfl hstarts, hprogram.2 hu⟩

end Modula.Script.Parses
