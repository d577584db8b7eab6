import Modula.Proofs.Parser.Approach

/-!
# Down to the statements of a block

Headings, imports and declarations without blocks have no `BEGIN` among their symbols, so the seam is behind them.
Blocks, and what contains blocks, are gone through in the order of their definitions, down from a unit.
-/

set_option autoImplicit false

namespace Modula

open SymbolReader ParserState

namespace Production

/-- The productions of modules, and those that contain blocks. -/
def withBlocks : List Production :=
  [.definitionModule, .implementationModule, .programModule, .block, .declaration, .procedureDeclaration,
   .moduleDeclaration]

/-- All other productions. -/
def withoutBlocks : List Production := all.filter fun p => !withBlocks.contains p

end Production

/-- There is no `BEGIN` outside of blocks. -/
theorem Derives.no_begin {g : Grammar} {x : String} {es : List Ebnf} {w : List Symbol} {closings : List (String × String)}
    (h : Derives g.rules x es w closings) (hes : allWithin (· ≠ .kwBegin) Production.withoutBlocks es = true) :
    ∀ u ∈ w, u.token ≠ .kwBegin := by
  obtain ⟨⟨c, v⟩, n⟩ := g
  have hrules : ∀ c v n, ∀ p ∈ Production.withoutBlocks,
      allWithin (· ≠ .kwBegin) Production.withoutBlocks ((⟨⟨c, v⟩, n⟩ : Grammar).rules p) = true := by
    decide
  intro u hu
  exact of_decide_eq_true ((h.within (hrules c v n) hes).2 u hu)

namespace Seam

variable {ctx : Context} {σ : Seam ctx} {limit : Nat} {α : Type} {known : List Symbol → Prop}

open Script (Parses)

/-- What has no block is done before the seam. -/
theorem Approaches.blockless {x : String} {es : List Ebnf} {R : α → Prop} {script : Script α}
    (hparses : script.Parses ⟨ctx, false⟩ x known es R)
    (hes : allWithin (· ≠ .kwBegin) Production.withoutBlocks es = true) : σ.Approaches limit 0 0 known script :=
  .parses hparses fun h => h.no_begin hes

namespace Approaches

variable {g : Grammar}

/-- The seam is not in a priority. -/
theorem optionalPriority : σ.Approaches limit 0 0 known (Script.optionalPriority ctx) :=
  .blockless (x := "") (Parses.optionalPriority (g := ⟨ctx, false⟩)) (by decide)

/-- It is not at the end of a heading. -/
theorem endHeading {body : TokenSet} : σ.Approaches limit 0 0 known (Script.endHeading body) :=
  .blockless (x := "") Parses.endHeading (by decide)

/-- It is not among imports. -/
theorem imports : σ.Approaches limit 0 0 known (Script.imports ctx) :=
  .blockless (x := "") (Parses.imports (g := ⟨ctx, false⟩)) (by decide)

/-- It is not among definitions, which have no statements. -/
theorem definition : σ.Approaches limit 0 0 known (Script.definition ctx) :=
  .blockless (x := "") (Parses.definition (g := ⟨ctx, false⟩)) (by decide)

/-- A section of declarations. -/
theorem itemSection {p : Production} {t : Token} {item : Script Node} {follow : TokenSet} {S : Node → Prop}
    (ht : t ≠ .eof) (hp : p.isNullable = false)
    (hitem : item.Parses ⟨ctx, false⟩ "" (Parses.Starts ⟨ctx, false⟩ p) [.call p] S)
    (hrow : allWithin (· ≠ .kwBegin) Production.withoutBlocks [.token t, .many [.call p, .token .semicolon]] = true)
    (hknown : ∀ v, known v → firstToken v = t) :
    σ.Approaches limit 0 0 known (Script.itemSection ctx p item follow) := by
  have hparses : (Script.itemSection ctx p item follow).Parses ⟨ctx, false⟩ "" _ _ _ := Parses.itemSection ht hp hitem
  exact weaken (.blockless hparses hrow) hknown

/-- A declaration that ends in a semicolon leads on as it does without. -/
theorem closed {item : Script Node} {follow : TokenSet} (hitem : σ.Approaches limit 0 0 known item) :
    σ.Approaches limit 0 0 known (Script.closed item follow) :=
  bind hitem fun _ => expect rfl pure

/-- The seam is not in a heading. -/
theorem procedureHeader (hknown : ∀ v, known v → firstToken v = .kwProcedure) :
    σ.Approaches limit 0 0 known (Script.procedureHeader ctx) :=
  weaken (.blockless (x := "") (Parses.procedureHeader_call (g := ⟨ctx, false⟩)) (by decide)) hknown

variable (hblock : σ.Approaches limit 0 0 (fun _ => True) (Script.call .block))

include hblock

/-- It may be in the block of a procedure. -/
theorem procedureDeclaration (hknown : ∀ v, known v → firstToken v = .kwProcedure) :
    σ.Approaches limit 0 0 known (Script.procedureDeclaration ctx) := by
  refine enter (bind (procedureHeader hknown) fun header => expect rfl (bind hblock fun _ => ?_))
  exact expectIdent fun _ => bind checkClosing fun _ => act rfl

/-- It may be in the block of a local module. -/
theorem moduleDeclaration (hknown : ∀ v, known v → firstToken v = .kwModule) :
    σ.Approaches limit 0 0 known (Script.moduleDeclaration ctx) := by
  refine enter (skip rfl hknown (expectIdent fun ident => bind optionalPriority fun priority => ?_))
  refine bind endHeading fun _ => bind imports fun imports => ?_
  have hend : ∀ exported : Node, σ.Approaches limit 0 0 (fun _ => True) (do
      let block ← Script.call .block
      let closing ← Script.expectIdent (Production.moduleDeclaration.follow ctx)
      Script.checkClosing (some ident) closing
      let ident ← Script.identNode (some ident)
      Script.branch .moduleDeclaration [ident, priority, imports, exported, block]) :=
    fun exported => bind hblock fun _ => expectIdent fun _ => bind checkClosing fun _ => bind identNode fun _ => act rfl
  refine starts (g := ⟨ctx, false⟩) rfl (bind ?_ hend) (bind pure hend)
  exact weaken (.blockless (x := "") (Parses.exportClause (g := ⟨ctx, false⟩)) (by decide)) fun _ => And.right

/-- So it may be in a declaration, of procedures or modules. -/
theorem declaration : σ.Approaches limit 0 0 known (Script.declaration ctx) := by
  refine enter (lookahead fun t => ?_)
  split
  · exact itemSection (by simp) rfl (Parses.constDefinition (g := ⟨ctx, false⟩)) (by decide) fun _ => And.right
  · exact itemSection (by simp) rfl (Parses.typeDeclaration (g := ⟨ctx, false⟩)) (by decide) fun _ => And.right
  · exact itemSection (by simp) rfl (Parses.variableDeclaration (g := ⟨ctx, false⟩)) (by decide) fun _ => And.right
  · exact closed (procedureDeclaration hblock fun _ => And.right)
  · exact closed (moduleDeclaration hblock fun _ => And.right)
  · exact bind reject fun _ => pure

end Approaches

/-- The statements of a block get over the seam, or it is in one of the blocks inside. -/
theorem approaches_block (limit : Nat) : σ.Approaches limit 0 0 (fun _ => True) (Script.block ctx) := by
  induction limit using Nat.strong_induction_on with
  | _ limit ih =>
    have hblock : σ.Approaches limit 0 0 (fun _ => True) (Script.call .block) := by
      intro s s' t t' a b limit' hs ht hzero hst hknown
      cases hs with
      | call less hs =>
        cases ht with
        | call _ ht => exact ih _ less hs ht hzero hst hknown
    have hend : ∀ (declarations : List (List Node)) (statements : Node) (d : Nat), Token.kwEnd.depthAfter d = 0 →
        σ.Approaches limit d 0 (fun _ => True) (do
          let _ ← Script.expect .kwEnd (Production.block.follow ctx)
          let declarations ← Script.list .declarationList declarations.flatten
          Script.branch .block [declarations, statements]) :=
      fun declarations statements d hd => .expect hd (.bind .list fun _ => .act rfl)
    refine .enter (.bind (.whileStarts (g := ⟨ctx, false⟩) rfl (.declaration hblock)) fun declarations => .nextIs ?_ ?_)
    · exact .statements (fun _ => And.right) fun statements => hend declarations statements 1 rfl
    · exact .bind .pure fun statements => hend declarations statements 0 rfl

/-- So it may be in a block that is called. -/
theorem approaches_call_block {limit : Nat} : σ.Approaches limit 0 0 (fun _ => True) (Script.call .block) := by
  intro s s' t t' a b limit' hs ht hzero hst hknown
  cases hs with
  | call less hs =>
    cases ht with
    | call _ ht => exact approaches_block _ hs ht hzero hst hknown

/-! ## Units -/

/-- A definition module has no statements. -/
theorem approaches_definitionModule : σ.Approaches limit 0 0 known (Script.definitionModule ctx) := by
  refine .enter (.expect rfl (.expect rfl (.expectIdent fun ident => .bind .endHeading fun _ => ?_)))
  refine .bind .imports fun imports => .bind (.whileStarts (g := ⟨ctx, false⟩) rfl .definition) fun definitions => ?_
  refine .expect rfl (.test (f := fun t => decide (t = .ident)) fun t => ?_)
  refine .expectIdent fun closing => .bind .checkClosing fun _ => .expect rfl ?_
  exact .bind .identNode fun _ => .bind .list fun _ => .act rfl

/-- A program module has them in its block. -/
theorem approaches_programModule {type : NodeType} : σ.Approaches limit 0 0 known (Script.programModule ctx type) := by
  refine .enter (.expect rfl (.expectIdent fun ident => .bind .optionalPriority fun priority => ?_))
  refine .bind .endHeading fun _ => .bind .imports fun imports => .bind approaches_call_block fun block => ?_
  refine .expectIdent fun closing => .bind .checkClosing fun _ => .expect rfl ?_
  exact .bind .identNode fun _ => .act rfl

/-- The seam is not at the end of the text. -/
theorem approaches_expectEnd : σ.Approaches limit 0 0 known Script.expectEnd := .nextIs .pure (.act rfl)

/-- A unit of either kind leads up to the seam and past it. -/
theorem approaches_unit (kind : UnitKind) : σ.Approaches limit 0 0 known (Script.unit ctx kind) := by
  cases kind with
  | definition => exact .bind approaches_definitionModule fun _ => .bind approaches_expectEnd fun _ => .pure
  | implementation =>
    have hmodule : σ.Approaches limit 0 0 (fun _ => True) (do
        let t ← Script.lookahead
        let module ←
          if (Production.implementationModule.first ctx).contains t then Script.implementationModule ctx
          else if (Production.programModule.first ctx).contains t then Script.programModule ctx .programModule
          else Pure.pure .empty
        Script.expectEnd
        return module) := by
      have hend : ∀ module : Node,
          σ.Approaches limit 0 0 (fun _ => True) (Script.expectEnd >>= fun _ => Pure.pure module) :=
        fun module => .bind approaches_expectEnd fun _ => .pure
      refine .lookahead fun t => .ite (fun ht => .bind ?_ hend) fun _ => .ite (fun _ => ?_) fun _ => .bind .pure hend
      · have htoken : t = .kwImplementation := by simpa [Production.first] using ht
        exact .enter (.skip rfl (fun _ hv => hv.2.trans htoken) approaches_programModule)
      · exact .bind approaches_programModule hend
    refine .lookahead fun t => .ite (fun _ => ?_) fun _ => .reject
    exact hmodule.weaken fun _ _ => trivial

end Seam

end Modula
