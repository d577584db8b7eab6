import Modula.Proofs.Parser.Careful
import Modula.Proofs.Parser.Outcome
import Modula.Proofs.Scan.Admitted

/-!
# Nodes that the capabilities allow

Some nodes are built only where a capability is on, or off. Whatever errors are found, what the parser has seen of the
symbols ahead tells that the capability is as it should be: a parameter attribute or a record of variable size is entered
by its token, a character code or an identifier is admitted by the scanner, and variant fields are reached from variant
records only. So the capabilities are a `Discipline`, and every tree is gated by them (`tree_gated`).
-/

set_option autoImplicit false

namespace Modula

open SymbolReader

/-! ## Types of nodes -/

namespace Capabilities

/-- What nodes of a type depend on. -/
structure Allows (c : Capabilities) (t : NodeType) : Prop where
  variants : t ∈ NodeType.ofVariants → c.variantRecords = true
  extensions : t ∈ NodeType.ofExtensions → c.variantRecords = false
  constParameter : t = .constParameter → c.constParameters = true
  character : t = .character → c.octalLiterals = true

/-- What the grammar depends on. -/
def context (c : Capabilities) : Context := ⟨c.constParameters, c.variantRecords⟩

variable {c : Capabilities} {t : NodeType}

/-- A plain type does not depend on any capability. -/
theorem allows_of_isPlain (ht : t.isPlain = true) : c.Allows t := by
  simp only [NodeType.isPlain, Bool.and_eq_true, decide_eq_true_eq, bne_iff_ne] at ht
  obtain ⟨⟨⟨hvariants, hextensions⟩, hconst⟩, hcharacter⟩ := ht
  exact ⟨fun h => (hvariants h).elim, fun h => (hextensions h).elim, fun h => (hconst h).elim,
    fun h => (hcharacter h).elim⟩

/-- Types of variants depend on variant records only. -/
theorem allows_of_mem_ofVariants (hc : c.variantRecords = true) (ht : t ∈ NodeType.ofVariants) : c.Allows t := by
  have hothers : ∀ t ∈ NodeType.ofVariants, t ∉ NodeType.ofExtensions ∧ t ≠ .constParameter ∧ t ≠ .character := by
    decide
  obtain ⟨hextensions, hconst, hcharacter⟩ := hothers t ht
  exact ⟨fun _ => hc, fun h => (hextensions h).elim, fun h => (hconst h).elim, fun h => (hcharacter h).elim⟩

/-- Types of extensions depend on their absence only. -/
theorem allows_of_mem_ofExtensions (hc : c.variantRecords = false) (ht : t ∈ NodeType.ofExtensions) : c.Allows t := by
  have hothers : ∀ t ∈ NodeType.ofExtensions, t ∉ NodeType.ofVariants ∧ t ≠ .constParameter ∧ t ≠ .character := by
    decide
  obtain ⟨hvariants, hconst, hcharacter⟩ := hothers t ht
  exact ⟨fun h => (hvariants h).elim, fun _ => hc, fun h => (hconst h).elim, fun h => (hcharacter h).elim⟩

end Capabilities

/-! ## Trees -/

namespace Node

/-- All nodes of the tree are of types that the capabilities allow, and hold identifiers that they allow. -/
def Gated (c : Capabilities) (n : Node) : Prop :=
  ∀ m : Node, m.Within n → c.Allows m.type ∧ (m.type ∈ NodeType.identifying → ∀ value ∈ m.values, c.AllowsIdent value)

variable {c : Capabilities} {t : NodeType} {n : Node} {ns : List Node}

/-- A node is gated if it is allowed itself, its values are, and its subnodes are gated. -/
theorem gated_of_subnodes (hn : c.Allows n.type)
    (hvalues : n.type ∈ NodeType.identifying → ∀ value ∈ n.values, c.AllowsIdent value)
    (hsubnodes : ∀ m ∈ n.subnodes, m.Gated c) : n.Gated c := by
  intro m hm
  cases hm with
  | self => exact ⟨hn, hvalues⟩
  | deeper hk hm => exact hsubnodes _ (List.mem_of_getElem? hk) m hm

/-- A node of gated nodes is gated if its type is allowed. -/
theorem gated_inner (ht : c.Allows t) (hns : ∀ m ∈ ns, m.Gated c) : (inner t ns).Gated c :=
  gated_of_subnodes ht (fun _ => nofun) hns

/-- A node of values is gated if its type is allowed and its identifiers are. -/
theorem gated_leaf {values : List String} (ht : c.Allows t)
    (hvalues : t ∈ NodeType.identifying → ∀ value ∈ values, c.AllowsIdent value) : (leaf t values).Gated c :=
  gated_of_subnodes ht hvalues nofun

/-- The empty node is gated. -/
theorem gated_empty : Gated c .empty := gated_of_subnodes (Capabilities.allows_of_isPlain rfl) (fun _ => nofun) nofun

end Node

/-! ## Parses -/

/-- The capabilities are the discipline of building gated nodes. Character codes come only where octal literals do. -/
def gatekeeping (c : Capabilities) : Discipline c.context where
  good := Node.Gated c
  allowed := c.Allows
  admitted := c.AllowsIdent
  offered t := t = .char → c.octalLiterals = true
  strict := False
  plain := Capabilities.allows_of_isPlain
  variants hctx _ := Capabilities.allows_of_mem_ofVariants hctx
  extensions hctx _ := Capabilities.allows_of_mem_ofExtensions hctx
  constParameter hctx := by
    refine ⟨fun h => absurd h (by decide), fun h => absurd h (by decide), fun _ => hctx, nofun⟩
  literal {t type} hchar htype := by
    unfold Script.literal? at htype
    split at htype
    all_goals cases htype
    · exact Capabilities.allows_of_isPlain rfl
    · exact Capabilities.allows_of_isPlain rfl
    · exact ⟨fun h => absurd h (by decide), fun h => absurd h (by decide), nofun, fun _ => hchar rfl⟩
    · exact Capabilities.allows_of_isPlain rfl
  offered_eof := nofun
  good_empty := Node.gated_empty
  good_branch ht hns h := (Node.ofBranch_eq h).1 ▸ Node.gated_inner ht hns
  good_list ht hns h := (Node.ofList_eq h).1 ▸ Node.gated_inner ht hns
  good_value ht hvalue h := (Node.ofValue_eq h).1 ▸ Node.gated_leaf ht (by simpa using hvalue)
  good_values ht hvalues h := (Node.ofValues_eq h).1 ▸ Node.gated_leaf ht fun _ => hvalues

section

variable {o : Options} {kind : UnitKind} {s : Source}

/-- The node of the module is gated, whether it is one or not. -/
theorem gated_module (hlength : s.rest.length ≤ s.length) :
    (parseSymbols o kind (.ofSource o s)).1.Gated o.capabilities := by
  have hadmitted := admitted_ofSource (o := o) hlength
  have hoffered : ∀ u ∈ (ofSource o s).ahead, (gatekeeping o.capabilities).offered u.token.wellFormed :=
    fun u hu hchar => (hadmitted u hu).character ((wellFormed_eq_iff (by simp)).mp hchar)
  obtain ⟨hstrict, -⟩ | ⟨hgated, -⟩ := (gatekeeping o.capabilities).parse kind (I := fun _ _ => True) hlength
    hoffered (fun u hu => (hadmitted u hu).ident) (fun _ _ _ _ _ _ => trivial) trivial
  · exact hstrict.elim
  · exact hgated

/-- The root is gated, with the name of the file and the settings. -/
theorem gated_root (hlength : s.rest.length ≤ s.length) : (parse o kind s).root.Gated o.capabilities := by
  rw [root_parse_eq, rootOf_eq]
  split
  · refine Node.gated_inner (Capabilities.allows_of_isPlain rfl) ?_
    have hfilename : (Node.leaf .filename [s.filename]).Gated o.capabilities :=
      Node.gated_leaf (Capabilities.allows_of_isPlain rfl) fun h => absurd h (by decide)
    have hsettings : (Node.leaf .settings o.settingTerms).Gated o.capabilities :=
      Node.gated_leaf (Capabilities.allows_of_isPlain rfl) fun h => absurd h (by decide)
    simpa using ⟨hfilename, hsettings, gated_module hlength⟩
  · exact Node.gated_empty

end

/-- In the tree of every parse of an accepted text, as a unit of either kind, under all options and with any errors:
there are nodes of variants only where variant records are available, nodes of extensible records and of records of
variable size only where they are not, parameters with the attribute `CONST` only where that is available, character
codes only where octal literals are, and identifiers with a lowline only where lowlines are. -/
theorem tree_gated (o : Options) (kind : UnitKind) (filename text : String) (s : Source)
    (h : Source.ofText filename text = .ok s) : ∀ n : Node, n.Within (parse o kind s).root →
      (n.type ∈ NodeType.ofVariants → o.capabilities.variantRecords = true) ∧
      (n.type ∈ NodeType.ofExtensions → o.capabilities.variantRecords = false) ∧
      (n.type = .constParameter → o.capabilities.constParameters = true) ∧
      (n.type = .character → o.capabilities.octalLiterals = true) ∧
      (n.type ∈ NodeType.identifying → ∀ value ∈ n.values, '_' ∈ value.toList →
        o.capabilities.lowlineIdentifiers = true) := by
  intro n hn
  obtain ⟨htype, hvalues⟩ := gated_root (Source.length_rest_le h) n hn
  exact ⟨htype.variants, htype.extensions, htype.constParameter, htype.character, hvalues⟩

/-- In the language of the report no record extends another one, and what is taken for one that does is an error. -/
theorem tree_gated_extension :
    ∃ s, Source.ofText "m" "MODULE M; TYPE T = RECORD CASE : B OF 1 : a : B END END; U = RECORD (T) END END M." = .ok s ∧
      (parse .standard .implementation s).errorCount = 2 ∧ (parse .standard .implementation s).root.type = .root ∧
      ∀ n : Node, n.Within (parse .standard .implementation s).root → n.type ∉ NodeType.ofExtensions := by
  have h : Source.ofText "m" "MODULE M; TYPE T = RECORD CASE : B OF 1 : a : B END END; U = RECORD (T) END END M." =
      .ok (.ofNormalized "m"
        "MODULE M; TYPE T = RECORD CASE : B OF 1 : a : B END END; U = RECORD (T) END END M.".toList) := by rfl
  refine ⟨_, h, by decide, by decide +kernel, fun n hn hextension => ?_⟩
  have hoff := (tree_gated .standard .implementation _ _ _ h n hn).2.1 hextension
  cases hoff

end Modula
