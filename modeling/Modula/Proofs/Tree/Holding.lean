import Modula.Proofs.Parser.Outcome
import Modula.Proofs.Parser.Careful

/-!
# Nodes that are held

A user of the library builds nodes, copies them, takes nodes out of others, parses texts and changes the nodes held, in
any order. All nodes ever held come from the constructors or from a parse, whatever was wrong with the text; so all of
them, and all nodes below them, fit the schema (`NodeRequest.run_schema_valid`).
-/

set_option autoImplicit false

namespace Modula

open SymbolReader

/-! ## Parsed nodes -/

/-- A root with a valid module is valid. -/
theorem valid_rootOf {o : Options} {filename : String} {module root : Node} (hmodule : module.Valid)
    (h : rootOf o filename module = .ok root) : root.Valid := by
  have hname : (Node.leaf .filename [filename]).Valid := Node.valid_leaf (by decide) rfl
  have hsettings : (Node.leaf .settings o.settingTerms).Valid :=
    Node.valid_leaf (by decide) (by simp [NodeType.allowsCount, NodeType.countRange, NodeType.shape])
  rw [rootOf_eq_ofBranch] at h
  exact Node.valid_ofBranch h (by simp [hname, hsettings, hmodule])

/-- The module of a unit is valid whatever has been reported. -/
theorem valid_parseSymbols (o : Options) (kind : UnitKind) {s : Source} (hlength : s.rest.length ≤ s.length) :
    (parseSymbols o kind (.ofSource o s)).1.Valid :=
  (parse_careful kind (I := fun _ _ => True) hlength (fun _ _ _ _ _ _ => trivial) trivial).1

/-- So the root of every parse is. -/
theorem valid_parse (o : Options) (kind : UnitKind) {s : Source} (hlength : s.rest.length ≤ s.length) :
    (parse o kind s).root.Valid := by
  rw [root_parse_eq]
  cases hbuilt : rootOf o s.filename (parseSymbols o kind (.ofSource o s)).1 with
  | ok root => exact valid_rootOf (valid_parseSymbols o kind hlength) hbuilt
  | error e => exact Node.valid_empty

/-- So is the root of every text that is accepted. -/
theorem valid_parseText {o : Options} {kind : UnitKind} {filename text : String} {outcome : Outcome}
    (h : parseText o kind filename text = .ok outcome) : outcome.root.Valid := by
  unfold parseText at h
  cases hs : Source.ofText filename text with
  | error e => simp [hs, Bind.bind, Except.bind] at h
  | ok s =>
    obtain rfl : parse o kind s = outcome := by simpa [hs, Bind.bind, Except.bind, pure, Except.pure] using h
    exact valid_parse o kind (Source.length_rest_le hs)

/-! ## Requests -/

/-- What can be asked for. The nodes held are known by their numbers. -/
inductive NodeRequest where
  | empty
  | branch (t : NodeType) (parts : List Nat)
  | list (t : NodeType) (parts : List Nat)
  | terminal (t : NodeType) (value : String)
  | terminals (t : NodeType) (values : List String)
  | copy (i : Nat)
  /-- A copy of a subnode. -/
  | take (i place : Nat)
  | parse (o : Options) (kind : UnitKind) (filename text : String)
  | replaceSubnode (i place j : Nat)
  | replaceValue (i place : Nat) (value : String)

/-- What comes of a request. -/
inductive NodeAnswer where
  | node (n : Node)
  | value (value : String)
  | refused (e : NodeError)
  | unreadable (e : SourceError)
  /-- There is no such node. -/
  | unknown

namespace NodeRequest

/-- A node that is built is held from then on. -/
def hold (held : List Node) : Except NodeError Node → NodeAnswer × List Node
  | .ok n => (.node n, held ++ [n])
  | .error e => (.refused e, held)

/-- Holds what can be built of nodes that are held. -/
def assemble (held : List Node) (parts : List Nat) (build : List Node → Except NodeError Node) :
    NodeAnswer × List Node :=
  match parts.mapM (held[·]?) with
  | some ns => hold held (build ns)
  | none => (.unknown, held)

/-- Does what is asked for. A changed node takes the place of the node that it was; a displaced subnode is held. -/
def perform (held : List Node) : NodeRequest → NodeAnswer × List Node
  | .empty => hold held (.ok .empty)
  | .branch t parts => assemble held parts (Node.ofBranch t)
  | .list t parts => assemble held parts (Node.ofList t)
  | .terminal t value => hold held (Node.ofValue t value)
  | .terminals t values => hold held (Node.ofValues t values)
  | .copy i =>
    match held[i]? with
    | some n => hold held (.ok n)
    | none => (.unknown, held)
  | .take i place =>
    match held[i]?.bind (·.subnode? place) with
    | some n => hold held (.ok n)
    | none => (.unknown, held)
  | .parse o kind filename text =>
    match parseText o kind filename text with
    | .ok outcome => hold held (.ok outcome.root)
    | .error e => (.unreadable e, held)
  | .replaceSubnode i place j =>
    match held[i]?, held[j]? with
    | some n, some m =>
      match n.replaceSubnode place m with
      | .ok (old, changed) => (.node old, held.set i changed ++ [old])
      | .error e => (.refused e, held)
    | _, _ => (.unknown, held)
  | .replaceValue i place value =>
    match held[i]? with
    | some n =>
      match n.replaceValue place value with
      | .ok (old, changed) => (.value old, held.set i changed)
      | .error e => (.refused e, held)
    | none => (.unknown, held)

/-- The nodes held after some requests, if there were none at first. -/
def run (requests : List NodeRequest) : List Node := requests.foldl (fun held request => (request.perform held).2) []

/-! ## Every node held is valid -/

variable {held : List Node}

/-- Holding one more valid node leaves all of them valid. -/
theorem valid_hold {r : Except NodeError Node} (hheld : ∀ n ∈ held, n.Valid) (hr : ∀ n, r = .ok n → n.Valid) :
    ∀ n ∈ (hold held r).2, n.Valid := by
  cases r with
  | ok n => simpa [hold, or_imp, forall_and] using ⟨hheld, hr n rfl⟩
  | error e => exact hheld

/-- Parts that are taken by their numbers are nodes that are held. -/
theorem mem_of_mapM {parts : List Nat} {ns : List Node} (h : parts.mapM (held[·]?) = some ns) : ∀ n ∈ ns, n ∈ held := by
  induction parts generalizing ns with
  | nil => simp_all
  | cons i parts ih =>
    simp only [List.mapM_cons, Option.pure_def, Option.bind_eq_bind, Option.bind_eq_some_iff, Option.some.injEq] at h
    obtain ⟨m, hm, ms, hms, rfl⟩ := h
    simpa [or_imp, forall_and] using ⟨List.mem_of_getElem? hm, ih hms⟩

/-- What is assembled of valid nodes is valid, if building keeps validity. -/
theorem valid_assemble {parts : List Nat} {build : List Node → Except NodeError Node} (hheld : ∀ n ∈ held, n.Valid)
    (hbuild : ∀ ns n, (∀ m ∈ ns, m.Valid) → build ns = .ok n → n.Valid) :
    ∀ n ∈ (assemble held parts build).2, n.Valid := by
  unfold assemble
  split
  · next ns hns => exact valid_hold hheld fun n hn => hbuild ns n (fun m hm => hheld m (mem_of_mapM hns m hm)) hn
  · exact hheld

/-- No request brings in a node that is not valid. -/
theorem valid_perform (request : NodeRequest) (hheld : ∀ n ∈ held, n.Valid) :
    ∀ n ∈ (request.perform held).2, n.Valid := by
  cases request with
  | empty => exact valid_hold hheld fun n hn => Except.ok.inj hn ▸ Node.valid_empty
  | branch t parts => exact valid_assemble hheld fun ns n hns hn => Node.valid_ofBranch hn hns
  | list t parts => exact valid_assemble hheld fun ns n hns hn => Node.valid_ofList hn hns
  | terminal t value => exact valid_hold hheld fun n => Node.valid_ofValue
  | terminals t values => exact valid_hold hheld fun n => Node.valid_ofValues
  | copy i =>
    simp only [perform]
    split
    · next n hn => exact valid_hold hheld fun m hm => Except.ok.inj hm ▸ hheld n (List.mem_of_getElem? hn)
    · exact hheld
  | take i place =>
    simp only [perform]
    split
    · next m hm =>
      obtain ⟨n, hn, hplace⟩ := Option.bind_eq_some_iff.mp hm
      exact valid_hold hheld fun k hk => Except.ok.inj hk ▸ (hheld n (List.mem_of_getElem? hn)).subnode hplace
    · exact hheld
  | parse o kind filename text =>
    simp only [perform]
    split
    · next outcome houtcome =>
      have hvalid := valid_parseText houtcome
      exact valid_hold hheld fun n hn => Except.ok.inj hn ▸ hvalid
    · exact hheld
  | replaceSubnode i place j =>
    simp only [perform]
    split
    · next n m hn hm =>
      split
      · next old changed hreplace =>
        have hvalid := hheld n (List.mem_of_getElem? hn)
        have hchanged := hvalid.replaceSubnode (hheld m (List.mem_of_getElem? hm)) hreplace
        have hold := hvalid.subnode (Node.replaceSubnode_eq_ok_iff.mp hreplace).1
        intro k hk
        obtain hk | hk := List.mem_append.mp hk
        · obtain hk | rfl := List.mem_or_eq_of_mem_set hk
          · exact hheld k hk
          · exact hchanged
        · exact List.mem_singleton.mp hk ▸ hold
      · exact hheld
    · exact hheld
  | replaceValue i place value =>
    simp only [perform]
    split
    · next n hn =>
      split
      · next old changed hreplace =>
        intro k hk
        obtain hk | rfl := List.mem_or_eq_of_mem_set hk
        · exact hheld k hk
        · exact (hheld n (List.mem_of_getElem? hn)).replaceValue hreplace
      · exact hheld
    · exact hheld

/-- Whatever has been requested, all nodes held are valid. -/
theorem valid_run (requests : List NodeRequest) : ∀ n ∈ run requests, n.Valid := by
  have hfold : ∀ (requests : List NodeRequest) (held : List Node), (∀ n ∈ held, n.Valid) →
      ∀ n ∈ requests.foldl (fun held request => (request.perform held).2) held, n.Valid := by
    intro requests
    induction requests with
    | nil => exact fun held hheld => hheld
    | cons request requests ih => exact fun held hheld => ih _ (valid_perform request hheld)
  exact hfold requests [] (by simp)

/-! ## Replacing -/

/-- What may come of a request to put one node held into a place of another one. -/
inductive ReplacesSubnode (held : List Node) (i place j : Nat) : NodeAnswer × List Node → Prop
  /-- All nodes stay as they were: there are no such nodes, no such place, or the one node may not stand there. -/
  | fails {answer : NodeAnswer} (hanswer : ∀ old, answer ≠ .node old)
      (h : ∀ n m old, held[i]? = some n → held[j]? = some m → n.subnode? place = some old →
        n.type.allowsAt place m.type = false) : ReplacesSubnode held i place j (answer, held)
  /-- Nothing changes but the subnode at the place, and the one that was there is returned. -/
  | replaces {n m old changed : Node} (hn : held[i]? = some n) (hm : held[j]? = some m)
      (hold : n.subnode? place = some old) (hplace : n.type.allowsAt place m.type = true)
      (htype : changed.type = n.type) (hvalues : changed.values = n.values)
      (hsubnodes : changed.subnodes = n.subnodes.set place m) :
      ReplacesSubnode held i place j (.node old, held.set i changed ++ [old])

/-- What may come of a request to put a value into a place of a node held. -/
inductive ReplacesValue (held : List Node) (i place : Nat) (value : String) : NodeAnswer × List Node → Prop
  /-- All nodes stay as they were: there is no such node, or no such place. -/
  | fails {answer : NodeAnswer} (hanswer : ∀ old, answer ≠ .value old)
      (h : ∀ n, held[i]? = some n → n.value? place = none) : ReplacesValue held i place value (answer, held)
  /-- Nothing changes but the value at the place, and the one that was there is returned. -/
  | replaces {n changed : Node} {old : String} (hn : held[i]? = some n) (hold : n.value? place = some old)
      (htype : changed.type = n.type) (hsubnodes : changed.subnodes = n.subnodes)
      (hvalues : changed.values = n.values.set place value) :
      ReplacesValue held i place value (.value old, held.set i changed)

/-- A request to replace a subnode does what is said of it. -/
theorem replacesSubnode_perform (held : List Node) (i place j : Nat) :
    ReplacesSubnode held i place j ((replaceSubnode i place j).perform held) := by
  simp only [perform]
  split
  · next n m hn hm =>
    split
    · next old changed hreplace =>
      obtain ⟨hold, hplace, htype, hvalues, hsubnodes⟩ := Node.replaceSubnode_eq_ok_iff.mp hreplace
      exact .replaces hn hm hold hplace htype hvalues hsubnodes
    · next e hrefused =>
      refine .fails nofun fun n' m' old hn' hm' hold => ?_
      obtain rfl : n = n' := Option.some.inj (hn.symm.trans hn')
      obtain rfl : m = m' := Option.some.inj (hm.symm.trans hm')
      rw [Bool.eq_false_iff]
      intro hplace
      obtain ⟨changed, hreplace⟩ := Node.exists_replaceSubnode hold hplace
      rw [hreplace] at hrefused
      cases hrefused
  · next hnone => exact .fails nofun fun n m old hn hm => (hnone n m hn hm).elim

/-- An identifier takes the place of the value of a constant. -/
example : (replaceSubnode 2 1 0).perform
      (run [.terminal .ident "n", .terminal .integer "1", .branch .constDefinition [0, 1]]) =
    (.node (.leaf .integer ["1"]),
      [.leaf .ident ["n"], .leaf .integer ["1"],
       .inner .constDefinition [.leaf .ident ["n"], .leaf .ident ["n"]], .leaf .integer ["1"]]) := by
  rfl

/-- So does a request to replace a value. -/
theorem replacesValue_perform (held : List Node) (i place : Nat) (value : String) :
    ReplacesValue held i place value ((replaceValue i place value).perform held) := by
  simp only [perform]
  split
  · next n hn =>
    split
    · next old changed hreplace =>
      obtain ⟨hold, htype, hsubnodes, hvalues⟩ := Node.replaceValue_eq_ok_iff.mp hreplace
      exact .replaces hn hold htype hsubnodes hvalues
    · next e hrefused =>
      refine .fails nofun fun n' hn' => ?_
      obtain rfl : n = n' := Option.some.inj (hn.symm.trans hn')
      rw [Option.eq_none_iff_forall_ne_some]
      intro old hold
      obtain ⟨changed, hreplace⟩ := Node.exists_replaceValue value hold
      rw [hreplace] at hrefused
      cases hrefused
  · next hnone =>
    refine .fails nofun fun n hn => ?_
    rw [hnone] at hn
    cases hn

/-- Whatever has been asked for, every node held and every node below it fits the schema: it holds what its type asks
for, as many subnodes or values as it may, and subnodes that may stand at their places. To replace a subnode or a value
of a node held either fails and changes nothing, or changes nothing but the place, and what was there is returned. -/
theorem run_schema_valid (requests : List NodeRequest) :
    (∀ n ∈ run requests, ∀ m : Node, m.Within n → m.Fits) ∧
      (∀ i place j, ReplacesSubnode (run requests) i place j ((replaceSubnode i place j).perform (run requests))) ∧
      ∀ i place value,
        ReplacesValue (run requests) i place value ((replaceValue i place value).perform (run requests)) :=
  ⟨valid_run requests, replacesSubnode_perform _, replacesValue_perform _⟩

end NodeRequest

end Modula
