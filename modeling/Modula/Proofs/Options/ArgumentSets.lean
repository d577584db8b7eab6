import Modula.Proofs.Options.Contradictions

/-!
# Options and sets of arguments

What a command line is resolved to depends on which arguments it has, not on their order and not on how often one of
them is given. Consistent arguments make each choice in one way and switch each setting in one way, so that what they
settle is the same whichever of them comes first (`alike_of`). The main result is `ofArguments_of_same_arguments`.
-/

set_option autoImplicit false

namespace Modula

open Argument

/-! ## Settings that are switched -/

/-- Whether a capability is available. -/
def Capabilities.has (c : Capabilities) : Capability → Bool
  | .synonyms => c.synonyms
  | .octalLiterals => c.octalLiterals
  | .explicitCast => c.explicitCast
  | .coroutines => c.coroutines
  | .variantRecords => c.variantRecords
  | .localModules => c.localModules
  | .lowlineIdentifiers => c.lowlineIdentifiers
  | .toDoStatement => c.toDoStatement

/-- A capability that is set is as it was set, and the others are as they were. -/
theorem Capabilities.has_set (c : Capabilities) (capability : Capability) (on : Bool) (other : Capability) :
    (c.set capability on).has other = if other = capability then on else c.has other := by
  cases capability <;> cases other <;> rfl

/-- Capabilities are told by the ones that can be set, and by constant parameters. -/
theorem Capabilities.ext_has {c d : Capabilities} (hconst : c.constParameters = d.constParameters)
    (h : ∀ capability, c.has capability = d.has capability) : c = d := by
  cases c
  cases d
  simp only [mk.injEq]
  exact ⟨h .synonyms, h .octalLiterals, h .explicitCast, h .coroutines, h .variantRecords, h .localModules,
    h .lowlineIdentifiers, h .toDoStatement, hconst⟩

/-- Whether there is a product. -/
def Products.has (p : Products) : Product → Bool
  | .ast => p.ast
  | .graph => p.graph
  | .xlat => p.xlat
  | .obj => p.obj

/-- A product that is set is as it was set, and the others are as they were. -/
theorem Products.has_set (p : Products) (product : Product) (on : Bool) (other : Product) :
    (p.set product on).has other = if other = product then on else p.has other := by
  cases product <;> cases other <;> rfl

/-- Products are told by each of them. -/
theorem Products.ext_has {p q : Products} (h : ∀ product, p.has product = q.has product) : p = q := by
  cases p
  cases q
  simp only [mk.injEq]
  exact ⟨h .ast, h .graph, h .xlat, h .obj⟩

/-- Whether a diagnostic switch is on. -/
def DiagnosticOptions.has (d : DiagnosticOptions) : DiagnosticSwitch → Bool
  | .verbose => d.verbose
  | .lexerDebug => d.lexerDebug
  | .parserDebug => d.parserDebug
  | .showSettings => d.showSettings
  | .errantSemicolons => d.errantSemicolons

/-- A switch that is turned on is on, and the others are as they were. -/
theorem DiagnosticOptions.has_turnOn (d : DiagnosticOptions) (switch other : DiagnosticSwitch) :
    (d.turnOn switch).has other = (decide (other = switch) || d.has other) := by
  cases switch <;> cases other <;> rfl

/-- Diagnostic options are told by their switches. -/
theorem DiagnosticOptions.ext_has {d e : DiagnosticOptions} (h : ∀ switch, d.has switch = e.has switch) : d = e := by
  cases d
  cases e
  simp only [mk.injEq]
  exact ⟨h .verbose, h .lexerDebug, h .parserDebug, h .showSettings, h .errantSemicolons⟩

/-- After several switches have been turned on, these are on. -/
theorem DiagnosticOptions.has_foldl (d : DiagnosticOptions) (switches : List DiagnosticSwitch) (other : DiagnosticSwitch) :
    (switches.foldl turnOn d).has other = (decide (other ∈ switches) || d.has other) := by
  induction switches generalizing d with
  | nil => simp
  | cons switch switches ih => simp [ih, has_turnOn, Bool.or_left_comm, Bool.or_assoc]

/-- Settings that are switched one after the other, a setting always to the same value, have that value in the end. -/
theorem Toggle.has_foldl {S α : Type} [DecidableEq α] {has : S → α → Bool} {set : S → α → Bool → S}
    (hset : ∀ s a on b, has (set s a on) b = if b = a then on else has s b) {toggles : List (Toggle α)} {subject : α}
    (on : Bool) (hon : ∀ t ∈ toggles, t.subject = subject → t.on = on) (s : S) :
    has (toggles.foldl (fun s t => set s t.subject t.on) s) subject =
      if ∃ t ∈ toggles, t.subject = subject then on else has s subject := by
  induction toggles generalizing s with
  | nil => simp
  | cons t toggles ih =>
    rw [List.foldl_cons, ih fun u hu => hon u (List.mem_cons_of_mem _ hu), hset]
    have ht := hon t (List.mem_cons_self ..)
    by_cases hrest : ∃ u ∈ toggles, u.subject = subject
    · simp [hrest]
    · by_cases hsubject : t.subject = subject
      · simp [hsubject, ht hsubject]
      · simp [hrest, hsubject, Ne.symm hsubject]

/-! ## What was gathered -/

/-- What was gathered of two command lines comes to the same. -/
structure Gathered.Alike (g g' : Gathered) : Prop where
  info : g.info.isSome = g'.info.isSome
  dialect : g.dialect.map (·.1) = g'.dialect.map (·.1)
  qualifier : g.qualifier.map (·.1) = g'.qualifier.map (·.1)
  sole : g.sole.map (·.1) = g'.sole.map (·.1)
  products : ∀ p : Products, g.products.foldl (fun p t => p.set t.subject t.on) p =
    g'.products.foldl (fun p t => p.set t.subject t.on) p
  identifiers : g.identifiers.map (·.1) = g'.identifiers.map (·.1)
  comments : g.comments.map (·.1) = g'.comments.map (·.1)
  capabilities : ∀ c : Capabilities, g.capabilities.foldl (fun c t => c.set t.subject t.on) c =
    g'.capabilities.foldl (fun c t => c.set t.subject t.on) c
  diagnostics : ∀ d : DiagnosticOptions, g.diagnostics.foldl .turnOn d = g'.diagnostics.foldl .turnOn d
  sources : ∀ source, source ∈ g.sources ↔ source ∈ g'.sources

section

variable {xs ys : List String}

/-- The same is picked of the same arguments, in whatever order. -/
theorem mem_picked_congr {α : Type} (pick : Argument → Option α) (h : ∀ arg, arg ∈ xs ↔ arg ∈ ys) (c : α × String) :
    c ∈ picked pick xs ↔ c ∈ picked pick ys := by
  rw [mem_picked, mem_picked, h]

/-- The first of some arguments that choose the same chooses what the first of them chooses in another order. -/
theorem head_picked_congr {α : Type} {pick : Argument → Option α} (h : ∀ arg, arg ∈ xs ↔ arg ∈ ys)
    (hsame : ∀ c ∈ picked pick xs, ∀ c' ∈ picked pick xs, c.1 = c'.1) :
    (picked pick xs).head?.map (·.1) = (picked pick ys).head?.map (·.1) := by
  have hmem := mem_picked_congr pick h
  cases hxs : picked pick xs with
  | nil =>
    have hys : picked pick ys = [] := List.eq_nil_iff_forall_not_mem.mpr fun c hc => by simp [hxs, ← hmem] at hc
    rw [hys]
  | cons c others =>
    cases hys : picked pick ys with
    | nil =>
      have hc := (hmem c).mp (by simp [hxs])
      simp [hys] at hc
    | cons c' others' =>
      exact congrArg some (hsame c (by simp [hxs]) c' ((hmem c').mpr (by simp [hys])))

/-- Settings have the same values whatever the order in which consistent arguments switch them. -/
theorem has_foldl_congr {S α : Type} [DecidableEq α] {has : S → α → Bool} {set : S → α → Bool → S}
    (hset : ∀ s a on b, has (set s a on) b = if b = a then on else has s b) {make : α → Bool → Argument}
    {pick : Argument → Option (α × Bool)} (hconsistent : Consistent xs) (h : ∀ arg, arg ∈ xs ↔ arg ∈ ys)
    (hpick : ∀ x v, pick x = some v ↔ x = make v.1 v.2) (hdiffer : ∀ s v w, v ≠ w → (make s v).Clashes (make s w))
    (s : S) (subject : α) :
    has (((picked pick xs).map fun c => (⟨c.1.1, c.1.2, c.2⟩ : Toggle α)).foldl (fun s t => set s t.subject t.on) s) subject =
      has (((picked pick ys).map fun c => (⟨c.1.1, c.1.2, c.2⟩ : Toggle α)).foldl (fun s t => set s t.subject t.on) s)
        subject := by
  have hmem := mem_picked_congr pick h
  have hagree : ∀ c ∈ picked pick xs, ∀ c' ∈ picked pick xs, c.1.1 = c'.1.1 → c.1.2 = c'.1.2 := by
    intro c hc c' hc' hsubject
    rw [mem_picked, hpick] at hc hc'
    by_contra hne
    refine hconsistent.compatible c.2 hc.1 c'.2 hc'.1 ?_
    rw [hc.2, hc'.2, hsubject]
    exact hdiffer _ _ _ hne
  obtain ⟨on, hon⟩ : ∃ on, ∀ c ∈ picked pick xs, c.1.1 = subject → c.1.2 = on := by
    by_cases hfirst : ∃ c ∈ picked pick xs, c.1.1 = subject
    · obtain ⟨c, hc, hsubject⟩ := hfirst
      exact ⟨c.1.2, fun c' hc' hsubject' => hagree c' hc' c hc (hsubject'.trans hsubject.symm)⟩
    · exact ⟨true, fun c hc hsubject => (hfirst ⟨c, hc, hsubject⟩).elim⟩
  rw [Toggle.has_foldl hset on, Toggle.has_foldl hset on]
  · simp only [List.mem_map, exists_exists_and_eq_and, hmem]
  · simpa only [List.forall_mem_map, ← hmem] using hon
  · simpa only [List.forall_mem_map] using hon

/-- No argument changes constant parameters alone. -/
theorem constParameters_foldl (toggles : List (Toggle Capability)) (c : Capabilities) :
    (toggles.foldl (fun c t => c.set t.subject t.on) c).constParameters = c.constParameters := by
  induction toggles generalizing c with
  | nil => rfl
  | cons t toggles ih =>
    rw [List.foldl_cons, ih]
    cases t.subject <;> rfl

/-- Consistent arguments settle the same in every order and with every repetition. -/
theorem alike_of (hconsistent : Consistent xs) (h : ∀ arg, arg ∈ xs ↔ arg ∈ ys) : (Gathered.of xs).Alike (.of ys) where
  info := by
    have hempty : picked info? xs = [] ↔ picked info? ys = [] := by
      simp only [List.eq_nil_iff_forall_not_mem, mem_picked_congr info? h]
    rw [Bool.eq_iff_iff]
    simp [Gathered.of, hempty]
  dialect := head_picked_congr h (hconsistent.same dialect?_eq_some fun v w hne => hne)
  qualifier := head_picked_congr h (hconsistent.same qualifier?_eq_some fun v w hne => hne)
  sole := head_picked_congr h (hconsistent.same sole?_eq_some fun v w hne => hne)
  products p := Products.ext_has
    (has_foldl_congr Products.has_set hconsistent h product?_eq_some (fun s v w hne => ⟨rfl, hne⟩) p)
  identifiers := head_picked_congr h (hconsistent.same identifiers?_eq_some fun v w hne => hne)
  comments := head_picked_congr h (hconsistent.same comments?_eq_some fun v w hne => hne)
  capabilities c := Capabilities.ext_has (by rw [constParameters_foldl, constParameters_foldl])
    (has_foldl_congr Capabilities.has_set hconsistent h capability?_eq_some (fun s v w hne => ⟨rfl, hne⟩) c)
  diagnostics d := by
    refine DiagnosticOptions.ext_has fun switch => ?_
    rw [DiagnosticOptions.has_foldl, DiagnosticOptions.has_foldl]
    simp only [Gathered.of, List.mem_map, mem_picked_congr diagnostics? h]
  sources source := by simp only [Gathered.of, List.mem_map, mem_picked_congr source? h]

end

/-! ## What it comes to -/

/-- Two requests for information, or to compile the same sources. -/
def Request.Alike : Request → Request → Prop
  | .info _, .info _ => True
  | .compile sources, .compile sources' => ∀ source, source ∈ sources ↔ source ∈ sources'
  | _, _ => False

/-- Two resolved command lines with the same options, and with requests of the same kind. -/
structure Invocation.Alike (i j : Invocation) : Prop where
  request : i.request.Alike j.request
  options : i.options = j.options

namespace Gathered.Alike

variable {g g' : Gathered}

/-- The dialect that is chosen does not depend on the order. -/
theorem chosenDialect (h : g.Alike g') : g.chosenDialect = g'.chosenDialect := by
  rw [Gathered.chosenDialect, Gathered.chosenDialect, h.dialect]

/-- Nor do the limits that come with a qualifier. -/
theorem limit (h : g.Alike g') (o : Options) : g.limit o = g'.limit o := by
  have hsole := h.sole
  unfold Gathered.limit
  cases hg : g.sole with
  | none =>
    rw [hg, eq_comm, Option.map_none, Option.map_eq_none_iff] at hsole
    rw [hsole]
  | some c =>
    rw [hg, Option.map_some, eq_comm, Option.map_eq_some_iff] at hsole
    obtain ⟨product, arg⟩ := c
    obtain ⟨c', hg', rfl⟩ := hsole
    rw [hg']
    cases c' with
    | mk product arg' => cases product <;> rfl

/-- Nor do the options that all arguments make. -/
theorem apply (h : g.Alike g') (o : Options) : g.apply o = g'.apply o := by
  simp only [Gathered.apply, h.capabilities, h.limit, h.products, h.identifiers, h.comments, h.diagnostics]

/-- The qualifier is applied in the same way, or refused; whom the refusal names may differ. -/
theorem qualify (h : g.Alike g') (o : Options) : (g.qualify o).toOption = (g'.qualify o).toOption := by
  have hqualifier := h.qualifier
  unfold Gathered.qualify
  cases hg : g.qualifier with
  | none =>
    rw [hg, eq_comm, Option.map_none, Option.map_eq_none_iff] at hqualifier
    rw [hqualifier]
  | some c =>
    rw [hg, Option.map_some, eq_comm, Option.map_eq_some_iff] at hqualifier
    obtain ⟨qualifier, arg⟩ := c
    obtain ⟨c', hg', rfl⟩ := hqualifier
    rw [hg']
    cases c' with
    | mk qualifier arg' => cases qualifier <;> by_cases hext : o.dialect = .ext <;> simp [hext, Except.toOption]

/-- Nor does the invocation, if there is one. -/
theorem finish {i j : Invocation} (h : g.Alike g') (hi : g.finish = .ok i) (hj : g'.finish = .ok j) : i.Alike j := by
  unfold Gathered.finish at hi hj
  have hqualify := h.qualify (.ofDialect g.chosenDialect)
  rw [← h.chosenDialect] at hj
  cases hg : g.qualify (.ofDialect g.chosenDialect) with
  | error e =>
    rw [hg] at hi
    cases hi
  | ok o =>
    cases hg' : g'.qualify (.ofDialect g.chosenDialect) with
    | error e =>
      rw [hg'] at hj
      cases hj
    | ok o' =>
      rw [hg] at hi hqualify
      rw [hg'] at hj hqualify
      cases hi
      cases hj
      cases hqualify
      refine ⟨?_, h.apply o⟩
      have hinfo := h.info
      cases hg : g.info <;> cases hg' : g'.info <;> simp_all
      · exact h.sources
      · trivial

end Gathered.Alike

/-- Arguments can be resolved in any order. -/
theorem Resolvable.congr {xs ys : List String} (h : ∀ arg, arg ∈ xs ↔ arg ∈ ys) : Resolvable xs ↔ Resolvable ys :=
  ⟨fun hxs => hxs.subset fun arg harg => (h arg).mpr harg, fun hys => hys.subset fun arg harg => (h arg).mp harg⟩

/-- Two command lines with the same arguments are both refused, or both resolved and then to the same. -/
theorem alike_ofArguments {xs ys : List String} (h : ∀ arg, arg ∈ xs ↔ arg ∈ ys) :
    (∃ i j, Invocation.ofArguments xs = .ok i ∧ Invocation.ofArguments ys = .ok j ∧ i.Alike j) ∨
      ∃ e e', Invocation.ofArguments xs = .error e ∧ Invocation.ofArguments ys = .error e' := by
  have hresolved := Resolvable.congr h
  rw [← exists_ofArguments_eq_ok, ← exists_ofArguments_eq_ok] at hresolved
  have hspec := ofArguments_spec xs
  have hspec' := ofArguments_spec ys
  cases hxs : Invocation.ofArguments xs with
  | ok i =>
    obtain ⟨j, hys⟩ := hresolved.mp ⟨i, hxs⟩
    rw [hxs] at hspec
    rw [hys] at hspec'
    exact .inl ⟨i, j, rfl, hys, (alike_of hspec.1 h).finish hspec.2.2 hspec'.2.2⟩
  | error e =>
    cases hys : Invocation.ofArguments ys with
    | ok j =>
      obtain ⟨i, hi⟩ := hresolved.mpr ⟨j, hys⟩
      rw [hxs] at hi
      cases hi
    | error e' => exact .inr ⟨e, e', rfl, rfl⟩

/-- An argument that may not stand where only options may. -/
def Argument.NoOption (arg : String) : Prop := classify arg = .sourceFile ∨ ∃ request, classify arg = .info request

/-- An argument that is no option is refused where only options are. -/
theorem Options.ofArguments_of_noOption {args : List String} {arg : String} (harg : arg ∈ args) (h : NoOption arg) :
    ∃ e, Options.ofArguments args = .error e := by
  unfold Options.ofArguments
  dsimp only
  split
  · next found _ => exact ⟨.invalidArgument found, rfl⟩
  · next hnone =>
    have hoption := List.find?_eq_none.mp hnone arg harg
    obtain hsource | ⟨request, hinfo⟩ := h
    · simp [hsource] at hoption
    · simp [hinfo] at hoption

/-- Where all arguments are options, these are those of the invocation. -/
theorem Options.ofArguments_eq {args : List String} (h : ∀ arg ∈ args, ¬NoOption arg) :
    Options.ofArguments args = (Invocation.ofArguments args).map (·.options) := by
  unfold Options.ofArguments
  dsimp only
  split
  · next found hfound =>
    have hno := h found (List.mem_of_find?_eq_some hfound)
    have hoption := List.find?_some hfound
    unfold NoOption at hno
    cases hkind : classify found <;> simp_all
  · rfl

/-- Command lines with the same arguments, in any order and with any repetitions, are both refused or both resolved, and
then to the same options, both to a request for information or both to compile the same sources. The same holds where
arguments may only be options. -/
theorem ofArguments_of_same_arguments (xs ys : List String) (h : ∀ arg, arg ∈ xs ↔ arg ∈ ys) :
    ((∃ i j, Invocation.ofArguments xs = .ok i ∧ Invocation.ofArguments ys = .ok j ∧ i.Alike j) ∨
      ∃ e e', Invocation.ofArguments xs = .error e ∧ Invocation.ofArguments ys = .error e') ∧
    ((∃ o, Options.ofArguments xs = .ok o ∧ Options.ofArguments ys = .ok o) ∨
      ∃ e e', Options.ofArguments xs = .error e ∧ Options.ofArguments ys = .error e') := by
  have hlines := alike_ofArguments h
  refine ⟨hlines, ?_⟩
  by_cases hoptions : ∀ arg ∈ xs, ¬NoOption arg
  · rw [Options.ofArguments_eq hoptions, Options.ofArguments_eq fun arg harg => hoptions arg ((h arg).mpr harg)]
    obtain ⟨i, j, hi, hj, halike⟩ | ⟨e, e', he, he'⟩ := hlines
    · rw [hi, hj]
      exact .inl ⟨i.options, rfl, congrArg Except.ok halike.options.symm⟩
    · rw [he, he']
      exact .inr ⟨e, e', rfl, rfl⟩
  · obtain ⟨arg, harg, hno⟩ := by simpa using hoptions
    obtain ⟨e, he⟩ := Options.ofArguments_of_noOption harg hno
    obtain ⟨e', he'⟩ := Options.ofArguments_of_noOption ((h arg).mp harg) hno
    exact .inr ⟨e, e', he, he'⟩

/-- Capabilities are switched before the dialect is chosen, and again after it. -/
theorem ofArguments_of_same_arguments_dialect :
    ∃ i j, Invocation.ofArguments ["--variant-records", "b.mod", "-v", "--ext", "a.def"] = .ok i ∧
      Invocation.ofArguments ["--ext", "a.def", "--variant-records", "--ext", "b.mod", "-v", "b.mod"] = .ok j ∧
      i.Alike j := by
  have hsame : ∀ arg, arg ∈ ["--variant-records", "b.mod", "-v", "--ext", "a.def"] ↔
      arg ∈ ["--ext", "a.def", "--variant-records", "--ext", "b.mod", "-v", "b.mod"] := by
    intro arg
    simp only [List.mem_cons, List.not_mem_nil, or_false]
    tauto
  have hresolved : ∃ i, Invocation.ofArguments ["--variant-records", "b.mod", "-v", "--ext", "a.def"] = .ok i :=
    ⟨_, rfl⟩
  obtain hlines | ⟨e, -, he, -⟩ := (ofArguments_of_same_arguments _ _ hsame).1
  · exact hlines
  · obtain ⟨i, hi⟩ := hresolved
    rw [hi] at he
    cases he

end Modula
