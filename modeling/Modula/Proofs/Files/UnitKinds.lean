import Modula.Files.Path
import Modula.Proofs.Options.Contradictions

/-!
# The kinds of the units that are named on a command line

An argument is taken as a source file for the suffix of the whole argument, and the kind of its unit is told by the
extension of the name that the path ends with. The two agree on where the name starts (`Path.exists_name`) and on the
extension, unless nothing stands before the point (`Path.extension?_of_suffix`). They do not agree on capital letters:
`.DEF` is a suffix of source files, but no extension of definitions (`unitKind_of_accepted`).
-/

set_option autoImplicit false

namespace Modula

namespace Path

variable {stem name ext : List Char}

/-! ## The name that a path ends with -/

/-- A path is what leads to its name, and the name. -/
theorem exists_name (path : List Char) :
    ∃ way name, path = way ++ name ∧ '/' ∉ name ∧ (way = [] ∨ ∃ front, way = front ++ ['/']) := by
  induction path with
  | nil => exact ⟨[], [], rfl, by simp, .inl rfl⟩
  | cons c path ih =>
    obtain ⟨way, name, rfl, hname, rfl | ⟨front, rfl⟩⟩ := ih
    · by_cases hc : c = '/'
      · exact ⟨[c], name, rfl, hname, .inr ⟨[], by rw [hc]; rfl⟩⟩
      · refine ⟨[], c :: name, rfl, ?_, .inl rfl⟩
        intro hmem
        obtain h | h := List.mem_cons.mp hmem
        · exact hc h.symm
        · exact hname h
    · exact ⟨c :: (front ++ ['/']), name, rfl, hname, .inr ⟨c :: front, rfl⟩⟩

/-- Without a slash there is one piece. -/
theorem piecesFrom_name (h : '/' ∉ name) (before : List Char) : piecesFrom before name = [before.reverse ++ name] := by
  induction name generalizing before with
  | nil => simp [piecesFrom]
  | cons c name ih =>
    obtain ⟨hc, hname⟩ := not_or.mp (mt List.mem_cons.mpr h)
    rw [piecesFrom, if_neg fun hslash => hc hslash.symm, ih hname]
    simp

/-- The last piece is what comes after the last slash. -/
theorem piecesFrom_way (h : '/' ∉ name) (front before : List Char) :
    ∃ ps, piecesFrom before (front ++ '/' :: name) = ps ++ [name] := by
  induction front generalizing before with
  | nil => exact ⟨[before.reverse], by simp [piecesFrom, piecesFrom_name h]⟩
  | cons c front ih =>
    rw [List.cons_append, piecesFrom]
    split
    · obtain ⟨ps, hps⟩ := ih []
      exact ⟨before.reverse :: ps, by rw [hps]; rfl⟩
    · exact ih (c :: before)

/-- The last piece of a path is its name. -/
theorem pieces_name {way : List Char} (h : '/' ∉ name) (hway : way = [] ∨ ∃ front, way = front ++ ['/']) :
    ∃ ps, pieces (String.ofList (way ++ name)) = ps ++ [String.ofList name] := by
  obtain ⟨ps, hps⟩ : ∃ ps, piecesFrom [] (way ++ name) = ps ++ [name] := by
    obtain rfl | ⟨front, rfl⟩ := hway
    · exact ⟨[], by simp [piecesFrom_name h]⟩
    · simpa using piecesFrom_way h front []
  exact ⟨ps.map String.ofList, by simp [pieces, hps]⟩

/-- What a path ends with is the name of a file, if it does not end with a point or a slash. -/
theorem fileName?_eq_some {way : List Char} {c : Char} (h : '/' ∉ name)
    (hway : way = [] ∨ ∃ front, way = front ++ ['/']) (hlast : name.getLast? = some c) (hc : c ≠ '.') :
    fileName? (String.ofList (way ++ name)) = some (String.ofList name) := by
  have hne : ∀ other : String, other.toList.getLast? ≠ some c → String.ofList name ≠ other := by
    rintro other hother rfl
    exact hother (by rwa [String.toList_ofList])
  have hempty : String.ofList name ≠ "" := hne "" (by simp)
  have hhere : String.ofList name ≠ "." := hne "." (by simpa using hc.symm)
  have habove : String.ofList name ≠ ".." := hne ".." (by simpa using hc.symm)
  obtain ⟨ps, hps⟩ := pieces_name h hway
  rw [fileName?, hps, List.filter_append]
  simp [hempty, hhere, habove]

/-! ## Extensions -/

/-- The extension is what comes after the last point, unless nothing comes before it. -/
theorem extensionOf?_of_suffix (hext : '.' ∉ ext) :
    extensionOf? (String.ofList (stem ++ '.' :: ext)) = if stem = [] then none else some (String.ofList ext) := by
  have hreverse : (stem ++ '.' :: ext).reverse = ext.reverse ++ '.' :: stem.reverse := by simp
  have hpoint : ∀ c ∈ ext.reverse, decide (c ≠ '.') = true := by
    intro c hc
    have hne : c ≠ '.' := fun h => hext (h ▸ List.mem_reverse.mp hc)
    exact decide_eq_true hne
  have hdrop : (ext.reverse ++ '.' :: stem.reverse).dropWhile (· ≠ '.') = '.' :: stem.reverse := by
    rw [List.dropWhile_append_of_pos hpoint]
    rfl
  have htake : (ext.reverse ++ '.' :: stem.reverse).takeWhile (· ≠ '.') = ext.reverse := by
    rw [List.takeWhile_append_of_pos hpoint]
    simp
  rw [extensionOf?, String.toList_ofList, hreverse, hdrop, htake, List.reverse_reverse]
  cases hstem : stem.reverse with
  | nil => simp [List.reverse_eq_nil_iff.mp hstem]
  | cons c rest =>
    have hne : stem ≠ [] := fun h => by simp [h] at hstem
    simp [hne]

/-- The extension of a path is what follows the last point, unless nothing but a slash stands before that point. -/
theorem extension?_of_suffix (hslash : '/' ∉ ext) (hpoint : '.' ∉ ext) (hext : ext ≠ []) :
    extension? (String.ofList (stem ++ '.' :: ext)) =
      if stem = [] ∨ stem.getLast? = some '/' then none else some (String.ofList ext) := by
  obtain ⟨way, name, rfl, hname, hway⟩ := exists_name stem
  obtain ⟨c, hc⟩ : ∃ c, ext.getLast? = some c := ⟨_, List.getLast?_eq_some_getLast hext⟩
  have hlast : (name ++ '.' :: ext).getLast? = some c := by simp [List.getLast?_cons, hc]
  have hcpoint : c ≠ '.' := fun h => hpoint (h ▸ List.mem_of_getLast? hc)
  have hfile : '/' ∉ name ++ '.' :: ext := by simp [hname, hslash]
  have hstem : (way ++ name = [] ∨ (way ++ name).getLast? = some '/') ↔ name = [] := by
    constructor
    · rintro h
      by_contra hne
      obtain h | h := h
      · exact hne (List.append_eq_nil_iff.mp h).2
      · obtain ⟨d, hd⟩ : ∃ d, name.getLast? = some d := ⟨_, List.getLast?_eq_some_getLast hne⟩
        obtain rfl : d = '/' := by simpa [List.getLast?_append, hd] using h
        exact hname (List.mem_of_getLast? hd)
    · rintro rfl
      obtain rfl | ⟨front, rfl⟩ := hway
      · exact .inl rfl
      · exact .inr (by simp)
  rw [extension?, List.append_assoc, fileName?_eq_some hfile hway hlast hcpoint, Option.bind_some,
    extensionOf?_of_suffix hpoint, if_congr hstem rfl rfl]

/-- A path whose suffix is that of definitions names one, unless it is the whole name. -/
theorem unitKind_of_suffix (hslash : '/' ∉ ext) (hpoint : '.' ∉ ext) (hext : ext ≠ []) (hstem : stem ≠ []) :
    unitKind (String.ofList (stem ++ '.' :: ext)) = .definition ↔
      ext = ['d', 'e', 'f'] ∧ stem.getLast? ≠ some '/' := by
  rw [unitKind, extension?_of_suffix hslash hpoint hext]
  by_cases hlast : stem.getLast? = some '/'
  · simp [hlast]
  · have hdef : String.ofList ext = "def" ↔ ext = ['d', 'e', 'f'] := by
      rw [← String.toList_inj, String.toList_ofList]
      rfl
    simp [hstem, hlast, hdef]

end Path

/-! ## Source files -/

section

variable {stem suffix other : List Char}

/-- A text has only one suffix of a length. -/
theorem suffix_append_iff (hlength : other.length = suffix.length) : other <:+ stem ++ suffix ↔ other = suffix := by
  constructor
  · rintro ⟨front, h⟩
    exact (List.append_inj' h hlength).2
  · rintro rfl
    exact List.suffix_append stem other

/-- What stands before a suffix is the end of the rest. -/
theorem cons_suffix_append_iff {c : Char} (hlength : other.length = suffix.length) :
    c :: other <:+ stem ++ suffix ↔ stem.getLast? = some c ∧ other = suffix := by
  constructor
  · rintro ⟨front, h⟩
    obtain ⟨rfl, rfl⟩ := List.append_inj' ((List.append_assoc front [c] other).trans h) hlength
    exact ⟨List.getLast?_concat .., rfl⟩
  · rintro ⟨hlast, rfl⟩
    obtain ⟨front, rfl⟩ := List.getLast?_eq_some_iff.mp hlast
    exact ⟨front, by simp⟩

end

/-- A source file has one of the suffixes after something else. -/
theorem Gathered.hasSourceSuffix_iff {arg : String} :
    hasSourceSuffix arg = true ↔ ∃ suffix ∈ suffixes, ∃ stem, stem ≠ [] ∧ arg.toList = stem ++ suffix.toList := by
  simp only [hasSourceSuffix, List.any_eq_true, Bool.and_eq_true, decide_eq_true_eq, List.isSuffixOf_iff_suffix]
  refine exists_congr fun suffix => and_congr_right fun _ => ?_
  constructor
  · rintro ⟨hlength, stem, hstem⟩
    refine ⟨stem, ?_, hstem.symm⟩
    rintro rfl
    rw [← hstem, List.nil_append] at hlength
    exact Nat.lt_irrefl _ hlength
  · rintro ⟨stem, hne, harg⟩
    have hpos := List.length_pos_iff.mpr hne
    exact ⟨by rw [harg, List.length_append]; omega, stem, harg.symm⟩

/-- An argument that an accepted command line takes as a source file ends in one of the suffixes, which is not all of
it. -/
theorem hasSourceSuffix_of_accepted {args : List String} {i : Invocation} {arg : String}
    (h : Invocation.ofArguments args = .ok i) (harg : arg ∈ args) (hsource : Argument.classify arg = .sourceFile) :
    Gathered.hasSourceSuffix arg = true := by
  have hspec := ofArguments_spec args
  rw [h] at hspec
  have hrefusal := hspec.1.accepted arg harg
  by_contra hsuffix
  simp [Argument.refusal?, hsource, hsuffix] at hrefusal

/-- The kind of the unit in a source file that a command line names: it is a definition if the argument ends in `.def`
with more than a slash before it, and an implementation if it ends in `.mod` or `.MOD`. The suffix `.DEF` is taken for
an implementation too, and so is `.def` if it is the whole name. -/
theorem unitKind_of_accepted {args : List String} {i : Invocation} {arg : String}
    (h : Invocation.ofArguments args = .ok i) (harg : arg ∈ args) (hsource : Argument.classify arg = .sourceFile) :
    (Path.unitKind arg = .definition ↔ ".def".toList <:+ arg.toList ∧ ¬"/.def".toList <:+ arg.toList) ∧
      (Path.unitKind arg = .implementation ↔ ".mod".toList <:+ arg.toList ∨ ".MOD".toList <:+ arg.toList ∨
        ".DEF".toList <:+ arg.toList ∨ "/.def".toList <:+ arg.toList) := by
  have hsuffix := hasSourceSuffix_of_accepted h harg hsource
  obtain ⟨suffix, hmem, stem, hstem, harg⟩ := Gathered.hasSourceSuffix_iff.mp hsuffix
  have hform : ∀ suffix ∈ Gathered.suffixes, suffix.toList.length = 4 ∧ suffix.toList = '.' :: suffix.toList.tail ∧
      '/' ∉ suffix.toList.tail ∧ '.' ∉ suffix.toList.tail ∧ suffix.toList.tail ≠ [] := by decide
  obtain ⟨hlength, htail, hslash, hpoint, hne⟩ := hform suffix hmem
  have hdefinition : Path.unitKind arg = .definition ↔
      suffix.toList.tail = ['d', 'e', 'f'] ∧ stem.getLast? ≠ some '/' := by
    rw [← Path.unitKind_of_suffix hslash hpoint hne hstem, ← htail, ← harg, String.ofList_toList]
  have himplementation : Path.unitKind arg = .implementation ↔ ¬Path.unitKind arg = .definition := by
    cases Path.unitKind arg <;> simp
  have hends : ∀ other : List Char, other.length = 4 → (other <:+ arg.toList ↔ other = suffix.toList) := by
    intro other hother
    rw [harg, suffix_append_iff (hother.trans hlength.symm)]
  have hwhole : "/.def".toList <:+ arg.toList ↔ stem.getLast? = some '/' ∧ ".def".toList = suffix.toList := by
    rw [harg]
    exact cons_suffix_append_iff hlength.symm
  rw [himplementation, hdefinition, hwhole, hends _ rfl, hends _ rfl, hends _ rfl, hends _ rfl]
  simp only [Gathered.suffixes, List.mem_cons, List.not_mem_nil, or_false] at hmem
  obtain rfl | rfl | rfl | rfl := hmem <;> simp

/-- A definition is parsed as an implementation if its name is spelled in capital letters. -/
theorem unitKind_of_accepted_capitals :
    ∃ i, Invocation.ofArguments ["--pim3", "lib/Lists.DEF"] = .ok i ∧ i.request = .compile ["lib/Lists.DEF"] ∧
      Path.unitKind "lib/Lists.DEF" = .implementation := by
  obtain ⟨i, h, hrequest⟩ : ∃ i, Invocation.ofArguments ["--pim3", "lib/Lists.DEF"] = .ok i ∧
      i.request = .compile ["lib/Lists.DEF"] := ⟨_, rfl, rfl⟩
  exact ⟨i, h, hrequest, (unitKind_of_accepted h (by simp) (by decide)).2.mpr (by decide)⟩

end Modula
