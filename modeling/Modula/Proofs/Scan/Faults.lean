import Modula.Proofs.Scan.Complaints

/-!
# Faults of symbols

A literal that breaks a rule has an error among its faults. So the symbols of a text without lexical errors have
well-formed tokens only, which the parser takes as they are.
-/

set_option autoImplicit false

namespace Modula.Scan

/-- The faults hold no error. -/
def Faultless (faults : List Diagnostic) : Prop := ∀ d ∈ faults, d.isError = false

/-- Two rows of diagnostics have no errors if neither has. -/
theorem faultless_append {a b : List Diagnostic} : Faultless (a ++ b) ↔ Faultless a ∧ Faultless b :=
  List.forall_mem_append

/-! ## Single symbols -/

/-- Whatever is reported of a string is an error. -/
theorem StringContent.eq_nil_of_faultless {quote : Char} {escapes : Bool} {before after body closing : List Char}
    {p start : Position} {stray ending : List Diagnostic} (h : StringContent quote escapes before p body stray)
    (hend : StringEnd quote start closing after ending) (hfaults : Faultless (stray ++ ending)) : stray ++ ending = [] := by
  have herror : ∀ d ∈ stray ++ ending, d.isError = true := by
    intro d hd
    rw [Diagnostic.isError]
    obtain hd | hd := List.mem_append.mp hd
    · rw [h.code_eq d hd]
      rfl
    · obtain hcode | hcode := hend.code_mem d hd <;> rw [hcode] <;> rfl
  refine List.eq_nil_iff_forall_not_mem.mpr fun d hd => ?_
  have hfault := hfaults d hd
  rw [herror d hd] at hfault
  cases hfault

/-- A symbol of which no error is reported is not malformed. -/
theorem Complaints.wellFormed {rules : ScanRules} {u : Symbol} {after : List Char} {own : List Diagnostic}
    (h : Complaints rules u after own) (hown : Faultless own) : u.token.wellFormed = u.token := by
  cases h with
  | character | integer | real =>
    have hfault := hown _ (List.mem_singleton_self _)
    cases hfault
  | ident htoken | pragma htoken =>
    rw [htoken]
    rfl
  | string htoken hquote hlexeme hbody hend hsome => exact (hsome (hbody.eq_nil_of_faultless hend hown)).elim
  | none htoken hident =>
    generalize u.token = token at htoken ⊢
    cases token with
    | malformedInteger | malformedReal | malformedString => simp at htoken
    | _ => rfl

/-! ## Texts -/

/-- A symbol without errors is well-formed. -/
theorem Finds.wellFormed {rules : ScanRules} {s s' : Source} {before : List Diagnostic} {found : Scanned}
    (h : Finds rules s before found s') (hfaults : Faultless found.faults) :
    found.symbol.token.wellFormed = found.symbol.token := by
  obtain ⟨gap, own, hfound, -, hown⟩ := h.complaints
  rw [hfound, ← List.append_assoc] at hfaults
  exact hown.wellFormed (faultless_append.mp hfaults).2

/-- The tokens of a text without lexical errors are well-formed. -/
theorem Reads.wellFormed {rules : ScanRules} {s : Source} {found : List Scanned} (h : Reads rules s found)
    (hfaults : ∀ t ∈ found, Faultless t.faults) : ∀ t ∈ found, t.symbol.token.wellFormed = t.symbol.token := by
  induction h with
  | last hfinds heof => simpa using hfinds.wellFormed (hfaults _ (by simp))
  | more hfinds heof less next ih =>
    intro t ht
    obtain rfl | ht := List.mem_cons.mp ht
    · exact hfinds.wellFormed (hfaults _ (by simp))
    · exact ih (fun u hu => hfaults u (by simp [hu])) t ht

end Modula.Scan
