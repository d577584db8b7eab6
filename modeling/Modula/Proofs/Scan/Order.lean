import Mathlib.Order.Basic
import Modula.Proofs.Scan.Complaints

/-!
# The order of reading

Positions are passed in their order: what is read on leads to a later position. So a place in a text is known by its
position (`Position.eq_of_afterAll`), and the symbols of a text and their faults are found at later and later positions
(`Scan.Reads.ascending`).
-/

set_option autoImplicit false

namespace Modula

namespace Position

instance : LE Position := ⟨fun p q => p.line < q.line ∨ p.line = q.line ∧ p.column ≤ q.column⟩

instance (p q : Position) : Decidable (p ≤ q) :=
  inferInstanceAs (Decidable (p.line < q.line ∨ p.line = q.line ∧ p.column ≤ q.column))

/-- Positions are ordered by line, and within a line by column. -/
theorem le_iff {p q : Position} : p ≤ q ↔ p.line < q.line ∨ p.line = q.line ∧ p.column ≤ q.column := Iff.rfl

instance : PartialOrder Position where
  le_refl p := .inr ⟨rfl, le_rfl⟩
  le_trans p q r h h' := by
    rw [le_iff] at h h' ⊢
    omega
  le_antisymm p q h h' := by
    obtain ⟨line, column⟩ := p
    obtain ⟨line', column'⟩ := q
    simp only [le_iff, mk.injEq] at h h' ⊢
    omega

/-- Every character moves a position on. -/
theorem lt_after (p : Position) (c : Char) : p < p.after c := by
  refine lt_of_le_not_ge ?_ ?_ <;> rw [le_iff, after] <;> split <;> simp

/-- No characters move a position back. -/
theorem le_afterAll (p : Position) (cs : List Char) : p ≤ p.afterAll cs := by
  induction cs generalizing p with
  | nil => exact le_rfl
  | cons c cs ih => exact (p.lt_after c).le.trans (ih (p.after c))

/-- At least one moves it on. -/
theorem lt_afterAll (p : Position) {cs : List Char} (h : cs ≠ []) : p < p.afterAll cs := by
  obtain ⟨c, others, rfl⟩ := List.exists_cons_of_ne_nil h
  exact (p.lt_after c).trans_le ((p.after c).le_afterAll others)

/-- Two starts of a text that lead to the same position are the same. -/
theorem eq_of_afterAll {p : Position} {a b text : List Char} (ha : a <+: text) (hb : b <+: text)
    (h : p.afterAll a = p.afterAll b) : a = b := by
  have hlonger : ∀ {a b : List Char}, p.afterAll a = p.afterAll b → a <+: b → a = b := by
    rintro a b h ⟨tail, rfl⟩
    by_contra hne
    have htail : tail ≠ [] := fun hnil => hne (by simp [hnil])
    have hlater := (p.afterAll a).lt_afterAll htail
    rw [← afterAll_append, ← h] at hlater
    exact hlater.false
  obtain hab | hba := List.prefix_or_prefix_of_prefix ha hb
  · exact hlonger h hab
  · exact (hlonger h.symm hba).symm

/-- Reading leads to a column, and columns are counted from one. -/
theorem column_afterAll_pos {p : Position} (hp : 0 < p.column) (cs : List Char) : 0 < (p.afterAll cs).column := by
  induction cs generalizing p with
  | nil => exact hp
  | cons c cs ih =>
    refine ih (p := p.after c) ?_
    unfold after
    split <;> exact Nat.succ_pos _

end Position

namespace Scan

/-! ## Faults and symbols -/

/-- A lexical fault, found at a position or after it. -/
def FaultFrom (p : Position) (d : Diagnostic) : Prop := d.code.category = .lexical ∧ ∀ q ∈ d.position, p ≤ q

/-- A fault from some position on is one from any position before. -/
theorem FaultFrom.mono {p q : Position} {d : Diagnostic} (hpq : p ≤ q) (h : FaultFrom q d) : FaultFrom p d :=
  ⟨h.1, fun r hr => hpq.trans (h.2 r hr)⟩

/-- A lexical diagnostic at a position is a fault from any position up to there. -/
theorem faultFrom_at {p q : Position} {d : Diagnostic} (hcode : d.code.category = .lexical) (hd : d.position = some q)
    (hpq : p ≤ q) : FaultFrom p d := by
  refine ⟨hcode, fun r hr => ?_⟩
  rw [hd, Option.mem_some] at hr
  exact hr ▸ hpq

/-- Faults in a gap are at its start or behind. -/
theorem GapFault.faultFrom {p : Position} {text : List Char} {d : Diagnostic} (h : GapFault p text d) :
    FaultFrom p d := by
  cases h with
  | disabled => exact ⟨rfl, by simp⟩
  | comment h =>
    obtain ⟨code, front, rfl | rfl, -, rfl⟩ := h
    all_goals exact faultFrom_at rfl rfl (p.le_afterAll front)

/-- Faults in a string are at its start or behind. -/
theorem StringContent.faultFrom {quote : Char} {escapes : Bool} {after body : List Char} {p : Position}
    {stray : List Diagnostic} (h : StringContent quote escapes after p body stray) : ∀ d ∈ stray, FaultFrom p d := by
  induction h with
  | nil | last => simp
  | plain _ _ _ next ih => exact fun d hd => (ih d hd).mono (Position.lt_after _ _).le
  | escape _ _ next ih => exact fun d hd => (ih d hd).mono ((Position.lt_after _ _).trans (Position.lt_after _ _)).le
  | stray _ _ _ _ next ih =>
    intro d hd
    obtain rfl | hd := List.mem_cons.mp hd
    · exact faultFrom_at rfl rfl le_rfl
    · exact (ih d hd).mono (Position.lt_after _ _).le

/-- Faults of a symbol are at its start or behind. -/
theorem Complaints.faultFrom {rules : ScanRules} {u : Symbol} {after : List Char} {own : List Diagnostic}
    (h : Complaints rules u after own) : ∀ d ∈ own, FaultFrom u.position d := by
  cases h with
  | character | integer | real | ident | pragma =>
    intro d hd
    obtain rfl := List.mem_singleton.mp hd
    exact faultFrom_at rfl rfl le_rfl
  | string htoken hquote hlexeme hbody hend hsome =>
    intro d hd
    obtain hd | hd := List.mem_append.mp hd
    · exact (hbody.faultFrom d hd).mono (Position.lt_after _ _).le
    · cases hend with
      | quote => cases hd
      | line | text =>
        obtain rfl := List.mem_singleton.mp hd
        exact faultFrom_at rfl rfl le_rfl
  | none => simp

/-- A symbol is found from the reading point on. -/
theorem Splits.position_le {s s' : Source} {found : Symbol} (h : Splits s found s') : s.position ≤ found.position := by
  obtain ⟨rfl, -⟩ | ⟨-, gap, spelling, -, -, -, hposition, -⟩ := h
  · exact s.position.le_afterAll _
  · rw [hposition]
    exact s.position.le_afterAll gap

/-- The faults of what is found lie from the reading point on, too. -/
theorem Finds.faultFrom {rules : ScanRules} {s s' : Source} {found : Scanned} (h : Finds rules s [] found s') :
    ∀ d ∈ found.faults, FaultFrom s.position d := by
  obtain ⟨gap, own, hfaults, hgap, hown⟩ := h.complaints
  rw [hfaults, List.reverse_nil, List.nil_append]
  intro d hd
  obtain hd | hd := List.mem_append.mp hd
  · exact (hgap d hd).faultFrom
  · exact (hown.faultFrom d hd).mono h.splits.position_le

/-- Symbols that come one after the other from a position on, each with its faults after the symbol before it. -/
def Ascending : Position → List Scanned → Prop
  | _, [] => True
  | p, u :: others =>
    p ≤ u.symbol.position ∧ (∀ d ∈ u.faults, FaultFrom p d) ∧ Ascending u.symbol.position others

/-- Symbols that ascend from some position on do so from any position before. -/
theorem Ascending.mono {p q : Position} {found : List Scanned} (hpq : p ≤ q) (h : Ascending q found) :
    Ascending p found := by
  cases found with
  | nil => trivial
  | cons u others => exact ⟨hpq.trans h.1, fun d hd => (h.2.1 d hd).mono hpq, h.2.2⟩

/-- The symbols of a text ascend, and so do their faults. -/
theorem Reads.ascending {rules : ScanRules} {s : Source} {found : List Scanned} (h : Reads rules s found) :
    Ascending s.position found := by
  induction h with
  | last hfinds heof => exact ⟨hfinds.splits.position_le, hfinds.faultFrom, trivial⟩
  | @more s s' found others hfinds heof less next ih =>
    refine ⟨hfinds.splits.position_le, hfinds.faultFrom, ih.mono ?_⟩
    obtain ⟨gap, spelling, -, -, -, hposition, -, hposition', -⟩ := hfinds.splits.of_ne_eof heof
    rw [hposition, hposition', Position.afterAll_append]
    exact Position.le_afterAll _ _

/-- Symbols that ascend bring lexical diagnostics only. -/
theorem Ascending.lexical {p : Position} {found : List Scanned} (h : Ascending p found) :
    ∀ u ∈ found, ∀ d ∈ u.faults, d.code.category = .lexical := by
  induction found generalizing p with
  | nil => simp
  | cons v others ih =>
    intro u hu d hd
    obtain rfl | hu := List.mem_cons.mp hu
    · exact (h.2.1 d hd).1
    · exact ih h.2.2 u hu d hd

end Scan

end Modula
