import Modula.Proofs.Reader.Agreement
import Modula.Proofs.Reader.Revealing
import Modula.Proofs.Scan.Lossless

/-!
# Looking ahead changes nothing

A caller may read on, ask for the next token, or ask for the one after it, in any order. Plain reading asks for nothing
but further symbols. At any time a reader is where plain reading gets with as many reads, or else it has in addition
the second symbol in view, which plain reading gets to see with the next read (`SymbolReader.Mirrors`). So looking ahead
moves reports to an earlier call, but neither adds one nor changes their order.
-/

set_option autoImplicit false

namespace Modula

namespace SymbolReader

/-- What a caller may ask of a reader. -/
inductive Call where
  /-- Reads the next symbol. -/
  | read
  /-- Asks for the next token. -/
  | peek
  /-- Asks for the token after the next one. -/
  | peekSecond
deriving DecidableEq

namespace Call

/-- The token that a call answers with, and the reader after the call. Reading answers with the token that is then the
next one. -/
def perform : Call → SymbolReader → Token × SymbolReader
  | .read, r => (r.read.next.token, r.read)
  | .peek, r => (r.next.token, r)
  | .peekSecond, r => (r.peekSecond.1.token, r.peekSecond.2)

/-- How far behind the next symbol the symbol stands whose token answers a call. -/
def offset : Call → ℕ
  | .read => 1
  | .peek => 0
  | .peekSecond => 1

end Call

/-- The reader after some calls. -/
def after (r : SymbolReader) (calls : List Call) : SymbolReader := calls.foldl (fun r c => (c.perform r).2) r

/-- A reader that has no second symbol in view, or the same one with the second symbol in view. -/
structure Mirrors (plain r : SymbolReader) : Prop where
  second : plain.second = none
  eq_or_eq : r = plain ∨ r = plain.peekSecond.2

variable {plain r : SymbolReader}

/-! ## What one call does -/

/-- Asking for the second symbol leaves the current one. -/
theorem current_peekSecond (r : SymbolReader) : r.peekSecond.2.current = r.current := by
  cases hs : r.second <;> simp [peekSecond, scan_eq, hs]

/-- Reading on after a look at the second symbol is reading on. -/
theorem read_peekSecond (h : plain.second = none) : plain.peekSecond.2.read = plain.read := by
  simp [peekSecond, read, scan_eq, h]

/-- Once the second symbol is in view, looking at it again changes nothing. -/
theorem peekSecond_peekSecond (r : SymbolReader) : r.peekSecond.2.peekSecond = r.peekSecond := by
  cases hs : r.second <;> simp [peekSecond, hs]

/-- A reader that mirrors a plain one has the same current symbol. -/
theorem Mirrors.current (h : Mirrors plain r) : r.current = plain.current := by
  obtain rfl | rfl := h.eq_or_eq
  · rfl
  · exact current_peekSecond plain

/-- And the same next symbol. -/
theorem Mirrors.next (h : Mirrors plain r) : r.next = plain.next := by
  obtain rfl | rfl := h.eq_or_eq
  · rfl
  · exact next_peekSecond plain

/-- After a symbol has been read they are one. -/
theorem Mirrors.read (h : Mirrors plain r) : r.read = plain.read := by
  obtain rfl | rfl := h.eq_or_eq
  · rfl
  · exact read_peekSecond h.second

/-- After the second symbol has been asked for they are one, too. -/
theorem Mirrors.peekSecond (h : Mirrors plain r) : r.peekSecond = plain.peekSecond := by
  obtain rfl | rfl := h.eq_or_eq
  · rfl
  · exact peekSecond_peekSecond plain

/-- A call is answered as plain reading tells, and the reader stays beside plain reading, which takes a step if the
call reads. -/
theorem Mirrors.perform (h : Mirrors plain r) (c : Call) :
    (c.perform r).1 = (SymbolReader.read^[c.offset] plain).next.token ∧
      Mirrors (SymbolReader.read^[[c].count .read] plain) (c.perform r).2 := by
  cases c with
  | read => exact ⟨congrArg (·.next.token) h.read, second_read plain, .inl h.read⟩
  | peek => exact ⟨congrArg Symbol.token h.next, h⟩
  | peekSecond =>
    refine ⟨congrArg Symbol.token ?_, h.second, .inr ?_⟩
    · exact (congrArg Prod.fst h.peekSecond).trans (peekSecond_fst plain)
    · exact congrArg Prod.snd h.peekSecond

/-! ## What a run of calls does -/

/-- After any calls a reader is beside plain reading with as many reads. -/
theorem Mirrors.after (h : Mirrors plain r) (calls : List Call) :
    Mirrors (SymbolReader.read^[calls.count .read] plain) (r.after calls) := by
  induction calls generalizing plain r with
  | nil => exact h
  | cons c calls ih =>
    have hstep := ih (h.perform c).2
    rw [← Function.iterate_add_apply, Nat.add_comm, ← List.count_append] at hstep
    exact hstep

/-- The reports of a reader that has gone on begin with those from before. -/
theorem Uncovers.reported {r r' : SymbolReader} (h : Uncovers r r') :
    r.reporter.diagnostics <+: r'.reporter.diagnostics := by
  obtain ⟨seen, -, hreporter⟩ := h
  rw [hreporter]
  exact ⟨_, (Reporter.diagnostics_emitAll_eq _ _).symm⟩

/-- What a reader has reported lies between what plain reading has reported there and one read later. -/
theorem Mirrors.reported (h : Mirrors plain r) :
    plain.reporter.diagnostics <+: r.reporter.diagnostics ∧
      r.reporter.diagnostics <+: plain.read.reporter.diagnostics := by
  obtain rfl | rfl := h.eq_or_eq
  · exact ⟨List.prefix_refl _, (uncovers_read _).reported⟩
  · refine ⟨(uncovers_peekSecond plain).reported, ?_⟩
    have hsame : plain.peekSecond.2.reporter = plain.read.reporter := by rw [reporter_peekSecond, reporter_read]
    exact hsame ▸ List.prefix_refl _

/-- No calls change the last symbol of all. -/
theorem last_after (r : SymbolReader) (calls : List Call) : (r.after calls).last = r.last := by
  induction calls generalizing r with
  | nil => rfl
  | cons c calls ih =>
    cases c with
    | read => exact (ih r.read).trans (last_read r)
    | peek => exact ih r
    | peekSecond => exact (ih r.peekSecond.2).trans (last_peekSecond r)

/-! ## At the end of the input -/

/-- At the end of the input every call is answered with it, leaves it the next symbol, and reports nothing. -/
theorem Ends.perform_eof (h : r.Ends) (heof : r.next.token = .eof) (c : Call) :
    (c.perform r).1 = .eof ∧ (c.perform r).2.Ends ∧ (c.perform r).2.next = r.next ∧
      (c.perform r).2.reporter = r.reporter := by
  have hahead : r.ahead = [] := h.ahead_eq_nil_iff.mpr heof
  have hnext : r.next = r.last := by rw [h.next_eq, hahead, List.headD_nil]
  have hread : r.read.next = r.next := by rw [h.read.2.next_eq, h.read.1, hahead, last_read, hnext]; rfl
  have harriving : r.arriving = [] := by
    unfold arriving upcoming
    rw [h.unseen_eq_nil heof]
    split <;> rfl
  cases c with
  | read =>
    refine ⟨(congrArg Symbol.token hread).trans heof, h.read.2, hread, ?_⟩
    exact (reporter_read r).trans (by rw [harriving]; rfl)
  | peek => exact ⟨heof, h, rfl, rfl⟩
  | peekSecond =>
    refine ⟨?_, h.peekSecond.2, next_peekSecond r, ?_⟩
    · exact (congrArg Symbol.token ((peekSecond_fst r).trans hread)).trans heof
    · exact (reporter_peekSecond r).trans (by rw [harriving]; rfl)

/-- Once the end is next all calls leave it so, and nothing more is reported. -/
theorem Ends.after_eof (h : r.Ends) (heof : r.next.token = .eof) (calls : List Call) :
    (r.after calls).Ends ∧ (r.after calls).next = r.next ∧ (r.after calls).reporter = r.reporter := by
  induction calls generalizing r with
  | nil => exact ⟨h, rfl, rfl⟩
  | cons c calls ih =>
    obtain ⟨-, hends, hnext, hreporter⟩ := h.perform_eof heof c
    obtain ⟨hends', hnext', hreporter'⟩ := ih hends (by rw [hnext, heof])
    exact ⟨hends', hnext'.trans hnext, hreporter'.trans hreporter⟩

/-- A reader comes to its end whatever is called. -/
theorem Ends.after (h : r.Ends) (calls : List Call) : (r.after calls).Ends := by
  induction calls generalizing r with
  | nil => exact h
  | cons c calls ih =>
    cases c with
    | read => exact ih h.read.2
    | peek => exact ih h
    | peekSecond => exact ih h.peekSecond.2

/-! ## Readers of a text -/

variable {o : Options} {s : Source}

/-- At the start a reader mirrors itself. -/
theorem mirrors_ofSource : Mirrors (ofSource o s) (ofSource o s) := ⟨by simp [ofSource, start, scan_eq], .inl rfl⟩

/-- The end of the input stands at the place right after the text. -/
theorem last_ofSource_eq {filename : String} {text : List Char} :
    (ofSource o (.ofNormalized filename text)).last = .endOfInput (placeAfter text) := by
  have hreads := Scan.reads_symbols o.scanRules (.ofNormalized filename text) (Nat.le_refl _)
  have hlast := (hreads.covers [] rfl).getLast?_eq
  rw [List.getLast?_map, List.getLast?_eq_some_getLast (symbols_ne_nil o (Nat.le_refl _))] at hlast
  rw [ofSource, last_start _ _ _ _ (symbols_ne_nil o (Nat.le_refl _))]
  exact Option.some.inj hlast

/-- After any calls of a reader of a text, of which `k` were reads, plain reading with `k` reads has the same current
and the same next symbol: the `k`-th symbol of the text and the one after it. Each further call is answered with the
token of the symbol it names. What has been reported is what plain reading has reported by then or after one more read.
Once the end of the input is next, it stays next and is the symbol after the next one too, every call is answered with
it, and nothing more is reported. -/
theorem lookahead_transparent (o : Options) {filename text : String} {s : Source}
    (h : Source.ofText filename text = .ok s) (calls : List Call) :
    let plain := fun n => SymbolReader.read^[n] (ofSource o s)
    let eof : Symbol := .endOfInput (placeAfter (LineEnds.normalize text.toList))
    let symbol := fun n => ((Scan.symbols o.scanRules s).map (·.symbol)).getD n eof
    let k := calls.count .read
    let r := (ofSource o s).after calls
    (r.current = (plain k).current ∧ r.next = (plain k).next) ∧
      (∀ n, (plain (n + 1)).current = symbol n ∧ (plain n).next = symbol n) ∧
      (∀ c : Call, (c.perform r).1 = (symbol (k + c.offset)).token) ∧
      ((plain k).reporter.diagnostics <+: r.reporter.diagnostics ∧
        ∀ n, k < n → r.reporter.diagnostics <+: (plain n).reporter.diagnostics) ∧
      (r.next.token = .eof → ∀ more : List Call,
        (r.after more).next = eof ∧ (r.after more).peekSecond.1 = eof ∧ (r.after more).reporter = r.reporter ∧
          ∀ c : Call, (c.perform (r.after more)).1 = .eof) := by
  obtain rfl := Source.eq_ofNormalized h
  intro plain eof symbol k r
  have hmirrors : Mirrors (plain k) r := mirrors_ofSource.after calls
  have hcurrent : ∀ n, (plain (n + 1)).current = symbol n := by
    intro n
    rw [current_iterate_read, pending_ofSource (Nat.le_refl _), last_ofSource_eq]
  have hnext : ∀ n, (plain n).next = symbol n := by
    intro n
    rw [← hcurrent n, ← current_read, ← Function.iterate_succ_apply' SymbolReader.read]
  refine ⟨⟨hmirrors.current, hmirrors.next⟩, fun n => ⟨hcurrent n, hnext n⟩, fun c => ?_,
    ⟨hmirrors.reported.1, fun n hn => ?_⟩, fun heof more => ?_⟩
  · rw [(hmirrors.perform c).1, ← Function.iterate_add_apply, Nat.add_comm]
    exact congrArg Symbol.token (hnext _)
  · -- reading on from one read later
    obtain ⟨m, rfl⟩ : ∃ m, n = m + (k + 1) := ⟨n - (k + 1), by omega⟩
    have hread : (plain k).read = plain (k + 1) := (Function.iterate_succ_apply' SymbolReader.read k _).symm
    have hlater : plain (m + (k + 1)) = SymbolReader.read^[m] (plain (k + 1)) := Function.iterate_add_apply _ _ _ _
    refine hmirrors.reported.2.trans ?_
    rw [hread, hlater]
    exact (uncovers_iterate_read _ m).reported
  · have hends : r.Ends := (ends_ofSource (Nat.le_refl _)).after calls
    obtain ⟨hends', hnext', hreporter⟩ := hends.after_eof heof more
    have heof' : (r.after more).next.token = .eof := by rw [hnext', heof]
    have hahead : (r.after more).ahead = [] := hends'.ahead_eq_nil_iff.mpr heof'
    have hlast : (r.after more).last = eof := by
      rw [last_after, last_after, last_ofSource_eq]
    refine ⟨?_, ?_, hreporter, fun c => (hends'.perform_eof heof' c).1⟩
    · rw [hends'.next_eq, hahead, hlast, List.headD_nil]
    · rw [hends'.second_eq, hahead, hlast, List.tail_nil, List.headD_nil]

/-- Calls on a text of an invalid character between two words. -/
theorem lookahead_transparent_invalid :
    ∃ s, Source.ofText "m" "A! B" = .ok s ∧
      ((ofSource .standard s).after [.peekSecond, .peek, .read]).next = ⟨.unknown, "!", ⟨1, 2⟩⟩ := by
  have h : Source.ofText "m" "A! B" = .ok (.ofNormalized "m" "A! B".toList) := by rfl
  obtain ⟨⟨-, hnext⟩, hsymbols, -⟩ := lookahead_transparent .standard h [.peekSecond, .peek, .read]
  refine ⟨_, h, hnext.trans ((hsymbols 1).2.trans ?_)⟩
  decide

end SymbolReader

end Modula
