import Mathlib.Logic.Function.Iterate
import Modula.Parser.State
import Modula.Proofs.Scan.Reading

/-!
# A reader as a list of symbols

A reader shows its symbols through a window of one or two and keeps the rest apart. For a proof it is a list: the
symbols that are still to be read (`pending`), of which those before the end of the input lie `ahead`. Reading drops
the first of them, looking at the second one leaves them as they are, and after the end of the input nothing changes
any more. `Ends` is what every reader keeps: all symbols after those ahead are the end of the input.
-/

set_option autoImplicit false

namespace Modula

namespace SymbolReader

/-- The symbols still to be read, the next one first. -/
def pending (r : SymbolReader) : List Symbol := r.next :: (r.second.toList ++ r.unseen.map (·.symbol))

/-- The symbols still to be read before the end of the input. -/
def ahead (r : SymbolReader) : List Symbol := r.pending.takeWhile (·.token ≠ .eof)

/-- The last symbol is the end of the input, and so is every symbol from the first such on, of which there is one. As
long as there are symbols that have not come into view, there is no more than that one. -/
structure Ends (r : SymbolReader) : Prop where
  last : r.last.token = .eof
  ends : ∃ n, r.pending = r.ahead ++ List.replicate (n + 1) r.last ∧ (r.unseen ≠ [] → n = 0)

/-! ## What the operations do to the symbols -/

/-- The symbol that comes into view next. -/
def upcoming (r : SymbolReader) : Scanned := r.unseen.headD ⟨r.last, []⟩

/-- Bringing a symbol into view takes it from those not yet seen, and reports and logs it. -/
theorem scan_eq (r : SymbolReader) :
    r.scan = (r.upcoming.symbol,
      { r with
        unseen := r.unseen.tail
        reporter := r.reporter.emitAll r.upcoming.faults
        faulty := r.upcoming.faults.any (·.isError)
        events := if r.logsSymbols then r.events.push (.scanned r.upcoming.symbol) else r.events }) := by
  unfold scan upcoming
  cases hu : r.unseen <;> cases hl : r.logsSymbols <;> simp [reveal, log, hu, hl]

/-- To look at the second symbol changes nothing if it is in view, and else brings it into view. -/
theorem peekSecond_cases (r : SymbolReader) :
    r.peekSecond.2 = r ∨ r.second = none ∧ r.peekSecond.2 = { r.scan.2 with second := some r.scan.1 } := by
  cases hs : r.second with
  | some s => exact .inl (by simp [peekSecond, hs])
  | none => exact .inr ⟨rfl, by simp [peekSecond, hs]⟩

/-- To read is to look at the second symbol and to go on to it. -/
theorem read_eq (r : SymbolReader) :
    r.read = { r.peekSecond.2 with current := r.next, next := r.peekSecond.1, second := none } := by
  cases hs : r.second <;> simp [read, peekSecond, scan_eq, hs]

/-- The symbol after the next one is the next one after one more read. -/
theorem peekSecond_fst (r : SymbolReader) : r.peekSecond.1 = r.read.next := by rw [read_eq]

/-- The second symbol that was asked for is kept. -/
theorem second_peekSecond (r : SymbolReader) : r.peekSecond.2.second = some r.peekSecond.1 := by
  cases hs : r.second <;> simp [peekSecond, hs]

/-- Asking for the second symbol leaves the next one. -/
theorem next_peekSecond (r : SymbolReader) : r.peekSecond.2.next = r.next := by
  obtain hpeek | ⟨-, hpeek⟩ := r.peekSecond_cases
  · rw [hpeek]
  · rw [hpeek, scan_eq]

/-- Reading goes on to the symbols after the next one; if there are none, to the end of the input. -/
theorem pending_read (r : SymbolReader) :
    r.read.pending = if r.pending.tail = [] then [r.last] else r.pending.tail := by
  cases hs : r.second with
  | some s => simp [read, pending, hs]
  | none => cases hu : r.unseen <;> simp [read, scan_eq, upcoming, pending, hs, hu]

/-- Looking at the second symbol adds at most one more end of the input behind the last symbol. -/
theorem pending_peekSecond (r : SymbolReader) :
    r.peekSecond.2.pending = if r.pending.tail = [] then r.pending ++ [r.last] else r.pending := by
  cases hs : r.second with
  | some s => simp [peekSecond, pending, hs]
  | none => cases hu : r.unseen <;> simp [peekSecond, scan_eq, upcoming, pending, hs, hu]

/-- Asking for the second symbol leaves the last one of all. -/
@[simp] theorem last_peekSecond (r : SymbolReader) : r.peekSecond.2.last = r.last := by
  cases hs : r.second <;> simp [peekSecond, scan_eq, hs]

/-- So does reading a symbol. -/
@[simp] theorem last_read (r : SymbolReader) : r.read.last = r.last := by
  rw [read_eq]
  exact last_peekSecond r

/-- Asking for the second symbol leaves the number of all. -/
@[simp] theorem total_peekSecond (r : SymbolReader) : r.peekSecond.2.total = r.total := by
  cases hs : r.second <;> simp [peekSecond, scan_eq, hs]

/-- So does reading a symbol. -/
@[simp] theorem total_read (r : SymbolReader) : r.read.total = r.total := by
  rw [read_eq]
  exact total_peekSecond r

/-- What has been read is what was next. -/
@[simp] theorem current_read (r : SymbolReader) : r.read.current = r.next := by rw [read_eq]

/-- After a read only one symbol is in view. -/
theorem second_read (r : SymbolReader) : r.read.second = none := by rw [read_eq]

/-- What has not been seen yet had not been before either. -/
theorem unseen_of_peekSecond {r : SymbolReader} (h : r.peekSecond.2.unseen ≠ []) : r.unseen ≠ [] := by
  rintro hnil
  cases hs : r.second <;> simp [peekSecond, scan_eq, hs, hnil] at h

/-- So it is with reading. -/
theorem unseen_of_read {r : SymbolReader} (h : r.read.unseen ≠ []) : r.unseen ≠ [] := by
  rw [read_eq] at h
  exact unseen_of_peekSecond h

/-- With one symbol left none is unseen. -/
theorem unseen_eq_nil_of_pending {r : SymbolReader} (h : r.pending.tail = []) : r.unseen = [] := by
  simpa [pending] using (List.append_eq_nil_iff.mp h).2

/-! ## The symbols ahead -/

variable {r : SymbolReader}

/-- If only the end is left behind some symbols, these are all that is ahead. -/
theorem ahead_of_pending {r : SymbolReader} {body : List Symbol} {n : Nat} (hlast : r.last.token = .eof)
    (hbody : ∀ s ∈ body, s.token ≠ .eof) (h : r.pending = body ++ List.replicate (n + 1) r.last)
    (hunseen : r.unseen ≠ [] → n = 0) : r.ahead = body ∧ r.Ends := by
  have hahead : r.ahead = body := by
    rw [ahead, h, List.takeWhile_append_of_pos (by simpa using hbody)]
    simp [List.replicate_succ, hlast]
  exact ⟨hahead, hlast, n, by rw [hahead, h], hunseen⟩

/-- The end is never ahead. -/
theorem token_ne_eof_of_mem_ahead {s : Symbol} (h : s ∈ r.ahead) : s.token ≠ .eof := by
  simpa using List.mem_takeWhile_imp h

/-- The next symbol is the first one ahead; if none is ahead, it is the end of the input. -/
theorem Ends.next_eq (h : r.Ends) : r.next = r.ahead.headD r.last := by
  obtain ⟨n, hn, -⟩ := h.ends
  have hhead : r.pending.head? = some r.next := rfl
  rw [hn] at hhead
  cases hahead : r.ahead with
  | nil => simpa [hahead, List.replicate_succ, eq_comm] using hhead
  | cons s others => simpa [hahead, eq_comm] using hhead

/-- Nothing is ahead exactly at the end. -/
theorem Ends.ahead_eq_nil_iff (h : r.Ends) : r.ahead = [] ↔ r.next.token = .eof := by
  rw [h.next_eq]
  constructor
  · intro hnil
    simp [hnil, h.last]
  · intro htoken
    cases hahead : r.ahead with
    | nil => rfl
    | cons s others =>
      rw [hahead, List.headD_cons] at htoken
      exact (token_ne_eof_of_mem_ahead (r := r) (s := s) (by simp [hahead]) htoken).elim

/-- At the end of the input every symbol has come into view. -/
theorem Ends.unseen_eq_nil (h : r.Ends) (heof : r.next.token = .eof) : r.unseen = [] := by
  obtain ⟨n, hn, hunseen⟩ := h.ends
  by_contra hne
  obtain rfl := hunseen hne
  rw [h.ahead_eq_nil_iff.mpr heof] at hn
  exact hne (unseen_eq_nil_of_pending (by rw [hn]; rfl))

/-- Reading drops the first symbol ahead. -/
theorem Ends.read (h : r.Ends) : r.read.ahead = r.ahead.tail ∧ r.read.Ends := by
  obtain ⟨n, hn, hunseen⟩ := h.ends
  have hbody : ∀ s ∈ r.ahead.tail, s.token ≠ .eof :=
    fun s hs => token_ne_eof_of_mem_ahead (r := r) (List.mem_of_mem_tail hs)
  cases hahead : r.ahead with
  | nil =>
    rw [hahead, List.nil_append] at hn
    refine ahead_of_pending (n := n - 1) (by simpa using h.last) (by simp) ?_ fun hne => ?_
    · rw [pending_read, hn, last_read]
      cases n with
      | zero => simp
      | succ n => simp [List.replicate_succ]
    · have hzero := hunseen (unseen_of_read hne)
      omega
  | cons s others =>
    rw [hahead] at hn hbody
    refine ahead_of_pending (n := n) (by simpa using h.last) hbody ?_ fun hne => hunseen (unseen_of_read hne)
    rw [pending_read, hn, last_read]
    simp [List.replicate_succ]

/-- Looking at the second symbol leaves the symbols ahead as they are. -/
theorem Ends.peekSecond (h : r.Ends) : r.peekSecond.2.ahead = r.ahead ∧ r.peekSecond.2.Ends := by
  obtain ⟨n, hn, hunseen⟩ := h.ends
  by_cases htail : r.pending.tail = []
  · refine ahead_of_pending (n := n + 1) (by simpa using h.last)
      (fun s hs => token_ne_eof_of_mem_ahead (r := r) hs) ?_
      fun hne => (unseen_of_peekSecond hne (unseen_eq_nil_of_pending htail)).elim
    rw [pending_peekSecond, if_pos htail, hn, last_peekSecond, List.append_assoc, List.replicate_succ' (n := n + 1)]
  · refine ahead_of_pending (n := n) (by simpa using h.last)
      (fun s hs => token_ne_eof_of_mem_ahead (r := r) hs) ?_ fun hne => hunseen (unseen_of_peekSecond hne)
    rw [pending_peekSecond, if_neg htail, hn, last_peekSecond]

/-- The second symbol is the second one ahead, or the end of the input if there are fewer. -/
theorem Ends.second_eq (h : r.Ends) : r.peekSecond.1 = r.ahead.tail.headD r.last := by
  rw [peekSecond_fst, h.read.2.next_eq, h.read.1, last_read]

/-- What reading keeps is kept by passing pragmas. -/
theorem keeps_skipPragmas {P : SymbolReader → Prop} (hread : ∀ r, P r → P r.read) (h : P r) : P r.skipPragmas := by
  have hwithin : ∀ n r, P r → P (skipPragmasWithin n r) := by
    intro n
    induction n with
    | zero => exact fun _ h => h
    | succ n ih =>
      intro r h
      unfold skipPragmasWithin
      split
      · exact ih r.read (hread r h)
      · exact h
  exact hwithin _ r h

/-- Passing pragmas leaves the last symbol of all. -/
theorem last_skipPragmas (r : SymbolReader) : r.skipPragmas.last = r.last :=
  keeps_skipPragmas (P := fun r' => r'.last = r.last) (fun r' h => (last_read r').trans h) rfl

/-! ## The start of a text -/

/-- At the start all symbols are left. -/
theorem pending_start (filename : String) (symbols : List Scanned) (reporter : Reporter) (logs : Bool)
    (h : symbols ≠ []) : (start filename symbols reporter logs).pending = symbols.map (·.symbol) := by
  cases symbols with
  | nil => exact (h rfl).elim
  | cons s others => simp [start, scan_eq, upcoming, pending]

/-- The last symbol of all is the last one scanned. -/
theorem last_start (filename : String) (symbols : List Scanned) (reporter : Reporter) (logs : Bool)
    (h : symbols ≠ []) : (start filename symbols reporter logs).last = (symbols.getLast h).symbol := by
  simp [start, scan_eq, List.getLast?_eq_some_getLast h]

/-- The number of all symbols is that of those scanned. -/
theorem total_start (filename : String) (symbols : List Scanned) (reporter : Reporter) (logs : Bool) :
    (start filename symbols reporter logs).total = symbols.length := by
  simp [start, scan_eq]

/-- Reading on and on yields the pending symbols one after the other, then the last one again and again. -/
theorem current_iterate_read (r : SymbolReader) (n : Nat) :
    (SymbolReader.read^[n + 1] r).current = r.pending.getD n r.last := by
  induction n generalizing r with
  | zero => simp [pending]
  | succ n ih =>
    rw [Function.iterate_succ_apply, ih, pending_read, last_read]
    split
    · next htail =>
      rw [show r.pending = r.next :: r.pending.tail from rfl, htail]
      cases n <;> simp
    · rw [show r.pending = r.next :: r.pending.tail from rfl, List.getD_cons_succ, List.tail_cons]

end SymbolReader

/-- The symbols read from a text: some that are not the end of the input, then that end. -/
theorem Scan.Reads.eq_append {rules : ScanRules} {s : Source} {found : List Scanned} (h : Scan.Reads rules s found) :
    ∃ (body : List Scanned) (last : Scanned), found = body ++ [last] ∧ (∀ t ∈ body, t.symbol.token ≠ .eof) ∧
      last.symbol.token = .eof := by
  induction h with
  | @last s s' found hfinds heof => exact ⟨[], found, rfl, by simp, heof⟩
  | @more s s' found others hfinds heof less next ih =>
    obtain ⟨body, last, rfl, hbody, hlast⟩ := ih
    exact ⟨found :: body, last, rfl, by simpa using ⟨heof, hbody⟩, hlast⟩

namespace SymbolReader

variable {o : Options} {s : Source}

/-- A reader of a source before any symbol has come into view. -/
def unread (o : Options) (s : Source) : SymbolReader :=
  { filename := s.filename, total := (Scan.symbols o.scanRules s).length, current := .initial, next := .initial,
    second := none, unseen := Scan.symbols o.scanRules s,
    last := ((Scan.symbols o.scanRules s).getLast?.map (·.symbol)).getD .initial, faulty := false,
    reporter := { lines := if o.diagnostics.verbose then some s.lines else none },
    logsSymbols := o.diagnostics.lexerDebug, events := #[] }

/-- A reader starts by reading the first symbol. -/
theorem read_unread (o : Options) (s : Source) : (unread o s).read = ofSource o s := by
  simp [ofSource, start, read, unread, scan_eq]

/-- Every text has a symbol, if only its end. -/
theorem symbols_ne_nil (o : Options) (h : s.rest.length ≤ s.length) : Scan.symbols o.scanRules s ≠ [] := by
  obtain ⟨body, last, heq, -⟩ := (Scan.reads_symbols o.scanRules s h).eq_append
  simp [heq]

/-- A reader of a source has all symbols of the source before it. -/
theorem pending_ofSource (h : s.rest.length ≤ s.length) :
    (ofSource o s).pending = (Scan.symbols o.scanRules s).map (·.symbol) :=
  pending_start _ _ _ _ (symbols_ne_nil o h)

/-- A reader of a source counts the symbols of the source. -/
theorem total_ofSource : (ofSource o s).total = (Scan.symbols o.scanRules s).length := total_start _ _ _ _

/-- A reader of a source comes to its end and stays there. -/
theorem ends_ofSource (h : s.rest.length ≤ s.length) : (ofSource o s).Ends := by
  obtain ⟨body, last, heq, hbody, hlast⟩ := (Scan.reads_symbols o.scanRules s h).eq_append
  have hsymbol : (ofSource o s).last = last.symbol := by
    rw [ofSource, last_start _ _ _ _ (symbols_ne_nil o h)]
    simp [heq]
  have hpending : (ofSource o s).pending = body.map (·.symbol) ++ List.replicate (0 + 1) (ofSource o s).last := by
    rw [pending_ofSource h, hsymbol, heq]
    simp
  exact (ahead_of_pending (by rw [hsymbol, hlast]) (by simpa using hbody) hpending fun _ => rfl).2

/-- As many symbols lie ahead of a reader of a source as the source has before the end of the input. -/
theorem length_ahead_ofSource (h : s.rest.length ≤ s.length) :
    (ofSource o s).ahead.length < (ofSource o s).total := by
  obtain ⟨n, hn, -⟩ := (ends_ofSource (o := o) h).ends
  have hlen := congrArg List.length hn
  rw [pending_ofSource h, List.length_map, ← total_ofSource, List.length_append, List.length_replicate] at hlen
  omega

end SymbolReader

end Modula
