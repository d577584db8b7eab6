import Modula.Diagnostic.Basic
import Modula.Source.Lines

/-!
# The reporter

A reporter collects diagnostics in the order in which they are reported and counts errors and warnings. If it knows the
lines of the source, it adds the line a positioned diagnostic points at.
-/

set_option autoImplicit false

namespace Modula

/-- The diagnostics reported so far, with their counts. -/
structure Reporter where
  lines : Option Lines := none
  errorCount : Nat := 0
  warningCount : Nat := 0
  reported : Array Diagnostic := #[]

namespace Reporter

/-- The number of characters of a source line that diagnostics show. -/
def maxColumns : Nat := 250

/-- Reports a diagnostic; whatever is not an error counts as a warning. -/
def report (r : Reporter) (d : Diagnostic) : Reporter :=
  if d.isError then { r with errorCount := r.errorCount + 1, reported := r.reported.push d }
  else { r with warningCount := r.warningCount + 1, reported := r.reported.push d }

/-- The source line that a diagnostic points at, as far as diagnostics show it. -/
def echo (r : Reporter) (d : Diagnostic) : Option String := do
  let p ← d.position
  let lines ← r.lines
  let line ← lines.line? p.line
  return (line.take maxColumns).copy

/-- Reports a diagnostic with the source line it points at, if that is known. -/
def emit (r : Reporter) (d : Diagnostic) : Reporter := r.report { d with sourceLine := r.echo d }

/-- Reports diagnostics one after the other. -/
def emitAll (r : Reporter) (ds : List Diagnostic) : Reporter := ds.foldl emit r

/-- The diagnostics in the order of their reports. -/
def diagnostics (r : Reporter) : List Diagnostic := r.reported.toList

/-- The reported errors. -/
def errors (r : Reporter) : List Diagnostic := r.diagnostics.filter (·.isError)

/-- The reported diagnostics that are no errors. -/
def warnings (r : Reporter) : List Diagnostic := r.diagnostics.filter (!·.isError)

end Reporter

/-- What a console shows of diagnostics: their texts, each on a line of its own and after the filename if it is known.
-/
def Diagnostic.console (filename : Option String) (ds : List Diagnostic) : String :=
  let lead := (filename.map (· ++ ": ")).getD ""
  String.join (ds.map fun d => lead ++ d.text ++ "\n")

end Modula
