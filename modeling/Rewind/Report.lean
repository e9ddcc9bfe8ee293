import Rewind.Span

/-!
# Reports

A `Report` explains an event: a message and a list of annotated spans.  Written out, its first line
carries the most severe level among the spans, and each span has a line of its own: advice is
written behind an equals sign without its place, everything else behind an arrow with it.
-/

namespace Rewind

/-- How bad it is, worst first. -/
inductive Severity where
  /-- The tables are malformed, or the library was misused. -/
  | internal
  /-- The input is wrong. -/
  | error
  /-- Background for another annotation. -/
  | note
  /-- Advice. -/
  | help
  deriving DecidableEq, Repr

namespace Severity

/-- Zero for the worst. -/
def rank : Severity → Nat
  | internal => 0
  | error => 1
  | note => 2
  | help => 3

/-- The severity in words. -/
def render : Severity → String
  | internal => "internal error"
  | error => "error"
  | note => "note"
  | help => "help"

/-- The worse of two. -/
def worse (a b : Severity) : Severity :=
  if a.rank ≤ b.rank then a else b

/-- The worst of a list; an event that has none is an error. -/
def worst : List Severity → Severity
  | [] => error
  | s :: rest => rest.foldl worse s

end Severity

/-- A place with something to say about it. -/
structure Annotation where
  span : Span
  severity : Severity
  label : Option String := none
  deriving DecidableEq, Repr

namespace Annotation

/-- Advice that belongs to no place. -/
def advice (label : String) : Annotation :=
  ⟨Span.unknown, .help, some label⟩

/-- One line of a report. -/
def render (a : Annotation) : String :=
  match a.severity, a.label with
  | .note, some label => s!"  = note: {label}\n"
  | .help, some label => s!"  = help: {label}\n"
  | _, some label => s!"  --> {a.span.render}: {label}\n"
  | _, none => s!"  --> {a.span.render}\n"

end Annotation

/-- An event and what there is to say about it. -/
structure Report where
  message : String
  annotations : List Annotation
  deriving DecidableEq, Repr

namespace Report

/-- The severity of the whole event. -/
def severity (r : Report) : Severity :=
  Severity.worst (r.annotations.map (·.severity))

/-- The report as text, every line ended. -/
def render (r : Report) : String :=
  s!"{r.severity.render}: {r.message}\n" ++ String.join (r.annotations.map (·.render))

end Report

end Rewind
