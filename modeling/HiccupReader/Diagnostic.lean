import HiccupReader.Span

/-! Reports of what went wrong: the kind of trouble, its message, and the place in a source
text if there is one. -/

namespace HiccupReader

inductive DiagnosticKind
  | parse
  | unexpectedNodeKind
  | unknownRule
  | config
  | io
  | internal
  deriving DecidableEq

namespace DiagnosticKind

def heading : DiagnosticKind → String
  | parse => "Parse error: "
  | unexpectedNodeKind => "Unexpected node kind: "
  | unknownRule => "Unknown rule: "
  | config => "Configuration error: "
  | io => "I/O error: "
  | internal => "Internal error: "

def code : DiagnosticKind → String
  | parse => "parcera::parse"
  | unexpectedNodeKind => "parcera::unexpected_node_kind"
  | unknownRule => "parcera::unknown_rule"
  | config => "parcera::config"
  | io => "parcera::io"
  | internal => "parcera::internal"

end DiagnosticKind

structure Source where
  name : String
  text : String
  deriving DecidableEq

structure Label where
  offset : Nat
  length : Nat
  text : String
  deriving DecidableEq

structure Diagnostic where
  kind : DiagnosticKind
  message : String
  span? : Option Span := none
  help? : Option String := none
  source? : Option Source := none
  deriving DecidableEq

namespace Diagnostic

def display (d : Diagnostic) : String := d.kind.heading ++ d.message

def code (d : Diagnostic) : String := d.kind.code

def withSource (d : Diagnostic) (source : Source) : Diagnostic :=
  match d.source? with
  | some _ => d
  | none => { d with source? := some source }

/-- Only a place in a known source can be labelled. An empty place is shown one byte long. -/
def label? (d : Diagnostic) : Option Label :=
  match d.source?, d.span? with
  | some _, some span => some ⟨span.start, max span.length 1, d.message⟩
  | _, _ => none

end Diagnostic
end HiccupReader
