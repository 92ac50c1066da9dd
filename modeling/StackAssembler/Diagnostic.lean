/-!
# Diagnostics

A message about a routine for its author, with a severity and, for defects, a
code.
-/

namespace StackAssembler

/-- How grave a message is. -/
inductive Severity where
  | error
  | warning
  | info
  deriving DecidableEq

namespace Severity

def all : List Severity := [error, warning, info]

def name : Severity → String
  | error => "Error"
  | warning => "Warning"
  | info => "Info"

def text : Severity → String
  | error => "error"
  | warning => "warning"
  | info => "info"

end Severity

/-- A message about a routine. -/
structure Diagnostic where
  severity : Severity
  message : String
  code : Option String := none
  deriving DecidableEq

namespace Diagnostic

/-- A message that reports no defect. -/
def note (message : String) : Diagnostic where
  severity := .info
  message := message

def text (diagnostic : Diagnostic) : String :=
  match diagnostic.code with
  | some code =>
      diagnostic.severity.text ++ "[" ++ code ++ "]: " ++ diagnostic.message
  | none => diagnostic.severity.text ++ ": " ++ diagnostic.message

end Diagnostic

end StackAssembler
