import DeferredBinding.Diagnostic.Code
import DeferredBinding.Json.Printer
import DeferredBinding.Text.Basic

/-!
Diagnostics in words for a terminal, with or without color, and as lines of JSON.
-/
namespace DeferredBinding.Diagnostic

/-- The sequence that starts a terminal style. -/
def style (number : Nat) : String :=
  "\x1b[" ++ Text.decimal number ++ "m"

/-- The sequence that starts a terminal style, where colors are wanted. -/
def styleIf (colored : Bool) (number : Nat) : String :=
  if colored then style number else ""

/-- The color number of a severity: red, yellow or blue. -/
def Severity.color : Severity → Nat
  | .error => 31
  | .warning => 33
  | .note => 34

/-- A label in cyan and what it labels, on an indented line. -/
def labelled (colored : Bool) (label text : String) : String :=
  "  " ++ styleIf colored 36 ++ label ++ styleIf colored 0 ++ " " ++ text ++ "\n"

/-- A diagnostic for a terminal: a header, the path, the causes, the help, and an empty line. -/
def terminal (colored : Bool) (d : Diagnostic) : String :=
  styleIf colored 1 ++ styleIf colored d.severity.color ++ d.severity.label ++ "[" ++ d.code.label ++ "]" ++
    styleIf colored 0 ++ ": " ++ d.message ++ "\n" ++
    (match d.path with
      | some p => labelled colored "-->" p.text
      | none => "") ++
    Text.concat (d.causes.map (labelled colored "= caused by:")) ++
    (match d.help with
      | some h => labelled colored "= help:" h
      | none => "") ++
    "\n"

/-- A count with its noun. -/
def counted (n : Nat) (noun : String) : String :=
  Text.decimal n ++ " " ++ noun ++ (if n = 1 then "" else "s")

/-- The closing line for a list of diagnostics, if it holds errors or warnings. -/
def terminalSummary (colored : Bool) (l : List Diagnostic) : String :=
  let errors := errorCount l
  let warnings := warningCount l
  if errors = 0 ∧ warnings = 0 then ""
  else
    styleIf colored (if errors = 0 then Severity.warning.color else Severity.error.color) ++
      (if errors = 0 then "" else counted errors "error") ++
      (if errors = 0 ∨ warnings = 0 then "" else " and ") ++
      (if warnings = 0 then "" else counted warnings "warning") ++
      " emitted" ++ styleIf colored 0 ++ "\n"

/-- A diagnostic as a value with its fields in alphabetical order. -/
def toJson (d : Diagnostic) : Json :=
  .record [
    ("category", .text d.code.category.label),
    ("causes", .texts d.causes),
    ("code", .text d.code.label),
    ("help", .textOrNull d.help),
    ("message", .text d.message),
    ("path", .textOrNull (d.path.map (·.text))),
    ("severity", .text d.severity.label)]

/-- A diagnostic as a line of JSON. -/
def jsonLine (d : Diagnostic) : String :=
  d.toJson.compactText ++ "\n"

/-- A list of diagnostics as lines of JSON. -/
def jsonLines (l : List Diagnostic) : String :=
  Text.concat (l.map jsonLine)

/-- The closing line of JSON for a list of diagnostics. -/
def jsonSummary (l : List Diagnostic) : String :=
  (Json.record [
    ("errors", .nat (errorCount l)),
    ("total", .nat l.length),
    ("type", .text "summary"),
    ("warnings", .nat (warningCount l))]).compactText ++ "\n"

end DeferredBinding.Diagnostic
