import InlineComponents.Text.LowerCase

namespace InlineComponents

/-- How much is reported: each level reports what the levels before it report, and more. -/
inductive LogLevel where
  | silent
  | error
  | warn
  | info
  | debug
  | trace
  deriving DecidableEq, Repr

namespace LogLevel

def default : LogLevel := .warn

/-- The name that the level goes by in a filter. -/
def filterName : LogLevel → String
  | .silent => "off"
  | .error => "error"
  | .warn => "warn"
  | .info => "info"
  | .debug => "debug"
  | .trace => "trace"

/-- The level with that name, in lower case already. -/
def named? (name : String) : Option LogLevel :=
  match name with
  | "silent" | "off" => some .silent
  | "error" => some .error
  | "warn" | "warning" => some .warn
  | "info" => some .info
  | "debug" => some .debug
  | "trace" => some .trace
  | _ => none

/-- The level with that name in any case, or what is wrong with the name. -/
def read (text : String) : Except String LogLevel :=
  let name := String.ofList (lowerCase text.toList)
  match named? name with
  | some level => .ok level
  | none => .error ("Invalid log level: " ++ name)

theorem named?_filterName (level : LogLevel) : named? level.filterName = some level := by
  cases level <;> rfl

end LogLevel

end InlineComponents
