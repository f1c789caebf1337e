import LogBuckets.Settings.Basic

/-!
# `LogBuckets.Settings.Writer`: settings as a JSON text

Settings are written as an object with all four fields, in a fixed
order and without blanks.
-/

set_option autoImplicit false

namespace LogBuckets.Settings

/-- One member of the written object. -/
def writeMember (s : Settings) (f : Field) : String :=
  "\"" ++ f.name ++ "\":" ++ (s.get f).repr

/-- The settings as a JSON text. -/
def write (s : Settings) : String :=
  "\x7b" ++ ",".intercalate (Field.all.map s.writeMember) ++ "\x7d"

end LogBuckets.Settings
