import NominalTypes.TypeExpr.Display
import NominalTypes.Universe

/-!
# Definitions as text

* `Universe.display`: the head of a declaration, `interface Map<K, V: Any>`;
* `Universe.inspect`: the identity of a definition and whether it is closed, on one line;
* `quoted`: text between quotation marks, with escapes.
-/

namespace NominalTypes

def Universe.display (U : Universe) (d : Definition) : String :=
  let params := (U.parameters d).map (·.display)
  let list := if params.isEmpty then "" else "<" ++ ", ".intercalate params ++ ">"
  d.kind.keyword ++ " " ++ d.name ++ list

/-- A character inside quotation marks: the mark itself and the backslash are escaped, and control
characters are written by name or by code point. -/
def quotedChar (c : Char) : String :=
  if c = '"' then "\\\""
  else if c = '\\' then "\\\\"
  else if c = '\n' then "\\n"
  else if c = '\r' then "\\r"
  else if c = '\t' then "\\t"
  else if c.toNat = 0 then "\\0"
  else if c.toNat < 32 || c.toNat = 127 then
    "\\u\x7b" ++ String.ofList (Nat.toDigits 16 c.toNat) ++ "\x7d"
  else c.toString

def quoted (text : String) : String :=
  "\"" ++ String.join (text.toList.map quotedChar) ++ "\""

/-- Only the identity is shown: a body may lead back to its own definition. -/
def Universe.inspect (U : Universe) (d : Definition) : String :=
  "TypeDefinition \x7b name: " ++ quoted d.name ++ ", package: " ++ quoted d.package ++
    ", is_interface: " ++ toString d.isInterface ++ ", closed: " ++ toString (U.isClosed d) ++
    ", .. \x7d"

end NominalTypes
