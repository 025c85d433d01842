import NominalTypes.Fault
import NominalTypes.Settings
import NominalTypes.Toml.Document

/-!
# Settings from TOML

`Settings.ofToml` reads a document with the keys `default_package` and `max_depth`, each at most
once and in any order.  A key left out keeps its default; any other key is refused.
-/

namespace NominalTypes.Settings

/-- The greatest integer of the format, 2^63 - 1. -/
def greatestInteger : Int := 9223372036854775807

def withEntry (settings : Settings) : String × Toml.Value → Option Settings
  | ("default_package", .text package) => some { settings with defaultPackage := package }
  | ("max_depth", .integer depth) =>
    if 0 ≤ depth && depth ≤ greatestInteger then some { settings with maxDepth := depth.toNat }
    else none
  | _ => none

def ofEntries? (entries : List (String × Toml.Value)) : Option Settings :=
  if (entries.map (·.1)).Nodup then entries.foldlM withEntry {} else none

def ofToml (document : String) : Except Fault Settings :=
  match (Toml.entries? document).bind ofEntries? with
  | some settings => .ok settings
  | none => .error .invalidSettings

end NominalTypes.Settings
