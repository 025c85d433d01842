/-!
# Settings

* `defaultPackage`: the package of a definition that names none;
* `maxDepth`: how many levels of a hierarchy a query may go up.
-/

namespace NominalTypes

structure Settings where
  defaultPackage : String := "default"
  maxDepth : Nat := 256
  deriving DecidableEq, Repr

end NominalTypes
