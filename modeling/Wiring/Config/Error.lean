/-!
# Configuration errors

Where a text is no TOML, or a value has not the wanted shape, only the kind of
failure is known, not its wording.
-/

namespace Wiring

inductive ConfigError
  | emptySeparator
  | fileNotFound (path : String)
  | unreadable (path : String)
  | malformedFile (path : String)
  | malformedText
  | shape
  | propertyShape (name : String)
  | circularReference
  | referenceNotFound (path : String)
  | invalidReferencePath (path : String)
  | nonScalarReference (path : String)
  | unclosedReference
deriving DecidableEq, Repr

def ConfigError.message? : ConfigError → Option String
  | .emptySeparator => some "separator must not be empty"
  | .fileNotFound path => some ("required config file not found: " ++ path)
  | .circularReference => some "circular reference detected in configuration"
  | .referenceNotFound path => some ("referenced path not found: " ++ path)
  | .invalidReferencePath path => some ("invalid reference path: " ++ path)
  | .nonScalarReference path => some ("cannot reference non-scalar value: " ++ path)
  | .unclosedReference => some "unclosed reference (missing '\x7d')"
  | .unreadable _ | .malformedFile _ | .malformedText | .shape | .propertyShape _ => none

end Wiring
