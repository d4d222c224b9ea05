import Wiring.Registry.Basic

/-!
# Errors of any part

Where errors of several parts meet, each says which part it comes from. A text
that stands for a broken assumption is left as it is.
-/

namespace Wiring

inductive Failure
  | config (e : ConfigError)
  | context (e : ContextError)
  | access (e : AccessError)
  | coercion (e : CoercionError)
  | registry (e : RegistryError)
deriving DecidableEq

namespace Failure

/-- The text of the error alone. -/
def source? : Failure → Option String
  | .config e => e.message?
  | .context e => some e.message
  | .access e => some e.message
  | .coercion e => some e.message
  | .registry e => e.message?

/-- What is put in front of the text. -/
def origin : Failure → String
  | .config .emptySeparator | .registry .clockOverflow => ""
  | .config _ => "configuration error: "
  | .context _ => "context error: "
  | .access _ => "reflection error: "
  | .coercion _ => "coercion error: "
  | .registry _ => "bean error: "

def message? (f : Failure) : Option String :=
  f.source?.map (f.origin ++ ·)

end Failure

end Wiring
