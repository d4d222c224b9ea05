import Wiring.Config.Environment
import Wiring.Registry.Duration

/-!
# Settings

How long a registry waits for its container, and then for a bean. They are
read from the table `beans` of an environment; what is not given there keeps
its default.
-/

namespace Wiring

open Wiring.Config Wiring.Number

/-- A fixed interval between polls and a number of polls. -/
structure WaitPolicy where
  interval : Duration
  retries : UInt32
deriving DecidableEq, Repr

/-- The total time that a wait may take. -/
def WaitPolicy.window (p : WaitPolicy) : Duration :=
  p.interval.times p.retries.toNat

structure Settings where
  pollMillis : UInt64
  contextRetries : UInt32
  beanRetries : UInt32
deriving DecidableEq, Repr

namespace Settings

def standard : Settings := ⟨100, 100, 50⟩

def contextWait (s : Settings) : WaitPolicy :=
  ⟨.ofMillis s.pollMillis.toNat, s.contextRetries⟩

def beanWait (s : Settings) : WaitPolicy :=
  ⟨.ofMillis s.pollMillis.toNat, s.beanRetries⟩

def integerValue (n : Nat) : Toml.Value :=
  .integer (Int64.ofInt n)

/-- Every key may be missing; no other key may be there. -/
def shape : Shape :=
  .record true [
    ("poll_interval_ms", .u64, .filled (integerValue standard.pollMillis.toNat)),
    ("context_retries", .u32, .filled (integerValue standard.contextRetries.toNat)),
    ("bean_retries", .u32, .filled (integerValue standard.beanRetries.toNat))]

def natAt (key : String) (t : Toml.Table) : Nat :=
  match t.get? key with
  | some (.integer i) => i.toInt.toNat
  | _ => 0

/-- The settings that a value of the shape holds. -/
def ofValue : Toml.Value → Settings
  | .table t =>
    ⟨.ofNat (natAt "poll_interval_ms" t), .ofNat (natAt "context_retries" t),
      .ofNat (natAt "bean_retries" t)⟩
  | _ => standard

def ofEnvironment (env : Environment) : Except ConfigError Settings :=
  match env.get "beans" shape with
  | .ok (some v) => .ok (ofValue v)
  | .ok none => .ok standard
  | .error e => .error e

def text (s : Settings) : String :=
  "BeansSettings \x7b poll_interval_ms: " ++ natText s.pollMillis.toNat ++
    ", context_retries: " ++ natText s.contextRetries.toNat ++
    ", bean_retries: " ++ natText s.beanRetries.toNat ++ " \x7d"

end Settings

end Wiring
