import ScopeScript.Config
import ScopeScript.Json.Reader

/-!
# Settings from JSON

Settings are written as an object whose members may stand in any order, or as an array of the
settings in the order of their declaration. A setting that is left out has its default. Members with
other keys are ignored; a setting given twice is an error, and `null` is never a setting.
-/

namespace ScopeScript

/-- The truthiness mode that a document spells: its name, or an object with the name as its only key
and `null` as the value. -/
def Truthiness.ofJson? : Json → Option Truthiness
  | .string (some s) => ofName? s
  | .object [(some s, .null)] => ofName? s
  | _ => none

namespace Config

/-- The limit of calls that a document spells: an integer of 64 bits without a sign. -/
def depthOfJson? : Json → Option Nat
  | .number (some (.ofNat n)) => if n < UInt64.size then some n else none
  | _ => none

/-- The setting under a key among the members of an object: the default if no member has the key,
what the member spells if one has it, and nothing if several have. -/
def setting? {α : Type} (members : List (Json.Key × Json)) (key : String) (default : α)
    (read? : Json → Option α) : Option α :=
  match members.filter fun m => m.1 == some key with
  | [] => some default
  | [m] => read? m.2
  | _ => none

/-- The settings that a document spells. -/
def ofJson? : Json → Option Config
  | .object members =>
    if members.any fun m => m.1.isNone then none
    else do
      let truthiness ← setting? members "truthiness" .strict Truthiness.ofJson?
      let maxCallDepth ← setting? members "max_call_depth" 1000 depthOfJson?
      return ⟨truthiness, maxCallDepth⟩
  | .array [] => some {}
  | .array [t] => do return ⟨← Truthiness.ofJson? t, 1000⟩
  | .array [t, d] => do return ⟨← Truthiness.ofJson? t, ← depthOfJson? d⟩
  | _ => none

/-- The settings that a text spells. -/
def ofText? (text : String) : Option Config :=
  (Json.read? text).bind ofJson?

end Config

end ScopeScript
