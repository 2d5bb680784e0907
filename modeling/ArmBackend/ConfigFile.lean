import ArmBackend.Toml.Schema

/-!
# Configuration files

A configuration file has the fields `word` and `features`, both optional.
-/

namespace ArmBackend.Config

/-- The fields of a configuration. -/
def field? : String → Option (Toml.Field Config)
  | "word" => some (.single .word fun word c => { c with word })
  | "features" => some (.single .features fun features c => { c with features })
  | _ => none

/-- A configuration has no list of records. -/
def schema : Toml.Schema Config Empty where
  field? := field?

/-- Reads a configuration; fields that are not given keep their defaults. -/
def decode (text : String) : Except Fault Config :=
  (schema.decode {} text).mapError fun cause => { cause }

/-- The configuration in the file at a path, given what the file holds, if there is one. -/
def load (path : String) (content : Option String) : Except Fault Config := do
  let some text := content | throw ((Fault.refused (.noSuchFile path)).within "open")
  let c ← inContext s!"decode {path}" (decode text)
  inContext path c.validate
  return c

end ArmBackend.Config
