import Elenchus.Reasoner.Basic
import Elenchus.Settings.Basic

/-! Reasoners as settings describe them. -/

namespace Elenchus.Reasoner

/-- A reasoner without formulas. Bounds and options that are not given come from its `own` settings
if there are any, and else from the `standard` ones, which are looked at only if they are needed. -/
def configure (own : Option (Except SettingsError Settings))
    (standard : Except SettingsError Settings) (limits options : Option (List (String × Item))) :
    Except SettingsError Reasoner := do
  let limits ← limits.mapM Limits.ofValues
  let options ← options.mapM SearchOptions.ofValues
  let settings ← match own with
    | some s => Except.ok <$> s
    | none => .ok standard
  let limits ← match limits with
    | some l => .ok l
    | none => do Limits.ofValues (← (← settings).limitValues [])
  let options ← match options with
    | some o => .ok o
    | none => do SearchOptions.ofValues (← (← settings).optionValues [])
  .ok { limits, options }

/-- Names that are taken already where a single question is asked. -/
def takenNames : List String := ["premises", "query", "cls"]

/-- The bounds for a single question. They are read from the settings, or from what is given in
their place by name, and single bounds can be set apart from that. -/
def limitsOfQuestion (settings : Except SettingsError Settings) (overrides : List (String × Item)) :
    Except SettingsError (List (String × Item)) := do
  if overrides.any fun m => takenNames.contains m.1 then .error .unknownOption
  let rest := overrides.filter fun m => m.1 != "config"
  match (overrides.lookup "config").getD .null with
  | .null => (← settings).limitValues rest
  | .map ms =>
    let values := Settings.searchDefaults.map fun (k, v) =>
      (k, (Members.get? ms ("search." ++ k)).getD v)
    (Settings.overrideValues values rest).mapError .unknownLimit
  | _ => .error .wrongShape

/-- A reasoner for one question. -/
def forOneQuestion (settings : Except SettingsError Settings) (overrides : List (String × Item)) :
    Except SettingsError Reasoner := do
  let limits ← Limits.ofValues (← limitsOfQuestion settings overrides)
  let options ← SearchOptions.ofValues (← (← settings).optionValues [])
  .ok { limits, options }

end Elenchus.Reasoner
