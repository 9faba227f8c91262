import Elenchus.Search.Basic
import Elenchus.Yaml.Value

/-!
Settings: a tree of named values, read from a file on top of built-in ones. A text of the form
`$` and then `NAME:default` in braces stands for the value of an environment variable.
-/

namespace Elenchus

inductive SettingsError where
  /-- The file does not hold named values. -/
  | notMapping
  /-- An update is not made of named values, or a path is no text. -/
  | wrongShape
  /-- Named values meet a value that is no sequence of pairs. -/
  | notPairs
  /-- Named values meet a sequence of which some item is not two long. -/
  | pairLength
  | unknownLimit (name : String)
  | unknownOption
  /-- The file or the text of a placeholder has no value. -/
  | text (e : Yaml.Error)

def SettingsError.message : SettingsError → Option String
  | .unknownLimit name => some ("Unknown search limit: " ++ name)
  | _ => none

/-- Values of environment variables. -/
abbrev Environment := List (String × String)

/-- How the value of a text is found, be it a file or a placeholder's. -/
abbrev Reader := String → Except Yaml.Error Item

/-- Values by name. Values that are merged as pairs may bring keys that are no text. -/
abbrev Members := List (Item × Item)

namespace Members

def get? (ms : Members) (name : String) : Option Item := Item.find? (.str name) ms

/-- The two parts of an item that is read as a pair. -/
def pairOf (i : Item) : Except SettingsError (Item × Item) :=
  match i.elements? with
  | some [k, v] => .ok (k, v)
  | some _ => .error .pairLength
  | none => .error .notPairs

def ofPairs (ms : Members) : List Item → Except SettingsError Members
  | [] => .ok ms
  | i :: is => do
    let (k, v) ← pairOf i
    if k.isKey then ofPairs (Item.put k v ms) is else .error .notPairs

/-- A value as named values. -/
def ofValue (old : Option Item) : Except SettingsError Members :=
  let i := old.getD .null
  if i.isEmptyValue then .ok []
  else
    match i.untied with
    | .map ms => .ok ms
    | i =>
      match i.elements? with
      | some is => ofPairs [] is
      | none => .error .notPairs

/-- Sets members; named values go into the named values that are there. -/
def merge (old : Members) : (new : Members) → Except SettingsError Members
  | [] => .ok old
  | (k, .map inner) :: rest => do
    let base ← ofValue (Item.find? k old)
    let merged ← merge base inner
    merge (Item.put k (.map merged) old) rest
  | (k, v) :: rest => merge (Item.put k v old) rest

/-- Sets members one by one; those before a failure stay set. -/
def mergeEach (old : Members) : (new : Members) → Except SettingsError Unit × Members
  | [] => (.ok (), old)
  | m :: rest =>
    match merge old [m] with
    | .ok ms => mergeEach ms rest
    | .error e => (.error e, old)

end Members

/-- The parts of a placeholder: the variable and the default, which a colon divides. -/
def placeholder? (text : String) : Option (String × String) :=
  match text.toList with
  | '$' :: '\x7b' :: cs =>
    match cs.reverse with
    | '\x7d' :: inner =>
      let inner := inner.reverse
      let default := (inner.dropWhile (· != ':')).drop 1
      some (String.ofList (inner.takeWhile (· != ':')), String.ofList default)
    | _ => none
  | _ => none

namespace Item

mutual
/-- Puts values in the place of placeholders. -/
def resolve (read : Reader) (env : Environment) : Item → Except SettingsError Item
  | .str s =>
    match placeholder? s with
    | some (name, default) => (read ((env.lookup name).getD default)).mapError .text
    | none => .ok (.str s)
  | .list items => do return .list (← resolveItems read env items)
  | .map members => do return .map (← resolveMembers read env members)
  | i => .ok i

def resolveItems (read : Reader) (env : Environment) :
    List Item → Except SettingsError (List Item)
  | [] => .ok []
  | i :: is => do
    let i ← i.resolve read env
    let is ← resolveItems read env is
    return i :: is

def resolveMembers (read : Reader) (env : Environment) :
    List (Item × Item) → Except SettingsError Members
  | [] => .ok []
  | (k, v) :: ms => do
    let v ← v.resolve read env
    let ms ← resolveMembers read env ms
    return (k, v) :: ms
end

end Item

structure Settings where
  members : Members

namespace Settings

/-- Values under names. -/
def named (members : List (String × Item)) : Members := members.map fun (k, v) => (.str k, v)

def searchDefaults : List (String × Item) :=
  [("max_given", .int 1000), ("max_clauses", .int 10000), ("max_seconds", .null),
    ("max_depth", .null), ("max_clause_size", .int 100), ("max_weight", .null)]

def engineDefaults : List (String × Item) :=
  [("selector", .str "smallest"), ("pick_given_ratio", .int 4), ("factoring", .bool true),
    ("backward_subsumption", .bool true), ("occurs_check", .bool true),
    ("hyperresolution", .bool false), ("unit_deletion", .bool false)]

def defaults : Members :=
  named [("search", .map (named searchDefaults)), ("engine", .map (named engineDefaults))]

/-- The text of a file that is read when there is no other. -/
def standardFile : String :=
  "search:\n" ++
    "  max_given: $\x7bFOLREASONER_MAX_GIVEN:1000\x7d\n" ++
    "  max_clauses: $\x7bFOLREASONER_MAX_CLAUSES:10000\x7d\n" ++
    "  max_seconds: $\x7bFOLREASONER_MAX_SECONDS:null\x7d\n"

/-- Reads the text of a file on top of the defaults. An empty value counts as no values. -/
def load (read : Reader) (env : Environment) (file : String) : Except SettingsError Settings := do
  let value ← (read file).mapError .text
  let members ←
    if value.isEmptyValue then .ok defaults
    else
      match value with
      | .map ms => Members.merge defaults ms
      | _ => .error .notMapping
  let members ← Item.resolveMembers read env members
  .ok ⟨members⟩

/-- Follows a path of names through named values. -/
def follow (i : Item) : (path : List String) → Option Item
  | [] => some i
  | k :: ks =>
    match i.untied with
    | .map ms =>
      match Members.get? ms k with
      | some v => follow v ks
      | none => none
    | _ => none

/-- The names in a path that is written with points between them. -/
def pathOf (path : String) : List String := (path.toList.splitOn '.').map String.ofList

/-- The value at a path, written with points between the names. -/
def get? (s : Settings) (path : String) : Option Item := follow (.map s.members) (pathOf path)

/-- The same for a path that may be no text. -/
def find? (s : Settings) (path : Item) : Except SettingsError (Option Item) :=
  match path with
  | .str path => .ok (s.get? path)
  | _ => .error .wrongShape

def update (s : Settings) (new : Item) : Except SettingsError Unit × Settings :=
  match new with
  | .map ms =>
    let (outcome, members) := Members.mergeEach s.members ms
    (outcome, ⟨members⟩)
  | _ => (.error .wrongShape, s)

/-- The values of a section by name, with defaults for those that are not set. -/
def valuesOf (s : Settings) (name : String) (fallback : List (String × Item)) :
    List (String × Item) :=
  fallback.map fun (k, v) => (k, (s.get? (name ++ "." ++ k)).getD v)

/-- Sets values of known names; the error is the first name that is not known. -/
def overrideValues (values : List (String × Item)) :
    List (String × Item) → Except String (List (String × Item))
  | [] => .ok values
  | (k, v) :: rest =>
    if (values.lookup k).isSome then overrideValues (put k v values) rest else .error k

/-- Names that are taken already where bounds are set by name. -/
def takenNames : List String := ["cls", "config"]

/-- The bounds on a search. -/
def limitValues (s : Settings) (overrides : List (String × Item)) :
    Except SettingsError (List (String × Item)) :=
  if overrides.any fun m => takenNames.contains m.1 then .error .unknownOption
  else
    (overrideValues (s.valuesOf "search" searchDefaults) overrides).mapError .unknownLimit

/-- How a search goes about its work. -/
def optionValues (s : Settings) (overrides : List (String × Item)) :
    Except SettingsError (List (String × Item)) :=
  (overrideValues (s.valuesOf "engine" engineDefaults) overrides).mapError fun _ => .unknownOption

end Settings

namespace Limits

/-- Bounds from values by name. -/
def ofValues (values : List (String × Item)) : Except SettingsError Limits :=
  match Limits.override? {} values with
  | some l => .ok l
  | none => .error .unknownOption

end Limits

namespace SearchOptions

/-- Sets one option. -/
def set (o : SearchOptions) (name : String) (v : Item) : Except SettingsError SearchOptions :=
  let on := !v.isEmptyValue
  match name with
  | "selector" => .ok { o with selector := v }
  | "pick_given_ratio" => .ok { o with ratio := v }
  | "factoring" => .ok { o with strategy := { o.strategy with factoring := on } }
  | "backward_subsumption" =>
    .ok { o with strategy := { o.strategy with backwardSubsumption := on } }
  | "occurs_check" => .ok { o with strategy := { o.strategy with occursCheck := on } }
  | "hyperresolution" => .ok { o with strategy := { o.strategy with hyperresolution := on } }
  | "unit_deletion" => .ok { o with strategy := { o.strategy with unitDeletion := on } }
  | _ => .error .unknownOption

/-- Sets options one after the other. -/
def setAll (o : SearchOptions) : List (String × Item) → Except SettingsError SearchOptions
  | [] => .ok o
  | (name, v) :: rest => do
    let o ← o.set name v
    o.setAll rest

/-- Options from values by name. -/
def ofValues (values : List (String × Item)) : Except SettingsError SearchOptions :=
  setAll {} values

end SearchOptions

end Elenchus
