import Elenchus.Item.Construct
import Elenchus.Json.Reader
import Elenchus.Proof.Encoding

/-!
Reading traces back: objects that name a type become terms, literals, clauses and substitutions,
from the inside out.
-/

namespace Elenchus

namespace Proof

inductive DecodeError where
  | missing (key : String)
  | construct (e : ConstructError)
  | wrongKind
  | wrongCount

/-- Passes on what could be built. -/
def built {α : Type} (r : Except ConstructError α) : Except DecodeError α := r.mapError .construct

def member (ms : List (Item × Item)) (key : String) : Except DecodeError Item :=
  match Item.find? (.str key) ms with
  | some i => .ok i
  | none => .error (.missing key)

/-- What a member is made of. -/
def elements (i : Item) : Except DecodeError (List Item) :=
  match i.elements? with
  | some is => .ok is
  | none => .error .wrongKind

/-- A pair of a binding. -/
def pair (i : Item) : Except DecodeError (Item × Item) := do
  match ← elements i with
  | [x, t] => if x.isKey then .ok (x, t) else .error .wrongKind
  | _ => .error .wrongCount

/-- Later pairs replace earlier ones for the same key, and identities are left out. -/
def decodeBindings (i : Item) : Except DecodeError Item := do
  let pairs ← (← elements i).mapM pair
  let bindings := pairs.foldl (fun bs p => Item.put p.1 p.2 bs) []
  .ok (.subst (bindings.filter fun b => !b.1.same b.2))

/-- An object with decoded members. -/
def decodeObject (ms : List (Item × Item)) : Except DecodeError Item :=
  match Item.find? (.str "_type") ms with
  | some (.str "Variable") => do
    let n ← member ms "name"
    .term <$> built (Construct.variableTerm n)
  | some (.str "Constant") => do
    let n ← member ms "name"
    .term <$> built (Construct.constantTerm n)
  | some (.str "Term") => do
    let args ← member ms "args"
    let f ← member ms "functor"
    let args ← elements args
    .term <$> built (Construct.application f (.int args.length) args)
  | some (.str "Literal") => do
    let args ← member ms "args"
    let p ← member ms "predicate"
    let args ← elements args
    let a ← built (Construct.atom p (.int args.length) args)
    let sign ← member ms "polarity"
    let b ← built (Construct.sign sign)
    .ok (.literal ⟨a, b⟩)
  | some (.str "Clause") => do
    let literals ← elements (← member ms "literals")
    .clause <$> built (Construct.clause literals)
  | some (.str "Substitution") => do decodeBindings (← member ms "bindings")
  | _ => .ok (.map ms)

mutual
def decode : Json → Except DecodeError Item
  | .null => .ok .null
  | .bool b => .ok (.bool b)
  | .int n => .ok (.int n)
  | .float x => .ok (.float x)
  | .str s => .ok (.str s)
  | .arr js => do return .list (← decodeItems js)
  | .obj ms => do
    let decoded ← decodeMembers ms
    decodeObject (decoded.foldl (fun acc m => Item.put m.1 m.2 acc) [])

def decodeItems : List Json → Except DecodeError (List Item)
  | [] => .ok []
  | j :: js => do
    let i ← decode j
    let is ← decodeItems js
    return i :: is

def decodeMembers : List (String × Json) → Except DecodeError (List (Item × Item))
  | [] => .ok []
  | (k, v) :: ms => do
    let i ← decode v
    let is ← decodeMembers ms
    return (.str k, i) :: is
end

/-- Reads the text of a trace; `none` if it is no JSON. -/
def decodeText (text : String) : Option (Except DecodeError Item) := (Json.read? text).map decode

end Proof

end Elenchus
