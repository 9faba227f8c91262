import Elenchus.Item.Basic
import Elenchus.Yaml.Node

/-!
The values of documents. Collections are filled a level at a time, so that they may hold
themselves; members taken over under the key `<<` come first and give way to a mapping's own.
-/

namespace Elenchus.Yaml

namespace Graph

def membersAt (g : Graph) (n : Nat) : List (Nat × Nat) :=
  match g.contentAt n with
  | .mapping ms => ms
  | _ => []

/-! ### Taking over members -/

/-- Puts the members that are taken over by a mapping before its own, from the member at `index`
on; `taken` are those of the members before. Every step is one of `steps`. -/
def flattenFrom : (steps : Nat) → (n index : Nat) → (taken : List (Nat × Nat)) → Graph →
    Except Error Graph
  | 0, _, _, _, _ => .error .kind
  | steps + 1, n, index, taken, g =>
    let ms := g.membersAt n
    match ms[index]? with
    | none => .ok (if taken.isEmpty then g else g.setContent n (.mapping (taken ++ ms)))
    | some (k, v) =>
      match g.tagAt k with
      | .merge => do
        let g := g.setContent n (.mapping (ms.eraseIdx index))
        match g.contentAt v with
        | .mapping _ =>
          let g ← flattenFrom steps v 0 [] g
          flattenFrom steps n index (taken ++ g.membersAt v) g
        | .sequence items =>
          let (others, g) ← items.foldlM (fun (acc : List (Nat × Nat) × Graph) m => do
            match acc.2.contentAt m with
            | .mapping _ =>
              let g ← flattenFrom steps m 0 [] acc.2
              return (g.membersAt m ++ acc.1, g)
            | _ => .error .kind) ([], g)
          flattenFrom steps n index (taken ++ others) g
        | .scalar _ => .error .kind
      | .value => flattenFrom steps n (index + 1) taken (g.setTag k .str)
      | _ => flattenFrom steps n (index + 1) taken g

/-- The members of a mapping with those that are taken over. -/
def flatten (g : Graph) (n : Nat) : Except Error Graph :=
  flattenFrom (16 * (g.size + 1) * (g.size + 1)) n 0 [] g

/-! ### Texts -/

/-- The text of a node. A mapping has that of its member with the key `=`. -/
def textWithin (g : Graph) : (steps : Nat) → Nat → Except Error String
  | 0, _ => .error .kind
  | steps + 1, n =>
    match g.contentAt n with
    | .scalar text => .ok text
    | .mapping ms =>
      match ms.find? fun m => g.tagAt m.1 = .value with
      | some (_, v) => textWithin g steps v
      | none => .error .kind
    | .sequence _ => .error .kind

/-- The value of a node that is no collection. -/
def textValue (g : Graph) (n : Nat) : Except Error Item := do
  let text := textWithin g (g.size + 1) n
  match g.tagAt n with
  | .null =>
    let _ ← text
    return .null
  | .bool => return .bool (← Scalar.truthOf (← text))
  | .int => return .int (← Scalar.integerOf (← text))
  | .float => return .float (← Scalar.decimalOf (← text))
  | .moment =>
    let text ← text
    match g.contentAt n with
    | .scalar _ => return .moment (← Scalar.momentOf text)
    | _ => .error .notText
  | .bytes => return .bytes (← Scalar.bytesOf (← text))
  | .str => return .str (← text)
  | _ => .error .kind

/-! ### Collections -/

/-- Values in the making: the nodes, the values of those that are texts, the collections that have
been begun, and those of them that are yet to be filled. -/
structure Making where
  nodes : Graph
  texts : List (Nat × Item) := []
  begun : List Nat := []
  waiting : List Nat := []

namespace Making

/-- Makes a node: a text at once, and a collection later. -/
def make (s : Making) (n : Nat) : Except Error Making := do
  if (s.nodes.tagAt n).isCollection then
    if s.begun.contains n then return s
    return { s with begun := n :: s.begun, waiting := s.waiting ++ [n] }
  else if (s.texts.lookup n).isSome then return s
  else return { s with texts := (n, ← s.nodes.textValue n) :: s.texts }

/-- The members of a mapping. A collection cannot be a key. -/
def makeMembers (s : Making) : List (Nat × Nat) → Except Error Making
  | [] => .ok s
  | (k, v) :: ms => do
    let s ← s.make k
    if (s.nodes.tagAt k).isCollection then .error .kind
    (← s.make v).makeMembers ms

/-- Mappings with one member each. -/
def makePairs (s : Making) : List Nat → Except Error Making
  | [] => .ok s
  | n :: ns => do
    match s.nodes.contentAt n with
    | .mapping [(k, v)] => (← (← s.make k).make v).makePairs ns
    | _ => .error .kind

/-- Fills a collection. -/
def fill (s : Making) (n : Nat) : Except Error Making := do
  match s.nodes.tagAt n, s.nodes.contentAt n with
  | .seq, .sequence items => items.foldlM make s
  | .pairs, .sequence items => s.makePairs items
  | .map, .mapping _ | .set, .mapping _ =>
    let nodes ← s.nodes.flatten n
    { s with nodes }.makeMembers (nodes.membersAt n)
  | _, _ => .error .kind

/-- Fills all collections that wait, then those that have been begun meanwhile, and so on. -/
def fillAll : (rounds : Nat) → Making → Except Error Making
  | 0, s => .ok s
  | rounds + 1, s => do
    if s.waiting.isEmpty then return s
    fillAll rounds (← s.waiting.foldlM fill { s with waiting := [] })

end Making

end Graph

mutual
/-- Whether a value refers back to a label. -/
def refersTo (label : Nat) : Item → Bool
  | .back l => l == label
  | .knot _ v => refersTo label v
  | .list is => refersToAny label is
  | .map ms => refersToMember label ms
  | _ => false

def refersToAny (label : Nat) : List Item → Bool
  | [] => false
  | i :: is => refersTo label i || refersToAny label is

def refersToMember (label : Nat) : List (Item × Item) → Bool
  | [] => false
  | (_, v) :: ms => refersTo label v || refersToMember label ms
end

namespace Graph.Making

/-- The value of a node, inside of the collections with the numbers `around`, of which there are at
most as many as `steps` says. -/
def valueWithin (s : Making) : (steps : Nat) → (around : List Nat) → Nat → Item
  | 0, _, _ => .null
  | steps + 1, around, n =>
    if around.contains n then .back n
    else
      let inner := valueWithin s steps (n :: around)
      let members := (s.nodes.membersAt n).foldl
        (fun ms m => Item.put (inner m.1) (inner m.2) ms) []
      let value := match s.nodes.tagAt n, s.nodes.contentAt n with
        | .seq, .sequence items => .list (items.map inner)
        | .pairs, .sequence items => .list (items.map fun m =>
            match s.nodes.contentAt m with
            | .mapping [(k, v)] => .list [inner k, inner v]
            | _ => .null)
        | .map, _ => .map members
        | .set, _ => .set (members.map Prod.fst)
        | _, _ => (s.texts.lookup n).getD .null
      if refersTo n value then .knot n value else value

end Graph.Making

/-- The value of a text. -/
def read (text : String) : Except Error Item := do
  match ← Graph.ofText text with
  | (none, _) => return .null
  | (some root, nodes) =>
    let made ← Graph.Making.make { nodes } root
    let made ← made.fillAll (nodes.size + 1)
    return made.valueWithin (nodes.size + 1) [] root

end Elenchus.Yaml
