import Elenchus.Yaml.Scalar
import Elenchus.Yaml.Token

/-!
The nodes of a document. Nodes may be referred to by name, also inside of themselves, so nodes
hold others by their numbers.
-/

namespace Elenchus.Yaml

/-- What a node holds. -/
inductive Content where
  | scalar (text : String)
  | sequence (items : List Nat)
  | mapping (members : List (Nat × Nat))

structure Node where
  tag : Tag
  content : Content

/-- Nodes by number. -/
abbrev Graph := Array Node

namespace Graph

def tagAt (g : Graph) (n : Nat) : Tag :=
  match g[n]? with
  | some node => node.tag
  | none => .other

def contentAt (g : Graph) (n : Nat) : Content :=
  match g[n]? with
  | some node => node.content
  | none => .scalar ""

def setTag (g : Graph) (n : Nat) (tag : Tag) : Graph := g.modify n fun node => { node with tag }

def setContent (g : Graph) (n : Nat) (content : Content) : Graph :=
  g.modify n fun node => { node with content }

end Graph

namespace Tag

/-- What the names of the common tags begin with. -/
def common : String := "tag:yaml.org,2002:"

/-- The tags that are known, by name. -/
def names : List (String × Tag) :=
  [("null", .null), ("bool", .bool), ("int", .int), ("float", .float), ("str", .str),
    ("timestamp", .moment), ("binary", .bytes), ("seq", .seq), ("map", .map), ("set", .set),
    ("omap", .pairs), ("pairs", .pairs), ("merge", .merge), ("value", .value)]

def ofUri (uri : String) : Tag :=
  match names.find? fun (name, _) => common ++ name == uri with
  | some (_, t) => t
  | none => .other

end Tag

/-- What tags can begin with instead of their full names. -/
abbrev Handles := List (String × String)

def standardHandles : Handles := [("!", "!"), ("!!", Tag.common)]

/-- Where the reading of a document stands: the tokens to come, why they end before the document
does if they do, the nodes so far, those that have names, and the handles of tags. -/
structure Reading where
  tokens : List Token
  failure : Option Error
  nodes : Graph := #[]
  anchors : List (String × Nat) := []
  handles : Handles := standardHandles

abbrev Parse := StateT Reading (Except Error)

namespace Parse

def fail {α : Type} (e : Error) : Parse α := throw e

/-- The next token. -/
def peek : Parse Token := do
  match (← get).tokens with
  | t :: _ => return t
  | [] => fail ((← get).failure.getD .grammar)

/-- Moves on behind the next token. -/
def drop : Parse Unit := modify fun r => { r with tokens := r.tokens.tail }

/-- Whether the next token is one of some. -/
def sees (ts : List Token) : Parse Bool := do return ts.contains (← peek)

/-- Takes the next token if it is the one that is asked for. -/
def takes (t : Token) : Parse Bool := do
  if ← sees [t] then
    drop
    return true
  else return false

/-- Adds a node, which has a name from now on if it is given one. -/
def add (name : Option String) (node : Node) : Parse Nat := do
  let n := (← get).nodes.size
  match name with
  | none => modify fun r => { r with nodes := r.nodes.push node }
  | some name =>
    if ((← get).anchors.lookup name).isSome then fail .reference
    modify fun r => { r with nodes := r.nodes.push node, anchors := (name, n) :: r.anchors }
  return n

/-- Where nothing stands, there is an empty word. -/
def addEmpty : Parse Nat := add none ⟨.null, .scalar ""⟩

/-- Says what a node holds that has been added before. -/
def holds (n : Nat) (content : Content) : Parse Nat := do
  modify fun r => { r with nodes := r.nodes.setContent n content }
  return n

/-- The name and the tag of a node, in either order. -/
def properties : Parse (Option String × Option String) := do
  match ← peek with
  | .anchor name =>
    drop
    match ← peek with
    | .tag h s => drop; return (some name, some (← uri h s))
    | _ => return (some name, none)
  | .tag h s =>
    drop
    let t ← (match ← peek with
      | .anchor name => do drop; pure (some name)
      | _ => pure none)
    return (t, some (← uri h s))
  | _ => return (none, none)
where
  uri : Option String → String → Parse String
    | none, suffix => return suffix
    | some handle, suffix => do
      match (← get).handles.lookup handle with
      | some start => return start ++ suffix
      | none => fail .grammar

/-- The tag of a collection. -/
def collectionTag (default : Tag) : Option String → Tag
  | none | some "!" => default
  | some uri => .ofUri uri

/-- The tag of a text. -/
def textTag (plain : Bool) (text : String) : Option String → Tag
  | none => if plain then Scalar.tagOf text else .str
  | some "!" => Scalar.tagOf text
  | some uri => .ofUri uri

mutual
/-- A node. Collections without brackets are only allowed in a block, and entries that are not
indented only below a key. -/
def node (block indentless : Bool) : (steps : Nat) → Parse Nat
  | 0 => fail .grammar
  | steps + 1 => do
    match ← peek with
    | .reference name =>
      drop
      match (← get).anchors.lookup name with
      | some n => return n
      | none => fail .reference
    | _ =>
      let (name, tag) ← properties
      let sequence (items : Parse (List Nat)) : Parse Nat := do
        let n ← add name ⟨collectionTag .seq tag, .sequence []⟩
        holds n (.sequence (← items))
      let mapping (members : Parse (List (Nat × Nat))) : Parse Nat := do
        let n ← add name ⟨collectionTag .map tag, .mapping []⟩
        holds n (.mapping (← members))
      match ← peek with
      | .scalar plain text =>
        drop
        add name ⟨textTag plain text tag, .scalar text⟩
      | .flowSequence =>
        drop
        sequence (flowItems true steps)
      | .flowMapping =>
        drop
        mapping (flowMembers true steps)
      | t =>
        if indentless && t == .blockEntry then sequence (indentlessItems steps)
        else if block && t == .blockSequence then
          drop
          sequence (blockItems steps)
        else if block && t == .blockMapping then
          drop
          mapping (blockMembers steps)
        else if name.isSome || tag.isSome then add name ⟨textTag true "" tag, .scalar ""⟩
        else fail .grammar

/-- A node, or nothing if one of some tokens follows. -/
def nodeUnless (ends : List Token) (block indentless : Bool) : (steps : Nat) → Parse Nat
  | 0 => fail .grammar
  | steps + 1 => do if ← sees ends then addEmpty else node block indentless steps

def blockItems : (steps : Nat) → Parse (List Nat)
  | 0 => fail .grammar
  | steps + 1 => do
    if ← takes .blockEntry then
      let n ← nodeUnless [.blockEntry, .blockEnd] true false steps
      return n :: (← blockItems steps)
    else if ← takes .blockEnd then return []
    else fail .grammar

def indentlessItems : (steps : Nat) → Parse (List Nat)
  | 0 => fail .grammar
  | steps + 1 => do
    if ← takes .blockEntry then
      let n ← nodeUnless [.blockEntry, .key, .value, .blockEnd] true false steps
      return n :: (← indentlessItems steps)
    else return []

def blockMembers : (steps : Nat) → Parse (List (Nat × Nat))
  | 0 => fail .grammar
  | steps + 1 => do
    let ends : List Token := [.key, .value, .blockEnd]
    if ← takes .key then
      let k ← nodeUnless ends true true steps
      let v ← (if ← takes .value then nodeUnless ends true true steps else addEmpty)
      return (k, v) :: (← blockMembers steps)
    else if ← takes .blockEnd then return []
    else fail .grammar

/-- The value of a key inside brackets. -/
def flowValue (ends : List Token) : (steps : Nat) → Parse Nat
  | 0 => fail .grammar
  | steps + 1 => do
    if ← takes .value then nodeUnless ends false false steps else addEmpty

def flowItems (first : Bool) : (steps : Nat) → Parse (List Nat)
  | 0 => fail .grammar
  | steps + 1 => do
    if ← takes .flowSequenceEnd then return []
    if !first then
      if !(← takes .flowEntry) then fail .grammar
    let ends : List Token := [.flowEntry, .flowSequenceEnd]
    if ← takes .key then
      let n ← add none ⟨.map, .mapping []⟩
      let k ← nodeUnless (.value :: ends) false false steps
      let v ← flowValue ends steps
      let _ ← holds n (.mapping [(k, v)])
      return n :: (← flowItems false steps)
    else if ← takes .flowSequenceEnd then return []
    else
      let n ← node false false steps
      return n :: (← flowItems false steps)

def flowMembers (first : Bool) : (steps : Nat) → Parse (List (Nat × Nat))
  | 0 => fail .grammar
  | steps + 1 => do
    if ← takes .flowMappingEnd then return []
    if !first then
      if !(← takes .flowEntry) then fail .grammar
    let ends : List Token := [.flowEntry, .flowMappingEnd]
    if ← takes .key then
      let k ← nodeUnless (.value :: ends) false false steps
      let v ← flowValue ends steps
      return (k, v) :: (← flowMembers false steps)
    else if ← takes .flowMappingEnd then return []
    else
      let k ← node false false steps
      let v ← addEmpty
      return (k, v) :: (← flowMembers false steps)
end

/-- Moves on as long as some token is next. -/
def dropAll (t : Token) : (steps : Nat) → Parse Unit
  | 0 => return
  | steps + 1 => do if ← takes t then dropAll t steps

/-- The handles that directives before a document bring. There is one version of the language, it
is said once, and a handle is only given once. -/
def directives (versioned : Bool) (own : Handles) : (steps : Nat) → Parse Handles
  | 0 => fail .grammar
  | steps + 1 => do
    match ← peek with
    | .directive d =>
      drop
      match d with
      | .version major =>
        if versioned || major != 1 then fail .grammar
        directives true own steps
      | .handle name start =>
        if (own.lookup name).isSome then fail .grammar
        directives versioned ((name, start) :: own) steps
      | .other => directives versioned own steps
    | _ => return own ++ standardHandles

/-- What stands before a document: `false` if there is no document any more. -/
def documentStart (steps : Nat) : Parse Bool := do
  dropAll .documentEnd steps
  if ← sees [.streamEnd] then return false
  let handles ← directives false [] steps
  modify fun r => { r with handles }
  if ← takes .documentStart then return true else fail .grammar

/-- Whether no document begins with the next token. -/
def seesMark : Parse Bool := do
  match ← peek with
  | .directive _ | .documentStart | .streamEnd => return true
  | _ => return false

/-- The only document of a text; `none` if there is none. -/
def document (steps : Nat) : Parse (Option Nat) := do
  let n ←
    if ← seesMark then do
      if ← documentStart steps then
        if (← seesMark) || (← sees [.documentEnd]) then pure (some (← addEmpty))
        else pure (some (← node true false steps))
      else pure none
    else do pure (some (← node true false steps))
  if n.isSome then
    let _ ← takes .documentEnd
    if ← documentStart steps then fail .reference
  return n

end Parse

/-- The nodes of a text, and which of them is the whole; `none` if there is nothing in the text. -/
def Graph.ofText (text : String) : Except Error (Option Nat × Graph) :=
  if text.toList.all isAllowed then do
    let (tokens, failure) := Token.scan text
    let (root, r) ← (Parse.document (4 * tokens.length + 4)).run { tokens, failure }
    return (root, r.nodes)
  else .error .character

end Elenchus.Yaml
