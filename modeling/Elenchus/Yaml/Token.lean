import Elenchus.Yaml.Text

/-!
Tokens. Indentation becomes tokens of its own; that something is a key shows only at the colon
after it, and the tokens that announce it are put in then.
-/

namespace Elenchus.Yaml

/-- What a line with a percent sign says: the version of the language, what a handle stands for, or
something else. -/
inductive Directive where
  | version (major : Nat)
  | handle (name start : String)
  | other
  deriving DecidableEq

inductive Token where
  | streamEnd
  | directive (d : Directive)
  | documentStart
  | documentEnd
  | blockSequence
  | blockMapping
  | blockEnd
  | flowSequence
  | flowSequenceEnd
  | flowMapping
  | flowMappingEnd
  | flowEntry
  | blockEntry
  | key
  | value
  | reference (name : String)
  | anchor (name : String)
  | tag (handle : Option String) (suffix : String)
  | scalar (plain : Bool) (text : String)
  deriving DecidableEq

/-- A place where a key may have begun: the number of its first token, and where that stands. A
required one has to turn out to be a key. -/
structure PossibleKey where
  number : Nat
  required : Bool
  index : Nat
  line : Nat
  column : Nat

/-- A text in the course of being split into tokens. `flow` counts the brackets that are open, and
`keys` has at most one possible key for each such level. -/
structure Scan where
  cursor : Cursor
  tokens : List Token := []
  flow : Int := 0
  indent : Int := -1
  indents : List Int := []
  keysAllowed : Bool := true
  keys : List (Int × PossibleKey) := []

namespace Scan

def push (s : Scan) (t : Token) : Scan := { s with tokens := s.tokens ++ [t] }

def inFlow (s : Scan) : Bool := s.flow != 0

/-- Passes over blanks, comments and line breaks. After a line break a key may begin, except inside
brackets. -/
def skipGap : (steps : Nat) → Scan → Scan
  | 0, s => s
  | steps + 1, s =>
    let c := s.cursor.skipWhile (· == ' ')
    let c := if c.here == '#' then c.skipWhile fun ch => !isLineEnd ch else c
    if isBreak c.here then
      skipGap steps
        { s with cursor := c.lineBreak.2, keysAllowed := s.keysAllowed || !s.inFlow }
    else { s with cursor := c }

/-- A byte order mark may stand at the start. -/
def toNextToken (s : Scan) : Scan :=
  let c := s.cursor
  let c := if c.index == 0 && c.here == '\ufeff' then c.next else c
  skipGap (c.rest.length + 1) { s with cursor := c }

/-- A key stands in one line and is not long. -/
def isStale (c : Cursor) (k : PossibleKey) : Bool :=
  k.line != c.line || decide (k.index + 1024 < c.index)

/-- Forgets what can no longer be a key. -/
def dropStale (s : Scan) : Except Error Scan :=
  if s.keys.any fun k => isStale s.cursor k.2 && k.2.required then .error .token
  else .ok { s with keys := s.keys.filter fun k => !isStale s.cursor k.2 }

/-- Forgets the possible key of this level. -/
def dropKey (s : Scan) : Except Error Scan :=
  match s.keys.lookup s.flow with
  | none => .ok s
  | some k =>
    if k.required then .error .token
    else .ok { s with keys := s.keys.filter fun k => k.1 != s.flow }

/-- Keeps in mind that a key may begin here. -/
def saveKey (s : Scan) : Except Error Scan := do
  let c := s.cursor
  let required := !s.inFlow && s.indent == c.column
  if s.keysAllowed then
    let s ← s.dropKey
    return { s with
      keys := s.keys ++ [(s.flow, ⟨s.tokens.length, required, c.index, c.line, c.column⟩)] }
  else return s

/-- Ends the collections that are indented deeper than a column. -/
def unwindWith : List Int → (column : Int) → Scan → Scan
  | [], _, s => s
  | outer :: indents, column, s =>
    if s.indent > column then
      unwindWith indents column { s.push .blockEnd with indent := outer, indents }
    else s

def unwind (s : Scan) (column : Int) : Scan :=
  if s.inFlow then s else unwindWith s.indents column s

/-- Begins a collection if a column lies deeper than the last one; `at?` is the number of the token
before which it begins, if that is not the next one. -/
def open? (s : Scan) (column : Int) (t : Token) (at? : Option Nat) : Scan :=
  if s.indent < column then
    { s with
      indents := s.indent :: s.indents
      indent := column
      tokens := s.tokens.insertIdx (at?.getD s.tokens.length) t }
  else s

/-- Takes single characters as a token. -/
def take (s : Scan) (n : Nat) (t : Token) : Scan := { s.push t with cursor := s.cursor.skip n }

def takeDocumentMark (s : Scan) (t : Token) : Except Error Scan := do
  let s ← (s.unwind (-1)).dropKey
  return { s with keysAllowed := false }.take 3 t

def isUriChar (c : Char) : Bool :=
  isWordChar c || ";/?:@&=+$,.!~*\x27()[]%".toList.contains c

/-- Octets that are written with percent signs and two digits each, and what follows them. -/
def readOctets : (steps : Nat) → List Char → Except Error (List UInt8 × List Char)
  | steps + 1, '%' :: a :: b :: cs => do
    match Json.hexValue a, Json.hexValue b with
    | some a, some b =>
      let (octets, rest) ← readOctets steps cs
      return (UInt8.ofNat (a * 16 + b) :: octets, rest)
    | _, _ => .error .token
  | _, '%' :: _ => .error .token
  | _, cs => .ok ([], cs)

/-- Puts characters in the place of those that are written octet by octet. -/
def decodeUri : (steps : Nat) → List Char → Except Error (List Char)
  | steps + 1, '%' :: cs => do
    let (octets, rest) ← readOctets steps ('%' :: cs)
    match String.fromUTF8? ⟨octets.toArray⟩ with
    | some text => return text.toList ++ (← decodeUri steps rest)
    | none => .error .token
  | steps + 1, c :: cs => do return c :: (← decodeUri steps cs)
  | _, _ => .ok []

/-- What a tag is named by. -/
def readUri (c : Cursor) : Except Error (String × Cursor) := do
  let (uri, c) := c.span isUriChar
  if uri.isEmpty then .error .token
  return (String.ofList (← decodeUri (uri.length + 1) uri), c)

/-- A handle: a word between exclamation marks, which may be empty, or one mark and a blank. -/
def readHandle (c : Cursor) : Except Error (String × Cursor) := do
  if c.here != '!' then .error .token
  if c.peek 1 == ' ' then return ("!", c.next)
  let (name, c) := c.next.span isWordChar
  if c.here != '!' then .error .token
  return ("!" ++ String.ofList name ++ "!", c.next)

/-- A blank, a line break or the end, but no tab. -/
def endsWord (c : Cursor) : Bool := c.here == ' ' || isLineEnd c.here

def skipBlanks (c : Cursor) : Cursor := c.skipWhile (· == ' ')

/-- A decimal number. -/
def readNumber (c : Cursor) : Except Error (Nat × Cursor) :=
  let (ds, c) := c.span Char.isDigit
  if ds.isEmpty then .error .token else .ok (Json.natOf ds, c)

/-- What the directive with a name says. -/
def readDirective (name : List Char) (c : Cursor) : Except Error (Directive × Cursor) := do
  if name == "YAML".toList then
    let (major, c) ← readNumber (skipBlanks c)
    if c.here != '.' then .error .token
    let (_, c) ← readNumber c.next
    if endsWord c then return (.version major, c) else .error .token
  else if name == "TAG".toList then
    let (handle, c) ← readHandle (skipBlanks c)
    if c.here != ' ' then .error .token
    let (start, c) ← readUri (skipBlanks c)
    if endsWord c then return (.handle handle start, c) else .error .token
  else return (.other, c.skipWhile fun ch => !isLineEnd ch)

/-- A directive is a word at the start of a line, with what it says; a comment may follow. -/
def takeDirective (s : Scan) : Except Error Scan := do
  let s ← (s.unwind (-1)).dropKey
  let (name, c) := s.cursor.next.span isWordChar
  if name.isEmpty || !endsWord c then .error .token
  let (d, c) ← readDirective name c
  return { s.push (.directive d) with cursor := ← commentLine c, keysAllowed := false }

def takeFlowStart (s : Scan) (t : Token) : Except Error Scan := do
  let s ← s.saveKey
  return { s with flow := s.flow + 1, keysAllowed := true }.take 1 t

def takeFlowEnd (s : Scan) (t : Token) : Except Error Scan := do
  let s ← s.dropKey
  return { s with flow := s.flow - 1, keysAllowed := false }.take 1 t

def takeFlowEntry (s : Scan) : Except Error Scan := do
  let s ← s.dropKey
  return { s with keysAllowed := true }.take 1 .flowEntry

/-- Outside of brackets, an entry or a key stands where a key may begin. -/
def openBlock (s : Scan) (t : Token) : Except Error Scan :=
  if s.inFlow then .ok s
  else if !s.keysAllowed then .error .token
  else .ok (s.open? s.cursor.column t none)

def takeBlockEntry (s : Scan) : Except Error Scan := do
  let s ← (← s.openBlock .blockSequence).dropKey
  return { s with keysAllowed := true }.take 1 .blockEntry

def takeKey (s : Scan) : Except Error Scan := do
  let s ← (← s.openBlock .blockMapping).dropKey
  return { s with keysAllowed := !s.inFlow }.take 1 .key

/-- A colon makes a key of what may be one. -/
def takeValue (s : Scan) : Except Error Scan := do
  match s.keys.lookup s.flow with
  | some k =>
    let s := { s with
      keys := s.keys.filter fun k => k.1 != s.flow
      tokens := s.tokens.insertIdx k.number .key
      keysAllowed := false }
    let s := if s.inFlow then s else s.open? k.column .blockMapping (some k.number)
    return s.take 1 .value
  | none =>
    let s ← (← s.openBlock .blockMapping).dropKey
    return { s with keysAllowed := !s.inFlow }.take 1 .value

/-- Takes what a key may begin with. -/
def takeContent (s : Scan) (read : Cursor → Except Error (Token × Cursor)) :
    Except Error Scan := do
  let s ← s.saveKey
  let (t, c) ← read s.cursor
  return { s.push t with cursor := c, keysAllowed := false }

/-- The name behind `&` or `*`. -/
def readName (make : String → Token) (c : Cursor) : Except Error (Token × Cursor) :=
  let (name, c) := c.next.span isWordChar
  if name.isEmpty then .error .token
  else if isGap c.here || ['?', ':', ',', ']', '\x7d', '%', '@', '\x60'].contains c.here then
    .ok (make (String.ofList name), c)
  else .error .token

/-- A tag: a name in angle brackets, a lone exclamation mark, or a name behind a handle. -/
def readTag (c : Cursor) : Except Error (Token × Cursor) := do
  let (t, c) ←
    if c.peek 1 == '<' then do
      let (uri, c) ← readUri (c.skip 2)
      if c.here != '>' then .error .token
      pure (Token.tag none uri, c.next)
    else if isGap (c.peek 1) then pure (Token.tag none "!", c.next)
    else do
      let rest := c.next.rest.takeWhile fun ch => !(ch == ' ' || isLineEnd ch)
      let (handle, c) ← (if rest.contains '!' then readHandle c else pure ("!", c.next))
      let (uri, c) ← readUri c
      pure (Token.tag (some handle) uri, c)
  if endsWord c then return (t, c) else .error .token

def readQuoted (double : Bool) (c : Cursor) : Except Error (Token × Cursor) := do
  let c := c.next
  let (text, c) ← quotedText double (c.rest.length + 1) c
  return (.scalar false (String.ofList text), c)

def takeBlockText (s : Scan) (folded : Bool) : Except Error Scan := do
  let s ← s.dropKey
  let (text, c) ← blockText folded s.indent s.cursor.next
  return { s.push (.scalar false (String.ofList text)) with cursor := c, keysAllowed := true }

/-- After a plain text a key may begin if a line has ended. -/
def takePlain (s : Scan) : Except Error Scan := do
  let s ← s.saveKey
  let c := s.cursor
  let (text, ended, c) := plainText s.inFlow (s.indent + 1) (c.rest.length + 1) [] false c
  return { s.push (.scalar true (String.ofList text)) with cursor := c, keysAllowed := ended }

/-- Characters that a plain text does not begin with. -/
def isIndicator (c : Char) : Bool :=
  "-?:,[]\x7b\x7d#&*!|>\x27\x22%@\x60".toList.contains c

/-- Some of them may begin a plain text if no gap follows. -/
def beginsPlain (s : Scan) : Bool :=
  let c := s.cursor
  !(isGap c.here || isIndicator c.here) ||
    !isGap (c.peek 1) && (c.here == '-' || !s.inFlow && (c.here == '?' || c.here == ':'))

/-- Takes the next token, at which the cursor stands. -/
def takeToken (s : Scan) : Except Error Scan :=
  let c := s.cursor
  let gapNext := isGap (c.peek 1)
  match c.here with
  | '[' => s.takeFlowStart .flowSequence
  | '\x7b' => s.takeFlowStart .flowMapping
  | ']' => s.takeFlowEnd .flowSequenceEnd
  | '\x7d' => s.takeFlowEnd .flowMappingEnd
  | ',' => s.takeFlowEntry
  | '*' => s.takeContent (readName .reference)
  | '&' => s.takeContent (readName .anchor)
  | '!' => s.takeContent readTag
  | '\x27' => s.takeContent (readQuoted false)
  | '\x22' => s.takeContent (readQuoted true)
  | ch =>
    if ch == '%' && c.column == 0 then s.takeDirective
    else if ch == '-' && c.column == 0 && c.atMarker then s.takeDocumentMark .documentStart
    else if ch == '.' && c.column == 0 && c.atMarker then s.takeDocumentMark .documentEnd
    else if ch == '-' && gapNext then s.takeBlockEntry
    else if ch == '?' && (s.inFlow || gapNext) then s.takeKey
    else if ch == ':' && (s.inFlow || gapNext) then s.takeValue
    else if ch == '|' && !s.inFlow then s.takeBlockText false
    else if ch == '>' && !s.inFlow then s.takeBlockText true
    else if s.beginsPlain then s.takePlain
    else .error .token

/-- The tokens that are certain. What may yet turn out to be a key is not, nor what follows it. -/
def settled (s : Scan) : List Token :=
  s.tokens.take (s.keys.foldl (fun n k => min n k.2.number) s.tokens.length)

/-- Goes on to the next token and takes it; `true` if it was the last one. -/
def advance (s : Scan) : Except Error (Bool × Scan) := do
  let s ← s.toNextToken.dropStale
  let s := s.unwind s.cursor.column
  if s.cursor.here == endMark then
    let s ← (s.unwind (-1)).dropKey
    return (true, s.push .streamEnd)
  else return (false, ← s.takeToken)

/-- The tokens of a text, and why there are no more of them; `before` are those that were certain
before the last one was taken. -/
def takeAll (before : List Token) : (steps : Nat) → Scan → List Token × Option Error
  | 0, _ => (before, some .token)
  | steps + 1, s =>
    match s.dropStale with
    | .error e => (before, some e)
    | .ok s =>
      match s.advance with
      | .error e => (s.settled, some e)
      | .ok (true, after) => (after.tokens, none)
      | .ok (false, after) => takeAll s.settled steps after

end Scan

/-- The tokens of a text. If the text cannot be split to its end, the error says why. -/
def Token.scan (text : String) : List Token × Option Error :=
  Scan.takeAll [] (text.length + 2) { cursor := { rest := text.toList } }

end Elenchus.Yaml
