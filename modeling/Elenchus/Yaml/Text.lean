import Elenchus.Json.Reader
import Elenchus.Yaml.Cursor

/-!
The texts of a document: plain, in quotes, and in blocks. Line breaks inside a text are folded: one
counts as a blank, and of several the first is dropped.
-/

namespace Elenchus.Yaml

/-- What a line break followed by others stands for. -/
def fold (first : List Char) (others : List Char) : List Char :=
  (if first != ['\n'] then first else if others.isEmpty then [' '] else []) ++ others

/-! ### Plain texts -/

/-- Characters with a meaning of their own inside brackets. -/
def isFlowMark (c : Char) : Bool := [',', '[', ']', '\x7b', '\x7d'].contains c

/-- Plain characters up to a gap, the colon of a key, or a mark of the brackets around. -/
def plainRun (flow : Bool) : List Char → List Char
  | [] => []
  | c :: cs =>
    let after := cs.head?.getD endMark
    if isGap c || (c == ':' && (isGap after || flow && isFlowMark after)) ||
        (flow && (c == '?' || isFlowMark c)) then []
    else c :: plainRun flow cs

/-- Further line breaks and the blanks between them; `none` at the mark of a document. -/
def plainBreaks : (steps : Nat) → Cursor → Option (List Char) × Cursor
  | 0, c => (some [], c)
  | steps + 1, c =>
    if c.here == ' ' then plainBreaks steps c.next
    else if isBreak c.here then
      let (b, c) := c.lineBreak
      if c.atMarker then (none, c)
      else
        let (bs, c) := plainBreaks steps c
        (bs.map (b ++ ·), c)
    else (some [], c)

/-- The gap after plain characters: what it stands for, and whether a line ends in it. -/
def plainGap (c : Cursor) : List Char × Bool × Cursor :=
  let (blanks, c) := c.span (· == ' ')
  if isBreak c.here then
    let (b, c) := c.lineBreak
    if c.atMarker then ([], true, c)
    else
      match plainBreaks c.rest.length c with
      | (some bs, c) => (fold b bs, true, c)
      | (none, c) => ([], true, c)
  else (blanks, false, c)

/-- A plain text. It ends at a comment, and outside of brackets where a line is not indented
enough. The truth value says whether a line ends in the gap that follows. -/
def plainText (flow : Bool) (indent : Int) : (steps : Nat) → (gap : List Char) → (ended : Bool) →
    Cursor → List Char × Bool × Cursor
  | 0, _, ended, c => ([], ended, c)
  | steps + 1, gap, ended, c =>
    let run := plainRun flow c.rest
    if run.isEmpty then ([], ended, c)
    else
      let (after, ended, c) := plainGap (c.skip run.length)
      if after.isEmpty || c.here == '#' || (!flow && decide ((c.column : Int) < indent)) then
        (gap ++ run, ended, c)
      else
        let (rest, ended, c) := plainText flow indent steps after ended c
        (gap ++ run ++ rest, ended, c)

/-! ### Quoted texts -/

/-- What the character after a backslash stands for. -/
def escapes : List (Char × Char) :=
  [('0', '\x00'), ('a', '\x07'), ('b', '\x08'), ('t', '\t'), ('\t', '\t'), ('n', '\n'),
    ('v', '\x0b'), ('f', '\x0c'), ('r', '\r'), ('e', '\x1b'), (' ', ' '), ('\x22', '\x22'),
    ('\\', '\\'), ('/', '/'), ('N', '\x85'), ('_', '\xa0'), ('L', '\u2028'), ('P', '\u2029')]

/-- How many digits follow. -/
def escapeLengths : List (Char × Nat) := [('x', 2), ('u', 4), ('U', 8)]

/-- The code that follows a backslash with the mark of its length. -/
def codeAt (c : Cursor) : Except Error (Nat × Cursor) := do
  match escapeLengths.lookup c.here with
  | none => .error .token
  | some length =>
    let c := c.next
    match (c.rest.take length).mapM Json.hexValue with
    | none => .error .token
    | some ds =>
      if ds.length < length then .error .token
      let n := ds.foldl (fun n d => n * 16 + d) 0
      if 0x80000000 ≤ n then .error .bounds
      if 0x110000 ≤ n then .error .digits
      return (n, c.skip length)

/-- The character of a code, or of two that make a pair. -/
def codeChar (n : Nat) (c : Cursor) : Char × Cursor :=
  if Json.isHighUnit n && c.here == '\\' then
    match codeAt c.next with
    | .ok (m, after) =>
      if Json.isLowUnit m then (Json.pairChar n m, after) else (Json.unitChar n, c)
    | .error _ => (Json.unitChar n, c)
  else (Json.unitChar n, c)

/-- Line breaks after the first one, with the blanks around them. -/
def quotedBreaks : (steps : Nat) → Cursor → Except Error (List Char × Cursor)
  | 0, c => .ok ([], c)
  | steps + 1, c => do
    if c.atMarker then .error .token
    let c := c.skipWhile fun ch => ch == ' ' || ch == '\t'
    if isBreak c.here then
      let (b, c) := c.lineBreak
      let (bs, c) ← quotedBreaks steps c
      return (b ++ bs, c)
    else return ([], c)

/-- What stands after a backslash. -/
def escaped (c : Cursor) : Except Error (List Char × Cursor) := do
  match escapes.lookup c.here, escapeLengths.lookup c.here with
  | some ch, _ => return ([ch], c.next)
  | none, some _ =>
    let (n, c) ← codeAt c
    let (ch, c) := codeChar n c
    return ([ch], c)
  | none, none =>
    if isBreak c.here then
      let (_, c) := c.lineBreak
      quotedBreaks (c.rest.length + 1) c
    else .error .token

/-- Characters up to a gap or to the closing quote. -/
def quotedRun (double : Bool) : (steps : Nat) → Cursor → Except Error (List Char × Cursor)
  | 0, c => .ok ([], c)
  | steps + 1, c => do
    let ch := c.here
    if isGap ch then return ([], c)
    else if !double && ch == '\x27' && c.peek 1 == '\x27' then
      let (run, c) ← quotedRun double steps (c.skip 2)
      return ('\x27' :: run, c)
    else if ch == (if double then '\x22' else '\x27') then return ([], c)
    else if double && ch == '\\' then
      let (first, c) ← escaped c.next
      let (run, c) ← quotedRun double steps c
      return (first ++ run, c)
    else
      let (run, c) ← quotedRun double steps c.next
      return (ch :: run, c)

/-- A gap inside quotes. Blanks around a line break do not count. -/
def quotedGap (c : Cursor) : Except Error (List Char × Cursor) := do
  let (blanks, c) := c.span fun ch => ch == ' ' || ch == '\t'
  if c.here == endMark then .error .token
  else if isBreak c.here then
    let (b, c) := c.lineBreak
    let (bs, c) ← quotedBreaks (c.rest.length + 1) c
    return (fold b bs, c)
  else return (blanks, c)

/-- The text up to the closing quote and the place behind it. -/
def quotedText (double : Bool) : (steps : Nat) → Cursor → Except Error (List Char × Cursor)
  | 0, _ => .error .token
  | steps + 1, c => do
    let (run, c) ← quotedRun double (c.rest.length + 1) c
    if c.here == (if double then '\x22' else '\x27') then return (run, c.next)
    let (gap, c) ← quotedGap c
    let (rest, c) ← quotedText double steps c
    return (run ++ gap ++ rest, c)

/-! ### Blocks of text -/

/-- What to do with the line breaks at the end of a block. -/
inductive Tail where
  | one
  | none
  | all
  deriving DecidableEq

def tailMark? (c : Char) : Option Tail :=
  if c == '+' then some .all else if c == '-' then some .none else none

/-- A digit says how deep the block is indented. -/
def depthMark? (c : Char) : Option Nat := if c.isDigit then some (c.toNat - '0'.toNat) else none

/-- The marks after the sign of a block, in either order. -/
def blockMarks (c : Cursor) : Except Error (Tail × Option Nat × Cursor) := do
  let (tail, depth, c) :=
    match tailMark? c.here, depthMark? c.here with
    | some t, _ =>
      match depthMark? (c.peek 1) with
      | some n => (t, some n, c.skip 2)
      | none => (t, none, c.next)
    | none, some n =>
      match tailMark? (c.peek 1) with
      | some t => (t, some n, c.skip 2)
      | none => (.one, some n, c.next)
    | none, none => (.one, none, c)
  if depth == some 0 || !(c.here == ' ' || isLineEnd c.here) then .error .token
  return (tail, depth, c)

/-- The rest of the line, which may only hold a comment. -/
def commentLine (c : Cursor) : Except Error Cursor := do
  let c := c.skipWhile (· == ' ')
  let c := if c.here == '#' then c.skipWhile fun ch => !isLineEnd ch else c
  if isLineEnd c.here then return c.lineBreak.2 else .error .token

/-- Empty lines before the block, and the deepest indentation among them and after them. -/
def blockStart : (steps : Nat) → (deepest : Nat) → Cursor → List Char × Nat × Cursor
  | 0, deepest, c => ([], deepest, c)
  | steps + 1, deepest, c =>
    if c.here == ' ' then
      let c := c.next
      blockStart steps (max deepest c.column) c
    else if isBreak c.here then
      let (b, c) := c.lineBreak
      let (bs, deepest, c) := blockStart steps deepest c
      (b ++ bs, deepest, c)
    else ([], deepest, c)

/-- Blanks up to the indentation of the block. -/
def toDepth (depth : Int) : (steps : Nat) → Cursor → Cursor
  | 0, c => c
  | steps + 1, c =>
    if decide ((c.column : Int) < depth) && c.here == ' ' then toDepth depth steps c.next else c

/-- Empty lines inside the block. -/
def blockBreaks (depth : Int) : (steps : Nat) → Cursor → List Char × Cursor
  | 0, c => ([], c)
  | steps + 1, c =>
    let c := toDepth depth c.rest.length c
    if isBreak c.here then
      let (b, c) := c.lineBreak
      let (bs, c) := blockBreaks depth steps c
      (b ++ bs, c)
    else ([], c)

/-- The lines of a block, and the line breaks at its end: the first one, then the others. `breaks`
are the empty lines before it. -/
def blockLines (folded : Bool) (depth : Int) : (steps : Nat) → (breaks : List Char) → Cursor →
    List Char × List Char × List Char × Cursor
  | 0, breaks, c => ([], [], breaks, c)
  | steps + 1, breaks, c =>
    if decide ((c.column : Int) = depth) && c.here != endMark then
      let flush (ch : Char) : Bool := ch != ' ' && ch != '\t'
      let leading := flush c.here
      let (line, c) := c.span fun ch => !isLineEnd ch
      let (b, c) := c.lineBreak
      let (bs, c) := blockBreaks depth (c.rest.length + 1) c
      if decide ((c.column : Int) = depth) && c.here != endMark then
        let joint :=
          if folded && b == ['\n'] && leading && flush c.here then
            if bs.isEmpty then [' '] else []
          else b
        let (rest, b, bs, c) := blockLines folded depth steps bs c
        (breaks ++ line ++ joint ++ rest, b, bs, c)
      else (breaks ++ line, b, bs, c)
    else ([], [], breaks, c)

/-- A block of text behind its sign. `indent` is the indentation around it. -/
def blockText (folded : Bool) (indent : Int) (c : Cursor) : Except Error (List Char × Cursor) := do
  let (tail, depth, c) ← blockMarks c
  let c ← commentLine c
  let least := max 1 (indent + 1)
  let (breaks, depth, c) :=
    match depth with
    | none =>
      let (bs, deepest, c) := blockStart (c.rest.length + 1) 0 c
      (bs, max least deepest, c)
    | some n =>
      let depth := least + n - 1
      let (bs, c) := blockBreaks depth (c.rest.length + 1) c
      (bs, depth, c)
  let (text, b, bs, c) := blockLines folded depth (c.rest.length + 1) breaks c
  return (text ++ (if tail = .none then [] else b) ++ (if tail = .all then bs else []), c)

end Elenchus.Yaml
