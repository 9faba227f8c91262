/-!
Places in a text. A place knows its line and column, because indentation carries meaning, and what
follows it can be looked at without moving on.
-/

namespace Elenchus.Yaml

/-- Why a text has no value. -/
inductive Error where
  /-- A character that may not stand in a text. -/
  | character
  /-- Characters that make up no token. -/
  | token
  /-- Tokens that do not follow each other like this. -/
  | grammar
  /-- A reference to nothing, a name given twice, or a second document. -/
  | reference
  /-- A kind of value that is not known, or does not fit. -/
  | kind
  /-- A number without the digits for it, a code that no character has, or a day that there is
  not. -/
  | digits
  /-- A word that is neither yes nor no. -/
  | word
  /-- Nothing where a number belongs. -/
  | nothing
  /-- A code or a number beyond all bounds. -/
  | bounds
  /-- A text that is no day. -/
  | noDay
  /-- A day that is not written as a text. -/
  | notText
  deriving DecidableEq

/-- What stands behind the end of a text, and nowhere in it. -/
def endMark : Char := '\x00'

/-- Characters that a text may hold. -/
def isAllowed (c : Char) : Bool :=
  let n := c.toNat
  n == 0x09 || n == 0x0a || n == 0x0d || (0x20 ≤ n && n ≤ 0x7e) || n == 0x85 ||
    (0xa0 ≤ n && n ≤ 0xfffd) || 0x10000 ≤ n

def isBreak (c : Char) : Bool :=
  c == '\n' || c == '\r' || c == '\x85' || c == '\u2028' || c == '\u2029'

/-- A line break or the end. -/
def isLineEnd (c : Char) : Bool := c == endMark || isBreak c

/-- A blank, a line break or the end. -/
def isGap (c : Char) : Bool := c == ' ' || c == '\t' || isLineEnd c

/-- Characters that names are made of. -/
def isWordChar (c : Char) : Bool := c.isAlphanum || c == '-' || c == '_'

structure Cursor where
  rest : List Char
  index : Nat := 0
  line : Nat := 0
  column : Nat := 0

namespace Cursor

/-- The character `n` places ahead. -/
def peek (c : Cursor) (n : Nat) : Char := c.rest.getD n endMark

def here (c : Cursor) : Char := c.peek 0

/-- Moves on by one character. A carriage return before a line feed does not end the line, and a
byte order mark takes no column. -/
def next (c : Cursor) : Cursor :=
  match c.rest with
  | [] => c
  | ch :: rest =>
    let endsLine := isBreak ch && !(ch == '\r' && rest.head? == some '\n')
    { rest
      index := c.index + 1
      line := if endsLine then c.line + 1 else c.line
      column := if endsLine then 0 else if ch == '\ufeff' then c.column else c.column + 1 }

def skip : Nat → Cursor → Cursor
  | 0, c => c
  | n + 1, c => skip n c.next

/-- The characters up to the first that does not fit, and the place of that one. -/
def span (c : Cursor) (p : Char → Bool) : List Char × Cursor :=
  let taken := c.rest.takeWhile p
  (taken, c.skip taken.length)

def skipWhile (c : Cursor) (p : Char → Bool) : Cursor := (c.span p).2

/-- A line break, if there is one. All but two kinds of them count as a line feed. -/
def lineBreak (c : Cursor) : List Char × Cursor :=
  let ch := c.here
  if ch == '\u2028' || ch == '\u2029' then ([ch], c.next)
  else if ch == '\r' && c.peek 1 == '\n' then (['\n'], c.skip 2)
  else if isBreak ch then (['\n'], c.next)
  else ([], c)

/-- Whether one of the marks stands here that begin and end documents. -/
def atMarker (c : Cursor) : Bool :=
  let mark := c.rest.take 3
  (mark == ['-', '-', '-'] || mark == ['.', '.', '.']) && isGap (c.peek 3)

end Cursor

end Elenchus.Yaml
