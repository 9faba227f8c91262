import Elenchus.Notation.Token
import Elenchus.Notation.Printer
import Elenchus.Text.Basic
import Elenchus.Text.Printable

/-!
Reading formulas in one pass that keeps what is open. Implication groups to the right and the
other connectives to the left; negations and quantifiers reach over the next unary formula.
-/

namespace Elenchus.Notation

/-- Something that waits for the formula on its right. -/
inductive Frame where
  | group
  | not
  | all (xs : List String)
  | ex (xs : List String)
  | and (f : Formula)
  | or (f : Formula)
  | implies (f : Formula)
  | iff (f : Formula)

namespace Frame

/-- The higher, the tighter it binds. Groups wait for their parenthesis. -/
def level : Frame → Nat
  | .group => 0
  | .iff _ => 1
  | .implies _ => 2
  | .or _ => 3
  | .and _ => 4
  | .not | .all _ | .ex _ => 5

/-- The formula that a frame makes of its right side. -/
def close : Frame → Formula → Formula
  | .group, g => g
  | .not, g => .not g
  | .all xs, g => xs.foldr (fun x f => .all (.var x) f) g
  | .ex xs, g => xs.foldr (fun x f => .ex (.var x) f) g
  | .and f, g => .and f g
  | .or f, g => .or f g
  | .implies f, g => .implies f g
  | .iff f, g => .iff f g

end Frame

/-- Closes all frames from the top that bind at least as tightly as `level`. -/
def settle (level : Nat) : Formula → List Frame → Formula × List Frame
  | f, [] => (f, [])
  | f, fr :: open_ => if level ≤ fr.level then settle level (fr.close f) open_ else (f, fr :: open_)

/-- An application whose arguments are being read. -/
structure Call where
  name : String
  args : List Term

def Call.push (c : Call) (t : Term) : Call := { c with args := c.args ++ [t] }

/-- Where the reader stands, with the frames that are open. Inside an atom, `calls` are the
applications around the place, innermost first, and `atom` is the atom's own. -/
inductive State where
  | formula (stack : List Frame)
  | binder (universal : Bool) (xs : List String) (stack : List Frame)
  | afterBinder (universal : Bool) (xs : List String) (stack : List Frame)
  | afterName (p : String) (stack : List Frame)
  | afterFormula (f : Formula) (stack : List Frame)
  | term (calls : List Call) (atom : Call) (stack : List Frame)
  | afterTermName (n : String) (calls : List Call) (atom : Call) (stack : List Frame)
  | afterTerm (calls : List Call) (atom : Call) (stack : List Frame)

/-- Names that start with a small letter are variables. -/
def isVariableName (name : List Char) : Bool :=
  match name with
  | c :: _ => c.isLower
  | [] => false

/-- A name that stands alone as a term. -/
def bareTerm (n : String) : Term := if isVariableName n.toList then .var n else .const n

namespace State

def expecting : State → Expecting
  | .formula _ => .formula
  | .binder _ _ _ => .binder
  | .afterBinder _ _ _ => .afterBinder
  | .afterName _ _ => .afterName
  | .afterFormula _ _ => .afterFormula
  | .term _ _ _ => .term
  | .afterTermName _ _ _ _ => .afterTermName
  | .afterTerm _ _ _ => .afterTerm

/-- At the start of a formula. -/
def begin (stack : List Frame) (t : Token) : Option State :=
  match t.kind with
  | .name => some (.afterName (String.ofList t.text) stack)
  | .notSign | .notWord => some (.formula (.not :: stack))
  | .allSign | .allWord => some (.binder true [] stack)
  | .exSign | .exWord => some (.binder false [] stack)
  | .lpar => some (.formula (.group :: stack))
  | _ => none

/-- After a unary formula. -/
def goOn (f : Formula) (stack : List Frame) (t : Token) : Option State :=
  match t.kind with
  | .andSign | .andWord =>
    let (g, rest) := settle 4 f stack
    some (.formula (.and g :: rest))
  | .orSign | .orWord =>
    let (g, rest) := settle 3 f stack
    some (.formula (.or g :: rest))
  | .impliesSign =>
    let (g, rest) := settle 3 f stack
    some (.formula (.implies g :: rest))
  | .iffSign | .iffWord =>
    let (g, rest) := settle 1 f stack
    some (.formula (.iff g :: rest))
  | .rpar =>
    match settle 1 f stack with
    | (g, .group :: rest) => some (.afterFormula g rest)
    | _ => none
  | _ => none

/-- Adds an argument to the innermost application. -/
def pushArg (t : Term) : List Call → Call → List Call × Call
  | [], atom => ([], atom.push t)
  | c :: calls, atom => (c.push t :: calls, atom)

/-- At the end of an argument list. -/
def closeCall (stack : List Frame) : List Call → Call → State
  | [], atom => .afterFormula (.atomic ⟨atom.name, atom.args⟩) stack
  | c :: calls, atom =>
    let (calls, atom) := pushArg (.app c.name c.args) calls atom
    .afterTerm calls atom stack

def quantifier (universal : Bool) (xs : List String) : Frame :=
  if universal then .all xs else .ex xs

/-- The state after a token; `none` if it cannot stand here. -/
def step : State → Token → Option State
  | .formula stack, t => begin stack t
  | .binder q xs stack, t =>
    match t.kind with
    | .name => some (.afterBinder q (xs ++ [String.ofList t.text]) stack)
    | _ => none
  | .afterBinder q xs stack, t =>
    match t.kind with
    | .comma => some (.binder q xs stack)
    | .separator => some (.formula (quantifier q xs :: stack))
    | _ => begin (quantifier q xs :: stack) t
  | .afterName p stack, t =>
    match t.kind with
    | .lpar => some (.term [] ⟨p, []⟩ stack)
    | _ => goOn (.atomic ⟨p, []⟩) stack t
  | .afterFormula f stack, t => goOn f stack t
  | .term calls atom stack, t =>
    match t.kind with
    | .name => some (.afterTermName (String.ofList t.text) calls atom stack)
    | _ => none
  | .afterTermName n calls atom stack, t =>
    match t.kind with
    | .lpar => some (.term (⟨n, []⟩ :: calls) atom stack)
    | .comma =>
      let (calls, atom) := pushArg (bareTerm n) calls atom
      some (.term calls atom stack)
    | .rpar =>
      let (calls, atom) := pushArg (bareTerm n) calls atom
      some (closeCall stack calls atom)
    | _ => none
  | .afterTerm calls atom stack, t =>
    match t.kind with
    | .comma => some (.term calls atom stack)
    | .rpar => some (closeCall stack calls atom)
    | _ => none

/-- The formula at the end of the text, if nothing is left open. -/
def finish : State → Option Formula
  | .afterName p stack => closeAll (.atomic ⟨p, []⟩) stack
  | .afterFormula f stack => closeAll f stack
  | _ => none
where
  closeAll (f : Formula) (stack : List Frame) : Option Formula :=
    match settle 1 f stack with
    | (g, []) => some g
    | _ => none

end State

/-- What is wrong with a text. -/
inductive SyntaxFault where
  | blank
  | unexpected (label text : String)
  | unmatched (c : Char)
  | capitalBinder (name : String)

/-- A fault with its place: the offset in the text, and for files the number of the line. -/
structure ParseError where
  fault : SyntaxFault
  position : Nat
  row : Nat := 1
  column : Nat := 1
  fileLine : Option Nat := none

/-- The message proper. It is cut at a line end that is itself the offending character. -/
def ParseError.detail (e : ParseError) : String :=
  match e.fault with
  | .blank => "Empty formula"
  | .unexpected label text =>
    "Unexpected token Token('" ++ label ++ "', " ++ Text.quoted text ++ ") at line " ++
      e.row.repr ++ ", column " ++ e.column.repr ++ "."
  | .unmatched c =>
    if Text.isLineEnd c then "No terminal matches '"
    else
      "No terminal matches '" ++ String.singleton c ++
        "' in the current parser context, at line " ++ e.row.repr ++ " col " ++ e.column.repr
  | .capitalBinder name => "Quantified variable " ++ name ++ " must start with a lowercase letter"

def ParseError.message (e : ParseError) : String :=
  "Parse error at position " ++ e.position.repr ++ ": " ++
    (match e.fileLine with
      | some n => "line " ++ n.repr ++ ": "
      | none => "") ++ e.detail

/-- Places a fault in a text: rows and columns count from 1, and only line feeds end a row. -/
def ParseError.at (text : List Char) (fault : SyntaxFault) (position : Nat) : ParseError :=
  let before := text.take position
  { fault
    position
    row := before.count '\n' + 1
    column := (before.reverse.takeWhile (· != '\n')).length + 1 }

/-- The first quantified name that does not start with a small letter, with its offset. -/
def noteBinder (s : State) (t : Token) (pos : Nat) :
    Option (String × Nat) → Option (String × Nat)
  | some found => some found
  | none =>
    match s with
    | .binder _ _ _ => if isVariableName t.text then none else some (String.ofList t.text, pos)
    | _ => none

/-- Reads on from offset `pos`; `last` is the offset of the last token and `capital` the first
quantified name that will be refused once the whole text has been read. -/
def readFrom (s : State) (pos last : Nat) (capital : Option (String × Nat)) :
    List Char → Except (SyntaxFault × Nat) Formula
  | [] =>
    match s.finish, capital with
    | none, _ => .error (.unexpected "$END" "", last)
    | some _, some (name, at_) => .error (.capitalBinder name, at_)
    | some f, none => .ok f
  | c :: cs =>
    if isSpace c then readFrom s (pos + 1) last capital cs
    else
      match tokenWhere s.expecting.allows (c :: cs) with
      | some t =>
        match s.step t with
        | some s' =>
          readFrom s' (pos + t.text.length) pos (noteBinder s t pos capital)
            (cs.drop (t.text.length - 1))
        | none => .error (.unexpected t.kind.label (String.ofList t.text), pos)
      | none =>
        match anyToken (c :: cs) with
        | some t => .error (.unexpected t.kind.label (String.ofList t.text), pos)
        | none => .error (.unmatched c, pos)
termination_by cs => cs.length
decreasing_by
  · simp
  · simp only [List.length_drop, List.length_cons]; omega

/-- Reads one formula. -/
def parseChars (text : List Char) : Except ParseError Formula :=
  if text.all Text.isBlank then .error { fault := .blank, position := 0 }
  else
    match readFrom (.formula []) 0 0 none text with
    | .ok f => .ok f
    | .error (fault, pos) => .error (.at text fault pos)

def parse (text : String) : Except ParseError Formula := parseChars text.toList

/-! ### Collections of formulas

One formula stands on a line. Blank lines and lines that start with `#` are passed over. -/

/-- Whether a line without its outer blanks holds a formula. -/
def isFormulaLine (line : List Char) : Bool := !line.isEmpty && line.head? != some '#'

/-- Reads numbered lines up to the first that is refused, and gives its number with the error. -/
def readLines : List (List Char × Nat) → Except (ParseError × Nat) (List Formula)
  | [] => .ok []
  | (line, n) :: rest =>
    let line := Text.strip line
    if isFormulaLine line then
      match parseChars line with
      | .error e => .error (e, n)
      | .ok f => (readLines rest).map (f :: ·)
    else readLines rest

/-- Reads a text. -/
def parseText (content : String) : Except ParseError (List Formula) :=
  (readLines ((Text.textLines content.toList).zipIdx 1)).mapError Prod.fst

/-- Reads the content of a file; errors name the line. -/
def parseFile (content : String) : Except ParseError (List Formula) :=
  (readLines ((Text.fileLines content.toList).zipIdx 1)).mapError fun (e, n) =>
    { e with fileLine := some n }

/-- The content of a file that holds the formulas. -/
def fileText (fs : List Formula) : String := String.join (fs.map fun f => f.render ++ "\n")

/-- How the format calls itself, and its usual file names. -/
def formatName : String := "notation"
def formatExtensions : List String := [".fol", ".txt"]

end Elenchus.Notation
