/-!
Tokens of the formula notation. Where a name can stand, a word is taken whole; where none can, a
keyword is found at the front of a word.
-/

namespace Elenchus.Notation

inductive Kind where
  | name
  | iffSign
  | impliesSign
  | orSign
  | andSign
  | notSign
  | allSign
  | exSign
  | separator
  | lpar
  | rpar
  | comma
  | iffWord
  | orWord
  | andWord
  | notWord
  | allWord
  | exWord
  deriving DecidableEq

/-- How messages call a kind of token. -/
def Kind.label : Kind → String
  | .name => "NAME"
  | .iffSign => "_IFF"
  | .impliesSign => "_IMPLIES"
  | .orSign => "_OR"
  | .andSign => "_AND"
  | .notSign => "_NOT"
  | .allSign => "_FORALL"
  | .exSign => "_EXISTS"
  | .separator => "_SEP"
  | .lpar => "LPAR"
  | .rpar => "RPAR"
  | .comma => "COMMA"
  | .iffWord => "IFF"
  | .orWord => "OR"
  | .andWord => "AND"
  | .notWord => "NOT"
  | .allWord => "FORALL"
  | .exWord => "EXISTS"

structure Token where
  kind : Kind
  text : List Char
  deriving DecidableEq

/-- What can stand next. -/
inductive Expecting where
  | formula
  | binder
  | afterBinder
  | afterName
  | afterFormula
  | term
  | afterTermName
  | afterTerm
  deriving DecidableEq

def startsFormula : Kind → Bool
  | .name | .notSign | .allSign | .exSign | .notWord | .allWord | .exWord | .lpar => true
  | _ => false

def isConnective : Kind → Bool
  | .iffSign | .impliesSign | .orSign | .andSign | .iffWord | .orWord | .andWord => true
  | _ => false

def Expecting.allows : Expecting → Kind → Bool
  | .formula, k => startsFormula k
  | .binder, k | .term, k => k == .name
  | .afterBinder, k => startsFormula k || k == .comma || k == .separator
  | .afterName, k => isConnective k || k == .lpar || k == .rpar
  | .afterFormula, k => isConnective k || k == .rpar
  | .afterTermName, k => k == .comma || k == .lpar || k == .rpar
  | .afterTerm, k => k == .comma || k == .rpar

def isNameStart (c : Char) : Bool := c.isAlpha || c == '_'

def isNameChar (c : Char) : Bool := c.isAlphanum || c == '_' || c == '\x27'

/-- Space between tokens. -/
def isSpace (c : Char) : Bool :=
  c == ' ' || c == '\t' || c == '\x0c' || c == '\r' || c == '\n'

/-- No sign is the beginning of another. -/
def signs : List (List Char × Kind) :=
  [(['↔'], .iffSign), (['<', '-', '>'], .iffSign), (['<', '=', '>'], .iffSign),
    (['→'], .impliesSign), (['-', '>'], .impliesSign), (['=', '>'], .impliesSign),
    (['∨'], .orSign), (['|'], .orSign), (['\\', '/'], .orSign),
    (['∧'], .andSign), (['&'], .andSign), (['/', '\\'], .andSign),
    (['¬'], .notSign), (['~'], .notSign), (['!'], .notSign),
    (['∀'], .allSign), (['∃'], .exSign), (['.'], .separator), ([':'], .separator),
    (['('], .lpar), ([')'], .rpar), ([','], .comma)]

def keywords : List (List Char × Kind) :=
  [(['i', 'f', 'f'], .iffWord), (['o', 'r'], .orWord), (['a', 'n', 'd'], .andWord),
    (['n', 'o', 't'], .notWord), (['f', 'o', 'r', 'a', 'l', 'l'], .allWord),
    (['e', 'x', 'i', 's', 't', 's'], .exWord)]

/-- The first entry of a table that is allowed and stands at the front of the text. -/
def frontEntry (table : List (List Char × Kind)) (allowed : Kind → Bool) (cs : List Char) :
    Option Token :=
  (table.find? fun e => allowed e.2 && e.1.isPrefixOf cs).map fun e => ⟨e.2, e.1⟩

/-- A whole word: a keyword if it is one that is allowed, else a name. -/
def wordToken (allowed : Kind → Bool) (cs : List Char) : Token :=
  let w := cs.takeWhile isNameChar
  match keywords.find? fun e => allowed e.2 && e.1 == w with
  | some e => ⟨e.2, w⟩
  | none => ⟨.name, w⟩

/-- The token at the front of a text among the kinds that are allowed. -/
def tokenWhere (allowed : Kind → Bool) : List Char → Option Token
  | [] => none
  | c :: cs =>
    if isNameStart c then
      if allowed .name then some (wordToken allowed (c :: cs))
      else frontEntry keywords allowed (c :: cs)
    else frontEntry signs allowed (c :: cs)

/-- The token at the front, where all kinds are allowed. -/
def anyToken (cs : List Char) : Option Token := tokenWhere (fun _ => true) cs

end Elenchus.Notation
