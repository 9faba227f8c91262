import Elenchus.Number.Basic
import Elenchus.Text.Printable

/-!
JSON values and how they are written. A number with a point or an exponent differs from an
integer of the same value.
-/

namespace Elenchus

inductive Json where
  | null
  | bool (b : Bool)
  | int (n : Int)
  | float (x : Floating)
  | str (s : String)
  | arr (items : List Json)
  | obj (members : List (String × Json))
  deriving Inhabited

namespace Json

/-- The value of a member; of several with one name the last counts. -/
def get? (key : String) : Json → Option Json
  | .obj ms => ms.reverse.lookup key
  | _ => none

/-! ### Writing -/

def escapeChar (c : Char) : List Char :=
  match c with
  | '"' => ['\\', '"']
  | '\\' => ['\\', '\\']
  | '\n' => ['\\', 'n']
  | '\r' => ['\\', 'r']
  | '\t' => ['\\', 't']
  | '\x08' => ['\\', 'b']
  | '\x0c' => ['\\', 'f']
  | c => if c.toNat < 0x20 then ['\\', 'u'] ++ Text.hexDigits 4 c.toNat else [c]

def stringText (s : String) : String :=
  String.ofList ('"' :: s.toList.flatMap escapeChar ++ ['"'])

/-- Floating-point numbers; the words for the infinite and the undefined are no JSON proper. -/
def floatText : Floating → String
  | .infinite s => if s then "-Infinity" else "Infinity"
  | .undefined => "NaN"
  | x => x.text

/-- What stands before an item at some level: nothing on one line, else a new line. -/
def lineStart (indent : Option String) (level : Nat) : String :=
  match indent with
  | none => ""
  | some s => "\n" ++ String.join (List.replicate level s)

/-- What stands between two items. -/
def separator (indent : Option String) (level : Nat) : String :=
  match indent with
  | none => ", "
  | some _ => "," ++ lineStart indent level

mutual
def renderAt (indent : Option String) (level : Nat) : Json → String
  | .null => "null"
  | .bool b => if b then "true" else "false"
  | .int n => Number.intText n
  | .float x => floatText x
  | .str s => stringText s
  | .arr [] => "[]"
  | .arr (j :: js) =>
    "[" ++ lineStart indent (level + 1) ++ renderAt indent (level + 1) j ++
      renderItems indent (level + 1) js ++ lineStart indent level ++ "]"
  | .obj [] => "\x7b\x7d"
  | .obj ((k, v) :: ms) =>
    "\x7b" ++ lineStart indent (level + 1) ++ stringText k ++ ": " ++
      renderAt indent (level + 1) v ++ renderMembers indent (level + 1) ms ++
      lineStart indent level ++ "\x7d"

def renderItems (indent : Option String) (level : Nat) : List Json → String
  | [] => ""
  | j :: js => separator indent level ++ renderAt indent level j ++ renderItems indent level js

def renderMembers (indent : Option String) (level : Nat) : List (String × Json) → String
  | [] => ""
  | (k, v) :: ms =>
    separator indent level ++ stringText k ++ ": " ++ renderAt indent level v ++
      renderMembers indent level ms
end

/-- With `none` on one line, else with that indentation. -/
def render (indent : Option String) (j : Json) : String := renderAt indent 0 j

end Json

end Elenchus
