import Elenchus.Clause.Basic
import Elenchus.Item.Moment
import Elenchus.Json.Basic

/-!
Values of any kind: plain data with terms, literals, clauses and substitutions among it. A value
that holds itself is tied to a knot: inside of it, a reference back stands for the whole.
-/

namespace Elenchus

inductive Item where
  | null
  | bool (b : Bool)
  | int (n : Int)
  | float (x : Floating)
  | str (s : String)
  | list (items : List Item)
  | map (members : List (Item × Item))
  | term (t : Term)
  | literal (l : Literal)
  | clause (c : Clause)
  | subst (bindings : List (Item × Item))
  | moment (m : Moment)
  | bytes (octets : List Nat)
  | set (items : List Item)
  | knot (label : Nat) (value : Item)
  | back (label : Nat)
  deriving Inhabited

namespace Item

mutual
def ofJson : Json → Item
  | .null => .null
  | .bool b => .bool b
  | .int n => .int n
  | .float x => .float x
  | .str s => .str s
  | .arr js => .list (ofJsonList js)
  | .obj ms => .map (ofJsonMembers ms)

def ofJsonList : List Json → List Item
  | [] => []
  | j :: js => ofJson j :: ofJsonList js

def ofJsonMembers : List (String × Json) → List (Item × Item)
  | [] => []
  | (k, v) :: ms => (.str k, ofJson v) :: ofJsonMembers ms
end

/-- What members and bindings stand between. -/
def braces (parts : List String) : String := "\x7b" ++ ", ".intercalate parts ++ "\x7d"

mutual
/-- How a message quotes a value. -/
def text : Item → String
  | .null => "None"
  | .bool b => if b then "True" else "False"
  | .int n => Number.intText n
  | .float x => x.text
  | .str s => Text.quoted s
  | .list is => "[" ++ ", ".intercalate (textList is) ++ "]"
  | .map ms => braces (textMembers ms)
  | .term t => t.text
  | .literal l => l.text
  | .clause c => c.text
  | .subst bs => "Substitution(" ++ braces (textBindings bs) ++ ")"
  | .moment m => m.text
  | .bytes ns => Text.quoted (String.ofList (ns.map Char.ofNat))
  | .set is => braces (textList is)
  | .knot _ v => v.text
  | .back _ => "..."

def textList : List Item → List String
  | [] => []
  | i :: is => i.text :: textList is

def textMembers : List (Item × Item) → List String
  | [] => []
  | (k, v) :: ms => (k.text ++ ": " ++ v.text) :: textMembers ms

/-- What is bound stands as it is, and what it is bound to as a message quotes it. -/
def textBindings : List (Item × Item) → List String
  | [] => []
  | (x, t) :: bs =>
    ((match x with
      | .str s => s
      | .subst cs => braces (textBindings cs)
      | x => x.text) ++ " ↦ " ++ t.text) :: textBindings bs
end

/-- A value as it stands in a sentence: text without quotes. -/
def plain : Item → String
  | .str s => s
  | .subst bs => braces (textBindings bs)
  | i => i.text

/-- Numbers by value; truth values count as 0 and 1. -/
def number? : Item → Option Number
  | .bool b => some (.int b.toNat)
  | .int n => some (.int n)
  | .float x => some (.float x)
  | _ => none

def ofNumber : Number → Item
  | .int n => .int n
  | .float x => .float x

/-- Integers; truth values count as 0 and 1. -/
def int? : Item → Option Int
  | .bool b => some b.toNat
  | .int n => some n
  | _ => none

/-- The integer that a value equals. -/
def whole? (i : Item) : Option Int := i.number?.bind Number.whole?

def isUndefined : Item → Bool
  | .float .undefined => true
  | _ => false

mutual
/-- Equality of values: numbers by value, clauses as sets, members in any order. What is undefined
equals nothing, but inside of two values it is the same thing. -/
def same : Item → Item → Bool
  | .null, .null => true
  | .str s, .str t => s == t
  | .list is, .list js => sameList is js
  | .map ms, .map ns => ms.length == ns.length && sameBindings ms ns
  | .term s, .term t => s == t
  | .literal l, .literal m => l == m
  | .clause c, .clause d => c.alike d
  | .subst bs, .subst cs => bs.length == cs.length && sameBindings bs cs
  | .moment m, .moment n => m == n
  | .bytes ms, .bytes ns => ms == ns
  | .set is, .set js => is.length == js.length && sameSet is js
  | .knot k v, .knot l w => k == l && same v w
  | .back k, .back l => k == l
  | i, j =>
    match i.number?, j.number? with
    | some a, some b => a.eq b
    | _, _ => false

def sameList : List Item → List Item → Bool
  | [], [] => true
  | i :: is, j :: js => (same i j || i.isUndefined && j.isUndefined) && sameList is js
  | _, _ => false

def sameSet : List Item → List Item → Bool
  | [], _ => true
  | i :: is, js =>
    (js.any fun j => same i j || i.isUndefined && j.isUndefined) && sameSet is js

def sameBindings : List (Item × Item) → List (Item × Item) → Bool
  | [], _ => true
  | (x, t) :: bs, cs =>
    (cs.any fun c =>
      (same x c.1 || x.isUndefined && c.1.isUndefined) &&
        (same t c.2 || t.isUndefined && c.2.isUndefined)) && sameBindings bs cs
end

/-- Equality of values that stand inside of others, or as keys. -/
def alike (i j : Item) : Bool := i.same j || i.isUndefined && j.isUndefined

/-- Nothing, no, zero and whatever is empty. -/
def isEmptyValue : Item → Bool
  | .null => true
  | .bool b => !b
  | .int n => n == 0
  | .float x => x.isZero
  | .str s => s.isEmpty
  | .list is => is.isEmpty
  | .map ms => ms.isEmpty
  | .clause c => c.isEmpty
  | .subst bs => bs.isEmpty
  | .bytes ns => ns.isEmpty
  | .set is => is.isEmpty
  | .term _ | .literal _ | .moment _ | .knot _ _ | .back _ => false

mutual
/-- Puts a value in the place of the references back to a label. -/
def unknot (label : Nat) (whole : Item) : Item → Item
  | .back l => if l = label then whole else .back l
  | .knot l v => if l = label then .knot l v else .knot l (unknot label whole v)
  | .list is => .list (unknotList label whole is)
  | .map ms => .map (unknotMembers label whole ms)
  | i => i

def unknotList (label : Nat) (whole : Item) : List Item → List Item
  | [] => []
  | i :: is => unknot label whole i :: unknotList label whole is

def unknotMembers (label : Nat) (whole : Item) : List (Item × Item) → List (Item × Item)
  | [] => []
  | (k, v) :: ms => (k, unknot label whole v) :: unknotMembers label whole ms
end

/-- The same value, but not a knot itself. -/
def untied : Item → Item
  | .knot l v => unknot l (.knot l v) v
  | i => i

/-- What a value is made of, for values that can be gone through. -/
def elements? (i : Item) : Option (List Item) :=
  match i.untied with
  | .str s => some (s.toList.map fun c => .str (String.singleton c))
  | .list is => some is
  | .map ms => some (ms.map Prod.fst)
  | .clause c => some (c.literals.map .literal)
  | .subst bs => some (bs.map Prod.fst)
  | .bytes ns => some (ns.map fun (n : Nat) => .int n)
  | .set is => some is
  | _ => none

mutual
/-- Lists, maps and sets cannot be keys, nor what is bound to them. -/
def isKey : Item → Bool
  | .list _ | .map _ | .set _ | .knot _ _ | .back _ => false
  | .subst bs => areKeys bs
  | _ => true

def areKeys : List (Item × Item) → Bool
  | [] => true
  | (_, t) :: bs => t.isKey && areKeys bs
end

/-- The value of a key. -/
def find? (key : Item) : List (Item × Item) → Option Item
  | [] => none
  | (k, v) :: ms => if k.alike key then some v else find? key ms

/-- Sets the value of a key. -/
def put (key value : Item) (ms : List (Item × Item)) : List (Item × Item) :=
  putBy alike key value ms

@[simp] theorem put_nil (key value : Item) : put key value [] = [(key, value)] := rfl

@[simp] theorem put_cons (key value : Item) (m : Item × Item) (ms : List (Item × Item)) :
    put key value (m :: ms) =
      if m.1.alike key then (m.1, value) :: ms else m :: put key value ms := rfl

mutual
/-- The order of numbers, of texts and of lists; other values have none. -/
def lt? : Item → Item → Option Bool
  | .str s, .str t => some (s < t)
  | .list is, .list js => ltList? is js
  | i, j =>
    match i.number?, j.number? with
    | some a, some b => some (a.lt b)
    | _, _ => none

/-- The first difference decides; a list comes after what it begins with. -/
def ltList? : List Item → List Item → Option Bool
  | _, [] => some false
  | [], _ :: _ => some true
  | i :: is, j :: js => if i.alike j then ltList? is js else lt? i j
end

/-- The greatest of some values, the first of them if there are several. -/
def greatest? (best : Item) : List Item → Option Item
  | [] => some best
  | i :: is =>
    match lt? best i with
    | some less => greatest? (if less then i else best) is
    | none => none

/-- One more than a number. -/
def next? (i : Item) : Option Item := i.number?.map fun n => ofNumber (n.add (.int 1))

end Item

end Elenchus
