/-
JSON values and their canonical text. Objects hold their members in ascending order of keys, so the
text of a value is a function of the value; a real number is written in plain decimal notation.
-/
import Wnc.Lib.Decimal
import Wnc.Lib.SortedMap
import Mathlib.Data.List.DropRight

namespace Wnc

open Lib

inductive Json
  | null
  | bool (value : Bool)
  | int (value : Int64)
  | real (value : Double)
  | string (value : Bytes)
  | array (items : List Json)
  | object (members : List (Bytes × Json))

namespace Json

instance : Inhabited Json := ⟨.null⟩

/-- A real number; zero loses its sign. -/
def ofReal (value : Double) : Json := .real (if value.eq .zero then .zero else value)

def isObject : Json → Bool
  | .object _ => true
  | _ => false

/-- The member of an object with a key. -/
def find (key : Bytes) : Json → Option Json
  | .object members => Assoc.find key members
  | _ => none

/-- Sets a member. What is not an object becomes one. -/
def set (value : Json) (key : Bytes) (member : Json) : Json :=
  match value with
  | .object members => .object (Assoc.set key member members)
  | _ => .object [(key, member)]

@[simp] theorem find_set_self (value member : Json) (key : Bytes) : (value.set key member).find key = some member := by
  cases value <;> first | exact Assoc.find_set_self .. | exact if_pos rfl

/-- Sets the member of a literal key. -/
def put (value : Json) (key : String) (member : Json) : Json := value.set (utf8 key) member

theorem find_set_ne {key key' : Bytes} (h : key ≠ key') (value member : Json) :
    (value.set key member).find key' = value.find key' := by
  cases value <;> first | exact Assoc.find_set_ne h .. | exact if_neg h

end Json

/-! ## Real numbers -/

/-- Where the point of a number comes to stand: the digits before it, narrowed to an `int`, and the exponent. `none` where
the sum or its negation overflows an `int` and nothing is defined. -/
def intPoint (digits : Nat) (exponent : Int) : Option Int :=
  let point := (digits : Int).bmod 4294967296 + exponent
  if -2147483648 < point ∧ point < 2147483648 then some point else none

/-- Rewrites scientific notation as plain decimal notation. `none` for an exponent out of range. -/
def expandExponent (digits : Bytes) (exponent : Int) : Option Bytes :=
  if exponent > 40 ∨ exponent < -400 then none
  else
    let integerPart := digits.takeWhile (· != 46)
    let fractionPart := (digits.dropWhile (· != 46)).filter (· != 46)
    let combined := integerPart ++ fractionPart
    (intPoint integerPart.length exponent).map fun point =>
      let out :=
        if point ≤ 0 then [48, 46] ++ List.replicate (-point).toNat 48 ++ combined
        else if point.toNat ≥ combined.length then
          combined ++ List.replicate (point.toNat - combined.length) 48 ++ [46, 48]
        else combined.take point.toNat ++ 46 :: combined.drop point.toNat
      -- strip the zeros at the end of the fraction, keeping one digit of it
      let kept := (out.takeWhile (· != 46)).length + 2
      out.take kept ++ (out.drop kept).rdropWhile (· == 48)

/-- The exponent digits of a scientific text. -/
def readExponentDigits : Bytes → Nat → Option Nat
  | [], exponent => some exponent
  | c :: rest, exponent =>
    if !isDigit c then none
    else if exponent > 100000 then none
    else readExponentDigits rest (exponent * 10 + (c.toNat - 48))

/-- The exponent of a scientific text, from what stands behind its `e`. -/
def readExponent (text : Bytes) : Option Int :=
  let signed := text.head? = some 43 ∨ text.head? = some 45
  let digits := if signed then text.drop 1 else text
  if digits = [] then none
  else (readExponentDigits digits 0).map fun n : Nat => if text.head? = some 45 then -(n : Int) else n

/-- The canonical text of a real number; a number that is not finite has none. The shortest text of a
number always fits the buffer it is formatted in. -/
def formatCanonicalReal (value : Double) : Option Bytes :=
  if !value.isFinite then none
  else if value.eq .zero then some (utf8 "0.0")
  else
    let text := value.toChars
    let negative := text.head? = some 45
    let body := if negative then text.drop 1 else text
    let isExponent (c : UInt8) : Bool := c == 101 || c == 69
    if !body.any isExponent then
      -- the sign is left out here: only the text behind it is kept
      some (if 46 ∈ body then body else body ++ [46, 48])
    else
      let mantissa := body.takeWhile fun c => !isExponent c
      match readExponent ((body.dropWhile fun c => !isExponent c).drop 1) with
      | none => none
      | some exponent =>
        (expandExponent mantissa exponent).map fun expanded => if negative then 45 :: expanded else expanded

/-! ## Canonical text -/

/-- The lower case digit of a four-bit number. -/
def hexDigit (v : Nat) : UInt8 := if v < 10 then UInt8.ofNat (48 + v) else UInt8.ofNat (87 + v)

/-- The letter of a short escape. -/
def escapeFor (c : UInt8) : Option UInt8 :=
  if c = 8 then some 98
  else if c = 9 then some 116
  else if c = 10 then some 110
  else if c = 12 then some 102
  else if c = 13 then some 114
  else none

def escapeChar (c : UInt8) : Bytes :=
  if c = 34 then [92, 34]
  else if c = 92 then [92, 92]
  else if c < 32 then
    match escapeFor c with
    | some letter => [92, letter]
    | none => [92, 117, 48, 48, hexDigit (c.toNat / 16 % 16), hexDigit (c.toNat % 16)]
  else [c]

def escapedString (value : Bytes) : Bytes := 34 :: (value.flatMap escapeChar ++ [34])

def formatInt (value : Int64) : Bytes :=
  if value < 0 then 45 :: toDecimal value.toInt.natAbs else toDecimal value.toInt.natAbs

def maxDocumentBytes : Nat := 512 * 1024

namespace Json

mutual

/-- The text a value adds to a text of a given size. Nothing is added to a text over the budget, and an
array or object ends after the element that took the text over it. -/
def dumpImpl (budget : Nat) : Json → Nat → Bytes
  | .null, size => if size > budget then [] else utf8 "null"
  | .bool b, size => if size > budget then [] else if b then utf8 "true" else utf8 "false"
  | .int i, size => if size > budget then [] else formatInt i
  | .real d, size => if size > budget then [] else (formatCanonicalReal d).getD []
  | .string s, size => if size > budget then [] else escapedString s
  | .array items, size => if size > budget then [] else 91 :: dumpItems budget items true (size + 1)
  | .object members, size => if size > budget then [] else 123 :: dumpMembers budget members true (size + 1)

def dumpItems (budget : Nat) : List Json → Bool → Nat → Bytes
  | [], _, _ => [93]
  | value :: rest, first, size =>
    let separator : Bytes := if first then [] else [44]
    let text := separator ++ dumpImpl budget value (size + separator.length)
    if size + text.length > budget then text else text ++ dumpItems budget rest false (size + text.length)

def dumpMembers (budget : Nat) : List (Bytes × Json) → Bool → Nat → Bytes
  | [], _, _ => [125]
  | (key, value) :: rest, first, size =>
    let opening := (if first then [] else [44]) ++ escapedString key ++ [58]
    let text := opening ++ dumpImpl budget value (size + opening.length)
    if size + text.length > budget then text else text ++ dumpMembers budget rest false (size + text.length)

end

/-- The canonical text of a value. -/
def dump (value : Json) : Bytes := dumpImpl (maxDocumentBytes * 2) value 0

end Json

end Wnc
