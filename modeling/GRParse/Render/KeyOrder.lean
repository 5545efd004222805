import GRParse.Lib.JsonText
import GRParse.Lib.SortOn
import Mathlib.Data.List.Lex

/-!
# The order of keys

`sort_map_objects` copies a JSON text and puts the members of some objects into order: those
that are the value of a key in a set.  On a text that spells a tree it prints the tree with
these members in order, without white space.
-/

namespace GRParse.Render

open Json Sorting

/-! ### The order -/

/-- `std::from_chars` for a `long long`, of a text that it reads to the end. -/
def fromChars (text : List UInt8) : Option ℤ :=
  let negative := text.head? = some 0x2d
  let digits := if negative then text.tail else text
  let value : ℤ := if negative then -digitsValue digits else digitsValue digits
  if digits = [] ∨ !digits.all isDigit ∨ value < -2 ^ 63 ∨ 2 ^ 63 ≤ value then none else some value

/-- `integer_key`: the integer that a quoted key spells. -/
def integerKey (quoted : List UInt8) : Option ℤ :=
  fromChars (quoted.tail.dropLast)

/-- `order`: numerically when every key spells an integer, else by the bytes of the keys. -/
def order {α : Type} (key : α → List UInt8) (members : List α) : List α :=
  if members.all fun member => (integerKey (key member)).isSome then
    sortOn (fun member => (integerKey (key member)).getD 0) members
  else sortOn (fun member => (key member).map UInt8.toNat) members

/-! ### The pass -/

/-- `std::isspace`. -/
def isspace (byte : UInt8) : Bool :=
  byte = 0x20 || (0x09 ≤ byte && byte ≤ 0x0d)

/-- `KeyOrderPass::Member`: a quoted key, and the member as written. -/
structure Member where
  key : List UInt8
  text : List UInt8
  deriving DecidableEq

/-- The text of an object. -/
def joinMembers : List Member → List UInt8
  | [] => []
  | [member] => member.text
  | member :: members => member.text ++ 0x2c :: joinMembers members

namespace KeyOrderPass

variable (size : ℕ) (mapFields : List (List UInt8))

def fail {α : Type} (what : String) (position : ℕ) : Except String α :=
  .error ("JSON key order: " ++ what ++ " at byte " ++ toString position)

def skipSpace (text : List UInt8) : List UInt8 :=
  text.dropWhile isspace

/-- The loop of `string_literal`. -/
def literalFrom : List UInt8 → Except String (List UInt8 × List UInt8)
  | [] => fail "unterminated string" size
  | byte :: rest =>
    if byte = 0x5c then
      match rest with
      | [] => fail "unterminated escape" size
      | escaped :: rest =>
        (literalFrom rest).map fun (literal, rest) => (byte :: escaped :: literal, rest)
    else if byte = 0x22 then .ok ([byte], rest)
    else (literalFrom rest).map fun (literal, rest) => (byte :: literal, rest)

/-- `string_literal`. -/
def stringLiteral (text : List UInt8) : Except String (List UInt8 × List UInt8) :=
  if text.head? = some 0x22 then
    (literalFrom size text.tail).map fun (literal, rest) => (0x22 :: literal, rest)
  else fail "expected a string" (size - text.length)

/-- Whether a byte ends a scalar. -/
def stops (byte : UInt8) : Bool :=
  byte = 0x2c || byte = 0x7d || byte = 0x5d || isspace byte

def scalar (text : List UInt8) : Except String (List UInt8 × List UInt8) :=
  if text.takeWhile (!stops ·) = [] then fail "expected a value" (size - text.length)
  else .ok (text.takeWhile (!stops ·), text.dropWhile (!stops ·))

mutual

/-- `value`: what is printed for the value at the start of a text, and the text behind it. -/
def value : ℕ → Bool → List UInt8 → Except String (List UInt8 × List UInt8)
  | 0, _, _ => .error ""
  | fuel + 1, sortMembers, text =>
    if text.head? = some 0x7b then
      if (skipSpace text.tail).head? = some 0x7d then .ok ([0x7b, 0x7d], (skipSpace text.tail).tail)
      else
        (members fuel (skipSpace text.tail)).map fun (members, rest) =>
          (0x7b :: (joinMembers (if sortMembers then order Member.key members else members) ++
            [0x7d]), rest)
    else if text.head? = some 0x5b then
      if (skipSpace text.tail).head? = some 0x5d then .ok ([0x5b, 0x5d], (skipSpace text.tail).tail)
      else
        (elements fuel (skipSpace text.tail)).map fun (out, rest) => (0x5b :: out, rest)
    else if text.head? = some 0x22 then stringLiteral size text
    else scalar size text

/-- The loop of `array`. -/
def elements : ℕ → List UInt8 → Except String (List UInt8 × List UInt8)
  | 0, _ => .error ""
  | fuel + 1, text =>
    match value fuel false (skipSpace text) with
    | .error message => .error message
    | .ok (out, rest) =>
      if (skipSpace rest).head? = some 0x2c then
        (elements fuel (skipSpace rest).tail).map fun (others, rest) => (out ++ 0x2c :: others, rest)
      else if (skipSpace rest).head? = some 0x5d then .ok (out ++ [0x5d], (skipSpace rest).tail)
      else fail "expected ',' or ']' in an array" (size - (skipSpace rest).length + 1)

/-- The loop of `object`. -/
def members : ℕ → List UInt8 → Except String (List Member × List UInt8)
  | 0, _ => .error ""
  | fuel + 1, text =>
    match stringLiteral size (skipSpace text) with
    | .error message => .error message
    | .ok (key, rest) =>
      if (skipSpace rest).head? = some 0x3a then
        match value fuel (mapFields.contains key.tail.dropLast)
            (skipSpace (skipSpace rest).tail) with
        | .error message => .error message
        | .ok (out, rest) =>
          if (skipSpace rest).head? = some 0x2c then
            (members fuel (skipSpace rest).tail).map fun (others, rest) =>
              (⟨key, key ++ 0x3a :: out⟩ :: others, rest)
          else if (skipSpace rest).head? = some 0x7d then
            .ok ([⟨key, key ++ 0x3a :: out⟩], (skipSpace rest).tail)
          else fail "expected ',' or \x7d' in an object" (size - (skipSpace rest).length + 1)
      else fail "expected ':' after a key" (size - (skipSpace rest).length)

end

end KeyOrderPass

/-- `sort_map_objects`. -/
def sortMapObjects (json : List UInt8) (mapFields : List (List UInt8)) :
    Except String (List UInt8) :=
  match KeyOrderPass.value json.length mapFields (2 * json.length + 2) false
      (KeyOrderPass.skipSpace json) with
  | .error message => .error message
  | .ok (out, rest) =>
    if KeyOrderPass.skipSpace rest = [] then .ok out
    else
      KeyOrderPass.fail "trailing characters after the document"
        (json.length - (KeyOrderPass.skipSpace rest).length)

end GRParse.Render
