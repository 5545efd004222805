import GRParse.Chunking.Codec
import GRParse.Lib.JsonText

/-!
# The writer of canonical JSON

`JsonWriter` prints values in the order of the calls: every element on a line of its own, with
two blanks of indentation for each container around it.  A stack remembers of each open
container whether it is still empty, and a flag whether a key waits for its value.  Strings are
escaped to ASCII; the escaper decodes their UTF-8 by itself, with U+FFFD for a malformed byte.
-/

namespace GRParse.Render

/-! ### Escaping -/

def kHex : List UInt8 :=
  [0x30, 0x31, 0x32, 0x33, 0x34, 0x35, 0x36, 0x37, 0x38, 0x39, 0x61, 0x62, 0x63, 0x64, 0x65, 0x66]

def hexDigit (digit : ℕ) : UInt8 :=
  kHex.getD digit 0

/-- `append_u16`: the escape of a code unit. -/
def appendU16 (code : ℕ) : List UInt8 :=
  [0x5c, 0x75, hexDigit (code >>> 12 &&& 0xf), hexDigit (code >>> 8 &&& 0xf),
    hexDigit (code >>> 4 &&& 0xf), hexDigit (code &&& 0xf)]

/-- Whether a byte passes through. -/
def plain (byte : UInt8) : Bool :=
  0x20 ≤ byte && byte ≤ 0x7e && byte != 0x22 && byte != 0x5c

/-- The escape of an ASCII byte that does not pass through. -/
def escapeAscii (byte : UInt8) : List UInt8 :=
  if byte = 0x22 then [0x5c, 0x22]
  else if byte = 0x5c then [0x5c, 0x5c]
  else if byte = 0x08 then [0x5c, 0x62]
  else if byte = 0x09 then [0x5c, 0x74]
  else if byte = 0x0a then [0x5c, 0x6e]
  else if byte = 0x0c then [0x5c, 0x66]
  else if byte = 0x0d then [0x5c, 0x72]
  else appendU16 byte.toNat

/-- Whether there is a continuation byte at a place. -/
def continuation (text : List UInt8) (place : ℕ) : Bool :=
  match text[place]? with
  | none => false
  | some byte => byte &&& 0xc0 = 0x80

/-- The low bits of the byte at a place. -/
def tailBits (text : List UInt8) (place : ℕ) : ℕ :=
  (text.getD place 0 &&& 0x3f).toNat

/-- The code point of the sequence that a byte leads, and its length; U+FFFD and one for a
malformed byte. -/
def escapedPoint (byte : UInt8) (rest : List UInt8) : ℕ × ℕ :=
  if byte &&& 0xe0 = 0xc0 ∧ continuation rest 0 then
    let code := (byte &&& 0x1f).toNat <<< 6 ||| tailBits rest 0
    if 0x80 ≤ code then (code, 2) else (0xfffd, 1)
  else if byte &&& 0xf0 = 0xe0 ∧ continuation rest 0 ∧ continuation rest 1 then
    let code := (byte &&& 0x0f).toNat <<< 12 ||| tailBits rest 0 <<< 6 ||| tailBits rest 1
    if 0x800 ≤ code ∧ (code < 0xd800 ∨ 0xdfff < code) then (code, 3) else (0xfffd, 1)
  else if byte &&& 0xf8 = 0xf0 ∧ continuation rest 0 ∧ continuation rest 1
      ∧ continuation rest 2 then
    let code := (byte &&& 0x07).toNat <<< 18 ||| tailBits rest 0 <<< 12 |||
      tailBits rest 1 <<< 6 ||| tailBits rest 2
    if 0x10000 ≤ code ∧ code ≤ 0x10ffff then (code, 4) else (0xfffd, 1)
  else (0xfffd, 1)

/-- The escape of a code point beyond ASCII. -/
def escapePoint (code : ℕ) : List UInt8 :=
  if 0x10000 ≤ code then
    appendU16 (0xd800 + (code - 0x10000) >>> 10) ++
      appendU16 (0xdc00 + ((code - 0x10000) &&& 0x3ff))
  else appendU16 code

/-- The loop of `escape_json_ascii_into`, after the given number of bytes that were written
already.  A run of bytes that pass through is copied at once. -/
def escapeFrom : ℕ → List UInt8 → List UInt8
  | _, [] => []
  | skip + 1, _ :: rest => escapeFrom skip rest
  | 0, byte :: rest =>
    if plain byte then
      byte :: rest.takeWhile plain ++ escapeFrom (rest.takeWhile plain).length rest
    else if byte < 0x80 then escapeAscii byte ++ escapeFrom 0 rest
    else
      escapePoint (escapedPoint byte rest).1 ++ escapeFrom ((escapedPoint byte rest).2 - 1) rest

/-- `escape_json_ascii`. -/
def escapeJsonAscii (text : List UInt8) : List UInt8 :=
  escapeFrom 0 text

/-! ### The writer -/

/-- `JsonWriter`.  The innermost container is the first of the stack. -/
structure JsonWriter where
  out : List UInt8 := []
  emptyStack : List Bool := []
  pendingValue : Bool := false
  deriving DecidableEq

namespace JsonWriter

def append (text : List UInt8) (writer : JsonWriter) : JsonWriter :=
  { writer with out := writer.out ++ text }

/-- A new line, indented for the containers that are open. -/
def newLine (depth : ℕ) : List UInt8 :=
  0x0a :: List.replicate (2 * depth) 0x20

/-- `next_element`. -/
def nextElement (writer : JsonWriter) : JsonWriter :=
  match writer.emptyStack with
  | [] => writer
  | empty :: stack =>
    { writer with
      out := writer.out ++ ((if empty then [] else [0x2c]) ++
        newLine writer.emptyStack.length)
      emptyStack := false :: stack }

/-- `position_value`. -/
def positionValue (writer : JsonWriter) : JsonWriter :=
  if writer.pendingValue then { writer with pendingValue := false } else writer.nextElement

/-- `begin_container`. -/
def beginContainer (bracket : UInt8) (writer : JsonWriter) : JsonWriter :=
  let writer := writer.positionValue
  { writer with out := writer.out ++ [bracket], emptyStack := true :: writer.emptyStack }

/-- `end_container`. -/
def endContainer (bracket : UInt8) (writer : JsonWriter) : JsonWriter :=
  match writer.emptyStack with
  | [] => writer
  | wasEmpty :: stack =>
    { writer with
      out := writer.out ++ ((if wasEmpty then [] else newLine stack.length) ++ [bracket])
      emptyStack := stack }

def beginObject : JsonWriter → JsonWriter := beginContainer 0x7b

def endObject : JsonWriter → JsonWriter := endContainer 0x7d

def beginArray : JsonWriter → JsonWriter := beginContainer 0x5b

def endArray : JsonWriter → JsonWriter := endContainer 0x5d

def key (name : List UInt8) (writer : JsonWriter) : JsonWriter :=
  let writer := writer.nextElement
  { writer with
    out := writer.out ++ (0x22 :: (escapeJsonAscii name ++ [0x22, 0x3a, 0x20]))
    pendingValue := true }

/-- A value that is written as it is. -/
def valueRaw (token : List UInt8) (writer : JsonWriter) : JsonWriter :=
  writer.positionValue.append token

def valueString (text : List UInt8) : JsonWriter → JsonWriter :=
  valueRaw (0x22 :: (escapeJsonAscii text ++ [0x22]))

def valueBool (value : Bool) : JsonWriter → JsonWriter :=
  valueRaw (if value then [0x74, 0x72, 0x75, 0x65] else [0x66, 0x61, 0x6c, 0x73, 0x65])

def valueNull : JsonWriter → JsonWriter :=
  valueRaw [0x6e, 0x75, 0x6c, 0x6c]

/-- `std::to_string` of a natural number. -/
def decimal (value : ℕ) : List UInt8 :=
  (Nat.toDigits 10 value).map fun digit => .ofNat digit.toNat

def valueInt (value : Int64) : JsonWriter → JsonWriter :=
  valueRaw (if value.toInt < 0 then 0x2d :: decimal value.toInt.natAbs
    else decimal value.toInt.natAbs)

def valueUint (value : UInt64) : JsonWriter → JsonWriter :=
  valueRaw (decimal value.toNat)

end JsonWriter

/-! ### Emitting a tree -/

/-- A tree of values, with the bytes of its strings. -/
inductive JsonTree
  | null
  | bool (value : Bool)
  | int (value : Int64)
  | uint (value : UInt64)
  | string (text : List UInt8)
  | array (elements : List JsonTree)
  | object (members : List (List UInt8 × JsonTree))

mutual

/-- The calls that emit a tree. -/
def JsonTree.emit : JsonTree → JsonWriter → JsonWriter
  | .null, writer => writer.valueNull
  | .bool value, writer => writer.valueBool value
  | .int value, writer => writer.valueInt value
  | .uint value, writer => writer.valueUint value
  | .string text, writer => writer.valueString text
  | .array elements, writer => (emitElements elements writer.beginArray).endArray
  | .object members, writer => (emitMembers members writer.beginObject).endObject

def emitElements : List JsonTree → JsonWriter → JsonWriter
  | [], writer => writer
  | element :: elements, writer => emitElements elements (element.emit writer)

def emitMembers : List (List UInt8 × JsonTree) → JsonWriter → JsonWriter
  | [], writer => writer
  | (name, member) :: members, writer => emitMembers members (member.emit (writer.key name))

end

end GRParse.Render
