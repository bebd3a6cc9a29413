/-
The bounded JSON decoder: a recursive descent over the bytes that remain. A parser returns what it read
with the bytes behind it, or the code and message of the first failure with the number of bytes left.
-/
import Wnc.Core.Error
import Wnc.Core.Json

namespace Wnc

open Lib

def maxJsonDepth : Nat := 32
def maxStringBytes : Nat := 4096

structure JsonDecodeOptions where
  maxBytes : Nat := maxDocumentBytes
  maxDepth : Nat := maxJsonDepth
  maxStringBytes : Nat := Wnc.maxStringBytes
  requireObject : Bool := false

structure JsonError where
  code : Code
  offset : Nat
  message : Bytes
deriving DecidableEq

namespace Parser

/-- The first failure of a parse and the number of bytes left where it stands. -/
structure Reject where
  code : Code
  left : Nat
  message : Bytes

/-- What a parser reads and the bytes behind it. -/
abbrev Result (α : Type) := Except Reject (α × Bytes)

def refuse {α : Type} (code : Code) (rest : Bytes) (message : String) : Except Reject α :=
  .error ⟨code, rest.length, utf8 message⟩

def isWs (c : UInt8) : Bool := c == 32 || c == 9 || c == 10 || c == 13

def skipWs (rest : Bytes) : Bytes := rest.dropWhile isWs

/-! ## UTF-8 -/

/-- The value of continuation bytes behind the bits read so far. -/
def decodeContinuation : Nat → Nat → Bytes → Option Nat
  | 0, value, _ => some value
  | _ + 1, _, [] => none
  | k + 1, value, b :: rest =>
    if 0x80 ≤ b ∧ b < 0xC0 then decodeContinuation k (value * 64 + b.toNat % 64) rest else none

/-- The sequence a text starts with: its length and code point. Overlong forms, surrogates and values
above U+10FFFF are refused. -/
def decodeUtf8 : Bytes → Option (Nat × Nat)
  | [] => none
  | b :: rest =>
    let multi (length lead minimum : Nat) : Option (Nat × Nat) :=
      match decodeContinuation (length - 1) lead rest with
      | none => none
      | some value =>
        if value < minimum then none
        else if 0xD800 ≤ value ∧ value ≤ 0xDFFF then none
        else if value > 0x10FFFF then none
        else some (length, value)
    if b < 0x80 then some (1, b.toNat)
    else if 0xC0 ≤ b ∧ b < 0xE0 then multi 2 (b.toNat % 32) 0x80
    else if 0xE0 ≤ b ∧ b < 0xF0 then multi 3 (b.toNat % 16) 0x800
    else if 0xF0 ≤ b ∧ b < 0xF8 then multi 4 (b.toNat % 8) 0x10000
    else none

def appendUtf8 (codepoint : Nat) : Bytes :=
  if codepoint < 0x80 then [UInt8.ofNat codepoint]
  else if codepoint < 0x800 then
    [UInt8.ofNat (0xC0 + codepoint / 64), UInt8.ofNat (0x80 + codepoint % 64)]
  else if codepoint < 0x10000 then
    [UInt8.ofNat (0xE0 + codepoint / 4096), UInt8.ofNat (0x80 + codepoint / 64 % 64),
      UInt8.ofNat (0x80 + codepoint % 64)]
  else
    [UInt8.ofNat (0xF0 + codepoint / 262144), UInt8.ofNat (0x80 + codepoint / 4096 % 64),
      UInt8.ofNat (0x80 + codepoint / 64 % 64), UInt8.ofNat (0x80 + codepoint % 64)]

/-! ## Strings -/

def parseHex4 (rest : Bytes) : Result Nat :=
  if rest.length < 4 then refuse .jsonSyntax rest "unicode escape is truncated"
  else
    match (rest.take 4).mapM hexDigitValue with
    | none => refuse .jsonSyntax rest "unicode escape contains a non hex digit"
    | some digits => .ok (digits.foldl (fun value d => value * 16 + d.val) 0, rest.drop 4)

/-- The code point of an escape, from behind its `u`. A high surrogate takes the low one behind it. -/
def parseUnicodeEscape (rest : Bytes) : Result Nat :=
  match parseHex4 rest with
  | .error e => .error e
  | .ok (first, rest) =>
    if 0xD800 ≤ first ∧ first ≤ 0xDBFF then
      match rest with
      | 92 :: 117 :: low =>
        if low.length < 4 then refuse .jsonSyntax rest "high surrogate is not followed by a low surrogate"
        else
          match parseHex4 low with
          | .error e => .error e
          | .ok (second, rest) =>
            if second < 0xDC00 ∨ 0xDFFF < second then refuse .jsonSyntax rest "low surrogate is out of range"
            else .ok (0x10000 + (first - 0xD800) * 1024 + (second - 0xDC00), rest)
      | _ => refuse .jsonSyntax rest "high surrogate is not followed by a low surrogate"
    else if 0xDC00 ≤ first ∧ first ≤ 0xDFFF then
      refuse .jsonSyntax rest "lone low surrogate in escape sequence"
    else .ok (first, rest)

/-- The bytes one character of a string stands for: an escape or a UTF-8 sequence. -/
def parseChar (rest : Bytes) : Result Bytes :=
  match rest with
  | 92 :: escape =>
    match escape with
    | [] => refuse .jsonSyntax escape "escape sequence is truncated"
    | 34 :: rest => .ok ([34], rest)
    | 92 :: rest => .ok ([92], rest)
    | 47 :: rest => .ok ([47], rest)
    | 98 :: rest => .ok ([8], rest)
    | 102 :: rest => .ok ([12], rest)
    | 110 :: rest => .ok ([10], rest)
    | 114 :: rest => .ok ([13], rest)
    | 116 :: rest => .ok ([9], rest)
    | 117 :: rest =>
      match parseUnicodeEscape rest with
      | .error e => .error e
      | .ok (codepoint, rest) => .ok (appendUtf8 codepoint, rest)
    | _ => refuse .jsonSyntax escape "unknown escape sequence"
  | _ =>
    match decodeUtf8 rest with
    | none => refuse .jsonInvalidUtf8 rest "string contains an invalid UTF-8 sequence"
    | some (length, _) => .ok (rest.take length, rest.drop length)

/-- The characters of a string up to its closing quote. Every character takes at least one byte, so the
length of the text is fuel enough. -/
def parseStringLoop (o : JsonDecodeOptions) : Nat → Bytes → Bytes → Result Bytes
  | 0, _, rest => refuse .internalInvariant rest "the parser ran out of fuel"
  | fuel + 1, out, rest =>
    match rest with
    | [] => refuse .jsonSyntax rest "string is not terminated"
    | c :: behind =>
      if c = 34 then .ok (out, behind)
      else if c < 32 then refuse .jsonSyntax rest "string contains a raw control character"
      else
        match parseChar rest with
        | .error e => .error e
        | .ok (bytes, rest) =>
          if (out ++ bytes).length > o.maxStringBytes then
            refuse .jsonStringTooLong rest "string exceeds the configured byte bound"
          else parseStringLoop o fuel (out ++ bytes) rest

def parseString (o : JsonDecodeOptions) (rest : Bytes) : Result Bytes :=
  match rest with
  | 34 :: rest => parseStringLoop o (rest.length + 1) [] rest
  | _ => refuse .jsonSyntax rest "string must start with a quote"

/-! ## Numbers -/

/-- The parts of a number literal. -/
structure Literal where
  negative : Bool
  integer : Bytes
  fraction : Option Bytes
  /-- the sign, if one is written, and the digits -/
  exponent : Option (Option UInt8 × Bytes)

namespace Literal

def isReal (l : Literal) : Bool := l.fraction.isSome || l.exponent.isSome

def length (l : Literal) : Nat :=
  (if l.negative then 1 else 0) + l.integer.length +
    (match l.fraction with | none => 0 | some digits => 1 + digits.length) +
    (match l.exponent with
      | none => 0
      | some (sign, digits) => 1 + (if sign.isSome then 1 else 0) + digits.length)

/-- The value of a real literal: the literal denotes its digits times a power of ten, and the number
nearest to that is taken if it is in range. -/
def fromChars (l : Literal) : Option Double :=
  let exponent : Int := match l.exponent with
    | none => 0
    | some (sign, digits) => if sign = some 45 then -(decimalValue digits : Int) else decimalValue digits
  let fraction := l.fraction.getD []
  Double.ofDecimal l.negative (decimalValue (l.integer ++ fraction)) (exponent - fraction.length)

end Literal

/-- The magnitude of an integer in 64 bits. -/
def readMagnitude : Bytes → Nat → Option Nat
  | [], magnitude => some magnitude
  | c :: rest, magnitude =>
    let digit := c.toNat - 48
    if magnitude > (2 ^ 64 - 1 - digit) / 10 then none else readMagnitude rest (magnitude * 10 + digit)

/-- The digits at the start of a text, which must have one. -/
def scanDigits (rest : Bytes) (message : String) : Result Bytes :=
  match rest.takeWhile isDigit with
  | [] => refuse .jsonSyntax rest message
  | digits => .ok (digits, rest.dropWhile isDigit)

def scanInteger (rest : Bytes) : Result Bytes :=
  match scanDigits rest "number has no integer digits" with
  | .error e => .error e
  | .ok (48 :: more, behind) =>
    if more ≠ [] then refuse .jsonSyntax (rest.drop 1) "number has a leading zero" else .ok ([48], behind)
  | .ok (digits, behind) => .ok (digits, behind)

def scanFraction (rest : Bytes) : Result (Option Bytes) :=
  match rest with
  | 46 :: rest =>
    match scanDigits rest "fraction has no digits" with
    | .error e => .error e
    | .ok (digits, rest) => .ok (some digits, rest)
  | _ => .ok (none, rest)

def scanExponent (rest : Bytes) : Result (Option (Option UInt8 × Bytes)) :=
  let behind (rest : Bytes) : Result (Option (Option UInt8 × Bytes)) :=
    let sign := match rest with
      | 43 :: _ => some 43
      | 45 :: _ => some 45
      | _ => none
    match scanDigits (if sign.isSome then rest.drop 1 else rest) "exponent has no digits" with
    | .error e => .error e
    | .ok (digits, rest) => .ok (some (sign, digits), rest)
  match rest with
  | 101 :: rest => behind rest
  | 69 :: rest => behind rest
  | _ => .ok (none, rest)

/-- The literal a text starts with. -/
def scanNumber (rest : Bytes) : Result Literal :=
  let negative := rest.head? == some 45
  match scanInteger (if negative then rest.drop 1 else rest) with
  | .error e => .error e
  | .ok (integer, rest) =>
    match scanFraction rest with
    | .error e => .error e
    | .ok (fraction, rest) =>
      match scanExponent rest with
      | .error e => .error e
      | .ok (exponent, rest) => .ok (⟨negative, integer, fraction, exponent⟩, rest)

/-- The value of a literal. -/
def numberValue (l : Literal) (rest : Bytes) : Except Reject Json :=
  if l.length > 64 then refuse .jsonNumberOutOfRange rest "number literal is longer than 64 characters"
  else if !l.isReal then
    match readMagnitude l.integer 0 with
    | none => refuse .jsonNumberOutOfRange rest "integer magnitude is not representable"
    | some magnitude =>
      if l.negative then
        if magnitude > 2 ^ 63 then
          refuse .jsonNumberOutOfRange rest "integer is below the representable minimum"
        else .ok (.int (Int64.ofInt (-(magnitude : Int))))
      else if magnitude > 2 ^ 63 - 1 then
        refuse .jsonNumberOutOfRange rest "integer exceeds the representable maximum"
      else .ok (.int (Int64.ofInt magnitude))
  else
    match l.fromChars with
    | none => refuse .jsonNumberOutOfRange rest "real number is not representable as a double"
    | some value =>
      if !value.isFinite then refuse .jsonNumberOutOfRange rest "real number is not finite"
      else .ok (.ofReal value)

def parseNumber (rest : Bytes) : Result Json :=
  match scanNumber rest with
  | .error e => .error e
  | .ok (l, rest) =>
    match numberValue l rest with
    | .error e => .error e
    | .ok value => .ok (value, rest)

/-! ## Values -/

def literal (token : String) (value : Json) (rest : Bytes) : Result Json :=
  let token := utf8 token
  if rest.length < token.length then refuse .jsonInvalidLiteral rest "literal is truncated"
  else if rest.take token.length ≠ token then refuse .jsonInvalidLiteral rest "literal is malformed"
  else .ok (value, rest.drop token.length)

mutual

/-- A value at a depth. Every second call takes a byte from the text, so one more than twice its length is fuel
enough. -/
def parseValue (o : JsonDecodeOptions) : Nat → Nat → Bytes → Result Json
  | 0, _, rest => refuse .internalInvariant rest "the parser ran out of fuel"
  | fuel + 1, depth, rest =>
    match rest with
    | [] => refuse .jsonSyntax rest "value expected but input ended"
    | c :: behind =>
      if depth > (if o.maxDepth = 0 then 1 else o.maxDepth) then
        refuse .jsonDepthExceeded rest "nesting depth exceeds the configured bound"
      else if c = 123 then
        match skipWs behind with
        | 125 :: rest => .ok (.object [], rest)
        | rest => parseMembers o fuel depth [] rest
      else if c = 91 then
        match skipWs behind with
        | 93 :: rest => .ok (.array [], rest)
        | rest => parseItems o fuel depth [] rest
      else if c = 34 then
        match parseString o rest with
        | .error e => .error e
        | .ok (value, rest) => .ok (.string value, rest)
      else if c = 116 then literal "true" (.bool true) rest
      else if c = 102 then literal "false" (.bool false) rest
      else if c = 110 then literal "null" .null rest
      else if c == 45 || isDigit c then parseNumber rest
      else refuse .jsonSyntax rest "unexpected character where a value was expected"

/-- The members of an object behind those read so far. -/
def parseMembers (o : JsonDecodeOptions) : Nat → Nat → List (Bytes × Json) → Bytes → Result Json
  | 0, _, _, rest => refuse .internalInvariant rest "the parser ran out of fuel"
  | fuel + 1, depth, members, rest =>
    match parseString o (skipWs rest) with
    | .error e => .error e
    | .ok (key, rest) =>
      match skipWs rest with
      | 58 :: rest =>
        match parseValue o fuel (depth + 1) (skipWs rest) with
        | .error e => .error e
        | .ok (value, rest) =>
          if (Assoc.find key members).isSome then
            .error ⟨.jsonDuplicateKey, rest.length, utf8 "object repeats key '" ++ key ++ utf8 "'"⟩
          else
            match skipWs rest with
            | [] => refuse .jsonSyntax [] "object is not terminated"
            | 44 :: rest => parseMembers o fuel depth (Assoc.set key value members) rest
            | 125 :: rest => .ok (.object (Assoc.set key value members), rest)
            | rest => refuse .jsonSyntax rest "expected ',' or '\x7d' in object"
      | rest => refuse .jsonSyntax rest "object member is missing its colon"

/-- The items of an array behind those read so far. -/
def parseItems (o : JsonDecodeOptions) : Nat → Nat → List Json → Bytes → Result Json
  | 0, _, _, rest => refuse .internalInvariant rest "the parser ran out of fuel"
  | fuel + 1, depth, items, rest =>
    match parseValue o fuel (depth + 1) (skipWs rest) with
    | .error e => .error e
    | .ok (value, rest) =>
      match skipWs rest with
      | [] => refuse .jsonSyntax [] "array is not terminated"
      | 44 :: rest => parseItems o fuel depth (items ++ [value]) rest
      | 93 :: rest => .ok (.array (items ++ [value]), rest)
      | rest => refuse .jsonSyntax rest "expected ',' or ']' in array"

end

def parseDocument (o : JsonDecodeOptions) (text : Bytes) : Except Reject Json :=
  let rest := skipWs text
  if rest = [] then refuse .jsonSyntax rest "document is empty"
  else
    match parseValue o (2 * text.length + 1) 0 rest with
    | .error e => .error e
    | .ok (value, rest) =>
      let rest := skipWs rest
      if rest ≠ [] then refuse .trailingGarbage rest "bytes remain after the top level value"
      else if o.requireObject && !value.isObject then
        refuse .jsonNotAnObject rest "top level value must be an object"
      else .ok value

end Parser

/-- Strict bounded parse of a complete document. -/
def jsonDecode (text : Bytes) (o : JsonDecodeOptions) : Except JsonError Json :=
  if text.length > o.maxBytes then
    .error ⟨.documentTooLarge, 0, utf8 "document of " ++ toDecimal text.length ++ utf8 " bytes exceeds the " ++
      toDecimal o.maxBytes ++ utf8 " byte bound"⟩
  else
    match Parser.parseDocument o text with
    | .error e => .error ⟨e.code, text.length - e.left, e.message⟩
    | .ok value => .ok value

end Wnc
