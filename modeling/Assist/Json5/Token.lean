import Assist.Json
import Assist.Text.Letter
import Assist.Text.Search

/-!
# The tokens of JSON5

JSON5 is JSON as people write it in settings files: with comments, names as keys, either quote,
trailing commas, and more ways to write a number. `Token.scan?` cuts a text into tokens and drops
the blanks and comments between them.

A literal can be well formed and still have no value: a number that is out of range, or an escape
for half a character. Such a literal is a token without a value, so that a reader who never looks at
it does not mind.
-/

namespace Assist.Json5

open Assist.Text

/-- The value of a number: an integer, a decimal, or one that is not a finite number. -/
inductive Number where
  | int (value : Int)
  | real (value : Decimal)
  | notFinite
  deriving DecidableEq, Repr

/-- A token. -/
inductive Token where
  /-- One of `[`, `]`, `{`, `}`, `:` and `,`. -/
  | punct (c : Char)
  | number (value : Option Number)
  | string (value : Option String)
  /-- A name: its value, and whether it is written without escapes. -/
  | name (value : Option String) (isPlain : Bool)
  deriving DecidableEq, Repr

/-- The characters that end a line. -/
def isLineEnd (c : Char) : Bool :=
  c == '\n' || c == '\r' || c.toNat == 0x2028 || c.toNat == 0x2029

/-- The characters that can stand between tokens: the blanks of ASCII, the byte order mark, the
space separators of Unicode, and the line ends. -/
def isSpace (c : Char) : Bool :=
  let n := c.toNat
  n == 0x09 || n == 0x0B || n == 0x0C || n == 0x20 || n == 0xA0 || n == 0xFEFF || n == 0x1680
    || (0x2000 ≤ n && n ≤ 0x200A) || n == 0x202F || n == 0x205F || n == 0x3000 || isLineEnd c

/-- Where a scan for blanks and comments stands. -/
inductive SpaceMode where
  | between
  | line
  | block

/-- What follows the blanks and comments at the start of a text; `none` if a block comment is not
closed. -/
def dropSpace? : SpaceMode → List Char → Option (List Char)
  | .block, [] => none
  | _, [] => some []
  | .between, '/' :: '/' :: cs => dropSpace? .line cs
  | .between, '/' :: '*' :: cs => dropSpace? .block cs
  | .between, c :: cs => if isSpace c then dropSpace? .between cs else some (c :: cs)
  | .line, c :: cs => if isLineEnd c then dropSpace? .between cs else dropSpace? .line cs
  | .block, '*' :: '/' :: cs => dropSpace? .between cs
  | .block, _ :: cs => dropSpace? .block cs

/-! ## Digits -/

/-- The value of a hexadecimal digit. -/
def hexDigit? (c : Char) : Option Nat :=
  if c.isDigit then some (c.toNat - '0'.toNat)
  else if 'a' ≤ c ∧ c ≤ 'f' then some (c.toNat - 'a'.toNat + 10)
  else if 'A' ≤ c ∧ c ≤ 'F' then some (c.toNat - 'A'.toNat + 10)
  else none

/-- The value of hexadecimal digits. -/
def hexValue (digits : List Char) : Nat :=
  digits.foldl (fun n c => n * 16 + (hexDigit? c).getD 0) 0

/-- The value of decimal digits. -/
def decimalValue (digits : List Char) : Nat :=
  digits.foldl (fun n c => n * 10 + (c.toNat - '0'.toNat)) 0

/-- Exactly `n` hexadecimal digits at the start of a text, and what follows them. -/
def takeHex? (n : Nat) (cs : List Char) : Option (Nat × List Char) :=
  let digits := cs.take n
  if digits.length = n ∧ digits.all (fun c => (hexDigit? c).isSome) then
    some (hexValue digits, cs.drop n)
  else none

/-! ## Strings and names -/

/-- A piece of a string or a name: a character, or a UTF-16 unit that an escape gives. -/
inductive Piece where
  | char (c : Char)
  | unit (n : Nat)
  deriving DecidableEq, Repr

/-- The character of a code point. -/
def charOf? (n : Nat) : Option Char :=
  if h : n.isValidChar then some (Char.ofNatAux n h) else none

/-- The characters of pieces. A unit that is the first half of a character has to be followed by one
that is its second half. -/
def decode? : List Piece → Option (List Char)
  | [] => some []
  | .char c :: pieces => (decode? pieces).map (c :: ·)
  | .unit n :: pieces =>
    if 0xD800 ≤ n ∧ n ≤ 0xDBFF then
      match pieces with
      | .unit low :: pieces => do
        guard (0xDC00 ≤ low ∧ low ≤ 0xDFFF)
        let c ← charOf? ((n - 0xD800) * 0x400 + (low - 0xDC00) + 0x10000)
        return c :: (← decode? pieces)
      | _ => none
    else do
      let c ← charOf? n
      return c :: (← decode? pieces)

/-- The text of pieces. -/
def textOf? (pieces : List Piece) : Option String := (decode? pieces).map String.ofList

/-- The control character that a letter stands for after a backslash. -/
def controlOf? : Char → Option Char
  | 'b' => some '\x08'
  | 'f' => some '\x0c'
  | 'n' => some '\n'
  | 'r' => some '\r'
  | 't' => some '\t'
  | 'v' => some '\x0b'
  | _ => none

/-- The escape after a backslash: its piece, if it stands for one, and what follows. A backslash at
the end of a line joins the lines. A character that is not a letter of an escape or a digit stands
for itself. -/
def takeEscape? : List Char → Option (Option Piece × List Char)
  | [] => none
  | '\r' :: '\n' :: cs => some (none, cs)
  | '0' :: cs => some (some (.char '\x00'), cs)
  | 'x' :: cs => (takeHex? 2 cs).map fun (n, cs) => (some (.unit n), cs)
  | 'u' :: cs => (takeHex? 4 cs).map fun (n, cs) => (some (.unit n), cs)
  | c :: cs =>
    if isLineEnd c then some (none, cs)
    else if c.isDigit then none
    else some (some (.char ((controlOf? c).getD c)), cs)

/-- The pieces of a string up to its closing quote, and what follows it. No piece is empty, so the
length of the text is fuel enough. -/
def takeString? (quote : Char) : Nat → List Char → Option (List Piece × List Char)
  | 0, _ => none
  | _ + 1, [] => none
  | fuel + 1, c :: cs =>
    if c = quote then some ([], cs)
    else if c = '\\' then do
      let (piece, cs) ← takeEscape? cs
      let (pieces, cs) ← takeString? quote fuel cs
      return (piece.toList ++ pieces, cs)
    else if isLineEnd c then none
    else (takeString? quote fuel cs).map fun (pieces, cs) => (.char c :: pieces, cs)

/-- Characters that a name can start with. -/
def isNameStart (c : Char) : Bool := isLetter c || c == '$' || c == '_'

/-- Characters that a name can go on with. -/
def isNamePart (c : Char) : Bool :=
  isNameStart c || isNameMark c || c.toNat == 0x200C || c.toNat == 0x200D

/-- The pieces of a name whose next character satisfies `fits`, whether they are all written without
escapes, and what follows. -/
def takeName (fits : Char → Bool) : Nat → List Char → List Piece × Bool × List Char
  | 0, cs => ([], true, cs)
  | _ + 1, [] => ([], true, [])
  | fuel + 1, c :: cs =>
    if fits c then
      let (pieces, plain, rest) := takeName isNamePart fuel cs
      (.char c :: pieces, plain, rest)
    else
      match (stripStart? ['\\', 'u'] (c :: cs)).bind (takeHex? 4) with
      | some (n, after) =>
        let (pieces, _, rest) := takeName isNamePart fuel after
        (.unit n :: pieces, false, rest)
      | none => ([], true, c :: cs)

/-! ## Numbers -/

/-- An unsigned number as it is written. -/
inductive Literal where
  | hex (digits : List Char)
  /-- The digits before and after the point, and the exponent; `isInt` if there is neither a point
  nor an exponent. -/
  | decimal (whole fraction : List Char) (exponent : Int) (isInt : Bool)
  | infinity
  | nan

/-- The digits at the start of a text, and what follows them. -/
def takeDigits (cs : List Char) : List Char × List Char :=
  (cs.takeWhile Char.isDigit, cs.dropWhile Char.isDigit)

/-- The exponent at the start of a text, if there is one, and what follows it. -/
def takeExponent (cs : List Char) : Option Int × List Char :=
  match cs with
  | c :: rest =>
    if c == 'e' || c == 'E' then
      let (negative, rest) := match rest with
        | '+' :: rest => (false, rest)
        | '-' :: rest => (true, rest)
        | rest => (false, rest)
      match takeDigits rest with
      | ([], _) => (none, cs)
      | (digits, rest) =>
        let value : Int := decimalValue digits
        (some (if negative then -value else value), rest)
    else (none, cs)
  | [] => (none, cs)

/-- The whole part of a decimal at the start of a text, which is `0` or starts with another digit,
and what follows it. -/
def takeWhole (cs : List Char) : List Char × List Char :=
  match cs with
  | '0' :: rest => (['0'], rest)
  | _ => takeDigits cs

/-- The hexadecimal number at the start of a text, and what follows it. -/
def takeHexLiteral? (cs : List Char) : Option (Literal × List Char) :=
  match cs with
  | '0' :: x :: rest =>
    if x == 'x' || x == 'X' then
      match rest.takeWhile (fun c => (hexDigit? c).isSome) with
      | [] => none
      | digits => some (.hex digits, rest.drop digits.length)
    else none
  | _ => none

/-- The decimal at the start of a text, and what follows it. -/
def takeDecimal? (cs : List Char) : Option (Literal × List Char) :=
  match takeWhole cs with
  | (whole, '.' :: rest) =>
    let (fraction, rest) := takeDigits rest
    if whole.isEmpty && fraction.isEmpty then none
    else
      let (exponent, rest) := takeExponent rest
      some (.decimal whole fraction (exponent.getD 0) false, rest)
  | (whole, rest) =>
    if whole.isEmpty then none
    else
      let (exponent, rest) := takeExponent rest
      some (.decimal whole [] (exponent.getD 0) exponent.isNone, rest)

/-- The unsigned number at the start of a text, and what follows it. -/
def takeLiteral? (cs : List Char) : Option (Literal × List Char) :=
  (takeHexLiteral? cs).or <| (takeDecimal? cs).or <|
    ((stripStart? "Infinity".toList cs).map (Literal.infinity, ·)).or <|
      (stripStart? "NaN".toList cs).map (Literal.nan, ·)

/-- The value of a number with a sign. An integer has to fit 64 bits, a hexadecimal number 32 bits
and no sign, a decimal a double; a plus cannot stand before a number that is not finite. -/
def valueOf? (sign : Option Char) : Literal → Option Number
  | .hex digits =>
    let value := hexValue digits
    if sign.isNone && value < UInt32.size then some (.int value) else none
  | .decimal whole fraction exponent isInt =>
    let value : Int := decimalValue (whole ++ fraction)
    let value := if sign == some '-' then -value else value
    if isInt then
      if Int64.minValue.toInt ≤ value ∧ value ≤ Int64.maxValue.toInt then some (.int value)
      else none
    else
      let decimal : Decimal := ⟨value, exponent - fraction.length⟩
      if decimal.fitsDouble then some (.real decimal) else none
  | .infinity | .nan => if sign == some '+' then none else some .notFinite

/-- The sign at the start of a text, if there is one, and what follows it. -/
def takeSign (cs : List Char) : Option Char × List Char :=
  match cs with
  | '+' :: rest => (some '+', rest)
  | '-' :: rest => (some '-', rest)
  | _ => (none, cs)

/-- The number at the start of a text, and what follows it. -/
def takeNumber? (cs : List Char) : Option (Option Number × List Char) :=
  let (sign, rest) := takeSign cs
  (takeLiteral? rest).map fun (literal, rest) => (valueOf? sign literal, rest)

/-! ## Tokens -/

namespace Token

/-- The token at the start of a text, and what follows it. -/
def next? (cs : List Char) : Option (Token × List Char) :=
  match cs with
  | [] => none
  | c :: rest =>
    if ['[', ']', '{', '}', ':', ','].contains c then some (punct c, rest)
    else if c == '"' || c == '\x27' then
      (takeString? c (rest.length + 1) rest).map fun (pieces, rest) =>
        (string (textOf? pieces), rest)
    else if c.isDigit || c == '+' || c == '-' || c == '.' then
      (takeNumber? cs).map fun (value, rest) => (number value, rest)
    else
      match takeName isNameStart cs.length cs with
      | ([], _) => none
      | (pieces, plain, rest) => some (name (textOf? pieces) plain, rest)

/-- The tokens of a text. No token is empty, so the length of the text is fuel enough. -/
def scanFrom? : Nat → List Char → Option (List Token)
  | 0, _ => none
  | fuel + 1, cs => do
    match ← dropSpace? .between cs with
    | [] => return []
    | cs =>
      let (token, rest) ← next? cs
      return token :: (← scanFrom? fuel rest)

/-- The tokens of a text. -/
def scan? (text : String) : Option (List Token) :=
  scanFrom? (text.toList.length + 1) text.toList

end Token

end Assist.Json5
