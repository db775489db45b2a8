import CBoundary.Text.Basic

/-!
# JSON

A reader for JSON that says where and why a text is refused.  Positions count
characters from zero; a complaint shows line and column as well.
-/

namespace CBoundary.Text

/-- A JSON value.  A number is kept as it is written. -/
inductive Json where
  | null
  | bool (b : Bool)
  | number (text : String)
  | string (s : String)
  | array (items : List Json)
  | object (members : List (String × Json))
  deriving Repr, Inhabited

namespace Json

/-- Why a text is refused. -/
inductive Reason where
  | value
  | propertyName
  | colon
  | comma
  | controlCharacter
  | unterminatedString
  | escape
  | unicodeEscape
  | extraData
  deriving DecidableEq, Repr

/-- The wording of a reason. -/
def Reason.text : Reason → String
  | value => "Expecting value"
  | propertyName => "Expecting property name enclosed in double quotes"
  | colon => "Expecting ':' delimiter"
  | comma => "Expecting ',' delimiter"
  | controlCharacter => "Invalid control character at"
  | unterminatedString => "Unterminated string starting at"
  | escape => "Invalid \\escape"
  | unicodeEscape => "Invalid \\uXXXX escape"
  | extraData => "Extra data"

/-- A refusal: why and where. -/
structure Refusal where
  reason : Reason
  pos : Nat
  deriving DecidableEq, Repr

/-- The wording of a refusal of a text. -/
def Refusal.message (r : Refusal) (s : List Char) : String :=
  let before := s.take r.pos
  let line := before.count '\n' + 1
  let column := (before.reverse.takeWhile (· != '\n')).length + 1
  s!"{r.reason.text}: line {line} column {column} (char {r.pos})"

/-- What was read: a value, and the position and the text behind it. -/
abbrev Reading (α : Type) : Type := α × Nat × List Char

/-- White space between values. -/
def isGap (c : Char) : Bool := c == ' ' || c == '\t' || c == '\n' || c == '\r'

/-- Skips white space. -/
def skip (pos : Nat) : List Char → Nat × List Char
  | [] => (pos, [])
  | c :: cs => if isGap c then skip (pos + 1) cs else (pos, c :: cs)

/-- The value of a hexadecimal digit. -/
def hexDigit? (c : Char) : Option Nat :=
  if '0' ≤ c ∧ c ≤ '9' then some (c.toNat - '0'.toNat)
  else if 'a' ≤ c ∧ c ≤ 'f' then some (c.toNat - 'a'.toNat + 10)
  else if 'A' ≤ c ∧ c ≤ 'F' then some (c.toNat - 'A'.toNat + 10)
  else none

/-- The number that four hexadecimal digits at the front of a text spell. -/
def fourDigits? : List Char → Option Nat
  | a :: b :: c :: d :: _ => do
    return (((← hexDigit? a) * 16 + (← hexDigit? b)) * 16 + (← hexDigit? c)) * 16 + (← hexDigit? d)
  | _ => none

/-- The character that a letter stands for behind a backslash. -/
def escaped? : Char → Option Char
  | '\"' => some '\"'
  | '\\' => some '\\'
  | '/' => some '/'
  | 'b' => some '\x08'
  | 'f' => some '\x0c'
  | 'n' => some '\n'
  | 'r' => some '\r'
  | 't' => some '\t'
  | _ => none

/-- The character of a pair of escapes, if the second half follows with more text behind it. -/
def joinPair? (high : Nat) (rest : List Char) : Option Nat :=
  match rest with
  | '\\' :: 'u' :: digits =>
    if 0xD800 ≤ high ∧ high < 0xDC00 ∧ 4 < digits.length then
      (fourDigits? digits).bind fun low =>
        if 0xDC00 ≤ low ∧ low < 0xE000 then
          some (0x10000 + (high - 0xD800) * 0x400 + (low - 0xDC00))
        else none
    else none
  | _ => none

/-- Reads a string from behind its quote at `start`. -/
def readString (start pos : Nat) (acc s : List Char) : Except Refusal (Reading String) :=
  match s with
  | [] => .error ⟨.unterminatedString, start⟩
  | '\"' :: cs => .ok (String.ofList acc.reverse, pos + 1, cs)
  | '\\' :: 'u' :: cs =>
    if cs.length < 5 then .error ⟨.unicodeEscape, pos + 1⟩
    else
      match fourDigits? cs with
      | none => .error ⟨.unicodeEscape, pos + 1⟩
      | some n =>
        match joinPair? n (cs.drop 4) with
        | some m => readString start (pos + 12) (Char.ofNat m :: acc) (cs.drop 10)
        | none => readString start (pos + 6) (Char.ofNat n :: acc) (cs.drop 4)
  | ['\\'] => .error ⟨.unterminatedString, start⟩
  | '\\' :: c :: cs =>
    match escaped? c with
    | some d => readString start (pos + 2) (d :: acc) cs
    | none => .error ⟨.escape, pos⟩
  | c :: cs =>
    if c.toNat < 0x20 then .error ⟨.controlCharacter, pos⟩
    else readString start (pos + 1) (c :: acc) cs
termination_by s.length
decreasing_by all_goals (simp only [List.length_drop, List.length_cons]; omega)

/-- The length of the leading fraction. -/
def fraction (s : List Char) : Nat :=
  match s with
  | '.' :: cs =>
    let n := runLength Char.isDigit cs
    if n = 0 then 0 else n + 1
  | _ => 0

/-- The length of the leading exponent. -/
def exponent (s : List Char) : Nat :=
  match s with
  | c :: cs =>
    if c == 'e' || c == 'E' then
      let sign := if cs.head? == some '+' || cs.head? == some '-' then 1 else 0
      let n := runLength Char.isDigit (cs.drop sign)
      if n = 0 then 0 else 1 + sign + n
    else 0
  | [] => 0

/-- The length of the leading number, zero if there is none. -/
def numberLength (s : List Char) : Nat :=
  let sign := if s.head? == some '-' then 1 else 0
  let digits := runLength Char.isDigit (s.drop sign)
  let whole := if (s.drop sign).head? == some '0' then min digits 1 else digits
  if whole = 0 then 0
  else
    let n := sign + whole
    let n := n + fraction (s.drop n)
    n + exponent (s.drop n)

/-- The words that are values. -/
def words : List (String × Json) :=
  [("null", .null), ("true", .bool true), ("false", .bool false), ("NaN", .number "NaN"),
   ("Infinity", .number "Infinity"), ("-Infinity", .number "-Infinity")]

/-- Reads a value that has no parts. -/
def scalar (pos : Nat) (s : List Char) : Except Refusal (Reading Json) :=
  match words.find? fun w => w.1.toList.isPrefixOf s with
  | some (w, v) => .ok (v, pos + w.length, s.drop w.length)
  | none =>
    match numberLength s with
    | 0 => .error ⟨.value, pos⟩
    | n + 1 => .ok (.number (String.ofList (s.take (n + 1))), pos + (n + 1), s.drop (n + 1))

mutual

/-- Reads a value; each value takes one unit of fuel. -/
def value (fuel pos : Nat) (s : List Char) : Except Refusal (Reading Json) :=
  match fuel with
  | 0 => .error ⟨.value, pos⟩
  | fuel + 1 =>
    match s with
    | '\"' :: cs => do
      let (t, rest) ← readString pos (pos + 1) [] cs
      return (.string t, rest)
    | '\x7b' :: cs =>
      match skip (pos + 1) cs with
      | (pos, '\x7d' :: cs) => .ok (.object [], pos + 1, cs)
      | (pos, cs) => members fuel pos [] cs
    | '[' :: cs =>
      match skip (pos + 1) cs with
      | (pos, ']' :: cs) => .ok (.array [], pos + 1, cs)
      | (pos, cs) => elements fuel pos [] cs
    | s => scalar pos s

/-- Reads the members of an object up to its end. -/
def members (fuel pos : Nat) (acc : List (String × Json)) (s : List Char) :
    Except Refusal (Reading Json) :=
  match fuel with
  | 0 => .error ⟨.propertyName, pos⟩
  | fuel + 1 =>
    match s with
    | '\"' :: cs => do
      let (key, pos, cs) ← readString pos (pos + 1) [] cs
      match skip pos cs with
      | (pos, ':' :: cs) =>
        let (pos, cs) := skip (pos + 1) cs
        let (v, pos, cs) ← value fuel pos cs
        match skip pos cs with
        | (pos, '\x7d' :: cs) => return (.object ((key, v) :: acc).reverse, pos + 1, cs)
        | (pos, ',' :: cs) =>
          let (pos, cs) := skip (pos + 1) cs
          members fuel pos ((key, v) :: acc) cs
        | (pos, _) => throw ⟨.comma, pos⟩
      | (pos, _) => throw ⟨.colon, pos⟩
    | _ => .error ⟨.propertyName, pos⟩

/-- Reads the items of an array up to its end. -/
def elements (fuel pos : Nat) (acc : List Json) (s : List Char) : Except Refusal (Reading Json) :=
  match fuel with
  | 0 => .error ⟨.value, pos⟩
  | fuel + 1 => do
    let (v, pos, cs) ← value fuel pos s
    match skip pos cs with
    | (pos, ']' :: cs) => return (.array (v :: acc).reverse, pos + 1, cs)
    | (pos, ',' :: cs) =>
      let (pos, cs) := skip (pos + 1) cs
      elements fuel pos (v :: acc) cs
    | (pos, _) => throw ⟨.comma, pos⟩

end

/-- Reads a text as one value. -/
def parse (s : List Char) : Except Refusal Json := do
  let (pos, cs) := skip 0 s
  let (v, pos, cs) ← value (2 * s.length + 2) pos cs
  match skip pos cs with
  | (_, []) => return v
  | (pos, _) => throw ⟨.extraData, pos⟩

end Json

end CBoundary.Text
