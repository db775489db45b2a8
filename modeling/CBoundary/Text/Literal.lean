import CBoundary.Text.Basic

/-!
# Literals

Configurations and rename scripts are written as literals.  White space and notes from a hash
sign to the end of the line may stand between any two parts.
-/

namespace CBoundary.Text

/-- A literal. -/
inductive Literal where
  /-- A single word, such as `None` or `True`. -/
  | word (name : String)
  | number (n : Int)
  | text (s : String)
  | list (items : List Literal)
  /-- Items in parentheses; a single one only if a comma follows it. -/
  | tuple (items : List Literal)
  | table (entries : List (Literal × Literal))
  /-- A name with arguments, each of which may be named. -/
  | call (name : String) (args : List (Option String × Literal))
  deriving Repr, Inhabited

namespace Literal

/-- Skips white space and notes. -/
def skip (inNote : Bool) : List Char → List Char
  | [] => []
  | c :: cs =>
    if inNote then skip (c != '\n') cs
    else if c == '#' then skip true cs
    else if c == '\\' && cs.head? == some '\n' then skip false cs
    else if isSpace c then skip false cs
    else c :: cs

/-- The character that a letter stands for behind a backslash. -/
def escaped : Char → List Char
  | 'n' => ['\n']
  | 't' => ['\t']
  | 'r' => ['\r']
  | '\n' => []
  | '\\' => ['\\']
  | '\'' => ['\'']
  | '\"' => ['\"']
  | c => ['\\', c]

/-- Reads a text from behind its opening quote. -/
def readText (quote : Char) (acc : List Char) : List Char → Option (List Char × List Char)
  | [] => none
  | '\\' :: c :: cs => readText quote ((escaped c).reverse ++ acc) cs
  | c :: cs => if c == quote then some (acc.reverse, cs) else readText quote (c :: acc) cs

/-- Is the character a quote? -/
def isQuote (c : Char) : Bool := c == '\'' || c == '\"'

/-- Reads texts that follow each other as one. -/
def readTexts (fuel : Nat) (acc : List Char) (s : List Char) : Option (List Char × List Char) :=
  match fuel, s with
  | fuel + 1, c :: cs =>
    if isQuote c then
      (readText c [] cs).bind fun (t, rest) => readTexts fuel (acc ++ t) (skip false rest)
    else some (acc, c :: cs)
  | _, s => some (acc, s)

/-- Reads a number without a sign. -/
def readNumber (s : List Char) : Int × List Char :=
  let digits := s.takeWhile Char.isDigit
  (digits.foldl (fun n c => 10 * n + (c.toNat - '0'.toNat)) 0, s.drop digits.length)

/-- The last part of a name with dots. -/
def lastPart (s : List Char) : List Char := (s.reverse.takeWhile (· != '.')).reverse

mutual

/-- Reads a literal; each takes one unit of fuel. -/
def value (fuel : Nat) (s : List Char) : Option (Literal × List Char) :=
  match fuel with
  | 0 => none
  | fuel + 1 =>
    match s with
    | [] => none
    | '[' :: cs => do
      let (items, _, rest) ← items fuel ']' (skip false cs)
      return (.list items, rest)
    | '(' :: cs => do
      let (items, comma, rest) ← items fuel ')' (skip false cs)
      match items, comma with
      | [x], false => return (x, rest)
      | _, _ => return (.tuple items, rest)
    | '\x7b' :: cs => do
      let (entries, rest) ← entries fuel (skip false cs)
      return (.table entries, rest)
    | '-' :: cs =>
      let (n, rest) := readNumber cs
      some (.number (-n), rest)
    | c :: cs =>
      if isQuote c then
        (readTexts fuel [] (c :: cs)).map fun (t, rest) => (.text (String.ofList t), rest)
      else if c.isDigit then
        let (n, rest) := readNumber (c :: cs)
        some (.number n, rest)
      else
        let name := (c :: cs).takeWhile fun c => isWordChar c || c == '.'
        if name.isEmpty then none
        else
          match skip false ((c :: cs).drop name.length) with
          | '(' :: rest => do
            let (args, rest) ← arguments fuel (skip false rest)
            return (.call (String.ofList (lastPart name)) args, rest)
          | _ => some (.word (String.ofList name), (c :: cs).drop name.length)

/-- Reads items up to a closing bracket; says as well whether a comma stands before
it. -/
def items (fuel : Nat) (close : Char) (s : List Char) : Option (List Literal × Bool × List Char) :=
  match fuel, s with
  | fuel + 1, c :: cs =>
    if c == close then some ([], true, cs)
    else do
      let (x, rest) ← value fuel (c :: cs)
      match skip false rest with
      | ',' :: rest =>
        let (xs, comma, rest) ← items fuel close (skip false rest)
        return (x :: xs, comma, rest)
      | d :: rest => if d == close then return ([x], false, rest) else none
      | [] => none
  | _, _ => none

/-- Reads the entries of a table up to its end. -/
def entries (fuel : Nat) (s : List Char) : Option (List (Literal × Literal) × List Char) :=
  match fuel, s with
  | fuel + 1, c :: cs =>
    if c == '\x7d' then some ([], cs)
    else do
      let (key, rest) ← value fuel (c :: cs)
      match skip false rest with
      | ':' :: rest =>
        let (v, rest) ← value fuel (skip false rest)
        match skip false rest with
        | ',' :: rest =>
          let (es, rest) ← entries fuel (skip false rest)
          return ((key, v) :: es, rest)
        | '\x7d' :: rest => return ([(key, v)], rest)
        | _ => none
      | _ => none
  | _, _ => none

/-- Reads arguments up to the closing parenthesis. -/
def arguments (fuel : Nat) (s : List Char) :
    Option (List (Option String × Literal) × List Char) :=
  match fuel, s with
  | fuel + 1, c :: cs =>
    if c == ')' then some ([], cs)
    else do
      let word := (c :: cs).takeWhile isWordChar
      let (name, start) := match skip false ((c :: cs).drop word.length) with
        | '=' :: rest => (some (String.ofList word), skip false rest)
        | _ => (none, c :: cs)
      let (v, rest) ← value fuel start
      match skip false rest with
      | ',' :: rest =>
        let (more, rest) ← arguments fuel (skip false rest)
        return ((name, v) :: more, rest)
      | ')' :: rest => return ([(name, v)], rest)
      | _ => none
  | _, _ => none

end

/-- Reads a text as a row of literals. -/
def parseAll (fuel : Nat) (s : List Char) : Option (List Literal) :=
  match fuel, skip false s with
  | _, [] => some []
  | fuel + 1, cs => do
    let (x, rest) ← value (2 * cs.length + 2) cs
    return x :: (← parseAll fuel rest)
  | 0, _ => none

/-- The literals of a text, one after the other. -/
def parse (s : List Char) : Option (List Literal) := parseAll (s.length + 1) s

/-! ## Views -/

/-- The text of a literal. -/
def text? : Literal → Option String
  | text s => some s
  | _ => none

/-- The items of a list or a tuple. -/
def items? : Literal → Option (List Literal)
  | list l => some l
  | tuple l => some l
  | _ => none

/-- The texts of a list. -/
def texts? (x : Literal) : Option (List String) := x.items?.bind fun l => l.mapM text?

/-- The entries of a table under texts. -/
def entries? : Literal → Option (List (String × Literal))
  | table l => l.mapM fun (k, v) => k.text?.map fun k => (k, v)
  | _ => none

end Literal

end CBoundary.Text
