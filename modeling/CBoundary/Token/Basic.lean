import CBoundary.Lex.Fat

/-!
# Tokens

A token is a fat token of a source text with its number in the stream, its span and its text.
Its kind, once asked for, stays with the token, also when the text is cut down later.
-/

namespace CBoundary

open CBoundary.Text

/-- What a token is. -/
inductive Kind where
  | undefined
  | space
  | comment
  | word
  | operator
  | literal
  | paren
  | brace
  | bracket
  | directive
  | separator
  | invalid
  deriving DecidableEq, Repr, Inhabited

namespace Kind

/-- The sign of a kind. -/
def sign : Kind → String
  | undefined => ""
  | space => " "
  | comment => "/"
  | word => "w"
  | operator => "+"
  | literal => "'"
  | paren => "("
  | brace => "\x7b"
  | bracket => "["
  | directive => "#"
  | separator => ";"
  | invalid => "@"

/-- Spellings that are operators. -/
def operators : List String :=
  ["<<=", ">>=", "++", "--", "->", "<<", ">>", "<=", ">=", "==", "!=", "&&", "||",
   "+=", "-=", "*=", "/=", "%=", "&=", "^=", "|=",
   ".", "+", "-", "!", "~", "*", "&", "/", "%", "<", ">", "^", "|", "?", ":", "=", ",", ";"]

/-- The kind of a text, by how it starts or, for separators and operators, by all of it. -/
def ofText (text : String) : Kind :=
  match text.toList with
  | [] => undefined
  | c :: cs =>
    if isBlank c || c == '\n' then space
    else if c == '/' && (cs.head? == some '/' || cs.head? == some '*') then comment
    else if c == '\'' || c == '\"' then literal
    else if c == '(' then paren
    else if c == '\x7b' then brace
    else if c == '[' then bracket
    else if c == '#' then directive
    else if text == "," || text == ";" then separator
    else if operators.contains text then operator
    else if isWordChar c then word
    else if c == '@' then invalid
    else undefined

/-- Code is what is neither white space nor a note nor a separator. -/
def isCode : Kind → Bool
  | space | directive | comment | separator => false
  | _ => true

end Kind

/-- A fat token of a source text. -/
structure Token where
  idx : Nat
  span : Span
  value : String
  /-- Its kind, once that has been asked for. -/
  kind? : Option Kind := none
  deriving DecidableEq, Repr, Inhabited

namespace Token

/-- The kind of a token: the one it was given, else that of its text. -/
def kind (t : Token) : Kind := t.kind?.getD (Kind.ofText t.value)

/-- The token with its kind settled. -/
def settled (t : Token) : Token := { t with kind? := some t.kind }

/-- The token of nothing. -/
def empty : Token := ⟨0, ⟨0, 0⟩, "", none⟩

/-- Do texts and settled kinds agree? -/
def agrees (a b : Token) : Bool := a.value == b.value && a.kind? == b.kind?

/-- The characters of a token. -/
def chars (t : Token) : List Char := t.value.toList

/-- Does the token's text start with a character? -/
def startsWith (t : Token) (c : Char) : Bool := t.chars.head? == some c

/-- A bracketed token without its brackets. -/
def interior (t : Token) : Token := ⟨t.idx, t.span.interior, interiorOf t.value, none⟩

/-- Is the token code? -/
def isCode (t : Token) : Bool := t.kind.isCode

end Token

/-- Tokens of lexemes, numbered and moved by an offset. -/
def Token.ofLexemes (base : Int) (lexemes : List Lex.Lexeme) : List Token :=
  lexemes.mapIdx fun i l =>
    ⟨i, ⟨base + l.start, base + l.stop⟩, String.ofList l.chars, none⟩

/-- The tokens of a text, their spans moved by a base offset. -/
def Token.scan (s : List Char) (base : Int) : List Token :=
  Token.ofLexemes base (Lex.findings Lex.code.tokenLength 0 s)

/-! ## Lists of tokens -/

namespace Tokens

/-- From the start of the first token to the end of the last. -/
def span : List Token → Span
  | [] => ⟨0, 0⟩
  | t :: ts => ⟨t.span.start, ((t :: ts).getLast (by simp)).span.stop⟩

/-- The texts of the tokens. -/
def values (ts : List Token) : List String := ts.map Token.value

/-- The texts joined by single spaces. -/
def words (ts : List Token) : String := " ".intercalate (values ts)

/-- The bounds of a token list, and its texts between marks. -/
def display (ts : List Token) : String :=
  s!"[{(span ts).start}:{(span ts).stop}] 〈" ++ "⌇".intercalate (values ts) ++ "〉"

/-- The tokens that are code, with their kinds settled. -/
def code (ts : List Token) : List Token := (ts.filter Token.isCode).map Token.settled

/-- Token lists agree when they do token by token. -/
def agree : List Token → List Token → Bool
  | [], [] => true
  | a :: as, b :: bs => a.agrees b && agree as bs
  | _, _ => false

/-- The comment in front of a statement, and the index at which the statement goes on. -/
structure Lead where
  comment : Option Token
  next : Nat
  deriving Repr

/-- The comment in front of a nonempty token list; nothing is known about an
empty one. -/
def lead? : List Token → Option Lead
  | [] => none
  | ts =>
    match ts.findIdx? fun t => t.kind != .space with
    | none => some ⟨none, ts.length⟩
    | some i =>
      match ts[i]? with
      | some t => if t.kind == .comment then some ⟨some t, i + 1⟩ else some ⟨none, i⟩
      | none => some ⟨none, i⟩

/-- The comment in front of a token list. -/
def preComment (ts : List Token) : Option Token := (lead? ts).bind Lead.comment

/-- The last comment, if only white space follows it. -/
def postComment (ts : List Token) : Option Token :=
  (ts.reverse.find? fun t => t.kind != .space).filter fun t => t.kind == .comment

end Tokens

end CBoundary

/-! ## Words with a meaning of their own -/

namespace CBoundary.Keyword

/-- Qualifiers and storage classes of a declaration, and the words that announce
a record. -/
def qualifiers : List String :=
  ["const", "volatile", "restrict", "static", "extern", "auto", "register",
   "struct", "union", "enum"]

/-- Words that start a statement which declares nothing. -/
def statements : List String :=
  ["case", "continue", "default", "do", "else", "for", "goto", "if", "return", "switch", "while"]

/-- Names of built-in types, and of types that every C program may use. -/
def types : List String :=
  ["void", "char", "short", "int", "long", "float", "double", "signed", "unsigned", "bool",
   "size_t", "ssize_t", "ptrdiff_t", "intptr_t", "uintptr_t", "int8_t", "int16_t",
   "int32_t", "int64_t", "uint8_t", "uint16_t", "uint32_t", "uint64_t", "int_least8_t",
   "int_least16_t", "int_least32_t", "int_least64_t", "uint_least8_t", "uint_least16_t",
   "uint_least32_t", "uint_least64_t", "int_fast8_t", "int_fast16_t", "int_fast32_t",
   "int_fast64_t", "uint_fast8_t", "uint_fast16_t", "uint_fast32_t", "uint_fast64_t",
   "intmax_t", "uintmax_t", "wchar_t", "char16_t", "char32_t", "__int128", "__uint128",
   "__float80", "__float128", "__float16", "__float32", "__float64",
   "__int64", "__uint64", "__int32", "__uint32", "__int16", "__uint16", "__int8", "__uint8",
   "timespec", "timeval", "tm", "FILE", "DIR", "pid_t", "uid_t", "gid_t", "mode_t"]

/-- Words without a meaning here; an argument list may follow each. -/
def ignored : List String :=
  ["inline", "restrict", "volatile", "auto", "register",
   "__attribute__", "__extension__", "__restrict__", "__restrict", "__inline__", "__inline",
   "__asm__", "__asm",
   "WT_GCC_FUNC_DECL_ATTRIBUTE", "WT_GCC_FUNC_ATTRIBUTE", "WT_INLINE",
   "WT_ATTRIBUTE_LIBRARY_VISIBLE", "wt_shared", "WT_STAT_COMPR_RATIO_READ_HIST_INCR_FUNC",
   "WT_STAT_COMPR_RATIO_WRITE_HIST_INCR_FUNC", "WT_STAT_USECS_HIST_INCR_FUNC",
   "WT_ATOMIC_CAS_FUNC", "WT_ATOMIC_FUNC", "WT_CURDUMP_PASS",
   "WT_STAT_MSECS_HIST_INCR_FUNC"]

/-- Words that announce a record. -/
def records : List String := ["struct", "union", "enum"]

end CBoundary.Keyword

namespace CBoundary.Token

/-- Is the token a qualifier? -/
def isQualifier (t : Token) : Bool := Keyword.qualifiers.contains t.value

/-- Is the token the name of a built-in type? -/
def isBuiltinType (t : Token) : Bool := Keyword.types.contains t.value

/-- Does the token announce a record? -/
def announcesRecord (t : Token) : Bool := Keyword.records.contains t.value

/-- Is the token a name of at least two characters? -/
def isLongName (t : Token) : Bool := Text.isLongName t.chars

end CBoundary.Token
