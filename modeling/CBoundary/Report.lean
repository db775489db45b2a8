import CBoundary.Text.Basic

/-!
# Reports

Colours and styles of a terminal with their control sequences, and rows of cells in columns.
-/

namespace CBoundary

/-! ## Colours -/

/-- A colour or a style. -/
inductive Color where
  | norm
  | bright
  | dim
  | underscore
  | inverse
  | red
  | green
  | yellow
  | blue
  | magenta
  | cyan
  | onGrey
  | onRed
  | onGreen
  | onYellow
  | onBlue
  | onMagenta
  | onCyan
  deriving DecidableEq, Repr, Inhabited

namespace Color

/-- The colours and styles with their names. -/
def named : List (String × Color) :=
  [("NORM", norm), ("BRIGHT", bright), ("DIM", dim), ("UNDERSCORE", underscore), ("INV", inverse),
   ("RED", red), ("GREEN", green), ("YELLOW", yellow), ("BLUE", blue), ("MAGENTA", magenta),
   ("CYAN", cyan), ("BG_GREY", onGrey), ("BG_RED", onRed), ("BG_GREEN", onGreen),
   ("BG_YELLOW", onYellow), ("BG_BLUE", onBlue), ("_BG_MAGENTA", onMagenta), ("_BG_CYAN", onCyan)]

/-- The colour with a name. -/
def ofName? (name : String) : Option Color := (named.find? fun e => e.1 == name).map Prod.snd

/-- The number of a colour in a control sequence. -/
def code : Color → String
  | norm => ""
  | bright => "1"
  | dim => "2"
  | underscore => "4"
  | inverse => "7"
  | red => "31"
  | green => "32"
  | yellow => "33"
  | blue => "34"
  | magenta => "35"
  | cyan => "36"
  | onGrey => "40"
  | onRed => "41"
  | onGreen => "42"
  | onYellow => "43"
  | onBlue => "44"
  | onMagenta => "45"
  | onCyan => "46"

/-- The control sequence for a colour and a style; nothing if colours are off. -/
def sequence (enabled : Bool) (c : Color) (reset : Bool) (style : Option Color) : String :=
  if enabled then
    "\x1b[" ++ (if reset then "0;" else "") ++
      ((style.map fun s => s.code ++ ";").getD "") ++ c.code ++ "m"
  else ""

end Color

end CBoundary

namespace CBoundary.Columns

/-! ## Columns -/

/-- A text filled up with spaces to a width. -/
def padRight (width : Nat) (s : List Char) : List Char := s ++ List.replicate (width - s.length) ' '

/-- How many columns all rows have. -/
def count : List (List String) → Nat
  | [] => 0
  | row :: rows => rows.foldl (fun n r => min n r.length) row.length

/-- The width of a column: that of its widest cell. -/
def width (rows : List (List String)) (i : Nat) : Nat :=
  rows.foldl (fun n row => max n ((row[i]?.getD "").length)) 0

/-- The lines of some rows, with the columns that all of them have. -/
def format (rows : List (List String)) : List String :=
  let widths := (List.range (count rows)).map (width rows)
  rows.map fun row =>
    let cells := (row.zip widths).map fun (cell, w) => String.ofList (padRight w cell.toList)
    "  " ++ String.ofList (Text.trim (" ".intercalate cells).toList)

end CBoundary.Columns
