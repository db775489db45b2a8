import CBoundary.Source

/-!
# Diagnostics

A diagnostic has a level, maybe a category, a place and a message.  The analyses produce all of
them; which ones are shown is decided afterwards.
-/

namespace CBoundary

/-- How much a diagnostic matters, the most first. -/
inductive Level where
  | quiet
  | fatal
  | error
  | warning
  | info
  | debug
  | debug2
  | debug3
  | debug4
  | debug5
  deriving DecidableEq, Repr, Inhabited

namespace Level

/-- All levels in increasing order. -/
def all : List Level := [quiet, fatal, error, warning, info, debug, debug2, debug3, debug4, debug5]

/-- The number of a level. -/
def number : Level → Nat
  | quiet => 0
  | fatal => 1
  | error => 2
  | warning => 3
  | info => 4
  | debug => 5
  | debug2 => 6
  | debug3 => 7
  | debug4 => 8
  | debug5 => 9

/-- The name of a level as it is shown. -/
def name : Level → String
  | quiet => "quiet"
  | fatal => "fatal"
  | error => "error"
  | warning => "warning"
  | info => "info"
  | debug => "debug"
  | debug2 => "debug2"
  | debug3 => "debug3"
  | debug4 => "debug4"
  | debug5 => "debug5"

/-- The level named on a command line, in capitals; two levels have a second name. -/
def ofWord? (word : String) : Option Level :=
  match word with
  | "DEFAULT" => some error
  | "DEBUG1" => some debug
  | _ => all.find? fun l => l.name.toUpper == word

/-- The level with a number. -/
def ofNumber? (n : Int) : Option Level := all.find? fun l => (l.number : Int) == n

/-- Does the level count as an error? -/
def isError (l : Level) : Bool := l.number ≤ error.number

end Level

/-- What a diagnostic is about. -/
inductive Category where
  | unspecified
  | misc
  | macroExpand
  | moduleNameMismatch
  | moduleForeignDef
  | accessMacro
  | accessGlobal
  | accessMember
  | defnConflict
  | defnConflictMacro
  | parseTypedef
  | parseLocalvar
  | parseExpression
  | typeDeduceMember
  | typeDeduceExpr
  | ignoredGlobal
  deriving DecidableEq, Repr, Inhabited

namespace Category

/-- All categories. -/
def all : List Category :=
  [unspecified, misc, macroExpand, moduleNameMismatch, moduleForeignDef, accessMacro,
   accessGlobal, accessMember, defnConflict, defnConflictMacro, parseTypedef, parseLocalvar,
   parseExpression, typeDeduceMember, typeDeduceExpr, ignoredGlobal]

/-- The name of a category. -/
def name : Category → String
  | unspecified => "none"
  | misc => "misc"
  | macroExpand => "macro_expand"
  | moduleNameMismatch => "module_name_mismatch"
  | moduleForeignDef => "module_foreign_def"
  | accessMacro => "access_macro"
  | accessGlobal => "access_global"
  | accessMember => "access_member"
  | defnConflict => "defn_conflict"
  | defnConflictMacro => "defn_conflict_macro"
  | parseTypedef => "parse_typedef"
  | parseLocalvar => "parse_localvar"
  | parseExpression => "parse_expression"
  | typeDeduceMember => "type_deduce_member"
  | typeDeduceExpr => "type_deduce_expr"
  | ignoredGlobal => "ignored_global"

/-- The category with a name. -/
def ofName? (s : String) : Option Category := all.find? fun c => c.name == s

/-- The level of the diagnostics in a category. -/
def level : Category → Level
  | unspecified | misc => .quiet
  | macroExpand => .debug3
  | moduleNameMismatch | moduleForeignDef | accessMacro | accessGlobal | accessMember => .error
  | ignoredGlobal => .info
  | _ => .warning

end Category

/-- How a function or a macro is named in a place or a message. -/
def ownerText (moduleName name colon : String) : String :=
  (if moduleName.isEmpty then "" else s!"[{moduleName}] ") ++ s!"'{name}'{colon}"

/-- Where a diagnostic points. -/
inductive Place where
  | unknown
  | heading
  /-- A text that stands for a place. -/
  | remark (text : String)
  | offset (file : SourceFile) (offset : Int)
  | definition (file : SourceFile) (offset : Int) (kind moduleName name : String)
  | inside (file : SourceFile) (offset : Int) (moduleName name : String)
  deriving Repr, Inhabited

/-- The text of a place. -/
def Place.text : Place → String
  | unknown => "    "
  | heading => " ---"
  | remark text => text
  | offset file o => file.location o
  | definition file o kind moduleName name =>
    s!"{file.location o} {kind} " ++ ownerText moduleName name ":"
  | inside file o moduleName name => s!"{file.location o} " ++ ownerText moduleName name ":"

/-- What a diagnostic says. -/
inductive Message where
  | words (l : List String)
  /-- Reading a module description failed. -/
  | badDescription (file : String) (line : Nat) (reason text : String)
  | addModule (m : Module)
  | expanding (owners : List String) (name : String)
  | expanded (stack : List String) (text : String)
  | tooFewArguments (name : String) (got expected : Nat)
  | conflictingUpdate (what : String)
  | conflictHere
  | kindMismatch (name kind₁ kind₂ short₁ short₂ : String)
  | detailsConflict (reason : String)
  /-- The name of a definition speaks for another module than its file; the
  file's module is assigned. -/
  | foreignName (found kind name fileModule : String)
  /-- An annotation assigns a definition to another module than its file's. -/
  | foreignMark (found kind name fileModule : String)
  /-- A definition was entered. -/
  | entered (what short : String)
  | typedef (name type base : String)
  | invalidTypedef (name : String)
  | scopeAt (offset : Int)
  | scanning (name : String)
  | externBlock
  | recordVariablesIgnored (name : String)
  | functionIgnored (name : Option String)
  | variableIgnored
  | foreignStatic (moduleName : String)
  | checkingDefinition (short : String)
  | checking (kind moduleName name : String)
  | untypedLocal (name : String)
  | localTypes (types : List (String × String))
  | privateMacro (owner calleeModule callee : String)
  | privateMacroVia (owner root : String)
  | privateMacroStep (caller calleeModule callee : String)
  | macroDefined (callee : String)
  | privateName (moduleName name : String) (trailing : String)
  | callOf (moduleName name : String)
  | privateAccess (kind moduleName name : String)
  | accessChain (text : String)
  | chainType (type : String)
  | fieldChain (text : String)
  | fieldAccess (type field : String)
  | unknownMember (field chain : String)
  | unknownExpression (chain : String)
  | unexpectedToken (text : String)
  | unexpectedEnd (text : String)
  deriving Repr, Inhabited

namespace Message

/-- The words of a message; they are shown with single spaces between them. -/
def parts : Message → List String
  | words l => l
  | badDescription file line reason text =>
    [s!"{file}:{line}", s!"Error parsing module description: {reason}\n", text]
  | addModule m => ["Add module: " ++ m.display]
  | expanding owners name => ["Expanding macro " ++ " => ".intercalate owners ++ " => " ++ name]
  | expanded stack text => ["Macro expand " ++ Text.quoteList stack ++ ": <<<" ++ text ++ ">>>"]
  | tooFewArguments name got expected =>
    [s!"macro {name}: got only {got} arguments, expected {expected}"]
  | conflictingUpdate what => [s!"conflicting update for {what}:"]
  | conflictHere => ["conflict here:"]
  | kindMismatch name kind₁ kind₂ short₁ short₂ =>
    [s!"type mismatch for '{name}': {kind₁} != {kind₂}\n{short₁}\n{short₂}"]
  | detailsConflict reason => [reason]
  | foreignName found kind name fileModule =>
    [s!"Module [{found}] of a top-level {kind} '{name}' does not match the module of the file " ++
      s!"[{fileModule}]. Assigning it to module [{fileModule}] " ++
      "because identifier name has lower priority."]
  | foreignMark found kind name fileModule =>
    [s!"Module [{found}] of a top-level {kind} '{name}' does not match the module of the file " ++
      s!"[{fileModule}]. Assigning it to module [{found}]."]
  | entered what short => [what ++ ":", short]
  | typedef name type base => [s!"Typedef: {name} = {type} = {base}"]
  | invalidTypedef name => [s!"Invalid typedef near '{name}'"]
  | scopeAt offset => [s!"Scope: {offset}"]
  | scanning name => [s!"File: {name}"]
  | externBlock => ["extern C"]
  | recordVariablesIgnored name => [s!"Global variables of record '{name}' are ignored"]
  | functionIgnored (some name) => [s!"Function declaration ignored for '{name}'"]
  | functionIgnored none => ["Function declaration ignored"]
  | variableIgnored => ["Global variable ignored"]
  | foreignStatic moduleName =>
    [s!"Private static function of a foreign module defined in [{moduleName}]"]
  | checkingDefinition short => [s!"Checking {short}"]
  | checking kind moduleName name => [s!"Checking {kind} [{moduleName}] {name}"]
  | untypedLocal name => [s!"Missing type for local variable '{name}'"]
  | localTypes types =>
    ["locals vars:\n" ++ "\n".intercalate (types.map fun (name, type) => s!"    {name}: {type}")]
  | privateMacro owner calleeModule callee =>
    [owner, s!"Invalid access to private macro [{calleeModule}] '{callee}'"]
  | privateMacroVia owner root =>
    [owner, s!"Expansion of {root} leads to invalid private macro access:"]
  | privateMacroStep caller calleeModule callee =>
    ["...", caller, s!"Invalid access to private macro [{calleeModule}] '{callee}'"]
  | macroDefined callee => ["...", callee, "Defined here"]
  | privateName moduleName name trailing =>
    [s!"Invalid access to private name [{moduleName}] '{name}'{trailing}"]
  | callOf moduleName name => [s!"Function call: [{moduleName}] '{name}'"]
  | privateAccess kind moduleName name =>
    [s!"Invalid access to private {kind} [{moduleName}] '{name}'"]
  | accessChain text => [s!"Access chain: {text}"]
  | chainType type => [s!"Access type: {type}"]
  | fieldChain text => [s!"Field access chain: {text}"]
  | fieldAccess type field => [s!"Field access: {type}->{field}"]
  | unknownMember field chain => [s!"Can't deduce type of member '{field}' in {chain}"]
  | unknownExpression chain => [s!"Can't deduce type of expression {chain}"]
  | unexpectedToken text => [s!"Unexpected token in expression: {text}"]
  | unexpectedEnd text => [s!"Unexpected end of expression: '{text}'"]

end Message

/-- A diagnostic. -/
structure Diagnostic where
  level : Level
  category : Option Category := none
  place : Place := .unknown
  message : Message
  deriving Repr, Inhabited

namespace Diagnostic

/-- A diagnostic of a category, at its level. -/
def of (category : Category) (place : Place) (message : Message) : Diagnostic :=
  ⟨category.level, some category, place, message⟩

/-- A diagnostic of a level, without a category. -/
def at_ (level : Level) (place : Place) (message : Message) : Diagnostic :=
  ⟨level, none, place, message⟩

/-- The line of a diagnostic. -/
def line (d : Diagnostic) : String :=
  " ".intercalate ([d.place.text, d.level.name ++ ":"] ++ d.message.parts ++
    (d.category.map fun c => "\x7b" ++ c.name ++ "\x7d").toList) ++ "\n"

end Diagnostic

/-! ## What is shown -/

/-- Which diagnostics are shown. -/
structure LogSettings where
  level : Level := .error
  disabled : List Category := []
  deriving Repr, Inhabited

/-- Is the diagnostic shown? -/
def LogSettings.shows (s : LogSettings) (d : Diagnostic) : Bool :=
  d.level.number ≤ s.level.number && !(d.category.any s.disabled.contains)

/-- One entry of a transcript. -/
inductive Entry where
  | logged (d : Diagnostic)
  /-- A diagnostic taken over from a task that kept its own count of errors. -/
  | relayed (d : Diagnostic)
  | printed (text : String)
  deriving Repr, Inhabited

namespace Entry

/-- What an entry shows. -/
def text (s : LogSettings) : Entry → String
  | logged d | relayed d => if s.shows d then d.line else ""
  | printed text => text

/-- Does the entry count as an error? -/
def isError : Entry → Bool
  | logged d => d.level.isError
  | _ => false

/-- The entry as taken over from a task. -/
def relay : Entry → Entry
  | logged d => relayed d
  | e => e

end Entry

/-- The entries of an analysis in order. -/
abbrev Transcript := Array Entry

namespace Transcript

/-- What a transcript shows. -/
def text (s : LogSettings) (t : Transcript) : String := t.foldl (fun acc e => acc ++ e.text s) ""

/-- How many errors a transcript counts. -/
def errors (t : Transcript) : Nat := t.countP Entry.isError

end Transcript

end CBoundary
