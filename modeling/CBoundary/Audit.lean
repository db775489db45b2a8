import CBoundary.Diagnostic.Basic

/-!
# Audits

An audit is an analysis that leaves a transcript and may stop with a fault.  What was noted before
a fault stays in the transcript.
-/

namespace CBoundary

/-! ## Faults -/

/-- Why an analysis stopped. -/
inductive Fault where
  /-- The comment in front of a statement was asked of a statement without tokens. -/
  | noTokens
  /-- A statement of several tokens has none that could tell a declaration from an
  expression. -/
  | undecidedStatement
  /-- A declaration without a known type has nothing to be named. -/
  | nothingDeclared
  /-- There is no scope to leave. -/
  | noScope
  /-- Nothing follows the question mark of a conditional expression. -/
  | nothingAfterCondition
  /-- A conditional expression has no third operand. -/
  | noAlternative
  | missingFile (path : String)
  | modules (conflict : ModuleConflict)
  /-- A module description is no object, or has a field that modules lack. -/
  | malformedDescription
  /-- A definition belongs to a module for which nothing is counted. -/
  | noModule
  /-- The command line lacks a word. -/
  | missingArgument
  /-- A result is to be kept under no name. -/
  | noCacheName
  /-- A kept result ends too early. -/
  | truncatedResult
  /-- A name is not in the table in which it has to be. -/
  | unknownName (name : String)
  deriving DecidableEq, Repr

/-- The wording of the faults that have one. -/
def Fault.message? : Fault → Option String
  | modules c => some c.message
  | unknownName name => some (Text.quote name)
  | noCacheName => some "file is required"
  | _ => none

/-! ## Analyses -/

/-- An analysis with a transcript. -/
abbrev Audit (α : Type) : Type := ExceptT Fault (StateM Transcript) α

namespace Audit

/-- Adds an entry to the transcript. -/
def record (e : Entry) : Audit Unit := modify fun t => t.push e

/-- Notes a diagnostic. -/
def note (d : Diagnostic) : Audit Unit := record (.logged d)

/-- Notes a diagnostic of a category. -/
def report (category : Category) (place : Place) (message : Message) : Audit Unit :=
  note (.of category place message)

/-- Notes a diagnostic of a level. -/
def trace (level : Level) (place : Place) (message : Message) : Audit Unit :=
  note (.at_ level place message)

/-- Prints a text. -/
def print (text : String) : Audit Unit := record (.printed text)

/-- The outcome of an audit and its transcript. -/
def start {α : Type} (a : Audit α) : Except Fault α × Transcript := StateT.run (ExceptT.run a) #[]

/-- Runs an audit as a task: its transcript is part of the result, and a fault leaves none. -/
def task {α : Type} (a : Audit α) : Except Fault (α × Transcript) :=
  match a.start with
  | (.ok x, t) => .ok (x, t)
  | (.error f, _) => .error f

/-- Takes over the transcript of a task. -/
def relay (t : Transcript) : Audit Unit := modify fun s => s ++ t.map Entry.relay

end Audit

end CBoundary
