import CBoundary.Code.Details

/-!
# Visibility

Whether a definition is private and to which module it belongs follows from an
annotation in a comment, else from the form of its name, else from its
surroundings.  An annotation is `#public` or `#private`, with a module in
parentheses or without.  A name of the form `__wt_module_…` is public, one of the
form `__wti_module_…` private.
-/

namespace CBoundary.Visibility

/-- Whether a thing is private (or nothing is said), and its module. -/
structure Verdict where
  isPrivate : Option Bool
  moduleName : String
  deriving DecidableEq, Repr

/-- An annotation: is it for privacy, and which module does it name? -/
structure Annotation where
  isPrivate : Bool
  moduleName : Option String
  deriving DecidableEq, Repr

/-- The module in parentheses at the front. -/
def moduleInParens (s : List Char) : Option String :=
  match s with
  | '(' :: rest =>
    let w := rest.takeWhile Text.isWordChar
    if !w.isEmpty && (rest.drop w.length).head? == some ')' then some (String.ofList w) else none
  | _ => none

/-- The annotation at the front of a text. -/
def annotationAt? (s : List Char) : Option Annotation :=
  let read (word : String) (isPrivate : Bool) : Option Annotation :=
    let w := word.toList
    let rest := s.drop w.length
    if w.isPrefixOf s && !Text.wordAt rest.head? then
      some ⟨isPrivate, moduleInParens rest⟩
    else none
  match read "#public" false with
  | some a => some a
  | none => read "#private" true

/-- The first annotation in a text. -/
def annotation? : List Char → Option Annotation
  | [] => none
  | c :: cs =>
    match annotationAt? (c :: cs) with
    | some a => some a
    | none => annotation? cs

/-- What the form of a name says: is it private, and of which module? -/
structure NameForm where
  isPrivate : Bool
  word : Option String
  deriving DecidableEq, Repr

/-- The longest of some names that a text starts with, before an underscore. -/
def leadingName? (names : List String) (s : List Char) : Option String :=
  names.foldl (fun best n =>
    if (n.toList ++ ['_']).isPrefixOf s && best.all (fun b => b.length < n.length)
    then some n else best) none

/-- The form of a name. -/
def nameForm? (w : Workspace) (name : String) : Option NameForm :=
  let s := name.toList
  (["__wt_", "WT_"].map (·, false) ++ ["__wti_", "WTI_"].map (·, true)).findSome?
    fun (lead, isPrivate) =>
      if lead.toList.isPrefixOf s then
        some ⟨isPrivate, leadingName? w.sourceNames (s.drop lead.length)⟩
      else none

/-- The annotation of a thing: in the comment in front, else in the one behind. -/
def annotationOf? (thing : Details) : Option Annotation :=
  (thing.preComment.bind fun t => annotation? t.chars) <|>
    (thing.postComment.bind fun t => annotation? t.chars)

/-- The module by the form of a name, or that of the surroundings. -/
def moduleByName (w : Workspace) (form : Option NameForm) (moduleName : String) : String :=
  match form.bind NameForm.word with
  | some word =>
    if word.isEmpty then moduleName else (w.sourceAliases.find? word).getD word
  | none => moduleName

/-- The verdict about a thing in its surroundings. In a file with a module, a name on the top level
decides about privacy only. -/
def verdict (w : Workspace) (thing : Details) (isPrivate : Option Bool) (moduleName : String)
    (isNested : Bool) : Verdict :=
  match annotationOf? thing with
  | some a => ⟨some a.isPrivate, a.moduleName.getD moduleName⟩
  | none =>
    let form := nameForm? w thing.name.value
    { isPrivate := (form.map NameForm.isPrivate) <|> isPrivate
      moduleName :=
        if (isNested && form.isSome) || moduleName.isEmpty then moduleByName w form moduleName
        else moduleName }

/-- Decides about a thing, and reports a name of another module than the file's. -/
def decide (c : Context) (thing : Details) (isPrivate : Option Bool) (moduleName : String)
    (isNested : Bool) : Audit Verdict := do
  let form := nameForm? c.workspace thing.name.value
  let fromName := moduleByName c.workspace form moduleName
  if (annotationOf? thing).isNone && !(isNested && form.isSome) && !moduleName.isEmpty &&
      fromName != moduleName then
    Audit.report .moduleNameMismatch
      (.offset c.file (c.offset + thing.name.span.start))
      (.foreignName fromName thing.kind thing.name.value moduleName)
  return verdict c.workspace thing isPrivate moduleName isNested

/-- Decides about a thing, and reports an annotation with another module than the file's. -/
def check (c : Context) (thing : Details) (isPrivate : Option Bool) (moduleName : String)
    (isNested : Bool) : Audit Verdict := do
  let verdict ← decide c thing isPrivate moduleName isNested
  if !isNested && !moduleName.isEmpty && verdict.moduleName != moduleName then
    Audit.report .moduleNameMismatch
      (.offset c.file (c.offset + thing.name.span.start))
      (.foreignMark verdict.moduleName thing.kind thing.name.value moduleName)
  return verdict

end CBoundary.Visibility
