import CBoundary.Survey.Filter
import CBoundary.Survey.Stats

/-!
# Options of a survey

The command line of a survey: one directory, and options in any order.  A long name may be cut
short as long as it stays unique.  An option takes no value, one, or all that follow up to the
next option.  A value may be joined to a long name by an equals sign, and to a short one
directly.
-/

namespace CBoundary.Survey

/-- What a survey is asked for. -/
structure Options where
  home : String := ""
  level : Level := .quiet
  listModules : Bool := false
  selection : Selection := {}
  detailedMetrics : Bool := false
  targets : Option (List String) := none
  reverse : Bool := false
  inner : Bool := false
  calls : Bool := true
  fields : Bool := true
  macros : Bool := true
  callsOnly : Bool := false
  fieldsOnly : Bool := false
  macrosOnly : Bool := false
  debug : Bool := false
  detail : Option Detail := none
  detailFrom : Detail := .mod
  detailTo : Detail := .mod
  color : Bool := false
  cache : Bool := true
  clearCache : Bool := false
  deriving DecidableEq, Repr, Inhabited

/-- Why a command line leads to no survey. -/
inductive Refusal where
  /-- It is not understood. -/
  | usage
  | level (name : String)
  | version
  | help
  deriving DecidableEq, Repr

/-- What an option does, and how many values it takes. -/
inductive Effect where
  | none (f : Options → Options)
  | one (f : String → Options → Except Refusal Options)
  | many (f : List String → Options → Options)
  | stop (r : Refusal)

/-- An option with one of its names. -/
structure NamedOption where
  name : String
  effect : Effect

namespace Options

/-- Adds filters to those given before. -/
def extend (old : Option (List String)) (new : List String) : Option (List String) :=
  some (old.getD [] ++ new)

/-- A switch with its names for on and off. -/
def switch (name : String) (set : Bool → Options → Options) : List NamedOption :=
  [⟨"--" ++ name, .none (set true)⟩, ⟨"--no-" ++ name, .none (set false)⟩]

/-- An option with several names. -/
def named (names : List String) (effect : Effect) : List NamedOption :=
  names.map fun n => ⟨n, effect⟩

/-- An option whose value is a level of detail. -/
def choice (set : Detail → Options → Options) : Effect :=
  .one fun value o =>
    match Detail.ofName? value with
    | some d => .ok (set d o)
    | none => .error .usage

/-- Changes the selection. -/
def select (f : Selection → Selection) (o : Options) : Options :=
  { o with selection := f o.selection }

/-- All options under all their names. -/
def all : List NamedOption :=
  named ["-h", "--help"] (.stop .help) ++
  named ["--version"] (.stop .version) ++
  named ["-v"] (.one fun value o =>
    match Level.ofWord? value with
    | some level => .ok { o with level }
    | none => .error (.level value)) ++
  named ["-m", "--modules"] (.none fun o => { o with listModules := true }) ++
  named ["-l", "--list"]
    (.many fun l => select fun s => { s with listed := extend s.listed l }) ++
  named ["-me", "--metrics"]
    (.many fun l => select fun s => { s with metrics := extend s.metrics l }) ++
  named ["--detailed-metrics"] (.none fun o => { o with detailedMetrics := true }) ++
  named ["-f", "--from"]
    (.one fun x o => .ok (o.select fun s => { s with sources := extend s.sources [x] })) ++
  named ["-t", "--to"] (.one fun x o => .ok { o with targets := extend o.targets [x] }) ++
  named ["-r"] (.none fun o => { o with reverse := true }) ++
  switch "reverse" (fun b o => { o with reverse := b }) ++
  switch "unmod" (fun b => select fun s => { s with unmodular := b }) ++
  switch "self" (fun b o => { o with inner := b }) ++
  switch "calls" (fun b o => { o with calls := b }) ++
  switch "fields" (fun b o => { o with fields := b }) ++
  switch "macros" (fun b o => { o with macros := b }) ++
  named ["--calls-only"] (.none fun o => { o with callsOnly := true }) ++
  named ["--fields-only"] (.none fun o => { o with fieldsOnly := true }) ++
  named ["--macros-only"] (.none fun o => { o with macrosOnly := true }) ++
  switch "debug" (fun b o => { o with debug := b }) ++
  named ["-d", "--detail"] (choice fun d o => { o with detail := some d }) ++
  named ["--detail-from", "--df"] (choice fun d o => { o with detailFrom := d }) ++
  named ["--detail-to", "--dt"] (choice fun d o => { o with detailTo := d }) ++
  switch "color" (fun b o => { o with color := b }) ++
  switch "cache" (fun b o => { o with cache := b }) ++
  named ["--clear-cache"] (.none fun o => { o with clearCache := true })

/-- The option with a name. -/
def find? (name : String) : Option NamedOption := all.find? fun o => o.name == name

/-! ## Words of a command line -/

/-- What a word of a command line is. -/
inductive Word where
  /-- No option. -/
  | plain (text : String)
  /-- An option, maybe with a value joined to it. -/
  | option (o : NamedOption) (value : Option String)
  /-- Looks like an option, but there is none of that name. -/
  | unknown
  /-- Ends the options. -/
  | separator

/-- A text before and after the first equals sign. -/
def splitEquals? (s : String) : Option (String × String) :=
  let cs := s.toList
  (cs.findIdx? (· == '=')).map fun i => (String.ofList (cs.take i), String.ofList (cs.drop (i + 1)))

/-- The options that a word may stand for when it is no name in full. -/
def candidates (word : String) : List (NamedOption × Option String) :=
  if word.startsWith "--" then
    let (start, value) := match splitEquals? word with
      | some (start, value) => (start, some value)
      | none => (word, none)
    (all.filter fun o => o.name.startsWith start).map (·, value)
  else
    let short := (word.take 2).toString
    all.filterMap fun o =>
      if o.name == short then some (o, some (word.drop 2).toString)
      else if o.name.startsWith word then some (o, none)
      else none

/-- Is the word written like a negative number? -/
def isNegativeNumber (word : String) : Bool :=
  match word.toList with
  | '-' :: cs =>
    let whole := cs.takeWhile Char.isDigit
    match cs.drop whole.length with
    | [] => !whole.isEmpty
    | '.' :: digits => !digits.isEmpty && digits.all Char.isDigit
    | _ => false
  | _ => false

/-- What a word is; it must not stand for more than one option. -/
def classify (word : String) : Except Refusal Word :=
  if !word.startsWith "-" then .ok (.plain word)
  else
    match find? word with
    | some o => .ok (.option o none)
    | none =>
      if word == "-" then .ok (.plain word)
      else
        match (splitEquals? word).bind fun (n, v) => (find? n).map (·, v) with
        | some (o, value) => .ok (.option o (some value))
        | none =>
          match candidates word with
          | [(o, value)] => .ok (.option o value)
          | [] => .ok (if isNegativeNumber word || word.contains ' ' then .plain word else .unknown)
          | _ => .error .usage

/-- What the words are; behind a separator there are no more options. -/
def classifyAll : List String → Except Refusal (List Word)
  | [] => .ok []
  | "--" :: ws => .ok (.separator :: ws.map .plain)
  | w :: ws => do return (← classify w) :: (← classifyAll ws)

/-! ## Reading -/

/-- What was read so far. -/
structure State where
  options : Options := {}
  home : Option String := none
  /-- Is there a word that belongs nowhere? -/
  surplus : Bool := false

/-- The plain words at the front. -/
def plainRun : List Word → List String
  | .plain s :: ws => s :: plainRun ws
  | _ => []

/-- Does an option take values? -/
def Effect.takesValue : Effect → Bool
  | .one _ => true
  | .many _ => true
  | _ => false

/-- Options in one word: only the last may take a value, joined to it. -/
structure Cluster where
  front : List NamedOption := []
  last : NamedOption
  value : Option String := none

/-- Reads what is joined to an option: its value, or the next short name. -/
def readJoined (o : NamedOption) : List Char → Except Refusal Cluster
  | [] => .ok { last := o }
  | c :: cs =>
    if Effect.takesValue o.effect then .ok { last := o, value := some (String.ofList (c :: cs)) }
    else if o.name.startsWith "--" then .error .usage
    else
      match find? (String.ofList ['-', c]) with
      | none => .error .usage
      | some next => do
        let cluster ← readJoined next cs
        return { cluster with front := o :: cluster.front }

/-- The options of a word. -/
def readCluster (o : NamedOption) (value : Option String) : Except Refusal Cluster :=
  match value with
  | none => .ok { last := o }
  | some v =>
    if !v.isEmpty then readJoined o v.toList
    else if Effect.takesValue o.effect then .ok { last := o, value := some v }
    else .error .usage

/-- Applies an option that takes no value. -/
def applyPlain (options : Options) (o : NamedOption) : Except Refusal Options :=
  match o.effect with
  | .none f => .ok (f options)
  | .stop r => .error r
  | _ => .ok options

/-- The values of the last option of a word. -/
def valuesFor (o : NamedOption) (value : Option String) (ws : List Word) :
    Except Refusal (List String) :=
  match o.effect, value with
  | .one _, none =>
    match plainRun ws with
    | [] => .error .usage
    | v :: _ => .ok [v]
  | .many _, none => .ok (plainRun ws)
  | _, some v => .ok [v]
  | _, none => .ok []

/-- Applies an option to its values. -/
def applyOption (options : Options) (o : NamedOption) (values : List String) :
    Except Refusal Options :=
  match o.effect, values with
  | .one f, v :: _ => f v options
  | .many f, vs => .ok (f vs options)
  | _, _ => applyPlain options o

/-- Applies the options of a word; answers how many words they take. -/
def applyWord (o : NamedOption) (value : Option String) (ws : List Word) (options : Options) :
    Except Refusal (Options × Nat) := do
  let cluster ← readCluster o value
  let values ← valuesFor cluster.last cluster.value ws
  let options ← cluster.front.foldlM applyPlain options
  let options ← applyOption options cluster.last values
  return (options, if cluster.value.isSome then 0 else values.length)

/-- Reads the words one after the other. -/
def readWords (st : State) (ws : List Word) : Except Refusal State :=
  match ws with
  | [] => .ok st
  | .plain s :: .separator :: rest | .plain s :: rest | .separator :: .plain s :: rest =>
    if st.home.isNone then readWords { st with home := some s } rest
    else readWords { st with surplus := true } rest
  | .separator :: rest | .unknown :: rest => readWords { st with surplus := true } rest
  | .option o value :: rest => do
    let (options, n) ← applyWord o value rest st.options
    readWords { st with options } (rest.drop n)
termination_by ws.length

/-- The options that a command line gives. -/
def parse (args : List String) : Except Refusal Options := do
  let st ← readWords {} (← classifyAll args)
  match st.home with
  | some home => if st.surplus then throw .usage else return { st.options with home }
  | none => throw .usage

/-- The kinds of uses that are wanted, when at most one of them is wanted alone. -/
def settle? (o : Options) : Option Options :=
  let o := match o.detail with
    | some d => { o with detailFrom := d, detailTo := d }
    | none => o
  match o.callsOnly, o.fieldsOnly, o.macrosOnly with
  | false, false, false => some o
  | true, false, false => some { o with calls := true, fields := false, macros := false }
  | false, true, false => some { o with calls := false, fields := true, macros := false }
  | false, false, true => some { o with calls := false, fields := false, macros := true }
  | _, _, _ => none

end Options

/-- Is a use to be counted? -/
def Options.wantsUse (o : Options) (w : Workspace) (cb : Codebase) (u : Use) : Bool :=
  let kind := match u.kind with
    | .expansion => o.macros
    | .call => o.calls
    | .field => o.fields
  let fitsOne (filters : Option (List String)) (l : Location) : Bool :=
    (given filters).isEmpty || (given filters).any fun f => fitsLocation w cb f l
  (o.selection.unmodular || (!u.source.moduleName.isEmpty && !u.target.moduleName.isEmpty)) &&
    kind && fitsOne o.selection.sources u.source && fitsOne o.targets u.target &&
    (o.inner || u.source.moduleName != u.target.moduleName)

end CBoundary.Survey
