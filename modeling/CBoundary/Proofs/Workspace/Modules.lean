import CBoundary.Proofs.Code.Change
import CBoundary.Proofs.Path
import CBoundary.Proofs.Table

/-!
# The names of modules

A list of modules is accepted if no name, no directory and no alias of one kind comes up twice in
it.  Aliases are looked up first.  The directory of a module is never looked up: a file belongs to
the module by whose name its directory goes.
-/

namespace CBoundary

open List

namespace Workspace

variable {w w' : Workspace} {ms : List Module} {m : Module}
variable {dir path : String}

/-! ## Accepted lists -/

/-- The tables of a workspace hold the modules of a list, their aliases, and nothing else. -/
structure Lists (ms : List Module) (w : Workspace) : Prop where
  named : ∀ m ∈ ms, m.name ≠ ""
  modules : ∀ name m, w.modules.find? name = some m ↔ m ∈ ms ∧ m.name = name
  fileAliases : ∀ given name, w.fileAliases.find? given = some name ↔
    ∃ m ∈ ms, given ∈ m.fileAliases ∧ m.name = name
  sourceAliases : ∀ given name, w.sourceAliases.find? given = some name ↔
    ∃ m ∈ ms, given ∈ m.sourceAliases ∧ m.name = name

theorem exists_of_bind_eq_ok {α β : Type} {r : Except ModuleConflict α}
    {f : α → Except ModuleConflict β} {y : β} (h : r >>= f = .ok y) :
    ∃ x, r = .ok x ∧ f x = .ok y := by
  cases r with
  | error conflict => cases h
  | ok x => exact ⟨x, rfl, h⟩

theorem find?_of_enterAliases {step : Table String → String → Except ModuleConflict (Table String)}
    {name : String} (hfree : ∀ t given, t.find? given = none → step t given = .ok (t.insert given name))
    (htaken : ∀ t given owner, t.find? given = some owner → ∃ conflict, step t given = .error conflict)
    {aliases : List String} {t t' : Table String} (h : aliases.foldlM step t = .ok t')
    (given owner : String) :
    t'.find? given = some owner ↔ t.find? given = some owner ∨ given ∈ aliases ∧ name = owner := by
  induction aliases generalizing t with
  | nil =>
    cases h
    simp
  | cons first aliases ih =>
    rw [foldlM_cons] at h
    obtain ⟨t₁, hstep, hrest⟩ := exists_of_bind_eq_ok h
    cases hfirst : t.find? first with
    | some other =>
      obtain ⟨conflict, hconflict⟩ := htaken t first other hfirst
      rw [hconflict] at hstep
      cases hstep
    | none =>
      rw [hfree t first hfirst] at hstep
      cases hstep
      rw [ih hrest, Table.find?_insert]
      by_cases heq : given = first
      · subst heq
        simp [hfirst]
      · simp [heq]

theorem exists_of_addModule (h : w.addModule m = .ok w') :
    m.name ≠ "" ∧ w.modules.find? m.name = none ∧ w'.root = w.root ∧
      w'.modules = w.modules.insert m.name m ∧
      (∀ given owner, w'.fileAliases.find? given = some owner ↔
        w.fileAliases.find? given = some owner ∨ given ∈ m.fileAliases ∧ m.name = owner) ∧
      ∀ given owner, w'.sourceAliases.find? given = some owner ↔
        w.sourceAliases.find? given = some owner ∨ given ∈ m.sourceAliases ∧ m.name = owner := by
  unfold addModule at h
  cases hname : m.name.isEmpty with
  | true =>
    rw [hname] at h
    cases h
  | false =>
    cases hmodule : w.modules.contains m.name with
    | true =>
      rw [hname, hmodule] at h
      cases h
    | false =>
      cases hdir : w.dirs.find? m.dirname with
      | some owner =>
        rw [hname, hmodule, hdir] at h
        cases h
      | none =>
        rw [hname, hmodule, hdir] at h
        obtain ⟨fileAliases, hfile, h⟩ := exists_of_bind_eq_ok h
        obtain ⟨sourceAliases, hsource, h⟩ := exists_of_bind_eq_ok h
        cases h
        have hnew : w.modules.find? m.name = none := by
          rwa [Table.contains_eq, Option.isSome_eq_false_iff, Option.isNone_iff_eq_none] at hmodule
        refine ⟨String.isEmpty_eq_false_iff.mp hname, hnew, rfl, rfl, ?_, ?_⟩
        · refine find?_of_enterAliases (fun t given ht => ?_) (fun t given owner ht => ?_) hfile
          · rw [ht]
            rfl
          · rw [ht]
            exact ⟨_, rfl⟩
        · refine find?_of_enterAliases (fun t given ht => ?_) (fun t given owner ht => ?_) hsource
          · rw [ht]
            rfl
          · rw [ht]
            exact ⟨_, rfl⟩

theorem Lists.addModule (hw : w.Lists ms) (h : w.addModule m = .ok w') : w'.Lists (ms ++ [m]) := by
  obtain ⟨hname, hnew, -, hmodules, hfile, hsource⟩ := exists_of_addModule h
  refine ⟨fun x hx => ?_, fun name x => ?_, fun given name => ?_, fun given name => ?_⟩
  · rcases mem_append.mp hx with hx | hx
    · exact hw.named x hx
    · rwa [mem_singleton.mp hx]
  · rw [hmodules, Table.find?_insert, mem_append, mem_singleton]
    split
    · rename_i heq
      subst heq
      have hnone : ¬ (x ∈ ms ∧ x.name = m.name) := by
        rw [← hw.modules, hnew]
        exact nofun
      constructor
      · rintro ⟨⟩
        exact ⟨.inr rfl, rfl⟩
      · rintro ⟨hx | rfl, hxname⟩
        · exact absurd ⟨hx, hxname⟩ hnone
        · rfl
    · rename_i hne
      rw [hw.modules]
      constructor
      · exact fun hx => ⟨.inl hx.1, hx.2⟩
      · rintro ⟨hx | rfl, hxname⟩
        · exact ⟨hx, hxname⟩
        · exact absurd hxname.symm hne
  · rw [hfile, hw.fileAliases]
    simp [or_and_right, exists_or]
  · rw [hsource, hw.sourceAliases]
    simp [or_and_right, exists_or]

theorem lists_of_setModules (h : w.setModules ms = .ok w') : w'.Lists ms ∧ w'.root = w.root := by
  have hwalk : ∀ (rest done : List Module) (v v' : Workspace), v.Lists done →
      rest.foldlM Workspace.addModule v = .ok v' → v'.Lists (done ++ rest) ∧ v'.root = v.root := by
    intro rest
    induction rest with
    | nil =>
      intro done v v' hv hrun
      cases hrun
      rw [append_nil]
      exact ⟨hv, rfl⟩
    | cons m rest ih =>
      intro done v v' hv hrun
      rw [foldlM_cons] at hrun
      obtain ⟨v₁, hadd, hrest⟩ := exists_of_bind_eq_ok hrun
      obtain ⟨hlists, hroot⟩ := ih (done ++ [m]) v₁ v' (hv.addModule hadd) hrest
      rw [append_assoc] at hlists
      exact ⟨hlists, hroot.trans (exists_of_addModule hadd).2.2.1⟩
  have hstart : ({ root := w.root } : Workspace).Lists [] :=
    ⟨fun _ hm => absurd hm not_mem_nil, fun _ _ => by simp [Table.find?],
      fun _ _ => by simp [Table.find?], fun _ _ => by simp [Table.find?]⟩
  exact hwalk ms [] { root := w.root } w' hstart h

namespace Lists

theorem eq_of_name_eq (hw : w.Lists ms) {m' : Module} (hm : m ∈ ms) (hm' : m' ∈ ms)
    (h : m.name = m'.name) : m = m' := by
  have hfind := (hw.modules m'.name m).mpr ⟨hm, h⟩
  rw [(hw.modules m'.name m').mpr ⟨hm', rfl⟩] at hfind
  exact (Option.some.inj hfind).symm

theorem contains_iff (hw : w.Lists ms) (name : String) :
    w.modules.contains name = true ↔ ∃ m ∈ ms, m.name = name := by
  rw [Table.contains_eq, Option.isSome_iff_exists]
  exact exists_congr fun m => hw.modules name m

theorem contains_name (hw : w.Lists ms) (hm : m ∈ ms) : w.modules.contains m.name = true :=
  (hw.contains_iff m.name).mpr ⟨m, hm, rfl⟩

theorem fileAliases_eq_none (hw : w.Lists ms) (hfree : ∀ m ∈ ms, m.fileAliases = [])
    (given : String) : w.fileAliases.find? given = none := by
  refine Option.eq_none_iff_forall_ne_some.mpr fun owner hfind => ?_
  obtain ⟨m, hm, hgiven, -⟩ := (hw.fileAliases given owner).mp hfind
  rw [hfree m hm] at hgiven
  exact not_mem_nil hgiven

theorem getD_find?_name_iff (hw : w.Lists ms) {t : Table String} {aliasesOf : Module → List String}
    (ht : ∀ given name, t.find? given = some name ↔ ∃ m ∈ ms, given ∈ aliasesOf m ∧ m.name = name)
    (hm : m ∈ ms) :
    (t.find? m.name).getD m.name = m.name ↔ ∀ m' ∈ ms, m.name ∈ aliasesOf m' → m' = m := by
  constructor
  · intro howner m' hm' hgiven
    have hfind := (ht m.name m'.name).mpr ⟨m', hm', hgiven, rfl⟩
    rw [hfind] at howner
    exact hw.eq_of_name_eq hm' hm howner
  · intro hall
    cases hfind : t.find? m.name with
    | none => rfl
    | some owner =>
      obtain ⟨m', hm', hgiven, rfl⟩ := (ht m.name owner).mp hfind
      rw [hall m' hm' hgiven]
      rfl

end Lists

/-! ## Directories -/

/-- The file lies below `src/` in the directory of that name, which is not that of the headers. -/
def Below (w : Workspace) (dir path : String) : Prop :=
  '/' ∉ dir.toList ∧ dir ≠ "include" ∧ ∃ rest, path = Path.join w.root "src/" ++ (dir ++ "/" ++ rest)

theorem headD_parts_append_slash (front rest : String) :
    (Path.parts (front ++ "/" ++ rest)).headD "" = (Path.parts front).headD "" := by
  have hne : Path.parts front ≠ [] := by simp [Path.parts_eq, splitOn_ne_nil]
  rw [Path.parts_append_slash, headD_eq_head?_getD, head?_append_of_ne_nil _ hne,
    ← headD_eq_head?_getD]

theorem moduleWord_join (w : Workspace) {front rest : String}
    (h : (Path.parts front).headD "" ≠ "include") :
    w.moduleWord (Path.join w.root "src/" ++ (front ++ "/" ++ rest)) =
      (Path.parts front).headD "" := by
  have hstarts : (Path.join w.root "src/" ++ (front ++ "/" ++ rest)).startsWith
      (Path.join w.root "src/") = true := by
    rw [String.startsWith_string_iff, String.toList_append]
    exact prefix_append _ _
  have hdrop : ((Path.join w.root "src/" ++ (front ++ "/" ++ rest)).drop
      (Path.join w.root "src/").length).toString = front ++ "/" ++ rest := by
    rw [← String.toList_inj]
    simp [← String.length_toList]
  have hother : (front ++ "/" ++ rest).startsWith "include/" = false := by
    rw [String.startsWith_string_eq_false_iff]
    rintro ⟨tail, htail⟩
    have heq : front ++ "/" ++ rest = "include" ++ "/" ++ String.ofList tail := by
      rw [← String.toList_inj, ← htail]
      simp
    apply h
    rw [← headD_parts_append_slash front rest, heq, headD_parts_append_slash,
      Path.parts_of_slashless (by decide)]
    rfl
  unfold moduleWord
  dsimp only
  rw [hstarts, hdrop, hother]
  exact headD_parts_append_slash front rest

theorem moduleWord_of_below (h : w.Below dir path) : w.moduleWord path = dir := by
  obtain ⟨hslash, hinclude, rest, rfl⟩ := h
  have hfirst : (Path.parts dir).headD "" = dir := by
    rw [Path.parts_of_slashless hslash]
    rfl
  rw [moduleWord_join w (by rwa [hfirst]), hfirst]

theorem moduleOfFile_of_below (h : w.Below dir path) (hdir : dir ≠ "") : w.moduleOfFile path =
      if w.modules.contains ((w.fileAliases.find? dir).getD dir) then
        (w.fileAliases.find? dir).getD dir
      else "" := by
  rw [moduleOfFile, moduleWord_of_below h, String.isEmpty_eq_false_iff.mpr hdir]
  rfl

theorem Lists.moduleOfFile_alias_iff (hw : w.Lists ms) (hm : m ∈ ms) {given : String}
    (hgiven : given ∈ m.fileAliases) (h : w.Below given path) :
    w.moduleOfFile path = m.name ↔ given ≠ "" := by
  have hfind := (hw.fileAliases given m.name).mpr ⟨m, hm, hgiven, rfl⟩
  constructor
  · rintro heq rfl
    rw [moduleOfFile, moduleWord_of_below h] at heq
    exact hw.named m hm heq.symm
  · intro hne
    rw [moduleOfFile_of_below h hne, hfind, Option.getD_some, if_pos (hw.contains_name hm)]

theorem Lists.moduleOfFile_name_iff (hw : w.Lists ms) (hm : m ∈ ms) (h : w.Below m.name path) :
    w.moduleOfFile path = m.name ↔ ∀ m' ∈ ms, m.name ∈ m'.fileAliases → m' = m := by
  rw [moduleOfFile_of_below h (hw.named m hm), ← hw.getD_find?_name_iff hw.fileAliases hm]
  constructor
  · intro heq
    split at heq
    · exact heq
    · exact absurd heq.symm (hw.named m hm)
  · intro howner
    rw [howner, if_pos (hw.contains_name hm)]

end Workspace

/-! ## Identifiers -/

namespace Visibility

variable {w : Workspace} {ms : List Module} {m : Module}
variable {word : String} {thing : Details}

theorem leadingName?_eq {names : List String} {s : List Char} (hmem : word ∈ names)
    (hfits : word.toList ++ ['_'] <+: s)
    (hlongest : ∀ other ∈ names, other.toList ++ ['_'] <+: s → other.length ≤ word.length) :
    leadingName? names s = some word := by
  obtain ⟨hbest, hall⟩ := Table.foldl_longest (fun n => (n.toList ++ ['_']).isPrefixOf s) names rfl
  obtain ⟨b, hb, hle⟩ := hall word hmem (List.isPrefixOf_iff_prefix.mpr hfits)
  obtain ⟨hname, hbfits⟩ := hbest b hb
  rw [List.isPrefixOf_iff_prefix] at hbfits
  have hlength : b.length = word.length := Nat.le_antisymm (hlongest b hname hbfits) hle
  have hsame : b.toList ++ ['_'] = word.toList ++ ['_'] :=
    (prefix_of_prefix_length_le hbfits hfits (by simp [String.length_toList, hlength])).eq_of_length
      (by simp [String.length_toList, hlength])
  rw [leadingName?, ← String.toList_inj.mp (append_cancel_right hsame)]
  exact hb

/-- A name without an annotation goes on, behind one of the two leads, with a word and an
underscore, and no longer name or alias fits. -/
structure Says (w : Workspace) (thing : Details) (word : String) : Prop where
  silent : annotationOf? thing = none
  form : ∃ lead ∈ ["__wt_", "__wti_"], ∃ rest, thing.name.value = lead ++ (word ++ "_" ++ rest) ∧
    ∀ other ∈ w.sourceNames, (other ++ "_").toList <+: (word ++ "_" ++ rest).toList →
      other.length ≤ word.length

theorem Says.word_eq (h : Says w thing word) (hword : word ∈ w.sourceNames) :
    (nameForm? w thing.name.value).bind NameForm.word = some word := by
  obtain ⟨lead, hlead, rest, hname, hlongest⟩ := h.form
  have hleading : leadingName? w.sourceNames (word ++ "_" ++ rest).toList = some word := by
    refine leadingName?_eq hword ⟨rest.toList, by simp⟩ fun other hother hfits => ?_
    exact hlongest other hother (by simpa using hfits)
  rw [hname]
  unfold nameForm?
  rcases mem_cons.mp hlead with rfl | hlead
  · have hlength : "__wt_".length = 5 := rfl
    simpa [hlength] using hleading
  · obtain rfl := mem_singleton.mp hlead
    have hlength : "__wti_".length = 6 := rfl
    simpa [findSome?, hlength] using hleading

theorem Says.moduleName_verdict (h : Says w thing word) (hword : word ∈ w.sourceNames)
    (isPrivate : Option Bool) (isNested : Bool) :
    (verdict w thing isPrivate "" isNested).moduleName =
      if word = "" then "" else (w.sourceAliases.find? word).getD word := by
  rw [verdict, h.silent]
  dsimp only
  rw [if_pos (by simp), moduleByName, h.word_eq hword]
  simp

theorem moduleName_alias_iff (hw : w.Lists ms) (hm : m ∈ ms) {given : String}
    (hgiven : given ∈ m.sourceAliases) (h : Says w thing given) (isPrivate : Option Bool)
    (isNested : Bool) :
    (verdict w thing isPrivate "" isNested).moduleName = m.name ↔ given ≠ "" := by
  have hfind := (hw.sourceAliases given m.name).mpr ⟨m, hm, hgiven, rfl⟩
  have hmem : given ∈ w.sourceNames :=
    mem_append_right _ (Table.mem_keys_iff.mpr (by rw [hfind]; exact nofun))
  rw [h.moduleName_verdict hmem, hfind, Option.getD_some]
  constructor
  · intro heq hempty
    rw [if_pos hempty] at heq
    exact hw.named m hm heq.symm
  · intro hne
    rw [if_neg hne]

theorem moduleName_name_iff (hw : w.Lists ms) (hm : m ∈ ms) (h : Says w thing m.name)
    (isPrivate : Option Bool) (isNested : Bool) :
    (verdict w thing isPrivate "" isNested).moduleName = m.name ↔
      ∀ m' ∈ ms, m.name ∈ m'.sourceAliases → m' = m := by
  have hfind := (hw.modules m.name m).mpr ⟨hm, rfl⟩
  have hmem : m.name ∈ w.sourceNames :=
    mem_append_left _ (Table.mem_keys_iff.mpr (by rw [hfind]; exact nofun))
  rw [h.moduleName_verdict hmem, if_neg (hw.named m hm), hw.getD_find?_name_iff hw.sourceAliases hm]

end Visibility

namespace Workspace

/-- In an accepted list of modules an alias, unless empty, leads to its module, and a module's name
to it exactly if it is no alias of another: for identifiers, where the file has no module, as for
directories. -/
theorem setModules_resolves_iff {w w' : Workspace} {ms : List Module} (h : w.setModules ms = .ok w')
    {m : Module} (hm : m ∈ ms) :
    (∀ (c : Context) (thing : Details) (isPrivate : Option Bool) (isNested : Bool), c.workspace = w' →
      (∀ given ∈ m.sourceAliases, Visibility.Says w' thing given →
        ((Visibility.decide c thing isPrivate "" isNested).start.1.map (·.moduleName) = .ok m.name ↔
          given ≠ "")) ∧
      (Visibility.Says w' thing m.name →
        ((Visibility.decide c thing isPrivate "" isNested).start.1.map (·.moduleName) = .ok m.name ↔
          ∀ m' ∈ ms, m.name ∈ m'.sourceAliases → m' = m))) ∧
    ∀ path : String,
      (∀ given ∈ m.fileAliases, w'.Below given path → (w'.moduleOfFile path = m.name ↔ given ≠ "")) ∧
      (w'.Below m.name path →
        (w'.moduleOfFile path = m.name ↔ ∀ m' ∈ ms, m.name ∈ m'.fileAliases → m' = m)) := by
  obtain ⟨hlists, -⟩ := lists_of_setModules h
  refine ⟨fun c thing isPrivate isNested hc => ?_, fun path =>
    ⟨fun given hgiven hbelow => hlists.moduleOfFile_alias_iff hm hgiven hbelow,
      fun hbelow => hlists.moduleOfFile_name_iff hm hbelow⟩⟩
  have hanswer := (Visibility.answers_decide c thing isPrivate "" isNested).start_fst
  rw [hc] at hanswer
  have hmodule : ∀ name : String,
      (Visibility.decide c thing isPrivate "" isNested).start.1.map (·.moduleName) = .ok name ↔
        (Visibility.verdict w' thing isPrivate "" isNested).moduleName = name := by
    intro name
    rw [hanswer, Except.map, Except.ok.injEq]
  refine ⟨fun given hgiven hsays => ?_, fun hsays => ?_⟩
  · rw [hmodule, Visibility.moduleName_alias_iff hlists hm hgiven hsays]
  · rw [hmodule, Visibility.moduleName_name_iff hlists hm hsays]

/-- One module has the name of the other as an alias. -/
def packing : List Module := [.make "packing" "" ["pack"] ["pack"], .make "pack" "" [] []]

/-- The workspace of both. -/
def packingTables : Workspace where
  root := "."
  modules := ⟨packing.map fun m => (m.name, m)⟩
  dirs := ⟨packing.map fun m => (m.dirname, m.name)⟩
  fileAliases := ⟨[("pack", "packing")]⟩
  sourceAliases := ⟨[("pack", "packing")]⟩

/-- A variable named for the second module. -/
def packInt : Details := .var { name := ⟨0, ⟨0, 13⟩, "__wt_pack_int", none⟩, type := none }

/-- The list is accepted, and the second module loses its identifiers and its directory. -/
theorem setModules_resolves_iff_packing :
    ({ root := "." } : Workspace).setModules packing = .ok packingTables ∧
      (Visibility.decide { workspace := packingTables } packInt none "" false).start.1.map
        (·.moduleName) ≠ .ok "pack" ∧
      packingTables.moduleOfFile "./src/pack/a.c" ≠ "pack" := by
  have haccepted : ({ root := "." } : Workspace).setModules packing = .ok packingTables := rfl
  have hpack : Module.make "pack" "" [] [] ∈ packing := by decide
  obtain ⟨hthing, hpath⟩ := setModules_resolves_iff haccepted hpack
  refine ⟨haccepted, fun hgiven => ?_, fun hgiven => ?_⟩
  · have hsays : Visibility.Says packingTables packInt "pack" :=
      ⟨by decide, "__wt_", by decide, "int", by decide, by decide⟩
    have hall := ((hthing { workspace := packingTables } packInt none false rfl).2 hsays).mp hgiven
    exact absurd (hall (.make "packing" "" ["pack"] ["pack"])) (by decide)
  · have hbelow : packingTables.Below "pack" "./src/pack/a.c" :=
      ⟨by decide, by decide, "a.c", by decide +kernel⟩
    have hall := ((hpath "./src/pack/a.c").2 hbelow).mp hgiven
    exact absurd (hall (.make "packing" "" ["pack"] ["pack"])) (by decide)

/-! ## The directory of a module -/

/-- The directory that a module gives as its own has no part in which files are its. A file goes to
the module named as the first part of the directory, if there is one. -/
theorem setModules_directory_iff {w w' : Workspace} {ms : List Module}
    (h : w.setModules ms = .ok w') (hfree : ∀ m ∈ ms, m.fileAliases = []) {m : Module} (hm : m ∈ ms)
    (hdir : (Path.parts m.dirname).headD "" ≠ "include") (rest : String) :
    let file := w'.moduleOfFile (Path.join w.root "src/" ++ (m.dirname ++ "/" ++ rest))
    let first := (Path.parts m.dirname).headD ""
    (file = m.name ↔ first = m.name) ∧
      ((∃ m' ∈ ms, m'.name = first) → file = first) ∧
        ((∀ m' ∈ ms, m'.name ≠ first) → file = "") := by
  intro file first
  obtain ⟨hlists, hroot⟩ := lists_of_setModules h
  have hword : w'.moduleWord (Path.join w.root "src/" ++ (m.dirname ++ "/" ++ rest)) = first := by
    rw [← hroot]
    exact moduleWord_join w' hdir
  have hfile : file = if !first.isEmpty && w'.modules.contains first then first else "" := by
    unfold file moduleOfFile
    dsimp only
    rw [hword, hlists.fileAliases_eq_none hfree, Option.getD_none]
  have hknown : (∃ m' ∈ ms, m'.name = first) → file = first := by
    rintro ⟨m', hm', hname⟩
    have hne : first.isEmpty = false :=
      String.isEmpty_eq_false_iff.mpr (hname ▸ hlists.named m' hm')
    rw [hfile, hne, (hlists.contains_iff first).mpr ⟨m', hm', hname⟩]
    rfl
  have hunknown : (∀ m' ∈ ms, m'.name ≠ first) → file = "" := by
    intro hall
    have hnone : w'.modules.contains first = false := by
      rw [← Bool.not_eq_true, hlists.contains_iff]
      rintro ⟨m', hm', hname⟩
      exact hall m' hm' hname
    rw [hfile, hnone, Bool.and_false]
    rfl
  refine ⟨⟨fun heq => ?_, fun heq => ?_⟩, hknown, hunknown⟩
  · by_cases hsome : ∃ m' ∈ ms, m'.name = first
    · rw [← hknown hsome, heq]
    · rw [hunknown fun m' hm' hname => hsome ⟨m', hm', hname⟩] at heq
      exact absurd heq.symm (hlists.named m hm)
  · rw [hknown ⟨m, hm, heq.symm⟩, heq]

/-- The module `aa` has the directory `bb`, in which no file belongs to a module. -/
theorem setModules_directory_iff_unequal :
    ∃ w', ({ root := "." } : Workspace).setModules [.make "aa" "bb" [] []] = .ok w' ∧
      w'.moduleOfFile "./src/bb/x.c" = "" := by
  have hparts : Path.parts "bb" = ["bb"] := Path.parts_of_slashless (by decide)
  have hdir : (Path.parts (Module.make "aa" "bb" [] []).dirname).headD "" ≠ "include" := by
    rw [Module.make, if_neg (by decide), hparts]
    decide
  have hpath : Path.join "." "src/" ++ ("bb" ++ "/" ++ "x.c") = "./src/bb/x.c" := by decide +kernel
  refine ⟨_, rfl, hpath ▸ ?_⟩
  have hfile := (setModules_directory_iff (w := { root := "." }) rfl (by decide)
    (mem_singleton.mpr rfl) hdir "x.c").2.2
  refine hfile fun m' hm' => ?_
  rw [mem_singleton.mp hm']
  rw [Module.make, if_neg (by decide), hparts]
  decide

end Workspace

end CBoundary
