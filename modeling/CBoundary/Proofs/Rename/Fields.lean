import CBoundary.Proofs.Access.Fields
import CBoundary.Proofs.Code.Bodies
import CBoundary.Proofs.Rename.Replace

/-!
# What renaming does to files

The accesses that the analysis resolves to a field with a new name are the renamings.  Every
renaming of a file makes a patch, and the patches of the file are applied together; if the file goes
by several names, only the patches under one of them are.
-/

namespace CBoundary

open Text List

/-! ## Words of a text -/

namespace AccessChain

variable {s w : List Char} {i : Int}

theorem MemberAt.wordAt_getElem? (h : MemberAt s i w) :
    ∃ n : Nat, i = n + 1 ∧ wordAt s[n]? = false ∧
      (∀ k, n < k → k ≤ n + w.length → wordAt s[k]? = true) ∧
      wordAt s[n + 1 + w.length]? = false ∧ n + 1 + w.length ≤ s.length := by
  obtain ⟨front, mark, rear, rfl, rfl, hmark, hrear⟩ := h.place
  refine ⟨front.length, rfl, ?_, fun k hlow hhigh => ?_, ?_, ?_⟩
  · rw [getElem?_append_right (Nat.le_refl _), Nat.sub_self]
    rcases hmark with rfl | rfl <;> rfl
  · rw [getElem?_append_right (by omega),
      show k - front.length = k - front.length - 1 + 1 by omega, getElem?_cons_succ,
      getElem?_append_left (by omega), getElem?_eq_getElem
        (show k - front.length - 1 < w.length by omega)]
    exact h.word _ (getElem_mem _)
  · rw [getElem?_append_right (by omega), show front.length + 1 + w.length - front.length =
      w.length + 1 by omega, getElem?_cons_succ, getElem?_append_right (Nat.le_refl _),
      Nat.sub_self, ← head?_eq_getElem?]
    exact hrear
  · simp only [length_append, length_cons]
    omega

theorem MemberAt.slice_eq (h : MemberAt s i w) : slice s i (i + w.length) = w := by
  obtain ⟨front, mark, rear, rfl, rfl, -, -⟩ := h.place
  refine StandsAt.slice_eq ⟨front ++ [mark], rear, ?_, ?_⟩
  · rw [append_assoc]
    rfl
  · rw [length_append]
    rfl

theorem MemberAt.apart {w' : List Char} {j : Int} (h : MemberAt s i w) (h' : MemberAt s j w') :
    (i = j ∧ w.length = w'.length) ∨ i + w.length ≤ j ∨ j + w'.length ≤ i := by
  obtain ⟨n, rfl, hbefore, hword, hbehind, -⟩ := h.wordAt_getElem?
  obtain ⟨m, rfl, hbefore', hword', hbehind', -⟩ := h'.wordAt_getElem?
  rcases Nat.lt_trichotomy n m with hlt | rfl | hgt
  · -- what is before the second word is no part of the first
    refine .inr (.inl (Int.not_lt.mp fun hmeet => Bool.false_ne_true ?_))
    exact hbefore'.symm.trans (hword m hlt (by omega))
  · refine .inl ⟨rfl, ?_⟩
    rcases Nat.lt_trichotomy w.length w'.length with hshort | heq | hlong
    · cases hbehind.symm.trans (hword' (n + 1 + w.length) (by omega) (by omega))
    · exact heq
    · cases hbehind'.symm.trans (hword (n + 1 + w'.length) (by omega) (by omega))
  · refine .inr (.inr (Int.not_lt.mp fun hmeet => Bool.false_ne_true ?_))
    exact hbefore.symm.trans (hword' n hgt (by omega))

end AccessChain

namespace Rename

open Audit Checker Codebase

variable {cb : Codebase} {table : RenameTable} {d : Definition}
  {texts : Texts} {paths : List String} {k : Checker} {w : List Char}
  {α : Type} {edits : List Edit} {file : String}

/-! ## Renamings -/

/-- An access to a field with a new name: the function, the field, where it stands in the body, and
the name. -/
structure Renaming where
  source : Definition
  field : String
  span : Span
  newName : String

namespace Renaming

/-- The patch for a renaming. -/
def patch (r : Renaming) : Patch :=
  let start := r.source.scope.offset + r.source.body.span.start
  ⟨⟨start + r.span.start, start + r.span.stop⟩, r.newName⟩

/-- The patch for a file; the offset of the function's scope does not count, and there is none if
the field does not stand there. -/
def made? (s : List Char) (r : Renaming) : Option Patch :=
  let body := r.source.body
  let range : Span := ⟨r.span.start + body.span.start, r.span.stop + body.span.start⟩
  if String.ofList (slice body.chars r.span.start r.span.stop) = r.field ∧
      r.field = String.ofList (slice s range.start range.stop) then
    some ⟨range, r.newName⟩
  else none

end Renaming

/-- The renaming that an event is, if any. -/
def renaming? (cb : Codebase) (table : RenameTable) (e : AccessEvent) : Option Renaming :=
  match e.access with
  | .field _ type field span =>
    ((table.find? (cb.untypedef type)).bind fun t => t.find? field).map fun newName =>
      ⟨e.source, field, span, newName⟩
  | _ => none

/-- The renamings in a function: all accesses to a field with a new name. -/
def renamingsIn (k : Checker) (table : RenameTable) (d : Definition) : List Renaming :=
  (k.eventsIn d).filterMap (renaming? k.codebase table)

/-- The renamings in the functions of a file. -/
def renamings (cb : Codebase) (table : RenameTable) (file : String) : List Renaming :=
  let k := Checker.ofCodebase cb
  ((functions k.codebase).filter fun d => d.scope.file.name == file).flatMap (renamingsIn k table)

/-- The text of a file as it is read. -/
def textOf (tree : FileTree) (file : String) : List Char :=
  unifyLineBreaks ((tree.find? file).getD "").toList

/-- The edit that is made for a renaming. -/
def Renaming.edit (tree : FileTree) (r : Renaming) : Edit :=
  let file := r.source.scope.file.name
  ⟨file, r.made? (textOf tree file)⟩

/-- What renaming makes of an event. -/
def editsOf (cb : Codebase) (tree : FileTree) (table : RenameTable) (e : AccessEvent) : List Edit :=
  ((renaming? cb table e).map (Renaming.edit tree)).toList

theorem answers_renameAccess (d : Definition) (text : List Char) (chain : AccessChain)
    (type field newName : String) (span : Span) :
    Answers (renameAccess d text chain type field newName span)
      (.ok ((⟨d, field, span, newName⟩ : Renaming).made? text)) := by
  unfold renameAccess Renaming.made?
  dsimp only
  split
  · rename_i hmismatch
    rw [if_neg fun h => by simp [h.1, ← h.2] at hmismatch]
    exact (answers_trace _ _ _).bind_pure
  · rename_i hmatch
    simp only [Bool.or_eq_true, bne_iff_ne, ne_eq, not_or, Decidable.not_not] at hmatch
    rw [if_pos hmatch]
    exact (answers_record _).bind_pure

theorem reads_renameEvent {tree : FileTree} (hfile : tree.find? d.scope.file.name ≠ none) :
    Reads (renameEvent cb tree table) (editsOf cb tree table) d := by
  obtain ⟨text, htext⟩ := Option.ne_none_iff_exists'.mp hfile
  intro a
  cases a with
  | field chain type field span =>
    unfold renameEvent editsOf renaming?
    dsimp only
    cases (table.find? (cb.untypedef type)).bind fun t => t.find? field with
    | none => exact answers_pure _
    | some newName =>
      rw [htext]
      refine (answers_renameAccess _ _ _ _ _ _ _).bind_ok ?_
      have htextOf : textOf tree d.scope.file.name = unifyLineBreaks text.toList := by
        rw [textOf, htext]
        rfl
      rw [Option.map_some, Option.map_some, Renaming.edit, htextOf]
      exact answers_pure _
  | _ => exact answers_pure _

/-! ## Where renamings stand -/

/-- The field stands in the body of the function, and in the text of the function's file. -/
structure Renaming.Stands (texts : Texts) (paths : List String) (r : Renaming) : Prop where
  file : r.source.scope.file.name ∈ paths
  inBody : AccessChain.Named r.source.body.chars 0 (r.field, r.span)
  inFile : ∃ text, texts r.source.scope.file.name = some text ∧
    AccessChain.MemberAt text r.patch.span.start r.field.toList

theorem exists_of_renaming? {e : AccessEvent} {r : Renaming} (h : renaming? cb table e = some r) :
    r.source = e.source ∧ (∃ chain type, e.access = .field chain type r.field r.span) ∧
      ∃ t ∈ table.values, t.find? r.field = some r.newName := by
  unfold renaming? at h
  split at h
  · rename_i chain type field span haccess
    obtain ⟨newName, hname, rfl⟩ := Option.map_eq_some_iff.mp h
    obtain ⟨t, ht, hfind⟩ := Option.bind_eq_some_iff.mp hname
    exact ⟨rfl, ⟨chain, type, haccess⟩, t, Table.mem_values_of_find? ht, hfind⟩
  · cases h

theorem stands_of_mem_renamingsIn (hd : d.BodyInPlace texts paths) {r : Renaming}
    (hr : r ∈ renamingsIn k table d) : r.source = d ∧ r.Stands texts paths := by
  obtain ⟨e, he, hrenaming⟩ := mem_filterMap.mp hr
  obtain ⟨f, body, hf, hbody, hsource, hinBody⟩ := inBody_of_mem_eventsIn he
  obtain ⟨hsame, ⟨chain, type, haccess⟩, -⟩ := exists_of_renaming? hrenaming
  have hd' : r.source = d := hsame.trans hsource
  have hnamed := hinBody chain type _ _ haccess
  obtain ⟨hfile, text, htext, hplace⟩ := hd f body hf hbody
  have hsourceBody : r.source.body = body := by
    rw [hd', Definition.body, hf]
    exact congrArg (Option.getD · .empty) hbody
  refine ⟨hd', by rwa [hd'], by rwa [hsourceBody], text, by rwa [hd'], ?_⟩
  have hmember := hnamed.1.of_standsAt hplace (by decide)
  show AccessChain.MemberAt text
    (r.source.scope.offset + r.source.body.span.start + r.span.start) _
  rw [hsourceBody, hd']
  rwa [Int.sub_zero] at hmember

namespace Renaming.Stands

variable {r q : Renaming} {s : List Char}

variable (h : r.Stands texts paths)

include h

theorem member (hs : texts r.source.scope.file.name = some s) :
    AccessChain.MemberAt s r.patch.span.start r.field.toList := by
  obtain ⟨text, htext, hmember⟩ := h.inFile
  cases Option.some.inj (htext.symm.trans hs)
  exact hmember

theorem patch_stop : r.patch.span.stop = r.patch.span.start + r.field.toList.length := by
  have hstop : r.span.stop = r.span.start + r.field.toList.length := h.inBody.2
  show _ + r.span.stop = _ + r.span.start + _
  omega

variable (hs : texts r.source.scope.file.name = some s)

include hs

theorem slice_eq : slice s r.patch.span.start r.patch.span.stop = r.field.toList := by
  rw [h.patch_stop]
  exact (h.member hs).slice_eq

theorem fits : r.patch.Fits s := by
  have hmember := h.member hs
  have hpos := length_pos_iff.mpr hmember.nonempty
  obtain ⟨n, hn, -, -, -, hle⟩ := hmember.wordAt_getElem?
  have hstop := h.patch_stop
  exact ⟨by omega, by omega, by omega⟩

theorem apart (hq : q.Stands texts paths) (hqs : texts q.source.scope.file.name = some s) :
    r.patch.Apart q.patch := by
  have hstop := h.patch_stop
  have hqstop := hq.patch_stop
  rcases (h.member hs).apart (hq.member hqs) with ⟨hstart, hlength⟩ | hbefore | hbehind
  · refine .inl ?_
    have hsame : r.patch.span.stop = q.patch.span.stop := by rw [hstop, hqstop, hstart, hlength]
    exact congrArg₂ Span.mk hstart hsame
  · exact .inr (.inl (by omega))
  · exact .inr (.inr (by omega))

theorem made?_eq (hoffset : r.source.scope.offset = 0) : r.made? s = some r.patch := by
  have hrange : r.patch.span = ⟨r.span.start + r.source.body.span.start,
      r.span.stop + r.source.body.span.start⟩ :=
    congrArg₂ Span.mk (by omega) (by omega)
  have hinBody : slice r.source.body.chars r.span.start r.span.stop = r.field.toList := by
    have hstop : r.span.stop = r.span.start + r.field.toList.length := h.inBody.2
    have hslice := h.inBody.1.slice_eq
    rw [Int.sub_zero] at hslice
    rwa [hstop]
  have hinFile := h.slice_eq hs
  rw [hrange] at hinFile
  unfold made?
  dsimp only
  rw [hinBody, hinFile, String.ofList_toList, if_pos ⟨rfl, rfl⟩, ← hrange]
  rfl

end Renaming.Stands

/-! ## No function is left out -/

theorem isWordAt_of_memberAt {mark : Char} {rear : List Char} (hmark : wordAt (some mark) = false)
    (hne : w ≠ []) (hw : ∀ c ∈ w, isWordChar c = true) (hrear : wordAt rear.head? = false) :
    isWordAt (some mark) (w ++ rear) w = true := by
  obtain ⟨d, hd⟩ := Option.ne_none_iff_exists'.mp fun h => hne (getLast?_eq_none_iff.mp h)
  have hlast : wordAt (some d) = true := hw d (mem_of_getLast? hd)
  have hfirst : wordAt (w ++ rear).head? = true := by
    obtain ⟨c, cs, rfl⟩ := exists_cons_of_ne_nil hne
    exact hw c mem_cons_self
  unfold isWordAt isBoundary
  rw [hd, drop_left, hmark, hfirst, hlast, hrear,
    isPrefixOf_iff_prefix.mpr (prefix_append w rear)]
  rfl

theorem mentionsFrom_of_memberAt {names : List (List Char)} {s : List Char} {i : Int}
    (h : AccessChain.MemberAt s i w) (hw : w ∈ names) (before : Option Char) :
    mentionsFrom names before s = true := by
  have hne := h.nonempty
  have hword := h.word
  obtain ⟨front, mark, rear, rfl, -, hmark, hrear⟩ := h.place
  clear h
  induction front generalizing before with
  | cons c front ih => rw [cons_append, mentionsFrom, ih, Bool.or_true]
  | nil =>
    have hmarkWord : wordAt (some mark) = false := by rcases hmark with rfl | rfl <;> rfl
    have hany := any_eq_true.mpr ⟨w, hw, isWordAt_of_memberAt hmarkWord hne hword hrear⟩
    obtain ⟨c, cs, rfl⟩ := exists_cons_of_ne_nil hne
    rw [cons_append] at hany
    rw [nil_append, mentionsFrom, cons_append, mentionsFrom, hany, Bool.true_or,
      Bool.or_true]

theorem isCandidate_of_mem_renamingsIn (hd : d.BodyInPlace texts paths) {r : Renaming}
    (hr : r ∈ renamingsIn k table d) :
    (!d.body.chars.isEmpty && mentions table d.body.chars) = true := by
  obtain ⟨rfl, hstands⟩ := stands_of_mem_renamingsIn hd hr
  obtain ⟨e, -, hrenaming⟩ := mem_filterMap.mp hr
  obtain ⟨-, -, t, ht, hfind⟩ := exists_of_renaming? hrenaming
  have hmember := hstands.inBody.1
  have hnames : r.field.toList ∈ table.values.flatMap fun t => t.keys.map String.toList := by
    refine mem_flatMap.mpr ⟨t, ht, mem_map_of_mem (Table.mem_keys_iff.mpr ?_)⟩
    rw [hfind]
    exact Option.some_ne_none _
  have hbody : r.source.body.chars.isEmpty = false := by
    obtain ⟨front, mark, rear, hs, -⟩ := hmember.place
    rw [hs, isEmpty_eq_false_iff]
    simp
  have hsome : (table.values.flatMap fun t => t.keys.map String.toList).isEmpty = false :=
    isEmpty_eq_false_iff.mpr (ne_nil_of_mem hnames)
  unfold mentions
  dsimp only
  rw [hbody, hsome]
  exact mentionsFrom_of_memberAt hmember hnames none

theorem flatMap_filter_eq {β : Type} {p : α → Bool} {f : α → List β} {l : List α}
    (h : ∀ x ∈ l, f x ≠ [] → p x = true) : (l.filter p).flatMap f = l.flatMap f := by
  induction l with
  | nil => rfl
  | cons x l ih =>
    have hrest := ih fun y hy => h y (mem_cons_of_mem x hy)
    rw [filter_cons]
    cases hp : p x with
    | true => rw [if_pos rfl, flatMap_cons, flatMap_cons, hrest]
    | false =>
      have hx : f x = [] := Decidable.byContradiction fun hne => by
        rw [h x mem_cons_self hne] at hp
        cases hp
      rw [if_neg (by decide), flatMap_cons, hx, hrest, nil_append]

variable {tree : FileTree}

theorem answers_renameFields (table : RenameTable)
    (hcb : cb.finalize.FunctionsAre (Definition.BodyInPlace (textsOf tree) paths)) :
    ∃ r, Answers (renameFields cb tree table) r ∧
      (r.isOk = true ↔ ∀ d ∈ candidates cb.finalize table, (Checker.ofCodebase cb).Analyzes d) ∧
      ∀ x, r = .ok x → x.2 = (functions cb.finalize).flatMap fun d =>
        (renamingsIn (Checker.ofCodebase cb) table d).map (Renaming.edit tree) := by
  have hplace {d : Definition} (hd : d ∈ functions cb.finalize) :
      d.BodyInPlace (textsOf tree) paths := hcb.of_mem hd
  have hreads : ∀ d ∈ candidates cb.finalize table,
      ReadsBody (renameEvent cb.finalize tree table) (editsOf cb.finalize tree table) d := by
    intro d hd f body hf hbody
    obtain ⟨-, text, htext, -⟩ := hplace (mem_filter.mp hd).1 f body hf hbody
    refine ⟨reads_renameEvent fun hnone => ?_, fun _ => rfl, fun _ _ => rfl, fun _ => rfl⟩
    rw [textsOf, hnone] at htext
    cases htext
  have hreadOff (d : Definition) : readOff (editsOf cb.finalize tree table)
      ((Checker.ofCodebase cb).eventsIn d) =
      (renamingsIn (Checker.ofCodebase cb) table d).map (Renaming.edit tree) := by
    rw [readOff, renamingsIn, map_filterMap, filterMap_eq_flatMap_toList]
    rfl
  obtain ⟨r, hscan, hends, hfinds⟩ := answers_scanDefinitions hreads (Checker.ofCodebase cb)
  refine ⟨r.map fun x => (cb.finalize, x.2), ?_, ?_, fun x hx => ?_⟩
  · cases r with
    | error fault => exact hscan.bind_error
    | ok x => exact hscan.bind_pure
  · rw [← hends]
    cases r <;> rfl
  · obtain ⟨y, hy, rfl⟩ := Fault.exists_of_map_eq_ok hx
    have hedits := (hfinds y hy).2
    simp only [hreadOff, nil_append] at hedits
    rw [hedits]
    refine flatMap_filter_eq fun d hd hne => ?_
    obtain ⟨e, he⟩ := exists_mem_of_ne_nil _ hne
    obtain ⟨r, hr, -⟩ := mem_map.mp he
    exact isCandidate_of_mem_renamingsIn (hplace hd) hr

/-! ## Patches by file -/

/-- The patches of a file. -/
def patchesFor (edits : List Edit) (file : String) : List Patch :=
  (edits.filter fun e => e.file == file).flatMap fun e => e.patch.toList

theorem find?_patchesByFile (edits : List Edit) (file : String) :
    ((patchesByFile edits).find? file).getD [] = patchesFor edits file := by
  have hwalk (edits : List Edit) (t : Table (List Patch)) :
      ((edits.foldl (fun t e => t.insert e.file ((t.find? e.file).getD [] ++ e.patch.toList))
        t).find? file).getD [] = (t.find? file).getD [] ++ patchesFor edits file := by
    induction edits generalizing t with
    | nil => exact (append_nil _).symm
    | cons e edits ih =>
      rw [foldl_cons, ih, Table.find?_insert, patchesFor, patchesFor, filter_cons]
      by_cases h : e.file = file
      · rw [if_pos h.symm, if_pos (beq_iff_eq.mpr h), flatMap_cons, ← append_assoc, h]
        rfl
      · rw [if_neg fun h' => h h'.symm, if_neg fun h' => h (eq_of_beq h')]
  exact hwalk edits {}

theorem distinct_patchesByFile (edits : List Edit) : (patchesByFile edits).Distinct :=
  foldlRecOn (motive := Table.Distinct) edits _ Table.distinct_empty
    fun _ h _ _ => h.insert _ _

theorem mem_files_of_mem_patchesByFile {e : String × List Patch}
    (h : e ∈ (patchesByFile edits).entries) : e.1 ∈ edits.map Edit.file := by
  refine foldlRecOn (motive := fun t : Table (List Patch) => ∀ e ∈ t.entries,
    e.1 ∈ edits.map Edit.file) edits _ (forall_mem_nil _) (fun t ht e he x hx => ?_) e h
  rcases Table.mem_entries_insert hx with rfl | hx
  · exact mem_map_of_mem he
  · exact ht x hx

/-! ## Written files -/

/-- The tree with a file patched. -/
def patched (tree written : FileTree) (e : String × List Patch) : FileTree :=
  if e.2.isEmpty then written
  else written.write e.1 (String.ofList (Patch.apply (textOf tree e.1) e.2))

theorem answers_writePatches (tree : FileTree) (t : Table (List Patch)) :
    Answers (writePatches tree t) (.ok (t.entries.foldl (patched tree) tree)) := by
  unfold writePatches
  split
  · rename_i hempty
    rw [isEmpty_iff.mp hempty]
    exact (answers_record _).bind_pure
  · refine (answers_record _).bind_ok ?_
    refine (answers_foldlM_ok (g := patched tree) (fun written e => ?_) t.entries tree).bind_ok
      ((answers_record _).bind_pure)
    unfold patched
    dsimp only
    split
    · exact answers_pure _
    · exact (answers_record _).bind_pure

theorem find?_of_normalize_eq {name : String} (h : Path.normalize name = Path.normalize file) :
    tree.find? name = tree.find? file := by
  rw [FileTree.find?, h]
  rfl

/-- A file gets the patches under one of its names, if there are any. -/
theorem find?_foldl_patched (es : List (String × List Patch)) (written : FileTree)
    (file : String) :
    (∃ e ∈ es, Path.normalize e.1 = Path.normalize file ∧ e.2 ≠ [] ∧
      (es.foldl (patched tree) written).find? file =
        some (String.ofList (Patch.apply (textOf tree e.1) e.2))) ∨
    (∀ e ∈ es, Path.normalize e.1 = Path.normalize file → e.2 = []) ∧
      (es.foldl (patched tree) written).find? file = written.find? file := by
  induction es generalizing written with
  | nil => exact .inr ⟨fun e he => absurd he not_mem_nil, rfl⟩
  | cons e es ih =>
    rcases ih (patched tree written e) with ⟨last, hlast, hrest⟩ | ⟨hnone, hrest⟩
    · exact .inl ⟨last, mem_cons_of_mem e hlast, hrest⟩
    · -- no later file has patches for the path, so that what is written now stays
      rw [foldl_cons, hrest]
      by_cases hpatches : e.2 = []
      · refine .inr ⟨forall_mem_cons.mpr ⟨fun _ => hpatches, hnone⟩, ?_⟩
        rw [patched, if_pos (isEmpty_iff.mpr hpatches)]
      · rw [patched, if_neg fun hempty => hpatches (isEmpty_iff.mp hempty),
          FileTree.find?, FileTree.write, Table.find?_insert, ← FileTree.find?]
        by_cases hpath : Path.normalize e.1 = Path.normalize file
        · exact .inl ⟨e, mem_cons_self, hpath, hpatches, if_pos hpath.symm⟩
        · exact .inr ⟨forall_mem_cons.mpr ⟨fun h => absurd h hpath, hnone⟩,
            if_neg fun h => hpath h.symm⟩

/-! ## The text of a file -/

theorem patchesFor_append (edits more : List Edit) (file : String) :
    patchesFor (edits ++ more) file = patchesFor edits file ++ patchesFor more file := by
  rw [patchesFor, filter_append, flatMap_append]
  rfl

theorem patchesFor_edits {ds : List Definition}
    (hds : ∀ d ∈ ds, ∀ r ∈ renamingsIn k table d, r.source = d) (file : String) :
    patchesFor (ds.flatMap fun d => (renamingsIn k table d).map (Renaming.edit tree)) file =
      ((ds.filter fun d => d.scope.file.name == file).flatMap (renamingsIn k table)).filterMap
        (Renaming.made? (textOf tree file)) := by
  have hone {rs : List Renaming} {d : Definition} (hrs : ∀ r ∈ rs, r.source = d) :
      patchesFor (rs.map (Renaming.edit tree)) file = if d.scope.file.name == file then
        rs.filterMap (Renaming.made? (textOf tree file)) else [] := by
    induction rs with
    | nil => split <;> rfl
    | cons r rs ih =>
      have hr := hrs r mem_cons_self
      rw [map_cons, ← singleton_append, patchesFor_append,
        ih fun r hr => hrs r (mem_cons_of_mem _ hr), patchesFor, filter_cons]
      have hfile : (r.edit tree).file = d.scope.file.name := by rw [← hr]; rfl
      rw [hfile]
      split
      · rename_i hsame
        have hpatch : (r.edit tree).patch = r.made? (textOf tree file) := by
          rw [← eq_of_beq hsame, ← hr]
          rfl
        rw [filterMap_cons, filter_nil, flatMap_singleton, hpatch]
        cases r.made? (textOf tree file) <;> rfl
      · rfl
  induction ds with
  | nil => rfl
  | cons d ds ih =>
    rw [flatMap_cons, patchesFor_append, hone (hds d mem_cons_self),
      ih fun d hd => hds d (mem_cons_of_mem _ hd), filter_cons]
    split
    · rw [flatMap_cons, filterMap_append]
    · rfl

/-- The patches for some renamings in a file. -/
def madeFor (text : String) (rs : List Renaming) : List Patch :=
  rs.filterMap (Renaming.made? (unifyLineBreaks text.toList))

/-- The text of a file after some renamings in it. -/
def outcome (text : String) (rs : List Renaming) : String :=
  if (madeFor text rs).isEmpty then text
  else String.ofList (Patch.apply (unifyLineBreaks text.toList) (madeFor text rs))

section

variable {rs : List Renaming} {s : List Char}
  (hall : ∀ r ∈ rs, r.Stands (textsOf tree) paths ∧
    textsOf tree r.source.scope.file.name = some s)

include hall

theorem fits_of_mem_patches : ∀ p ∈ rs.map Renaming.patch, p.Fits s :=
  forall_mem_map.mpr fun r hr => (hall r hr).1.fits (hall r hr).2

theorem outcome_eq_replaced {text : String} (hs : s = unifyLineBreaks text.toList)
    (hoffset : ∀ r ∈ rs, r.source.scope.offset = 0) :
    outcome text rs = if rs.isEmpty then text
      else String.ofList (Patch.replaced s (rs.map Renaming.patch)) := by
  have hmade : rs.filterMap (Renaming.made? s) = rs.map Renaming.patch := by
    rw [← filterMap_eq_map]
    exact filterMap_congr fun r hr => (hall r hr).1.made?_eq (hall r hr).2 (hoffset r hr)
  have hapart : ∀ p ∈ rs.map Renaming.patch, ∀ q ∈ rs.map Renaming.patch, p.Apart q :=
    forall_mem_map.mpr fun r hr => forall_mem_map.mpr fun r' hr' =>
      (hall r hr).1.apart (hall r hr).2 (hall r' hr').1 (hall r' hr').2
  rw [outcome, madeFor, ← hs, hmade, Patch.apply_eq_replaced (fits_of_mem_patches hall) hapart,
    isEmpty_map]

theorem replacedOnce_iff_nodup (hnames : ∀ r ∈ rs, r.newName ≠ "") :
    Patch.ReplacedOnce s (rs.map Renaming.patch) (Patch.replaced s (rs.map Renaming.patch)) ↔
      (rs.map fun r => r.patch.span).Nodup := by
  have hne : ∀ p ∈ rs.map Renaming.patch, p.text.toList ≠ [] :=
    forall_mem_map.mpr fun r hr hnil => hnames r hr (String.toList_eq_nil_iff.mp hnil)
  rw [Patch.replacedOnce_replaced_iff (fits_of_mem_patches hall) hne, map_map]
  rfl

end

/-! ## Files and renamings -/

theorem stands_of_mem_renamings
    (hcb : cb.finalize.FunctionsAre (Definition.BodyInPlace (textsOf tree) paths))
    {r : Renaming} (hr : r ∈ renamings cb table file) :
    r.Stands (textsOf tree) paths ∧ r.source.scope.file.name = file := by
  obtain ⟨d, hd, hr⟩ := mem_flatMap.mp hr
  obtain ⟨hd, hfile⟩ := mem_filter.mp hd
  obtain ⟨hsource, hstands⟩ := stands_of_mem_renamingsIn (hcb.of_mem hd) hr
  exact ⟨hstands, hsource ▸ eq_of_beq hfile⟩

/-- What is written under a name. -/
theorem find?_written
    (hcb : cb.finalize.FunctionsAre (Definition.BodyInPlace (textsOf tree) paths))
    (hedits : edits = (functions cb.finalize).flatMap fun d =>
      (renamingsIn (Checker.ofCodebase cb) table d).map (Renaming.edit tree))
    {text : String} (htext : tree.find? file = some text) :
    ∃ name, Path.normalize name = Path.normalize file ∧ (name = file ∨ name ∈ paths) ∧
      (madeFor text (renamings cb table name) = [] → ∀ other,
        Path.normalize other = Path.normalize file → madeFor text (renamings cb table other) = []) ∧
      ((patchesByFile edits).entries.foldl (patched tree) tree).find? file =
        some (outcome text (renamings cb table name)) := by
  have hstands {d : Definition} (hd : d ∈ functions cb.finalize) {r : Renaming}
      (hr : r ∈ renamingsIn (Checker.ofCodebase cb) table d) :
      r.source = d ∧ r.Stands (textsOf tree) paths :=
    stands_of_mem_renamingsIn (hcb.of_mem hd) hr
  have htextOf {name : String} (hname : Path.normalize name = Path.normalize file) :
      textOf tree name = unifyLineBreaks text.toList := by
    rw [textOf, find?_of_normalize_eq hname, htext]
    rfl
  have hmade {name : String} (hname : Path.normalize name = Path.normalize file) :
      ((patchesByFile edits).find? name).getD [] = madeFor text (renamings cb table name) := by
    rw [find?_patchesByFile, hedits, patchesFor_edits (fun d hd r hr => (hstands hd hr).1),
      htextOf hname]
    rfl
  rcases find?_foldl_patched (patchesByFile edits).entries tree file with
    ⟨e, he, hpath, hne, hfind⟩ | ⟨hnone, hfind⟩
  · have hentry : madeFor text (renamings cb table e.1) = e.2 := by
      rw [← hmade hpath, (distinct_patchesByFile edits).find?_of_mem he]
      rfl
    have hmem : e.1 ∈ paths := by
      obtain ⟨x, hx, hfile⟩ := mem_map.mp (mem_files_of_mem_patchesByFile he)
      rw [hedits] at hx
      obtain ⟨d, hd, hx⟩ := mem_flatMap.mp hx
      obtain ⟨r, hr, rfl⟩ := mem_map.mp hx
      rw [← hfile]
      exact (hstands hd hr).2.file
    refine ⟨e.1, hpath, .inr hmem, fun hnil => absurd (hentry ▸ hnil) hne, ?_⟩
    rw [hfind, outcome, hentry, if_neg fun hempty => hne (isEmpty_iff.mp hempty),
      htextOf hpath]
  · have hall {name : String} (hname : Path.normalize name = Path.normalize file) :
        madeFor text (renamings cb table name) = [] := by
      rw [← hmade hname]
      cases hentry : (patchesByFile edits).find? name with
      | none => rfl
      | some patches => exact hnone _ (Table.mem_entries_of_find? hentry) hname
    refine ⟨file, rfl, .inl rfl, fun _ other => hall, ?_⟩
    rw [hfind, outcome, hall rfl, htext]
    rfl

/-- Renaming the fields of a table in files as they stand. It comes to its end exactly if the
analysis of every function that may access one does, and then all patches are written. Every file is
made of the renamings in its functions, under one of its names, and one with patches if there are
any. At each place the field stands. If no such function stands in an `extern "C"` block, the file
is its text, line breaks unified, with each place replaced by the new names for it and all else
kept. Each place is replaced once exactly if the analysis comes by none twice. -/
theorem renameFields_rewrites (c : Context) (tree : FileTree) (tasks : Bool) (paths : List String)
    (macros : Table Definition) (table : RenameTable) (cb : Codebase)
    (hscan : (Codebase.scanFiles c tree false tasks paths { macros }).start.1 = .ok cb) :
    ((renameFields cb.withTypedMacros tree table).start.1.isOk = true ↔
      ∀ d ∈ candidates cb.withTypedMacros.finalize table,
        (Checker.ofCodebase cb.withTypedMacros).Analyzes d) ∧
    ∀ cb' edits, (renameFields cb.withTypedMacros tree table).start.1 = .ok (cb', edits) →
      ∃ written, (writePatches tree (patchesByFile edits)).start.1 = .ok written ∧
        ∀ file text, tree.find? file = some text →
          ∃ name, Path.normalize name = Path.normalize file ∧ (name = file ∨ name ∈ paths) ∧
            (madeFor text (renamings cb.withTypedMacros table name) = [] → ∀ other,
              Path.normalize other = Path.normalize file →
                madeFor text (renamings cb.withTypedMacros table other) = []) ∧
            ∀ rs s, rs = renamings cb.withTypedMacros table name → s = unifyLineBreaks text.toList →
              written.find? file = some (outcome text rs) ∧
              (∀ r ∈ rs, slice s r.patch.span.start r.patch.span.stop = r.field.toList) ∧
              ((∀ r ∈ rs, r.source.scope.offset = 0) → outcome text rs = (if rs.isEmpty then text
                  else String.ofList (Patch.replaced s (rs.map Renaming.patch))) ∧
                ((∀ r ∈ rs, r.newName ≠ "") → (Patch.ReplacedOnce s (rs.map Renaming.patch)
                      (Patch.replaced s (rs.map Renaming.patch)) ↔
                    (rs.map fun r => r.patch.span).Nodup))) := by
  have hcb := (bodyInPlace_scanFiles hscan).withTypedMacros.finalize
  obtain ⟨result, hrename, hends, hedits⟩ := answers_renameFields table hcb
  rw [hrename.start_fst]
  refine ⟨hends, ?_⟩
  rintro cb' edits hresult
  refine ⟨_, (answers_writePatches _ _).start_fst, ?_⟩
  intro file text htext
  obtain ⟨name, hname, hmem, hother, hfind⟩ := find?_written hcb (hedits _ hresult) htext
  refine ⟨name, hname, hmem, hother, ?_⟩
  rintro rs s rfl hs
  have hall : ∀ r ∈ renamings cb.withTypedMacros table name,
      r.Stands (textsOf tree) paths ∧
        textsOf tree r.source.scope.file.name = some s := by
    intro r hr
    obtain ⟨hstands, hfile⟩ := stands_of_mem_renamings hcb hr
    refine ⟨hstands, ?_⟩
    rw [hfile, textsOf, find?_of_normalize_eq hname, htext, hs]
    rfl
  exact ⟨hfind, fun r hr => (hall r hr).1.slice_eq (hall r hr).2,
    fun hoffset => ⟨outcome_eq_replaced hall hs hoffset, replacedOnce_iff_nodup hall⟩⟩

/-- A file with an access to a field within parentheses. -/
def chainText : String := "int ff(struct SS *x) \x7b return 1 + (x->bb)->cc; \x7d\n"

/-- The tree of that file alone. -/
def chainTree : FileTree := ⟨⟨[(Path.normalize "a.c", chainText)]⟩⟩

/-- What stands in the file. -/
def chainFindings : List Finding :=
  let s := unifyLineBreaks chainText.toList
  let file := (SourceFile.ofName {} "a.c").fillLines s
  ((textFindings (({} : Context).enterFile file 0) 0 true s).toOption).getD []

/-- The code base of that file. -/
def chainCode : Codebase := ({} : Codebase).enterAll chainFindings

/-- A new name for the field within the parentheses. -/
def chainTable : RenameTable := ⟨[("SS", ⟨[("bb", "nn")]⟩)]⟩

theorem eq_ok_of_isOk [Inhabited α] {r : Except Fault α} (h : r.isOk = true) :
    r = .ok (r.toOption.getD default) := by
  cases r with
  | error fault => cases h
  | ok x => rfl

theorem plainFindings_chainTree :
    plainFindings {} chainTree "a.c" = .ok chainFindings := by
  rw [plainFindings, openFile, chainTree, find?_single]
  exact eq_ok_of_isOk (by decide +kernel)

theorem scanFiles_chainTree :
    (scanFiles {} chainTree false false ["a.c"] {}).start.1 = .ok chainCode :=
  start_scanFiles_single plainFindings_chainTree

theorem renamings_chainCode : (∀ r ∈ renamings chainCode.withTypedMacros chainTable "a.c",
      r.source.scope.offset = 0 ∧ r.newName ≠ "") ∧
    (renamings chainCode.withTypedMacros chainTable "a.c").map Renaming.patch =
      [⟨⟨38, 40⟩, "nn"⟩, ⟨⟨38, 40⟩, "nn"⟩] := by
  decide +kernel

/-- A field within parentheses is renamed twice, so that both new names stand in its place. -/
theorem renameFields_rewrites_twice :
    (Codebase.scanFiles {} chainTree false false ["a.c"] {}).start.1 = .ok chainCode ∧
    ∃ cb' edits written,
      (renameFields chainCode.withTypedMacros chainTree chainTable).start.1 = .ok (cb', edits) ∧
      (writePatches chainTree (patchesByFile edits)).start.1 = .ok written ∧
      written.find? "a.c" = some "int ff(struct SS *x) \x7b return 1 + (x->nnnn)->cc; \x7d\n" ∧
      ¬ Patch.ReplacedOnce (unifyLineBreaks chainText.toList)
        ((renamings chainCode.withTypedMacros chainTable "a.c").map Renaming.patch)
        "int ff(struct SS *x) \x7b return 1 + (x->nnnn)->cc; \x7d\n".toList := by
  obtain ⟨hends, hwrites⟩ := renameFields_rewrites {} chainTree false ["a.c"] {} chainTable
    chainCode scanFiles_chainTree
  obtain ⟨x, hrename⟩ : ∃ x, (renameFields chainCode.withTypedMacros chainTree
      chainTable).start.1 = .ok x :=
    ⟨_, eq_ok_of_isOk (hends.mpr (by unfold Checker.Analyzes; decide +kernel))⟩
  obtain ⟨written, hwritten, hfiles⟩ := hwrites x.1 x.2 hrename
  obtain ⟨name, -, hname, -, hfile⟩ := hfiles "a.c" chainText
    (find?_single _ _)
  obtain rfl : name = "a.c" := hname.elim id mem_singleton.mp
  obtain ⟨hfind, -, houtcome⟩ := hfile _ _ rfl rfl
  refine ⟨scanFiles_chainTree, x.1, x.2, written, hrename, hwritten, ?_⟩
  obtain ⟨hrs, hpatches⟩ := renamings_chainCode
  generalize renamings chainCode.withTypedMacros chainTable "a.c" = rs
    at hrs hpatches hfind houtcome ⊢
  have hspans : rs.map (fun r => r.patch.span) = [⟨38, 40⟩, ⟨38, 40⟩] := by
    have := congrArg (List.map Patch.span) hpatches
    rwa [map_map] at this
  have hne : ¬ rs.isEmpty = true := fun hempty => by
    rw [isEmpty_iff.mp hempty] at hpatches
    cases hpatches
  obtain ⟨hreplaced, honce⟩ := houtcome fun r hr => (hrs r hr).1
  have htext : Patch.replaced (unifyLineBreaks chainText.toList) (rs.map Renaming.patch) =
      "int ff(struct SS *x) \x7b return 1 + (x->nnnn)->cc; \x7d\n".toList := by
    rw [hpatches]
    decide +kernel
  rw [hreplaced, if_neg hne, htext, String.ofList_toList] at hfind
  refine ⟨hfind, fun htwice => ?_⟩
  rw [htext] at honce
  have hnodup := (honce fun r hr => (hrs r hr).2).mp htwice
  rw [hspans] at hnodup
  revert hnodup
  decide

end Rename

end CBoundary
