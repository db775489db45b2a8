import CBoundary.Survey.Filter

/-!
# What filters select

Locations and definitions are filtered by the same notation, which is read twice.  Only for
definitions may a pattern stand in brackets or alone: for locations whatever holds a slash or a dot
is the end of a file name.
-/

namespace CBoundary.Survey

open Text List

/-! ## Forms of filters -/

/-- An empty filter, one in brackets, a module, one with a parenthesis or a star in front, and any
other. -/
inductive Form where
  | all
  | bracketed (content : String)
  | module (name : String)
  | typed
  | starred (name : String)
  | plain

/-- The form of a filter. -/
def form (w : Workspace) (filter : String) : Form :=
  if filter.isEmpty then .all
  else if framed '[' ']' filter then .bracketed (inside filter)
  else (namedModule? w filter).elim
    (if filter.startsWith "(" then .typed
      else if filter.startsWith "*" then .starred ((filter.drop 1).toString) else .plain) .module

/-- For a location such a filter is the end of a file name and nothing else. -/
def IsPath (filter : String) : Prop := '/' ∈ filter.toList ∨ '.' ∈ filter.toList

variable (search : String → String → Bool) (w : Workspace) (cb : Codebase) (d : Definition)

/-- Does a filter select a function or a macro alike as a location and as a definition? In brackets
a pattern, or nothing, must say of the module what the text as it is says. With a parenthesis in
front the location must be neither in a file nor of a name that ends or reads like it. Others with a
slash or a dot must not select by name only. -/
def Form.Agrees (filter : String) : Form → Prop
  | all | module _ | starred _ => True
  | bracketed m => fitsName search m d.moduleName = (d.moduleName == m)
  | typed => d.scope.file.name.endsWith filter = false ∧ (IsPath filter ∨ d.name ≠ filter)
  | plain => IsPath filter → fitsName search filter d.name = true →
      d.scope.file.name.endsWith filter = true

theorem endsWith_eq_false_of_isEmpty {file filter : String} (hfile : file.isEmpty = true)
    (hfilter : filter.isEmpty = false) : file.endsWith filter = false := by
  obtain rfl := String.isEmpty_iff.mp hfile
  rw [String.endsWith_eq_endsWith_toSlice, String.Slice.endsWith_string_eq_false_iff]
  simpa using hfilter

variable {d}

/-- A function or a macro is selected alike as a location and as a definition, in these forms and
conditions. -/
theorem locationFits_eq_definitionFits_iff (hkind : d.kind = "function" ∨ d.kind = "macro")
    (filter record : String) (use : Option Int) (snippet : Snippet) :
    locationFits search w cb filter (.ofDefinition d use snippet) =
        definitionFits search w cb record filter d ↔
      (form w filter).Agrees search d filter := by
  have hother : d.kind ≠ "field" ∧ (d.kind == "record") = false := by
    rcases hkind with hkind | hkind <;> rw [hkind] <;> decide
  unfold locationFits definitionFits form
  by_cases hempty : filter.isEmpty = true
  · simp [hempty, Form.Agrees]
  by_cases hframed : framed '[' ']' filter = true
  · simp [hempty, hframed, Form.Agrees, Location.ofDefinition, eq_comm]
  cases hmodule : namedModule? w filter with
  | some m => simp [hempty, hframed, Form.Agrees, Location.ofDefinition]
  | none =>
    have hfile : (!d.scope.file.name.isEmpty && d.scope.file.name.endsWith filter) =
        d.scope.file.name.endsWith filter := by
      cases hname : d.scope.file.name.isEmpty with
      | false => rfl
      | true => rw [endsWith_eq_false_of_isEmpty hname (by simpa using hempty)]; rfl
    by_cases htyped : filter.startsWith "(" = true
    · obtain ⟨rest, hrest⟩ := String.startsWith_string_iff.mp htyped
      have hpattern : framed '/' '/' filter = false := by simp [framed, ← hrest]
      have hstar : filter.startsWith "*" = false := by
        rw [String.startsWith_string_eq_false_iff, ← hrest]
        simp
      by_cases hpath : '/' ∈ filter.toList ∨ '.' ∈ filter.toList <;>
        simp [hempty, hframed, htyped, hstar, hother, hfile, hpath, hpattern, fitsName, IsPath,
          Form.Agrees, Location.ofDefinition]
    by_cases hstarred : filter.startsWith "*" = true
    · simp [hempty, hframed, htyped, hstarred, Form.Agrees, Location.ofDefinition]
    · by_cases hpath : '/' ∈ filter.toList ∨ '.' ∈ filter.toList <;>
        simp [hempty, hframed, htyped, hstarred, hfile, hpath, IsPath, Form.Agrees,
          Location.ofDefinition]

/-- A pattern in brackets is searched for in the module of a definition, but compared with that of
its location. -/
theorem locationFits_eq_definitionFits_iff_pattern :
    locationFits matchesPattern {} {} "[/m/]" (.ofDefinition
        { (default : Definition) with kind := "function", moduleName := "m" } none {}) ≠
      definitionFits matchesPattern {} {} "" "[/m/]"
        { (default : Definition) with kind := "function", moduleName := "m" } := by
  refine mt (locationFits_eq_definitionFits_iff matchesPattern {} {} (.inl rfl) "[/m/]" "" none
    {}).mp ?_
  show ¬ fitsName matchesPattern "/m/" "m" = ("m" == "/m/")
  decide +kernel

/-! ## A type and a field -/

theorem dropParens_enclosed {t : List Char} (h : '(' ∉ t) : dropParens ('(' :: (t ++ [')'])) = t := by
  have hself : dropParens t = t := by
    unfold dropParens
    split
    · rfl
    · rfl
    · rename_i c d cs
      have hc : c ≠ '(' := fun hc => h (hc ▸ mem_cons_self)
      simp [hc]
  have hinside : Text.interior ('(' :: (t ++ [')'])) = t := by simp [Text.interior]
  have hlast : (t ++ [')']).getLast? = some ')' := getLast?_concat
  obtain ⟨d, ds, hds⟩ := exists_cons_of_ne_nil (append_ne_nil_of_right_ne_nil t (cons_ne_nil ')' []))
  rw [hds] at hinside hlast ⊢
  rw [dropParens, hinside, hlast, if_pos (by decide), hself]

theorem lastIndexOf?_append_cons {p : Char → Bool} {c : Char} {rear : List Char} (front : List Char)
    (hc : p c = true) (hrear : ∀ d ∈ rear, p d = false) :
    lastIndexOf? p (front ++ c :: rear) = some front.length := by
  have hnone : rear.reverse.findIdx? p = none :=
    findIdx?_eq_none_iff.mpr fun d hd => hrear d (mem_reverse.mp hd)
  rw [lastIndexOf?, reverse_append, reverse_cons, append_assoc, findIdx?_append, hnone]
  simp [findIdx?_cons, hc]

theorem splitField?_append (front rear : List Char) (hdot : '.' ∉ rear)
    (hlast : rear.getLast? ≠ some ')') :
    splitField? (String.ofList (front ++ '.' :: rear)) =
      some (unparenthesize (String.ofList front), String.ofList rear) := by
  have hindex : lastIndexOf? (· == '.') (front ++ '.' :: rear) = some front.length :=
    lastIndexOf?_append_cons front rfl fun d hd => beq_eq_false_iff_ne.mpr fun h => hdot (h ▸ hd)
  have hend : (front ++ '.' :: rear).getLast? = some (rear.getLast?.getD '.') := by
    simp [getLast?_append, getLast?_cons]
  have hclose : (rear.getLast?.getD '.' == ')') = false := by
    cases hrear : rear.getLast? with
    | none => rfl
    | some c => simpa [hrear] using hlast
  simp only [splitField?, String.toList_ofList, hend, hclose, hindex, Bool.false_eq_true, if_false,
    take_left, drop_length_add_append, drop_succ_cons, drop_zero]

/-- A type in parentheses, a dot and a field are taken apart exactly if the field holds no dot. -/
theorem splitField?_eq_iff {t f : String} (ht : ∀ c ∈ ['(', ')', '.', ':'], c ∉ t.toList)
    (hf : f.toList.getLast? ≠ some ')') :
    splitField? ("(" ++ t ++ ")." ++ f) = some (t, f) ↔ '.' ∉ f.toList := by
  have htext : "(" ++ t ++ ")." ++ f =
      String.ofList ('(' :: (t.toList ++ [')']) ++ '.' :: f.toList) := by
    apply String.toList_inj.mp
    simp
  rw [htext]
  constructor
  · intro hsplit hdot
    obtain ⟨rear, front, hreverse, hrear⟩ := eq_append_cons_of_mem (mem_reverse.mpr hdot)
    have hfield : f.toList = front.reverse ++ '.' :: rear.reverse := by
      rw [← reverse_reverse f.toList, hreverse]
      simp
    have hlast : rear.reverse.getLast? ≠ some ')' := fun h =>
      hf (by rw [hfield, getLast?_append, getLast?_cons, h]; rfl)
    have hwhole : '(' :: (t.toList ++ [')']) ++ '.' :: f.toList =
        '(' :: (t.toList ++ [')']) ++ '.' :: front.reverse ++ '.' :: rear.reverse := by
      simp [hfield]
    rw [hwhole, splitField?_append _ _ (by simpa using hrear) hlast] at hsplit
    have hlength := congrArg (fun r => r.2.toList.length) (Option.some.inj hsplit)
    simp [hfield] at hlength
    omega
  · intro hdot
    have hcolon : ('(' :: (t.toList ++ [')'])).contains ':' = false := by
      simpa using ht ':' (by simp)
    rw [splitField?_append _ _ hdot hf, unparenthesize, String.toList_ofList, hcolon,
      dropParens_enclosed (ht '(' (by simp))]
    simp

/-- A dot is found in a field that is a pattern. -/
theorem splitField?_eq_iff_pattern : ('.' ∉ "/a+b/".toList ∧
    splitField? ("(" ++ "Ss" ++ ")." ++ "/a+b/") = some ("Ss", "/a+b/")) ∧
      splitField? ("(" ++ "Ss" ++ ")." ++ "/a.b/") ≠ some ("Ss", "/a.b/") :=
  ⟨⟨by decide, (splitField?_eq_iff (by simp) (by decide)).mpr (by decide)⟩, fun hsplit =>
    (splitField?_eq_iff (by simp) (by decide)).mp hsplit (by decide)⟩

end CBoundary.Survey
