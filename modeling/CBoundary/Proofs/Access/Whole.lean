import CBoundary.Proofs.Access.Global

/-!
# Uses that are whole words

A use of a name ends where a word ends, but it may start inside a word: a name that is looked
for is also found at the end of a longer word, unless that word is a name itself.
-/

namespace CBoundary

open Text List

namespace Access

variable {s : List Char} {i j k : Nat} {n v w : List Char} {names : List (List Char)}

/-! ## Whole words -/

/-- A whole word of the text stands there. -/
structure WholeWord (s : List Char) (i : Nat) (w : List Char) : Prop where
  nonempty : w ≠ []
  stands : w <+: s.drop i
  word : ∀ c ∈ w, isWordChar c = true
  starts : wordAt (s.take i).getLast? = false
  ends : wordAt s[i + w.length]? = false

theorem WholeWord.wordAt (h : WholeWord s i w) (hi : i ≤ k) (hk : k < i + w.length) :
    wordAt s[k]? = true := by
  obtain ⟨rest, hrest⟩ := h.stands
  have hlt : k - i < w.length := by omega
  have hget : s[k]? = some w[k - i] := calc
    s[k]? = (s.drop i)[k - i]? := by rw [getElem?_drop, Nat.add_sub_of_le hi]
    _ = some w[k - i] := by rw [← hrest, getElem?_append_left hlt, getElem?_eq_getElem]
  rw [hget]
  exact h.word _ (getElem_mem hlt)

theorem wordAt_getLast? (hj : 0 < j) (h : wordAt s[j - 1]? = true) :
    wordAt (s.take j).getLast? = true := by
  rw [getLast?_take, if_neg (by omega)]
  cases hget : s[j - 1]? with
  | none =>
    rw [hget] at h
    cases h
  | some c =>
    rwa [hget] at h

instance (s : List Char) (i : Nat) (w : List Char) : Decidable (WholeWord s i w) :=
  decidable_of_iff (w ≠ [] ∧ w <+: s.drop i ∧ w.all isWordChar = true ∧
      wordAt (s.take i).getLast? = false ∧ wordAt s[i + w.length]? = false)
    ⟨fun h => ⟨h.1, h.2.1, all_eq_true.mp h.2.2.1, h.2.2.2.1, h.2.2.2.2⟩,
      fun h => ⟨h.nonempty, h.stands, all_eq_true.mpr h.word, h.starts, h.ends⟩⟩

theorem WholeWord.le_of_over (h : WholeWord s i w) (h' : WholeWord s j v) (hk : k < i + w.length)
    (hj : j ≤ k) : j ≤ i := by
  refine Nat.le_of_not_lt fun hlt => ?_
  have hbefore := wordAt_getLast? (by omega) (h.wordAt (k := j - 1) (by omega) (by omega))
  rw [h'.starts] at hbefore
  cases hbefore

theorem WholeWord.eq_of_over (h : WholeWord s i w) (h' : WholeWord s j v) (hi : i ≤ k)
    (hk : k < i + w.length) (hj : j ≤ k) (hk' : k < j + v.length) : i = j ∧ w = v := by
  have hij : i = j := Nat.le_antisymm (h'.le_of_over h hk' hi) (h.le_of_over h' hk hj)
  subst hij
  have hlength : w.length = v.length := by
    rcases Nat.lt_trichotomy w.length v.length with hlt | heq | hlt
    · have hword := h'.wordAt (k := i + w.length) (by omega) (by omega)
      rw [h.ends] at hword
      cases hword
    · exact heq
    · have hword := h.wordAt (k := i + v.length) (by omega) (by omega)
      rw [h'.ends] at hword
      cases hword
  exact ⟨rfl, (prefix_of_prefix_length_le h.stands h'.stands
    (Nat.le_of_eq hlength)).eq_of_length hlength⟩

theorem exists_wholeWord (hne : n ≠ []) (hstands : n <+: s.drop i)
    (hword : ∀ c ∈ n, isWordChar c = true) (hends : wordAt s[i + n.length]? = false) :
    ∃ v, v.length ≤ i ∧ WholeWord s (i - v.length) (v ++ n) := by
  have hi : i ≤ s.length := by
    refine Nat.le_of_lt (length_lt_of_drop_ne_nil fun hnil => ?_)
    rw [hnil, prefix_nil] at hstands
    exact hne hstands
  -- the word characters before the place, and what stands before them
  let before := (s.take i).reverse
  have hsplit : s.take i = (before.dropWhile isWordChar).reverse ++
      (before.takeWhile isWordChar).reverse := by
    rw [← reverse_append, takeWhile_append_dropWhile, reverse_reverse]
  generalize hv : (before.takeWhile isWordChar).reverse = v at hsplit
  generalize hrest : (before.dropWhile isWordChar).reverse = rest at hsplit
  have hlength : rest.length + v.length = i := by
    rw [← length_append, ← hsplit, length_take_of_le hi]
  have hs : s = rest ++ (v ++ s.drop i) := by
    rw [← append_assoc, ← hsplit, take_append_drop]
  have hplace : i - v.length = rest.length := by omega
  refine ⟨v, by omega, ?_, ?_, ?_, ?_, ?_⟩
  · simp [hne]
  · rw [hplace]
    nth_rewrite 1 [hs]
    rw [drop_left]
    exact (prefix_append_right_inj v).mpr hstands
  · intro c hc
    rcases mem_append.mp hc with hc | hc
    · rw [← hv, mem_reverse] at hc
      exact all_eq_true.mp all_takeWhile c hc
    · exact hword c hc
  · rw [hplace]
    nth_rewrite 1 [hs]
    rw [take_left, ← hrest, getLast?_reverse]
    cases hhead : (before.dropWhile isWordChar).head? with
    | none => rfl
    | some c =>
      have hstop := head?_dropWhile_not isWordChar before
      rwa [hhead] at hstop
  · rwa [length_append, ← Nat.add_assoc, Nat.sub_add_cancel (by omega)]

theorem followsAccess_of_wordAt (h : wordAt s.head? = true) :
    NamePattern.followsAccess s = false := by
  cases s with
  | nil => rfl
  | cons c cs =>
    have hne {d : Char} (hd : isWordChar d = false) : c ≠ d := by
      rintro rfl
      change isWordChar c = true at h
      rw [hd] at h
      cases h
    have hspace : isSpace c = false := by
      simp only [isSpace, Bool.or_eq_false_iff, beq_eq_false_iff_ne]
      exact ⟨⟨⟨⟨⟨hne rfl, hne rfl⟩, hne rfl⟩, hne rfl⟩, hne rfl⟩, hne rfl⟩
    rw [NamePattern.followsAccess, dropWhile_cons_of_neg (by rw [hspace]; decide)]
    split
    iterate 2
      rename_i heq
      exact absurd (List.cons.inj heq).1 (hne rfl)
    rfl

/-! ## Uses -/

theorem fits_of_word (hne : n ≠ []) (hstands : n <+: s.drop i)
    (hword : ∀ c ∈ n, isWordChar c = true) (hends : wordAt s[i + n.length]? = false)
    (hfree : NamePattern.followsAccess (s.take i).reverse = false) : Fits s i n where
  within := by
    refine Nat.le_of_lt (length_lt_of_drop_ne_nil fun hnil => ?_)
    rw [hnil, prefix_nil] at hstands
    exact hne hstands
  noMember := hfree
  stands := hstands
  ends := by
    obtain ⟨c, hc⟩ := Option.ne_none_iff_exists'.mp fun h => hne (getLast?_eq_none_iff.mp h)
    have hleft : wordAt (some c) = true := hword c (mem_of_getLast? hc)
    rw [hc, head?_drop]
    change (wordAt (some c) != _) = true
    rw [hleft, hends]
    rfl

theorem WholeWord.fits_end (h : WholeWord s i (v ++ n)) (hv : v ≠ []) (hn : n ≠ []) :
    Fits s (i + v.length) n := by
  obtain ⟨rest, hrest⟩ := h.stands
  have hdrop : s.drop (i + v.length) = n ++ rest := by
    rw [← drop_drop, ← hrest, append_assoc, drop_left]
  have hends := h.ends
  rw [length_append, ← Nat.add_assoc] at hends
  refine fits_of_word hn ⟨rest, hdrop.symm⟩
    (fun c hc => h.word c (mem_append_right v hc)) hends (followsAccess_of_wordAt ?_)
  have hvpos := length_pos_iff.mpr hv
  rw [head?_reverse]
  refine wordAt_getLast? (by omega) (h.wordAt (by omega) ?_)
  rw [length_append]
  omega

theorem used_whole_iff (hwords : ∀ n ∈ names, ∀ c ∈ n, isWordChar c = true) :
    (∀ i n, Used names s i n → WholeWord s i n) ↔
      (∀ i, ¬ Used names s i []) ∧ ∀ i v n, WholeWord s i (v ++ n) → v ≠ [] → n ≠ [] →
        n ∈ names → v ++ n ∈ names ∧ NamePattern.followsAccess (s.take i).reverse = false := by
  constructor
  · intro hwhole
    refine ⟨fun i hused => (hwhole i [] hused).nonempty rfl, fun i v n hword hv hn hmem => ?_⟩
    have hnpos := length_pos_iff.mpr hn
    obtain ⟨j, m, hused, hcovers⟩ := exists_used hwords hmem (hword.fits_end hv hn)
    have hm := hwhole j m hused
    have hmpos := length_pos_iff.mpr hm.nonempty
    obtain ⟨rfl, rfl⟩ := hm.eq_of_over hword hcovers.1 (by have := hcovers.2; omega)
      (Nat.le_add_right _ _) (by rw [length_append]; omega)
    exact ⟨hused.mem, hused.fits.noMember⟩
  · rintro ⟨hempty, hends⟩ i n hused
    have hne : n ≠ [] := by
      rintro rfl
      exact hempty i hused
    have hword := hwords n hused.mem
    have hbehind := hused.fits.wordAt_behind hword hne
    obtain ⟨v, hle, hwhole⟩ := exists_wholeWord hne hused.fits.stands hword hbehind
    by_cases hv : v = []
    · subst hv
      exact hwhole
    · -- the longer word would be used in place of its end
      exfalso
      obtain ⟨hmem, hfree⟩ := hends _ v n hwhole hv hne hused.mem
      have hvpos := length_pos_iff.mpr hv
      have hnpos := length_pos_iff.mpr hne
      have hfits := fits_of_word hwhole.nonempty hwhole.stands hwhole.word hwhole.ends hfree
      have hover := hused.uncovered _ hmem _ (by omega) hfits
      rw [length_append] at hover
      omega

end Access

namespace Checker

open Audit Access

variable {α : Type}
variable {cb : Codebase} {body : Token} {name : String} {names : List String}

/-! ## Events -/

/-- Prints the use of a name. -/
def tell (shown : Span → String → String) : Access → Audit Unit
  | .name span text => print (shown span text)
  | _ => pure ()

/-- The visitor that prints each use of a name. -/
def teller (shown : Span → String → String) : Visitor α := fun e => do
  tell shown e.access
  return []

/-- What is told about names in a definition. -/
def told (k : Checker) (onlyErrors : Bool) (shown : Span → String → String) (d : Definition) :
    List String :=
  (k.scanDefinition onlyErrors (teller (α := Unit) shown) d).start.2.seen Entry.printed?

/-- The text of a body without comments and literals. -/
abbrev bodyText (body : Token) : List Char := Text.blankNotesAndLiterals body.chars

/-- The uses that a pattern finds in a body. -/
def usesIn (pattern : Option NamePattern) (body : Token) : List (Nat × String) :=
  ((pattern.map fun p => p.uses 0 [] (bodyText body)).getD []).map fun use =>
    (use.1, String.ofList use.2)

/-- The uses of names that are found in a definition, if it is looked at first. -/
def nameUses (cb : Codebase) (onlyErrors : Bool) (d : Definition) : List (Nat × String) :=
  ((searchedBody? cb d).map
    (usesIn (NamePattern.ofNames? (searchedNames cb onlyErrors d.moduleName)))).getD []

variable (shown : Span → String → String)

theorem answers_teller (e : AccessEvent) : Answers (teller (α := α) shown e) (.ok []) := by
  refine Answers.bind_ok (x := ()) ?_ (answers_pure _)
  cases e.access with
  | name span text => exact answers_record _
  | _ => exact answers_pure _

theorem discreet_teller (d : Definition) : Discreet Entry.printed? (teller (α := α) shown) d :=
  ⟨fun _ => (adds_pure _).bind_pure,
    fun _ => (adds_pure _).bind_pure,
    fun _ _ _ _ => (adds_pure _).bind_pure⟩

theorem leaves_lookAtUse (x : Subject) (onlyErrors : Bool) (use : Nat × List Char) :
    Leaves Entry.printed? (lookAtUse x onlyErrors (teller (α := α) shown) use)
      [shown ⟨use.1, use.1 + (String.ofList use.2).length⟩ (String.ofList use.2)] := by
  refine (silent_checkName (fun _ => rfl) x onlyErrors _ _).bind_ok
    (answers_checkName x onlyErrors _ _) ?_
  exact Leaves.bind_silent (leaves_record (.printed _)) fun _ => adds_pure _

theorem told_eq {k : Checker} (hk : k.codebase = cb.finalize) (onlyErrors : Bool)
    (shown : Span → String → String) (d : Definition) : told k onlyErrors shown d =
      (((searchedBody? cb d).map (usesIn (k.namePattern onlyErrors d.moduleName).2)).getD []).map
        fun use => shown ⟨use.1, use.1 + use.2.length⟩ use.2 := by
  refine (leaves_scanDefinition (fun _ _ => rfl) hk (discreet_teller shown d)
    (fun a => answers_teller shown ⟨d, a⟩)
    fun _ _ => leaves_lookAtUse shown _ onlyErrors).start_snd.trans ?_
  cases searchedBody? cb d with
  | none => rfl
  | some body =>
    rw [Option.map_some, Option.getD_some, usesIn, map_map]
    exact (map_eq_flatMap ..).symm

theorem mem_nameUses_iff (hcb : cb.WordNames) {onlyErrors : Bool} {d : Definition}
    (hbody : searchedBody? cb d = some body) {i : Nat} :
    (i, name) ∈ nameUses cb onlyErrors d ↔
      UsedIn body (searchedNames cb onlyErrors d.moduleName) i name := by
  rw [nameUses, hbody, Option.map_some, Option.getD_some, usesIn, mem_map]
  constructor
  · rintro ⟨use, huse, heq⟩
    obtain ⟨rfl, rfl⟩ := Prod.mk.inj heq
    rw [UsedIn, String.toList_ofList]
    exact (NamePattern.mem_uses_ofNames? (words_searchedNames hcb)).mp huse
  · intro hused
    refine ⟨(i, name.toList), (NamePattern.mem_uses_ofNames? (words_searchedNames hcb)).mpr hused, ?_⟩
    rw [String.ofList_toList]

/-! ## Uses in bodies -/

theorem mem_toList_iff {l : List String} : name.toList ∈ l.map String.toList ↔ name ∈ l :=
  mem_map_of_injective fun _ _ h => String.toList_injective h

theorem UsedIn.spec {i : Nat} (hwords : ∀ name ∈ names, ∀ c ∈ name.toList, Text.isWordChar c = true)
    (h : UsedIn body names i name) :
    name ∈ names ∧ name.toList <+: (bodyText body).drop i ∧
      NamePattern.followsAccess ((bodyText body).take i).reverse = false ∧
      (name ≠ "" → Text.wordAt (bodyText body)[i + name.length]? = false) := by
  have hname : name ∈ names := mem_toList_iff.mp h.mem
  refine ⟨hname, h.fits.stands, h.fits.noMember, fun hne => ?_⟩
  refine h.fits.wordAt_behind (hwords name hname) fun hnil => hne ?_
  exact String.toList_eq_nil_iff.mp hnil

theorem usedIn_whole_iff (hwords : ∀ name ∈ names, ∀ c ∈ name.toList, Text.isWordChar c = true) :
    (∀ i name, UsedIn body names i name → WholeWord (bodyText body) i name.toList) ↔
      (∀ i, ¬ UsedIn body names i "") ∧
        ∀ i v n, WholeWord (bodyText body) i (v ++ n) → v ≠ [] → n ≠ [] → String.ofList n ∈ names →
          String.ofList (v ++ n) ∈ names ∧
            NamePattern.followsAccess ((bodyText body).take i).reverse = false := by
  have hchars : Function.Surjective String.toList := fun n =>
    ⟨String.ofList n, String.toList_ofList⟩
  have hmem (n : List Char) : String.ofList n ∈ names ↔ n ∈ names.map String.toList := by
    rw [← mem_toList_iff, String.toList_ofList]
  have hall : ∀ n ∈ names.map String.toList, ∀ c ∈ n, Text.isWordChar c = true := by
    intro n hn
    obtain ⟨name, hname, rfl⟩ := mem_map.mp hn
    exact hwords name hname
  have hwhole := used_whole_iff (s := bodyText body) hall
  rw [forall_congr' fun i => hchars.forall] at hwhole
  simp only [hmem]
  exact hwhole

/-- **When the uses of names are whole words.** A visitor is asked about all uses, in order, and
some are reported. Each is of a global name, ends a word, and is no member. But all are whole words
exactly if the empty name is not used, and each word of the body that ends in one of the names is
one of them and no member. -/
theorem nameUses_whole_iff {α : Type} (c : Context) (tree : FileTree) (twoPass : Bool)
    (paths : List String) (macros : Table Definition) (cb : Codebase)
    (hscan : (Codebase.scanFiles c tree twoPass false paths { macros }).start.1 = .ok cb)
    (onlyErrors : Bool) (g : AccessEvent → List α) (shown : Span → String → String)
    (d : Definition) :
    told (ofCodebase cb) onlyErrors shown d = (nameUses cb onlyErrors d).map
      (fun use => shown ⟨use.1, use.1 + use.2.length⟩ use.2) ∧
    (∀ place name, (place, name) ∈ reports cb onlyErrors g d ↔
      ∃ body i, searchedBody? cb d = some body ∧ place = usePlace d body i ∧
        (i, name) ∈ nameUses cb onlyErrors d ∧
        (onlyErrors || isForeign cb d.moduleName name) = true) ∧
    ∀ body, searchedBody? cb d = some body → (∀ use ∈ nameUses cb onlyErrors d,
        use.2 ∈ searchedNames cb onlyErrors d.moduleName ∧ use.2 ∈ cb.names.keys ∧
        use.2.toList <+: (bodyText body).drop use.1 ∧
        NamePattern.followsAccess ((bodyText body).take use.1).reverse = false ∧
        (use.2 ≠ "" → Text.wordAt (bodyText body)[use.1 + use.2.length]? = false)) ∧
      ((∀ use ∈ nameUses cb onlyErrors d, WholeWord (bodyText body) use.1 use.2.toList) ↔
        (∀ i, (i, "") ∉ nameUses cb onlyErrors d) ∧
        ∀ i v n, WholeWord (bodyText body) i (v ++ n) → v ≠ [] → n ≠ [] →
          String.ofList n ∈ searchedNames cb onlyErrors d.moduleName →
          String.ofList (v ++ n) ∈ searchedNames cb onlyErrors d.moduleName ∧
            NamePattern.followsAccess ((bodyText body).take i).reverse = false) := by
  have hcb : cb.WordNames := (Codebase.wordNames_start macros).scanFiles hscan
  refine ⟨?_, fun place name => ?_, fun body hbody => ⟨?_, ?_⟩⟩
  · rw [nameUses, told_eq rfl, namePattern_ofCodebase]
  · rw [mem_reports_iff hcb]
    refine exists_congr fun body => exists_congr fun i => and_congr_right fun hbody => ?_
    rw [mem_nameUses_iff hcb hbody]
  · rintro ⟨i, name⟩ huse
    obtain ⟨hname, hrest⟩ := ((mem_nameUses_iff hcb hbody).mp huse).spec (words_searchedNames hcb)
    exact ⟨hname, mem_keys_of_mem_searchedNames hcb hname, hrest⟩
  · rw [Prod.forall]
    simp only [mem_nameUses_iff hcb hbody]
    exact usedIn_whole_iff (words_searchedNames hcb)

/-! ## The end of another name -/

/-- A file in which the name of one function is the end of another name that is used. -/
def endText : String :=
  "int ff(void) \x7b return 0; \x7d\n" ++
  "int gg(void) \x7b return xff(); \x7d\n"

/-- The tree of that file alone. -/
def endTree : FileTree := ⟨⟨[(Path.normalize "a.c", endText)]⟩⟩

theorem plainFindings_end : ((Codebase.plainFindings {} endTree "a.c").toOption.map fun findings =>
      let cb := ({} : Codebase).enterAll findings
      (cb.names.find? "gg").map fun d => (searchedBody? cb d).map fun body =>
        decide (UsedIn body cb.names.keys 9 "ff") &&
          decide (WholeWord (bodyText body) 8 "xff".toList) && !cb.names.keys.contains "xff") =
      some (some (some true)) := by
  rw [Codebase.plainFindings, Codebase.openFile, endTree, Codebase.find?_single]
  decide +kernel

/-- The use is found, and it is not a whole word. -/
theorem nameUses_whole_iff_end :
    ∃ cb d body, (Codebase.scanFiles {} endTree false false ["a.c"] {}).start.1 = .ok cb ∧
      cb.names.find? "gg" = some d ∧ searchedBody? cb d = some body ∧
      (9, "ff") ∈ nameUses cb false d ∧
      ¬ ∀ use ∈ nameUses cb false d, WholeWord (bodyText body) use.1 use.2.toList := by
  obtain ⟨findings, hend, hscan⟩ := Codebase.exists_scanFiles_single plainFindings_end
  obtain ⟨d, hd, hend⟩ := Option.map_eq_some_iff.mp hend
  obtain ⟨body, hbody, hend⟩ := Option.map_eq_some_iff.mp hend
  rw [Bool.and_eq_true, Bool.and_eq_true, decide_eq_true_eq, decide_eq_true_eq,
    Bool.not_eq_true', contains_eq_mem, decide_eq_false_iff_not] at hend
  obtain ⟨⟨hused, hword⟩, hname⟩ := hend
  obtain ⟨-, -, huses⟩ := nameUses_whole_iff {} endTree false ["a.c"] {} _ hscan false
    (fun _ => ([] : List Unit)) (fun _ name => name) d
  have hcb := (Codebase.wordNames_start {}).scanFiles hscan
  refine ⟨_, d, body, hscan, hd, hbody, (mem_nameUses_iff hcb hbody).mpr hused, fun hall => ?_⟩
  obtain ⟨-, hends⟩ := (huses body hbody).2.mp hall
  have hlonger := hends 8 ['x'] ['f', 'f'] hword (cons_ne_nil _ _) (cons_ne_nil _ _)
    (mem_toList_iff.mp hused.mem)
  exact hname hlonger.1

end Checker

end CBoundary
