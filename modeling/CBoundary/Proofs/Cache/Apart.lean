import CBoundary.Proofs.Cache

/-!
# Where the results of sources are kept

A source with an absolute path lies below the root, elsewhere, or beside the root, if it starts like
it without being below it.  The results of sources of one region are kept apart.
-/

namespace CBoundary

open List

namespace Path

variable {path dir root : String} {ds ps qs : List String}

theorem slashes_ne_zero (h : isAbsolute path = true) : (slashes path != 0) = true := by
  obtain ⟨rest, hrest⟩ := String.startsWith_string_iff.mp h
  simp [slashes, ← hrest]

theorem commonLength_append (ds ps qs : List String) :
    commonLength (ds ++ ps) (ds ++ qs) = ds.length + commonLength ps qs := by
  induction ds with
  | nil => simp
  | cons d ds ih =>
    simp only [cons_append, commonLength, beq_self_eq_true, if_true, ih, length_cons]
    omega

theorem relative_eq (hpath : isAbsolute path = true) (hdir : isAbsolute dir = true)
    (hps : steps path = ds ++ ps) (hqs : steps dir = ds ++ qs) (hpart : commonLength ps qs = 0)
    (hne : ps ≠ []) (cwd : String) :
    relative cwd path dir = "/".intercalate (List.replicate qs.length ".." ++ ps) := by
  have habsolute {p : String} (h : isAbsolute p = true) : absoluteParts cwd p = steps p := by
    have hjoin : join cwd p = p := if_pos h
    rw [absoluteParts, hjoin, steps, slashes_ne_zero h]
  rw [relative, habsolute hpath, habsolute hdir, hps, hqs, commonLength_append, hpart, Nat.add_zero,
    drop_left, length_append, Nat.add_sub_cancel_left, if_neg (by simp [hne])]

theorem intercalate_parts (path : String) : "/".intercalate (parts path) = path := by
  rw [parts_eq, ← String.toList_inj, String.toList_intercalate]
  simp [Function.comp_def]

theorem normalize_ne_empty (path : String) : normalize path ≠ "" := by
  rw [normalize_eq]
  split
  · decide
  · rename_i h
    exact fun hempty => h (String.isEmpty_iff.mpr hempty)

theorem parts_of_normal (hnormal : normalize path = path) (h : isAbsolute path = true)
    (hne : steps path ≠ []) :
    parts path = List.replicate (front path).length "" ++ steps path := by
  have htext := normalize_eq path
  rw [hnormal] at htext
  split at htext
  · rw [htext] at h
    exact absurd h (by decide +kernel)
  · have hsteps := parts_intercalate (fun p hp => slash_notMem_of_mem_steps hp) hne
    have hslashes := slashes_ne_zero h
    conv_lhs => rw [htext]
    unfold front frontOf
    split
    · have hfront : "//" ++ "/".intercalate (steps path) =
          "/" ++ ("/" ++ "/".intercalate (steps path)) := by rw [← String.append_assoc]; rfl
      rw [hfront, parts_slash_append, parts_slash_append, hsteps]
      rfl
    · rw [if_neg (by simpa using hslashes), parts_slash_append, hsteps]
      rfl

theorem steps_of_startsWith (hroot : normalize root = root) (hpath : normalize path = path)
    (hne : steps path ≠ []) (habsolute : isAbsolute path = true)
    (habsolute' : isAbsolute root = true) (h : root.toList <+: path.toList) :
    steps root = [] ∨ ∃ ds r c rest, steps root = ds ++ [r] ∧ steps path = ds ++ c :: rest := by
  refine (eq_nil_or_concat (steps root)).imp_right ?_
  rintro ⟨ds, r, hsteps⟩
  rw [concat_eq_append] at hsteps
  have hr : r ∈ steps root := by simp [hsteps]
  have hslashless : '/' ∉ r.toList := slash_notMem_of_mem_steps hr
  have hparts := parts_of_normal hroot habsolute' (ne_nil_of_mem hr)
  rw [hsteps, ← append_assoc] at hparts
  obtain ⟨tail, htail⟩ := h
  have hpathText : path = root ++ String.ofList tail := String.toList_inj.mp (by simp [← htail])
  obtain ⟨c, hc⟩ := exists_mem_of_ne_nil _
    (mt String.toList_eq_nil_iff.mp ((normal_steps root).ne_empty_of_mem hr))
  have hpathParts := parts_of_normal hpath habsolute hne
  have htext := intercalate_parts root
  generalize hlead : List.replicate (front root).length "" ++ ds = lead at hparts
  have hleadne : lead ≠ [] := by
    have hslashes := slashes_ne_zero habsolute'
    rw [← hlead, front, frontOf]
    split
    · simp
    · rw [if_neg (by simpa using hslashes)]
      simp
  rw [hparts, String.intercalate_append_of_ne_nil hleadne (by simp),
    String.intercalate_singleton] at htext
  have hfront : front path = front root := by
    rw [front, front, hpathText, slashes_append (.inl ⟨c, ?_, ?_⟩)]
    · rw [← htext, String.toList_append]
      exact mem_append_right _ hc
    · rintro rfl
      exact hslashless hc
  have hsplit : parts path = lead ++ parts (r ++ String.ofList tail) := by
    have hfirst := parts_append_slash ("/".intercalate lead) r
    rw [htext, hparts, parts_of_slashless hslashless, append_cancel_right_eq] at hfirst
    rw [hpathText, ← htext, String.append_assoc, parts_append_slash, ← hfirst]
  rw [hpathParts, hfront, ← hlead, append_assoc, append_cancel_left_eq] at hsplit
  obtain ⟨c, rest, hrest⟩ := exists_cons_of_ne_nil
    (by rw [parts_eq]; simp [splitOn_ne_nil] : parts (r ++ String.ofList tail) ≠ [])
  exact ⟨ds, r, c, rest, hsteps, by rw [hsplit, hrest]⟩

end Path

namespace Cache

open CBoundary.Path

variable {root source source' suffix : String}

/-- Where a source lies. -/
inductive Region where
  | below
  /-- It starts like the root without being below it. -/
  | beside
  | elsewhere
  deriving DecidableEq

/-- The region in which a source lies. -/
def region (root source : String) : Region :=
  if source.startsWith root then if steps root <+: steps source then .below else .beside
  else .elsewhere

/-- What sources of a region share with the root. -/
def lead (root : String) : Region → List String
  | .below => steps root
  | .beside => (steps root).dropLast
  | .elsewhere => []

/-- The way to the result of a source from the directory around that of the kept results. -/
def way (root source : String) : List String :=
  (if region root source = .beside then [] else [".parsecache"]) ++
    (steps source).drop (lead root (region root source)).length

/-- The path of a source: normal, absolute, and neither the root nor that of all paths. -/
structure IsSource (root source : String) : Prop where
  normal : normalize source = source
  absolute : isAbsolute source = true
  ne_root : steps source ≠ steps root
  steps_ne : steps source ≠ []

theorem IsSource.sourceName_eq (h : IsSource root source) (hroot : normalize root = root) :
    root ≠ "" ∧ ∃ dirs name, steps source = lead root (region root source) ++ (dirs ++ [name]) ∧
      sourceName root source = "/".intercalate
        ((if region root source = .beside then [".."] else []) ++ (dirs ++ [name])) := by
  have hne : root ≠ "" := fun h => normalize_ne_empty root (hroot.trans h)
  refine ⟨hne, ?_⟩
  suffices ∃ rest, rest ≠ [] ∧ steps source = lead root (region root source) ++ rest ∧
      sourceName root source =
        "/".intercalate ((if region root source = .beside then [".."] else []) ++ rest) by
    obtain ⟨rest, hrest, h⟩ := this
    obtain ⟨dirs, name, rfl⟩ := (eq_nil_or_concat rest).resolve_left hrest
    exact ⟨dirs, name, by simpa using h⟩
  unfold sourceName region
  by_cases hstarts : source.startsWith root = true
  · have hstart := String.startsWith_string_iff.mp hstarts
    have habsolute : isAbsolute root = true := by
      obtain ⟨c, cs, hchars⟩ := exists_cons_of_ne_nil (mt String.toList_eq_nil_iff.mp hne)
      obtain ⟨rest, hrest⟩ := String.startsWith_string_iff.mp h.absolute
      rw [hchars, ← hrest] at hstart
      obtain rfl : c = '/' := (cons_prefix_cons.mp hstart).1
      exact String.startsWith_string_iff.mpr ⟨cs, hchars.symm⟩
    simp only [hstarts, String.isEmpty_eq_false_iff.mpr hne, Bool.not_false, Bool.and_self, if_true]
    by_cases hbelow : steps root <+: steps source
    · obtain ⟨rest, hrest⟩ := hbelow
      have hrestne : rest ≠ [] := by
        rintro rfl
        exact h.ne_root (by simpa using hrest.symm)
      rw [if_pos (hrest ▸ prefix_append _ _)]
      exact ⟨rest, hrestne, hrest.symm, relative_eq h.absolute habsolute hrest.symm
        (append_nil _).symm (by cases rest <;> rfl) hrestne _⟩
    · obtain ⟨ds, r, c, rest, hds, hsource⟩ := (steps_of_startsWith hroot h.normal h.steps_ne
        h.absolute habsolute hstart).resolve_left fun hnone => hbelow (hnone ▸ nil_prefix)
      have hother : c ≠ r := by
        rintro rfl
        exact hbelow ⟨rest, by simp [hds, hsource]⟩
      rw [if_neg hbelow, lead, hds, dropLast_concat]
      exact ⟨c :: rest, cons_ne_nil _ _, hsource, relative_eq h.absolute habsolute hsource hds
        (by simp [commonLength, hother]) (cons_ne_nil _ _) _⟩
  · have hfrom : steps "/" = [] := by
      rw [steps, parts_eq]
      decide
    rw [Bool.not_eq_true] at hstarts
    simp only [hstarts, Bool.and_false, Bool.false_eq_true, if_false]
    rw [if_pos h.absolute]
    exact ⟨steps source, h.steps_ne, rfl, relative_eq h.absolute (by decide +kernel)
      (nil_append _).symm (hfrom.trans (append_nil _).symm) (by cases steps source <;> rfl)
      h.steps_ne _⟩

theorem plain_append {p : String} (h : Plain p) (suffix : String) : Plain (p ++ suffix) := by
  obtain ⟨hempty, hdot, hup⟩ := h
  simp only [Plain, ne_eq, ← String.toList_inj, String.toList_append] at hempty hdot hup ⊢
  rcases hchars : p.toList with - | ⟨c, - | ⟨d, cs⟩⟩
  · exact absurd hchars hempty
  · rw [hchars] at hdot
    exact ⟨by simp, fun h => hdot (by simp_all), fun h => hdot (by simp_all)⟩
  · rw [hchars] at hup
    exact ⟨by simp, by simp, fun h => hup (by simp_all)⟩

theorem intercalate_append (l : List String) (p s : String) :
    "/".intercalate (l ++ [p]) ++ s = "/".intercalate (l ++ [p ++ s]) := by
  cases l with
  | nil => rw [nil_append, nil_append, String.intercalate_singleton, String.intercalate_singleton]
  | cons q l =>
    rw [String.intercalate_append_of_ne_nil (cons_ne_nil _ _) (cons_ne_nil _ _),
      String.intercalate_append_of_ne_nil (cons_ne_nil _ _) (cons_ne_nil _ _),
      String.intercalate_singleton, String.intercalate_singleton, String.append_assoc]

theorem IsSource.steps_path? (h : IsSource root source) (hroot : normalize root = root)
    (hsuffix : '/' ∉ suffix.toList) :
    ∃ path dirs name, path? root source suffix = some path ∧ front path = front root ∧
      way root source = dirs ++ [name] ∧
      steps path = steps root ++ "build" :: (dirs ++ [name ++ suffix]) := by
  obtain ⟨hne, dirs, name, hsource, hname⟩ := h.sourceName_eq hroot
  have hmem : ∀ p ∈ dirs ++ [name], p ∈ steps source := fun p hp => hsource ▸ mem_append_right _ hp
  have hplain : ∀ p ∈ dirs ++ [name ++ suffix], Plain p ∧ '/' ∉ p.toList := by
    obtain ⟨n, rest, hsteps, hrest, hn⟩ := normal_steps source
    rw [hn (slashes_ne_zero h.absolute), replicate_zero, nil_append] at hsteps
    have hstep {p : String} (hp : p ∈ steps source) : Plain p ∧ '/' ∉ p.toList :=
      ⟨hrest p (hsteps ▸ hp), slash_notMem_of_mem_steps hp⟩
    simp only [mem_append, mem_singleton] at hmem ⊢
    rintro p (hp | rfl)
    · exact hstep (hmem p (.inl hp))
    · obtain ⟨hplain, hslash⟩ := hstep (hmem name (.inr rfl))
      exact ⟨plain_append hplain suffix, by simp [hslash, hsuffix]⟩
  rw [← append_assoc] at hname
  have hall : ∀ p ∈ (if region root source = .beside then [".."] else []) ++
      (dirs ++ [name ++ suffix]), p ≠ "" ∧ '/' ∉ p.toList := by
    intro p hp
    rcases mem_append.mp hp with hp | hp
    · split at hp
      · rw [mem_singleton.mp hp]
        decide
      · cases hp
    · exact ⟨(hplain p hp).1.1, (hplain p hp).2⟩
  have hparts : parts (sourceName root source ++ suffix) =
      (if region root source = .beside then [".."] else []) ++ (dirs ++ [name ++ suffix]) := by
    rw [hname, intercalate_append, append_assoc,
      parts_intercalate (fun p hp => (hall p hp).2) (by simp)]
  have hhead : (sourceName root source ++ suffix).toList.head? ≠ some '/' := by
    intro hhead
    obtain ⟨rest, hrest⟩ := head?_eq_some_iff.mp hhead
    have htext : sourceName root source ++ suffix = "/" ++ String.ofList rest :=
      String.toList_inj.mp (by simp [hrest])
    rw [htext, parts_slash_append] at hparts
    exact (hall "" (hparts ▸ mem_cons_self)).1 rfl
  obtain ⟨hfront, hsteps⟩ := front_steps_join_directory hne hhead
  refine ⟨_, (if region root source = .beside then [] else [".parsecache"]) ++ dirs, name,
    if_neg (by simpa using hne), hfront, by rw [way, hsource, drop_left, append_assoc], ?_⟩
  rw [hsteps, hparts]
  have hplain : ∀ p ∈ dirs ++ [name ++ suffix], Plain p := fun p hp => (hplain p hp).1
  split
  · simpa using normalParts_steps_up hplain
  · have hbelow : ∀ p ∈ "build" :: ".parsecache" :: (dirs ++ [name ++ suffix]), Plain p := by
      simpa [Plain] using hplain
    simpa using (normalParts_steps_append hbelow : normalParts (slashes root != 0) _ = _)

/-! ## Sources apart -/

/-- A path leads to something below a directory. -/
def Inside (dir path : String) : Prop :=
  front path = front dir ∧ ∃ below, below ≠ [] ∧ steps path = steps dir ++ below

namespace Store

variable {α : Type} {s : Store α} {place dep : String} {f : File α} {dependencies : List String}

/-- What tells whether a result is fresh is neither at the place nor a directory above it. -/
def IsClear (place source : String) (dependencies : List String) : Prop :=
  ∀ dep ∈ if dependencies.isEmpty then [source] else dependencies,
    normalize dep ≠ place ∧ ¬ (normalize dep ++ "/").toList <+: place.toList

theorem time?_insert (hne : normalize dep ≠ place)
    (habove : ¬ (normalize dep ++ "/").toList <+: place.toList) :
    ({ s with files := s.files.insert place f } : Store α).time? dep = s.time? dep := by
  have hfile : ({ s with files := s.files.insert place f } : Store α).file? dep = s.file? dep := by
    rw [file?, file?, Table.find?_insert, if_neg hne]
  have hdir : ({ s with files := s.files.insert place f } : Store α).hasDirectory (normalize dep) =
      s.hasDirectory (normalize dep) := by
    rw [Bool.eq_iff_iff]
    simp only [hasDirectory, Bool.or_eq_true, any_eq_true, Table.mem_keys_iff, Table.find?_insert]
    refine or_congr_right (exists_congr fun key => ?_)
    by_cases hkey : key = place
    · subst hkey
      simp [String.startsWith_string_eq_false_iff.mpr habove]
    · simp [hkey]
  rw [time?, time?, hfile, hdir]

theorem get_insert (hother : place? s.root source suffix ≠ some place)
    (hclear : IsClear place source dependencies) :
    ({ s with files := s.files.insert place f } : Store α).get source dependencies suffix =
      s.get source dependencies suffix := by
  unfold get isFresh
  cases hpath : path? s.root source suffix with
  | none => rfl
  | some path =>
    have hne : normalize path ≠ place := fun h => hother (by rw [place?, hpath, ← h]; rfl)
    have hfile : ({ s with files := s.files.insert place f } : Store α).file? path = s.file? path := by
      rw [file?, file?, Table.find?_insert, if_neg hne]
    have hall (t : Int) : (if dependencies.isEmpty then [source] else dependencies).all
          (({ s with files := s.files.insert place f } : Store α).notNewer t) =
        (if dependencies.isEmpty then [source] else dependencies).all (s.notNewer t) := by
      rw [Bool.eq_iff_iff, all_eq_true, all_eq_true]
      refine forall₂_congr fun dep hdep => ?_
      rw [notNewer, notNewer, time?_insert (hclear dep hdep).1 (hclear dep hdep).2]
    simp only [Option.bind_some, hfile, hall]
    cases hfound : s.file? path with
    | none => simp
    | some f => rw [time?, time?, hfile, hfound]

end Store

/-- Results of absolute sources are kept inside the directory of the kept results exactly if their
way leads there, which it does unless the source lies beside the root. Two are at one place exactly
if their ways are the same, which those of one region are not. Keeping one changes no other file,
and nothing that is found by another way. -/
theorem place?_apart_iff {α : Type} (hroot : normalize root = root) (h : IsSource root source)
    (h' : IsSource root source') (hsuffix : '/' ∉ suffix.toList) :
    ∃ place place', place? root source suffix = some place ∧ place? root source' suffix = some place' ∧
      (Inside (directory root) place ↔
        ∃ below, below ≠ [] ∧ way root source = ".parsecache" :: below) ∧
      (region root source ≠ .beside → Inside (directory root) place) ∧
      (place = place' ↔ way root source = way root source') ∧
      (region root source = region root source' → front source = front source' → place = place' →
        source = source') ∧
      ∀ (s : Store α) (x : Option α) (time : Int), s.root = root →
        (∀ other ≠ place, (s.put x source suffix time).files.find? other = s.files.find? other) ∧
        (way root source ≠ way root source' → ∀ dependencies, Store.IsClear place source' dependencies →
          (s.put x source suffix time).get source' dependencies suffix =
            s.get source' dependencies suffix) := by
  obtain ⟨path, dirs, name, hpath, hfront, hway, hsteps⟩ := h.steps_path? hroot hsuffix
  obtain ⟨path', dirs', name', hpath', hfront', hway', hsteps'⟩ := h'.steps_path? hroot hsuffix
  have hplace : place? root source suffix = some (normalize path) := by rw [place?, hpath]; rfl
  have hplace' : place? root source' suffix = some (normalize path') := by rw [place?, hpath']; rfl
  have hsame : normalize path = normalize path' ↔ way root source = way root source' := by
    have hwhole : normalize path = normalize path' ↔ steps path = steps path' :=
      ⟨fun heq => by rw [← (front_steps_normalize path).2, heq, (front_steps_normalize path').2],
        normalize_congr (hfront.trans hfront'.symm)⟩
    rw [hwhole, hsteps, hsteps', hway, hway']
    simp
  have hinside : Inside (directory root) (normalize path) ↔
      ∃ below, below ≠ [] ∧ way root source = ".parsecache" :: below := by
    obtain ⟨hfrontDir, -, hstepsDir⟩ := front_steps_directory (h.sourceName_eq hroot).1
    rw [Inside, (front_steps_normalize path).1, (front_steps_normalize path).2, hfrontDir,
      hstepsDir, hsteps, hway]
    cases dirs with
    | nil => simp [hfront]
    | cons d dirs => simp [hfront]
  refine ⟨_, _, hplace, hplace', hinside, fun hregion => hinside.mpr ?_, hsame,
    fun hregion hsameFront heq => ?_, ?_⟩
  · obtain ⟨-, dirs, name, hsource, -⟩ := h.sourceName_eq hroot
    exact ⟨dirs ++ [name], by simp, by rw [way, hsource, drop_left, if_neg hregion]; rfl⟩
  · obtain ⟨-, dirs, name, hsource, -⟩ := h.sourceName_eq hroot
    obtain ⟨-, dirs', name', hsource', -⟩ := h'.sourceName_eq hroot
    have hrest := hsame.mp heq
    rw [way, way, hsource, hsource', drop_left, drop_left, hregion, append_cancel_left_eq] at hrest
    rw [← h.normal, ← h'.normal]
    exact normalize_congr hsameFront (by rw [hsource, hsource', hregion, hrest])
  · rintro s x time rfl
    have hput : s.put x source suffix time =
        { s with files := s.files.insert (normalize path) ⟨time, .result x⟩ } := by
      simp only [Store.put, Store.set, hpath]
      rfl
    rw [hput]
    refine ⟨fun other hother => (Table.find?_insert ..).trans (if_neg hother),
      fun hways dependencies hclear => Store.get_insert (fun h => hways (hsame.mp ?_)) hclear⟩
    exact (Option.some.inj (hplace'.symm.trans h)).symm

/-- The result of `/rx/a.c`, beside the root `/r`, is kept outside of the directory; those of
`/r/x.c` and `/x.c` are kept at one place. -/
theorem place?_apart_iff_beside :
    (∃ place, place? "/r" "/rx/a.c" "" = some place ∧ ¬ Inside (directory "/r") place) ∧
      place? "/r" "/r/x.c" "" = place? "/r" "/x.c" "" := by
  have hr : steps "/r" = ["r"] := by rw [steps, parts_eq]; decide
  have ha : steps "/rx/a.c" = ["rx", "a.c"] := by rw [steps, parts_eq]; decide
  have hx : steps "/r/x.c" = ["r", "x.c"] := by rw [steps, parts_eq]; decide
  have hy : steps "/x.c" = ["x.c"] := by rw [steps, parts_eq]; decide
  have hroot : normalize "/r" = "/r" := by rw [normalize_eq, hr]; decide +kernel
  have hsource {source : String} {ps : List String} (hsteps : steps source = ps) (hps : ps ≠ ["r"])
      (hne : ps ≠ []) (habsolute : isAbsolute source = true)
      (hnormal : normalize source = source) : IsSource "/r" source :=
    ⟨hnormal, habsolute, by rwa [hsteps, hr], by rwa [hsteps]⟩
  have ha' : IsSource "/r" "/rx/a.c" := hsource ha (by decide) (by decide) (by decide +kernel)
    (by rw [normalize_eq, ha]; decide +kernel)
  have hx' : IsSource "/r" "/r/x.c" := hsource hx (by decide) (by decide) (by decide +kernel)
    (by rw [normalize_eq, hx]; decide +kernel)
  have hy' : IsSource "/r" "/x.c" := hsource hy (by decide) (by decide) (by decide +kernel)
    (by rw [normalize_eq, hy]; decide +kernel)
  have hregion : region "/r" "/rx/a.c" = .beside ∧ region "/r" "/r/x.c" = .below ∧
      region "/r" "/x.c" = .elsewhere := by
    simp only [region, hr, ha, hx, hy]
    decide +kernel
  have hslashless : '/' ∉ "".toList := by decide
  obtain ⟨place, -, hplace, -, hinside, -⟩ := place?_apart_iff (α := Unit) hroot ha' hx' hslashless
  obtain ⟨place₁, place₂, hplace₁, hplace₂, -, -, hsame, -⟩ :=
    place?_apart_iff (α := Unit) hroot hx' hy' hslashless
  refine ⟨⟨place, hplace, fun h => ?_⟩, ?_⟩
  · obtain ⟨below, -, hway⟩ := hinside.mp h
    simp [way, hregion, lead, hr, ha] at hway
  · rw [hplace₁, hplace₂, hsame.mpr (by simp [way, hregion, lead, hr, hx, hy])]

end Cache

end CBoundary
