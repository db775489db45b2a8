import CBoundary.Cache
import CBoundary.Proofs.Path
import CBoundary.Proofs.Table

/-!
# What is kept at a place

The files of a store lie at normal paths, their places.  Results with different names have
different places, also below different roots.
-/

namespace CBoundary.Cache

open CBoundary.Path

variable {name root source suffix root' source' suffix' : String}

/-- The place of a kept result; without a root there is none. -/
def place? (root source suffix : String) : Option String :=
  (path? root source suffix).map Path.normalize

/-! ## Places -/

/-- A name without slashes that does not start with a dot. -/
structure IsName (name : String) : Prop where
  slashless : '/' ∉ name.toList
  visible : ∃ c cs, name.toList = c :: cs ∧ c ≠ '.'

theorem IsName.plain (h : IsName name) : Plain name := by
  obtain ⟨c, cs, hname, hc⟩ := h.visible
  refine ⟨?_, ?_, ?_⟩ <;> rintro rfl
  · cases hname
  · exact hc (List.cons.inj hname).1.symm
  · exact hc (List.cons.inj hname).1.symm

theorem head?_ne_slash (h : '/' ∉ name.toList) : name.toList.head? ≠ some '/' :=
  fun hslash => h (List.mem_of_mem_head? hslash)

theorem IsName.of_start {start : String} (h : IsName name) (hstart : start ≠ "")
    (hstarts : start.toList <+: name.toList) : IsName start := by
  obtain ⟨c, cs, hname, hc⟩ := h.visible
  refine ⟨fun hslash => h.slashless (hstarts.subset hslash), ?_⟩
  cases hchars : start.toList with
  | nil => exact absurd (String.toList_eq_nil_iff.mp hchars) hstart
  | cons d ds =>
    rw [hchars, hname] at hstarts
    exact ⟨d, ds, rfl, (List.cons_prefix_cons.mp hstarts).1 ▸ hc⟩

theorem absoluteParts_workingDirectory (h : IsName name) :
    absoluteParts workingDirectory name = ["1", "2", "3", "4", "5", "6", "7", "8", "9", name] := by
  have hparts : parts workingDirectory = ["", "1", "2", "3", "4", "5", "6", "7", "8", "9"] := by
    rw [parts_eq]
    decide
  have hdir : workingDirectory ≠ "" := by decide
  have hjoin := slashes_parts_join hdir (head?_ne_slash h.slashless) true
  rw [absoluteParts, hjoin.2, hparts, parts_of_slashless h.slashless,
    normalParts_append_of_plain (by simpa using h.plain)]
  rfl

theorem sourceName_cases (hroot : root ≠ "") (h : IsName source) :
    sourceName root source = source ∨ sourceName root source = "../" ++ source ∨
      sourceName root source = "." ∧ root = source := by
  unfold sourceName
  split
  · rename_i hcond
    rw [Bool.and_eq_true] at hcond
    have hrootName := h.of_start hroot (String.startsWith_string_iff.mp hcond.2)
    rw [relative, absoluteParts_workingDirectory h, absoluteParts_workingDirectory hrootName]
    by_cases heq : source = root
    · refine .inr (.inr ⟨?_, heq.symm⟩)
      simp [commonLength, heq]
    · refine .inr (.inl ?_)
      simp [commonLength, heq]
  · rw [isAbsolute, startsWith_slash_eq_false (head?_ne_slash h.slashless),
      if_neg Bool.false_ne_true]
    exact .inl rfl

/-- Where a result may be kept below the root. -/
inductive Below (root source suffix : String) : List String → Prop
  | inside : Below root source suffix ["build", ".parsecache", source ++ suffix]
  /-- The source starts with the root itself. -/
  | beside : Below root source suffix ["build", source ++ suffix]
  /-- The source is the root itself. -/
  | bare (h : root = source) (hsuffix : suffix = "") :
    Below root source suffix ["build", ".parsecache"]
  | hidden (h : root = source) (hsuffix : suffix ≠ "") :
    Below root source suffix ["build", ".parsecache", "." ++ suffix]

theorem IsName.append (h : IsName name) (hsuffix : '/' ∉ suffix.toList) :
    IsName (name ++ suffix) := by
  obtain ⟨c, cs, hname, hc⟩ := h.visible
  refine ⟨?_, c, cs ++ suffix.toList, by rw [String.toList_append, hname, List.cons_append], hc⟩
  rw [String.toList_append, List.mem_append]
  exact not_or.mpr ⟨h.slashless, hsuffix⟩

theorem front_steps_directory (hroot : root ≠ "") :
    front (directory root) = front root ∧ slashes (directory root) = slashes root ∧
      steps (directory root) = steps root ++ ["build", ".parsecache"] := by
  have hparts : parts "build/.parsecache" = ["build", ".parsecache"] := by
    rw [parts_eq]
    decide
  have hrel : "build/.parsecache".toList.head? ≠ some '/' := by decide
  obtain ⟨hfront, hsteps⟩ := front_steps_join hroot hrel
  refine ⟨hfront, (slashes_parts_join hroot hrel true).1, hsteps.trans ?_⟩
  rw [hparts, normalParts_append_of_plain (by simp [Plain]),
    normalParts_of_normal (normal_steps root)]

/-- A name for a result: that of its source, and what stands behind it. -/
structure IsKey (source suffix : String) : Prop where
  name : IsName source
  slashless : '/' ∉ suffix.toList
  ne_dot : suffix ≠ "."

theorem IsKey.full (h : IsKey source suffix) : IsName (source ++ suffix) :=
  h.name.append h.slashless

theorem normalParts_steps_append {qs : List String} (hqs : ∀ q ∈ qs, Plain q) :
    normalParts (slashes root != 0) (steps root ++ qs) = steps root ++ qs := by
  rw [normalParts_append_of_plain hqs, normalParts_of_normal (normal_steps root)]

theorem normalParts_steps_up {qs : List String} (hqs : ∀ q ∈ qs, Plain q) :
    normalParts (slashes root != 0) (steps root ++ ["build", ".parsecache"] ++ ".." :: qs) =
      steps root ++ "build" :: qs := by
  calc normalParts (slashes root != 0) (steps root ++ ["build", ".parsecache"] ++ ".." :: qs)
      = normalParts (slashes root != 0) (steps root ++ ["build"] ++ [".parsecache", ".."] ++ qs) := by
        simp
    _ = normalParts (slashes root != 0) (steps root ++ ["build"]) ++ qs := by
        rw [normalParts_append_of_plain hqs, normalParts_append_up (by simp [Plain])]
    _ = steps root ++ "build" :: qs := by
        rw [normalParts_steps_append (by simp [Plain]), List.append_assoc, List.singleton_append]

theorem front_steps_join_directory {below : String} (hroot : root ≠ "")
    (hhead : below.toList.head? ≠ some '/') :
    front (Path.join (directory root) below) = front root ∧
      steps (Path.join (directory root) below) = normalParts (slashes root != 0)
        (steps root ++ ["build", ".parsecache"] ++ parts below) := by
  obtain ⟨hfront, hslashes, hsteps⟩ := front_steps_directory hroot
  have hdir : directory root ≠ "" := by
    intro hempty
    rw [hempty, steps, parts_of_slashless (by decide)] at hsteps
    simp [normalParts] at hsteps
  obtain ⟨hfront', hsteps'⟩ := front_steps_join hdir hhead
  rw [hfront', hsteps', hfront, hsteps, hslashes]
  exact ⟨rfl, rfl⟩

/-- A result is kept below the root: a source leads to the directory of the kept results, one that
starts with the root to the directory around it, and the root itself nowhere. -/
theorem front_steps_path? {path : String} (h : IsKey source suffix)
    (hpath : path? root source suffix = some path) :
    front path = front root ∧
      ∃ below, Below root source suffix below ∧ steps path = steps root ++ below := by
  unfold path? at hpath
  split at hpath
  · cases hpath
  · rename_i hroot
    rw [String.isEmpty_iff] at hroot
    cases hpath
    have hname := sourceName_cases hroot h.name
    have hfull := h.full
    have hhead : (sourceName root source ++ suffix).toList.head? ≠ some '/' := by
      rcases hname with hname | hname | ⟨hname, -⟩
      · rw [hname]
        exact head?_ne_slash hfull.slashless
      · simp [hname, String.toList_append]
      · simp [hname, String.toList_append]
    obtain ⟨hfront, hsteps⟩ := front_steps_join_directory hroot hhead
    refine ⟨hfront, ?_⟩
    rw [hsteps]
    rcases hname with hname | hname | ⟨hname, heq⟩
    · refine ⟨_, .inside, ?_⟩
      rw [hname, parts_of_slashless hfull.slashless, List.append_assoc]
      exact normalParts_steps_append (by simpa [Plain] using hfull.plain)
    · refine ⟨_, .beside, ?_⟩
      have hparts := parts_append_slash ".." (source ++ suffix)
      rw [parts_of_slashless (p := "..") (by decide), parts_of_slashless hfull.slashless,
        ← String.append_assoc] at hparts
      rw [hname, show "../" ++ source ++ suffix = ".." ++ "/" ++ source ++ suffix from rfl, hparts]
      exact normalParts_steps_up (by simpa using hfull.plain)
    · have hslashless : '/' ∉ ("." ++ suffix).toList := by
        simpa [String.toList_append] using h.slashless
      rw [hname, parts_of_slashless hslashless]
      by_cases hsuffix : suffix = ""
      · refine ⟨_, .bare heq hsuffix, ?_⟩
        rw [hsuffix, String.append_empty, normalParts_concat _ _ (.inr rfl)]
        exact normalParts_steps_append (by simp [Plain])
      · refine ⟨_, .hidden heq hsuffix, ?_⟩
        have hhidden : Plain ("." ++ suffix) := by
          refine ⟨fun hempty => ?_, fun hone => ?_, fun htwo => ?_⟩
          · simpa using congrArg String.toList hempty
          · exact hsuffix ((String.append_right_inj ".").mp hone)
          · exact h.ne_dot ((String.append_right_inj ".").mp htwo)
        rw [List.append_assoc]
        exact normalParts_steps_append (by simpa [Plain] using hhidden)

theorem IsName.ne_dot_append (h : IsName name) (rest : String) : name ≠ "." ++ rest := by
  rintro rfl
  obtain ⟨c, cs, hname, hc⟩ := h.visible
  rw [String.toList_append] at hname
  exact hc (List.cons.inj hname).1.symm

theorem Below.inj {above above' below below' : List String} (h : IsKey source suffix)
    (h' : IsKey source' suffix') (hbelow : Below root source suffix below)
    (hbelow' : Below root' source' suffix' below') (heq : above ++ below = above' ++ below') :
    above = above' ∧ (root = root' → source ++ suffix = source' ++ suffix') := by
  -- from the end on, most pairs of places differ at once
  replace heq := congrArg List.reverse heq
  cases hbelow <;> cases hbelow' <;> simp at heq
  case inside.inside => exact ⟨heq.2, fun _ => heq.1⟩
  case inside.hidden => exact absurd heq.1 (h.full.ne_dot_append _)
  case beside.beside => exact ⟨heq.2, fun _ => heq.1⟩
  case beside.bare => exact absurd heq.1 (h.full.ne_dot_append "parsecache")
  case bare.beside => exact absurd heq.1.symm (h'.full.ne_dot_append "parsecache")
  case bare.bare hroot hsuffix hroot' hsuffix' =>
    refine ⟨heq, fun hsame => ?_⟩
    rw [← hroot, hsame, hroot', hsuffix, hsuffix']
  case hidden.inside => exact absurd heq.1.symm (h'.full.ne_dot_append _)
  case hidden.hidden hroot _ hroot' _ =>
    refine ⟨heq.2, fun hsame => ?_⟩
    rw [← hroot, hsame, hroot', heq.1]

/-- Results with different names are kept apart. -/
theorem eq_of_place?_eq {place : String} (hroot : normalize root = root)
    (hroot' : normalize root' = root') (h : IsKey source suffix) (h' : IsKey source' suffix')
    (hplace : place? root source suffix = some place)
    (hplace' : place? root' source' suffix' = some place) :
    root = root' ∧ source ++ suffix = source' ++ suffix' := by
  obtain ⟨path, hpath, rfl⟩ := Option.map_eq_some_iff.mp hplace
  obtain ⟨path', hpath', heq⟩ := Option.map_eq_some_iff.mp hplace'
  obtain ⟨hfront, below, hbelow, hsteps⟩ := front_steps_path? h hpath
  obtain ⟨hfront', below', hbelow', hsteps'⟩ := front_steps_path? h' hpath'
  have hsameFront : front root = front root' := by
    rw [← hfront, ← hfront', ← (front_steps_normalize path).1, ← heq,
      (front_steps_normalize path').1]
  have hsameSteps : steps root ++ below = steps root' ++ below' := by
    rw [← hsteps, ← hsteps', ← (front_steps_normalize path).2, ← heq,
      (front_steps_normalize path').2]
  obtain ⟨habove, hname⟩ := Below.inj h h' hbelow hbelow' hsameSteps
  have hsame : root = root' := by
    rw [← hroot, ← hroot']
    exact normalize_congr hsameFront habove
  exact ⟨hsame, hname hsame⟩

/-! ## Conditions -/

namespace Store

variable {α : Type} {s : Store α} {place source suffix : String} {P : α → Prop}

/-- What lies at a place is no result, or one that fulfils a condition. -/
def KeepsAt (s : Store α) (place : String) (P : α → Prop) : Prop :=
  ∀ f, s.files.find? place = some f → f.content = .plain ∨ ∃ x, f.content = .result (some x) ∧ P x

/-- A store without results. -/
def Blank (s : Store α) : Prop := ∀ place, s.KeepsAt place fun _ => False

theorem KeepsAt.mono {P' : α → Prop} (h : s.KeepsAt place P) (hP : ∀ x, P x → P' x) :
    s.KeepsAt place P' := by
  intro f hf
  rcases h f hf with hplain | ⟨x, hx, hPx⟩
  · exact .inl hplain
  · exact .inr ⟨x, hx, hP x hPx⟩

/-- What is found was kept. -/
theorem get_cases (h : ∀ place, place? s.root source suffix = some place → s.KeepsAt place P)
    (dependencies : List String) :
    s.get source dependencies suffix = .ok none ∨
      ∃ x, s.get source dependencies suffix = .ok (some x) ∧ P x := by
  unfold get
  split
  · cases hpath : path? s.root source suffix with
    | none => exact .inl rfl
    | some path =>
      have hplace : place? s.root source suffix = some (Path.normalize path) := by
        rw [place?, hpath, Option.map_some]
      cases hfile : s.file? path with
      | none =>
        rw [Option.bind_some, hfile]
        exact .inl rfl
      | some f =>
        rw [Option.bind_some, hfile, Option.map_some]
        rcases h _ hplace f hfile with hplain | ⟨x, hx, hPx⟩
        · rw [hplain]
          exact .inl rfl
        · rw [hx]
          exact .inr ⟨x, rfl, hPx⟩
  · exact .inl rfl

theorem KeepsAt.put (h : s.KeepsAt place P) {x : α} (time : Int)
    (hx : place? s.root source suffix = some place → P x) :
    (s.put (some x) source suffix time).KeepsAt place P := by
  unfold Store.put set
  cases hpath : path? s.root source suffix with
  | none => exact h
  | some path =>
    intro f hf
    change (s.files.insert (Path.normalize path) _).find? place = some f at hf
    rw [Table.find?_insert] at hf
    split at hf
    · rename_i heq
      cases hf
      refine .inr ⟨x, rfl, hx ?_⟩
      rw [place?, hpath, heq, Option.map_some]
    · exact h f hf

theorem KeepsAt.write (h : s.KeepsAt place P) (path : String) (time : Int) :
    (s.write path { time }).KeepsAt place P := by
  intro f hf
  change (s.files.insert (Path.normalize path) _).find? place = some f at hf
  rw [Table.find?_insert] at hf
  split at hf
  · cases hf
    exact .inl rfl
  · exact h f hf

theorem KeepsAt.clear (h : s.KeepsAt place P) : s.clear.KeepsAt place P := by
  unfold Store.clear
  split
  · exact h
  · intro f hf
    have hfound : s.files.find? place = some f := Table.find?_of_filter
      (p := fun key => !key.startsWith (Path.normalize (directory s.root) ++ "/")) hf
    exact h f hfound

end Store

end CBoundary.Cache
