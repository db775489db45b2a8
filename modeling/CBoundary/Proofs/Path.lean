import CBoundary.Text.Path
import Mathlib.Data.String.Basic

/-!
# Normal paths

The normal form of a path says whether and how it starts at the root of all paths, and by which
parts it goes on.  Both can be read off it again.
-/

namespace CBoundary.Path

open List

variable {p path rest dir rel : String} {ps acc : List String} {absolute : Bool}

/-! ## Parts -/

section

open String

theorem atEnd_behind (front rest : List Char) :
    Pos.Raw.atEnd (ofList (front ++ rest)) ⟨utf8Len front⟩ = rest.isEmpty := by
  rw [Bool.eq_iff_iff, atEnd_iff, List.isEmpty_iff]
  simp only [rawEndPos_ofList, utf8Len_append, Pos.Raw.mk_le_mk, ← utf8Len_eq_zero]
  omega

theorem splitOnAux_slash (done piece rest : List Char) (acc : List String) :
    splitOnAux (ofList (done ++ piece ++ rest)) "/" ⟨utf8Len done⟩ ⟨utf8Len (done ++ piece)⟩ 0 acc =
      acc.reverse ++ (splitOnPPrepend (· == '/') rest piece.reverse).map ofList := by
  induction rest generalizing done piece acc with
  | nil =>
    have hpiece := extract_of_valid done piece []
    rw [← utf8Len_append] at hpiece
    rw [splitOnAux, atEnd_behind, if_pos isEmpty_nil]
    simp only [hpiece, splitOnPPrepend_nil, reverse_reverse, reverse_cons,
      map_cons, map_nil]
  | cons c rest ih =>
    have hget := get_of_valid (done ++ piece) (c :: rest)
    have hnext := next_of_valid (done ++ piece) c rest
    have hslash : Pos.Raw.get "/" 0 = '/' := by decide
    rw [splitOnAux, atEnd_behind, if_neg (by simp), hget, hslash, headD_cons]
    by_cases hc : c = '/'
    · subst hc
      have hpiece := extract_of_valid done piece ('/' :: rest)
      rw [← utf8Len_append] at hpiece
      have hbehind : Pos.Raw.next "/" 0 = ⟨1⟩ := by decide
      have hend : Pos.Raw.atEnd "/" ⟨1⟩ = true := by decide
      have hback : (⟨utf8Len (done ++ piece) + ('/').utf8Size⟩ : Pos.Raw).unoffsetBy ⟨1⟩ =
          ⟨utf8Len (done ++ piece)⟩ := rfl
      have hrest := ih (done ++ piece ++ ['/']) [] (ofList piece :: acc)
      simp only [hbehind, hend, hnext, if_true, beq_self_eq_true, hback, hpiece]
      simpa [splitOnPPrepend_cons_eq_if, Nat.add_assoc] using hrest
    · have hrest := ih done (piece ++ [c]) acc
      have hback (i : Pos.Raw) : i.unoffsetBy 0 = i := rfl
      simp only [hnext, hback, beq_eq_false_iff_ne.mpr hc, Bool.false_eq_true, if_false]
      simpa [splitOnPPrepend_cons_eq_if, hc, Nat.add_assoc] using hrest

theorem parts_eq (path : String) : parts path = (path.toList.splitOn '/').map ofList := by
  have hsplit := splitOnAux_slash [] [] path.toList []
  rw [nil_append, nil_append, ofList_toList] at hsplit
  rw [parts, String.splitOn, if_neg (by decide), splitOn_eq_splitOnP,
    splitOnP_eq_splitOnPPrepend]
  exact hsplit

end

theorem parts_append_slash (front rest : String) :
    parts (front ++ "/" ++ rest) = parts front ++ parts rest := by
  have hslash : (front ++ "/" ++ rest).toList = front.toList ++ '/' :: rest.toList := by
    simp [String.toList_append]
  rw [parts_eq, hslash, splitOn_append_cons_self, map_append, ← parts_eq, ← parts_eq]

theorem parts_of_slashless (h : '/' ∉ p.toList) : parts p = [p] := by
  rw [parts_eq, splitOn_eq_singleton h, map_singleton, String.ofList_toList]

theorem parts_intercalate (h : ∀ p ∈ ps, '/' ∉ p.toList) (hne : ps ≠ []) :
    parts ("/".intercalate ps) = ps := by
  have hslash : "/".toList = ['/'] := rfl
  rw [parts_eq, String.toList_intercalate, hslash, splitOn_intercalate]
  · simp
  · simpa using h
  · simpa using hne

theorem notMem_of_mem_splitOn {s piece : List Char} {mark : Char} (h : piece ∈ s.splitOn mark) :
    mark ∉ piece := by
  induction s generalizing piece with
  | nil =>
    rw [splitOn_nil, mem_singleton] at h
    rw [h]
    exact not_mem_nil
  | cons c s ih =>
    rw [splitOn_cons_eq_if_modifyHead] at h
    split at h
    · rcases mem_cons.mp h with rfl | h
      · exact not_mem_nil
      · exact ih h
    · rename_i hc
      obtain ⟨first, pieces, hsplit⟩ := exists_cons_of_ne_nil (splitOn_ne_nil mark s)
      rw [hsplit, modifyHead_cons] at h
      rcases mem_cons.mp h with rfl | h
      · have hfirst : mark ∉ first := ih (hsplit ▸ mem_cons_self)
        have hne : mark ≠ c := fun heq => hc (beq_iff_eq.mpr heq.symm)
        exact fun hmem => (mem_cons.mp hmem).elim hne hfirst
      · exact ih (hsplit ▸ mem_cons_of_mem _ h)

theorem slash_notMem_of_mem_parts (h : p ∈ parts path) : '/' ∉ p.toList := by
  rw [parts_eq] at h
  obtain ⟨piece, hpiece, rfl⟩ := mem_map.mp h
  rw [String.toList_ofList]
  exact notMem_of_mem_splitOn hpiece

/-! ## Normal parts -/

/-- A part that stands for itself in a path. -/
def Plain (p : String) : Prop := p ≠ "" ∧ p ≠ "." ∧ p ≠ ".."

/-- Takes one more part to those before it, which are in reverse order. -/
def step (absolute : Bool) (acc : List String) (p : String) : List String :=
  if p == "" || p == "." then acc
  else if p == ".." then
    match acc with
    | [] => if absolute then [] else [p]
    | q :: qs => if q == ".." then p :: acc else qs
  else p :: acc

theorem normalParts_eq (absolute : Bool) (ps : List String) :
    normalParts absolute ps = (ps.foldl (step absolute) []).reverse := rfl

theorem step_of_plain (h : Plain p) : step absolute acc p = p :: acc := by
  obtain ⟨hempty, hdot, hup⟩ := h
  simp [step, hempty, hdot, hup]

theorem normalParts_append_of_plain {qs : List String} (h : ∀ q ∈ qs, Plain q) :
    normalParts absolute (ps ++ qs) = normalParts absolute ps ++ qs := by
  have hfold (acc : List String) : qs.foldl (step absolute) acc = qs.reverse ++ acc := by
    induction qs generalizing acc with
    | nil => rfl
    | cons q qs ih =>
      rw [foldl_cons, step_of_plain (h q mem_cons_self),
        ih (fun q hq => h q (mem_cons_of_mem _ hq)), reverse_cons, append_assoc,
        singleton_append]
  rw [normalParts_eq, foldl_append, hfold, reverse_append, reverse_reverse,
    normalParts_eq]

/-- Parts as they are left in a normal path: the way up, if there is one, comes first. -/
def Normal (absolute : Bool) (ps : List String) : Prop :=
  ∃ n rest, ps = List.replicate n ".." ++ rest ∧ (∀ p ∈ rest, Plain p) ∧ (absolute = true → n = 0)

/-- Each part keeps the normal form. -/
theorem normal_step (h : Normal absolute acc.reverse) (p : String) :
    Normal absolute (step absolute acc p).reverse := by
  obtain ⟨n, rest, hacc, hrest, hn⟩ := h
  by_cases hsame : (p == "" || p == ".") = true
  · have hstep : step absolute acc p = acc := if_pos hsame
    rw [hstep]
    exact ⟨n, rest, hacc, hrest, hn⟩
  · rw [Bool.or_eq_true, beq_iff_eq, beq_iff_eq, not_or] at hsame
    by_cases hup : p = ".."
    · subst hup
      rcases eq_nil_or_concat rest with rfl | ⟨rest, q, rfl⟩
      · -- only the way up so far
        obtain rfl : acc = List.replicate n ".." := by
          rw [← acc.reverse_reverse, hacc, append_nil, reverse_replicate]
        cases n with
        | zero =>
          cases absolute with
          | true => exact ⟨0, [], rfl, nofun, fun _ => rfl⟩
          | false => exact ⟨1, [], rfl, nofun, nofun⟩
        | succ n =>
          have habsolute : absolute = true → n + 2 = 0 :=
            fun h => absurd (hn h) (Nat.succ_ne_zero n)
          show Normal absolute (List.replicate (n + 2) "..").reverse
          rw [reverse_replicate]
          exact ⟨n + 2, [], (append_nil _).symm, nofun, habsolute⟩
      · obtain rfl : acc = q :: (List.replicate n ".." ++ rest).reverse := by
          rw [← acc.reverse_reverse, hacc, concat_eq_append, ← append_assoc,
            reverse_concat]
        have hq : q ≠ ".." := (hrest q (by simp)).2.2
        have hstep : step absolute (q :: (List.replicate n ".." ++ rest).reverse) ".." =
            (List.replicate n ".." ++ rest).reverse := by
          simp [step, hq]
        rw [hstep, reverse_reverse]
        exact ⟨n, rest, rfl, fun p hp => hrest p (by simp [hp]), hn⟩
    · have hp : Plain p := ⟨hsame.1, hsame.2, hup⟩
      rw [step_of_plain hp, reverse_cons, hacc, append_assoc]
      refine ⟨n, rest ++ [p], rfl, fun q hq => ?_, hn⟩
      rcases mem_append.mp hq with hq | hq
      · exact hrest q hq
      · exact mem_singleton.mp hq ▸ hp

theorem normal_normalParts (absolute : Bool) (ps : List String) :
    Normal absolute (normalParts absolute ps) := by
  rw [normalParts_eq]
  exact foldlRecOn (motive := fun acc : List String => Normal absolute acc.reverse) ps _
    ⟨0, [], rfl, nofun, fun _ => rfl⟩ fun acc hacc p _ => normal_step hacc p

theorem normalParts_of_normal (h : Normal absolute ps) : normalParts absolute ps = ps := by
  obtain ⟨n, rest, rfl, hrest, hn⟩ := h
  rw [normalParts_append_of_plain hrest, normalParts_eq]
  congr 1
  cases absolute with
  | true => rw [hn rfl]; rfl
  | false =>
    have hfold : (List.replicate n "..").foldl (step false) [] = List.replicate n ".." := by
      induction n with
      | zero => rfl
      | succ n ih =>
        rw [replicate_succ', foldl_append, ih nofun, ← replicate_succ']
        cases n <;> rfl
    rw [hfold, reverse_replicate]

theorem mem_of_mem_normalParts (h : p ∈ normalParts absolute ps) : p ∈ ps := by
  have hsubset : ∀ q ∈ ps.foldl (step absolute) [], q ∈ ps := by
    refine foldlRecOn (motive := fun acc : List String => ∀ q ∈ acc, q ∈ ps) ps _ nofun
      fun acc hacc p hp q hq => ?_
    unfold step at hq
    split at hq
    · exact hacc q hq
    · split at hq <;> grind
  rw [normalParts_eq, mem_reverse] at h
  exact hsubset p h

theorem normalParts_concat (absolute : Bool) (ps : List String) {p : String}
    (hp : p = "" ∨ p = ".") : normalParts absolute (ps ++ [p]) = normalParts absolute ps := by
  rw [normalParts_eq, foldl_append]
  rcases hp with rfl | rfl <;> rfl

theorem normalParts_append_up (hp : Plain p) :
    normalParts absolute (ps ++ [p, ".."]) = normalParts absolute ps := by
  have hup (acc : List String) : step absolute (p :: acc) ".." = acc := by simp [step, hp.2.2]
  rw [normalParts_eq, foldl_append, foldl_cons, step_of_plain hp, foldl_cons, hup]
  rfl

theorem normalParts_append (absolute : Bool) (ps qs : List String) :
    normalParts absolute (normalParts absolute ps ++ qs) = normalParts absolute (ps ++ qs) := by
  have hfold :
      (normalParts absolute ps).foldl (step absolute) [] = ps.foldl (step absolute) [] := by
    rw [← reverse_inj]
    exact normalParts_of_normal (normal_normalParts absolute ps)
  rw [normalParts_eq, normalParts_eq absolute (ps ++ qs), foldl_append, hfold,
    foldl_append]

/-! ## Normal forms -/

/-- How many slashes a path starts with. -/
def slashes (path : String) : Nat := (path.toList.takeWhile (· == '/')).length

/-- What the normal form starts with, for a number of slashes at the front. -/
def frontOf (n : Nat) : String := if n == 2 then "//" else if n == 0 then "" else "/"

/-- What the normal form of a path starts with. -/
def front (path : String) : String := frontOf (slashes path)

/-- The parts of the normal form of a path. -/
def steps (path : String) : List String := normalParts (slashes path != 0) (parts path)

theorem normalize_eq (path : String) : normalize path =
      if (front path ++ "/".intercalate (steps path)).isEmpty then "."
      else front path ++ "/".intercalate (steps path) := rfl

theorem normalize_congr {path' : String} (hfront : front path = front path')
    (hsteps : steps path = steps path') : normalize path = normalize path' := by
  rw [normalize_eq, normalize_eq, hfront, hsteps]

theorem parts_slash_append (path : String) : parts ("/" ++ path) = "" :: parts path := by
  have hparts := parts_append_slash "" path
  rwa [parts_of_slashless (p := "") (by decide), String.empty_append] at hparts

theorem slashes_slash_append (path : String) : slashes ("/" ++ path) = slashes path + 1 := by
  simp [slashes, String.toList_append]

theorem slashes_eq_zero (h : path.toList.head? ≠ some '/') : slashes path = 0 := by
  unfold slashes
  cases hchars : path.toList with
  | nil => rfl
  | cons c cs =>
    rw [hchars] at h
    rw [takeWhile_cons_of_neg (by simpa using h), length_nil]

theorem front_steps_frontOf_append (n : Nat) (h : rest.toList.head? ≠ some '/') :
    front (frontOf n ++ rest) = frontOf n ∧
      steps (frontOf n ++ rest) = normalParts (n != 0) (parts rest) := by
  have hrest := slashes_eq_zero h
  have hone := slashes_slash_append rest
  have htwo := slashes_slash_append ("/" ++ rest)
  have hparts := parts_slash_append ("/" ++ rest)
  rw [hrest] at hone
  rw [hone, ← String.append_assoc] at htwo
  rw [parts_slash_append rest, ← String.append_assoc] at hparts
  match n with
  | 0 =>
    have hfront : frontOf 0 ++ rest = rest := String.empty_append
    rw [hfront, front, steps, hrest]
    exact ⟨rfl, rfl⟩
  | 2 =>
    have hfront : frontOf 2 ++ rest = "/" ++ "/" ++ rest := rfl
    rw [hfront, front, steps, htwo, hparts]
    exact ⟨rfl, rfl⟩
  | 1 =>
    have hfront : frontOf 1 ++ rest = "/" ++ rest := rfl
    rw [hfront, front, steps, hone, parts_slash_append]
    exact ⟨rfl, rfl⟩
  | n + 3 =>
    have hfront : frontOf (n + 3) ++ rest = "/" ++ rest := rfl
    rw [hfront, front, steps, hone, parts_slash_append]
    exact ⟨rfl, rfl⟩

theorem slash_notMem_of_mem_steps (h : p ∈ steps path) : '/' ∉ p.toList :=
  slash_notMem_of_mem_parts (mem_of_mem_normalParts h)

theorem normal_steps (path : String) : Normal (slashes path != 0) (steps path) :=
  normal_normalParts _ _

theorem Normal.ne_empty_of_mem (h : Normal absolute ps) (hp : p ∈ ps) : p ≠ "" := by
  obtain ⟨n, rest, rfl, hrest, -⟩ := h
  rcases mem_append.mp hp with hp | hp
  · rw [eq_of_mem_replicate hp]
    decide
  · exact (hrest p hp).1

theorem head?_intercalate_steps (path : String) :
    ("/".intercalate (steps path)).toList.head? ≠ some '/' := by
  cases hsteps : steps path with
  | nil => exact nofun
  | cons p ps =>
    have hp : p ∈ steps path := hsteps ▸ mem_cons_self
    have hslash := slash_notMem_of_mem_steps hp
    have hne := (normal_steps path).ne_empty_of_mem hp
    cases hchars : p.toList with
    | nil => exact absurd (String.toList_eq_nil_iff.mp hchars) hne
    | cons c cs =>
      rw [String.toList_intercalate, map_cons, hchars, intercalate_cons_cons_left,
        head?_cons]
      rintro ⟨⟩
      exact hslash (hchars ▸ mem_cons_self)

/-- Normal paths lead to the same place. -/
theorem front_steps_normalize (path : String) :
    front (normalize path) = front path ∧ steps (normalize path) = steps path := by
  obtain ⟨hfront, hsteps⟩ := front_steps_frontOf_append (slashes path)
    (head?_intercalate_steps path)
  have hagain : normalParts (slashes path != 0) (parts ("/".intercalate (steps path))) =
      steps path := by
    by_cases hnone : steps path = []
    · rw [hnone, String.intercalate_nil, parts_of_slashless (by decide)]
      rfl
    · rw [parts_intercalate (fun p hp => slash_notMem_of_mem_steps hp) hnone,
        normalParts_of_normal (normal_steps path)]
  rw [hagain] at hsteps
  rw [normalize_eq]
  split
  · -- nothing is left: the path leads to where it starts
    rename_i hempty
    rw [String.isEmpty_iff] at hempty
    have hdot : front "." = front "" ∧ steps "." = steps "" := by
      rw [steps, steps, parts_of_slashless (by decide), parts_of_slashless (by decide)]
      exact ⟨rfl, rfl⟩
    rw [hdot.1, hdot.2]
    rw [← hempty]
    exact ⟨hfront, hsteps⟩
  · exact ⟨hfront, hsteps⟩

theorem normalize_normalize (path : String) : normalize (normalize path) = normalize path :=
  normalize_congr (front_steps_normalize path).1 (front_steps_normalize path).2

theorem slashes_append (h : (∃ c ∈ dir.toList, c ≠ '/') ∨ rest.toList.head? ≠ some '/') :
    slashes (dir ++ rest) = slashes dir := by
  rw [slashes, String.toList_append, takeWhile_append]
  split
  · rename_i hall
    rcases h with ⟨c, hc, hne⟩ | h
    · have hself := (List.takeWhile_prefix _).eq_of_length hall
      rw [← hself] at hc
      have hslash := all_eq_true.mp all_takeWhile c hc
      exact absurd (beq_iff_eq.mp hslash) hne
    · have hrest : rest.toList.takeWhile (· == '/') = [] :=
        eq_nil_of_length_eq_zero (slashes_eq_zero h)
      rw [hrest, append_nil, slashes, hall]
  · rfl

theorem startsWith_slash_eq_false (h : path.toList.head? ≠ some '/') :
    path.startsWith "/" = false := by
  rw [String.startsWith_string_eq_false_iff]
  rintro ⟨rest, hrest⟩
  rw [← hrest] at h
  exact h rfl

/-- Joined paths lead on. -/
theorem slashes_parts_join (hdir : dir ≠ "") (hrel : rel.toList.head? ≠ some '/')
    (absolute : Bool) :
    slashes (join dir rel) = slashes dir ∧ normalParts absolute (parts (join dir rel)) =
        normalParts absolute (parts dir ++ parts rel) := by
  rw [join, startsWith_slash_eq_false hrel, if_neg Bool.false_ne_true,
    String.isEmpty_eq_false_iff.mpr hdir, Bool.false_or]
  split
  · rename_i hend
    obtain ⟨before, hbefore⟩ := String.Slice.endsWith_string_iff.mp hend
    obtain rfl : dir = String.ofList before ++ "/" := by
      rw [← String.toList_inj, String.toList_append, String.toList_ofList]
      simpa using hbefore.symm
    have hparts := parts_append_slash (String.ofList before) ""
    rw [String.append_empty, parts_of_slashless (p := "") (by decide)] at hparts
    rw [slashes_append (.inr hrel), parts_append_slash, hparts,
      ← normalParts_append absolute (_ ++ [""]), normalParts_concat _ _ (.inl rfl),
        normalParts_append]
    exact ⟨rfl, rfl⟩
  · rename_i hend
    obtain ⟨before, c, hchars⟩ := (eq_nil_or_concat dir.toList).resolve_left
      (mt String.toList_eq_nil_iff.mp hdir)
    rw [concat_eq_append] at hchars
    have hc : c ≠ '/' := by
      rintro rfl
      exact hend (String.Slice.endsWith_string_iff.mpr ⟨before, by simpa using hchars.symm⟩)
    have hinside : ∃ c ∈ dir.toList, c ≠ '/' := ⟨c, hchars ▸ mem_append_right _ mem_cons_self, hc⟩
    rw [String.append_assoc, slashes_append (.inl hinside), ← String.append_assoc,
      parts_append_slash]
    exact ⟨rfl, rfl⟩

theorem front_steps_join (hdir : dir ≠ "") (hrel : rel.toList.head? ≠ some '/') :
    front (join dir rel) = front dir ∧
      steps (join dir rel) = normalParts (slashes dir != 0) (steps dir ++ parts rel) := by
  obtain ⟨hslashes, hparts⟩ := slashes_parts_join hdir hrel (slashes dir != 0)
  rw [front, steps, hslashes, hparts, steps, normalParts_append]
  exact ⟨rfl, rfl⟩

end CBoundary.Path
