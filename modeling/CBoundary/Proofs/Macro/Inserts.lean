import CBoundary.Proofs.Lex.Cut
import CBoundary.Proofs.Table
import CBoundary.Macro.Expand
import Mathlib.Algebra.Ring.Int.Defs

/-!
# Insert points account for an expanded text

The text before an expansion and the text after it are woven of the same gaps: a gap stands
unchanged in both, then one piece is replaced by another, then comes the next gap.  Each
replacement is an insert point.
-/

namespace CBoundary.Macro

open CBoundary.Text List

variable {names : List String} {before : Option Char} {s cs out : List Char} {name : String}
  {site : Site} {c : Char} {a b : Int} {points : List InsertPoint}

/-! ## Sites stay inside the text -/

/-- A finding takes one character at least and no more than there are. A use has one of the names,
and the inside of a call is shorter than the text. -/
def Site.Sound (e : Expander) (s : List Char) : Site → Prop
  | .plain => True
  | .verbatim n => 0 < n ∧ n ≤ s.length
  | .use name n call => name ∈ e.objects ++ e.functions ∧ name.toList <+: s.take n ∧
      0 < n ∧ n ≤ s.length ∧ ∀ inside ∈ call, inside.2.length < s.length

theorem wholeName?_some (h : wholeName? names before s = some name) :
    name ∈ names ∧ name.toList.isPrefixOf s = true := by
  unfold wholeName? at h
  split at h
  · exact absurd h (by simp)
  · obtain ⟨hmem, hfits⟩ := (Table.foldl_longest (fun n => n.toList.isPrefixOf s && isBoundary
      (if n.toList.isEmpty then before else n.toList.getLast?) (s.drop n.toList.length).head?)
      names h).1 name rfl
    exact ⟨hmem, (Bool.and_eq_true_iff.mp hfits).1⟩

theorem callAfter?_eq_some (h : callAfter? name s = some site) :
    ∃ n start inside, site = .use name n (some (start, inside)) ∧ name.length < n ∧
      n ≤ s.length ∧ inside.length < s.length := by
  unfold callAfter? at h
  dsimp only at h
  split at h
  · cases h
  · rename_i k hblock
    have hle := Lex.Grammar.bounded_code_blockLength '('
      (s.drop (name.length + runLength isSpace (s.drop name.length)))
    rw [hblock, length_drop] at hle
    obtain rfl := Option.some.inj h
    refine ⟨_, _, _, rfl, by omega, by omega, ?_⟩
    rw [length_take, length_drop]
    omega

theorem calledName?_some (h : calledName? names before s = some site) :
    ∃ name ∈ names, name.toList.isPrefixOf s = true ∧ callAfter? name s = some site := by
  unfold calledName? at h
  split at h
  · exact absurd h (by simp)
  · obtain ⟨⟨len, found⟩, hfound, rfl⟩ := Option.map_eq_some_iff.mp h
    -- The best of the calls so far is one of them.
    refine foldlRecOn (motive := fun best : Option (Nat × Site) => ∀ p, best = some p →
      ∃ name ∈ names, name.toList.isPrefixOf s = true ∧ callAfter? name s = some p.2) _ _
      (by simp) ?_ (len, found) hfound
    intro best hbest x hx p hp
    obtain ⟨n, hn, hcall⟩ := mem_filterMap.mp hx
    have hcalled : ∃ name ∈ names, name.toList.isPrefixOf s = true ∧
        callAfter? name s = some x.2 := by
      rcases ite_eq_iff.mp hcall with ⟨hfront, hcall⟩ | ⟨-, hcall⟩
      · obtain ⟨q, hq, rfl⟩ := Option.map_eq_some_iff.mp hcall
        exact ⟨n, hn, (Bool.and_eq_true_iff.mp hfront).1, hq⟩
      · exact absurd hcall (by simp)
    cases best with
    | none =>
      obtain rfl := Option.some.inj hp
      exact hcalled
    | some q =>
      dsimp only at hp
      split at hp
      · obtain rfl := Option.some.inj hp
        exact hcalled
      · exact hbest p hp

theorem Expander.siteAt_sound (e : Expander) (before : Option Char) (s : List Char) :
    (e.siteAt before s).Sound e s := by
  unfold siteAt
  have hearly := Lex.bounded_code_early s
  split
  · rename_i n hn
    have hn : Lex.code.early s = n + 1 := hn
    rw [hn] at hearly
    exact ⟨Nat.succ_pos n, hearly⟩
  · split
    · rename_i name hname
      obtain ⟨hmem, hfront⟩ := wholeName?_some hname
      obtain ⟨hmem, hne⟩ := mem_filter.mp hmem
      have hfront := isPrefixOf_iff_prefix.mp hfront
      refine ⟨mem_append_left _ hmem, prefix_take_iff.mpr ⟨hfront, Nat.le_of_eq String.length_toList⟩,
        ?_, String.length_toList ▸ hfront.length_le, by simp⟩
      refine Nat.pos_of_ne_zero fun hzero => ?_
      rw [String.length_eq_zero_iff] at hzero
      simp [hzero] at hne
    · cases hcalled : calledName? e.functions before s with
      | none => exact trivial
      | some site =>
        obtain ⟨name, hname, hfront, hcall⟩ := calledName?_some hcalled
        obtain ⟨n, start, inside, rfl, hlength, hle, hinside⟩ := callAfter?_eq_some hcall
        refine ⟨mem_append_right _ hname, prefix_take_iff.mpr
          ⟨List.isPrefixOf_iff_prefix.mp hfront, ?_⟩, Nat.zero_lt_of_lt hlength, hle, by simpa⟩
        rw [String.length_toList]
        exact Nat.le_of_lt hlength

theorem Expander.siteAt_verbatim {e : Expander} {n : Nat} (h : e.siteAt before s = .verbatim n) :
    0 < n ∧ n ≤ s.length := by
  have hsound := e.siteAt_sound before s
  rwa [h] at hsound

theorem Expander.siteAt_use {e : Expander} {n : Nat} {call : Option (Nat × List Char)}
    (h : e.siteAt before s = .use name n call) :
    name ∈ e.objects ++ e.functions ∧ name.toList <+: s.take n ∧ 0 < n ∧ n ≤ s.length ∧
      ∀ inside ∈ call, inside.2.length < s.length := by
  have hsound := e.siteAt_sound before s
  rwa [h] at hsound

/-! ## The origins of characters -/

/-- For each character of the rest of an expanded text, the position from which it was copied. -/
def originsFrom (e : Expander) (before : Option Char) (pos : Nat) (s : List Char)
    (notes : Array Diagnostic) : List (Option Nat) :=
  match s with
  | [] => []
  | c :: cs =>
    match e.siteAt before (c :: cs) with
    | .plain => some pos :: originsFrom e (some c) (pos + 1) cs notes
    | .verbatim n =>
      (range' pos n).map some ++
        originsFrom e ((c :: cs).take n).getLast? (pos + n) (cs.drop (n - 1)) notes
    | .use name n call =>
      let replaced := replacement e {} 0 pos (c :: cs) name n call { notes }
      List.replicate replaced.1.length none ++
        originsFrom e ((c :: cs).take n).getLast? (pos + n) (cs.drop (n - 1)) replaced.2.notes
termination_by s.length

/-- For each character of an expanded text, the position from which it was copied. -/
def origins (macros : Table MacroDecl) (expandConst : Bool) (place : Int → Place)
    (s : List Char) : List (Option Nat) :=
  let e := Expander.make macros expandConst place
  if e.objects.isEmpty && e.functions.isEmpty then (range' 0 s.length).map some
  else originsFrom e none 0 s #[]

/-! ## Two texts woven of the same gaps -/

/-- The insert points lead from one text to another, which start at two offsets: up to the first
point both are the same, there a nonempty piece is replaced, and the remaining points lead on. -/
inductive Woven : Int → Int → List Char → List Char → List InsertPoint → Prop
  | rest (a b : Int) (s : List Char) : Woven a b s s []
  | point {a b : Int} {s out : List Char} {points : List InsertPoint}
      (gap piece here : List Char) (hpiece : piece ≠ [])
      (hrest : Woven (a + gap.length + piece.length) (b + gap.length + here.length)
        s out points) :
      Woven a b (gap ++ (piece ++ s)) (gap ++ (here ++ out))
        (⟨⟨a + gap.length, a + gap.length + piece.length⟩,
          ⟨b + gap.length, b + gap.length + here.length⟩,
          here.length - piece.length⟩ :: points)

section

variable (front : List Char) (macros : Table MacroDecl) (expandConst : Bool) (place : Int → Place)

theorem Woven.copy (h : Woven (a + front.length) (b + front.length) s out points) :
    Woven a b (front ++ s) (front ++ out) points := by
  cases h with
  | rest => exact .rest a b _
  | @point _ _ s out points gap piece here hpiece hrest =>
    have hlength : ((front ++ gap).length : Int) = front.length + gap.length := by simp
    have hrest' : Woven (a + (front ++ gap).length + piece.length)
        (b + (front ++ gap).length + here.length) s out points := by
      rwa [hlength, ← Int.add_assoc, ← Int.add_assoc]
    have hwoven := Woven.point (front ++ gap) piece here hpiece hrest'
    rwa [hlength, ← Int.add_assoc, ← Int.add_assoc, append_assoc, append_assoc] at hwoven

theorem Woven.replace (piece here : List Char) (hpiece : piece ≠ [])
    (h : Woven (a + piece.length) (b + here.length) s out points) :
    Woven a b (piece ++ s) (here ++ out)
      (⟨⟨a, a + piece.length⟩, ⟨b, b + here.length⟩, here.length - piece.length⟩ :: points) := by
  have hwoven := Woven.point (a := a) (b := b) [] piece here hpiece (by simpa using h)
  simpa using hwoven

theorem split_of_fits {n : Nat} (hpos : 0 < n) (hle : n ≤ (c :: cs).length) :
    (c :: cs).take n ++ cs.drop (n - 1) = c :: cs ∧ ((c :: cs).take n).length = n := by
  constructor
  · obtain ⟨m, rfl⟩ : ∃ m, n = m + 1 := ⟨n - 1, by omega⟩
    exact take_append_drop (m + 1) (c :: cs)
  · rw [length_take]
    omega

/-- How a text is expanded to another, with the insert points and the origins: text is copied, or a
nonempty piece is replaced. -/
inductive Spliced : Nat → Int → List Char → List Char → List InsertPoint → List (Option Nat) → Prop
  | nil (a : Nat) (b : Int) : Spliced a b [] [] [] []
  | copy {a : Nat} {b : Int} {s out : List Char} {points : List InsertPoint}
      {origins : List (Option Nat)} (front : List Char)
      (hrest : Spliced (a + front.length) (b + front.length) s out points origins) :
      Spliced a b (front ++ s) (front ++ out) points
        ((range' a front.length).map some ++ origins)
  | replace {a : Nat} {b : Int} {s out : List Char} {points : List InsertPoint}
      {origins : List (Option Nat)} (piece here : List Char) (hpiece : piece ≠ [])
      (hrest : Spliced (a + piece.length) (b + here.length) s out points origins) :
      Spliced a b (piece ++ s) (here ++ out)
        (⟨⟨a, a + piece.length⟩, ⟨b, b + here.length⟩, here.length - piece.length⟩ :: points)
        (List.replicate here.length none ++ origins)

/-- Copied and replaced pieces make up an expansion. -/
theorem spliced_expandFrom (e : Expander) (before : Option Char) (pos : Nat) (grown : Int)
    (s : List Char) (notes : Array Diagnostic) :
    Spliced pos (grown + pos) s (expandFrom e before pos grown s notes).text
      (expandFrom e before pos grown s notes).inserts (originsFrom e before pos s notes) := by
  fun_induction expandFrom e before pos grown s notes with
  | case1 before pos grown notes =>
    rw [originsFrom]
    exact .nil pos _
  | case2 before pos grown notes c cs hsite out ih =>
    rw [originsFrom, hsite]
    have hrest : Spliced (pos + [c].length) (grown + pos + [c].length) cs out.text out.inserts
        (originsFrom e (some c) (pos + 1) cs notes) := by
      rw [Int.add_assoc grown]
      exact ih
    exact .copy [c] hrest
  | case3 before pos grown notes c cs n hsite out ih =>
    obtain ⟨hpos, hle⟩ := Expander.siteAt_verbatim hsite
    obtain ⟨hsplit, hlength⟩ := split_of_fits hpos hle
    rw [originsFrom, hsite]
    have hrest : Spliced (pos + ((c :: cs).take n).length)
        (grown + pos + ((c :: cs).take n).length) (cs.drop (n - 1)) out.text out.inserts
        (originsFrom e ((c :: cs).take n).getLast? (pos + n) (cs.drop (n - 1)) notes) := by
      rw [hlength, Int.add_assoc, ← Int.natCast_add]
      exact ih
    have hspliced := Spliced.copy ((c :: cs).take n) hrest
    rwa [hsplit, hlength] at hspliced
  | case4 before pos grown notes c cs name n call hsite here t hhere delta point out ih =>
    obtain ⟨-, -, hpos, hle, -⟩ := Expander.siteAt_use hsite
    obtain ⟨hsplit, hlength⟩ := split_of_fits hpos hle
    rw [originsFrom, hsite]
    have hpiece : (c :: cs).take n ≠ [] := by
      refine ne_nil_of_length_pos ?_
      rwa [hlength]
    have hdelta : delta = (here.length : Int) - n := rfl
    have hrest : Spliced (pos + ((c :: cs).take n).length) (grown + pos + here.length)
        (cs.drop (n - 1)) out.text out.inserts
        (originsFrom e ((c :: cs).take n).getLast? (pos + n) (cs.drop (n - 1)) t.notes) := by
      -- Behind the point the text has grown by `delta` more.
      have hafter : grown + (pos : Int) + here.length = grown + delta + ((pos + n : Nat) : Int) := by
        omega
      rw [hlength, hafter]
      exact ih
    have hspliced := Spliced.replace ((c :: cs).take n) here hpiece hrest
    rw [hsplit, hlength] at hspliced
    have hpoint : point = ⟨⟨pos, pos + n⟩, ⟨grown + pos, grown + pos + here.length⟩,
        here.length - n⟩ := by
      have hstop : grown + (pos : Int) + n + delta = grown + pos + here.length := by omega
      show InsertPoint.mk _ ⟨_, grown + pos + n + delta⟩ delta = _
      rw [hstop, hdelta]
    dsimp only
    rw [hhere]
    rwa [hpoint]

theorem spliced_expand (s : List Char) : Spliced 0 0 s (expand macros expandConst place s).text
      (expand macros expandConst place s).inserts (origins macros expandConst place s) := by
  unfold expand origins
  dsimp only
  split
  · have hspliced := Spliced.copy (a := 0) (b := 0) s (.nil _ _)
    rwa [append_nil, append_nil] at hspliced
  · exact spliced_expandFrom (Expander.make macros expandConst place) none 0 0 s #[]

theorem Spliced.woven {a : Nat} {origins : List (Option Nat)}
    (h : Spliced a b s out points origins) : Woven a b s out points := by
  induction h with
  | nil a b => exact .rest a b []
  | copy front _ ih =>
    rw [Int.natCast_add] at ih
    exact ih.copy front
  | replace piece here hpiece _ ih =>
    rw [Int.natCast_add] at ih
    exact ih.replace piece here hpiece

theorem woven_expand (s : List Char) : Woven 0 0 s (expand macros expandConst place s).text
      (expand macros expandConst place s).inserts :=
  (spliced_expand macros expandConst place s).woven

/-! ## What weaving says about the points -/

/-- The point replaces a nonempty range by another one, both inside their texts, and its growth is
the difference of their lengths. -/
structure Within (p : InsertPoint) (a b a' b' : Int) : Prop where
  orig_le : a ≤ p.orig.start
  orig_lt : p.orig.start < p.orig.stop
  le_orig : p.orig.stop ≤ a'
  new_le : b ≤ p.new.start
  new_ordered : p.new.start ≤ p.new.stop
  le_new : p.new.stop ≤ b'
  delta_eq : p.delta = (p.new.stop - p.new.start) - (p.orig.stop - p.orig.start)

theorem Woven.within (h : Woven a b s out points) :
    ∀ p ∈ points, Within p a b (a + s.length) (b + out.length) := by
  induction h with
  | rest => intro p hp; exact absurd hp not_mem_nil
  | @point a b s out points gap piece here hpiece hrest ih =>
    intro p hp
    have hpos : 0 < piece.length := length_pos_iff.mpr hpiece
    rw [length_append, length_append, length_append, length_append]
    rcases mem_cons.mp hp with rfl | hp
    · constructor <;> dsimp only <;> omega
    · obtain ⟨h1, h2, h3, h4, h5, h6, h7⟩ := ih p hp
      constructor <;> omega

theorem Woven.pairwise (h : Woven a b s out points) :
    points.Pairwise fun p q => p.orig.stop ≤ q.orig.start ∧ p.new.stop ≤ q.new.start := by
  induction h with
  | rest => exact List.Pairwise.nil
  | point gap piece here hpiece hrest ih =>
    refine List.Pairwise.cons (fun q hq => ?_) ih
    have hwithin := hrest.within q hq
    exact ⟨hwithin.orig_le, hwithin.new_le⟩

theorem Woven.length_eq (h : Woven a b s out points) :
    (out.length : Int) = s.length + (points.map InsertPoint.delta).sum := by
  induction h with
  | rest => simp
  | point gap piece here hpiece hrest ih =>
    simp only [length_append, map_cons, sum_cons]
    omega

/-! ## The gaps between the points -/

/-- Where the gaps start, before and after: at the two starting offsets, and behind each point. -/
def gapStarts (a b : Int) (points : List InsertPoint) : List (Int × Int) :=
  (a, b) :: points.map fun p => (p.orig.stop, p.new.stop)

/-- Where the gaps stop. -/
def gapStops (points : List InsertPoint) (a b : Int) : List (Int × Int) :=
  points.map (fun p => (p.orig.start, p.new.start)) ++ [(a, b)]

theorem slice_between (mid rear : List Char) :
    slice (front ++ (mid ++ rear)) front.length (front.length + mid.length) = mid := by
  have hstart : clampBound (front ++ (mid ++ rear)).length front.length = front.length := by
    unfold clampBound
    simp only [length_append]
    split <;> omega
  have hstop : clampBound (front ++ (mid ++ rear)).length (front.length + mid.length) =
      front.length + mid.length := by
    unfold clampBound
    simp only [length_append]
    split <;> omega
  rw [slice, hstart, hstop]
  simp

end

theorem Woven.gaps_eq (h : Woven a b s out points) :
    ∀ front front' : List Char, a = front.length → b = front'.length →
      ∀ g ∈ (gapStarts a b points).zip (gapStops points (a + s.length) (b + out.length)),
        slice (front ++ s) g.1.1 g.2.1 = slice (front' ++ out) g.1.2 g.2.2 := by
  induction h with
  | rest a b s =>
    intro front front' ha hb g hg
    simp only [gapStarts, gapStops, map_nil, nil_append, zip_cons_cons,
      zip_nil_left, mem_singleton] at hg
    subst hg ha hb
    have h1 := slice_between front s []
    have h2 := slice_between front' s []
    rw [append_nil] at h1 h2
    rw [h1, h2]
  | @point a b s out points gap piece here hpiece hrest ih =>
    intro front front' ha hb g hg
    have hzip : (gapStarts a b (⟨⟨a + gap.length, a + gap.length + piece.length⟩,
          ⟨b + gap.length, b + gap.length + here.length⟩,
          (here.length : Int) - piece.length⟩ :: points)).zip
        (gapStops (⟨⟨a + gap.length, a + gap.length + piece.length⟩,
          ⟨b + gap.length, b + gap.length + here.length⟩,
          (here.length : Int) - piece.length⟩ :: points)
          (a + (gap ++ (piece ++ s)).length) (b + (gap ++ (here ++ out)).length)) =
        ((a, b), (a + gap.length, b + gap.length)) ::
          (gapStarts (a + gap.length + piece.length) (b + gap.length + here.length) points).zip
            (gapStops points (a + gap.length + piece.length + s.length)
              (b + gap.length + here.length + out.length)) := by
      simp only [gapStarts, gapStops, map_cons, cons_append, zip_cons_cons,
        length_append, Int.natCast_add, Int.add_assoc]
    rw [hzip] at hg
    rcases mem_cons.mp hg with rfl | hg
    · subst ha hb
      rw [slice_between, slice_between]
    · have hnext := ih (front ++ (gap ++ piece)) (front' ++ (gap ++ here))
        (by subst ha; simp [Int.add_assoc]) (by subst hb; simp [Int.add_assoc]) g hg
      simpa [append_assoc] using hnext

/-- **The insert points account for the whole expanded text.** For every text and every table of
macros: the replaced ranges are not empty, lie in the text in increasing order and apart, and so do
their replacements in the expanded text; the growth of a point is the difference of the two lengths;
all text between points is copied unchanged; and the text grows by the sum of the growths. -/
theorem expand_inserts_account (macros : Table MacroDecl) (expandConst : Bool)
    (place : Int → Place) (s : List Char) :
    let out := expand macros expandConst place s
    (∀ p ∈ out.inserts,
      (0 ≤ p.orig.start ∧ p.orig.start < p.orig.stop ∧ p.orig.stop ≤ s.length) ∧
      (0 ≤ p.new.start ∧ p.new.start ≤ p.new.stop ∧ p.new.stop ≤ out.text.length) ∧
      p.delta = (p.new.stop - p.new.start) - (p.orig.stop - p.orig.start)) ∧
    (out.inserts.Pairwise fun p q =>
      p.orig.stop ≤ q.orig.start ∧ p.new.stop ≤ q.new.start) ∧
    (∀ g ∈ (gapStarts 0 0 out.inserts).zip (gapStops out.inserts s.length out.text.length),
      slice s g.1.1 g.2.1 = slice out.text g.1.2 g.2.2) ∧
    (out.text.length : Int) = s.length + (out.inserts.map InsertPoint.delta).sum := by
  intro out
  have hwoven : Woven 0 0 s out.text out.inserts := woven_expand macros expandConst place s
  refine ⟨fun p hp => ?_, hwoven.pairwise, ?_, hwoven.length_eq⟩
  · have hwithin := hwoven.within p hp
    rw [Int.zero_add, Int.zero_add] at hwithin
    exact ⟨⟨hwithin.orig_le, hwithin.orig_lt, hwithin.le_orig⟩,
      ⟨hwithin.new_le, hwithin.new_ordered, hwithin.le_new⟩, hwithin.delta_eq⟩
  · intro g hg
    have hgap := hwoven.gaps_eq [] [] rfl rfl g
    rw [Int.zero_add, Int.zero_add] at hgap
    exact hgap hg

end CBoundary.Macro
