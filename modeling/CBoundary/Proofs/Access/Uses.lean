import CBoundary.Access.Check
import Mathlib.Data.List.MinMax
import Mathlib.Data.Nat.Find

/-!
# Which names are used in a text

The search for names takes the first name that it meets.  For names that are words its result
can be said place by place, since all names that fit over one place end where the word there
ends.
-/

namespace CBoundary.Access

open Text List

variable {s : List Char} {i j : Nat} {n m : List Char} {names : List (List Char)}

/-! ## Names that fit -/

/-- The name stands at a place of a text, is no member, and ends where a word ends. -/
structure Fits (s : List Char) (i : Nat) (n : List Char) : Prop where
  within : i ≤ s.length
  noMember : NamePattern.followsAccess (s.take i).reverse = false
  stands : n <+: s.drop i
  ends : isBoundary (n.getLast? <|> (s.take i).reverse.head?) (s.drop (i + n.length)).head? = true

instance (s : List Char) (i : Nat) (n : List Char) : Decidable (Fits s i n) :=
  decidable_of_iff (i ≤ s.length ∧ NamePattern.followsAccess (s.take i).reverse = false ∧
      n <+: s.drop i ∧
      isBoundary (n.getLast? <|> (s.take i).reverse.head?) (s.drop (i + n.length)).head? = true)
    ⟨fun h => ⟨h.1, h.2.1, h.2.2.1, h.2.2.2⟩, fun h => ⟨h.within, h.noMember, h.stands, h.ends⟩⟩

/-- A longest name that fits at a place is used there, unless one that fits before reaches over it.
-/
structure Used (names : List (List Char)) (s : List Char) (i : Nat) (n : List Char) : Prop where
  mem : n ∈ names
  fits : Fits s i n
  longest : ∀ m ∈ names, Fits s i m → m.length ≤ n.length
  uncovered : ∀ m ∈ names, ∀ j < i, Fits s j m → j + m.length ≤ i

instance (names : List (List Char)) (s : List Char) (i : Nat) (n : List Char) :
    Decidable (Used names s i n) :=
  decidable_of_iff (n ∈ names ∧ Fits s i n ∧ (∀ m ∈ names, Fits s i m → m.length ≤ n.length) ∧
      ∀ m ∈ names, ∀ j < i, Fits s j m → j + m.length ≤ i)
    ⟨fun h => ⟨h.1, h.2.1, h.2.2.1, h.2.2.2⟩, fun h => ⟨h.mem, h.fits, h.longest, h.uncovered⟩⟩

/-- The name, used at a place, takes up another one: it starts there or reaches over it. -/
def Covers (i : Nat) (n : List Char) (j : Nat) : Prop := i ≤ j ∧ (j = i ∨ j < i + n.length)

theorem Fits.eq_of_length_eq (hn : Fits s i n) (hm : Fits s i m) (h : n.length = m.length) :
    n = m :=
  (prefix_of_prefix_length_le hn.stands hm.stands (Nat.le_of_eq h)).eq_of_length h

theorem Used.eq_of_covers {k : Nat} (hn : Used names s i n) (hm : Used names s j m)
    (hi : Covers i n k) (hj : Covers j m k) : i = j ∧ n = m := by
  have hij : i = j := by
    rcases Nat.lt_trichotomy i j with hlt | heq | hlt
    · have hle := hm.uncovered n hn.mem i hlt hn.fits
      unfold Covers at hi hj
      omega
    · exact heq
    · have hle := hn.uncovered m hm.mem j hlt hm.fits
      unfold Covers at hi hj
      omega
  subst hij
  refine ⟨rfl, hn.fits.eq_of_length_eq hm.fits (Nat.le_antisymm ?_ ?_)⟩
  · exact hm.longest n hn.mem hn.fits
  · exact hn.longest m hm.mem hm.fits

theorem Used.mono {some : List (List Char)} (h : Used names s i n) (hn : n ∈ some)
    (hsome : ∀ m ∈ some, m ∈ names) : Used some s i n where
  mem := hn
  fits := h.fits
  longest := fun m hm => h.longest m (hsome m hm)
  uncovered := fun m hm => h.uncovered m (hsome m hm)

/-! ## Words -/

theorem Fits.getElem? (h : Fits s i n) (hij : i ≤ j) (hj : j < i + n.length) :
    ∃ c ∈ n, s[j]? = some c := by
  obtain ⟨rest, hrest⟩ := h.stands
  have hlt : j - i < n.length := by omega
  refine ⟨n[j - i], getElem_mem hlt, ?_⟩
  calc s[j]? = (s.drop i)[j - i]? := by rw [getElem?_drop]; congr 1; omega
    _ = some n[j - i] := by rw [← hrest, getElem?_append_left hlt, getElem?_eq_getElem]

theorem Fits.wordAt_behind (h : Fits s i n) (hword : ∀ c ∈ n, isWordChar c = true)
    (hne : n ≠ []) : wordAt s[i + n.length]? = false := by
  have hends := h.ends
  obtain ⟨c, hc⟩ := Option.ne_none_iff_exists'.mp fun h => hne (getLast?_eq_none_iff.mp h)
  rw [hc, head?_drop] at hends
  have hleft : wordAt (some c) = true := hword c (mem_of_getLast? hc)
  change (wordAt (some c) != _) = true at hends
  rw [hleft] at hends
  simpa using hends

theorem Fits.end_eq (hn : Fits s i n) (hm : Fits s j m) (hnword : ∀ c ∈ n, isWordChar c = true)
    (hmword : ∀ c ∈ m, isWordChar c = true) (hij : i < j) (hj : j < i + n.length) :
    m ≠ [] ∧ j + m.length = i + n.length := by
  have hnne : n ≠ [] := ne_nil_of_length_pos (by omega)
  have hinside : ∀ k, i ≤ k → k < i + n.length → wordAt s[k]? = true := by
    intro k hk hk'
    obtain ⟨c, hc, heq⟩ := hn.getElem? hk hk'
    rw [heq]
    exact hnword c hc
  have hmne : m ≠ [] := by
    rintro rfl
    -- inside a word there is no boundary
    have hends := hm.ends
    have hbefore : (s.take j).reverse.head? = s[j - 1]? := by
      rw [head?_reverse, getLast?_take, if_neg (by omega)]
      obtain ⟨c, -, hc⟩ := hn.getElem? (j := j - 1) (by omega) (by omega)
      rw [hc, Option.some_or]
    rw [getLast?_nil, hbefore, head?_drop] at hends
    have hleft := hinside (j - 1) (by omega) (by omega)
    have hright := hinside j (by omega) hj
    change (wordAt s[j - 1]? != wordAt s[j]?) = true at hends
    rw [hleft, hright] at hends
    cases hends
  refine ⟨hmne, ?_⟩
  have hnend := hn.wordAt_behind hnword hnne
  have hmend := hm.wordAt_behind hmword hmne
  rcases Nat.lt_trichotomy (j + m.length) (i + n.length) with hlt | heq | hlt
  · have hword := hinside (j + m.length) (by omega) hlt
    rw [hmend] at hword
    cases hword
  · exact heq
  · obtain ⟨c, hc, hget⟩ := hm.getElem? (j := i + n.length) (by omega) hlt
    rw [hget] at hnend
    exact absurd (hmword c hc) (Bool.eq_false_iff.mp hnend)

theorem exists_longest (hm : m ∈ names) (hfits : Fits s i m) :
    ∃ n ∈ names, Fits s i n ∧ ∀ m ∈ names, Fits s i m → m.length ≤ n.length := by
  classical
  have hmem : ∀ m, m ∈ names.filter (fun m => decide (Fits s i m)) ↔ m ∈ names ∧ Fits s i m := by
    simp
  cases hmax : (names.filter fun m => decide (Fits s i m)).argmax List.length with
  | none =>
    have hnil := (hmem m).mpr ⟨hm, hfits⟩
    rw [argmax_eq_none.mp hmax] at hnil
    cases hnil
  | some n =>
    obtain ⟨hn, hfit⟩ := (hmem n).mp (argmax_mem hmax)
    exact ⟨n, hn, hfit, fun m hm hfits => le_of_mem_argmax ((hmem m).mpr ⟨hm, hfits⟩) hmax⟩

/-- Wherever a name fits, one is used over the place: the longest of those that start first. -/
theorem exists_used (hwords : ∀ n ∈ names, ∀ c ∈ n, isWordChar c = true) (hm : m ∈ names)
    (hfits : Fits s j m) : ∃ i n, Used names s i n ∧ Covers i n j := by
  have hstart : ∃ i, ∃ n ∈ names, Fits s i n ∧ Covers i n j :=
    ⟨j, m, hm, hfits, Nat.le_refl j, .inl rfl⟩
  classical
  obtain ⟨n₀, hn₀, hfits₀, hcovers₀⟩ := Nat.find_spec hstart
  have hfirst : ∀ k < Nat.find hstart, ∀ n ∈ names, Fits s k n → ¬ Covers k n j :=
    fun k hk n hn hfit hcovers => Nat.find_min hstart hk ⟨n, hn, hfit, hcovers⟩
  generalize Nat.find hstart = i at hfits₀ hcovers₀ hfirst
  obtain ⟨n, hn, hfit, hlongest⟩ := exists_longest hn₀ hfits₀
  have hle : n₀.length ≤ n.length := hlongest n₀ hn₀ hfits₀
  refine ⟨i, n, ⟨hn, hfit, hlongest, ?_⟩, hcovers₀.1, ?_⟩
  · intro k' hk' l hl hfit'
    by_contra hover
    obtain ⟨-, hend⟩ := hfit'.end_eq hfit (hwords k' hk') (hwords n hn) hl (by omega)
    refine hfirst l hl k' hk' hfit' ⟨?_, .inr ?_⟩
    all_goals
      unfold Covers at hcovers₀
      omega
  · unfold Covers at hcovers₀
    omega

/-- Looking for some names finds the same as keeping those of a kind among all uses, exactly if all
that is used of that kind is looked for, and no use of another kind takes up a place where one of
these fits. -/
theorem used_agree_iff {all some : List (List Char)} {R : List Char → Prop}
    (hsome : ∀ m ∈ some, m ∈ all) (hwords : ∀ n ∈ all, ∀ c ∈ n, isWordChar c = true) :
    (∀ i n, Used some s i n ↔ Used all s i n ∧ R n) ↔ ∀ i n, Used all s i n →
        (R n → n ∈ some) ∧ (¬ R n → ∀ j, ∀ m ∈ some, Fits s j m → ¬ Covers i n j) := by
  constructor
  · intro hagree i n hused
    refine ⟨fun hR => ((hagree i n).mpr ⟨hused, hR⟩).mem, fun hR j m hm hfits hcovers => ?_⟩
    obtain ⟨i', m', hused', hcovers'⟩ := exists_used (fun n hn => hwords n (hsome n hn)) hm hfits
    obtain ⟨hall, hR'⟩ := (hagree i' m').mp hused'
    obtain ⟨-, rfl⟩ := hused.eq_of_covers hall hcovers hcovers'
    exact hR hR'
  · intro hcond i n
    constructor
    · intro hused
      obtain ⟨i', n', hused', hcovers⟩ := exists_used hwords (hsome n hused.mem) hused.fits
      obtain ⟨hin, hout⟩ := hcond i' n' hused'
      by_cases hR : R n'
      · have hused'' := hused'.mono (hin hR) hsome
        obtain ⟨rfl, rfl⟩ := hused.eq_of_covers hused'' ⟨Nat.le_refl i, .inl rfl⟩ hcovers
        exact ⟨hused', hR⟩
      · exact absurd hcovers (hout hR i n hused.mem hused.fits)
    · rintro ⟨hused, hR⟩
      exact hused.mono ((hcond i n hused).1 hR) hsome

/-! ## The search -/

namespace NamePattern

variable {p : NamePattern}
variable {l : List String}

/-- No name stands in front of a longer one. -/
def LongestFirst (p : NamePattern) : Prop := p.names.Pairwise fun a b => b.length ≤ a.length

theorem longestFirst_of_ofNames? (h : ofNames? l = some p) :
    p.LongestFirst ∧ ∀ n, n ∈ p.names ↔ ∃ name ∈ l, name.toList = n := by
  unfold ofNames? at h
  split at h
  · cases h
  · cases h
    refine ⟨?_, fun n => ?_⟩
    · refine (pairwise_mergeSort ?_ ?_ (l.map String.toList)).imp of_decide_eq_true
      · intro a b c hab hbc
        simp only [decide_eq_true_eq] at *
        omega
      · intro a b
        simp only [Bool.or_eq_true, decide_eq_true_eq]
        omega
    · rw [mem_mergeSort, mem_map]

theorem fits_iff (hi : i ≤ s.length) (hfree : followsAccess (s.take i).reverse = false) :
    Fits s i n ↔ (n.isPrefixOf (s.drop i) && isBoundary (n.getLast? <|> (s.take i).reverse.head?)
      ((s.drop i).drop n.length).head?) = true := by
  rw [Bool.and_eq_true, isPrefixOf_iff_prefix, drop_drop]
  exact ⟨fun h => ⟨h.stands, h.ends⟩, fun h => ⟨hi, hfree, h.1, h.2⟩⟩

theorem useAt?_eq_none (hi : i ≤ s.length)
    (h : p.useAt? (s.take i).reverse (s.drop i) = none) : ∀ m ∈ p.names, ¬ Fits s i m := by
  intro m hm hfits
  rw [useAt?, if_neg (Bool.eq_false_iff.mp hfits.noMember), find?_eq_none] at h
  exact h m hm ((fits_iff hi hfits.noMember).mp hfits)

theorem useAt?_eq_some (hp : p.LongestFirst) (hi : i ≤ s.length)
    (h : p.useAt? (s.take i).reverse (s.drop i) = some n) :
    n ∈ p.names ∧ Fits s i n ∧ ∀ m ∈ p.names, Fits s i m → m.length ≤ n.length := by
  unfold useAt? at h
  split at h
  · cases h
  · rename_i hfree
    rw [Bool.not_eq_true] at hfree
    obtain ⟨hn, front, rear, hnames, hfront⟩ := find?_eq_some_iff_append.mp h
    refine ⟨?_, (fits_iff hi hfree).mpr hn, fun m hm hfits => ?_⟩
    · rw [hnames]
      exact mem_append_right front mem_cons_self
    · unfold LongestFirst at hp
      rw [hnames] at hm hp
      rcases mem_append.mp hm with hm | hm
      · have hno := hfront m hm
        rw [(fits_iff hi hfree).mp hfits] at hno
        cases hno
      · rcases mem_cons.mp hm with rfl | hm
        · exact Nat.le_refl _
        · exact (pairwise_cons.mp (pairwise_append.mp hp).2.1).1 m hm

/-- No name that fits before a place reaches over it. -/
def Clear (p : NamePattern) (s : List Char) (pos : Nat) : Prop :=
  ∀ m ∈ p.names, ∀ j < pos, Fits s j m → j + m.length ≤ pos

theorem useAt?_eq_some_iff (hp : p.LongestFirst) (hi : i ≤ s.length) (hclear : p.Clear s i) :
    p.useAt? (s.take i).reverse (s.drop i) = some n ↔ Used p.names s i n := by
  constructor
  · intro h
    obtain ⟨hn, hfits, hlongest⟩ := useAt?_eq_some hp hi h
    exact ⟨hn, hfits, hlongest, hclear⟩
  · intro h
    cases hfound : p.useAt? (s.take i).reverse (s.drop i) with
    | none => exact absurd h.fits (useAt?_eq_none hi hfound n h.mem)
    | some m =>
      obtain ⟨hm, hfits, hlongest⟩ := useAt?_eq_some hp hi hfound
      exact congrArg some (hfits.eq_of_length_eq h.fits
        (Nat.le_antisymm (h.longest m hm hfits) (hlongest n h.mem h.fits)))

theorem Clear.succ (h : p.Clear s i) (hno : ∀ m ∈ p.names, ¬ Fits s i m) : p.Clear s (i + 1) := by
  intro m hm j hj hfits
  rcases Nat.lt_succ_iff_lt_or_eq.mp hj with hj | rfl
  · exact Nat.le_succ_of_le (h m hm j hj hfits)
  · exact absurd hfits (hno m hm)

theorem Clear.behind (h : p.Clear s i) (hwords : ∀ n ∈ p.names, ∀ c ∈ n, isWordChar c = true)
    (hused : Used p.names s i n) : p.Clear s (i + max n.length 1) := by
  intro m hm j hj hfits
  rcases Nat.lt_trichotomy j i with hlt | rfl | hlt
  · have hle := h m hm j hlt hfits
    omega
  · have hle := hused.longest m hm hfits
    omega
  · obtain ⟨-, hend⟩ :=
      hused.fits.end_eq hfits (hwords n hused.mem) (hwords m hm) hlt (by omega)
    omega

theorem mem_uses_iff (hp : p.LongestFirst) (hwords : ∀ n ∈ p.names, ∀ c ∈ n, isWordChar c = true)
    {pos : Nat} (hpos : pos ≤ s.length) (hclear : p.Clear s pos) :
    (i, n) ∈ p.uses pos (s.take pos).reverse (s.drop pos) ↔ pos ≤ i ∧ Used p.names s i n := by
  generalize hbefore : (s.take pos).reverse = before
  generalize hrest : s.drop pos = rest
  fun_induction uses p pos before rest with
  | case1 pos before =>
    have hend : s.length ≤ pos := drop_eq_nil_iff.mp hrest
    have hhere := useAt?_eq_some_iff (n := n) hp hpos hclear
    rw [hbefore, hrest] at hhere
    rw [Option.mem_toList, Option.map_eq_some_iff]
    constructor
    · rintro ⟨name, hname, heq⟩
      cases heq
      exact ⟨Nat.le_refl _, hhere.mp hname⟩
    · rintro ⟨hle, hused⟩
      have heq : i = pos := Nat.le_antisymm (Nat.le_trans hused.fits.within hend) hle
      subst heq
      exact ⟨n, hhere.mpr hused, rfl⟩
  | case2 pos before c cs hnone ih =>
    rw [← hbefore, ← hrest] at hnone
    have hno := useAt?_eq_none hpos hnone
    have hlt : pos < s.length := length_lt_of_drop_ne_nil (by simp [hrest])
    rw [ih hlt (hclear.succ hno)]
    · constructor
      · exact fun ⟨hle, hused⟩ => ⟨Nat.le_of_succ_le hle, hused⟩
      · rintro ⟨hle, hused⟩
        refine ⟨Nat.lt_of_le_of_ne hle ?_, hused⟩
        rintro rfl
        exact hno n hused.mem hused.fits
    · rw [take_add, hrest]
      simp [hbefore]
    · rw [← drop_drop, hrest]
      rfl
  | case3 pos before c cs name hsome k ih =>
    have hlt : pos < s.length := length_lt_of_drop_ne_nil (by simp [hrest])
    rw [← hbefore, ← hrest] at hsome
    have hused := (useAt?_eq_some_iff hp hpos hclear).mp hsome
    have hlen := hused.fits.stands.length_le
    rw [length_drop] at hlen
    rw [mem_cons, ih (by omega) (hclear.behind hwords hused)]
    · constructor
      · rintro (heq | ⟨hle, hused'⟩)
        · cases heq
          exact ⟨Nat.le_refl _, hused⟩
        · exact ⟨by omega, hused'⟩
      · rintro ⟨hle, hused'⟩
        rcases Nat.lt_or_ge i (pos + k) with hlt | hge
        · obtain ⟨rfl, rfl⟩ := hused'.eq_of_covers hused ⟨Nat.le_refl i, .inl rfl⟩
            ⟨hle, by omega⟩
          exact .inl rfl
        · exact .inr ⟨hge, hused'⟩
    · rw [take_add, reverse_append, hbefore, hrest]
    · rw [← drop_drop, hrest]
      obtain ⟨k', hk'⟩ : ∃ k', k = k' + 1 := ⟨k - 1, by omega⟩
      rw [hk', drop_succ_cons]
      rfl

theorem mem_uses_iff_used (hp : p.LongestFirst)
    (hwords : ∀ n ∈ p.names, ∀ c ∈ n, isWordChar c = true) :
    (i, n) ∈ p.uses 0 [] s ↔ Used p.names s i n := by
  have h := mem_uses_iff (i := i) (n := n) hp hwords (Nat.zero_le s.length)
    fun m hm j hj => absurd hj (Nat.not_lt_zero j)
  rw [take_zero, reverse_nil, drop_zero] at h
  rw [h]
  exact and_iff_right (Nat.zero_le i)

theorem mem_uses_ofNames? (hwords : ∀ name ∈ l, ∀ c ∈ name.toList, isWordChar c = true) :
    (i, n) ∈ ((ofNames? l).map fun p => p.uses 0 [] s).getD [] ↔
      Used (l.map String.toList) s i n := by
  cases hp : ofNames? l with
  | none =>
    have hnil : l = [] := by
      unfold ofNames? at hp
      split at hp
      · rename_i hempty
        exact List.isEmpty_iff.mp hempty
      · cases hp
    subst hnil
    exact ⟨fun h => absurd h not_mem_nil, fun h => absurd h.mem not_mem_nil⟩
  | some p =>
    obtain ⟨hsorted, hmem⟩ := longestFirst_of_ofNames? hp
    have hmem' : ∀ n, n ∈ p.names ↔ n ∈ l.map String.toList := by
      intro n
      rw [hmem, mem_map]
    have hused : Used p.names s i n ↔ Used (l.map String.toList) s i n :=
      ⟨fun h => h.mono ((hmem' n).mp h.mem) fun m hm => (hmem' m).mpr hm,
        fun h => h.mono ((hmem' n).mpr h.mem) fun m hm => (hmem' m).mp hm⟩
    rw [← hused]
    refine mem_uses_iff_used hsorted fun n hn => ?_
    obtain ⟨name, hname, rfl⟩ := (hmem n).mp hn
    exact hwords name hname

end NamePattern

end CBoundary.Access
