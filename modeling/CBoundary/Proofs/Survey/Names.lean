import CBoundary.Proofs.Survey.Kept

/-!
# The names of kept results

A list of texts can be read off its name again: a dot ends the code of a character, a dash that
of a text.  So can the options by which statistics are kept.
-/

namespace CBoundary.Survey

open List

variable {α : Type} {c : Char}

/-! ## Codes -/

theorem append_cons_inj_of_notMem {mark : α} {a a' rest rest' : List α} (ha : mark ∉ a)
    (ha' : mark ∉ a') (h : a ++ mark :: rest = a' ++ mark :: rest') : a = a' ∧ rest = rest' := by
  induction a generalizing a' with
  | nil =>
    cases a' with
    | nil => exact ⟨rfl, (List.cons.inj h).2⟩
    | cons x a' => exact absurd ((List.cons.inj h).1 ▸ mem_cons_self) ha'
  | cons y a ih =>
    cases a' with
    | nil => exact absurd ((List.cons.inj h).1 ▸ mem_cons_self) ha
    | cons x a' =>
      obtain ⟨rfl, hsame⟩ := List.cons.inj h
      obtain ⟨rfl, hrest⟩ := ih (mt (mem_cons_of_mem y) ha) (mt (mem_cons_of_mem y) ha') hsame
      exact ⟨rfl, hrest⟩

/-- Marked texts can be told apart. -/
theorem flatMap_marked_inj {code : α → List Char} {mark : Char}
    (hcode : Function.Injective code) (hmark : ∀ x, mark ∉ code x) {l l' : List α}
    {rest rest' : List Char} (hrest : ∀ x, ¬ code x ++ [mark] <+: rest)
    (hrest' : ∀ x, ¬ code x ++ [mark] <+: rest')
    (h : l.flatMap (fun x => code x ++ [mark]) ++ rest =
      l'.flatMap (fun x => code x ++ [mark]) ++ rest') : l = l' ∧ rest = rest' := by
  induction l generalizing l' with
  | nil =>
    cases l' with
    | nil => exact ⟨rfl, h⟩
    | cons x l' =>
      rw [flatMap_nil, nil_append, flatMap_cons, append_assoc] at h
      exact absurd ⟨_, h.symm⟩ (hrest x)
  | cons y l ih =>
    cases l' with
    | nil =>
      rw [flatMap_nil, nil_append, flatMap_cons, append_assoc] at h
      exact absurd ⟨_, h⟩ (hrest' y)
    | cons x l' =>
      simp only [flatMap_cons, append_assoc, singleton_append] at h
      obtain ⟨hcodes, hbehind⟩ := append_cons_inj_of_notMem (hmark y) (hmark x) h
      obtain ⟨rfl, hsame⟩ := ih hbehind
      exact ⟨by rw [hcode hcodes], hsame⟩

theorem toDigits_injective : Function.Injective (Nat.toDigits 10) := by
  intro m n h
  rw [← Nat.ofDigitChars_ten_toDigits (n := m), h, Nat.ofDigitChars_ten_toDigits]

theorem isDigit_of_mem_toDigits {n : Nat} (h : c ∈ Nat.toDigits 10 n) :
    c.isDigit = true := Nat.isDigit_of_mem_toDigits (by decide) (by decide) h

/-- The code of a text in a name. -/
def textCode (s : String) : List Char := s.toList.flatMap fun c => Nat.toDigits 10 c.toNat ++ ['.']

theorem toList_nameOf (l : List String) :
    (nameOf l).toList = l.flatMap fun s => textCode s ++ ['-'] := by
  have hchar (c : Char) : (s!"{c.toNat}.").toList = Nat.toDigits 10 c.toNat ++ ['.'] := by
    rw [String.toList_append]
    simp
    rfl
  have htext (s : String) : (String.join (s.toList.map fun c => s!"{c.toNat}.") ++ "-").toList =
      textCode s ++ ['-'] := by
    rw [String.toList_append, String.toList_join, flatMap_map]
    simp only [hchar]
    rfl
  rw [nameOf, String.toList_join, flatMap_map]
  simp only [htext]

theorem textCode_injective : Function.Injective textCode := by
  intro s t h
  have hcode : Function.Injective fun c : Char => Nat.toDigits 10 c.toNat :=
    fun c d h => Char.toNat_inj.mp (toDigits_injective h)
  have hmark (c : Char) : '.' ∉ Nat.toDigits 10 c.toNat :=
    fun hdot => absurd (isDigit_of_mem_toDigits hdot) (by decide)
  have hnone (c : Char) : ¬ Nat.toDigits 10 c.toNat ++ ['.'] <+: [] := by simp
  obtain ⟨hsame, -⟩ := flatMap_marked_inj hcode hmark hnone hnone
    (congrArg (· ++ []) h)
  exact String.toList_inj.mp hsame

theorem digit_or_dot_of_mem_textCode {s : String} (h : c ∈ textCode s) :
    c.isDigit = true ∨ c = '.' := by
  obtain ⟨d, -, hc⟩ := mem_flatMap.mp h
  rcases mem_append.mp hc with hc | hc
  · exact .inl (isDigit_of_mem_toDigits hc)
  · exact .inr (mem_singleton.mp hc)

theorem dash_notMem_textCode (s : String) : '-' ∉ textCode s := fun h =>
  absurd (digit_or_dot_of_mem_textCode h) (by decide)

theorem not_textCode_prefix_dot (s : String) (rest : List Char) :
    ¬ textCode s ++ ['-'] <+: '.' :: rest := by
  intro h
  unfold textCode at h
  cases hchars : s.toList with
  | nil => simp [hchars] at h
  | cons c cs =>
    obtain ⟨d, ds, hdigits⟩ := exists_cons_of_ne_nil (Nat.toDigits_ne_nil (n := c.toNat) (b := 10))
    have hd := isDigit_of_mem_toDigits (hdigits ▸ mem_cons_self : d ∈ Nat.toDigits 10 c.toNat)
    rw [hchars, flatMap_cons, hdigits] at h
    have hdot : d = '.' := (cons_prefix_cons.mp h).1
    rw [hdot] at hd
    exact absurd hd (by decide)

theorem slash_notMem_nameOf (l : List String) : '/' ∉ (nameOf l).toList := by
  rw [toList_nameOf]
  intro h
  obtain ⟨s, -, hs⟩ := mem_flatMap.mp h
  rcases mem_append.mp hs with hs | hs
  · exact absurd (digit_or_dot_of_mem_textCode hs) (by decide)
  · exact absurd (mem_singleton.mp hs) (by decide)

theorem nameOf_injective : Function.Injective nameOf := by
  intro l l' h
  have hnone (s : String) : ¬ textCode s ++ ['-'] <+: [] := by simp
  have hlists := congrArg (String.toList · ++ []) h
  simp only [toList_nameOf] at hlists
  exact (flatMap_marked_inj textCode_injective dash_notMem_textCode hnone hnone hlists).1

theorem nameOf_append_dot_inj {l l' m m' : List String}
    (h : nameOf l ++ "." ++ nameOf m = nameOf l' ++ "." ++ nameOf m') : l = l' ∧ m = m' := by
  have hlists := congrArg String.toList h
  simp only [String.toList_append, append_assoc, toList_nameOf l, toList_nameOf l'] at hlists
  obtain ⟨hsame, hrest⟩ := flatMap_marked_inj textCode_injective dash_notMem_textCode
    (fun s => not_textCode_prefix_dot s _) (fun s => not_textCode_prefix_dot s _) hlists
  exact ⟨hsame, nameOf_injective (String.toList_inj.mp (List.cons.inj hrest).2)⟩

/-! ## Options -/

theorem optionTexts_append_inj {o o' : Option (List String)} {rest rest' : List String}
    (h : optionTexts o ++ rest = optionTexts o' ++ rest') : o = o' ∧ rest = rest' := by
  have hdash (n : Nat) : "-" ≠ toString n := by
    intro heq
    have hdigits := congrArg String.toList heq
    simp only [Nat.toString_eq_ofList_toDigits, String.toList_ofList] at hdigits
    have hmem : '-' ∈ Nat.toDigits 10 n := by
      rw [← hdigits]
      exact mem_cons_self
    exact absurd (isDigit_of_mem_toDigits hmem) (by decide)
  cases o with
  | none =>
    cases o' with
    | none => exact ⟨rfl, (List.cons.inj h).2⟩
    | some l' => exact absurd (List.cons.inj h).1 (hdash _)
  | some l =>
    cases o' with
    | none => exact absurd (List.cons.inj h).1.symm (hdash _)
    | some l' =>
      obtain ⟨hlength, hrest⟩ := List.cons.inj h
      have hsame : l.length = l'.length := by
        rw [Nat.toString_eq_ofList_toDigits, Nat.toString_eq_ofList_toDigits,
          String.ofList_inj] at hlength
        exact toDigits_injective hlength
      obtain ⟨rfl, rfl⟩ := append_inj hrest hsame
      exact ⟨rfl, rfl⟩

theorem Level.name_injective : Function.Injective Level.name := by
  have hfind (l : Level) : Level.all.find? (fun x => x.name == l.name) = some l := by
    cases l <;> decide
  intro l l' h
  exact Option.some.inj ((hfind l).symm.trans (h ▸ hfind l'))

theorem Detail.name_injective : Function.Injective Detail.name := by
  have hfind (d : Detail) : Detail.ofName? d.name = some d := by
    cases d <;> decide
  intro d d' h
  exact Option.some.inj ((hfind d).symm.trans (h ▸ hfind d'))

theorem toString_bool_injective : Function.Injective (toString : Bool → String) := by
  intro a b h
  cases a <;> cases b <;> first | rfl | exact absurd h (by decide)

theorem Options.counted_eq_of_texts_eq {o o' : Options} (h : o.texts = o'.texts) :
    o.counted = o'.counted := by
  have hdetail : Function.Injective fun d : Option Detail => d.elim "" Detail.name := by
    intro d d' h
    cases d <;> cases d'
    · rfl
    · rename_i d
      cases d <;> exact absurd h (by decide)
    · rename_i d
      cases d <;> exact absurd h (by decide)
    · exact congrArg some (Detail.name_injective h)
  unfold Options.texts at h
  simp only [append_assoc, cons_append, nil_append, List.cons.injEq] at h
  obtain ⟨hhome, hlevel, h⟩ := h
  obtain ⟨hsources, h⟩ := optionTexts_append_inj h
  obtain ⟨htargets, h⟩ := optionTexts_append_inj h
  simp only [List.cons.injEq, map_cons, map_nil, and_true] at h
  obtain ⟨hd, hfrom, hto, h⟩ := h
  obtain ⟨hdetailed, hunmodular, hinner, hcalls, hfields, hmacros, hdebug⟩ := h
  simp only [Options.counted, hhome, Level.name_injective hlevel, hsources, htargets, hdetail hd,
    Detail.name_injective hfrom, Detail.name_injective hto, toString_bool_injective hdetailed,
    toString_bool_injective hunmodular, toString_bool_injective hinner,
    toString_bool_injective hcalls, toString_bool_injective hfields,
    toString_bool_injective hmacros, toString_bool_injective hdebug]

/-! ## Places -/

/-- What the names of some kept results start with. -/
def Slot.title : Slot → String
  | .codebase => "globals.0.4.3."
  | .uses => "access.0.4.3."
  | .stats => "stats.0.4.3."

theorem Slot.isName_title (slot : Slot) : Cache.IsName slot.title := by
  cases slot <;> exact ⟨by decide, _, _, rfl, by decide⟩

theorem Slot.eq_of_title_append {slot slot' : Slot} {rest rest' : String}
    (h : slot.title ++ rest = slot'.title ++ rest') : slot = slot' := by
  have hhead := congrArg (fun s : String => s.toList.head?) h
  cases slot <;> cases slot' <;> first | rfl | exact absurd hhead (by simp [title])

namespace Plan

theorem keptName_fst (p : Plan) (slot : Slot) :
    (p.keptName slot).1 = slot.title ++ nameOf p.files := by
  cases slot <;> rfl

theorem isKey_keptName (p : Plan) (slot : Slot) :
    Cache.IsKey (p.keptName slot).1 (p.keptName slot).2 := by
  have hname : Cache.IsName (p.keptName slot).1 := by
    rw [keptName_fst]
    exact slot.isName_title.append (slash_notMem_nameOf p.files)
  have hempty : "" ≠ "." := by decide
  cases slot with
  | codebase | uses => exact ⟨hname, not_mem_nil, hempty⟩
  | stats =>
    have hslash : '/' ∉ ("." ++ nameOf p.options.texts).toList := by
      simpa [String.toList_append] using slash_notMem_nameOf p.options.texts
    refine ⟨hname, hslash, fun hdot => ?_⟩
    -- there are always some options
    have hnone : p.options.texts = [] := nameOf_injective ((String.append_right_inj ".").mp hdot)
    simp [Options.texts] at hnone

/-- Surveys of normal roots are kept apart. -/
theorem keptApart {p q : Plan} (hp : Path.normalize p.workspace.root = p.workspace.root)
    (hq : Path.normalize q.workspace.root = q.workspace.root) : p.KeptApart q := by
  intro slot slot' place hplace hplace'
  obtain ⟨hroot, hname⟩ := Cache.eq_of_place?_eq hp hq (p.isKey_keptName slot)
    (q.isKey_keptName slot') hplace hplace'
  rw [keptName_fst, keptName_fst, String.append_assoc, String.append_assoc] at hname
  obtain rfl := Slot.eq_of_title_append hname
  have hrest := (String.append_right_inj _).mp hname
  have hfiles (h : nameOf p.files ++ "" = nameOf q.files ++ "") : p.files = q.files := by
    rw [String.append_empty, String.append_empty] at h
    exact nameOf_injective h
  cases slot with
  | codebase => exact ⟨rfl, hroot, hfiles hrest, nofun⟩
  | uses => exact ⟨rfl, hroot, hfiles hrest, nofun⟩
  | stats =>
    have hnames : nameOf p.files ++ "." ++ nameOf p.options.texts =
        nameOf q.files ++ "." ++ nameOf q.options.texts := by
      rwa [String.append_assoc, String.append_assoc]
    obtain ⟨hsame, htexts⟩ := nameOf_append_dot_inj hnames
    exact ⟨rfl, hroot, hsame, fun _ => Options.counted_eq_of_texts_eq htexts⟩

end Plan

end CBoundary.Survey
