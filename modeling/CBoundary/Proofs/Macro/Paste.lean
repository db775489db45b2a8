import CBoundary.Proofs.Token.Layers
import CBoundary.Proofs.Macro.Inserts
import Mathlib.Data.List.TakeWhile

/-!
# How arguments are substituted

A number sign and the word behind it are made a string of the argument.  Any other word takes the
words that paste operators put behind it, and then all of them stand for their arguments as they
are.  So a paste operator without a word in front of it joins nothing.
-/

namespace CBoundary

open Text List

/-! ## Strings -/

namespace Macro

/-- What a backslash and a character stand for in a string. -/
def unescaped (d : Char) : Char := if d = 'n' then '\n' else if d = 't' then '\t' else d

/-- Undoes escapes from left to right. -/
def unescape : List Char → List Char
  | [] => []
  | [c] => [c]
  | c :: d :: cs => if c = '\\' then unescaped d :: unescape cs else c :: unescape (d :: cs)

/-- Every occurrence of a character becomes a text. -/
def replaced (c : Char) (text : List Char) (s : List Char) : List Char :=
  s.flatMap fun d => if d = c then text else [d]

theorem escape_cons_cases (c : Char) (s : List Char) :
    (c ≠ '\\' ∧ c ≠ '\"' ∧ escape (c :: s) = c :: escape s) ∨
      ∃ d, unescaped d = c ∧ escape (c :: s) = '\\' :: d :: escape s := by
  simp only [escape, flatMap_cons]
  split_ifs with hslash hbreak htab hmark
  · exact .inr ⟨'\\', by simp [hslash, unescaped], rfl⟩
  · exact .inr ⟨'n', by simp [hbreak, unescaped], rfl⟩
  · exact .inr ⟨'t', by simp [htab, unescaped], rfl⟩
  · exact .inr ⟨'\"', by simp [hmark, unescaped], rfl⟩
  · exact .inl ⟨hslash, hmark, rfl⟩

theorem unescape_cons {c : Char} (hc : c ≠ '\\') (s : List Char) :
    unescape (c :: s) = c :: unescape s := by
  cases s <;> simp [unescape, hc]

theorem unescape_escape (s : List Char) : unescape (escape s) = s := by
  induction s with
  | nil => rfl
  | cons c s ih =>
    obtain ⟨hslash, _, hc⟩ | ⟨d, hd, hc⟩ := escape_cons_cases c s
    · rw [hc, unescape_cons hslash, ih]
    · rw [hc, unescape, if_pos rfl, hd, ih]

theorem escaped_escape (s : List Char) : Lex.Escaped '\"' (escape s) := by
  induction s with
  | nil => exact .nil
  | cons c s ih =>
    obtain ⟨hslash, hmark, hc⟩ | ⟨d, _, hc⟩ := escape_cons_cases c s
    · rw [hc]
      exact .plain hslash hmark ih
    · rw [hc]
      exact .pair ih

theorem escape_eq_replaced (s : List Char) :
    escape s = replaced '\"' ['\\', '\"'] (replaced '\t' ['\\', 't']
      (replaced '\n' ['\\', 'n'] (replaced '\\' ['\\', '\\'] s))) := by
  induction s with
  | nil => rfl
  | cons c s ih =>
    simp only [escape, replaced, flatMap_cons, flatMap_append] at ih ⊢
    rw [ih]
    split_ifs <;> simp_all

end Macro

namespace Lex

theorem tokenLength_string {body : List Char} (h : Escaped '\"' body) :
    code.tokenLength ('\"' :: (body ++ ['\"'])) = body.length + 2 := by
  have hquoted : quoted '\"' ('\"' :: (body ++ ['\"'])) = body.length + 1 + 1 :=
    (reads_quoted (by decide) _ _).mpr ⟨_, [], by simp, by simp, body, rfl, h⟩
  have hnote : note ('\"' :: (body ++ ['\"'])) = 0 := by
    cases body <;> rfl
  have hearly : code.early ('\"' :: (body ++ ['\"'])) = body.length + 2 := by
    show firstOf [note, literal] _ = _
    rw [firstOf_pair, hnote, if_pos rfl, literal, firstOf, hquoted]
  rw [Grammar.tokenLength_of_closerOf_eq_none rfl, firstOf_pair, hearly, if_neg (by omega)]

end Lex

namespace Macro

/-- **A text that is made a string is one token, and can be read back**: one literal covers it,
undoing the escapes from left to right gives the text again, no two texts have one string, and the
escapes are those of four replacements one after the other. -/
theorem scan_string_escape (s : List Char) (base : Int) :
    Token.scan ('\"' :: (escape s ++ ['\"'])) base = [⟨0, ⟨base, base + ((escape s).length + 2)⟩,
          String.ofList ('\"' :: (escape s ++ ['\"'])), none⟩] ∧
      Kind.ofText (String.ofList ('\"' :: (escape s ++ ['\"']))) = .literal ∧
      unescape (escape s) = s ∧
      Function.Injective escape ∧
      escape s = replaced '\"' ['\\', '\"'] (replaced '\t' ['\\', 't']
        (replaced '\n' ['\\', 'n'] (replaced '\\' ['\\', '\\'] s))) := by
  refine ⟨?_, by simp [Kind.ofText, isBlank], unescape_escape s, ?_, escape_eq_replaced s⟩
  · rw [Token.scan, Lex.findings_self (by simp)]
    · simp [Token.ofLexemes, Lex.Lexeme.stop]
      omega
    · rw [Lex.tokenLength_string (escaped_escape s)]
      simp
  · intro a b hab
    rw [← unescape_escape a, hab, unescape_escape]

end Macro

end CBoundary

namespace CBoundary.Macro

open CBoundary.Text List

variable {args : Table Argument} {names : List String} {before : Option Char}
  {rear rest s v w : List Char} {ws : List (List Char)} {c : Char}

/-! ## Words and white space -/

/-- Does a word follow? -/
def startsWord (s : List Char) : Bool := s.head?.any isWordChar

/-- A text behind the white space that it starts with. -/
def skip (s : List Char) : List Char := s.dropWhile isSpace

/-- A nonempty text of word characters. -/
def IsWord (w : List Char) : Prop := w ≠ [] ∧ ∀ c ∈ w, isWordChar c = true

theorem drop_length_takeWhile (p : Char → Bool) (s : List Char) :
    s.drop (s.takeWhile p).length = s.dropWhile p := by
  nth_rewrite 2 [← takeWhile_append_dropWhile (p := p) (l := s)]
  exact drop_left

theorem drop_runLength (s : List Char) : s.drop (runLength isSpace s) = skip s :=
  drop_length_takeWhile isSpace s

theorem isEmpty_takeWhile (s : List Char) : (s.takeWhile isWordChar).isEmpty = !startsWord s := by
  cases s with
  | nil => rfl
  | cons c s => cases hc : isWordChar c <;> simp [startsWord, hc]

theorem startsWord_dropWhile (s : List Char) : startsWord (s.dropWhile isWordChar) = false := by
  have hnot := head?_dropWhile_not isWordChar s
  cases hrest : s.dropWhile isWordChar with
  | nil => rfl
  | cons c rest => simpa [startsWord, hrest] using hnot

theorem takeWhile_word (hw : ∀ c ∈ w, isWordChar c = true) (h : startsWord rest = false) :
    (w ++ rest).takeWhile isWordChar = w ∧ (w ++ rest).dropWhile isWordChar = rest := by
  rw [takeWhile_append_of_pos hw, dropWhile_append_of_pos hw]
  cases rest with
  | nil => simp
  | cons c rest =>
    have hc : isWordChar c = false := h
    simp [hc]

/-! ## The reading of a text -/

/-- What a paste operator takes. -/
def operand (s : List Char) : List Char := skip ((skip s).drop 2)

/-- Do a paste operator and a word follow? -/
def startsLink (s : List Char) : Bool := (skip s).take 2 == ['#', '#'] && startsWord (operand s)

theorem length_operand_lt (h : startsLink s = true) : (operand s).length < s.length := by
  have hmark := congrArg List.length (beq_iff_eq.mp (Bool.and_eq_true_iff.mp h).1)
  have hskip := length_dropWhile_le isSpace s
  have hoperand := length_dropWhile_le isSpace ((skip s).drop 2)
  simp only [length_take, length_drop, length_cons, length_nil, operand, skip] at *
  omega

/-- The words that paste operators put at the front of a text, and what follows them. -/
def chain (s : List Char) : List (List Char) × List Char :=
  if startsLink s then
    let more := chain ((operand s).dropWhile isWordChar)
    ((operand s).takeWhile isWordChar :: more.1, more.2)
  else ([], s)
termination_by s.length
decreasing_by
  rename_i h
  exact Nat.lt_of_le_of_lt (length_dropWhile_le _ _) (length_operand_lt h)

theorem length_chain_le (s : List Char) : (chain s).2.length ≤ s.length := by
  fun_induction chain s with
  | case1 s h more ih =>
    have hoperand := length_operand_lt h
    have hrest := length_dropWhile_le isWordChar (operand s)
    exact Nat.le_trans ih (by omega)
  | case2 => exact Nat.le_refl _

/-- A string of a word, a word with the words that are pasted to it, or any other character. -/
inductive Piece where
  | string (w : List Char)
  | words (w : List Char) (ws : List (List Char))
  | plain (c : Char)

/-- What becomes of a piece. -/
def Piece.text (args : Table Argument) : Piece → List Char
  | string w => '\"' :: ((args.find? (String.ofList w)).map fun a => escape a.raw).getD [] ++ ['\"']
  | words w ws =>
    if ws.isEmpty then ((args.find? (String.ofList w)).map Argument.expanded).getD w
    else (w :: ws).flatMap fun n => ((args.find? (String.ofList n)).map Argument.raw).getD n
  | plain c => [c]

/-- The pieces of a text from left to right. -/
def reading (s : List Char) : List Piece :=
  match s with
  | [] => []
  | c :: cs =>
    if c = '#' ∧ startsWord (skip cs) then
      .string ((skip cs).takeWhile isWordChar) :: reading ((skip cs).dropWhile isWordChar)
    else if isWordChar c then
      .words (c :: cs.takeWhile isWordChar) (chain (cs.dropWhile isWordChar)).1 ::
        reading (chain (cs.dropWhile isWordChar)).2
    else .plain c :: reading cs
termination_by s.length
decreasing_by
  · have hskip := length_dropWhile_le isSpace cs
    exact Nat.lt_succ_of_le ((length_dropWhile_le _ _).trans hskip)
  · exact Nat.lt_succ_of_le ((length_chain_le _).trans (length_dropWhile_le _ _))
  · exact Nat.lt_succ_self _

theorem pasted_eq_chain (s : List Char) : ((pasted s).1, s.drop (pasted s).2) = chain s := by
  fun_induction chain s with
  | case1 s h more ih =>
    simp only [startsLink, Bool.and_eq_true, beq_iff_eq] at h
    obtain ⟨hmark, hword⟩ := h
    have hrest : drop (runLength isSpace s + 2 + runLength isSpace (drop 2 (skip s)) +
        (takeWhile isWordChar (operand s)).length) s = dropWhile isWordChar (operand s) := by
      rw [← drop_drop, ← drop_drop, ← drop_drop, drop_runLength, drop_runLength]
      exact drop_length_takeWhile isWordChar (operand s)
    have hoperand : drop (2 + runLength isSpace (drop 2 (skip s))) (skip s) = operand s := by
      rw [← drop_drop, drop_runLength, operand]
    rw [pasted]
    simp only [drop_runLength, hmark, hoperand, isEmpty_takeWhile, hword, hrest]
    simp only [more, ← ih, ← drop_drop, hrest, if_true, Bool.not_true, Bool.false_eq_true, if_false]
  | case2 s h =>
    rw [pasted]
    simp only [← drop_drop, drop_runLength, isEmpty_takeWhile]
    have hnone : (skip s).take 2 = ['#', '#'] → startsWord (operand s) = false := by
      simpa [startsLink] using h
    split
    · rw [operand] at hnone
      simp [hnone ‹_›]
    · rfl

theorem chain_eq_self (h : (chain s).1 = []) : (chain s).2 = s := by
  rw [chain] at h ⊢
  split at h
  · cases h
  · rw [if_neg ‹_›]

theorem startsWord_chain (h : startsWord s = false) : startsWord (chain s).2 = false := by
  fun_induction chain s with
  | case1 s _ more ih => exact ih (startsWord_dropWhile _)
  | case2 => exact h

/-! ## Parameters -/

/-- All parameters are words. -/
def Worded (args : Table Argument) : Prop := ∀ k ∈ args.keys, IsWord k.toList

theorem wholeName?_eq_none (hnames : ∀ n ∈ names, IsWord n.toList) (h : startsWord s = false) :
    wholeName? names before s = none := by
  cases hname : wholeName? names before s with
  | none => rfl
  | some n =>
    obtain ⟨hmem, hprefix⟩ := wholeName?_some hname
    obtain ⟨hne, hn⟩ := hnames n hmem
    obtain ⟨c, cs, hcs⟩ := exists_cons_of_ne_nil hne
    obtain ⟨t, rfl⟩ := List.isPrefixOf_iff_prefix.mp hprefix
    simp [hcs, startsWord, hn c (hcs ▸ mem_cons_self)] at h

theorem wholeName?_word (hnames : ∀ n ∈ names, IsWord n.toList)
    (hw : ∀ d ∈ c :: w, isWordChar d = true) (hend : startsWord rear = false)
    (hbefore : wordAt before = false) :
    wholeName? names before (c :: w ++ rear) =
      if String.ofList (c :: w) ∈ names then some (String.ofList (c :: w)) else none := by
  have hmatch : ∀ n ∈ names, (n.toList.isPrefixOf (c :: w ++ rear) && isBoundary
      (if n.toList.isEmpty then before else n.toList.getLast?)
      ((c :: w ++ rear).drop n.toList.length).head?) = decide (n = String.ofList (c :: w)) := by
    intro n hn
    obtain ⟨hne, hword⟩ := hnames n hn
    have hlast : wordAt n.toList.getLast? = true := by
      rw [getLast?_eq_some_getLast hne]
      exact hword _ (getLast_mem hne)
    rw [isEmpty_eq_false_iff.mpr hne, if_neg (by decide), Bool.eq_iff_iff, Bool.and_eq_true,
      List.isPrefixOf_iff_prefix, decide_eq_true_iff]
    constructor
    · rintro ⟨⟨t, ht⟩, hboundary⟩
      have hstart : startsWord t = false := by
        rw [← ht, drop_left, isBoundary, hlast] at hboundary
        simpa [wordAt, startsWord] using hboundary
      have htake := (takeWhile_word hword hstart).1
      rw [ht, (takeWhile_word hw hend).1] at htake
      rw [htake, String.ofList_toList]
    · rintro rfl
      simp only [String.toList_ofList] at hlast ⊢
      refine ⟨prefix_append _ rear, ?_⟩
      rw [drop_left, isBoundary, hlast]
      simpa [wordAt, startsWord] using hend
  have hstart : isBoundary before (c :: w ++ rear).head? = true := by
    have hc : wordAt (some c) = true := hw c mem_cons_self
    rw [cons_append, head?_cons, isBoundary, hbefore, hc]
    rfl
  rw [wholeName?, hstart, Bool.not_true, if_neg (by decide)]
  generalize hbest : names.foldl _ none = best
  obtain ⟨hfound, hall⟩ := Table.foldl_longest _ names hbest
  cases best with
  | none =>
    refine (if_neg fun hmem => ?_).symm
    obtain ⟨b, hb, -⟩ := hall _ hmem ((hmatch _ hmem).trans (by simp))
    cases hb
  | some b =>
    obtain ⟨hmem, hfits⟩ := hfound b rfl
    obtain rfl := of_decide_eq_true ((hmatch b hmem).symm.trans hfits)
    exact (if_pos hmem).symm

/-! ## Substitution reads a text -/

theorem substitute_alone (args : Table Argument) (before : Option Char)
    (hsign : ¬(c = '#' ∧ startsWord (skip s) = true))
    (halone : isWordChar c = true → (chain (s.dropWhile isWordChar)).1 = []) :
    (wholeName? args.keys before (c :: s) = none →
      substitute args before (c :: s) = c :: substitute args (some c) s) ∧
    ∀ n, wholeName? args.keys before (c :: s) = some n → n.toList ≠ [] →
      substitute args before (c :: s) =
        expandedArgument args n ++ substitute args n.toList.getLast? (s.drop (n.length - 1)) := by
  have hstring : (c = '#' && !((skip s).takeWhile isWordChar).isEmpty) = false := by
    simpa [isEmpty_takeWhile] using hsign
  have hnone : (if ((c :: s).takeWhile isWordChar).isEmpty then ([], 0)
      else pasted ((c :: s).drop ((c :: s).takeWhile isWordChar).length)).1 = [] := by
    cases hc : isWordChar c with
    | false => simp [hc]
    | true =>
      rw [drop_length_takeWhile, if_neg (by simp [hc]), dropWhile_cons_of_pos hc]
      exact (congrArg Prod.fst (pasted_eq_chain _)).trans (halone hc)
  constructor
  · intro hname
    rw [substitute]
    simp only [drop_runLength, hstring, Bool.false_eq_true, if_false, hnone, hname]
    rfl
  · intro n hname hne
    have hempty : n.isEmpty = false := by
      simpa [String.isEmpty_iff, ← String.toList_eq_nil_iff] using hne
    rw [substitute]
    simp only [drop_runLength, hstring, Bool.false_eq_true, if_false, hnone, hname, hempty]
    rfl

theorem sign_of_isWordChar (hc : isWordChar c = true) :
    ¬(c = '#' ∧ startsWord (skip s) = true) := by
  rintro ⟨rfl, -⟩
  exact absurd hc (by decide)

theorem substitute_inside (hw : ∀ c ∈ w, isWordChar c = true) (hbefore : wordAt before = true)
    (hend : startsWord s = false) (halone : (chain s).1 = []) :
    substitute args before (w ++ s) = w ++ substitute args (w.getLast?.or before) s := by
  induction w generalizing before with
  | nil => simp
  | cons c w ih =>
    obtain ⟨hc, hw⟩ := forall_mem_cons.mp hw
    have hlast : wordAt (some c) = true := hc
    have hname : wholeName? args.keys before (c :: (w ++ s)) = none := by
      rw [wholeName?, if_pos]
      rw [head?_cons, isBoundary, hbefore, hlast]
      rfl
    rw [cons_append, (substitute_alone args before (sign_of_isWordChar hc) fun _ => by
      rwa [(takeWhile_word hw hend).2]).1 hname, ih hw hlast, cons_append]
    cases hlast : w.getLast? <;> simp [getLast?_cons, hlast]

theorem substitute_word (hargs : Worded args) (hw : ∀ d ∈ c :: w, isWordChar d = true)
    (hbefore : wordAt before = false) (hend : startsWord s = false) (halone : (chain s).1 = []) :
    substitute args before (c :: w ++ s) =
      (Piece.words (c :: w) []).text args ++ substitute args ((c :: w).getLast?) s := by
  have hname := wholeName?_word hargs hw hend hbefore
  obtain ⟨hc, hw⟩ := forall_mem_cons.mp hw
  obtain ⟨hstays, hparameter⟩ := substitute_alone args before
    (sign_of_isWordChar (s := w ++ s) hc) fun _ => by rwa [(takeWhile_word hw hend).2]
  rw [cons_append] at hname ⊢
  split at hname
  · rename_i hkey
    obtain ⟨a, ha⟩ := Option.ne_none_iff_exists'.mp (Table.mem_keys_iff.mp hkey)
    rw [hparameter _ hname (by simp), String.toList_ofList, String.length_ofList, expandedArgument,
      Piece.text, ha, length_cons, Nat.add_sub_cancel, drop_left]
    rfl
  · rename_i hkey
    have hlast : wordAt (some c) = true := hc
    have hnone : args.find? (String.ofList (c :: w)) = none := by
      simpa [Table.mem_keys_iff] using hkey
    rw [hstays hname, substitute_inside hw hlast hend halone, Piece.text, hnone]
    cases hlast : w.getLast? <;> simp [getLast?_cons, hlast]

theorem substitute_eq_reading (hargs : Worded args) (s : List Char)
    (hbefore : wordAt before = true → startsWord s = false) :
    substitute args before s = (reading s).flatMap (Piece.text args) := by
  fun_induction reading s generalizing before with
  | case1 =>
    rw [substitute, wholeName?_eq_none hargs rfl]
    rfl
  | case2 c cs h ih =>
    obtain ⟨rfl, hword⟩ := h
    rw [substitute]
    simp only [← drop_drop, drop_runLength, drop_length_takeWhile, isEmpty_takeWhile, hword]
    rw [if_pos (by decide), ih fun _ => startsWord_dropWhile _, flatMap_cons, Piece.text]
    cases args.find? (String.ofList ((skip cs).takeWhile isWordChar)) <;> simp
  | case3 c cs hsign hc ih =>
    have hend := startsWord_dropWhile cs
    have htake := takeWhile_cons_of_pos (l := cs) hc
    rw [flatMap_cons]
    by_cases halone : (chain (cs.dropWhile isWordChar)).1 = []
    · have hw : ∀ d ∈ c :: cs.takeWhile isWordChar, isWordChar d = true :=
        htake ▸ all_eq_true.mp all_takeWhile
      have hstart : wordAt before = false := by simpa [startsWord, hc] using hbefore
      have hword := substitute_word hargs hw hstart hend halone
      rw [cons_append, takeWhile_append_dropWhile] at hword
      rw [chain_eq_self halone] at ih ⊢
      rw [hword, halone, ih fun _ => hend]
    · obtain ⟨hws, hdrop⟩ := Prod.mk.inj (pasted_eq_chain (cs.dropWhile isWordChar))
      rw [substitute]
      simp only [htake, isEmpty_cons, length_cons, drop_succ_cons, drop_length_takeWhile, hws,
        Bool.false_eq_true, if_false, Nat.add_right_comm _ 1, Nat.add_sub_cancel, ← drop_drop,
        hdrop]
      rw [if_neg, if_pos (by simpa using halone), Piece.text, if_neg (by simpa using halone),
        ih fun _ => startsWord_chain hend]
      rw [Bool.and_eq_true, not_and, decide_eq_true_iff]
      rintro rfl
      exact absurd hc (by decide)
  | case4 c cs hsign hc ih =>
    have hc : isWordChar c = false := by simpa using hc
    rw [(substitute_alone args before hsign (by simp [hc])).1 (wholeName?_eq_none hargs hc),
      flatMap_cons, ih]
    · rfl
    · intro hword
      simp [wordAt, hc] at hword

/-- **Substitution reads a text from left to right, and pastes behind a word only.** If the
parameters are words, the pieces of a text give what substitution gives. Words pasted behind a word
are joined with it, arguments as they are. But at a paste operator with no word in front, the first
number sign stays and the second makes a string. -/
theorem substitute_paste (hargs : Worded args) :
    (∀ s, substitute args none s = (reading s).flatMap (Piece.text args)) ∧
    (∀ w s ws rear, IsWord w → startsWord s = false → chain s = (ws, rear) → ws ≠ [] →
      substitute args none (w ++ s) =
        ((w :: ws).flatMap fun n => ((args.find? (String.ofList n)).map Argument.raw).getD n) ++
          substitute args none rear) ∧
    ∀ v w rest, skip v = w ++ rest → IsWord w → startsWord rest = false →
      substitute args none ('#' :: '#' :: v) =
        '#' :: ((Piece.string w).text args ++ substitute args none rest) := by
  have hread : ∀ s, substitute args none s = (reading s).flatMap (Piece.text args) :=
    fun s => substitute_eq_reading hargs s (by simp [wordAt])
  refine ⟨hread, ?_, ?_⟩
  · rintro w s ws rear ⟨hne, hw⟩ hend hchain hws
    obtain ⟨c, cs, rfl⟩ := exists_cons_of_ne_nil hne
    obtain ⟨hc, hcs⟩ := forall_mem_cons.mp hw
    rw [hread, hread, cons_append, reading, if_neg (sign_of_isWordChar hc), if_pos hc,
      (takeWhile_word hcs hend).1, (takeWhile_word hcs hend).2, hchain, flatMap_cons, Piece.text,
      if_neg (by simpa using hws)]
  · rintro v w rest hv ⟨hne, hw⟩ hend
    have hstart : startsWord (skip v) = true := by
      obtain ⟨c, cs, rfl⟩ := exists_cons_of_ne_nil hne
      simpa [hv, startsWord] using hw c mem_cons_self
    have hsign : reading ('#' :: '#' :: v) = .plain '#' :: reading ('#' :: v) := by
      rw [reading, if_neg, if_neg (by decide)]
      exact fun h => Bool.false_ne_true h.2
    rw [hread, hread, hsign, reading, if_pos ⟨rfl, hstart⟩, hv, (takeWhile_word hw hend).1,
      (takeWhile_word hw hend).2]
    rfl

/-- A paste operator behind a comma makes a string of the argument behind it. -/
theorem substitute_paste_comma :
    let args : Table Argument := ⟨[("ff", ⟨['a'], ['a']⟩), ("gg", ⟨['b'], ['c']⟩)]⟩
    Worded args ∧ (reading "ff,##gg ff##gg".toList).flatMap (Piece.text args) =
      "a,#\"b\" ab".toList := by
  intro args
  have hargs : Worded args := by
    intro k hk
    rcases mem_cons.mp hk with rfl | hk
    · exact ⟨by decide, all_eq_true.mp (by decide)⟩
    · obtain rfl := mem_singleton.mp hk
      exact ⟨by decide, all_eq_true.mp (by decide)⟩
  exact ⟨hargs, ((substitute_paste hargs).1 _).symm.trans (by decide +kernel)⟩

end CBoundary.Macro
