import CBoundary.Declaration.Variable
import Mathlib.Data.List.Basic

/-!
# The tokens of a type

The words of a type and the name behind them are tokens of the declaration in their order, each
of them used once, with one exception: if the declaration consists of leading words only, the
last of them is looked at again.
-/

namespace CBoundary.Declaration

open List

variable {skip : Bool} {ts : List Token} {t : Token}

/-- Is the word a qualifier that is passed over? -/
def isSkipped (skip : Bool) (t : Token) : Bool := skip && t.isQualifier

theorem filter_isSkipped_false (ts : List Token) : ts.filter (!isSkipped false ·) = ts := by
  simp [isSkipped]

/-- A word that is passed over, or one of a built-in type. -/
def IsLeading (skip : Bool) (t : Token) : Prop :=
  t.kind = .word ∧ (isSkipped skip t = true ∨ t.isBuiltinType = true)

theorem exists_leadingType (skip : Bool) (type : List Token) (builtin : Bool) (i : Nat)
    (ts : List Token) :
    ∃ words rest, ts = words ++ rest ∧ (∀ t ∈ words, t.kind = .word) ∧
      (leadingType skip type builtin i ts).type = type ++ words.filter (!isSkipped skip ·) ∧
      (words = [] → (leadingType skip type builtin i ts).builtin = builtin) ∧
      ((leadingType skip type builtin i ts).next = i + words.length ∧ (∃ t ∈ ts, ¬ IsLeading skip t) ∨
        rest = [] ∧ (leadingType skip type builtin i ts).next = i + words.length - 1 ∧
          ∀ t ∈ words, IsLeading skip t) := by
  fun_induction leadingType skip type builtin i ts with
  | case1 type builtin i =>
    exact ⟨[], [], rfl, by simp, by simp, fun _ => rfl, .inr ⟨rfl, rfl, by simp⟩⟩
  | case2 type builtin i t ts ht =>
    exact ⟨[], t :: ts, rfl, by simp, by simp, fun _ => rfl,
      .inl ⟨rfl, t, mem_cons_self, fun h => by simp [h.1] at ht⟩⟩
  | case3 type builtin i t ts ht hq ih | case4 type builtin i t ts ht hq hb ih =>
    obtain ⟨words, rest, rfl, hwords, htype, -, hnext⟩ := ih
    have hword : t.kind = .word := by simpa using ht
    have hlead : IsLeading skip t := ⟨hword, by simp_all [isSkipped]⟩
    refine ⟨t :: words, rest, rfl, forall_mem_cons.mpr ⟨hword, hwords⟩, ?_, nofun, ?_⟩
    · rw [htype, filter_cons]
      simp_all [isSkipped]
    · rw [length_cons]
      rcases hnext with ⟨hnext, u, hu, hother⟩ | ⟨hrest, hnext, hall⟩
      · exact .inl ⟨by omega, u, mem_cons_of_mem t hu, hother⟩
      · exact .inr ⟨hrest, by omega, forall_mem_cons.mpr ⟨hlead, hall⟩⟩
  | case5 type i t ts ht hq hb =>
    exact ⟨[], t :: ts, rfl, by simp, by simp, fun _ => rfl,
      .inl ⟨rfl, t, mem_cons_self, fun h => by simp_all [IsLeading, isSkipped]⟩⟩
  | case6 type builtin i t ts ht hq hb hbuiltin =>
    exact ⟨[t], ts, rfl, by simpa using ht, by rw [filter_cons]; simp_all [isSkipped], nofun,
      .inl ⟨rfl, t, mem_cons_self, fun h => by simp_all [IsLeading, isSkipped]⟩⟩

theorem isPrefix_trailingType (builtin : Bool) (type : List Token) (i : Int) (ts : List Token) :
    (trailingType builtin type i ts).type ++ (trailingType builtin type i ts).name.toList <+:
      type ++ ts := by
  have hlast (l : List Token) : l.dropLast ++ l.getLast?.toList = l := by
    rcases eq_nil_or_concat l with rfl | ⟨front, last, rfl⟩ <;> simp
  fun_induction trailingType builtin type i ts with
  | case1 type i => simp [hlast]
  | case2 type i t ts => rw [hlast]; exact prefix_append _ _
  | case3 type i t ts _ _ ih | case5 type i t ts _ _ ih => simpa using ih
  | case4 type i t ts => simp

theorem next_trailingType (builtin : Bool) (type : List Token) (i : Int) (hts : ts ≠ []) :
    i - 1 ≤ (trailingType builtin type i ts).next ∧
      (trailingType builtin type i ts).next ≤ i + ts.length ∧
      (builtin = false → 2 ≤ ts.length → i ≤ (trailingType builtin type i ts).next) := by
  fun_induction trailingType builtin type i ts with
  | case1 => exact absurd rfl hts
  | case2 type i t ts _ hbuiltin =>
    simp only [length_cons]
    exact ⟨by omega, by omega, fun h => by simp [h] at hbuiltin⟩
  | case3 type i t ts _ _ ih | case5 type i t ts _ _ ih =>
    cases ts with
    | nil => simp [trailingType]; omega
    | cons u us =>
      have := ih (cons_ne_nil u us)
      simp only [length_cons] at this ⊢
      omega
  | case4 type i t ts => simp only [length_cons]; omega

/-- There are only leading words, and the last one is a word of the type. -/
structure EndsInType (skip : Bool) (ts : List Token) : Prop where
  isVoid : isVoid ts = false
  leading : ∀ t ∈ ts, IsLeading skip t
  last : ts.getLast?.any (!isSkipped skip ·) = true

/-- There is one token only, a leading word or an array suffix. -/
def IsLone (skip : Bool) (ts : List Token) : Prop :=
  ∃ t, ts = [t] ∧ isVoid ts = false ∧ (t.kind = .bracket ∨ IsLeading skip t)

theorem splitType_of_leading {front : List Token} (hvoid : isVoid (front ++ [t]) = false)
    (hlead : ∀ u ∈ front ++ [t], IsLeading skip u) :
    splitType skip (front ++ [t]) =
      ⟨(front ++ [t]).filter (!isSkipped skip ·), front.length - 1, some t⟩ := by
  obtain ⟨words, rest, hts, -, htype, -, hnext⟩ := exists_leadingType skip [] false 0 (front ++ [t])
  rcases hnext with ⟨-, u, hu, hother⟩ | ⟨rfl, hnext, -⟩
  · exact absurd (hlead u hu) hother
  · rw [append_nil] at hts
    subst hts
    have hword : t.kind = .word := (hlead t (by simp)).1
    have hnext : (leadingType skip [] false 0 (front ++ [t])).next = front.length := by
      simpa using hnext
    rw [splitType, hvoid, if_neg (by simp)]
    dsimp only
    rw [hnext, htype, if_neg (by simp), drop_left]
    simp [trailingType, hword]
    omega

theorem splitType_of_not_leading (hother : ∃ t ∈ ts, ¬ IsLeading skip t) :
    (splitType skip ts).type ++ (splitType skip ts).name.toList <+ ts ∧
      (splitType skip ts).next ≤ ts.length ∧ (2 ≤ ts.length → 0 ≤ (splitType skip ts).next) := by
  obtain ⟨words, rest, rfl, -, htype, hbuiltin, hnext⟩ := exists_leadingType skip [] false 0 ts
  rcases hnext with ⟨hnext, -⟩ | ⟨rfl, -, hall⟩
  · have hwords : words.filter (!isSkipped skip ·) <+ words := filter_sublist
    unfold splitType
    split
    · simp only [nil_append, Option.toList_none, nil_sublist, true_and]
      omega
    · dsimp only
      rw [htype, hnext, Nat.zero_add, nil_append, drop_left]
      split
      · rename_i hlong
        simp only [Option.toList_none, append_nil]
        exact ⟨hwords.trans (sublist_append_left _ _), Int.ofNat_le.mpr (by simp), by simp⟩
      · rename_i hshort
        have hrest : rest ≠ [] := by
          rintro rfl
          simp at hshort
        obtain ⟨hlow, hhigh, hfirst⟩ := next_trailingType
          (leadingType skip [] false 0 (words ++ rest)).builtin (words.filter (!isSkipped skip ·))
          words.length hrest
        refine ⟨(isPrefix_trailingType _ _ _ _).sublist.trans (hwords.append_right rest),
          by simpa using hhigh, fun htwo => ?_⟩
        cases words with
        | nil => exact hfirst (hbuiltin rfl) (by simpa using htwo)
        | cons w words =>
          have hone : 0 < (w :: words).length := Nat.succ_pos _
          omega
  · obtain ⟨t, ht, hother⟩ := hother
    exact absurd (hall t (by simpa using ht)) hother

theorem next_splitType_singleton (hother : ¬ IsLeading skip t) :
    0 ≤ (splitType skip [t]).next ↔ ¬ IsLone skip [t] := by
  have hlone : IsLone skip [t] ↔ isVoid [t] = false ∧ t.kind = .bracket := by
    simp [IsLone, hother]
  rw [hlone]
  unfold splitType
  cases hvoid : isVoid [t] with
  | true => simp
  | false =>
    by_cases hword : t.kind = .word
    · have hnot := not_or.mp fun h => hother ⟨hword, h⟩
      rw [Bool.not_eq_true, Bool.not_eq_true, isSkipped] at hnot
      simp [leadingType, hword, hnot]
    · by_cases hbracket : t.kind = .bracket <;> simp [leadingType, trailingType, hword, hbracket]

/-- The type and the name behind it are tokens of the declaration, in order and once each, exactly
if the last token is not looked at again. The declaration goes on within its bounds, unless it is
one leading word or array suffix only. -/
theorem splitType_sublist_iff (skip : Bool) (ts : List Token) :
    ((splitType skip ts).type ++ (splitType skip ts).name.toList <+ ts ↔ ¬ EndsInType skip ts) ∧
      (splitType skip ts).next ≤ ts.length ∧ (0 ≤ (splitType skip ts).next ↔ ¬ IsLone skip ts) := by
  by_cases hall : ∀ t ∈ ts, IsLeading skip t
  · rcases eq_nil_or_concat ts with rfl | ⟨front, t, rfl⟩
    · exact ⟨iff_of_true (nil_sublist _) fun h => by simpa using h.last, Int.le_refl _,
        iff_of_true (Int.le_refl _) (by simp [IsLone])⟩
    rw [concat_eq_append] at hall ⊢
    cases hvoid : isVoid (front ++ [t]) with
    | true =>
      have hsplit : splitType skip (front ++ [t]) = ⟨[], (front ++ [t]).length, none⟩ := by
        simp [splitType, hvoid]
      rw [hsplit]
      exact ⟨iff_of_true (nil_sublist _) fun h => by simp [h.isVoid] at hvoid, Int.le_refl _,
        iff_of_true (Int.natCast_nonneg _) (by simp [IsLone, hvoid])⟩
    | false =>
      rw [splitType_of_leading hvoid hall]
      refine ⟨?_, by simp; omega, ?_⟩
      · cases hskipped : isSkipped skip t with
        | true =>
          refine iff_of_true ?_ fun h => by simpa [hskipped] using h.last
          simp [hskipped]
        | false =>
          -- there is one word more than the declaration has
          refine iff_of_false (fun h => ?_) (not_not.mpr ⟨hvoid, hall, by simp [hskipped]⟩)
          have hcount := h.countP_le (p := (!isSkipped skip ·))
          simp [countP_filter, hskipped] at hcount
      · constructor
        · rintro hnext ⟨u, hone, -⟩
          obtain ⟨rfl, -⟩ : front = [] ∧ t = u := by simpa [append_eq_singleton_iff] using hone
          simp at hnext
        · intro hlone
          cases front with
          | nil => exact absurd ⟨t, rfl, hvoid, .inr (hall t (by simp))⟩ hlone
          | cons u front => simp only [length_cons]; omega
  · simp only [not_forall, exists_prop] at hall
    obtain ⟨hsublist, hle, hnext⟩ := splitType_of_not_leading hall
    obtain ⟨u, hu, hother⟩ := hall
    refine ⟨iff_of_true hsublist fun h => hother (h.leading u hu), hle, ?_⟩
    by_cases hone : ∃ t, ts = [t]
    · obtain ⟨t, rfl⟩ := hone
      obtain rfl := mem_singleton.mp hu
      exact next_splitType_singleton hother
    · have hlength : 2 ≤ ts.length := by
        rcases ts with - | ⟨t, - | ⟨v, ts⟩⟩
        · cases hu
        · exact absurd ⟨t, rfl⟩ hone
        · simp
      exact iff_of_true (hnext hlength) fun h => hone (h.imp fun _ h => h.1)

end CBoundary.Declaration
