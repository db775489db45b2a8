import CBoundary.Proofs.Code.Aliases

/-!
# Following and merging type definitions

The walk along type definitions stops at a type, at a name without a definition, or at a name where
it has been before, so that it always comes to an end.  Merging makes every name that stands for a
type a further name of it.
-/

namespace CBoundary.Codebase

open List

variable {cb cb' : Codebase}
variable {seen : List String} {name last type : String} {n : Nat}

/-! ## Walks -/

/-- The walk goes no further than a name, if some names were seen before. -/
def Stops (cb : Codebase) (seen : List String) (name : String) : Prop :=
  cb.types.contains name = true ∨ cb.typedefs.find? name = none ∨ name ∈ seen

/-- The walk leads from a name to a last one, if some names were seen before. -/
inductive Walks (cb : Codebase) : List String → String → String → Prop
  | stop {seen : List String} {name : String} (h : cb.Stops seen name) : Walks cb seen name name
  | step {seen : List String} {name next last : String} (htype : cb.types.contains name = false)
      (hnext : cb.typedefs.find? name = some next) (hnew : name ∉ seen)
      (hrest : Walks cb (name :: seen) next last) : Walks cb seen name last

theorem not_stops {next : String} (htype : cb.types.contains name = false)
    (hnext : cb.typedefs.find? name = some next) (hnew : name ∉ seen) : ¬ cb.Stops seen name := by
  rintro (hstop | hstop | hstop)
  · rw [htype] at hstop
    cases hstop
  · rw [hnext] at hstop
    cases hstop
  · exact hnew hstop

theorem Walks.unique {last' : String} (h : cb.Walks seen name last)
    (h' : cb.Walks seen name last') : last = last' := by
  induction h with
  | stop hstop =>
    cases h' with
    | stop => rfl
    | step htype hnext hnew => exact absurd hstop (not_stops htype hnext hnew)
  | step htype hnext hnew _ ih =>
    cases h' with
    | stop hstop => exact absurd hstop (not_stops htype hnext hnew)
    | step _ hnext' _ hrest' =>
      cases hnext.symm.trans hnext'
      exact ih hrest'

/-- The bound on the walk is never met: the names that were seen have definitions of their own. -/
theorem walks_followTypedefs {left : Nat} (hnodup : seen.Nodup) (hseen : seen ⊆ cb.typedefs.keys)
    (hleft : cb.typedefs.keys.length < left + seen.length) :
    cb.Walks seen name (cb.followTypedefs left seen name) := by
  induction left generalizing seen name with
  | zero =>
    have hle := (subperm_of_subset hnodup hseen).length_le
    omega
  | succ left ih =>
    rw [followTypedefs]
    split
    · rename_i hstop
      rw [Bool.or_eq_true, contains_iff_mem] at hstop
      rcases hstop with hstop | hstop
      · exact .stop (.inl hstop)
      · exact .stop (.inr (.inr hstop))
    · rename_i hgo
      rw [Bool.or_eq_true, not_or, Bool.not_eq_true, contains_iff_mem] at hgo
      obtain ⟨htype, hnew⟩ := hgo
      cases hnext : cb.typedefs.find? name with
      | none => exact .stop (.inr (.inl hnext))
      | some next =>
        have hkey : name ∈ cb.typedefs.keys := Table.mem_keys_iff.mpr (by simp [hnext])
        refine .step htype hnext hnew (ih (nodup_cons.mpr ⟨hnew, hnodup⟩)
          (cons_subset.mpr ⟨hkey, hseen⟩) ?_)
        rw [length_cons]
        omega

theorem walks_untypedef (hmerged : cb.merged = false) (name : String) :
    cb.Walks [] name (cb.untypedef name) := by
  rw [untypedef, hmerged, if_neg (by decide)]
  refine walks_followTypedefs nodup_nil (nil_subset _) ?_
  rw [Table.keys, length_map]
  exact Nat.lt_succ_self _

/-! ## The last name of a walk -/

/-- The names that were seen, the latest first, lead to a name one after the other. -/
def Linked (cb : Codebase) : List String → String → Prop
  | [], _ => True
  | x :: xs, name => cb.types.contains x = false ∧ cb.typedefs.find? x = some name ∧ x ∉ xs ∧
      cb.Linked xs x

theorem Linked.walks_again {front rear : List String} {start : String}
    (h : cb.Linked (front ++ start :: rear) name) (hrest : cb.Walks (front ++ [start]) name last) :
    cb.Walks [] start last := by
  induction front generalizing name with
  | nil => exact .step h.1 h.2.1 not_mem_nil hrest
  | cons x front ih =>
    obtain ⟨htype, hnext, hnew, hlinked⟩ := h
    refine ih hlinked (.step htype hnext (fun hmem => hnew ?_) hrest)
    rcases mem_append.mp hmem with hmem | hmem
    · exact mem_append_left _ hmem
    · rw [mem_singleton.mp hmem]
      exact mem_append_right _ mem_cons_self

/-- A walk from the last name of a walk stays there, at once or round a circle. -/
theorem Walks.walks_last (h : cb.Walks seen name last) (hlinked : cb.Linked seen name) :
    cb.Walks [] last last := by
  induction h with
  | stop hstop =>
    rcases hstop with hstop | hstop | hmem
    · exact .stop (.inl hstop)
    · exact .stop (.inr (.inl hstop))
    · obtain ⟨front, rear, rfl⟩ := append_of_mem hmem
      refine hlinked.walks_again (.stop (.inr (.inr ?_)))
      exact mem_append_right _ (mem_singleton.mpr rfl)
  | step htype hnext hnew _ ih => exact ih ⟨htype, hnext, hnew, hlinked⟩

theorem untypedef_untypedef (hmerged : cb.merged = false) (name : String) :
    cb.untypedef (cb.untypedef name) = cb.untypedef name :=
  (walks_untypedef hmerged _).unique ((walks_untypedef hmerged name).walks_last trivial)

/-! ## Merged type definitions -/

theorem Widens.findType?_eq (h : Widens cb cb') (hcb : cb.OwnNames) {key : String}
    (hkey : cb'.types.contains key = true) (hstands : cb.StandsFor n key type) :
    cb'.findType? key = cb.findType? type := by
  have htype := hstands.contains_type
  rw [Table.contains_eq, Option.isSome_iff_exists] at htype hkey
  obtain ⟨e, htype⟩ := htype
  obtain ⟨d, rfl, -⟩ := hcb type e htype
  obtain ⟨e', hkey⟩ := hkey
  have hold : cb.findType? type = some d := by simp [Codebase.findType?, canonicalType, htype]
  rw [hold]
  cases hstands with
  | known => simp [Codebase.findType?, canonicalType, h.kept _ _ htype]
  | through hunknown hnext hrest =>
    rw [Table.contains_eq, Option.isSome_eq_false_iff, Option.isNone_iff_eq_none] at hunknown
    obtain ⟨m, type', rfl, hagain⟩ := h.new key e' hunknown hkey
    rw [← Option.isNone_iff_eq_none, ← Option.isSome_eq_false_iff, ← Table.contains_eq] at hunknown
    obtain ⟨-, rfl⟩ := hagain.unique (.through hunknown hnext hrest)
    simp [Codebase.findType?, canonicalType, hkey, h.kept _ _ htype]

theorem contains_fillTypedefs_iff (hcb : cb.OwnNames) (hmerged : cb.merged = false)
    (key : String) :
    cb.fillTypedefs.types.contains key = true ↔ ∃ n type, cb.StandsFor n key type := by
  obtain ⟨hwidens, hknown⟩ := (Widens.refl cb).foldl_mergeTypedef hcb hmerged cb.typedefs.keys
  rw [fillTypedefs, hmerged, if_neg (by decide)]
  constructor
  · intro hkey
    obtain ⟨n, d, hstands, -⟩ := hwidens.findType? hcb hkey
    exact ⟨n, d.name, hstands⟩
  · rintro ⟨n, type, hstands⟩
    apply hknown
    cases hstands with
    | known h => exact .inr h
    | through h hnext hrest =>
      exact .inl ⟨Table.mem_keys_iff.mpr (by simp [hnext]), _, _, .through h hnext hrest⟩

theorem findType?_fillTypedefs_iff (hcb : cb.OwnNames) (hmerged : cb.merged = false)
    (key : String) (d : Definition) :
    cb.fillTypedefs.findType? key = some d ↔
      ∃ n type, cb.StandsFor n key type ∧ cb.findType? type = some d := by
  obtain ⟨hwidens, -⟩ := (Widens.refl cb).foldl_mergeTypedef hcb hmerged cb.typedefs.keys
  have hcontains := contains_fillTypedefs_iff hcb hmerged key
  rw [fillTypedefs, hmerged, if_neg (by decide)] at hcontains ⊢
  constructor
  · intro hd
    have hkey : (cb.typedefs.keys.foldl mergeTypedef cb).types.contains key = true := by
      by_contra hnot
      change (cb.typedefs.keys.foldl mergeTypedef cb).findType? key = some d at hd
      rw [findType?_eq_none_of_not_contains (Bool.eq_false_iff.mpr hnot)] at hd
      cases hd
    obtain ⟨n, type, hstands⟩ := hcontains.mp hkey
    exact ⟨n, type, hstands, (hwidens.findType?_eq hcb hkey hstands).symm.trans hd⟩
  · rintro ⟨n, type, hstands, hd⟩
    exact (hwidens.findType?_eq hcb (hcontains.mpr ⟨n, type, hstands⟩) hstands).trans hd

theorem StandsFor.congr {t : Table String} (h : cb.StandsFor n name type)
    (ht : ∀ key, t.find? key = cb.typedefs.find? key) :
    StandsFor { cb with typedefs := t } n name type := by
  induction h with
  | known hname => exact .known hname
  | through hname hnext _ ih => exact .through hname ((ht _).trans hnext) ih

theorem StandsFor.untypedef_fillTypedefs (h : cb.StandsFor n name type) (hcb : cb.OwnNames)
    (hmerged : cb.merged = false) : cb.fillTypedefs.untypedef name = type := by
  have htype := h.contains_type
  rw [Table.contains_eq, Option.isSome_iff_exists] at htype
  obtain ⟨e, htype⟩ := htype
  obtain ⟨d, rfl, hname⟩ := hcb type e htype
  have hold : cb.findType? type = some d := by simp [findType?, canonicalType, htype]
  have hd := (findType?_fillTypedefs_iff hcb hmerged name d).mpr ⟨n, type, h, hold⟩
  have hdone : cb.fillTypedefs.merged = true := by rw [fillTypedefs, hmerged, if_neg (by decide)]
  rwa [untypedef, hdone, if_pos rfl, hd]

theorem untypedef_fillTypedefs_of_not (hcb : cb.OwnNames) (hmerged : cb.merged = false)
    (h : ¬ ∃ n type, cb.StandsFor n name type) : cb.fillTypedefs.untypedef name = name := by
  rw [← contains_fillTypedefs_iff hcb hmerged, Bool.not_eq_true] at h
  have hdone : cb.fillTypedefs.merged = true := by rw [fillTypedefs, hmerged, if_neg (by decide)]
  rw [untypedef, hdone, if_pos rfl, findType?_eq_none_of_not_contains h]
  rfl

/-- The walk along type definitions ends from every name. Merging makes known exactly the names that
lead to a type, each with the definition of the first type on its way, in whatever order. What a
name leads to stays the same, and leads to itself. -/
theorem fillTypedefs_follows_walks (cb : Codebase) (hcb : cb.OwnNames)
    (hmerged : cb.merged = false) :
    (∀ name, cb.Walks [] name (cb.untypedef name)) ∧
      (∀ key, cb.fillTypedefs.types.contains key = true ↔ ∃ n type, cb.StandsFor n key type) ∧
      (∀ key d, cb.fillTypedefs.findType? key = some d ↔
        ∃ n type, cb.StandsFor n key type ∧ cb.findType? type = some d) ∧
      (∀ t : Table String, (∀ key, t.find? key = cb.typedefs.find? key) → ∀ key,
        ({ cb with typedefs := t } : Codebase).fillTypedefs.findType? key =
          cb.fillTypedefs.findType? key) ∧
      (∀ name, cb.types.contains (cb.untypedef name) = true →
        cb.fillTypedefs.untypedef name = cb.untypedef name) ∧
      (∀ name, cb.untypedef (cb.untypedef name) = cb.untypedef name) ∧
      ∀ name, cb.fillTypedefs.untypedef (cb.fillTypedefs.untypedef name) =
        cb.fillTypedefs.untypedef name := by
  refine ⟨walks_untypedef hmerged, contains_fillTypedefs_iff hcb hmerged,
    findType?_fillTypedefs_iff hcb hmerged, fun t ht key => ?_, fun name hname => ?_,
    untypedef_untypedef hmerged, fun name => ?_⟩
  · have hother : OwnNames { cb with typedefs := t } := hcb.congr rfl
    refine Option.ext fun d => ?_
    rw [findType?_fillTypedefs_iff hcb hmerged, findType?_fillTypedefs_iff hother hmerged]
    constructor
    · rintro ⟨n, type, hstands, hd⟩
      exact ⟨n, type, hstands.congr fun key => (ht key).symm, hd⟩
    · rintro ⟨n, type, hstands, hd⟩
      exact ⟨n, type, hstands.congr ht, hd⟩
  · obtain ⟨n, hstands⟩ := (untypedef_eq_iff hmerged hname).mp rfl
    exact hstands.untypedef_fillTypedefs hcb hmerged
  · by_cases hstands : ∃ n type, cb.StandsFor n name type
    · obtain ⟨n, type, hstands⟩ := hstands
      rw [hstands.untypedef_fillTypedefs hcb hmerged]
      exact (StandsFor.known hstands.contains_type).untypedef_fillTypedefs hcb hmerged
    · rw [untypedef_fillTypedefs_of_not hcb hmerged hstands,
        untypedef_fillTypedefs_of_not hcb hmerged hstands]

/-- The definition of a record without members. -/
def plainRecord : Definition :=
  { name := "SS", kind := "record", scope := .blank, offset := 0, moduleName := "" }

/-- One record, an alias of an alias of it, and two circles, to one of which a further alias
leads. -/
def circledBase : Codebase :=
  { types := ⟨[("SS", .own plainRecord)]⟩
    typedefs := ⟨[("AA", "BB"), ("BB", "SS"), ("CC", "CC"), ("DD", "EE"), ("EE", "FF"),
      ("FF", "EE")]⟩ }

theorem ownNames_circledBase : circledBase.OwnNames := by
  intro key e he
  have hfound := Table.mem_entries_of_find? he
  cases mem_singleton.mp hfound
  exact ⟨plainRecord, rfl, rfl⟩

/-- The alias of the alias becomes a name of the record, and the circles stay without one. -/
theorem fillTypedefs_follows_walks_circles : circledBase.OwnNames ∧ circledBase.merged = false ∧
      circledBase.fillTypedefs.findType? "AA" = some plainRecord ∧
      circledBase.fillTypedefs.types.contains "CC" = false ∧
      circledBase.untypedef "DD" = "EE" ∧ circledBase.untypedef "EE" = "EE" := by
  obtain ⟨-, -, hfind, -, -, hagain, -⟩ :=
    fillTypedefs_follows_walks circledBase ownNames_circledBase rfl
  have hlast : circledBase.untypedef "DD" = "EE" := by decide
  refine ⟨ownNames_circledBase, rfl, (hfind _ _).mpr ⟨2, "SS", ?_, rfl⟩, by decide, hlast, ?_⟩
  · exact .through (by decide) rfl (.through (by decide) rfl (.known (by decide)))
  · exact hagain "DD"

end CBoundary.Codebase
