import CBoundary.Proofs.Code.TwoPass
import Mathlib.Data.List.Perm.Subperm

/-!
# Aliases of types

A name stands for a type if type definitions lead from it to the type.  When the type definitions
are merged, every such name becomes a further name of the type, so that the same type is found
before and after.
-/

namespace CBoundary.Codebase

open List

variable {cb cb' : Codebase}
variable {name type key : String}

/-! ## Walks along type definitions -/

/-- A name stands for a type, to which so many type definitions lead. -/
inductive StandsFor (cb : Codebase) : Nat → String → String → Prop
  | known {name : String} (h : cb.types.contains name = true) : StandsFor cb 0 name name
  | through {n : Nat} {name next type : String} (h : cb.types.contains name = false)
      (hnext : cb.typedefs.find? name = some next) (hrest : StandsFor cb n next type) :
      StandsFor cb (n + 1) name type

namespace StandsFor

variable {n n' : Nat} {name type type' : String}

variable (h : cb.StandsFor n name type)

include h

theorem unique (h' : cb.StandsFor n' name type') : n = n' ∧ type = type' := by
  induction h generalizing n' with
  | known hname =>
    cases h' with
    | known => exact ⟨rfl, rfl⟩
    | through hname' => exact absurd hname (by simp [hname'])
  | through hname hnext _ ih =>
    cases h' with
    | known hname' => exact absurd hname' (by simp [hname])
    | through _ hnext' hrest' =>
      cases hnext.symm.trans hnext'
      obtain ⟨rfl, rfl⟩ := ih hrest'
      exact ⟨rfl, rfl⟩

theorem contains_type : cb.types.contains type = true := by
  induction h with
  | known hname => exact hname
  | through _ _ _ ih => exact ih

theorem exists_way : ∃ way : List String, way.length = n ∧ way.Nodup ∧ way ⊆ cb.typedefs.keys ∧
      ∀ x ∈ way, ∃ m ≤ n, cb.StandsFor m x type := by
  induction h with
  | known hname => exact ⟨[], rfl, nodup_nil, nil_subset _, forall_mem_nil _⟩
  | @through n name next type hname hnext hrest ih =>
    obtain ⟨way, hlength, hnodup, hsubset, hway⟩ := ih
    have hfirst : cb.StandsFor (n + 1) name type := .through hname hnext hrest
    have hnew : name ∉ way := by
      intro hmem
      obtain ⟨m, hm, hagain⟩ := hway name hmem
      have := (hfirst.unique hagain).1
      omega
    refine ⟨name :: way, by simp [hlength], nodup_cons.mpr ⟨hnew, hnodup⟩,
      cons_subset.mpr ⟨?_, hsubset⟩,
      forall_mem_cons.mpr ⟨⟨n + 1, Nat.le_refl _, hfirst⟩, ?_⟩⟩
    · exact Table.mem_keys_iff.mpr (by simp [hnext])
    · intro x hx
      obtain ⟨m, hm, hstands⟩ := hway x hx
      exact ⟨m, by omega, hstands⟩

theorem le_length : n ≤ cb.typedefs.entries.length := by
  obtain ⟨way, hlength, hnodup, hsubset, -⟩ := h.exists_way
  have hle := (subperm_of_subset hnodup hsubset).length_le
  rwa [hlength, Table.keys, length_map] at hle

theorem followTypedefs_eq {left : Nat} (hleft : n < left) {seen : List String}
    (hseen : ∀ x ∈ seen, ∃ m, n < m ∧ cb.StandsFor m x type) :
    cb.followTypedefs left seen name = type := by
  induction h generalizing left seen with
  | known hname =>
    obtain ⟨left, rfl⟩ := Nat.exists_eq_succ_of_ne_zero (Nat.ne_of_gt hleft)
    rw [followTypedefs, hname, Bool.true_or, if_pos rfl]
  | @through n name next type hname hnext hrest ih =>
    obtain ⟨left, rfl⟩ := Nat.exists_eq_succ_of_ne_zero (Nat.ne_of_gt (Nat.zero_lt_of_lt hleft))
    have hthis : cb.StandsFor (n + 1) name type := .through hname hnext hrest
    have hnew : seen.contains name = false := by
      rw [contains_eq_mem, decide_eq_false_iff_not]
      intro hmem
      obtain ⟨m, hm, hagain⟩ := hseen name hmem
      have := (hthis.unique hagain).1
      omega
    rw [followTypedefs, hname, hnew, Bool.false_or, if_neg (by decide), hnext]
    refine ih (by omega) (forall_mem_cons.mpr ⟨⟨n + 1, by omega, hthis⟩, fun x hx => ?_⟩)
    obtain ⟨m, hm, hstands⟩ := hseen x hx
    exact ⟨m, by omega, hstands⟩

theorem untypedef_eq (hmerged : cb.merged = false) : cb.untypedef name = type := by
  have hle := h.le_length
  rw [untypedef, hmerged, if_neg (by decide)]
  exact h.followTypedefs_eq (by omega) (forall_mem_nil _)

end StandsFor

theorem standsFor_of_contains {left : Nat} {seen : List String}
    (h : cb.types.contains (cb.followTypedefs left seen name) = true) :
    ∃ n, cb.StandsFor n name (cb.followTypedefs left seen name) := by
  induction left generalizing seen name with
  | zero => exact ⟨0, .known h⟩
  | succ left ih =>
    rw [followTypedefs] at h ⊢
    split at h
    · rename_i hstop
      rw [if_pos hstop]
      exact ⟨0, .known h⟩
    · rename_i hgo
      rw [if_neg hgo]
      have hname : cb.types.contains name = false := by
        rw [Bool.or_eq_true, not_or, Bool.not_eq_true] at hgo
        exact hgo.1
      cases hnext : cb.typedefs.find? name with
      | none =>
        rw [hnext] at h
        rw [hname] at h
        cases h
      | some next =>
        rw [hnext] at h
        obtain ⟨n, hrest⟩ := ih h
        exact ⟨n + 1, .through hname hnext hrest⟩

theorem untypedef_eq_iff (hmerged : cb.merged = false) (htype : cb.types.contains type = true) :
    cb.untypedef name = type ↔ ∃ n, cb.StandsFor n name type := by
  constructor
  · intro h
    rw [untypedef, hmerged, if_neg (by decide)] at h
    subst h
    exact standsFor_of_contains htype
  · rintro ⟨n, h⟩
    exact h.untypedef_eq hmerged

/-! ## Merging -/

/-- Every definition of a type has the name that it is kept under. -/
def OwnNames (cb : Codebase) : Prop :=
  ∀ key e, cb.types.find? key = some e → ∃ d, e = .own d ∧ d.name = key

theorem findType?_eq_none_of_not_contains (h : cb.types.contains key = false) :
    cb.findType? key = none := by
  rw [Table.contains_eq, Option.isSome_eq_false_iff, Option.isNone_iff_eq_none] at h
  simp [findType?, canonicalType, h]

/-- The code base with some aliases merged into its types. -/
structure Widens (cb cb' : Codebase) : Prop where
  typedefs : cb'.typedefs = cb.typedefs
  merged : cb'.merged = cb.merged
  kept : ∀ key e, cb.types.find? key = some e → cb'.types.find? key = some e
  new : ∀ key e, cb.types.find? key = none → cb'.types.find? key = some e →
    ∃ n type, e = .further type ∧ cb.StandsFor n key type

theorem Widens.refl (cb : Codebase) : Widens cb cb where
  typedefs := rfl
  merged := rfl
  kept := fun _ _ h => h
  new := fun _ _ hnone h => by rw [hnone] at h; cases h

namespace Widens

variable {n : Nat} {name type : String}
variable {key : String}

variable (h : Widens cb cb')

include h

theorem contains (hkey : cb.types.contains key = true) : cb'.types.contains key = true := by
  rw [Table.contains_eq, Option.isSome_iff_exists] at hkey ⊢
  obtain ⟨e, he⟩ := hkey
  exact ⟨e, h.kept key e he⟩

theorem not_contains (hkey : cb'.types.contains key = false) : cb.types.contains key = false := by
  by_contra hcontains
  rw [Bool.not_eq_false] at hcontains
  rw [h.contains hcontains] at hkey
  cases hkey

theorem findType? (hcb : cb.OwnNames) (hkey : cb'.types.contains key = true) :
    ∃ n d, cb.StandsFor n key d.name ∧ cb'.canonicalType key = d.name ∧
      cb'.findType? key = some d := by
  rw [Table.contains_eq, Option.isSome_iff_exists] at hkey
  obtain ⟨e, he⟩ := hkey
  have hown (type : String) (htype : cb.types.contains type = true) :
      ∃ d, cb'.types.find? type = some (.own d) ∧ d.name = type := by
    rw [Table.contains_eq, Option.isSome_iff_exists] at htype
    obtain ⟨e, he⟩ := htype
    obtain ⟨d, rfl, hname⟩ := hcb type e he
    exact ⟨d, h.kept type _ he, hname⟩
  unfold Codebase.findType? canonicalType
  cases hold : cb.types.find? key with
  | some old =>
    have hcontains : cb.types.contains key = true := by rw [Table.contains_eq, hold]; rfl
    obtain ⟨d, hd, rfl⟩ := hown key hcontains
    refine ⟨0, d, .known hcontains, ?_, ?_⟩
    · rw [hd]
    · simp only [hd]
  | none =>
    obtain ⟨n, type, rfl, hstands⟩ := h.new key e hold he
    obtain ⟨d, hd, rfl⟩ := hown type hstands.contains_type
    refine ⟨n, d, hstands, ?_, ?_⟩
    · rw [he]
    · simp only [he, hd]

theorem standsFor {m : Nat} {target : String} (hway : cb'.StandsFor n name target)
    (htarget : cb.StandsFor m target type) : ∃ k, cb.StandsFor k name type := by
  induction hway with
  | known => exact ⟨m, htarget⟩
  | through hname hnext _ ih =>
    obtain ⟨k, hrest⟩ := ih htarget
    rw [h.typedefs] at hnext
    exact ⟨k + 1, .through (h.not_contains hname) hnext hrest⟩

theorem exists_standsFor (hway : cb.StandsFor n name type) :
    ∃ m target, cb'.StandsFor m name target := by
  induction hway with
  | known hname => exact ⟨0, _, .known (h.contains hname)⟩
  | @through n name next type hname hnext _ ih =>
    cases hknown : cb'.types.contains name with
    | true => exact ⟨0, name, .known hknown⟩
    | false =>
      obtain ⟨m, target, hrest⟩ := ih
      rw [← h.typedefs] at hnext
      exact ⟨m + 1, target, .through hknown hnext hrest⟩

/-- Merging one name widens the code base. -/
theorem mergeTypedef (hcb : cb.OwnNames) (hmerged : cb.merged = false) (name : String) :
    Widens cb (cb'.mergeTypedef name) := by
  unfold Codebase.mergeTypedef
  split
  · exact h
  · rename_i hunknown
    rw [Bool.not_eq_true] at hunknown
    dsimp only
    split
    · exact h
    · rename_i d hfind
      have hname : cb.types.find? name = none := by
        have hnot := h.not_contains hunknown
        rwa [Table.contains_eq, Option.isSome_eq_false_iff, Option.isNone_iff_eq_none] at hnot
      have htarget : cb'.types.contains (cb'.untypedef name) = true := by
        by_contra hnot
        rw [findType?_eq_none_of_not_contains (Bool.eq_false_iff.mpr hnot)] at hfind
        cases hfind
      obtain ⟨m, d', hstands, hcanonical, -⟩ := h.findType? hcb htarget
      have hway : ∃ n, cb'.StandsFor n name (cb'.untypedef name) := by
        rw [untypedef, h.merged, hmerged, if_neg (by decide)] at htarget ⊢
        exact standsFor_of_contains htarget
      obtain ⟨n, hway⟩ := hway
      obtain ⟨k, hk⟩ := h.standsFor hway hstands
      refine ⟨h.typedefs, h.merged, fun key e he => ?_, fun key e hnone he => ?_⟩
      · have hne : key ≠ name := by
          rintro rfl
          rw [hname] at he
          cases he
        rw [Table.find?_insert_of_ne _ _ hne]
        exact h.kept key e he
      · rw [Table.find?_insert] at he
        split at he
        · rename_i heq
          subst heq
          cases he
          exact ⟨k, _, rfl, hcanonical ▸ hk⟩
        · exact h.new key e hnone he

theorem contains_mergeTypedef (hcb : cb.OwnNames) (hmerged : cb.merged = false)
    (hstands : cb.StandsFor n name type) : (cb'.mergeTypedef name).types.contains name = true := by
  unfold Codebase.mergeTypedef
  split
  · assumption
  · obtain ⟨m, target, hway⟩ := h.exists_standsFor hstands
    obtain ⟨-, d, -, -, hfind⟩ := h.findType? hcb hway.contains_type
    dsimp only
    rw [hway.untypedef_eq (h.merged.trans hmerged), hfind, Table.contains_eq]
    rw [Table.find?_insert_self]
    rfl

end Widens

theorem contains_mergeTypedef_of_contains (h : cb.types.contains key = true) (name : String) :
    (cb.mergeTypedef name).types.contains key = true := by
  unfold mergeTypedef
  split
  · exact h
  · dsimp only
    split
    · exact h
    · rw [Table.contains_eq] at h ⊢
      rw [Table.find?_insert]
      split
      · rfl
      · exact h

theorem Widens.foldl_mergeTypedef (h : Widens cb cb') (hcb : cb.OwnNames)
    (hmerged : cb.merged = false) (names : List String) :
    Widens cb (names.foldl Codebase.mergeTypedef cb') ∧
      ∀ name, (name ∈ names ∧ ∃ n type, cb.StandsFor n name type) ∨ cb'.types.contains name = true →
        (names.foldl Codebase.mergeTypedef cb').types.contains name = true := by
  induction names generalizing cb' with
  | nil => exact ⟨h, fun name hname => hname.resolve_left fun hmem => not_mem_nil hmem.1⟩
  | cons first names ih =>
    obtain ⟨hwidens, hknown⟩ := ih (h.mergeTypedef hcb hmerged first)
    refine ⟨hwidens, fun name hname => hknown name ?_⟩
    rcases hname with ⟨hmem, hstands⟩ | hname
    · rcases mem_cons.mp hmem with rfl | hmem
      · obtain ⟨n, type, hstands⟩ := hstands
        exact .inr (h.contains_mergeTypedef hcb hmerged hstands)
      · exact .inl ⟨hmem, hstands⟩
    · exact .inr (contains_mergeTypedef_of_contains hname first)

theorem untypedef_finalize_eq_iff (hcb : cb.OwnNames) (hmerged : cb.merged = false)
    (htype : cb.types.contains type = true) :
    cb.finalize.untypedef name = type ↔ ∃ n, cb.StandsFor n name type := by
  obtain ⟨hwidens, hknown⟩ := (Widens.refl cb).foldl_mergeTypedef hcb hmerged cb.typedefs.keys
  have huntypedef : cb.finalize.untypedef name =
      (((cb.typedefs.keys.foldl mergeTypedef cb).findType? name).map Definition.name).getD
        name := by
    rw [finalize, fillTypedefs, hmerged]
    rfl
  rw [huntypedef]
  cases hname : (cb.typedefs.keys.foldl mergeTypedef cb).types.contains name with
  | true =>
    obtain ⟨n, d, hstands, -, hfind⟩ := hwidens.findType? hcb hname
    rw [hfind]
    constructor
    · rintro rfl
      exact ⟨n, hstands⟩
    · rintro ⟨m, h⟩
      exact (hstands.unique h).2
  | false =>
    rw [findType?_eq_none_of_not_contains hname]
    show name = type ↔ _
    constructor
    · rintro rfl
      rw [hwidens.contains htype] at hname
      cases hname
    · rintro ⟨n, hstands⟩
      have hcontains : (cb.typedefs.keys.foldl mergeTypedef cb).types.contains name = true := by
        apply hknown
        cases hstands with
        | known h => exact .inr h
        | through h hnext hrest =>
          exact .inl ⟨Table.mem_keys_iff.mpr (by simp [hnext]), _, _, .through h hnext hrest⟩
      rw [hcontains] at hname
      cases hname

theorem contains_name_of_findType?_finalize (hcb : cb.OwnNames) (hmerged : cb.merged = false)
    {d : Definition} (hd : cb.finalize.findType? key = some d) :
    cb.types.contains d.name = true := by
  obtain ⟨hwidens, -⟩ := (Widens.refl cb).foldl_mergeTypedef hcb hmerged cb.typedefs.keys
  have hfind : (cb.typedefs.keys.foldl mergeTypedef cb).findType? key = some d := by
    rw [← hd]
    rw [finalize, fillTypedefs, hmerged]
    rfl
  cases hkey : (cb.typedefs.keys.foldl mergeTypedef cb).types.contains key with
  | true =>
    obtain ⟨n, d', hstands, -, hfind'⟩ := hwidens.findType? hcb hkey
    cases hfind.symm.trans hfind'
    exact hstands.contains_type
  | false =>
    rw [findType?_eq_none_of_not_contains hkey] at hfind
    cases hfind

/-- Whether a name leads to a type is the same before and after the type definitions are
merged. -/
theorem untypedef_finalize_eq_iff_untypedef (hcb : cb.OwnNames)
    (htype : cb.types.contains type = true) :
    cb.finalize.untypedef name = type ↔ cb.untypedef name = type := by
  cases hmerged : cb.merged with
  | true => rw [finalize, hmerged, if_pos rfl]
  | false => rw [untypedef_finalize_eq_iff hcb hmerged htype, untypedef_eq_iff hmerged htype]

/-! ## Scans -/

namespace OwnNames

variable {key : String} {d : Definition}

variable (h : cb.OwnNames)

include h

theorem congr (htypes : cb'.types = cb.types) : cb'.OwnNames := by
  rw [OwnNames, htypes]
  exact h

theorem mapRecords (f : RecordDecl → RecordDecl) : (cb.mapRecords f).OwnNames := by
  intro key e he
  rw [find?_mapRecords] at he
  obtain ⟨e, hfind, rfl⟩ := Option.map_eq_some_iff.mp he
  obtain ⟨d, rfl, hname⟩ := h key e hfind
  unfold mapRecordOf
  dsimp only
  split
  · exact ⟨_, rfl, hname⟩
  · exact ⟨d, rfl, hname⟩

theorem after (changes : List Change) : (cb.after changes).OwnNames := by
  refine foldlRecOn (motive := OwnNames) changes Change.onCodebase h fun cb hcb ch _ => ?_
  cases ch with
  | var new => exact (hcb.mapRecords _).congr rfl
  | record new => exact hcb.mapRecords _

theorem canonicalType_eq (key : String) : cb.canonicalType key = key := by
  unfold canonicalType
  split
  · rename_i canonical hfind
    obtain ⟨d, hd, -⟩ := h key _ hfind
    cases hd
  · rfl

theorem name_of_findType? (hd : cb.findType? key = some d) :
    d.name = key ∧ cb.types.find? key = some (.own d) := by
  rw [findType?, h.canonicalType_eq] at hd
  split at hd
  · rename_i d' hfind
    cases hd
    obtain ⟨d', heq, hname⟩ := h key _ hfind
    cases heq
    exact ⟨hname, hfind⟩
  · cases hd

theorem insertOwn (hd : d.name = key) :
    OwnNames { cb with types := cb.types.insert key (.own d) } := by
  intro key' e he
  rw [Table.find?_insert] at he
  split at he
  · rename_i heq
    cases he
    exact ⟨d, rfl, hd.trans heq.symm⟩
  · exact h key' e he

theorem upsertedType (d : Definition) : (cb.upsertedType d).1.OwnNames := by
  unfold Codebase.upsertedType
  split
  · exact h.insertOwn rfl
  · rename_i old hold
    refine OwnNames.after (h.insertOwn ?_) _
    rw [Definition.merged_fst_name, h.canonicalType_eq]
    exact (h.name_of_findType? hold).1

theorem upsertedField (record : String) (d : Definition) :
    (cb.upsertedField record d).1.OwnNames := by
  unfold Codebase.upsertedField
  dsimp only
  split
  · exact h.congr rfl
  · refine OwnNames.after ?_ _
    exact h.congr rfl

theorem addedRecord (c : Context) (r : RecordDecl) : (addedRecord c r cb).OwnNames := by
  have henters : Enters c (fun _ => True) (fun _ => True) (fun _ => True) OwnNames := {
    RecordDecl.lasts_true with
    type := fun cb r hcb _ => ⟨by
      unfold restrictType
      split
      · exact (hcb.upsertedType _).congr rfl
      · exact hcb.upsertedType _, fun _ _ => trivial⟩
    field := fun cb r member hcb _ _ => ⟨hcb.upsertedField _ _, fun _ _ => trivial⟩
    typedefs := fun cb r key hcb => hcb.congr rfl }
  have hstart : OwnNames { cb with entries := cb.entries + 1 } := h.congr rfl
  exact (henters.addedTree hstart trivial).1

theorem enterAll (findings : List Finding) : (cb.enterAll findings).OwnNames := by
  refine foldlRecOn (motive := OwnNames) findings Codebase.enter h fun cb hcb found _ => ?_
  cases found with
  | typedef name base => exact hcb.congr rfl
  | record c r => exact hcb.addedRecord c r
  | macroDef c m => exact hcb.congr rfl
  | function c f =>
    show (addedFunction c f cb).OwnNames
    unfold addedFunction
    split <;> exact hcb.congr rfl

theorem mergedTask {src : Codebase} (hsrc : src.OwnNames) : (mergedTask src cb).OwnNames := by
  have hstart : (src.renumber (cb.entries + ·)).OwnNames ∧
      (withTypedefs (src.renumber (cb.entries + ·)) cb).OwnNames :=
    ⟨(hsrc.mapRecords _).congr rfl, h.congr rfl⟩
  have hrecords := (merged_induction (Q := fun acc => acc.1.OwnNames ∧ acc.2.OwnNames)
    (fun acc key d _ hacc => ⟨hacc.1.after _, hacc.2.upsertedType d⟩)
    (fun acc record hacc => ⟨hacc.1, ?_⟩)
    (fun acc record name d _ hacc => ⟨hacc.1.after _, hacc.2.upsertedField record d⟩) hstart).2
  · exact hrecords.2.congr rfl
  · unfold withRecord
    split
    · exact hacc.2
    · exact hacc.2.congr rfl

theorem scanFiles {c : Context} {tree : FileTree} {paths : List String}
    (hrun : (scanFiles c tree true true paths cb).start.1 = .ok cb') : cb'.OwnNames := by
  have hkept (found : Except Fault (List Finding)) : KeptBy OwnNames found :=
    fun findings _ cb hcb => hcb.enterAll findings
  exact gives_twoPass (fun cb hcb => hcb.congr rfl) (fun _ _ _ => hkept _)
    (fun _ src cb hsrc hcb => hcb.mergedTask hsrc)
    (fun first => foldlM_enterAll_preserves (fun _ _ => hkept _) h) #[] cb' hrun

end OwnNames

end CBoundary.Codebase
