import CBoundary.Table
import Mathlib.Data.List.Induction
import Mathlib.Data.List.Nodup

/-!
# Tables

Looking up is the one view of a table that most of the rest needs.  The order of the entries
matters to walks over them; in a table whose names are distinct, such a walk meets every name
once.
-/

namespace CBoundary.Table

open List

variable {α β : Type}
variable {key : String} {value x old : α} {es : List (String × α)} {e : String × α} {t : Table α}
  {γ : Type}

/-! ## Membership -/

theorem mem_insertEntry (h : e ∈ insertEntry key value es) : e = (key, value) ∨ e ∈ es := by
  induction es with
  | nil => exact .inl (mem_singleton.mp h)
  | cons e' es ih =>
    unfold insertEntry at h
    split at h
    · rcases mem_cons.mp h with h | h
      · exact .inl h
      · exact .inr (mem_cons_of_mem e' h)
    · rcases mem_cons.mp h with h | h
      · exact .inr (h ▸ mem_cons_self)
      · exact (ih h).imp_right (mem_cons_of_mem e')

theorem mem_entries_insert (h : e ∈ (t.insert key value).entries) :
    e = (key, value) ∨ e ∈ t.entries :=
  mem_insertEntry h

theorem mem_of_mem_entries_ofList {l : List (String × α)} (h : e ∈ (ofList l).entries) : e ∈ l := by
  refine foldlRecOn (motive := fun t : Table α => ∀ e ∈ t.entries, e ∈ l) l _ (forall_mem_nil _)
    (fun t ht first hfirst e he => ?_) e h
  rcases mem_entries_insert he with rfl | he
  · exact hfirst
  · exact ht e he

theorem mem_values_insert (h : x ∈ (t.insert key value).values) : x = value ∨ x ∈ t.values := by
  obtain ⟨e, he, rfl⟩ := mem_map.mp h
  rcases mem_entries_insert he with rfl | he
  · exact .inl rfl
  · exact .inr (mem_map_of_mem he)

theorem mem_entries_of_find? (h : t.find? key = some x) : (key, x) ∈ t.entries := by
  obtain ⟨e, he, rfl⟩ := Option.map_eq_some_iff.mp h
  have hbeq := find?_some he
  have hkey : e.1 = key := eq_of_beq hbeq
  rw [← hkey]
  exact mem_of_find?_eq_some he

theorem mem_values_of_find? (h : t.find? key = some x) :
    x ∈ t.values := mem_map_of_mem (mem_entries_of_find? h)

theorem find?_ne_none_of_mem (h : (key, x) ∈ t.entries) : t.find? key ≠ none := by
  intro hnone
  have hfind := find?_eq_none.mp (Option.map_eq_none_iff.mp hnone) _ h
  exact hfind (beq_self_eq_true key)

theorem mem_values_getD_find? {t : Table (Table α)} (h : x ∈ ((t.find? key).getD {}).values) :
    ∃ inner ∈ t.values, x ∈ inner.values := by
  cases hfind : t.find? key with
  | none => rw [hfind] at h; cases h
  | some inner =>
    rw [hfind] at h
    exact ⟨inner, mem_values_of_find? hfind, h⟩

theorem values_mapValues (f : α → β) (t : Table α) : (t.mapValues f).values = t.values.map f := by
  unfold values mapValues
  simp

/-! ## Looking up -/

theorem find?_insert (t : Table α) (key other : String) (value : α) :
    (t.insert key value).find? other = if other = key then some value else t.find? other := by
  split
  · rename_i h
    rw [h, find?_insert_self]
  · rename_i h
    exact find?_insert_of_ne t value h

theorem find?_singleton (key : String) (value : α) :
    (⟨[(key, value)]⟩ : Table α).find? key = some value := by
  simp [find?]

theorem find?_mapValues (f : α → β) (t : Table α) (key : String) :
    (t.mapValues f).find? key = (t.find? key).map f := by
  unfold find? mapValues
  rw [find?_map, Option.map_map, Option.map_map]
  rfl

theorem mapValues_mapValues (g : β → γ) (f : α → β) (t : Table α) :
    (t.mapValues f).mapValues g = t.mapValues (g ∘ f) := by
  unfold mapValues
  rw [map_map]
  rfl

theorem mapValues_eq_self {f : α → α} (h : ∀ e ∈ t.entries, f e.2 = e.2) : t.mapValues f = t := by
  have hentries : t.entries.map (fun e => (e.1, f e.2)) = t.entries :=
    (map_congr_left fun e he => congrArg (Prod.mk e.1) (h e he)).trans (map_id _)
  rw [mapValues, hentries]

theorem contains_eq (t : Table α) (key : String) : t.contains key = (t.find? key).isSome := by
  rw [contains, find?, Option.isSome_map, isSome_find?]

theorem find?_append (es fs : List (String × α)) (key : String) : (⟨es ++ fs⟩ : Table α).find? key =
      ((⟨es⟩ : Table α).find? key).or ((⟨fs⟩ : Table α).find? key) := by
  unfold find?
  rw [List.find?_append, Option.map_or]

theorem find?_of_filter {p : String → Bool}
    (h : (⟨t.entries.filter fun e => p e.1⟩ : Table α).find? key = some x) :
    t.find? key = some x := by
  unfold find? at h ⊢
  rw [find?_filter] at h
  obtain ⟨e, he, rfl⟩ := Option.map_eq_some_iff.mp h
  have hfound := find?_some he
  obtain ⟨hp, hkey⟩ := of_decide_eq_true hfound
  have hsame : (fun e' : String × α => decide (p e'.1 = true ∧ (e'.1 == key) = true)) =
      fun e' => e'.1 == key := by
    funext e'
    by_cases heq : e'.1 = key
    · simp [heq, ← eq_of_beq hkey, hp]
    · simp [heq]
  rw [hsame] at he
  rw [he, Option.map_some]

theorem mapValues_insert (f : α → β) (t : Table α) (key : String) (value : α) :
    (t.insert key value).mapValues f = (t.mapValues f).insert key (f value) := by
  have hentries : ∀ es : List (String × α), (insertEntry key value es).map (fun e => (e.1, f e.2)) =
      insertEntry key (f value) (es.map fun e => (e.1, f e.2)) := by
    intro es
    induction es with
    | nil => rfl
    | cons e es ih =>
      simp only [insertEntry, map_cons]
      split
      · rfl
      · rw [map_cons, ih]
  exact congrArg Table.mk (hentries t.entries)

theorem insertEntry_append (h : (⟨es⟩ : Table α).find? key = none) (value : α)
    (fs : List (String × α)) : insertEntry key value (es ++ fs) = es ++ insertEntry key value fs := by
  have hnone := find?_eq_none.mp (Option.map_eq_none_iff.mp h)
  clear h
  induction es with
  | nil => rfl
  | cons e es ih =>
    rw [cons_append, insertEntry, if_neg (hnone e mem_cons_self),
      ih fun e he => hnone e (mem_cons_of_mem _ he), cons_append]

theorem insert_of_find?_eq_none (h : t.find? key = none) (value : α) :
    t.insert key value = ⟨t.entries ++ [(key, value)]⟩ := by
  have hentries := insertEntry_append h value []
  rw [append_nil] at hentries
  exact congrArg Table.mk hentries

theorem insert_append_cons (h : (⟨es⟩ : Table α).find? key = none) (old value : α)
    (fs : List (String × α)) :
    (⟨es ++ (key, old) :: fs⟩ : Table α).insert key value = ⟨es ++ (key, value) :: fs⟩ := by
  refine congrArg Table.mk ((insertEntry_append h value _).trans ?_)
  rw [insertEntry, if_pos (beq_self_eq_true key)]

theorem exists_of_find? (h : t.find? key = some old) :
    ∃ es fs, t = ⟨es ++ (key, old) :: fs⟩ ∧ (⟨es⟩ : Table α).find? key = none := by
  obtain ⟨⟨key', value⟩, hfind, rfl⟩ := Option.map_eq_some_iff.mp h
  obtain ⟨hkey, es, fs, hsplit, hes⟩ := find?_eq_some_iff_append.mp hfind
  obtain rfl := eq_of_beq hkey
  refine ⟨es, fs, congrArg Table.mk hsplit, Option.map_eq_none_iff.mpr (find?_eq_none.mpr ?_)⟩
  simpa using hes

theorem filterMap_insert {view : String × α → Option γ} (h : t.find? key = some old)
    (hview : view (key, value) = view (key, old)) :
    (t.insert key value).entries.filterMap view = t.entries.filterMap view := by
  obtain ⟨es, fs, rfl, hes⟩ := exists_of_find? h
  rw [insert_append_cons hes]
  simp only [filterMap_append, filterMap_cons, hview]

theorem mapValues_insert_of_find? {f : α → β} (h : t.find? key = some old) (hf : f value = f old) :
    (t.insert key value).mapValues f = t.mapValues f := by
  have hview : (t.insert key value).entries.filterMap (fun e => some (e.1, f e.2)) =
      t.entries.filterMap fun e => some (e.1, f e.2) := filterMap_insert h (by rw [hf])
  rw [filterMap_eq_map'] at hview
  exact congrArg Table.mk hview

/-! ## Distinct names -/

/-- No key comes twice. -/
def Distinct (t : Table α) : Prop := t.keys.Nodup

theorem distinct_empty : (({} : Table α)).Distinct := nodup_nil

theorem Distinct.mapValues (h : t.Distinct) (f : α → β) : (t.mapValues f).Distinct := by
  rw [Distinct, keys, Table.mapValues, map_map]
  exact h

theorem mem_keys_iff : key ∈ t.keys ↔ t.find? key ≠ none := by
  constructor
  · intro h
    obtain ⟨⟨key', value⟩, he, rfl⟩ := mem_map.mp h
    exact find?_ne_none_of_mem he
  · intro h
    obtain ⟨value, hvalue⟩ := Option.ne_none_iff_exists'.mp h
    exact mem_map_of_mem (f := Prod.fst) (mem_entries_of_find? hvalue)

theorem keys_insert_of_mem (h : t.find? key ≠ none) (value : α) :
    (t.insert key value).keys = t.keys := by
  obtain ⟨old, h⟩ := Option.ne_none_iff_exists'.mp h
  obtain ⟨es, fs, rfl, hes⟩ := exists_of_find? h
  rw [insert_append_cons hes]
  simp only [keys, map_append, map_cons]

theorem Distinct.insert (h : t.Distinct) (key : String) (value : α) :
    (t.insert key value).Distinct := by
  unfold Distinct
  by_cases hmem : t.find? key = none
  · rw [insert_of_find?_eq_none hmem, keys, map_append]
    refine nodup_append.mpr ⟨h, nodup_singleton _, ?_⟩
    intro a ha b hb hab
    rw [hab, mem_singleton.mp hb] at ha
    exact mem_keys_iff.mp ha hmem
  · rwa [keys_insert_of_mem hmem]

theorem Distinct.find?_of_mem (h : t.Distinct) (hmem : (key, value) ∈ t.entries) :
    t.find? key = some value := by
  obtain ⟨value', hvalue'⟩ := Option.ne_none_iff_exists'.mp (find?_ne_none_of_mem hmem)
  have hsame : (key, value') = (key, value) :=
    inj_on_of_nodup_map h (mem_entries_of_find? hvalue') hmem rfl
  rw [hvalue', (Prod.mk.inj hsame).2]

theorem Distinct.find?_before (h : t.Distinct) {before after : List (String × α)}
    (hsplit : t.entries = before ++ (key, value) :: after) :
    (⟨before⟩ : Table α).find? key = none := by
  have hkeys : (before.map Prod.fst ++ key :: after.map Prod.fst).Nodup := by
    have hall : (t.entries.map Prod.fst).Nodup := h
    rwa [hsplit, map_append, map_cons] at hall
  have hnot : key ∉ before.map Prod.fst := fun hmem =>
    (nodup_append.mp hkeys).2.2 key hmem key mem_cons_self rfl
  cases hfind : (⟨before⟩ : Table α).find? key with
  | none => rfl
  | some x => exact absurd (mem_keys_iff.mpr (hfind ▸ Option.some_ne_none x)) hnot

/-- Entries under different keys do not interfere. -/
theorem Distinct.find?_foldl_update {src : Table β} (h : src.Distinct) (g : Option α → β → α)
    (t : Table α) (key : String) :
    (src.entries.foldl (fun t e => t.insert e.1 (g (t.find? e.1) e.2)) t).find? key =
      ((src.find? key).map (g (t.find? key))).or (t.find? key) := by
  have hentries : ∀ (es : List (String × β)) (t : Table α), (es.map Prod.fst).Nodup →
      (es.foldl (fun t e => t.insert e.1 (g (t.find? e.1) e.2)) t).find? key =
        (((⟨es⟩ : Table β).find? key).map (g (t.find? key))).or (t.find? key) := by
    intro es
    induction es with
    | nil => exact fun t _ => rfl
    | cons e es ih =>
      intro t hes
      obtain ⟨key', value⟩ := e
      rw [map_cons, nodup_cons] at hes
      rw [foldl_cons, ih _ hes.2, find?_insert,
        show ((key', value) :: es) = [(key', value)] ++ es from rfl, find?_append]
      by_cases hkey : key = key'
      · -- the name comes up nowhere else
        subst hkey
        have hrest : (⟨es⟩ : Table β).find? key = none := by
          cases hfind : (⟨es⟩ : Table β).find? key with
          | none => rfl
          | some x => exact absurd (mem_keys_iff.mpr (hfind ▸ Option.some_ne_none x)) hes.1
        rw [if_pos rfl, hrest, find?_singleton]
        rfl
      · have hfirst : (⟨[(key', value)]⟩ : Table β).find? key = none := by
          simp [find?, Ne.symm hkey]
        rw [if_neg hkey, hfirst, Option.none_or]
  exact hentries src.entries t h

theorem Distinct.find?_foldl_insert {src : Table α} (h : src.Distinct) (t : Table α)
    (key : String) :
    (src.entries.foldl (fun t e => t.insert e.1 e.2) t).find? key =
      (src.find? key).or (t.find? key) := by
  rw [h.find?_foldl_update (fun _ value => value), Option.map_id']

theorem Distinct.filter_entries (h : t.Distinct) (key : String) :
    t.entries.filter (fun e => e.1 == key) = (t.find? key).toList.map (Prod.mk key) := by
  have hentries : ∀ es : List (String × α), (es.map Prod.fst).Nodup →
      es.filter (fun e => e.1 == key) =
        ((es.find? fun e => e.1 == key).map Prod.snd).toList.map (Prod.mk key) := by
    intro es hes
    induction es with
    | nil => rfl
    | cons e es ih =>
      rw [map_cons, nodup_cons] at hes
      rw [filter_cons, find?_cons]
      cases hkey : e.1 == key with
      | false => exact ih hes.2
      | true =>
        -- the name comes up nowhere else
        have hrest : es.filter (fun e => e.1 == key) = [] := by
          refine filter_eq_nil_iff.mpr fun e' he' hkey' => hes.1 ?_
          rw [eq_of_beq hkey, ← eq_of_beq hkey']
          exact mem_map_of_mem he'
        rw [if_pos rfl, hrest, ← eq_of_beq hkey]
        rfl
  exact hentries t.entries h

/-- A walk over the names of a table that enters, in order, what stands under them. -/
theorem foldl_keys {σ : Type} {step : σ → String → σ} (state : List (String × α) → σ)
    (hstep : ∀ done key value left, t.entries = done ++ (key, value) :: left →
      step (state done) key = state (done ++ [(key, value)])) :
    t.keys.foldl step (state []) = state t.entries := by
  have hwalk : ∀ left done, t.entries = done ++ left →
      (left.map Prod.fst).foldl step (state done) = state t.entries := by
    intro left
    induction left with
    | nil =>
      intro done hsplit
      rw [hsplit, append_nil]
      rfl
    | cons e left ih =>
      intro done hsplit
      rw [map_cons, foldl_cons, hstep done e.1 e.2 left hsplit]
      refine ih _ ?_
      rw [hsplit, append_assoc]
      rfl
  exact hwalk t.entries [] rfl

/-! ## Longest names -/

/-- The longest name that fits is found. -/
theorem foldl_longest (fits : String → Bool) (names : List String) {best : Option String}
    (h : names.foldl (fun best n => if fits n && best.all (fun b => b.length < n.length)
      then some n else best) none = best) :
    (∀ b ∈ best, b ∈ names ∧ fits b = true) ∧
      ∀ n ∈ names, fits n = true → ∃ b ∈ best, n.length ≤ b.length := by
  induction names using List.reverseRecOn generalizing best with
  | nil => simp [← h]
  | append_singleton names n ih =>
    obtain ⟨hbest, hall⟩ := ih rfl
    rw [foldl_append, foldl_cons, foldl_nil] at h
    generalize names.foldl _ none = found at h hbest hall
    split at h <;> subst h
    · rename_i hn
      rw [Bool.and_eq_true, Option.all_eq_true] at hn
      refine ⟨by simpa using hn.1, fun m hm hfits => ⟨n, rfl, ?_⟩⟩
      rcases mem_append.mp hm with hm | hm
      · obtain ⟨b, hb, hle⟩ := hall m hm hfits
        have hlt := of_decide_eq_true (hn.2 b hb)
        omega
      · exact Nat.le_of_eq (congrArg String.length (mem_singleton.mp hm))
    · rename_i hn
      refine ⟨fun b hb => ⟨mem_append_left _ (hbest b hb).1, (hbest b hb).2⟩, fun m hm hfits => ?_⟩
      rcases mem_append.mp hm with hm | hm
      · exact hall m hm hfits
      · obtain rfl := mem_singleton.mp hm
        rw [hfits, Bool.true_and] at hn
        cases found with
        | none => exact absurd rfl hn
        | some b => exact ⟨b, rfl, by simpa using hn⟩

end CBoundary.Table
