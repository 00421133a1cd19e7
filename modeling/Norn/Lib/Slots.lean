import Mathlib

/-!
# Arrays of slots as finite maps

As long as no two slots hold the same key, an array of slots stands for a finite map.
-/

namespace Norn.Slots
open List
variable {ε κ υ : Type*} (slot : ε → Option (Sigma fun _ : κ => υ))

def contents (es : List ε) : List (Sigma fun _ : κ => υ) := es.filterMap slot

/-- No two slots hold the same key. -/
def Distinct (es : List ε) : Prop := (contents slot es).NodupKeys

theorem length_contents_le (es : List ε) : (contents slot es).length ≤ es.length :=
  length_filterMap_le slot es

variable {es : List ε} {i : ℕ} {e : ε} {l as bs : List (Sigma fun _ : κ => υ)} {k : κ} {v : υ}
  {f : ε → ε}

theorem contents_modify (he : es[i]? = some e) (f : ε → ε) :
    ∃ as bs, contents slot es = as ++ ((slot e).toList ++ bs) ∧
      contents slot (es.modify i f) = as ++ ((slot (f e)).toList ++ bs) := by
  obtain ⟨hi, rfl⟩ := List.getElem?_eq_some_iff.mp he
  refine ⟨contents slot (es.take i), contents slot (es.drop (i + 1)), ?_, ?_⟩
  · have hes := take_append_drop i es
    rw [drop_eq_getElem_cons hi] at hes
    unfold contents
    conv_lhs => rw [← hes]
    rw [filterMap_append, filterMap_cons]
    cases slot es[i] <;> rfl
  · rw [modify_eq_take_cons_drop hi]
    unfold contents
    rw [filterMap_append, filterMap_cons]
    cases slot (f es[i]) <;> rfl

variable {slot}

theorem exists_free_iff : (∃ e ∈ es, slot e = none) ↔ (contents slot es).length < es.length := by
  induction es with
  | nil => simp [contents]
  | cons e es ih =>
    have hle := length_contents_le slot es
    unfold contents at ih hle ⊢
    cases hslot : slot e with
    | none =>
      rw [filterMap_cons_none hslot, length_cons]
      exact ⟨fun _ => by omega, fun _ => ⟨e, mem_cons_self, hslot⟩⟩
    | some x =>
      rw [filterMap_cons_some hslot, length_cons, length_cons,
        Nat.add_lt_add_iff_right, ← ih]
      simp [hslot]

variable [DecidableEq κ]
variable (slot) in
def toMap (es : List ε) : Finmap fun _ : κ => υ := (contents slot es).toFinmap

theorem lookup_toMap (es : List ε) (k : κ) :
    (toMap slot es).lookup k = (contents slot es).dlookup k :=
  Finmap.dlookup_list_toFinmap k _

theorem toFinmap_perm {l' : List (Sigma fun _ : κ => υ)} (h : l.NodupKeys) (hp : l.Perm l') :
    l.toFinmap = l'.toFinmap := by
  refine Finmap.ext_lookup fun k => ?_
  rw [Finmap.dlookup_list_toFinmap, Finmap.dlookup_list_toFinmap]
  exact perm_dlookup k h hp

theorem toFinmap_middle (h : (as ++ ⟨k, v⟩ :: bs).NodupKeys) :
    (as ++ ⟨k, v⟩ :: bs).toFinmap = (as ++ bs).toFinmap.insert k v := by
  rw [toFinmap_perm h perm_middle, Finmap.toFinmap_cons]

theorem card_toFinmap (h : l.NodupKeys) : l.toFinmap.keys.card = l.length := by
  have hmap : l.toFinmap = AList.toFinmap ⟨l, h⟩ := by
    refine Finmap.ext_lookup fun k => ?_
    rw [Finmap.dlookup_list_toFinmap, Finmap.lookup_toFinmap]
    rfl
  rw [hmap]
  exact length_map _

theorem card_toMap (h : Distinct slot es) : (toMap slot es).keys.card = (contents slot es).length :=
  card_toFinmap h

theorem toMap_fill (h : Distinct slot es) (he : es[i]? = some e) (hfree : slot e = none)
    (hnew : slot (f e) = some ⟨k, v⟩) (hk : k ∉ toMap slot es) :
    Distinct slot (es.modify i f) ∧ toMap slot (es.modify i f) = (toMap slot es).insert k v := by
  obtain ⟨as, bs, hes, hes'⟩ := contents_modify slot he f
  rw [hfree, Option.toList_none, nil_append] at hes
  rw [hnew, Option.toList_some, singleton_append] at hes'
  have hkeys : k ∉ (as ++ bs).keys := by
    rw [toMap, hes] at hk
    exact fun hmem => hk (Finmap.mem_list_toFinmap k _ |>.mpr (mem_keys.mp hmem))
  have hdistinct : (as ++ ⟨k, v⟩ :: bs).NodupKeys := by
    rw [perm_nodupKeys perm_middle, nodupKeys_cons]
    exact ⟨hkeys, hes ▸ h⟩
  refine ⟨show (contents slot _).NodupKeys from hes' ▸ hdistinct, ?_⟩
  rw [toMap, hes', toFinmap_middle hdistinct, toMap, hes]

theorem nodupKeys_middle (h : (as ++ ⟨k, v⟩ :: bs).NodupKeys) :
    k ∉ (as ++ bs).toFinmap ∧ (as ++ bs).NodupKeys := by
  rw [perm_nodupKeys perm_middle, nodupKeys_cons] at h
  exact ⟨fun hmem => h.1 (mem_keys.mpr (Finmap.mem_list_toFinmap k _ |>.mp hmem)), h.2⟩

theorem toMap_replace (h : Distinct slot es) (he : es[i]? = some e) {v₀ : υ}
    (hold : slot e = some ⟨k, v₀⟩) (hnew : slot (f e) = some ⟨k, v⟩) :
    Distinct slot (es.modify i f) ∧ toMap slot (es.modify i f) = (toMap slot es).insert k v := by
  obtain ⟨as, bs, hes, hes'⟩ := contents_modify slot he f
  rw [hold, Option.toList_some, singleton_append] at hes
  rw [hnew, Option.toList_some, singleton_append] at hes'
  have hdistinct : (as ++ ⟨k, v₀⟩ :: bs).NodupKeys := hes ▸ h
  have hdistinct' : (as ++ ⟨k, v⟩ :: bs).NodupKeys := by
    rw [perm_nodupKeys perm_middle, nodupKeys_cons] at hdistinct ⊢
    exact hdistinct
  refine ⟨show (contents slot _).NodupKeys from hes' ▸ hdistinct', ?_⟩
  rw [toMap, hes', toFinmap_middle hdistinct', toMap, hes, toFinmap_middle hdistinct,
    Finmap.insert_insert]

theorem toMap_free (h : Distinct slot es) (he : es[i]? = some e) (hold : slot e = some ⟨k, v⟩)
    (hnew : slot (f e) = none) :
    Distinct slot (es.modify i f) ∧ toMap slot (es.modify i f) = (toMap slot es).erase k := by
  obtain ⟨as, bs, hes, hes'⟩ := contents_modify slot he f
  rw [hold, Option.toList_some, singleton_append] at hes
  rw [hnew, Option.toList_none, nil_append] at hes'
  have hdistinct : (as ++ ⟨k, v⟩ :: bs).NodupKeys := hes ▸ h
  obtain ⟨hk, hrest⟩ := nodupKeys_middle hdistinct
  refine ⟨show (contents slot _).NodupKeys from hes' ▸ hrest, ?_⟩
  rw [toMap, hes', toMap, hes, toFinmap_middle hdistinct]
  refine Finmap.ext_lookup fun k' => ?_
  by_cases hkk : k' = k
  · subst hkk
    rw [Finmap.lookup_erase, Finmap.lookup_eq_none.mpr hk]
  · rw [Finmap.lookup_erase_ne hkk, Finmap.lookup_insert_of_ne _ hkk]

end Norn.Slots
