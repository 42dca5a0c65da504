import VersionedTables.Proofs.Store

/-!
# Maps that are filled from lists

A map that is filled by inserting the items of a list one by one keeps all of them, if their keys
differ. So a map and a set are what is filled again from their own lists
(`foldl_insert_toList`, `foldl_insert_toList_set`).
-/

namespace VersionedTables

open Std

section Maps

variable {β κ ν ρ : Type} [Ord κ] [TransOrd κ] [LawfulEqOrd κ] {k : κ} {value : ν}

/-- Items under keys that differ are all kept. -/
theorem getElem?_foldl_insert [DecidableEq κ] (key : β → κ) (val : β → ν) {items : List β}
    {map : ExtTreeMap κ ν compare} (hnodup : (items.map key).Nodup)
    (hfree : ∀ item ∈ items, map[key item]? = none) :
    (items.foldl (fun map item => map.insert (key item) (val item)) map)[k]? = some value ↔
      map[k]? = some value ∨ ∃ item ∈ items, key item = k ∧ val item = value := by
  induction items generalizing map with
  | nil => simp
  | cons first rest ih =>
    obtain ⟨hfirst, hnodup⟩ := List.nodup_cons.mp hnodup
    have hne {item : β} (hitem : item ∈ rest) : key item ≠ key first :=
      fun heq => hfirst (heq ▸ List.mem_map_of_mem hitem)
    rw [List.foldl_cons, ih hnodup fun item hitem => ?_]
    · rw [Store.getElem?_insert_eq, List.exists_mem_cons_iff, ← or_assoc]
      refine or_congr_left ?_
      -- What is under the first key now was not there before.
      have hnone := hfree first List.mem_cons_self
      grind
    · rw [Store.getElem?_insert_eq, if_neg (hne hitem)]
      exact hfree item (List.mem_cons_of_mem _ hitem)

/-- A list made from a map is empty when nothing in the map adds to it. -/
theorem filterMap_toList_eq_nil {map : ExtTreeMap κ ν compare} {f : κ × ν → Option ρ} :
    map.toList.filterMap f = [] ↔ ∀ k v, map[k]? = some v → f (k, v) = none := by
  rw [List.filterMap_eq_nil_iff, Prod.forall]
  simp only [ExtTreeMap.mem_toList_iff_getElem?_eq_some]

omit [LawfulEqOrd κ] in
theorem contains_iff_exists {map : ExtTreeMap κ ν compare} :
    map.contains k = true ↔ ∃ v, map[k]? = some v := by
  rw [ExtTreeMap.contains_eq_isSome_getElem?, Option.isSome_iff_exists]

/-- A map is filled again from its list, with every value changed or not. -/
theorem foldl_insert_toList [DecidableEq κ] (map : ExtTreeMap κ ν compare) (f : ν → ρ) :
    map.toList.foldl (fun (filled : ExtTreeMap κ ρ compare) entry =>
      filled.insert entry.1 (f entry.2)) ∅ = map.map fun _ v => f v := by
  have hnodup : (map.toList.map (·.1)).Nodup := by
    rw [ExtTreeMap.map_fst_toList_eq_keys]
    exact Store.nodup_keys map
  refine ExtTreeMap.ext_getElem? fun k => Option.ext fun value => ?_
  rw [getElem?_foldl_insert Prod.fst (fun entry => f entry.2) hnodup
    fun _ _ => by simp, ExtTreeMap.getElem?_map, Option.map_eq_some_iff]
  simp only [ExtTreeMap.getElem?_empty, reduceCtorEq, false_or, Prod.exists,
    ExtTreeMap.mem_toList_iff_getElem?_eq_some]
  grind

/-- A set is filled again from its list. -/
theorem foldl_insert_toList_set [DecidableEq κ] (set : ExtTreeSet κ compare) :
    set.toList.foldl (fun (filled : ExtTreeSet κ compare) item => filled.insert item) ∅ = set := by
  refine ExtTreeSet.ext_contains fun k => ?_
  rw [← ExtTreeSet.ofList_eq_foldl, Bool.eq_iff_iff, ← ExtTreeSet.mem_iff_contains,
    ← ExtTreeSet.mem_iff_contains, ExtTreeSet.mem_ofList, List.contains_iff_mem,
    ExtTreeSet.mem_toList]

end Maps


end VersionedTables
