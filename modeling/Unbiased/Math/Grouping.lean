/-
# Grouping by a key

A map from keys to lists, to which a loop adds one value after the other, each behind the
values of its key. The map is given by its entries, in the order in which their keys were met;
whoever lists them in another order has a permutation of them.
-/

import Mathlib.Data.List.Induction
import Mathlib.Data.List.Perm.Basic
import Unbiased.Math.FirstBy

namespace Unbiased.Math

universe u v

variable {κ : Type u} {α : Type v} [DecidableEq κ]

/-- Add a value behind those of its key. -/
def pushBack (key : κ) (value : α) : List (κ × List α) → List (κ × List α)
  | [] => [(key, [value])]
  | group :: groups =>
    if group.1 = key then (group.1, group.2 ++ [value]) :: groups
    else group :: pushBack key value groups

variable {key : κ} {value : α} {groups : List (κ × List α)}

/-- A new key comes last. -/
theorem pushBack_of_notMem (h : key ∉ groups.map Prod.fst) :
    pushBack key value groups = groups ++ [(key, [value])] := by
  induction groups with
  | nil => rfl
  | cons group groups ih =>
      rw [List.map_cons, List.mem_cons, not_or] at h
      rw [pushBack, if_neg (Ne.symm h.1), ih h.2, List.cons_append]

/-- The key of the last entry. -/
theorem pushBack_last (h : key ∉ groups.map Prod.fst) (values : List α) :
    pushBack key value (groups ++ [(key, values)]) = groups ++ [(key, values ++ [value])] := by
  induction groups with
  | nil => exact if_pos rfl
  | cons group groups ih =>
      rw [List.map_cons, List.mem_cons, not_or] at h
      rw [List.cons_append, pushBack, if_neg (Ne.symm h.1), ih h.2, List.cons_append]

/-- One more value is held. -/
theorem flatMap_pushBack_perm (key : κ) (value : α) (groups : List (κ × List α)) :
    ((pushBack key value groups).flatMap Prod.snd).Perm
      (groups.flatMap Prod.snd ++ [value]) := by
  induction groups with
  | nil => exact List.Perm.refl _
  | cons group groups ih =>
      rw [pushBack]
      split
      · rw [List.flatMap_cons, List.flatMap_cons, List.append_assoc, List.append_assoc]
        exact List.perm_append_comm.append_left _
      · rw [List.flatMap_cons, List.flatMap_cons, List.append_assoc]
        exact ih.append_left _

/-- Over distinct keys, the values of one of them change, or a new key comes last. -/
theorem pushBack_map {keys : List κ} (hkeys : keys.Nodup) (values : κ → List α) :
    pushBack key value (keys.map fun k => (k, values k)) =
      if key ∈ keys then keys.map fun k => (k, if k = key then values k ++ [value] else values k)
      else (keys.map fun k => (k, values k)) ++ [(key, [value])] := by
  induction keys with
  | nil => rfl
  | cons k keys ih =>
      rw [List.nodup_cons] at hkeys
      rw [List.map_cons, pushBack]
      by_cases hk : k = key
      · have hsame : keys.map (fun k => (k, if k = key then values k ++ [value] else values k)) =
            keys.map fun k => (k, values k) := by
          apply List.map_congr_left
          intro other hother
          rw [if_neg]
          rintro rfl
          exact hkeys.1 (hk ▸ hother)
        rw [if_pos hk, if_pos (List.mem_cons.mpr (.inl hk.symm)), List.map_cons, hsame, if_pos hk]
      · rw [if_neg hk, ih hkeys.2]
        by_cases hmem : key ∈ keys
        · rw [if_pos hmem, if_pos (List.mem_cons_of_mem _ hmem), List.map_cons, if_neg hk]
        · have hnew : key ∉ k :: keys := fun h => (List.mem_cons.mp h).elim (Ne.symm hk) hmem
          rw [if_neg hmem, if_neg hnew, List.cons_append]

/-- The groups of a list of entries. -/
def groupsOf (entries : List (κ × α)) : List (κ × List α) :=
  entries.foldl (fun groups entry => pushBack entry.1 entry.2 groups) []

/-- The values of a key, in order. -/
def valuesOf (entries : List (κ × α)) (key : κ) : List α :=
  (entries.filter fun entry => entry.1 = key).map Prod.snd

variable {entries : List (κ × α)}

theorem valuesOf_concat (entries : List (κ × α)) (entry : κ × α) (key : κ) :
    valuesOf (entries ++ [entry]) key =
      if key = entry.1 then valuesOf entries key ++ [entry.2] else valuesOf entries key := by
  rw [valuesOf, List.filter_append, List.map_append, List.filter_singleton]
  by_cases hkey : key = entry.1
  · simp [hkey, valuesOf]
  · simp [hkey, Ne.symm hkey, valuesOf]

theorem valuesOf_of_notMem (h : key ∉ entries.map Prod.fst) : valuesOf entries key = [] := by
  rw [valuesOf, List.map_eq_nil_iff, List.filter_eq_nil_iff]
  intro entry hentry hkey
  exact h (List.mem_map.mpr ⟨entry, hentry, of_decide_eq_true hkey⟩)

theorem nodup_firstBy_id (keys : List κ) : (firstBy id keys).Nodup := by
  simpa using nodup_map_firstBy id keys

theorem mem_firstBy_id {keys : List κ} : key ∈ firstBy id keys ↔ key ∈ keys := by
  simpa using @mem_map_firstBy _ _ _ id keys key

/-- **What the groups are**: the values of each key, the keys in the order of their first
entries. -/
theorem groupsOf_eq (entries : List (κ × α)) :
    groupsOf entries =
      (firstBy id (entries.map Prod.fst)).map fun key => (key, valuesOf entries key) := by
  induction entries using List.reverseRecOn with
  | nil => rfl
  | append_singleton entries entry ih =>
      rw [groupsOf, List.foldl_append, ← groupsOf, ih, List.foldl_cons, List.foldl_nil,
        pushBack_map (nodup_firstBy_id _), List.map_append, List.map_singleton, firstBy_concat,
        List.map_id]
      simp only [valuesOf_concat, mem_firstBy_id, id_eq]
      split
      · rfl
      · rename_i hnew
        rw [List.map_append, List.map_singleton, if_pos rfl, valuesOf_of_notMem hnew,
          List.nil_append]
        congr 1
        apply List.map_congr_left
        intro other hother
        rw [if_neg]
        rintro rfl
        exact hnew (mem_firstBy_id.mp hother)

theorem nodup_keys_groupsOf (entries : List (κ × α)) :
    ((groupsOf entries).map Prod.fst).Nodup := by
  have hkeys : (groupsOf entries).map Prod.fst = firstBy id (entries.map Prod.fst) := by
    rw [groupsOf_eq, List.map_map]
    exact List.map_id _
  rw [hkeys]
  exact nodup_firstBy_id _

/-- **No value is lost, and none is held twice.** -/
theorem groupsOf_perm (entries : List (κ × α)) :
    ((groupsOf entries).flatMap Prod.snd).Perm (entries.map Prod.snd) := by
  induction entries using List.reverseRecOn with
  | nil => exact List.Perm.refl _
  | append_singleton entries entry ih =>
      rw [groupsOf, List.foldl_append, ← groupsOf, List.map_append]
      exact (flatMap_pushBack_perm entry.1 entry.2 _).trans (ih.append_right _)

end Unbiased.Math
