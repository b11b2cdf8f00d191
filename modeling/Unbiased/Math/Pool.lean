/-
# Pools of messages

Messages in flight are a list, and a delivery takes any of them. Where each
sender has at most one message on its way, the list says no more than which
senders are at this place, and with what. A pool is such a list, read against a
function that gives each sender its state.

A log is a list that only grows. What it says about one party is a list of its own.
-/

import Mathlib.Data.List.Nodup
import Mathlib.Data.List.Perm.Subperm
import Mathlib.Logic.Function.Basic

namespace Unbiased.Math

universe u v w

variable {α : Type u} {β : Type v} {κ : Type w}

/-- The list has an entry for each key whose state has a content here, and no
other entries. -/
structure Pool (content : κ → Option β) (state : α → κ) (l : List (α × β)) : Prop where
  nodup : (l.map Prod.fst).Nodup
  mem : ∀ key item, (key, item) ∈ l ↔ content (state key) = some item

namespace Pool

variable {content : κ → Option β} {state : α → κ} {l : List (α × β)}

theorem empty (h : ∀ key, content (state key) = none) : Pool content state [] where
  nodup := List.nodup_nil
  mem key item := by
    rw [h key]
    simp

/-- The content of a key with an entry. -/
theorem content_of_mem (h : Pool content state l) {key : α} {item : β} (hmem : (key, item) ∈ l) :
    content (state key) = some item :=
  (h.mem key item).mp hmem

/-- If no key has a content here, nothing is here. -/
theorem eq_nil (h : Pool content state l) (hnone : ∀ key, content (state key) = none) :
    l = [] := by
  rw [List.eq_nil_iff_forall_not_mem]
  rintro ⟨key, item⟩ hmem
  rw [h.mem, hnone key] at hmem
  cases hmem

variable [DecidableEq α]

/-- A key that changes its state elsewhere leaves the list as it is. -/
theorem keep (h : Pool content state l) {key : α} {x : κ}
    (hsame : content x = content (state key)) : Pool content (Function.update state key x) l where
  nodup := h.nodup
  mem other item := by
    rw [h.mem]
    by_cases heq : other = key
    · subst heq
      rw [Function.update_self, hsame]
    · rw [Function.update_of_ne heq]

/-- A key that comes here gets an entry. -/
theorem enter (h : Pool content state l) {key : α} {x : κ} {item : β}
    (hbefore : content (state key) = none) (hafter : content x = some item) :
    Pool content (Function.update state key x) (l ++ [(key, item)]) where
  nodup := by
    have hnew : key ∉ l.map Prod.fst := by
      intro hmem
      obtain ⟨entry, hentry, rfl⟩ := List.mem_map.mp hmem
      rw [h.content_of_mem hentry] at hbefore
      cases hbefore
    rw [List.map_append, List.nodup_append]
    refine ⟨h.nodup, List.nodup_singleton key, ?_⟩
    intro first hfirst second hsecond heq
    rw [heq, List.mem_singleton.mp hsecond] at hfirst
    exact hnew hfirst
  mem other found := by
    rw [List.mem_append, List.mem_singleton, h.mem, Prod.mk.injEq]
    by_cases heq : other = key
    · subst heq
      rw [Function.update_self, hbefore, hafter]
      simp [eq_comm]
    · rw [Function.update_of_ne heq]
      simp [heq]

/-- A key that leaves takes its entry away. -/
theorem leave (h : Pool content state l) {key : α} {x : κ} {item : β} {idx : ℕ}
    (hidx : l[idx]? = some (key, item)) (hafter : content x = none) :
    Pool content (Function.update state key x) (l.eraseIdx idx) where
  nodup := (List.Sublist.map Prod.fst (List.eraseIdx_sublist l idx)).nodup h.nodup
  mem other found := by
    rw [List.mem_eraseIdx_iff_getElem?]
    by_cases heq : other = key
    · subst heq
      rw [Function.update_self, hafter]
      refine ⟨?_, fun hnone => by cases hnone⟩
      rintro ⟨pos, hpos, hfound⟩
      have hlt : pos < (l.map Prod.fst).length := by
        rw [List.length_map]
        exact (List.getElem?_eq_some_iff.mp hfound).1
      have hsame : (l.map Prod.fst)[pos]? = (l.map Prod.fst)[idx]? := by
        rw [List.getElem?_map, List.getElem?_map, hfound, hidx]
        rfl
      exact absurd ((List.getElem?_inj hlt h.nodup).mp hsame) hpos
    · rw [Function.update_of_ne heq, ← h.mem]
      refine ⟨?_, ?_⟩
      · rintro ⟨pos, -, hfound⟩
        exact List.mem_of_getElem? hfound
      · intro hother
        obtain ⟨pos, hpos⟩ := List.getElem?_of_mem hother
        refine ⟨pos, ?_, hpos⟩
        rintro rfl
        rw [hidx] at hpos
        cases hpos
        exact heq rfl

end Pool

/-! ## Logs -/

/-- What a log says about a party. -/
def logOf (mine : α → Prop) [DecidablePred mine] (log : List (α × β)) : List β :=
  log.filterMap fun entry => if mine entry.1 then some entry.2 else none

section Logs

variable {mine : α → Prop} [DecidablePred mine] {log : List (α × β)} {key : α} {item : β}

theorem logOf_concat_of_mine (h : mine key) :
    logOf mine (log ++ [(key, item)]) = logOf mine log ++ [item] := by
  simp [logOf, h]

theorem logOf_concat_of_not_mine (h : ¬ mine key) :
    logOf mine (log ++ [(key, item)]) = logOf mine log := by
  simp [logOf, h]

theorem mem_logOf : item ∈ logOf mine log ↔ ∃ key, mine key ∧ (key, item) ∈ log := by
  simp only [logOf, List.mem_filterMap, Option.ite_none_right_eq_some, Option.some.injEq,
    Prod.exists]
  refine ⟨?_, ?_⟩
  · rintro ⟨key, found, hmem, hmine, rfl⟩
    exact ⟨key, hmine, hmem⟩
  · rintro ⟨key, hmine, hmem⟩
    exact ⟨key, item, hmem, hmine, rfl⟩

/-- How often a party occurs in a log is how much the log says about it. -/
theorem count_parties {γ : Type w} [DecidableEq γ] {f : α → γ} {party : γ} :
    (log.map fun entry => f entry.1).count party = (logOf (f · = party) log).length := by
  induction log with
  | nil => rfl
  | cons entry log ih =>
      rw [logOf] at ih
      by_cases hparty : f entry.1 = party
      · simp [logOf, hparty, ih]
      · simp [logOf, hparty, ih]

/-- A log that says no more about any party is no longer. -/
theorem length_le_of_logOf {α' : Type u} {β' : Type v} {γ : Type w} [DecidableEq γ] {f : α → γ}
    {g : α' → γ} {other : List (α' × β')}
    (h : ∀ party, (logOf (f · = party) log).length ≤ (logOf (g · = party) other).length) :
    log.length ≤ other.length := by
  have hsub : (log.map fun entry => f entry.1).Subperm (other.map fun entry => g entry.1) := by
    apply List.subperm_iff_count.mpr
    intro party
    rw [count_parties, count_parties]
    exact h party
  simpa using hsub.length_le

/-- Values that are distinct in the whole log are distinct for each party. -/
theorem nodup_map_logOf {γ : Type w} {f : β → γ} (h : (log.map fun entry => f entry.2).Nodup) :
    ((logOf mine log).map f).Nodup := by
  apply List.Sublist.nodup _ h
  induction log with
  | nil => exact List.Sublist.slnil
  | cons entry log ih =>
      by_cases hmine : mine entry.1
      · simpa [logOf, hmine] using ih (List.nodup_cons.mp h).2
      · simpa [logOf, hmine] using (ih (List.nodup_cons.mp h).2).cons _

/-- Values are distinct in the whole log if they are for each party and no two
parties share one. -/
theorem nodup_map_of_logOf [DecidableEq α] {γ : Type w} {f : β → γ}
    (hparty : ∀ party, ((logOf (· = party) log).map f).Nodup)
    (hshare : ∀ first ∈ log, ∀ second ∈ log, f first.2 = f second.2 → first.1 = second.1) :
    (log.map fun entry => f entry.2).Nodup := by
  induction log with
  | nil => exact List.nodup_nil
  | cons entry log ih =>
      rw [List.map_cons, List.nodup_cons]
      refine ⟨?_, ih ?_ ?_⟩
      · intro hmem
        rcases List.mem_map.mp hmem with ⟨other, hother, heq⟩
        have hsame := hshare other (List.mem_cons_of_mem _ hother) entry List.mem_cons_self heq
        have hdistinct := hparty entry.1
        rw [show logOf (· = entry.1) (entry :: log) = entry.2 :: logOf (· = entry.1) log by
          simp [logOf], List.map_cons, List.nodup_cons, ← heq] at hdistinct
        exact hdistinct.1 (List.mem_map_of_mem (mem_logOf.mpr ⟨other.1, hsame, hother⟩))
      · intro party
        apply List.Sublist.nodup _ (hparty party)
        apply List.Sublist.map
        exact List.Sublist.filterMap _ (List.sublist_cons_self entry log)
      · intro first hfirst second hsecond
        exact hshare first (List.mem_cons_of_mem _ hfirst) second (List.mem_cons_of_mem _ hsecond)

end Logs

end Unbiased.Math
