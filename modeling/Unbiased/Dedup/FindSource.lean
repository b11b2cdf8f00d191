/-
# The source of a duplicate

`find_source` looks up the dates of a set of duplicates and searches the pair with the
least number at the front of its date. That number is the year, so among duplicates of
one year the pair listed first wins, whatever the rest of its date says.
-/

import Unbiased.Dedup.DateText
import Unbiased.Math.RunningMinimum
import Unbiased.Store.ArticleDates

namespace Unbiased

open Unbiased.Math

/-- Why `find_source` stops. -/
inductive FindSourceError where
  /-- The assertion that there are duplicates. -/
  | noDuplicates
  | load (error : LoadDatesError)
  | stof (error : StofError)
  /-- A vector is read past its end, which has no defined result. -/
  | outOfBounds
  deriving DecidableEq

/-- The number that the date at an index begins with. -/
def dateNumber (articlesDates : List (Bytes × Bytes)) (idx : ℕ) : Except FindSourceError ℚ :=
  match articlesDates[idx]? with
  | none => .error .outOfBounds
  | some articleDate => (stof articleDate.2).mapError .stof

/-- `ArticleDedup::find_source`, with the function that loads dates as a parameter. -/
def findSource (loadDates : List Bytes → Except LoadDatesError (List (Bytes × Bytes)))
    (duplicates : SortedSet Bytes) : Except FindSourceError Bytes :=
  if duplicates.elems = [] then .error .noDuplicates
  else
    match loadDates duplicates.elems with
    | .error error => .error (.load error)
    | .ok articlesDates =>
      match minIndex (dateNumber articlesDates) articlesDates.length with
      | .error error => .error error
      | .ok minDateIdx =>
        match articlesDates[minDateIdx]? with
        | none => .error .outOfBounds
        | some articleDate => .ok articleDate.1

/-! ## Among dated duplicates -/

/-- The year of the pair at an index. -/
def yearAt (entries : List (Bytes × DateTime)) : ℕ → ℚ :=
  keyAt (fun entry => (entry.2.year : ℚ)) 0 entries

/-- The dates of the duplicates are known: one pair for each id, its date as `strftime`
writes it. -/
structure DatesKnown (yearWidth : ℕ)
    (loadDates : List Bytes → Except LoadDatesError (List (Bytes × Bytes)))
    (duplicates : SortedSet Bytes) (entries : List (Bytes × DateTime)) : Prop where
  loaded : loadDates duplicates.elems =
    .ok (entries.map fun entry => (entry.1, strftime yearWidth entry.2))
  ids : (entries.map Prod.fst).Perm duplicates.elems

/-- Of the pairs with the earliest year, the one listed first is not later than any other. -/
def EarliestYearLed (entries : List (Bytes × DateTime)) : Prop :=
  ∀ before first after, entries = before ++ first :: after →
    (∀ entry ∈ before, first.2.year < entry.2.year) →
    (∀ entry ∈ after, first.2.year ≤ entry.2.year) →
    ∀ entry ∈ after, entry.2.year = first.2.year → first.2.NotLater entry.2

variable {yearWidth : ℕ}
  {loadDates : List Bytes → Except LoadDatesError (List (Bytes × Bytes))}
  {duplicates : SortedSet Bytes} {entries : List (Bytes × DateTime)}

/-- Every date can be read, and gives its year. -/
theorem dateNumber_strftime {idx : ℕ} (hidx : idx < entries.length) :
    dateNumber (entries.map fun entry => (entry.1, strftime yearWidth entry.2)) idx =
      .ok (yearAt entries idx) := by
  have hentry := List.getElem?_eq_getElem hidx
  rw [dateNumber, List.getElem?_map, hentry, yearAt, keyAt, hentry]
  show (stof (strftime yearWidth entries[idx].2)).mapError _ = _
  rw [stof_strftime]
  rfl

theorem DatesKnown.entries_ne_nil (h : DatesKnown yearWidth loadDates duplicates entries)
    (hne : duplicates.elems ≠ []) : entries ≠ [] := by
  intro hnil
  have hids := h.ids
  rw [hnil] at hids
  exact hne hids.symm.eq_nil

/-- A pair is known by its id. -/
theorem DatesKnown.entry_eq (h : DatesKnown yearWidth loadDates duplicates entries)
    {entry other : Bytes × DateTime} (hentry : entry ∈ entries) (hother : other ∈ entries)
    (hid : entry.1 = other.1) : entry = other :=
  List.inj_on_of_nodup_map (h.ids.nodup_iff.mpr duplicates.nodup) hentry hother hid

/-- **What is found**: the first of the pairs with the earliest year. -/
theorem DatesKnown.exists_findSource (h : DatesKnown yearWidth loadDates duplicates entries)
    (hne : duplicates.elems ≠ []) :
    ∃ (best : ℕ) (found : Bytes × DateTime), entries[best]? = some found ∧
      IsFirstLeast (yearAt entries) entries.length best ∧
      findSource loadDates duplicates = .ok found.1 := by
  obtain ⟨size, hsize⟩ := Nat.exists_eq_add_one_of_ne_zero
    (List.length_pos_iff.mpr (h.entries_ne_nil hne)).ne'
  have hkeys : ∀ idx ≤ size, dateNumber
      (entries.map fun entry => (entry.1, strftime yearWidth entry.2)) idx =
        .ok (yearAt entries idx) := fun idx hidx => dateNumber_strftime (by omega)
  obtain ⟨best, hbest, hleast⟩ := exists_minIndex hkeys
  rw [← hsize] at hleast
  have hlt := hleast.lt_size
  have hentry := List.getElem?_eq_getElem hlt
  refine ⟨best, entries[best], hentry, hleast, ?_⟩
  rw [findSource, if_neg hne, h.loaded]
  simp only [List.length_map, hsize]
  rw [hbest]
  simp only [List.getElem?_map, hentry, Option.map_some]

/-- The first pair of the earliest year splits the list where the definition says. -/
theorem isFirstLeast_yearAt_iff {before after : List (Bytes × DateTime)}
    {first : Bytes × DateTime} (h : entries = before ++ first :: after) :
    IsFirstLeast (yearAt entries) entries.length before.length ↔
      (∀ entry ∈ before, first.2.year < entry.2.year) ∧
        ∀ entry ∈ after, first.2.year ≤ entry.2.year := by
  rw [yearAt, h, isFirstLeast_append_iff]
  simp only [Nat.cast_lt, Nat.cast_le]

/-- **The source of a duplicate is the earliest article** exactly if no pair of the earliest
year is earlier than the pair of that year that is listed first. -/
theorem findSource_earliest_iff (h : DatesKnown yearWidth loadDates duplicates entries)
    (hne : duplicates.elems ≠ []) :
    (∃ source ∈ entries, findSource loadDates duplicates = .ok source.1 ∧
      ∀ entry ∈ entries, source.2.NotLater entry.2) ↔ EarliestYearLed entries := by
  obtain ⟨best, found, hfound, hleast, hsource⟩ := h.exists_findSource hne
  constructor
  · rintro ⟨source, hmem, hreturned, hearliest⟩ before first after hsplit hbefore hafter entry
      hentry -
    have hbest : before.length = best :=
      ((isFirstLeast_yearAt_iff hsplit).mpr ⟨hbefore, hafter⟩).unique hleast
    have hfirst : first = found := by
      rw [← hbest, hsplit, List.getElem?_append_right le_rfl, Nat.sub_self] at hfound
      exact Option.some.inj hfound
    have hsame : source = found := by
      have hid : source.1 = found.1 := Except.ok.inj (hreturned.symm.trans hsource)
      exact h.entry_eq hmem (List.mem_of_getElem? hfound) hid
    rw [hfirst, ← hsame]
    exact hearliest entry (by rw [hsplit]; exact List.mem_append_right _ (.tail _ hentry))
  · intro hled
    obtain ⟨hlt, hget⟩ := List.getElem?_eq_some_iff.mp hfound
    have hsplit : entries = entries.take best ++ found :: entries.drop (best + 1) := by
      rw [← hget, List.cons_getElem_drop_succ, List.take_append_drop]
    have hlength : (entries.take best).length = best := by
      rw [List.length_take, Nat.min_eq_left (Nat.le_of_lt hlt)]
    rw [← hlength] at hleast
    obtain ⟨hbefore, hafter⟩ := (isFirstLeast_yearAt_iff hsplit).mp hleast
    refine ⟨found, List.mem_of_getElem? hfound, hsource, fun entry hentry => ?_⟩
    rw [hsplit] at hentry
    rcases List.mem_append.mp hentry with hearlier | hrest
    · exact DateTime.notLater_of_year_lt (hbefore entry hearlier)
    · rcases List.mem_cons.mp hrest with rfl | hlater
      · exact DateTime.NotLater.refl _
      · rcases Nat.lt_or_eq_of_le (hafter entry hlater) with hless | hequal
        · exact DateTime.notLater_of_year_lt hless
        · exact hled _ _ _ hsplit hbefore hafter entry hlater hequal.symm

/-- No two pairs of one year leave nothing to go wrong. -/
theorem earliestYearLed_of_nodup (h : (entries.map fun entry => entry.2.year).Nodup) :
    EarliestYearLed entries := by
  intro before first after hsplit _ _ entry hentry hyear
  rw [hsplit, List.map_append, List.map_cons] at h
  have hfresh := (List.nodup_cons.mp (List.nodup_append.mp h).2.1).1
  exact absurd (hyear ▸ List.mem_map_of_mem hentry) hfresh

/-! ## Two dates -/

/-- The first second of June or of July. -/
def monthStart (year : ℕ) (hyear : 1 ≤ year ∧ year ≤ 9999) (july : Bool) : DateTime where
  year := year
  month := if july then 7 else 6
  day := 1
  hour := 0
  minute := 0
  second := 0
  year_bounds := hyear
  month_bounds := by cases july <;> decide
  day_bounds := by cases july <;> simp [daysInMonth]
  hour_lt := by decide
  minute_lt := by decide
  second_lt := by decide

def twoDates (first second : DateTime) : List (Bytes × DateTime) :=
  [([97], first), ([98], second)]

def loadTwoDates (first second : DateTime) :
    List Bytes → Except LoadDatesError (List (Bytes × Bytes)) := fun _ =>
  .ok ((twoDates first second).map fun entry => (entry.1, strftime 4 entry.2))

theorem twoDates_known (first second : DateTime) :
    DatesKnown 4 (loadTwoDates first second) (.ofList [[97], [98]]) (twoDates first second) where
  loaded := rfl
  ids := List.Perm.refl _

/-- Of two dates of different years, the earlier one is found. -/
theorem findSource_two_years :
    ∃ source ∈ twoDates (monthStart 2020 (by decide) true) (monthStart 2019 (by decide) true),
      findSource (loadTwoDates (monthStart 2020 (by decide) true)
        (monthStart 2019 (by decide) true)) (.ofList [[97], [98]]) = .ok source.1 ∧
      ∀ entry ∈ twoDates (monthStart 2020 (by decide) true) (monthStart 2019 (by decide) true),
        source.2.NotLater entry.2 :=
  (findSource_earliest_iff (twoDates_known _ _) (by decide)).mpr
    (earliestYearLed_of_nodup (by decide))

/-- Of two dates of one year, the one listed first is found, though the other is earlier. -/
theorem later_of_year_found :
    ¬ ∀ (yearWidth : ℕ)
      (loadDates : List Bytes → Except LoadDatesError (List (Bytes × Bytes)))
      (duplicates : SortedSet Bytes) (entries : List (Bytes × DateTime)),
      DatesKnown yearWidth loadDates duplicates entries → duplicates.elems ≠ [] →
        ∃ source ∈ entries, findSource loadDates duplicates = .ok source.1 ∧
          ∀ entry ∈ entries, source.2.NotLater entry.2 := by
  intro hall
  have hknown := twoDates_known (monthStart 2020 (by decide) true)
    (monthStart 2020 (by decide) false)
  obtain ⟨source, hmem, hreturned, hearliest⟩ := hall _ _ _ _ hknown (by decide)
  obtain ⟨best, found, hfound, hleast, hsource⟩ := hknown.exists_findSource (by decide)
  have hbest : best = 0 := hleast.unique ((isFirstLeast_yearAt_iff (List.nil_append _).symm).mpr
    ⟨fun _ h => absurd h List.not_mem_nil, fun entry hentry => by
      rw [List.mem_singleton.mp hentry]
      exact le_rfl⟩)
  subst hbest
  obtain rfl := Option.some.inj hfound
  have hsame := hknown.entry_eq hmem List.mem_cons_self
    (Except.ok.inj (hreturned.symm.trans hsource))
  have hlater := hearliest _ (.tail _ List.mem_cons_self)
  rw [hsame] at hlater
  exact absurd hlater (by decide)

/-! ## Among saved articles -/

/-- **Dates of saved articles are never found.** Whichever of the returned ids are looked up,
the list is empty, and `find_source` reads past its end. -/
theorem dates_of_saved_never_found (newOid : ℕ → ObjectId) {db : MongoDb} (hdb : KeyedByOid db)
    (articles : List ProcessedArticle) :
    (∀ chosen ⊆ savedDates newOid db articles, chosen ≠ [] →
      ¬ FindsDates (saveArticles newOid db articles) chosen) ∧
    ∀ duplicates : SortedSet Bytes, duplicates.elems ≠ [] →
      duplicates.elems ⊆ (savedDates newOid db articles).map Prod.fst →
        findSource (loadArticlesDates (saveArticles newOid db articles)) duplicates =
          .error .outOfBounds := by
  have hkeyed := hdb.saveArticles newOid articles
  constructor
  · rintro chosen - hne ⟨dates, hdates, hperm⟩
    have hids : chosen.map Prod.fst ≠ [] := fun hnone => hne (List.map_eq_nil_iff.mp hnone)
    have hnil := hkeyed.loadArticlesDates_eq_nil hids
    rw [← Except.ok.inj (hnil.symm.trans hdates)] at hperm
    exact hne hperm.symm.eq_nil
  · intro duplicates hne _
    rw [findSource, if_neg hne, hkeyed.loadArticlesDates_eq_nil hne]
    rfl

/-- On an empty store, too. -/
theorem dates_of_one_saved_never_found :
    (∀ chosen ⊆ savedDates (fun count _ => Fin.ofNat 256 count) ⟨fun _ => [], 0⟩
        [.fresh fun _ => 0], chosen ≠ [] →
      ¬ FindsDates (saveArticles (fun count _ => Fin.ofNat 256 count) ⟨fun _ => [], 0⟩
        [.fresh fun _ => 0]) chosen) ∧
    ∀ duplicates : SortedSet Bytes, duplicates.elems ≠ [] →
      duplicates.elems ⊆ (savedDates (fun count _ => Fin.ofNat 256 count) ⟨fun _ => [], 0⟩
        [.fresh fun _ => 0]).map Prod.fst →
        findSource (loadArticlesDates (saveArticles (fun count _ => Fin.ofNat 256 count)
          ⟨fun _ => [], 0⟩ [.fresh fun _ => 0])) duplicates = .error .outOfBounds :=
  dates_of_saved_never_found _ (keyedByOid_of_empty rfl) _

/-- The date of the only saved article is not found under its id. -/
theorem date_of_saved_not_found :
    ¬ ∀ (newOid : ℕ → ObjectId) (db : MongoDb) (articles : List ProcessedArticle)
      (chosen : List (Bytes × Bytes)), KeyedByOid db →
        chosen ⊆ savedDates newOid db articles → (chosen.map Prod.fst).Nodup → chosen ≠ [] →
          FindsDates (saveArticles newOid db articles) chosen := by
  intro hall
  have hempty : KeyedByOid ⟨fun _ => [], 0⟩ := keyedByOid_of_empty rfl
  let article : ProcessedArticle := .fresh fun _ => 0
  let newOid : ℕ → ObjectId := fun count _ => Fin.ofNat 256 count
  obtain ⟨dates, hdates, hperm⟩ := hall newOid _ [article] _ hempty (List.Subset.refl _)
    (List.nodup_singleton _) (List.cons_ne_nil _ _)
  have hnil := (hempty.saveArticles newOid [article]).loadArticlesDates_eq_nil
    (List.cons_ne_nil ((saveArticle newOid ⟨fun _ => [], 0⟩ article).1) [])
  rw [← Except.ok.inj (hnil.symm.trans hdates)] at hperm
  exact absurd hperm.length_eq (by decide)

end Unbiased
