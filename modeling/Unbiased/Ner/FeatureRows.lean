/-
# Rows and samples

Rows of the data sets line up with their samples only where a single data set has any: a
second set that is not empty leaves an empty row at the end of the list. Inside the
training set, a row knows its word and the word before it, but of the word after it only
what has occurred up to the row.
-/

import Unbiased.Ner.Custom

namespace Unbiased

open Unbiased.Math

namespace Ner

variable {text : Text} {data : List Sample} {isTrain : Bool} {trainWords : Finset ℤ}
  {s t : Processor}

/-! ## Three data sets -/

/-- The row holds the features of the sample at an index, for some set of known words. -/
def RowOf (text : Text) (data : List Sample) (idx : Fin data.length)
    (row : Option (Option FeatureRow)) : Prop :=
  ∃ known, row = some (some
    (featureRow text data known (neighbourId known (text.wordId (data.get idx))) idx))

/-- The rows are those of the training set, the first and the second test set, in this
order, as they are sliced later. -/
structure RowsLineUp (text : Text) (trainData testAData testBData : List Sample)
    (X : List (Option FeatureRow)) : Prop where
  length : X.length = trainData.length + testAData.length + testBData.length
  train : ∀ idx : Fin trainData.length, RowOf text trainData idx X[idx.val]?
  testA : ∀ idx : Fin testAData.length,
    RowOf text testAData idx X[trainData.length + idx.val]?
  testB : ∀ idx : Fin testBData.length,
    RowOf text testBData idx X[trainData.length + testAData.length + idx.val]?

/-- The row of a sample has the features of its word. -/
theorem RowOf.sample {idx : Fin data.length} {row : Option (Option FeatureRow)}
    (h : RowOf text data idx row) :
    ∃ features : FeatureRow, row = some (some features) ∧ features.pos = (data.get idx).pos ∧
      features.chunk = (data.get idx).chunk ∧
      features.case = getCase text.isLower text.isUpper (data.get idx).word ∧
      features.ortInfo = getOrtInfo (data.get idx).word := by
  obtain ⟨known, hrow⟩ := h
  exact ⟨_, hrow, rfl, rfl, rfl, rfl⟩

theorem not_rowOf_empty (idx : Fin data.length) : ¬ RowOf text data idx (some none) := by
  rintro ⟨known, hrow⟩
  cases hrow

/-- A call fills in the rows from the first one on. -/
theorem BuiltUpTo.rowOf (h : BuiltUpTo text data isTrain s data.length t)
    (idx : Fin data.length) : RowOf text data idx t.X[idx.val]? :=
  ⟨_, h.built idx idx.isLt⟩

/-- A call without samples changes no row. -/
theorem BuiltUpTo.X_eq_of_nil (h : BuiltUpTo text [] isTrain s 0 t) : t.X = s.X := by
  apply List.ext_getElem?
  intro position
  rw [h.kept position (Nat.zero_le _), List.replicate_zero, List.append_nil]

/-- **The row that a call appended last stays empty**, if there were rows before it. -/
theorem BuiltUpTo.last_empty {turns : ℕ} (h : BuiltUpTo text data isTrain s turns t)
    (hbefore : 0 < s.X.length) (hturns : 0 < turns) :
    t.X[s.X.length + (turns - 1)]? = some none := by
  rw [h.kept _ (by omega), List.getElem?_append_right (by omega), Nat.add_sub_cancel_left,
    List.getElem?_replicate, if_pos (by omega)]

/-- The rows before and after calls for some data sets, each on the rows of the one before. -/
inductive Calls (text : Text) :
    List (List Sample) → List (Option FeatureRow) → List (Option FeatureRow) → Prop where
  | nil (X : List (Option FeatureRow)) : Calls text [] X X
  | cons {data : List Sample} {sets : List (List Sample)} {isTrain : Bool} {s t : Processor}
      {X Y : List (Option FeatureRow)} (hstart : s.X = X)
      (hbuilt : BuiltUpTo text data isTrain s data.length t) (hrest : Calls text sets t.X Y) :
      Calls text (data :: sets) X Y

theorem calls_buildFeatures (text : Text) (trainData testAData testBData : List Sample) :
    Calls text [trainData, testAData, testBData] []
      (buildFeatures text trainData testAData testBData .new).X := by
  let s₂ : Processor :=
    { buildRows text trainData true .new with trainSamplesNo := trainData.length }
  let s₃ : Processor :=
    { buildRows text testAData false s₂ with testASamplesNo := testAData.length }
  have htestB : Calls text [testBData] s₃.X
      (buildFeatures text trainData testAData testBData .new).X :=
    .cons rfl (builtUpTo_buildRows text testBData false s₃) (.nil _)
  have htestA : Calls text [testAData, testBData] s₂.X
      (buildFeatures text trainData testAData testBData .new).X :=
    .cons rfl (builtUpTo_buildRows text testAData false s₂) htestB
  exact .cons rfl (builtUpTo_buildRows text trainData true .new) htestA

variable {sets before after : List (List Sample)} {X Y : List (Option FeatureRow)}

/-- Every sample has a row appended for it. -/
theorem Calls.length (h : Calls text sets X Y) :
    Y.length = X.length + (sets.map List.length).sum := by
  induction h with
  | nil X => rfl
  | cons hstart hbuilt _ ih =>
      rw [ih, hbuilt.length, hstart, List.map_cons, List.sum_cons, Nat.add_assoc]

/-- Calls for one list of data sets after another. -/
theorem Calls.exists_between (h : Calls text (before ++ after) X Y) :
    ∃ Z, Calls text before X Z ∧ Calls text after Z Y := by
  induction before generalizing X with
  | nil => exact ⟨X, .nil X, h⟩
  | cons data before ih =>
      cases h with
      | cons hstart hbuilt hrest =>
          obtain ⟨Z, hbefore, hafter⟩ := ih hrest
          exact ⟨Z, .cons hstart hbuilt hbefore, hafter⟩

/-- Where no data set has samples, no row changes. -/
theorem Calls.eq_of_nil (h : Calls text sets X Y) (hsets : ∀ data ∈ sets, data = []) :
    Y = X := by
  induction h with
  | nil X => rfl
  | cons hstart hbuilt _ ih =>
      obtain ⟨rfl, hrest⟩ := List.forall_mem_cons.mp hsets
      rw [ih hrest, hbuilt.X_eq_of_nil, hstart]

/-- **A data set without others before and after it** has its rows filled in. -/
theorem Calls.rowOf (before : List (List Sample))
    (h : Calls text (before ++ data :: after) [] Y) (hbefore : ∀ earlier ∈ before, earlier = [])
    (hafter : ∀ later ∈ after, later = []) (idx : Fin data.length) :
    RowOf text data idx Y[idx.val]? := by
  obtain ⟨Z, hfirst, hrest⟩ := h.exists_between
  obtain rfl := hfirst.eq_of_nil hbefore
  cases hrest with
  | cons _ hbuilt hlater =>
      rw [hlater.eq_of_nil hafter]
      exact hbuilt.rowOf idx

/-- **Of a data set after another one**, a row is missing: the last one is empty. -/
theorem Calls.exists_not_rowOf (before : List (List Sample))
    (h : Calls text (before ++ data :: after) [] Y) (hbefore : ∃ earlier ∈ before, earlier ≠ [])
    (hdata : data ≠ []) (hafter : ∀ later ∈ after, later = []) :
    ∃ idx : Fin data.length,
      ¬ RowOf text data idx Y[(before.map List.length).sum + idx.val]? := by
  obtain ⟨earlier, hmem, hne⟩ := hbefore
  obtain ⟨Z, hfirst, hrest⟩ := h.exists_between
  have hlength : Z.length = (before.map List.length).sum := by
    rw [hfirst.length, List.length_nil, Nat.zero_add]
  have hpos : 0 < (before.map List.length).sum :=
    List.sum_pos_iff_exists_pos_nat.mpr
      ⟨earlier.length, List.mem_map_of_mem hmem, List.length_pos_iff.mpr hne⟩
  have hdata := List.length_pos_iff.mpr hdata
  cases hrest with
  | cons hstart hbuilt hlater =>
      rw [← hlength, ← hstart] at hpos ⊢
      rw [hlater.eq_of_nil hafter]
      refine ⟨⟨data.length - 1, Nat.sub_one_lt hdata.ne'⟩, ?_⟩
      rw [hbuilt.last_empty hpos hdata]
      exact not_rowOf_empty _

variable {trainData testAData testBData : List Sample}

/-- If rows line up, a set with samples has none before it. -/
theorem Calls.nil_of_rowsLineUp (h : Calls text [trainData, testAData, testBData] [] X)
    (hrows : RowsLineUp text trainData testAData testBData X) :
    (testAData ≠ [] → testBData = [] → trainData = []) ∧
      (testBData ≠ [] → trainData = [] ∧ testAData = []) := by
  constructor
  · intro hA hB
    by_contra htrain
    obtain ⟨idx, hmissing⟩ := Calls.exists_not_rowOf [trainData] h
      ⟨trainData, List.mem_singleton_self _, htrain⟩ hA (List.forall_mem_singleton.mpr hB)
    exact hmissing (hrows.testA idx)
  · intro hB
    by_contra hothers
    have hbefore : ∃ earlier ∈ [trainData, testAData], earlier ≠ [] := by
      by_cases htrain : trainData = []
      · exact ⟨testAData, by simp, fun htestA => hothers ⟨htrain, htestA⟩⟩
      · exact ⟨trainData, by simp, htrain⟩
    obtain ⟨idx, hmissing⟩ := Calls.exists_not_rowOf [trainData, testAData] h hbefore hB
      fun _ hlater => absurd hlater List.not_mem_nil
    exact hmissing (hrows.testB idx)

/-- **Rows line up with samples** exactly if at most one of the data sets has samples. -/
theorem rowsLineUp_iff (text : Text) (trainData testAData testBData : List Sample) :
    RowsLineUp text trainData testAData testBData
        (buildFeatures text trainData testAData testBData .new).X ↔
      (trainData = [] ∧ testAData = []) ∨ (trainData = [] ∧ testBData = []) ∨
        (testAData = [] ∧ testBData = []) := by
  have hcalls := calls_buildFeatures text trainData testAData testBData
  constructor
  · intro hrows
    obtain ⟨hA, hB⟩ := hcalls.nil_of_rowsLineUp hrows
    by_cases hnoB : testBData = []
    · by_cases hnoA : testAData = []
      · exact .inr (.inr ⟨hnoA, hnoB⟩)
      · exact .inr (.inl ⟨hA hnoA hnoB, hnoB⟩)
    · exact .inl (hB hnoB)
  · intro hempty
    have hlength : (buildFeatures text trainData testAData testBData .new).X.length =
        trainData.length + testAData.length + testBData.length := by
      rw [hcalls.length]
      simp [Nat.add_assoc]
    rcases hempty with ⟨rfl, rfl⟩ | ⟨rfl, rfl⟩ | ⟨rfl, rfl⟩
    · refine ⟨hlength, fun idx => idx.elim0, fun idx => idx.elim0, fun idx => ?_⟩
      rw [List.length_nil, Nat.zero_add]
      exact Calls.rowOf [[], []] hcalls (by simp) (by simp) idx
    · refine ⟨hlength, fun idx => idx.elim0, fun idx => ?_, fun idx => idx.elim0⟩
      rw [List.length_nil, Nat.zero_add]
      exact Calls.rowOf [[]] hcalls (by simp) (by simp) idx
    · refine ⟨hlength, fun idx => ?_, fun idx => idx.elim0, fun idx => idx.elim0⟩
      exact Calls.rowOf [] hcalls (by simp) (by simp) idx

/-- A word of one letter, tagged as no entity. -/
def letterSample (ch : Char) : Sample where
  word := [codePoint ch]
  pos := pyStr "NN"
  chunk := pyStr "I-NP"
  tag := pyStr "O"

/-- Words that are their own stems, numbered by their first letters. -/
def letterText : Text where
  isLower word := word.all fun ch => codePoint 'a' ≤ ch
  isUpper word := word.all fun ch => ch ≤ codePoint 'Z'
  stem := id
  vocabulary word := word.head?.map Fin.val

/-- With one sample in the training set and one in a test set, the second row is empty. -/
theorem test_row_empty :
    ¬ ∀ (text : Text) (trainData testAData testBData : List Sample),
      RowsLineUp text trainData testAData testBData
        (buildFeatures text trainData testAData testBData .new).X := by
  intro hall
  have hrow := (hall letterText [letterSample 'a'] [letterSample 'b'] []).testA ⟨0, by decide⟩
  have hempty : (buildFeatures letterText [letterSample 'a'] [letterSample 'b'] [] .new).X[1]? =
      some none := by
    decide +kernel
  exact not_rowOf_empty _ (hempty ▸ hrow)

/-! ## Neighbours in the training set -/

theorem neighbourId_eq_iff {known : Finset ℤ} {id : ℤ} :
    neighbourId known id = id ↔ id ∈ known ∨ id = -1 := by
  rw [neighbourId]
  split
  · rename_i hid
    exact iff_of_true rfl hid
  · rename_i hid
    exact iff_of_false (fun heq => hid (.inr heq.symm)) hid

/-- Of a word up to an index, the id is known. -/
theorem neighbourId_of_mem_take {turns : ℕ} {sample : Sample} (h : sample ∈ data.take turns) :
    neighbourId (knownAfter text data true trainWords turns) (text.wordId sample) =
      text.wordId sample := by
  rw [neighbourId_eq_iff, mem_knownAfter]
  by_cases hunknown : text.wordId sample = -1
  · exact .inr hunknown
  · exact .inl (.inr ⟨rfl, hunknown, sample, h, rfl⟩)

theorem get_mem_take {idx : Fin data.length} {turns : ℕ} (h : idx.val < turns) :
    data.get idx ∈ data.take turns :=
  List.mem_take_iff_getElem.mpr ⟨idx.val, lt_min h idx.isLt, rfl⟩

/-- A row of the training set has the id of its word. -/
theorem wordId_rowAt (idx : Fin data.length) :
    (rowAt text data true trainWords idx).wordId = text.wordId (data.get idx) :=
  neighbourId_of_mem_take (get_mem_take (Nat.lt_succ_self _))

/-- The neighbours of an index inside the list. -/
theorem neighbours_eq_some {idx : ℕ} (hfirst : 0 < idx) (hlast : idx + 1 < data.length) :
    neighbours data ⟨idx, by omega⟩ =
      some (data.get ⟨idx - 1, by omega⟩, data.get ⟨idx + 1, hlast⟩) :=
  dif_pos ⟨hfirst, hlast⟩

section Neighbours

variable {idx : Fin data.length} {prev next : Sample}
  (hneighbours : neighbours data idx = some (prev, next))

include hneighbours

theorem before_rowAt : (rowAt text data isTrain trainWords idx).before =
    neighbourId (knownAfter text data isTrain trainWords (idx.val + 1)) (text.wordId prev) := by
  simp only [rowAt, featureRow, hneighbours]

theorem after_rowAt : (rowAt text data isTrain trainWords idx).after =
    neighbourId (knownAfter text data isTrain trainWords (idx.val + 1)) (text.wordId next) := by
  simp only [rowAt, featureRow, hneighbours]

end Neighbours

/-- The neighbour features of a row are the ids in the rows before and after it. -/
def NeighboursAgree (X : List (Option FeatureRow)) (idx : ℕ) : Prop :=
  ∃ prev row next : FeatureRow, X[idx - 1]? = some (some prev) ∧ X[idx]? = some (some row) ∧
    X[idx + 1]? = some (some next) ∧ row.before = prev.wordId ∧ row.after = next.wordId

/-- **Neighbour features agree with the neighbours** exactly if the word after a row is
unknown, or its id is that of a word up to the row. -/
theorem neighboursAgree_iff {idx : ℕ} (hfirst : 0 < idx) (hlast : idx + 1 < data.length) :
    NeighboursAgree (buildRows text data true .new).X idx ↔
      text.wordId data[idx + 1] = -1 ∨
        ∃ sample ∈ data.take (idx + 1), text.wordId sample = text.wordId data[idx + 1] := by
  have hbuilt : ∀ position : Fin data.length, (buildRows text data true .new).X[position.val]? =
      some (some (rowAt text data true ∅ position)) := fun position =>
    (builtUpTo_buildRows text data true .new).built position position.isLt
  let prev : Fin data.length := ⟨idx - 1, by omega⟩
  let row : Fin data.length := ⟨idx, by omega⟩
  let next : Fin data.length := ⟨idx + 1, hlast⟩
  have hneighbours : neighbours data row = some (data.get prev, data.get next) :=
    neighbours_eq_some hfirst hlast
  have hbefore : (rowAt text data true ∅ row).before =
      (rowAt text data true ∅ prev).wordId := by
    have hprev : data.get prev ∈ data.take (idx + 1) :=
      get_mem_take (show idx - 1 < idx + 1 by omega)
    rw [before_rowAt hneighbours, wordId_rowAt, neighbourId_of_mem_take hprev]
  have hagree : (rowAt text data true ∅ row).after = (rowAt text data true ∅ next).wordId ↔
      text.wordId data[idx + 1] = -1 ∨
        ∃ sample ∈ data.take (idx + 1), text.wordId sample = text.wordId data[idx + 1] := by
    rw [after_rowAt hneighbours, wordId_rowAt, neighbourId_eq_iff, mem_knownAfter]
    show _ ∨ text.wordId data[idx + 1] = -1 ↔ _
    grind
  rw [← hagree]
  constructor
  · rintro ⟨prev', row', next', -, hrow, hnext, -, hsame⟩
    rw [hbuilt row] at hrow
    rw [hbuilt next] at hnext
    cases hrow
    cases hnext
    exact hsame
  · intro hsame
    exact ⟨_, _, _, hbuilt prev, hbuilt row, hbuilt next, hbefore, hsame⟩

/-- A word that is repeated. -/
theorem neighboursAgree_repeated :
    NeighboursAgree (buildRows letterText [letterSample 'a', letterSample 'b', letterSample 'a']
      true .new).X 1 :=
  (neighboursAgree_iff (by decide) (by decide)).mpr
    (.inr ⟨letterSample 'a', List.mem_cons_self, rfl⟩)

/-- The id of a word that is new after a row is not in the row. -/
theorem next_word_not_recorded :
    ¬ ∀ (text : Text) (data : List Sample) (idx : ℕ), 0 < idx → idx + 1 < data.length →
      NeighboursAgree (buildRows text data true .new).X idx := by
  intro hall
  obtain ⟨prev, row, next, -, hrow, hnext, -, hsame⟩ := hall letterText
    [letterSample 'a', letterSample 'b', letterSample 'c'] 1 (by decide) (by decide)
  have hafter : ((buildRows letterText [letterSample 'a', letterSample 'b', letterSample 'c']
      true .new).X[1]?.bind fun row => row.map FeatureRow.after) = some (-1) := by
    decide +kernel
  have hwordId : ((buildRows letterText [letterSample 'a', letterSample 'b', letterSample 'c']
      true .new).X[2]?.bind fun row => row.map FeatureRow.wordId) = some 99 := by
    decide +kernel
  rw [hrow] at hafter
  rw [hnext] at hwordId
  have heq := hsame.symm.trans (Option.some.inj hafter)
  exact absurd ((Option.some.inj hwordId).symm.trans heq) (by decide)

end Ner

end Unbiased
