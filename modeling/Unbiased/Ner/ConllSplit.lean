/-
# Training on one set and testing on two

`run_conll_split` slices the rows and the labels into the three data sets again, fits a
model to the first, and scores it on each. The labels are those of the sets. The rows are
not: a turn fills in the row at the index inside its own set, so the rows of the first
slice are those of the data set that was built last, as far as it goes, and the rows of the
test slices were never filled in.
-/

import Unbiased.Ner.FeatureRows
import Unbiased.Ner.Targets

namespace Unbiased

open Unbiased.Math

namespace Ner

/-! ## The rows -/

/-- The row at an index after all data sets were built. -/
def finalRow (text : Text) (trainData testAData testBData : List Sample) (idx : ℕ) :
    Option FeatureRow :=
  let trainWords := knownAfter text trainData true ∅ trainData.length
  if h : idx < testBData.length then some (rowAt text testBData false trainWords ⟨idx, h⟩)
  else if h : idx < testAData.length then some (rowAt text testAData false trainWords ⟨idx, h⟩)
  else if h : idx < trainData.length then some (rowAt text trainData true ∅ ⟨idx, h⟩)
  else none

variable {text : Text} {data : List Sample} {isTrain : Bool} {s t : Processor}

/-- A row after a whole call. -/
theorem BuiltUpTo.getElem? (h : BuiltUpTo text data isTrain s data.length t) (idx : ℕ) :
    t.X[idx]? = if hidx : idx < data.length then
        some (some (rowAt text data isTrain s.trainWords ⟨idx, hidx⟩))
      else (s.X ++ List.replicate data.length none)[idx]? := by
  split
  · rename_i hidx
    exact h.built ⟨idx, hidx⟩ hidx
  · rename_i hidx
    exact h.kept idx (not_lt.mp hidx)

/-- **The rows that are built.** -/
theorem X_buildFeatures (text : Text) (trainData testAData testBData : List Sample) :
    (buildFeatures text trainData testAData testBData .new).X =
      (List.range (trainData.length + testAData.length + testBData.length)).map
        (finalRow text trainData testAData testBData) := by
  let s₁ : Processor :=
    { buildRows text trainData true .new with trainSamplesNo := trainData.length }
  let s₂ : Processor :=
    { buildRows text testAData false s₁ with testASamplesNo := testAData.length }
  have htrain := builtUpTo_buildRows text trainData true .new
  have htestA := builtUpTo_buildRows text testAData false s₁
  have htestB := builtUpTo_buildRows text testBData false s₂
  have hwords₁ : s₁.trainWords = knownAfter text trainData true ∅ trainData.length :=
    htrain.trainWords
  have hwords₂ : s₂.trainWords = knownAfter text trainData true ∅ trainData.length :=
    htestA.trainWords.trans hwords₁
  have hlength₁ : s₁.X.length = trainData.length := htrain.length.trans (Nat.zero_add _)
  have hlength₂ : s₂.X.length = trainData.length + testAData.length :=
    htestA.length.trans (congrArg (· + _) hlength₁)
  have hrange : ∀ idx < trainData.length + testAData.length + testBData.length,
      ((List.range (trainData.length + testAData.length + testBData.length)).map
        (finalRow text trainData testAData testBData))[idx]? =
          some (finalRow text trainData testAData testBData idx) := by
    intro idx hidx
    rw [List.getElem?_map, List.getElem?_range hidx, Option.map_some]
  apply List.ext_getElem?
  intro idx
  show (buildRows text testBData false s₂).X[idx]? = _
  rw [htestB.getElem?]
  by_cases hB : idx < testBData.length
  · rw [dif_pos hB, hrange idx (by omega), finalRow, dif_pos hB, hwords₂]
  rw [dif_neg hB]
  by_cases hA : idx < testAData.length
  · rw [List.getElem?_append_left (by omega), hrange idx (by omega), finalRow, dif_neg hB,
      dif_pos hA, ← hwords₁]
    exact (htestA.getElem? idx).trans (dif_pos hA)
  have hsecond : s₂.X[idx]? = (s₁.X ++ List.replicate testAData.length none)[idx]? :=
    (htestA.getElem? idx).trans (dif_neg hA)
  by_cases htrained : idx < trainData.length
  · rw [List.getElem?_append_left (by omega), hsecond, List.getElem?_append_left (by omega),
      hrange idx (by omega), finalRow, dif_neg hB, dif_neg hA, dif_pos htrained]
    exact (htrain.getElem? idx).trans (dif_pos htrained)
  -- the rows behind all of these were appended, and not filled in
  by_cases hall : idx < trainData.length + testAData.length + testBData.length
  · rw [hrange idx hall, finalRow, dif_neg hB, dif_neg hA, dif_neg htrained]
    by_cases hearlier : idx < trainData.length + testAData.length
    · rw [List.getElem?_append_left (by omega), hsecond, List.getElem?_append_right (by omega),
        List.getElem?_replicate, if_pos (by omega)]
    · rw [List.getElem?_append_right (by omega), List.getElem?_replicate, if_pos (by omega)]
  · rw [List.getElem?_eq_none (by rw [List.length_append, List.length_replicate]; omega),
      List.getElem?_eq_none (by rw [List.length_map, List.length_range]; omega)]

/-! ## The three scores -/

/-- `xs[first : last]`. -/
def slice {α : Type} (xs : List α) (first last : ℕ) : List α := (xs.take last).drop first

/-- The share of the samples whose predicted label is the true one. -/
def agreeingShare (truth predicted : List ℕ) : ℚ :=
  ((truth.zip predicted).countP fun pair => pair.1 = pair.2 : ℕ) / (truth.length : ℕ)

/-- What is documented of `accuracy_score`, for lists that are not empty. -/
def ScoresAccuracy (accuracyScore : List ℕ → List ℕ → Option ℚ) : Prop :=
  ∀ truth predicted, truth ≠ [] → predicted.length = truth.length →
    accuracyScore truth predicted = some (agreeingShare truth predicted)

/-- The printed accuracies. -/
structure Scores where
  train : ℚ
  testA : ℚ
  testB : ℚ
  deriving DecidableEq

variable {V : Type}

/-- `run_conll_split`. A learning model is given by what it predicts for a row after it was
fitted to rows with labels. The scorer is library code. -/
def runConllSplit (accuracyScore : List ℕ → List ℕ → Option ℚ) (fit : List (V × ℕ) → V → ℕ)
    (X : List V) (Y : List ℕ) (trainNo testANo testBNo : ℕ) : Option Scores := do
  let predict := fit ((slice X 0 trainNo).zip (slice Y 0 trainNo))
  let score first last :=
    accuracyScore (slice Y first last) ((slice X first last).map predict)
  let train ← score 0 trainNo
  let testA ← score trainNo (trainNo + testANo)
  let testB ← score (trainNo + testANo) (trainNo + testANo + testBNo)
  some ⟨train, testA, testB⟩

/-- `preprocess_features`: vectorizer and scaler are fitted to all rows, and then transform
each row for itself. -/
def preprocessFeatures (transform : List (Option FeatureRow) → Option FeatureRow → V)
    (X : List (Option FeatureRow)) : List V :=
  X.map (transform X)

/-- The features, the targets and the preprocessing, then the scores. -/
def conllScores (accuracyScore : List ℕ → List ℕ → Option ℚ) (fit : List (V × ℕ) → V → ℕ)
    (transform : List (Option FeatureRow) → Option FeatureRow → V) (text : Text)
    (trainData testAData testBData : List Sample) : Option Scores :=
  let s := buildFeatures text trainData testAData testBData .new
  runConllSplit accuracyScore fit (preprocessFeatures transform s.X)
    (buildTargets trainData testAData testBData []) s.trainSamplesNo s.testASamplesNo
    s.testBSamplesNo

/-- The codes of the tags of a data set. -/
def codes (data : List Sample) : List ℕ :=
  data.map fun sample => (fitLabels data).rank sample.tag

/-- The share of a label among codes. -/
def labelShare (label : ℕ) (labels : List ℕ) : ℚ :=
  (labels.count label : ℕ) / (labels.length : ℕ)

/-- The accuracy of a label that is predicted for every sample. -/
theorem agreeingShare_replicate (truth : List ℕ) (label : ℕ) :
    agreeingShare truth (List.replicate truth.length label) = labelShare label truth := by
  have hcount : (truth.zip (List.replicate truth.length label)).countP
      (fun pair => pair.1 = pair.2) = truth.count label := by
    induction truth with
    | nil => rfl
    | cons code truth ih =>
        rw [List.length_cons, List.replicate_succ, List.zip_cons_cons, List.countP_cons,
          List.count_cons, ih]
        simp
  rw [agreeingShare, hcount, labelShare]

section Slices

variable {α : Type} (xs ys zs : List α)

theorem slice_first : slice (xs ++ ys ++ zs) 0 xs.length = xs := by
  rw [slice, List.append_assoc, List.take_left, List.drop_zero]

theorem slice_second :
    slice (xs ++ ys ++ zs) xs.length (xs.length + ys.length) = ys := by
  rw [slice, ← List.length_append, List.take_left, List.drop_left]

theorem slice_third : slice (xs ++ ys ++ zs) (xs.length + ys.length)
    (xs.length + ys.length + zs.length) = zs := by
  rw [slice, ← List.length_append, ← List.length_append, List.take_length, List.drop_left]

end Slices

theorem buildTargets_eq_append (trainData testAData testBData : List Sample) :
    buildTargets trainData testAData testBData [] =
      codes trainData ++ codes testAData ++ codes testBData := rfl

variable {trainData testAData testBData : List Sample}

/-- A row behind all data sets is empty. -/
theorem finalRow_eq_none {idx : ℕ} (htrain : trainData.length ≤ idx)
    (hA : testAData.length ≤ idx) (hB : testBData.length ≤ idx) :
    finalRow text trainData testAData testBData idx = none := by
  rw [finalRow, dif_neg (not_lt.mpr hB), dif_neg (not_lt.mpr hA), dif_neg (not_lt.mpr htrain)]

/-- The rows of test sets that are no longer than the training set stay empty. -/
theorem map_finalRow_eq_append (hA : testAData.length ≤ trainData.length)
    (hB : testBData.length ≤ trainData.length) :
    (List.range (trainData.length + testAData.length + testBData.length)).map
        (finalRow text trainData testAData testBData) =
      (List.range trainData.length).map (finalRow text trainData testAData testBData) ++
        List.replicate testAData.length none ++ List.replicate testBData.length none := by
  have hempty : ∀ idx, trainData.length ≤ idx →
      finalRow text trainData testAData testBData idx = none := fun idx hidx =>
    finalRow_eq_none hidx (hA.trans hidx) (hB.trans hidx)
  rw [List.append_assoc, List.replicate_append_replicate, Nat.add_assoc, List.range_add,
    List.map_append, List.map_map]
  congr 1
  rw [List.eq_replicate_iff]
  refine ⟨by rw [List.length_map, List.length_range], fun row hrow => ?_⟩
  obtain ⟨offset, -, rfl⟩ := List.mem_map.mp hrow
  exact hempty _ (Nat.le_add_right _ _)

/-- The numbers of samples that are kept. -/
def Processor.samplesNos (s : Processor) : ℕ × ℕ × ℕ :=
  (s.trainSamplesNo, s.testASamplesNo, s.testBSamplesNo)

/-- The rows of a set are built without a change to these numbers. -/
theorem samplesNos_buildRows (text : Text) (data : List Sample) (isTrain : Bool)
    (s : Processor) : (buildRows text data isTrain s).samplesNos = s.samplesNos :=
  foldl_finRange_invariant (P := fun _ (t : Processor) => t.samplesNos = s.samplesNos) rfl
    fun _ _ h => h

/-- After all sets, the numbers are those of the sets. -/
theorem samplesNos_buildFeatures (text : Text) (trainData testAData testBData : List Sample) :
    (buildFeatures text trainData testAData testBData .new).samplesNos =
      (trainData.length, testAData.length, testBData.length) := by
  let s₁ : Processor :=
    { buildRows text trainData true .new with trainSamplesNo := trainData.length }
  let s₂ : Processor :=
    { buildRows text testAData false s₁ with testASamplesNo := testAData.length }
  have htestA : (buildRows text testAData false s₁).trainSamplesNo = trainData.length :=
    congrArg Prod.fst (samplesNos_buildRows text testAData false s₁)
  have htestB : (buildRows text testBData false s₂).samplesNos =
      (trainData.length, testAData.length, s₂.testBSamplesNo) := by
    rw [samplesNos_buildRows, ← htestA]
    rfl
  show (_, _, _) = _
  rw [Prod.mk.injEq, Prod.mk.injEq]
  exact ⟨congrArg Prod.fst htestB, congrArg (fun nos => nos.2.1) htestB, rfl⟩

/-- The scores where rows and labels are those of three sets in turn. -/
theorem runConllSplit_append {accuracyScore : List ℕ → List ℕ → Option ℚ}
    (hscore : ScoresAccuracy accuracyScore) (fit : List (V × ℕ) → V → ℕ) {xs ys zs : List V}
    {ks ls ms : List ℕ} (hks : ks ≠ []) (hls : ls ≠ []) (hms : ms ≠ [])
    (hx : xs.length = ks.length) (hy : ys.length = ls.length) (hz : zs.length = ms.length) :
    runConllSplit accuracyScore fit (xs ++ ys ++ zs) (ks ++ ls ++ ms) ks.length ls.length
        ms.length =
      some {
        train := agreeingShare ks (xs.map (fit (xs.zip ks)))
        testA := agreeingShare ls (ys.map (fit (xs.zip ks)))
        testB := agreeingShare ms (zs.map (fit (xs.zip ks))) } := by
  have hfirst : slice (xs ++ ys ++ zs) 0 ks.length = xs := hx ▸ slice_first xs ys zs
  have hsecond : slice (xs ++ ys ++ zs) ks.length (ks.length + ls.length) = ys :=
    hx ▸ hy ▸ slice_second xs ys zs
  have hthird : slice (xs ++ ys ++ zs) (ks.length + ls.length)
      (ks.length + ls.length + ms.length) = zs :=
    hx ▸ hy ▸ hz ▸ slice_third xs ys zs
  simp only [runConllSplit, hfirst, hsecond, hthird, slice_first, slice_second, slice_third]
  rw [hscore ks _ hks ((List.length_map _).trans hx),
    hscore ls _ hls ((List.length_map _).trans hy),
    hscore ms _ hms ((List.length_map _).trans hz)]
  rfl

/-- **What the test scores measure**: with test sets that are not empty and no longer than the
training set, the fitted model sees the empty row for every test sample, and so predicts one
label for all of them. What it was fitted to are the rows the test sets left, with the training
labels. -/
theorem conllScores_eq {accuracyScore : List ℕ → List ℕ → Option ℚ}
    (hscore : ScoresAccuracy accuracyScore) (fit : List (V × ℕ) → V → ℕ)
    (transform : List (Option FeatureRow) → Option FeatureRow → V) (text : Text)
    (hA : testAData.length ≤ trainData.length) (hB : testBData.length ≤ trainData.length)
    (hsomeA : testAData ≠ []) (hsomeB : testBData ≠ []) :
    let encode := transform (buildFeatures text trainData testAData testBData .new).X
    let seen := (List.range trainData.length).map fun idx =>
      encode (finalRow text trainData testAData testBData idx)
    let model := fit (seen.zip (codes trainData))
    conllScores accuracyScore fit transform text trainData testAData testBData =
      some {
        train := agreeingShare (codes trainData) (seen.map model)
        testA := labelShare (model (encode none)) (codes testAData)
        testB := labelShare (model (encode none)) (codes testBData) } := by
  intro encode seen model
  have hcodes : ∀ data : List Sample, (codes data).length = data.length := fun data =>
    List.length_map _
  have hcodesNe : ∀ data : List Sample, data ≠ [] → codes data ≠ [] := fun data =>
    List.map_eq_nil_iff.not.mpr
  have htrain : trainData ≠ [] := by
    rintro rfl
    exact hsomeA (List.eq_nil_of_length_eq_zero (Nat.le_zero.mp hA))
  have hrows : preprocessFeatures transform
      (buildFeatures text trainData testAData testBData .new).X =
        seen ++ List.replicate (codes testAData).length (encode none) ++
          List.replicate (codes testBData).length (encode none) := by
    show (buildFeatures text trainData testAData testBData .new).X.map encode = _
    rw [X_buildFeatures, map_finalRow_eq_append hA hB, List.map_append, List.map_append,
      List.map_replicate, List.map_replicate, List.map_map, hcodes, hcodes]
    rfl
  have hseen : seen.length = (codes trainData).length := by
    rw [List.length_map, List.length_range, hcodes]
  obtain ⟨htrainNo, hnos⟩ := Prod.mk.inj
    (samplesNos_buildFeatures text trainData testAData testBData)
  obtain ⟨htestANo, htestBNo⟩ := Prod.mk.inj hnos
  simp only [conllScores]
  rw [htrainNo, htestANo, htestBNo, hrows, buildTargets_eq_append, ← hcodes trainData,
    ← hcodes testAData, ← hcodes testBData, runConllSplit_append hscore fit (hcodesNe _ htrain)
    (hcodesNe _ hsomeA) (hcodesNe _ hsomeB) hseen List.length_replicate List.length_replicate,
    List.map_replicate, List.map_replicate, agreeingShare_replicate, agreeingShare_replicate]

/-- The label of the first row seen that is the same, and 0 without one. -/
def sameRowLabel (seen : List (Option FeatureRow × ℕ)) (row : Option FeatureRow) : ℕ :=
  ((seen.find? fun entry => entry.1 = row).map Prod.snd).getD 0

/-- A scorer that throws for the empty list and for lists of different lengths. -/
def shareOrThrow (truth predicted : List ℕ) : Option ℚ :=
  if truth = [] ∨ predicted.length ≠ truth.length then none
  else some (agreeingShare truth predicted)

theorem scoresAccuracy_shareOrThrow : ScoresAccuracy shareOrThrow :=
  fun _ _ hsome hlength => if_neg (not_or.mpr ⟨hsome, not_not.mpr hlength⟩)

/-- All test samples get label 0. Of the first test set, whose only tag has this code too, all
count as predicted; of the second, the half that is no entity. The training set itself is not
learned: its two rows hold the second test set, and are the same. -/
theorem conllScores_persons :
    conllScores shareOrThrow sameRowLabel (fun _ row => row) letterText
      [letterSample 'a', { letterSample 'b' with tag := pyStr "PER" }]
      [{ letterSample 'c' with tag := pyStr "PER" }]
      [letterSample 'd', { letterSample 'e' with tag := pyStr "PER" }] =
        some { train := 1 / 2, testA := 1, testB := 1 / 2 } :=
  (conllScores_eq scoresAccuracy_shareOrThrow sameRowLabel (fun _ row => row) letterText
    (by decide) (by decide) (List.cons_ne_nil _ _) (List.cons_ne_nil _ _)).trans
    (by decide +kernel)

end Ner

end Unbiased
