/-
# Counting documents

The store can be asked for the documents of a collection and for their number. The
documents are those of the collection that was asked for. The number is that of one
collection whose name is written out in the query, whichever was asked for.
-/

import Unbiased.Store.Queries

namespace Unbiased

namespace MongoDb

/-- The number of documents of the collection called `collect_str`. The name that is
given is not looked at. -/
def getDocsNo (db : MongoDb) (_collectStr : String) : ℕ :=
  (db.collections "collect_str").length

end MongoDb

/-- The calls that put documents into collections and take them away. -/
inductive StoreCall where
  | saveDoc (collectStr : String) (doc : BsonDoc)
  | dropCollection (collectStr : String)

namespace StoreCall

def apply (newOid : ℕ → ObjectId) (db : MongoDb) : StoreCall → MongoDb
  | .saveDoc collectStr doc => (db.saveDoc newOid collectStr doc).2
  | .dropCollection collectStr => db.dropCollection collectStr

def isSaveOn (collectStr : String) : StoreCall → Bool
  | .saveDoc other _ => other = collectStr
  | .dropCollection _ => false

def isDropOf (collectStr : String) : StoreCall → Bool
  | .saveDoc _ _ => false
  | .dropCollection other => other = collectStr

end StoreCall

/-- A database without documents, after some calls. -/
def storeAfter (newOid : ℕ → ObjectId) (calls : List StoreCall) : MongoDb :=
  calls.foldl (StoreCall.apply newOid) ⟨fun _ => [], 0⟩

/-- The number of saves on a collection since it was dropped last, or since the start
if it never was. -/
def savesSinceDrop (collectStr : String) (calls : List StoreCall) : ℕ :=
  (calls.reverse.takeWhile fun call => !call.isDropOf collectStr).countP fun call =>
    call.isSaveOn collectStr

/-- Listing a collection succeeds, and it has as many documents as are counted, which is
as many as were saved since the last drop. -/
def DocsCounted (db : MongoDb) (calls : List StoreCall) (collectStr : String) : Prop :=
  ∃ docs, db.getDocsWith collectStr "" [] = .ok docs ∧
    db.getDocsNo collectStr = docs.length ∧ docs.length = savesSinceDrop collectStr calls

/-! ## What is listed -/

@[simp]
theorem collections_dropCollection (db : MongoDb) (collectStr : String) :
    (db.dropCollection collectStr).collections =
      Function.update db.collections collectStr [] := rfl

section Listed

variable (newOid : ℕ → ObjectId) (collectStr : String) (calls : List StoreCall)

theorem storeAfter_concat (call : StoreCall) :
    storeAfter newOid (calls ++ [call]) = call.apply newOid (storeAfter newOid calls) := by
  rw [storeAfter, List.foldl_append]
  rfl

/-- One more save counts if it is on the collection. -/
theorem savesSinceDrop_concat_saveDoc (other : String) (doc : BsonDoc) :
    savesSinceDrop collectStr (calls ++ [.saveDoc other doc]) =
      savesSinceDrop collectStr calls + if other = collectStr then 1 else 0 := by
  simp [savesSinceDrop, StoreCall.isDropOf, StoreCall.isSaveOn, List.countP_cons]

/-- A drop of the collection starts the count again. -/
theorem savesSinceDrop_concat_dropCollection (other : String) :
    savesSinceDrop collectStr (calls ++ [.dropCollection other]) =
      if other = collectStr then 0 else savesSinceDrop collectStr calls := by
  by_cases h : other = collectStr
  · simp [savesSinceDrop, StoreCall.isDropOf, h]
  · simp [savesSinceDrop, StoreCall.isDropOf, StoreCall.isSaveOn, h]

/-- A call changes the number of documents of a collection as it changes the count. -/
theorem length_collections_apply {db : MongoDb}
    (h : (db.collections collectStr).length = savesSinceDrop collectStr calls)
    (call : StoreCall) :
    ((call.apply newOid db).collections collectStr).length =
      savesSinceDrop collectStr (calls ++ [call]) := by
  cases call with
  | saveDoc other doc =>
      rw [savesSinceDrop_concat_saveDoc, ← h, StoreCall.apply, collections_saveDoc]
      by_cases hother : other = collectStr
      · rw [hother, Function.update_self, List.length_append, if_pos rfl, List.length_singleton]
      · rw [Function.update_of_ne (Ne.symm hother), if_neg hother, Nat.add_zero]
  | dropCollection other =>
      rw [savesSinceDrop_concat_dropCollection, ← h, StoreCall.apply, collections_dropCollection]
      by_cases hother : other = collectStr
      · rw [hother, Function.update_self, if_pos rfl, List.length_nil]
      · rw [Function.update_of_ne (Ne.symm hother), if_neg hother]

/-- After any calls a collection holds the documents saved since its last drop. -/
theorem length_collections_storeAfter :
    ((storeAfter newOid calls).collections collectStr).length =
      savesSinceDrop collectStr calls := by
  induction calls using List.reverseRecOn with
  | nil => rfl
  | append_singleton calls call ih =>
      rw [storeAfter_concat]
      exact length_collections_apply newOid collectStr calls ih call

/-- **What is counted.** A collection is counted right exactly if as many documents were
saved in it since its last drop as in the one that is always counted. -/
theorem docsCounted_iff :
    DocsCounted (storeAfter newOid calls) calls collectStr ↔
      savesSinceDrop collectStr calls = savesSinceDrop "collect_str" calls := by
  have hlisted := length_collections_storeAfter newOid collectStr calls
  have hcounted : (storeAfter newOid calls).getDocsNo collectStr =
      savesSinceDrop "collect_str" calls :=
    length_collections_storeAfter newOid "collect_str" calls
  constructor
  · rintro ⟨docs, -, hno, hlength⟩
    rw [← hlength, ← hno, hcounted]
  · intro hsame
    refine ⟨_, MongoDb.getDocsWith_default _ _, ?_, hlisted⟩
    rw [hcounted, ← hsame]
    exact hlisted.symm

end Listed

/-- An article that was saved is listed and not counted. -/
theorem not_docsCounted_of_articles :
    ¬ ∀ (newOid : ℕ → ObjectId) (calls : List StoreCall) (collectStr : String),
      DocsCounted (storeAfter newOid calls) calls collectStr := by
  intro hall
  rcases hall (fun _ _ => 0) [.saveDoc "articles" [("url", .utf8 [97])]] "articles" with
    ⟨docs, -, hno, hlength⟩
  have hcounted := hno.trans hlength
  exact absurd hcounted (by decide)

end Unbiased
