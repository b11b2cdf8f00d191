/-
# Queries and updates

What the store answers when it is asked with a filter. A filter asks for string values. An
array meets it if one of its elements does, and a value of another type does not. Reading with
empty key and value takes the filter away; updating with them does not.
-/

import Unbiased.Store.MongoDb

namespace Unbiased

/-- A filter on the string values of a document. -/
inductive Filter where
  /-- The empty filter. -/
  | all
  | equals (key : String) (value : Bytes)
  /-- `$or` over equalities. -/
  | or (clauses : List (String × Bytes))

namespace Filter

/-- The value is this string. No other type of value is compared with it. -/
def isString (string : Bytes) : Bson → Bool
  | .utf8 value => value = string
  | _ => false

/-- The value under the key is this string, or an array with this string in it. -/
def keyEquals (doc : BsonDoc) (clause : String × Bytes) : Bool :=
  match doc.element clause.1 with
  | some (.array elems) => elems.any (isString clause.2)
  | some value => isString clause.2 value
  | none => false

def holds (doc : BsonDoc) : Filter → Bool
  | all => true
  | equals key value => keyEquals doc (key, value)
  | or clauses => clauses.any (keyEquals doc)

end Filter

namespace MongoDb

/-- Why the store rejects a filter. -/
inductive QueryError where
  /-- `$or` needs at least one clause. -/
  | emptyOr
  deriving DecidableEq

/-- The documents of a collection that meet a filter. -/
def find (db : MongoDb) (collectStr : String) (filter : Filter) :
    Except QueryError (List BsonDoc) :=
  match filter with
  | .or [] => .error .emptyOr
  | filter => .ok ((db.collections collectStr).filter filter.holds)

/-- `get_docs` with a key and a value: no filter if both are empty. -/
def getDocsWith (db : MongoDb) (collectStr key : String) (value : Bytes) :
    Except QueryError (List BsonDoc) :=
  db.find collectStr (if key = "" ∧ value = [] then .all else .equals key value)

/-- `get_fields` with a filter. -/
def getFieldsWith (db : MongoDb) (collectStr : String) (fields : List String)
    (filter : Filter) : Except QueryError (List BsonDoc) :=
  (db.find collectStr filter).map fun docs =>
    docs.map fun doc => doc.filter fun field => field.1 ∈ fields

/-- `$set` of one field: it takes the place of a field of that name, and is put last
if there is none. -/
def setField (doc : BsonDoc) (field : String × Bson) : BsonDoc :=
  if doc.any (fun old => old.1 = field.1) then
    doc.map fun old => if old.1 = field.1 then field else old
  else doc ++ [field]

/-- Set the fields of the first document that a condition holds of. -/
def updateFirst (condition : BsonDoc → Bool) (fields : BsonDoc) : List BsonDoc → List BsonDoc
  | [] => []
  | doc :: docs =>
    if condition doc then fields.foldl setField doc :: docs
    else doc :: updateFirst condition fields docs

/-- `update_doc`. The filter is an equality, whatever the key and the value are, and an
update that no document meets is no error. -/
def updateDoc (db : MongoDb) (collectStr : String) (doc : BsonDoc) (key : String)
    (value : Bytes) : MongoDb :=
  let docs := updateFirst (Filter.equals key value).holds doc (db.collections collectStr)
  { db with collections := Function.update db.collections collectStr docs }

/-- Reading with the default key and value is reading everything. -/
theorem getDocsWith_default (db : MongoDb) (collectStr : String) :
    db.getDocsWith collectStr "" [] = .ok (db.getDocs collectStr) := by
  rw [getDocsWith, if_pos ⟨rfl, rfl⟩]
  exact congrArg Except.ok (List.filter_true _)

/-- Where no document meets the condition, nothing is set. -/
theorem updateFirst_of_forall_false {condition : BsonDoc → Bool} {docs : List BsonDoc}
    (h : ∀ doc ∈ docs, condition doc = false) (fields : BsonDoc) :
    updateFirst condition fields docs = docs := by
  induction docs with
  | nil => rfl
  | cons doc docs ih =>
      have hdoc := h doc List.mem_cons_self
      have hdocs : ∀ doc ∈ docs, condition doc = false := fun other hother =>
        h other (List.mem_cons_of_mem doc hother)
      rw [updateFirst, if_neg (by rw [hdoc]; exact Bool.false_ne_true), ih hdocs]

end MongoDb

end Unbiased
