/-
# BSON documents

A document is a list of named values. Values are read through typed getters,
and a getter throws when the element is missing or has another type. The loops
that decode an array element by element are stated once, with the getter as an
argument.
-/

import Mathlib.Data.Rat.Floor
import Mathlib.Data.List.Basic
import Unbiased.Common.Values

namespace Unbiased

/-- The twelve bytes of an object id. -/
abbrev ObjectId := Fin 12 → Fin 256

namespace ObjectId

/-- A lower-case hexadecimal digit. -/
def hexDigit (value : Fin 16) : Fin 256 :=
  if value.val < 10 then Fin.ofNat 256 (48 + value.val) else Fin.ofNat 256 (87 + value.val)

/-- The two digits of a byte. -/
def hexByte (byte : Fin 256) : Bytes :=
  [hexDigit (Fin.ofNat 16 (byte.val / 16)), hexDigit (Fin.ofNat 16 byte.val)]

/-- The 24 hexadecimal digits of an object id. -/
def toString (oid : ObjectId) : Bytes := (List.ofFn oid).flatMap hexByte

end ObjectId

/-- The types of BSON values that the engine writes or reads. -/
inductive BsonType where
  | double
  | utf8
  | document
  | array
  | oid
  | int32
  | int64
  deriving DecidableEq

/-- A BSON value. A double is given by the number it stands for. -/
inductive Bson where
  | double (value : ℚ)
  | utf8 (value : Bytes)
  | document (fields : List (String × Bson))
  | array (elems : List Bson)
  | oid (value : ObjectId)
  | int32 (value : Int32)
  | int64 (value : Int64)

/-- A BSON document: its fields in order. -/
abbrev BsonDoc := List (String × Bson)

/-- Why reading a document stops. -/
inductive BsonError where
  /-- The element asked for is not there. -/
  | unsetElement
  /-- The element has another type than the getter needs. -/
  | needElementType (type : BsonType)
  /-- A write past the end of a signature, which has no defined effect. -/
  | outOfBounds
  deriving DecidableEq

/-- A step that succeeds hands its value on. -/
@[simp]
theorem ok_bind {α β : Type} (value : α) (next : α → Except BsonError β) :
    (Except.ok value >>= next) = next value := rfl

/-- A step that throws ends the computation. -/
@[simp]
theorem error_bind {α β : Type} (error : BsonError) (next : α → Except BsonError β) :
    ((Except.error error : Except BsonError α) >>= next) = .error error := rfl

/-- A typed getter: the part of a value it wants, and the type it asks for. -/
def Bson.get {α : Type} (type : BsonType) (read : Bson → Option α) :
    Option Bson → Except BsonError α
  | none => .error .unsetElement
  | some value =>
    match read value with
    | some content => .ok content
    | none => .error (.needElementType type)

namespace Bson

def getDouble : Option Bson → Except BsonError ℚ :=
  get .double fun | double value => some value | _ => none

def getUtf8 : Option Bson → Except BsonError Bytes :=
  get .utf8 fun | utf8 value => some value | _ => none

def getArray : Option Bson → Except BsonError (List Bson) :=
  get .array fun | array elems => some elems | _ => none

def getOid : Option Bson → Except BsonError ObjectId :=
  get .oid fun | oid value => some value | _ => none

def getInt64 : Option Bson → Except BsonError Int64 :=
  get .int64 fun | int64 value => some value | _ => none

@[simp] theorem getUtf8_utf8 (value : Bytes) : getUtf8 (some (utf8 value)) = .ok value := rfl

@[simp] theorem getArray_array (elems : List Bson) :
    getArray (some (array elems)) = .ok elems := rfl

@[simp] theorem getOid_oid (value : ObjectId) : getOid (some (oid value)) = .ok value := rfl

@[simp] theorem getInt64_int64 (value : Int64) : getInt64 (some (int64 value)) = .ok value := rfl

end Bson

/-- The element of a document under a key. -/
def BsonDoc.element (doc : BsonDoc) (key : String) : Option Bson := doc.lookup key

/-! ## Reading arrays -/

/-- Read the elements of an array one by one and append them to a vector. -/
def pushBackAll {α : Type} (read : Bson → Except BsonError α) (vector : List α)
    (elems : List Bson) : Except BsonError (List α) :=
  elems.foldlM (fun vector elem => (read elem).map fun value => vector ++ [value]) vector

/-- Elements that read back as what was written are all appended. -/
theorem pushBackAll_map {α : Type} {read : Bson → Except BsonError α} (write : α → Bson)
    (h : ∀ value, read (write value) = .ok value) (vector values : List α) :
    pushBackAll read vector (values.map write) = .ok (vector ++ values) := by
  induction values generalizing vector with
  | nil =>
      rw [List.append_nil]
      rfl
  | cons value values ih =>
      have hrest := ih (vector ++ [value])
      rw [List.append_assoc] at hrest
      rw [pushBackAll, List.map_cons, List.foldlM_cons, h]
      exact hrest

/-- An element that cannot be read stops the loop. -/
theorem pushBackAll_error {α : Type} {read : Bson → Except BsonError α} {elem : Bson}
    {error : BsonError} (h : read elem = .error error) (vector : List α) (rest : List Bson) :
    pushBackAll read vector (elem :: rest) = .error error := by
  rw [pushBackAll, List.foldlM_cons, h]
  rfl

end Unbiased
