import Neb2Amqp.Jansson.Utf8
import Neb2Amqp.Library.Pairs

/-!
# JSON objects of the bundled jansson

`hashtable.c`. One list links all pairs of an object, and the pairs of a bucket
are neighbours in it; that list is the order in which an object is written out.
-/

namespace Neb2Amqp

open CLib

/-- The values the module builds. Reals are given by their bits, and the only
arrays are arrays of strings. -/
inductive JsonValue
  | string (s : CString)
  | integer (n : Int)
  | real (value : UInt64)
  | boolean (b : Bool)
  | strings (items : List CString)
  deriving DecidableEq

abbrev JsonPair := CString × JsonValue

/-- `char` is signed. -/
def hashStr (key : CString) : UInt64 :=
  key.bytes.foldl (fun hash c => (hash <<< 5) + hash + c.toInt8.toInt64.toUInt64) 5381

def primes : List Nat :=
  [5, 13, 23, 53, 97, 193, 389, 769, 1543, 3079, 6151, 12289, 24593, 49157, 98317, 196613,
    393241, 786433, 1572869, 3145739, 6291469, 12582917, 25165843, 50331653, 100663319,
    201326611, 402653189, 805306457, 1610612741]

/-- `num_buckets` of a table whose field of that name is `order`. -/
def numBuckets (order : Nat) : Nat := primes.getD order 1610612741

def bucketOf (order : Nat) (key : CString) : Nat := (hashStr key).toNat % numBuckets order

/-- Before the first pair of its bucket, or at the end if the bucket is empty. -/
def insertToBucket (order : Nat) (pair : JsonPair) : List JsonPair → List JsonPair
  | [] => [pair]
  | first :: rest =>
      if bucketOf order first.1 = bucketOf order pair.1 then pair :: first :: rest
      else first :: insertToBucket order pair rest

theorem insertToBucket_perm (order : Nat) (pair : JsonPair) (pairs : List JsonPair) :
    (insertToBucket order pair pairs).Perm (pair :: pairs) := by
  induction pairs with
  | nil => exact .refl _
  | cons first rest ih =>
      unfold insertToBucket
      split
      · exact .refl _
      · exact (ih.cons first).trans (.swap pair first rest)

/-- The pairs of a table re-entered one by one. -/
def rehashed (order : Nat) (pairs : List JsonPair) : List JsonPair :=
  pairs.foldl (fun entered pair => insertToBucket order pair entered) []

theorem rehashed_perm (order : Nat) (pairs : List JsonPair) :
    (rehashed order pairs).Perm pairs := by
  have hall : ∀ (pairs entered : List JsonPair),
      (pairs.foldl (fun entered pair => insertToBucket order pair entered) entered).Perm
        (pairs ++ entered) := by
    intro pairs
    induction pairs with
    | nil => exact fun entered => .refl entered
    | cons pair pairs ih =>
        intro entered
        have hnow := (insertToBucket_perm order pair entered).append_left pairs
        exact ((ih _).trans hnow).trans List.perm_middle
  simpa [rehashed] using hall pairs []

/-! ## Objects -/

/-- An object: its pairs in order, and the index of its number of buckets. -/
structure JsonObject where
  pairs : List JsonPair
  order : Nat
  nodup : (keysOf pairs).Nodup

def jsonObject : JsonObject := ⟨[], 0, List.nodup_nil⟩

namespace JsonObject

def keys (o : JsonObject) : List CString := keysOf o.pairs

/-- `hashtable_do_rehash`. -/
def rehash (o : JsonObject) : JsonObject where
  pairs := rehashed (o.order + 1) o.pairs
  order := o.order + 1
  nodup := (((rehashed_perm _ o.pairs).map Prod.fst).nodup_iff).mpr o.nodup

/-- `hashtable_set` once the table is large enough. -/
def enter (o : JsonObject) (key : CString) (value : JsonValue) : JsonObject :=
  if h : key ∈ o.keys then
    ⟨replaceValue key value o.pairs, o.order, (keysOf_replaceValue key value o.pairs).symm ▸ o.nodup⟩
  else
    ⟨insertToBucket o.order (key, value) o.pairs, o.order,
      (((insertToBucket_perm o.order (key, value) o.pairs).map Prod.fst).nodup_iff).mpr
        (List.nodup_cons.mpr ⟨h, o.nodup⟩)⟩

end JsonObject

def hashtableSet (o : JsonObject) (key : CString) (value : JsonValue) : JsonObject :=
  (if o.pairs.length ≥ numBuckets o.order then o.rehash else o).enter key value

/-- A NULL value or an improper key leaves the object as it is. -/
def jsonObjectSet (o : JsonObject) (key : CString) (value : Option JsonValue) : JsonObject :=
  match value with
  | none => o
  | some value => if utf8CheckString key then hashtableSet o key value else o

def jsonObjectDel (o : JsonObject) (key : CString) : JsonObject where
  pairs := without key o.pairs
  order := o.order
  nodup := keysOf_without_nodup o.nodup

def jsonObjectGet (o : JsonObject) (key : CString) : Option JsonValue :=
  (o.pairs.find? fun p => p.1 = key).map Prod.snd

/-- `json_string_value`. -/
def jsonStringValue : JsonValue → Option CString
  | .string s => some s
  | _ => none

theorem jsonObjectGet_eq_some {o : JsonObject} {key : CString} {value : JsonValue}
    (h : (key, value) ∈ o.pairs) : jsonObjectGet o key = some value := by
  unfold jsonObjectGet
  cases hfind : o.pairs.find? fun p => p.1 = key with
  | none =>
      have hnot := List.find?_eq_none.mp hfind _ h
      exact absurd (decide_eq_true rfl) hnot
  | some p =>
      have hkey : p.1 = key := by simpa using List.find?_some hfind
      have hmem : (key, p.2) ∈ o.pairs := hkey ▸ List.mem_of_find?_eq_some hfind
      exact congrArg some (value_unique o.nodup hmem h)

theorem jsonObjectGet_eq_none {o : JsonObject} {key : CString} (h : key ∉ o.keys) :
    jsonObjectGet o key = none := by
  rw [jsonObjectGet, List.find?_eq_none.mpr, Option.map_none]
  intro p hp hkey
  exact h (of_decide_eq_true hkey ▸ List.mem_map_of_mem hp)

theorem jsonObjectGet_isSome_iff {o : JsonObject} {key : CString} :
    (jsonObjectGet o key).isSome ↔ key ∈ o.keys := by
  by_cases hkey : key ∈ o.keys
  · obtain ⟨p, hp, rfl⟩ := mem_keysOf.mp hkey
    rw [jsonObjectGet_eq_some hp]
    exact iff_of_true rfl hkey
  · rw [jsonObjectGet_eq_none hkey]
    exact iff_of_false Bool.false_ne_true hkey

/-! ## What an object holds after an update -/

theorem hashtableSet_perm (o : JsonObject) (key : CString) (value : JsonValue) :
    (hashtableSet o key value).pairs.Perm ((key, value) :: without key o.pairs) := by
  have henter : ∀ o : JsonObject,
      (o.enter key value).pairs.Perm ((key, value) :: without key o.pairs) := by
    intro o
    unfold JsonObject.enter
    split
    · rename_i hmem
      exact replaceValue_perm value o.nodup hmem
    · rename_i hmem
      rw [without_of_not_mem hmem]
      exact insertToBucket_perm o.order (key, value) o.pairs
  unfold hashtableSet
  split
  · exact (henter o.rehash).trans (((rehashed_perm _ o.pairs).filter _).cons _)
  · exact henter o

theorem jsonObjectSet_perm {key : CString} (hproper : utf8CheckString key = true) (o : JsonObject)
    (value : JsonValue) :
    (jsonObjectSet o key (some value)).pairs.Perm ((key, value) :: without key o.pairs) := by
  have hset : jsonObjectSet o key (some value) = hashtableSet o key value := if_pos hproper
  rw [hset]
  exact hashtableSet_perm o key value

/-- Removing the old pair first changes nothing but the order. -/
theorem jsonObjectSet_del_perm {key : CString} (hproper : utf8CheckString key = true)
    (o : JsonObject) (value : JsonValue) :
    (jsonObjectSet (jsonObjectDel o key) key (some value)).pairs.Perm
      ((key, value) :: without key o.pairs) := by
  have hset := jsonObjectSet_perm hproper (jsonObjectDel o key) value
  rwa [jsonObjectDel, without_without] at hset

end Neb2Amqp
