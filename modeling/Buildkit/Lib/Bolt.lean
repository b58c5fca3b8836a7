import Mathlib

/-!
# Buckets of a bbolt database

A bbolt bucket maps byte-string keys to values or to nested buckets. A model keeps one level of
nesting per use: a bucket of values of type `β` is an association list, and a bucket of buckets
is a bucket whose values are buckets. The calls used here and the errors they report:

* `Put` refuses the empty key (`key required`); `Delete` of a missing key does nothing;
* `CreateBucketIfNotExists` refuses the empty name (`bucket name required`) and returns the
  nested bucket, which the caller writes back once it has changed it;
* `DeleteBucket` of a missing bucket fails (`bucket not found`).

Key and value size limits, and keys holding a value where a bucket is expected, are left out.

A transaction body is a `Tx`: it fails with a message, or, in models of recursions the source
does not bound, runs out of fuel (`none`). An `Update` whose body fails changes nothing.
-/

namespace Bolt

/-- A bucket of keys with values of type `β`. -/
abbrev Bucket (β : Type) := AList (fun _ : String => β)

/-- The body of a transaction. -/
abbrev Tx := ExceptT String Option

variable {β : Type}

/-- `Bucket.Put`. -/
def put (b : Bucket β) (key : String) (v : β) : Except String (Bucket β) :=
  if key = "" then .error "key required" else .ok (b.insert key v)

/-- `Bucket.CreateBucketIfNotExists`: the nested bucket `name`, empty if it is new. -/
def createBucketIfNotExists (b : Bucket (Bucket β)) (name : String) : Except String (Bucket β) :=
  if name = "" then .error "bucket name required" else .ok ((b.lookup name).getD ∅)

/-- `Bucket.DeleteBucket`. -/
def deleteBucket (b : Bucket (Bucket β)) (name : String) : Except String (Bucket (Bucket β)) :=
  match b.lookup name with
  | some _ => .ok (b.erase name)
  | none => .error "bucket not found"

/-- `isEmptyBucket`: a missing bucket counts as empty. -/
def isEmptyBucket : Option (Bucket β) → Bool
  | some b => b.entries.isEmpty
  | none => true

/-- Running out of fuel. -/
def outOfFuel {α : Type} : Tx α := ExceptT.lift none

@[simp] theorem put_of_ne {b : Bucket β} {key : String} (v : β) (h : key ≠ "") :
    put b key v = .ok (b.insert key v) := by
  simp [put, h]

@[simp] theorem createBucketIfNotExists_of_ne {b : Bucket (Bucket β)} {name : String}
    (h : name ≠ "") : createBucketIfNotExists b name = .ok ((b.lookup name).getD ∅) := by
  simp [createBucketIfNotExists, h]

@[simp] theorem lookup_singleton {k k' : String} {v : β} :
    (AList.singleton k v : Bucket β).lookup k' = if k' = k then some v else none := by
  by_cases h : k' = k
  · subst h
    simp [AList.singleton, AList.lookup]
  · simp [AList.singleton, AList.lookup, h]

@[simp] theorem erase_singleton {k : String} {v : β} :
    (AList.singleton k v : Bucket β).erase k = ∅ := by
  ext : 1
  simp [AList.singleton, AList.erase]

/-! Running a transaction body step by step. -/

@[simp] theorem ok_bind {ε α γ : Type} (a : α) (f : α → Except ε γ) :
    (Except.ok a >>= f) = f a := rfl

@[simp] theorem toOption_ok {ε α : Type} (a : α) : (Except.ok a : Except ε α).toOption = some a :=
  rfl

@[simp] theorem lift_ok {α : Type} (a : α) :
    (monadLift (Except.ok a : Except String α) : Tx α) = pure a := rfl

end Bolt
