import Buildkit.Lib.Bolt
import Buildkit.Lib.Cursor
import Buildkit.Lib.Loop
import Buildkit.Lib.Strings
import Mathlib.Data.Char

/-!
# The metadata store and its index

`Store` of `cache/metadata/metadata.go` keeps a bucket of values for each item, under `_main`.
A value may name an index: `SetValue` then files the item under it in `_index`, with the key
`index + "::" + id`. `Search` and `Probe` read `_index` with a cursor from `index + "::"` on.
`Clear` takes out the index keys of the indexes the item's values have, then the item.

An item is filed under every index its values have (`Filed`), and every call keeps that, as long
as no index name has a colon in it: `Search` then finds every item that holds a value with the
index (`holders_subset_search`). But
`SetValue` never takes an index key out. A value overwritten with another index, or with nil,
leaves the item filed under the old index. So `Search` returns items that no longer hold that
index, and once such an item is cleared, `Probe` still finds the index
(`search_returns_non_holder`). An index name with `::` in it also files its items under a
shorter index.

Representation. The store's values are `Value`s, as the JSON round trip gives them back; a value
put as nil is stored empty. The `_external` bucket, and the values an item keeps in memory, are
left out: `Search` and `Clear` read an item from its bucket.
-/

namespace Buildkit

namespace Metadata

open Bolt

/-- `Value`: the JSON of a value, and the index it is filed under (`""` for none). -/
structure Value where
  value : String
  index : String
  deriving DecidableEq, Repr

/-- The buckets `_main`, with a bucket of values for each item, and `_index`, each absent until
it is made. A value put as nil is stored empty, as `none`. -/
structure DB where
  main : Option (Bucket (Bucket (Option Value)))
  index : Option (Bucket Unit)

/-- A store with nothing in it. -/
def DB.empty : DB := ⟨none, none⟩

/-- `indexKey`. -/
def indexKey (index target : String) : String := index ++ "::" ++ target

/-- What a transaction of `Update` writes: the item's bucket, and `_index`. -/
structure Writes where
  item : Bucket (Option Value)
  index : Option (Bucket Unit)

/-- `StorageItem.SetValue` of the item `id`: the value is stored under `key`, empty for nil, and a
value with an index files the item under it. -/
def setValue (id : String) (w : Writes) (key : String) : Option Value → Except String Writes
  | none => do
    let item ← put w.item key none
    return { w with item }
  | some v => do
    let item ← put w.item key (some v)
    if v.index ≠ "" then
      -- `CreateBucketIfNotExists(indexBucket)`, then the key of the item under the index
      let index ← put (w.index.getD ∅) (indexKey v.index id) ()
      return { item, index := some index }
    else return { w with item }

/-- `Store.Update` of the item `id`, with a function that calls `SetValue` for each key and value
in turn. A failure rolls the transaction back. -/
def update (db : DB) (id : String) (sets : List (String × Option Value)) : Except String DB := do
  let main := db.main.getD ∅
  let item ← createBucketIfNotExists main id
  let w ← sets.foldlM (fun w kv => setValue id w kv.1 kv.2) ⟨item, db.index⟩
  return ⟨some (main.insert id w.item), w.index⟩

/-- `StorageItem.Indexes` of an item read from its bucket: the indexes of its values. -/
def indexes (b : Bucket (Option Value)) : List String :=
  b.entries.filterMap fun e => e.2.bind fun v => if v.index ≠ "" then some v.index else none

/-- `Store.Clear`: the index keys of the indexes the item's values have, then the item. -/
def clear (db : DB) (id : String) : Except String DB :=
  match db.main with
  | none => .ok db
  | some main =>
    match main.lookup id with
    | none => .ok db
    | some b =>
      let index := db.index.map fun idx =>
        (indexes b).foldl (fun idx i => idx.erase (indexKey i id)) idx
      do
        let main ← deleteBucket main id
        return ⟨some main, index⟩

/-- The keys of `_index` in the order bbolt keeps them, by their bytes. For UTF-8 that is the
order of their characters. -/
def sortedKeys (idx : Bucket Unit) : List (List Char) :=
  (idx.keys.map String.toList).insertionSort (· ≤ ·)

/-- `Store.Search`: the IDs of the items it returns. They come from the index keys that start
with `index + "::"`, for the items whose bucket is there; the others are logged and skipped. -/
def search (db : DB) (x : String) : List String :=
  match db.index, db.main with
  | some idx, some main =>
    let p := (indexKey x "").toList
    (Cursor.scan p (Cursor.seek p (sortedKeys idx))).filterMap fun k =>
      let itemID := String.ofList (k.drop p.length)
      if (main.lookup itemID).isSome then some itemID else none
  | _, _ => []

/-- `Store.Probe`: the first index key from `index + "::"` on starts with it. -/
def probe (db : DB) (x : String) : Bool :=
  match db.index, db.main with
  | some idx, some _ =>
    let p := (indexKey x "").toList
    match Cursor.seek p (sortedKeys idx) with
    | k :: _ => p.isPrefixOf k
    | [] => false
  | _, _ => false

/-- The items that hold a value filed under `x`. -/
def holders (db : DB) (x : String) : List String :=
  match db.main with
  | some main => (main.entries.filter fun e => x ∈ indexes e.2).map (·.1)
  | none => []

/-- The calls that change the store. -/
inductive Op
  | update (id : String) (sets : List (String × Option Value))
  | clear (id : String)

/-- One call; one that fails leaves the store as it was. -/
def apply (db : DB) (op : Op) : DB :=
  let r := match op with
    | .update id sets => update db id sets
    | .clear id => clear db id
  match r with
  | .ok db' => db'
  | .error _ => db

/-- A sequence of calls. -/
def run (db : DB) (ops : List Op) : DB := ops.foldl apply db

/-! ### What `Search` reads -/

/-- The characters of `indexKey x id`: the prefix `Search` seeks to, then the ID. -/
theorem toList_indexKey (x id : String) :
    (indexKey x id).toList = (indexKey x "").toList ++ id.toList := by
  simp [indexKey]

/-- A key that starts with `x + "::"` is the index key of what follows it. -/
theorem eq_indexKey_of_isPrefixOf {x : String} {k : List Char}
    (h : (indexKey x "").toList.isPrefixOf k) :
    k = (indexKey x (String.ofList (k.drop (indexKey x "").toList.length))).toList := by
  rw [toList_indexKey, String.toList_ofList]
  exact (List.prefix_iff_eq_append.mp (List.isPrefixOf_iff_prefix.mp h)).symm

theorem mem_sortedKeys {idx : Bucket Unit} {k : List Char} :
    k ∈ sortedKeys idx ↔ ∃ s ∈ idx, s.toList = k := by
  simp [sortedKeys, (List.perm_insertionSort _ _).mem_iff, AList.mem_keys]

/-- The keys the cursor reads are the sorted keys with the prefix (`Cursor.scan_seek_eq_filter`). -/
theorem scan_seek_sortedKeys (idx : Bucket Unit) (p : List Char) :
    Cursor.scan p (Cursor.seek p (sortedKeys idx)) = (sortedKeys idx).filter (p.isPrefixOf ·) :=
  Cursor.scan_seek_eq_filter p (List.pairwise_insertionSort _ _)

/-- `Search` returns the IDs filed under `x` whose item is there. -/
theorem mem_search {db : DB} {x id : String} :
    id ∈ search db x ↔ ∃ idx main, db.index = some idx ∧ db.main = some main ∧
      indexKey x id ∈ idx ∧ id ∈ main := by
  rcases db with ⟨_ | main, _ | idx⟩
  case some.some =>
    simp only [search, scan_seek_sortedKeys, List.mem_filterMap, List.mem_filter]
    constructor
    · rintro ⟨k, ⟨hk, hpk⟩, hid⟩
      obtain ⟨s, hs, rfl⟩ := mem_sortedKeys.mp hk
      simp only [Option.ite_none_right_eq_some, Option.some.injEq] at hid
      obtain ⟨hmem, rfl⟩ := hid
      refine ⟨idx, main, rfl, rfl, ?_, AList.lookup_isSome.mp hmem⟩
      rwa [← String.toList_inj.mp (eq_indexKey_of_isPrefixOf hpk)]
    · rintro ⟨_, _, ⟨⟩, ⟨⟩, hidx, hmain⟩
      refine ⟨(indexKey x id).toList, ⟨mem_sortedKeys.mpr ⟨_, hidx, rfl⟩, ?_⟩, ?_⟩
      · rw [toList_indexKey x id, List.isPrefixOf_iff_prefix]
        exact List.prefix_append _ _
      · rw [toList_indexKey x id, List.drop_left, String.ofList_toList]
        simp [AList.lookup_isSome.mpr hmain]
  all_goals simp [search]

/-! ### Which items hold an index -/

/-- The indexes of an item are those of the values it holds that have one. -/
theorem mem_indexes {b : Bucket (Option Value)} {i : String} :
    i ∈ indexes b ↔ ∃ key v, b.lookup key = some (some v) ∧ v.index = i ∧ i ≠ "" := by
  simp only [indexes, List.mem_filterMap, Option.bind_eq_some_iff, Option.ite_none_right_eq_some,
    Option.some.injEq]
  constructor
  · rintro ⟨⟨key, _⟩, he, v, rfl, hv, rfl⟩
    exact ⟨key, v, AList.mem_lookup_iff.mpr he, rfl, hv⟩
  · rintro ⟨key, v, hl, rfl, hv⟩
    exact ⟨⟨key, some v⟩, AList.mem_lookup_iff.mp hl, v, rfl, hv, rfl⟩

/-- A value put under `key` brings at most its own index. -/
theorem mem_indexes_insert {b : Bucket (Option Value)} {key i : String} {o : Option Value}
    (h : i ∈ indexes (b.insert key o)) :
    (∃ v, o = some v ∧ v.index = i ∧ i ≠ "") ∨ i ∈ indexes b := by
  obtain ⟨key', v, hl, hi, hne⟩ := mem_indexes.mp h
  by_cases hk : key' = key
  · subst hk
    rw [AList.lookup_insert, Option.some.injEq] at hl
    exact .inl ⟨v, hl, hi, hne⟩
  · rw [AList.lookup_insert_ne hk] at hl
    exact .inr (mem_indexes.mpr ⟨key', v, hl, hi, hne⟩)

/-- `holders` returns the items that hold a value with the index. -/
theorem mem_holders {db : DB} {x id : String} :
    id ∈ holders db x ↔
      ∃ main b, db.main = some main ∧ main.lookup id = some b ∧ x ∈ indexes b := by
  rcases db with ⟨_ | main, index⟩
  · simp [holders]
  · simp only [holders, List.mem_map, List.mem_filter, decide_eq_true_eq]
    constructor
    · rintro ⟨⟨_, b⟩, ⟨he, hx⟩, rfl⟩
      exact ⟨main, b, rfl, AList.mem_lookup_iff.mpr he, hx⟩
    · rintro ⟨_, b, ⟨⟩, hl, hx⟩
      exact ⟨⟨id, b⟩, ⟨AList.mem_lookup_iff.mp hl, hx⟩, rfl⟩

/-! ### The index files every holder, for index names without a colon -/

/-- An index name with no colon in it, which `indexKey` keeps apart from the ID after it. -/
def Plain (i : String) : Prop := ':' ∉ i.toList

instance : DecidablePred Plain := fun i => inferInstanceAs (Decidable (':' ∉ i.toList))

/-- The indexes of the values a call sets. -/
def Op.indexes : Op → List String
  | .update _ sets => sets.filterMap fun kv => kv.2.map (·.index)
  | .clear _ => []

/-- The index keys of plain indexes are told apart by their index and their ID: the first colon
of the key is where the index ends. -/
theorem indexKey_inj {i i' id id' : String} (hi : Plain i) (hi' : Plain i')
    (h : indexKey i id = indexKey i' id') : i = i' ∧ id = id' := by
  have hcut : ∀ {j t : String}, Plain j →
      Strings.cutChars [':'] (indexKey j t).toList = some (j.toList, ':' :: t.toList) := by
    intro j t hj
    have : (indexKey j t).toList = j.toList ++ ':' :: ':' :: t.toList := by simp [indexKey]
    rw [this]
    exact Strings.cutChars_append_of_not_mem _ hj
  have h₁ := hcut (t := id) hi
  rw [h, hcut hi', Option.some.injEq, Prod.mk.injEq, List.cons.injEq] at h₁
  exact ⟨String.toList_inj.mp h₁.1.symm, String.toList_inj.mp h₁.2.2.symm⟩

/-- The item `id` with the values `b` is filed under each of their indexes, all of them plain. -/
def FiledItem (index : Option (Bucket Unit)) (id : String) (b : Bucket (Option Value)) : Prop :=
  ∀ i ∈ indexes b, Plain i ∧ indexKey i id ∈ index.getD ∅

/-- Every item of the store is filed under the indexes of its values. -/
structure Filed (db : DB) : Prop where
  filed : ∀ id b, (db.main.getD ∅).lookup id = some b → FiledItem db.index id b

/-- An index that only gains keys files what it filed. -/
theorem FiledItem.mono {index index' : Option (Bucket Unit)} {id : String}
    {b : Bucket (Option Value)}
    (hb : FiledItem index id b) (hsub : ∀ k ∈ index.getD ∅, k ∈ index'.getD ∅) :
    FiledItem index' id b :=
  fun i hi => ⟨(hb i hi).1, hsub _ (hb i hi).2⟩

theorem filed_empty : Filed .empty :=
  ⟨fun id b h => by simp [DB.empty] at h⟩

/-- `SetValue` stores the value, and files the item under its index if it has one. -/
theorem setValue_ok {id key : String} {w w' : Writes} {o : Option Value}
    (h : setValue id w key o = .ok w') :
    w'.item = w.item.insert key o ∧
      ((w'.index = w.index ∧ ∀ v, o = some v → v.index = "") ∨
        ∃ v, o = some v ∧ v.index ≠ "" ∧
          w'.index = some ((w.index.getD ∅).insert (indexKey v.index id) ())) := by
  by_cases hkey : key = ""
  · cases o <;> simp only [setValue, put, hkey, if_true] at h <;> cases h
  cases o with
  | none =>
    simp only [setValue, put_of_ne _ hkey, ok_bind] at h
    cases h
    exact ⟨rfl, .inl ⟨rfl, by simp⟩⟩
  | some v =>
    simp only [setValue, put_of_ne _ hkey, ok_bind] at h
    by_cases hv : v.index = ""
    · simp only [hv, ne_eq, not_true_eq_false, if_false] at h
      cases h
      exact ⟨rfl, .inl ⟨rfl, by simp [hv]⟩⟩
    · have hk : indexKey v.index id ≠ "" := by simp [indexKey]
      simp only [ne_eq, hv, not_false_eq_true, if_true, put_of_ne _ hk, ok_bind] at h
      cases h
      exact ⟨rfl, .inr ⟨v, rfl, hv, rfl⟩⟩

/-- As `SetValue` writes a value, the item stays filed under the indexes of its values, and the
index only gains keys. -/
theorem filedItem_setValue {id key : String} {w w' : Writes} {o : Option Value}
    (ho : ∀ v, o = some v → Plain v.index) (hw : FiledItem w.index id w.item)
    (h : setValue id w key o = .ok w') :
    FiledItem w'.index id w'.item ∧ ∀ k ∈ w.index.getD ∅, k ∈ w'.index.getD ∅ := by
  obtain ⟨hitem, hindex⟩ := setValue_ok h
  rcases hindex with ⟨hidx, hnone⟩ | ⟨v, rfl, hv, hidx⟩
  · -- no index key written: the value has no index
    refine ⟨fun i hi => ?_, by simp [hidx]⟩
    rw [hitem] at hi
    rcases mem_indexes_insert hi with ⟨v, rfl, hvi, hne⟩ | hi
    · exact absurd (hvi ▸ hnone v rfl) hne
    · rw [hidx]
      exact hw i hi
  · have hsub : ∀ k ∈ w.index.getD ∅, k ∈ w'.index.getD ∅ := by
      intro k hk
      rw [hidx, Option.getD_some]
      exact (AList.mem_insert _).mpr (.inr hk)
    refine ⟨fun i hi => ?_, hsub⟩
    rw [hitem] at hi
    rcases mem_indexes_insert hi with ⟨v', hv', rfl, -⟩ | hi
    · cases hv'
      refine ⟨ho _ rfl, ?_⟩
      rw [hidx, Option.getD_some]
      exact (AList.mem_insert _).mpr (.inl rfl)
    · exact (hw.mono hsub) i hi

/-- `Update` keeps every item filed, if the values it sets have plain indexes. -/
theorem Filed.update {db db' : DB} {id : String} {sets : List (String × Option Value)}
    (hdb : Filed db) (hsets : ∀ kv ∈ sets, ∀ v, kv.2 = some v → Plain v.index)
    (h : update db id sets = .ok db') : Filed db' := by
  by_cases hid : id = ""
  · simp only [Metadata.update, createBucketIfNotExists, hid, if_true] at h
    cases h
  simp only [Metadata.update, createBucketIfNotExists_of_ne hid, ok_bind] at h
  cases hw : sets.foldlM (fun w kv => setValue id w kv.1 kv.2)
      ⟨((db.main.getD ∅).lookup id).getD ∅, db.index⟩ with
  | error e => rw [hw] at h; cases h
  | ok w =>
    rw [hw] at h
    cases h
    have h₀ : FiledItem db.index id (((db.main.getD ∅).lookup id).getD ∅) := by
      cases hl : (db.main.getD ∅).lookup id with
      | none => intro i hi; simp [mem_indexes] at hi
      | some b => exact hdb.filed id b hl
    -- the loop carries the item's filing and the keys the index had
    obtain ⟨hfiled, hsub⟩ := Loop.foldlM_keeps_ok
      (fun w : Writes =>
        FiledItem w.index id w.item ∧ ∀ k ∈ db.index.getD ∅, k ∈ w.index.getD ∅)
      (fun kv hkv w w' hstep hw => by
        obtain ⟨hw', hsub'⟩ := filedItem_setValue (hsets kv hkv) hw.1 hstep
        exact ⟨hw', fun k hk => hsub' k (hw.2 k hk)⟩)
      hw ⟨h₀, fun _ hk => hk⟩
    constructor
    intro id' b hl
    by_cases hid' : id' = id
    · subst hid'
      rw [Option.getD_some, AList.lookup_insert, Option.some.injEq] at hl
      exact hl ▸ hfiled
    · rw [Option.getD_some, AList.lookup_insert_ne hid'] at hl
      exact (hdb.filed id' b hl).mono hsub

/-- Taking out the index keys of one item leaves those of every other item, for plain indexes. -/
theorem mem_foldl_erase {idx : Bucket Unit} {is : List String} {id i' id' : String}
    (hid : id' ≠ id) (hplain : ∀ i ∈ is, Plain i) (hi' : Plain i')
    (hk : indexKey i' id' ∈ idx) :
    indexKey i' id' ∈ is.foldl (fun idx i => idx.erase (indexKey i id)) idx :=
  Loop.foldl_inv (fun idx => indexKey i' id' ∈ idx) is
    (fun i hi _ hmem =>
      AList.mem_erase.mpr ⟨fun he => hid (indexKey_inj hi' (hplain i hi) he).2, hmem⟩)
    hk

/-- `Clear` keeps every other item filed. -/
theorem Filed.clear {db db' : DB} {id : String} (hdb : Filed db) (h : clear db id = .ok db') :
    Filed db' := by
  unfold Metadata.clear at h
  rcases hmain : db.main with _ | main
  · rw [hmain] at h
    cases h
    exact hdb
  rcases hb : main.lookup id with _ | b
  · simp only [hmain, hb] at h
    cases h
    exact hdb
  simp only [hmain, hb, deleteBucket, ok_bind] at h
  cases h
  have hplain : ∀ i ∈ indexes b, Plain i :=
    fun i hi => (hdb.filed id b (by rw [hmain]; exact hb) i hi).1
  constructor
  intro id' b' hl
  by_cases hid' : id' = id
  · subst hid'
    simp at hl
  rw [Option.getD_some, AList.lookup_erase_ne hid'] at hl
  intro i' hi'
  obtain ⟨hp, hk⟩ := hdb.filed id' b' (by rw [hmain]; exact hl) i' hi'
  refine ⟨hp, ?_⟩
  rcases hidx : db.index with _ | idx
  · rw [hidx] at hk
    simp at hk
  · rw [hidx, Option.getD_some] at hk
    exact mem_foldl_erase hid' hplain hp hk

/-- A call that sets only plain indexes keeps every item filed. -/
theorem Filed.apply {db : DB} {op : Op} (hdb : Filed db) (hop : ∀ i ∈ op.indexes, Plain i) :
    Filed (apply db op) := by
  cases op with
  | update id sets =>
    have hsets : ∀ kv ∈ sets, ∀ v, kv.2 = some v → Plain v.index := fun kv hkv v hv =>
      hop _ (List.mem_filterMap.mpr ⟨kv, hkv, by rw [hv]; rfl⟩)
    simp only [Metadata.apply]
    cases h : Metadata.update db id sets with
    | ok db' => exact hdb.update hsets h
    | error => exact hdb
  | clear id =>
    simp only [Metadata.apply]
    cases h : Metadata.clear db id with
    | ok db' => exact hdb.clear h
    | error => exact hdb

theorem filed_run {db : DB} {ops : List Op} (hdb : Filed db)
    (hops : ∀ op ∈ ops, ∀ i ∈ op.indexes, Plain i) : Filed (run db ops) :=
  Loop.foldl_inv Filed ops (fun op hop _ hdb => hdb.apply (hops op hop)) hdb

/-- In a store whose items are filed, `Search` finds every item that holds the index. -/
theorem Filed.holders_subset {db : DB} (hdb : Filed db) (x : String) :
    holders db x ⊆ search db x := by
  intro id hid
  obtain ⟨main, b, hmain, hb, hx⟩ := mem_holders.mp hid
  obtain ⟨-, hk⟩ := hdb.filed id b (by rw [hmain]; exact hb) x hx
  rcases hidx : db.index with _ | idx
  · rw [hidx] at hk
    simp at hk
  · rw [hidx, Option.getD_some] at hk
    exact mem_search.mpr ⟨idx, main, hidx, hmain, hk, AList.lookup_isSome.mp (by simp [hb])⟩

/-- After any calls that set only plain indexes, `Search(x)` finds every item that holds a value
with the index `x`. -/
theorem holders_subset_search {ops : List Op} (hops : ∀ op ∈ ops, ∀ i ∈ op.indexes, Plain i)
    (x : String) : holders (run .empty ops) x ⊆ search (run .empty ops) x :=
  (filed_run filed_empty hops).holders_subset x

/-- Two items set values with the index `x`, one of them twice. -/
theorem holders_subset_search_twice :
    (∀ op ∈ [Op.update "a" [("k", some ⟨"1", "x"⟩)], .update "b" [("k", some ⟨"2", "x"⟩)],
        .update "a" [("j", some ⟨"3", "x"⟩)]], ∀ i ∈ op.indexes, Plain i) ∧
      holders (run .empty [.update "a" [("k", some ⟨"1", "x"⟩)], .update "b" [("k", some ⟨"2", "x"⟩)],
        .update "a" [("j", some ⟨"3", "x"⟩)]]) "x" ⊆
      search (run .empty [.update "a" [("k", some ⟨"1", "x"⟩)], .update "b" [("k", some ⟨"2", "x"⟩)],
        .update "a" [("j", some ⟨"3", "x"⟩)]]) "x" :=
  have hplain : ∀ op ∈ [Op.update "a" [("k", some ⟨"1", "x"⟩)], .update "b" [("k", some ⟨"2", "x"⟩)],
      .update "a" [("j", some ⟨"3", "x"⟩)]], ∀ i ∈ op.indexes, Plain i := by decide
  ⟨hplain, holders_subset_search hplain "x"⟩

theorem search_returns_non_holder :
    -- the index of the item's value overwritten: the item stays filed under the old one
    let db₁ : DB := run .empty
      [.update "a" [("k", some ⟨"1", "x"⟩)], .update "a" [("k", some ⟨"2", "y"⟩)]]
    -- the item cleared: its key under the old index stays
    let db₂ := run db₁ [.clear "a"]
    -- an index name with `::` in it: its item is filed under the shorter index too
    let db₃ := run .empty
      [.update "c" [("k", some ⟨"1", "a::b"⟩)], .update "b::c" [("k", some ⟨"2", ""⟩)]]
    (search db₁ "x" = ["a"] ∧ holders db₁ "x" = []) ∧
      (probe db₂ "x" = true ∧ search db₂ "x" = [] ∧ holders db₂ "x" = []) ∧
      (search db₃ "a" = ["b::c"] ∧ holders db₃ "a" = []) := by
  decide

end Metadata

end Buildkit
