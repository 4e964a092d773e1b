import Mathlib.Data.List.Induction
import Mathlib.Data.List.Nodup

/-!
# Insertion-ordered dictionaries

A finite map kept as the list of its entries in the order of their first
insertion.  Overwriting a key leaves it where it is; a new key goes to the end.
Distinctness of the keys is a field, so the length is the number of keys.
-/

/-- A dictionary whose entries keep their insertion order. -/
structure Dict (κ ν : Type) where
  entries : List (κ × ν)
  nodup : (entries.map Prod.fst).Nodup

namespace Dict

variable {κ ν : Type}

/-- The empty dictionary. -/
def empty : Dict κ ν := ⟨[], List.nodup_nil⟩

/-- The keys, in insertion order. -/
def keys (d : Dict κ ν) : List κ := d.entries.map Prod.fst

/-- The number of keys. -/
def size (d : Dict κ ν) : ℕ := d.entries.length

theorem keys_nodup (d : Dict κ ν) : d.keys.Nodup := d.nodup

theorem length_keys (d : Dict κ ν) : d.keys.length = d.size := by
  simp [keys, size]

@[simp] theorem entries_empty : (empty : Dict κ ν).entries = [] := rfl

@[simp] theorem keys_empty : (empty : Dict κ ν).keys = [] := rfl

@[ext] theorem ext {d d' : Dict κ ν} (h : d.entries = d'.entries) : d = d' := by
  cases d
  cases d'
  simpa using h

variable [DecidableEq κ]

/-- Overwrite the entry of `k`, or append one. -/
def setEntries (k : κ) (v : ν) : List (κ × ν) → List (κ × ν)
  | [] => [(k, v)]
  | e :: es => if e.1 = k then (k, v) :: es else e :: setEntries k v es

theorem mem_keys_setEntries {k x : κ} {v : ν} {es : List (κ × ν)} :
    x ∈ (setEntries k v es).map Prod.fst ↔ x = k ∨ x ∈ es.map Prod.fst := by
  induction es with
  | nil => simp [setEntries]
  | cons e es ih =>
      by_cases he : e.1 = k
      · simp [setEntries, he]
      · rw [setEntries, if_neg he]
        simp only [List.map_cons, List.mem_cons, ih]
        tauto

theorem nodup_setEntries {k : κ} {v : ν} {es : List (κ × ν)}
    (h : (es.map Prod.fst).Nodup) :
    ((setEntries k v es).map Prod.fst).Nodup := by
  induction es with
  | nil => simp [setEntries]
  | cons e es ih =>
      rw [List.map_cons, List.nodup_cons] at h
      by_cases he : e.1 = k
      · rw [setEntries, if_pos he, List.map_cons, List.nodup_cons]
        exact ⟨he ▸ h.1, h.2⟩
      · rw [setEntries, if_neg he, List.map_cons, List.nodup_cons]
        refine ⟨?_, ih h.2⟩
        rw [mem_keys_setEntries]
        rintro (hk | hmem)
        · exact he hk
        · exact h.1 hmem

/-- The value of a key, if it has one. -/
def get? (d : Dict κ ν) (k : κ) : Option ν := d.entries.lookup k

/-- The value of a key, or a default. -/
def getD (d : Dict κ ν) (k : κ) (v : ν) : ν := (d.get? k).getD v

/-- Assign a key. -/
def set (d : Dict κ ν) (k : κ) (v : ν) : Dict κ ν :=
  ⟨setEntries k v d.entries, nodup_setEntries d.nodup⟩

/-- Remove a key. -/
def erase (d : Dict κ ν) (k : κ) : Dict κ ν :=
  ⟨d.entries.filter fun e => e.1 ≠ k,
    d.nodup.sublist (List.filter_sublist.map Prod.fst)⟩

instance [DecidableEq ν] : DecidableEq (Dict κ ν) := fun d d' =>
  decidable_of_iff (d.entries = d'.entries)
    ⟨ext, fun h => congrArg entries h⟩

/-! ## Lookups -/

theorem lookup_cons_eq (k x : κ) (v : ν) (es : List (κ × ν)) :
    ((k, v) :: es).lookup x = if x = k then some v else es.lookup x := by
  by_cases h : x = k
  · simp [h]
  · have hb : (x == k) = false := by simpa using h
    simp [List.lookup_cons, hb, h]

theorem lookup_eq_none_of_notMem {es : List (κ × ν)} {k : κ} (h : k ∉ es.map Prod.fst) :
    es.lookup k = none := by
  rw [List.lookup_eq_none_iff]
  intro e he
  rw [bne_iff_ne]
  intro heq
  exact h (List.mem_map.mpr ⟨e, he, heq.symm⟩)

theorem lookup_eq_some_iff {es : List (κ × ν)}
    (h : (es.map Prod.fst).Nodup) {k : κ} {v : ν} :
    es.lookup k = some v ↔ (k, v) ∈ es := by
  induction es with
  | nil => simp
  | cons e es ih =>
      obtain ⟨x, w⟩ := e
      rw [List.map_cons, List.nodup_cons] at h
      rw [lookup_cons_eq, List.mem_cons]
      by_cases hk : k = x
      · subst hk
        have hnot : (k, v) ∉ es := fun hv =>
          h.1 (List.mem_map.mpr ⟨_, hv, rfl⟩)
        simp [hnot, eq_comm]
      · simp [hk, ih h.2]

theorem get?_eq_some_iff {d : Dict κ ν} {k : κ} {v : ν} :
    d.get? k = some v ↔ (k, v) ∈ d.entries :=
  lookup_eq_some_iff d.nodup

theorem mem_keys_iff {d : Dict κ ν} {k : κ} :
    k ∈ d.keys ↔ ∃ v, d.get? k = some v := by
  simp [keys, get?_eq_some_iff]

theorem get?_eq_none_iff {d : Dict κ ν} {k : κ} :
    d.get? k = none ↔ k ∉ d.keys := by
  rw [mem_keys_iff]
  cases h : d.get? k <;> simp

@[simp] theorem get?_empty (k : κ) : (empty : Dict κ ν).get? k = none := rfl

theorem lookup_setEntries (k x : κ) (v : ν) (es : List (κ × ν)) :
    (setEntries k v es).lookup x = if x = k then some v else es.lookup x := by
  induction es with
  | nil => simp [setEntries, lookup_cons_eq]
  | cons e es ih =>
      obtain ⟨y, w⟩ := e
      rw [setEntries, lookup_cons_eq]
      split
      · rename_i hy
        simp only at hy
        subst hy
        rw [lookup_cons_eq]
        split <;> rfl
      · rename_i hy
        simp only at hy
        rw [lookup_cons_eq, ih]
        by_cases hx : x = y
        · subst hx
          simp [hy]
        · simp [hx]

theorem get?_set (d : Dict κ ν) (k x : κ) (v : ν) :
    (d.set k v).get? x = if x = k then some v else d.get? x :=
  lookup_setEntries k x v d.entries

@[simp] theorem get?_set_self (d : Dict κ ν) (k : κ) (v : ν) :
    (d.set k v).get? k = some v := by
  simp [get?_set]

theorem get?_set_of_ne (d : Dict κ ν) {k x : κ} (v : ν) (h : x ≠ k) :
    (d.set k v).get? x = d.get? x := by
  simp [get?_set, h]

theorem mem_keys_set {d : Dict κ ν} {k x : κ} {v : ν} :
    x ∈ (d.set k v).keys ↔ x = k ∨ x ∈ d.keys :=
  mem_keys_setEntries

theorem size_le_size_set (d : Dict κ ν) (k : κ) (v : ν) :
    d.size ≤ (d.set k v).size := by
  have loop : ∀ es : List (κ × ν), es.length ≤ (setEntries k v es).length := by
    intro es
    induction es with
    | nil => simp
    | cons e es ih =>
        rw [setEntries]
        split
        · simp
        · simpa using ih
  exact loop d.entries

theorem get?_erase (d : Dict κ ν) (k x : κ) :
    (d.erase k).get? x = if x = k then none else d.get? x := by
  apply Option.ext
  intro v
  rw [get?_eq_some_iff]
  by_cases hx : x = k
  · simp [erase, hx]
  · simp [erase, hx, get?_eq_some_iff]

@[simp] theorem get?_erase_self (d : Dict κ ν) (k : κ) :
    (d.erase k).get? k = none := by
  simp [get?_erase]

theorem getD_set (d : Dict κ ν) (k x : κ) (v w : ν) :
    (d.set k v).getD x w = if x = k then v else d.getD x w := by
  simp only [getD, get?_set]
  split <;> rfl

theorem getD_erase (d : Dict κ ν) (k x : κ) (w : ν) :
    (d.erase k).getD x w = if x = k then w else d.getD x w := by
  simp only [getD, get?_erase]
  split <;> rfl

@[simp] theorem getD_empty (k : κ) (w : ν) :
    (empty : Dict κ ν).getD k w = w := rfl

/-! ## Dictionaries of entries -/

/-- Assign the entries of a list. -/
def update (d : Dict κ ν) (es : List (κ × ν)) : Dict κ ν :=
  es.foldl (fun d e => d.set e.1 e.2) d

/-- The dictionary of a list of entries. -/
def ofList (es : List (κ × ν)) : Dict κ ν := update empty es

theorem setEntries_of_notMem {k : κ} {v : ν} {es : List (κ × ν)}
    (h : k ∉ es.map Prod.fst) : setEntries k v es = es ++ [(k, v)] := by
  induction es with
  | nil => rfl
  | cons e es ih =>
      rw [List.map_cons, List.mem_cons, not_or] at h
      rw [setEntries, if_neg (Ne.symm h.1), ih h.2, List.cons_append]

theorem entries_update {es : List (κ × ν)} {d : Dict κ ν}
    (h : ((d.entries ++ es).map Prod.fst).Nodup) :
    (d.update es).entries = d.entries ++ es := by
  induction es generalizing d with
  | nil => simp [update]
  | cons e es ih =>
      have hnot : e.1 ∉ d.entries.map Prod.fst := by
        intro hmem
        rw [List.map_append, List.map_cons, List.nodup_append] at h
        exact h.2.2 _ hmem _ List.mem_cons_self rfl
      have hset : (d.set e.1 e.2).entries = d.entries ++ [e] := setEntries_of_notMem hnot
      have hcons : d.update (e :: es) = (d.set e.1 e.2).update es := rfl
      rw [hcons, ih, hset]
      · simp
      · rw [hset]
        simpa using h

/-- A dictionary is the dictionary of its entries. -/
theorem ofList_entries (d : Dict κ ν) : ofList d.entries = d := by
  apply ext
  have h : ((empty : Dict κ ν).update d.entries).entries = [] ++ d.entries :=
    entries_update d.nodup
  simpa [ofList] using h

/-! ## Tabulating and mapping -/

/-- The dictionary with the given keys and the values of a function. -/
def ofFn (f : κ → ν) (ks : List κ) (h : ks.Nodup) : Dict κ ν :=
  ⟨ks.map fun k => (k, f k), by simpa [Function.comp_def] using h⟩

/-- Apply a function to every value. -/
def mapVal {μ : Type} (f : ν → μ) (d : Dict κ ν) : Dict κ μ :=
  ⟨d.entries.map fun e => (e.1, f e.2), by
    simpa [Function.comp_def] using d.nodup⟩

theorem get?_ofFn (f : κ → ν) (ks : List κ) (h : ks.Nodup) (k : κ) :
    (ofFn f ks h).get? k = if k ∈ ks then some (f k) else none := by
  apply Option.ext
  intro v
  rw [get?_eq_some_iff]
  by_cases hk : k ∈ ks
  · simp [ofFn, hk, eq_comm]
  · simp only [ofFn, List.mem_map, Prod.mk.injEq, hk, if_false]
    constructor
    · rintro ⟨x, hx, rfl, -⟩
      exact absurd hx hk
    · simp

theorem get?_mapVal {μ : Type} (f : ν → μ) (d : Dict κ ν) (k : κ) :
    (d.mapVal f).get? k = (d.get? k).map f := by
  apply Option.ext
  intro w
  rw [get?_eq_some_iff, Option.map_eq_some_iff]
  simp only [mapVal, List.mem_map, Prod.mk.injEq, get?_eq_some_iff]
  constructor
  · rintro ⟨e, he, rfl, rfl⟩
    exact ⟨e.2, he, rfl⟩
  · rintro ⟨v, hv, rfl⟩
    exact ⟨(k, v), hv, rfl, rfl⟩

/-! ## Reading what was written -/

/-- What is written entry by entry is read entry by entry. -/
theorem mapM_map_eq {X Y Z : Type} {write : X → Y} {read : Y → Option Z} {f : X → Z}
    {xs : List X} (h : ∀ x ∈ xs, read (write x) = some (f x)) :
    (xs.map write).mapM read = some (xs.map f) := by
  induction xs with
  | nil => rfl
  | cons x xs ih =>
      rw [List.map_cons, List.mapM_cons, h x List.mem_cons_self,
        ih fun y hy => h y (List.mem_cons_of_mem x hy)]
      rfl

/-! ## Grouping -/

/-- Collect the elements of a list under their keys. -/
def gather {α : Type} (f : α → κ) (start : ν) (op : ν → α → ν) (xs : List α) : Dict κ ν :=
  xs.foldl (fun d x => d.set (f x) (op (d.getD (f x) start) x)) empty

theorem get?_gather {α : Type} (f : α → κ) (start : ν) (op : ν → α → ν) (xs : List α) (k : κ) :
    (gather f start op xs).get? k =
      if k ∈ xs.map f then some ((xs.filter fun x => f x = k).foldl op start) else none := by
  induction xs using List.reverseRecOn with
  | nil => rfl
  | append_singleton xs x ih =>
      have hgather : gather f start op (xs ++ [x]) = (gather f start op xs).set (f x)
          (op ((gather f start op xs).getD (f x) start) x) := by
        simp [gather]
      rw [hgather, get?_set, List.filter_append, List.map_append, List.foldl_append]
      by_cases hx : k = f x
      · subst hx
        have hold : (gather f start op xs).getD (f x) start =
            (xs.filter fun y => f y = f x).foldl op start := by
          rw [getD, ih]
          split
          · rfl
          · rename_i hnot
            have hnil : xs.filter (fun y => f y = f x) = [] := by
              rw [List.filter_eq_nil_iff]
              intro y hy heq
              exact hnot (List.mem_map.mpr ⟨y, hy, by simpa using heq⟩)
            rw [hnil]
            rfl
        simp [hold]
      · rw [if_neg hx, ih]
        simp [hx, Ne.symm hx]

/-- One part of a dictionary. -/
theorem flatMap_entries {α : Type} (d : Dict κ (List α)) (k : κ) :
    (d.entries.flatMap fun e => if e.1 = k then e.2 else []) = (d.get? k).getD [] := by
  have loop (es : List (κ × List α)) (h : (es.map Prod.fst).Nodup) :
      (es.flatMap fun e => if e.1 = k then e.2 else []) = (es.lookup k).getD [] := by
    induction es with
    | nil => rfl
    | cons e es ih =>
        obtain ⟨x, v⟩ := e
        rw [List.map_cons, List.nodup_cons] at h
        rw [List.flatMap_cons, ih h.2, lookup_cons_eq]
        by_cases hx : x = k
        · subst hx
          rw [lookup_eq_none_of_notMem h.1]
          simp
        · rw [if_neg hx, if_neg (Ne.symm hx), List.nil_append]
  exact loop d.entries d.nodup

/-- The entries of dictionaries with one entry each. -/
theorem flatMap_entries_singletons (es : List (κ × ν)) :
    (es.map fun e => empty.set e.1 e.2).flatMap entries = es := by
  rw [List.flatMap_map]
  exact List.flatMap_singleton' es

end Dict
