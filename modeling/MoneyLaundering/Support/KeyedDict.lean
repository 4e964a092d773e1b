import Mathlib.Data.List.Nodup

/-!
# Dictionaries over objects that are compared by a key

A dictionary whose keys are objects that count as equal when a function of them does.
Assigning an equal key keeps the object that is there and its place.
-/

/-- A dictionary whose entries keep their insertion order. -/
structure KeyedDict {κ α : Type} (key : α → κ) (ν : Type) where
  entries : List (α × ν)
  nodup : (entries.map fun e => key e.1).Nodup

namespace KeyedDict

variable {κ α ν : Type} {key : α → κ}

/-- The empty dictionary. -/
def empty : KeyedDict key ν := ⟨[], List.nodup_nil⟩

@[simp] theorem entries_empty : (empty : KeyedDict key ν).entries = [] := rfl

/-- The number of keys. -/
def size (d : KeyedDict key ν) : ℕ := d.entries.length

@[ext] theorem ext {d d' : KeyedDict key ν} (h : d.entries = d'.entries) : d = d' := by
  cases d
  cases d'
  simpa using h

variable [DecidableEq κ]

instance [DecidableEq α] [DecidableEq ν] : DecidableEq (KeyedDict key ν) := fun d d' =>
  decidable_of_iff (d.entries = d'.entries) ⟨ext, fun h => congrArg entries h⟩

/-- Overwrite the value of an equal key, or append an entry. -/
def assignEntries (key : α → κ) (x : α) (v : ν) : List (α × ν) → List (α × ν)
  | [] => [(x, v)]
  | e :: es =>
    if key e.1 = key x then (e.1, v) :: es else e :: assignEntries key x v es

theorem mem_keys_assignEntries {x : α} {v : ν} {k : κ} {es : List (α × ν)} :
    k ∈ (assignEntries key x v es).map (fun e => key e.1) ↔
      k = key x ∨ k ∈ es.map fun e => key e.1 := by
  induction es with
  | nil => simp [assignEntries]
  | cons e es ih =>
      rw [assignEntries]
      split
      · rename_i he
        simp [he]
      · rw [List.map_cons, List.mem_cons, ih, List.map_cons, List.mem_cons]
        tauto

theorem nodup_assignEntries {x : α} {v : ν} {es : List (α × ν)}
    (h : (es.map fun e => key e.1).Nodup) :
    ((assignEntries key x v es).map fun e => key e.1).Nodup := by
  induction es with
  | nil => simp [assignEntries]
  | cons e es ih =>
      rw [List.map_cons, List.nodup_cons] at h
      rw [assignEntries]
      split
      · rw [List.map_cons, List.nodup_cons]
        exact h
      · rename_i he
        rw [List.map_cons, List.nodup_cons]
        refine ⟨?_, ih h.2⟩
        intro hmem
        rcases mem_keys_assignEntries.mp hmem with hx | hes
        · exact he hx
        · exact h.1 hes

/-- `d[x] = v`. -/
def assign (x : α) (v : ν) (d : KeyedDict key ν) : KeyedDict key ν :=
  ⟨assignEntries key x v d.entries, nodup_assignEntries d.nodup⟩

/-- Assign the entries of a list. -/
def update (d : KeyedDict key ν) (es : List (α × ν)) : KeyedDict key ν :=
  es.foldl (fun d e => d.assign e.1 e.2) d

/-- The dictionary of a list of entries. -/
def ofList (key : α → κ) (es : List (α × ν)) : KeyedDict key ν := update empty es

theorem assignEntries_of_notMem {x : α} {v : ν} {es : List (α × ν)}
    (h : key x ∉ es.map fun e => key e.1) :
    assignEntries key x v es = es ++ [(x, v)] := by
  induction es with
  | nil => rfl
  | cons e es ih =>
      rw [List.map_cons, List.mem_cons, not_or] at h
      rw [assignEntries, if_neg (Ne.symm h.1), ih h.2, List.cons_append]

theorem entries_update {es : List (α × ν)} {d : KeyedDict key ν}
    (h : ((d.entries ++ es).map fun e => key e.1).Nodup) :
    (d.update es).entries = d.entries ++ es := by
  induction es generalizing d with
  | nil => simp [update]
  | cons e es ih =>
      have hnot : key e.1 ∉ d.entries.map fun e => key e.1 := by
        intro hmem
        rw [List.map_append, List.map_cons, List.nodup_append] at h
        exact h.2.2 _ hmem _ List.mem_cons_self rfl
      have hassign : (d.assign e.1 e.2).entries = d.entries ++ [e] :=
        assignEntries_of_notMem hnot
      have hcons : d.update (e :: es) = (d.assign e.1 e.2).update es := rfl
      rw [hcons, ih, hassign]
      · simp
      · rw [hassign]
        simpa using h

/-- A dictionary is the dictionary of its entries. -/
theorem ofList_entries (d : KeyedDict key ν) : ofList key d.entries = d := by
  apply ext
  have h : ((empty : KeyedDict key ν).update d.entries).entries = [] ++ d.entries :=
    entries_update d.nodup
  simpa [ofList] using h

/-! ## Lookups -/

/-- The value of the entry with a key, if there is one. -/
def find? (d : KeyedDict key ν) (k : κ) : Option ν :=
  (d.entries.find? fun e => key e.1 = k).map Prod.snd

/-- The value of an equal key, if there is one. -/
def get? (d : KeyedDict key ν) (x : α) : Option ν := d.find? (key x)

/-- The value of an equal key, or a default. -/
def getD (d : KeyedDict key ν) (x : α) (v : ν) : ν := (d.get? x).getD v

/-- A key is equal to `x`. -/
def Has (d : KeyedDict key ν) (x : α) : Prop := key x ∈ d.entries.map fun e => key e.1

instance (d : KeyedDict key ν) (x : α) : Decidable (d.Has x) :=
  inferInstanceAs (Decidable (key x ∈ d.entries.map fun e => key e.1))

variable {d : KeyedDict key ν} {x y : α} {v : ν} {k : κ} {e : α × ν}

@[simp] theorem find?_empty (k : κ) : (empty : KeyedDict key ν).find? k = none := rfl

theorem find?_assign (x : α) (v : ν) (d : KeyedDict key ν) (k : κ) :
    (d.assign x v).find? k = if k = key x then some v else d.find? k := by
  have loop (es : List (α × ν)) :
      ((assignEntries key x v es).find? fun e => key e.1 = k).map Prod.snd =
        if k = key x then some v else (es.find? fun e => key e.1 = k).map Prod.snd := by
    induction es with
    | nil =>
        by_cases h : k = key x
        · simp [assignEntries, h]
        · simp [assignEntries, h, Ne.symm h]
    | cons e es ih =>
        rw [assignEntries]
        split
        · rename_i he
          by_cases h : k = key x
          · simp [he, h]
          · have hne : key e.1 ≠ k := fun heq => h (heq.symm.trans he)
            simp [hne, h]
        · rename_i he
          by_cases hk : key e.1 = k
          · have hne : k ≠ key x := fun heq => he (hk.trans heq)
            simp [hk, hne]
          · rw [List.find?_cons_of_neg (by simpa using hk), ih,
              List.find?_cons_of_neg (by simpa using hk)]
  exact loop d.entries

theorem has_assign : (d.assign x v).Has y ↔ key y = key x ∨ d.Has y :=
  mem_keys_assignEntries

/-- The value of an entry is found under its key. -/
theorem find?_of_mem (h : e ∈ d.entries) : d.find? (key e.1) = some e.2 := by
  obtain ⟨before, after, hsplit⟩ := List.append_of_mem h
  have hbefore : before.find? (fun e' => key e'.1 = key e.1) = none := by
    rw [List.find?_eq_none]
    intro e' he' heq
    have hnodup := d.nodup
    rw [hsplit, List.map_append, List.nodup_append] at hnodup
    exact hnodup.2.2 _ (List.mem_map_of_mem he') _ List.mem_cons_self (by simpa using heq)
  rw [find?, hsplit, List.find?_append, hbefore, Option.none_or,
    List.find?_cons_of_pos (by simp)]
  rfl

/-- What is found under a key is the value of an entry. -/
theorem find?_eq_some_iff : d.find? k = some v ↔ ∃ x, key x = k ∧ (x, v) ∈ d.entries := by
  constructor
  · intro h
    obtain ⟨e, hfind, rfl⟩ := Option.map_eq_some_iff.mp h
    exact ⟨e.1, by simpa using List.find?_some hfind, List.mem_of_find?_eq_some hfind⟩
  · intro h
    obtain ⟨x, rfl, hmem⟩ := h
    exact find?_of_mem hmem

/-- An entry after an assignment is old, or has the new value for the new element or for an
old one with its key. -/
theorem mem_assign (h : e ∈ (d.assign x v).entries) :
    e ∈ d.entries ∨ e.2 = v ∧ (e.1 = x ∨ key e.1 = key x ∧ ∃ e' ∈ d.entries, e'.1 = e.1) := by
  have loop (es : List (α × ν)) (he : e ∈ assignEntries key x v es) :
      e ∈ es ∨ e.2 = v ∧ (e.1 = x ∨ key e.1 = key x ∧ ∃ e' ∈ es, e'.1 = e.1) := by
    induction es with
    | nil =>
        rw [assignEntries, List.mem_singleton] at he
        exact Or.inr ⟨by rw [he], Or.inl (by rw [he])⟩
    | cons e' es ih =>
        rw [assignEntries] at he
        split at he
        · next hkey =>
          rcases List.mem_cons.mp he with heq | hmem
          · exact Or.inr ⟨by rw [heq], Or.inr ⟨by rw [heq, hkey], e', List.mem_cons_self,
              by rw [heq]⟩⟩
          · exact Or.inl (List.mem_cons_of_mem _ hmem)
        · rcases List.mem_cons.mp he with heq | hmem
          · exact Or.inl (heq ▸ List.mem_cons_self)
          · rcases ih hmem with hold | ⟨hv, hx | ⟨hkey, e'', he'', heq⟩⟩
            · exact Or.inl (List.mem_cons_of_mem _ hold)
            · exact Or.inr ⟨hv, Or.inl hx⟩
            · exact Or.inr ⟨hv, Or.inr ⟨hkey, e'', List.mem_cons_of_mem _ he'', heq⟩⟩
  exact loop d.entries h

end KeyedDict
