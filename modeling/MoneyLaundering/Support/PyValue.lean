import Mathlib.Data.Int.Notation
import MoneyLaundering.Support.Dict

/-!
# Values of a dynamic language

A component gives its state to a packing library as one value, of numbers, texts, lists,
tuples and dictionaries with texts as keys.  Packing keeps everything of it, the order of
the dictionaries included, but for the tuples, which come back as lists.

Each way to write a part of a state goes with a way to read it, and the lemmas say which
parts come back: a dictionary does when its values do.
-/

/-- A value; `A` are the floats. -/
inductive PyValue (A : Type) where
  | int (n : ℤ)
  | float (a : A)
  | str (s : String)
  | bytes (b : List UInt8)
  | list (vs : List (PyValue A))
  | tuple (vs : List (PyValue A))
  | dict (entries : List (String × PyValue A))

/-- A packing library. -/
structure PyPacker (A : Type) where
  packb : PyValue A → List UInt8
  unpackb : List UInt8 → Option (PyValue A)

namespace PyValue

variable {A X Y : Type}

/-! ## Packing -/

mutual

/-- What a packed value comes back as. -/
def repacked : PyValue A → PyValue A
  | .int n => .int n
  | .float a => .float a
  | .str s => .str s
  | .bytes b => .bytes b
  | .list vs => .list (repackedAll vs)
  | .tuple vs => .list (repackedAll vs)
  | .dict entries => .dict (repackedEntries entries)

/-- The values of a list. -/
def repackedAll : List (PyValue A) → List (PyValue A)
  | [] => []
  | v :: vs => v.repacked :: repackedAll vs

/-- The entries of a dictionary, in their order. -/
def repackedEntries : List (String × PyValue A) → List (String × PyValue A)
  | [] => []
  | (key, v) :: entries => (key, v.repacked) :: repackedEntries entries

end

theorem repackedAll_eq (vs : List (PyValue A)) : repackedAll vs = vs.map repacked := by
  induction vs with
  | nil => rfl
  | cons v vs ih => rw [repackedAll, ih, List.map_cons]

theorem repackedEntries_eq (entries : List (String × PyValue A)) :
    repackedEntries entries = entries.map fun e => (e.1, e.2.repacked) := by
  induction entries with
  | nil => rfl
  | cons e entries ih => rw [repackedEntries, ih, List.map_cons]

@[simp] theorem repacked_int (n : ℤ) : (int n : PyValue A).repacked = int n := rfl

@[simp] theorem repacked_float (a : A) : (float a).repacked = float a := rfl

@[simp] theorem repacked_str (s : String) : (str s : PyValue A).repacked = str s := rfl

@[simp] theorem repacked_bytes (b : List UInt8) :
    (bytes b : PyValue A).repacked = bytes b := rfl

@[simp] theorem repacked_list (vs : List (PyValue A)) :
    (list vs).repacked = list (vs.map repacked) :=
  congrArg list (repackedAll_eq vs)

@[simp] theorem repacked_tuple (vs : List (PyValue A)) :
    (tuple vs).repacked = list (vs.map repacked) :=
  congrArg list (repackedAll_eq vs)

@[simp] theorem repacked_dict (entries : List (String × PyValue A)) :
    (dict entries).repacked = dict (entries.map fun e => (e.1, e.2.repacked)) :=
  congrArg dict (repackedEntries_eq entries)

/-! ## Reading -/

def int? : PyValue A → Option ℤ
  | .int n => some n
  | _ => none

/-- A number of things. -/
def nat? : PyValue A → Option ℕ
  | .int n => n.toNat?
  | _ => none

def float? : PyValue A → Option A
  | .float a => some a
  | _ => none

def str? : PyValue A → Option String
  | .str s => some s
  | _ => none

def bytes? : PyValue A → Option (List UInt8)
  | .bytes b => some b
  | _ => none

def list? : PyValue A → Option (List (PyValue A))
  | .list vs => some vs
  | _ => none

/-- `v.items()`. -/
def items? : PyValue A → Option (List (String × PyValue A))
  | .dict entries => some entries
  | _ => none

/-- `v.get(key, default)`. -/
def get (key : String) (v default : PyValue A) : Option (PyValue A) := do
  return ((← v.items?).lookup key).getD default

@[simp] theorem int?_int (n : ℤ) : (int n : PyValue A).int? = some n := rfl

@[simp] theorem nat?_natCast (n : ℕ) : (int (n : ℤ) : PyValue A).nat? = some n := rfl

@[simp] theorem float?_float (a : A) : (float a).float? = some a := rfl

@[simp] theorem str?_str (s : String) : (str s : PyValue A).str? = some s := rfl

@[simp] theorem bytes?_bytes (b : List UInt8) : (bytes b : PyValue A).bytes? = some b := rfl

@[simp] theorem list?_list (vs : List (PyValue A)) : (list vs).list? = some vs := rfl

@[simp] theorem items?_dict (entries : List (String × PyValue A)) :
    (dict entries).items? = some entries := rfl

/-! ## Comprehensions -/

/-- `{key(k): val(k, v) for k, v in d.items()}`. -/
def ofDict (key : X → String) (val : X × Y → PyValue A) (d : Dict X Y) : PyValue A :=
  .dict (Dict.ofList (d.entries.map fun e => (key e.1, val e))).entries

/-- `{key(k): val(v) for k, v in v.items()}`. -/
def dict? [DecidableEq X] (key? : String → Option X) (val? : PyValue A → Option Y)
    (v : PyValue A) : Option (Dict X Y) := do
  let entries ← (← v.items?).mapM fun e : String × PyValue A => do
    return (← key? e.1, ← val? e.2)
  return Dict.ofList entries

/-- `[(k, val(v)) for k, v in d.items()]`. -/
def ofItems (val : Y → PyValue A) (d : Dict String Y) : PyValue A :=
  .list (d.entries.map fun e => .tuple [.str e.1, val e.2])

/-- One entry of a list of pairs. -/
def pair? (val? : PyValue A → Option Y) : PyValue A → Option (String × Y)
  | .list [k, v] => do return (← k.str?, ← val? v)
  | _ => none

/-- `{k: val(v) for k, v in v}`. -/
def ofPairs? (val? : PyValue A → Option Y) (v : PyValue A) : Option (Dict String Y) := do
  return Dict.ofList (← (← v.list?).mapM (pair? val?))

/-- `[text(x) for x in xs]`. -/
def ofTexts (text : X → String) (xs : List X) : PyValue A := .list (xs.map fun x => .str (text x))

/-- `[of_text(s) for s in v]`. -/
def texts? (text? : String → Option X) (v : PyValue A) : Option (List X) := do
  (← v.list?).mapM fun s : PyValue A => do text? (← s.str?)

/-- A text that is read back is the text of one thing only, so no entry of a dictionary
replaces another one. -/
theorem ofDict_eq {key : X → String} {key? : String → Option X}
    (hkey : ∀ x, key? (key x) = some x) (val : X × Y → PyValue A) (d : Dict X Y) :
    ofDict key val d = .dict (d.entries.map fun e => (key e.1, val e)) := by
  have hinj : Function.Injective key := by
    intro x y heq
    have hsome := congrArg key? heq
    rw [hkey, hkey] at hsome
    exact Option.some.inj hsome
  have hnodup : ((d.entries.map fun e => (key e.1, val e)).map Prod.fst).Nodup := by
    have hkeys := List.Nodup.map hinj d.nodup
    simpa [List.map_map, Function.comp_def] using hkeys
  have hentries : (Dict.empty.update (d.entries.map fun e => (key e.1, val e))).entries =
      [] ++ d.entries.map fun e => (key e.1, val e) := by
    apply Dict.entries_update
    simpa using hnodup
  rw [ofDict, Dict.ofList, hentries, List.nil_append]

theorem dict?_ofDict [DecidableEq X] {key : X → String} {key? : String → Option X}
    {val : X × Y → PyValue A} {val? : PyValue A → Option Y} {d : Dict X Y}
    (hkey : ∀ x, key? (key x) = some x)
    (hval : ∀ e ∈ d.entries, val? (val e).repacked = some e.2) :
    dict? key? val? (ofDict key val d).repacked = some d := by
  have hentries : ((d.entries.map fun e => (key e.1, val e)).map
        fun e => (e.1, e.2.repacked)).mapM (fun e : String × PyValue A => do
          return (← key? e.1, ← val? e.2)) = some (d.entries.map id) := by
    rw [List.map_map]
    apply Dict.mapM_map_eq
    intro e he
    simp [hkey, hval e he]
  rw [ofDict_eq hkey, repacked_dict, dict?, items?_dict, Option.bind_eq_bind,
    Option.bind_some, hentries, List.map_id]
  exact congrArg some (Dict.ofList_entries d)

theorem ofPairs?_ofItems {val : Y → PyValue A} {val? : PyValue A → Option Y}
    {d : Dict String Y} (hval : ∀ e ∈ d.entries, val? (val e.2).repacked = some e.2) :
    ofPairs? val? (ofItems val d).repacked = some d := by
  have hentries : ((d.entries.map fun e => tuple [str e.1, val e.2]).map repacked).mapM
      (pair? val?) = some (d.entries.map id) := by
    rw [List.map_map]
    apply Dict.mapM_map_eq
    intro e he
    simp [pair?, hval e he]
  rw [ofItems, repacked_list, ofPairs?, list?_list, Option.bind_eq_bind, Option.bind_some,
    hentries, List.map_id]
  exact congrArg some (Dict.ofList_entries d)

theorem texts?_ofTexts {text : X → String} {text? : String → Option X}
    (h : ∀ x, text? (text x) = some x) (xs : List X) :
    texts? text? (ofTexts text xs : PyValue A).repacked = some xs := by
  rw [ofTexts, repacked_list, texts?, list?_list, Option.bind_eq_bind, Option.bind_some,
    List.map_map, Dict.mapM_map_eq (f := id), List.map_id]
  intro x _
  simp [h]

end PyValue
