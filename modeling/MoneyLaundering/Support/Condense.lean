import MoneyLaundering.Support.Dict

/-!
# Condensed entries

Entries are condensed to some of them when every entry is beaten by one that is kept, under
the same key.  Condensing may be done in several steps, and part by part; a dictionary that
keeps an entry which beats all others of its key condenses what it was given.
-/

/-- The entries `es` are some of the entries `ts`, and each of `ts` is beaten by one of them
with its key. -/
structure Condenses {κ ν : Type} (beats : ν → ν → Prop) (ts es : List (κ × ν)) : Prop where
  sub : ∀ e ∈ es, e ∈ ts
  beaten : ∀ e ∈ ts, ∃ e' ∈ es, e'.1 = e.1 ∧ beats e'.2 e.2

/-- What was gathered into several dictionaries is what was there. -/
theorem Dict.mem_gather_entries {κ ν γ : Type} [DecidableEq κ] [DecidableEq γ]
    {f : κ × ν → γ} {ts : List (κ × ν)} (hnodup : (ts.map Prod.fst).Nodup) (e : κ × ν) :
    (e ∈ (gather f empty (fun d e => d.set e.1 e.2) ts).entries.flatMap
      fun group => group.2.entries) ↔ e ∈ ts := by
  have hpart (group : γ) : (ofList (ts.filter fun e => f e = group)).entries =
      ts.filter fun e => f e = group :=
    entries_update (d := empty) (hnodup.sublist (List.filter_sublist.map _))
  have hget (group : γ) : (gather f empty (fun d e => d.set e.1 e.2) ts).get? group =
      if group ∈ ts.map f then some (ofList (ts.filter fun e => f e = group)) else none :=
    get?_gather f empty (fun d e => d.set e.1 e.2) ts group
  constructor
  · intro he
    obtain ⟨group, hgroup, hmem⟩ := List.mem_flatMap.mp he
    have hvalue := get?_eq_some_iff.mpr hgroup
    rw [hget] at hvalue
    split at hvalue
    · rw [← Option.some.inj hvalue, hpart] at hmem
      exact (List.mem_filter.mp hmem).1
    · cases hvalue
  · intro he
    have hgroup := (hget (f e)).trans (if_pos (List.mem_map_of_mem he))
    refine List.mem_flatMap.mpr ⟨_, get?_eq_some_iff.mp hgroup, ?_⟩
    rw [hpart]
    exact List.mem_filter.mpr ⟨he, by simp⟩

namespace Condenses

variable {κ ν α : Type} {beats : ν → ν → Prop} {ts ts' es es' fs : List (κ × ν)}

theorem refl (hrefl : ∀ v, beats v v) (ts : List (κ × ν)) : Condenses beats ts ts :=
  ⟨fun _ he => he, fun e he => ⟨e, he, rfl, hrefl e.2⟩⟩

theorem trans (htrans : ∀ u v w, beats u v → beats v w → beats u w)
    (h : Condenses beats ts es) (h' : Condenses beats es fs) : Condenses beats ts fs := by
  constructor
  · exact fun e he => h.sub e (h'.sub e he)
  · intro e he
    obtain ⟨e', he', hkey', hbeats'⟩ := h.beaten e he
    obtain ⟨e'', he'', hkey'', hbeats''⟩ := h'.beaten e' he'
    exact ⟨e'', he'', hkey''.trans hkey', htrans _ _ _ hbeats'' hbeats'⟩

/-- Only the entries matter, not their order or how often they occur. -/
theorem congr (h : Condenses beats ts es) (hts : ∀ e, e ∈ ts' ↔ e ∈ ts)
    (hes : ∀ e, e ∈ es' ↔ e ∈ es) : Condenses beats ts' es' := by
  constructor
  · exact fun e he => (hts e).mpr (h.sub e ((hes e).mp he))
  · intro e he
    obtain ⟨e', he', hbeats⟩ := h.beaten e ((hts e).mp he)
    exact ⟨e', (hes e').mpr he', hbeats⟩

/-- Parts are condensed one by one. -/
theorem flatMap {xs : List α} {f g : α → List (κ × ν)}
    (h : ∀ x ∈ xs, Condenses beats (f x) (g x)) :
    Condenses beats (xs.flatMap f) (xs.flatMap g) := by
  constructor
  · intro e he
    obtain ⟨x, hx, hmem⟩ := List.mem_flatMap.mp he
    exact List.mem_flatMap.mpr ⟨x, hx, (h x hx).sub e hmem⟩
  · intro e he
    obtain ⟨x, hx, hmem⟩ := List.mem_flatMap.mp he
    obtain ⟨e', he', hbeats⟩ := (h x hx).beaten e hmem
    exact ⟨e', List.mem_flatMap.mpr ⟨x, hx, he'⟩, hbeats⟩

/-- So are the keys of a kind. -/
theorem filter (h : Condenses beats ts es) (p : κ → Bool) :
    Condenses beats (ts.filter fun e => p e.1) (es.filter fun e => p e.1) := by
  constructor
  · intro e he
    obtain ⟨hmem, hp⟩ := List.mem_filter.mp he
    exact List.mem_filter.mpr ⟨h.sub e hmem, hp⟩
  · intro e he
    obtain ⟨hmem, hp⟩ := List.mem_filter.mp he
    obtain ⟨e', he', hkey, hbeats⟩ := h.beaten e hmem
    refine ⟨e', List.mem_filter.mpr ⟨he', ?_⟩, hkey, hbeats⟩
    rw [hkey]
    exact hp

/-! ## Dictionaries -/

theorem empty : Condenses beats [] (Dict.empty : Dict κ ν).entries :=
  ⟨fun _ he => he, fun _ he => absurd he List.not_mem_nil⟩

/-- Entry by entry. -/
theorem foldl {d : Dict κ ν} (h : Condenses beats ts d.entries) {add : Dict κ ν → κ × ν → Dict κ ν}
    (hadd : ∀ ts d e, Condenses beats ts d.entries →
      Condenses beats (ts ++ [e]) (add d e).entries) (es : List (κ × ν)) :
    Condenses beats (ts ++ es) (es.foldl add d).entries := by
  induction es generalizing ts d with
  | nil =>
      rw [List.append_nil]
      exact h
  | cons e es ih =>
      have hrest := ih (hadd ts d e h)
      rwa [List.append_assoc] at hrest

/-- Dictionary by dictionary, or list by list. -/
theorem foldl_flatMap [DecidableEq κ] {add : Dict κ ν → κ × ν → Dict κ ν}
    (hadd : ∀ ts d e, Condenses beats ts d.entries →
      Condenses beats (ts ++ [e]) (add d e).entries) (f : α → List (κ × ν)) (xs : List α) :
    Condenses beats (xs.flatMap f)
      (xs.foldl (fun d x => (f x).foldl add d) Dict.empty).entries := by
  have hall := empty.foldl hadd (xs.flatMap f)
  rwa [List.foldl_flatMap, List.nil_append] at hall

section Dict

variable [DecidableEq κ] {d : Dict κ ν} {k : κ} {v : ν}

/-- The value of a key beats all values that the key was given. -/
theorem get? (h : Condenses beats ts d.entries) (hget : d.get? k = some v) :
    (k, v) ∈ ts ∧ ∀ e ∈ ts, e.1 = k → beats v e.2 := by
  constructor
  · exact h.sub _ (Dict.get?_eq_some_iff.mp hget)
  · intro e he hkey
    obtain ⟨e', he', hkey', hbeats⟩ := h.beaten e he
    have hget' : d.get? e'.1 = some e'.2 := Dict.get?_eq_some_iff.mpr he'
    rw [hkey', hkey, hget] at hget'
    rwa [Option.some.inj hget']

/-- A key has a value if it was given one. -/
theorem get?_isSome (h : Condenses beats ts d.entries) :
    (d.get? k).isSome = true ↔ ∃ e ∈ ts, e.1 = k := by
  constructor
  · intro hsome
    obtain ⟨v, hget⟩ := Option.isSome_iff_exists.mp hsome
    exact ⟨(k, v), (h.get? hget).1, rfl⟩
  · intro hgiven
    obtain ⟨e, he, hkey⟩ := hgiven
    obtain ⟨e', he', hkey', -⟩ := h.beaten e he
    rw [← hkey, ← hkey', Dict.get?_eq_some_iff.mpr he']
    rfl

/-- A value that is beaten may be left out. -/
theorem skip (h : Condenses beats ts d.entries) (e : κ × ν)
    (hbeaten : ∃ v, d.get? e.1 = some v ∧ beats v e.2) :
    Condenses beats (ts ++ [e]) d.entries := by
  constructor
  · exact fun e' he' => List.mem_append_left _ (h.sub e' he')
  · intro e' he'
    rcases List.mem_append.mp he' with hold | hnew
    · exact h.beaten e' hold
    · obtain ⟨v, hget, hbeats⟩ := hbeaten
      rw [List.mem_singleton.mp hnew]
      exact ⟨(e.1, v), Dict.get?_eq_some_iff.mp hget, rfl, hbeats⟩

/-- A value that beats the value of its key takes its place. -/
theorem set (h : Condenses beats ts d.entries) (hrefl : ∀ v, beats v v)
    (htrans : ∀ u v w, beats u v → beats v w → beats u w) (e : κ × ν)
    (hbeats : ∀ v, d.get? e.1 = some v → beats e.2 v) :
    Condenses beats (ts ++ [e]) (d.set e.1 e.2).entries := by
  have hself : (e.1, e.2) ∈ (d.set e.1 e.2).entries :=
    Dict.get?_eq_some_iff.mp (Dict.get?_set_self d e.1 e.2)
  constructor
  · intro e' he'
    have hget := Dict.get?_eq_some_iff.mpr he'
    by_cases hkey : e'.1 = e.1
    · rw [hkey, Dict.get?_set_self] at hget
      apply List.mem_append_right
      rw [List.mem_singleton]
      exact Prod.ext hkey (Option.some.inj hget).symm
    · rw [Dict.get?_set_of_ne _ _ hkey] at hget
      exact List.mem_append_left _ (h.sub _ (Dict.get?_eq_some_iff.mp hget))
  · intro e' he'
    rcases List.mem_append.mp he' with hold | hnew
    · obtain ⟨e'', he'', hkey, hbeaten⟩ := h.beaten e' hold
      have hget := Dict.get?_eq_some_iff.mpr he''
      by_cases hkey' : e''.1 = e.1
      · refine ⟨_, hself, hkey'.symm.trans hkey, ?_⟩
        rw [hkey'] at hget
        exact htrans _ _ _ (hbeats _ hget) hbeaten
      · refine ⟨e'', ?_, hkey, hbeaten⟩
        apply Dict.get?_eq_some_iff.mp
        rw [Dict.get?_set_of_ne _ _ hkey']
        exact hget
    · rw [List.mem_singleton.mp hnew]
      exact ⟨_, hself, rfl, hrefl e.2⟩

/-- Any value is as good as another. -/
def AnyValue (_ _ : ν) : Prop := True

theorem trans_anyValue (u v w : ν) (_ : AnyValue u v) (_ : AnyValue v w) : AnyValue u w :=
  trivial

/-- A dictionary that takes every value. -/
theorem set_anyValue (ts : List (κ × ν)) (d : Dict κ ν) (e : κ × ν)
    (h : Condenses AnyValue ts d.entries) :
    Condenses AnyValue (ts ++ [e]) (d.set e.1 e.2).entries :=
  h.set (fun _ => trivial) trans_anyValue e fun _ _ => trivial

end Dict

end Condenses
