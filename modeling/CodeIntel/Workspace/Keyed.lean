/-! Maps from strings, as lists of entries in ascending order of their keys, each key once. -/

namespace CodeIntel

/-- A map from strings. -/
abbrev Keyed (α : Type) := List (String × α)

namespace Keyed

variable {α : Type}

/-- The value of a key. -/
def get? (map : Keyed α) (key : String) : Option α :=
  match map with
  | [] => none
  | (k, value) :: rest => if k = key then some value else get? rest key

/-- The map with a value under a key, which takes the place of an earlier one. -/
def insert (map : Keyed α) (key : String) (value : α) : Keyed α :=
  match map with
  | [] => [(key, value)]
  | (k, v) :: rest =>
    if key < k then (key, value) :: (k, v) :: rest
    else if key = k then (key, value) :: rest
    else (k, v) :: insert rest key value

/-- The map without a key. -/
def erase (map : Keyed α) (key : String) : Keyed α := map.filter fun (k, _) => k ≠ key

/-- The keys in ascending order. -/
def keys (map : Keyed α) : List String := map.map Prod.fst

/-- The values in the order of their keys. -/
def values (map : Keyed α) : List α := map.map Prod.snd

@[simp]
theorem get?_insert_self (map : Keyed α) (key : String) (value : α) :
    (map.insert key value).get? key = some value := by
  induction map with
  | nil => simp [insert, get?]
  | cons entry rest ih =>
      obtain ⟨k, v⟩ := entry
      by_cases before : key < k
      · simp [insert, before, get?]
      · by_cases same : key = k
        · simp [insert, same, get?]
        · simp [insert, before, same, get?, Ne.symm same, ih]

theorem get?_insert_of_ne (map : Keyed α) (value : α) {key other : String}
    (different : other ≠ key) : (map.insert key value).get? other = map.get? other := by
  induction map with
  | nil => simp [insert, get?, Ne.symm different]
  | cons entry rest ih =>
      obtain ⟨k, v⟩ := entry
      by_cases before : key < k
      · simp [insert, before, get?, Ne.symm different]
      · by_cases same : key = k
        · subst same
          simp [insert, get?, Ne.symm different]
        · simp only [insert, before, same, if_false, get?, ih]

@[simp]
theorem get?_erase_self (map : Keyed α) (key : String) : (map.erase key).get? key = none := by
  induction map with
  | nil => rfl
  | cons entry rest ih =>
      obtain ⟨k, v⟩ := entry
      by_cases same : k = key
      · simpa [erase, same] using ih
      · simp only [erase, ne_eq, same, not_false_eq_true, decide_true, List.filter_cons_of_pos, get?]
        simpa [erase, same] using ih

theorem get?_erase_of_ne (map : Keyed α) {key other : String} (different : other ≠ key) :
    (map.erase key).get? other = map.get? other := by
  induction map with
  | nil => rfl
  | cons entry rest ih =>
      obtain ⟨k, v⟩ := entry
      by_cases same : k = key
      · subst same
        simp only [erase, ne_eq, not_true_eq_false, decide_false, Bool.false_eq_true,
          not_false_eq_true, List.filter_cons_of_neg, get?, Ne.symm different, if_false]
        simpa [erase] using ih
      · simp only [erase, ne_eq, same, not_false_eq_true, decide_true, List.filter_cons_of_pos, get?]
        by_cases found : k = other
        · simp [found]
        · simpa [erase, found] using ih

end Keyed

/-- A set of strings, as an ascending list. -/
def ascending (names : List String) : List String :=
  Keyed.keys (names.foldl (fun (set : Keyed Unit) name => set.insert name ()) [])

end CodeIntel
