import CodeIntel.Workspace.Keyed
import Mathlib.Data.List.Sort
import Mathlib.Data.String.Basic

/-! Maps whose keys ascend. Every map of the workspace is made from the empty one by insertions and
erasures, which keep the order; so each key stands in it once, and looking a key up is the same as
finding its entry. -/

namespace CodeIntel

namespace Keyed

variable {α : Type} {map : Keyed α} {key other : String} {value found : α}

/-- Each key is greater than those before it. -/
def Ascending (map : Keyed α) : Prop := map.Pairwise fun first second => first.1 < second.1

theorem ascending_nil : Ascending ([] : Keyed α) := List.Pairwise.nil

theorem mem_of_get? (h : map.get? key = some value) : (key, value) ∈ map := by
  induction map with
  | nil => cases h
  | cons entry rest ih =>
      obtain ⟨first, kept⟩ := entry
      rw [get?] at h
      split at h
      · rename_i hkey
        rw [hkey, Option.some.inj h]
        exact List.mem_cons_self
      · exact List.mem_cons_of_mem _ (ih h)

/-- In an ascending map the entry of a key is the one that is looked up. -/
theorem Ascending.get?_of_mem (h : map.Ascending) (hmem : (key, value) ∈ map) :
    map.get? key = some value := by
  induction map with
  | nil => cases hmem
  | cons entry rest ih =>
      obtain ⟨first, kept⟩ := entry
      obtain ⟨hbelow, hrest⟩ := List.pairwise_cons.mp h
      rw [get?]
      rcases List.mem_cons.mp hmem with heq | hmem
      · obtain ⟨rfl, rfl⟩ := Prod.mk.inj heq
        rw [if_pos rfl]
      · have hne : first ≠ key := ne_of_lt (hbelow _ hmem)
        rw [if_neg hne, ih hrest hmem]

/-- What stands in a map after an insertion: the new entry and what stood there before. -/
theorem mem_of_mem_insert (hmem : (other, found) ∈ map.insert key value) :
    (other = key ∧ found = value) ∨ (other, found) ∈ map := by
  induction map with
  | nil => exact .inl (Prod.mk.inj (List.mem_singleton.mp hmem))
  | cons entry rest ih =>
      obtain ⟨first, kept⟩ := entry
      rw [insert] at hmem
      split at hmem
      · exact (List.mem_cons.mp hmem).imp_left Prod.mk.inj
      · split at hmem
        · rcases List.mem_cons.mp hmem with heq | hmem
          · exact .inl (Prod.mk.inj heq)
          · exact .inr (List.mem_cons_of_mem _ hmem)
        · rcases List.mem_cons.mp hmem with heq | hmem
          · exact .inr (heq ▸ List.mem_cons_self)
          · exact (ih hmem).imp_right (List.mem_cons_of_mem _)

theorem Ascending.insert (h : map.Ascending) (key : String) (value : α) :
    (map.insert key value).Ascending := by
  induction map with
  | nil => exact List.pairwise_singleton _ _
  | cons entry rest ih =>
      obtain ⟨first, kept⟩ := entry
      obtain ⟨hbelow, hrest⟩ := List.pairwise_cons.mp h
      rw [Keyed.insert]
      split
      · rename_i hbefore
        refine List.pairwise_cons.mpr ⟨fun entry hmem => ?_, h⟩
        rcases List.mem_cons.mp hmem with rfl | hmem
        · exact hbefore
        · exact lt_trans hbefore (hbelow entry hmem)
      · split
        · rename_i hkey
          exact List.pairwise_cons.mpr ⟨fun entry hmem => hkey ▸ hbelow entry hmem, hrest⟩
        · rename_i hnot hne
          have hafter : first < key := lt_of_le_of_ne (not_lt.mp hnot) (Ne.symm hne)
          refine List.pairwise_cons.mpr ⟨fun entry hmem => ?_, ih hrest⟩
          rcases mem_of_mem_insert hmem with ⟨hkey, -⟩ | hmem
          · exact hkey ▸ hafter
          · exact hbelow entry hmem

theorem Ascending.mem_insert (h : map.Ascending) :
    (other, found) ∈ map.insert key value ↔
      (other = key ∧ found = value) ∨ (other ≠ key ∧ (other, found) ∈ map) := by
  constructor
  · intro hmem
    by_cases hkey : other = key
    · subst hkey
      have hget := (h.insert other value).get?_of_mem hmem
      rw [get?_insert_self] at hget
      exact .inl ⟨rfl, (Option.some.inj hget).symm⟩
    · exact .inr ⟨hkey, (mem_of_mem_insert hmem).resolve_left fun hsame => hkey hsame.1⟩
  · rintro (⟨rfl, rfl⟩ | ⟨hne, hmem⟩)
    · exact mem_of_get? (get?_insert_self map other found)
    · refine mem_of_get? ?_
      rw [get?_insert_of_ne map value hne, h.get?_of_mem hmem]

theorem Ascending.erase (h : map.Ascending) (key : String) : (map.erase key).Ascending :=
  h.sublist List.filter_sublist

theorem mem_erase : (other, found) ∈ map.erase key ↔ other ≠ key ∧ (other, found) ∈ map := by
  simp [erase, and_comm]

/-- A key greater than all others goes to the end. -/
theorem insert_of_greater (h : ∀ entry ∈ map, entry.1 < key) (value : α) :
    map.insert key value = map ++ [(key, value)] := by
  induction map with
  | nil => rfl
  | cons entry rest ih =>
      obtain ⟨first, kept⟩ := entry
      have hafter : first < key := h _ List.mem_cons_self
      rw [insert, if_neg (not_lt_of_gt hafter), if_neg (ne_of_gt hafter),
        ih fun entry hmem => h entry (List.mem_cons_of_mem _ hmem)]
      rfl

theorem get?_of_greater (h : ∀ entry ∈ map, entry.1 < key) : map.get? key = none := by
  cases hget : map.get? key with
  | none => rfl
  | some value => exact absurd (h _ (mem_of_get? hget)) (lt_irrefl key)

/-- A value under a key that is there takes the place of another. -/
theorem Ascending.keys_insert (h : map.Ascending) (hkey : key ∈ map.keys) (value : α) :
    (map.insert key value).keys = map.keys := by
  induction map with
  | nil => cases hkey
  | cons entry rest ih =>
      obtain ⟨first, kept⟩ := entry
      obtain ⟨hbelow, hrest⟩ := List.pairwise_cons.mp h
      rcases List.mem_cons.mp hkey with rfl | hkey
      · rw [Keyed.insert, if_neg (lt_irrefl _), if_pos rfl]
        rfl
      · obtain ⟨entry, hmem, rfl⟩ := List.mem_map.mp hkey
        have hafter : first < entry.1 := hbelow entry hmem
        rw [Keyed.insert, if_neg (not_lt_of_gt hafter), if_neg (ne_of_gt hafter)]
        exact congrArg (first :: ·) (ih hrest hkey)

/-- The keys of an ascending map differ. -/
theorem Ascending.nodup_keys (h : map.Ascending) : map.keys.Nodup := by
  rw [keys, List.Nodup, List.pairwise_map]
  exact h.imp ne_of_lt

/-- The keys of a map are those under which something is found. -/
theorem mem_keys : key ∈ map.keys ↔ ∃ value, map.get? key = some value := by
  induction map with
  | nil => simp [keys, get?]
  | cons entry rest ih =>
      obtain ⟨first, kept⟩ := entry
      rw [get?]
      by_cases hkey : first = key
      · simp [keys, hkey]
      · rw [if_neg hkey, ← ih]
        simp [keys, Ne.symm hkey]

theorem mem_keys_insert : other ∈ (map.insert key value).keys ↔ other = key ∨ other ∈ map.keys := by
  by_cases hkey : other = key
  · subst hkey
    simp [mem_keys]
  · simp [mem_keys, get?_insert_of_ne map value hkey, hkey]

/-- Two ascending maps with the same keys list them alike. -/
theorem Ascending.keys_eq {others : Keyed α} (h : map.Ascending) (h' : others.Ascending)
    (hmem : ∀ key, key ∈ map.keys ↔ key ∈ others.keys) : map.keys = others.keys := by
  have hkeys : map.keys.Pairwise (· < ·) := List.pairwise_map.mpr h
  exact hkeys.eq_of_mem_iff (List.pairwise_map.mpr h') hmem

/-- An ascending map is what is found in it. -/
theorem Ascending.ext {others : Keyed α} (h : map.Ascending) (h' : others.Ascending)
    (hget : ∀ key, map.get? key = others.get? key) : map = others := by
  have : Std.Irrefl fun first second : String × α => first.1 < second.1 := ⟨fun _ => lt_irrefl _⟩
  refine List.Pairwise.eq_of_mem_iff h h' fun entry => ⟨fun hmem => ?_, fun hmem => ?_⟩
  · exact mem_of_get? ((hget entry.1).symm.trans (h.get?_of_mem hmem))
  · exact mem_of_get? ((hget entry.1).trans (h'.get?_of_mem hmem))

end Keyed

theorem mem_keys_foldl_insert {names : List String} {set : Keyed Unit} {name : String} :
    name ∈ (names.foldl (fun (set : Keyed Unit) name => set.insert name ()) set).keys ↔
      name ∈ set.keys ∨ name ∈ names := by
  induction names generalizing set with
  | nil => simp
  | cons first rest ih =>
      rw [List.foldl_cons, ih, Keyed.mem_keys_insert, List.mem_cons]
      tauto

/-- The ascending list of some names has exactly those names. -/
theorem mem_ascending {names : List String} {name : String} :
    name ∈ ascending names ↔ name ∈ names := by
  rw [ascending, mem_keys_foldl_insert]
  simp [Keyed.keys]

theorem pairwise_ascending (names : List String) : (ascending names).Pairwise (· < ·) := by
  suffices hfold : ∀ set : Keyed Unit, set.Ascending →
      (names.foldl (fun (set : Keyed Unit) name => set.insert name ()) set).Ascending from
    List.pairwise_map.mpr (hfold [] Keyed.ascending_nil)
  induction names with
  | nil => exact fun set hset => hset
  | cons name rest ih => exact fun set hset => ih _ (hset.insert name ())

theorem nodup_ascending (names : List String) : (ascending names).Nodup :=
  (pairwise_ascending names).imp ne_of_lt

end CodeIntel
