import CodeIntel.Disk.Normal
import CodeIntel.Proofs.Text.Pieces
import Mathlib.Data.List.Basic

/-! Normal forms of paths. A normal form spells names one after another with a slash between neighbours;
cutting it at its slashes gives the names back, and it leads from any folder through these names. What
a path is brought to is always such a form. Bringing a normal form to its normal form changes nothing
as long as it has no backslash. -/

namespace CodeIntel

namespace Path

/-- Whether a text is the name of something in a folder. -/
def IsName (text : String) : Prop :=
  text ≠ "" ∧ text ≠ "." ∧ text ≠ ".." ∧ '/' ∉ text.toList

theorem notMem_of_mem_segments {path segment : String} (h : segment ∈ segments path) :
    '/' ∉ segment.toList := by
  obtain ⟨piece, hpiece, rfl⟩ := List.mem_map.mp h
  simpa using Text.notMem_of_mem_pieces hpiece

theorem segments_of_notMem {path : String} (h : '/' ∉ path.toList) : segments path = [path] := by
  rw [segments, Text.pieces_of_notMem h, List.map_singleton, String.ofList_toList]

theorem segments_append_slash (front back : String) :
    segments (front ++ "/" ++ back) = segments front ++ segments back := by
  rw [segments, String.toList_append, String.toList_append, List.append_assoc]
  change List.map String.ofList (Text.pieces '/' (front.toList ++ '/' :: back.toList)) = _
  rw [Text.pieces_append_cons, List.map_append]
  rfl

/-- Cutting segments that were put together gives them back. -/
theorem segments_intercalate {path : List String} (hne : path ≠ [])
    (hslash : ∀ segment ∈ path, '/' ∉ segment.toList) :
    segments (String.intercalate "/" path) = path := by
  induction path with
  | nil => exact absurd rfl hne
  | cons segment rest ih =>
      have hsegment := segments_of_notMem (hslash segment List.mem_cons_self)
      cases rest with
      | nil => rw [String.intercalate_singleton, hsegment]
      | cons next rest =>
          have hrest := ih (List.cons_ne_nil _ _)
            fun other hother => hslash other (List.mem_cons_of_mem _ hother)
          rw [String.intercalate_cons_cons, segments_append_slash, hsegment, hrest,
            List.singleton_append]

/-- Cutting a normal form gives its names. -/
theorem segments_ofRelative {names : List String} (hne : names ≠ [])
    (hnames : ∀ name ∈ names, IsName name) : segments (ofRelative names) = names :=
  segments_intercalate hne fun name hname => (hnames name hname).2.2.2

theorem isAbsolute_ofRelative {names : List String} (hnames : ∀ name ∈ names, IsName name) :
    isAbsolute (ofRelative names) = false := by
  cases names with
  | nil => rfl
  | cons name rest =>
      obtain ⟨hne, -, -, hslash⟩ := hnames name List.mem_cons_self
      have hlist : name.toList ≠ [] := fun h => hne (String.toList_eq_nil_iff.mp h)
      obtain ⟨first, others, hfirst⟩ := List.exists_cons_of_ne_nil hlist
      have hstart : (ofRelative (name :: rest)).toList.head? = some first := by
        cases rest with
        | nil => rw [ofRelative, String.intercalate_singleton, hfirst]; rfl
        | cons next rest =>
            rw [ofRelative, String.intercalate_cons_cons, String.toList_append, String.toList_append,
              hfirst]
            rfl
      rw [isAbsolute, hstart]
      rw [hfirst, List.mem_cons, not_or] at hslash
      simpa using Ne.symm hslash.1

theorem part?_of_isName {name : String} (h : IsName name) : part? name = some (.name name) := by
  obtain ⟨hne, hhere, hup, -⟩ := h
  simp [part?, hne, hhere, hup]

/-- The parts of a normal form are its names. -/
theorem parts_ofRelative {names : List String} (hnames : ∀ name ∈ names, IsName name) :
    parts (ofRelative names) = names.map .name := by
  have hparts : names.filterMap part? = names.map .name := by
    rw [← List.filterMap_eq_map]
    exact List.filterMap_congr fun name hname => part?_of_isName (hnames name hname)
  rw [parts, isAbsolute_ofRelative hnames, if_neg Bool.false_ne_true]
  cases names with
  | nil => rfl
  | cons name rest =>
      rw [segments_ofRelative (List.cons_ne_nil _ _) hnames]
      split
      · rename_i heq
        exact absurd (List.cons.inj heq).1 (hnames name List.mem_cons_self).2.1
      · exact hparts

theorem collapse?_names (front names : List String) :
    collapse? front (names.map .name) = some (front ++ names) := by
  induction names generalizing front with
  | nil => simp [collapse?]
  | cons name rest ih => rw [List.map_cons, collapse?, ih, List.append_assoc]; rfl

/-- The names among the parts of a path are names, and their characters come from the path. -/
theorem isName_of_mem_parts {path text : String} (h : .name text ∈ parts path) :
    IsName text ∧ ∀ c ∈ text.toList, c ∈ path.toList := by
  have hsegment : ∀ segment ∈ segments path, part? segment = some (.name text) →
      IsName text ∧ ∀ c ∈ text.toList, c ∈ path.toList := by
    intro segment hmem hpart
    rw [part?] at hpart
    split at hpart
    · cases hpart
    · rename_i hidle
      rw [not_or] at hidle
      split at hpart
      · cases hpart
      · rename_i hup
        obtain rfl := Part.name.inj (Option.some.inj hpart)
        refine ⟨⟨hidle.1, hidle.2, hup, notMem_of_mem_segments hmem⟩, fun c hc => ?_⟩
        obtain ⟨piece, hpiece, rfl⟩ := List.mem_map.mp hmem
        exact Text.mem_of_mem_pieces hpiece (by simpa using hc)
  rw [parts] at h
  split at h
  · rcases List.mem_cons.mp h with h | h
    · cases h
    · obtain ⟨segment, hmem, hpart⟩ := List.mem_filterMap.mp h
      exact hsegment segment hmem hpart
  · split at h
    · rename_i heq
      rcases List.mem_cons.mp h with h | h
      · cases h
      · obtain ⟨segment, hmem, hpart⟩ := List.mem_filterMap.mp h
        exact hsegment segment (heq ▸ List.mem_cons_of_mem _ hmem) hpart
    · obtain ⟨segment, hmem, hpart⟩ := List.mem_filterMap.mp h
      exact hsegment segment hmem hpart

/-- Collapsing takes its names from those it starts with and from the parts. -/
theorem mem_of_collapse? {front names : List String} {path : List Part} {text : String}
    (h : collapse? front path = some names) (hmem : text ∈ names) :
    text ∈ front ∨ .name text ∈ path := by
  fun_induction collapse? front path with
  | case1 front => exact .inl (Option.some.inj h ▸ hmem)
  | case2 front rest ih => exact (ih h).imp_right (List.mem_cons_of_mem _)
  | case3 => cases h
  | case4 front rest _ ih =>
      exact (ih h).imp (fun hfront => List.dropLast_subset _ hfront) (List.mem_cons_of_mem _)
  | case5 front name rest ih =>
      rcases ih h with hfront | hrest
      · rcases List.mem_append.mp hfront with hfront | hlast
        · exact .inl hfront
        · exact .inr (List.mem_singleton.mp hlast ▸ List.mem_cons_self)
      · exact .inr (List.mem_cons_of_mem _ hrest)
  | case6 => cases h

theorem mem_of_between? {base path rest : List Part} {text : String}
    (h : between? base path = some rest) (hmem : .name text ∈ rest) : .name text ∈ path := by
  fun_induction between? base path with
  | case1 path => exact Option.some.inj h ▸ hmem
  | case2 base => obtain rfl := Option.some.inj h; simp at hmem
  | case3 base p path ih => exact List.mem_cons_of_mem _ (ih h)
  | case4 => cases h
  | case5 b base p path =>
      obtain rfl := Option.some.inj h
      rcases List.mem_append.mp hmem with hup | hpath
      · simp at hup
      · exact hpath

theorem mem_of_relativeTo? {base path text : String} {rest : List Part}
    (h : relativeTo? base path = some rest) (hmem : .name text ∈ rest) : .name text ∈ parts path := by
  rw [relativeTo?] at h
  split at h
  · exact mem_of_between? h hmem
  · exact Option.some.inj h ▸ hmem

end Path

namespace Disk

open CodeIntel.Path

variable {disk : Disk} {root path key : String}

/-- A normal form is made of names; one of a relative path has no backslash. -/
theorem exists_names_of_normal? (h : disk.normal? root path = some key) :
    ∃ names, key = ofRelative names ∧ (∀ name ∈ names, IsName name) ∧
      (isAbsolute (slashed path) = false → ∀ name ∈ names, '\\' ∉ name.toList) := by
  obtain ⟨names, hnames, rfl⟩ := Option.map_eq_some_iff.mp h
  obtain ⟨relative, hrelative, hcollapse⟩ := Option.bind_eq_some_iff.mp hnames
  -- Every name stands in a path that was cut at its slashes.
  have horigin : ∀ name ∈ names, ∃ text : String, .name name ∈ parts text ∧
      (isAbsolute (slashed path) = false → text = slashed path) := by
    intro name hname
    have hpart := (mem_of_collapse? hcollapse hname).resolve_left List.not_mem_nil
    split at hrelative
    · rename_i habsolute
      exact ⟨_, mem_of_relativeTo? hrelative hpart, fun hfalse => by simp [hfalse] at habsolute⟩
    · exact ⟨_, Option.some.inj hrelative ▸ hpart, fun _ => rfl⟩
  refine ⟨names, rfl, fun name hname => ?_, fun hrelative name hname hslash => ?_⟩
  · obtain ⟨text, hpart, -⟩ := horigin name hname
    exact (isName_of_mem_parts hpart).1
  · obtain ⟨text, hpart, htext⟩ := horigin name hname
    have hmem := (isName_of_mem_parts hpart).2 _ hslash
    rw [htext hrelative, slashed, String.toList_ofList, List.mem_map] at hmem
    obtain ⟨c, -, hc⟩ := hmem
    split at hc
    · cases hc
    · exact absurd hc ‹_›

theorem slashed_of_notMem (h : '\\' ∉ path.toList) : slashed path = path := by
  have hmap : path.toList.map (fun c => if c = '\\' then '/' else c) = path.toList.map id := by
    refine List.map_congr_left fun c hc => ?_
    have hne : c ≠ '\\' := fun hback => h (hback ▸ hc)
    rw [if_neg hne, id]
  rw [slashed, hmap, List.map_id, String.ofList_toList]

/-- A normal form without a backslash is its own normal form, whatever is on the disk. -/
theorem normal?_ofRelative (disk : Disk) (root : String) (names : List String)
    (hnames : ∀ name ∈ names, IsName name) (hslash : '\\' ∉ (ofRelative names).toList) :
    disk.normal? root (ofRelative names) = some (ofRelative names) := by
  simp only [normal?, slashed_of_notMem hslash, isAbsolute_ofRelative hnames, Bool.false_eq_true,
    if_false, parts_ofRelative hnames, Option.bind_some, collapse?_names, List.nil_append,
    Option.map_some]

end Disk

end CodeIntel
