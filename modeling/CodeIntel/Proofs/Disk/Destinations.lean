import CodeIntel.Proofs.Disk.Places
import Mathlib.Data.List.DropRight

/-! Where paths lead by their text. The parts of a path are taken one after another: a name goes down, a
`..` goes up, and above the root folder there is nothing. On a disk without links this is what following a
path comes to whenever it comes to an end, settling an absolute path keeps its destination, and a normal
form has the destination of the path that was brought to it. -/

namespace CodeIntel

namespace Path

theorem parts_of_isAbsolute {path : String} (h : isAbsolute path = true) :
    parts path = .root :: (segments path).filterMap part? := by
  rw [parts, if_pos h]

/-- Without a `..` the segments of a path only say names. -/
theorem exists_names_of_notMem {path : List String} (hup : ".." ∉ path) :
    ∃ names : List String, path.filterMap part? = names.map .name := by
  induction path with
  | nil => exact ⟨[], rfl⟩
  | cons segment rest ih =>
      rw [List.mem_cons, not_or] at hup
      obtain ⟨names, hnames⟩ := ih hup.2
      by_cases hidle : segment = "" ∨ segment = "."
      · exact ⟨names, by rw [List.filterMap_cons, part?, if_pos hidle]; exact hnames⟩
      · refine ⟨segment :: names, ?_⟩
        rw [List.filterMap_cons, part?, if_neg hidle, if_neg (Ne.symm hup.1), hnames]
        rfl

/-- A relative path without a `..` collapses to its names. -/
theorem exists_collapse?_of_notMem {path : String} (habsolute : isAbsolute path = false)
    (hup : ".." ∉ segments path) : ∃ names, collapse? [] (parts path) = some names := by
  rw [parts, habsolute, if_neg Bool.false_ne_true]
  split
  · rename_i rest heq
    rw [heq, List.mem_cons, not_or] at hup
    obtain ⟨names, hnames⟩ := exists_names_of_notMem hup.2
    exact ⟨names, by rw [collapse?, hnames, collapse?_names, List.nil_append]⟩
  · obtain ⟨names, hnames⟩ := exists_names_of_notMem hup
    exact ⟨names, by rw [hnames, collapse?_names, List.nil_append]⟩

theorem part?_eq_none {segment : String} : part? segment = none ↔ isIdle segment = true := by
  rw [part?, isIdle, Bool.or_eq_true, beq_iff_eq, beq_iff_eq]
  split
  · simp_all
  · split <;> simp_all

/-- The idle segments at the end of a path say nothing. -/
theorem filterMap_rdropWhile (path : List String) :
    (path.rdropWhile isIdle).filterMap part? = path.filterMap part? := by
  induction path using List.reverseRecOn with
  | nil => rfl
  | append_singleton init last ih =>
      by_cases hidle : isIdle last = true
      · rw [List.rdropWhile_concat_pos _ _ _ hidle, ih, List.filterMap_append, List.filterMap_cons,
          part?_eq_none.mpr hidle, List.filterMap_nil, List.append_nil]
      · rw [List.rdropWhile_concat_neg _ _ _ hidle]

/-- Segments behind the slash of the root spell an absolute path that says what they say. -/
theorem parts_ofSegments {rest : List String} (hslash : ∀ segment ∈ rest, '/' ∉ segment.toList) :
    isAbsolute (ofSegments ("" :: rest)) = true ∧
      parts (ofSegments ("" :: rest)) = .root :: rest.filterMap part? := by
  cases rest with
  | nil => exact ⟨by decide, by decide⟩
  | cons next more =>
      have hfolder : isAbsolute (String.intercalate "/" ("" :: next :: more)) = true := by
        rw [String.intercalate_cons_cons, isAbsolute]
        simp
      have hall : ∀ segment ∈ "" :: next :: more, '/' ∉ segment.toList :=
        List.forall_mem_cons.mpr ⟨by decide, hslash⟩
      rw [ofSegments, if_neg (by simp)]
      refine ⟨hfolder, ?_⟩
      rw [parts_of_isAbsolute hfolder, segments_intercalate (List.cons_ne_nil _ _) hall]
      rfl

/-- The parent of an absolute path has all of its parts but the last. -/
theorem parts_of_parent? {path parent : String} (habsolute : isAbsolute path = true)
    (h : parent? path = some parent) :
    isAbsolute parent = true ∧ parts parent = (parts path).dropLast := by
  obtain ⟨rest, hsegments⟩ := segments_of_isAbsolute habsolute
  have hparts : parts path = .root :: (rest.rdropWhile isIdle).filterMap part? := by
    rw [parts_of_isAbsolute habsolute, hsegments, filterMap_rdropWhile]
    rfl
  obtain ⟨hroot, rfl⟩ : parts path ≠ [.root] ∧
      ofSegments (withoutIdleEnd (withoutIdleEnd (segments path)).dropLast) = parent := by
    rw [parent?] at h
    split at h
    · cases h
    · cases h
    · exact ⟨‹_›, Option.some.inj h⟩
  -- The last segment that says anything says the last part.
  have hrest : rest.rdropWhile isIdle ≠ [] := fun hnil => hroot (by rw [hparts, hnil]; rfl)
  have hlast := List.rdropWhile_last_not isIdle rest hrest
  obtain ⟨init, last, hinit⟩ := (List.eq_nil_or_concat _).resolve_left hrest
  simp only [hinit, List.concat_eq_append, List.getLast_append_singleton] at hlast
  obtain ⟨part, hpart⟩ := Option.ne_none_iff_exists'.mp fun hnone => hlast (part?_eq_none.mp hnone)
  have hfront : (parts path).dropLast = .root :: init.filterMap part? := by
    rw [hparts, hinit, List.concat_eq_append, List.filterMap_append, List.filterMap_cons, hpart,
      List.filterMap_nil, ← List.cons_append, List.dropLast_concat]
  have hparent : withoutIdleEnd (withoutIdleEnd (segments path)).dropLast =
      "" :: init.rdropWhile isIdle := by
    rw [hsegments]
    change withoutIdleEnd ("" :: rest.rdropWhile isIdle).dropLast = _
    rw [hinit, List.concat_eq_append, ← List.cons_append, List.dropLast_concat]
    rfl
  have hslash : ∀ segment ∈ init.rdropWhile isIdle, '/' ∉ segment.toList := by
    intro segment hmem
    have hin : segment ∈ rest.rdropWhile isIdle := by
      rw [hinit, List.concat_eq_append]
      exact List.mem_append_left _ ((List.rdropWhile_prefix isIdle init).subset hmem)
    refine notMem_of_mem_segments (?_ : segment ∈ segments path)
    rw [hsegments]
    exact List.mem_cons_of_mem _ ((List.rdropWhile_prefix isIdle rest).subset hin)
  rw [hparent, hfront, ← filterMap_rdropWhile init]
  exact parts_ofSegments hslash

end Path

namespace Disk

open CodeIntel.Path

/-- Where a part of a path leads from a place by its text. -/
def stepped (place : Place) : Part → Place
  | .root => []
  | .here => place
  | .up => place.dropLast
  | .name text => place ++ [text]

/-- Where a path taken from a place leads by its text. -/
def destination (place : Place) (path : String) : Place := (parts path).foldl stepped place

section

variable {place : Place} {path : String}

theorem foldl_stepped_names (place : Place) (names : List String) :
    (names.map Part.name).foldl stepped place = place ++ names := by
  induction names generalizing place with
  | nil => exact (List.append_nil place).symm
  | cons name rest ih => rw [List.map_cons, List.foldl_cons, ih, stepped, List.append_assoc]; rfl

/-- A normal form leads through its names. -/
theorem destination_ofRelative {names : List String} (hnames : ∀ name ∈ names, IsName name) :
    destination place (ofRelative names) = place ++ names := by
  rw [destination, parts_ofRelative hnames, foldl_stepped_names]

/-- The path of a place leads there. -/
theorem destination_ofNames {names : List String} (hnames : ∀ name ∈ names, IsName name) :
    destination place (ofNames names) = names := by
  rw [destination, parts_ofNames hnames, List.foldl_cons, foldl_stepped_names]
  rfl

theorem destination_of_isAbsolute (h : isAbsolute path = true) :
    destination place path = destination [] path := by
  rw [destination, destination, parts_of_isAbsolute h]
  rfl

/-- A destination is reached segment by segment. -/
theorem destination_eq_foldl (place : Place) (path : String) :
    destination place path = ((segments path).filterMap part?).foldl stepped (startOf place path) := by
  rw [destination, parts, startOf]
  split
  · rfl
  · split
    · rename_i heq
      rw [heq]
      rfl
    · rfl

/-- A path joined to a root leads where it leads from the destination of the root. -/
theorem destination_join (root path : String) :
    destination place (join root path) = destination (destination place root) path := by
  by_cases habsolute : isAbsolute path = true
  · rw [join, if_pos habsolute]
    exact (destination_of_isAbsolute habsolute).trans (destination_of_isAbsolute habsolute).symm
  · have hrelative := Bool.eq_false_iff.mpr habsolute
    obtain ⟨front, hsegments, hroot⟩ := segments_join root hrelative
    have hfront : (segments root).filterMap part? = front.filterMap part? := by
      rcases hroot with hroot | hroot
      · rw [hroot]
      · rw [hroot, List.filterMap_append]
        exact List.append_nil _
    rw [destination_eq_foldl place, hsegments, List.filterMap_append, List.foldl_append, ← hfront, startOf,
      isAbsolute_join root hrelative, ← startOf, ← destination_eq_foldl, destination_eq_foldl _ path,
      startOf, if_neg habsolute]

/-- Collapsing keeps the destination; the names that were collapsed so far stand behind the place. -/
theorem foldl_stepped_append {front names : List String} {path : List Part}
    (h : collapse? front path = some names) : path.foldl stepped (place ++ front) = place ++ names := by
  fun_induction collapse? front path with
  | case1 front => rw [Option.some.inj h]; rfl
  | case2 front rest ih => exact ih h
  | case3 => cases h
  | case4 front rest hne ih =>
      rw [List.foldl_cons, stepped, List.dropLast_append_of_ne_nil hne]
      exact ih h
  | case5 front name rest ih =>
      rw [List.foldl_cons, stepped, List.append_assoc]
      exact ih h
  | case6 => cases h

theorem foldl_stepped_of_collapse? {names : List String} {path : List Part}
    (h : collapse? [] path = some names) : path.foldl stepped place = place ++ names := by
  have happend : path.foldl stepped (place ++ []) = place ++ names := foldl_stepped_append h
  rwa [List.append_nil] at happend

/-- The names that a path has below a root lead from there to its destination. -/
theorem destination_of_parts_eq {root : String} {way : List Part} {names : List String}
    (hway : parts path = parts root ++ way) (hnames : collapse? [] way = some names) :
    destination [] path = destination [] root ++ names :=
  calc destination [] path = way.foldl stepped (destination [] root) := by
        rw [destination, hway, List.foldl_append, ← destination]
    _ = destination [] root ++ names := foldl_stepped_of_collapse? hnames

theorem mem_of_mem_foldl_stepped {path : List Part} {name : String}
    (h : name ∈ path.foldl stepped place) : name ∈ place ∨ .name name ∈ path := by
  induction path generalizing place with
  | nil => exact .inl h
  | cons part rest ih =>
      rcases ih h with h | h
      · cases part with
        | root => cases h
        | here => exact .inl h
        | up => exact .inl (List.dropLast_subset _ h)
        | name text =>
            refine (List.mem_append.mp h).imp_right fun hlast => ?_
            rw [List.mem_singleton.mp hlast]
            exact List.mem_cons_self
      · exact .inr (List.mem_cons_of_mem _ h)

/-- The names on the way to the destination of a path are names, with characters of the path. -/
theorem isName_of_mem_destination {name : String} (h : name ∈ destination [] path) :
    IsName name ∧ ∀ c ∈ name.toList, c ∈ path.toList :=
  isName_of_mem_parts ((mem_of_mem_foldl_stepped h).resolve_left List.not_mem_nil)

/-- An absolute path without a `..` says the names on the way to its destination. -/
theorem parts_of_notMem (habsolute : isAbsolute path = true) (hup : ".." ∉ segments path) :
    parts path = .root :: (destination [] path).map .name := by
  obtain ⟨names, hnames⟩ := exists_names_of_notMem hup
  rw [destination, parts_of_isAbsolute habsolute, hnames, List.foldl_cons, foldl_stepped_names]
  rfl

/-- The last name of a path leads on from the destination of its parent. -/
theorem destination_of_parent? {parent name : String} (habsolute : isAbsolute path = true)
    (hparent : parent? path = some parent) (hname : fileName? path = some name) :
    isAbsolute parent = true ∧ IsName name ∧ destination [] path = destination [] parent ++ [name] := by
  obtain ⟨hfolder, hparts⟩ := parts_of_parent? habsolute hparent
  have hlast : (parts path).getLast? = some (.name name) := by
    rw [fileName?] at hname
    split at hname
    · rw [← Option.some.inj hname]
      assumption
    · cases hname
  refine ⟨hfolder, (isName_of_mem_parts (List.mem_of_getLast? hlast)).1, ?_⟩
  rw [destination, ← List.dropLast_append_getLast? _ hlast, ← hparts, List.foldl_append]
  rfl

theorem up_notMem_parts (habsolute : isAbsolute path = true) (hup : ".." ∉ segments path) :
    .up ∉ parts path := by
  rw [parts_of_notMem habsolute hup]
  simp

end

/-! ### Without links -/

section

variable {disk : Disk} {place : Place} {path : String}

/-- A walk that comes to an end ends where its segments lead, over names that can be looked up. -/
theorem LinkFree.of_follow (hfree : disk.LinkFree []) {links : Nat} {start : Place}
    {path : List String} {stop : Place × Nat} (h : disk.follow links start path = .ok stop) :
    stop.1 = (path.filterMap part?).foldl stepped start ∧
      ∀ name ∈ stop.1, name ∈ start ∨ name.utf8ByteSize ≤ mostNameBytes := by
  induction path generalizing start with
  | nil =>
      rw [follow_nil] at h
      obtain rfl := Except.ok.inj h
      exact ⟨rfl, fun name hmem => .inl hmem⟩
  | cons segment rest ih =>
      rw [List.filterMap_cons]
      obtain ⟨-, ⟨hpart, h⟩ | ⟨hpart, h⟩ | ⟨hpart, hshort, -, h⟩⟩ := hfree.follow_cons_eq_ok.mp h
      · rw [hpart]
        exact ih h
      · rw [hpart]
        obtain ⟨hstop, hnames⟩ := ih h
        exact ⟨hstop, fun name hmem => (hnames name hmem).imp_left fun hin => List.dropLast_subset _ hin⟩
      · rw [hpart]
        obtain ⟨hstop, hnames⟩ := ih h
        refine ⟨hstop, fun name hmem => ?_⟩
        rcases hnames name hmem with hin | hbound
        · refine (List.mem_append.mp hin).imp_right fun hlast => ?_
          rwa [List.mem_singleton.mp hlast]
        · exact .inr hbound

/-- What is read under the path of a place is the file there. -/
theorem LinkFree.find?_of_read (hfree : disk.LinkFree []) {content : ByteArray}
    (hnames : ∀ name ∈ place, IsName name) (hread : disk.read (ofNames place) = .ok content) :
    disk.top.find? place = some (.file content) := by
  obtain ⟨-, stop, links, hwalk, hfile⟩ := read_eq_ok.mp hread
  obtain ⟨hstop, -⟩ := hfree.of_follow hwalk
  rw [← destination_eq_foldl, destination_ofNames hnames] at hstop
  rwa [← hstop]

/-- What an absolute path is located at is its destination. -/
theorem LinkFree.of_locate (hfree : disk.LinkFree []) (habsolute : isAbsolute path = true)
    (h : disk.locate path = .ok place) :
    place = destination [] path ∧ ∀ name ∈ place, CanName name := by
  obtain ⟨hnull, -, links, hwalk⟩ := locate_eq_ok.mp h
  rw [startOf, if_pos habsolute] at hwalk
  obtain ⟨rfl, hshort⟩ : place = destination [] path ∧ _ := by
    rw [destination_eq_foldl, startOf, if_pos habsolute]
    exact hfree.of_follow hwalk
  refine ⟨rfl, fun name hmem => ?_⟩
  obtain ⟨hname, hchars⟩ := isName_of_mem_destination hmem
  exact ⟨hname, fun hin => hnull (hchars _ hin), (hshort name hmem).resolve_left List.not_mem_nil⟩

theorem LinkFree.canonical?_eq (hfree : disk.LinkFree []) (habsolute : isAbsolute path = true)
    {canonical : String} (h : disk.canonical? path = some canonical) :
    canonical = ofNames (destination [] path) := by
  rw [canonical?] at h
  split at h
  · rename_i place hplace
    rw [← (hfree.of_locate habsolute hplace).1]
    exact (Option.some.inj h).symm
  · cases h

/-- An absolute path is settled to that of its destination or stays as it is, and it does not stay if it
leads to anything. -/
theorem LinkFree.settled_cases (hfree : disk.LinkFree []) (habsolute : isAbsolute path = true) :
    disk.settled path = ofNames (destination [] path) ∨
      disk.settled path = path ∧ ∀ place, disk.locate path ≠ .ok place := by
  rw [settled]
  split
  · exact .inl (hfree.canonical?_eq habsolute ‹_›)
  · rename_i hnone
    have hmissing : ∀ place, disk.locate path ≠ .ok place := by
      intro place hplace
      rw [canonical?, hplace] at hnone
      cases hnone
    split
    · rename_i parent name hparent hname
      split
      · rename_i canonical hcanonical
        obtain ⟨hfolder, hisName, hdestination⟩ := destination_of_parent? habsolute hparent hname
        have hnames : ∀ other ∈ destination [] parent, IsName other :=
          fun _ hmem => (isName_of_mem_destination hmem).1
        rw [hfree.canonical?_eq hfolder hcanonical, join_ofNames_name hnames hisName, hdestination]
        exact .inl rfl
      · exact .inr ⟨rfl, hmissing⟩
    · exact .inr ⟨rfl, hmissing⟩

/-- Settling keeps the destination of an absolute path. -/
theorem LinkFree.destination_settled (hfree : disk.LinkFree []) (habsolute : isAbsolute path = true) :
    destination [] (disk.settled path) = destination [] path := by
  rcases hfree.settled_cases habsolute with hsettled | ⟨hsettled, -⟩
  · rw [hsettled, destination_ofNames fun _ hmem => (isName_of_mem_destination hmem).1]
  · rw [hsettled]

theorem LinkFree.settled_ofNames (hfree : disk.LinkFree []) (hnames : ∀ name ∈ place, IsName name) :
    disk.settled (ofNames place) = ofNames place := by
  rcases hfree.settled_cases (isAbsolute_ofNames place) with hsettled | ⟨hsettled, -⟩
  · rw [hsettled, destination_ofNames hnames]
  · exact hsettled

/-! ### Normal forms -/

variable {root key : String}

/-- A normal form has the names from the root to the destination of the path that it comes from. -/
theorem LinkFree.exists_of_normal? (hfree : disk.LinkFree []) (hroot : isAbsolute root = true)
    (hup : .up ∉ parts root) (h : disk.normal? root path = some key) :
    ∃ names, key = ofRelative names ∧ (∀ name ∈ names, IsName name ∧ '\\' ∉ name.toList) ∧
      destination (destination [] root) (slashed path) = destination [] root ++ names := by
  -- Every name stands in the path with its backslashes turned.
  have hclean : ∀ name, .name name ∈ parts (slashed path) → IsName name ∧ '\\' ∉ name.toList := by
    intro name hmem
    obtain ⟨hname, hchars⟩ := isName_of_mem_parts hmem
    exact ⟨hname, fun hin => notMem_slashed path (hchars _ hin)⟩
  by_cases habsolute : isAbsolute (slashed path) = true
  · obtain ⟨relative, names, hrelative, hnames, rfl⟩ := (normal?_of_isAbsolute habsolute).mp h
    rw [relativeTo?, if_pos hroot] at hrelative
    have hdestination : destination [] (slashed path) = destination [] root ++ names := by
      rw [← hfree.destination_settled habsolute]
      exact destination_of_parts_eq (parts_of_between? hrelative hnames hup) hnames
    refine ⟨names, rfl, fun name hmem => hclean name ?_, ?_⟩
    · have hin : name ∈ destination [] (slashed path) := by
        rw [hdestination]
        exact List.mem_append_right _ hmem
      exact (mem_of_mem_foldl_stepped hin).resolve_left List.not_mem_nil
    · rw [destination_of_isAbsolute habsolute, hdestination]
  · rw [normal?, if_neg habsolute] at h
    obtain ⟨names, hnames, rfl⟩ := Option.map_eq_some_iff.mp h
    refine ⟨names, rfl, fun name hmem => hclean name ?_, ?_⟩
    · exact (mem_of_collapse? hnames hmem).resolve_left List.not_mem_nil
    · exact foldl_stepped_of_collapse? hnames

/-- Without links a path inside a root has no backslash, once its own have become slashes: neither its
normal form has one nor the path of the root. -/
theorem LinkFree.notMem_of_normal? (hfree : disk.LinkFree []) {root : Place}
    (hroot : ∀ name ∈ root, IsName name) (habsolute : isAbsolute path = true)
    (h : disk.normal? (ofNames root) path = some key) :
    '\\' ∉ (ofNames root).toList ∧ '\\' ∉ key.toList := by
  have hup : .up ∉ parts (ofNames root) := by simp [parts_ofNames hroot]
  obtain ⟨names, rfl, hnames, hdestination⟩ :=
    hfree.exists_of_normal? (isAbsolute_ofNames root) hup h
  rw [destination_of_isAbsolute (isAbsolute_slashed habsolute), destination_ofNames hroot]
    at hdestination
  constructor
  · rw [mem_toList_ofNames (by decide)]
    rintro ⟨name, hmem, hchar⟩
    have hin : name ∈ destination [] (slashed path) := by
      rw [hdestination]
      exact List.mem_append_left _ hmem
    exact notMem_slashed path ((isName_of_mem_destination hin).2 _ hchar)
  · rw [ofRelative, mem_toList_intercalate (by decide)]
    rintro ⟨name, hmem, hchar⟩
    exact (hnames name hmem).2 hchar

/-- Below a root the path of a place without backslashes is brought to the names from the root on. -/
theorem LinkFree.normal?_ofNames (hfree : disk.LinkFree []) {root names : Place}
    (hnames : ∀ name ∈ root ++ names, IsName name)
    (hslash : '\\' ∉ (ofNames (root ++ names)).toList) :
    disk.normal? (ofNames root) (ofNames (root ++ names)) = some (ofRelative names) := by
  have habsolute := isAbsolute_slashed (isAbsolute_ofNames (root ++ names))
  refine (normal?_of_isAbsolute habsolute).mpr ⟨names.map .name, names, ?_, ?_, rfl⟩
  · rw [slashed_of_notMem hslash, hfree.settled_ofNames hnames, relativeTo?,
      if_pos (isAbsolute_ofNames _), parts_ofNames hnames,
      parts_ofNames fun name hmem => hnames name (List.mem_append_left _ hmem), List.map_append]
    exact between?_append (.root :: root.map .name) _
  · rw [collapse?_names, List.nil_append]

/-! ### Ways to a place -/

theorem kindAt_of_below {names : Place} (hne : names ≠ []) (h : disk.kindAt (place ++ names) ≠ none) :
    disk.kindAt place = some .folder := by
  rw [kindAt, ne_eq, Option.map_eq_none_iff, Entry.find?_append] at h
  obtain ⟨entry, hentry⟩ := Option.ne_none_iff_exists'.mp h
  obtain ⟨folder, hfolder, hbelow⟩ := Option.bind_eq_some_iff.mp hentry
  obtain ⟨children, rfl⟩ := Entry.exists_folder_of_find? hne hbelow
  rw [kindAt, hfolder]
  rfl

theorem kindAt_of_append {names : Place} (h : disk.kindAt (place ++ names) = some .folder) :
    disk.kindAt place = some .folder := by
  cases names with
  | nil => rwa [List.append_nil] at h
  | cons first rest => exact kindAt_of_below (List.cons_ne_nil first rest) (by rw [h]; simp)

/-- A walk without a `..` gets to the folder whose names it says. -/
theorem LinkFree.follow_of_folder (hfree : disk.LinkFree []) {links : Nat} {start names : Place}
    {path : List String} (hpath : path.filterMap part? = names.map .name)
    (hshort : ∀ name ∈ names, name.utf8ByteSize ≤ mostNameBytes)
    (h : disk.kindAt (start ++ names) = some .folder) :
    disk.follow links start path = .ok (start ++ names, links) := by
  induction path generalizing start names with
  | nil =>
      obtain rfl := List.map_eq_nil_iff.mp hpath.symm
      rw [follow_nil, List.append_nil]
  | cons segment rest ih =>
      refine hfree.follow_cons_eq_ok.mpr ⟨kindAt_of_append h, ?_⟩
      cases hpart : part? segment with
      | none =>
          rw [List.filterMap_cons, hpart] at hpath
          exact .inl ⟨rfl, ih hpath hshort h⟩
      | some part =>
          rw [List.filterMap_cons, hpart] at hpath
          obtain ⟨name, others, rfl, rfl, hothers⟩ := List.map_eq_cons_iff.mp hpath.symm
          obtain rfl : name = segment := by
            rw [part?] at hpart
            split at hpart
            · cases hpart
            · split at hpart
              · cases hpart
              · exact (Part.name.inj (Option.some.inj hpart)).symm
          rw [List.append_cons] at h ⊢
          refine .inr (.inr ⟨rfl, hshort _ List.mem_cons_self, ?_, ?_⟩)
          · rw [kindAt_of_append h]
            simp
          · exact ih hothers.symm (fun other hmem => hshort other (List.mem_cons_of_mem _ hmem)) h

/-- Apart from slashes and dots an absolute path without a `..` has the characters of its names. -/
theorem exists_name_of_mem (habsolute : isAbsolute path = true) (hup : ".." ∉ segments path) {c : Char}
    (hc : c ∈ path.toList) (hslash : c ≠ '/') (hdot : c ≠ '.') :
    ∃ name ∈ destination [] path, c ∈ name.toList := by
  obtain ⟨piece, hpiece, hin⟩ := Text.exists_piece_of_mem hc hslash
  have hsegment : String.ofList piece ∈ segments path := List.mem_map_of_mem hpiece
  have hchar : c ∈ (String.ofList piece).toList := by rwa [String.toList_ofList]
  refine ⟨_, ?_, hchar⟩
  have hpart : part? (String.ofList piece) = some (.name (String.ofList piece)) := by
    rw [part?, if_neg, if_neg]
    · exact fun hparent => hup (hparent ▸ hsegment)
    · rintro (hempty | hhere)
      · rw [hempty] at hchar
        simp at hchar
      · rw [hhere] at hchar
        exact hdot (by simpa using hchar)
  have hmem : .name (String.ofList piece) ∈ parts path := by
    rw [parts_of_isAbsolute habsolute]
    exact List.mem_cons_of_mem _ (List.mem_filterMap.mpr ⟨_, hsegment, hpart⟩)
  rw [parts_of_notMem habsolute hup] at hmem
  simpa using hmem

/-- A place below a root is located under its names from the root on. -/
theorem LinkFree.locate_join (hfree : disk.LinkFree []) {names : Place}
    (hroot : isAbsolute root = true) (hup : ".." ∉ segments root) (hne : names ≠ [])
    (hnames : ∀ name ∈ destination [] root ++ names, CanName name)
    (h : disk.kindAt (destination [] root ++ names) ≠ none) :
    disk.locate (join root (ofRelative names)) = .ok (destination [] root ++ names) := by
  have hbelow : ∀ name ∈ names, CanName name :=
    fun name hmem => hnames name (List.mem_append_right _ hmem)
  have hisNames : ∀ name ∈ names, IsName name := fun name hmem => (hbelow name hmem).1
  have hnull : '\x00' ∉ (join root (ofRelative names)).toList := by
    intro hin
    obtain ⟨name, hmem, hchar⟩ : ∃ name ∈ destination [] root ++ names, '\x00' ∈ name.toList := by
      rcases mem_toList_join (by decide) hin with hin | hin
      · obtain ⟨name, hmem, hchar⟩ := exists_name_of_mem hroot hup hin (by decide) (by decide)
        exact ⟨name, List.mem_append_left _ hmem, hchar⟩
      · obtain ⟨name, hmem, hchar⟩ := (mem_toList_intercalate (by decide)).mp hin
        exact ⟨name, List.mem_append_right _ hmem, hchar⟩
    exact (hnames name hmem).2.1 hchar
  have habsolute := (isAbsolute_join root (isAbsolute_ofRelative hisNames)).trans hroot
  refine locate_eq_ok.mpr ⟨hnull, ne_empty_of_isAbsolute habsolute, mostLinks, ?_⟩
  -- The names of the root lead to its folder, and those below it on to the place.
  have hpath : (segments root).filterMap part? = (destination [] root).map .name := by
    have hparts := parts_of_notMem hroot hup
    rw [parts_of_isAbsolute hroot] at hparts
    exact (List.cons.inj hparts).2
  have hwalk : disk.walkTo root = .ok (destination [] root, mostLinks) := by
    rw [walkTo, startOf, if_pos hroot]
    exact hfree.follow_of_folder hpath
      (fun name hmem => (hnames name (List.mem_append_left _ hmem)).2.2) (kindAt_of_below hne h)
  rw [kindAt, ne_eq, Option.map_eq_none_iff] at h
  obtain ⟨entry, hentry⟩ := Option.ne_none_iff_exists'.mp h
  rw [follow_join disk root hne hisNames, hwalk]
  refine follow_names_of_find? hbelow hentry ?_ mostLinks
  rintro target rfl
  obtain ⟨init, last, rfl⟩ := (List.eq_nil_or_concat names).resolve_left hne
  refine hfree.ne_link (destination [] root ++ init) last target ?_
  rw [List.append_assoc, ← List.concat_eq_append, kindAt, hentry]
  rfl

end

end Disk

end CodeIntel
