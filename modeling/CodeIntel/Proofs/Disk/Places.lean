import CodeIntel.Proofs.Disk.Listing

/-! Where the absolute path of a place leads. On a disk whose names a file system can hold, the path of a
place leads back to it, so that a file is read under it. -/

namespace CodeIntel

namespace Path

section

variable {names : List String} {c : Char}

/-- The characters of a path are those of its names, apart from the slashes. -/
theorem mem_toList_intercalate (hc : c ≠ '/') :
    c ∈ (String.intercalate "/" names).toList ↔ ∃ name ∈ names, c ∈ name.toList := by
  induction names with
  | nil => simp
  | cons name rest ih =>
      rcases List.eq_nil_or_concat rest with rfl | ⟨_, _, hrest⟩
      · simp
      · have hne : rest ≠ [] := by simp [hrest]
        rw [String.intercalate_cons_of_ne_nil hne, String.toList_append, String.toList_append,
          List.mem_append, List.mem_append, ih]
        simp [hc]

theorem mem_toList_ofNames (hc : c ≠ '/') :
    c ∈ (ofNames names).toList ↔ ∃ name ∈ names, c ∈ name.toList := by
  rw [ofNames, String.toList_append, List.mem_append, mem_toList_intercalate hc]
  simp [hc]

theorem isAbsolute_ofNames (names : List String) : isAbsolute (ofNames names) = true := by
  rw [isAbsolute, ofNames, String.toList_append]
  rfl

theorem ne_empty_of_isAbsolute {path : String} (h : isAbsolute path = true) : path ≠ "" := by
  rintro rfl
  exact absurd h (by decide)

theorem segments_ofNames (hne : names ≠ []) (hnames : ∀ name ∈ names, IsName name) :
    segments (ofNames names) = "" :: names := by
  have hslash : ofNames names = "" ++ "/" ++ ofRelative names := rfl
  rw [hslash, segments_append_slash, segments_ofRelative hne hnames]
  simp [segments, Text.pieces]

theorem filterMap_part? (hnames : ∀ name ∈ names, IsName name) :
    names.filterMap part? = names.map .name := by
  rw [← List.filterMap_eq_map]
  exact List.filterMap_congr fun name hname => part?_of_isName (hnames name hname)

theorem parts_ofNames (hnames : ∀ name ∈ names, IsName name) :
    parts (ofNames names) = .root :: names.map .name := by
  rw [parts, if_pos (isAbsolute_ofNames names)]
  rcases List.eq_nil_or_concat names with rfl | ⟨_, _, hcons⟩
  · decide
  · rw [segments_ofNames (by simp [hcons]) hnames, List.filterMap_cons, filterMap_part? hnames]
    rfl

/-- The path of a place ends in its last name. -/
theorem getLast?_ofNames_ne (hne : names ≠ []) (hnames : ∀ name ∈ names, IsName name) :
    (ofNames names).toList.getLast? ≠ some '/' := by
  obtain ⟨init, last, rfl⟩ := (List.eq_nil_or_concat names).resolve_left hne
  rw [List.concat_eq_append] at *
  obtain ⟨hlast, -, -, hslash⟩ := hnames last (by simp)
  have hend : ∃ front : String, ofNames (init ++ [last]) = front ++ last := by
    rcases List.eq_nil_or_concat init with rfl | ⟨_, _, hinit⟩
    · exact ⟨"/", by simp [ofNames]⟩
    · refine ⟨"/" ++ (String.intercalate "/" init ++ "/"), ?_⟩
      rw [ofNames, String.intercalate_append_of_ne_nil (by simp [hinit]) (by simp),
        String.intercalate_singleton, ← String.append_assoc]
  obtain ⟨front, hfront⟩ := hend
  rw [hfront, String.toList_append, List.getLast?_append_of_ne_nil]
  · exact fun h => hslash (List.mem_of_getLast? h)
  · exact fun h => hlast (String.toList_eq_nil_iff.mp h)

/-- A path joined to that of a folder is the path of the place below the folder. -/
theorem join_ofNames {root : List String} (hroot : ∀ name ∈ root, IsName name) (hne : names ≠ [])
    (hnames : ∀ name ∈ names, IsName name) :
    join (ofNames root) (ofRelative names) = ofNames (root ++ names) := by
  rw [join, isAbsolute_ofRelative hnames, if_neg Bool.false_ne_true]
  rcases List.eq_nil_or_concat root with rfl | ⟨_, _, hlast⟩
  · rw [if_pos (.inr (by decide))]
    rfl
  · have hrootNe : root ≠ [] := by simp [hlast]
    have hsome := ne_empty_of_isAbsolute (isAbsolute_ofNames root)
    rw [if_neg (not_or.mpr ⟨hsome, getLast?_ofNames_ne hrootNe hroot⟩), ofNames, ofNames,
      String.intercalate_append_of_ne_nil hrootNe hne]
    simp only [String.append_assoc, ofRelative]

theorem join_ofNames_name {root : List String} (hroot : ∀ name ∈ root, IsName name) {name : String}
    (hname : IsName name) : join (ofNames root) name = ofNames (root ++ [name]) := by
  have hjoin := join_ofNames hroot (List.cons_ne_nil name []) (by simpa using hname)
  rwa [ofRelative, String.intercalate_singleton] at hjoin

theorem segments_of_isAbsolute {path : String} (h : isAbsolute path = true) :
    ∃ rest, segments path = "" :: rest := by
  obtain ⟨cs, hcs⟩ : ∃ cs, path.toList = '/' :: cs :=
    List.head?_eq_some_iff.mp (by simpa [isAbsolute] using h)
  exact ⟨_, by rw [segments, hcs, Text.pieces, if_pos rfl]; rfl⟩

theorem mem_toList_join {folder path : String} (hc : c ≠ '/') (h : c ∈ (join folder path).toList) :
    c ∈ folder.toList ∨ c ∈ path.toList := by
  rw [join] at h
  split at h
  · exact .inr h
  · split at h
    · simpa using h
    · simpa [hc] using h

/-- What leads from a base to a path without going up is the rest of the path. -/
theorem parts_of_between? {base path rest : List Part} {names : List String}
    (h : between? base path = some rest) (hdown : collapse? [] rest = some names)
    (hbase : .up ∉ base) : path = base ++ rest := by
  fun_induction between? base path with
  | case1 path => exact Option.some.inj h
  | case2 base hne =>
      obtain rfl := Option.some.inj h
      obtain ⟨first, others, rfl⟩ := List.exists_cons_of_ne_nil (fun hnil => hne hnil)
      simp [collapse?] at hdown
  | case3 base p path ih =>
      rw [List.cons_append, ih h (fun hmem => hbase (List.mem_cons_of_mem _ hmem))]
  | case4 => cases h
  | case5 b base p path =>
      obtain rfl := Option.some.inj h
      simp [collapse?] at hdown

end

end Path

namespace Disk

open CodeIntel.Path

/-- Whether a file system can hold a name. -/
def CanName (name : String) : Prop :=
  IsName name ∧ '\x00' ∉ name.toList ∧ name.utf8ByteSize ≤ mostNameBytes

/-- A disk as a file system holds it. The names in one folder differ, and every name can be looked up. -/
structure Tidy (disk : Disk) : Prop where
  distinct : disk.top.Distinct
  names : ∀ place entry, disk.top.find? place = some entry → ∀ name ∈ place, CanName name

/-- The names of a place lead to it unless a link stands there. -/
theorem follow_names_of_find? {disk : Disk} {place names : Place} {entry : Entry}
    (hnames : ∀ name ∈ names, CanName name) (h : disk.top.find? (place ++ names) = some entry)
    (hlink : ∀ target, entry ≠ .link target) (links : Nat) :
    disk.follow links place names = .ok (place ++ names, links) := by
  induction names generalizing place with
  | nil => rw [follow_nil, List.append_nil]
  | cons name rest ih =>
      obtain ⟨⟨hne, hhere, hup, -⟩, -, hshort⟩ := hnames name List.mem_cons_self
      have hnext : disk.top.find? (place ++ [name] ++ rest) = some entry := by
        rwa [List.append_assoc]
      have hstep := ih (fun other hother => hnames other (List.mem_cons_of_mem _ hother)) hnext
      rw [List.append_assoc, List.singleton_append] at hstep
      rw [Entry.find?_append] at h hnext
      obtain ⟨folder, hfolder, hbelow⟩ := Option.bind_eq_some_iff.mp h
      obtain ⟨child, hchild, hrest⟩ := Option.bind_eq_some_iff.mp hnext
      obtain ⟨children, _, rfl, -, -⟩ := Entry.find?_cons_eq_some.mp hbelow
      have hkind : disk.kindAt place = some .folder := by
        rw [kindAt, hfolder]
        rfl
      have hchildKind : disk.kindAt (place ++ [name]) = some child.kind := by
        rw [kindAt, hchild]
        rfl
      have hplain : ∀ target, child ≠ .link target := by
        rintro target rfl
        cases rest with
        | nil => exact hlink target (Option.some.inj hrest).symm
        | cons => cases hrest
      rw [follow_cons, hkind]
      dsimp only
      rw [if_neg (not_or.mpr ⟨hne, hhere⟩), if_neg hup, if_neg (Nat.not_lt.mpr hshort), hchildKind]
      cases child with
      | file | folder => exact hstep
      | link target => exact absurd rfl (hplain target)

section

variable {disk : Disk} {place : Place} {entry : Entry}

/-- The path of a place leads there. -/
theorem Tidy.locate_ofNames (htidy : disk.Tidy) (hne : place ≠ [])
    (h : disk.top.find? place = some entry) (hlink : ∀ target, entry ≠ .link target) :
    disk.locate (ofNames place) = .ok place := by
  have hnames := htidy.names place entry h
  have hisNames : ∀ name ∈ place, IsName name := fun name hmem => (hnames name hmem).1
  have hwalk : disk.follow mostLinks [] place = .ok (place, mostLinks) :=
    follow_names_of_find? hnames h hlink mostLinks
  have htop : disk.kindAt [] = some .folder := by
    obtain ⟨children, htop⟩ := Entry.exists_folder_of_find? hne h
    rw [kindAt, htop]
    rfl
  have hnull : '\x00' ∉ (ofNames place).toList := by
    rw [mem_toList_ofNames (by decide)]
    rintro ⟨name, hmem, hchar⟩
    exact (hnames name hmem).2.1 hchar
  refine locate_eq_ok.mpr
    ⟨hnull, ne_empty_of_isAbsolute (isAbsolute_ofNames place), mostLinks, ?_⟩
  rw [startOf, if_pos (isAbsolute_ofNames place), segments_ofNames hne hisNames, follow_cons, htop]
  dsimp only
  rw [if_pos (.inl rfl), hwalk]

/-- A file is read under the path of its place, unless that is too long. -/
theorem Tidy.read_ofNames (htidy : disk.Tidy) {content : ByteArray} (hne : place ≠ [])
    (h : disk.top.find? place = some (.file content)) :
    disk.read (ofNames place) = .ok content ∨ disk.read (ofNames place) = .error .nameTooLong := by
  have hlocate := htidy.locate_ofNames hne h (by simp)
  obtain ⟨hnull, hsome, -⟩ := locate_eq_ok.mp hlocate
  by_cases hlong : mostPathBytes < (ofNames place).utf8ByteSize
  · refine .inr ?_
    have hrefused : admissible (ofNames place) = .error .nameTooLong := by
      rw [admissible, String.contains_char_eq, if_neg (by simpa using hnull), if_pos hlong]
    rw [read, resolve, hrefused]
    rfl
  · refine .inl (read_eq_ok.mpr ⟨admissible_eq_ok.mpr ⟨?_, Nat.not_lt.mp hlong, hsome⟩, place, ?_⟩)
    · simpa [String.contains_char_eq] using hnull
    · obtain ⟨-, -, links, hwalk⟩ := locate_eq_ok.mp hlocate
      exact ⟨links, hwalk, h⟩

theorem LinkFree.ne_link (hfree : disk.LinkFree []) (start : Place) (name target : String) :
    disk.kindAt (start ++ [name]) ≠ some (.link target) := by
  obtain ⟨first, rest, hplace⟩ : ∃ first rest, start ++ [name] = first :: rest :=
    List.exists_cons_of_ne_nil (by simp)
  rw [hplace]
  exact hfree first rest target

/-- One step of a walk without links: the segment says nothing, leads up, or is the name of what stands
in the folder. -/
theorem LinkFree.follow_cons_eq_ok (hfree : disk.LinkFree []) {links : Nat} {start : Place}
    {segment : String} {rest : List String} {stop : Place × Nat} :
    disk.follow links start (segment :: rest) = .ok stop ↔
      disk.kindAt start = some .folder ∧
        (part? segment = none ∧ disk.follow links start rest = .ok stop ∨
          part? segment = some .up ∧ disk.follow links start.dropLast rest = .ok stop ∨
          part? segment = some (.name segment) ∧ segment.utf8ByteSize ≤ mostNameBytes ∧
            disk.kindAt (start ++ [segment]) ≠ none ∧
            disk.follow links (start ++ [segment]) rest = .ok stop) := by
  rw [follow_cons]
  cases hstart : disk.kindAt start with
  | none => simp
  | some kind =>
      cases kind with
      | file | link => simp
      | folder =>
          by_cases hidle : segment = "" ∨ segment = "."
          · simp [hidle, part?]
          · by_cases hup : segment = ".."
            · simp [hup, part?]
            · by_cases hlong : mostNameBytes < segment.utf8ByteSize
              · simp [hidle, hup, hlong, part?, Nat.not_le.mpr hlong]
              · cases hnext : disk.kindAt (start ++ [segment]) with
                | none => simp [hidle, hup, hlong, part?]
                | some kind =>
                    cases kind with
                    | link target => exact absurd hnext (hfree.ne_link start segment target)
                    | file | folder => simp [hidle, hup, hlong, part?, Nat.not_lt.mp hlong]

/-- A walk from a place where something stands ends at one. -/
theorem LinkFree.exists_of_follow (hfree : disk.LinkFree []) {links : Nat} {start : Place}
    {segments : List String} {stop : Place × Nat} (hstart : disk.kindAt start ≠ none)
    (h : disk.follow links start segments = .ok stop) : disk.kindAt stop.1 ≠ none := by
  induction segments generalizing start with
  | nil =>
      rw [follow_nil] at h
      obtain rfl := Except.ok.inj h
      exact hstart
  | cons segment rest ih =>
      obtain ⟨-, ⟨-, h⟩ | ⟨-, h⟩ | ⟨-, -, hnext, h⟩⟩ := hfree.follow_cons_eq_ok.mp h
      · exact ih hstart h
      · refine ih (fun hnone => hstart ?_) h
        rcases List.eq_nil_or_concat start with rfl | ⟨init, last, rfl⟩
        · exact hnone
        · rw [List.concat_eq_append, List.dropLast_concat, kindAt, Option.map_eq_none_iff] at hnone
          rw [List.concat_eq_append, kindAt, Entry.find?_append, hnone]
          rfl
      · exact ih hnext h

theorem LinkFree.exists_of_locate (hfree : disk.LinkFree []) {path : String}
    (h : disk.locate path = .ok place) : ∃ entry, disk.top.find? place = some entry := by
  obtain ⟨-, -, links, hwalk⟩ := locate_eq_ok.mp h
  have hstart : disk.kindAt (startOf disk.workingPlace path) ≠ none := by
    obtain ⟨segment, rest, hsegments⟩ : ∃ segment rest, segments path = segment :: rest :=
      List.exists_cons_of_ne_nil (by simp [segments, Text.pieces_ne_nil])
    rw [hsegments] at hwalk
    obtain ⟨hfolder, -⟩ := hfree.follow_cons_eq_ok.mp hwalk
    simp [hfolder]
  have hstop := hfree.exists_of_follow hstart hwalk
  rw [kindAt, ne_eq, Option.map_eq_none_iff] at hstop
  exact Option.ne_none_iff_exists'.mp hstop

theorem notMem_slashed (path : String) : '\\' ∉ (slashed path).toList := by
  rw [slashed, String.toList_ofList, List.mem_map]
  rintro ⟨c, -, hc⟩
  split at hc
  · cases hc
  · exact absurd hc ‹_›

theorem isAbsolute_slashed {path : String} (h : isAbsolute path = true) :
    isAbsolute (slashed path) = true := by
  obtain ⟨cs, hcs⟩ : ∃ cs, path.toList = '/' :: cs :=
    List.head?_eq_some_iff.mp (by simpa [isAbsolute] using h)
  rw [isAbsolute, slashed, String.toList_ofList, hcs]
  rfl

theorem normal?_of_isAbsolute {root path key : String}
    (habsolute : isAbsolute (slashed path) = true) :
    disk.normal? root path = some key ↔
      ∃ relative names, relativeTo? root (disk.settled (slashed path)) = some relative ∧
        collapse? [] relative = some names ∧ ofRelative names = key := by
  rw [normal?, if_pos habsolute, Option.map_eq_some_iff]
  simp only [Option.bind_eq_some_iff]
  tauto

theorem between?_append (base rest : List Part) : between? base (base ++ rest) = some rest := by
  induction base with
  | nil => rw [List.nil_append, between?]
  | cons first others ih => rw [List.cons_append, between?, if_pos rfl, ih]

end

end Disk

end CodeIntel
