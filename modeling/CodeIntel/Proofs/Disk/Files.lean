import CodeIntel.Proofs.Disk.Walk

/-! The files below a root folder, by the normal forms of their paths. Where no link stands below the
root, each normal form has a place of its own: what can be read under it can be written under it, the
write is read back, and the files of all other normal forms stay as they are. -/

namespace CodeIntel.Disk

open CodeIntel.Path

/-- No link stands below a place. -/
def LinkFree (disk : Disk) (place : Place) : Prop :=
  ∀ name rest target, disk.kindAt (place ++ name :: rest) ≠ some (.link target)

/-- Where a root folder leads, with the links on the way to it followed. -/
def walkTo (disk : Disk) (root : String) : Except DiskFault (Place × Nat) :=
  disk.follow mostLinks (startOf disk.workingPlace root) (segments root)

/-- No link stands below the folder where a root leads. -/
def NoLinksBelow (disk : Disk) (root : String) : Prop :=
  ∀ place links, disk.walkTo root = .ok (place, links) → disk.LinkFree place

/-- The path of a document: the normal form of at least one name. -/
def IsKey (key : String) : Prop :=
  ∃ names, names ≠ [] ∧ (∀ name ∈ names, IsName name) ∧ key = ofRelative names

theorem LinkFree.concat {disk : Disk} {place : Place} (h : disk.LinkFree place) (name : String) :
    disk.LinkFree (place ++ [name]) := by
  intro next rest target
  rw [List.append_assoc]
  exact h name (next :: rest) target

/-- Below a folder without links a normal form leads through its names. -/
theorem LinkFree.noLinksBelow {disk : Disk} (h : disk.LinkFree []) (root : String) :
    disk.NoLinksBelow root := by
  intro place _ _ name rest target
  cases place with
  | nil => exact h name rest target
  | cons first others => exact h first (others ++ name :: rest) target

theorem LinkFree.follow_names {disk : Disk} {place : Place} (h : disk.LinkFree place)
    {names : List String} (hnames : ∀ name ∈ names, IsName name) {links : Nat} {stop : Place × Nat}
    (hwalk : disk.follow links place names = .ok stop) : stop = (place ++ names, links) := by
  induction names generalizing place with
  | nil =>
      rw [follow_nil] at hwalk
      rw [List.append_nil, Except.ok.inj hwalk]
  | cons name rest ih =>
      obtain ⟨hne, hhere, hup, -⟩ := hnames name List.mem_cons_self
      have hfolder := isFolder_of_follow_cons hwalk
      rw [follow_cons, hfolder] at hwalk
      dsimp only at hwalk
      rw [if_neg (not_or.mpr ⟨hne, hhere⟩), if_neg hup] at hwalk
      split at hwalk
      · cases hwalk
      · split at hwalk
        · cases hwalk
        · rename_i target htarget
          exact absurd htarget (h name [] target)
        · rw [List.append_cons]
          exact ih (h.concat name) (fun other hother => hnames other (List.mem_cons_of_mem _ hother)) hwalk

/-- An idle segment only asks for a folder, and so does the name after it. -/
theorem follow_idle_bind (disk : Disk) (links : Nat) (place : Place) (name : String)
    (rest : List String) :
    (disk.follow links place [""] >>= fun stop => disk.follow stop.2 stop.1 (name :: rest)) =
      disk.follow links place (name :: rest) := by
  rw [follow_cons, follow_cons]
  split
  · rfl
  · rfl
  · rfl
  · rename_i hfolder
    rw [if_pos (.inl rfl), follow_nil]
    change disk.follow links place (name :: rest) = _
    rw [follow_cons, hfolder]

/-- A relative path joined to a root goes through the segments of the root first; a slash at the end of
the root is not doubled. -/
theorem segments_join (root : String) {path : String} (hrelative : isAbsolute path = false) :
    ∃ front, segments (join root path) = front ++ segments path ∧
      (segments root = front ∨ segments root = front ++ [""]) := by
  rw [join, hrelative, if_neg Bool.false_ne_true]
  by_cases hempty : root = ""
  · subst hempty
    refine ⟨[], ?_, .inr ?_⟩
    · rw [if_pos (.inl rfl), String.empty_append, List.nil_append]
    · simp [segments, Text.pieces]
  · by_cases hslash : root.toList.getLast? = some '/'
    · obtain ⟨front, hfront⟩ := List.getLast?_eq_some_iff.mp hslash
      have hroot : root = String.ofList front ++ "/" := by
        rw [← String.toList_inj, hfront, String.toList_append, String.toList_ofList]
        rfl
      refine ⟨segments (String.ofList front), ?_, .inr ?_⟩
      · rw [if_pos (.inr hslash), hroot, segments_append_slash]
      · rw [hroot, ← String.append_empty (s := String.ofList front ++ "/"), segments_append_slash]
        simp [segments, Text.pieces]
    · refine ⟨segments root, ?_, .inl rfl⟩
      rw [if_neg (not_or.mpr ⟨hempty, hslash⟩), segments_append_slash]

theorem isAbsolute_append {front : String} (back : String) (h : front ≠ "") :
    isAbsolute (front ++ back) = isAbsolute front := by
  have hlist : front.toList ≠ [] := fun hnil => h (String.toList_eq_nil_iff.mp hnil)
  obtain ⟨first, rest, hfront⟩ := List.exists_cons_of_ne_nil hlist
  rw [isAbsolute, isAbsolute, String.toList_append, hfront]
  rfl

theorem isAbsolute_join (root : String) {path : String} (hrelative : isAbsolute path = false) :
    isAbsolute (join root path) = isAbsolute root := by
  rw [join, hrelative, if_neg Bool.false_ne_true]
  by_cases hempty : root = ""
  · subst hempty
    rw [if_pos (.inl rfl), String.empty_append, hrelative]
    rfl
  · split
    · exact isAbsolute_append _ hempty
    · rw [String.append_assoc]
      exact isAbsolute_append _ hempty

section

variable {names : List String}

/-- A path joined to a root leads on from where the root leads. -/
theorem follow_join (disk : Disk) (root : String) (hne : names ≠ [])
    (hnames : ∀ name ∈ names, IsName name) :
    disk.follow mostLinks (startOf disk.workingPlace (join root (ofRelative names)))
        (segments (join root (ofRelative names))) =
      disk.walkTo root >>= fun stop => disk.follow stop.2 stop.1 names := by
  have hrelative := isAbsolute_ofRelative hnames
  obtain ⟨front, hsegments, hroot⟩ := segments_join root hrelative
  rw [segments_ofRelative hne hnames] at hsegments
  obtain ⟨name, rest, rfl⟩ := List.exists_cons_of_ne_nil hne
  rw [hsegments, startOf, isAbsolute_join root hrelative, ← startOf, walkTo, follow_append]
  rcases hroot with hroot | hroot
  · rw [hroot]
  · rw [hroot, follow_append, bind_assoc]
    simp only [follow_idle_bind]

end

theorem admissible_eq_ok {path : String} :
    admissible path = .ok () ↔ path.contains '\x00' = false ∧
      path.utf8ByteSize ≤ mostPathBytes ∧ path ≠ "" := by
  rw [admissible]
  split
  · rename_i hnull
    exact iff_of_false (by simp) fun h => by rw [h.1] at hnull; cases hnull
  · rename_i hnull
    split
    · rename_i hlong
      exact iff_of_false (by simp) fun h => absurd hlong (Nat.not_lt.mpr h.2.1)
    · rename_i hshort
      split
      · rename_i hempty
        exact iff_of_false (by simp) fun h => h.2.2 hempty
      · rename_i hsome
        exact iff_of_true rfl ⟨Bool.eq_false_iff.mpr hnull, Nat.not_lt.mp hshort, hsome⟩

/-- Locating a path: it can be written down, and following it comes to an end. -/
theorem locate_eq_ok {disk : Disk} {path : String} {place : Place} :
    disk.locate path = .ok place ↔ '\x00' ∉ path.toList ∧ path ≠ "" ∧
      ∃ links, disk.follow mostLinks (startOf disk.workingPlace path) (segments path) =
        .ok (place, links) := by
  rw [locate, String.contains_char_eq]
  by_cases hnull : '\x00' ∈ path.toList
  · simp [hnull]
  · by_cases hempty : path = ""
    · simp [hempty]
    · rw [if_neg (by simpa using hnull), if_neg hempty, map_eq_ok]
      simp [hnull, hempty]

/-- Reading a path: it can be opened, and it leads to a file. -/
theorem read_eq_ok {disk : Disk} {path : String} {content : ByteArray} :
    disk.read path = .ok content ↔
      admissible path = .ok () ∧
      ∃ place links, disk.follow mostLinks (startOf disk.workingPlace path) (segments path) =
          .ok (place, links) ∧ disk.top.find? place = some (.file content) := by
  rw [read, bind_eq_ok]
  constructor
  · rintro ⟨place, hplace, hfile⟩
    rw [resolve, bind_eq_ok] at hplace
    obtain ⟨_, hadmissible, hplace⟩ := hplace
    obtain ⟨-, -, links, hwalk⟩ := locate_eq_ok.mp hplace
    refine ⟨hadmissible, place, links, hwalk, ?_⟩
    cases hentry : disk.top.find? place with
    | none => rw [hentry] at hfile; cases hfile
    | some entry =>
        rw [hentry] at hfile
        cases entry with
        | file found => rw [Except.ok.inj hfile]
        | folder | link => cases hfile
  · rintro ⟨hadmissible, place, links, hwalk, hfile⟩
    obtain ⟨hnull, -, hne⟩ := admissible_eq_ok.mp hadmissible
    rw [String.contains_char_eq, decide_eq_false_iff_not] at hnull
    refine ⟨place, bind_eq_ok.mpr ⟨(), hadmissible, ?_⟩, by rw [hfile]⟩
    exact locate_eq_ok.mpr ⟨hnull, hne, links, hwalk⟩

/-- On a disk of the same tree the same paths lead to files. -/
theorem SameTree.read {disk other : Disk} (h : SameTree disk other) {path : String}
    {content : ByteArray} (hread : disk.read path = .ok content) :
    ∃ content', other.read path = .ok content' := by
  obtain ⟨hadmissible, place, links, hwalk, hfile⟩ := read_eq_ok.mp hread
  have hkind := h.kinds place
  rw [kindAt, kindAt, hfile] at hkind
  obtain ⟨entry, hentry, hkind⟩ := Option.map_eq_some_iff.mp hkind
  cases entry with
  | folder | link => cases hkind
  | file content' =>
      refine ⟨content', read_eq_ok.mpr ⟨hadmissible, place, links, ?_, hentry⟩⟩
      rw [h.follow_eq, h.working]
      exact hwalk

theorem SameTree.noLinksBelow {disk other : Disk} (h : SameTree disk other) {root : String}
    (hfree : disk.NoLinksBelow root) : other.NoLinksBelow root := by
  intro place links hwalk name rest target
  rw [walkTo, h.follow_eq, h.working] at hwalk
  rw [h.kinds]
  exact hfree place links hwalk name rest target

/-! ### Where a write goes -/

/-- Nothing stands at a place, or a file does. -/
def Free (disk : Disk) (place : Place) : Prop :=
  disk.kindAt place = none ∨ disk.kindAt place = some .file

/-- A path, taken from a place, that ends in a name: the folder to which it leads before that name, and
how many links may still be followed there. -/
structure OpensAt (disk : Disk) (links : Nat) (place : Place) (path : String) (folder : Place)
    (name : String) (left : Nat) : Prop where
  walk : ∃ before, lastStep? path = some ⟨before, name, false⟩ ∧
    disk.follow links (startOf place path) before = .ok (folder, left)
  isFolder : disk.kindAt folder = some .folder
  notHere : name ≠ "."
  notUp : name ≠ ".."
  short : name.utf8ByteSize ≤ mostNameBytes

theorem OpensAt.fewer {disk : Disk} {links fewer : Nat} {place folder : Place} {path name : String}
    (h : disk.OpensAt links place path folder name (fewer + 1)) : fewer < links := by
  obtain ⟨before, -, hwalk⟩ := h.walk
  exact snd_le_of_follow_eq_ok hwalk

/-- Where a write goes, by what stands at the places that it looks at. -/
theorem writePlaceFrom_of_follow {disk : Disk} {links left : Nat} {place folder : Place} {path : String}
    {step : LastStep} (hstep : lastStep? path = some step) :
    disk.follow links (startOf place path) step.before = .ok (folder, left) →
    disk.writePlaceFrom links place path =
      match disk.kindAt folder with
      | none => .error .notFound
      | some .file | some (.link _) => .error .notAFolder
      | some .folder =>
        if step.meansFolder then .error .isAFolder
        else if mostNameBytes < step.name.utf8ByteSize then .error .nameTooLong
        else
          match disk.kindAt (folder ++ [step.name]) with
          | some .folder => .error .isAFolder
          | some (.link target) =>
            match left with
            | 0 => .error .tooManyLinks
            | left + 1 => disk.writePlaceFrom left folder target
          | _ => .ok (folder ++ [step.name]) := by
  intro hwalk
  rw [writePlaceFrom, hstep]
  dsimp only
  split
  · rename_i hfault
    rw [hwalk] at hfault
    cases hfault
  · rename_i found more hfound
    rw [hwalk] at hfound
    obtain ⟨rfl, rfl⟩ := Prod.mk.inj (Except.ok.inj hfound)
    rw [childrenAt, kindAt]
    rcases hentry : disk.top.find? folder with _ | _ | children | _
    · rfl
    · rfl
    · simp only [Option.map_some, Entry.kind, lookUp, kindAt, Entry.find?_concat hentry]
      split_ifs
      · rfl
      · rfl
      · rcases Entry.child? step.name children with _ | _ | _ | _
        · rfl
        · rfl
        · rfl
        · cases left <;> rfl
    · rfl

/-- A write goes where the path ends if that is free, and else where the link that stands there leads. -/
theorem writePlaceFrom_eq_ok {disk : Disk} {links : Nat} {place goal : Place} {path : String} :
    disk.writePlaceFrom links place path = .ok goal ↔
      ∃ folder name left, disk.OpensAt links place path folder name left ∧
        ((disk.Free (folder ++ [name]) ∧ goal = folder ++ [name]) ∨
          ∃ target fewer, left = fewer + 1 ∧ disk.kindAt (folder ++ [name]) = some (.link target) ∧
            disk.writePlaceFrom fewer folder target = .ok goal) := by
  constructor
  · intro h
    cases hstep : lastStep? path with
    | none =>
        rw [writePlaceFrom, hstep] at h
        cases h
    | some step =>
        obtain ⟨before, name, hasSlash⟩ := step
        cases hwalk : disk.follow links (startOf place path) before with
        | error fault =>
            rw [writePlaceFrom, hstep] at h
            dsimp only at h
            split at h
            · cases h
            · rename_i hfound
              rw [hwalk] at hfound
              cases hfound
        | ok stop =>
            obtain ⟨folder, left⟩ := stop
            rw [writePlaceFrom_of_follow hstep hwalk] at h
            rcases hfolder : disk.kindAt folder with _ | _ | _ | _ <;> rw [hfolder] at h
            · cases h
            · cases h
            · dsimp only at h
              split_ifs at h with hmeans hlong
              simp only [LastStep.meansFolder, Bool.or_eq_true, beq_iff_eq, not_or,
                Bool.not_eq_true] at hmeans
              obtain ⟨⟨rfl, hhere⟩, hup⟩ := hmeans
              refine ⟨folder, name, left,
                ⟨⟨before, hstep, hwalk⟩, hfolder, hhere, hup, Nat.not_lt.mp hlong⟩, ?_⟩
              rcases hlast : disk.kindAt (folder ++ [name]) with _ | _ | _ | target <;> rw [hlast] at h
              · exact .inl ⟨.inl hlast, (Except.ok.inj h).symm⟩
              · exact .inl ⟨.inr hlast, (Except.ok.inj h).symm⟩
              · cases h
              · cases left with
                | zero => cases h
                | succ fewer => exact .inr ⟨target, fewer, rfl, rfl, h⟩
            · cases h
  · rintro ⟨folder, name, left, hopens, hgoal⟩
    obtain ⟨⟨before, hstep, hwalk⟩, hfolder, hhere, hup, hshort⟩ := hopens
    have hmeans : (LastStep.mk before name false).meansFolder = false := by
      simp [LastStep.meansFolder, hhere, hup]
    rw [writePlaceFrom_of_follow hstep hwalk, hfolder]
    dsimp only
    rw [hmeans, if_neg Bool.false_ne_true, if_neg (Nat.not_lt.mpr hshort)]
    rcases hgoal with ⟨hfree | hfile, rfl⟩ | ⟨target, fewer, rfl, hlink, hfrom⟩
    · rw [hfree]
    · rw [hfile]
    · rw [hlink]
      exact hfrom

theorem writePlace_eq_ok {disk : Disk} {path : String} {place : Place} :
    disk.writePlace path = .ok place ↔
      admissible path = .ok () ∧ disk.writePlaceFrom mostLinks disk.workingPlace path = .ok place := by
  rw [writePlace, bind_eq_ok]
  constructor
  · rintro ⟨_, hadmissible, hplace⟩
    exact ⟨hadmissible, hplace⟩
  · rintro ⟨hadmissible, hplace⟩
    exact ⟨(), hadmissible, hplace⟩

/-! ### Writing where something was read -/

theorem lastStep?_of_segments {path name : String} {before : List String}
    (h : segments path = before ++ [name]) (hne : name ≠ "") :
    lastStep? path = some ⟨before, name, false⟩ := by
  have hname : (name == "") = false := beq_false_of_ne hne
  simp [lastStep?, h, hname]

/-- A walk takes no name that is too long. -/
theorem short_of_follow_cons {disk : Disk} {links : Nat} {place : Place} {name : String}
    {rest : List String} {stop : Place × Nat} (hname : name ≠ "") (hhere : name ≠ ".") (hup : name ≠ "..")
    (hwalk : disk.follow links place (name :: rest) = .ok stop) : name.utf8ByteSize ≤ mostNameBytes := by
  have hfolder := isFolder_of_follow_cons hwalk
  rw [follow_cons, hfolder] at hwalk
  dsimp only at hwalk
  rw [if_neg (not_or.mpr ⟨hname, hhere⟩), if_neg hup] at hwalk
  split at hwalk
  · cases hwalk
  · rename_i hshort
    exact Nat.not_lt.mp hshort

/-- The walk to a root does not depend on a slash at its end. -/
theorem follow_front {disk : Disk} {root : String} {front : List String} {place : Place} {links : Nat}
    (hroot : segments root = front ∨ segments root = front ++ [""])
    (hwalk : disk.walkTo root = .ok (place, links)) :
    disk.follow mostLinks (startOf disk.workingPlace root) front = .ok (place, links) := by
  rw [walkTo] at hwalk
  rcases hroot with hroot | hroot
  · rw [← hroot]
    exact hwalk
  · rw [hroot, follow_append, bind_eq_ok] at hwalk
    obtain ⟨⟨stop, left⟩, hfront, hidle⟩ := hwalk
    have hfolder := isFolder_of_follow_cons hidle
    rw [follow_cons, hfolder] at hidle
    dsimp only at hidle
    rw [if_pos (.inl rfl), follow_nil] at hidle
    rw [hfront, hidle]

section

variable {disk : Disk} {root : String} {names : List String} {content : ByteArray}

/-- The file that a normal form leads to stands at the place that its names spell. -/
theorem NoLinksBelow.place_of_read (hfree : disk.NoLinksBelow root) (hne : names ≠ [])
    (hnames : ∀ name ∈ names, IsName name)
    (hread : disk.read (join root (ofRelative names)) = .ok content) :
    ∃ place links, disk.walkTo root = .ok (place, links) ∧
      disk.follow links place names = .ok (place ++ names, links) ∧
      disk.top.find? (place ++ names) = some (.file content) := by
  obtain ⟨-, stop, left, hwalk, hfile⟩ := read_eq_ok.mp hread
  rw [follow_join disk root hne hnames, bind_eq_ok] at hwalk
  obtain ⟨⟨place, links⟩, hroot, hwalk⟩ := hwalk
  obtain ⟨hstop, hleft⟩ := Prod.mk.inj ((hfree place links hroot).follow_names hnames hwalk)
  rw [hstop] at hfile
  rw [hstop, hleft] at hwalk
  exact ⟨place, links, hroot, hwalk, hfile⟩

/-- The place that a write goes to is the one that was read. -/
theorem NoLinksBelow.writePlace_of_read (hfree : disk.NoLinksBelow root) (hne : names ≠ [])
    (hnames : ∀ name ∈ names, IsName name)
    (hread : disk.read (join root (ofRelative names)) = .ok content) :
    ∃ place links, disk.walkTo root = .ok (place, links) ∧
      disk.writePlace (join root (ofRelative names)) = .ok (place ++ names) := by
  obtain ⟨place, links, hroot, hwalk, hfile⟩ := hfree.place_of_read hne hnames hread
  refine ⟨place, links, hroot, writePlace_eq_ok.mpr ⟨(read_eq_ok.mp hread).1, ?_⟩⟩
  have hrelative := isAbsolute_ofRelative hnames
  obtain ⟨front, hsegments, hfront⟩ := segments_join root hrelative
  rw [segments_ofRelative hne hnames] at hsegments
  obtain ⟨init, name, rfl⟩ := (List.eq_nil_or_concat names).resolve_left hne
  rw [List.concat_eq_append] at *
  obtain ⟨hname, hhere, hup, -⟩ := hnames name (by simp)
  rw [← List.append_assoc] at hsegments hfile ⊢
  -- The folder of the file is reached by all segments but the last.
  rw [follow_append, bind_eq_ok] at hwalk
  obtain ⟨stop, hinit, hlast⟩ := hwalk
  obtain rfl := (hfree place links hroot).follow_names
    (fun other hother => hnames other (List.mem_append_left _ hother)) hinit
  have hbefore : disk.follow mostLinks (startOf disk.workingPlace (join root (ofRelative (init ++ [name]))))
      (front ++ init) = .ok (place ++ init, links) := by
    rw [startOf, isAbsolute_join root hrelative, ← startOf, follow_append, bind_eq_ok]
    exact ⟨_, follow_front hfront hroot, hinit⟩
  have hopens : disk.OpensAt mostLinks disk.workingPlace (join root (ofRelative (init ++ [name])))
      (place ++ init) name links :=
    ⟨⟨front ++ init, lastStep?_of_segments hsegments hname, hbefore⟩, isFolder_of_follow_cons hlast, hhere,
      hup, short_of_follow_cons hname hhere hup hlast⟩
  have hkind : disk.kindAt (place ++ init ++ [name]) = some .file := by
    rw [kindAt, hfile]
    rfl
  exact writePlaceFrom_eq_ok.mpr ⟨_, _, _, hopens, .inl ⟨.inr hkind, rfl⟩⟩

/-- A file that can be read can be written, and the tree stays as it is. The write is read back, and
every other normal form below the root leads to what it led to before. -/
theorem NoLinksBelow.write_of_read {key : String} (hfree : disk.NoLinksBelow root) (hkey : IsKey key)
    (hread : disk.read (join root key) = .ok content) (new : ByteArray) :
    ∃ after, disk.write (join root key) new = .ok after ∧ SameTree disk after ∧
      after.read (join root key) = .ok new ∧
      ∀ other kept, IsKey other → other ≠ key → disk.read (join root other) = .ok kept →
        after.read (join root other) = .ok kept := by
  obtain ⟨names, hne, hnames, rfl⟩ := hkey
  obtain ⟨place, links, hroot, hplace⟩ := hfree.writePlace_of_read hne hnames hread
  obtain ⟨place', links', hroot', hwalk, hfile⟩ := hfree.place_of_read hne hnames hread
  rw [hroot] at hroot'
  obtain ⟨rfl, rfl⟩ := Prod.mk.inj (Except.ok.inj hroot')
  have hsame := SameTree.put new hfile
  have hreach : ∀ others, others ≠ [] → (∀ name ∈ others, IsName name) → ∀ stop,
      disk.follow links place others = .ok stop →
      (disk.put (place ++ names) (.file new)).follow mostLinks
        (startOf (disk.put (place ++ names) (.file new)).workingPlace
          (join root (ofRelative others))) (segments (join root (ofRelative others))) = .ok stop := by
    intro others hothers hothersNames stop hstop
    rw [hsame.follow_eq, hsame.working, follow_join disk root hothers hothersNames, hroot]
    exact hstop
  refine ⟨disk.put (place ++ names) (.file new), ?_, hsame, ?_, ?_⟩
  · rw [write, hplace]
    rfl
  · exact read_eq_ok.mpr ⟨(read_eq_ok.mp hread).1, _, _, hreach names hne hnames _ hwalk,
      Entry.find?_put_self hfile⟩
  · rintro _ kept ⟨others, hothers, hothersNames, rfl⟩ hdifferent hkept
    obtain ⟨_, _, hroot', hwalk', hfile'⟩ := hfree.place_of_read hothers hothersNames hkept
    rw [hroot] at hroot'
    obtain ⟨rfl, rfl⟩ := Prod.mk.inj (Except.ok.inj hroot')
    refine read_eq_ok.mpr ⟨(read_eq_ok.mp hkept).1, _, _, hreach others hothers hothersNames _ hwalk',
      Entry.find?_put_of_ne hfile ?_ hfile'⟩
    exact fun heq => hdifferent (congrArg ofRelative (List.append_cancel_left heq))

end

/-- A root itself is not read as a file: the path joined to it is empty, so a slash stands at the end. -/
theorem read_join_empty (disk : Disk) (root : String) (content : ByteArray) :
    disk.read (join root "") ≠ .ok content := by
  intro hread
  obtain ⟨hadmissible, place, links, hwalk, hfile⟩ := read_eq_ok.mp hread
  have hslash : ∃ front, join root "" = front ++ "/" := by
    rw [join, if_neg (show ¬ isAbsolute "" = true by decide)]
    split
    · rename_i hroot
      rcases hroot with rfl | hroot
      · exact absurd rfl (admissible_eq_ok.mp hadmissible).2.2
      · obtain ⟨front, hfront⟩ := List.getLast?_eq_some_iff.mp hroot
        refine ⟨String.ofList front, ?_⟩
        rw [String.append_empty, ← String.toList_inj, hfront, String.toList_append,
          String.toList_ofList]
        rfl
    · exact ⟨root, String.append_empty⟩
  obtain ⟨front, hfront⟩ := hslash
  rw [hfront, ← String.append_empty (s := front ++ "/"), segments_append_slash, follow_append,
    bind_eq_ok] at hwalk
  obtain ⟨⟨stop, left⟩, -, hlast⟩ := hwalk
  rw [show segments "" = [""] from by simp [segments, Text.pieces]] at hlast
  have hfolder := isFolder_of_follow_cons hlast
  rw [follow_cons, hfolder] at hlast
  dsimp only at hlast
  rw [if_pos (.inl rfl), follow_nil] at hlast
  obtain ⟨rfl, rfl⟩ := Prod.mk.inj (Except.ok.inj hlast)
  rw [kindAt, hfile] at hfolder
  cases hfolder

/-- A normal form under which something is read has at least one name. -/
theorem isKey_of_read {disk other : Disk} {root root' path key : String} {content : ByteArray}
    (hnormal : other.normal? root' path = some key) (hread : disk.read (join root key) = .ok content) :
    IsKey key := by
  obtain ⟨names, rfl, hnames, -⟩ := exists_names_of_normal? hnormal
  refine ⟨names, ?_, hnames, rfl⟩
  rintro rfl
  exact read_join_empty disk root content hread

/-- A normal form without a backslash is taken for itself. -/
theorem IsKey.normal? {key : String} (h : IsKey key) (hslash : '\\' ∉ key.toList) (disk : Disk)
    (root : String) : disk.normal? root key = some key := by
  obtain ⟨names, -, hnames, rfl⟩ := h
  exact normal?_ofRelative disk root names hnames hslash

end CodeIntel.Disk
