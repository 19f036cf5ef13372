import CodeIntel.Proofs.Disk.Files

/-! Writing on any disk, links included. A write goes to one place: that of the file to which its path
leads, or a free name in a folder. It changes or makes the file there and nothing else. Since nothing
can stand below a file, a new one opens no way to anywhere: every path is written where it was written
before, so that what many writes do can be told from the disk before the first of them. -/

namespace CodeIntel

namespace Entry

/-- An entry without what stands below it. -/
def bare : Entry → Entry
  | .folder _ => .folder []
  | other => other

theorem kind_bare (entry : Entry) : entry.bare.kind = entry.kind := by
  cases entry <;> rfl

section

variable {entry : Entry} {folder : Place} {name : String} {children : List (String × Entry)}

theorem find?_put_child (h : entry.find? folder = some (.folder children)) (new : Entry) :
    (put new entry (folder ++ [name])).find? (folder ++ [name]) = some new := by
  induction folder generalizing entry with
  | nil =>
      obtain rfl := Option.some.inj h
      rw [List.nil_append, put, find?_folder_cons, child?_putChild_self]
      simp [put, find?]
  | cons first rest ih =>
      cases entry with
      | file | link => cases h
      | folder siblings =>
          rw [find?_folder_cons] at h
          obtain ⟨next, hnext, hfound⟩ := Option.bind_eq_some_iff.mp h
          rw [List.cons_append, put, find?_folder_cons, child?_putChild_self, hnext]
          exact ih hfound

/-- A file that takes a free name, or the name of a file, changes nothing at any other place. -/
theorem bare_find?_put_child (h : entry.find? folder = some (.folder children))
    (hfree : ∀ old, child? name children = some old → old.kind = .file) (content : ByteArray)
    {other : Place} (hne : other ≠ folder ++ [name]) :
    ((put (.file content) entry (folder ++ [name])).find? other).map bare =
      (entry.find? other).map bare := by
  induction folder generalizing entry other with
  | nil =>
      obtain rfl := Option.some.inj h
      cases other with
      | nil => rfl
      | cons first others =>
          rw [List.nil_append, put, find?_folder_cons, find?_folder_cons]
          by_cases hname : first = name
          · subst hname
            obtain ⟨next, rest, rfl⟩ : ∃ next rest, others = next :: rest :=
              List.exists_cons_of_ne_nil (by rintro rfl; exact hne rfl)
            rw [child?_putChild_self]
            -- Nothing stands below a file, neither below the old one nor below the new one.
            cases hold : child? first children with
            | none => rfl
            | some old =>
                have hkind := hfree old hold
                cases old with
                | file => rfl
                | folder | link => cases hkind
          · rw [child?_putChild_of_ne _ _ hname]
  | cons first rest ih =>
      cases entry with
      | file | link => cases h
      | folder siblings =>
          rw [find?_folder_cons] at h
          obtain ⟨next, hnext, hfound⟩ := Option.bind_eq_some_iff.mp h
          cases other with
          | nil => rfl
          | cons start others =>
              rw [List.cons_append, put, find?_folder_cons, find?_folder_cons, hnext]
              by_cases hname : start = first
              · subst hname
                rw [child?_putChild_self, hnext]
                exact ih hfound fun heq => hne (heq ▸ rfl)
              · rw [child?_putChild_of_ne _ _ hname]

end

end Entry

namespace Disk

open CodeIntel.Path

/-- What stands at a place, without what stands below. -/
def bareAt (disk : Disk) (place : Place) : Option Entry := (disk.top.find? place).map Entry.bare

theorem kindAt_eq_map_bareAt (disk : Disk) (place : Place) :
    disk.kindAt place = (disk.bareAt place).map Entry.kind := by
  rw [kindAt, bareAt, Option.map_map]
  congr 1
  funext entry
  exact entry.kind_bare.symm

/-- A place at which a file can be written: a name in a folder. -/
def Writable (disk : Disk) (place : Place) : Prop :=
  ∃ folder name, place = folder ++ [name] ∧ disk.kindAt folder = some .folder ∧ disk.Free place

theorem Writable.bareAt_put {disk : Disk} {place : Place} (h : disk.Writable place)
    (content : ByteArray) (other : Place) :
    (disk.put place (.file content)).bareAt other =
      if other = place then some (.file content) else disk.bareAt other := by
  obtain ⟨folder, name, rfl, hfolder, hfree⟩ := h
  obtain ⟨entry, hentry, hkind⟩ := Option.map_eq_some_iff.mp hfolder
  cases entry with
  | file | link => cases hkind
  | folder children =>
      split
      · rename_i hother
        rw [hother, bareAt, put, Entry.find?_put_child hentry]
        rfl
      · rename_i hother
        refine Entry.bare_find?_put_child hentry (fun old hold => ?_) content hother
        rw [Free, kindAt, Entry.find?_concat hentry, hold] at hfree
        exact Option.some.inj (hfree.resolve_left (by simp))

/-! ### More files -/

/-- On the other disk the same stands everywhere, apart from the contents of files; only files may be
added. -/
structure Grown (disk other : Disk) : Prop where
  kinds : ∀ place, other.kindAt place = disk.kindAt place ∨
    disk.kindAt place = none ∧ other.kindAt place = some .file
  working : other.workingPlace = disk.workingPlace

namespace Grown

variable {disk other : Disk}

theorem refl (disk : Disk) : Grown disk disk := ⟨fun _ => .inl rfl, rfl⟩

theorem trans {third : Disk} (h : Grown disk other) (h' : Grown other third) : Grown disk third := by
  refine ⟨fun place => ?_, h'.working.trans h.working⟩
  rcases h.kinds place with hsame | ⟨hnone, hfile⟩
  · rcases h'.kinds place with hsame' | ⟨hnone', hfile'⟩
    · exact .inl (hsame'.trans hsame)
    · exact .inr ⟨hsame ▸ hnone', hfile'⟩
  · rcases h'.kinds place with hsame' | ⟨hnone', -⟩
    · exact .inr ⟨hnone, hsame'.trans hfile⟩
    · rw [hfile] at hnone'
      cases hnone'

theorem put {place : Place} (h : disk.Writable place) (content : ByteArray) :
    Grown disk (disk.put place (.file content)) := by
  refine ⟨fun other => ?_, rfl⟩
  rw [kindAt_eq_map_bareAt _ other, h.bareAt_put content other]
  split
  · rename_i hother
    rw [hother]
    obtain ⟨-, -, -, -, hfree | hfile⟩ := h
    · exact .inr ⟨hfree, rfl⟩
    · exact .inl hfile.symm
  · exact .inl (kindAt_eq_map_bareAt disk other).symm

theorem folder_iff (h : Grown disk other) (place : Place) :
    other.kindAt place = some .folder ↔ disk.kindAt place = some .folder := by
  rcases h.kinds place with hsame | ⟨hnone, hfile⟩
  · rw [hsame]
  · simp [hnone, hfile]

theorem link_iff (h : Grown disk other) (place : Place) (target : String) :
    other.kindAt place = some (.link target) ↔ disk.kindAt place = some (.link target) := by
  rcases h.kinds place with hsame | ⟨hnone, hfile⟩
  · rw [hsame]
  · simp [hnone, hfile]

theorem free_iff (h : Grown disk other) (place : Place) : other.Free place ↔ disk.Free place := by
  rw [Free, Free]
  rcases h.kinds place with hsame | ⟨hnone, hfile⟩
  · rw [hsame]
  · simp [hnone, hfile]

end Grown

theorem eq_of_follow_file {disk : Disk} {links : Nat} {place : Place} {path : List String}
    {stop : Place × Nat} (hfile : disk.kindAt place = some .file)
    (hwalk : disk.follow links place path = .ok stop) : stop.1 = place := by
  cases path with
  | nil =>
      rw [follow_nil] at hwalk
      rw [← Except.ok.inj hwalk]
  | cons segment rest =>
      rw [isFolder_of_follow_cons hwalk] at hfile
      cases hfile

/-- The same walks end in folders. -/
theorem Grown.follow_eq_ok {disk other : Disk} (h : Grown disk other) {links : Nat} {place : Place}
    {path : List String} {stop : Place × Nat} (hstop : other.kindAt stop.1 = some .folder) :
    other.follow links place path = .ok stop ↔ disk.follow links place path = .ok stop := by
  have hpast : ∀ {links place path}, other.kindAt place = some .file →
      other.follow links place path ≠ .ok stop := by
    intro links place path hfile hwalk
    rw [eq_of_follow_file hfile hwalk, hfile] at hstop
    cases hstop
  -- A link uses up one of the links that are left; otherwise the path gets shorter.
  induction links using Nat.strongRecOn generalizing place path with
  | ind links ihLinks =>
      induction path generalizing place with
      | nil => rw [follow_nil, follow_nil]
      | cons segment rest ih =>
          rw [follow_cons, follow_cons]
          rcases h.kinds place with hplace | ⟨hnone, hfile⟩
          · rw [hplace]
            rcases disk.kindAt place with _ | _ | _ | _
            · rfl
            · rfl
            · dsimp only
              split_ifs
              · exact ih
              · exact ih
              · rfl
              · rcases h.kinds (place ++ [segment]) with hnext | ⟨hnone, hfile⟩
                · rw [hnext]
                  rcases disk.kindAt (place ++ [segment]) with _ | _ | _ | target
                  · rfl
                  · exact ih
                  · exact ih
                  · cases links with
                    | zero => rfl
                    | succ fewer => exact ihLinks fewer (Nat.lt_succ_self _)
                · -- On the one disk the name is free, and on the other the walk ends at the new file.
                  rw [hnone, hfile]
                  exact iff_of_false (hpast hfile) (by simp)
            · rfl
          · simp [hnone, hfile]

/-! ### Where a write goes -/

theorem writable_of_writePlaceFrom {disk : Disk} {links : Nat} {place goal : Place} {path : String}
    (h : disk.writePlaceFrom links place path = .ok goal) : disk.Writable goal := by
  induction links using Nat.strongRecOn generalizing place path with
  | ind links ih =>
      obtain ⟨folder, name, left, hopens, hgoal⟩ := writePlaceFrom_eq_ok.mp h
      rcases hgoal with ⟨hfree, rfl⟩ | ⟨target, fewer, rfl, -, hfrom⟩
      · exact ⟨folder, name, rfl, hopens.isFolder, hfree⟩
      · exact ih fewer hopens.fewer hfrom

theorem Grown.opensAt_iff {disk other : Disk} (h : Grown disk other) {links left : Nat}
    {place folder : Place} {path name : String} :
    other.OpensAt links place path folder name left ↔
      disk.OpensAt links place path folder name left := by
  constructor
  · rintro ⟨⟨before, hstep, hwalk⟩, hfolder, hhere, hup, hshort⟩
    exact ⟨⟨before, hstep, (h.follow_eq_ok hfolder).mp hwalk⟩, (h.folder_iff folder).mp hfolder,
      hhere, hup, hshort⟩
  · rintro ⟨⟨before, hstep, hwalk⟩, hfolder, hhere, hup, hshort⟩
    have hfolder' := (h.folder_iff folder).mpr hfolder
    exact ⟨⟨before, hstep, (h.follow_eq_ok hfolder').mpr hwalk⟩, hfolder', hhere, hup, hshort⟩

/-- The places to which writes go stay the same when there are more files. -/
theorem Grown.writePlaceFrom_iff {disk other : Disk} (h : Grown disk other) {links : Nat}
    {place goal : Place} {path : String} :
    other.writePlaceFrom links place path = .ok goal ↔
      disk.writePlaceFrom links place path = .ok goal := by
  induction links using Nat.strongRecOn generalizing place path with
  | ind links ih =>
      rw [writePlaceFrom_eq_ok, writePlaceFrom_eq_ok]
      refine exists_congr fun folder => exists_congr fun name => exists_congr fun left => ?_
      rw [h.opensAt_iff, h.free_iff]
      refine and_congr_right fun hopens => or_congr_right ?_
      refine exists_congr fun target => exists_congr fun fewer => and_congr_right ?_
      rintro rfl
      rw [h.link_iff, ih fewer hopens.fewer]

theorem segments_of_lastStep? {path name : String} {before : List String}
    (h : lastStep? path = some ⟨before, name, false⟩) :
    segments path = before ++ [name] ∧ name ≠ "" := by
  rw [lastStep?] at h
  rcases hbackwards : (segments path).reverse with _ | ⟨last, rest⟩
  · rw [hbackwards] at h
    cases h
  · rw [hbackwards] at h
    by_cases hlast : last = ""
    · subst hlast
      split at h
      · cases h
      · cases h
    · rw [List.dropWhile_cons_of_neg (by simpa using hlast)] at h
      obtain ⟨rfl, rfl, -⟩ := LastStep.mk.inj (Option.some.inj h)
      rw [← List.reverse_reverse (segments path), hbackwards, List.reverse_cons]
      exact ⟨rfl, hlast⟩

/-- Where a path opens a walk has only the name left to take. -/
theorem OpensAt.follow_eq {disk : Disk} {links left : Nat} {place folder : Place} {path name : String}
    (h : disk.OpensAt links place path folder name left) :
    disk.follow links (startOf place path) (segments path) = disk.follow left folder [name] := by
  obtain ⟨before, hstep, hbefore⟩ := h.walk
  rw [(segments_of_lastStep? hstep).1, follow_append, hbefore]
  rfl

/-- A walk that takes the name ends there, or goes on where a link leads that stands there. -/
theorem OpensAt.follow_name {disk : Disk} {links left : Nat} {place folder : Place} {path name : String}
    (h : disk.OpensAt links place path folder name left) (more : Nat) :
    disk.follow more folder [name] =
      match disk.kindAt (folder ++ [name]) with
      | none => .error .notFound
      | some (.link target) =>
        match more with
        | 0 => .error .tooManyLinks
        | more + 1 => disk.follow more (startOf folder target) (segments target)
      | some _ => .ok (folder ++ [name], more) := by
  obtain ⟨before, hstep, -⟩ := h.walk
  have hne := (segments_of_lastStep? hstep).2
  rw [follow_cons, h.isFolder]
  dsimp only
  rw [if_neg (not_or.mpr ⟨hne, h.notHere⟩), if_neg h.notUp, if_neg (Nat.not_lt.mpr h.short)]
  rcases disk.kindAt (folder ++ [name]) with _ | _ | _ | target
  · rfl
  · exact follow_nil ..
  · exact follow_nil ..
  · cases more with
    | zero => rfl
    | succ more => exact congrArg (disk.follow more (startOf folder target)) (List.append_nil _)

/-- The file that a path leads to is the one that a write to the path goes to. -/
theorem eq_of_follow_of_writePlaceFrom {disk : Disk} {links : Nat} {place goal : Place} {path : String}
    {stop : Place × Nat} (hgoal : disk.writePlaceFrom links place path = .ok goal)
    (hwalk : disk.follow links (startOf place path) (segments path) = .ok stop) : stop.1 = goal := by
  induction links using Nat.strongRecOn generalizing place path with
  | ind links ih =>
      obtain ⟨folder, name, left, hopens, hgoal⟩ := writePlaceFrom_eq_ok.mp hgoal
      rw [hopens.follow_eq, hopens.follow_name] at hwalk
      rcases hgoal with ⟨hfree | hfile, rfl⟩ | ⟨target, fewer, rfl, hlink, hfrom⟩
      · rw [hfree] at hwalk
        cases hwalk
      · rw [hfile] at hwalk
        rw [← Except.ok.inj hwalk]
      · rw [hlink] at hwalk
        exact ih fewer hopens.fewer hfrom hwalk

/-! ### Reading and writing -/

theorem writable_of_writePlace {disk : Disk} {path : String} {place : Place}
    (h : disk.writePlace path = .ok place) : disk.Writable place :=
  writable_of_writePlaceFrom (writePlace_eq_ok.mp h).2

theorem Grown.writePlace_iff {disk other : Disk} (h : Grown disk other) {path : String} {place : Place} :
    other.writePlace path = .ok place ↔ disk.writePlace path = .ok place := by
  rw [writePlace_eq_ok, writePlace_eq_ok, h.working, h.writePlaceFrom_iff]

/-- What a path that can be written reads as stands where a write to it goes. -/
theorem bareAt_of_read {disk : Disk} {path : String} {content : ByteArray} {place : Place}
    (hread : disk.read path = .ok content) (hplace : disk.writePlace path = .ok place) :
    disk.bareAt place = some (.file content) := by
  obtain ⟨-, stop, left, hwalk, hfile⟩ := read_eq_ok.mp hread
  obtain rfl := eq_of_follow_of_writePlaceFrom (writePlace_eq_ok.mp hplace).2 hwalk
  rw [bareAt, hfile]
  rfl

end Disk

end CodeIntel
