import CodeIntel.Disk.Normal
import CodeIntel.Proofs.Disk.Listing

/-! What can be told of a disk after files were written. What a write leaves at the place that it goes to
is what its path reads as, and below a root without links different keys go to different places. Files
put in the places of files leave alone where every path leads, the normal forms of all paths, and the
sources of every folder. -/

namespace CodeIntel.Disk

open CodeIntel.Path

variable {disk other : Disk}

/-- A path leads to the file that a write to it went to. -/
theorem follow_of_writePlaceFrom {links : Nat} {place goal : Place} {path : String}
    (hgoal : disk.writePlaceFrom links place path = .ok goal) (hfile : disk.kindAt goal = some .file) :
    ∃ left, disk.follow links (startOf place path) (segments path) = .ok (goal, left) := by
  induction links using Nat.strongRecOn generalizing place path with
  | ind links ih =>
      obtain ⟨folder, name, left, hopens, hgoal⟩ := writePlaceFrom_eq_ok.mp hgoal
      rw [hopens.follow_eq, hopens.follow_name]
      rcases hgoal with ⟨-, rfl⟩ | ⟨target, fewer, rfl, hlink, hfrom⟩
      · rw [hfile]
        exact ⟨left, rfl⟩
      · rw [hlink]
        exact ih fewer hopens.fewer hfrom

theorem find?_of_bareAt {place : Place} {content : ByteArray}
    (h : disk.bareAt place = some (.file content)) : disk.top.find? place = some (.file content) := by
  obtain ⟨entry, hentry, hbare⟩ := Option.map_eq_some_iff.mp h
  cases entry with
  | file => rw [hentry, ← hbare]; rfl
  | folder | link => cases hbare

/-- What stands where a write to a path goes is what the path reads as. -/
theorem read_of_bareAt {path : String} {place : Place} {content : ByteArray}
    (hplace : disk.writePlace path = .ok place) (h : disk.bareAt place = some (.file content)) :
    disk.read path = .ok content := by
  obtain ⟨hadmissible, hfrom⟩ := writePlace_eq_ok.mp hplace
  have hfile := find?_of_bareAt h
  obtain ⟨left, hwalk⟩ := follow_of_writePlaceFrom hfrom (by rw [kindAt, hfile]; rfl)
  exact read_eq_ok.mpr ⟨hadmissible, place, left, hwalk, hfile⟩

theorem read_eq_ok_iff_locate {path : String} {content : ByteArray} :
    disk.read path = .ok content ↔ admissible path = .ok () ∧
      ∃ place, disk.locate path = .ok place ∧ disk.bareAt place = some (.file content) := by
  rw [Disk.read, bind_eq_ok]
  constructor
  · rintro ⟨place, hplace, hfile⟩
    obtain ⟨_, hadmissible, hplace⟩ := bind_eq_ok.mp hplace
    refine ⟨hadmissible, place, hplace, ?_⟩
    rw [bareAt]
    split at hfile
    · rename_i hentry
      rw [hentry, Except.ok.inj hfile]
      rfl
    · cases hfile
    · cases hfile
  · rintro ⟨hadmissible, place, hplace, hfile⟩
    exact ⟨place, bind_eq_ok.mpr ⟨_, hadmissible, hplace⟩, by rw [find?_of_bareAt hfile]⟩

/-- Whatever names are followed from a place to a folder, the place is a folder. -/
theorem isFolder_of_follow {links : Nat} {place : Place} {segments : List String} {stop : Place × Nat}
    (h : disk.follow links place segments = .ok stop) (hfolder : disk.kindAt stop.1 = some .folder) :
    disk.kindAt place = some .folder := by
  cases segments with
  | nil =>
      rw [follow_nil] at h
      rw [← Except.ok.inj h] at hfolder
      exact hfolder
  | cons segment rest => exact isFolder_of_follow_cons h

section

variable {root : String} {place : Place}

/-- Below a root without links a key is written at the names that it is made of. -/
theorem NoLinksBelow.eq_of_writePlace {names : List String} (hfree : disk.NoLinksBelow root)
    (hne : names ≠ []) (hnames : ∀ name ∈ names, IsName name)
    (h : disk.writePlace (join root (ofRelative names)) = .ok place) :
    ∃ top links, disk.walkTo root = .ok (top, links) ∧ place = top ++ names := by
  obtain ⟨-, hfrom⟩ := writePlace_eq_ok.mp h
  obtain ⟨folder, name, left, hopens, hgoal⟩ := writePlaceFrom_eq_ok.mp hfrom
  obtain ⟨⟨before, hstep, hbefore⟩, hfolder, -⟩ := hopens
  have hrelative := isAbsolute_ofRelative hnames
  obtain ⟨front, hsegments, hroot⟩ := segments_join root hrelative
  rw [segments_ofRelative hne hnames] at hsegments
  obtain ⟨init, last, rfl⟩ := (List.eq_nil_or_concat names).resolve_left hne
  rw [List.concat_eq_append] at *
  -- The folder is where the root and all names but the last lead.
  rw [(segments_of_lastStep? hstep).1, ← List.append_assoc] at hsegments
  obtain ⟨rfl, hlast⟩ := List.append_inj' hsegments rfl
  obtain rfl := List.singleton_inj.mp hlast
  rw [startOf, isAbsolute_join root hrelative, ← startOf, follow_append] at hbefore
  obtain ⟨⟨top, links⟩, hfront, hinit⟩ := bind_eq_ok.mp hbefore
  have hwalk : disk.walkTo root = .ok (top, links) := by
    rcases hroot with hroot | hroot
    · rw [walkTo, hroot, hfront]
    · rw [walkTo, hroot, follow_append, hfront]
      change disk.follow links top [""] = .ok (top, links)
      rw [follow_cons, isFolder_of_follow hinit hfolder]
      dsimp only
      rw [if_pos (.inl rfl), follow_nil]
  obtain ⟨rfl, rfl⟩ := Prod.mk.inj ((hfree top links hwalk).follow_names
    (fun other hother => hnames other (List.mem_append_left _ hother)) hinit)
  refine ⟨top, left, hwalk, ?_⟩
  rcases hgoal with ⟨-, rfl⟩ | ⟨target, -, -, hlink, -⟩
  · rw [List.append_assoc]
  · obtain ⟨first, rest, hcons⟩ := List.exists_cons_of_ne_nil hne
    rw [List.append_assoc, hcons] at hlink
    exact absurd hlink (hfree top left hwalk first rest target)

/-- Below a root without links different keys are written at different places. -/
theorem NoLinksBelow.key_eq {key second : String} (hfree : disk.NoLinksBelow root) (hkey : IsKey key)
    (hsecond : IsKey second) (hplace : disk.writePlace (join root key) = .ok place)
    (hplace' : disk.writePlace (join root second) = .ok place) : key = second := by
  obtain ⟨names, hne, hnames, rfl⟩ := hkey
  obtain ⟨others, hne', hothers, rfl⟩ := hsecond
  obtain ⟨top, links, hwalk, rfl⟩ := hfree.eq_of_writePlace hne hnames hplace
  obtain ⟨top', links', hwalk', heq⟩ := hfree.eq_of_writePlace hne' hothers hplace'
  rw [hwalk] at hwalk'
  obtain ⟨rfl, rfl⟩ := Prod.mk.inj (Except.ok.inj hwalk')
  exact congrArg ofRelative (List.append_cancel_left heq)

end

/-! ### Files in the places of files -/

namespace SameTree

theorem grown (h : SameTree disk other) : Grown disk other :=
  ⟨fun place => .inl (h.kinds place), h.working⟩

theorem locate_eq (h : SameTree disk other) (path : String) : other.locate path = disk.locate path := by
  rw [locate, locate, h.working, h.follow_eq]

theorem canonical?_eq (h : SameTree disk other) (path : String) :
    other.canonical? path = disk.canonical? path := by
  rw [canonical?, canonical?, h.locate_eq]

theorem settled_eq (h : SameTree disk other) (path : String) :
    other.settled path = disk.settled path := by
  simp only [settled, h.canonical?_eq]

/-- The normal form of a path depends on the tree alone. -/
theorem normal?_eq (h : SameTree disk other) (root path : String) :
    other.normal? root path = disk.normal? root path := by
  simp only [normal?, h.settled_eq]

/-- A path that leads to nothing does so after files were put in the places of files. -/
theorem read_eq_notFound (h : SameTree disk other) {path : String}
    (hread : disk.read path = .error .notFound) : other.read path = .error .notFound := by
  have hresolve : other.resolve path = disk.resolve path := by rw [resolve, resolve, h.locate_eq]
  rw [Disk.read] at hread ⊢
  rw [hresolve]
  cases hplace : disk.resolve path with
  | error fault =>
      rw [hplace] at hread
      exact hread
  | ok place =>
      rw [hplace] at hread
      dsimp only [bind, Except.bind] at hread ⊢
      have hkind := h.kinds place
      rw [kindAt, kindAt] at hkind
      cases hentry : disk.top.find? place with
      | none =>
          rw [hentry, Option.map_none, Option.map_eq_none_iff] at hkind
          rw [hkind]
      | some entry =>
          rw [hentry] at hkind hread
          obtain ⟨found, hfound, hkind⟩ := Option.map_eq_some_iff.mp hkind
          rw [hfound]
          cases entry with
          | file | folder => cases hread
          | link target =>
              cases found with
              | file | folder => cases hkind
              | link => rfl

/-- A path reads as it did where the file that it leads to is left alone. -/
theorem read_of_kept (h : SameTree disk other) {path : String} {content : ByteArray}
    (hread : disk.read path = .ok content)
    (hkept : ∀ place, disk.locate path = .ok place → other.bareAt place = disk.bareAt place) :
    other.read path = .ok content := by
  obtain ⟨hadmissible, place, hplace, hfile⟩ := read_eq_ok_iff_locate.mp hread
  refine read_eq_ok_iff_locate.mpr ⟨hadmissible, place, (h.locate_eq path).trans hplace, ?_⟩
  exact (hkept place hplace).trans hfile

end SameTree

/-- Files were put in the places of files: the tree is the same, and so are the sources of each folder. -/
structure Rewritten (disk other : Disk) : Prop extends SameTree disk other where
  sources : ∀ extensions directory file,
    file ∈ other.sources extensions directory ↔ file ∈ disk.sources extensions directory

namespace Rewritten

theorem refl (disk : Disk) : Rewritten disk disk := ⟨SameTree.refl disk, fun _ _ _ => Iff.rfl⟩

theorem trans {third : Disk} (h : Rewritten disk other) (h' : Rewritten other third) :
    Rewritten disk third :=
  ⟨h.toSameTree.trans h'.toSameTree, fun extensions directory file =>
    (h'.sources extensions directory file).trans (h.sources extensions directory file)⟩

theorem put {place : Place} {old : ByteArray} (h : disk.top.find? place = some (.file old))
    (new : ByteArray) : Rewritten disk (disk.put place (.file new)) :=
  ⟨SameTree.put new h, fun _ _ _ => mem_sources_put new h⟩

end Rewritten

end CodeIntel.Disk
