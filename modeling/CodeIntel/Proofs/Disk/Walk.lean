import CodeIntel.Proofs.Disk.Names
import CodeIntel.Proofs.Outcome

/-! Following paths on a disk. A walk depends on what stands where, not on the contents of files, so
that it ends at the same place on two disks of the same tree. Where no link stands below a folder, a
normal form leads from the folder through its names; a file that can be read there can be written
there, and the write changes that file alone. -/

namespace CodeIntel

/-- What stands at a place, apart from the content of a file. -/
inductive EntryKind where
  | file
  | folder
  | link (target : String)
deriving DecidableEq

namespace Entry

/-- The kind of an entry. -/
def kind : Entry → EntryKind
  | .file _ => .file
  | .folder _ => .folder
  | .link target => .link target

theorem child?_putChild_self (name : String) (entry : Entry) (children : List (String × Entry)) :
    child? name (putChild name entry children) = some entry := by
  induction children with
  | nil => simp [putChild, child?]
  | cons head rest ih =>
      obtain ⟨n, e⟩ := head
      rw [putChild]
      split
      · simp [child?]
      · split
        · simp [child?]
        · rename_i hne
          rw [child?, if_neg (Ne.symm hne), ih]

theorem child?_putChild_of_ne {name other : String} (entry : Entry)
    (children : List (String × Entry)) (h : other ≠ name) :
    child? other (putChild name entry children) = child? other children := by
  induction children with
  | nil => simp [putChild, child?, Ne.symm h]
  | cons head rest ih =>
      obtain ⟨n, e⟩ := head
      rw [putChild]
      split
      · simp [child?, Ne.symm h]
      · split
        · rename_i heq
          subst heq
          simp [child?, Ne.symm h]
        · rw [child?, child?, ih]

theorem find?_folder_cons (children : List (String × Entry)) (name : String) (rest : Place) :
    (Entry.folder children).find? (name :: rest) = (child? name children).bind (·.find? rest) := by
  rw [find?]
  cases child? name children <;> rfl

/-- Below a folder, the next name leads to the child of that name. -/
theorem find?_concat {entry : Entry} {place : Place} {children : List (String × Entry)}
    (h : entry.find? place = some (.folder children)) (name : String) :
    entry.find? (place ++ [name]) = child? name children := by
  induction place generalizing entry with
  | nil =>
      obtain rfl := Option.some.inj h
      rw [List.nil_append, find?_folder_cons]
      cases child? name children <;> simp [find?]
  | cons first rest ih =>
      cases entry with
      | file | link => cases h
      | folder siblings =>
          rw [find?_folder_cons] at h
          obtain ⟨next, hnext, hfound⟩ := Option.bind_eq_some_iff.mp h
          rw [List.cons_append, find?_folder_cons, hnext]
          exact ih hfound

section

variable {entry new : Entry} {place : Place} {content : ByteArray}

/-- Replacing a file changes what is found at its place. -/
theorem find?_put_self (h : entry.find? place = some (.file content)) :
    (put new entry place).find? place = some new := by
  induction place generalizing entry with
  | nil => simp [put, find?]
  | cons name rest ih =>
      cases entry with
      | file | link => cases h
      | folder children =>
          rw [find?_folder_cons] at h
          obtain ⟨next, hnext, hfound⟩ := Option.bind_eq_some_iff.mp h
          rw [put, find?_folder_cons, child?_putChild_self, hnext]
          exact ih hfound

/-- Replacing a file by a file changes no kind anywhere. -/
theorem kind_find?_put (h : entry.find? place = some (.file content)) (hnew : new.kind = .file)
    (other : Place) :
    ((put new entry place).find? other).map kind = (entry.find? other).map kind := by
  induction place generalizing entry other with
  | nil =>
      obtain rfl := Option.some.inj h
      cases other with
      | nil => exact congrArg some hnew
      | cons name rest => cases new <;> simp_all [put, find?, kind]
  | cons name rest ih =>
      cases entry with
      | file | link => cases h
      | folder children =>
          rw [find?_folder_cons] at h
          obtain ⟨next, hnext, hfound⟩ := Option.bind_eq_some_iff.mp h
          cases other with
          | nil => rfl
          | cons first others =>
              rw [put, find?_folder_cons, find?_folder_cons, hnext]
              by_cases hname : first = name
              · subst hname
                rw [child?_putChild_self, hnext]
                exact ih hfound others
              · rw [child?_putChild_of_ne _ _ hname]

/-- Replacing a file leaves every other file as it is. -/
theorem find?_put_of_ne {other : Place} {kept : ByteArray}
    (h : entry.find? place = some (.file content)) (hne : other ≠ place)
    (hother : entry.find? other = some (.file kept)) :
    (put new entry place).find? other = some (.file kept) := by
  induction place generalizing entry other with
  | nil =>
      obtain rfl := Option.some.inj h
      cases other with
      | nil => exact absurd rfl hne
      | cons => cases hother
  | cons name rest ih =>
      cases entry with
      | file | link => cases h
      | folder children =>
          rw [find?_folder_cons] at h
          obtain ⟨next, hnext, hfound⟩ := Option.bind_eq_some_iff.mp h
          cases other with
          | nil => cases hother
          | cons first others =>
              rw [put, find?_folder_cons, hnext]
              rw [find?_folder_cons] at hother
              by_cases hname : first = name
              · subst hname
                rw [hnext] at hother
                rw [child?_putChild_self]
                exact ih hfound (fun heq => hne (heq ▸ rfl)) hother
              · rw [child?_putChild_of_ne _ _ hname]
                exact hother

end

end Entry

namespace Disk

open CodeIntel.Path

/-- What stands at a place. -/
def kindAt (disk : Disk) (place : Place) : Option EntryKind := (disk.top.find? place).map Entry.kind

/-- Two disks on which the same stands everywhere, apart from the contents of files. -/
structure SameTree (disk other : Disk) : Prop where
  kinds : ∀ place, other.kindAt place = disk.kindAt place
  working : other.workingPlace = disk.workingPlace

theorem SameTree.refl (disk : Disk) : SameTree disk disk := ⟨fun _ => rfl, rfl⟩

theorem SameTree.trans {first second third : Disk} (h : SameTree first second)
    (h' : SameTree second third) : SameTree first third :=
  ⟨fun place => (h'.kinds place).trans (h.kinds place), h'.working.trans h.working⟩

theorem SameTree.put {disk : Disk} {place : Place} {content : ByteArray} (new : ByteArray)
    (h : disk.top.find? place = some (.file content)) :
    SameTree disk (disk.put place (.file new)) :=
  ⟨fun other => Entry.kind_find?_put h rfl other, rfl⟩

/-- One step of a walk, by what stands at the places that it looks at. -/
theorem follow_cons (disk : Disk) (links : Nat) (place : Place) (segment : String)
    (rest : List String) :
    disk.follow links place (segment :: rest) =
      match disk.kindAt place with
      | none => .error .notFound
      | some .file | some (.link _) => .error .notAFolder
      | some .folder =>
        if segment = "" ∨ segment = "." then disk.follow links place rest
        else if segment = ".." then disk.follow links place.dropLast rest
        else if mostNameBytes < segment.utf8ByteSize then .error .nameTooLong
        else
          match disk.kindAt (place ++ [segment]) with
          | none => .error .notFound
          | some (.link target) =>
            match links with
            | 0 => .error .tooManyLinks
            | links + 1 => disk.follow links (startOf place target) (segments target ++ rest)
          | some _ => disk.follow links (place ++ [segment]) rest := by
  rw [follow, childrenAt, kindAt]
  cases hentry : disk.top.find? place with
  | none => rfl
  | some entry =>
      cases entry with
      | file | link => rfl
      | folder children =>
          simp only [Option.map_some, Entry.kind, lookUp, kindAt, Entry.find?_concat hentry]
          split
          · rfl
          · split
            · rfl
            · by_cases hlong : mostNameBytes < segment.utf8ByteSize
              · simp only [hlong, if_true]
              · simp only [hlong, if_false]
                cases Entry.child? segment children with
                | none => rfl
                | some child => cases child <;> rfl

theorem follow_nil (disk : Disk) (links : Nat) (place : Place) :
    disk.follow links place [] = .ok (place, links) := by
  rw [follow]

/-- A walk that goes on is in a folder. -/
theorem isFolder_of_follow_cons {disk : Disk} {links : Nat} {place : Place} {segment : String}
    {rest : List String} {stop : Place × Nat} (h : disk.follow links place (segment :: rest) = .ok stop) :
    disk.kindAt place = some .folder := by
  rw [follow_cons] at h
  split at h
  · cases h
  · cases h
  · cases h
  · assumption

/-- A walk ends alike on disks of the same tree. -/
theorem SameTree.follow_eq {disk other : Disk} (h : SameTree disk other) (links : Nat)
    (place : Place) (path : List String) :
    other.follow links place path = disk.follow links place path := by
  -- A link uses up one of the links that are left; otherwise the path gets shorter.
  induction links generalizing place path with
  | zero =>
      induction path generalizing place with
      | nil => rw [follow_nil, follow_nil]
      | cons segment rest ih => simp only [follow_cons, h.kinds, ih]
  | succ links ihLinks =>
      induction path generalizing place with
      | nil => rw [follow_nil, follow_nil]
      | cons segment rest ih => simp only [follow_cons, h.kinds, ih, ihLinks]

/-- A path is followed piece by piece. -/
theorem follow_append (disk : Disk) (links : Nat) (place : Place) (front back : List String) :
    disk.follow links place (front ++ back) =
      disk.follow links place front >>= fun stop => disk.follow stop.2 stop.1 back := by
  induction links generalizing place front with
  | zero =>
      induction front generalizing place with
      | nil => rw [follow_nil]; rfl
      | cons segment rest ih =>
          simp only [List.cons_append, follow_cons, ih]
          repeat' split
          all_goals rfl
  | succ links ihLinks =>
      induction front generalizing place with
      | nil => rw [follow_nil]; rfl
      | cons segment rest ih =>
          simp only [List.cons_append, follow_cons, ih, ← List.append_assoc, ihLinks]
          repeat' split
          all_goals rfl

end Disk

end CodeIntel
