import CodeIntel.Proofs.Workspace.Agreement
import CodeIntel.Proofs.Workspace.Coherence
import CodeIntel.Proofs.Workspace.EditedFiles

/-! Edits are grouped by document. Each document gets all edits that are given for it under any spelling
of its path, in their order; so it does not matter how they are spread over entries and which entries of
other documents stand between them. What is published has the edited documents with the next version,
their files have the new texts, and nothing else has changed. A snapshot that was in step with the disk
stays so, unless the edits change which source files the engine lists. -/

namespace CodeIntel

open Disk (IsKey)
open World

/-! ### Regrouping -/

namespace Store

variable {disk : Disk} {root : String} {edits regrouped : List DocumentEdit}

/-- Edits ask for the same as others: all of them lie inside the root, and for each document the same
edits are given in the same order. -/
structure Regroups (disk : Disk) (root : String) (edits regrouped : List DocumentEdit) : Prop where
  inside : ∀ edit ∈ regrouped, ∃ key, disk.normal? root edit.path = some key
  named : ∀ key, addresses disk root regrouped key = addresses disk root edits key
  given : ∀ key, editsAt disk root regrouped key = editsAt disk root edits key

/-- An entry may be split in two, each with a spelling of the path of its own. -/
theorem regroups_split {path path' path'' key : String} (first second : List TextEdit)
    (hpath : disk.normal? root path = some key) (hpath' : disk.normal? root path' = some key)
    (hpath'' : disk.normal? root path'' = some key) :
    Regroups disk root [⟨path, first ++ second⟩] [⟨path', first⟩, ⟨path'', second⟩] := by
  refine ⟨?_, fun other => ?_, fun other => ?_⟩
  · simp [hpath', hpath'']
  · simp [addresses, hpath, hpath', hpath'']
  · by_cases hkey : key = other <;> simp [editsAt, hpath, hpath', hpath'', hkey]

/-- Edits can be grouped exactly when all their paths lie inside the root. -/
theorem exists_grouped_iff :
    (∃ groups, grouped disk root edits = .ok groups) ↔
      ∀ edit ∈ edits, ∃ key, disk.normal? root edit.path = some key := by
  constructor
  · rintro ⟨groups, hgroups⟩ edit hmem
    obtain ⟨sofar, next, hnext⟩ := exists_of_foldlM_eq_ok hgroups edit hmem
    obtain ⟨key, hkey, -⟩ := bind_eq_ok.mp hnext
    exact ⟨key, Snapshot.normalPath_eq_ok.mp hkey⟩
  · intro h
    cases hgroups : grouped disk root edits with
    | ok groups => exact ⟨groups, rfl⟩
    | error fault =>
        obtain ⟨sofar, edit, hmem, hfault⟩ := exists_of_foldlM_eq_error hgroups
        obtain ⟨key, hkey⟩ := h edit hmem
        rw [Snapshot.normalPath_eq_ok.mpr hkey] at hfault
        cases hfault

theorem Regroups.grouped_eq (h : Regroups disk root edits regrouped) {groups : Keyed (List TextEdit)}
    (hgroups : grouped disk root edits = .ok groups) : grouped disk root regrouped = .ok groups := by
  obtain ⟨groups', hgroups'⟩ := exists_grouped_iff.mpr h.inside
  refine hgroups'.trans (congrArg Except.ok ?_)
  refine (grouped_ascending hgroups').ext (grouped_ascending hgroups) fun key => ?_
  rw [get?_grouped hgroups', get?_grouped hgroups, h.named, h.given]

/-- There is nothing to do exactly when no document is given an edit. -/
theorem all_isEmpty_iff (hinside : ∀ edit ∈ edits, ∃ key, disk.normal? root edit.path = some key) :
    (edits.all fun edit => edit.edits.isEmpty) = true ↔
      ∀ key, editsAt disk root edits key = [] := by
  rw [List.all_eq_true]
  constructor
  · intro h key
    refine List.flatMap_eq_nil_iff.mpr fun edit hmem => ?_
    exact List.isEmpty_iff.mp (h edit (List.mem_filter.mp hmem).1)
  · intro h edit hmem
    obtain ⟨key, hkey⟩ := hinside edit hmem
    refine List.isEmpty_iff.mpr (List.flatMap_eq_nil_iff.mp (h key) edit ?_)
    exact List.mem_filter.mpr ⟨hmem, by simp [hkey]⟩

/-- Regrouped edits have the same outcome. -/
theorem applyEdits_of_regroups {store after : Store} {snapshot : Snapshot} {id version number : Nat}
    (hpublished : store.published = some snapshot)
    (h : Regroups store.disk snapshot.root edits regrouped)
    (hok : store.applyEdits id version edits = (.ok number, after)) :
    store.applyEdits id version regrouped = (.ok number, after) := by
  obtain ⟨groups, changed, disk, hsome, hcurrent, hgroups, hchanged, hwritten, rfl, rfl⟩ :=
    exists_of_applyEdits_eq_ok hpublished hok
  have hsome' : (regrouped.all fun edit => edit.edits.isEmpty) = false := by
    rw [Bool.eq_false_iff, Ne, all_isEmpty_iff h.inside]
    simp only [h.given]
    rw [← all_isEmpty_iff (exists_grouped_iff.mp ⟨groups, hgroups⟩), hsome]
    exact Bool.false_ne_true
  exact applyEdits_of_written hsome' hcurrent (h.grouped_eq hgroups) hchanged hwritten

end Store

/-! ### What is written -/

namespace Disk

variable {disk : Disk} {root : String} {documents : List Document} {document : Document} {place : Place}

/-- Below a root without links no other document is written where one is. -/
theorem NoLinksBelow.bareAt_withAll (hfree : disk.NoLinksBelow root)
    (hkeys : ∀ document ∈ documents, IsKey document.path)
    (hdistinct : (documents.map Document.path).Nodup) (hmem : document ∈ documents)
    (hplace : disk.fileOf? root document = some place) :
    (disk.withAll root documents).bareAt place = some (.file document.text.toUTF8) := by
  rw [Disk.bareAt_withAll, overlaid]
  cases hlast : disk.lastTo? root documents place with
  | none => exact absurd hplace (lastTo?_eq_none.mp hlast document hmem)
  | some last =>
      obtain ⟨hlastMem, hlastPlace⟩ := mem_of_lastTo? hlast
      have hpath : last.path = document.path := hfree.key_eq (hkeys last hlastMem) (hkeys document hmem)
        (fileOf?_eq_some.mp hlastPlace) (fileOf?_eq_some.mp hplace)
      obtain rfl := List.inj_on_of_nodup_map hdistinct hlastMem hmem hpath
      rfl

theorem bareAt_withAll_of_forall_ne
    (h : ∀ document ∈ documents, disk.fileOf? root document ≠ some place) :
    (disk.withAll root documents).bareAt place = disk.bareAt place := by
  rw [bareAt_withAll, overlaid, lastTo?_eq_none.mpr h]

/-- Documents that are written over files. -/
theorem Rewritten.withAll
    (h : ∀ document ∈ documents, ∃ place content, disk.fileOf? root document = some place ∧
      disk.top.find? place = some (.file content)) :
    Rewritten disk (disk.withAll root documents) := by
  induction documents generalizing disk with
  | nil => exact .refl disk
  | cons document rest ih =>
      obtain ⟨⟨place, content, hplace, hfile⟩, hrest⟩ := List.forall_mem_cons.mp h
      have hwritten : disk.written (Path.join root document.path) document.text.toUTF8 =
          disk.put place (.file document.text.toUTF8) := by
        rw [written_eq, fileOf?_eq_some.mp hplace]
      have hput : Rewritten disk (disk.put place (.file document.text.toUTF8)) := .put hfile _
      rw [Disk.withAll, List.foldl_cons, hwritten]
      refine hput.trans (ih fun other hmem => ?_)
      obtain ⟨place', content', hplace', hfile'⟩ := hrest other hmem
      have hkind := hput.kinds place'
      rw [kindAt, kindAt, hfile'] at hkind
      obtain ⟨entry, hentry, hkind⟩ := Option.map_eq_some_iff.mp hkind
      cases entry with
      | file kept => exact ⟨place', kept, hput.grown.fileOf?_eq.trans hplace', hentry⟩
      | folder | link => cases hkind

end Disk

namespace Store

/-- What edits make of the published snapshot and of the disk. -/
structure EditedInto (disk : Disk) (snapshot : Snapshot) (edits : List DocumentEdit) (after : Disk)
    (next : Snapshot) : Prop where
  id : next.id = snapshot.id
  version : next.version = snapshot.version + 1
  root : next.root = snapshot.root
  descriptor : next.descriptor = snapshot.descriptor
  projects : next.projects = snapshot.projects
  keys : next.documents.keys = snapshot.documents.keys
  inside : ∀ edit ∈ edits, ∃ key, disk.normal? snapshot.root edit.path = some key
  edited : ∀ key, addresses disk snapshot.root edits key = true →
    ∃ old new, snapshot.document? key = some old ∧
      old.applyEdits (editsAt disk snapshot.root edits key) next.version = .ok new ∧
      next.document? key = some new ∧ new.version = next.version ∧
      after.read (Path.join snapshot.root key) = .ok new.text.toUTF8
  kept : ∀ key, addresses disk snapshot.root edits key = false →
    next.document? key = snapshot.document? key
  files : ∀ key content, IsKey key → addresses disk snapshot.root edits key = false →
    disk.read (Path.join snapshot.root key) = .ok content →
    after.read (Path.join snapshot.root key) = .ok content
  /-- No other place changes, inside the root or outside. -/
  places : ∀ place, (∀ document ∈ addressed disk snapshot edits,
    disk.fileOf? snapshot.root document ≠ some place) → after.bareAt place = disk.bareAt place
  /-- Only a document whose file was gone makes a new file. -/
  rewritten : (∀ document ∈ addressed disk snapshot edits,
    ∃ content, disk.read (Path.join snapshot.root document.path) = .ok content) →
    disk.Rewritten after

section

variable {disk : Disk} {snapshot : Snapshot} {edits : List DocumentEdit}
  {groups : Keyed (List TextEdit)} {changed : List (Document × Document)}
  (hfiled : Filed snapshot.documents) (hgroups : grouped disk snapshot.root edits = .ok groups)
  (hchanged : edited snapshot groups = .ok changed)
include hfiled hgroups hchanged

theorem mem_paths_of_edited {key : String} :
    key ∈ changed.map (fun pair => pair.2.path) ↔ addresses disk snapshot.root edits key = true := by
  rw [(paths_of_edited hfiled hchanged).1]
  exact mem_keys_grouped hgroups

/-- An addressed document is changed by the edits that are given for it, and is then in its place. -/
theorem exists_pair_of_addresses {key : String}
    (hkey : addresses disk snapshot.root edits key = true) :
    ∃ pair ∈ changed, pair.2.path = key ∧ snapshot.document? key = some pair.1 ∧
      pair.1.applyEdits (editsAt disk snapshot.root edits key) (snapshot.version + 1) = .ok pair.2 ∧
      (replaced snapshot.documents changed).get? key = some pair.2 := by
  have hrewrites := rewrites_of_edited hfiled (grouped_ascending hgroups) hchanged
  obtain ⟨⟨old, new⟩, hpair, rfl⟩ :=
    List.mem_map.mp ((mem_paths_of_edited hfiled hgroups hchanged).mpr hkey)
  have hpath : new.path = old.path := hrewrites.inPlace _ hpair
  have hmem : (new.path, new) ∈ replaced snapshot.documents changed :=
    (mem_replaced hfiled.ascending hrewrites.distinct).mpr (.inl ⟨_, hpair, rfl, rfl⟩)
  refine ⟨(old, new), hpair, rfl, ?_, ?_, ?_⟩
  · exact hfiled.ascending.get?_of_mem (hpath ▸ hrewrites.known _ hpair)
  · exact hpath ▸ applyEdits_of_mem_edited hfiled hgroups hchanged hpair
  · exact (filed_replaced hfiled fun _ => hrewrites.isKey hfiled).ascending.get?_of_mem hmem

variable (hfree : disk.NoLinksBelow snapshot.root)
include hfree

/-- A key for which no edits are given reads as it did. -/
theorem read_of_not_addresses {key : String} {content : ByteArray} (hisKey : IsKey key)
    (hkey : addresses disk snapshot.root edits key = false)
    (hread : disk.read (Path.join snapshot.root key) = .ok content) :
    (disk.withAll snapshot.root (changed.map Prod.snd)).read (Path.join snapshot.root key) =
      .ok content := by
  have hrewrites := rewrites_of_edited hfiled (grouped_ascending hgroups) hchanged
  obtain ⟨names, hne, hnames, rfl⟩ := hisKey
  obtain ⟨top, links, -, hplace⟩ := hfree.writePlace_of_read hne hnames hread
  have hspared : ∀ document ∈ changed.map Prod.snd,
      disk.fileOf? snapshot.root document ≠ some (top ++ names) := by
    refine List.forall_mem_map.mpr fun pair hpair hsame => ?_
    have hpath := hfree.key_eq (hrewrites.isKey hfiled hpair) ⟨names, hne, hnames, rfl⟩
      (Disk.fileOf?_eq_some.mp hsame) hplace
    have hmem := List.mem_map_of_mem (f := fun pair : Document × Document => pair.2.path) hpair
    rw [hpath] at hmem
    exact Bool.eq_false_iff.mp hkey ((mem_paths_of_edited hfiled hgroups hchanged).mp hmem)
  refine Disk.read_of_bareAt ((Disk.Grown.withAll ..).writePlace_iff.mpr hplace) ?_
  exact (Disk.bareAt_withAll_of_forall_ne hspared).trans (Disk.bareAt_of_read hread hplace)

/-- Edits that are written back are what is published. -/
theorem editedInto_of_edited (store : Store)
    (hplaces : ∀ pair ∈ changed, ∃ place, disk.fileOf? snapshot.root pair.2 = some place) :
    EditedInto disk snapshot edits (disk.withAll snapshot.root (changed.map Prod.snd))
      (successorOf store snapshot changed) := by
  have hrewrites := rewrites_of_edited hfiled (grouped_ascending hgroups) hchanged
  have haddressed : ∀ pair ∈ changed, pair.1 ∈ addressed disk snapshot edits :=
    fun pair hmem => map_fst_edited hfiled hgroups hchanged ▸ List.mem_map_of_mem hmem
  refine ⟨rfl, rfl, rfl, rfl, rfl, hrewrites.keys_replaced hfiled.ascending,
    exists_grouped_iff.mp ⟨groups, hgroups⟩, ?_, ?_,
    fun _ _ => read_of_not_addresses hfiled hgroups hchanged hfree, ?_, ?_⟩
  · intro key hkey
    obtain ⟨pair, hpair, rfl, hold, happlied, hnew⟩ :=
      exists_pair_of_addresses hfiled hgroups hchanged hkey
    obtain ⟨place, hplace⟩ := hplaces pair hpair
    refine ⟨pair.1, pair.2, hold, happlied, hnew, (Document.applyEdits_path happlied).2, ?_⟩
    have hwritten := (Disk.Grown.withAll disk snapshot.root (changed.map Prod.snd)).writePlace_iff.mpr
      (Disk.fileOf?_eq_some.mp hplace)
    refine Disk.read_of_bareAt hwritten (hfree.bareAt_withAll ?_ ?_ (List.mem_map_of_mem hpair) hplace)
    · exact List.forall_mem_map.mpr fun _ => hrewrites.isKey hfiled
    · rw [List.map_map]
      exact hrewrites.distinct
  · intro key hkey
    refine get?_replaced_of_notMem fun hmem => ?_
    exact Bool.eq_false_iff.mp hkey ((mem_paths_of_edited hfiled hgroups hchanged).mp hmem)
  · intro place hspared
    refine Disk.bareAt_withAll_of_forall_ne (List.forall_mem_map.mpr fun pair hmem => ?_)
    rw [Disk.fileOf?_congr (hrewrites.inPlace pair hmem)]
    exact hspared _ (haddressed pair hmem)
  · intro hreads
    refine Disk.Rewritten.withAll (List.forall_mem_map.mpr fun pair hmem => ?_)
    obtain ⟨place, hplace⟩ := hplaces pair hmem
    obtain ⟨content, hread⟩ := hreads _ (haddressed pair hmem)
    refine ⟨place, content, hplace, Disk.find?_of_bareAt (Disk.bareAt_of_read hread ?_)⟩
    rw [← Disk.fileOf?_eq_some, ← Disk.fileOf?_congr (hrewrites.inPlace pair hmem)]
    exact hplace

end

variable {disk after : Disk} {snapshot next : Snapshot} {edits : List DocumentEdit}

theorem exists_editedInto {store after : Store} {id version number : Nat}
    (hpublished : store.published = some snapshot) (hfiled : Filed snapshot.documents)
    (hfree : store.disk.NoLinksBelow snapshot.root)
    (h : store.applyEdits id version edits = (.ok number, after)) :
    ∃ next, after = { store with disk := after.disk, published := some next } ∧
      number = next.version ∧ EditedInto store.disk snapshot edits after.disk next := by
  obtain ⟨groups, changed, disk, -, -, hgroups, hchanged, hwritten, rfl, rfl⟩ :=
    exists_of_applyEdits_eq_ok hpublished h
  obtain ⟨rfl, hplaces⟩ := withAll_of_writeBack hwritten
  exact ⟨successorOf store snapshot changed, rfl, rfl,
    editedInto_of_edited hfiled hgroups hchanged hfree store hplaces⟩

namespace EditedInto

variable {members : List String} (h : EditedInto disk snapshot edits after next)
  (hstep : snapshot.InStep disk members)
include h hstep

/-- The documents of a snapshot in step with the disk all have files. -/
theorem rewritten_of_inStep (hfiled : Filed snapshot.documents) : disk.Rewritten after := by
  refine h.rewritten fun document hmem => ⟨_, (hstep.present document.path document ?_).2⟩
  exact Snapshot.document?_of_mem hfiled (List.mem_filter.mp hmem).1

/-- What was in step stays in step with the files that are listed. -/
theorem inStep (hfiled : Filed snapshot.documents) : next.InStep after members := by
  have hknown : ∀ key, (∃ document, next.document? key = some document) ↔
      ∃ document, snapshot.document? key = some document := by
    intro key
    simp only [Snapshot.document?, ← Keyed.mem_keys, h.keys]
  constructor
  · intro key hmember hnone
    rw [h.root]
    refine (h.rewritten_of_inStep hstep hfiled).read_eq_notFound (hstep.absent key hmember ?_)
    rw [Option.eq_none_iff_forall_ne_some]
    intro document hdocument
    obtain ⟨_, hnext⟩ := (hknown key).mpr ⟨document, hdocument⟩
    rw [hnone] at hnext
    cases hnext
  · intro key document hdocument
    rw [h.root]
    cases hkey : addresses disk snapshot.root edits key with
    | true =>
        obtain ⟨old, new, hold, -, hnew, -, hread⟩ := h.edited key hkey
        obtain rfl := Option.some.inj (hdocument.symm.trans hnew)
        exact ⟨(hstep.present key old hold).1, hread⟩
    | false =>
        rw [h.kept key hkey] at hdocument
        obtain ⟨hmember, hread⟩ := hstep.present key document hdocument
        have hisKey := (hfiled.named _ _ (Keyed.mem_of_get? hdocument)).2
        exact ⟨hmember, h.files key _ hisKey hkey hread⟩

end EditedInto

end Store

/-! ### Grouped edits as a whole -/

/-- Edits that are made change exactly the documents that they are given for, each by all edits that are
given for it, and write exactly the files of these. Regrouped edits are made alike. A full sync after them
reports nothing if the snapshot was in step with the disk before and the engine still lists the same
source files, as that for C# does unless the file of the descriptor is written. -/
theorem edits_grouped_by_document {engine : Engine} {world : World} {snapshot : Snapshot}
    {after : Store} {id version number : Nat} {edits : List DocumentEdit}
    (hreachable : Reachable engine world) (hpublished : world.store.published = some snapshot)
    (hfree : world.store.disk.NoLinksBelow snapshot.root)
    (h : world.store.applyEdits id version edits = (.ok number, after)) :
    ∃ next, after = { world.store with disk := after.disk, published := some next } ∧
      number = next.version ∧
      Store.EditedInto world.store.disk snapshot edits after.disk next ∧
      (∀ regrouped, Store.Regroups world.store.disk snapshot.root edits regrouped →
        world.store.applyEdits id version regrouped = (.ok number, after)) ∧
      ∀ members, engine.Lists world.store.disk snapshot.descriptor members →
        snapshot.InStep world.store.disk members →
        (engine.Lists after.disk snapshot.descriptor members ∨
          ∃ parser, engine = CSharp.engine parser ∧
            ∀ file, CSharp.ReadsFrom world.store.disk snapshot.descriptor file →
              ∀ document ∈ Store.addressed world.store.disk snapshot edits,
                world.store.disk.fileOf? snapshot.root document ≠ some file) →
        after.sync engine none = (.ok ⟨0, 0, 0, 0, next.version⟩, after) := by
  have hfiled := (hreachable.wellFormed hpublished).filed
  obtain ⟨next, hafter, hnumber, hedited⟩ := Store.exists_editedInto hpublished hfiled hfree h
  refine ⟨next, hafter, hnumber, hedited,
    fun regrouped hregroups => Store.applyEdits_of_regroups hpublished hregroups h, ?_⟩
  intro members hlists hstep hkept
  have hlists' : engine.Lists after.disk snapshot.descriptor members := by
    rcases hkept with hlists' | ⟨parser, rfl, hspared⟩
    · exact hlists'
    · exact CSharp.lists_of_rewritten (hedited.rewritten_of_inStep hstep hfiled) hlists
        fun file hfile => hedited.places file (hspared file hfile)
  have hpublished' : after.published = some next := by rw [hafter]
  refine (Store.sync_eq_zero_iff hpublished').mpr ⟨members, ?_, hedited.inStep hstep hfiled⟩
  rw [hedited.descriptor]
  exact hlists'

theorem inStep_solo (text : String) : (soloSnapshot 0 0 text).InStep (soloDisk text) ["a"] := by
  constructor
  · intro key hmember hnone
    obtain rfl := List.mem_singleton.mp hmember
    cases hnone
  · intro key document hdocument
    obtain ⟨rfl, rfl⟩ := Prod.mk.inj (List.mem_singleton.mp (Keyed.mem_of_get? hdocument))
    exact ⟨List.mem_singleton.mpr rfl, join_solo ▸ read_soloDisk text⟩

/-- An insertion into the one file of the small workspace may come in two entries, and the sync after it
finds nothing to do. -/
theorem solo_edits_grouped : ∃ next : Snapshot,
    Store.EditedInto (soloDisk "x") (soloSnapshot 0 0 "x") (soloEdits 0) (soloDisk "yx") next ∧
    (soloWorld "x" (some (soloSnapshot 0 0 "x")) [] [0]).store.applyEdits 0 0
        [⟨"a", []⟩, ⟨"a", [.insert ⟨0, 0⟩ "y"]⟩] =
      (.ok 1, (soloWorld "yx" (some (soloSnapshot 0 1 "yx")) [] [0]).store) ∧
    (soloWorld "yx" (some (soloSnapshot 0 1 "yx")) [] [0]).store.sync soloEngine none =
      (.ok ⟨0, 0, 0, 0, 1⟩, (soloWorld "yx" (some (soloSnapshot 0 1 "yx")) [] [0]).store) := by
  have hlists : ∀ text, soloEngine.Lists (soloDisk text) "/" ["a"] :=
    fun text => ⟨_, rfl, memberPaths_solo (soloDisk text)⟩
  obtain ⟨next, -, hnumber, hedited, hregrouped, hsync⟩ :=
    edits_grouped_by_document (reachable_solo "x") rfl (noLinksBelow_soloDisk "x" "/")
      (applyEdits_solo_insert "x")
  refine ⟨next, hedited, hregrouped _ ?_, ?_⟩
  · exact Store.regroups_split [] [.insert ⟨0, 0⟩ "y"] (normal?_solo "x") (normal?_solo "x")
      (normal?_solo "x")
  · have hquiet := hsync ["a"] (hlists "x") (inStep_solo "x") (.inl (hlists "yx"))
    rw [← hnumber] at hquiet
    exact hquiet

/-! ### A descriptor that is a source of its own project -/

/-- A disk with nothing but a descriptor that has the extension of a source file. -/
def selfDisk (text : String) : Disk := flatDisk [("d.cs", text)]

/-- What is published of such a disk. -/
def selfSnapshot (version : Nat) (text : String) : Snapshot :=
  { flatSnapshot 0 "d.cs" "P" [("d.cs", ⟨"d.cs", text, version⟩)] with version }

section

variable (text : String)

theorem tidy_selfDisk : (selfDisk text).Tidy :=
  tidy_flatDisk (by simp) (by simpa using ⟨by simp [Path.IsName], by decide, by decide⟩)

theorem sources_selfDisk : (selfDisk text).sources CSharp.extensions [] = [["d.cs"]] := by cbv

theorem memberPaths_selfDisk :
    Solution.memberPaths (selfDisk text) ⟨"/", [⟨"P", "csharp", [], "/", [Path.ofNames ["d.cs"]]⟩]⟩ =
      .ok ["d.cs"] :=
  Solution.memberPaths_of_single rfl (by cbv)

theorem read_selfDisk : (selfDisk text).read (Path.join "/" "d.cs") = .ok text.toUTF8 := by cbv

theorem writePlace_selfDisk : (selfDisk text).writePlace "/d.cs" = .ok ["d.cs"] := by
  have hopens : (selfDisk text).OpensAt Disk.mostLinks [] "/d.cs" [] "d.cs" Disk.mostLinks :=
    ⟨⟨[""], by decide, by cbv⟩, rfl, by decide, by decide, by decide⟩
  exact Disk.writePlace_eq_ok.mpr ⟨by cbv,
    Disk.writePlaceFrom_eq_ok.mpr ⟨[], "d.cs", _, hopens, .inl ⟨.inr rfl, rfl⟩⟩⟩

theorem write_selfDisk (new : String) :
    (selfDisk text).write (Path.join "/" "d.cs") new.toUTF8 = .ok (selfDisk new) := by
  have hpath : Path.join "/" "d.cs" = "/d.cs" := by decide
  rw [Disk.write, hpath, writePlace_selfDisk]
  simp [selfDisk, flatDisk, Disk.put, Entry.put, Entry.putChild, bind, Except.bind, pure, Except.pure]

theorem admissible_selfDisk : Disk.admissible (Path.ofNames ["d.cs"]) = .ok () := by cbv

end

section

variable {text new : String} (hparse : Descriptor.parse text = .ok ⟨[⟨"P", ".", none, []⟩]⟩)

include hparse in
theorem reachable_selfDisk : Reachable (CSharp.engine fun _ => none)
    { store := { disk := selfDisk text, published := some (selfSnapshot 0 text) } } := by
  have hdocuments : (selfDisk text).readDocuments "/" ["d.cs"] = .ok [("d.cs", ⟨"d.cs", text, 0⟩)] :=
    Disk.readDocuments_of_single (Disk.readSource_of_read (read_selfDisk text))
  have hload : (World.initial (selfDisk text) "").store.load (CSharp.engine fun _ => none) 0
      (Path.ofNames ["d.cs"]) = (.ok ⟨0, 1, 1, 0, ["P"]⟩,
        { disk := selfDisk text, published := some (selfSnapshot 0 text) }) :=
    load_flatDisk (tidy_selfDisk _) rfl admissible_selfDisk hparse 0 (sources_selfDisk _)
      (memberPaths_selfDisk _) hdocuments
  exact .of_load (congrArg Prod.snd hload)

theorem inStep_selfDisk : (selfSnapshot 0 text).InStep (selfDisk text) ["d.cs"] := by
  constructor
  · intro key hmember hnone
    obtain rfl := List.mem_singleton.mp hmember
    cases hnone
  · intro key document hdocument
    obtain ⟨rfl, rfl⟩ := Prod.mk.inj (List.mem_singleton.mp (Keyed.mem_of_get? hdocument))
    exact ⟨List.mem_singleton.mpr rfl, read_selfDisk _⟩

theorem applyEdits_selfDisk {edits : List TextEdit} (hsome : edits.isEmpty = false)
    (hedits : Document.applyEdits ⟨"d.cs", text, 0⟩ edits 1 = .ok ⟨"d.cs", new, 1⟩) :
    Store.applyEdits { disk := selfDisk text, published := some (selfSnapshot 0 text) } 0 0
        [⟨"d.cs", edits⟩] =
      (.ok 1, { disk := selfDisk new, published := some (selfSnapshot 1 new) }) := by
  have hgroups : Store.grouped (selfDisk text) "/" [⟨"d.cs", edits⟩] = .ok [("d.cs", edits)] := by
    refine Store.grouped_of_ascending (List.pairwise_singleton _ _) fun edit hmem => ?_
    obtain rfl := List.mem_singleton.mp hmem
    exact Disk.normal?_ofRelative _ "/" ["d.cs"] (by simp [Path.IsName]) (by decide)
  have hchanged : Store.edited (selfSnapshot 0 text) [("d.cs", edits)] =
      .ok [(⟨"d.cs", text, 0⟩, ⟨"d.cs", new, 1⟩)] :=
    mapM_eq_ok.mpr (.cons (bind_eq_ok.mpr ⟨_, hedits, rfl⟩) .nil)
  have hwritten : Store.writeBack "/" [] (selfDisk text)
      [(⟨"d.cs", text, 0⟩, ⟨"d.cs", new, 1⟩)] = (.ok (), selfDisk new) := by
    rw [Store.writeBack_cons, write_selfDisk]
    rfl
  have hcurrent : Store.ensureCurrent
      { disk := selfDisk text, published := some (selfSnapshot 0 text) } 0 0 =
      .ok (selfSnapshot 0 text) := Store.ensureCurrent_eq_ok.mpr ⟨rfl, rfl, rfl⟩
  rw [Store.applyEdits_of_written (by simpa using hsome) hcurrent hgroups hchanged hwritten]
  simp [Store.successorOf, selfSnapshot, flatSnapshot, Store.replaced, Keyed.insert, Keyed.keys]

include hparse in
theorem sync_selfDisk : Store.sync (CSharp.engine fun _ => none)
    { disk := selfDisk text, published := some (selfSnapshot 0 text) } none =
      (.ok ⟨0, 0, 0, 0, 0⟩, { disk := selfDisk text, published := some (selfSnapshot 0 text) }) := by
  have hsolution : (CSharp.engine fun _ => none).loadSolution (selfDisk text)
      (Path.ofNames ["d.cs"]) = .done ⟨"/", [⟨"P", "csharp", [], "/", [Path.ofNames ["d.cs"]]⟩]⟩ :=
    loadSolution_flatDisk (tidy_selfDisk _) rfl admissible_selfDisk hparse (sources_selfDisk _)
  have hlists : (CSharp.engine fun _ => none).Lists (selfDisk text) (selfSnapshot 0 text).descriptor
      ["d.cs"] := ⟨_, hsolution, memberPaths_selfDisk text⟩
  have hpublished : (Store.mk (selfDisk text) (some (selfSnapshot 0 text)) 0 "").published =
      some (selfSnapshot 0 text) := rfl
  exact (Store.sync_eq_zero_iff hpublished).mpr ⟨_, hlists, inStep_selfDisk⟩

/-- Where there is no project the document is no source of any. -/
theorem sync_selfDisk_of_empty (hempty : Descriptor.parse new = .ok ⟨[]⟩) :
    Store.sync (CSharp.engine fun _ => none)
      { disk := selfDisk new, published := some (selfSnapshot 1 new) } none =
      (.ok ⟨0, 0, 1, 1, 2⟩, { disk := selfDisk new,
                              published := some ⟨0, 2, "/", "/d.cs", [], [], ""⟩ }) := by
  have hsolution : (CSharp.engine fun _ => none).loadSolution (selfDisk new)
      (Path.ofNames ["d.cs"]) = .done ⟨"/", []⟩ :=
    loadSolution_flatDisk_of_empty (tidy_selfDisk new) rfl admissible_selfDisk hempty
  have hfinding : Store.finding (selfDisk new) (selfSnapshot 1 new) [] "d.cs" = .ok .removed := by
    have hexisting : (selfSnapshot 1 new).documents.get? "d.cs" = some ⟨"d.cs", new, 1⟩ := rfl
    have hsource : (selfDisk new).readSource (Path.join (selfSnapshot 1 new).root "d.cs") =
        .ok (some new) := Disk.readSource_of_read (read_selfDisk new)
    rw [Store.finding, hexisting, hsource]
    simp [Except.map, Change.of]
  have hscope : Store.syncScope (selfDisk new) (selfSnapshot 1 new) [] none = ["d.cs"] := by
    change ascending ["d.cs"] = ["d.cs"]
    decide
  have hscan : Store.scan (selfDisk new) (selfSnapshot 1 new) [] none = ([], ⟨0, 0, 1, 0, 1⟩) := by
    rw [Store.scan, hscope, Store.afterChanges, List.foldl_cons, Store.found_of_finding hfinding]
    simp [selfSnapshot, flatSnapshot, Change.applyTo, Keyed.erase, SyncReport.count]
  refine Store.sync_eq_ok.mpr ⟨selfSnapshot 1 new, ⟨"/", []⟩, [],
    ⟨rfl, hsolution, rfl, fun key hkey => ⟨.removed, ?_⟩⟩, ?_⟩
  · rw [← Store.mem_syncScope] at hkey
    obtain rfl : key = "d.cs" := List.mem_singleton.mp (hscope ▸ hkey)
    exact hfinding
  · have hdisk : (Store.mk (selfDisk new) (some (selfSnapshot 1 new)) 0 "").disk = selfDisk new := rfl
    rw [hdisk, hscan]
    exact .inr ⟨by decide, [], rfl, rfl, rfl⟩

end

/-- A descriptor without projects. -/
def emptyText : String := "\x7b\"projects\":[]\x7d"

/-- The descriptor is itself a source of its one project, and the snapshot is in step with the disk. An
edit takes the project out of the descriptor; so the sync after it finds one document too many. -/
theorem edited_descriptor_out_of_step : ∃ world after,
    Reachable (CSharp.engine fun _ => none) world ∧
    world.store.published = some (selfSnapshot 0 (projectText "P")) ∧
    world.store.disk.NoLinksBelow (selfSnapshot 0 (projectText "P")).root ∧
    world.store.sync (CSharp.engine fun _ => none) none = (.ok ⟨0, 0, 0, 0, 0⟩, world.store) ∧
    world.store.applyEdits 0 0 [⟨"d.cs", [⟨⟨⟨0, 13⟩, ⟨0, 25⟩⟩, ""⟩]⟩] = (.ok 1, after) ∧
    (after.sync (CSharp.engine fun _ => none) none).1 = .ok ⟨0, 0, 1, 1, 2⟩ := by
  have hedits : Document.applyEdits ⟨"d.cs", projectText "P", 0⟩ [⟨⟨⟨0, 13⟩, ⟨0, 25⟩⟩, ""⟩] 1 =
      .ok ⟨"d.cs", emptyText, 1⟩ := toOption_eq_some.mp (by decide +kernel)
  have hparse : Descriptor.parse (projectText "P") = .ok ⟨[⟨"P", ".", none, []⟩]⟩ :=
    parse_projectText (.inl rfl)
  have hempty : Descriptor.parse emptyText = .ok ⟨[]⟩ := parse_of_ofText (by decide +kernel)
  generalize projectText "P" = text at *
  generalize emptyText = new at *
  exact ⟨_, _, reachable_selfDisk hparse, rfl, (linkFree_flatDisk _).noLinksBelow _,
    sync_selfDisk hparse, applyEdits_selfDisk rfl hedits, congrArg Prod.fst (sync_selfDisk_of_empty hempty)⟩

end CodeIntel
