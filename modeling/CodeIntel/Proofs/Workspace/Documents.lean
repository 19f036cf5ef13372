import CodeIntel.Proofs.Disk.Files
import CodeIntel.Proofs.Workspace.KeyOrder
import CodeIntel.Proofs.Workspace.Operations

/-! The documents of a snapshot and their files. What a load, a sync and edits put into a snapshot
stands there in order and under its own path; what was read has the text that was on the disk; and the
changed documents of edits are written without touching the files of the others. -/

namespace CodeIntel

open Disk (IsKey SameTree)

theorem Text.toUTF8_of_ofBytes {bytes : ByteArray} {text : String} (h : ofBytes bytes = .ok text) :
    bytes = text.toUTF8 := by
  unfold ofBytes at h
  split at h
  · rename_i found hfound
    obtain rfl := Except.ok.inj h
    rw [String.fromUTF8?] at hfound
    split at hfound
    · obtain rfl := Option.some.inj hfound
      rfl
    · cases hfound
  · cases h

theorem Disk.read_of_readSource {disk : Disk} {path text : String}
    (h : disk.readSource path = .ok (some text)) : disk.read path = .ok text.toUTF8 := by
  unfold readSource at h
  split at h
  · rename_i bytes hread
    split at h
    · rename_i found hfound
      obtain rfl := Option.some.inj (Except.ok.inj h)
      rw [hread, Text.toUTF8_of_ofBytes hfound]
    · cases h
  · cases h
  · cases h

/-- Documents in the order of their paths, each under its own, and every path a normal form. -/
structure Filed (documents : Keyed Document) : Prop where
  ascending : documents.Ascending
  named : ∀ key document, (key, document) ∈ documents → document.path = key ∧ IsKey key

namespace Filed

variable {documents : Keyed Document}

theorem nil : Filed [] := ⟨Keyed.ascending_nil, fun _ _ hmem => by cases hmem⟩

theorem insert (h : Filed documents) (document : Document) (hkey : IsKey document.path) :
    Filed (documents.insert document.path document) := by
  refine ⟨h.ascending.insert _ _, fun key other hmem => ?_⟩
  rcases Keyed.mem_of_mem_insert hmem with ⟨rfl, rfl⟩ | hmem
  · exact ⟨rfl, hkey⟩
  · exact h.named key other hmem

theorem erase (h : Filed documents) (key : String) : Filed (documents.erase key) :=
  ⟨h.ascending.erase key, fun other document hmem =>
    h.named other document (Keyed.mem_erase.mp hmem).2⟩

/-- The documents are in the order of their paths. -/
theorem ordered (h : Filed documents) :
    documents.values.Pairwise fun first second => first.path < second.path := by
  refine List.pairwise_map.mpr (h.ascending.imp_of_mem fun {first second} hfirst hsecond hbefore => ?_)
  rw [(h.named _ _ hfirst).1, (h.named _ _ hsecond).1]
  exact hbefore

end Filed

/-- Every document of some kind has the text that its file has. -/
def Snapshot.Coherent (snapshot : Snapshot) (disk : Disk) (covered : Document → Prop) : Prop :=
  ∀ document ∈ snapshot.allDocuments, covered document →
    disk.read (Path.join snapshot.root document.path) = .ok document.text.toUTF8

/-- Every document has a file. -/
def Snapshot.Present (snapshot : Snapshot) (disk : Disk) : Prop :=
  ∀ document ∈ snapshot.allDocuments,
    ∃ content, disk.read (Path.join snapshot.root document.path) = .ok content

theorem Snapshot.mem_allDocuments {snapshot : Snapshot} (hfiled : Filed snapshot.documents)
    {document : Document} :
    document ∈ snapshot.allDocuments ↔ (document.path, document) ∈ snapshot.documents := by
  constructor
  · intro hmem
    obtain ⟨⟨key, _⟩, hentry, rfl⟩ := List.mem_map.mp hmem
    rw [(hfiled.named key _ hentry).1]
    exact hentry
  · exact fun hmem => List.mem_map.mpr ⟨_, hmem, rfl⟩

/-- A document is found under its path. -/
theorem Snapshot.document?_of_mem {snapshot : Snapshot} (hfiled : Filed snapshot.documents)
    {document : Document} (hmem : document ∈ snapshot.allDocuments) :
    snapshot.document? document.path = some document :=
  hfiled.ascending.get?_of_mem ((mem_allDocuments hfiled).mp hmem)

theorem Snapshot.Coherent.mono {snapshot : Snapshot} {disk : Disk} {covered fewer : Document → Prop}
    (h : snapshot.Coherent disk covered) (hfewer : ∀ document, fewer document → covered document) :
    snapshot.Coherent disk fewer :=
  fun document hmem hcovered => h document hmem (hfewer document hcovered)

theorem Snapshot.Present.of_sameTree {snapshot : Snapshot} {disk other : Disk}
    (h : snapshot.Present disk) (hsame : SameTree disk other) : snapshot.Present other := by
  intro document hmem
  obtain ⟨content, hread⟩ := h document hmem
  exact hsame.read hread

/-! ### What is read -/

theorem Solution.exists_normal?_of_mem {disk : Disk} {solution : Solution} {members : List String}
    {key : String} (h : solution.memberPaths disk = .ok members) (hmem : key ∈ members) :
    ∃ path, disk.normal? solution.root path = some key := by
  obtain ⟨normal, hnormal, h⟩ := bind_eq_ok.mp h
  obtain rfl := Except.ok.inj h
  obtain ⟨path, -, hpath⟩ := exists_of_mem_mapM hnormal (mem_ascending.mp hmem)
  exact ⟨path, Snapshot.normalPath_eq_ok.mp hpath⟩

/-- The documents that are read from normal forms stand in order and have the texts of their files. -/
theorem Disk.readDocuments_filed {disk : Disk} {root : String} {paths : List String}
    {documents : Keyed Document}
    (hpaths : ∀ key ∈ paths, ∃ root' path, disk.normal? root' path = some key)
    (h : disk.readDocuments root paths = .ok documents) :
    Filed documents ∧ ∀ key document, (key, document) ∈ documents →
      document.version = 0 ∧ disk.read (Path.join root key) = .ok document.text.toUTF8 := by
  refine foldlM_invariant (fun documents => Filed documents ∧ ∀ key document,
    (key, document) ∈ documents → document.version = 0 ∧
      disk.read (Path.join root key) = .ok document.text.toUTF8)
    ?_ ⟨Filed.nil, fun _ _ hmem => by cases hmem⟩ h
  rintro sofar key next hkey ⟨hfiled, htexts⟩ hnext
  obtain ⟨onDisk, honDisk, hnext⟩ := bind_eq_ok.mp hnext
  cases onDisk with
  | none =>
      obtain rfl := Except.ok.inj hnext
      exact ⟨hfiled, htexts⟩
  | some text =>
      obtain rfl := Except.ok.inj hnext
      have hread := Disk.read_of_readSource honDisk
      obtain ⟨root', path, hnormal⟩ := hpaths key hkey
      refine ⟨hfiled.insert ⟨key, text, 0⟩ (Disk.isKey_of_read hnormal hread), ?_⟩
      intro other document hmem
      rcases Keyed.mem_of_mem_insert hmem with ⟨rfl, rfl⟩ | hmem
      · exact ⟨rfl, hread⟩
      · exact htexts other document hmem

/-- A load holds what is on the disk. -/
theorem Store.LoadOf.documents_on_disk {engine : Engine} {store : Store} {id : Nat} {descriptor : String}
    {snapshot : Snapshot} (h : LoadOf engine store id descriptor snapshot) :
    Filed snapshot.documents ∧ (∀ document ∈ snapshot.allDocuments, document.version = 0 ∧
      store.disk.read (Path.join snapshot.root document.path) = .ok document.text.toUTF8) := by
  obtain ⟨solution, members, -, hmembers, hdocuments, -, hroot⟩ := h.found
  obtain ⟨hfiled, htexts⟩ := Disk.readDocuments_filed
    (fun key hmem => ⟨_, Solution.exists_normal?_of_mem hmembers hmem⟩) hdocuments
  refine ⟨hfiled, fun document hmem => ?_⟩
  rw [hroot]
  exact htexts _ _ ((Snapshot.mem_allDocuments hfiled).mp hmem)

/-- What one round of a sync leaves: the documents stand in order, and each is either as it was or has
the text of its file. -/
def Store.SyncedSofar (disk : Disk) (base : Snapshot) (documents : Keyed Document) : Prop :=
  Filed documents ∧ ∀ key document, (key, document) ∈ documents →
    (key, document) ∈ base.documents ∨
      disk.read (Path.join base.root key) = .ok document.text.toUTF8

theorem Store.SyncedSofar.insert {disk : Disk} {base : Snapshot} {documents : Keyed Document}
    (h : SyncedSofar disk base documents) (document : Document) (hkey : IsKey document.path)
    (hread : disk.read (Path.join base.root document.path) = .ok document.text.toUTF8) :
    SyncedSofar disk base (documents.insert document.path document) := by
  refine ⟨h.1.insert document hkey, fun key other hmem => ?_⟩
  rcases Keyed.mem_of_mem_insert hmem with ⟨rfl, rfl⟩ | hmem
  · exact .inr hread
  · exact h.2 key other hmem

theorem Change.of_eq_added {isMember : Bool} {existing : Option Document} {onDisk : Option String}
    {text : String} (h : Change.of isMember existing onDisk = .added text) :
    existing = Option.none ∧ onDisk = some text := by
  unfold Change.of at h
  split at h
  · exact ⟨rfl, by rw [Change.added.inj h]⟩
  · cases h
  · split at h
    · cases h
    · split at h <;> cases h
  · cases h

theorem Change.of_eq_updated {isMember : Bool} {existing : Option Document} {onDisk : Option String}
    {text : String} (h : Change.of isMember existing onDisk = .updated text) :
    (∃ document, existing = some document) ∧ onDisk = some text := by
  unfold Change.of at h
  split at h
  · cases h
  · cases h
  · rename_i document found
    split at h
    · cases h
    · split at h
      · exact ⟨⟨document, rfl⟩, by rw [Change.updated.inj h]⟩
      · cases h
  · cases h

/-- One round of a sync keeps this: what it puts in is a source file or a document of the base. -/
theorem Store.SyncedSofar.syncPath {disk : Disk} {base : Snapshot} {members : List String}
    {sofar next : Keyed Document × SyncReport} {path : String} (hbase : Filed base.documents)
    (hmembers : ∀ key ∈ members, ∃ root' path, disk.normal? root' path = some key)
    (h : SyncedSofar disk base sofar.1)
    (hnext : Store.syncPath disk base members sofar path = .ok next) :
    SyncedSofar disk base next.1 := by
  unfold Store.syncPath at hnext
  dsimp only at hnext
  split at hnext
  · obtain rfl := Except.ok.inj hnext
    exact h
  · rename_i hlooked
    obtain ⟨onDisk, honDisk, hnext⟩ := bind_eq_ok.mp hnext
    obtain rfl := Except.ok.inj hnext
    dsimp only
    cases hchange : Change.of (members.contains path) (base.documents.get? path) onDisk with
    | none => exact h
    | removed =>
        exact ⟨h.1.erase path, fun key document hmem =>
          h.2 key document (Keyed.mem_erase.mp hmem).2⟩
    | added text =>
        obtain ⟨hnew, rfl⟩ := Change.of_eq_added hchange
        have hread := Disk.read_of_readSource honDisk
        have hmember : path ∈ members := by
          rw [hnew] at hlooked
          simpa using hlooked
        obtain ⟨root', given, hnormal⟩ := hmembers path hmember
        exact h.insert ⟨path, text, _⟩ (Disk.isKey_of_read hnormal hread) hread
    | updated text =>
        obtain ⟨⟨document, hold⟩, rfl⟩ := Change.of_eq_updated hchange
        have hread := Disk.read_of_readSource honDisk
        exact h.insert ⟨path, text, _⟩ (hbase.named _ _ (Keyed.mem_of_get? hold)).2 hread

/-- A sync holds for each of its documents what is on the disk or what its base held. -/
theorem Store.SyncOf.syncedSofar {engine : Engine} {store : Store} {base successor : Snapshot}
    (h : SyncOf engine store base successor) (hbase : Filed base.documents) :
    SyncedSofar store.disk base successor.documents := by
  obtain ⟨solution, members, paths, start, report, -, hmembers, hsync, -⟩ := h.found
  have hstart : SyncedSofar store.disk base base.documents := ⟨hbase, fun _ _ hmem => .inl hmem⟩
  refine foldlM_invariant (fun sofar => SyncedSofar store.disk base sofar.1) ?_ hstart hsync
  intro sofar path next _ hsofar hnext
  exact hsofar.syncPath hbase
    (fun key hmem => ⟨_, Solution.exists_normal?_of_mem hmembers hmem⟩) hnext

/-- Over a coherent base a sync is coherent. -/
theorem Store.SyncOf.coherent {engine : Engine} {store : Store} {base successor : Snapshot}
    {covered : Document → Prop} (h : SyncOf engine store base successor)
    (hbase : Filed base.documents) (hcoherent : base.Coherent store.disk covered) :
    successor.Coherent store.disk covered := by
  obtain ⟨hfiled, htexts⟩ := h.syncedSofar hbase
  intro document hmem hcovered
  rw [h.root_eq]
  rcases htexts _ _ ((Snapshot.mem_allDocuments hfiled).mp hmem) with hkept | hread
  · exact hcoherent document ((Snapshot.mem_allDocuments hbase).mpr hkept) hcovered
  · exact hread

theorem Store.SyncOf.present {engine : Engine} {store : Store} {base successor : Snapshot}
    (h : SyncOf engine store base successor) (hbase : Filed base.documents)
    (hpresent : base.Present store.disk) : successor.Present store.disk := by
  obtain ⟨hfiled, htexts⟩ := h.syncedSofar hbase
  intro document hmem
  rw [h.root_eq]
  rcases htexts _ _ ((Snapshot.mem_allDocuments hfiled).mp hmem) with hkept | hread
  · exact hpresent document ((Snapshot.mem_allDocuments hbase).mpr hkept)
  · exact ⟨_, hread⟩

/-! ### What edits change -/

theorem Document.applyEdits_path {document after : Document} {edits : List TextEdit} {version : Nat}
    (h : document.applyEdits edits version = .ok after) :
    after.path = document.path ∧ after.version = version := by
  obtain ⟨splices, -, h⟩ := bind_eq_ok.mp h
  dsimp only at h
  split at h
  · cases h
  · obtain rfl := Except.ok.inj h
    exact ⟨rfl, rfl⟩

namespace Store

theorem grouped_ascending {disk : Disk} {root : String} {edits : List DocumentEdit}
    {groups : Keyed (List TextEdit)} (h : grouped disk root edits = .ok groups) :
    groups.Ascending := by
  refine foldlM_invariant Keyed.Ascending ?_ Keyed.ascending_nil h
  intro sofar edit next _ hsofar hnext
  obtain ⟨path, -, hnext⟩ := bind_eq_ok.mp hnext
  obtain rfl := Except.ok.inj hnext
  exact hsofar.insert _ _

/-- Every group of edits stands under the normal form of a path that was given. -/
theorem exists_of_mem_grouped {disk : Disk} {root : String} {edits : List DocumentEdit}
    {groups : Keyed (List TextEdit)} (h : grouped disk root edits = .ok groups) :
    ∀ entry ∈ groups, ∃ edit ∈ edits, disk.normal? root edit.path = some entry.1 := by
  refine foldlM_invariant (fun groups : Keyed (List TextEdit) =>
    ∀ entry ∈ groups, ∃ edit ∈ edits, disk.normal? root edit.path = some entry.1) ?_
    (fun _ hmem => absurd hmem List.not_mem_nil) h
  intro sofar edit next hedit hsofar hnext entry hmem
  obtain ⟨path, hpath, hnext⟩ := bind_eq_ok.mp hnext
  obtain rfl := Except.ok.inj hnext
  rcases Keyed.mem_of_mem_insert hmem with ⟨hkey, -⟩ | hmem
  · rw [hkey]
    exact ⟨edit, hedit, Snapshot.normalPath_eq_ok.mp hpath⟩
  · exact hsofar entry hmem

/-- Edits of different documents in path order, each under its normal form, stay as they are. -/
theorem grouped_of_ascending {disk : Disk} {root : String} {edits : List DocumentEdit}
    (hordered : edits.Pairwise fun first second => first.path < second.path)
    (hnormal : ∀ edit ∈ edits, disk.normal? root edit.path = some edit.path) :
    grouped disk root edits = .ok (edits.map fun edit => (edit.path, edit.edits)) := by
  suffices hfold : ∀ sofar : Keyed (List TextEdit),
      (∀ entry ∈ sofar, ∀ edit ∈ edits, entry.1 < edit.path) →
      edits.foldlM (fun (groups : Keyed (List TextEdit)) edit => do
        let path ← (Snapshot.normalPath disk root edit.path).mapError CoordinateError.toError
        return groups.insert path ((groups.get? path).getD [] ++ edit.edits)) sofar =
        Except.ok (sofar ++ edits.map fun edit => (edit.path, edit.edits)) from
    hfold [] fun _ hmem => absurd hmem List.not_mem_nil
  induction edits with
  | nil =>
      intro sofar _
      rw [List.map_nil, List.append_nil]
      rfl
  | cons edit rest ih =>
      intro sofar hbelow
      obtain ⟨hahead, hrest⟩ := List.pairwise_cons.mp hordered
      have hpath : (Snapshot.normalPath disk root edit.path).mapError CoordinateError.toError =
          .ok edit.path :=
        Snapshot.normalPath_eq_ok.mpr (hnormal edit List.mem_cons_self)
      have hgreater : ∀ entry ∈ sofar, entry.1 < edit.path :=
        fun entry hmem => hbelow entry hmem edit List.mem_cons_self
      rw [List.foldlM_cons, hpath]
      simp only [bind, Except.bind, pure, Except.pure, Keyed.get?_of_greater hgreater,
        Keyed.insert_of_greater hgreater, Option.getD_none, List.nil_append]
      have hfold := ih hrest (fun other hmem => hnormal other (List.mem_cons_of_mem _ hmem))
        (sofar ++ [(edit.path, edit.edits)])
      rw [List.append_assoc] at hfold
      refine hfold fun entry hmem other hother => ?_
      rcases List.mem_append.mp hmem with hmem | hmem
      · exact hbelow entry hmem other (List.mem_cons_of_mem _ hother)
      · rw [List.mem_singleton.mp hmem]
        exact hahead other hother

/-- Edits change the documents of their paths, each as its own edits say. -/
theorem edited_eq_ok {snapshot : Snapshot} {groups : Keyed (List TextEdit)}
    {changed : List (Document × Document)} :
    edited snapshot groups = .ok changed ↔
      List.Forall₂ (fun entry pair => snapshot.document? entry.1 = some pair.1 ∧
        pair.1.applyEdits entry.2 (snapshot.version + 1) = .ok pair.2) groups changed := by
  rw [edited, mapM_eq_ok]
  refine iff_of_eq (congrFun (congrFun (congrArg List.Forall₂ ?_) _) _)
  funext entry pair
  obtain ⟨path, edits⟩ := entry
  obtain ⟨before, after⟩ := pair
  dsimp only
  cases snapshot.document? path with
  | none => simp
  | some document =>
      simp only [bind_eq_ok, pure, Except.pure, Except.ok.injEq, Prod.mk.injEq, Option.some.injEq]
      refine propext ⟨?_, ?_⟩
      · rintro ⟨value, happly, rfl, rfl⟩
        exact ⟨rfl, happly⟩
      · rintro ⟨rfl, happly⟩
        exact ⟨after, happly, rfl, rfl⟩

theorem exists_of_mem_edited {snapshot : Snapshot} {groups : Keyed (List TextEdit)}
    {changed : List (Document × Document)} (h : edited snapshot groups = .ok changed)
    {pair : Document × Document} (hmem : pair ∈ changed) :
    ∃ entry ∈ groups, snapshot.document? entry.1 = some pair.1 ∧
      pair.1.applyEdits entry.2 (snapshot.version + 1) = .ok pair.2 := by
  obtain ⟨entry, hentry, hpair⟩ := exists_of_mem_mapM h hmem
  refine ⟨entry, hentry, ?_⟩
  dsimp only at hpair
  split at hpair
  · cases hpair
  · rename_i document hdocument
    obtain ⟨after, happly, hpair⟩ := bind_eq_ok.mp hpair
    obtain rfl := Except.ok.inj hpair
    exact ⟨hdocument, happly⟩

/-- Some documents of a snapshot with what takes their places, no document twice. -/
structure Rewrites (documents : Keyed Document) (changed : List (Document × Document)) : Prop where
  known : ∀ pair ∈ changed, (pair.1.path, pair.1) ∈ documents
  inPlace : ∀ pair ∈ changed, pair.2.path = pair.1.path
  distinct : (changed.map fun pair => pair.2.path).Nodup

theorem paths_of_edited {snapshot : Snapshot} {groups : Keyed (List TextEdit)}
    {changed : List (Document × Document)} (hfiled : Filed snapshot.documents)
    (h : edited snapshot groups = .ok changed) :
    changed.map (fun pair => pair.2.path) = groups.keys ∧
      ∀ pair ∈ changed, (pair.1.path, pair.1) ∈ snapshot.documents ∧ pair.2.path = pair.1.path := by
  have hall := edited_eq_ok.mp h
  clear h
  induction hall with
  | nil => exact ⟨rfl, fun _ hmem => absurd hmem List.not_mem_nil⟩
  | @cons entry pair _ _ hfirst _ ih =>
      obtain ⟨hdocument, happly⟩ := hfirst
      have hknown := Keyed.mem_of_get? hdocument
      have hbefore := (hfiled.named _ _ hknown).1
      have hafter := (Document.applyEdits_path happly).1
      refine ⟨?_, fun other hmem => ?_⟩
      · rw [List.map_cons, ih.1, hafter, hbefore]
        rfl
      · rcases List.mem_cons.mp hmem with rfl | hmem
        · exact ⟨hbefore ▸ hknown, hafter⟩
        · exact ih.2 other hmem

theorem rewrites_of_edited {snapshot : Snapshot} {groups : Keyed (List TextEdit)}
    {changed : List (Document × Document)} (hfiled : Filed snapshot.documents)
    (hgroups : groups.Ascending) (h : edited snapshot groups = .ok changed) :
    Rewrites snapshot.documents changed := by
  obtain ⟨hkeys, hpairs⟩ := paths_of_edited hfiled h
  exact ⟨fun pair hmem => (hpairs pair hmem).1, fun pair hmem => (hpairs pair hmem).2,
    hkeys ▸ hgroups.nodup_keys⟩

/-- What stands in the documents after some were put in the places of others. -/
theorem mem_replaced {documents : Keyed Document} {changed : List (Document × Document)}
    (hascending : documents.Ascending) (hdistinct : (changed.map fun pair => pair.2.path).Nodup)
    {key : String} {document : Document} :
    (key, document) ∈ replaced documents changed ↔
      (∃ pair ∈ changed, pair.2 = document ∧ document.path = key) ∨
        (key ∉ changed.map (fun pair => pair.2.path) ∧ (key, document) ∈ documents) := by
  induction changed generalizing documents with
  | nil => simp [replaced]
  | cons pair rest ih =>
      obtain ⟨hfirst, hrest⟩ := List.nodup_cons.mp hdistinct
      rw [replaced, List.foldl_cons, ← replaced, ih (hascending.insert _ _) hrest,
        hascending.mem_insert, List.map_cons, List.mem_cons, not_or]
      constructor
      · rintro (⟨other, hother, hdocument⟩ | ⟨hnot, ⟨rfl, rfl⟩ | ⟨hne, hmem⟩⟩)
        · exact .inl ⟨other, List.mem_cons_of_mem _ hother, hdocument⟩
        · exact .inl ⟨pair, List.mem_cons_self, rfl, rfl⟩
        · exact .inr ⟨⟨hne, hnot⟩, hmem⟩
      · rintro (⟨other, hother, hdocument, rfl⟩ | ⟨⟨hne, hnot⟩, hmem⟩)
        · rcases List.mem_cons.mp hother with rfl | hother
          · subst hdocument
            exact .inr ⟨hfirst, .inl ⟨rfl, rfl⟩⟩
          · exact .inl ⟨other, hother, hdocument, rfl⟩
        · exact .inr ⟨hnot, .inr ⟨hne, hmem⟩⟩

theorem get?_replaced_of_notMem {documents : Keyed Document} {changed : List (Document × Document)}
    {key : String} (hkey : key ∉ changed.map fun pair => pair.2.path) :
    (replaced documents changed).get? key = documents.get? key := by
  induction changed generalizing documents with
  | nil => rfl
  | cons pair rest ih =>
      rw [List.map_cons, List.mem_cons, not_or] at hkey
      rw [replaced, List.foldl_cons, ← replaced, ih hkey.2, Keyed.get?_insert_of_ne _ _ hkey.1]

/-- Edits that are made leave every document alone that none of their paths leads to. -/
theorem document?_of_applyEdits {store after : Store} {snapshot : Snapshot} {id version number : Nat}
    {edits : List DocumentEdit} (hpublished : store.published = some snapshot)
    (hfiled : Filed snapshot.documents) {key : String}
    (hkey : ∀ edit ∈ edits, store.disk.normal? snapshot.root edit.path ≠ some key)
    (h : store.applyEdits id version edits = (.ok number, after)) :
    ∃ next, after.published = some next ∧ next.document? key = snapshot.document? key := by
  obtain ⟨groups, changed, disk, -, -, hgroups, hchanged, -, -, rfl⟩ := exists_of_applyEdits_eq_ok hpublished h
  refine ⟨_, rfl, get?_replaced_of_notMem fun hmem => ?_⟩
  rw [(paths_of_edited hfiled hchanged).1] at hmem
  obtain ⟨entry, hentry, rfl⟩ := List.mem_map.mp hmem
  obtain ⟨edit, hedit, hnormal⟩ := exists_of_mem_grouped hgroups entry hentry
  exact hkey edit hedit hnormal

theorem Rewrites.isKey {documents : Keyed Document} {changed : List (Document × Document)}
    (h : Rewrites documents changed) (hfiled : Filed documents) {pair : Document × Document}
    (hmem : pair ∈ changed) : IsKey pair.2.path := by
  rw [h.inPlace pair hmem]
  exact (hfiled.named _ _ (h.known pair hmem)).2

/-- Documents stay in order when some are put in the places of others. -/
theorem filed_replaced {documents : Keyed Document} {changed : List (Document × Document)}
    (hfiled : Filed documents) (hkeys : ∀ pair ∈ changed, IsKey pair.2.path) :
    Filed (replaced documents changed) := by
  induction changed generalizing documents with
  | nil => exact hfiled
  | cons pair rest ih =>
      rw [replaced, List.foldl_cons, ← replaced]
      exact ih (hfiled.insert pair.2 (hkeys pair List.mem_cons_self))
        fun other hmem => hkeys other (List.mem_cons_of_mem _ hmem)

/-- No path comes or goes when some documents are put in the places of others. -/
theorem Rewrites.keys_replaced {documents : Keyed Document} {changed : List (Document × Document)}
    (h : Rewrites documents changed) (hascending : documents.Ascending) :
    (replaced documents changed).keys = documents.keys := by
  have hpaths : ∀ pair ∈ changed, pair.2.path ∈ documents.keys := by
    intro pair hmem
    rw [h.inPlace pair hmem]
    exact List.mem_map_of_mem (h.known pair hmem)
  clear h
  induction changed generalizing documents with
  | nil => rfl
  | cons pair rest ih =>
      have hkeys := hascending.keys_insert (hpaths pair List.mem_cons_self) pair.2
      rw [replaced, List.foldl_cons, ← replaced, ih (hascending.insert _ _), hkeys]
      intro other hmem
      rw [hkeys]
      exact hpaths other (List.mem_cons_of_mem _ hmem)

/-- The changed documents are written, and only they are. -/
theorem writeBack_of_read {root : String} {changed : List (Document × Document)} {disk : Disk}
    (hfree : disk.NoLinksBelow root)
    (hfiles : ∀ pair ∈ changed, IsKey pair.2.path ∧
      ∃ content, disk.read (Path.join root pair.2.path) = .ok content)
    (hdistinct : (changed.map fun pair => pair.2.path).Nodup) (written : List Document) :
    ∃ after, writeBack root written disk changed = (.ok (), after) ∧ SameTree disk after ∧
      (∀ pair ∈ changed, after.read (Path.join root pair.2.path) = .ok pair.2.text.toUTF8) ∧
      ∀ key content, IsKey key → key ∉ changed.map (fun pair => pair.2.path) →
        disk.read (Path.join root key) = .ok content →
        after.read (Path.join root key) = .ok content := by
  induction changed generalizing disk written with
  | nil => exact ⟨disk, rfl, SameTree.refl disk, by simp, fun _ _ _ _ hread => hread⟩
  | cons pair rest ih =>
      obtain ⟨before, after⟩ := pair
      obtain ⟨hfirst, hrest⟩ := List.nodup_cons.mp hdistinct
      obtain ⟨hkey, content, hread⟩ := hfiles _ List.mem_cons_self
      obtain ⟨middle, hwrite, hsame, hnew, hkept⟩ :=
        hfree.write_of_read hkey hread after.text.toUTF8
      have hothers : ∀ pair ∈ rest, IsKey pair.2.path ∧
          ∃ content, middle.read (Path.join root pair.2.path) = .ok content := by
        intro pair hmem
        obtain ⟨hother, content, hcontent⟩ := hfiles pair (List.mem_cons_of_mem _ hmem)
        exact ⟨hother, hsame.read hcontent⟩
      obtain ⟨final, hfinal, hsame', hnew', hkept'⟩ :=
        ih (hsame.noLinksBelow hfree) hothers hrest (written ++ [before])
      refine ⟨final, ?_, hsame.trans hsame', ?_, ?_⟩
      · rw [writeBack_cons, hwrite]
        exact hfinal
      · intro pair hmem
        rcases List.mem_cons.mp hmem with rfl | hmem
        · exact hkept' _ _ hkey hfirst hnew
        · exact hnew' pair hmem
      · intro key content hkey' hnot hcontent
        rw [List.map_cons, List.mem_cons, not_or] at hnot
        exact hkept' key content hkey' hnot.2 (hkept key content hkey' hnot.1 hcontent)

/-- Where all documents have files and no link stands below the root, edits are written; what follows
is coherent if what was there before is. -/
theorem Rewrites.written {store : Store} {snapshot : Snapshot} {changed : List (Document × Document)}
    (h : Rewrites snapshot.documents changed) (hfiled : Filed snapshot.documents)
    (hfree : store.disk.NoLinksBelow snapshot.root) (hpresent : snapshot.Present store.disk) :
    ∃ disk, writeBack snapshot.root [] store.disk changed = (.ok (), disk) ∧
      SameTree store.disk disk ∧ Filed (successorOf store snapshot changed).documents ∧
      (successorOf store snapshot changed).Present disk ∧
      ∀ covered, snapshot.Coherent store.disk covered →
        (successorOf store snapshot changed).Coherent disk covered := by
  have hfiles : ∀ pair ∈ changed, IsKey pair.2.path ∧
      ∃ content, store.disk.read (Path.join snapshot.root pair.2.path) = .ok content := by
    intro pair hmem
    refine ⟨h.isKey hfiled hmem, ?_⟩
    rw [h.inPlace pair hmem]
    exact hpresent _ ((Snapshot.mem_allDocuments hfiled).mpr (h.known pair hmem))
  obtain ⟨disk, hwritten, hsame, hnew, hkept⟩ := writeBack_of_read hfree hfiles h.distinct []
  have hfiled' : Filed (successorOf store snapshot changed).documents :=
    filed_replaced hfiled fun pair hmem => (hfiles pair hmem).1
  have horigin : ∀ document ∈ (successorOf store snapshot changed).allDocuments,
      (∃ pair ∈ changed, pair.2 = document) ∨
        (document.path ∉ changed.map (fun pair => pair.2.path) ∧
          document ∈ snapshot.allDocuments) := by
    intro document hmem
    rw [Snapshot.mem_allDocuments hfiled', successorOf,
      mem_replaced hfiled.ascending h.distinct] at hmem
    rcases hmem with ⟨pair, hpair, hdocument, -⟩ | ⟨hnot, hmem⟩
    · exact .inl ⟨pair, hpair, hdocument⟩
    · exact .inr ⟨hnot, (Snapshot.mem_allDocuments hfiled).mpr hmem⟩
  refine ⟨disk, hwritten, hsame, hfiled', fun document hmem => ?_,
    fun covered hcoherent document hmem hcovered => ?_⟩
  · rcases horigin document hmem with ⟨pair, hpair, rfl⟩ | ⟨-, hmem⟩
    · exact ⟨_, hnew pair hpair⟩
    · exact hpresent.of_sameTree hsame document hmem
  · rcases horigin document hmem with ⟨pair, hpair, rfl⟩ | ⟨hnot, hmem⟩
    · exact hnew pair hpair
    · have hkey := (hfiled.named _ _ ((Snapshot.mem_allDocuments hfiled).mp hmem)).2
      exact hkept _ _ hkey hnot (hcoherent document hmem hcovered)

end Store

end CodeIntel
