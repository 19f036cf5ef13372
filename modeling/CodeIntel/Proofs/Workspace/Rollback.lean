import CodeIntel.Proofs.Workspace.Representation
import CodeIntel.Proofs.Workspace.WriteBack

/-! What a call that fails leaves behind. Nothing is published, and only edits touch the disk, where a
write is refused after others were made. The documents written before it then get back the texts that
the snapshot holds. If these were the texts of their files, the disk is as before; but a file that
had changed since it was last read loses that change, and one that was gone is there again. -/

namespace CodeIntel

open World

/-! ### A refused write -/

namespace Store

/-- Edits of which one document cannot be written: those written before it get back the texts of the
snapshot, and all else stays as it is. -/
structure Refusal (disk : Disk) (snapshot : Snapshot) (edits : List DocumentEdit)
    (earlier : List Document) (refused : Document) (error : Error) (after : Disk) : Prop where
  /-- The documents come in path order. -/
  split : ∃ later, addressed disk snapshot edits = earlier ++ refused :: later
  written : ∀ document ∈ earlier, ∃ place, disk.fileOf? snapshot.root document = some place
  unwritten : disk.fileOf? snapshot.root refused = none
  message : ∃ fault : DiskFault,
    error = .internal s!"Failed to write {refused.path}: {fault.message}"
  restored : ∀ place, after.bareAt place = disk.overlaid snapshot.root earlier place

theorem exists_refusal {disk after : Disk} {snapshot : Snapshot} {edits : List DocumentEdit}
    {groups : Keyed (List TextEdit)} {changed : List (Document × Document)} {error : Error}
    (hfiled : Filed snapshot.documents) (hgroups : grouped disk snapshot.root edits = .ok groups)
    (hchanged : edited snapshot groups = .ok changed)
    (h : writeBack snapshot.root [] disk changed = (.error error, after)) :
    ∃ earlier refused, Refusal disk snapshot edits earlier refused error after := by
  have hinPlace := (rewrites_of_edited hfiled (grouped_ascending hgroups) hchanged).inPlace
  obtain ⟨front, pair, rest, rfl, hfront, hrefused, ⟨fault, hfault⟩, rfl⟩ :=
    exists_of_writeBack_refused h
  have hpair := hinPlace pair (by simp)
  refine ⟨front.map Prod.fst, pair.1, ⟨rest.map Prod.fst, ?_⟩, ?_, ?_, ⟨fault, ?_⟩, ?_⟩
  · rw [← map_fst_edited hfiled hgroups hchanged, List.map_append, List.map_cons]
  · rw [List.forall_mem_map]
    intro other hmem
    rw [Disk.fileOf?_congr (hinPlace other (List.mem_append_left _ hmem)).symm]
    exact hfront other hmem
  · rw [Disk.fileOf?_congr hpair.symm]
    exact hrefused
  · rw [← hpair]
    exact hfault
  · rw [List.nil_append]
    exact bareAt_restored disk snapshot.root fun other hmem =>
      hinPlace other (List.mem_append_left _ hmem)

/-- Only a refused write makes edits fail with an internal error. -/
theorem exists_refusal_of_applyEdits {store after : Store} {snapshot : Snapshot} {id version : Nat}
    {edits : List DocumentEdit} {error : Error} (hpublished : store.published = some snapshot)
    (hfiled : Filed snapshot.documents)
    (h : store.applyEdits id version edits = (.error error, after))
    (hinternal : error.code = .internal) :
    ∃ earlier refused, Refusal store.disk snapshot edits earlier refused error after.disk := by
  have hends := store.applyEdits_ends id version edits
  rw [h] at hends
  cases hends with
  | empty => cases hinternal
  | stale _ hstale => exact absurd hinternal (code_of_ensureCurrent hstale)
  | misfit _ _ hmisfit =>
      rcases bind_eq_error.mp hmisfit with hgroups | ⟨_, -, hedited⟩
      · exact absurd hinternal (code_of_grouped hgroups)
      · exact absurd hinternal (code_of_edited hedited)
  | unwritten _ hcurrent hgroups hchanged hwritten =>
      obtain rfl := Option.some.inj (hpublished.symm.trans (ensureCurrent_eq_ok.mp hcurrent).1)
      exact exists_refusal hfiled hgroups hchanged hwritten

/-! ### Calls that fail -/

/-- The calls of a workspace that can fail. -/
inductive Call where
  | load (id : Nat) (descriptor : String)
  | prepareLoad (id : Nat) (descriptor : String)
  | sync (paths : Option (List String))
  | prepareSync (paths : Option (List String))
  | commitSync (pending : PendingSync)
  | applyEdits (id version : Nat) (edits : List DocumentEdit)

/-- The end of a call without the value that it may give. -/
def ending {α : Type} (result : Except Error α × Store) : Except Error Unit × Store :=
  (result.1.map fun _ => (), result.2)

/-- How a call ends, and the store that it leaves. -/
def call (engine : Engine) (store : Store) : Call → Except Error Unit × Store
  | .load id descriptor => ending (store.load engine id descriptor)
  | .prepareLoad id descriptor => ending ((store.prepareLoad engine id descriptor).settled, store)
  | .sync paths => ending (store.sync engine paths)
  | .prepareSync paths => ending ((store.prepareSync engine paths).settled, store)
  | .commitSync pending => ending (store.commitSync pending)
  | .applyEdits id version edits => ending (store.applyEdits id version edits)

theorem ending_eq_error {α : Type} {result : Except Error α × Store} {error : Error} {after : Store} :
    ending result = (.error error, after) ↔ result = (.error error, after) := by
  obtain ⟨_ | _, _⟩ := result <;> simp [ending, Except.map]

theorem eq_of_commitSync_eq_error {store after : Store} {pending : PendingSync} {error : Error}
    (h : store.commitSync pending = (.error error, after)) : after = store := by
  rw [commitSync] at h
  split at h
  · cases h
  · split at h
    · exact (Prod.mk.inj h).2.symm
    · cases h

theorem eq_of_load_eq_error {engine : Engine} {store after : Store} {id : Nat} {descriptor : String}
    {error : Error} (h : store.load engine id descriptor = (.error error, after)) : after = store := by
  rw [load] at h
  split at h
  · exact (Prod.mk.inj h).2.symm
  · cases h

theorem eq_of_sync_eq_error {engine : Engine} {store after : Store} {paths : Option (List String)}
    {error : Error} (h : store.sync engine paths = (.error error, after)) : after = store := by
  rw [sync] at h
  split at h
  · exact (Prod.mk.inj h).2.symm
  · exact eq_of_commitSync_eq_error h

/-- A call that fails leaves the store as it is, unless it made edits and a write was refused. -/
theorem eq_or_refusal_of_call {engine : Engine} {store after : Store} {call : Call} {error : Error}
    (hfiled : ∀ snapshot, store.published = some snapshot → Filed snapshot.documents)
    (h : store.call engine call = (.error error, after)) :
    after = store ∨ ∃ id version edits snapshot earlier refused,
      call = .applyEdits id version edits ∧ store.published = some snapshot ∧
      after = { store with disk := after.disk } ∧
      Refusal store.disk snapshot edits earlier refused error after.disk := by
  cases call with
  | load id descriptor => exact .inl (eq_of_load_eq_error (ending_eq_error.mp h))
  | prepareLoad => exact .inl (Prod.mk.inj (ending_eq_error.mp h)).2.symm
  | sync paths => exact .inl (eq_of_sync_eq_error (ending_eq_error.mp h))
  | prepareSync => exact .inl (Prod.mk.inj (ending_eq_error.mp h)).2.symm
  | commitSync pending => exact .inl (eq_of_commitSync_eq_error (ending_eq_error.mp h))
  | applyEdits id version edits =>
      have hends := store.applyEdits_ends id version edits
      rw [ending_eq_error.mp h] at hends
      cases hends with
      | empty | stale | misfit => exact .inl rfl
      | @unwritten _ snapshot _ _ _ _ hcurrent hgroups hchanged hwritten =>
          have hpublished := (ensureCurrent_eq_ok.mp hcurrent).1
          obtain ⟨earlier, refused, hrefusal⟩ :=
            exists_refusal (hfiled snapshot hpublished) hgroups hchanged hwritten
          exact .inr ⟨id, version, edits, snapshot, earlier, refused, rfl, hpublished, rfl, hrefusal⟩

end Store

/-! ### Two files of which the second becomes a folder -/

/-- A disk with a file and something else beside it. -/
def twinDisk (text : String) (second : Entry) : Disk :=
  { top := .folder [("a", .file text.toUTF8), ("b", second)] }

/-- The solution of two files. -/
def twinSolution : Solution := ⟨"/", [⟨"twin", "text", [], "", ["a", "b"]⟩]⟩

/-- An engine that finds two files in every solution. -/
def twinEngine : Engine := { soloEngine with loadSolution := fun _ _ => .done twinSolution }

/-- Two files with the same text. -/
def twinFiles : Disk := twinDisk "x" (.file "x".toUTF8)

/-- Their workspace. -/
def twinSnapshot : Snapshot :=
  ⟨0, 0, "/", "/", [⟨"twin", "text", [], ".", ["a", "b"]⟩],
    [("a", ⟨"a", "x", 0⟩), ("b", ⟨"b", "x", 0⟩)], ""⟩

/-- An insertion into each of them. -/
def twinEdits : List DocumentEdit :=
  [⟨"a", [.insert ⟨0, 0⟩ "y"]⟩, ⟨"b", [.insert ⟨0, 0⟩ "y"]⟩]

/-- The store after the files were loaded, one got another text and a folder took the place of the
other. -/
def twinStore (text : String) : Store :=
  { disk := twinDisk text (.folder []), published := some twinSnapshot }

theorem normal?_twin (disk : Disk) {name : String} (h : name = "a" ∨ name = "b") :
    disk.normal? "/" name = some name := by
  rcases h with rfl | rfl
  · exact disk.normal?_ofRelative "/" ["a"] (by simp [Path.IsName]) (by decide)
  · exact disk.normal?_ofRelative "/" ["b"] (by simp [Path.IsName]) (by decide)

theorem load_twin :
    ((World.initial twinFiles "").store.load twinEngine 0 "/").2 =
      { disk := twinFiles, published := some twinSnapshot } := by
  have hexists : twinFiles.pathExists "/" = true := by cbv
  have hcanonical : twinFiles.canonical? "/" = some "/" := by cbv
  have hempty : twinFiles.normal? "/" "" = some "" :=
    twinFiles.normal?_ofRelative "/" [] (by simp) (by decide)
  have hnormal : ∀ name : String, name = "a" ∨ name = "b" →
      (Snapshot.normalPath twinFiles "/" name).mapError CoordinateError.toError = .ok name :=
    fun name hname => Snapshot.normalPath_eq_ok.mpr (normal?_twin _ hname)
  have hmembers : twinSolution.memberPaths twinFiles = .ok ["a", "b"] :=
    bind_eq_ok.mpr ⟨["a", "b"], mapM_eq_ok.mpr (.cons (hnormal "a" (.inl rfl))
      (.cons (hnormal "b" (.inr rfl)) .nil)), by decide⟩
  have hdocuments : twinFiles.readDocuments "/" ["a", "b"] = .ok twinSnapshot.documents := by cbv
  have hprojects : twinSolution.describe twinFiles twinSnapshot.documents =
      .ok twinSnapshot.projects := Solution.describe_of_root _ hempty
  have hsolution : twinEngine.loadSolution twinFiles "/" = .done twinSolution := rfl
  rw [World.initial, Store.load, Store.prepareLoad_of_found { disk := twinFiles } 0 hexists hcanonical hsolution
    hmembers hdocuments hprojects]
  rfl

theorem write_twin (text new : String) (second : Entry) :
    (twinDisk text second).write "/a" new.toUTF8 = .ok (twinDisk new second) := by
  have hopens : (twinDisk text second).OpensAt Disk.mostLinks [] "/a" [] "a" Disk.mostLinks :=
    ⟨⟨[""], by decide, by cbv⟩, rfl, by decide, by decide, by decide⟩
  have hplace : (twinDisk text second).writePlace "/a" = .ok ["a"] :=
    Disk.writePlace_eq_ok.mpr ⟨by cbv,
      Disk.writePlaceFrom_eq_ok.mpr ⟨[], "a", _, hopens, .inl ⟨.inr rfl, rfl⟩⟩⟩
  rw [Disk.write, hplace]
  rfl

theorem refuse_twin (text new : String) :
    (twinDisk text (.folder [])).write "/b" new.toUTF8 = .error .isAFolder := by
  have hstep : Path.lastStep? "/b" = some ⟨[""], "b", false⟩ := by decide
  have hwalk : (twinDisk text (.folder [])).follow Disk.mostLinks [] [""] =
      .ok ([], Disk.mostLinks) := by cbv
  have hadmissible : Disk.admissible "/b" = .ok () := by cbv
  have hplace : (twinDisk text (.folder [])).writePlace "/b" = .error .isAFolder := by
    rw [Disk.writePlace, hadmissible]
    exact Disk.writePlaceFrom_of_follow hstep hwalk
  rw [Disk.write, hplace]
  rfl

theorem applyEdits_twin (text : String) :
    (twinStore text).applyEdits 0 0 twinEdits =
      (.error (.internal "Failed to write b: Is a directory (os error 21)"), twinStore "x") := by
  have hnames : ∀ edit ∈ twinEdits, edit.path = "a" ∨ edit.path = "b" := by decide
  have hgroups : Store.grouped (twinStore text).disk "/" twinEdits =
      .ok [("a", [.insert ⟨0, 0⟩ "y"]), ("b", [.insert ⟨0, 0⟩ "y"])] :=
    Store.grouped_of_ascending (by decide) fun edit hmem => normal?_twin _ (hnames edit hmem)
  have hchanged : Store.edited twinSnapshot
      [("a", [.insert ⟨0, 0⟩ "y"]), ("b", [.insert ⟨0, 0⟩ "y"])] =
      .ok [(⟨"a", "x", 0⟩, ⟨"a", "yx", 1⟩), (⟨"b", "x", 0⟩, ⟨"b", "yx", 1⟩)] := by cbv
  have hjoin : Path.join "/" "a" = "/a" ∧ Path.join "/" "b" = "/b" := by decide
  have hwritten : Store.writeBack twinSnapshot.root [] (twinStore text).disk
      [(⟨"a", "x", 0⟩, ⟨"a", "yx", 1⟩), (⟨"b", "x", 0⟩, ⟨"b", "yx", 1⟩)] =
      (.error (.internal "Failed to write b: Is a directory (os error 21)"), (twinStore "x").disk) := by
    simp only [Store.writeBack_cons, twinSnapshot, hjoin, twinStore, write_twin, refuse_twin, Disk.written,
      List.nil_append, List.foldl_cons, List.foldl_nil]
    rfl
  have hcurrent : (twinStore text).ensureCurrent 0 0 = .ok twinSnapshot := rfl
  rw [Store.applyEdits_of_edited (by decide) hcurrent hgroups hchanged, hwritten]
  rfl

theorem reachable_twin (text : String) : Reachable twinEngine { store := twinStore text } :=
  (Reachable.of_load load_twin).move (.step [] [] (.disturb _ (twinDisk text (.folder []))))

theorem bareAt_twin_ne :
    (twinStore "x").disk.bareAt ["a"] ≠ (twinStore "z").disk.bareAt ["a"] := by
  intro hsame
  have hbytes : "x".toUTF8 = "z".toUTF8 := Entry.file.inj (Option.some.inj hsame)
  exact absurd (String.toByteArray_inj.mp hbytes) (by decide)

/-! ### What is left behind -/

/-- A call that fails publishes nothing. It leaves the disk alone as well unless it made edits and one of
the edited documents could not be written. Then each place holds what it held before or the text that the
snapshot holds for the document there, and the disk is as before if the edited documents had the texts
of their files. -/
theorem failed_call_keeps_workspace {engine : Engine} {world : World} {after : Store} {call : Store.Call}
    {error : Error} (hreachable : Reachable engine world)
    (h : world.store.call engine call = (.error error, after)) :
    after.published = world.store.published ∧
    (after.disk = world.store.disk ∨
      ∃ id version edits snapshot, call = .applyEdits id version edits ∧
        world.store.published = some snapshot ∧
        (∃ refused ∈ Store.addressed world.store.disk snapshot edits,
          world.store.disk.fileOf? snapshot.root refused = none ∧
          ∃ fault : DiskFault, error = .internal s!"Failed to write {refused.path}: {fault.message}") ∧
        (∀ place, after.disk.bareAt place = world.store.disk.bareAt place ∨
          ∃ document ∈ snapshot.allDocuments,
            world.store.disk.fileOf? snapshot.root document = some place ∧
            after.disk.bareAt place = some (.file document.text.toUTF8)) ∧
        ((∀ document ∈ Store.addressed world.store.disk snapshot edits,
            world.store.disk.Agrees snapshot.root document) →
          ∀ place, after.disk.bareAt place = world.store.disk.bareAt place)) := by
  rcases Store.eq_or_refusal_of_call
      (fun snapshot hpublished => (hreachable.wellFormed hpublished).filed) h with
    rfl | ⟨id, version, edits, snapshot, earlier, refused, rfl, hpublished, hafter, hrefusal⟩
  · exact ⟨rfl, .inl rfl⟩
  obtain ⟨later, hsplit⟩ := hrefusal.split
  have hearlier : earlier ⊆ Store.addressed world.store.disk snapshot edits := by
    rw [hsplit]
    exact List.subset_append_left _ _
  refine ⟨by rw [hafter], .inr ⟨id, version, edits, snapshot, rfl, hpublished,
    ⟨refused, by simp [hsplit], hrefusal.unwritten, hrefusal.message⟩, fun place => ?_,
    fun hagrees place => ?_⟩⟩
  · rw [hrefusal.restored place, Disk.overlaid]
    cases hlast : world.store.disk.lastTo? snapshot.root earlier place with
    | none => exact .inl rfl
    | some document =>
        obtain ⟨hmem, hplace⟩ := Disk.mem_of_lastTo? hlast
        exact .inr ⟨document, (List.mem_filter.mp (hearlier hmem)).1, hplace, rfl⟩
  · rw [hrefusal.restored place]
    exact Disk.overlaid_of_agrees (fun document hmem => hagrees document (hearlier hmem)) place

/-- The file that had got another text has the text of the snapshot after the edits failed. -/
theorem twin_edits_fail :
    (twinStore "z").call twinEngine (.applyEdits 0 0 twinEdits) =
      (.error (.internal "Failed to write b: Is a directory (os error 21)"), twinStore "x") ∧
    ∀ place, (twinStore "x").disk.bareAt place = (twinStore "z").disk.bareAt place ∨
      ∃ document ∈ twinSnapshot.allDocuments,
        (twinStore "z").disk.fileOf? "/" document = some place ∧
        (twinStore "x").disk.bareAt place = some (.file document.text.toUTF8) := by
  have hcall : (twinStore "z").call twinEngine (.applyEdits 0 0 twinEdits) = _ :=
    Store.ending_eq_error.mpr (applyEdits_twin "z")
  refine ⟨hcall, ?_⟩
  obtain ⟨-, hdisk | ⟨id, version, edits, snapshot, -, hpublished, -, hplaces, -⟩⟩ :=
    failed_call_keeps_workspace (reachable_twin "z") hcall
  · exact absurd (congrArg (·.bareAt ["a"]) hdisk) bareAt_twin_ne
  · obtain rfl := Option.some.inj hpublished
    exact hplaces

/-- Where edits fail because a document cannot be written, the documents before it get the texts of the
snapshot. The disk is as it was exactly if these are the texts that it had. -/
theorem refused_write_restores_snapshot {engine : Engine} {world : World} {snapshot : Snapshot}
    {after : Store} {id version : Nat} {edits : List DocumentEdit} {error : Error}
    (hreachable : Reachable engine world) (hpublished : world.store.published = some snapshot)
    (h : world.store.applyEdits id version edits = (.error error, after))
    (hinternal : error.code = .internal) :
    ∃ earlier refused,
      Store.Refusal world.store.disk snapshot edits earlier refused error after.disk ∧
      ((∀ place, after.disk.bareAt place = world.store.disk.bareAt place) ↔
        ∀ place document, world.store.disk.lastTo? snapshot.root earlier place = some document →
          world.store.disk.bareAt place = some (.file document.text.toUTF8)) := by
  obtain ⟨earlier, refused, hrefusal⟩ := Store.exists_refusal_of_applyEdits hpublished
    (hreachable.wellFormed hpublished).filed h hinternal
  refine ⟨earlier, refused, hrefusal, forall_congr' fun place => ?_⟩
  rw [hrefusal.restored place, Disk.overlaid]
  cases hlast : world.store.disk.lastTo? snapshot.root earlier place with
  | none => simp
  | some document => simp [eq_comm]

/-- The second file cannot be written, and the first one gets the text of the snapshot. -/
theorem twin_edits_refused :
    ∃ earlier refused, Store.Refusal (twinStore "z").disk twinSnapshot twinEdits earlier refused
      (.internal "Failed to write b: Is a directory (os error 21)") (twinStore "x").disk := by
  obtain ⟨earlier, refused, hrefusal, -⟩ :=
    refused_write_restores_snapshot (reachable_twin "z") rfl (applyEdits_twin "z") rfl
  exact ⟨earlier, refused, hrefusal⟩

/-- Files are not rolled back to what they held before the call. -/
theorem rollback_not_to_previous_content :
    ¬ ∀ world snapshot after id version edits error, Reachable twinEngine world →
      world.store.published = some snapshot →
      world.store.applyEdits id version edits = (.error error, after) → error.code = .internal →
      ∀ place, after.disk.bareAt place = world.store.disk.bareAt place := by
  intro hall
  exact bareAt_twin_ne (hall _ twinSnapshot _ 0 0 twinEdits _ (reachable_twin "z") rfl
    (applyEdits_twin "z") rfl ["a"])

end CodeIntel
