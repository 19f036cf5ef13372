import CodeIntel.Proofs.Source.Splicing
import CodeIntel.Proofs.Workspace.Representation
import CodeIntel.Proofs.Workspace.WriteBack

/-! What edits do to the files. A document is written as a whole, with the text of the snapshot and the
edited ranges exchanged. So a file that no edited document is written to stays as it is, and a file that
had the text of the snapshot keeps every byte outside the edited ranges. What has changed in an edited
file since it was last read is lost. -/

namespace CodeIntel

open World

/-- After edits were made, each place holds the edited text of the last document written there, or what
it held before. -/
theorem Store.bareAt_of_applyEdits {store after : Store} {snapshot : Snapshot} {id version number : Nat}
    {edits : List DocumentEdit} (hpublished : store.published = some snapshot)
    (hfiled : Filed snapshot.documents)
    (h : store.applyEdits id version edits = (.ok number, after)) :
    (∀ document ∈ addressed store.disk snapshot edits,
      ∃ place, store.disk.fileOf? snapshot.root document = some place) ∧
    ∀ place,
      (store.disk.lastTo? snapshot.root (addressed store.disk snapshot edits) place = none →
        after.disk.bareAt place = store.disk.bareAt place) ∧
      ∀ document,
        store.disk.lastTo? snapshot.root (addressed store.disk snapshot edits) place = some document →
        ∃ next, document.applyEdits (editsAt store.disk snapshot.root edits document.path)
            (snapshot.version + 1) = .ok next ∧
          after.disk.bareAt place = some (.file next.text.toUTF8) := by
  obtain ⟨groups, changed, disk, -, -, hgroups, hchanged, hwritten, -, rfl⟩ :=
    exists_of_applyEdits_eq_ok hpublished h
  obtain ⟨rfl, hplaces⟩ := withAll_of_writeBack hwritten
  have hinPlace := (rewrites_of_edited hfiled (grouped_ascending hgroups) hchanged).inPlace
  rw [← map_fst_edited hfiled hgroups hchanged]
  constructor
  · rw [List.forall_mem_map]
    intro pair hmem
    rw [← Disk.fileOf?_congr (hinPlace pair hmem)]
    exact hplaces pair hmem
  · intro place
    obtain ⟨found, hfound, hfst, hsnd⟩ :=
      Disk.exists_lastTo?_map hinPlace store.disk snapshot.root place
    rw [Disk.bareAt_withAll, Disk.overlaid, hfst, hsnd]
    cases found with
    | none => simp
    | some pair =>
        have happly := applyEdits_of_mem_edited hfiled hgroups hchanged (hfound pair rfl)
        refine ⟨fun hnone => absurd hnone (by simp), fun document hlast => ?_⟩
        obtain rfl : pair.1 = document := Option.some.inj hlast
        exact ⟨pair.2, happly, rfl⟩

/-! ### One file that may have changed -/

theorem reachable_solo (onDisk : String) :
    Reachable soloEngine (soloWorld onDisk (some (soloSnapshot 0 0 "x")) [] [0]) := by
  have hprepared := Runs.nil.snoc (step_solo_load "x" none [] [] 0 List.not_mem_nil)
  have hloaded := hprepared.snoc (.commitLoad List.mem_cons_self)
  exact Reachable.of_runs (hloaded.snoc (.disturb _ (soloDisk onDisk)))

theorem normal?_solo (onDisk : String) : (soloDisk onDisk).normal? "/" "a" = some "a" :=
  (soloDisk onDisk).normal?_ofRelative "/" ["a"] (by simp [Path.IsName]) (by decide)

theorem addressed_solo (onDisk : String) :
    Store.addressed (soloDisk onDisk) (soloSnapshot 0 0 "x") (soloEdits 0) = [⟨"a", "x", 0⟩] := by
  simp [Store.addressed, Store.addresses, Snapshot.allDocuments, Keyed.values, soloSnapshot, soloEdits,
    normal?_solo]

theorem editsAt_solo (onDisk : String) :
    Store.editsAt (soloDisk onDisk) "/" (soloEdits 0) "a" = [.insert ⟨0, 0⟩ "y"] := by
  simp [Store.editsAt, soloEdits, normal?_solo]

theorem lastTo?_solo (onDisk : String) :
    (soloDisk onDisk).lastTo? "/"
      (Store.addressed (soloDisk onDisk) (soloSnapshot 0 0 "x") (soloEdits 0)) ["a"] =
      some ⟨"a", "x", 0⟩ := by
  have hfile : (soloDisk onDisk).fileOf? "/" ⟨"a", "x", 0⟩ = some ["a"] :=
    Disk.fileOf?_eq_some.mpr (join_solo ▸ writePlace_soloDisk onDisk)
  rw [addressed_solo, Disk.lastTo?, List.reverse_singleton, List.find?_singleton, hfile]
  rfl

theorem applyEdits_solo_insert (onDisk : String) :
    (soloWorld onDisk (some (soloSnapshot 0 0 "x")) [] [0]).store.applyEdits 0 0 (soloEdits 0) =
      (.ok 1, (soloWorld "yx" (some (soloSnapshot 0 1 "yx")) [] [0]).store) :=
  applyEdits_solo_over "x" [] [0] onDisk rfl
    (show Document.applyEdits ⟨"a", "x", 0⟩ [.insert ⟨0, 0⟩ "y"] 1 = .ok ⟨"a", "yx", 1⟩ by cbv)

/-! ### The bytes outside the edited ranges -/

/-- Edits that are made leave every file alone that none of the edited documents is written to. An edited
file gets the text that the snapshot holds, with the bytes in the edited ranges exchanged; so where the
file had that text, all its bytes outside these ranges stay. -/
theorem edits_keep_bytes_of_agreeing_files {engine : Engine} {world : World} {snapshot : Snapshot}
    {after : Store} {id version number : Nat} {edits : List DocumentEdit}
    (hreachable : Reachable engine world) (hpublished : world.store.published = some snapshot)
    (h : world.store.applyEdits id version edits = (.ok number, after)) :
    (∀ place, (∀ document ∈ Store.addressed world.store.disk snapshot edits,
        world.store.disk.fileOf? snapshot.root document ≠ some place) →
      after.disk.bareAt place = world.store.disk.bareAt place) ∧
    (∀ document ∈ Store.addressed world.store.disk snapshot edits,
      ∃ place, world.store.disk.fileOf? snapshot.root document = some place) ∧
    ∀ place document,
      world.store.disk.lastTo? snapshot.root (Store.addressed world.store.disk snapshot edits) place =
        some document →
      ∃ new, after.disk.bareAt place = some (.file new) ∧
        document.Splices (Store.editsAt world.store.disk snapshot.root edits document.path)
          document.text.toUTF8 new ∧
        (world.store.disk.read (Path.join snapshot.root document.path) = .ok document.text.toUTF8 →
          ∃ old, world.store.disk.bareAt place = some (.file old) ∧
            document.Splices (Store.editsAt world.store.disk snapshot.root edits document.path)
              old new) := by
  obtain ⟨hplaces, hafter⟩ :=
    Store.bareAt_of_applyEdits hpublished (hreachable.wellFormed hpublished).filed h
  refine ⟨fun place hfree => (hafter place).1 (Disk.lastTo?_eq_none.mpr hfree), hplaces, ?_⟩
  intro place document hlast
  obtain ⟨next, happly, hnew⟩ := (hafter place).2 document hlast
  have hsplices := Document.splices_of_applyEdits happly
  refine ⟨_, hnew, hsplices, fun hread => ⟨_, ?_, hsplices⟩⟩
  exact Disk.agrees_of_read hread place (Disk.mem_of_lastTo? hlast).2

/-- The file that had the text of the snapshot keeps its byte. -/
theorem solo_insert_keeps_bytes :
    ∃ old new, (soloDisk "x").bareAt ["a"] = some (.file old) ∧
      (soloDisk "yx").bareAt ["a"] = some (.file new) ∧
      Document.Splices ⟨"a", "x", 0⟩ [.insert ⟨0, 0⟩ "y"] old new := by
  obtain ⟨-, -, hfiles⟩ := edits_keep_bytes_of_agreeing_files (reachable_solo "x") rfl
    (applyEdits_solo_insert "x")
  obtain ⟨new, hnew, -, hkept⟩ := hfiles ["a"] ⟨"a", "x", 0⟩ (lastTo?_solo "x")
  obtain ⟨old, hold, hsplices⟩ := hkept (join_solo ▸ read_soloDisk "x")
  exact ⟨old, new, hold, hnew, editsAt_solo "x" ▸ hsplices⟩

/-- A byte that was put into the file since it was read is lost, though no edit touches it. -/
theorem edits_lose_bytes_of_changed_file :
    ¬ ∀ world snapshot after id version edits number, Reachable soloEngine world →
      world.store.published = some snapshot →
      world.store.applyEdits id version edits = (.ok number, after) →
      ∀ place document,
        world.store.disk.lastTo? snapshot.root
          (Store.addressed world.store.disk snapshot edits) place = some document →
        ∀ old new, world.store.disk.bareAt place = some (.file old) →
          after.disk.bareAt place = some (.file new) →
          document.Splices (Store.editsAt world.store.disk snapshot.root edits document.path)
            old new := by
  intro hall
  have hsplices := hall _ (soloSnapshot 0 0 "x") _ 0 0 (soloEdits 0) 1 (reachable_solo "zx") rfl
    (applyEdits_solo_insert "zx") ["a"] ⟨"a", "x", 0⟩ (lastTo?_solo "zx") "zx".toUTF8 "yx".toUTF8 rfl rfl
  obtain ⟨splices, ordered, hmade, hperm, -, hnew⟩ := hsplices
  have hsplice : (Store.editsAt (soloDisk "zx") "/" (soloEdits 0) "a").mapM
      (Document.splice ⟨"a", "x", 0⟩) = .ok [⟨⟨0, 0⟩, "y"⟩] := by
    rw [editsAt_solo]
    cbv
  obtain rfl := Except.ok.inj (hsplice.symm.trans hmade)
  obtain rfl := List.perm_singleton.mp hperm
  have hkept : Splice.putInto "zx".toUTF8 0 [⟨⟨0, 0⟩, "y"⟩] = "yzx".toUTF8 := by cbv
  rw [hkept] at hnew
  exact absurd (String.toByteArray_inj.mp hnew) (by decide)

end CodeIntel
