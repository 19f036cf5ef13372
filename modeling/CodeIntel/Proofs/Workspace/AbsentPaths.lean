import CodeIntel.Proofs.Disk.Destinations
import CodeIntel.Proofs.Workspace.Operations

/-! Absolute paths that lead to nothing. There is no place to settle such a path by, so that it is compared
with the root of the workspace as it is written, before any `..` in it is collapsed. A path that goes
straight to the root and stays there has the names from the root to its destination for its normal form; one
that leaves the root on its way, or gets to it by a detour, is refused although its destination lies
inside. -/

namespace CodeIntel

open CodeIntel.Path CodeIntel.Disk

namespace Path

/-- A way that goes up no more often than it has gone down before. -/
def StaysBelow (way : List Part) : Prop :=
  ∀ front, front <+: way → front.count .up ≤ front.countP (· ≠ .up)

/-- A path that gets to its destination without leaving a root: it has the parts of the root in front and
stays below them, or it says no name before its last part. -/
def HoldsTo (root path : String) : Prop :=
  (∃ way, parts path = parts root ++ way ∧ StaysBelow way) ∨
    ∀ name, .name name ∉ (parts path).dropLast

theorem eq_up_or_name {segment : String} {part : Part} (h : part? segment = some part) :
    part = .up ∨ part = .name segment := by
  rw [part?] at h
  split at h
  · cases h
  · split at h
    · exact .inl (Option.some.inj h).symm
    · exact .inr (Option.some.inj h).symm

/-- Collapsing succeeds on a way that never goes up above the names that it starts with. -/
theorem exists_collapse?_iff {names : List String} {way : List Part}
    (hway : ∀ part ∈ way, part = .up ∨ ∃ name, part = .name name) :
    (∃ all, collapse? names way = some all) ↔
      ∀ front, front <+: way → front.count .up ≤ names.length + front.countP (· ≠ .up) := by
  induction way generalizing names with
  | nil => simp [collapse?]
  | cons part rest ih =>
      obtain ⟨hpart, hrest⟩ := List.forall_mem_cons.mp hway
      have hfronts : (∀ front, front <+: part :: rest →
          front.count .up ≤ names.length + front.countP (· ≠ .up)) ↔
          ∀ front, front <+: rest →
            (part :: front).count .up ≤ names.length + (part :: front).countP (· ≠ .up) := by
        simp only [List.prefix_cons_iff]
        constructor
        · exact fun h front hfront => h _ (.inr ⟨front, rfl, hfront⟩)
        · rintro h front (rfl | ⟨others, rfl, hothers⟩)
          · simp
          · exact h others hothers
      rw [hfronts]
      rcases hpart with rfl | ⟨name, rfl⟩
      · rw [collapse?]
        by_cases hnames : names = []
        · rw [if_pos hnames]
          refine iff_of_false (by simp) fun h => ?_
          have hfirst := h [] (List.nil_prefix)
          simp [hnames] at hfirst
        · have hlength := List.length_pos_of_ne_nil hnames
          rw [if_neg hnames, ih hrest]
          refine forall_congr' fun front => imp_congr_right fun _ => ?_
          simp only [List.length_dropLast, List.count_cons_self, ne_eq, not_true_eq_false, decide_false,
            Bool.false_eq_true, not_false_eq_true, List.countP_cons_of_neg]
          omega
      · rw [collapse?, ih hrest]
        refine forall_congr' fun front => imp_congr_right fun _ => ?_
        simp only [List.length_append, List.length_singleton, ne_eq, reduceCtorEq, not_false_eq_true,
          List.count_cons_of_ne, decide_true, List.countP_cons_of_pos]
        omega

/-- The way from the root of the disk goes up and down only. -/
theorem exists_way {path : String} (habsolute : isAbsolute path = true) :
    ∃ way, parts path = .root :: way ∧ ∀ part ∈ way, part = .up ∨ ∃ name, part = .name name := by
  refine ⟨_, parts_of_isAbsolute habsolute, fun part hmem => ?_⟩
  obtain ⟨segment, -, hpart⟩ := List.mem_filterMap.mp hmem
  exact (eq_up_or_name hpart).imp_right fun hname => ⟨segment, hname⟩

/-- The segments of an absolute path spell it. -/
theorem ofSegments_segments {path : String} (habsolute : isAbsolute path = true) :
    ofSegments (segments path) = path := by
  have hwhole : String.intercalate "/" (segments path) = path := by
    have hjoined := Text.intercalate_ofList ['/'] (Text.pieces '/' path.toList)
    rw [Text.joined_pieces, String.ofList_toList] at hjoined
    exact hjoined
  rw [ofSegments, if_neg, hwhole]
  intro hempty
  rw [hempty, String.intercalate_singleton] at hwhole
  exact ne_empty_of_isAbsolute habsolute hwhole.symm

theorem withoutIdleEnd_isPrefix (path : List String) : withoutIdleEnd path <+: path := by
  cases path with
  | nil => exact List.prefix_rfl
  | cons first rest => exact List.cons_prefix_cons.mpr ⟨rfl, List.rdropWhile_prefix isIdle rest⟩

/-- A parent is spelled by the first segments of a path. -/
theorem exists_front_of_parent? {path parent : String} (h : parent? path = some parent) :
    ∃ front, front <+: segments path ∧ parent = ofSegments front := by
  rw [parent?] at h
  split at h
  · cases h
  · cases h
  · exact ⟨_, ((withoutIdleEnd_isPrefix _).trans (List.dropLast_prefix _)).trans
      (withoutIdleEnd_isPrefix _), (Option.some.inj h).symm⟩

/-- A path that says more than the root of the disk has a parent. -/
theorem exists_parent? {path : String} {way : List Part} (h : parts path = .root :: way) (hne : way ≠ []) :
    ∃ parent, parent? path = some parent := by
  rw [parent?, h]
  split
  · cases ‹Part.root :: way = []›
  · exact absurd (List.cons.inj ‹Part.root :: way = [Part.root]›).2 hne
  · exact ⟨_, rfl⟩

end Path

namespace Disk

variable {disk : Disk} {root path : String}

/-- No front of a path that says a name leads to anything. -/
def NothingOn (disk : Disk) (path : String) : Prop :=
  ∀ front, front <+: segments path → (∃ segment ∈ front, IsName segment) →
    ∀ place, disk.locate (ofSegments front) ≠ .ok place

/-- Where no name is said there is nowhere to go but the root of the disk. -/
theorem follow_of_unnamed (htop : disk.kindAt [] = some .folder) (links : Nat) {path : List String}
    (hpath : ∀ segment ∈ path, segment = "" ∨ segment = "." ∨ segment = "..") :
    disk.follow links [] path = .ok ([], links) := by
  induction path with
  | nil => exact follow_nil disk links []
  | cons segment rest ih =>
      obtain ⟨hsegment, hrest⟩ := List.forall_mem_cons.mp hpath
      rw [follow_cons, htop]
      dsimp only
      rcases hsegment with rfl | rfl | rfl
      · rw [if_pos (.inl rfl), ih hrest]
      · rw [if_pos (.inr rfl), ih hrest]
      · rw [if_neg (by decide), if_pos rfl]
        exact ih hrest

theorem locate_of_unnamed (htop : disk.kindAt [] = some .folder) (habsolute : isAbsolute path = true)
    (hunnamed : ∀ name, .name name ∉ parts path) : disk.locate path = .ok [] := by
  have hsegments : ∀ segment ∈ segments path, segment = "" ∨ segment = "." ∨ segment = ".." := by
    intro segment hmem
    by_contra hname
    simp only [not_or] at hname
    refine hunnamed segment ?_
    rw [parts_of_isAbsolute habsolute]
    exact List.mem_cons_of_mem _ (List.mem_filterMap.mpr
      ⟨segment, hmem, part?_of_isName ⟨hname.1, hname.2.1, hname.2.2, notMem_of_mem_segments hmem⟩⟩)
  have hnull : '\x00' ∉ path.toList := by
    intro hmem
    obtain ⟨piece, hpiece, hin⟩ := Text.exists_piece_of_mem hmem (show '\x00' ≠ '/' by decide)
    have hsegment := hsegments _ (List.mem_map_of_mem hpiece)
    rw [← String.toList_ofList (l := piece)] at hin
    rcases hsegment with hsegment | hsegment | hsegment
    all_goals
      rw [hsegment] at hin
      revert hin
      decide
  refine locate_eq_ok.mpr ⟨hnull, ne_empty_of_isAbsolute habsolute, mostLinks, ?_⟩
  rw [startOf, if_pos habsolute]
  exact follow_of_unnamed htop mostLinks hsegments

theorem foldl_stepped_of_unnamed {way : List Part} (h : ∀ name, .name name ∉ way) :
    way.foldl stepped [] = [] := by
  refine List.eq_nil_iff_forall_not_mem.mpr fun name hmem => ?_
  exact (mem_of_mem_foldl_stepped hmem).elim List.not_mem_nil (h name)

/-- A front that says a name among its parts is one that leads to nothing. -/
theorem NothingOn.locate_ne (h : disk.NothingOn path) (habsolute : isAbsolute path = true)
    {front : List String} (hfront : front <+: segments path)
    (hfolder : isAbsolute (ofSegments front) = true) {name : String}
    (hname : .name name ∈ parts (ofSegments front)) (place : Place) :
    disk.locate (ofSegments front) ≠ .ok place := by
  obtain ⟨all, hall⟩ := segments_of_isAbsolute habsolute
  rw [hall, List.prefix_cons_iff] at hfront
  rcases hfront with rfl | ⟨rest, rfl, hrest⟩
  · exact absurd hfolder (by decide)
  · have hslash : ∀ segment ∈ rest, '/' ∉ segment.toList := fun segment hmem =>
      notMem_of_mem_segments (hall ▸ List.mem_cons_of_mem _ (hrest.subset hmem))
    refine h _ (hall ▸ List.cons_prefix_cons.mpr ⟨rfl, hrest⟩) ⟨name, ?_, ?_⟩ place
    · rw [(parts_ofSegments hslash).2] at hname
      obtain ⟨segment, hmem, hpart⟩ :=
        List.mem_filterMap.mp ((List.mem_cons.mp hname).resolve_left (by simp))
      rcases eq_up_or_name hpart with hup | hsegment
      · cases hup
      · rw [Part.name.inj hsegment]
        exact List.mem_cons_of_mem _ hmem
    · exact (isName_of_mem_parts hname).1

theorem NothingOn.canonical?_eq_none (h : disk.NothingOn path) (habsolute : isAbsolute path = true)
    {front : List String} (hfront : front <+: segments path)
    (hfolder : isAbsolute (ofSegments front) = true) {name : String}
    (hname : .name name ∈ parts (ofSegments front)) : disk.canonical? (ofSegments front) = none := by
  rw [canonical?]
  split
  · exact absurd ‹_› (h.locate_ne habsolute hfront hfolder hname _)
  · rfl

theorem NothingOn.canonical?_self (h : disk.NothingOn path) (habsolute : isAbsolute path = true)
    {name : String} (hname : .name name ∈ parts path) : disk.canonical? path = none := by
  have hwhole := ofSegments_segments habsolute
  have hnone := h.canonical?_eq_none habsolute (List.prefix_refl _) (hwhole.symm ▸ habsolute)
    (hwhole.symm ▸ hname)
  rwa [hwhole] at hnone

theorem canonical?_of_unnamed (htop : disk.kindAt [] = some .folder) (habsolute : isAbsolute path = true)
    (hunnamed : ∀ name, .name name ∉ parts path) : disk.canonical? path = some (ofNames []) := by
  rw [canonical?, locate_of_unnamed htop habsolute hunnamed]

/-- A path that says a name before its last part is not settled. -/
theorem NothingOn.settled_of_named (h : disk.NothingOn path) (habsolute : isAbsolute path = true)
    {name : String} (hname : .name name ∈ (parts path).dropLast) : disk.settled path = path := by
  rw [settled, h.canonical?_self habsolute (List.dropLast_subset _ hname)]
  dsimp only
  split
  · rename_i parent last hparent _
    obtain ⟨front, hfront, rfl⟩ := exists_front_of_parent? hparent
    obtain ⟨hfolder, hparts⟩ := parts_of_parent? habsolute hparent
    rw [h.canonical?_eq_none habsolute hfront hfolder (hparts ▸ hname)]
  · rfl

/-- A path that says no name before its last part is settled to the path of its destination. -/
theorem NothingOn.settled_of_unnamed (h : disk.NothingOn path) (htop : disk.kindAt [] = some .folder)
    (habsolute : isAbsolute path = true) (hunnamed : ∀ name, .name name ∉ (parts path).dropLast) :
    disk.settled path = ofNames (destination [] path) := by
  by_cases hlast : ∃ name, (parts path).getLast? = some (.name name)
  · obtain ⟨name, hlast⟩ := hlast
    have hname : fileName? path = some name := by rw [fileName?, hlast]
    obtain ⟨way, hway, -⟩ := exists_way habsolute
    obtain ⟨parent, hparent⟩ := exists_parent? hway fun hnil => by
      rw [hway, hnil] at hlast
      cases hlast
    obtain ⟨hfolder, hparts⟩ := parts_of_parent? habsolute hparent
    obtain ⟨-, hisName, hdestination⟩ := destination_of_parent? habsolute hparent hname
    have hroot : disk.canonical? parent = some (ofNames []) :=
      canonical?_of_unnamed htop hfolder (hparts ▸ hunnamed)
    have hself := h.canonical?_self habsolute (List.mem_of_getLast? hlast)
    rw [settled, hself, hparent, hname, hdestination, destination, hparts,
      foldl_stepped_of_unnamed hunnamed]
    dsimp only
    rw [hroot]
    exact join_ofNames_name (by simp) hisName
  · have hnowhere : ∀ name, .name name ∉ parts path := by
      intro name hmem
      have hne : parts path ≠ [] := List.ne_nil_of_mem hmem
      rw [← List.dropLast_append_getLast hne] at hmem
      rcases List.mem_append.mp hmem with hmem | hmem
      · exact hunnamed name hmem
      · exact hlast ⟨name, by rw [List.getLast?_eq_some_getLast hne, ← List.mem_singleton.mp hmem]⟩
    rw [settled, canonical?_of_unnamed htop habsolute hnowhere, destination,
      foldl_stepped_of_unnamed hnowhere]

/-- Where nothing stands at the root of the disk, the ways that lead to something say no name. -/
theorem not_isName_of_follow (hfree : disk.LinkFree []) (hbare : ∀ name, disk.kindAt [name] = none)
    {links : Nat} {path : List String} {stop : Place × Nat} (h : disk.follow links [] path = .ok stop) :
    ∀ segment ∈ path, ¬ IsName segment := by
  induction path with
  | nil => exact fun _ hmem => absurd hmem List.not_mem_nil
  | cons segment rest ih =>
      obtain ⟨-, ⟨hpart, h⟩ | ⟨hpart, h⟩ | ⟨-, -, hthere, -⟩⟩ := hfree.follow_cons_eq_ok.mp h
      · refine List.forall_mem_cons.mpr ⟨fun hname => ?_, ih h⟩
        rw [part?_of_isName hname] at hpart
        cases hpart
      · refine List.forall_mem_cons.mpr ⟨fun hname => ?_, ih h⟩
        rw [part?_of_isName hname] at hpart
        cases hpart
      · exact absurd (hbare segment) hthere

/-- Below a root without a `..` a path is collapsed exactly if it has the parts of the root in front and
its other parts can be collapsed. -/
theorem exists_relativeTo?_iff (hroot : isAbsolute root = true) (hup : ".." ∉ segments root)
    {names : List String} :
    (∃ relative, relativeTo? root path = some relative ∧ collapse? [] relative = some names) ↔
      ∃ way, parts path = parts root ++ way ∧ collapse? [] way = some names := by
  rw [relativeTo?, if_pos hroot]
  constructor
  · rintro ⟨way, hbetween, hnames⟩
    exact ⟨way, parts_of_between? hbetween hnames (up_notMem_parts hroot hup), hnames⟩
  · rintro ⟨way, hway, hnames⟩
    exact ⟨way, hway ▸ between?_append _ _, hnames⟩

theorem staysBelow_iff {way : List Part} (habsolute : isAbsolute path = true)
    (hway : parts path = parts root ++ way) (hroot : isAbsolute root = true) :
    StaysBelow way ↔ ∃ names, collapse? [] way = some names := by
  obtain ⟨all, hall, hparts⟩ := exists_way habsolute
  obtain ⟨front, hfront, -⟩ := exists_way hroot
  rw [hall, hfront, List.cons_append] at hway
  rw [StaysBelow, exists_collapse?_iff fun part hmem =>
    hparts part ((List.cons.inj hway).2 ▸ List.mem_append_right _ hmem)]
  simp

/-- Below a root, what an absolute path says can be collapsed exactly if the path stays below the root, and
what is left then leads to its destination. -/
theorem exists_collapsed_iff (hroot : isAbsolute root = true) (habsolute : isAbsolute path = true)
    {names : List String} :
    (∃ way, parts path = parts root ++ way ∧ collapse? [] way = some names) ↔
      destination [] path = destination [] root ++ names ∧
        ∃ way, parts path = parts root ++ way ∧ StaysBelow way := by
  constructor
  · rintro ⟨way, hway, hnames⟩
    exact ⟨destination_of_parts_eq hway hnames, way, hway,
      (staysBelow_iff habsolute hway hroot).mpr ⟨names, hnames⟩⟩
  · rintro ⟨hdestination, way, hway, hstays⟩
    obtain ⟨others, hothers⟩ := (staysBelow_iff habsolute hway hroot).mp hstays
    have hsame := (destination_of_parts_eq hway hothers).symm.trans hdestination
    exact ⟨way, hway, List.append_cancel_left hsame ▸ hothers⟩

/-- In the path of a place there is nothing left to be collapsed. -/
theorem exists_collapsed_ofNames_iff (hroot : isAbsolute root = true) (hup : ".." ∉ segments root)
    {place : Place} (hplace : ∀ name ∈ place, IsName name) {names : List String} :
    (∃ way, parts (ofNames place) = parts root ++ way ∧ collapse? [] way = some names) ↔
      place = destination [] root ++ names := by
  constructor
  · rintro ⟨way, hway, hnames⟩
    calc place = destination [] (ofNames place) := (destination_ofNames hplace).symm
      _ = destination [] root ++ names := destination_of_parts_eq hway hnames
  · intro hnames
    refine ⟨names.map .name, ?_, collapse?_names [] names⟩
    rw [parts_ofNames hplace, parts_of_notMem hroot hup, hnames, List.map_append, List.cons_append]

/-- Of the paths on which there is nothing, those have a normal form that have their destination inside the
root and hold to it. -/
theorem NothingOn.normal?_eq_some (h : disk.NothingOn (slashed path))
    (htop : disk.kindAt [] = some .folder) (hroot : isAbsolute root = true)
    (hup : ".." ∉ segments root) (habsolute : isAbsolute (slashed path) = true) {key : String} :
    disk.normal? root path = some key ↔
      ∃ names, destination [] (slashed path) = destination [] root ++ names ∧
        HoldsTo root (slashed path) ∧ ofRelative names = key := by
  have hnormal : disk.normal? root path = some key ↔ ∃ names,
      (∃ way, parts (disk.settled (slashed path)) = parts root ++ way ∧ collapse? [] way = some names) ∧
        ofRelative names = key := by
    rw [normal?_of_isAbsolute habsolute]
    constructor
    · rintro ⟨relative, names, hrelative, hnames, hkey⟩
      exact ⟨names, (exists_relativeTo?_iff hroot hup).mp ⟨relative, hrelative, hnames⟩, hkey⟩
    · rintro ⟨names, hway, hkey⟩
      obtain ⟨relative, hrelative, hnames⟩ := (exists_relativeTo?_iff hroot hup).mpr hway
      exact ⟨relative, names, hrelative, hnames, hkey⟩
  rw [hnormal]
  refine exists_congr fun names => ?_
  rw [← and_assoc]
  refine and_congr_left fun _ => ?_
  by_cases hunnamed : ∀ name, .name name ∉ (parts (slashed path)).dropLast
  · have hgoal : ∀ name ∈ destination [] (slashed path), IsName name :=
      fun _ hmem => (isName_of_mem_destination hmem).1
    rw [h.settled_of_unnamed htop habsolute hunnamed, exists_collapsed_ofNames_iff hroot hup hgoal]
    exact (and_iff_left (.inr hunnamed)).symm
  · obtain ⟨name, hname⟩ := not_forall_not.mp hunnamed
    rw [h.settled_of_named habsolute hname, exists_collapsed_iff hroot habsolute, HoldsTo,
      or_iff_left hunnamed]

end Disk

namespace Snapshot

variable {disk : Disk} {root path : String}

/-- An absolute path on which there is nothing has a normal form exactly if its destination is the root of
the workspace or lies below it and the path holds to the root: the names from the root to the destination.
Every other path is refused as outside the root. A path without a `..` holds to every root that it leads
into. -/
theorem normalPath_of_absent (htop : disk.kindAt [] = some .folder) (hroot : isAbsolute root = true)
    (hup : ".." ∉ segments root) (habsolute : isAbsolute (slashed path) = true)
    (hnothing : disk.NothingOn (slashed path)) :
    let top := destination [] root
    let goal := destination [] (slashed path)
    (∀ names, goal = top ++ names → HoldsTo root (slashed path) →
      normalPath disk root path = .ok (ofRelative names)) ∧
    (¬ top <+: goal ∨ ¬ HoldsTo root (slashed path) →
      normalPath disk root path = .error (.outsideRoot path)) ∧
    (".." ∉ segments (slashed path) → top <+: goal → HoldsTo root (slashed path)) := by
  intro top goal
  have hnormal : ∀ {key}, disk.normal? root path = some key ↔ _ :=
    hnothing.normal?_eq_some htop hroot hup habsolute
  refine ⟨fun names hnames hholds => ?_, fun houtside => ?_, fun hplain hinside => ?_⟩
  · exact normalPath_of_some (hnormal.mpr ⟨names, hnames, hholds, rfl⟩)
  · refine normalPath_of_none (Option.eq_none_iff_forall_ne_some.mpr fun key hkey => ?_)
    obtain ⟨names, hnames, hholds, -⟩ := hnormal.mp hkey
    rcases houtside with houtside | hastray
    · exact houtside ⟨names, hnames.symm⟩
    · exact hastray hholds
  · obtain ⟨names, hnames⟩ := hinside
    have hgoal : destination [] (slashed path) = destination [] root ++ names := hnames.symm
    refine .inl ⟨names.map .name, ?_, ?_⟩
    · rw [parts_of_notMem habsolute hplain, parts_of_notMem hroot hup, hgoal, List.map_append,
        List.cons_append]
    · intro front hfront
      have hnone : .up ∉ front := fun hmem => by
        simpa using hfront.subset hmem
      rw [List.count_eq_zero_of_not_mem hnone]
      exact Nat.zero_le _

theorem nothingOn_of_empty {path : String} : Disk.NothingOn {} path := by
  intro front hfront hname place hlocate
  obtain ⟨name, hmem, hisName⟩ := hname
  have hkind : ∀ name rest, Disk.kindAt {} (name :: rest) = none := fun _ _ => rfl
  have hfree : Disk.LinkFree {} [] := fun name rest target hlink => by
    rw [List.nil_append, hkind] at hlink
    cases hlink
  have hsegments : segments (ofSegments front) = front := by
    rw [ofSegments, if_neg]
    · exact segments_intercalate (List.ne_nil_of_mem hmem) fun segment hsegment =>
        notMem_of_mem_segments (hfront.subset hsegment)
    · rintro rfl
      exact hisName.1 (List.mem_singleton.mp hmem)
  obtain ⟨-, -, links, hwalk⟩ := Disk.locate_eq_ok.mp hlocate
  rw [startOf, ite_self, hsegments] at hwalk
  exact Disk.not_isName_of_follow hfree (fun name => hkind name []) hwalk name hmem hisName

theorem absent_file_collapsed :
    Disk.kindAt {} [] = some .folder ∧ isAbsolute "/w" = true ∧ ".." ∉ segments "/w" ∧
      Disk.NothingOn {} "/w/a/../b.cs" ∧ normalPath {} "/w" "/w/a/../b.cs" = .ok "b.cs" ∧
      normalPath {} "/w" "/w/../b.cs" = .error (.outsideRoot "/w/../b.cs") := by
  have hroot : isAbsolute "/w" = true := by decide
  have hup : ".." ∉ segments "/w" := by decide
  have hway : parts (slashed "/w/a/../b.cs") = parts "/w" ++ [.name "a", .up, .name "b.cs"] := by decide
  have hholds : HoldsTo "/w" (slashed "/w/a/../b.cs") :=
    .inl ⟨_, hway, (Disk.staysBelow_iff (by decide) hway hroot).mpr ⟨["b.cs"], by decide⟩⟩
  obtain ⟨hinside, -⟩ := normalPath_of_absent rfl hroot hup
    (show isAbsolute (slashed "/w/a/../b.cs") = true by decide) nothingOn_of_empty
  obtain ⟨-, houtside, -⟩ := normalPath_of_absent rfl hroot hup
    (show isAbsolute (slashed "/w/../b.cs") = true by decide) nothingOn_of_empty
  exact ⟨rfl, hroot, hup, nothingOn_of_empty, hinside ["b.cs"] (by decide) hholds,
    houtside (.inl (by decide))⟩

/-- A path that goes up from the root and comes back to it is refused, although it leads inside. -/
theorem return_to_root_refused :
    isAbsolute "/w" = true ∧ "." ∉ segments "/w" ∧ ".." ∉ segments "/w" ∧
      isAbsolute "/w/../w/b.cs" = true ∧ Disk.NothingOn {} "/w/../w/b.cs" ∧
      destination [] "/w/../w/b.cs" = destination [] "/w" ++ ["b.cs"] ∧
      normalPath {} "/w" "/w/../w/b.cs" = .error (.outsideRoot "/w/../w/b.cs") := by
  have hroot : isAbsolute "/w" = true := by decide
  have hup : ".." ∉ segments "/w" := by decide
  have hparts : parts (slashed "/w/../w/b.cs") = parts "/w" ++ [.up, .name "w", .name "b.cs"] := by decide
  have hastray : ¬ HoldsTo "/w" (slashed "/w/../w/b.cs") := by
    rintro (⟨way, hway, hstays⟩ | hunnamed)
    · obtain rfl := List.append_cancel_left (hparts.symm.trans hway)
      exact absurd (hstays [.up] (by simp)) (by decide)
    · exact hunnamed "w" (by decide)
  refine ⟨hroot, by decide, hup, by decide, nothingOn_of_empty, by decide, normalPath_of_none ?_⟩
  refine Option.eq_none_iff_forall_ne_some.mpr fun key hkey => ?_
  obtain ⟨-, -, hholds, -⟩ :=
    (nothingOn_of_empty.normal?_eq_some rfl hroot hup (by decide)).mp hkey
  exact hastray hholds

end Snapshot

end CodeIntel
