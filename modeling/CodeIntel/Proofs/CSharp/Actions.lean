import CodeIntel.Proofs.CSharp.Definitions
import CodeIntel.Proofs.Source.Extents
import CodeIntel.Proofs.Tree.Contents

/-! Actions that can be done. Each kind of action takes its positions from somewhere else: from a token that is
missing, the start of a line, the start of a type, the uses of a name, the ends of the imports. All of these lie
in the text, so that the actions of a range can always be listed, and what they insert or exchange does not
overlap, so that the documents take the edits. -/

namespace CodeIntel.CSharp

/-- The edits of an action can be made: there are some, document by document in path order, and each document
is one of the snapshot and takes its edits. -/
structure Applies (snapshot : Snapshot) (action : CodeAction) : Prop where
  ne_nil : action.edits ≠ []
  ordered : action.edits.Pairwise fun first second => first.path < second.path
  accepted : ∀ change ∈ action.edits, change.edits ≠ [] ∧
    ∃ d, snapshot.document? change.path = some d ∧ d.path = change.path ∧
      ∀ version, ∃ after, d.applyEdits change.edits version = .ok after

/-- The names of methods and constructors are identifiers in every tree of a snapshot. -/
def Parser.NamesMethods (parser : Parser) (snapshot : Snapshot) : Prop :=
  ∀ d ∈ snapshot.allDocuments, ∀ t, parser d.text = some t → t.NamesMethods

section

variable {parser : Parser} {snapshot : Snapshot} {d : Document} {x : Declaration} {action : CodeAction}

theorem exists_applied {edits : List TextEdit} (h : d.Accepts edits) (version : Nat) :
    ∃ after, d.applyEdits edits version = .ok after :=
  ⟨_, Document.applyEdits_eq_ok.mpr ⟨h, rfl⟩⟩

/-- An action with one edit of one document can be done if the edit has a range of the document. -/
theorem applies_of_holds (hfiled : Filed snapshot.documents) (hmem : d ∈ snapshot.allDocuments)
    (title : String) (kind : CodeActionKind) {edit : TextEdit} (h : d.Holds edit.range) :
    Applies snapshot ⟨title, kind, inDocument d [edit]⟩ where
  ne_nil := List.cons_ne_nil _ _
  ordered := List.pairwise_singleton _ _
  accepted change hchange := by
    obtain rfl := List.mem_singleton.mp hchange
    exact ⟨List.cons_ne_nil _ _, d, Snapshot.document?_of_mem hfiled hmem, rfl,
      exists_applied (Document.accepts_singleton h)⟩

theorem position_of_le {offset : Nat} (h : offset ≤ Text.byteLength d.chars) :
    position d offset = .ok (Lines.locate (Lines.lines d.chars) offset) := by
  rw [position, Document.positionAt_of_le h]

theorem range_of_le {span : Span} (hle : span.start ≤ span.stop)
    (hinside : span.stop ≤ Text.byteLength d.chars) : Visit.range d span = .ok (d.extent span) := by
  rw [Visit.range, Document.rangeOf_of_le hle hinside]

/-- Missing semicolons can be inserted. -/
theorem exists_semicolonFixes (hfiled : Filed snapshot.documents) (hmem : d ∈ snapshot.allDocuments)
    {faults : List ParseFault} (hinside : ∀ fault ∈ faults, fault.span.start ≤ Text.byteLength d.chars)
    (range : Range) :
    ∃ fixes, semicolonFixes d faults range = .ok fixes ∧ ∀ action ∈ fixes, Applies snapshot action := by
  obtain ⟨places, hplaces, hall⟩ : ∃ places,
      (faults.filter fun fault => fault.isMissing && fault.kind == ";").mapM
        (fun fault => position d fault.span.start) = .ok places ∧
      ∀ p ∈ places, ∃ offset, d.offsetAt p = .ok offset :=
    exists_mapM fun fault hfault =>
      ⟨_, position_of_le (hinside fault (List.mem_of_mem_filter hfault)), Lines.exists_offset_locate _ _⟩
  refine ⟨_, bind_eq_ok.mpr ⟨places, hplaces, rfl⟩, fun action haction => ?_⟩
  obtain ⟨p, hp, rfl⟩ := List.mem_map.mp haction
  exact applies_of_holds hfiled hmem _ _ (Document.holds_point (hall p (List.mem_of_mem_filter hp)))

/-- Documentation can be inserted above the first line of a declaration. -/
theorem applies_of_documentation? (hfiled : Filed snapshot.documents) (hmem : d ∈ snapshot.allDocuments)
    (hx : x.Made d) (h : documentation? d x.symbol = some action) : Applies snapshot action := by
  simp only [documentation?] at h
  split at h
  · obtain rfl := Option.some.inj h
    refine applies_of_holds hfiled hmem _ _ (Document.holds_point ?_)
    rw [hx.range]
    obtain ⟨offset, hoffset⟩ := Lines.exists_offset_locate d.chars x.span.start
    exact Lines.exists_offset_of_line hoffset
  · cases h

/-- A modifier can be inserted in front of a type. -/
theorem exists_readonlyField (hfiled : Filed snapshot.documents) (hmem : d ∈ snapshot.allDocuments)
    {field : FieldInfo} (hinside : field.typeStart ≤ Text.byteLength d.chars) :
    ∃ action, readonlyField d field = .ok action ∧ Applies snapshot action :=
  ⟨_, bind_eq_ok.mpr ⟨_, position_of_le hinside, rfl⟩,
    applies_of_holds hfiled hmem _ _ (Document.holds_point (Lines.exists_offset_locate _ _))⟩

/-! ### Renaming -/

/-- The edits of a rename are accepted. -/
theorem applies_respellings (h : parser.Nests snapshot) (hfiled : Filed snapshot.documents)
    (title : String) (kind : CodeActionKind) {name newName : String}
    (hsome : documentsNaming parser snapshot name ≠ []) :
    Applies snapshot ⟨title, kind, respellings parser snapshot name newName⟩ where
  ne_nil := by simpa [respellings] using hsome
  ordered := respellings_ordered hfiled
  accepted change hchange := by
    obtain ⟨e, he, rfl⟩ := List.mem_map.mp hchange
    obtain ⟨hmem, hspans⟩ := mem_documentsNaming.mp he
    obtain ⟨whole, hlined⟩ := h.lined hmem
    refine ⟨by simpa [respelling] using hspans, e, Snapshot.document?_of_mem hfiled hmem, rfl,
      exists_applied (e.accepts_extents (fun span hspan => ?_) ?_ newName)⟩
    · obtain ⟨token, htoken, rfl⟩ := List.mem_map.mp hspan
      exact (Document.le_of_slice? (h.slice?_eq hmem (List.mem_of_mem_filter htoken))).1
    · exact List.pairwise_map.mpr (hlined.2.sublist List.filter_sublist)

theorem toUpper_ne {c : Char} (h : c.isLower = true) : c.toUpper ≠ c := by
  intro hsame
  have hupper := congrArg Char.val hsame
  rw [Char.isLower, Bool.and_eq_true, decide_eq_true_eq, decide_eq_true_eq] at h
  rw [Char.toUpper, dif_pos h, UInt32.add_eq_left] at hupper
  exact absurd hupper (by decide)

/-- A better spelling is only found for a name, and it is another one. -/
theorem ne_of_pascalCase? {name better : String} (h : pascalCase? name = some better) :
    name ≠ "" ∧ better ≠ name := by
  unfold pascalCase? at h
  split at h
  · cases h
  · rename_i first rest hname
    split at h
    · rename_i hlower
      obtain rfl := Option.some.inj h
      refine ⟨?_, fun hsame => ?_⟩
      · rintro rfl
        cases hname
      · have hfirst := congrArg (fun text => text.toList.head?) hsame
        rw [String.toList_ofList, hname] at hfirst
        exact toUpper_ne hlower (Option.some.inj hfirst)
    · cases h

/-- A method or constructor can be renamed from its own name. -/
theorem exists_renameAction? (h : parser.Nests snapshot) (hnames : parser.NamesMethods snapshot)
    (hfiled : Filed snapshot.documents) (hmem : d ∈ snapshot.allDocuments)
    (hx : x ∈ (indexed parser d).declarations) (hkind : x.symbol.kind.isCallable = true) :
    ∃ found, renameAction? parser snapshot d x = .ok found ∧ ∀ action ∈ found, Applies snapshot action := by
  unfold renameAction?
  cases hbetter : pascalCase? x.symbol.name with
  | none => exact ⟨none, rfl, fun _ hnone => nomatch hnone⟩
  | some better =>
      obtain ⟨hname, hnew⟩ := ne_of_pascalCase? hbetter
      obtain ⟨t, hparse, -, hidentifiers, hrecords⟩ := h.records hmem
      have htoken : x.token ∈ (indexed parser d).identifiers :=
        hidentifiers ▸ (hnames d hmem t hparse).mem_identifiers hrecords hx hkind
      have hat := Declaration.IsSimple.identifierAt? ⟨htoken, hname⟩ h hmem
      have hedits := renameEdits_eq h hfiled hmem hat hmem (List.mem_map_of_mem hx) rfl hnew
      have hspan : x.nameSpan ∈ spansNamed parser x.symbol.name d :=
        List.mem_map.mpr ⟨x.token, List.mem_filter.mpr ⟨htoken, decide_eq_true rfl⟩, rfl⟩
      refine ⟨_, bind_eq_ok.mpr ⟨_, hedits, rfl⟩, ?_⟩
      rintro _ ⟨⟩
      exact applies_respellings h hfiled _ _
        (List.ne_nil_of_mem (mem_documentsNaming.mpr ⟨hmem, List.ne_nil_of_mem hspan⟩))

/-! ### Sorting the imports -/

/-- Imports with nothing but blanks between neighbours follow each other. -/
theorem ordered_of_areContiguous {imports : List Import} (h : areContiguous d imports = true)
    (hwide : ∀ imported ∈ imports, imported.span.start ≤ imported.span.stop) :
    imports.Pairwise fun first second => first.span.stop ≤ second.span.start := by
  induction imports with
  | nil => exact List.Pairwise.nil
  | cons first rest ih =>
      cases rest with
      | nil => exact List.pairwise_singleton _ _
      | cons second rest =>
          rw [areContiguous, Bool.and_eq_true] at h
          have hrest := ih h.2 fun imported hmem => hwide imported (List.mem_cons_of_mem _ hmem)
          have hnext : first.span.stop ≤ second.span.start := by
            have hblank := h.1
            split at hblank
            · rename_i between hbetween
              exact (Document.le_of_slice? hbetween).1
            · cases hblank
          refine List.pairwise_cons.mpr ⟨fun other hother => ?_, hrest⟩
          rcases List.mem_cons.mp hother with rfl | hother
          · exact hnext
          · have hbehind := (List.pairwise_cons.mp hrest).1 other hother
            have hsecond := hwide second (by simp)
            omega

/-- Imports are sorted if there are several, they stand together, and they are not in order. -/
theorem sortedImports?_eq_some {imports : List Import} {sorted : List String} :
    sortedImports? d imports = some sorted ↔
      2 ≤ imports.length ∧ areContiguous d imports = true ∧
      sorted = (imports.map Import.text).mergeSort importPrecedes ∧ sorted ≠ imports.map Import.text := by
  simp only [sortedImports?]
  split
  · rename_i hkeep
    refine iff_of_false (by simp) ?_
    rintro ⟨hlong, htogether, rfl, hmoved⟩
    simp only [Bool.or_eq_true, decide_eq_true_eq, Bool.not_eq_true', beq_iff_eq] at hkeep
    rcases hkeep with (hshort | hapart) | hsame
    · omega
    · rw [htogether] at hapart
      cases hapart
    · exact hmoved hsame
  · rename_i hsort
    simp only [Bool.or_eq_true, not_or, decide_eq_true_eq, Bool.not_eq_true', Bool.not_eq_false,
      beq_iff_eq] at hsort
    obtain ⟨⟨hlong, htogether⟩, hmoved⟩ := hsort
    rw [Option.some.injEq]
    constructor
    · rintro rfl
      exact ⟨by omega, htogether, rfl, hmoved⟩
    · rintro ⟨-, -, rfl, -⟩
      rfl

/-- What sorting imports comes to. -/
theorem sortImports_eq_ok {imports : List Import} {found : Option CodeAction} :
    sortImports d imports = .ok found ↔ (sortedImports? d imports = none ∧ found = none) ∨
      ∃ sorted first last range, sortedImports? d imports = some sorted ∧ imports.head? = some first ∧
        imports.getLast? = some last ∧ Visit.range d ⟨first.span.start, last.span.stop⟩ = .ok range ∧
        found = some ⟨"Sort using directives", .source, inDocument d
          [⟨range, String.intercalate (lineEnd d) sorted⟩]⟩ := by
  rw [sortImports]
  cases hsorted : sortedImports? d imports with
  | none => simp [eq_comm]
  | some sorted =>
      obtain ⟨hlong, -⟩ := sortedImports?_eq_some.mp hsorted
      obtain ⟨first, rest, rfl⟩ := List.exists_cons_of_length_pos (by omega : 0 < imports.length)
      obtain ⟨last, hlast⟩ := Option.isSome_iff_exists.mp
        (List.getLast?_isSome.mpr (List.cons_ne_nil first rest))
      rw [hlast]
      simp only [List.head?_cons, bind_eq_ok]
      constructor
      · rintro ⟨range, hrange, hfound⟩
        exact .inr ⟨sorted, first, last, range, rfl, rfl, rfl, hrange, (Except.ok.inj hfound).symm⟩
      · rintro (⟨hnone, -⟩ | ⟨_, _, _, range, ⟨⟩, ⟨⟩, ⟨⟩, hrange, rfl⟩)
        · cases hnone
        · exact ⟨range, hrange, rfl⟩

/-- The first of such imports does not start behind the end of the last. -/
theorem start_le_stop_of_areContiguous {imports : List Import} {first last : Import}
    (h : areContiguous d imports = true)
    (hwide : ∀ imported ∈ imports, imported.span.start ≤ imported.span.stop)
    (hfirst : imports.head? = some first) (hlast : imports.getLast? = some last) :
    first.span.start ≤ last.span.stop := by
  have hordered := ordered_of_areContiguous h hwide
  obtain ⟨rest, rfl⟩ := List.head?_eq_some_iff.mp hfirst
  have hstart := hwide first List.mem_cons_self
  rcases List.mem_cons.mp (List.mem_of_getLast? hlast) with rfl | hmem
  · exact hstart
  · have hnext := (List.pairwise_cons.mp hordered).1 last hmem
    have hstop := hwide last (List.mem_cons_of_mem _ hmem)
    omega

theorem exists_sortImports (hfiled : Filed snapshot.documents) (hmem : d ∈ snapshot.allDocuments)
    {imports : List Import} (hinside : ∀ imported ∈ imports,
      imported.span.start ≤ imported.span.stop ∧ imported.span.stop ≤ Text.byteLength d.chars) :
    ∃ found, sortImports d imports = .ok found ∧ ∀ action ∈ found, Applies snapshot action := by
  cases hsorted : sortedImports? d imports with
  | none => exact ⟨none, sortImports_eq_ok.mpr (.inl ⟨hsorted, rfl⟩), fun _ hmem => nomatch hmem⟩
  | some sorted =>
      obtain ⟨hlong, htogether, -⟩ := sortedImports?_eq_some.mp hsorted
      have hne : imports ≠ [] := List.ne_nil_of_length_pos (by omega)
      obtain ⟨first, hfirst⟩ := Option.isSome_iff_exists.mp (List.isSome_head?.mpr hne)
      obtain ⟨last, hlast⟩ := Option.isSome_iff_exists.mp (List.getLast?_isSome.mpr hne)
      have hle := start_le_stop_of_areContiguous htogether
        (fun imported hmem => (hinside imported hmem).1) hfirst hlast
      have hspan : Visit.range d ⟨first.span.start, last.span.stop⟩ =
          .ok (d.extent ⟨first.span.start, last.span.stop⟩) :=
        range_of_le hle (hinside last (List.mem_of_getLast? hlast)).2
      refine ⟨_, sortImports_eq_ok.mpr (.inr ⟨sorted, first, last, _, hsorted, hfirst, hlast, hspan, rfl⟩),
        ?_⟩
      rintro _ ⟨⟩
      exact applies_of_holds hfiled hmem _ _ (d.holds_extent hle)

/-! ### All actions -/

theorem mem_of_mem_distinctTitles {seen : List String} {actions : List CodeAction}
    (h : action ∈ distinctTitles seen actions) : action ∈ actions := by
  induction actions generalizing seen with
  | nil => cases h
  | cons first rest ih =>
      rw [distinctTitles] at h
      split at h
      · exact List.mem_cons_of_mem _ (ih h)
      · rcases List.mem_cons.mp h with rfl | h
        · exact List.mem_cons_self
        · exact List.mem_cons_of_mem _ (ih h)

/-- Where nodes stand in the text, faults, modifiers and imports do. -/
theorem Parser.Nests.places (h : parser.Nests snapshot) (hmem : d ∈ snapshot.allDocuments) :
    (∀ fault ∈ (indexed parser d).faults, fault.span.start ≤ Text.byteLength d.chars) ∧
    (∀ field ∈ (indexed parser d).fields, field.typeStart ≤ Text.byteLength d.chars) ∧
    ∀ imported ∈ (indexed parser d).imports,
      imported.span.start ≤ imported.span.stop ∧ imported.span.stop ≤ Text.byteLength d.chars := by
  obtain ⟨hindex, t, hparse, hnests, -⟩ := h.indexOf_eq hmem
  rw [indexOf, hparse] at hindex
  have hplaces := Index.places_of_build hindex
  have hinside : ∀ node ∈ t.subtrees,
      node.span.start ≤ node.span.stop ∧ node.span.stop ≤ Text.byteLength d.chars := by
    intro node hnode
    obtain ⟨text, htext⟩ := hnests.inText node hnode
    exact Document.le_of_slice? htext
  refine ⟨fun fault hfault => ?_, fun field hfield => ?_, fun imported himported => ?_⟩
  · obtain ⟨node, hnode, hspan⟩ := Index.exists_node_of_fault hindex hfault
    rw [hspan]
    exact Nat.le_trans (hinside node hnode).1 (hinside node hnode).2
  · obtain ⟨node, hnode, hstart⟩ := hplaces.fields field hfield
    rw [hstart]
    exact Nat.le_trans (hinside node hnode).1 (hinside node hnode).2
  · obtain ⟨node, hnode, hspan⟩ := hplaces.imports imported himported
    rw [hspan]
    exact hinside node hnode

/-- What listing the actions of a range comes to. -/
theorem codeActions_eq_ok {range : AnchorRange} {actions : List CodeAction} :
    codeActions parser snapshot d range = .ok actions ↔
      ∃ index semicolons modifiers renames sorting,
        indexOf parser d = .ok index ∧ semicolonFixes d index.faults range.range = .ok semicolons ∧
        (index.fields.filter fun field => !field.isReadonly &&
          field.nameSpan.overlaps range.span.start range.span.stop).mapM (readonlyField d) =
            .ok modifiers ∧
        ((index.declarations.filter fun x => x.nameSpan.overlaps range.span.start range.span.stop).filter
          fun x => x.symbol.kind.isCallable).mapM (renameAction? parser snapshot d) = .ok renames ∧
        sortImports d index.imports = .ok sorting ∧
        actions = distinctTitles [] (semicolons ++
          (index.declarations.filter fun x => x.nameSpan.overlaps range.span.start
            range.span.stop).filterMap (fun x => documentation? d x.symbol) ++
          modifiers ++ renames.filterMap id ++ sorting.toList) := by
  constructor
  · intro h
    obtain ⟨index, hindex, h⟩ := bind_eq_ok.mp h
    obtain ⟨semicolons, hsemicolons, h⟩ := bind_eq_ok.mp h
    obtain ⟨modifiers, hmodifiers, h⟩ := bind_eq_ok.mp h
    obtain ⟨renames, hrenames, h⟩ := bind_eq_ok.mp h
    obtain ⟨sorting, hsorting, h⟩ := bind_eq_ok.mp h
    exact ⟨index, semicolons, modifiers, renames, sorting, hindex, hsemicolons, hmodifiers, hrenames,
      hsorting, (Except.ok.inj h).symm⟩
  · rintro ⟨index, semicolons, modifiers, renames, sorting, hindex, hsemicolons, hmodifiers, hrenames,
      hsorting, rfl⟩
    exact bind_eq_ok.mpr ⟨index, hindex, bind_eq_ok.mpr ⟨semicolons, hsemicolons,
      bind_eq_ok.mpr ⟨modifiers, hmodifiers, bind_eq_ok.mpr ⟨renames, hrenames,
        bind_eq_ok.mpr ⟨sorting, hsorting, rfl⟩⟩⟩⟩⟩

/-- The actions of a range can be listed, and each of them can be done. -/
theorem codeActions_apply (h : parser.Nests snapshot) (hnames : parser.NamesMethods snapshot)
    (hfiled : Filed snapshot.documents) (hmem : d ∈ snapshot.allDocuments) (range : AnchorRange) :
    ∃ actions, codeActions parser snapshot d range = .ok actions ∧
      ∀ action ∈ actions, Applies snapshot action := by
  obtain ⟨hfaults, hfields, himports⟩ := h.places hmem
  obtain ⟨semicolons, hsemicolons, hfixed⟩ := exists_semicolonFixes hfiled hmem hfaults range.range
  obtain ⟨modifiers, hmodifiers, hmodified⟩ := exists_mapM (f := readonlyField d)
    fun field hfield => exists_readonlyField hfiled hmem (hfields field (List.mem_of_mem_filter hfield))
  obtain ⟨renames, hrenames, hrenamed⟩ := exists_mapM (f := renameAction? parser snapshot d)
    fun x hx => exists_renameAction? h hnames hfiled hmem
      (List.mem_of_mem_filter (List.mem_of_mem_filter hx)) (List.mem_filter.mp hx).2
  obtain ⟨sorting, hsorting, hsorted⟩ := exists_sortImports hfiled hmem himports
  refine ⟨_, codeActions_eq_ok.mpr ⟨_, semicolons, modifiers, renames, sorting, (h.indexOf_eq hmem).1,
    hsemicolons, hmodifiers, hrenames, hsorting, rfl⟩, fun action haction => ?_⟩
  have haction := mem_of_mem_distinctTitles haction
  simp only [List.mem_append, List.mem_filterMap, Option.mem_toList, id] at haction
  rcases haction with (((hfix | ⟨x, hx, hcomment⟩) | hmodifier) | ⟨found, hfound, hrename⟩) | hsort
  · exact hfixed action hfix
  · exact applies_of_documentation? hfiled hmem (h.made hmem (List.mem_of_mem_filter hx)) hcomment
  · exact hmodified action hmodifier
  · exact hrenamed found hfound action hrename
  · exact hsorted action hsort

end

/-! ### A method in lower case -/

/-- The tree of a class with a method that calls itself. -/
def lowerTree : Tree :=
  let call := soundNode "invocation_expression" true 17 20 [("function", 0)]
    [soundNode "identifier" true 17 18 [] [], bracketed "argument_list" "(" ")" 18 20 []]
  let statement := soundNode "expression_statement" true 17 21 [] [call, soundNode ";" false 20 21 [] []]
  soundNode "compilation_unit" true 0 23 []
    [soundNode "class_declaration" true 0 23 [("body", 2), ("name", 1)]
      [soundNode "class" false 0 5 [] [], soundNode "identifier" true 6 7 [] [],
        bracketed "declaration_list" "\x7b" "\x7d" 7 23
          [methodTree 8 13 (bracketed "parameter_list" "(" ")" 14 16 [])
            (bracketed "block" "\x7b" "\x7d" 16 22 [statement])]]]

/-- The document of the class. -/
def lowerDocument : Document := ⟨"a", "class A\x7bvoid f()\x7bf();\x7d\x7d", 0⟩

/-- A parser that knows the class. -/
def lowerParser : Parser := fun text => if text = lowerDocument.text then some lowerTree else none

theorem lowerTree_nests : lowerTree.Nests lowerDocument where
  inText := by decide +kernel
  ordered := by decide +kernel
  inside := by decide +kernel
  apart := by decide +kernel

/-- On the name of the method a comment and another name are offered, and both can be done. -/
theorem lower_method_actions_apply : ∃ actions,
    codeActions lowerParser (soloSnapshot 0 0 lowerDocument.text) lowerDocument
      ⟨"a", ⟨13, 13⟩, ⟨⟨0, 13⟩, ⟨0, 13⟩⟩⟩ = .ok actions ∧
    actions.map CodeAction.title = ["Add documentation comment for 'f'", "Rename 'f' to 'F'"] ∧
    ∀ action ∈ actions, Applies (soloSnapshot 0 0 lowerDocument.text) action := by
  have hmem : ∀ d, d ∈ (soloSnapshot 0 0 lowerDocument.text).allDocuments → d = lowerDocument :=
    fun d => List.mem_singleton.mp
  have hnests : lowerParser.Nests (soloSnapshot 0 0 lowerDocument.text) := by
    intro d hd
    obtain rfl := hmem d hd
    exact ⟨lowerTree, if_pos rfl, lowerTree_nests⟩
  have hnames : lowerParser.NamesMethods (soloSnapshot 0 0 lowerDocument.text) := by
    intro d hd t hparse
    obtain rfl := hmem d hd
    obtain rfl : lowerTree = t := Option.some.inj hparse
    have hall : ∀ node ∈ lowerTree.subtrees, node.isCallable = true → ∀ name ∈ node.nameNode?,
        name.head.named = true ∧ name.kind = "identifier" := by decide +kernel
    exact hall
  obtain ⟨actions, hactions, happly⟩ := codeActions_apply hnests hnames (filed_soloSnapshot _)
    (List.mem_singleton_self lowerDocument) ⟨"a", ⟨13, 13⟩, ⟨⟨0, 13⟩, ⟨0, 13⟩⟩⟩
  refine ⟨actions, hactions, ?_, happly⟩
  have htitles : (codeActions lowerParser (soloSnapshot 0 0 lowerDocument.text) lowerDocument
      ⟨"a", ⟨13, 13⟩, ⟨⟨0, 13⟩, ⟨0, 13⟩⟩⟩).map (List.map CodeAction.title) =
      .ok ["Add documentation comment for 'f'", "Rename 'f' to 'F'"] := by decide +kernel
  rw [hactions] at htitles
  exact Except.ok.inj htitles

end CodeIntel.CSharp
