import CodeIntel.CSharp.Engine
import CodeIntel.Proofs.Tree.Cursor
import CodeIntel.Proofs.Workspace.Filing
import CodeIntel.Proofs.Workspace.History

/-! Renaming a symbol, from its identifiers to the files. The edits of a rename stand at the very places
at which the name is used, and they fit the documents: every use gets the new spelling and nothing else
changes. What can go wrong lies in the paths. The workspace brings a path to its normal form once more
before it looks for the document, and a path with a backslash, which a link can lead to, is then taken
for another one. -/

namespace CodeIntel.CSharp

open World

/-- The index of a document, empty if there is none. -/
def indexed (parser : Parser) (d : Document) : Index :=
  match indexOf parser d with
  | .ok index => index
  | .error _ => {}

/-- Where a name stands in a document. -/
def spansNamed (parser : Parser) (name : String) (d : Document) : List Span :=
  (tokensNamed (indexed parser d) name).map Token.span

/-- The documents in which a name stands. -/
def documentsNaming (parser : Parser) (snapshot : Snapshot) (name : String) : List Document :=
  snapshot.allDocuments.filter fun d => !(spansNamed parser name d).isEmpty

/-- The edits that give a name another spelling in a document. -/
def respelling (parser : Parser) (name newName : String) (d : Document) : DocumentEdit :=
  ⟨d.path, (spansNamed parser name d).map fun span => ⟨d.extent span, newName⟩⟩

/-- The edits that give a name another spelling wherever it stands. -/
def respellings (parser : Parser) (snapshot : Snapshot) (name newName : String) : List DocumentEdit :=
  (documentsNaming parser snapshot name).map (respelling parser name newName)

/-- A span of a document as a place. -/
def placeOf (d : Document) (span : Span) : Location :=
  ⟨d.path, d.extent span,
    String.ofList (Text.trim ((Lines.contentOf? d.chars (d.extent span).start.line).getD []))⟩

/-- The places at which a name stands, document by document in path order. -/
def uses (parser : Parser) (snapshot : Snapshot) (name : String) : List Location :=
  snapshot.allDocuments.flatMap fun d => (spansNamed parser name d).map (placeOf d)

/-- The parser finds a tree in every document of a snapshot, and the trees fit. -/
def Parser.Serves (parser : Parser) (snapshot : Snapshot) : Prop :=
  ∀ d ∈ snapshot.allDocuments, ∃ t, parser d.text = some t ∧ t.Fits d

/-- The parser finds a tree in every document of a snapshot, and the nodes of the trees are in order. -/
def Parser.Nests (parser : Parser) (snapshot : Snapshot) : Prop :=
  ∀ d ∈ snapshot.allDocuments, ∃ t, parser d.text = some t ∧ t.Nests d

section

variable {parser : Parser} {snapshot : Snapshot} {d : Document} {index own : Index} {offset : Nat}
  {name newName : String}

theorem indexed_of_indexOf (h : indexOf parser d = .ok index) : indexed parser d = index := by
  rw [indexed, h]

theorem indexOf_eq_build {t : Tree} (hparse : parser d.text = some t) : indexOf parser d = Index.build d t := by
  rw [indexOf, hparse]

/-- A document has an index if the nodes of its tree lie in the text. It records the identifiers of the
tree. -/
theorem indexOf_of_inText {t : Tree} (hparse : parser d.text = some t) (h : t.InText d) :
    indexOf parser d = .ok (indexed parser d) ∧
      (indexed parser d).identifiers = t.identifiers d := by
  obtain ⟨index, hbuild, hidentifiers⟩ := Index.exists_build h
  have hindex : indexOf parser d = .ok index := (indexOf_eq_build hparse).trans hbuild
  rw [indexed_of_indexOf hindex]
  exact ⟨hindex, hidentifiers⟩

/-- The name at an offset is that of the identifier which the index finds there. -/
theorem symbolAt_of_inText {t : Tree} (hparse : parser d.text = some t) (h : t.InText d) (offset : Nat) :
    symbolAt parser d offset = .ok (((indexed parser d).identifierAt? offset).map fun token =>
      ⟨token.name, d.path, d.extent token.span, ownDeclaration? (indexed parser d) token⟩) := by
  obtain ⟨hindex, hidentifiers⟩ := indexOf_of_inText hparse h
  rw [symbolAt, hindex]
  simp only [bind, Except.bind]
  cases htoken : (indexed parser d).identifierAt? offset with
  | none => rfl
  | some token =>
      have hslice := Tree.slice?_of_mem_identifiers (hidentifiers ▸ Index.mem_of_identifierAt? htoken)
      simp only [Visit.range_of_slice? hslice]
      rfl

namespace Parser.Nests

/-- A document has an index, which records the identifiers of its tree. -/
theorem indexOf_eq (h : parser.Nests snapshot) (hmem : d ∈ snapshot.allDocuments) :
    indexOf parser d = .ok (indexed parser d) ∧
      ∃ t : Tree, parser d.text = some t ∧ t.Nests d ∧
        (indexed parser d).identifiers = t.identifiers d := by
  obtain ⟨t, hparse, hnests⟩ := h d hmem
  obtain ⟨hindex, hidentifiers⟩ := indexOf_of_inText hparse hnests.inText
  exact ⟨hindex, t, hparse, hnests, hidentifiers⟩

theorem indexAll_eq (h : parser.Nests snapshot) :
    indexAll parser snapshot =
      .ok (snapshot.allDocuments.map fun d => (d, indexed parser d)) := by
  refine mapM_of_forall _ fun d hmem => ?_
  rw [(h.indexOf_eq hmem).1]
  rfl

/-- The identifiers of a document follow each other. -/
theorem lined (h : parser.Nests snapshot) (hmem : d ∈ snapshot.allDocuments) :
    ∃ span, Tree.Lined span (indexed parser d).identifiers := by
  obtain ⟨-, t, -, hnests, hidentifiers⟩ := h.indexOf_eq hmem
  exact ⟨t.span, hidentifiers ▸ Tree.Nests.lined t hnests⟩

/-- An identifier has its name from the text. -/
theorem slice?_eq (h : parser.Nests snapshot) (hmem : d ∈ snapshot.allDocuments) {token : Token}
    (htoken : token ∈ (indexed parser d).identifiers) : d.slice? token.span = some token.name := by
  obtain ⟨-, t, -, -, hidentifiers⟩ := h.indexOf_eq hmem
  exact Tree.slice?_of_mem_identifiers (hidentifiers ▸ htoken)

end Parser.Nests

namespace Parser.Serves

theorem nests (h : parser.Serves snapshot) : parser.Nests snapshot := by
  intro d hmem
  obtain ⟨t, hparse, hfits⟩ := h d hmem
  exact ⟨t, hparse, hfits.nests⟩

/-- The identifiers of a document are those of a tree that fits. -/
theorem exists_fits (h : parser.Serves snapshot) (hmem : d ∈ snapshot.allDocuments) :
    ∃ t : Tree, t.Fits d ∧ (indexed parser d).identifiers = t.identifiers d := by
  obtain ⟨t, hparse, hfits⟩ := h d hmem
  obtain ⟨-, other, hother, -, hidentifiers⟩ := h.nests.indexOf_eq hmem
  obtain rfl := Option.some.inj (hother.symm.trans hparse)
  exact ⟨other, hfits, hidentifiers⟩

theorem isWord (h : parser.Serves snapshot) (hmem : d ∈ snapshot.allDocuments) {token : Token}
    (htoken : token ∈ (indexed parser d).identifiers) (hname : token.name ≠ "") :
    Text.IsWord token.name.toList := by
  obtain ⟨t, hfits, hidentifiers⟩ := h.exists_fits hmem
  exact hfits.isWord (hidentifiers ▸ htoken) hname

theorem wordsAt (h : parser.Serves snapshot) (hmem : d ∈ snapshot.allDocuments)
    (hword : Text.IsWord name.toList) : d.WordsAt name (spansNamed parser name d) := by
  obtain ⟨t, hfits, hidentifiers⟩ := h.exists_fits hmem
  rw [spansNamed, tokensNamed, hidentifiers]
  exact hfits.wordsAt hword

end Parser.Serves

/-- The declarations of a name are those of all documents. -/
theorem mem_declarationsNamed (hfiled : Filed snapshot.documents) (hmem : d ∈ snapshot.allDocuments)
    {symbol : SymbolInfo} :
    symbol ∈ declarationsNamed (d, indexed parser d)
        (snapshot.allDocuments.map fun d => (d, indexed parser d)) name ↔
      symbol.name = name ∧ ∃ e ∈ snapshot.allDocuments, symbol ∈ (indexed parser e).symbols := by
  rw [declarationsNamed, List.mem_flatMap]
  constructor
  · rintro ⟨⟨e, index⟩, hpair, hfound⟩
    obtain ⟨hsymbol, hname⟩ := List.mem_filter.mp hfound
    refine ⟨of_decide_eq_true hname, ?_⟩
    rcases List.mem_cons.mp hpair with heq | hpair
    · obtain ⟨rfl, rfl⟩ := Prod.mk.inj heq
      exact ⟨e, hmem, hsymbol⟩
    · obtain ⟨f, hf, heq⟩ := List.mem_map.mp (List.mem_filter.mp hpair).1
      obtain ⟨rfl, rfl⟩ := Prod.mk.inj heq
      exact ⟨f, hf, hsymbol⟩
  · rintro ⟨hname, other, hother, hsymbol⟩
    refine ⟨(other, indexed parser other), ?_, List.mem_filter.mpr ⟨hsymbol, decide_eq_true hname⟩⟩
    by_cases hpath : other.path = d.path
    · -- There is one document of a path.
      have hsame := Snapshot.document?_of_mem hfiled hother
      rw [hpath, Snapshot.document?_of_mem hfiled hmem] at hsame
      rw [Option.some.inj hsame]
      exact List.mem_cons_self
    · refine List.mem_cons_of_mem _ (List.mem_filter.mpr ⟨List.mem_map_of_mem hother, ?_⟩)
      exact decide_eq_true hpath

/-- A name that some document declares has a declaration. -/
theorem declarationsNamed_ne_nil (hfiled : Filed snapshot.documents)
    (hmem : d ∈ snapshot.allDocuments) {other : Document} (hother : other ∈ snapshot.allDocuments)
    {symbol : SymbolInfo} (hsymbol : symbol ∈ (indexed parser other).symbols)
    (hname : symbol.name = name) :
    declarationsNamed (d, indexed parser d)
      (snapshot.allDocuments.map fun d => (d, indexed parser d)) name ≠ [] :=
  List.ne_nil_of_mem ((mem_declarationsNamed hfiled hmem).mpr ⟨hname, other, hother, hsymbol⟩)

/-- A rename edits the documents in which the name stands, in path order, each at all these places. -/
theorem renameEdits_eq (h : parser.Nests snapshot) (hfiled : Filed snapshot.documents)
    (hmem : d ∈ snapshot.allDocuments) {token : Token}
    (htoken : (indexed parser d).identifierAt? offset = some token)
    {other : Document} (hother : other ∈ snapshot.allDocuments) {symbol : SymbolInfo}
    (hsymbol : symbol ∈ (indexed parser other).symbols) (hdeclared : symbol.name = token.name)
    (hnew : newName ≠ token.name) :
    renameEdits parser snapshot d offset newName =
      .ok (respellings parser snapshot token.name newName) := by
  have hsome := declarationsNamed_ne_nil hfiled hmem hother hsymbol hdeclared
  have hchanges : snapshot.allDocuments.mapM (fun document => do
      let edits ← (tokensNamed (indexed parser document) token.name).mapM fun token => do
        return (⟨← Visit.range document token.span, newName⟩ : TextEdit)
      return (⟨document.path, edits⟩ : DocumentEdit)) =
      Except.ok (snapshot.allDocuments.map (respelling parser token.name newName)) := by
    refine mapM_of_forall _ fun document hdocument => ?_
    have hedits : (tokensNamed (indexed parser document) token.name).mapM (fun token => do
        return (⟨← Visit.range document token.span, newName⟩ : TextEdit)) =
        Except.ok ((tokensNamed (indexed parser document) token.name).map fun token =>
          ⟨document.extent token.span, newName⟩) := by
      refine mapM_of_forall _ fun use huse => ?_
      rw [Visit.range_of_slice? (h.slice?_eq hdocument (List.mem_of_mem_filter huse))]
      rfl
    rw [hedits, respelling, spansNamed, List.map_map]
    rfl
  have hnamed : nameAt (indexed parser d) offset = .ok token.name := by rw [nameAt, htoken]
  rw [renameEdits, (h.indexOf_eq hmem).1, h.indexAll_eq]
  simp only [bind, Except.bind, pure, Except.pure, hnamed, List.mapM_map, Function.comp_def]
    at hchanges ⊢
  rw [if_neg (by simpa using hsome), if_neg (Ne.symm hnew), hchanges, respellings, documentsNaming]
  dsimp only
  rw [List.filter_map]
  refine congrArg Except.ok (congrArg _ (List.filter_congr fun document _ => ?_))
  simp [respelling]

theorem location_of_slice? {span : Span} {text : String} (h : d.slice? span = some text) :
    location d span = .ok (placeOf d span) := by
  rw [location, Visit.range_of_slice? h]
  rfl

/-- The uses of a name are all the places at which it stands. -/
theorem references_eq_uses (hserves : parser.Serves snapshot) (hmem : d ∈ snapshot.allDocuments)
    {token : Token} (htoken : (indexed parser d).identifierAt? offset = some token)
    (hname : token.name ≠ "") :
    references parser snapshot d offset = .ok (uses parser snapshot token.name) := by
  have hword := hserves.isWord hmem (Index.mem_of_identifierAt? htoken) hname
  have hplaces : snapshot.allDocuments.mapM (fun document =>
      (tokensNamed (indexed parser document) token.name).mapM fun token => location document token.span) =
      Except.ok (snapshot.allDocuments.map fun document =>
        (spansNamed parser token.name document).map (placeOf document)) := by
    refine mapM_of_forall _ fun document hdocument => ?_
    rw [spansNamed, List.map_map]
    refine mapM_of_forall _ fun use huse => ?_
    exact location_of_slice? ((hserves.wordsAt hdocument hword).stands _ (List.mem_map_of_mem huse))
  have hnamed : nameAt (indexed parser d) offset = .ok token.name := by rw [nameAt, htoken]
  rw [references, (hserves.nests.indexOf_eq hmem).1, hserves.nests.indexAll_eq]
  simp only [bind, Except.bind, hnamed, List.mapM_map, Function.comp_def, hplaces]
  rw [uses, List.flatMap_def]
  rfl

/-- The uses of a name are where it stands, document by document in path order. -/
theorem references_eq (hserves : parser.Serves snapshot) (hmem : d ∈ snapshot.allDocuments)
    {token : Token} (htoken : (indexed parser d).identifierAt? offset = some token)
    (hname : token.name ≠ "") :
    ∃ places, references parser snapshot d offset = .ok places ∧
      places.map (fun place => (place.path, place.range)) =
        snapshot.allDocuments.flatMap fun document =>
          (spansNamed parser token.name document).map fun span =>
            (document.path, document.extent span) := by
  refine ⟨_, references_eq_uses hserves hmem htoken hname, ?_⟩
  simp only [uses, List.map_flatMap, List.map_map]
  rfl

theorem mem_documentsNaming :
    d ∈ documentsNaming parser snapshot name ↔
      d ∈ snapshot.allDocuments ∧ spansNamed parser name d ≠ [] := by
  rw [documentsNaming, List.mem_filter]
  simp

/-- Another snapshot in which a name has been given another spelling: every document in which it
stands has been changed at these places and is of the new version, and the others are as they were. -/
structure Renamed (parser : Parser) (name newName : String) (snapshot next : Snapshot) : Prop where
  id_eq : next.id = snapshot.id
  version_eq : next.version = snapshot.version + 1
  paths : next.documents.keys = snapshot.documents.keys
  kept : ∀ d ∈ snapshot.allDocuments, spansNamed parser name d = [] →
    next.document? d.path = some d
  respelled : ∀ d ∈ snapshot.allDocuments, spansNamed parser name d ≠ [] →
    ∃ after, next.document? d.path = some after ∧ after.path = d.path ∧
      after.version = snapshot.version + 1 ∧
      Text.Respelled name.toList newName.toList 0 (spansNamed parser name d) d.chars after.chars

theorem respellings_ordered (hfiled : Filed snapshot.documents) :
    (respellings parser snapshot name newName).Pairwise fun first second => first.path < second.path :=
  List.pairwise_map.mpr (hfiled.ordered.sublist List.filter_sublist)

/-- The edits of a rename fit their documents. -/
theorem exists_edited (hserves : parser.Serves snapshot) (hfiled : Filed snapshot.documents)
    (hword : Text.IsWord name.toList) (newName : String) :
    ∃ after : Document → Document,
      Store.edited snapshot
          ((respellings parser snapshot name newName).map fun edit => (edit.path, edit.edits)) =
        .ok ((documentsNaming parser snapshot name).map fun d => (d, after d)) ∧
      ∀ d ∈ documentsNaming parser snapshot name, (after d).path = d.path ∧
        (after d).version = snapshot.version + 1 ∧
        Text.Respelled name.toList newName.toList 0 (spansNamed parser name d) d.chars
          (after d).chars := by
  have hmade : ∀ d ∈ documentsNaming parser snapshot name, ∃ after,
      d.applyEdits (respelling parser name newName d).edits (snapshot.version + 1) = .ok after ∧
        after.path = d.path ∧ after.version = snapshot.version + 1 ∧
        Text.Respelled name.toList newName.toList 0 (spansNamed parser name d) d.chars
          after.chars :=
    fun d hmem => (hserves.wordsAt (mem_documentsNaming.mp hmem).1 hword).applyEdits newName _
  choose! after hafter using hmade
  refine ⟨after, ?_, fun d hmem => (hafter d hmem).2⟩
  rw [Store.edited_eq_ok, respellings, List.map_map, List.forall₂_map_left_iff, List.forall₂_map_right_iff,
    List.forall₂_same]
  intro d hmem
  exact ⟨Snapshot.document?_of_mem hfiled (mem_documentsNaming.mp hmem).1, (hafter d hmem).1⟩

/-- With the changed documents in their places the snapshot is renamed. -/
theorem renamed_successorOf (store : Store) (hfiled : Filed snapshot.documents)
    {after : Document → Document}
    (hrewrites : Store.Rewrites snapshot.documents
      ((documentsNaming parser snapshot name).map fun d => (d, after d)))
    (hafter : ∀ d ∈ documentsNaming parser snapshot name, (after d).path = d.path ∧
      (after d).version = snapshot.version + 1 ∧
      Text.Respelled name.toList newName.toList 0 (spansNamed parser name d) d.chars
        (after d).chars) :
    Renamed parser name newName snapshot (store.successorOf snapshot
      ((documentsNaming parser snapshot name).map fun d => (d, after d))) where
  id_eq := rfl
  version_eq := rfl
  paths := hrewrites.keys_replaced hfiled.ascending
  kept d hmem hnone := by
    refine (Store.get?_replaced_of_notMem ?_).trans (Snapshot.document?_of_mem hfiled hmem)
    intro hpath
    rw [List.map_map] at hpath
    obtain ⟨other, hother, hpath⟩ := List.mem_map.mp hpath
    obtain ⟨hmem', hsome⟩ := mem_documentsNaming.mp hother
    have hsame := Snapshot.document?_of_mem hfiled hmem'
    rw [← (hafter other hother).1, show (after other).path = d.path from hpath,
      Snapshot.document?_of_mem hfiled hmem] at hsame
    exact hsome (Option.some.inj hsame ▸ hnone)
  respelled d hmem hsome := by
    have htouched := mem_documentsNaming.mpr ⟨hmem, hsome⟩
    refine ⟨after d, ?_, hafter d htouched⟩
    have hfiled' := Store.filed_replaced hfiled fun pair hpair => hrewrites.isKey hfiled hpair
    refine hfiled'.ascending.get?_of_mem
      ((Store.mem_replaced hfiled.ascending hrewrites.distinct).mpr (.inl ?_))
    exact ⟨(d, after d), List.mem_map_of_mem htouched, rfl, (hafter d htouched).1⟩

/-- A store takes the edits of a rename whose paths are their own normal forms: all that can go wrong is
that a file is not written. -/
theorem applyEdits_respellings {store : Store} (hpublished : store.published = some snapshot)
    (hserves : parser.Serves snapshot) (hfiled : Filed snapshot.documents)
    (hword : Text.IsWord name.toList) (hsome : documentsNaming parser snapshot name ≠ [])
    (hnormal : ∀ edit ∈ respellings parser snapshot name newName,
      store.disk.normal? snapshot.root edit.path = some edit.path) :
    (∃ next disk,
      store.applyEdits snapshot.id snapshot.version (respellings parser snapshot name newName) =
        (.ok next.version, { store with disk, published := some next }) ∧
      Renamed parser name newName snapshot next) ∨
    ∃ (path : String) (fault : DiskFault) (disk : Disk),
      store.applyEdits snapshot.id snapshot.version (respellings parser snapshot name newName) =
        (.error (.internal s!"Failed to write {path}: {fault.message}"), { store with disk }) := by
  have hgroups := Store.grouped_of_ascending (respellings_ordered hfiled) hnormal
  obtain ⟨after, hchanged, hafter⟩ := exists_edited hserves hfiled hword newName
  have hrewrites := Store.rewrites_of_edited hfiled (Store.grouped_ascending hgroups) hchanged
  have hcurrent : store.ensureCurrent snapshot.id snapshot.version = .ok snapshot :=
    Store.ensureCurrent_eq_ok.mpr ⟨hpublished, rfl, rfl⟩
  have hedits : ((respellings parser snapshot name newName).all fun edit => edit.edits.isEmpty) =
      false := by
    obtain ⟨d, hmem⟩ := List.exists_mem_of_ne_nil _ hsome
    refine List.all_eq_false.mpr ⟨respelling parser name newName d, List.mem_map_of_mem hmem, ?_⟩
    simpa [respelling] using (mem_documentsNaming.mp hmem).2
  rw [Store.applyEdits_of_edited hedits hcurrent hgroups hchanged]
  rcases hwritten : Store.writeBack snapshot.root [] store.disk
    ((documentsNaming parser snapshot name).map fun d => (d, after d)) with ⟨error | _, disk⟩
  · obtain ⟨pair, -, fault, rfl⟩ := Store.exists_of_writeBack_eq_error hwritten
    exact .inr ⟨pair.2.path, fault, disk, rfl⟩
  · exact .inl ⟨_, disk, rfl, renamed_successorOf store hfiled hrewrites hafter⟩

/-- The places at which a rename edits, document by document, are those at which the name stands. -/
theorem places_respellings :
    ((respellings parser snapshot name newName).flatMap fun change =>
        change.edits.map fun edit => (change.path, edit.range)) =
      snapshot.allDocuments.flatMap fun document =>
        (spansNamed parser name document).map fun span => (document.path, document.extent span) := by
  rw [respellings, documentsNaming, List.flatMap_map]
  induction snapshot.allDocuments with
  | nil => rfl
  | cons d rest ih =>
      rw [List.filter_cons, List.flatMap_cons]
      split
      · rw [List.flatMap_cons, ih]
        simp [respelling]
      · rename_i hnone
        have hspans : spansNamed parser name d = [] := by simpa using hnone
        rw [ih, hspans]
        rfl

/-- **Renaming is exact.** Where a name that is not empty and that some document declares stands at an
offset, a rename to another name succeeds; it edits at the uses of the name and nowhere else, document
by document in path order. The workspace takes these edits if the paths are their own normal forms,
which they are unless they have backslashes: then nothing can fail but the writing of a file, and what
is published is the snapshot with the name given the new spelling. A document that no path leads to is
passed over, even if the edits are made. -/
theorem rename_exact {host : Engine} {disk : Disk} {now : String} {events : List Event}
    {final : World} (hrun : Runs (Step host) (World.initial disk now) events final)
    (hpublished : final.store.published = some snapshot) (hserves : parser.Serves snapshot)
    (hmem : d ∈ snapshot.allDocuments) (hown : indexOf parser d = .ok own) {token : Token}
    (htoken : own.identifierAt? offset = some token) (hname : token.name ≠ "") {other : Document}
    (hother : other ∈ snapshot.allDocuments) (hindex : indexOf parser other = .ok index)
    {symbol : SymbolInfo} (hsymbol : symbol ∈ index.symbols) (hdeclared : symbol.name = token.name)
    (hnew : newName ≠ token.name) :
    ∃ (edits : List DocumentEdit) (places : List Location),
      renameEdits parser snapshot d offset newName = .ok edits ∧
      references parser snapshot d offset = .ok places ∧
      (edits.flatMap fun change => change.edits.map fun edit => (change.path, edit.range)) =
        places.map (fun place => (place.path, place.range)) ∧
      (edits.Pairwise fun first second => first.path < second.path) ∧
      (∀ change ∈ edits, change.edits ≠ [] ∧ ∀ edit ∈ change.edits, edit.newText = newName) ∧
      ((∀ change ∈ edits, '\\' ∉ change.path.toList) → ∀ change ∈ edits,
        final.store.disk.normal? snapshot.root change.path = some change.path) ∧
      ((∀ change ∈ edits,
          final.store.disk.normal? snapshot.root change.path = some change.path) →
        (∃ next disk, final.store.applyEdits snapshot.id snapshot.version edits =
            (.ok next.version, { final.store with disk, published := some next }) ∧
          Renamed parser token.name newName snapshot next) ∨
        ∃ (path : String) (fault : DiskFault) (disk : Disk),
          final.store.applyEdits snapshot.id snapshot.version edits =
            (.error (.internal s!"Failed to write {path}: {fault.message}"),
              { final.store with disk })) ∧
      ∀ change ∈ edits,
        (∀ any ∈ edits, final.store.disk.normal? snapshot.root any.path ≠ some change.path) →
        ∀ (number : Nat) (after : Store),
          final.store.applyEdits snapshot.id snapshot.version edits = (.ok number, after) →
          ∃ next, after.published = some next ∧
            next.document? change.path = snapshot.document? change.path := by
  have hfiled := filed_of_runs hrun hpublished
  obtain rfl := indexed_of_indexOf hown
  obtain rfl := indexed_of_indexOf hindex
  have hword := hserves.isWord hmem (Index.mem_of_identifierAt? htoken) hname
  obtain ⟨places, hplaces, hranges⟩ := references_eq hserves hmem htoken hname
  have hspan : token.span ∈ spansNamed parser token.name d :=
    List.mem_map_of_mem
      (List.mem_filter.mpr ⟨Index.mem_of_identifierAt? htoken, decide_eq_true rfl⟩)
  have hsome : documentsNaming parser snapshot token.name ≠ [] :=
    List.ne_nil_of_mem (mem_documentsNaming.mpr ⟨hmem, List.ne_nil_of_mem hspan⟩)
  refine ⟨respellings parser snapshot token.name newName, places,
    renameEdits_eq hserves.nests hfiled hmem htoken hother hsymbol hdeclared hnew, hplaces,
    places_respellings.trans hranges.symm, respellings_ordered hfiled, ?_, ?_,
    applyEdits_respellings hpublished hserves hfiled hword hsome, ?_⟩
  · intro change hchange
    obtain ⟨document, hdocument, rfl⟩ := List.mem_map.mp hchange
    refine ⟨by simpa [respelling] using (mem_documentsNaming.mp hdocument).2, fun edit hedit => ?_⟩
    obtain ⟨span, -, rfl⟩ := List.mem_map.mp hedit
    rfl
  · intro hslash change hchange
    have hpath := hslash change hchange
    obtain ⟨document, hdocument, rfl⟩ := List.mem_map.mp hchange
    have hentry := (Snapshot.mem_allDocuments hfiled).mp (mem_documentsNaming.mp hdocument).1
    exact (hfiled.named _ _ hentry).2.normal? hpath _ _
  · intro change _ hkey number after happly
    exact Store.document?_of_applyEdits hpublished hfiled hkey happly

end

/-- A workspace of one document, as it is loaded, keeps the document at its path. -/
theorem filed_soloSnapshot (text : String) : Filed (soloSnapshot 0 0 text).documents := by
  have hloaded := (Runs.nil.snoc (step_solo_load text none [] [] 0 List.not_mem_nil)).snoc
    (.commitLoad List.mem_cons_self)
  exact filed_of_runs hloaded rfl

/-- A workspace of two documents. -/
def pairSnapshot (first second : String) : Snapshot :=
  ⟨0, 0, "/", "/", [⟨"solo", "text", [], ".", ["a", "b"]⟩],
    [("a", ⟨"a", first, 0⟩), ("b", ⟨"b", second, 0⟩)], ""⟩

theorem mem_pairSnapshot {first second : String} {d : Document} :
    d ∈ (pairSnapshot first second).allDocuments ↔ d = ⟨"a", first, 0⟩ ∨ d = ⟨"b", second, 0⟩ :=
  List.mem_pair

theorem filed_pairSnapshot (first second : String) : Filed (pairSnapshot first second).documents := by
  have hkey : ∀ name, Path.IsName name → Disk.IsKey name := fun name hname =>
    ⟨[name], List.cons_ne_nil _ _, by simpa using hname, rfl⟩
  refine ⟨List.pairwise_pair.mpr (show "a" < "b" by decide), fun key document hmem => ?_⟩
  rcases List.mem_pair.mp hmem with heq | heq
  · obtain ⟨rfl, rfl⟩ := Prod.mk.inj heq
    exact ⟨rfl, hkey _ ⟨by decide, by decide, by decide, by decide⟩⟩
  · obtain ⟨rfl, rfl⟩ := Prod.mk.inj heq
    exact ⟨rfl, hkey _ ⟨by decide, by decide, by decide, by decide⟩⟩

/-! ### A document with nothing but a namespace -/

/-- A node without a fault. -/
def soundNode (kind : String) (named : Bool) (start stop : Nat) (fields : List (String × Nat))
    (children : List Tree) : Tree :=
  .node ⟨kind, named, false, false, false, ⟨start, stop⟩, fields⟩ children

/-- The tree of the namespace. -/
def namespaceTree : Tree :=
  soundNode "compilation_unit" true 0 12 []
    [soundNode "file_scoped_namespace_declaration" true 0 12 [("name", 1)]
      [soundNode "namespace" false 0 9 [] [], soundNode "identifier" true 10 11 [] [],
        soundNode ";" false 11 12 [] []]]

/-- A parser that knows the namespace. -/
def namespaceParser : Parser := fun text => if text = "namespace N;" then some namespaceTree else none

/-- The document of the namespace. -/
def namespaceDocument : Document := ⟨"a", "namespace N;", 0⟩

theorem namespaceTree_fits (path : String) (version : Nat) :
    namespaceTree.Fits ⟨path, "namespace N;", version⟩ where
  inText := (by decide +kernel : namespaceTree.InText namespaceDocument)
  ordered := by decide
  inside := by decide
  apart := by decide
  unbroken node hnode hkind text htext := by
    have hall : ∀ node ∈ namespaceTree.subtrees, node.kind = "identifier" →
        node.text? namespaceDocument = some "N" := by decide +kernel
    obtain rfl := Option.some.inj ((hall node hnode hkind).symm.trans htext)
    decide

theorem namespaceParser_serves : namespaceParser.Serves (soloSnapshot 0 0 "namespace N;") := by
  intro d hmem
  obtain rfl : d = namespaceDocument := List.mem_singleton.mp hmem
  exact ⟨namespaceTree, if_pos rfl, namespaceTree_fits _ _⟩

/-- The namespace is given another name. -/
theorem namespace_renamed :
    ∃ edits next,
      renameEdits namespaceParser (soloSnapshot 0 0 "namespace N;") namespaceDocument 10 "M" =
        .ok edits ∧
      ((soloWorld "namespace N;" (some (soloSnapshot 0 0 "namespace N;")) [] [0]).store.applyEdits 0 0
        edits).1 = .ok next.version ∧
      Renamed namespaceParser "N" "M" (soloSnapshot 0 0 "namespace N;") next := by
  have hloaded := (Runs.nil.snoc (step_solo_load "namespace N;" none [] [] 0 List.not_mem_nil)).snoc
    (.commitLoad List.mem_cons_self)
  have hmem : namespaceDocument ∈ (soloSnapshot 0 0 "namespace N;").allDocuments :=
    List.mem_cons_self
  have hindex := (namespaceParser_serves.nests.indexOf_eq hmem).1
  have htoken : (indexed namespaceParser namespaceDocument).identifierAt? 10 =
      some ⟨"N", ⟨10, 11⟩⟩ := by decide +kernel
  have hsymbol : (⟨"N", .namespaceScope, none, "a", ⟨⟨0, 0⟩, ⟨0, 12⟩⟩, ⟨⟨0, 10⟩, ⟨0, 11⟩⟩⟩ : SymbolInfo)
      ∈ (indexed namespaceParser namespaceDocument).symbols := by decide +kernel
  have hedits :
      renameEdits namespaceParser (soloSnapshot 0 0 "namespace N;") namespaceDocument 10 "M" =
        .ok [⟨"a", [⟨⟨⟨0, 10⟩, ⟨0, 11⟩⟩, "M"⟩]⟩] := by decide +kernel
  obtain ⟨edits, -, hrename, -, -, -, -, hnormal, hmade, -⟩ :=
    rename_exact hloaded rfl namespaceParser_serves hmem hindex htoken (by decide) hmem hindex
      hsymbol rfl (show "M" ≠ "N" by decide)
  obtain rfl := Except.ok.inj (hrename.symm.trans hedits)
  have hanswer := applyEdits_solo "namespace N;" [] [0] rfl
    (show Document.applyEdits namespaceDocument [⟨⟨⟨0, 10⟩, ⟨0, 11⟩⟩, "M"⟩] 1 =
      .ok ⟨"a", "namespace M;", 1⟩ by decide +kernel)
  rcases hmade (hnormal (by decide)) with ⟨next, disk, happly, hrenamed⟩ | ⟨_, _, _, hfailed⟩
  · exact ⟨_, next, hrename, congrArg Prod.fst happly, hrenamed⟩
  · exact absurd (congrArg Prod.fst (hanswer.symm.trans hfailed)) (by simp)

/-! ### A document behind a link -/

/-- A disk on which a link leads to a folder with a backslash in its name. -/
def linkedDisk : Disk :=
  { top := .folder
      [("a", .link "x\\y"), ("x\\y", .folder [("b", .file "namespace N;".toUTF8)])] }

/-- An engine that finds the file behind the link. -/
def linkedEngine : Engine :=
  { soloEngine with loadSolution := fun _ _ => .done ⟨"/", [⟨"solo", "text", [], "", ["/a/b"]⟩]⟩ }

/-- The document of that file. -/
def linkedDocument : Document := ⟨"x\\y/b", "namespace N;", 0⟩

/-- The workspace of that file. -/
def linkedSnapshot : Snapshot :=
  ⟨0, 0, "/", "/", [⟨"solo", "text", [], ".", ["x\\y/b"]⟩], [("x\\y/b", linkedDocument)], ""⟩

theorem prepareLoad_linked :
    (World.initial linkedDisk "").store.prepareLoad linkedEngine 0 "/" = .done ⟨linkedSnapshot⟩ := by
  have hexists : linkedDisk.pathExists "/" = true := by cbv
  have hcanonical : linkedDisk.canonical? "/" = some "/" := by cbv
  have hnormal : linkedDisk.normal? "/" "/a/b" = some "x\\y/b" := by cbv
  have hempty : linkedDisk.normal? "/" "" = some "" :=
    linkedDisk.normal?_ofRelative "/" [] (by simp) (by decide)
  have hread : linkedDisk.readSource (Path.join "/" "x\\y/b") = .ok (some "namespace N;") := by cbv
  have hmembers : Solution.memberPaths linkedDisk ⟨"/", [⟨"solo", "text", [], "", ["/a/b"]⟩]⟩ =
      .ok ["x\\y/b"] := Solution.memberPaths_of_single rfl hnormal
  have hdocuments : linkedDisk.readDocuments "/" ["x\\y/b"] = .ok [("x\\y/b", linkedDocument)] :=
    Disk.readDocuments_of_single hread
  have hprojects : Solution.describe linkedDisk ⟨"/", [⟨"solo", "text", [], "", ["/a/b"]⟩]⟩
      [("x\\y/b", linkedDocument)] = .ok [⟨"solo", "text", [], ".", ["x\\y/b"]⟩] :=
    Solution.describe_of_root _ hempty
  have hsolution : linkedEngine.loadSolution linkedDisk "/" =
      .done ⟨"/", [⟨"solo", "text", [], "", ["/a/b"]⟩]⟩ := rfl
  exact Store.prepareLoad_of_found { disk := linkedDisk, now := "" } 0 hexists hcanonical hsolution
    hmembers hdocuments hprojects

/-- The document is there and the rename knows where to edit it, but the workspace looks for it under
another path and refuses the edits. -/
theorem rename_refused_behind_link :
    ∃ events final edits,
      Runs (Step linkedEngine) (World.initial linkedDisk "") events final ∧
      final.store.published = some linkedSnapshot ∧ namespaceParser.Serves linkedSnapshot ∧
      renameEdits namespaceParser linkedSnapshot linkedDocument 10 "M" = .ok edits ∧
      final.store.applyEdits 0 0 edits =
        (.error (CoordinateError.documentNotFound "x/y/b").toError, final.store) := by
  have hprepared := Runs.nil.snoc (Step.prepareLoad List.not_mem_nil prepareLoad_linked)
  have hloaded := hprepared.snoc (.commitLoad List.mem_cons_self)
  refine ⟨_, _, [⟨"x\\y/b", [⟨⟨⟨0, 10⟩, ⟨0, 11⟩⟩, "M"⟩]⟩], hloaded, rfl, ?_, by decide +kernel, ?_⟩
  · intro d hmem
    obtain rfl : d = linkedDocument := List.mem_singleton.mp hmem
    exact ⟨namespaceTree, if_pos rfl, namespaceTree_fits _ _⟩
  · have hnormal : linkedDisk.normal? "/" "x\\y/b" = some "x/y/b" := by decide +kernel
    have hgroups : Store.grouped linkedDisk "/" [⟨"x\\y/b", [⟨⟨⟨0, 10⟩, ⟨0, 11⟩⟩, "M"⟩]⟩] =
        .ok [("x/y/b", [⟨⟨⟨0, 10⟩, ⟨0, 11⟩⟩, "M"⟩])] := by
      rw [Store.grouped, List.foldlM_cons,
        Snapshot.normalPath_eq_ok.mpr hnormal]
      rfl
    exact Store.applyEdits_of_misfit (by decide) (Store.ensureCurrent_eq_ok.mpr ⟨rfl, rfl, rfl⟩)
      (bind_eq_error.mpr (.inr ⟨_, hgroups, by decide +kernel⟩))

end CodeIntel.CSharp
