import CodeIntel.Proofs.CSharp.Definitions
import CodeIntel.Proofs.Service.Searches
import CodeIntel.Proofs.Source.Adjunction

/-! The uses of a name as a class. From every place at which a name is found the same places are found
again, for the range of a word leads back to its first byte and a cursor there means the word. The places
stand in path order and within a document in text order, so that none is found twice and a request, which
sorts them, changes nothing about them before it cuts the list off. -/

namespace CodeIntel

/-- A place comes before another one: its path does, or it starts earlier in the same document. -/
def Location.IsBefore (a b : Location) : Prop :=
  a.path < b.path ∨ (a.path = b.path ∧ a.range.start < b.range.start)

theorem Location.IsBefore.ne {a b : Location} (h : a.IsBefore b) : a ≠ b := by
  rintro rfl
  rcases h with hpath | ⟨-, hstart⟩
  · exact lt_irrefl _ hpath
  · rw [Position.lt_def] at hstart
    omega

theorem Plan.placePrecedes_of_isBefore {a b : Location} (h : a.IsBefore b) :
    placePrecedes Location.path (fun place => place.range.start) a b = true := by
  rw [placePrecedes, compareLex, Ordering.isLE_then_iff_or]
  simp only [compareOn, compare_lt_iff_lt, compare_eq_iff_eq]
  refine h.imp_right (And.imp_right fun hstart => ?_)
  rw [Position.compare_eq_lt.mpr hstart]
  rfl

/-- Places in order, each once, are not moved by sorting. -/
theorem Plan.mergeSort_of_isBefore {places : List Location} (h : places.Pairwise Location.IsBefore) :
    places.mergeSort (placePrecedes Location.path fun place => place.range.start) = places :=
  List.mergeSort_of_pairwise (h.imp placePrecedes_of_isBefore)

namespace Document.WordsAt

variable {d : Document} {word : String} {spans : List Span} {span : Span}

/-- The range of a word begins at the first byte of the word. -/
theorem offsetAt_start (h : d.WordsAt word spans) (hmem : span ∈ spans) :
    d.offsetAt (d.extent span).start = .ok span.start := by
  have hslice := h.stands span hmem
  refine Document.offsetAt_start hslice (start_lt_stop hslice fun hnil => ?_)
    (not_insideEnd hslice h.isWord)
  exact h.isWord.ne_nil (String.toList_eq_nil_iff.mpr hnil)

/-- The ranges of words stand in the order of the words. -/
theorem starts_ordered (h : d.WordsAt word spans) :
    spans.Pairwise fun first second => (d.extent first).start < (d.extent second).start := by
  refine h.ordered.imp_of_mem fun {first second} hfirst hsecond hbehind => ?_
  have hwide : first.start < first.stop := start_lt_stop (h.stands first hfirst) fun hnil =>
    h.isWord.ne_nil (String.toList_eq_nil_iff.mpr hnil)
  exact (Lines.lt_iff_offset_lt (h.offsetAt_start hfirst) (h.offsetAt_start hsecond)).mpr (by omega)

end Document.WordsAt

namespace Plan

variable {engine : Engine} {store now : Store} {snapshot : Snapshot} {d : Document} {cursor : Cursor}
  {offset most : Nat} {symbol : SymbolAtPosition} {places : List Location}

/-- A cursor in a document stands at the offset of its position. -/
theorem anchorOf_eq_ok (hdocument : snapshot.document? d.path = some d)
    (hfile : store.disk.normal? snapshot.root cursor.file = some d.path)
    (hoffset : d.offsetAt cursor.position = .ok offset) :
    anchorOf store snapshot cursor = .ok ⟨d.path, offset, cursor.position⟩ := by
  have hpath := mapError_eq_ok.mp (Snapshot.normalPath_eq_ok.mpr hfile)
  rw [anchorOf, mapError_eq_ok, Snapshot.anchor, hpath]
  simp only [bind, Except.bind, hdocument, hoffset]
  rfl

theorem fileOf_eq_ok {file : String} (hdocument : snapshot.document? d.path = some d)
    (hfile : store.disk.normal? snapshot.root file = some d.path) :
    fileOf store snapshot file = .ok d.path := by
  have hpath := mapError_eq_ok.mp (Snapshot.normalPath_eq_ok.mpr hfile)
  rw [fileOf, mapError_eq_ok, Snapshot.locate, hpath]
  simp only [bind, Except.bind, hdocument]
  rfl

/-- A request for the uses of a name answers with the beginning of what the engine finds, if the engine
finds it in order. -/
theorem carriedOut_findReferences (hpublished : store.published = some snapshot)
    (hdocument : snapshot.document? d.path = some d)
    (hfile : store.disk.normal? snapshot.root cursor.file = some d.path)
    (hoffset : d.offsetAt cursor.position = .ok offset) (hmost : 1 ≤ most)
    (hsymbol : engine.symbolAt snapshot d offset = .done (some symbol))
    (hplaces : engine.references snapshot d offset = .done places)
    (hordered : places.Pairwise Location.IsBefore) :
    carriedOut now false (findReferences engine store cursor most) =
      (.ok (.references ⟨symbol.name, places.take most, places.length, most < places.length⟩), now) := by
  have hbound : checkBound "maxResults" most = .ok () := by
    rw [checkBound, if_neg (Nat.ne_of_gt hmost)]
  have hanchor : anchorOf store snapshot cursor = .ok ⟨d.path, offset, cursor.position⟩ :=
    anchorOf_eq_ok hdocument hfile hoffset
  have hplan : ∃ compute, findReferences engine store cursor most = .ok (.work compute) ∧
      compute now = .done (.reply
        (.references ⟨symbol.name, places.take most, places.length, most < places.length⟩)) := by
    refine ⟨_, bind_eq_ok.mpr ⟨(), hbound, bind_eq_ok.mpr ⟨snapshot, Store.current_eq_ok.mpr hpublished,
      bind_eq_ok.mpr ⟨_, hanchor, rfl⟩⟩⟩, ?_⟩
    refine Outcome.bind_eq_done.mpr ⟨_, Outcome.bind_eq_done.mpr ⟨d, ?_, Outcome.bind_eq_done.mpr
      ⟨some symbol, Outcome.mapError_eq_done.mpr hsymbol, Outcome.bind_eq_done.mpr
        ⟨places, Outcome.mapError_eq_done.mpr hplaces, rfl⟩⟩⟩, ?_⟩
    · rw [documentOf, hdocument]
    · simp only [mergeSort_of_isBefore hordered]
      rfl
  obtain ⟨compute, hplan, hcompute⟩ := hplan
  rw [hplan, carriedOut_of_reply hcompute]

end Plan

namespace CSharp

section

variable {parser : Parser} {snapshot : Snapshot} {d : Document} {own : Index} {offset : Nat}
  {name : String}

/-- The places at which a word stands are in order. -/
theorem uses_ordered (hserves : parser.Serves snapshot) (hfiled : Filed snapshot.documents)
    (hword : Text.IsWord name.toList) :
    (uses parser snapshot name).Pairwise Location.IsBefore := by
  refine List.pairwise_flatMap.mpr ⟨fun d hmem => ?_, ?_⟩
  · exact List.pairwise_map.mpr ((hserves.wordsAt hmem hword).starts_ordered.imp fun hstart =>
      .inr ⟨rfl, hstart⟩)
  · refine hfiled.ordered.imp fun {first second} hpath place hplace other hother => ?_
    obtain ⟨span, -, rfl⟩ := List.mem_map.mp hplace
    obtain ⟨span', -, rfl⟩ := List.mem_map.mp hother
    exact .inl hpath

/-- From every place at which a word stands all of these places are found again. -/
theorem references_of_mem_uses (hserves : parser.Serves snapshot) (hfiled : Filed snapshot.documents)
    (hword : Text.IsWord name.toList) {place : Location} (hplace : place ∈ uses parser snapshot name) :
    ∃ e start, snapshot.document? place.path = some e ∧ e.offsetAt place.range.start = .ok start ∧
      references parser snapshot e start = .ok (uses parser snapshot name) := by
  obtain ⟨e, hmem, hplace⟩ := List.mem_flatMap.mp hplace
  obtain ⟨span, hspan, rfl⟩ := List.mem_map.mp hplace
  refine ⟨e, span.start, Snapshot.document?_of_mem hfiled hmem,
    (hserves.wordsAt hmem hword).offsetAt_start hspan, ?_⟩
  obtain ⟨token, htoken, rfl⟩ := List.mem_map.mp hspan
  obtain ⟨hmember, hname⟩ := List.mem_filter.mp htoken
  obtain rfl : token.name = name := of_decide_eq_true hname
  have hne : token.name ≠ "" := fun hnil => hword.ne_nil (String.toList_eq_nil_iff.mpr hnil)
  obtain ⟨whole, hlined⟩ := hserves.nests.lined hmem
  have hwide := Document.start_lt_stop (hserves.nests.slice?_eq hmem hmember) hne
  exact references_eq_uses hserves hmem (Index.identifierAt?_start hlined hmember hwide) hne

theorem symbolAt_of_identifierAt? (hserves : parser.Serves snapshot) (hmem : d ∈ snapshot.allDocuments)
    {token : Token} (htoken : (indexed parser d).identifierAt? offset = some token) :
    symbolAt parser d offset =
      .ok (some ⟨token.name, d.path, d.extent token.span, ownDeclaration? (indexed parser d) token⟩) := by
  obtain ⟨-, t, hparse, hnests, -⟩ := hserves.nests.indexOf_eq hmem
  rw [symbolAt_of_inText hparse hnests.inText, htoken]
  rfl

/-- Whenever a cursor is in an identifier or at one of its ends, the uses of the name that it means are
found: the identifier itself exactly once, and all of them in path order and then in text order. From the
start of any of them the same list is found. A request for them shows the beginning of this list up to its
bound, and says how long the list is and whether the bound cuts it off. -/
theorem references_form_classes (hserves : parser.Serves snapshot) (hfiled : Filed snapshot.documents)
    (hmem : d ∈ snapshot.allDocuments) (hown : indexOf parser d = .ok own) {token : Token}
    (htoken : token ∈ own.identifiers) (hwide : token.span.start < token.span.stop)
    (htouches : token.span.touches offset = true) :
    ∃ chosen here places, own.identifierAt? offset = some chosen ∧
      location d chosen.span = .ok here ∧ references parser snapshot d offset = .ok places ∧
      places.count here = 1 ∧ places.Pairwise Location.IsBefore ∧
      (∀ place ∈ places, ∃ e start, snapshot.document? place.path = some e ∧
        e.offsetAt place.range.start = .ok start ∧
        references parser snapshot e start = .ok places) ∧
      ∀ (store : Store) (request : Request) (cursor : Cursor) (most : Nat),
        store.published = some snapshot → request.Asks (.findReferences cursor most) →
        store.disk.normal? snapshot.root cursor.file = some d.path →
        d.offsetAt cursor.position = .ok offset → 1 ≤ most →
        dispatch (engine parser) store request false =
          (.ok (.references ⟨chosen.name, places.take most, places.length, most < places.length⟩),
            store.drawn) := by
  obtain rfl := indexed_of_indexOf hown
  obtain ⟨whole, hlined⟩ := hserves.nests.lined hmem
  obtain ⟨chosen, hchosen, hwide⟩ := Index.exists_identifierAt? hlined htoken hwide htouches
  have hmember := Index.mem_of_identifierAt? hchosen
  have hslice := hserves.nests.slice?_eq hmem hmember
  have hname : chosen.name ≠ "" := by
    intro hnil
    obtain ⟨_, _, -, -, hstop⟩ := Document.exists_of_slice? hslice
    rw [hnil] at hstop
    exact absurd hstop (Nat.ne_of_lt hwide)
  have hword := hserves.isWord hmem hmember hname
  have hreferences := references_eq_uses hserves hmem hchosen hname
  have hordered := uses_ordered hserves hfiled hword
  have hhere : placeOf d chosen.span ∈ uses parser snapshot chosen.name :=
    List.mem_flatMap.mpr ⟨d, hmem, List.mem_map_of_mem (List.mem_map_of_mem
      (List.mem_filter.mpr ⟨hmember, decide_eq_true rfl⟩))⟩
  have hnodup : (uses parser snapshot chosen.name).Nodup := hordered.imp Location.IsBefore.ne
  refine ⟨chosen, _, _, hchosen, location_of_slice? hslice, hreferences,
    List.count_eq_one_of_mem hnodup hhere, hordered,
    fun place hplace => references_of_mem_uses hserves hfiled hword hplace, ?_⟩
  intro store request cursor most hpublished hasks hfile hoffset hmost
  have hsymbol := Outcome.ofExcept_eq_done.mpr (symbolAt_of_identifierAt? hserves hmem hchosen)
  have hfound : (engine parser).references snapshot d offset = .done (uses parser snapshot chosen.name) :=
    Outcome.ofExcept_eq_done.mpr hreferences
  rw [dispatch_of_asks hasks]
  exact Plan.carriedOut_findReferences hpublished (Snapshot.document?_of_mem hfiled hmem) hfile hoffset
    hmost hsymbol hfound hordered

end

/-- A method called in two documents, with the text of each line in which it stands. -/
def calleeUses : List Location :=
  [⟨"a", ⟨⟨0, 32⟩, ⟨0, 33⟩⟩, overloadText⟩, ⟨"a", ⟨⟨0, 42⟩, ⟨0, 43⟩⟩, overloadText⟩,
    ⟨"b", ⟨⟨0, 32⟩, ⟨0, 33⟩⟩, overloadText⟩, ⟨"b", ⟨⟨0, 42⟩, ⟨0, 43⟩⟩, overloadText⟩]

theorem overloadParser_serves_pair : overloadParser.Serves (pairSnapshot overloadText overloadText) := by
  intro d hmem
  rcases mem_pairSnapshot.mp hmem with rfl | rfl
  all_goals exact ⟨overloadTree, if_pos rfl, overloadTree_fits _ _⟩

/-- From behind the call in the second document all four uses are found. A request that allows for three of
them shows the first three, and says that there are four. -/
theorem callee_uses_cut_off :
    let store := (soloWorld "" (some (pairSnapshot overloadText overloadText)) [] [0]).store
    references overloadParser (pairSnapshot overloadText overloadText) ⟨"b", overloadText, 0⟩ 33 =
        .ok calleeUses ∧
      (dispatch (engine overloadParser) store
        ⟨"FindReferences", .array [.string "b", .nat 0, .nat 33, .nat 3]⟩ false).1 =
          .ok (.references ⟨"G", calleeUses.take 3, 4, true⟩) := by
  have hmem : (⟨"b", overloadText, 0⟩ : Document) ∈ (pairSnapshot overloadText overloadText).allDocuments :=
    mem_pairSnapshot.mpr (.inr rfl)
  have hindex := (overloadParser_serves_pair.nests.indexOf_eq hmem).1
  have htoken : (⟨"G", ⟨32, 33⟩⟩ : Token) ∈ (indexed overloadParser ⟨"b", overloadText, 0⟩).identifiers := by
    decide +kernel
  have huses : references overloadParser (pairSnapshot overloadText overloadText) ⟨"b", overloadText, 0⟩ 33 =
      .ok calleeUses := by decide +kernel
  have hasks : Request.Asks ⟨"FindReferences", .array [.string "b", .nat 0, .nat 33, .nat 3]⟩
      (.findReferences ⟨"b", 0, 33⟩ 3) := ⟨.findReferences, rfl, rfl⟩
  obtain ⟨chosen, here, places, hchosen, -, hplaces, -, -, -, hanswer⟩ :=
    references_form_classes overloadParser_serves_pair (filed_pairSnapshot _ _) hmem hindex htoken (by decide)
      (show Span.touches ⟨32, 33⟩ 33 = true by decide)
  have hown : (indexed overloadParser ⟨"b", overloadText, 0⟩).identifierAt? 33 = some ⟨"G", ⟨32, 33⟩⟩ := by
    decide +kernel
  obtain rfl := Option.some.inj (hchosen.symm.trans hown)
  obtain rfl := Except.ok.inj (hplaces.symm.trans huses)
  exact ⟨huses, congrArg Prod.fst (hanswer _ _ ⟨"b", 0, 33⟩ 3 rfl hasks (by decide +kernel)
    (by decide +kernel) (by decide))⟩

/-- A store with the document of the namespace. -/
def namespaceStore : Store := (soloWorld "namespace N;" (some (soloSnapshot 0 0 "namespace N;")) [] [0]).store

theorem references_namespaceDocument :
    references namespaceParser (soloSnapshot 0 0 "namespace N;") namespaceDocument 10 =
      .ok [⟨"a", ⟨⟨0, 10⟩, ⟨0, 11⟩⟩, "namespace N;"⟩] := by
  decide +kernel

/-- A request that allows for no use at all is refused, although there is one. -/
theorem no_use_allowed :
    references namespaceParser (soloSnapshot 0 0 "namespace N;") namespaceDocument 10 =
        .ok [⟨"a", ⟨⟨0, 10⟩, ⟨0, 11⟩⟩, "namespace N;"⟩] ∧
      dispatch (engine namespaceParser) namespaceStore
          ⟨"FindReferences", .array [.string "a", .nat 0, .nat 10, .nat 0]⟩ false =
        (.error (.invalidArgument "maxResults must be at least 1"), namespaceStore.drawn) := by
  have hasks : Request.Asks ⟨"FindReferences", .array [.string "a", .nat 0, .nat 10, .nat 0]⟩
      (.findReferences ⟨"a", 0, 10⟩ 0) := ⟨.findReferences, rfl, rfl⟩
  refine ⟨references_namespaceDocument, ?_⟩
  rw [dispatch_of_asks hasks]
  rfl

end CSharp

end CodeIntel
