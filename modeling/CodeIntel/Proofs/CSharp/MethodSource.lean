import CodeIntel.Proofs.CSharp.TypeMembers

/-! The source of a method. The span of a method becomes a range when its document is indexed, and the range
becomes a piece of the text again when the source is read. If no method begins or ends inside the end of a
line, this is the text of the node that declares the method, whatever the line ends and the characters of the
text are. -/

namespace CodeIntel

namespace Plan

variable {engine : Engine} {snapshot : Snapshot} {request : MethodSourceRequest} {members : TypeMembers}

/-- The first type of a name in a document is found, and the search goes on behind a document without one. -/
theorem findType_cons {d : Document} {name : String} {documents : List Document} {symbols : List SymbolInfo}
    (hask : ask (engine.documentSymbols d) = .done symbols) :
    findType engine name (d :: documents) =
      (symbols.find? (isTypeNamed name)).elim (findType engine name documents) fun type =>
        .done (type, symbols) := by
  rw [findType, hask]
  simp only [bind, Outcome.andThen, pure]
  split
  · rename_i type htype
    have hfound : symbols.find? (isTypeNamed name) = some type := htype
    rw [hfound, Option.elim_some]
  · rename_i htype
    have hnone : symbols.find? (isTypeNamed name) = none := htype
    rw [hnone, Option.elim_none]

/-- The source of the first callable of a name is what stands between the ends of its range. -/
theorem methodSource_eq {method : SymbolInfo} {others : List SymbolInfo} {d : Document} {start stop : Nat}
    {source : String} (hname : Text.trimmed request.methodName ≠ "")
    (hmembers : typeMembers engine snapshot request.typeName = .done members)
    (hmatching : members.members.filter (isCallableNamed request.methodName) = method :: others)
    (hdocument : documentOf snapshot method.path = .done d)
    (hstart : d.offsetAt method.range.start = .ok start) (hstop : d.offsetAt method.range.stop = .ok stop)
    (hsource : d.slice? ⟨start, stop⟩ = some source) :
    methodSource engine snapshot request = .done
      ⟨request.typeName, request.methodName, method.path, method.range, source, others.length⟩ := by
  have hfilter : (members.members.filter fun member =>
      member.kind.isCallable && member.name == request.methodName) = method :: others := hmatching
  rw [methodSource, if_neg hname, hmembers]
  simp only [bind, Outcome.andThen, hfilter, hdocument, hstart, hstop, Outcome.ofExcept, Outcome.mapError,
    textBetween, hsource, pure]

/-- Without a callable of the name the method is not found. -/
theorem methodSource_of_none (hname : Text.trimmed request.methodName ≠ "")
    (hmembers : typeMembers engine snapshot request.typeName = .done members)
    (hnone : ∀ member ∈ members.members, isCallableNamed request.methodName member = false) :
    ∃ message, methodSource engine snapshot request = .failed (.notFound message) := by
  have hfilter : (members.members.filter fun member =>
      member.kind.isCallable && member.name == request.methodName) = [] :=
    List.filter_eq_nil_iff.mpr fun member hmember => Bool.eq_false_iff.mp (hnone member hmember)
  rw [methodSource, if_neg hname, hmembers]
  simp only [bind, Outcome.andThen, hfilter]
  exact ⟨_, rfl⟩

end Plan

namespace Tree

/-- No method or constructor begins or ends inside the end of a line. -/
def AddressesMethods (d : Document) (t : Tree) : Prop :=
  ∀ node ∈ t.subtrees, node.isCallable = true → d.Addressed node.span

end Tree

namespace CSharp

/-- The methods of every document of a snapshot are of this form. -/
def Parser.AddressesMethods (parser : Parser) (snapshot : Snapshot) : Prop :=
  ∀ d ∈ snapshot.allDocuments, ∀ t, parser d.text = some t → t.AddressesMethods d

section

variable {parser : Parser} {snapshot : Snapshot} {d : Document} {name : String} {type : SymbolInfo}
  {index : Index} {members : TypeMembers} {request : MethodSourceRequest} {symbols : List SymbolInfo}
  {documents : List Document}

theorem onlyFails_indexOf (parser : Parser) (d : Document) : Visit.OnlyFails (indexOf parser d) := by
  unfold indexOf
  split
  · exact Index.onlyFails_build d _
  · intro fault hfault
    exact ⟨_, (Except.error.inj hfault).symm⟩

/-- All documents have been read, and none declares a type of a name. -/
def Absent (parser : Parser) (name : String) (documents : List Document) : Prop :=
  ∀ d ∈ documents, ∃ index, indexOf parser d = .ok index ∧
    ∀ symbol ∈ index.symbols, Plan.isTypeNamed name symbol = false

/-- How the search for a type ends. -/
inductive Search (parser : Parser) (name : String) (documents : List Document) :
    Outcome Error (SymbolInfo × List SymbolInfo) → Prop where
  | found {d : Document} {index : Index} {type : SymbolInfo} : d ∈ documents → indexOf parser d = .ok index →
      index.symbols.find? (Plan.isTypeNamed name) = some type →
      Search parser name documents (.done (type, index.symbols))
  | absent (message : String) : Absent parser name documents →
      Search parser name documents (.failed (.notFound message))
  | broken (message : String) {d : Document} {fault : EngineError} : d ∈ documents →
      indexOf parser d = .error fault → Search parser name documents (.failed (.internal message))

theorem search_findType (parser : Parser) (name : String) (documents : List Document) :
    Search parser name documents (Plan.findType (engine parser) name documents) := by
  induction documents with
  | nil => exact .absent _ fun _ hmem => absurd hmem List.not_mem_nil
  | cons d rest ih =>
      have hask : Plan.ask ((engine parser).documentSymbols d) =
          (Outcome.ofExcept ((indexOf parser d).map Index.symbols)).mapError EngineError.toError := rfl
      cases hindex : indexOf parser d with
      | error fault =>
          obtain ⟨message, rfl⟩ := onlyFails_indexOf parser d _ hindex
          rw [Plan.findType, hask, hindex]
          exact .broken _ List.mem_cons_self hindex
      | ok index =>
          rw [hindex] at hask
          rw [Plan.findType_cons hask]
          cases hfound : index.symbols.find? (Plan.isTypeNamed name) with
          | some type => exact .found List.mem_cons_self hindex hfound
          | none =>
              rw [Option.elim_none]
              generalize Plan.findType (engine parser) name rest = outcome at ih
              cases ih with
              | found hmem hindex' hfound' => exact .found (List.mem_cons_of_mem _ hmem) hindex' hfound'
              | absent message hnone =>
                  refine .absent message (List.forall_mem_cons.mpr ⟨⟨index, hindex, fun symbol hsymbol => ?_⟩,
                    hnone⟩)
                  exact Bool.eq_false_iff.mpr (List.find?_eq_none.mp hfound symbol hsymbol)
              | broken message hmem hindex' => exact .broken message (List.mem_cons_of_mem _ hmem) hindex'

/-- The members of a type are symbols of one document. -/
theorem exists_of_typeMembers (h : Plan.typeMembers (engine parser) snapshot name = .done members) :
    ∃ d ∈ snapshot.allDocuments, ∃ index, indexOf parser d = .ok index ∧
      ∀ member ∈ members.members, member ∈ index.symbols := by
  unfold Plan.typeMembers at h
  split at h
  · cases h
  obtain ⟨⟨type, symbols⟩, hfound, h⟩ := Outcome.bind_eq_done.mp h
  obtain rfl := Outcome.done.inj h
  obtain ⟨d, hmem, hsymbols, -⟩ := Plan.exists_of_findType hfound
  obtain ⟨index, hindex, rfl⟩ := documentSymbols_eq_done.mp hsymbols
  exact ⟨d, hmem, index, hindex, fun member hmember => (List.mem_filter.mp hmember).1⟩

/-- The first callable of a name among some members, with the text of the node that declares it. -/
structure Source (parser : Parser) (snapshot : Snapshot) (name : String) (members : TypeMembers)
    (found : MethodSource) (method : SymbolInfo) (others : List SymbolInfo) (d : Document) (t : Tree)
    (x : Declaration) (node : Tree) : Prop where
  matching : members.members.filter (Plan.isCallableNamed name) = method :: others
  path : found.path = method.path
  range : found.range = method.range
  overloads : found.overloads = others.length
  document : d ∈ snapshot.allDocuments
  tree : parser d.text = some t
  declared : ∃ index, indexOf parser d = .ok index ∧ x ∈ index.declarations
  symbol : x.symbol = method
  placed : node ∈ t.subtrees ∧ node.isCallable = true ∧ node.span = x.span
  text : node.text? d = some found.source

/-- A callable among the members of a type has its text for its source. -/
theorem exists_source (h : parser.AddressesMethods snapshot) (hfiled : Filed snapshot.documents)
    (hmembers : Plan.typeMembers (engine parser) snapshot request.typeName = .done members)
    (hname : Text.trimmed request.methodName ≠ "") {method : SymbolInfo} {others : List SymbolInfo}
    (hmatching : members.members.filter (Plan.isCallableNamed request.methodName) = method :: others) :
    ∃ found d t x node, Plan.methodSource (engine parser) snapshot request = .done found ∧
      Source parser snapshot request.methodName members found method others d t x node := by
  obtain ⟨d, hmem, index, hindex, hsymbols⟩ := exists_of_typeMembers hmembers
  have hmatches : method ∈ members.members.filter (Plan.isCallableNamed request.methodName) :=
    hmatching ▸ List.mem_cons_self
  obtain ⟨hmember, hcallable⟩ := List.mem_filter.mp hmatches
  obtain ⟨x, hx, rfl⟩ := List.mem_map.mp (hsymbols method hmember)
  have hkind : x.symbol.kind.isCallable = true := (Bool.and_eq_true_iff.mp hcallable).1
  cases hparse : parser d.text with
  | none =>
      rw [indexOf, hparse] at hindex
      cases hindex
  | some t =>
      have hbuild := hindex
      rw [indexOf, hparse] at hbuild
      have hrecords := Index.records_of_build hbuild
      obtain ⟨member, node, name, hstands, hnode, -, hspan, -⟩ := hrecords.placed x hx hkind
      have haddressed := h d hmem t hparse node hstands.mem_subtrees hnode
      obtain ⟨source, hsource⟩ := haddressed.inText
      have hmade := hrecords.made x hx
      have hdocument : Plan.documentOf snapshot x.symbol.path = .done d := by
        rw [Plan.documentOf, hmade.path, Snapshot.document?_of_mem hfiled hmem]
      have hstart : d.offsetAt x.symbol.range.start = .ok node.span.start := by
        rw [hmade.range, hspan]
        exact haddressed.offsetAt_start
      have hstop : d.offsetAt x.symbol.range.stop = .ok node.span.stop := by
        rw [hmade.range, hspan]
        exact haddressed.offsetAt_stop
      exact ⟨_, d, t, x, node,
        Plan.methodSource_eq hname hmembers hmatching hdocument hstart hstop hsource,
        hmatching, rfl, rfl, rfl, hmem, hparse, ⟨index, hindex, hx⟩, rfl,
        ⟨hstands.mem_subtrees, hnode, hspan.symm⟩, hsource⟩

/-- How the search for the members of a type ends, if the name of the type is not blank. -/
theorem typeMembers_cases (parser : Parser) (snapshot : Snapshot) (hname : Text.trimmed name ≠ "") :
    (¬ Absent parser name snapshot.allDocuments ∧
      ∃ members, Plan.typeMembers (engine parser) snapshot name = .done members) ∨
    (Absent parser name snapshot.allDocuments ∧
      ∃ message, Plan.typeMembers (engine parser) snapshot name = .failed (.notFound message)) ∨
    ¬ Absent parser name snapshot.allDocuments ∧
      ∃ message, Plan.typeMembers (engine parser) snapshot name = .failed (.internal message) := by
  have hsearch := search_findType parser name snapshot.allDocuments
  rw [Plan.typeMembers, if_neg hname]
  generalize Plan.findType (engine parser) name snapshot.allDocuments = outcome at hsearch
  cases hsearch with
  | found hmem hindex hfound =>
      refine .inl ⟨fun habsent => ?_, _, rfl⟩
      obtain ⟨index, hindex', hnone⟩ := habsent _ hmem
      obtain rfl := Except.ok.inj (hindex.symm.trans hindex')
      have hnamed := List.find?_some hfound
      exact Bool.false_ne_true ((hnone _ (List.mem_of_find?_eq_some hfound)).symm.trans hnamed)
  | absent message hnone => exact .inr (.inl ⟨hnone, message, rfl⟩)
  | broken message hmem hindex =>
      refine .inr (.inr ⟨fun habsent => ?_, message, rfl⟩)
      obtain ⟨index, hindex', -⟩ := habsent _ hmem
      cases hindex.symm.trans hindex'

/-- How a request for the source of a method ends. -/
inductive Sourced (parser : Parser) (snapshot : Snapshot) (request : MethodSourceRequest) :
    Outcome Error MethodSource → Prop where
  | blank (message : String) : ¬ (Text.trimmed request.typeName ≠ "" ∧ Text.trimmed request.methodName ≠ "") →
      Sourced parser snapshot request (.failed (.invalidArgument message))
  | absent (message : String) : Absent parser request.typeName snapshot.allDocuments →
      (∀ members, Plan.typeMembers (engine parser) snapshot request.typeName ≠ .done members) →
      Sourced parser snapshot request (.failed (.notFound message))
  | broken (message : String) : ¬ Absent parser request.typeName snapshot.allDocuments →
      (∀ members, Plan.typeMembers (engine parser) snapshot request.typeName ≠ .done members) →
      Sourced parser snapshot request (.failed (.internal message))
  | missing (message : String) {members : TypeMembers} :
      Plan.typeMembers (engine parser) snapshot request.typeName = .done members →
      (∀ member ∈ members.members, Plan.isCallableNamed request.methodName member = false) →
      Sourced parser snapshot request (.failed (.notFound message))
  | found {members : TypeMembers} {found : MethodSource} {method : SymbolInfo} {others : List SymbolInfo}
      {d : Document} {t : Tree} {x : Declaration} {node : Tree} :
      ¬ Absent parser request.typeName snapshot.allDocuments →
      Plan.typeMembers (engine parser) snapshot request.typeName = .done members →
      Source parser snapshot request.methodName members found method others d t x node →
      Sourced parser snapshot request (.done found)

theorem sourced_methodSource (h : parser.AddressesMethods snapshot) (hfiled : Filed snapshot.documents)
    (request : MethodSourceRequest) :
    Sourced parser snapshot request (Plan.methodSource (engine parser) snapshot request) := by
  by_cases hname : Text.trimmed request.methodName = ""
  · rw [Plan.methodSource, if_pos hname]
    exact .blank _ fun hboth => hboth.2 hname
  by_cases htype : Text.trimmed request.typeName = ""
  · have hblank : Plan.typeMembers (engine parser) snapshot request.typeName =
        .failed (.invalidArgument "typeName must not be empty") := by rw [Plan.typeMembers, if_pos htype]
    rw [Plan.methodSource, if_neg hname, hblank]
    exact .blank _ fun hboth => hboth.1 htype
  rcases typeMembers_cases parser snapshot htype with
    ⟨hpresent, members, hmembers⟩ | ⟨habsent, message, hfailed⟩ | ⟨hpresent, message, hfailed⟩
  · cases hmatching : members.members.filter (Plan.isCallableNamed request.methodName) with
    | nil =>
        have hnone := fun member hmember =>
          Bool.eq_false_iff.mpr (List.filter_eq_nil_iff.mp hmatching member hmember)
        obtain ⟨message, hmissing⟩ := Plan.methodSource_of_none hname hmembers hnone
        rw [hmissing]
        exact .missing message hmembers hnone
    | cons method others =>
        obtain ⟨found, d, t, x, node, hfound, hsource⟩ := exists_source h hfiled hmembers hname hmatching
        rw [hfound]
        exact .found hpresent hmembers hsource
  · rw [Plan.methodSource, if_neg hname, hfailed]
    exact .absent message habsent (by simp [hfailed])
  · rw [Plan.methodSource, if_neg hname, hfailed]
    exact .broken message hpresent (by simp [hfailed])

/-- The source of a method is the text of the node that declares the first callable of its name among the
members of the type. A method is not found exactly if no document declares the type, or if none of its members
is a callable of the name; if one is, there is a source. The text is never cut between ends in the wrong
order. -/
theorem method_source_exact (h : parser.AddressesMethods snapshot) (hfiled : Filed snapshot.documents)
    (request : MethodSourceRequest) :
    (∀ found, Plan.methodSource (engine parser) snapshot request = .done found →
      ∃ members method others d t x node,
        Plan.typeMembers (engine parser) snapshot request.typeName = .done members ∧
        Source parser snapshot request.methodName members found method others d t x node) ∧
    (Text.trimmed request.typeName ≠ "" → Text.trimmed request.methodName ≠ "" →
      ((∃ message, Plan.methodSource (engine parser) snapshot request = .failed (.notFound message)) ↔
        Absent parser request.typeName snapshot.allDocuments ∨
        ∃ members, Plan.typeMembers (engine parser) snapshot request.typeName = .done members ∧
          ∀ member ∈ members.members, Plan.isCallableNamed request.methodName member = false) ∧
      ((∃ found, Plan.methodSource (engine parser) snapshot request = .done found) ↔
        ∃ members, Plan.typeMembers (engine parser) snapshot request.typeName = .done members ∧
          ∃ member ∈ members.members, Plan.isCallableNamed request.methodName member = true)) ∧
    ∀ report, Plan.methodSource (engine parser) snapshot request ≠ .crashed report := by
  have hsourced := sourced_methodSource h hfiled request
  refine ⟨fun found hfound => ?_, fun htype hname => ⟨⟨?_, ?_⟩, ?_, ?_⟩, fun report hcrashed => ?_⟩
  · rw [hfound] at hsourced
    cases hsourced with
    | found _ hmembers hsource => exact ⟨_, _, _, _, _, _, _, hmembers, hsource⟩
  · rintro ⟨message, hfailed⟩
    rw [hfailed] at hsourced
    cases hsourced with
    | absent _ habsent => exact .inl habsent
    | missing _ hmembers hnone => exact .inr ⟨_, hmembers, hnone⟩
  · rintro (habsent | ⟨members, hmembers, hnone⟩)
    · generalize Plan.methodSource (engine parser) snapshot request = outcome at hsourced
      cases hsourced with
      | blank _ hblank => exact absurd ⟨htype, hname⟩ hblank
      | absent message | missing message => exact ⟨message, rfl⟩
      | broken _ hpresent | found hpresent => exact absurd habsent hpresent
    · exact Plan.methodSource_of_none hname hmembers hnone
  · rintro ⟨found, hfound⟩
    rw [hfound] at hsourced
    cases hsourced with
    | @found members _ method _ _ _ _ _ _ hmembers hsource =>
        have hmatches : method ∈ members.members.filter (Plan.isCallableNamed request.methodName) :=
          hsource.matching ▸ List.mem_cons_self
        exact ⟨members, hmembers, method, List.mem_filter.mp hmatches⟩
  · rintro ⟨members, hmembers, member, hmember, hcallable⟩
    have hmatches : member ∈ members.members.filter (Plan.isCallableNamed request.methodName) :=
      List.mem_filter.mpr ⟨hmember, hcallable⟩
    obtain ⟨method, others, hmatching⟩ := List.exists_cons_of_ne_nil (List.ne_nil_of_mem hmatches)
    obtain ⟨found, _, _, _, _, hfound, -⟩ := exists_source h hfiled hmembers hname hmatching
    exact ⟨found, hfound⟩
  · rw [hcrashed] at hsourced
    cases hsourced

end

/-! ### A method over two lines -/

/-- The document of a class whose name has two bytes, with a method that goes on in the next line. -/
def splitDocument : Document := ⟨"a", "class É\x7bvoid F()\r\n\x7b\x7d\x7d", 0⟩

/-- The tree of the class. -/
def splitTree : Tree :=
  soundNode "compilation_unit" true 0 22 []
    [soundNode "class_declaration" true 0 22 [("body", 2), ("name", 1)]
      [soundNode "class" false 0 5 [] [], soundNode "identifier" true 6 8 [] [],
        bracketed "declaration_list" "\x7b" "\x7d" 8 22
          [methodTree 9 14 (bracketed "parameter_list" "(" ")" 15 17 [])
            (bracketed "block" "\x7b" "\x7d" 19 21 [])]]]

/-- A parser that knows the class. -/
def splitParser : Parser := fun text => if text = splitDocument.text then some splitTree else none

/-- The source of the method is its text, with the end of the line and without what is around it. -/
theorem method_over_two_lines_found : ∃ found node,
    Plan.methodSource (engine splitParser) (soloSnapshot 0 0 splitDocument.text) ⟨"É", "F"⟩ = .done found ∧
      found.range = ⟨⟨0, 8⟩, ⟨1, 2⟩⟩ ∧ found.overloads = 0 ∧ node ∈ splitTree.subtrees ∧
      node.isCallable = true ∧ node.text? splitDocument = some found.source ∧
      found.source = "void F()\r\n\x7b\x7d" := by
  have hnodes : ∀ node ∈ splitTree.subtrees, node.isCallable = true →
      node.text? splitDocument = some "void F()\r\n\x7b\x7d" ∧
        splitDocument.slice? ⟨node.span.start - 1, node.span.start⟩ ≠ some "\r" ∧
        splitDocument.slice? ⟨node.span.stop - 1, node.span.stop⟩ ≠ some "\r" := by decide +kernel
  have haddresses : splitParser.AddressesMethods (soloSnapshot 0 0 splitDocument.text) := by
    intro d hmem t hparse node hnode hcallable
    obtain rfl : d = splitDocument := List.mem_singleton.mp hmem
    obtain rfl : splitTree = t := Option.some.inj ((if_pos rfl).symm.trans hparse)
    obtain ⟨htext, hstart, hstop⟩ := hnodes node hnode hcallable
    exact ⟨⟨_, htext⟩, fun h => hstart (Document.slice?_of_insideTerminator h),
      fun h => hstop (Document.slice?_of_insideTerminator h)⟩
  have hmembers : Plan.typeMembers (engine splitParser) (soloSnapshot 0 0 splitDocument.text) "É" =
      .done ⟨"É", .classType, "a",
        [⟨"F", .method, some "É", "a", ⟨⟨0, 8⟩, ⟨1, 2⟩⟩, ⟨⟨0, 13⟩, ⟨0, 14⟩⟩⟩]⟩ := by decide +kernel
  obtain ⟨htext, hends, -⟩ := method_source_exact haddresses (filed_soloSnapshot _) ⟨"É", "F"⟩
  obtain ⟨found, hfound⟩ := (hends (by decide) (by decide)).2.mpr
    ⟨_, hmembers, _, List.mem_cons_self, by decide⟩
  obtain ⟨members, method, others, d, t, x, node, hmembers', hsource⟩ := htext found hfound
  obtain rfl := Outcome.done.inj (hmembers.symm.trans hmembers')
  obtain rfl : d = splitDocument := List.mem_singleton.mp hsource.document
  obtain rfl : splitTree = t := Option.some.inj ((if_pos rfl).symm.trans hsource.tree)
  obtain ⟨hnode, hcallable, -⟩ := hsource.placed
  obtain ⟨rfl, rfl⟩ := List.cons.inj hsource.matching
  refine ⟨found, node, hfound, hsource.range, hsource.overloads, hnode, hcallable, hsource.text, ?_⟩
  exact Option.some.inj (hsource.text.symm.trans (hnodes node hnode hcallable).1)

end CSharp

end CodeIntel
