import CodeIntel.Proofs.CSharp.Definitions
import CodeIntel.Proofs.Tree.Methods

/-! Calls in both directions. A cursor on the name of a method means the first method of this name, its own
overloads included, whereas the definition of the name is the method itself. The calls that are made inside a
method are found by its span, those of a method by its name, and the member that makes a call has been
written down during the visit; the three agree on every call between methods. -/

namespace CodeIntel.CSharp

/-- The calls of a name in a snapshot, as those of a method. -/
def callSites (parser : Parser) (snapshot : Snapshot) (target : SymbolInfo) : List CallSite :=
  snapshot.allDocuments.flatMap fun d =>
    ((indexed parser d).invocations.filter fun call => call.callee = target.name).map fun call =>
      ⟨call.callee, call.caller, placeOf d call.nameSpan, some target⟩

/-- What a call of a name in a document means: the first callable or type of the name. -/
def meant? (parser : Parser) (snapshot : Snapshot) (d : Document) (name : String) : Option SymbolInfo :=
  (declarationsNamed (d, indexed parser d) (snapshot.allDocuments.map fun d => (d, indexed parser d))
    name).find? fun symbol => symbol.kind.isCallable || symbol.kind.isType

/-- A call site says of a call what the document has: the name, the place, and as its caller a method. -/
structure Reports (d : Document) (method : SymbolInfo) (call : Invocation) (site : CallSite) : Prop where
  callee : site.callee = call.callee
  location : location d call.nameSpan = .ok site.location
  caller : site.caller = some method.qualifiedName

section

variable {parser : Parser} {snapshot : Snapshot} {d e : Document} {offset : Nat} {x : Declaration}
  {method : SymbolInfo} {body : MethodInfo}

theorem Parser.Nests.location_call (h : parser.Nests snapshot) (hmem : d ∈ snapshot.allDocuments)
    {call : Invocation} (hcall : call ∈ (indexed parser d).invocations) :
    location d call.nameSpan = .ok (placeOf d call.nameSpan) := by
  obtain ⟨t, -, -, -, hrecords⟩ := h.records hmem
  obtain ⟨_, _, name, -, -, hspan, htext, -⟩ := hrecords.traces call hcall
  rw [hspan]
  exact location_of_slice? htext

/-- What is listed for the calls of a document reports these calls. -/
theorem Parser.Nests.reports (h : parser.Nests snapshot) (hmem : d ∈ snapshot.allDocuments)
    (inside : Invocation → Bool) :
    List.Forall₂ (Reports d method) ((indexed parser d).invocations.filter inside)
      (((indexed parser d).invocations.filter inside).map fun call =>
        ⟨call.callee, some method.qualifiedName, placeOf d call.nameSpan,
          meant? parser snapshot d call.callee⟩) := by
  rw [List.forall₂_map_right_iff, List.forall₂_same]
  exact fun call hcall => ⟨rfl, h.location_call hmem (List.mem_of_mem_filter hcall), rfl⟩

/-- The callers of a method are the calls of its name. -/
theorem callers_eq (h : parser.Nests snapshot) (hmethod : methodAt parser snapshot d offset = .ok method) :
    callers parser snapshot d offset = .ok (callSites parser snapshot method) := by
  have hsites : snapshot.allDocuments.mapM (fun document =>
      ((indexed parser document).invocations.filter fun call => call.callee = method.name).mapM fun call => do
        let place ← location document call.nameSpan
        return (⟨call.callee, call.caller, place, some method⟩ : CallSite)) =
      Except.ok (snapshot.allDocuments.map fun d =>
        ((indexed parser d).invocations.filter fun call => call.callee = method.name).map fun call =>
          ⟨call.callee, call.caller, placeOf d call.nameSpan, some method⟩) := by
    refine mapM_of_forall _ fun document hdocument => mapM_of_forall _ fun call hcall => ?_
    rw [h.location_call hdocument (List.mem_of_mem_filter hcall)]
    rfl
  rw [callers, hmethod, h.indexAll_eq]
  simp only [bind, Except.bind, List.mapM_map, Function.comp_def] at hsites ⊢
  rw [hsites, callSites, List.flatMap_def]
  rfl

/-- The outgoing calls of a method are the calls inside its body. -/
theorem outgoingCalls_eq (h : parser.Nests snapshot) (he : e ∈ snapshot.allDocuments)
    (hmethod : methodAt parser snapshot d offset = .ok method)
    (hdocument : snapshot.document? method.path = some e)
    (hbody : ((indexed parser e).methods.find? fun m => m.range = method.range) = some body) :
    outgoingCalls parser snapshot d offset =
      .ok (((indexed parser e).invocations.filter (isInside body.span)).map fun call =>
        ⟨call.callee, some method.qualifiedName, placeOf e call.nameSpan,
          meant? parser snapshot e call.callee⟩) := by
  rw [outgoingCalls, hmethod]
  simp only [bind, Except.bind, hdocument, Option.getD_some, (h.indexOf_eq he).1, hbody, h.indexAll_eq]
  cases hcalls : (indexed parser e).invocations.filter (isInside body.span) with
  | nil => rfl
  | cons first rest =>
      refine mapM_of_forall _ fun call hcall => ?_
      rw [← hcalls] at hcall
      rw [h.location_call he (List.mem_of_mem_filter hcall)]
      rfl

/-- Of the declarations of a name those of the own document come first. -/
theorem find?_declarationsNamed {all : List (Document × Index)} {name : String} {first : Declaration}
    (h : ((indexed parser d).declarations.find? fun y =>
      y.symbol.name = name && y.symbol.kind.isCallable) = some first) :
    (declarationsNamed (d, indexed parser d) all name).find? (fun symbol => symbol.kind.isCallable) =
      some first.symbol := by
  rw [declarationsNamed, List.flatMap_cons, List.find?_append, List.find?_filter, Index.symbols,
    List.find?_map]
  have hown : ((indexed parser d).declarations.find? ((fun symbol : SymbolInfo =>
      decide (symbol.name = name) && symbol.kind.isCallable) ∘ Declaration.symbol)) = some first := h
  simp only [decide_eq_true_eq, Bool.decide_and, Bool.decide_eq_true, hown]
  rfl

/-- A cursor at the start of the name of a method means the first callable of this name that the document
declares. -/
theorem methodAt_of_simple (h : parser.Nests snapshot) (hmem : d ∈ snapshot.allDocuments)
    (hx : x ∈ (indexed parser d).declarations) (hkind : x.symbol.kind.isCallable = true)
    (hsimple : x.IsSimple (indexed parser d)) :
    ∃ first, ((indexed parser d).declarations.find? fun y =>
        y.symbol.name = x.symbol.name && y.symbol.kind.isCallable) = some first ∧
      methodAt parser snapshot d x.nameSpan.start = .ok first.symbol := by
  have hsome : ((indexed parser d).declarations.find? fun y =>
      y.symbol.name = x.symbol.name && y.symbol.kind.isCallable).isSome :=
    List.find?_isSome.mpr ⟨x, hx, by simp [hkind]⟩
  obtain ⟨first, hfirst⟩ := Option.isSome_iff_exists.mp hsome
  refine ⟨first, hfirst, ?_⟩
  have htoken := Declaration.IsSimple.identifierAt? hsimple h hmem
  rw [methodAt, (h.indexOf_eq hmem).1, h.indexAll_eq]
  simp only [bind, Except.bind, pure, Except.pure, htoken, Declaration.token,
    find?_declarationsNamed hfirst]

/-- Every method has a body with its range. -/
theorem exists_body (h : parser.Nests snapshot) (hmem : d ∈ snapshot.allDocuments)
    (hx : x ∈ (indexed parser d).declarations) (hkind : x.symbol.kind.isCallable = true) :
    ∃ body, ((indexed parser d).methods.find? fun m => m.range = x.symbol.range) = some body := by
  obtain ⟨t, -, -, -, hrecords⟩ := h.records hmem
  obtain ⟨m, hm, hspan⟩ := hrecords.bodies x hx hkind
  have hrange : m.range = x.symbol.range := by
    rw [(hrecords.declares m hm).1, hspan, (hrecords.made x hx).range]
  exact Option.isSome_iff_exists.mp (List.find?_isSome.mpr ⟨m, hm, decide_eq_true hrange⟩)

/-- At the start of the name of a method stands, for a cursor that asks for a method, the first callable of
that name in the document, and the outgoing calls there are those inside the body of that one. The definition
is the method itself, if the start of its name touches no other declared name. So the two differ as soon as
another callable of the name comes before the method. -/
theorem methodAt_first_of_name (h : parser.Nests snapshot) (hfiled : Filed snapshot.documents)
    (hmem : d ∈ snapshot.allDocuments) (hx : x ∈ (indexed parser d).declarations)
    (hkind : x.symbol.kind.isCallable = true) (hsimple : x.IsSimple (indexed parser d)) :
    ∃ first body sites,
      ((indexed parser d).declarations.find? fun y =>
        y.symbol.name = x.symbol.name && y.symbol.kind.isCallable) = some first ∧
      methodAt parser snapshot d x.nameSpan.start = .ok first.symbol ∧
      ((∀ y ∈ (indexed parser d).declarations,
          y.nameSpan.touches x.nameSpan.start = true → y = x) →
        definition parser snapshot d x.nameSpan.start = .ok (some x.symbol)) ∧
      ((indexed parser d).methods.find? fun m => m.range = first.symbol.range) = some body ∧
      outgoingCalls parser snapshot d x.nameSpan.start = .ok sites ∧
      List.Forall₂ (Reports d first.symbol)
        ((indexed parser d).invocations.filter (isInside body.span)) sites := by
  obtain ⟨first, hfirst, hmethod⟩ := methodAt_of_simple h hmem hx hkind hsimple
  have hmember := List.mem_of_find?_eq_some hfirst
  have hfound := List.find?_some hfirst
  simp only [Bool.and_eq_true, decide_eq_true_eq] at hfound
  obtain ⟨body, hbody⟩ := exists_body h hmem hmember hfound.2
  have hdocument := h.document?_of_declared hfiled hmem hmember
  exact ⟨first, body, _, hfirst, hmethod, definition_of_own h hmem hx hsimple, hbody,
    outgoingCalls_eq h hmem hmethod hdocument hbody, h.reports hmem _⟩

end

/-- The first of the two methods of the class. -/
def firstOverload : Declaration :=
  ⟨⟨"F", .method, some "A", "a", ⟨⟨0, 8⟩, ⟨0, 18⟩⟩, ⟨⟨0, 13⟩, ⟨0, 14⟩⟩⟩, ⟨8, 18⟩, ⟨13, 14⟩⟩

/-- The second of them, which calls another method. -/
def secondOverload : Declaration :=
  ⟨⟨"F", .method, some "A", "a", ⟨⟨0, 18⟩, ⟨0, 37⟩⟩, ⟨⟨0, 23⟩, ⟨0, 24⟩⟩⟩, ⟨18, 37⟩, ⟨23, 24⟩⟩

theorem secondOverload_declared :
    secondOverload ∈ (indexed overloadParser overloadDocument).declarations ∧
      secondOverload.IsSimple (indexed overloadParser overloadDocument) := by
  decide +kernel

/-- On the name of the second method the definition is this method, but the method that a cursor means is the
first one, which calls nothing. -/
theorem first_overload_meant :
    methodAt overloadParser overloadSnapshot overloadDocument 23 = .ok firstOverload.symbol ∧
      definition overloadParser overloadSnapshot overloadDocument 23 = .ok (some secondOverload.symbol) ∧
      outgoingCalls overloadParser overloadSnapshot overloadDocument 23 = .ok [] := by
  obtain ⟨hdeclared, hsimple⟩ := secondOverload_declared
  obtain ⟨first, body, sites, hfirst, hmethod, hdefinition, hbody, hsites, hreports⟩ :=
    methodAt_first_of_name overloadParser_serves.nests (filed_soloSnapshot _) (mem_overloadSnapshot.mpr rfl)
      hdeclared rfl hsimple
  have hfound : ((indexed overloadParser overloadDocument).declarations.find? fun y =>
      y.symbol.name = secondOverload.symbol.name && y.symbol.kind.isCallable) = some firstOverload := by
    decide +kernel
  obtain rfl := Option.some.inj (hfirst.symm.trans hfound)
  have hspan : ((indexed overloadParser overloadDocument).methods.find? fun m =>
      m.range = firstOverload.symbol.range).map MethodInfo.span = some ⟨8, 18⟩ := by decide +kernel
  rw [hbody, Option.map_some] at hspan
  have hnone : (indexed overloadParser overloadDocument).invocations.filter (isInside ⟨8, 18⟩) = [] := by
    decide +kernel
  rw [Option.some.inj hspan, hnone] at hreports
  cases hreports
  exact ⟨hmethod, hdefinition (by decide +kernel), hsites⟩

/-- The second method makes a call, but at its name neither the method nor the call is found. -/
theorem second_overload_missed :
    secondOverload ∈ (indexed overloadParser overloadDocument).declarations ∧
      secondOverload.IsSimple (indexed overloadParser overloadDocument) ∧
      methodAt overloadParser overloadSnapshot overloadDocument secondOverload.nameSpan.start ≠
        .ok secondOverload.symbol ∧
      outgoingCalls overloadParser overloadSnapshot overloadDocument secondOverload.nameSpan.start =
        .ok [] ∧
      (indexed overloadParser overloadDocument).invocations.filter (isInside secondOverload.span) =
        [⟨"G", ⟨32, 33⟩, some "A.F"⟩] := by
  obtain ⟨hdeclared, hsimple⟩ := secondOverload_declared
  refine ⟨hdeclared, hsimple, ?_, ?_, ?_⟩
  · have hmethod : methodAt overloadParser overloadSnapshot overloadDocument 23 =
        .ok firstOverload.symbol := by decide +kernel
    intro hsecond
    exact absurd (Except.ok.inj (hmethod.symm.trans hsecond)) (by decide)
  · decide +kernel
  · decide +kernel

section

variable {parser : Parser} {snapshot : Snapshot} {d : Document} {x : Declaration}

/-! ### Both directions -/

/-- The parser finds a tree in every document of a snapshot whose methods can be told apart: see the trees,
and no other declaration has the span of a method. -/
structure Parser.NestsMethods (parser : Parser) (snapshot : Snapshot) : Prop where
  trees : ∀ d ∈ snapshot.allDocuments, ∃ t, parser d.text = some t ∧ t.NestsMethods d
  distinct : ∀ d ∈ snapshot.allDocuments, ∀ x ∈ (indexed parser d).declarations,
    x.symbol.kind.isCallable = true → ∀ y ∈ (indexed parser d).declarations, y.span = x.span → y = x

theorem Parser.NestsMethods.nests (h : parser.NestsMethods snapshot) : parser.Nests snapshot := by
  intro d hmem
  obtain ⟨t, hparse, htree⟩ := h.trees d hmem
  exact ⟨t, hparse, htree.nests⟩

theorem Parser.NestsMethods.records (h : parser.NestsMethods snapshot) (hmem : d ∈ snapshot.allDocuments) :
    ∃ t : Tree, t.NestsMethods d ∧ (indexed parser d).identifiers = t.identifiers d ∧
      Index.Records d t (indexed parser d) := by
  obtain ⟨t, hparse, htree⟩ := h.trees d hmem
  obtain ⟨other, hother, -, hidentifiers, hrecords⟩ := h.nests.records hmem
  obtain rfl := Option.some.inj (hother.symm.trans hparse)
  exact ⟨other, htree, hidentifiers, hrecords⟩

theorem Parser.NestsMethods.aligns (h : parser.NestsMethods snapshot) : parser.Aligns snapshot := by
  intro d hmem token htoken _
  obtain ⟨t, htree, hidentifiers, -⟩ := h.records hmem
  obtain ⟨node, hnode, hnode'⟩ := Tree.exists_of_mem_identifiers t (hidentifiers ▸ htoken)
  obtain ⟨-, -, hspan⟩ := Tree.token?_eq_some.mp hnode'
  rw [hspan]
  exact htree.aligned node hnode

/-- The name of a method is one of the identifiers of the text. -/
theorem Parser.NestsMethods.isSimple (h : parser.NestsMethods snapshot)
    (hmem : d ∈ snapshot.allDocuments) (hx : x ∈ (indexed parser d).declarations)
    (hkind : x.symbol.kind.isCallable = true) : x.IsSimple (indexed parser d) := by
  obtain ⟨t, htree, hidentifiers, hrecords⟩ := h.records hmem
  obtain ⟨hmember, hname, -⟩ := htree.exists_node hrecords hx hkind
  exact ⟨hidentifiers ▸ hmember, hname⟩

/-- Around an offset there is no method, or one that is declared. -/
theorem methodContaining?_cases (h : parser.NestsMethods snapshot) (hmem : d ∈ snapshot.allDocuments)
    (offset : Nat) :
    (indexed parser d).methodContaining? offset = none ∨ ∃ m x,
      (indexed parser d).methodContaining? offset = some m ∧
      ((indexed parser d).declarations.find? fun y => y.span = m.span) = some x ∧
      x ∈ (indexed parser d).declarations ∧ x.symbol.kind.isCallable = true := by
  cases hm : (indexed parser d).methodContaining? offset with
  | none => exact .inl rfl
  | some m =>
      obtain ⟨t, -, -, hrecords⟩ := h.records hmem
      obtain ⟨-, y, hy, hkind, hspan⟩ :=
        hrecords.declares m (List.mem_of_mem_filter (mem_of_firstLeast? hm))
      have hsome : ((indexed parser d).declarations.find? fun y => y.span = m.span).isSome :=
        List.find?_isSome.mpr ⟨y, hy, decide_eq_true hspan⟩
      obtain ⟨x, hx⟩ := Option.isSome_iff_exists.mp hsome
      have hmember := List.mem_of_find?_eq_some hx
      have hfound := List.find?_some hx
      -- No other declaration has the span of the method.
      have hsame := h.distinct d hmem y hy hkind x hmember ((of_decide_eq_true hfound).trans hspan.symm)
      exact .inr ⟨m, x, rfl, hx, hmember, hsame ▸ hkind⟩

/-- A cursor that asks for a method means one that is declared and can be called, or there is none. -/
theorem methodAt_cases (h : parser.NestsMethods snapshot) (hfiled : Filed snapshot.documents)
    (hmem : d ∈ snapshot.allDocuments) (offset : Nat) :
    methodAt parser snapshot d offset = .error (.notFound "No method found at the given position") ∨
      ∃ e ∈ snapshot.allDocuments, ∃ x ∈ (indexed parser e).declarations,
        x.symbol.kind.isCallable = true ∧ methodAt parser snapshot d offset = .ok x.symbol := by
  rw [methodAt, (h.nests.indexOf_eq hmem).1, h.nests.indexAll_eq]
  simp only [bind, Except.bind, pure, Except.pure]
  cases htoken : (indexed parser d).identifierAt? offset with
  | none =>
      rcases methodContaining?_cases h hmem offset with hnone | ⟨m, x, hm, hx, hmember, hkind⟩
      · exact .inl (by simp only [hnone])
      · exact .inr ⟨d, hmem, x, hmember, hkind, by simp only [hm, hx]⟩
  | some token =>
      dsimp only
      cases hsymbol : (declarationsNamed (d, indexed parser d)
          (snapshot.allDocuments.map fun d => (d, indexed parser d)) token.name).find?
            fun symbol => symbol.kind.isCallable with
      | none =>
          rcases methodContaining?_cases h hmem offset with hnone | ⟨m, x, hm, hx, hmember, hkind⟩
          · exact .inl (by simp only [hnone])
          · exact .inr ⟨d, hmem, x, hmember, hkind, by simp only [hm, hx]⟩
      | some symbol =>
          obtain ⟨-, e, he, hdeclared⟩ :=
            (mem_declarationsNamed hfiled hmem).mp (List.mem_of_find?_eq_some hsymbol)
          have hkind := List.find?_some hsymbol
          obtain ⟨x, hx, rfl⟩ := List.mem_map.mp hdeclared
          exact .inr ⟨e, he, x, hx, hkind, rfl⟩

/-- The body that is found by the range of a method is that of the method. -/
theorem exists_own_body (h : parser.NestsMethods snapshot) (hmem : d ∈ snapshot.allDocuments)
    (hx : x ∈ (indexed parser d).declarations) (hkind : x.symbol.kind.isCallable = true) :
    ∃ body, ((indexed parser d).methods.find? fun m => m.range = x.symbol.range) = some body ∧
      body.span = x.span := by
  obtain ⟨body, hbody⟩ := exists_body h.nests hmem hx hkind
  obtain ⟨t, htree, -, hrecords⟩ := h.records hmem
  obtain ⟨hrange, y, hy, hkind', hspan⟩ := hrecords.declares body (List.mem_of_find?_eq_some hbody)
  have hfound := List.find?_some hbody
  have hsame : body.range = x.symbol.range := of_decide_eq_true hfound
  rw [hrange, (hrecords.made x hx).range, ← hspan] at hsame
  exact ⟨body, hbody, hspan.symm.trans (htree.span_eq_of_range_eq hrecords hx hkind hy hkind' hsame)⟩

/-- From the name of a method the calls of this name are found. -/
theorem callers_of_declared (h : parser.NestsMethods snapshot) (hfiled : Filed snapshot.documents)
    (hmem : d ∈ snapshot.allDocuments) (hx : x ∈ (indexed parser d).declarations)
    (hkind : x.symbol.kind.isCallable = true) :
    ∃ start target, snapshot.document? x.symbol.path = some d ∧
      d.offsetAt x.symbol.selectionRange.start = .ok start ∧ target.name = x.symbol.name ∧
      callers parser snapshot d start = .ok (callSites parser snapshot target) := by
  have hsimple := h.isSimple hmem hx hkind
  obtain ⟨first, hfirst, hmethod⟩ := methodAt_of_simple h.nests hmem hx hkind hsimple
  have hfound := List.find?_some hfirst
  simp only [Bool.and_eq_true, decide_eq_true_eq] at hfound
  exact ⟨x.nameSpan.start, first.symbol, h.nests.document?_of_declared hfiled hmem hx,
    Declaration.IsSimple.offsetAt hsimple h.nests h.aligns hmem hx, hfound.1, callers_eq h.nests hmethod⟩

/-- Calls are the same in both directions. A cursor means no method only where there is none, and wherever it
means a method, both its callers and its outgoing calls are found. The outgoing calls are those of the
document of the method whose names lie in its declaration, one by one and in order. If such a call means
something that can be called, this is declared in a document, its name begins at an offset there, and among
the callers at this offset is a call site of the same name, the same place and the same caller. -/
theorem call_hierarchy_consistent (h : parser.NestsMethods snapshot) (hfiled : Filed snapshot.documents)
    (hmem : d ∈ snapshot.allDocuments) (offset : Nat) :
    (∀ error, methodAt parser snapshot d offset = .error error →
      error = .notFound "No method found at the given position") ∧
    ∀ method, methodAt parser snapshot d offset = .ok method →
      ∃ e x back sites, snapshot.document? method.path = some e ∧
        x ∈ (indexed parser e).declarations ∧ x.symbol = method ∧
        callers parser snapshot d offset = .ok back ∧
        outgoingCalls parser snapshot d offset = .ok sites ∧
        List.Forall₂ (Reports e method)
          ((indexed parser e).invocations.filter (isInside x.span)) sites ∧
        ∀ site ∈ sites, ∀ called, site.definition = some called → called.kind.isCallable = true →
          ∃ f start found, snapshot.document? called.path = some f ∧
            f.offsetAt called.selectionRange.start = .ok start ∧
            callers parser snapshot f start = .ok found ∧
            ∃ other ∈ found, other.callee = site.callee ∧ other.location = site.location ∧
              other.caller = site.caller := by
  rcases methodAt_cases h hfiled hmem offset with hnone | ⟨e, he, x, hx, hkind, hmethod⟩
  · rw [hnone]
    exact ⟨fun error herror => (Except.error.inj herror).symm, fun method hmethod => nomatch hmethod⟩
  refine ⟨fun error herror => (nomatch hmethod.symm.trans herror), fun method hmeans => ?_⟩
  obtain rfl := Except.ok.inj (hmethod.symm.trans hmeans)
  obtain ⟨body, hbody, hspan⟩ := exists_own_body h he hx hkind
  have hdocument := h.nests.document?_of_declared hfiled he hx
  have hsites := outgoingCalls_eq h.nests he hmethod hdocument hbody
  rw [hspan] at hsites
  refine ⟨e, x, _, _, hdocument, hx, rfl, callers_eq h.nests hmethod, hsites, h.nests.reports he _, ?_⟩
  intro site hsite called hcalled hcallable
  obtain ⟨call, hcall, rfl⟩ := List.mem_map.mp hsite
  obtain ⟨hcall, hinside⟩ := List.mem_filter.mp hcall
  simp only [isInside, Bool.and_eq_true, decide_eq_true_eq] at hinside
  obtain ⟨hname, f, hf, hdeclared⟩ :=
    (mem_declarationsNamed hfiled he).mp (List.mem_of_find?_eq_some hcalled)
  obtain ⟨y, hy, rfl⟩ := List.mem_map.mp hdeclared
  obtain ⟨start, target, hfile, hoffset, htarget, hfound⟩ := callers_of_declared h hfiled hf hy hcallable
  refine ⟨f, start, _, hfile, hoffset, hfound, ?_⟩
  -- The call has the name of the target, and the method is what its caller was written down as.
  obtain ⟨t, htree, -, hrecords⟩ := h.records he
  have hcaller := htree.caller_eq hrecords (h.distinct e he x hx hkind) hx hkind hcall
    (hname ▸ (h.isSimple hf hy hcallable).2) hinside
  refine ⟨⟨call.callee, call.caller, placeOf e call.nameSpan, some target⟩, ?_, rfl, rfl, hcaller⟩
  refine List.mem_flatMap.mpr ⟨e, he, List.mem_map_of_mem (List.mem_filter.mpr ⟨hcall, ?_⟩)⟩
  exact decide_eq_true (hname.symm.trans htarget.symm)

end

theorem overloadTree_nestsMethods : overloadTree.NestsMethods overloadDocument where
  nests := (overloadTree_fits _ _).nests
  aligned node _ := by
    rintro ⟨front, back, hchars, -⟩
    have hnone : '\r' ∉ overloadDocument.chars := by decide +kernel
    rw [hchars] at hnone
    exact hnone (List.mem_append_right _ List.mem_cons_self)
  named := by decide +kernel
  flat := by decide +kernel

theorem overloadParser_nestsMethods : overloadParser.NestsMethods overloadSnapshot := by
  have hdistinct : ∀ x ∈ (indexed overloadParser overloadDocument).declarations,
      x.symbol.kind.isCallable = true →
      ∀ y ∈ (indexed overloadParser overloadDocument).declarations, y.span = x.span → y = x := by
    decide +kernel
  constructor
  · intro d hmem
    obtain rfl := mem_overloadSnapshot.mp hmem
    exact ⟨overloadTree, if_pos rfl, overloadTree_nestsMethods⟩
  · intro d hmem
    obtain rfl := mem_overloadSnapshot.mp hmem
    exact hdistinct

/-- In the body of the second method its call is found, and from the method that it calls the same call. -/
theorem call_found_from_both_ends : ∃ method sites found,
    methodAt overloadParser overloadSnapshot overloadDocument 31 = .ok method ∧
    outgoingCalls overloadParser overloadSnapshot overloadDocument 31 = .ok sites ∧
    callers overloadParser overloadSnapshot overloadDocument 42 = .ok found ∧
    ∃ site ∈ sites, ∃ other ∈ found, other.callee = "G" ∧ other.location = site.location ∧
      other.caller = site.caller := by
  have hmethod : methodAt overloadParser overloadSnapshot overloadDocument 31 =
      .ok ⟨"F", .method, some "A", "a", ⟨⟨0, 18⟩, ⟨0, 37⟩⟩, ⟨⟨0, 23⟩, ⟨0, 24⟩⟩⟩ := by decide +kernel
  obtain ⟨e, x, back, sites, -, -, -, -, hsites, -, hback⟩ :=
    (call_hierarchy_consistent overloadParser_nestsMethods (filed_soloSnapshot _)
      (mem_overloadSnapshot.mpr rfl) 31).2 _ hmethod
  have hcall : outgoingCalls overloadParser overloadSnapshot overloadDocument 31 =
      .ok [⟨"G", some "A.F", ⟨"a", ⟨⟨0, 32⟩, ⟨0, 33⟩⟩, overloadText⟩,
        some ⟨"G", .method, some "A", "a", ⟨⟨0, 37⟩, ⟨0, 47⟩⟩, ⟨⟨0, 42⟩, ⟨0, 43⟩⟩⟩⟩] := by decide +kernel
  obtain rfl := Except.ok.inj (hsites.symm.trans hcall)
  obtain ⟨f, start, found, hf, hstart, hfound, other, hother, hcallee, hlocation, hcaller⟩ :=
    hback _ List.mem_cons_self _ rfl rfl
  obtain rfl : overloadDocument = f := Option.some.inj hf
  obtain rfl : 42 = start :=
    Except.ok.inj ((show overloadDocument.offsetAt ⟨0, 42⟩ = .ok 42 by decide +kernel).symm.trans hstart)
  exact ⟨_, _, found, hmethod, hcall, hfound, _, List.mem_cons_self, other, hother, hcallee, hlocation,
    hcaller⟩

end CodeIntel.CSharp
