import CodeIntel.Proofs.CSharp.Definitions
import CodeIntel.Proofs.Source.Extents
import CodeIntel.Proofs.Tree.Containers
import CodeIntel.Service.Plan

/-! The members of a type. They are looked for by the name of their container and by where they begin, not in
the tree. So the declarations that stand right in the type are found, in the order of the text, but others
pass for members too: those of a deeper type of the same name, and those that begin at an end of the type
and have a container of its name. -/

namespace CodeIntel

/-! ### Searches for types and members -/

namespace Plan

variable {engine : Engine} {snapshot : Snapshot} {name : String} {type : SymbolInfo}
  {symbols : List SymbolInfo} {documents : List Document}

/-- A symbol is a type of a name, simple or qualified. -/
def isTypeNamed (name : String) (symbol : SymbolInfo) : Bool :=
  symbol.kind.isType && (symbol.name == name || symbol.qualifiedName == name)

/-- A type that is found is the first one of its name in some document. -/
theorem exists_of_findType (h : findType engine name documents = .done (type, symbols)) :
    ∃ d ∈ documents, engine.documentSymbols d = .done symbols ∧
      symbols.find? (isTypeNamed name) = some type := by
  induction documents with
  | nil => cases h
  | cons d rest ih =>
      rw [findType] at h
      obtain ⟨found, hfound, h⟩ := Outcome.bind_eq_done.mp h
      have hfound := Outcome.mapError_eq_done.mp hfound
      dsimp only at h
      split at h
      · rename_i symbol hsymbol
        obtain ⟨rfl, rfl⟩ := Prod.mk.inj (Outcome.done.inj h)
        exact ⟨d, List.mem_cons_self, hfound, hsymbol⟩
      · obtain ⟨e, he, hrest⟩ := ih h
        exact ⟨e, List.mem_cons_of_mem _ he, hrest⟩

/-- The members of a type that is found. -/
theorem typeMembers_eq (hname : Text.trimmed name ≠ "")
    (h : findType engine name snapshot.allDocuments = .done (type, symbols)) :
    typeMembers engine snapshot name =
      .done ⟨name, type.kind, type.path, symbols.filter (isMemberOf type)⟩ := by
  rw [typeMembers, if_neg hname, h]
  rfl

/-- A member is a callable of a name. -/
def isCallableNamed (name : String) (member : SymbolInfo) : Bool :=
  member.kind.isCallable && member.name == name

/-- The source of a method that is found is a piece of its document, between the ends of its range. -/
theorem exists_of_methodSource {request : MethodSourceRequest} {found : MethodSource}
    (h : methodSource engine snapshot request = .done found) :
    ∃ members method others d start stop source,
      typeMembers engine snapshot request.typeName = .done members ∧
      members.members.filter (isCallableNamed request.methodName) = method :: others ∧
      snapshot.document? method.path = some d ∧ d.offsetAt method.range.start = .ok start ∧
      d.offsetAt method.range.stop = .ok stop ∧ d.slice? ⟨start, stop⟩ = some source ∧
      found = ⟨request.typeName, request.methodName, method.path, method.range, source, others.length⟩ := by
  unfold methodSource at h
  split at h
  · cases h
  obtain ⟨members, hmembers, h⟩ := Outcome.bind_eq_done.mp h
  dsimp only at h
  split at h
  · cases h
  rename_i method others hmatching
  obtain ⟨d, hdocument, h⟩ := Outcome.bind_eq_done.mp h
  obtain ⟨start, hstart, h⟩ := Outcome.bind_eq_done.mp h
  obtain ⟨stop, hstop, h⟩ := Outcome.bind_eq_done.mp h
  obtain ⟨source, hsource, h⟩ := Outcome.bind_eq_done.mp h
  refine ⟨members, method, others, d, start, stop, source, hmembers, hmatching, ?_,
    Outcome.ofExcept_eq_done.mp (Outcome.mapError_eq_done.mp hstart),
    Outcome.ofExcept_eq_done.mp (Outcome.mapError_eq_done.mp hstop), ?_, (Outcome.done.inj h).symm⟩
  · unfold documentOf at hdocument
    split at hdocument
    · rename_i found hfound
      rw [hfound, Outcome.done.inj hdocument]
    · cases hdocument
  · unfold textBetween at hsource
    split at hsource
    · rename_i text htext
      rw [htext, Outcome.done.inj hsource]
    · cases hsource

end Plan

/-! ### Members in the tree -/

namespace Attribution

/-- The symbol that is declared. -/
def symbol (a : Attribution) : SymbolInfo := a.declaration.symbol

/-- A declaration stands right in the namespace or type that another one declares. -/
def isIn (member type : Attribution) : Bool :=
  member.site.scope.map Tree.span == some type.declaration.span

/-- A declaration passes for a member of a type: it does not stand right in the type, but its container has
the name of the type, and it begins inside of the type or at an end of it. -/
def straysInto (member type : Attribution) : Bool :=
  !member.isIn type && member.symbol != type.symbol &&
    member.symbol.containerName == some type.symbol.name &&
    type.declaration.span.touches member.declaration.span.start

end Attribution

namespace Tree

/-- What a parser promises of the declarations of a text: the nodes of its tree are in order, namespaces around
the rest of the document are on top, nodes that declare something have different spans, and none of these
begins or ends inside the end of a line. -/
structure NestsScopes (d : Document) (t : Tree) : Prop where
  nests : t.Nests d
  onTop : t.OpensOnTop
  distinct : (t.sites d none).Pairwise fun first second =>
    first.node.isDeclaration = true → second.node.isDeclaration = true → first.node.span ≠ second.node.span
  addressed : ∀ node ∈ t.subtrees, node.isDeclaration = true → d.Addressed node.span

section

variable {d : Document} {t : Tree} {a member type : Attribution} {p q : Site}

namespace NestsScopes

/-- In a text without carriage returns no node begins or ends inside the end of a line. -/
theorem of_not_mem (hnests : t.Nests d) (honTop : t.OpensOnTop)
    (hdistinct : (t.sites d none).Pairwise fun first second => first.node.isDeclaration = true →
      second.node.isDeclaration = true → first.node.span ≠ second.node.span)
    (hreturn : '\r' ∉ d.chars) : t.NestsScopes d where
  nests := hnests
  onTop := honTop
  distinct := hdistinct
  addressed node hnode _ := by
    obtain ⟨text, htext⟩ := hnests.inText node hnode
    exact Document.addressed_of_not_mem htext hreturn

/-- Sites that declare something can be told apart by the spans of their nodes. -/
theorem site_eq (h : t.NestsScopes d) (hp : p ∈ t.sites d none) (hq : q ∈ t.sites d none)
    (hdeclares : p.node.isDeclaration = true) (hdeclares' : q.node.isDeclaration = true)
    (hspan : p.node.span = q.node.span) : p = q := by
  rcases eq_or_related_of_pairwise h.distinct hp hq with heq | hne | hne
  · exact heq
  · exact absurd hspan (hne hdeclares hdeclares')
  · exact absurd hspan.symm (hne hdeclares' hdeclares)

theorem addressed_of_mem (h : t.NestsScopes d) (ha : a ∈ t.attributions d) :
    d.Addressed a.declaration.span ∧ a.symbol.range = d.extent a.declaration.span := by
  obtain ⟨hsite, opened, hrecords⟩ := records_of_mem_attributed ha
  rw [hrecords.span]
  exact ⟨h.addressed _ (mem_subtrees_of_mem_sites hsite) hrecords.isDeclaration, hrecords.range⟩

/-- What stands right in a type has a container of its name and begins inside of it, and is not the type. -/
theorem of_isIn (h : t.NestsScopes d) (ha : member ∈ t.attributions d) (hx : type ∈ t.attributions d)
    (htype : type.symbol.kind.isType = true) (hin : member.isIn type = true) :
    member.symbol.containerName = some type.symbol.name ∧
      type.declaration.span.touches member.declaration.span.start = true ∧ member.symbol ≠ type.symbol := by
  obtain ⟨hsite, opened, hrecords⟩ := records_of_mem_attributed ha
  obtain ⟨hsite', opened', hrecords'⟩ := records_of_mem_attributed hx
  obtain ⟨hscope, hname⟩ := hrecords'.type htype
  rw [Attribution.isIn, beq_iff_eq, hrecords'.span] at hin
  rcases exists_scope_site hsite with hnone | ⟨outer, houter, hsome, houterScope, -, child, hchild, hbelow⟩
  · rw [hnone] at hin
    cases hin
  rw [hsome] at hin
  have hdeclares : outer.node.isDeclaration = true := isDeclaration_of_isScope houterScope
  -- The scope of the member is the node of the type.
  have hsame : outer = type.site :=
    h.site_eq houter hsite' hdeclares hrecords'.isDeclaration (Option.some.inj hin)
  obtain rfl := hsame
  refine ⟨?_, ?_, fun heq => ?_⟩
  · rw [Attribution.symbol, hrecords.container, Site.container, hsome, Option.bind_some, hname]
    rfl
  · have hnests := h.nests.of_mem_subtrees (mem_subtrees_of_mem_sites hsite')
    have hinside := hnests.inside_of_mem_subtrees (subtrees_of_mem hchild hbelow)
    have hwide := (h.nests.of_mem_subtrees (mem_subtrees_of_mem_sites hsite)).inText.start_le_stop
    rw [hrecords.span, hrecords'.span, Span.touches, Bool.and_eq_true, decide_eq_true_eq,
      decide_eq_true_eq]
    exact ⟨hinside.1, Nat.le_trans hwide hinside.2⟩
  · -- One symbol would be made at one node, and the node would be below itself.
    have hextent : d.extent member.declaration.span = d.extent type.declaration.span := by
      rw [← (h.addressed_of_mem ha).2, ← (h.addressed_of_mem hx).2, heq]
    have hspan := (h.addressed_of_mem ha).1.eq_of_extent_eq (h.addressed_of_mem hx).1 hextent
    rw [hrecords.span, hrecords'.span] at hspan
    have hnode := h.site_eq hsite hsite' hrecords.isDeclaration hrecords'.isDeclaration hspan
    exact ne_of_mem_child hchild hbelow (congrArg Site.node hnode)

/-- The members of a type are what stands right in it and what passes for a member. -/
theorem isMemberOf_eq (h : t.NestsScopes d) (ha : member ∈ t.attributions d) (hx : type ∈ t.attributions d)
    (htype : type.symbol.kind.isType = true) :
    Plan.isMemberOf type.symbol member.symbol = (member.isIn type || member.straysInto type) := by
  have htouches : type.symbol.range.contains member.symbol.range.start =
      type.declaration.span.touches member.declaration.span.start := by
    rw [(h.addressed_of_mem ha).2, (h.addressed_of_mem hx).2]
    exact (h.addressed_of_mem hx).1.contains_extent (h.addressed_of_mem ha).1
  rw [Plan.isMemberOf, htouches, Attribution.straysInto]
  cases hin : member.isIn type with
  | true =>
      obtain ⟨hcontainer, hinside, hne⟩ := h.of_isIn ha hx htype hin
      simp [hcontainer, hinside, hne]
  | false =>
      rw [Bool.false_or, Bool.not_false, Bool.true_and, Bool.and_comm (_ != _), Bool.and_right_comm]

/-- What passes for a member of a type stands in a deeper namespace or type of its name, or begins at one of
its ends. -/
theorem stray_cases (h : t.NestsScopes d) (ha : member ∈ t.attributions d) (hx : type ∈ t.attributions d)
    (htype : type.symbol.kind.isType = true) (hstray : member.straysInto type = true) :
    (∃ inner ∈ type.site.node.subtrees, inner ≠ type.site.node ∧ member.site.scope = some inner ∧
      inner.declaredName? d = some type.symbol.name) ∨
    member.declaration.span.start = type.declaration.span.start ∨
    member.declaration.span.start = type.declaration.span.stop := by
  obtain ⟨hsite, opened, hrecords⟩ := records_of_mem_attributed ha
  obtain ⟨hsite', opened', hrecords'⟩ := records_of_mem_attributed hx
  obtain ⟨hscope, hname⟩ := hrecords'.type htype
  simp only [Attribution.straysInto, Bool.and_eq_true, Bool.not_eq_true', bne_iff_ne, beq_iff_eq, Span.touches,
    decide_eq_true_eq] at hstray
  obtain ⟨⟨⟨hnot, -⟩, hcontainer⟩, hfrom, hto⟩ := hstray
  obtain ⟨before, behind, hsites, hbefore, hbehind⟩ := exists_around h.nests hsite'
  rw [hrecords.span, hrecords'.span] at *
  rw [hsites, List.append_assoc] at hsite
  rcases List.mem_append.mp hsite with hsite | hsite
  · exact .inr (.inl (Nat.le_antisymm (hbefore _ hsite) hfrom))
  rcases List.mem_append.mp hsite with hsite | hsite
  · rcases mem_sites.mp hsite with hsame | ⟨child, hchild, hsite⟩
    · rw [hsame]
      exact .inr (.inl rfl)
    · have hbelow : type.site.node.scopeBelow d type.site.scope = some type.site.node := by
        rw [scopeBelow, hscope, hname]
        rfl
      rw [hbelow] at hsite
      have hchild := mem_of_namedChildren hchild
      rcases exists_scope_site hsite with hself | ⟨outer, houter, hsome, -, hnamed, -⟩
      · rw [Attribution.isIn, hself, hrecords'.span, Option.map_some] at hnot
        exact absurd (beq_self_eq_true _) (hnot ▸ Bool.false_ne_true)
      · have hinner := mem_subtrees_of_mem_sites houter
        obtain ⟨inner, hinnerName⟩ := Option.isSome_iff_exists.mp hnamed
        rw [Attribution.symbol, hrecords.container, Site.container, hsome, Option.bind_some, hinnerName,
          Option.some_or] at hcontainer
        exact .inl ⟨outer.node, subtrees_of_mem hchild hinner, ne_of_mem_child hchild hinner, hsome,
          hinnerName.trans hcontainer⟩
  · exact .inr (.inr (Nat.le_antisymm hto (hbehind _ hsite)))

end NestsScopes

end

end Tree

/-- What two tests that exclude each other select is what the first one selects exactly if the second one
selects nothing. -/
theorem filter_or_eq_iff {α β : Type} {items : List α} {first second : α → Bool} (f : α → β)
    (happart : ∀ a, second a = true → first a = false) :
    (items.filter fun a => first a || second a).map f = (items.filter first).map f ↔
      ∀ a ∈ items, second a = false := by
  constructor
  · intro heq a ha
    by_contra hsecond
    have hsecond : second a = true := Bool.not_eq_false _ ▸ hsecond
    have hmore : (items.filter first).Sublist (items.filter fun a => first a || second a) :=
      List.monotone_filter_right items fun a hfirst => Bool.or_eq_true_iff.mpr (.inl hfirst)
    have hlength := congrArg List.length heq
    rw [List.length_map, List.length_map] at hlength
    have hboth : a ∈ items.filter fun a => first a || second a :=
      List.mem_filter.mpr ⟨ha, Bool.or_eq_true_iff.mpr (.inr hsecond)⟩
    rw [← hmore.eq_of_length hlength.symm] at hboth
    exact Bool.false_ne_true ((happart a hsecond).symm.trans (List.mem_filter.mp hboth).2)
  · intro hnone
    refine congrArg (List.map f) (List.filter_congr fun a ha => ?_)
    rw [hnone a ha, Bool.or_false]

namespace CSharp

/-- Every document of a snapshot has a tree that keeps this promise. -/
def Parser.NestsScopes (parser : Parser) (snapshot : Snapshot) : Prop :=
  ∀ d ∈ snapshot.allDocuments, ∃ t, parser d.text = some t ∧ t.NestsScopes d

section

variable {parser : Parser} {snapshot : Snapshot} {d : Document} {name : String} {type : SymbolInfo}
  {symbols : List SymbolInfo}

theorem documentSymbols_eq_done : (engine parser).documentSymbols d = .done symbols ↔
    ∃ index, indexOf parser d = .ok index ∧ index.symbols = symbols :=
  Outcome.ofExcept_eq_done.trans map_eq_ok

/-- The symbols of a document are those of its tree, in order. -/
theorem Parser.NestsScopes.symbols_eq (h : parser.NestsScopes snapshot) (hmem : d ∈ snapshot.allDocuments)
    (hsymbols : (engine parser).documentSymbols d = .done symbols) :
    ∃ t, parser d.text = some t ∧ t.NestsScopes d ∧ symbols = (t.attributions d).map Attribution.symbol := by
  obtain ⟨t, hparse, hnests⟩ := h d hmem
  obtain ⟨index, hindex, rfl⟩ := documentSymbols_eq_done.mp hsymbols
  rw [indexOf, hparse] at hindex
  refine ⟨t, hparse, hnests, ?_⟩
  rw [Index.symbols, Index.declarations_of_build hindex hnests.onTop, List.map_map]
  rfl

/-- The members that are listed for a type are the declarations right in it, in the order of the text, together
with what passes for a member. They are the declarations right in the type exactly if nothing passes for one.
What does stands in a deeper namespace or type of the same name, or begins at an end of the type. The source of
a method is that of a declaration of either sort. -/
theorem members_direct_or_stray (h : parser.NestsScopes snapshot) (hname : Text.trimmed name ≠ "")
    (hfound : Plan.findType (engine parser) name snapshot.allDocuments = .done (type, symbols)) :
    ∃ d ∈ snapshot.allDocuments, ∃ t, parser d.text = some t ∧ ∃ x ∈ t.attributions d, x.symbol = type ∧
      Plan.typeMembers (engine parser) snapshot name = .done ⟨name, type.kind, type.path,
        ((t.attributions d).filter fun a => a.isIn x || a.straysInto x).map Attribution.symbol⟩ ∧
      (Plan.typeMembers (engine parser) snapshot name = .done ⟨name, type.kind, type.path,
          ((t.attributions d).filter fun a => a.isIn x).map Attribution.symbol⟩ ↔
        ∀ a ∈ t.attributions d, a.straysInto x = false) ∧
      (∀ a ∈ t.attributions d, a.straysInto x = true →
        (∃ inner ∈ x.site.node.subtrees, inner ≠ x.site.node ∧ a.site.scope = some inner ∧
          inner.declaredName? d = some type.name) ∨
        a.declaration.span.start = x.declaration.span.start ∨
        a.declaration.span.start = x.declaration.span.stop) ∧
      ∀ methodName found, Plan.methodSource (engine parser) snapshot ⟨name, methodName⟩ = .done found →
        ∃ a ∈ t.attributions d, (a.isIn x || a.straysInto x) = true ∧
          Plan.isCallableNamed methodName a.symbol = true ∧ found.path = a.symbol.path ∧
          found.range = a.symbol.range := by
  obtain ⟨d, hmem, hsymbols, hfirst⟩ := Plan.exists_of_findType hfound
  obtain ⟨t, hparse, hnests, rfl⟩ := h.symbols_eq hmem hsymbols
  obtain ⟨x, hx, hsymbol⟩ := List.mem_map.mp (List.mem_of_find?_eq_some hfirst)
  obtain rfl := hsymbol
  have hnamed : Plan.isTypeNamed name x.symbol = true := List.find?_some hfirst
  have htype : x.symbol.kind.isType = true := (Bool.and_eq_true_iff.mp hnamed).1
  have hmembers : ((t.attributions d).map Attribution.symbol).filter (Plan.isMemberOf x.symbol) =
      ((t.attributions d).filter fun a => a.isIn x || a.straysInto x).map Attribution.symbol := by
    rw [List.filter_map]
    exact congrArg _ (List.filter_congr fun a ha => hnests.isMemberOf_eq ha hx htype)
  have hlisted := Plan.typeMembers_eq hname hfound
  rw [hmembers] at hlisted
  refine ⟨d, hmem, t, hparse, x, hx, rfl, hlisted, ?_, fun a ha => hnests.stray_cases ha hx htype, ?_⟩
  · have happart : ∀ a : Attribution, a.straysInto x = true → a.isIn x = false := by
      intro a hstray
      simp only [Attribution.straysInto, Bool.and_eq_true, Bool.not_eq_true'] at hstray
      exact hstray.1.1.1
    refine Iff.trans ?_ (filter_or_eq_iff Attribution.symbol happart)
    rw [hlisted, Outcome.done.injEq, TypeMembers.mk.injEq]
    exact ⟨fun heq => heq.2.2.2, fun heq => ⟨rfl, rfl, rfl, heq⟩⟩
  · intro methodName found hmethod
    obtain ⟨members, method, others, -, -, -, -, hlisted', hmatching, -, -, -, -, rfl⟩ :=
      Plan.exists_of_methodSource hmethod
    obtain rfl := Outcome.done.inj (hlisted.symm.trans hlisted')
    have hmatches : method ∈ List.filter (Plan.isCallableNamed methodName) _ :=
      hmatching ▸ List.mem_cons_self
    obtain ⟨hlisted', hcallable⟩ := List.mem_filter.mp hmatches
    obtain ⟨a, ha, rfl⟩ := List.mem_map.mp hlisted'
    obtain ⟨ha, hsort⟩ := List.mem_filter.mp ha
    exact ⟨a, ha, hsort, hcallable, rfl, rfl⟩

end

/-! ### A class in a class of the same name -/

theorem overloadTree_nestsScopes : overloadTree.NestsScopes overloadDocument :=
  .of_not_mem (overloadTree_fits _ _).nests (by decide +kernel) (by decide +kernel) (by decide +kernel)

/-- Nothing passes for a member of the class with the three methods, so that they are its members. -/
theorem methods_are_members : ∃ x ∈ overloadTree.attributions overloadDocument, x.symbol.name = "A" ∧
    Plan.typeMembers (engine overloadParser) overloadSnapshot "A" = .done ⟨"A", .classType, "a",
      ((overloadTree.attributions overloadDocument).filter fun a => a.isIn x).map Attribution.symbol⟩ := by
  have hnests : overloadParser.NestsScopes overloadSnapshot := by
    intro d hmem
    obtain rfl := mem_overloadSnapshot.mp hmem
    exact ⟨overloadTree, if_pos rfl, overloadTree_nestsScopes⟩
  have hfound : Plan.findType (engine overloadParser) "A" overloadSnapshot.allDocuments =
      .done (⟨"A", .classType, none, "a", ⟨⟨0, 0⟩, ⟨0, 48⟩⟩, ⟨⟨0, 6⟩, ⟨0, 7⟩⟩⟩,
        (indexed overloadParser overloadDocument).symbols) := by decide +kernel
  have hnone : ∀ x ∈ overloadTree.attributions overloadDocument,
      ∀ a ∈ overloadTree.attributions overloadDocument, a.straysInto x = false := by decide +kernel
  obtain ⟨d, hmem, t, hparse, x, hx, hsymbol, -, hdirect, -, -⟩ :=
    members_direct_or_stray hnests (by decide) hfound
  obtain rfl := mem_overloadSnapshot.mp hmem
  obtain rfl : overloadTree = t := Option.some.inj ((if_pos rfl).symm.trans hparse)
  exact ⟨x, hx, by rw [hsymbol], hdirect.mpr (hnone x hx)⟩

/-- The tree of a class with a class of the same name in it, which has a constructor. -/
def twinTree : Tree :=
  let classTree (start stop : Nat) (below : Tree) : Tree :=
    soundNode "class_declaration" true start stop [("body", 2), ("name", 1)]
      [soundNode "class" false start (start + 5) [] [],
        soundNode "identifier" true (start + 6) (start + 7) [] [],
        bracketed "declaration_list" "\x7b" "\x7d" (start + 8) stop [below]]
  let constructor := soundNode "constructor_declaration" true 20 27 [("body", 2), ("name", 0), ("parameters", 1)]
    [soundNode "identifier" true 20 21 [] [], bracketed "parameter_list" "(" ")" 21 23 [],
      bracketed "block" "\x7b" "\x7d" 24 27 []]
  soundNode "compilation_unit" true 0 31 [] [classTree 0 31 (classTree 10 29 constructor)]

/-- The document of the two classes. -/
def twinDocument : Document := ⟨"a", "class A \x7b class A \x7b A() \x7b \x7d \x7d \x7d", 0⟩

/-- A parser that knows the two classes. -/
def twinParser : Parser := fun text => if text = twinDocument.text then some twinTree else none

theorem twinTree_nestsScopes : twinTree.NestsScopes twinDocument :=
  .of_not_mem ⟨by decide +kernel, by decide +kernel, by decide +kernel, by decide +kernel⟩
    (by decide +kernel) (by decide +kernel) (by decide +kernel)

/-- The constructor of the inner class stands in the inner class, and yet it is listed with the members of the
outer one, and its source is found under the name of the outer one. -/
theorem constructor_of_inner_class_listed :
    let inner : SymbolInfo := ⟨"A", .classType, some "A", "a", ⟨⟨0, 10⟩, ⟨0, 29⟩⟩, ⟨⟨0, 16⟩, ⟨0, 17⟩⟩⟩
    let constructor : SymbolInfo := ⟨"A", .constructor, some "A", "a", ⟨⟨0, 20⟩, ⟨0, 27⟩⟩, ⟨⟨0, 20⟩, ⟨0, 21⟩⟩⟩
    twinParser.NestsScopes (soloSnapshot 0 0 twinDocument.text) ∧
    ((twinTree.attributions twinDocument).map fun a => (a.declaration.span, a.site.scope.map Tree.span)) =
      [(⟨0, 31⟩, none), (⟨10, 29⟩, some ⟨0, 31⟩), (⟨20, 27⟩, some ⟨10, 29⟩)] ∧
    Plan.typeMembers (engine twinParser) (soloSnapshot 0 0 twinDocument.text) "A" =
      .done ⟨"A", .classType, "a", [inner, constructor]⟩ ∧
    Plan.methodSource (engine twinParser) (soloSnapshot 0 0 twinDocument.text) ⟨"A", "A"⟩ =
      .done ⟨"A", "A", "a", constructor.range, "A() \x7b \x7d", 0⟩ := by
  refine ⟨fun d hmem => ?_, by decide +kernel, by decide +kernel, by decide +kernel⟩
  obtain rfl : d = twinDocument := List.mem_singleton.mp hmem
  exact ⟨twinTree, if_pos rfl, twinTree_nestsScopes⟩

end CSharp

end CodeIntel
