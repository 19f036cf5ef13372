import CodeIntel.Proofs.CSharp.Rename
import CodeIntel.Proofs.Tree.Records

/-! Going to a definition. What is found is declared by some document, and its own name is where it is found
again: a cursor at the start of a declared name means this name, and the declaration is the only one whose
name the cursor touches. -/

namespace CodeIntel

/-- The name of a declaration as an identifier. -/
def Declaration.token (x : Declaration) : Token := ⟨x.symbol.name, x.nameSpan⟩

/-- A declaration whose name is one of the identifiers of the text, and not empty. -/
def Declaration.IsSimple (index : Index) (x : Declaration) : Prop :=
  x.token ∈ index.identifiers ∧ x.symbol.name ≠ ""

instance (index : Index) (x : Declaration) : Decidable (x.IsSimple index) :=
  inferInstanceAs (Decidable (_ ∧ _))

namespace CSharp

/-- No identifier begins inside the end of a line. -/
def Parser.Aligns (parser : Parser) (snapshot : Snapshot) : Prop :=
  ∀ d ∈ snapshot.allDocuments, ∀ token ∈ (indexed parser d).identifiers, token.name ≠ "" →
    ¬ Lines.InsideEnd d.chars token.span.start

/-- Declared names can be told apart by where they begin. A name is either an identifier, which no other
declaration has for its name, or it is spelled like no identifier and no identifier that names a declaration
begins at it. No identifier begins where another one ends. -/
structure Parser.Distinguishes (parser : Parser) (snapshot : Snapshot) : Prop where
  named : ∀ d ∈ snapshot.allDocuments, ∀ x ∈ (indexed parser d).declarations,
    x.IsSimple (indexed parser d) ∨
      (∀ e ∈ snapshot.allDocuments, ∀ token ∈ (indexed parser e).identifiers,
        token.name ≠ x.symbol.name) ∧
      ∀ y ∈ (indexed parser d).declarations, y.IsSimple (indexed parser d) →
        x.nameSpan.touches y.nameSpan.start = false
  unique : ∀ d ∈ snapshot.allDocuments, ∀ x ∈ (indexed parser d).declarations,
    x.IsSimple (indexed parser d) → ∀ y ∈ (indexed parser d).declarations,
      y.nameSpan = x.nameSpan → y = x
  apart : ∀ d ∈ snapshot.allDocuments, ∀ token ∈ (indexed parser d).identifiers,
    ∀ other ∈ (indexed parser d).identifiers, token ≠ other → token.span.stop ≠ other.span.start

section

variable {parser : Parser} {snapshot : Snapshot} {d : Document} {offset : Nat} {x : Declaration}
  {symbol : SymbolInfo}

theorem Parser.Serves.aligns (h : parser.Serves snapshot) : parser.Aligns snapshot := by
  intro d hmem token htoken hname
  exact Document.not_insideEnd (h.nests.slice?_eq hmem htoken) (h.isWord hmem htoken hname)

/-- The index of a document records what the nodes of its tree mean. -/
theorem Parser.Nests.records (h : parser.Nests snapshot) (hmem : d ∈ snapshot.allDocuments) :
    ∃ t : Tree, parser d.text = some t ∧ t.Nests d ∧
      (indexed parser d).identifiers = t.identifiers d ∧ Index.Records d t (indexed parser d) := by
  obtain ⟨hindex, t, hparse, hnests, hidentifiers⟩ := h.indexOf_eq hmem
  rw [indexOf, hparse] at hindex
  exact ⟨t, hparse, hnests, hidentifiers, Index.records_of_build hindex⟩

theorem Parser.Nests.made (h : parser.Nests snapshot) (hmem : d ∈ snapshot.allDocuments)
    (hx : x ∈ (indexed parser d).declarations) : x.Made d := by
  obtain ⟨t, -, -, -, hrecords⟩ := h.records hmem
  exact hrecords.made x hx

/-- What a document declares is found in this document. -/
theorem Parser.Nests.document?_of_declared (h : parser.Nests snapshot) (hfiled : Filed snapshot.documents)
    (hmem : d ∈ snapshot.allDocuments) (hx : x ∈ (indexed parser d).declarations) :
    snapshot.document? x.symbol.path = some d := by
  rw [(h.made hmem hx).path]
  exact Snapshot.document?_of_mem hfiled hmem

namespace Declaration.IsSimple

/-- A cursor at the start of a declared name means this name. -/
theorem identifierAt? (hsimple : x.IsSimple (indexed parser d)) (h : parser.Nests snapshot)
    (hmem : d ∈ snapshot.allDocuments) :
    (indexed parser d).identifierAt? x.nameSpan.start = some x.token := by
  obtain ⟨whole, hlined⟩ := h.lined hmem
  have hwide := Document.start_lt_stop (h.slice?_eq hmem hsimple.1) hsimple.2
  exact Index.identifierAt?_start hlined hsimple.1 hwide

/-- The range of a declared name leads back to the name. -/
theorem offsetAt (hsimple : x.IsSimple (indexed parser d)) (h : parser.Nests snapshot)
    (haligns : parser.Aligns snapshot) (hmem : d ∈ snapshot.allDocuments)
    (hx : x ∈ (indexed parser d).declarations) :
    d.offsetAt x.symbol.selectionRange.start = .ok x.nameSpan.start := by
  have hslice := h.slice?_eq hmem hsimple.1
  rw [(h.made hmem hx).selectionRange]
  exact Document.offsetAt_start hslice (Document.start_lt_stop hslice hsimple.2)
    (haligns d hmem _ hsimple.1 hsimple.2)

end Declaration.IsSimple

/-- A declaration is found at its own name, if the start of the name touches no other declared name. -/
theorem definition_of_own (h : parser.Nests snapshot) (hmem : d ∈ snapshot.allDocuments)
    (hx : x ∈ (indexed parser d).declarations) (hsimple : x.IsSimple (indexed parser d))
    (halone : ∀ y ∈ (indexed parser d).declarations,
      y.nameSpan.touches x.nameSpan.start = true → y = x) :
    definition parser snapshot d x.nameSpan.start = .ok (some x.symbol) := by
  have htoken := Declaration.IsSimple.identifierAt? hsimple h hmem
  have hwide := Document.start_lt_stop (h.slice?_eq hmem hsimple.1) hsimple.2
  have htouches : x.nameSpan.touches x.nameSpan.start = true := by
    simp only [Declaration.token] at hwide
    simp only [Span.touches, Bool.and_eq_true, decide_eq_true_eq]
    omega
  have hown : (indexed parser d).declarationNamedAt? x.token.span.start = some x :=
    find?_eq_some_of_unique hx htouches halone
  have hsymbol : ownDeclaration? (indexed parser d) x.token = some x.symbol := by
    rw [ownDeclaration?, hown]
    exact if_pos rfl
  rw [definition, (h.indexOf_eq hmem).1]
  simp only [bind, Except.bind, htoken, hsymbol]
  rfl

/-- What is found is declared by some document, and some identifier has its name. -/
theorem exists_of_definition (h : parser.Nests snapshot) (hfiled : Filed snapshot.documents)
    (hmem : d ∈ snapshot.allDocuments)
    (hfound : definition parser snapshot d offset = .ok (some symbol)) :
    ∃ e ∈ snapshot.allDocuments, ∃ x ∈ (indexed parser e).declarations, x.symbol = symbol ∧
      ∃ token ∈ (indexed parser d).identifiers, token.name = symbol.name := by
  rw [definition, (h.indexOf_eq hmem).1, h.indexAll_eq] at hfound
  simp only [bind, Except.bind] at hfound
  split at hfound
  · cases hfound
  · rename_i token htoken
    have htoken := Index.mem_of_identifierAt? htoken
    split at hfound
    · rename_i own hown
      obtain rfl := Option.some.inj (Except.ok.inj hfound)
      unfold ownDeclaration? at hown
      split at hown
      · rename_i x hx
        split at hown
        · rename_i hname
          obtain rfl := Option.some.inj hown
          exact ⟨d, hmem, x, List.mem_of_find?_eq_some hx, rfl, token, htoken, hname.symm⟩
        · cases hown
      · cases hown
    · have hsymbol := List.mem_of_mem_head? (Except.ok.inj hfound)
      obtain ⟨hname, e, he, hsymbol⟩ := (mem_declarationsNamed hfiled hmem).mp hsymbol
      obtain ⟨x, hx, rfl⟩ := List.mem_map.mp hsymbol
      exact ⟨e, he, x, hx, rfl, token, htoken, hname.symm⟩

/-- The start of a declared name touches no other declared name. -/
theorem Parser.Distinguishes.eq_of_touches (hnames : parser.Distinguishes snapshot)
    (h : parser.Nests snapshot) (hmem : d ∈ snapshot.allDocuments)
    (hx : x ∈ (indexed parser d).declarations) (hsimple : x.IsSimple (indexed parser d))
    {y : Declaration} (hy : y ∈ (indexed parser d).declarations)
    (htouches : y.nameSpan.touches x.nameSpan.start = true) : y = x := by
  rcases hnames.named d hmem y hy with hsimple' | ⟨-, haway⟩
  · refine hnames.unique d hmem x hx hsimple y hy ?_
    obtain ⟨whole, hlined⟩ := h.lined hmem
    have hwide : x.nameSpan.start < x.nameSpan.stop :=
      Document.start_lt_stop (h.slice?_eq hmem hsimple.1) hsimple.2
    simp only [Span.touches, Bool.and_eq_true, decide_eq_true_eq] at htouches
    rcases eq_or_related_of_pairwise hlined.2 hsimple'.1 hsimple.1 with heq | hbefore | hbehind
    · exact (Token.mk.inj heq).2
    · by_contra hne
      have happart := hnames.apart d hmem _ hsimple'.1 _ hsimple.1 fun heq => hne (Token.mk.inj heq).2
      simp only [Declaration.token] at hbefore happart
      omega
    · simp only [Declaration.token] at hbehind
      omega
  · exact absurd ((haway x hx hsimple).symm.trans htouches) Bool.false_ne_true

/-- Going to a definition once more changes nothing: whatever symbol is found at an offset, the range of its
name begins at an offset of its document, and there the same symbol is found. -/
theorem definition_idempotent (h : parser.Nests snapshot) (haligns : parser.Aligns snapshot)
    (hfiled : Filed snapshot.documents) (hnames : parser.Distinguishes snapshot)
    (hmem : d ∈ snapshot.allDocuments)
    (hfound : definition parser snapshot d offset = .ok (some symbol)) :
    ∃ e start, snapshot.document? symbol.path = some e ∧
      e.offsetAt symbol.selectionRange.start = .ok start ∧
      definition parser snapshot e start = .ok (some symbol) := by
  obtain ⟨e, he, x, hx, rfl, token, htoken, hname⟩ := exists_of_definition h hfiled hmem hfound
  have hsimple : x.IsSimple (indexed parser e) :=
    (hnames.named e he x hx).resolve_right fun hother => hother.1 d hmem token htoken hname
  exact ⟨e, x.nameSpan.start, h.document?_of_declared hfiled he hx,
    Declaration.IsSimple.offsetAt hsimple h haligns he hx,
    definition_of_own h he hx hsimple fun y hy htouches =>
      hnames.eq_of_touches h he hx hsimple hy htouches⟩

end

/-! ### A class with two methods of one name -/

/-- A node between two tokens of one byte each. -/
def bracketed (kind opening closing : String) (start stop : Nat) (children : List Tree) : Tree :=
  soundNode kind true start stop []
    (soundNode opening false start (start + 1) [] [] ::
      (children ++ [soundNode closing false (stop - 1) stop [] []]))

/-- A method that gives nothing back, with a name of one byte. -/
def methodTree (start name : Nat) (parameters body : Tree) : Tree :=
  soundNode "method_declaration" true start body.span.stop
    [("body", 3), ("name", 1), ("parameters", 2), ("type", 0)]
    [soundNode "void_keyword" true start (start + 4) [] [],
      soundNode "identifier" true name (name + 1) [] [], parameters, body]

/-- The text of the class: the second method of the name calls another one. -/
def overloadText : String :=
  "class A\x7bvoid F()\x7b\x7dvoid F(int x)\x7bG();\x7dvoid G()\x7b\x7d\x7d"

/-- The tree of the class. -/
def overloadTree : Tree :=
  let parameter := soundNode "parameter" true 25 30 [("name", 1), ("type", 0)]
    [soundNode "predefined_type" true 25 28 [] [], soundNode "identifier" true 29 30 [] []]
  let call := soundNode "invocation_expression" true 32 35 [("function", 0)]
    [soundNode "identifier" true 32 33 [] [], bracketed "argument_list" "(" ")" 33 35 []]
  let statement := soundNode "expression_statement" true 32 36 [] [call, soundNode ";" false 35 36 [] []]
  soundNode "compilation_unit" true 0 48 []
    [soundNode "class_declaration" true 0 48 [("body", 2), ("name", 1)]
      [soundNode "class" false 0 5 [] [], soundNode "identifier" true 6 7 [] [],
        bracketed "declaration_list" "\x7b" "\x7d" 7 48
          [methodTree 8 13 (bracketed "parameter_list" "(" ")" 14 16 [])
              (bracketed "block" "\x7b" "\x7d" 16 18 []),
            methodTree 18 23 (bracketed "parameter_list" "(" ")" 24 31 [parameter])
              (bracketed "block" "\x7b" "\x7d" 31 37 [statement]),
            methodTree 37 42 (bracketed "parameter_list" "(" ")" 43 45 [])
              (bracketed "block" "\x7b" "\x7d" 45 47 [])]]]

/-- A parser that knows the class. -/
def overloadParser : Parser := fun text => if text = overloadText then some overloadTree else none

/-- The document of the class. -/
def overloadDocument : Document := ⟨"a", overloadText, 0⟩

/-- A workspace of this document. -/
def overloadSnapshot : Snapshot := soloSnapshot 0 0 overloadText

theorem mem_overloadSnapshot {d : Document} :
    d ∈ overloadSnapshot.allDocuments ↔ d = overloadDocument := List.mem_singleton

theorem overloadTree_fits (path : String) (version : Nat) :
    overloadTree.Fits ⟨path, overloadText, version⟩ where
  inText := (by decide +kernel : overloadTree.InText overloadDocument)
  ordered := by decide +kernel
  inside := by decide +kernel
  apart := by decide +kernel
  unbroken node hnode hkind text htext := by
    have hall : ∀ node ∈ overloadTree.subtrees, node.kind = "identifier" →
        ∀ text ∈ node.text? overloadDocument, '\n' ∉ text.toList ∧ '\r' ∉ text.toList := by
      decide +kernel
    exact hall node hnode hkind text htext

theorem overloadParser_serves : overloadParser.Serves overloadSnapshot := by
  intro d hmem
  obtain rfl := mem_overloadSnapshot.mp hmem
  exact ⟨overloadTree, if_pos rfl, overloadTree_fits _ _⟩

/-- The names that the class declares can be told apart, those of the two methods too. -/
theorem overloadParser_distinguishes : overloadParser.Distinguishes overloadSnapshot := by
  have hsimple : ∀ x ∈ (indexed overloadParser overloadDocument).declarations,
      x.IsSimple (indexed overloadParser overloadDocument) := by decide +kernel
  have hunique : ∀ x ∈ (indexed overloadParser overloadDocument).declarations,
      ∀ y ∈ (indexed overloadParser overloadDocument).declarations,
        y.nameSpan = x.nameSpan → y = x := by decide +kernel
  have hapart : ∀ token ∈ (indexed overloadParser overloadDocument).identifiers,
      ∀ other ∈ (indexed overloadParser overloadDocument).identifiers,
        token ≠ other → token.span.stop ≠ other.span.start := by decide +kernel
  refine ⟨fun d hmem x hx => ?_, fun d hmem x hx _ => ?_, fun d hmem => ?_⟩
  all_goals obtain rfl := mem_overloadSnapshot.mp hmem
  · exact .inl (hsimple x hx)
  · exact hunique x hx
  · exact hapart

/-- From the call the called method is found, and from its name the method again. -/
theorem callee_found_again : ∃ symbol,
    definition overloadParser overloadSnapshot overloadDocument 32 = .ok (some symbol) ∧
      symbol.name = "G" ∧ ∃ e start, overloadSnapshot.document? symbol.path = some e ∧
        e.offsetAt symbol.selectionRange.start = .ok start ∧
        definition overloadParser overloadSnapshot e start = .ok (some symbol) := by
  have hfound : definition overloadParser overloadSnapshot overloadDocument 32 =
      .ok (some ⟨"G", .method, some "A", "a", ⟨⟨0, 37⟩, ⟨0, 47⟩⟩, ⟨⟨0, 42⟩, ⟨0, 43⟩⟩⟩) := by
    decide +kernel
  exact ⟨_, hfound, rfl, definition_idempotent overloadParser_serves.nests overloadParser_serves.aligns
    (filed_soloSnapshot _) overloadParser_distinguishes (mem_overloadSnapshot.mpr rfl) hfound⟩

end CSharp

end CodeIntel
