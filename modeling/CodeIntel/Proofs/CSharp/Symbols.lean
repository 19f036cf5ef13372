import CodeIntel.Proofs.CSharp.References

/-! The symbol under a cursor. A parser that goes on behind a mistake puts identifiers of no width where names
are missing. A cursor means one of them if it stands exactly there and touches no identifier that has a name;
the symbol that is found then has the empty name. Everywhere else a cursor that touches no name finds
nothing. -/

namespace CodeIntel

namespace Plan

variable {engine : Engine} {store now : Store} {snapshot : Snapshot} {d : Document} {offset : Nat}
  {found : Option SymbolAtPosition}

/-- What a request for a definition answers: that there is no symbol if the engine finds none, and else the
definition if there is one. -/
theorem carriedOut_goToDefinition (cursor : Cursor) {answer : Answer}
    (hpublished : store.published = some snapshot)
    (hdocument : snapshot.document? d.path = some d)
    (hfile : store.disk.normal? snapshot.root cursor.file = some d.path)
    (hoffset : d.offsetAt cursor.position = .ok offset)
    (hsymbol : engine.symbolAt snapshot d offset = .done found) :
    (carriedOut now false (goToDefinition engine store cursor)).1 = .ok answer ↔
      (found = none ∧ answer = .definition none) ∨
      ∃ declared, found ≠ none ∧ engine.definition snapshot d offset = .done (some declared) ∧
        answer = .definition (some declared) := by
  have hanchor : anchorOf store snapshot cursor = .ok ⟨d.path, offset, cursor.position⟩ :=
    anchorOf_eq_ok hdocument hfile hoffset
  have hdone : documentOf snapshot d.path = .done d := by rw [documentOf, hdocument]
  rw [goToDefinition, Store.current_eq_ok.mpr hpublished]
  simp only [bind, Except.bind, hanchor, pure, Except.pure]
  rw [carriedOut_reply_eq_ok, and_iff_right rfl]
  constructor
  · intro hanswer
    obtain ⟨document, hdocument, hanswer⟩ := Outcome.bind_eq_done.mp hanswer
    obtain rfl := Outcome.done.inj (hdone.symm.trans hdocument)
    obtain ⟨symbol, hfound, hanswer⟩ := Outcome.bind_eq_done.mp hanswer
    obtain rfl := Outcome.done.inj (hsymbol.symm.trans (Outcome.mapError_eq_done.mp hfound))
    cases found with
    | none => exact .inl ⟨rfl, (Outcome.done.inj hanswer).symm⟩
    | some symbol =>
        obtain ⟨definition, hdefinition, hanswer⟩ := Outcome.bind_eq_done.mp hanswer
        cases definition with
        | none => cases hanswer
        | some declared =>
            exact .inr ⟨declared, Option.some_ne_none _, Outcome.mapError_eq_done.mp hdefinition,
              (Outcome.done.inj hanswer).symm⟩
  · intro hcases
    refine Outcome.bind_eq_done.mpr ⟨d, hdone, Outcome.bind_eq_done.mpr
      ⟨found, Outcome.mapError_eq_done.mpr hsymbol, ?_⟩⟩
    rcases hcases with ⟨rfl, rfl⟩ | ⟨declared, hsome, hdefinition, rfl⟩
    · rfl
    · obtain ⟨symbol, rfl⟩ := Option.ne_none_iff_exists'.mp hsome
      exact Outcome.bind_eq_done.mpr ⟨_, Outcome.mapError_eq_done.mpr hdefinition, rfl⟩

end Plan

namespace CSharp

section

variable {parser : Parser} {snapshot : Snapshot} {d : Document} {t : Tree}

/-- A request for a definition is answered by what is found at the offset of its cursor. -/
theorem dispatch_goToDefinition {store : Store} {request : Request} {cursor : Cursor} {offset : Nat}
    {found : Option SymbolAtPosition} {answer : Answer} (hasks : request.Asks (.goToDefinition cursor))
    (hpublished : store.published = some snapshot) (hdocument : snapshot.document? d.path = some d)
    (hfile : store.disk.normal? snapshot.root cursor.file = some d.path)
    (hoffset : d.offsetAt cursor.position = .ok offset) (hsymbol : symbolAt parser d offset = .ok found) :
    (dispatch (engine parser) store request false).1 = .ok answer ↔
      (found = none ∧ answer = .definition none) ∨
      ∃ declared, found ≠ none ∧ definition parser snapshot d offset = .ok (some declared) ∧
        answer = .definition (some declared) := by
  rw [dispatch_of_asks hasks]
  refine (Plan.carriedOut_goToDefinition cursor hpublished hdocument hfile hoffset
    (Outcome.ofExcept_eq_done.mpr hsymbol)).trans ?_
  simp only [engine, Outcome.ofExcept_eq_done]

/-- What a cursor finds, exactly. Nothing is found where it touches no identifier of the tree, those of no
width included, and there a request for the definition says so. What is found has an empty name exactly where
no identifier with a name is touched, so that only one of no width can be. -/
theorem symbolAt_exact (hparse : parser d.text = some t) (hnests : t.Nests d) (offset : Nat) :
    ∃ found, symbolAt parser d offset = .ok found ∧
      (found = none ↔ ∀ token ∈ t.identifiers d, token.span.touches offset = false) ∧
      (∀ symbol, found = some symbol → (symbol.name = "" ↔
        ∀ token ∈ t.identifiers d, token.name ≠ "" → token.span.touches offset = false)) ∧
      ∀ (snapshot : Snapshot) (store : Store) (request : Request) (cursor : Cursor),
        store.published = some snapshot → snapshot.document? d.path = some d →
        request.Asks (.goToDefinition cursor) →
        store.disk.normal? snapshot.root cursor.file = some d.path →
        d.offsetAt cursor.position = .ok offset →
        ((dispatch (engine parser) store request false).1 = .ok (.definition none) ↔ found = none) := by
  obtain ⟨-, hidentifiers⟩ := indexOf_of_inText hparse hnests.inText
  have hsymbol := symbolAt_of_inText hparse hnests.inText offset
  have hslice : ∀ token ∈ (indexed parser d).identifiers, d.slice? token.span = some token.name :=
    fun token hmem => Tree.slice?_of_mem_identifiers (hidentifiers ▸ hmem)
  have hordered : ∀ token ∈ (indexed parser d).identifiers, token.span.start ≤ token.span.stop := by
    intro token hmem
    obtain ⟨_, _, -, -, hstop⟩ := Document.exists_of_slice? (hslice token hmem)
    omega
  rw [← hidentifiers]
  refine ⟨_, hsymbol, ?_, ?_, ?_⟩
  · rw [Option.map_eq_none_iff, Index.identifierAt?_eq_none hordered]
  · intro symbol hfound
    obtain ⟨token, htoken, rfl⟩ := Option.map_eq_some_iff.mp hfound
    have hmem := Index.mem_of_identifierAt? htoken
    constructor
    · intro hempty other hother hname
      -- A name that is touched would be meant, or another one.
      by_contra htouches
      have hlined : Tree.Lined t.span (indexed parser d).identifiers := hidentifiers ▸ Tree.Nests.lined t hnests
      obtain ⟨chosen, hchosen, hwide⟩ := Index.exists_identifierAt? hlined hother
        (Document.start_lt_stop (hslice other hother) hname) (Bool.not_eq_false _ ▸ htouches)
      obtain rfl := Option.some.inj (htoken.symm.trans hchosen)
      obtain ⟨_, _, -, -, hstop⟩ := Document.exists_of_slice? (hslice token hmem)
      rw [show token.name = "" from hempty] at hstop
      exact absurd hstop (Nat.ne_of_lt hwide)
    · intro haway
      by_contra hname
      have htouches := Index.touches_of_identifierAt? hordered htoken
      exact Bool.false_ne_true ((haway token hmem hname).symm.trans htouches)
  · intro snapshot store request cursor hpublished hdocument hasks hfile hoffset
    refine (dispatch_goToDefinition hasks hpublished hdocument hfile hoffset hsymbol).trans ?_
    simp

end

/-! ### A field without a name -/

/-- A node of the grammar at or below which something is wrong. -/
def faultyNode (kind : String) (start stop : Nat) (fields : List (String × Nat)) (children : List Tree) :
    Tree :=
  .node ⟨kind, true, false, false, true, ⟨start, stop⟩, fields⟩ children

/-- The tree of the class: the name of the field is an identifier of no width behind its type. -/
def namelessTree : Tree :=
  let value := soundNode "equals_value_clause" true 14 17 []
    [soundNode "=" false 14 15 [] [], soundNode "integer_literal" true 16 17 [] []]
  let declarator := faultyNode "variable_declarator" 13 17 [] [faultyNode "identifier" 13 13 [] [], value]
  let declaration := faultyNode "variable_declaration" 10 17 [("type", 0)]
    [soundNode "predefined_type" true 10 13 [] [], declarator]
  faultyNode "compilation_unit" 0 20 []
    [faultyNode "class_declaration" 0 20 [("body", 2), ("name", 1)]
      [soundNode "class" false 0 5 [] [], soundNode "identifier" true 6 7 [] [],
        faultyNode "declaration_list" 8 20 []
          [soundNode "\x7b" false 8 9 [] [],
            faultyNode "field_declaration" 10 18 [] [declaration, soundNode ";" false 17 18 [] []],
            soundNode "\x7d" false 19 20 [] []]]]

/-- The document of the class. -/
def namelessDocument : Document := ⟨"a", "class A \x7b int = 3; \x7d", 0⟩

/-- A parser that knows the class. -/
def namelessParser : Parser := fun text =>
  if text = namelessDocument.text then some namelessTree else none

/-- A store with a workspace of the document. -/
def namelessStore : Store :=
  (soloWorld namelessDocument.text (some (soloSnapshot 0 0 namelessDocument.text)) [] [0]).store

theorem namelessTree_nests : namelessTree.Nests namelessDocument where
  inText := by decide +kernel
  ordered := by decide +kernel
  inside := by decide +kernel
  apart := by decide +kernel

/-- Between the type and the sign no symbol is found. -/
theorem no_symbol_before_sign :
    symbolAt namelessParser namelessDocument 14 = .ok none ∧
      (dispatch (engine namelessParser) namelessStore
        ⟨"GoToDefinition", .array [.string "a", .nat 0, .nat 14]⟩ false).1 = .ok (.definition none) := by
  have hparse : namelessParser namelessDocument.text = some namelessTree := if_pos rfl
  obtain ⟨found, hsymbol, hnone, -, hanswer⟩ := symbolAt_exact hparse namelessTree_nests 14
  obtain rfl := hnone.mpr (by decide +kernel)
  refine ⟨hsymbol, (hanswer (soloSnapshot 0 0 namelessDocument.text) _ _ ⟨"a", 0, 14⟩ rfl rfl
    ⟨.goToDefinition, rfl, rfl⟩ (by decide) (by decide +kernel)).mpr rfl⟩

/-- Right behind the type, where no identifier with a name begins or ends, a symbol with an empty name is
found, and going to its definition leads to the field. -/
theorem nameless_symbol_found :
    (∀ token ∈ namelessTree.identifiers namelessDocument,
      token.name ≠ "" → token.span.touches 13 = false) ∧
    (∃ symbol, symbolAt namelessParser namelessDocument 13 = .ok (some symbol) ∧ symbol.name = "") ∧
    ∃ field, (dispatch (engine namelessParser) namelessStore
      ⟨"GoToDefinition", .array [.string "a", .nat 0, .nat 13]⟩ false).1 =
        .ok (.definition (some field)) ∧ field.name = "" ∧ field.range = ⟨⟨0, 10⟩, ⟨0, 18⟩⟩ := by
  have hsymbol : symbolAt namelessParser namelessDocument 13 = .ok (some ⟨"", "a", ⟨⟨0, 13⟩, ⟨0, 13⟩⟩,
      some ⟨"", .field, some "A", "a", ⟨⟨0, 10⟩, ⟨0, 18⟩⟩, ⟨⟨0, 13⟩, ⟨0, 13⟩⟩⟩⟩) := by decide +kernel
  have hdefinition : definition namelessParser (soloSnapshot 0 0 namelessDocument.text) namelessDocument 13 =
      .ok (some ⟨"", .field, some "A", "a", ⟨⟨0, 10⟩, ⟨0, 18⟩⟩, ⟨⟨0, 13⟩, ⟨0, 13⟩⟩⟩) := by decide +kernel
  have hasks : Request.Asks ⟨"GoToDefinition", .array [.string "a", .nat 0, .nat 13]⟩
      (.goToDefinition ⟨"a", 0, 13⟩) := ⟨.goToDefinition, rfl, rfl⟩
  have hpublished : namelessStore.published = some (soloSnapshot 0 0 namelessDocument.text) := rfl
  have hdocument : (soloSnapshot 0 0 namelessDocument.text).document? namelessDocument.path =
      some namelessDocument := rfl
  have hoffset : namelessDocument.offsetAt ⟨0, 13⟩ = .ok 13 := by decide +kernel
  refine ⟨by decide +kernel, ⟨_, hsymbol, rfl⟩,
    ⟨"", .field, some "A", "a", ⟨⟨0, 10⟩, ⟨0, 18⟩⟩, ⟨⟨0, 13⟩, ⟨0, 13⟩⟩⟩, ?_, rfl, rfl⟩
  exact (dispatch_goToDefinition hasks hpublished hdocument (by decide) hoffset hsymbol).mpr
    (.inr ⟨_, Option.some_ne_none _, hdefinition, rfl⟩)

end CSharp

end CodeIntel
