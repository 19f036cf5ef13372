import CodeIntel.Proofs.Tree.Steps

/-! The identifiers of a document. A visit of a tree whose nodes lie in the text comes to its end and
records the identifiers in preorder, whatever else it records on the way. In a tree whose children
follow each other inside their parent these identifiers follow each other in the text. -/

namespace CodeIntel

namespace Tree

mutual

/-- A tree with all trees below it, in preorder. -/
def subtrees : Tree → List Tree
  | .node head children => .node head children :: subtreesOf children

/-- The trees at and below some trees. -/
def subtreesOf : List Tree → List Tree
  | [] => []
  | child :: rest => child.subtrees ++ subtreesOf rest

end

mutual

/-- The identifiers that are reached through nodes of the grammar, in preorder. -/
def identifiers (d : Document) : Tree → List Token
  | .node head children =>
    ((Tree.node head children).token? d).toList ++ identifiersOf d children

/-- The identifiers at and below the nodes of the grammar among some trees. -/
def identifiersOf (d : Document) : List Tree → List Token
  | [] => []
  | child :: rest => (if child.head.named then child.identifiers d else []) ++ identifiersOf d rest

end

theorem mem_subtreesOf {t : Tree} {trees : List Tree} :
    t ∈ subtreesOf trees ↔ ∃ child ∈ trees, t ∈ child.subtrees := by
  induction trees with
  | nil => simp [subtreesOf]
  | cons child rest ih => simp [subtreesOf, ih]

theorem self_mem_subtrees (t : Tree) : t ∈ t.subtrees := by
  cases t with
  | node head children =>
      rw [subtrees]
      exact List.mem_cons_self

theorem subtrees_of_mem {t child : Tree} (h : child ∈ t.children) : child.subtrees ⊆ t.subtrees := by
  cases t with
  | node head children =>
      intro other hmem
      rw [subtrees]
      exact List.mem_cons_of_mem _ (mem_subtreesOf.mpr ⟨child, h, hmem⟩)

/-- Every node lies in the text of a document, and its ends fall between characters. -/
def InText (d : Document) (t : Tree) : Prop := ∀ node ∈ t.subtrees, ∃ text, node.text? d = some text

instance (d : Document) (t : Tree) : Decidable (t.InText d) :=
  decidable_of_iff (∀ node ∈ t.subtrees, (node.text? d).isSome = true)
    (forall₂_congr fun _ _ => Option.isSome_iff_exists)

theorem InText.of_mem {d : Document} {t child : Tree} (h : t.InText d) (hmem : child ∈ t.children) :
    child.InText d := fun node hnode => h node (subtrees_of_mem hmem hnode)

theorem InText.text? {d : Document} {t : Tree} (h : t.InText d) : ∃ text, t.text? d = some text :=
  h t t.self_mem_subtrees

theorem InText.start_le_stop {d : Document} {t : Tree} (h : t.InText d) :
    t.span.start ≤ t.span.stop := by
  obtain ⟨text, htext⟩ := h.text?
  obtain ⟨_, _, -, -, hstop⟩ := Document.exists_of_slice? htext
  omega

theorem mem_of_namedChildren {t child : Tree} (h : child ∈ t.namedChildren) : child ∈ t.children :=
  (List.mem_filter.mp h).1

theorem mem_of_field? {t child : Tree} {name : String} (h : t.field? name = some child) :
    child ∈ t.children := by
  obtain ⟨index, -, hindex⟩ := Option.bind_eq_some_iff.mp h
  exact List.mem_of_getElem? hindex

theorem mem_of_childOfKind? {t child : Tree} {kind : String} (h : t.childOfKind? kind = some child) :
    child ∈ t.children :=
  mem_of_namedChildren (List.mem_of_find?_eq_some h)

/-- The node that names a declaration stands right below it. -/
theorem mem_of_nameNode? {t child : Tree} (h : t.nameNode? = some child) : child ∈ t.children := by
  unfold nameNode? at h
  dsimp only at h
  rcases Option.or_eq_some_iff.mp h with hfield | ⟨-, h⟩
  · exact mem_of_field? hfield
  · rcases Option.or_eq_some_iff.mp h with hbefore | ⟨-, hfirst⟩
    · split at hbefore
      · have hmem := List.mem_reverse.mp (List.mem_of_find?_eq_some hbefore)
        exact mem_of_namedChildren ((List.takeWhile_sublist _).subset hmem)
      · cases hbefore
    · exact mem_of_namedChildren (List.mem_of_find?_eq_some hfirst)

end Tree

namespace Visit

variable {d : Document} {t : Tree}

theorem range_of_slice? {span : Span} {text : String} (h : d.slice? span = some text) :
    Visit.range d span = .ok (d.extent span) := by
  rw [Visit.range, Document.rangeOf_of_slice? h]

theorem range_span (h : t.InText d) : Visit.range d t.span = .ok (d.extent t.span) := by
  obtain ⟨text, htext⟩ := h.text?
  exact range_of_slice? htext

/-- Recording a declaration succeeds. -/
theorem exists_declare (h : t.InText d) (kind : SymbolKind) (visit : Visit) :
    ∃ after name, visit.declare d kind t = .ok (after, name) := by
  unfold declare
  split
  · exact ⟨visit, none, rfl⟩
  · rename_i node hnode
    obtain ⟨name, hname⟩ := (h.of_mem (Tree.mem_of_nameNode? hnode)).text?
    have hselected := range_span (h.of_mem (Tree.mem_of_nameNode? hnode))
    rw [hname]
    simp only [addDeclaration, range_span h, hselected]
    exact ⟨_, _, rfl⟩

theorem exists_addMethod (h : t.InText d) (name : String) (visit : Visit) :
    ∃ after, visit.addMethod d t name = .ok after :=
  ⟨_, addMethod_eq_ok.mpr ⟨_, range_span h, rfl⟩⟩

theorem exists_addVariable (kind : SymbolKind) (typeStart : Nat) (isReadonly : Bool)
    {declarator : Tree} (h : t.InText d) (hdeclarator : declarator.InText d) (visit : Visit) :
    ∃ after, visit.addVariable d kind t.span typeStart isReadonly declarator = .ok after := by
  unfold addVariable
  split
  · exact ⟨visit, rfl⟩
  · rename_i node hnode
    have hnode' := hdeclarator.of_mem (Tree.mem_of_nameNode? hnode)
    obtain ⟨name, hname⟩ := hnode'.text?
    rw [hname]
    simp only [addDeclaration, range_span h, range_span hnode', bind, Except.bind, pure, Except.pure]
    split <;> exact ⟨_, rfl⟩

theorem exists_addVariables (h : t.InText d) (kind : SymbolKind) (visit : Visit) :
    ∃ after, visit.addVariables d kind t = .ok after := by
  unfold addVariables
  split
  · exact ⟨visit, rfl⟩
  · rename_i declaration hdeclaration
    have hbelow := h.of_mem (Tree.mem_of_childOfKind? hdeclaration)
    dsimp only
    generalize hdeclarators : declaration.namedChildren.filter
      (fun child => child.kind = "variable_declarator") = declarators
    have hall : ∀ declarator ∈ declarators, declarator.InText d := by
      intro declarator hmem
      rw [← hdeclarators] at hmem
      exact hbelow.of_mem (Tree.mem_of_namedChildren (List.mem_of_mem_filter hmem))
    clear hdeclarators
    induction declarators generalizing visit with
    | nil => exact ⟨visit, rfl⟩
    | cons declarator rest ih =>
        obtain ⟨middle, hmiddle⟩ := exists_addVariable kind
          ((declaration.field? "type").getD declaration).span.start
          (t.hasModifier d ["readonly", "const"]) h (hall declarator List.mem_cons_self) visit
        obtain ⟨after, hafter⟩ := ih middle fun other hmem => hall other (List.mem_cons_of_mem _ hmem)
        rw [List.foldlM_cons, hmiddle]
        exact ⟨after, hafter⟩

/-- At a node that lies in the text a visit goes on below it. -/
theorem enter_eq_into (h : t.InText d) (parentKind : String) (visit : Visit) :
    enter d parentKind t visit = .ok (into d parentKind t visit) := by
  suffices hgoes : ∃ after, enter d parentKind t visit = .ok after by
    obtain ⟨after, hafter⟩ := hgoes
    rw [hafter, enter_eq_ok hafter]
  unfold enter
  cases Role.ofKind t.kind with
  | scope kind | plain kind | accessor kind =>
      obtain ⟨declared, name, hdeclared⟩ := exists_declare h kind visit
      exact ⟨_, bind_eq_ok.mpr ⟨_, hdeclared, rfl⟩⟩
  | openScope =>
      obtain ⟨declared, name, hdeclared⟩ := exists_declare h .namespaceScope visit
      exact ⟨_, bind_eq_ok.mpr ⟨_, hdeclared, rfl⟩⟩
  | callable kind =>
      obtain ⟨declared, name, hdeclared⟩ := exists_declare h kind visit
      cases name with
      | none => exact ⟨_, bind_eq_ok.mpr ⟨_, hdeclared, rfl⟩⟩
      | some name =>
          obtain ⟨noted, hnoted⟩ := exists_addMethod h name declared
          exact ⟨_, bind_eq_ok.mpr ⟨_, hdeclared, bind_eq_ok.mpr ⟨noted, hnoted, rfl⟩⟩⟩
  | declarators kind => exact exists_addVariables h kind visit
  | invocation | creation | identifier | importing | catching | other => exact ⟨_, rfl⟩

mutual

/-- A visit of a tree that lies in the text comes to its end and adds the identifiers of the tree. -/
theorem exists_tree (d : Document) (parentKind : String) :
    ∀ (t : Tree) (visit : Visit), t.InText d →
      ∃ after, Visit.tree d parentKind t visit = .ok after ∧
        after.index.identifiers = visit.index.identifiers ++ t.identifiers d
  | .node head children, visit, h => by
    obtain ⟨inside, hinside, hbelow⟩ := exists_trees d head.kind children
      (into d parentKind (.node head children) visit) fun child hmem => h.of_mem hmem
    refine ⟨leave d (.node head children) visit inside, ?_, ?_⟩
    · rw [tree_eq]
      exact bind_eq_ok.mpr ⟨_, enter_eq_into h parentKind visit, bind_eq_ok.mpr ⟨inside, hinside, rfl⟩⟩
    · rw [leave_index, hbelow, Tree.identifiers, ← List.append_assoc]
      rfl

theorem exists_trees (d : Document) (parentKind : String) :
    ∀ (trees : List Tree) (visit : Visit), (∀ t ∈ trees, t.InText d) →
      ∃ after, Visit.trees d parentKind trees visit = .ok after ∧
        after.index.identifiers = visit.index.identifiers ++ Tree.identifiersOf d trees
  | [], visit, _ => ⟨visit, by rw [Visit.trees], by rw [Tree.identifiersOf, List.append_nil]⟩
  | child :: rest, visit, h => by
    have hrest := fun t hmem => h t (List.mem_cons_of_mem child hmem)
    rw [Visit.trees, Tree.identifiersOf]
    by_cases hnamed : child.head.named = true
    · obtain ⟨middle, hmiddle, hchild⟩ :=
        exists_tree d parentKind child visit (h child List.mem_cons_self)
      obtain ⟨after, hafter, hadded⟩ := exists_trees d parentKind rest middle hrest
      rw [if_pos hnamed, if_pos hnamed, hmiddle]
      refine ⟨after, hafter, ?_⟩
      rw [hadded, hchild, List.append_assoc]
    · rw [if_neg hnamed, if_neg hnamed, List.nil_append]
      exact exists_trees d parentKind rest visit hrest

end

end Visit

/-- A visit of a tree that lies in the text makes an index of its identifiers. -/
theorem Index.exists_build {d : Document} {t : Tree} (h : t.InText d) :
    ∃ index, Index.build d t = .ok index ∧ index.identifiers = t.identifiers d := by
  obtain ⟨visit, hvisit, hadded⟩ := Visit.exists_tree d "" t {} h
  rw [Index.build, hvisit]
  exact ⟨_, rfl, hadded⟩

namespace Tree

/-- What a parser promises of the tree of a text: nodes lie in the text, children follow each other
inside their parent, and an identifier has no other below it and stands on one line. -/
structure Fits (d : Document) (t : Tree) : Prop where
  inText : t.InText d
  ordered : ∀ node ∈ t.subtrees, node.children.Pairwise fun first second =>
    first.span.stop ≤ second.span.start
  inside : ∀ node ∈ t.subtrees, ∀ child ∈ node.children,
    node.span.start ≤ child.span.start ∧ child.span.stop ≤ node.span.stop
  apart : ∀ node ∈ t.subtrees, node.kind = "identifier" →
    ∀ child ∈ node.children, ∀ below ∈ child.subtrees, below.kind ≠ "identifier"
  unbroken : ∀ node ∈ t.subtrees, node.kind = "identifier" → ∀ text, node.text? d = some text →
    '\n' ∉ text.toList ∧ '\r' ∉ text.toList

/-- The part of this that is about the order of the nodes: they lie in the text, children follow each other
inside their parent, and identifiers do not nest. -/
structure Nests (d : Document) (t : Tree) : Prop where
  inText : t.InText d
  ordered : ∀ node ∈ t.subtrees, node.children.Pairwise fun first second =>
    first.span.stop ≤ second.span.start
  inside : ∀ node ∈ t.subtrees, ∀ child ∈ node.children,
    node.span.start ≤ child.span.start ∧ child.span.stop ≤ node.span.stop
  apart : ∀ node ∈ t.subtrees, node.kind = "identifier" →
    ∀ child ∈ node.children, ∀ below ∈ child.subtrees, below.kind ≠ "identifier"

theorem Fits.nests {d : Document} {t : Tree} (h : t.Fits d) : t.Nests d :=
  ⟨h.inText, h.ordered, h.inside, h.apart⟩

theorem Nests.of_mem {d : Document} {t child : Tree} (h : t.Nests d) (hmem : child ∈ t.children) :
    child.Nests d where
  inText := h.inText.of_mem hmem
  ordered node hnode := h.ordered node (subtrees_of_mem hmem hnode)
  inside node hnode := h.inside node (subtrees_of_mem hmem hnode)
  apart node hnode := h.apart node (subtrees_of_mem hmem hnode)

theorem token?_eq_some {d : Document} {t : Tree} {token : Token} :
    t.token? d = some token ↔
      t.kind = "identifier" ∧ d.slice? t.span = some token.name ∧ token.span = t.span := by
  unfold token?
  split
  · rename_i hkind
    rw [Option.map_eq_some_iff, text?]
    constructor
    · rintro ⟨name, hname, rfl⟩
      exact ⟨hkind, hname, rfl⟩
    · rintro ⟨-, hname, hspan⟩
      exact ⟨token.name, hname, by rw [← hspan]⟩
  · rename_i hkind
    exact iff_of_false (by simp) fun h => hkind h.1

mutual

theorem exists_of_mem_identifiers {d : Document} {token : Token} :
    ∀ t : Tree, token ∈ t.identifiers d → ∃ node ∈ t.subtrees, node.token? d = some token
  | .node head children, hmem => by
    rw [identifiers, List.mem_append, Option.mem_toList] at hmem
    rcases hmem with htoken | hmem
    · exact ⟨_, self_mem_subtrees _, htoken⟩
    · obtain ⟨child, hchild, node, hnode, htoken⟩ := exists_of_mem_identifiersOf children hmem
      exact ⟨node, subtrees_of_mem (t := .node head children) hchild hnode, htoken⟩

theorem exists_of_mem_identifiersOf {d : Document} {token : Token} :
    ∀ trees : List Tree, token ∈ identifiersOf d trees →
      ∃ child ∈ trees, ∃ node ∈ child.subtrees, node.token? d = some token
  | child :: rest, hmem => by
    rw [identifiersOf, List.mem_append] at hmem
    rcases hmem with hmem | hmem
    · split at hmem
      · exact ⟨child, List.mem_cons_self, exists_of_mem_identifiers child hmem⟩
      · cases hmem
    · obtain ⟨other, hother, hnode⟩ := exists_of_mem_identifiersOf rest hmem
      exact ⟨other, List.mem_cons_of_mem _ hother, hnode⟩

end

/-- An identifier has its name from the text. -/
theorem slice?_of_mem_identifiers {d : Document} {t : Tree} {token : Token}
    (h : token ∈ t.identifiers d) : d.slice? token.span = some token.name := by
  obtain ⟨node, -, hnode⟩ := exists_of_mem_identifiers t h
  obtain ⟨-, htext, hspan⟩ := token?_eq_some.mp hnode
  rw [hspan]
  exact htext

/-- The spans of some tokens follow each other inside the span of a tree. -/
def Lined (span : Span) (tokens : List Token) : Prop :=
  (∀ token ∈ tokens, span.start ≤ token.span.start ∧ token.span.stop ≤ span.stop) ∧
    tokens.Pairwise fun first second => first.span.stop ≤ second.span.start

mutual

/-- The identifiers of a tree in which nodes nest follow each other inside it. -/
theorem Nests.lined {d : Document} : ∀ t : Tree, t.Nests d → Lined t.span (t.identifiers d)
  | .node head children, h => by
    have hself := self_mem_subtrees (.node head children)
    have hbelow := linedOf head.span children (fun child hmem => h.of_mem hmem)
      (h.ordered _ hself) (h.inside _ hself)
    rw [identifiers]
    cases htoken : (Tree.node head children).token? d with
    | none => exact hbelow
    | some token =>
        obtain ⟨hkind, -, hspan⟩ := token?_eq_some.mp htoken
        -- An identifier is the only one of its tree.
        have hnone : identifiersOf d children = [] := by
          refine List.eq_nil_iff_forall_not_mem.mpr fun other hother => ?_
          obtain ⟨child, hchild, node, hnode, hother⟩ := exists_of_mem_identifiersOf children hother
          exact h.apart _ hself hkind child hchild node hnode (token?_eq_some.mp hother).1
        rw [hnone]
        refine ⟨fun other hother => ?_, List.pairwise_singleton _ _⟩
        rw [List.mem_singleton.mp hother, hspan]
        exact ⟨Nat.le_refl _, Nat.le_refl _⟩

theorem linedOf {d : Document} (span : Span) :
    ∀ trees : List Tree, (∀ t ∈ trees, t.Nests d) →
      trees.Pairwise (fun first second => first.span.stop ≤ second.span.start) →
      (∀ t ∈ trees, span.start ≤ t.span.start ∧ t.span.stop ≤ span.stop) →
      Lined span (identifiersOf d trees)
  | [], _, _, _ => by
    rw [identifiersOf]
    exact ⟨fun _ hmem => absurd hmem List.not_mem_nil, List.Pairwise.nil⟩
  | child :: rest, hnests, hordered, hinside => by
    obtain ⟨hahead, hordered⟩ := List.pairwise_cons.mp hordered
    obtain ⟨hstart, hstop⟩ := hinside child List.mem_cons_self
    have hchild := hnests child List.mem_cons_self
    have hwidth := hchild.inText.start_le_stop
    -- What follows the child has only the place behind it.
    obtain ⟨hwithin, hapart⟩ := linedOf ⟨child.span.stop, span.stop⟩ rest
      (fun t hmem => hnests t (List.mem_cons_of_mem _ hmem)) hordered
      (fun t hmem => ⟨hahead t hmem, (hinside t (List.mem_cons_of_mem _ hmem)).2⟩)
    have hrest : ∀ token ∈ identifiersOf d rest,
        span.start ≤ token.span.start ∧ token.span.stop ≤ span.stop := by
      intro token hmem
      have hbehind : child.span.stop ≤ token.span.start := (hwithin token hmem).1
      exact ⟨by omega, (hwithin token hmem).2⟩
    rw [identifiersOf]
    split
    · obtain ⟨hwithin', hapart'⟩ := Nests.lined child hchild
      refine ⟨fun token hmem => ?_, List.pairwise_append.mpr ⟨hapart', hapart, ?_⟩⟩
      · rcases List.mem_append.mp hmem with hmem | hmem
        · obtain ⟨hbehind, hbefore⟩ := hwithin' token hmem
          omega
        · exact hrest token hmem
      · intro first hfirst second hsecond
        exact Nat.le_trans (hwithin' first hfirst).2 (hwithin second hsecond).1
    · exact ⟨hrest, hapart⟩

end

/-- An identifier that is not empty is a word. -/
theorem Fits.isWord {d : Document} {t : Tree} (h : t.Fits d) {token : Token}
    (hmem : token ∈ t.identifiers d) (hname : token.name ≠ "") :
    Text.IsWord token.name.toList := by
  obtain ⟨node, hnode, htoken⟩ := exists_of_mem_identifiers t hmem
  obtain ⟨hkind, htext, -⟩ := token?_eq_some.mp htoken
  obtain ⟨hfeed, hreturn⟩ := h.unbroken node hnode hkind token.name htext
  exact ⟨fun hnil => hname (String.toList_eq_nil_iff.mp hnil), hfeed, hreturn⟩

/-- At the identifiers of a name the name stands in the text, each behind the one before. -/
theorem Fits.wordsAt {d : Document} {t : Tree} (h : t.Fits d) {name : String}
    (hword : Text.IsWord name.toList) :
    d.WordsAt name (((t.identifiers d).filter fun token => token.name = name).map Token.span) where
  isWord := hword
  stands span hspan := by
    obtain ⟨token, hmem, rfl⟩ := List.mem_map.mp hspan
    obtain ⟨hmem, hname⟩ := List.mem_filter.mp hmem
    obtain ⟨node, -, htoken⟩ := exists_of_mem_identifiers t hmem
    obtain ⟨-, htext, hspan⟩ := token?_eq_some.mp htoken
    rw [hspan, htext, of_decide_eq_true hname]
  ordered := List.pairwise_map.mpr ((Nests.lined t h.nests).2.sublist List.filter_sublist)

end Tree

end CodeIntel
