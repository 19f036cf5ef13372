import CodeIntel.Proofs.Tree.Containers

/-! The nodes that a visit comes to, in preorder and through nodes of the grammar, each with the nodes above it.
What a node is to a visit is known from its kind: a method, a member, a namespace or type, or anything else
that declares. -/

namespace CodeIntel

/-- A node that a visit comes to, with the nodes above it, the innermost first. -/
structure Spot where
  node : Tree
  above : List Tree

/-! ### Kinds of nodes -/

namespace Tree

/-- Kinds of nodes that are methods and constructors. -/
def methodKinds : List String := ["method_declaration", "constructor_declaration"]

/-- Kinds of nodes that calls are made from. -/
def memberKinds : List String := methodKinds ++ ["property_declaration", "event_declaration"]

/-- Kinds of nodes that are namespaces and types around what is below them. -/
def scopeKinds : List String :=
  ["namespace_declaration", "class_declaration", "struct_declaration", "interface_declaration",
    "enum_declaration", "record_declaration", "record_struct_declaration"]

/-- The kind of a namespace around the rest of a document. -/
def openScopeKind : String := "file_scoped_namespace_declaration"

/-- Kinds of nodes that declare something. -/
def declarationKinds : List String :=
  openScopeKind :: scopeKinds ++ memberKinds ++ ["delegate_declaration", "enum_member_declaration",
    "field_declaration", "event_field_declaration"]

end Tree

/-- The kinds of nodes that a role is given to. -/
def Role.Suits (kind : String) : Role → Prop
  | .scope _ => kind ∈ Tree.scopeKinds
  | .openScope => kind = Tree.openScopeKind
  | .callable _ => kind ∈ Tree.methodKinds
  | .accessor _ => kind ∈ Tree.memberKinds
  | .plain _ | .declarators _ => kind ∈ Tree.declarationKinds
  | _ => True

theorem Role.suits_ofKind (kind : String) : (Role.ofKind kind).Suits kind := by
  unfold Role.ofKind
  split <;> first | trivial | (unfold Suits; decide)

namespace Tree

variable {t : Tree}

theorem isScope_iff : t.isScope = true ↔ t.kind ∈ scopeKinds := by
  constructor
  · intro h
    have hsuits := Role.suits_ofKind t.kind
    unfold isScope at h
    split at h
    · rename_i kind hrole
      rwa [hrole] at hsuits
    · cases h
  · intro h
    simp only [scopeKinds, List.mem_cons, List.not_mem_nil, or_false] at h
    rcases h with h | h | h | h | h | h | h <;> rw [isScope, h] <;> rfl

theorem isCallable_iff : t.isCallable = true ↔ t.kind ∈ methodKinds := by
  constructor
  · intro h
    have hsuits := Role.suits_ofKind t.kind
    unfold isCallable at h
    split at h
    · rename_i kind hrole
      rwa [hrole] at hsuits
    · cases h
  · intro h
    simp only [methodKinds, List.mem_cons, List.not_mem_nil, or_false] at h
    rcases h with h | h <;> rw [isCallable, h] <;> rfl

theorem isMember_iff : t.isMember = true ↔ t.kind ∈ memberKinds := by
  constructor
  · intro h
    have hsuits := Role.suits_ofKind t.kind
    unfold isMember at h
    split at h
    · rename_i kind hrole
      rw [hrole] at hsuits
      exact List.mem_append_left _ hsuits
    · rename_i kind hrole
      rwa [hrole] at hsuits
    · cases h
  · intro h
    simp only [memberKinds, methodKinds, List.mem_append, List.mem_cons, List.not_mem_nil, or_false] at h
    rcases h with (h | h) | h | h <;> rw [isMember, h] <;> rfl

theorem isOpenScope_iff : t.isOpenScope = true ↔ t.kind = openScopeKind := by
  constructor
  · intro h
    have hsuits := Role.suits_ofKind t.kind
    unfold isOpenScope at h
    split at h
    · rename_i hrole
      rwa [hrole] at hsuits
    · cases h
  · intro h
    rw [isOpenScope, h]
    rfl

theorem memberKinds_subset : memberKinds ⊆ declarationKinds := by decide

theorem mem_declarationKinds (h : t.isDeclaration = true) : t.kind ∈ declarationKinds := by
  have hsuits := Role.suits_ofKind t.kind
  have hscopes : ∀ kind ∈ scopeKinds, kind ∈ declarationKinds := by decide
  unfold isDeclaration at h
  cases hrole : Role.ofKind t.kind with
  | scope kind =>
      rw [hrole] at hsuits
      exact hscopes _ hsuits
  | openScope =>
      rw [hrole] at hsuits
      exact List.mem_cons.mpr (.inl hsuits)
  | callable kind =>
      rw [hrole] at hsuits
      exact memberKinds_subset (List.mem_append_left _ hsuits)
  | accessor kind =>
      rw [hrole] at hsuits
      exact memberKinds_subset hsuits
  | plain kind | declarators kind =>
      rw [hrole] at hsuits
      exact hsuits
  | invocation | creation | identifier | importing | catching | other =>
      rw [hrole] at h
      cases h

/-! ### Spots -/

mutual

/-- The spots at and below a node, in preorder and through nodes of the grammar. -/
def spots (above : List Tree) : Tree → List Spot
  | .node head children => ⟨.node head children, above⟩ :: spotsOf (.node head children :: above) children

/-- The spots at and below the nodes of the grammar among some trees. -/
def spotsOf (above : List Tree) : List Tree → List Spot
  | [] => []
  | child :: rest => (if child.head.named then spots above child else []) ++ spotsOf above rest

end

/-- The nodes that are reached from a node through nodes of the grammar, in preorder. -/
def reached (t : Tree) : List Tree := (t.spots []).map Spot.node

variable {d : Document} {node : Tree}

theorem spotsOf_eq (above trees : List Tree) :
    spotsOf above trees = (trees.filter fun child => child.head.named).flatMap (spots above) := by
  induction trees with
  | nil => rfl
  | cons child rest ih =>
      rw [spotsOf, ih, List.filter_cons]
      split <;> rfl

theorem spots_eq (above : List Tree) (t : Tree) :
    t.spots above = ⟨t, above⟩ :: t.namedChildren.flatMap (spots (t :: above)) := by
  obtain ⟨head, children⟩ := t
  rw [spots, spotsOf_eq]
  rfl

/-- Which nodes are reached does not depend on what is above. -/
theorem map_node_spots (above : List Tree) (t : Tree) : (t.spots above).map Spot.node = t.reached := by
  suffices hall : ∀ above above' : List Tree,
      (t.spots above).map Spot.node = (t.spots above').map Spot.node from hall above []
  induction t using induct with
  | step t ih =>
      intro above above'
      rw [spots_eq, spots_eq, List.map_cons, List.map_cons, List.map_flatMap, List.map_flatMap]
      congr 1
      exact List.flatMap_congr fun child hchild => ih child (mem_of_namedChildren hchild) _ _

theorem reached_eq (t : Tree) : t.reached = t :: t.namedChildren.flatMap reached := by
  rw [reached, spots_eq, List.map_cons, List.map_flatMap]
  congr 1
  exact List.flatMap_congr fun child _ => map_node_spots [t] child

theorem mem_reached : node ∈ t.reached ↔ node = t ∨ ∃ child ∈ t.namedChildren, node ∈ child.reached := by
  rw [reached_eq, List.mem_cons, List.mem_flatMap]

/-- What is reached comes in the order of the whole tree. -/
theorem reached_sublist (t : Tree) : t.reached.Sublist t.subtrees := by
  induction t using induct with
  | step t ih =>
      obtain ⟨head, children⟩ := t
      rw [reached_eq, subtrees]
      apply List.Sublist.cons_cons
      have hbelow : ∀ trees : List Tree, (∀ child ∈ trees, child.reached.Sublist child.subtrees) →
          ((trees.filter fun child => child.head.named).flatMap reached).Sublist (subtreesOf trees) := by
        intro trees htrees
        induction trees with
        | nil => exact List.Sublist.slnil
        | cons child rest ihrest =>
            obtain ⟨hchild, hrest⟩ := List.forall_mem_cons.mp htrees
            rw [subtreesOf, List.filter_cons]
            split
            · exact hchild.append (ihrest hrest)
            · exact (ihrest hrest).trans (List.sublist_append_right _ _)
      exact hbelow children ih

/-- Tokens of a text have nothing below them. -/
def LeafTokens (t : Tree) : Prop := ∀ node ∈ t.subtrees, node.head.named = false → node.children = []

/-- Where only nodes of the grammar have anything below them, all of these are reached. -/
theorem LeafTokens.mem_reached (h : t.LeafTokens) (hnode : node ∈ t.subtrees) (hbelow : node.children ≠ []) :
    node ∈ t.reached := by
  induction t using induct with
  | step t ih =>
      rcases mem_subtrees.mp hnode with rfl | ⟨child, hchild, hnode⟩
      · exact Tree.mem_reached.mpr (.inl rfl)
      · cases hnamed : child.head.named with
        | true =>
            have hleaves : child.LeafTokens := fun other hother => h other (subtrees_of_mem hchild hother)
            exact Tree.mem_reached.mpr
              (.inr ⟨child, List.mem_filter.mpr ⟨hchild, hnamed⟩, ih child hchild hleaves hnode⟩)
        | false =>
            have hnone := h child (subtrees_of_mem hchild child.self_mem_subtrees) hnamed
            rcases mem_subtrees.mp hnode with rfl | ⟨other, hother, -⟩
            · exact absurd hnone hbelow
            · rw [hnone] at hother
              cases hother

theorem identifiersOf_eq (d : Document) (trees : List Tree) :
    identifiersOf d trees = (trees.filter fun child => child.head.named).flatMap (identifiers d) := by
  induction trees with
  | nil => rfl
  | cons child rest ih =>
      rw [identifiersOf, ih, List.filter_cons]
      split <;> rfl

/-- The identifiers of a tree are the tokens of what is reached. -/
theorem identifiers_eq (d : Document) (t : Tree) : t.identifiers d = t.reached.filterMap (token? d) := by
  induction t using induct with
  | step t ih =>
      have htokens : t.namedChildren.flatMap (identifiers d) =
          t.namedChildren.flatMap fun child => child.reached.filterMap (token? d) :=
        List.flatMap_congr fun child hchild => ih child (mem_of_namedChildren hchild)
      rw [reached_eq, List.filterMap_cons, List.filterMap_flatMap, ← htokens]
      obtain ⟨head, children⟩ := t
      rw [identifiers, identifiersOf_eq]
      cases token? d (.node head children) <;> rfl

end Tree

/-! ### A constructor that calls -/

/-- A namespace around the rest of a document with a class in it, whose constructor calls a name. -/
def callingDocument : Document := ⟨"a", "namespace N;class A\x7bA()\x7bF();\x7d\x7d", 0⟩

/-- The tree of this document. -/
def callingTree : Tree :=
  let part (kind : String) (start stop : Nat) (fields : List (String × Nat)) (children : List Tree) : Tree :=
    .node ⟨kind, true, false, false, false, ⟨start, stop⟩, fields⟩ children
  let token (kind : String) (start stop : Nat) : Tree :=
    .node ⟨kind, false, false, false, false, ⟨start, stop⟩, []⟩ []
  let call := part "invocation_expression" 24 27 [("function", 0), ("arguments", 1)]
    [part "identifier" 24 25 [] [], part "argument_list" 25 27 [] [token "(" 25 26, token ")" 26 27]]
  let constructor := part "constructor_declaration" 20 29 [("name", 0), ("parameters", 1), ("body", 2)]
    [part "identifier" 20 21 [] [], part "parameter_list" 21 23 [] [token "(" 21 22, token ")" 22 23],
      part "block" 23 29 [] [token "\x7b" 23 24, part "expression_statement" 24 28 [] [call, token ";" 27 28],
        token "\x7d" 28 29]]
  part "compilation_unit" 0 30 [] [part "file_scoped_namespace_declaration" 0 30 [("name", 1)]
    [token "namespace" 0 9, part "identifier" 10 11 [] [], token ";" 11 12,
      part "class_declaration" 12 30 [("name", 1), ("body", 2)] [token "class" 12 17,
        part "identifier" 18 19 [] [],
        part "declaration_list" 19 30 [] [token "\x7b" 19 20, constructor, token "\x7d" 29 30]]]]

theorem callingTree_inText : callingTree.InText callingDocument := by decide +kernel

end CodeIntel
