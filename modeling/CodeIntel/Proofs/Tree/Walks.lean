import CodeIntel.Proofs.Outcome
import CodeIntel.Tree.Index

/-! A visit step by step. At a node a visit first records what the node itself means, then goes through the
nodes of the grammar below it, and then puts the surroundings back. So a visit is a walk whose steps are all
of one form, and what every step keeps holds of the index that a walk makes. -/

namespace CodeIntel

namespace Visit

/-- What a visit does at a node before it goes on below it. -/
def enter (d : Document) (parentKind : String) (t : Tree) (visit : Visit) : Except EngineError Visit :=
  match Role.ofKind t.kind with
  | .scope kind => do
    let (visit, name) ← visit.declare d kind t
    return { visit with containers := name.toList ++ visit.containers }
  | .openScope => do
    let (visit, name) ← visit.declare d .namespaceScope t
    return { visit with containers := name.toList ++ visit.containers }
  | .plain kind => do
    let (visit, _) ← visit.declare d kind t
    return visit
  | .callable kind => do
    let (visit, name) ← visit.declare d kind t
    let visit ← match name with
      | some name => visit.addMethod d t name
      | none => pure visit
    return { visit with member := visit.qualifiedNameAt? t.span }
  | .accessor kind => do
    let (visit, _) ← visit.declare d kind t
    return { visit with member := visit.qualifiedNameAt? t.span }
  | .declarators kind => visit.addVariables d kind t
  | .invocation => .ok (visit.addCall d ((t.field? "function").or t.namedChildren.head?))
  | .creation => .ok (visit.addCall d (created? t))
  | .identifier => .ok (visit.addIdentifier d t)
  | .importing => .ok (visit.addImport d parentKind t)
  | .catching => .ok (visit.addCatch t)
  | .other => .ok visit

/-- What a visit puts back behind a node: `visit` was there before it, `inside` comes from below it. -/
def leave (d : Document) (t : Tree) (visit inside : Visit) : Visit :=
  match Role.ofKind t.kind with
  | .scope _ =>
    if (t.nameNode?.bind (·.text? d)).isSome then { inside with containers := inside.containers.tail }
    else inside
  | .callable _ | .accessor _ => { inside with member := visit.member }
  | _ => inside

section

variable {d : Document} {t : Tree} {kind : SymbolKind} {parentKind : String}
  {visit entered inside after : Visit} {name : Option String}

/-- What a declaration records: nothing without a name, else one symbol at the end. -/
inductive Declares (d : Document) (kind : SymbolKind) (t : Tree) (visit : Visit) :
    Visit → Option String → Prop where
  | unnamed : t.nameNode?.bind (·.text? d) = none → Declares d kind t visit visit none
  | named {node : Tree} {name : String} {whole selected : Range} : t.nameNode? = some node →
      node.text? d = some name → range d t.span = .ok whole → range d node.span = .ok selected →
      Declares d kind t visit
        { visit with
          index := { visit.index with
            declarations := visit.index.declarations ++
              [⟨⟨name, kind, visit.containers.head?, d.path, whole, selected⟩, t.span, node.span⟩] } }
        (some name)

theorem declares_of_declare (h : visit.declare d kind t = .ok (after, name)) :
    Declares d kind t visit after name := by
  unfold declare at h
  split at h
  · rename_i hnone
    obtain ⟨rfl, rfl⟩ := Prod.mk.inj (Except.ok.inj h)
    exact .unnamed (by rw [hnone]; rfl)
  · rename_i node hnode
    split at h
    · rename_i hnone
      obtain ⟨rfl, rfl⟩ := Prod.mk.inj (Except.ok.inj h)
      exact .unnamed (by rw [hnode]; exact hnone)
    · rename_i text htext
      obtain ⟨declared, hdeclared, h⟩ := bind_eq_ok.mp h
      obtain ⟨rfl, rfl⟩ := Prod.mk.inj (Except.ok.inj h)
      obtain ⟨whole, hwhole, hdeclared⟩ := bind_eq_ok.mp hdeclared
      obtain ⟨selected, hselected, hdeclared⟩ := bind_eq_ok.mp hdeclared
      obtain rfl := Except.ok.inj hdeclared
      exact .named hnode htext hwhole hselected

theorem Declares.isSome_eq (h : Declares d kind t visit after name) :
    (t.nameNode?.bind (·.text? d)).isSome = name.isSome := by
  cases h with
  | unnamed hnone => rw [hnone]
  | named hnode htext => rw [hnode, Option.bind_some, htext]

theorem Declares.member_eq (h : Declares d kind t visit after name) : after.member = visit.member := by
  cases h <;> rfl

/-- What a method records. -/
theorem addMethod_eq_ok {name : String} :
    visit.addMethod d t name = .ok after ↔ ∃ whole, range d t.span = .ok whole ∧
      after = { visit with
        index := { visit.index with
          methods := visit.index.methods ++
            [⟨name, visit.containers.head?, t.span, whole, t.measure d⟩] } } := by
  rw [addMethod, bind_eq_ok]
  refine exists_congr fun whole => and_congr_right fun _ => ?_
  exact ⟨fun h => (Except.ok.inj h).symm, fun h => h ▸ rfl⟩

theorem member_of_addMethod {name : String} (h : visit.addMethod d t name = .ok after) :
    after.member = visit.member := by
  obtain ⟨whole, -, rfl⟩ := addMethod_eq_ok.mp h
  rfl

/-- A visit of a node enters it, goes through what is below and leaves it. -/
theorem tree_eq (d : Document) (parentKind : String) (t : Tree) (visit : Visit) :
    Visit.tree d parentKind t visit = (do
      let entered ← enter d parentKind t visit
      let inside ← Visit.trees d t.kind t.children entered
      return leave d t visit inside) := by
  obtain ⟨head, children⟩ := t
  rw [Visit.tree]
  unfold enter leave
  simp only [Tree.kind, Tree.head_node, Tree.children_node, Tree.span]
  generalize Role.ofKind head.kind = role
  cases role with
  | scope kind =>
      dsimp only
      cases hdeclared : visit.declare d kind (.node head children) with
      | error => rfl
      | ok result =>
          obtain ⟨declared, name⟩ := result
          have hsome := (declares_of_declare hdeclared).isSome_eq
          cases name with
          | none =>
              rw [hsome]
              exact (bind_pure _).symm
          | some name =>
              rw [hsome]
              rfl
  | openScope | plain | declarators =>
      simp only [bind_assoc, pure_bind, bind_pure]
  | callable kind =>
      dsimp only
      cases hdeclared : visit.declare d kind (.node head children) with
      | error => rfl
      | ok result =>
          obtain ⟨declared, name⟩ := result
          have hmember := (declares_of_declare hdeclared).member_eq
          cases name with
          | none =>
              rw [← hmember]
              rfl
          | some name =>
              dsimp only [bind, Except.bind]
              cases hadded : declared.addMethod d (.node head children) name with
              | error => rfl
              | ok added =>
                  rw [← hmember, ← member_of_addMethod hadded]
                  rfl
  | accessor kind =>
      dsimp only
      cases hdeclared : visit.declare d kind (.node head children) with
      | error => rfl
      | ok result =>
          rw [← (declares_of_declare hdeclared).member_eq]
          rfl
  | invocation | creation | identifier | importing | catching | other =>
      exact (bind_pure _).symm

/-- What is below and behind a node does not show in what a visit has put back of its surroundings. -/
@[simp]
theorem leave_index : (leave d t visit inside).index = inside.index := by
  unfold leave
  split
  · split <;> rfl
  all_goals rfl

/-! ### Walks -/

/-- A walk through some nodes right below a node of a kind, from one state of a visit to another. -/
inductive Walks (d : Document) : String → List Tree → Visit → Visit → Prop where
  | nil {parentKind : String} {visit : Visit} : Walks d parentKind [] visit visit
  | cons {parentKind : String} {t : Tree} {rest : List Tree} {visit entered inside after : Visit} :
      enter d parentKind t visit = .ok entered → Walks d t.kind t.namedChildren entered inside →
      Walks d parentKind rest (leave d t visit inside) after →
      Walks d parentKind (t :: rest) visit after

mutual

theorem exists_walk_below (d : Document) (parentKind : String) :
    ∀ (t : Tree) (visit after : Visit), Visit.tree d parentKind t visit = .ok after →
      ∃ entered inside, enter d parentKind t visit = .ok entered ∧
        Walks d t.kind t.namedChildren entered inside ∧ after = leave d t visit inside
  | .node head children, visit, after, h => by
    rw [tree_eq] at h
    obtain ⟨entered, hentered, h⟩ := bind_eq_ok.mp h
    obtain ⟨inside, hinside, h⟩ := bind_eq_ok.mp h
    exact ⟨entered, inside, hentered, walks_of_trees d head.kind children entered inside hinside,
      (Except.ok.inj h).symm⟩

/-- A visit of some trees walks through the nodes of the grammar among them. -/
theorem walks_of_trees (d : Document) (parentKind : String) :
    ∀ (trees : List Tree) (visit after : Visit), Visit.trees d parentKind trees visit = .ok after →
      Walks d parentKind (trees.filter fun child => child.head.named) visit after
  | [], visit, after, h => by
    rw [Visit.trees] at h
    obtain rfl := Except.ok.inj h
    exact .nil
  | child :: rest, visit, after, h => by
    rw [Visit.trees] at h
    by_cases hnamed : child.head.named = true
    · rw [if_pos hnamed] at h
      obtain ⟨middle, hmiddle, h⟩ := bind_eq_ok.mp h
      obtain ⟨entered, inside, hentered, hbelow, rfl⟩ :=
        exists_walk_below d parentKind child visit middle hmiddle
      rw [List.filter_cons, if_pos hnamed]
      exact .cons hentered hbelow (walks_of_trees d parentKind rest _ after h)
    · rw [if_neg hnamed] at h
      rw [List.filter_cons, if_neg hnamed]
      exact walks_of_trees d parentKind rest visit after h

end

theorem walks_of_tree (h : Visit.tree d parentKind t visit = .ok after) :
    Walks d parentKind [t] visit after := by
  obtain ⟨entered, inside, hentered, hbelow, rfl⟩ := exists_walk_below d parentKind t visit after h
  exact .cons hentered hbelow .nil

/-! ### What a visit fails with -/

/-- Work that goes wrong reports a failure of the engine, and no fault of the request. -/
def OnlyFails {α : Type} (work : Except EngineError α) : Prop :=
  ∀ fault, work = .error fault → ∃ message, fault = .failed message

theorem onlyFails_ok {α : Type} (value : α) : OnlyFails (.ok value) := fun _ h => nomatch h

theorem OnlyFails.bind {α β : Type} {work : Except EngineError α} {next : α → Except EngineError β}
    (h : OnlyFails work) (hnext : ∀ value, OnlyFails (next value)) : OnlyFails (work >>= next) := by
  intro fault hfault
  rcases bind_eq_error.mp hfault with hfault | ⟨value, -, hfault⟩
  · exact h fault hfault
  · exact hnext value fault hfault

theorem onlyFails_range (d : Document) (span : Span) : OnlyFails (range d span) := by
  intro fault hfault
  unfold range at hfault
  split at hfault
  · cases hfault
  · exact ⟨_, (Except.error.inj hfault).symm⟩

theorem onlyFails_addDeclaration (d : Document) (kind : SymbolKind) (name : String) (span nameSpan : Span)
    (visit : Visit) : OnlyFails (visit.addDeclaration d kind name span nameSpan) :=
  (onlyFails_range d span).bind fun _ => (onlyFails_range d nameSpan).bind fun _ => onlyFails_ok _

theorem onlyFails_declare (d : Document) (kind : SymbolKind) (t : Tree) (visit : Visit) :
    OnlyFails (visit.declare d kind t) := by
  unfold declare
  split
  · exact onlyFails_ok _
  · split
    · exact onlyFails_ok _
    · exact (onlyFails_addDeclaration d kind _ _ _ visit).bind fun _ => onlyFails_ok _

theorem onlyFails_addVariable (d : Document) (kind : SymbolKind) (whole : Span) (typeStart : Nat)
    (isReadonly : Bool) (declarator : Tree) (visit : Visit) :
    OnlyFails (visit.addVariable d kind whole typeStart isReadonly declarator) := by
  unfold addVariable
  split
  · exact onlyFails_ok _
  · split
    · exact onlyFails_ok _
    · refine (onlyFails_addDeclaration d kind _ _ _ visit).bind fun _ => ?_
      split <;> exact onlyFails_ok _

theorem onlyFails_addVariables (d : Document) (kind : SymbolKind) (t : Tree) (visit : Visit) :
    OnlyFails (visit.addVariables d kind t) := by
  unfold addVariables
  split
  · exact onlyFails_ok _
  · intro fault hfault
    obtain ⟨state, declarator, -, hfault⟩ := exists_of_foldlM_eq_error hfault
    exact onlyFails_addVariable d kind _ _ _ declarator state fault hfault

theorem onlyFails_enter (d : Document) (parentKind : String) (t : Tree) (visit : Visit) :
    OnlyFails (enter d parentKind t visit) := by
  unfold enter
  split
  · exact (onlyFails_declare d _ t visit).bind fun _ => onlyFails_ok _
  · exact (onlyFails_declare d _ t visit).bind fun _ => onlyFails_ok _
  · exact (onlyFails_declare d _ t visit).bind fun _ => onlyFails_ok _
  · refine (onlyFails_declare d _ t visit).bind fun ⟨declared, name⟩ => ?_
    cases name with
    | none => exact onlyFails_ok _
    | some name =>
        have hmethod : OnlyFails (declared.addMethod d t name) :=
          (onlyFails_range d t.span).bind fun _ => onlyFails_ok _
        exact hmethod.bind fun _ => onlyFails_ok _
  · exact (onlyFails_declare d _ t visit).bind fun _ => onlyFails_ok _
  · exact onlyFails_addVariables d _ t visit
  all_goals exact onlyFails_ok _

mutual

/-- A visit reports no fault of the request. -/
theorem onlyFails_tree (d : Document) (parentKind : String) :
    ∀ (t : Tree) (visit : Visit), OnlyFails (Visit.tree d parentKind t visit)
  | .node head children, visit => by
    rw [tree_eq]
    exact (onlyFails_enter d parentKind _ visit).bind fun entered =>
      (onlyFails_trees d head.kind children entered).bind fun _ => onlyFails_ok _

theorem onlyFails_trees (d : Document) (parentKind : String) :
    ∀ (trees : List Tree) (visit : Visit), OnlyFails (Visit.trees d parentKind trees visit)
  | [], visit => onlyFails_ok visit
  | child :: rest, visit => by
    rw [Visit.trees]
    split
    · exact (onlyFails_tree d parentKind child visit).bind fun visit =>
        onlyFails_trees d parentKind rest visit
    · exact onlyFails_trees d parentKind rest visit

end

end

end Visit

/-- An index that cannot be made is a failure of the engine. -/
theorem Index.onlyFails_build (d : Document) (t : Tree) : Visit.OnlyFails (Index.build d t) :=
  (Visit.onlyFails_tree d "" t {}).bind fun _ => Visit.onlyFails_ok _

end CodeIntel
