import CodeIntel.Proofs.Source.Words
import CodeIntel.Proofs.Tree.Walks

/-! What one step of a visit does. Entering a node puts behind each list of the index what the node stands for,
and makes the surroundings of what is below it; what is put there is known from the node, the container at hand
and the member that calls are made from. All that later holds of an index comes from this one equation. -/

namespace CodeIntel

/-- What a role declares can be called if the role is that of a method or constructor, and only then. -/
def Role.Sound : Role → Prop
  | .callable kind => kind.isCallable = true
  | .scope kind | .plain kind | .accessor kind | .declarators kind => kind.isCallable = false
  | _ => True

theorem Role.sound_ofKind (kind : String) : (Role.ofKind kind).Sound := by
  unfold Role.ofKind
  split <;> first | rfl | trivial

/-- A role declares types only if it is that of a namespace or type. -/
def Role.Typeless : Role → Prop
  | .plain kind | .callable kind | .accessor kind | .declarators kind => kind.isType = false
  | _ => True

theorem Role.typeless_ofKind (kind : String) : (Role.ofKind kind).Typeless := by
  unfold Role.ofKind
  split <;> first | rfl | trivial

theorem Role.ofKind_eq_identifier {kind : String} : Role.ofKind kind = .identifier ↔ kind = "identifier" := by
  constructor
  · intro h
    unfold Role.ofKind at h
    split at h <;> first | rfl | cases h
  · rintro rfl
    rfl

theorem Role.ofKind_eq_importing {kind : String} :
    Role.ofKind kind = .importing ↔ kind = "using_directive" := by
  constructor
  · intro h
    unfold Role.ofKind at h
    split at h <;> first | rfl | cases h
  · rintro rfl
    rfl

namespace Tree

/-! ### What a node stands for -/

/-- A method or constructor. -/
def isCallable (t : Tree) : Bool :=
  match Role.ofKind t.kind with
  | .callable _ => true
  | _ => false

/-- A member that calls are made from. -/
def isMember (t : Tree) : Bool :=
  match Role.ofKind t.kind with
  | .callable _ | .accessor _ => true
  | _ => false

/-- A namespace or type around what is below it. -/
def isScope (t : Tree) : Bool :=
  match Role.ofKind t.kind with
  | .scope _ => true
  | _ => false

/-- A namespace around the rest of the document. -/
def isOpenScope (t : Tree) : Bool :=
  match Role.ofKind t.kind with
  | .openScope => true
  | _ => false

/-- A node of the kinds that declare something. -/
def isDeclaration (t : Tree) : Bool :=
  match Role.ofKind t.kind with
  | .scope _ | .openScope | .plain _ | .callable _ | .accessor _ | .declarators _ => true
  | _ => false

/-- The name that a node calls or constructs. -/
def called? (t : Tree) : Option Tree :=
  match Role.ofKind t.kind with
  | .invocation => ((t.field? "function").or t.namedChildren.head?).bind calledName?
  | .creation => (Visit.created? t).bind calledName?
  | _ => none

/-- The name that a node declares. -/
def declaredName? (d : Document) (t : Tree) : Option String := t.nameNode?.bind (·.text? d)

/-- The declaration of a name. -/
def declaration? (d : Document) (kind : SymbolKind) (container : Option String) (whole : Span)
    (name : Tree) : Option Declaration :=
  (name.text? d).map fun text =>
    ⟨⟨text, kind, container, d.path, d.extent whole, d.extent name.span⟩, whole, name.span⟩

/-- The declarations that a node makes in a container, in order. -/
def declared (d : Document) (container : Option String) (t : Tree) : List Declaration :=
  match Role.ofKind t.kind with
  | .scope kind | .plain kind | .callable kind | .accessor kind =>
    (t.nameNode?.bind (declaration? d kind container t.span)).toList
  | .openScope => (t.nameNode?.bind (declaration? d .namespaceScope container t.span)).toList
  | .declarators kind =>
    match t.childOfKind? "variable_declaration" with
    | some declaration =>
      (declaration.namedChildren.filter fun child => child.kind = "variable_declarator").filterMap
        fun declarator => declarator.nameNode?.bind (declaration? d kind container t.span)
    | none => []
  | _ => []

/-- The fields that a node declares, each with the place for a modifier. -/
def fields (d : Document) (t : Tree) : List FieldInfo :=
  match Role.ofKind t.kind with
  | .declarators kind =>
    match t.childOfKind? "variable_declaration" with
    | some declaration =>
      let typeStart := ((declaration.field? "type").getD declaration).span.start
      let isReadonly := t.hasModifier d ["readonly", "const"]
      (declaration.namedChildren.filter fun child => child.kind = "variable_declarator").filterMap
        fun declarator => declarator.nameNode?.bind fun name =>
          if kind = .field then (name.text? d).map fun _ => ⟨name.span, typeStart, isReadonly⟩ else none
    | none => []
  | _ => []

/-- The method that a node declares in a container. -/
def body? (d : Document) (container : Option String) (t : Tree) : Option MethodInfo :=
  if t.isCallable then
    (t.declaredName? d).map fun name => ⟨name, container, t.span, d.extent t.span, t.measure d⟩
  else none

/-- The call that a node makes from a member. -/
def call? (d : Document) (caller : Option String) (t : Tree) : Option Invocation :=
  t.called?.bind fun name => (name.text? d).map fun callee => ⟨callee, name.span, caller⟩

/-- The token of a node that is an identifier. -/
def token? (d : Document) (t : Tree) : Option Token :=
  if t.kind = "identifier" then (t.text? d).map fun name => ⟨name, t.span⟩ else none

/-- The import that a directive makes. -/
def imported? (d : Document) (t : Tree) : Option Import :=
  if t.kind = "using_directive" then
    (t.text? d).map fun text => ⟨t.span, Text.trimmed text⟩
  else none

/-- The span of a handler with nothing in it. -/
def emptyCatch? (t : Tree) : Option Span :=
  match Role.ofKind t.kind with
  | .catching => ((t.field? "body").or (t.childOfKind? "block")).bind fun body =>
    if body.namedChildren.isEmpty then some t.span else none
  | _ => none

variable {d : Document} {t : Tree} {container : Option String} {x : Declaration}

theorem isMember_of_isCallable (h : t.isCallable = true) : t.isMember = true := by
  unfold isCallable at h
  unfold isMember
  split at h
  · rename_i kind hrole
    rw [hrole]
  · cases h

theorem declaredName?_eq_some {name : String} :
    t.declaredName? d = some name ↔ ∃ node, t.nameNode? = some node ∧ node.text? d = some name :=
  Option.bind_eq_some_iff

/-- What a node declares has the name of the node itself, unless it is a variable; and it is a method or a type
only if the node is. -/
theorem exists_of_mem_declared (h : x ∈ t.declared d container) : t.isDeclaration = true ∧
    ∃ named kind, named.nameNode?.bind (declaration? d kind container t.span) = some x ∧
      (kind.isCallable = true → t.isCallable = true ∧ named = t) ∧
      (kind.isType = true → t.isScope = true ∧ named = t) := by
  have hsound := Role.sound_ofKind t.kind
  have htypeless := Role.typeless_ofKind t.kind
  unfold declared at h
  unfold isDeclaration isCallable isScope
  cases hrole : Role.ofKind t.kind with
  | scope kind =>
      simp only [hrole] at h hsound
      exact ⟨rfl, t, kind, Option.mem_toList.mp h,
        fun hkind => absurd (hsound.symm.trans hkind) Bool.false_ne_true, fun _ => ⟨rfl, rfl⟩⟩
  | openScope =>
      simp only [hrole] at h
      exact ⟨rfl, t, .namespaceScope, Option.mem_toList.mp h, fun hkind => absurd hkind (by decide),
        fun hkind => absurd hkind (by decide)⟩
  | callable kind =>
      simp only [hrole] at h htypeless
      exact ⟨rfl, t, kind, Option.mem_toList.mp h, fun _ => ⟨rfl, rfl⟩,
        fun hkind => absurd (htypeless.symm.trans hkind) Bool.false_ne_true⟩
  | plain kind | accessor kind =>
      simp only [hrole] at h hsound htypeless
      exact ⟨rfl, t, kind, Option.mem_toList.mp h,
        fun hkind => absurd (hsound.symm.trans hkind) Bool.false_ne_true,
        fun hkind => absurd (htypeless.symm.trans hkind) Bool.false_ne_true⟩
  | declarators kind =>
      simp only [hrole] at h hsound htypeless
      split at h
      · obtain ⟨declarator, -, h⟩ := List.mem_filterMap.mp h
        exact ⟨rfl, declarator, kind, h,
          fun hkind => absurd (hsound.symm.trans hkind) Bool.false_ne_true,
          fun hkind => absurd (htypeless.symm.trans hkind) Bool.false_ne_true⟩
      · cases h
  | invocation | creation | identifier | importing | catching | other =>
      simp only [hrole] at h
      cases h

/-- A member makes one declaration, under its name, and none without a name. -/
theorem declared_of_isMember (h : t.isMember = true) (container : Option String) :
    t.declaredName? d = none ∧ t.declared d container = [] ∨
      ∃ x, t.declaredName? d = some x.symbol.name ∧ t.declared d container = [x] := by
  have hdeclared : ∃ kind, t.declared d container =
      (t.nameNode?.bind (declaration? d kind container t.span)).toList := by
    unfold isMember at h
    split at h
    · rename_i kind hrole
      exact ⟨kind, by rw [declared, hrole]⟩
    · rename_i kind hrole
      exact ⟨kind, by rw [declared, hrole]⟩
    · cases h
  obtain ⟨kind, hdeclared⟩ := hdeclared
  rw [hdeclared, declaredName?]
  cases t.nameNode? with
  | none => exact .inl ⟨rfl, rfl⟩
  | some node =>
      rw [Option.bind_some, Option.bind_some, declaration?]
      cases node.text? d with
      | none => exact .inl ⟨rfl, rfl⟩
      | some name => exact .inr ⟨_, rfl, rfl⟩

end Tree

namespace Visit

open CodeIntel.Tree

variable {d : Document} {t : Tree} {parentKind : String} {kind : SymbolKind}
  {visit entered inside after : Visit} {name : Option String}

theorem extent_of_range {span : Span} {range : Range} (h : Visit.range d span = .ok range) :
    range = d.extent span := by
  have hrange : d.rangeOf span = .ok range := by
    unfold Visit.range at h
    split at h
    · rename_i hok
      rw [hok, Except.ok.inj h]
    · cases h
  have hposition : ∀ offset position, d.positionAt offset = .ok position →
      position = Lines.locate (Lines.lines d.chars) offset := by
    intro offset position hok
    rw [Document.positionAt, Lines.position] at hok
    split at hok
    · exact (Except.ok.inj hok).symm
    · cases hok
  obtain ⟨start, hstart, hrange⟩ := bind_eq_ok.mp hrange
  obtain ⟨stop, hstop, hrange⟩ := bind_eq_ok.mp hrange
  obtain rfl := Except.ok.inj hrange
  rw [hposition _ _ hstart, hposition _ _ hstop]
  rfl

/-- The name that a visit puts on the stack at a node. -/
def pushed (d : Document) (t : Tree) : Option String :=
  if t.isScope || t.isOpenScope then t.declaredName? d else none

/-- The index of a visit with what a node stands for put behind each of its lists. -/
def noted (d : Document) (parentKind : String) (t : Tree) (visit : Visit) : Index where
  declarations := visit.index.declarations ++ t.declared d visit.containers.head?
  identifiers := visit.index.identifiers ++ (t.token? d).toList
  invocations := visit.index.invocations ++ (t.call? d visit.member).toList
  methods := visit.index.methods ++ (t.body? d visit.containers.head?).toList
  fields := visit.index.fields ++ t.fields d
  imports := visit.index.imports ++
    (if parentKind = "compilation_unit" then t.imported? d else none).toList
  faults := visit.index.faults
  emptyCatches := visit.index.emptyCatches ++ t.emptyCatch?.toList

/-- A visit gone into a node. A member is known by the last declaration of its span. -/
def into (d : Document) (parentKind : String) (t : Tree) (visit : Visit) : Visit where
  index := noted d parentKind t visit
  containers := (pushed d t).toList ++ visit.containers
  member :=
    if t.isMember then { visit with index := noted d parentKind t visit }.qualifiedNameAt? t.span
    else visit.member

/-! ### What each kind of record adds -/

theorem addCall_eq (target : Option Tree) (visit : Visit) :
    visit.addCall d target =
      { visit with
        index := { visit.index with
          invocations := visit.index.invocations ++
            ((target.bind calledName?).bind fun name =>
              (name.text? d).map fun callee => ⟨callee, name.span, visit.member⟩).toList } } := by
  unfold addCall
  cases target.bind calledName? with
  | none => simp
  | some name => cases htext : name.text? d <;> simp [htext]

theorem addIdentifier_eq (t : Tree) (visit : Visit) :
    visit.addIdentifier d t =
      { visit with
        index := { visit.index with
          identifiers := visit.index.identifiers ++
            ((t.text? d).map fun name => ⟨name, t.span⟩).toList } } := by
  unfold addIdentifier
  cases t.text? d <;> simp

theorem addImport_eq (parentKind : String) (t : Tree) (visit : Visit) :
    visit.addImport d parentKind t =
      { visit with
        index := { visit.index with
          imports := visit.index.imports ++
            (if parentKind = "compilation_unit" then
              (t.text? d).map fun text => ⟨t.span, Text.trimmed text⟩
            else none).toList } } := by
  unfold addImport
  split
  · cases t.text? d <;> simp
  · simp

theorem addCatch_eq (t : Tree) (visit : Visit) :
    visit.addCatch t =
      { visit with
        index := { visit.index with
          emptyCatches := visit.index.emptyCatches ++
            (((t.field? "body").or (t.childOfKind? "block")).bind fun body =>
              if body.namedChildren.isEmpty then some t.span else none).toList } } := by
  unfold addCatch
  cases (t.field? "body").or (t.childOfKind? "block") with
  | none => simp
  | some body =>
      rw [Option.bind_some]
      cases hchildren : body.namedChildren <;> simp [hchildren]

/-- A declaration adds the name of the node, if it has one. -/
theorem declare_eq_ok (h : visit.declare d kind t = .ok (after, name)) :
    name = t.declaredName? d ∧
      after = { visit with
        index := { visit.index with
          declarations := visit.index.declarations ++
            (t.nameNode?.bind (declaration? d kind visit.containers.head? t.span)).toList } } := by
  cases declares_of_declare h with
  | unnamed hnone =>
      refine ⟨hnone.symm, ?_⟩
      cases hnode : t.nameNode? with
      | none => simp
      | some node =>
          rw [hnode] at hnone
          have htext : node.text? d = none := hnone
          simp [declaration?, htext]
  | named hnode htext hwhole hselected =>
      refine ⟨by rw [declaredName?, hnode, Option.bind_some, htext], ?_⟩
      simp [hnode, declaration?, htext, extent_of_range hwhole, extent_of_range hselected]

/-- A variable adds its name, and a field if it is one. -/
theorem addVariable_eq_ok {whole : Span} {typeStart : Nat} {isReadonly : Bool} {declarator : Tree}
    (h : visit.addVariable d kind whole typeStart isReadonly declarator = .ok after) :
    after = { visit with
      index := { visit.index with
        declarations := visit.index.declarations ++
          (declarator.nameNode?.bind (declaration? d kind visit.containers.head? whole)).toList
        fields := visit.index.fields ++
          (declarator.nameNode?.bind fun name =>
            if kind = .field then (name.text? d).map fun _ => ⟨name.span, typeStart, isReadonly⟩
            else none).toList } } := by
  unfold addVariable at h
  split at h
  · rename_i hnode
    obtain rfl := Except.ok.inj h
    simp [hnode]
  · rename_i node hnode
    split at h
    · rename_i htext
      obtain rfl := Except.ok.inj h
      simp [hnode, declaration?, htext]
    · rename_i text htext
      obtain ⟨declared, hdeclared, h⟩ := bind_eq_ok.mp h
      obtain ⟨range, hrange, hdeclared⟩ := bind_eq_ok.mp hdeclared
      obtain ⟨selected, hselected, hdeclared⟩ := bind_eq_ok.mp hdeclared
      obtain rfl := Except.ok.inj hdeclared
      split at h
      all_goals
        rename_i hkind
        obtain rfl := Except.ok.inj h
        simp [hnode, declaration?, htext, hkind, extent_of_range hrange, extent_of_range hselected]

/-- Variables that are declared together are added in order. -/
theorem addVariables_eq_ok (hrole : Role.ofKind t.kind = .declarators kind)
    (h : visit.addVariables d kind t = .ok after) :
    after = { visit with
      index := { visit.index with
        declarations := visit.index.declarations ++ t.declared d visit.containers.head?
        fields := visit.index.fields ++ t.fields d } } := by
  unfold addVariables at h
  rw [declared, fields, hrole]
  cases hdeclaration : t.childOfKind? "variable_declaration" with
  | none =>
      rw [hdeclaration] at h
      obtain rfl := Except.ok.inj h
      simp
  | some declaration =>
      rw [hdeclaration] at h
      dsimp only at h ⊢
      generalize List.filter _ _ = declarators at h ⊢
      induction declarators generalizing visit with
      | nil =>
          obtain rfl := Except.ok.inj h
          simp
      | cons declarator rest ih =>
          rw [List.foldlM_cons] at h
          obtain ⟨middle, hmiddle, h⟩ := bind_eq_ok.mp h
          obtain rfl := addVariable_eq_ok hmiddle
          rw [ih h]
          simp only [List.filterMap_eq_flatMap_toList, List.flatMap_cons, List.append_assoc]

/-! ### The whole step -/

theorem token?_eq (d : Document) (t : Tree) : t.token? d =
    match Role.ofKind t.kind with
    | .identifier => (t.text? d).map fun name => ⟨name, t.span⟩
    | _ => none := by
  unfold token?
  split
  · rename_i hkind
    rw [Role.ofKind_eq_identifier.mpr hkind]
  · rename_i hkind
    split
    · rename_i hrole
      exact absurd (Role.ofKind_eq_identifier.mp hrole) hkind
    · rfl

theorem imported?_eq (d : Document) (t : Tree) : t.imported? d =
    match Role.ofKind t.kind with
    | .importing => (t.text? d).map fun text => ⟨t.span, Text.trimmed text⟩
    | _ => none := by
  unfold imported?
  split
  · rename_i hkind
    rw [Role.ofKind_eq_importing.mpr hkind]
  · rename_i hkind
    split
    · rename_i hrole
      exact absurd (Role.ofKind_eq_importing.mp hrole) hkind
    · rfl

section

-- What a node stands for is settled by its role.
attribute [local simp] into noted declared fields body? call? called? token?_eq imported?_eq emptyCatch?
  isCallable isMember isScope isOpenScope pushed

/-- Entering a node adds what the node stands for, and nothing else. -/
theorem enter_eq_ok (h : enter d parentKind t visit = .ok after) : after = into d parentKind t visit := by
  unfold enter at h
  cases hrole : Role.ofKind t.kind with
  | scope kind | openScope | plain kind | accessor kind =>
      simp only [hrole] at h
      obtain ⟨⟨declaring, name⟩, hdeclared, h⟩ := bind_eq_ok.mp h
      obtain ⟨rfl, rfl⟩ := declare_eq_ok hdeclared
      obtain rfl := Except.ok.inj h
      simp [hrole]
  | callable kind =>
      simp only [hrole] at h
      obtain ⟨⟨declaring, name⟩, hdeclared, h⟩ := bind_eq_ok.mp h
      obtain ⟨rfl, rfl⟩ := declare_eq_ok hdeclared
      cases hname : t.declaredName? d with
      | none =>
          rw [hname] at h
          obtain rfl := Except.ok.inj h
          simp [hrole, hname]
      | some name =>
          rw [hname] at h
          obtain ⟨noted, hnoted, h⟩ := bind_eq_ok.mp h
          obtain rfl := Except.ok.inj h
          obtain ⟨whole, hwhole, rfl⟩ := addMethod_eq_ok.mp hnoted
          simp [hrole, hname, extent_of_range hwhole]
  | declarators kind =>
      simp only [hrole] at h
      simp [addVariables_eq_ok hrole h, hrole]
  | invocation | creation =>
      simp only [hrole] at h
      obtain rfl := Except.ok.inj h
      simp [addCall_eq, hrole]
  | identifier =>
      simp only [hrole] at h
      obtain rfl := Except.ok.inj h
      simp [addIdentifier_eq, hrole]
  | importing =>
      simp only [hrole] at h
      obtain rfl := Except.ok.inj h
      simp [addImport_eq, hrole]
  | catching =>
      simp only [hrole] at h
      obtain rfl := Except.ok.inj h
      simp [addCatch_eq, hrole]
  | other =>
      simp only [hrole] at h
      obtain rfl := Except.ok.inj h
      simp [hrole]

end

/-- What entering a node adds to a visit: declarations in the container at hand, a method, a call, a name on the
stack, and the member that what is below calls from. -/
structure Adds (d : Document) (t : Tree) (visit entered : Visit) : Prop where
  declarations : entered.index.declarations =
    visit.index.declarations ++ t.declared d visit.containers.head?
  methods : entered.index.methods = visit.index.methods ++ (t.body? d visit.containers.head?).toList
  invocations : entered.index.invocations = visit.index.invocations ++ (t.call? d visit.member).toList
  containers : entered.containers = (pushed d t).toList ++ visit.containers
  member : entered.member = if t.isMember then entered.qualifiedNameAt? t.span else visit.member

theorem adds_of_enter (h : enter d parentKind t visit = .ok entered) : Adds d t visit entered := by
  obtain rfl := enter_eq_ok h
  exact ⟨rfl, rfl, rfl, rfl, rfl⟩

theorem Adds.subset (h : Adds d t visit entered) :
    visit.index.declarations ⊆ entered.index.declarations :=
  h.declarations ▸ List.subset_append_left _ _

/-- What every step of a walk keeps of the index is kept by the whole walk. The trees are of a form that what is
right below them has as well. -/
theorem Walks.invariant (form : Tree → Prop) (known : Index → Prop) {trees : List Tree}
    (h : Walks d parentKind trees visit after) (hform : ∀ t ∈ trees, form t)
    (hbelow : ∀ t, form t → ∀ child ∈ t.namedChildren, form child)
    (hstep : ∀ parentKind t visit entered, form t → enter d parentKind t visit = .ok entered →
      known visit.index → known entered.index)
    (hknown : known visit.index) : known after.index := by
  induction h with
  | nil => exact hknown
  | @cons _ t _ _ _ _ _ hentered _ _ ihbelow ihrest =>
      obtain ⟨hself, hrest⟩ := List.forall_mem_cons.mp hform
      refine ihrest hrest ?_
      rw [leave_index]
      exact ihbelow (hbelow t hself) (hstep _ t _ _ hself hentered hknown)

theorem Walks.subset {trees : List Tree} (h : Walks d parentKind trees visit after) :
    visit.index.declarations ⊆ after.index.declarations :=
  h.invariant (fun _ => True) (visit.index.declarations ⊆ ·.declarations) (fun _ _ => trivial)
    (fun _ _ _ _ => trivial)
    (fun _ _ _ _ _ hentered hsubset => List.Subset.trans hsubset (adds_of_enter hentered).subset)
    (List.Subset.refl _)

/-! ### The member and the stack behind a node -/

/-- A member that calls are made from is put back behind it, and nothing else changes it. -/
theorem leave_member_of_isMember (h : t.isMember = true) :
    (leave d t visit inside).member = visit.member := by
  unfold isMember at h
  unfold leave
  split at h
  · rename_i hrole
    rw [hrole]
  · rename_i hrole
    rw [hrole]
  · cases h

theorem leave_member_of_not_isMember (h : t.isMember = false) :
    (leave d t visit inside).member = inside.member := by
  unfold isMember at h
  unfold leave
  split
  · split <;> rfl
  · rename_i hrole
    simp [hrole] at h
  · rename_i hrole
    simp [hrole] at h
  · rfl

/-- Behind a walk calls are made from where they were made before it. -/
theorem Walks.member_eq {trees : List Tree} (h : Walks d parentKind trees visit after) :
    after.member = visit.member := by
  induction h with
  | nil => rfl
  | @cons _ t _ visit entered inside _ hentered _ _ hbelow hrest =>
      cases hmember : t.isMember with
      | true => rw [hrest, leave_member_of_isMember hmember]
      | false =>
          rw [hrest, leave_member_of_not_isMember hmember, hbelow, (adds_of_enter hentered).member, hmember,
            if_neg Bool.false_ne_true]

/-- Leaving a node takes the name of a namespace or type from the stack again. -/
theorem leave_containers : (leave d t visit inside).containers =
    if t.isScope && (t.declaredName? d).isSome then inside.containers.tail else inside.containers := by
  unfold leave isScope
  split
  · rename_i kind hrole
    rw [hrole, Bool.true_and]
    split <;> rename_i hname
    · exact (if_pos hname).symm
    · exact (if_neg hname).symm
  · rename_i kind hrole
    rw [hrole]
    rfl
  · rename_i kind hrole
    rw [hrole]
    rfl
  · rename_i hscope _ _
    split
    · rename_i kind hrole
      exact absurd hrole (hscope kind)
    · rfl

/-! ### The member that a declaration names -/

theorem qualifiedNameAt?_eq_none {span : Span} (h : ∀ x ∈ visit.index.declarations, x.span ≠ span) :
    visit.qualifiedNameAt? span = none := by
  rw [qualifiedNameAt?, Option.map_eq_none_iff, List.find?_eq_none]
  intro x hx hspan
  exact h x (List.mem_reverse.mp hx) (of_decide_eq_true hspan)

theorem qualifiedNameAt?_of_last {span : Span} {x : Declaration} {declarations : List Declaration}
    (h : visit.index.declarations = declarations ++ [x]) (hspan : x.span = span) :
    visit.qualifiedNameAt? span = some x.symbol.qualifiedName := by
  rw [qualifiedNameAt?, h, List.reverse_append]
  simp [hspan]

end Visit

end CodeIntel
