import CodeIntel.Proofs.Tree.Steps

/-! What an index records of declarations, methods and calls. Each is made at one node and stays as it was
made: a declaration has the path of its document, its ranges are those of its spans and its name is the text
of its name; a method is recorded together with its declaration; a call is recorded with the qualified name
of the innermost member around it. -/

namespace CodeIntel

namespace Tree

/-- The member around what is below a node. -/
def innermost (outer : Option Tree) (t : Tree) : Option Tree := if t.isMember then some t else outer

/-- A node stands at or below another one, through nodes of the grammar: `outer` is the innermost member
around the upper node, and `member` the one around the lower. -/
inductive Stands : Option Tree → Tree → Option Tree → Tree → Prop where
  | here {outer : Option Tree} {t : Tree} : Stands outer t outer t
  | under {outer member : Option Tree} {t child node : Tree} : child ∈ t.namedChildren →
      Stands (t.innermost outer) child member node → Stands outer t member node

variable {outer member : Option Tree} {t node child : Tree}

theorem Stands.namedChild (h : Stands outer t member node) (hchild : child ∈ node.namedChildren) :
    Stands outer t (node.innermost member) child := by
  induction h with
  | here => exact .under hchild .here
  | under hmem _ ih => exact .under hmem (ih hchild)

end Tree

/-- A declaration as it is made: its ranges are those of its spans, and its name is in the text. -/
structure Declaration.Made (d : Document) (x : Declaration) : Prop where
  path : x.symbol.path = d.path
  range : x.symbol.range = d.extent x.span
  selectionRange : x.symbol.selectionRange = d.extent x.nameSpan
  name : d.slice? x.nameSpan = some x.symbol.name

/-- A declaration is that of a method or constructor of a tree. -/
def Declaration.IsMethodOf (root : Tree) (x : Declaration) : Prop :=
  ∃ member node name, Tree.Stands none root member node ∧ node.isCallable = true ∧
    node.nameNode? = some name ∧ x.span = node.span ∧ x.nameSpan = name.span

namespace Index

variable {d : Document} {root : Tree} {index later : Index} {member : Option Tree}
  {caller : Option String} {method : MethodInfo} {call : Invocation}

/-- A text names a member: it is the qualified name of the declaration of the member, if the member is a
method or constructor with a name. -/
def NamesMember (d : Document) (index : Index) (member : Option Tree) (caller : Option String) : Prop :=
  ∀ node, member = some node → node.isCallable = true →
    (node.nameNode?.bind (·.text? d)).isSome = true →
    ∃ x ∈ index.declarations, x.symbol.kind.isCallable = true ∧ x.span = node.span ∧
      caller = some x.symbol.qualifiedName

/-- A method has the range of its span, and is declared with it. -/
def Declares (d : Document) (index : Index) (method : MethodInfo) : Prop :=
  method.range = d.extent method.span ∧
    ∃ x ∈ index.declarations, x.symbol.kind.isCallable = true ∧ x.span = method.span

/-- A call is made at a node of a tree, from the innermost member around it. -/
def Traces (d : Document) (root : Tree) (index : Index) (call : Invocation) : Prop :=
  ∃ member site name, Tree.Stands none root member site ∧ site.called? = some name ∧
    call.nameSpan = name.span ∧ d.slice? name.span = some call.callee ∧
    NamesMember d index member call.caller

theorem NamesMember.mono (h : NamesMember d index member caller)
    (hmore : index.declarations ⊆ later.declarations) : NamesMember d later member caller := by
  intro node hmember hcallable hnamed
  obtain ⟨x, hmem, hx⟩ := h node hmember hcallable hnamed
  exact ⟨x, hmore hmem, hx⟩

theorem Declares.mono (h : Declares d index method)
    (hmore : index.declarations ⊆ later.declarations) : Declares d later method := by
  obtain ⟨hrange, x, hmem, hx⟩ := h
  exact ⟨hrange, x, hmore hmem, hx⟩

theorem Traces.mono (h : Traces d root index call)
    (hmore : index.declarations ⊆ later.declarations) : Traces d root later call := by
  obtain ⟨member, site, name, hstands, hcalled, hspan, htext, hnames⟩ := h
  exact ⟨member, site, name, hstands, hcalled, hspan, htext, hnames.mono hmore⟩

/-- What an index records, seen from the tree that it was made from. -/
structure Records (d : Document) (root : Tree) (index : Index) : Prop where
  made : ∀ x ∈ index.declarations, x.Made d
  placed : ∀ x ∈ index.declarations, x.symbol.kind.isCallable = true → x.IsMethodOf root
  bodies : ∀ x ∈ index.declarations, x.symbol.kind.isCallable = true →
    ∃ method ∈ index.methods, method.span = x.span
  declares : ∀ method ∈ index.methods, Declares d index method
  traces : ∀ call ∈ index.invocations, Traces d root index call

/-- What is known of an index stays known when more of the same form is recorded. -/
theorem Records.extend (h : Records d root index) {declarations : List Declaration}
    {methods : List MethodInfo} {calls : List Invocation}
    (hdeclarations : later.declarations = index.declarations ++ declarations)
    (hmethods : later.methods = index.methods ++ methods)
    (hcalls : later.invocations = index.invocations ++ calls)
    (hmade : ∀ x ∈ declarations, x.Made d)
    (hplaced : ∀ x ∈ declarations, x.symbol.kind.isCallable = true →
      x.IsMethodOf root ∧ ∃ method ∈ methods, method.span = x.span)
    (hdeclared : ∀ method ∈ methods, Declares d later method)
    (htraced : ∀ call ∈ calls, Traces d root later call) : Records d root later := by
  have hmore : index.declarations ⊆ later.declarations :=
    hdeclarations ▸ List.subset_append_left _ _
  refine ⟨fun x hx => ?_, fun x hx hkind => ?_, fun x hx hkind => ?_, fun method hmethod => ?_,
    fun call hcall => ?_⟩
  · rw [hdeclarations] at hx
    exact (List.mem_append.mp hx).elim (h.made x) (hmade x)
  · rw [hdeclarations] at hx
    exact (List.mem_append.mp hx).elim (h.placed x · hkind) fun hx => (hplaced x hx hkind).1
  · rw [hdeclarations] at hx
    rw [hmethods]
    rcases List.mem_append.mp hx with hx | hx
    · obtain ⟨body, hbody, hspan⟩ := h.bodies x hx hkind
      exact ⟨body, List.mem_append_left _ hbody, hspan⟩
    · obtain ⟨body, hbody, hspan⟩ := (hplaced x hx hkind).2
      exact ⟨body, List.mem_append_right _ hbody, hspan⟩
  · rw [hmethods] at hmethod
    exact (List.mem_append.mp hmethod).elim (fun hold => (h.declares method hold).mono hmore)
      (hdeclared method)
  · rw [hcalls] at hcall
    exact (List.mem_append.mp hcall).elim (fun hold => (h.traces call hold).mono hmore) (htraced call)

end Index

namespace Visit

variable {d : Document} {t root : Tree} {parentKind : String} {visit entered after : Visit}
  {member : Option Tree} {container : Option String}

/-- What a node declares is made there, and a method is made at a method. -/
theorem made_of_mem_declared {x : Declaration} (h : x ∈ t.declared d container) :
    x.Made d ∧ x.span = t.span ∧ (x.symbol.kind.isCallable = true →
      t.isCallable = true ∧ ∃ name, t.nameNode? = some name ∧ x.nameSpan = name.span) := by
  obtain ⟨-, named, kind, hx, hcallable, -⟩ := Tree.exists_of_mem_declared h
  obtain ⟨name, hname, hx⟩ := Option.bind_eq_some_iff.mp hx
  obtain ⟨text, htext, rfl⟩ := Option.map_eq_some_iff.mp hx
  refine ⟨⟨rfl, rfl, rfl, htext⟩, rfl, fun hkind => ?_⟩
  obtain ⟨ht, rfl⟩ := hcallable hkind
  exact ⟨ht, name, hname, rfl⟩

/-- A method or constructor with a name makes one declaration, and it can be called. -/
theorem exists_declared_of_isCallable (h : t.isCallable = true) (hnamed : (t.declaredName? d).isSome = true)
    (container : Option String) :
    ∃ x, t.declared d container = [x] ∧ x.symbol.kind.isCallable = true ∧ x.span = t.span := by
  have hsound := Role.sound_ofKind t.kind
  obtain ⟨name, hname⟩ := Option.isSome_iff_exists.mp hnamed
  obtain ⟨node, hnode, htext⟩ := Tree.declaredName?_eq_some.mp hname
  unfold Tree.isCallable at h
  split at h
  · rename_i kind hrole
    rw [hrole] at hsound
    have hdeclared : t.declared d container = (Tree.declaration? d kind container t.span node).toList := by
      simp only [Tree.declared, hrole, hnode, Option.bind_some]
    rw [Tree.declaration?, htext] at hdeclared
    exact ⟨_, hdeclared, hsound, rfl⟩
  · cases h

/-- A method that can be called is recorded together with its declaration. -/
theorem exists_body_of_mem_declared {x : Declaration} (h : x ∈ t.declared d container)
    (hkind : x.symbol.kind.isCallable = true) :
    ∃ method, t.body? d container = some method ∧ method.span = x.span := by
  obtain ⟨hmade, hspan, hmethod⟩ := made_of_mem_declared h
  obtain ⟨hcallable, name, hname, hnameSpan⟩ := hmethod hkind
  have htext := hmade.name
  rw [hnameSpan] at htext
  have hnamed : t.declaredName? d = some x.symbol.name :=
    Tree.declaredName?_eq_some.mpr ⟨name, hname, htext⟩
  exact ⟨_, by rw [Tree.body?, if_pos hcallable, hnamed]; rfl, hspan.symm⟩

/-- Entering a node keeps what is known of the index. -/
theorem Adds.records (h : Adds d t visit entered) (hstands : Tree.Stands none root member t)
    (hnames : Index.NamesMember d visit.index member visit.member)
    (hrecords : Index.Records d root visit.index) : Index.Records d root entered.index := by
  refine hrecords.extend h.declarations h.methods h.invocations
    (fun x hx => (made_of_mem_declared hx).1) ?_ ?_ ?_
  · intro x hx hkind
    obtain ⟨-, hspan, hmethod⟩ := made_of_mem_declared hx
    obtain ⟨hcallable, name, hname, hnameSpan⟩ := hmethod hkind
    obtain ⟨method, hbody, hmethodSpan⟩ := exists_body_of_mem_declared hx hkind
    exact ⟨⟨member, t, name, hstands, hcallable, hname, hspan, hnameSpan⟩, method,
      Option.mem_toList.mpr hbody, hmethodSpan⟩
  · intro method hmethod
    have hbody := Option.mem_toList.mp hmethod
    unfold Tree.body? at hbody
    split at hbody
    · rename_i hcallable
      obtain ⟨name, hname, rfl⟩ := Option.map_eq_some_iff.mp hbody
      obtain ⟨x, hx, hkind, hspan⟩ := exists_declared_of_isCallable hcallable
        (Option.isSome_of_mem hname) visit.containers.head?
      refine ⟨rfl, x, ?_, hkind, hspan⟩
      rw [h.declarations, hx]
      exact List.mem_append_right _ List.mem_cons_self
    · cases hbody
  · intro call hcall
    obtain ⟨name, hcalled, hcall⟩ := Option.bind_eq_some_iff.mp (Option.mem_toList.mp hcall)
    obtain ⟨callee, htext, rfl⟩ := Option.map_eq_some_iff.mp hcall
    exact ⟨member, t, name, hstands, hcalled, rfl, htext, hnames.mono h.subset⟩

/-- Below a node the innermost member is named. -/
theorem Adds.namesMember (h : Adds d t visit entered)
    (hnames : Index.NamesMember d visit.index member visit.member) :
    Index.NamesMember d entered.index (t.innermost member) entered.member := by
  unfold Tree.innermost
  rw [h.member]
  split
  · rintro node ⟨⟩ hcallable hnamed
    obtain ⟨x, hx, hkind, hspan⟩ :=
      exists_declared_of_isCallable hcallable hnamed visit.containers.head?
    have hdeclarations := h.declarations
    rw [hx] at hdeclarations
    exact ⟨x, hdeclarations ▸ List.mem_append_right _ List.mem_cons_self, hkind, hspan,
      qualifiedNameAt?_of_last hdeclarations hspan⟩
  · exact hnames.mono h.subset

/-- A walk keeps what is known of the index. -/
theorem Walks.records {trees : List Tree} (h : Walks d parentKind trees visit after)
    (hstands : ∀ t ∈ trees, Tree.Stands none root member t)
    (hnames : Index.NamesMember d visit.index member visit.member)
    (hrecords : Index.Records d root visit.index) : Index.Records d root after.index := by
  induction h generalizing member with
  | nil => exact hrecords
  | @cons parentKind t rest visit entered inside after hentered hbelow hbehind ihbelow ihbehind =>
      have ht := hstands t List.mem_cons_self
      have hadds := adds_of_enter hentered
      have hinside := ihbelow (fun child hchild => ht.namedChild hchild) (hadds.namesMember hnames)
        (hadds.records ht hnames hrecords)
      refine ihbehind (fun other hother => hstands other (List.mem_cons_of_mem _ hother)) ?_ ?_
      · rw [leave_index]
        have hback : (leave d t visit inside).member = visit.member :=
          (Walks.cons hentered hbelow .nil).member_eq
        rw [hback]
        exact hnames.mono (List.Subset.trans hadds.subset hbelow.subset)
      · rw [leave_index]
        exact hinside

end Visit

/-- The index that is made from a tree records what its nodes mean. -/
theorem Index.records_of_build {d : Document} {t : Tree} {index : Index}
    (h : Index.build d t = .ok index) : Index.Records d t index := by
  obtain ⟨visit, hvisit, h⟩ := bind_eq_ok.mp h
  obtain rfl := Except.ok.inj h
  have hnone : ∀ index, NamesMember d index none none := fun _ _ hnode => nomatch hnode
  have hempty : Records d t {} := by
    constructor <;> intro _ hmem <;> cases hmem
  have hrecords : Records d t visit.index := (Visit.walks_of_tree hvisit).records
    (fun other hother => List.mem_singleton.mp hother ▸ .here) (hnone _) hempty
  obtain ⟨hmade, hplaced, hbodies, hdeclares, htraces⟩ := hrecords
  exact ⟨hmade, hplaced, hbodies, hdeclares, htraces⟩

end CodeIntel
