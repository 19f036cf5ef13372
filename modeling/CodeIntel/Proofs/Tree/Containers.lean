import CodeIntel.Proofs.Tree.Members

/-! The containers of declarations. A visit keeps the names of the namespaces and types around it on a stack,
and a namespace around the rest of the document stays on that stack for good. Seen from the tree, the
container of a declaration is the innermost namespace or type around it that has a name, and where there is
none the last such namespace in front of it. -/

namespace CodeIntel

namespace Tree

/-- The namespace or type around what is below a node: the node itself if it is one and has a name. -/
def scopeBelow (d : Document) (scope : Option Tree) (t : Tree) : Option Tree :=
  if t.isScope && (t.declaredName? d).isSome then some t else scope

/-- The name of the namespace around the rest of the document, at a node and behind it. -/
def opens (d : Document) (opened : Option String) (t : Tree) : Option String :=
  if t.isOpenScope then (t.declaredName? d).or opened else opened

/-- No namespace around the rest of the document is at or below a node. -/
def IsClosed (t : Tree) : Prop := ∀ node ∈ t.subtrees, node.isOpenScope = false

/-- No namespace around the rest of the document is below another namespace or a type. -/
def OpensOnTop (t : Tree) : Prop := ∀ node ∈ t.subtrees, node.isScope = true → node.IsClosed

instance (t : Tree) : Decidable t.IsClosed :=
  inferInstanceAs (Decidable (∀ node ∈ t.subtrees, node.isOpenScope = false))

instance (t : Tree) : Decidable t.OpensOnTop :=
  inferInstanceAs (Decidable (∀ node ∈ t.subtrees, node.isScope = true → node.IsClosed))

end Tree

/-- A node that a visit comes to, with the innermost namespace or type around it that has a name. -/
structure Site where
  node : Tree
  scope : Option Tree

/-- A declaration with the site that makes it. -/
structure Attribution where
  declaration : Declaration
  site : Site

/-- The name of the container of what a site declares. -/
def Site.container (d : Document) (opened : Option String) (site : Site) : Option String :=
  (site.scope.bind (·.declaredName? d)).or opened

/-- What some sites declare one after the other. -/
def attributed (d : Document) : Option String → List Site → List Attribution
  | _, [] => []
  | opened, site :: rest =>
    (site.node.declared d (site.container d opened)).map (⟨·, site⟩) ++
      attributed d (site.node.opens d opened) rest

/-- The name of the namespace around the rest of the document behind some sites. -/
def openedBehind (d : Document) (opened : Option String) (sites : List Site) : Option String :=
  sites.foldl (fun opened site => site.node.opens d opened) opened

namespace Tree

mutual

/-- The sites at and below a node, in the order of a visit. -/
def sites (d : Document) (scope : Option Tree) : Tree → List Site
  | .node head children =>
    ⟨.node head children, scope⟩ :: sitesOf d (scopeBelow d scope (.node head children)) children

/-- The sites at and below the nodes of the grammar among some trees. -/
def sitesOf (d : Document) (scope : Option Tree) : List Tree → List Site
  | [] => []
  | child :: rest => (if child.head.named then sites d scope child else []) ++ sitesOf d scope rest

end

/-- What a tree declares, in the order of a visit. -/
def attributions (d : Document) (t : Tree) : List Attribution := attributed d none (t.sites d none)

variable {d : Document} {t child node s : Tree} {scope : Option Tree} {opened : Option String}
  {site other : Site} {p q : List Site} {a : Attribution} {container : Option String} {x : Declaration}

theorem sitesOf_eq (d : Document) (scope : Option Tree) (trees : List Tree) :
    sitesOf d scope trees = (trees.filter fun child => child.head.named).flatMap (sites d scope) := by
  induction trees with
  | nil => rfl
  | cons child rest ih =>
      rw [sitesOf, ih, List.filter_cons]
      split
      · rfl
      · rfl

theorem sites_eq (d : Document) (scope : Option Tree) (t : Tree) :
    t.sites d scope = ⟨t, scope⟩ :: t.namedChildren.flatMap (sites d (t.scopeBelow d scope)) := by
  obtain ⟨head, children⟩ := t
  rw [sites, sitesOf_eq]
  rfl

theorem mem_sites : site ∈ t.sites d scope ↔
    site = ⟨t, scope⟩ ∨ ∃ child ∈ t.namedChildren, site ∈ child.sites d (t.scopeBelow d scope) := by
  rw [sites_eq, List.mem_cons, List.mem_flatMap]

theorem mem_subtrees_of_mem_sites (h : site ∈ t.sites d scope) : site.node ∈ t.subtrees := by
  induction t using induct generalizing scope with
  | step t ih =>
      rcases mem_sites.mp h with rfl | ⟨child, hchild, h⟩
      · exact t.self_mem_subtrees
      · have hchild := mem_of_namedChildren hchild
        exact subtrees_of_mem hchild (ih child hchild h)

/-! ### What a node declares -/

theorem isDeclaration_of_isScope (h : t.isScope = true) : t.isDeclaration = true := by
  unfold isScope at h
  unfold isDeclaration
  split at h
  · rename_i kind hrole
    rw [hrole]
  · cases h

/-- What a node records in a container: it has the span and the extent of the node, and a type is recorded by a
namespace or type with its name. -/
structure Records (d : Document) (container : Option String) (t : Tree) (x : Declaration) : Prop where
  isDeclaration : t.isDeclaration = true
  span : x.span = t.span
  range : x.symbol.range = d.extent t.span
  container : x.symbol.containerName = container
  type : x.symbol.kind.isType = true → t.isScope = true ∧ t.declaredName? d = some x.symbol.name

theorem records_of_mem_declared (h : x ∈ t.declared d container) : Records d container t x := by
  obtain ⟨hdeclaration, named, kind, hx, -, htype⟩ := exists_of_mem_declared h
  obtain ⟨node, hnode, hx⟩ := Option.bind_eq_some_iff.mp hx
  obtain ⟨text, htext, rfl⟩ := Option.map_eq_some_iff.mp hx
  refine ⟨hdeclaration, rfl, rfl, rfl, fun hkind => ?_⟩
  obtain ⟨hscope, rfl⟩ := htype hkind
  exact ⟨hscope, declaredName?_eq_some.mpr ⟨node, hnode, htext⟩⟩

/-- What is declared is recorded by one of the sites. -/
theorem records_of_mem_attributed (h : a ∈ attributed d opened p) :
    a.site ∈ p ∧ ∃ opened, Records d (a.site.container d opened) a.site.node a.declaration := by
  induction p generalizing opened with
  | nil => cases h
  | cons site rest ih =>
      rw [attributed] at h
      rcases List.mem_append.mp h with h | h
      · obtain ⟨x, hx, rfl⟩ := List.mem_map.mp h
        exact ⟨List.mem_cons_self, opened, records_of_mem_declared hx⟩
      · obtain ⟨hsite, hrecords⟩ := ih h
        exact ⟨List.mem_cons_of_mem _ hsite, hrecords⟩

end Tree

/-! ### A whole visit -/

section

open CodeIntel.Tree

variable {d : Document} {t child : Tree} {scope : Option Tree} {opened : Option String} {p q : List Site}

theorem attributed_append (d : Document) (opened : Option String) (p q : List Site) :
    attributed d opened (p ++ q) = attributed d opened p ++ attributed d (openedBehind d opened p) q := by
  induction p generalizing opened with
  | nil => rfl
  | cons site rest ih =>
      rw [List.cons_append, attributed, attributed, ih, List.append_assoc]
      rfl

theorem declarations_attributed_cons (d : Document) (opened : Option String) (site : Site)
    (rest : List Site) : (attributed d opened (site :: rest)).map Attribution.declaration =
      site.node.declared d (site.container d opened) ++
        (attributed d (site.node.opens d opened) rest).map Attribution.declaration := by
  rw [attributed, List.map_append, List.map_map]
  exact congrArg (· ++ _) (List.map_id _)

theorem openedBehind_append (d : Document) (opened : Option String) (p q : List Site) :
    openedBehind d opened (p ++ q) = openedBehind d (openedBehind d opened p) q :=
  List.foldl_append

theorem openedBehind_of_forall (h : ∀ site ∈ p, site.node.isOpenScope = false) :
    openedBehind d opened p = opened := by
  induction p with
  | nil => rfl
  | cons site rest ih =>
      have hself : site.node.opens d opened = opened := by
        rw [opens, h site List.mem_cons_self, if_neg Bool.false_ne_true]
      rw [openedBehind, List.foldl_cons, hself]
      exact ih fun other hother => h other (List.mem_cons_of_mem _ hother)

namespace Tree

theorem IsClosed.of_mem (h : t.IsClosed) (hchild : child ∈ t.namedChildren) : child.IsClosed :=
  fun node hnode => h node (subtrees_of_mem (mem_of_namedChildren hchild) hnode)

theorem IsClosed.opensOnTop (h : t.IsClosed) : t.OpensOnTop := fun _ hnode _ below hbelow =>
  h below (subtrees_trans hnode hbelow)

theorem OpensOnTop.of_mem (h : t.OpensOnTop) (hchild : child ∈ t.namedChildren) : child.OpensOnTop :=
  fun node hnode => h node (subtrees_of_mem (mem_of_namedChildren hchild) hnode)

theorem IsClosed.openedBehind (h : t.IsClosed) (scope : Option Tree) :
    openedBehind d opened (t.sites d scope) = opened :=
  openedBehind_of_forall fun _ hsite => h _ (mem_subtrees_of_mem_sites hsite)

/-- A namespace around the rest of the document is in no scope, if scopes hold none. -/
theorem scope_eq_none (hclosed : scope ≠ none → t.IsClosed) (hopen : t.isOpenScope = true) : scope = none := by
  by_contra hsome
  exact Bool.false_ne_true ((hclosed hsome t t.self_mem_subtrees).symm.trans hopen)

/-- What is below a node in a scope holds no namespace around the rest of the document either. -/
theorem OpensOnTop.isClosed_of_mem (h : t.OpensOnTop) (hclosed : scope ≠ none → t.IsClosed)
    (hsome : t.scopeBelow d scope ≠ none) (hchild : child ∈ t.namedChildren) : child.IsClosed := by
  unfold scopeBelow at hsome
  split at hsome
  · rename_i hscope
    exact (h t t.self_mem_subtrees (Bool.and_eq_true_iff.mp hscope).1).of_mem hchild
  · exact (hclosed hsome).of_mem hchild

theorem isOpenScope_of_isScope (h : t.isScope = true) : t.isOpenScope = false := by
  unfold isScope at h
  unfold isOpenScope
  split at h
  · rename_i kind hrole
    rw [hrole]
  · cases h

end Tree

namespace Visit

variable {parentKind : String} {visit entered inside after : Visit} {trees : List Tree}

/-- The innermost name on the stack of a visit is that of the container at a site. -/
def Surrounded (d : Document) (scope : Option Tree) (opened : Option String) (visit : Visit) : Prop :=
  visit.containers.head? = (scope.bind (·.declaredName? d)).or opened

/-- Entering a node leads into its scope. -/
theorem Surrounded.enter (h : Surrounded d scope opened visit) (hopen : t.isOpenScope = true → scope = none)
    (hentered : Visit.enter d parentKind t visit = .ok entered) :
    Surrounded d (t.scopeBelow d scope) (t.opens d opened) entered := by
  have hcontainers := (adds_of_enter hentered).containers
  unfold Surrounded at h ⊢
  rw [hcontainers, pushed, scopeBelow, opens]
  cases hscope : t.isScope with
  | true =>
      rw [isOpenScope_of_isScope hscope]
      cases hname : t.declaredName? d with
      | none => exact h
      | some name => exact (congrArg (Option.or · opened) hname).symm
  | false =>
      cases hopened : t.isOpenScope with
      | true =>
          obtain rfl := hopen hopened
          have h : visit.containers.head? = opened := h
          cases hname : t.declaredName? d with
          | none => exact h
          | some name => rfl
      | false => exact h

/-- Behind a node the stack is as it was before it, if it is behind what is below the node. -/
theorem containers_of_leave (hentered : Visit.enter d parentKind t visit = .ok entered)
    (hplain : t.isOpenScope = false) (hback : inside.containers = entered.containers) :
    (leave d t visit inside).containers = visit.containers := by
  rw [leave_containers, hback, (adds_of_enter hentered).containers, pushed, hplain, Bool.or_false]
  cases t.isScope with
  | false => rfl
  | true => cases t.declaredName? d <;> rfl

/-- Leaving a node leads back into the scope around it. -/
theorem Surrounded.leave (h : Surrounded d scope opened visit) (htop : t.OpensOnTop)
    (hentered : Visit.enter d parentKind t visit = .ok entered)
    (hinside : Surrounded d (t.scopeBelow d scope) (openedBehind d (t.opens d opened)
      (t.namedChildren.flatMap (sites d (t.scopeBelow d scope)))) inside)
    (hback : (∀ child ∈ t.namedChildren, child.IsClosed) → inside.containers = entered.containers) :
    Surrounded d scope (openedBehind d opened (t.sites d scope)) (Visit.leave d t visit inside) := by
  cases hscope : t.isScope && (t.declaredName? d).isSome with
  | true =>
      have hself := (Bool.and_eq_true_iff.mp hscope).1
      have hclosed := htop t t.self_mem_subtrees hself
      have hstack := containers_of_leave hentered (isOpenScope_of_isScope hself)
        (hback fun child hchild => hclosed.of_mem hchild)
      rw [hclosed.openedBehind, Surrounded, hstack]
      exact h
  | false =>
      have hbelow : t.scopeBelow d scope = scope := by
        rw [scopeBelow, hscope, if_neg Bool.false_ne_true]
      rw [hbelow] at hinside
      rw [Surrounded, leave_containers, hscope, if_neg Bool.false_ne_true, sites_eq, hbelow]
      exact hinside

/-- A walk adds what the sites on its way declare. Behind it the innermost name is again that of the scope
around it, and no name is left on the stack but those of namespaces around the rest of the document. -/
theorem Walks.attributed (h : Walks d parentKind trees visit after)
    (htop : ∀ t ∈ trees, t.OpensOnTop) (hclosed : scope ≠ none → ∀ t ∈ trees, t.IsClosed)
    (hsurrounded : Surrounded d scope opened visit) :
    after.index.declarations = visit.index.declarations ++
        (CodeIntel.attributed d opened (trees.flatMap (sites d scope))).map Attribution.declaration ∧
      Surrounded d scope (openedBehind d opened (trees.flatMap (sites d scope))) after ∧
      ((∀ t ∈ trees, t.IsClosed) → after.containers = visit.containers) := by
  induction h generalizing scope opened with
  | nil => exact ⟨(List.append_nil _).symm, hsurrounded, fun _ => rfl⟩
  | @cons parentKind t rest visit entered inside after hentered hbelow hbehind ihbelow ihbehind =>
      obtain ⟨hself, hrest⟩ := List.forall_mem_cons.mp htop
      have hhere : scope ≠ none → t.IsClosed := fun hsome => hclosed hsome t List.mem_cons_self
      obtain ⟨hinside, hsurrounded', hback⟩ := ihbelow (fun child hchild => hself.of_mem hchild)
        (fun hsome child hchild => hself.isClosed_of_mem hhere hsome hchild)
        (hsurrounded.enter (scope_eq_none hhere) hentered)
      obtain ⟨hadded, hbehind', hback'⟩ := ihbehind hrest
        (fun hsome other hother => hclosed hsome other (List.mem_cons_of_mem _ hother))
        (hsurrounded.leave hself hentered hsurrounded' hback)
      refine ⟨?_, ?_, fun hall => ?_⟩
      · have hcontainer : visit.containers.head? = Site.container d opened ⟨t, scope⟩ := hsurrounded
        rw [hadded, leave_index, hinside, (adds_of_enter hentered).declarations, hcontainer, List.flatMap_cons,
          attributed_append, sites_eq, List.map_append, declarations_attributed_cons]
        simp only [List.append_assoc]
      · rw [List.flatMap_cons, openedBehind_append]
        exact hbehind'
      · obtain ⟨hplain, hclosed⟩ := List.forall_mem_cons.mp hall
        rw [hback' hclosed]
        exact containers_of_leave hentered (hplain t t.self_mem_subtrees)
          (hback fun child hchild => hplain.of_mem hchild)

/-- Behind nodes without a namespace around the rest of the document the whole stack is as it was. -/
theorem Walks.containers_eq (h : Walks d parentKind trees visit after) (hclosed : ∀ t ∈ trees, t.IsClosed) :
    after.containers = visit.containers := by
  have hsurrounded : Surrounded d none visit.containers.head? visit := rfl
  obtain ⟨-, -, hback⟩ := h.attributed (fun t ht => (hclosed t ht).opensOnTop) (fun _ => hclosed) hsurrounded
  exact hback hclosed

end Visit

/-- The declarations of an index are those of the tree, each in the container that the tree gives it. -/
theorem Index.declarations_of_build {index : Index} (h : Index.build d t = .ok index)
    (htop : t.OpensOnTop) : index.declarations = (t.attributions d).map Attribution.declaration := by
  obtain ⟨visit, hvisit, h⟩ := bind_eq_ok.mp h
  obtain rfl := Except.ok.inj h
  obtain ⟨hadded, -, -⟩ := (Visit.walks_of_tree hvisit).attributed
    (fun other hother => List.mem_singleton.mp hother ▸ htop) (fun hsome => absurd rfl hsome) rfl
  rw [List.flatMap_singleton] at hadded
  exact hadded

/-! ### Where sites and their scopes stand -/

namespace Tree

variable {site : Site} {node : Tree}

theorem mem_sites_of_mem (hchild : child ∈ t.namedChildren)
    (h : site ∈ child.sites d (t.scopeBelow d scope)) : site ∈ t.sites d scope :=
  mem_sites.mpr (.inr ⟨child, hchild, h⟩)

/-- The scope of a site is the one that was there before, or a node that stands above the site, with a name. -/
theorem exists_scope_site (h : site ∈ t.sites d scope) : site.scope = scope ∨
    ∃ outer ∈ t.sites d scope, site.scope = some outer.node ∧ outer.node.isScope = true ∧
      (outer.node.declaredName? d).isSome = true ∧ ∃ child ∈ outer.node.children, site.node ∈ child.subtrees := by
  induction t using induct generalizing scope with
  | step t ih =>
      rcases mem_sites.mp h with rfl | ⟨child, hchild, hsite⟩
      · exact .inl rfl
      · rcases ih child (mem_of_namedChildren hchild) hsite with hscope | ⟨outer, houter, hscope⟩
        · unfold scopeBelow at hscope
          split at hscope
          · rename_i hself
            obtain ⟨hself, hname⟩ := Bool.and_eq_true_iff.mp hself
            exact .inr ⟨⟨t, scope⟩, mem_sites.mpr (.inl rfl), hscope, hself, hname, child,
              mem_of_namedChildren hchild, mem_subtrees_of_mem_sites hsite⟩
          · exact .inl hscope
        · exact .inr ⟨outer, mem_sites_of_mem hchild houter, hscope⟩

/-- A node is not below itself. -/
theorem ne_of_mem_child (hchild : child ∈ t.children) (hnode : node ∈ child.subtrees) : node ≠ t := by
  have hless : ∀ t : Tree, ∀ node ∈ t.subtrees, sizeOf node ≤ sizeOf t := by
    intro t
    induction t using induct with
    | step t ih =>
        intro node hnode
        rcases mem_subtrees.mp hnode with rfl | ⟨child, hchild, hnode⟩
        · exact Nat.le_refl _
        · exact Nat.le_trans (ih child hchild node hnode) (Nat.le_of_lt (sizeOf_lt_of_mem hchild))
  rintro rfl
  exact Nat.not_lt_of_le (hless child node hnode) (sizeOf_lt_of_mem hchild)

/-- The sites at and below a node begin between its ends. -/
theorem Nests.start_of_mem_sites (h : t.Nests d) (hsite : site ∈ t.sites d scope) :
    t.span.start ≤ site.node.span.start ∧ site.node.span.start ≤ t.span.stop := by
  have hbelow := mem_subtrees_of_mem_sites hsite
  have hinside := h.inside_of_mem_subtrees hbelow
  exact ⟨hinside.1, Nat.le_trans (h.of_mem_subtrees hbelow).inText.start_le_stop hinside.2⟩

/-- The sites of a tree in front of those at and below a node begin no later than the node, and the sites
behind them begin no earlier than where the node ends. -/
theorem exists_around (h : t.Nests d) (hsite : site ∈ t.sites d scope) : ∃ before behind,
    t.sites d scope = before ++ site.node.sites d site.scope ++ behind ∧
      (∀ other ∈ before, other.node.span.start ≤ site.node.span.start) ∧
      ∀ other ∈ behind, site.node.span.stop ≤ other.node.span.start := by
  induction t using induct generalizing scope with
  | step t ih =>
      rcases mem_sites.mp hsite with rfl | ⟨child, hchild, hsite⟩
      · exact ⟨[], [], (List.append_nil _).symm, fun _ h => absurd h List.not_mem_nil,
          fun _ h => absurd h List.not_mem_nil⟩
      · have hmem := mem_of_namedChildren hchild
        obtain ⟨before, behind, hsites, hbefore, hbehind⟩ := ih child hmem (h.of_mem hmem) hsite
        obtain ⟨first, last, hchildren⟩ := List.append_of_mem hchild
        have hordered := (h.ordered t t.self_mem_subtrees).sublist
          (List.filter_sublist (p := fun child => child.head.named))
        rw [← namedChildren, hchildren, List.pairwise_append] at hordered
        obtain ⟨-, hlast, hfirst⟩ := hordered
        have hinside := (h.of_mem hmem).inside_of_mem_subtrees (mem_subtrees_of_mem_sites hsite)
        refine ⟨⟨t, scope⟩ :: first.flatMap (sites d (t.scopeBelow d scope)) ++ before,
          behind ++ last.flatMap (sites d (t.scopeBelow d scope)), ?_, ?_, ?_⟩
        · rw [sites_eq, hchildren, List.flatMap_append, List.flatMap_cons, hsites]
          simp only [List.append_assoc, List.cons_append]
        · intro other hmem'
          rcases List.mem_append.mp hmem' with hmem' | hmem'
          · rcases List.mem_cons.mp hmem' with rfl | hmem'
            · exact (h.start_of_mem_sites (mem_sites_of_mem hchild hsite)).1
            · obtain ⟨earlier, hearlier, hmem'⟩ := List.mem_flatMap.mp hmem'
              have hearlier' : earlier ∈ t.namedChildren := hchildren ▸ List.mem_append_left _ hearlier
              have hbelow := (h.of_mem (mem_of_namedChildren hearlier')).start_of_mem_sites hmem'
              have hordered := hfirst earlier hearlier child List.mem_cons_self
              simp only [span] at *
              omega
          · exact hbefore other hmem'
        · intro other hmem'
          rcases List.mem_append.mp hmem' with hmem' | hmem'
          · exact hbehind other hmem'
          · obtain ⟨later, hlater, hmem'⟩ := List.mem_flatMap.mp hmem'
            have hlater' : later ∈ t.namedChildren :=
              hchildren ▸ List.mem_append_right _ (List.mem_cons_of_mem _ hlater)
            have hbelow := (h.of_mem (mem_of_namedChildren hlater')).start_of_mem_sites hmem'
            have hordered := (List.pairwise_cons.mp hlast).1 later hlater
            simp only [span] at *
            omega

end Tree

end

end CodeIntel
