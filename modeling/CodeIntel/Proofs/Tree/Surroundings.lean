import CodeIntel.Proofs.Tree.Spots
import Mathlib.Data.List.Induction

/-! What stands around declarations and calls. A visit finds the container of a declaration on a stack and the
caller of a call among the declarations so far, by a span. In the tree the container is found from the nodes
above and the nodes before, and the caller is the declaration of the innermost member above. -/

namespace CodeIntel

namespace Tree

/-- The name of a node that is a namespace or type around what is below it. -/
def scopeName? (d : Document) (t : Tree) : Option String :=
  if t.kind ∈ scopeKinds then t.declaredName? d else none

/-- The name of a node that is a namespace around the rest of the document. -/
def openedName? (d : Document) (t : Tree) : Option String :=
  if t.kind = openScopeKind then t.declaredName? d else none

/-- A node that calls a name. -/
def calls (d : Document) (t : Tree) : Bool := (t.called?.bind (·.text? d)).isSome

/-- Nodes that declare something have different spans. -/
def DistinctSpans (t : Tree) : Prop :=
  ((t.subtrees.filter fun node => node.kind ∈ declarationKinds).map span).Nodup

instance (t : Tree) : Decidable t.DistinctSpans := inferInstanceAs (Decidable (List.Nodup _))

end Tree

open CodeIntel.Tree

/-- The name of the container below some nodes and behind some spots: that of the innermost namespace or type
above that has one, or else that of the last namespace around the rest of the document. -/
def containerAt (d : Document) (before : List Spot) (above : List Tree) : Option String :=
  (above.findSome? (scopeName? d)).or ((before.map Spot.node).reverse.findSome? (openedName? d))

/-- A declaration is made at a spot of a tree, in the container that is there. -/
structure Makes (d : Document) (root : Tree) (spot : Spot) (x : Declaration) : Prop where
  kind : spot.node.kind ∈ declarationKinds
  span : x.span = spot.node.span
  declared : x ∈ spot.node.declared d x.symbol.containerName
  container : ∃ before behind, root.spots [] = before ++ spot :: behind ∧
    x.symbol.containerName = containerAt d before spot.above

/-- The innermost member among some nodes, with the nodes above it. -/
def memberAmong? : List Tree → Option Spot
  | [] => none
  | t :: above => if t.kind ∈ memberKinds then some ⟨t, above⟩ else memberAmong? above

/-- Whom calls below some nodes are made from: the qualified name of what the innermost member declares, and
nobody outside of members and in a member without a name. -/
inductive NamesCaller (d : Document) (root : Tree) (above : List Tree) : Option String → Prop where
  | outside : memberAmong? above = none → NamesCaller d root above none
  | unnamed {member : Spot} : memberAmong? above = some member → member.node.declaredName? d = none →
      NamesCaller d root above none
  | named {member : Spot} {x : Declaration} : memberAmong? above = some member → Makes d root member x →
      NamesCaller d root above (some x.symbol.qualifiedName)

/-- A call is made at a spot, from the innermost member above it. -/
structure MakesCall (d : Document) (root : Tree) (spot : Spot) (call : Invocation) : Prop where
  name : ∃ name, spot.node.called? = some name ∧ name.text? d = some call.callee ∧ call.nameSpan = name.span
  caller : NamesCaller d root spot.above call.caller

/-! ### Spots and sites -/

/-- The innermost namespace or type among some nodes that has a name. -/
def scopeAmong (d : Document) (above : List Tree) : Option Tree :=
  above.find? fun t => t.isScope && (t.declaredName? d).isSome

/-- The site at a spot. -/
def Spot.site (d : Document) (spot : Spot) : Site := ⟨spot.node, scopeAmong d spot.above⟩

/-- What some spots declare one after the other. -/
def madeBy (d : Document) (spots : List Spot) : List Declaration :=
  (attributed d none (spots.map (Spot.site d))).map Attribution.declaration

section

variable {d : Document} {t root : Tree} {above : List Tree} {spot : Spot} {before behind spots : List Spot}
  {x : Declaration} {caller : Option String}

theorem scopeBelow_scopeAmong (d : Document) (above : List Tree) (t : Tree) :
    t.scopeBelow d (scopeAmong d above) = scopeAmong d (t :: above) := by
  rw [scopeBelow, scopeAmong, scopeAmong, List.find?_cons]
  cases t.isScope && (t.declaredName? d).isSome <;> rfl

theorem scopeAmong_bind (d : Document) (above : List Tree) :
    (scopeAmong d above).bind (declaredName? d) = above.findSome? (scopeName? d) := by
  induction above with
  | nil => rfl
  | cons t above ih =>
      rw [← scopeBelow_scopeAmong, List.findSome?_cons, scopeBelow, scopeName?]
      cases hscope : t.isScope with
      | false =>
          have hkind : t.kind ∉ scopeKinds := fun hkind =>
            Bool.false_ne_true (hscope.symm.trans (isScope_iff.mpr hkind))
          rw [if_neg hkind]
          exact ih
      | true =>
          rw [if_pos (isScope_iff.mp hscope)]
          cases hname : t.declaredName? d with
          | none => exact ih
          | some name => exact hname

theorem opens_eq (d : Document) (opened : Option String) (t : Tree) :
    t.opens d opened = (t.openedName? d).or opened := by
  rw [opens, openedName?]
  cases hopen : t.isOpenScope with
  | true => rw [if_pos rfl, if_pos (isOpenScope_iff.mp hopen)]
  | false =>
      have hkind : t.kind ≠ openScopeKind := fun hkind =>
        Bool.false_ne_true (hopen.symm.trans (isOpenScope_iff.mpr hkind))
      rw [if_neg Bool.false_ne_true, if_neg hkind]
      rfl

theorem openedBehind_site (d : Document) (before : List Spot) :
    openedBehind d none (before.map (Spot.site d)) =
      (before.map Spot.node).reverse.findSome? (openedName? d) := by
  induction before using List.reverseRecOn with
  | nil => rfl
  | append_singleton before spot ih =>
      have hlast : ((before ++ [spot]).map Spot.node).reverse =
          spot.node :: (before.map Spot.node).reverse := by
        rw [List.map_append, List.reverse_append]
        rfl
      have hstep : openedBehind d none ((before ++ [spot]).map (Spot.site d)) =
          spot.node.opens d (openedBehind d none (before.map (Spot.site d))) := by
        rw [List.map_append, openedBehind_append]
        rfl
      rw [hstep, ih, hlast, opens_eq, List.findSome?_cons]
      cases spot.node.openedName? d <;> rfl

/-- The container at the site of a spot. -/
theorem container_site (d : Document) (before : List Spot) (spot : Spot) :
    (spot.site d).container d (openedBehind d none (before.map (Spot.site d))) =
      containerAt d before spot.above := by
  rw [openedBehind_site]
  exact congrArg (Option.or · _) (scopeAmong_bind d spot.above)

/-- The sites of a tree are those of its spots. -/
theorem sites_eq_map (d : Document) (above : List Tree) (t : Tree) :
    t.sites d (scopeAmong d above) = (t.spots above).map (Spot.site d) := by
  induction t using induct generalizing above with
  | step t ih =>
      rw [sites_eq, spots_eq, scopeBelow_scopeAmong, List.map_cons, List.map_flatMap]
      congr 1
      exact List.flatMap_congr fun child hchild => ih child (mem_of_namedChildren hchild) _

theorem flatMap_sites_eq_map (d : Document) (above trees : List Tree) :
    trees.flatMap (sites d (scopeAmong d above)) = (trees.flatMap (Tree.spots above)).map (Spot.site d) := by
  rw [List.map_flatMap]
  exact List.flatMap_congr fun t _ => sites_eq_map d above t

theorem madeBy_append (d : Document) (before behind : List Spot) : madeBy d (before ++ behind) =
    madeBy d before ++ (attributed d (openedBehind d none (before.map (Spot.site d)))
      (behind.map (Spot.site d))).map Attribution.declaration := by
  rw [madeBy, List.map_append, attributed_append, List.map_append]
  rfl

theorem madeBy_append_cons (d : Document) (before : List Spot) (spot : Spot) (behind : List Spot) :
    madeBy d (before ++ spot :: behind) = madeBy d before ++
      (spot.node.declared d (containerAt d before spot.above) ++
        (attributed d (openedBehind d none ((before ++ [spot]).map (Spot.site d)))
          (behind.map (Spot.site d))).map Attribution.declaration) := by
  rw [madeBy_append, List.map_cons, declarations_attributed_cons, container_site, List.map_append,
    openedBehind_append]
  rfl

theorem mem_madeBy : x ∈ madeBy d spots ↔ ∃ before spot behind, spots = before ++ spot :: behind ∧
    x ∈ spot.node.declared d (containerAt d before spot.above) := by
  constructor
  · intro hx
    induction spots using List.reverseRecOn with
    | nil => cases hx
    | append_singleton before spot ih =>
        rw [madeBy_append_cons] at hx
        rcases List.mem_append.mp hx with hmade | hx
        · obtain ⟨first, other, last, hbefore, hother⟩ := ih hmade
          exact ⟨first, other, last ++ [spot], by rw [hbefore, List.append_assoc, List.cons_append], hother⟩
        · rcases List.mem_append.mp hx with hx | hx
          · exact ⟨before, spot, [], rfl, hx⟩
          · cases hx
  · rintro ⟨before, spot, behind, rfl, hx⟩
    rw [madeBy_append_cons]
    exact List.mem_append_right _ (List.mem_append_left _ hx)

/-- What is declared at a spot is made there. -/
theorem makes_of_mem_declared (hspots : root.spots [] = before ++ spot :: behind)
    (hx : x ∈ spot.node.declared d (containerAt d before spot.above)) : Makes d root spot x := by
  have hrecords := records_of_mem_declared hx
  exact ⟨mem_declarationKinds hrecords.isDeclaration, hrecords.span, hrecords.container.symm ▸ hx, before,
    behind, hspots, hrecords.container⟩

/-- The declarations of an index are those that the spots of its tree make. -/
theorem mem_madeBy_spots : x ∈ madeBy d (root.spots []) ↔ ∃ spot, Makes d root spot x := by
  rw [mem_madeBy]
  constructor
  · rintro ⟨before, spot, behind, hspots, hx⟩
    exact ⟨spot, makes_of_mem_declared hspots hx⟩
  · rintro ⟨spot, h⟩
    obtain ⟨before, behind, hspots, hcontainer⟩ := h.container
    exact ⟨before, spot, behind, hspots, hcontainer ▸ h.declared⟩

theorem NamesCaller.of_eq {above' : List Tree} (h : NamesCaller d root above caller)
    (heq : memberAmong? above' = memberAmong? above) : NamesCaller d root above' caller := by
  cases h with
  | outside hmember => exact .outside (heq.trans hmember)
  | unnamed hmember hname => exact .unnamed (heq.trans hmember) hname
  | named hmember hmakes => exact .named (heq.trans hmember) hmakes

/-- A node has another span than everything that is declared before it, if it declares something itself. -/
theorem Tree.DistinctSpans.span_ne (h : root.DistinctSpans)
    (hspots : root.spots [] = before ++ spot :: behind) (hkind : spot.node.kind ∈ declarationKinds)
    (hmade : x ∈ madeBy d before) : x.span ≠ spot.node.span := by
  obtain ⟨first, other, last, rfl, hx⟩ := mem_madeBy.mp hmade
  have hrecords := records_of_mem_declared hx
  have hreached : root.reached =
      first.map Spot.node ++ other.node :: (last.map Spot.node ++ spot.node :: behind.map Spot.node) := by
    rw [reached, hspots]
    simp only [List.map_append, List.map_cons, List.append_assoc, List.cons_append]
  have hnodup : root.reached.Pairwise fun p q =>
      p.kind ∈ declarationKinds → q.kind ∈ declarationKinds → p.span ≠ q.span := by
    have hdistinct := List.pairwise_filter.mp (List.pairwise_map.mp h)
    refine (hdistinct.sublist (reached_sublist root)).imp fun hpq hp hq => ?_
    exact hpq (decide_eq_true hp) (decide_eq_true hq)
  rw [hreached, List.pairwise_append, List.pairwise_cons] at hnodup
  rw [hrecords.span]
  exact hnodup.2.1.1 spot.node (List.mem_append_right _ List.mem_cons_self)
    (mem_declarationKinds hrecords.isDeclaration) hkind

end

/-! ### A visit -/

namespace Visit

variable {d : Document} {t root : Tree} {parentKind : String} {visit entered inside after : Visit}
  {trees above : List Tree} {before behind : List Spot} {span : Span} {x : Declaration}

/-- A visit has come below some nodes and behind some spots of a tree: these have made its declarations, the
container of what is declared next is on its stack, and calls are made from its member. -/
structure StandsAt (d : Document) (root : Tree) (before : List Spot) (above : List Tree) (visit : Visit) :
    Prop where
  declarations : visit.index.declarations = madeBy d before
  surrounded : Surrounded d (scopeAmong d above) (openedBehind d none (before.map (Spot.site d))) visit
  caller : NamesCaller d root above visit.member

theorem StandsAt.container (h : StandsAt d root before above visit) :
    visit.containers.head? = containerAt d before above :=
  h.surrounded.trans (container_site d before ⟨default, above⟩)

/-- Below a node calls are made from it, if it is a member. -/
theorem StandsAt.namesCaller (h : StandsAt d root before above visit) (hdistinct : root.DistinctSpans)
    (hspots : root.spots [] = before ++ ⟨t, above⟩ :: behind)
    (hentered : Visit.enter d parentKind t visit = .ok entered) :
    NamesCaller d root (t :: above) entered.member := by
  rw [(adds_of_enter hentered).member]
  cases hmember : t.isMember with
  | false =>
      have hkind : t.kind ∉ memberKinds := fun hkind =>
        Bool.false_ne_true (hmember.symm.trans (isMember_iff.mpr hkind))
      exact h.caller.of_eq (if_neg hkind)
  | true =>
      have hkind := isMember_iff.mp hmember
      have hself : memberAmong? (t :: above) = some ⟨t, above⟩ := if_pos hkind
      have hadded := (adds_of_enter hentered).declarations
      rw [if_pos rfl]
      rcases declared_of_isMember hmember visit.containers.head? with ⟨hnone, hdeclared⟩ | ⟨x, -, hdeclared⟩
      · -- The member declares nothing, and what is declared so far has other spans.
        have hnobody : entered.qualifiedNameAt? t.span = none := by
          refine qualifiedNameAt?_eq_none fun x hx => ?_
          rw [hadded, hdeclared, List.append_nil, h.declarations] at hx
          exact hdistinct.span_ne hspots (memberKinds_subset hkind) hx
        rw [hnobody]
        exact .unnamed hself hnone
      · have hx : x ∈ t.declared d visit.containers.head? := hdeclared ▸ List.mem_singleton_self x
        rw [qualifiedNameAt?_of_last (hadded.trans (congrArg _ hdeclared)) (records_of_mem_declared hx).span]
        rw [h.container] at hx
        exact .named hself (makes_of_mem_declared hspots hx)

/-- Entering a node leads below it. -/
theorem StandsAt.enter (h : StandsAt d root before above visit) (hdistinct : root.DistinctSpans)
    (hspots : root.spots [] = before ++ ⟨t, above⟩ :: behind)
    (hclosed : scopeAmong d above ≠ none → t.IsClosed)
    (hentered : Visit.enter d parentKind t visit = .ok entered) :
    StandsAt d root (before ++ [⟨t, above⟩]) (t :: above) entered where
  declarations := by
    rw [(adds_of_enter hentered).declarations, h.container, h.declarations, madeBy_append_cons]
    exact congrArg _ (List.append_nil _).symm
  surrounded := by
    rw [← scopeBelow_scopeAmong, List.map_append, openedBehind_append]
    exact h.surrounded.enter (scope_eq_none hclosed) hentered
  caller := h.namesCaller hdistinct hspots hentered

/-- A walk leads behind the spots on its way. -/
theorem StandsAt.walk (h : StandsAt d root before above visit) (hwalk : Walks d parentKind trees visit after)
    (htop : ∀ t ∈ trees, t.OpensOnTop) (hclosed : scopeAmong d above ≠ none → ∀ t ∈ trees, t.IsClosed) :
    StandsAt d root (before ++ trees.flatMap (Tree.spots above)) above after := by
  obtain ⟨hadded, hbehind, -⟩ := hwalk.attributed htop hclosed h.surrounded
  rw [flatMap_sites_eq_map] at hadded hbehind
  refine ⟨?_, ?_, ?_⟩
  · rw [hadded, h.declarations, madeBy_append]
  · rw [List.map_append, openedBehind_append]
    exact hbehind
  · rw [hwalk.member_eq]
    exact h.caller

/-- Entering a node records the call that it makes. -/
theorem makesCall_of_enter (h : NamesCaller d root above visit.member)
    (hentered : Visit.enter d parentKind t visit = .ok entered) : ∃ added,
    entered.index.invocations = visit.index.invocations ++ added ∧
      List.Forall₂ (MakesCall d root)
        ([(⟨t, above⟩ : Spot)].filter fun spot => spot.node.calls d) added := by
  refine ⟨_, (adds_of_enter hentered).invocations, ?_⟩
  rw [List.filter_cons, calls, call?]
  cases hname : t.called? with
  | none => exact .nil
  | some name =>
      rw [Option.bind_some, Option.bind_some]
      cases htext : name.text? d with
      | none => exact .nil
      | some callee => exact .cons ⟨⟨name, hname, htext, rfl⟩, h⟩ .nil

/-- A walk records the calls that are made on its way, each from the innermost member above it. -/
theorem Walks.makesCalls (h : Walks d parentKind trees visit after) (hdistinct : root.DistinctSpans)
    (hspots : root.spots [] = before ++ trees.flatMap (Tree.spots above) ++ behind)
    (htop : ∀ t ∈ trees, t.OpensOnTop) (hclosed : scopeAmong d above ≠ none → ∀ t ∈ trees, t.IsClosed)
    (hstands : StandsAt d root before above visit) : ∃ added,
    after.index.invocations = visit.index.invocations ++ added ∧
      List.Forall₂ (MakesCall d root)
        ((trees.flatMap (Tree.spots above)).filter fun spot => spot.node.calls d) added := by
  induction h generalizing above before behind with
  | nil => exact ⟨[], (List.append_nil _).symm, .nil⟩
  | @cons parentKind t rest visit entered inside after hentered hbelow hbehind ihbelow ihbehind =>
      obtain ⟨hself, hrest⟩ := List.forall_mem_cons.mp htop
      have hhere : scopeAmong d above ≠ none → t.IsClosed := fun hsome => hclosed hsome t List.mem_cons_self
      have hlater : scopeAmong d above ≠ none → ∀ other ∈ rest, other.IsClosed :=
        fun hsome other hother => hclosed hsome other (List.mem_cons_of_mem _ hother)
      have hfirst := hstands.walk (Walks.cons hentered hbelow .nil)
        (fun other hother => List.mem_singleton.mp hother ▸ hself)
        (fun hsome other hother => List.mem_singleton.mp hother ▸ hhere hsome)
      rw [List.flatMap_singleton] at hfirst
      rw [List.flatMap_cons] at hspots ⊢
      have hsplit : root.spots [] = before ++ t.spots above ++ rest.flatMap (Tree.spots above) ++ behind := by
        rw [hspots, ← List.append_assoc before]
      have hwhole : root.spots [] = before ++ ⟨t, above⟩ ::
          (t.namedChildren.flatMap (Tree.spots (t :: above)) ++
            (rest.flatMap (Tree.spots above) ++ behind)) := by
        rw [hsplit, spots_eq]
        simp only [List.append_assoc, List.cons_append]
      have hinside : root.spots [] = before ++ [⟨t, above⟩] ++
          t.namedChildren.flatMap (Tree.spots (t :: above)) ++
            (rest.flatMap (Tree.spots above) ++ behind) := by
        rw [hwhole]
        simp only [List.append_assoc, List.cons_append, List.nil_append]
      obtain ⟨own, hown, hcalled⟩ := makesCall_of_enter hstands.caller hentered
      obtain ⟨below, hbelows, hcalled'⟩ := ihbelow hinside (fun child hchild => hself.of_mem hchild)
        (fun hsome child hchild =>
          hself.isClosed_of_mem hhere (scopeBelow_scopeAmong d above t ▸ hsome) hchild)
        (hstands.enter hdistinct hwhole hhere hentered)
      obtain ⟨others, hothers, hcalled''⟩ := ihbehind hsplit hrest hlater hfirst
      refine ⟨own ++ below ++ others, ?_, ?_⟩
      · rw [hothers, leave_index, hbelows, hown]
        simp only [List.append_assoc]
      · rw [spots_eq, ← List.singleton_append, List.filter_append, List.filter_append]
        exact List.rel_append (List.rel_append hcalled hcalled') hcalled''

end Visit

/-! ### An index -/

section

variable {d : Document} {t : Tree} {index : Index}

/-- Where namespaces around the rest of the document are on top and nodes that declare something have different
spans, the declarations of an index are those that the spots of its tree make, each in the container that the
nodes above and before it give, and each call is made from the innermost member above it. Behind every tree a
visit is back at the member it had before it, and at the containers if no namespace was opened. -/
theorem containers_and_callers (hbuild : Index.build d t = .ok index)
    (htop : ∀ node ∈ t.subtrees, node.kind ∈ scopeKinds →
      ∀ below ∈ node.subtrees, below.kind ≠ openScopeKind)
    (hdistinct : t.DistinctSpans) :
    (∀ x, x ∈ index.declarations ↔ ∃ spot, Makes d t spot x) ∧
    List.Forall₂ (MakesCall d t) ((t.spots []).filter fun spot => spot.node.calls d) index.invocations ∧
    ∀ parentKind (sub : Tree) (visit after : Visit), Visit.tree d parentKind sub visit = .ok after →
      after.member = visit.member ∧
        ((∀ node ∈ sub.subtrees, node.kind ≠ openScopeKind) → after.containers = visit.containers) := by
  have hopens : t.OpensOnTop := fun node hnode hscope below hbelow => Bool.eq_false_iff.mpr fun hopen =>
    htop node hnode (isScope_iff.mp hscope) below hbelow (isOpenScope_iff.mp hopen)
  obtain ⟨visit, hvisit, hbuilt⟩ := bind_eq_ok.mp hbuild
  obtain rfl := Except.ok.inj hbuilt
  have hwalk := Visit.walks_of_tree hvisit
  have hstart : Visit.StandsAt d t [] [] {} := ⟨rfl, rfl, .outside rfl⟩
  have hsole : ∀ other ∈ [t], other.OpensOnTop := fun other hother => List.mem_singleton.mp hother ▸ hopens
  have hend := hstart.walk hwalk hsole fun hsome => absurd rfl hsome
  refine ⟨fun x => ?_, ?_, fun parentKind sub visit after hsub => ?_⟩
  · rw [← mem_madeBy_spots, ← List.flatMap_singleton (Tree.spots []) t, ← List.nil_append (List.flatMap _ _),
      ← hend.declarations]
  · have hspots : t.spots [] = [] ++ [t].flatMap (Tree.spots []) ++ [] := by simp
    obtain ⟨calls, hcalls, hmade⟩ := hwalk.makesCalls hdistinct hspots hsole
      (fun hsome => absurd rfl hsome) hstart
    rw [List.flatMap_singleton] at hmade
    rw [show visit.index.invocations = calls from hcalls]
    exact hmade
  · refine ⟨(Visit.walks_of_tree hsub).member_eq, fun hnone => ?_⟩
    have hclosed : sub.IsClosed := fun node hnode => Bool.eq_false_iff.mpr fun hopen =>
      hnone node hnode (isOpenScope_iff.mp hopen)
    exact (Visit.walks_of_tree hsub).containers_eq fun other hother =>
      List.mem_singleton.mp hother ▸ hclosed

/-- The one call of the constructor is made from what the constructor declares. -/
theorem containers_and_callers_callingTree :
    (∀ node ∈ callingTree.subtrees, node.kind ∈ scopeKinds →
      ∀ below ∈ node.subtrees, below.kind ≠ openScopeKind) ∧
    callingTree.DistinctSpans ∧
    ∃ index, Index.build callingDocument callingTree = .ok index ∧
      (∀ x, x ∈ index.declarations ↔ ∃ spot, Makes callingDocument callingTree spot x) ∧
      index.invocations.length = 1 ∧
      List.Forall₂ (MakesCall callingDocument callingTree)
        ((callingTree.spots []).filter fun spot => spot.node.calls callingDocument) index.invocations := by
  have htop : ∀ node ∈ callingTree.subtrees, node.kind ∈ scopeKinds →
      ∀ below ∈ node.subtrees, below.kind ≠ openScopeKind := by decide +kernel
  have hdistinct : callingTree.DistinctSpans := by decide +kernel
  obtain ⟨index, hindex, -⟩ := Index.exists_build callingTree_inText
  obtain ⟨hmade, hcalls, -⟩ := containers_and_callers hindex htop hdistinct
  exact ⟨htop, hdistinct, index, hindex, hmade, hcalls.length_eq.symm.trans (by decide +kernel), hcalls⟩

example : (Index.build callingDocument callingTree).toOption.map (fun index =>
    (index.declarations.map fun x => (x.symbol.name, x.symbol.containerName),
      index.invocations.map fun call => (call.callee, call.caller))) =
    some ([("N", none), ("A", some "N"), ("A", some "A")], [("F", some "A.A")]) := by decide +kernel

end

end CodeIntel
