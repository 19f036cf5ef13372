import CodeIntel.Proofs.Tree.Members

/-! What an index records besides names: fields, imports and faults. A modifier of a field goes where a node of
the tree starts, a fault is at a node, and the imports are the directives right below the root, in order. -/

namespace CodeIntel

namespace Tree

theorem span_of_imported? {d : Document} {t : Tree} {imported : Import} (h : t.imported? d = some imported) :
    imported.span = t.span := by
  unfold imported? at h
  split at h
  · obtain ⟨text, -, rfl⟩ := Option.map_eq_some_iff.mp h
    rfl
  · cases h

/-- The modifier of a field goes where the type starts, or where the declaration does that has none. -/
theorem exists_of_mem_fields {d : Document} {t : Tree} {field : FieldInfo} (h : field ∈ t.fields d) :
    ∃ node ∈ t.subtrees, field.typeStart = node.span.start := by
  unfold fields at h
  split at h
  · split at h
    · rename_i declaration hdeclaration
      obtain ⟨declarator, -, h⟩ := List.mem_filterMap.mp h
      obtain ⟨name, -, h⟩ := Option.bind_eq_some_iff.mp h
      split at h
      · obtain ⟨text, -, rfl⟩ := Option.map_eq_some_iff.mp h
        have hbelow := subtrees_of_mem (mem_of_childOfKind? hdeclaration)
        cases htype : declaration.field? "type" with
        | none => exact ⟨declaration, hbelow declaration.self_mem_subtrees, rfl⟩
        | some type =>
            have hmem := subtrees_of_mem (mem_of_field? htype) type.self_mem_subtrees
            exact ⟨type, hbelow hmem, rfl⟩
      · cases h
    · cases h
  · cases h

/-- The directives at the top of a document. -/
def directives (t : Tree) : List Tree :=
  if t.kind = "compilation_unit" then
    t.namedChildren.filter fun child => child.kind = "using_directive"
  else []

/-- Only the root of a tree is a unit of its own. -/
def IsUnit (t : Tree) : Prop :=
  ∀ child ∈ t.children, ∀ below ∈ child.subtrees, below.kind ≠ "compilation_unit"

instance (t : Tree) : Decidable t.IsUnit :=
  inferInstanceAs (Decidable (∀ child ∈ t.children, ∀ below ∈ child.subtrees,
    below.kind ≠ "compilation_unit"))

mutual

/-- A fault is at a node. -/
theorem exists_of_mem_faultsBelow {d : Document} {fault : ParseFault} :
    ∀ t : Tree, fault ∈ t.faultsBelow d → ∃ node ∈ t.subtrees, fault.span = node.span
  | .node head children, hmem => by
    rw [faultsBelow, List.mem_append] at hmem
    rcases hmem with hself | hmem
    · split at hself
      · obtain rfl := List.mem_singleton.mp hself
        exact ⟨_, self_mem_subtrees _, rfl⟩
      · cases hself
    · split at hmem
      · cases hmem
      · obtain ⟨child, hchild, node, hnode, hspan⟩ := exists_of_mem_faultsAmong children hmem
        exact ⟨node, subtrees_of_mem (t := .node head children) hchild hnode, hspan⟩

theorem exists_of_mem_faultsAmong {d : Document} {fault : ParseFault} :
    ∀ trees : List Tree, fault ∈ faultsAmong d trees →
      ∃ child ∈ trees, ∃ node ∈ child.subtrees, fault.span = node.span
  | child :: rest, hmem => by
    rw [faultsAmong, List.mem_append] at hmem
    rcases hmem with hmem | hmem
    · exact ⟨child, List.mem_cons_self, exists_of_mem_faultsBelow child hmem⟩
    · obtain ⟨other, hother, hnode⟩ := exists_of_mem_faultsAmong rest hmem
      exact ⟨other, List.mem_cons_of_mem _ hother, hnode⟩

end

theorem exists_of_mem_faults {d : Document} {t : Tree} {fault : ParseFault} (h : fault ∈ t.faults d) :
    ∃ node ∈ t.subtrees, fault.span = node.span := by
  rw [faults] at h
  split at h
  · exact exists_of_mem_faultsBelow t h
  · cases h

end Tree

namespace Visit

variable {d : Document} {t root : Tree} {parentKind : String} {visit after : Visit}

/-- The modifiers of fields go where nodes of a tree start, and imports are nodes of the tree. -/
structure Places (root : Tree) (index : Index) : Prop where
  fields : ∀ field ∈ index.fields, ∃ node ∈ root.subtrees, field.typeStart = node.span.start
  imports : ∀ imported ∈ index.imports, ∃ node ∈ root.subtrees, imported.span = node.span

/-- Entering a directive right below a unit records its import, and entering anything else records none. -/
theorem imports_of_enter (h : enter d parentKind t visit = .ok after) :
    after.index.imports = visit.index.imports ++
      (if parentKind = "compilation_unit" then t.imported? d else none).toList := by
  obtain rfl := enter_eq_ok h
  rfl

theorem places_of_enter (h : enter d parentKind t visit = .ok after) (hsub : t.subtrees ⊆ root.subtrees)
    (hplaces : Places root visit.index) : Places root after.index where
  fields field hfield := by
    obtain rfl := enter_eq_ok h
    rcases List.mem_append.mp hfield with hold | hnew
    · exact hplaces.fields field hold
    · obtain ⟨node, hnode, hstart⟩ := Tree.exists_of_mem_fields hnew
      exact ⟨node, hsub hnode, hstart⟩
  imports imported himport := by
    rw [imports_of_enter h, List.mem_append] at himport
    rcases himport with hold | hnew
    · exact hplaces.imports imported hold
    · refine ⟨t, hsub t.self_mem_subtrees, ?_⟩
      split at hnew
      · exact Tree.span_of_imported? (Option.mem_toList.mp hnew)
      · cases hnew

/-- A walk right below a unit records the imports of the directives that it meets, in order; one below
anything else records none. -/
theorem Walks.imports {trees : List Tree} (h : Walks d parentKind trees visit after)
    (hunit : ∀ t ∈ trees, ∀ below ∈ t.subtrees, below.kind ≠ "compilation_unit") :
    after.index.imports = visit.index.imports ++
      (if parentKind = "compilation_unit" then trees.filterMap (Tree.imported? d) else []) := by
  induction h with
  | nil => simp
  | @cons parentKind t rest visit entered inside after hentered _ _ hbelow hbehind =>
      have ht := hunit t List.mem_cons_self
      have hinside := hbelow fun child hchild below hmem =>
        ht below (Tree.subtrees_of_mem (Tree.mem_of_namedChildren hchild) hmem)
      rw [if_neg (ht t t.self_mem_subtrees), List.append_nil, imports_of_enter hentered] at hinside
      rw [hbehind fun other hother => hunit other (List.mem_cons_of_mem _ hother), leave_index, hinside,
        List.append_assoc]
      congr 1
      split
      · cases himport : t.imported? d <;> simp [himport]
      · rfl

end Visit

namespace Index

variable {d : Document} {t : Tree} {index : Index}

/-- The faults of an index are at nodes of the tree. -/
theorem exists_node_of_fault (h : Index.build d t = .ok index) {fault : ParseFault}
    (hfault : fault ∈ index.faults) : ∃ node ∈ t.subtrees, fault.span = node.span := by
  obtain ⟨visit, -, h⟩ := bind_eq_ok.mp h
  obtain rfl := Except.ok.inj h
  exact Tree.exists_of_mem_faults hfault

/-- Modifiers of fields and imports are at nodes of the tree. -/
theorem places_of_build (h : Index.build d t = .ok index) : Visit.Places t index := by
  obtain ⟨visit, hvisit, h⟩ := bind_eq_ok.mp h
  obtain rfl := Except.ok.inj h
  have hempty : Visit.Places t {} := by
    constructor <;> intro _ hmem <;> cases hmem
  have hplaces := (Visit.walks_of_tree hvisit).invariant (·.subtrees ⊆ t.subtrees) (Visit.Places t)
    (fun other hother => List.mem_singleton.mp hother ▸ List.Subset.refl _)
    (fun other hother child hchild =>
      List.Subset.trans (Tree.subtrees_of_mem (Tree.mem_of_namedChildren hchild)) hother)
    (fun _ _ _ _ hother hentered => Visit.places_of_enter hentered hother) hempty
  exact ⟨hplaces.fields, hplaces.imports⟩

/-- The imports of a document are those of the directives at its top. -/
theorem imports_of_build (h : Index.build d t = .ok index) (hunit : t.IsUnit) :
    index.imports = t.directives.filterMap (Tree.imported? d) := by
  obtain ⟨visit, hvisit, h⟩ := bind_eq_ok.mp h
  obtain rfl := Except.ok.inj h
  obtain ⟨entered, inside, hentered, hbelow, rfl⟩ := Visit.exists_walk_below d "" t {} visit hvisit
  have himports := hbelow.imports fun child hchild => hunit child (Tree.mem_of_namedChildren hchild)
  rw [Visit.imports_of_enter hentered, if_neg (by decide), Option.toList_none, List.append_nil] at himports
  rw [show ({ (Visit.leave d t {} inside).index with faults := t.faults d } : Index).imports =
    (Visit.leave d t {} inside).index.imports from rfl, Visit.leave_index, himports, Tree.directives]
  split
  · rw [List.filterMap_filter]
    refine List.filterMap_congr fun child _ => ?_
    by_cases hkind : child.kind = "using_directive"
    · simp [hkind]
    · simp [hkind, Tree.imported?]
  · rfl

end Index

end CodeIntel
