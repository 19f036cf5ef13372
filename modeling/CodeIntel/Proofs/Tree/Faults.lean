import CodeIntel.Proofs.Tree.Contents

/-! Where the findings of a tree stand. A text that does not parse is reported at its outermost node, so that
whatever stands wrong in a tree lies in a fault that is reported; and a handler with nothing in it is reported
at its own node. -/

namespace CodeIntel

namespace Tree

variable {d : Document} {t node : Tree}

/-- A node stands for a fault. -/
def isFault (t : Tree) : Bool := t.head.isError || t.head.isMissing

theorem faultsAmong_eq_flatMap (d : Document) (trees : List Tree) :
    faultsAmong d trees = trees.flatMap (faultsBelow d) := by
  induction trees with
  | nil => rw [faultsAmong, List.flatMap_nil]
  | cons child rest ih => rw [faultsAmong, ih, List.flatMap_cons]

/-- Where nodes nest, a fault lies in one that is collected: itself, or the text around it that fits no
rule. -/
theorem Nests.exists_fault_around (h : t.Nests d) (hnode : node ∈ t.subtrees) (hfault : node.isFault = true) :
    ∃ fault ∈ t.faultsBelow d,
      fault.span.start ≤ node.span.start ∧ node.span.stop ≤ fault.span.stop := by
  induction t using induct with
  | step t ih =>
      obtain ⟨head, children⟩ := t
      have hinside := h.inside_of_mem_subtrees hnode
      rw [faultsBelow, faultsAmong_eq_flatMap]
      by_cases herror : head.isError = true
      · exact ⟨faultOf d head, by simp [herror], hinside⟩
      · rcases mem_subtrees.mp hnode with rfl | ⟨child, hchild, hnode⟩
        · have hself : (head.isError || head.isMissing) = true := hfault
          exact ⟨faultOf d head, by simp [hself], Nat.le_refl _, Nat.le_refl _⟩
        · obtain ⟨fault, hmem, haround⟩ := ih child hchild (h.of_mem hchild) hnode
          refine ⟨fault, List.mem_append_right _ ?_, haround⟩
          rw [if_neg herror]
          exact List.mem_flatMap.mpr ⟨child, hchild, hmem⟩

/-- A handler with nothing in it is found at itself. -/
theorem eq_of_emptyCatch? {span : Span} (h : t.emptyCatch? = some span) : span = t.span := by
  unfold emptyCatch? at h
  split at h
  · obtain ⟨body, -, h⟩ := Option.bind_eq_some_iff.mp h
    split at h
    · exact (Option.some.inj h).symm
    · cases h
  · cases h

end Tree

namespace Visit

variable {d : Document} {t root : Tree} {parentKind : String} {visit after : Visit}

/-- Entering a node records an empty handler at that node at most. -/
theorem catches_of_enter (h : enter d parentKind t visit = .ok after) (hsub : t.subtrees ⊆ root.subtrees)
    (hcatches : ∀ span ∈ visit.index.emptyCatches, ∃ node ∈ root.subtrees, span = node.span) :
    ∀ span ∈ after.index.emptyCatches, ∃ node ∈ root.subtrees, span = node.span := by
  obtain rfl := enter_eq_ok h
  intro span hspan
  rcases List.mem_append.mp hspan with hold | hnew
  · exact hcatches span hold
  · exact ⟨t, hsub t.self_mem_subtrees, Tree.eq_of_emptyCatch? (Option.mem_toList.mp hnew)⟩

end Visit

/-- The empty handlers of an index are at nodes of the tree. -/
theorem Index.exists_node_of_catch {d : Document} {t : Tree} {index : Index}
    (h : Index.build d t = .ok index) {span : Span} (hspan : span ∈ index.emptyCatches) :
    ∃ node ∈ t.subtrees, span = node.span := by
  obtain ⟨visit, hvisit, h⟩ := bind_eq_ok.mp h
  obtain rfl := Except.ok.inj h
  have hcatches : ∀ span ∈ visit.index.emptyCatches, ∃ node ∈ t.subtrees, span = node.span :=
    (Visit.walks_of_tree hvisit).invariant (·.subtrees ⊆ t.subtrees)
      (fun index => ∀ span ∈ index.emptyCatches, ∃ node ∈ t.subtrees, span = node.span)
      (fun other hother => List.mem_singleton.mp hother ▸ List.Subset.refl _)
      (fun other hother child hchild =>
        List.Subset.trans (Tree.subtrees_of_mem (Tree.mem_of_namedChildren hchild)) hother)
      (fun _ _ _ _ hother hentered => Visit.catches_of_enter hentered hother)
      (fun _ hmem => absurd hmem List.not_mem_nil)
  exact hcatches span hspan

/-- The faults of an index are those of the tree. -/
theorem Index.faults_of_build {d : Document} {t : Tree} {index : Index} (h : Index.build d t = .ok index) :
    index.faults = t.faults d := by
  obtain ⟨visit, -, h⟩ := bind_eq_ok.mp h
  obtain rfl := Except.ok.inj h
  rfl

end CodeIntel
