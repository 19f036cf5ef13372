import CodeIntel.Proofs.Tree.Spots

/-! What an index has entries for. Every identifier that is reached through nodes of the grammar has an entry,
and every method with a name has two, one with the methods and one with the declarations, whatever is around
it. -/

namespace CodeIntel

/-- The elements that a partial function gives something for stand beside what it gives. -/
theorem forall₂_filterMap {α β : Type} {f : α → Option β} {p : α → Bool} {R : α → β → Prop} {l : List α}
    (hnone : ∀ a ∈ l, p a = false → f a = none)
    (hsome : ∀ a ∈ l, p a = true → ∃ b, f a = some b ∧ R a b) :
    List.Forall₂ R (l.filter p) (l.filterMap f) := by
  induction l with
  | nil => exact .nil
  | cons a rest ih =>
      obtain ⟨hnone, hnones⟩ := List.forall_mem_cons.mp hnone
      obtain ⟨hsome, hsomes⟩ := List.forall_mem_cons.mp hsome
      have hrest := ih hnones hsomes
      cases ha : p a with
      | false =>
          rw [List.filter_cons_of_neg (by rw [ha]; exact Bool.false_ne_true),
            List.filterMap_cons_none (hnone ha)]
          exact hrest
      | true =>
          obtain ⟨b, hb, hab⟩ := hsome ha
          rw [List.filter_cons_of_pos ha, List.filterMap_cons_some hb]
          exact .cons hab hrest

namespace Tree

/-- A method or constructor with a name. -/
def IsNamedMethod (d : Document) (t : Tree) : Prop := t.kind ∈ methodKinds ∧ (t.declaredName? d).isSome = true

instance (d : Document) (t : Tree) : Decidable (t.IsNamedMethod d) :=
  inferInstanceAs (Decidable (_ ∧ _))

theorem body?_eq_none {d : Document} {t : Tree} (h : ¬t.IsNamedMethod d) (container : Option String) :
    t.body? d container = none := by
  unfold body?
  split
  · rename_i hcallable
    cases hname : t.declaredName? d with
    | none => rfl
    | some name => exact absurd ⟨isCallable_iff.mp hcallable, by rw [hname]; rfl⟩ h
  · rfl

end Tree

namespace Index

variable {d : Document} {index later : Index} {node : Tree} {method : MethodInfo}

/-- A method is listed for a node under its name, and declared with the same name, span and range. -/
structure Lists (d : Document) (index : Index) (node : Tree) (method : MethodInfo) : Prop where
  name : node.declaredName? d = some method.name
  span : method.span = node.span
  range : method.range = d.extent node.span
  declared : ∃ x ∈ index.declarations, x.span = node.span ∧ x.symbol.name = method.name ∧
    x.symbol.range = method.range ∧ x.symbol.containerName = method.container

theorem Lists.mono (h : Lists d index node method) (hmore : index.declarations ⊆ later.declarations) :
    Lists d later node method := by
  obtain ⟨x, hx, hsame⟩ := h.declared
  exact ⟨h.name, h.span, h.range, x, hmore hx, hsame⟩

end Index

namespace Visit

open CodeIntel.Tree

variable {d : Document} {t : Tree} {parentKind : String} {visit entered after : Visit} {trees : List Tree}

/-- Entering a node lists the node itself, if it is a method with a name. -/
theorem lists_of_enter (h : enter d parentKind t visit = .ok entered) : ∃ added,
    entered.index.methods = visit.index.methods ++ added ∧
      List.Forall₂ (Index.Lists d entered.index) ([t].filter fun node => node.IsNamedMethod d) added := by
  refine ⟨_, (adds_of_enter h).methods, ?_⟩
  by_cases hmethod : t.IsNamedMethod d
  · have hcallable := isCallable_iff.mpr hmethod.1
    rw [List.filter_cons, if_pos (decide_eq_true hmethod)]
    rcases declared_of_isMember (isMember_of_isCallable hcallable) visit.containers.head? with
      ⟨hnone, -⟩ | ⟨x, hname, hdeclared⟩
    · exact absurd hmethod.2 (by rw [hnone]; exact Bool.false_ne_true)
    · rw [body?, if_pos hcallable, hname]
      have hx : x ∈ t.declared d visit.containers.head? := hdeclared ▸ List.mem_singleton_self x
      have hrecords := records_of_mem_declared hx
      have hmem := List.mem_append_right visit.index.declarations hx
      rw [← (adds_of_enter h).declarations] at hmem
      exact .cons ⟨hname, rfl, rfl, x, hmem, hrecords.span, rfl, hrecords.range, hrecords.container⟩ .nil
  · rw [body?_eq_none hmethod _, List.filter_cons, if_neg (by simpa using hmethod)]
    exact .nil

/-- A walk lists the methods with a name that it comes to, and nothing else. -/
theorem Walks.lists (h : Walks d parentKind trees visit after) : ∃ added,
    after.index.methods = visit.index.methods ++ added ∧
      List.Forall₂ (Index.Lists d after.index)
        ((trees.flatMap reached).filter fun node => node.IsNamedMethod d) added := by
  induction h with
  | nil => exact ⟨[], (List.append_nil _).symm, .nil⟩
  | @cons parentKind t rest visit entered inside after hentered hbelow hbehind ihbelow ihbehind =>
      obtain ⟨self, hself, hselves⟩ := lists_of_enter hentered
      obtain ⟨below, hbelows, hlisted⟩ := ihbelow
      obtain ⟨behind, hbehinds, hlisted'⟩ := ihbehind
      have hmore : inside.index.declarations ⊆ after.index.declarations := leave_index ▸ hbehind.subset
      refine ⟨self ++ below ++ behind, ?_, ?_⟩
      · rw [hbehinds, leave_index, hbelows, hself]
        simp only [List.append_assoc]
      · rw [List.flatMap_cons, reached_eq, List.filter_append, ← List.singleton_append, List.filter_append]
        refine List.rel_append (List.rel_append ?_ ?_) hlisted'
        · exact hselves.imp fun _ _ h => (h.mono hbelow.subset).mono hmore
        · exact hlisted.imp fun _ _ h => h.mono hmore

end Visit

section

open CodeIntel.Tree

variable {d : Document} {t : Tree}

/-- The identifiers of an index are the nodes that are identifiers, each with its own text and span. -/
theorem Tree.InText.forall₂_identifiers (h : t.InText d) :
    List.Forall₂ (fun node token => node.text? d = some token.name ∧ token.span = node.span)
      (t.reached.filter fun node => node.kind = "identifier") (t.identifiers d) := by
  rw [identifiers_eq]
  refine forall₂_filterMap (fun node _ hkind => if_neg (of_decide_eq_false hkind)) fun node hnode hkind => ?_
  obtain ⟨name, hname⟩ := h node ((reached_sublist t).subset hnode)
  exact ⟨⟨name, node.span⟩, by rw [token?, if_pos (of_decide_eq_true hkind), hname]; rfl, hname, rfl⟩

/-- An index of a tree in the text is always made. It has an entry for every identifier that is reached through
nodes of the grammar, in preorder, and no other. In the same way its methods are the methods and constructors
with a name, each of which is declared too; none is missed where tokens have nothing below them. -/
theorem entries_exact (h : t.InText d) : ∃ index, Index.build d t = .ok index ∧
    List.Forall₂ (fun node token => node.text? d = some token.name ∧ token.span = node.span)
      (t.reached.filter fun node => node.kind = "identifier") index.identifiers ∧
    List.Forall₂ (Index.Lists d index) (t.reached.filter fun node => node.IsNamedMethod d) index.methods ∧
    (t.LeafTokens → ∀ node ∈ t.subtrees, node.IsNamedMethod d → node ∈ t.reached) := by
  obtain ⟨index, hindex, hidentifiers⟩ := Index.exists_build h
  refine ⟨index, hindex, hidentifiers ▸ h.forall₂_identifiers, ?_, fun hleaves node hnode hmethod => ?_⟩
  · obtain ⟨visit, hvisit, hbuilt⟩ := bind_eq_ok.mp hindex
    obtain rfl := Except.ok.inj hbuilt
    obtain ⟨methods, hmethods, hlisted⟩ := (Visit.walks_of_tree hvisit).lists
    rw [List.flatMap_singleton] at hlisted
    rw [show visit.index.methods = methods from hmethods]
    exact hlisted.imp fun _ _ h => h.mono (List.Subset.refl _)
  · obtain ⟨name, hname⟩ := Option.isSome_iff_exists.mp hmethod.2
    obtain ⟨below, hbelow, -⟩ := declaredName?_eq_some.mp hname
    exact hleaves.mem_reached hnode (List.ne_nil_of_mem (mem_of_nameNode? hbelow))

/-- In the document with one constructor four identifiers and one method are listed, and no method is missed. -/
theorem entries_callingTree : callingTree.InText callingDocument ∧
    ∃ index, Index.build callingDocument callingTree = .ok index ∧ index.identifiers.length = 4 ∧
      index.methods.length = 1 ∧
      ∀ node ∈ callingTree.subtrees, node.IsNamedMethod callingDocument → node ∈ callingTree.reached := by
  obtain ⟨index, hindex, hidentifiers, hmethods, hreached⟩ := entries_exact callingTree_inText
  exact ⟨callingTree_inText, index, hindex, hidentifiers.length_eq.symm.trans (by decide +kernel),
    hmethods.length_eq.symm.trans (by decide +kernel), hreached (by unfold LeafTokens; decide +kernel)⟩

end

end CodeIntel
