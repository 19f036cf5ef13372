import CodeIntel.Proofs.Tree.Members

/-! The methods of an index, and which of them is chosen. A walk records a method before those below it and
before those behind it, so that of two methods the first is around the second or ends before it begins. To
choose one, the first of those is taken that come before all others under some order. -/

namespace CodeIntel

/-! ### The first that comes before all others -/

section

variable {α : Type} {precedes : α → α → Bool} {items : List α} {a : α}

theorem firstLeast?_eq_none_iff : firstLeast? precedes items = none ↔ items = [] := by
  cases items with
  | nil => exact iff_of_true rfl rfl
  | cons first rest =>
      rw [firstLeast?]
      split
      · simp
      · split <;> simp

theorem mem_of_firstLeast? (h : firstLeast? precedes items = some a) : a ∈ items := by
  induction items generalizing a with
  | nil => cases h
  | cons first rest ih =>
      rw [firstLeast?] at h
      split at h
      · obtain rfl := Option.some.inj h
        exact List.mem_cons_self
      · rename_i b hb
        split at h
        · obtain rfl := Option.some.inj h
          exact List.mem_cons_self
        · obtain rfl := Option.some.inj h
          exact List.mem_cons_of_mem _ (ih hb)

theorem firstLeast?_map {β : Type} (f : β → α) (items : List β) :
    firstLeast? precedes (items.map f) = (firstLeast? (fun a b => precedes (f a) (f b)) items).map f := by
  induction items with
  | nil => rfl
  | cons first rest ih =>
      rw [List.map_cons, firstLeast?, firstLeast?, ih]
      cases firstLeast? (fun a b => precedes (f a) (f b)) rest with
      | none => rfl
      | some b =>
          simp only [Option.map_some]
          split <;> rfl

/-- What is chosen comes before everything behind it, and nothing in front of it comes before it. -/
theorem firstLeast?_eq_some_iff
    (htrans : ∀ a b c, precedes a b = true → precedes b c = true → precedes a c = true)
    (htotal : ∀ a b, precedes a b = true ∨ precedes b a = true) :
    firstLeast? precedes items = some a ↔ ∃ before behind, items = before ++ a :: behind ∧
      (∀ b ∈ before, precedes b a = false) ∧ ∀ b ∈ behind, precedes a b = true := by
  induction items generalizing a with
  | nil => exact iff_of_false (by simp [firstLeast?]) (by simp)
  | cons first rest ih =>
      constructor
      · intro h
        rw [firstLeast?] at h
        cases hrest : firstLeast? precedes rest with
        | none =>
            rw [hrest] at h
            obtain rfl := Option.some.inj h
            obtain rfl := firstLeast?_eq_none_iff.mp hrest
            exact ⟨[], [], rfl, by simp, by simp⟩
        | some least =>
            obtain ⟨before, behind, rfl, hbefore, hbehind⟩ := ih.mp hrest
            simp only [hrest] at h
            split at h
            · rename_i hleast
              obtain rfl := Option.some.inj h
              refine ⟨[], _, rfl, by simp, fun b hb => ?_⟩
              rcases List.mem_append.mp hb with hb | hb
              · have hnot := Bool.eq_false_iff.mp (hbefore b hb)
                exact htrans _ _ _ hleast ((htotal b least).resolve_left hnot)
              · rcases List.mem_cons.mp hb with rfl | hb
                · exact hleast
                · exact htrans _ _ _ hleast (hbehind b hb)
            · rename_i hleast
              obtain rfl := Option.some.inj h
              exact ⟨first :: before, behind, rfl,
                List.forall_mem_cons.mpr ⟨Bool.eq_false_iff.mpr hleast, hbefore⟩, hbehind⟩
      · rintro ⟨before, behind, hitems, hbefore, hbehind⟩
        cases before with
        | nil =>
            obtain ⟨rfl, rfl⟩ := List.cons.inj hitems
            rw [firstLeast?]
            cases hrest : firstLeast? precedes rest with
            | none => rfl
            | some least => exact if_pos (hbehind least (mem_of_firstLeast? hrest))
        | cons other before =>
            obtain ⟨rfl, rfl⟩ := List.cons.inj hitems
            obtain ⟨hfirst, hbefore⟩ := List.forall_mem_cons.mp hbefore
            rw [firstLeast?, ih.mpr ⟨before, behind, rfl, hbefore, hbehind⟩]
            exact if_neg (Bool.eq_false_iff.mp hfirst)

end

/-! ### The order of methods -/

/-- A span lies in another one. -/
def Span.Encloses (outer inner : Span) : Prop := outer.start ≤ inner.start ∧ inner.stop ≤ outer.stop

instance (outer inner : Span) : Decidable (outer.Encloses inner) := inferInstanceAs (Decidable (_ ∧ _))

theorem Span.Encloses.refl (span : Span) : span.Encloses span := ⟨Nat.le_refl _, Nat.le_refl _⟩

theorem Span.Encloses.trans {first second third : Span} (h : first.Encloses second)
    (h' : second.Encloses third) : first.Encloses third :=
  ⟨Nat.le_trans h.1 h'.1, Nat.le_trans h'.2 h.2⟩

theorem Span.Encloses.antisymm {first second : Span} (h : first.Encloses second)
    (h' : second.Encloses first) : first = second := by
  obtain ⟨start, stop⟩ := first
  obtain ⟨start', stop'⟩ := second
  obtain rfl : start = start' := Nat.le_antisymm h.1 h'.1
  obtain rfl : stop' = stop := Nat.le_antisymm h.2 h'.2
  rfl

/-- A method is around another one or ends before it begins. -/
def MethodInfo.Leads (a b : MethodInfo) : Prop := a.span.Encloses b.span ∨ a.span.stop ≤ b.span.start

namespace Visit

variable {d : Document} {t : Tree} {trees : List Tree} {parentKind : String} {visit after : Visit}

/-- A node declares one method at most, with its own span. -/
theorem span_of_body? {container : Option String} {method : MethodInfo}
    (h : t.body? d container = some method) : method.span = t.span := by
  unfold Tree.body? at h
  split at h
  · obtain ⟨name, -, rfl⟩ := Option.map_eq_some_iff.mp h
    rfl
  · cases h

/-- A walk through trees that follow each other records methods inside of them, and every method leads those
that are recorded after it. -/
theorem Walks.methods_lead (h : Walks d parentKind trees visit after) (hnests : ∀ t ∈ trees, t.Nests d)
    (hordered : trees.Pairwise fun first second => first.span.stop ≤ second.span.start) :
    ∃ added, after.index.methods = visit.index.methods ++ added ∧ added.Pairwise MethodInfo.Leads ∧
      ∀ method ∈ added, ∃ t ∈ trees, t.span.Encloses method.span := by
  induction h with
  | nil => exact ⟨[], (List.append_nil _).symm, .nil, by simp⟩
  | @cons _ t rest visit entered inside after hentered _ _ ihbelow ihbehind =>
      obtain ⟨hahead, hordered⟩ := List.pairwise_cons.mp hordered
      have ht := hnests t List.mem_cons_self
      have hself := t.self_mem_subtrees
      have hown := (adds_of_enter hentered).methods
      generalize hbody : t.body? d visit.containers.head? = own? at hown
      obtain ⟨below, hbelow, hlead, hwithin⟩ := ihbelow
        (fun child hchild => ht.of_mem (Tree.mem_of_namedChildren hchild))
        ((ht.ordered t hself).sublist List.filter_sublist)
      obtain ⟨behind, hbehind, hlead', hwithin'⟩ := ihbehind
        (fun other hother => hnests other (List.mem_cons_of_mem _ hother)) hordered
      rw [leave_index, hbelow, hown, List.append_assoc, List.append_assoc] at hbehind
      have hinside : ∀ method ∈ own?.toList ++ below, t.span.Encloses method.span := by
        intro method hmethod
        rcases List.mem_append.mp hmethod with hmethod | hmethod
        · rw [span_of_body? (hbody.trans (Option.mem_toList.mp hmethod))]
          exact .refl _
        · obtain ⟨child, hchild, haround⟩ := hwithin method hmethod
          exact .trans (ht.inside t hself child (Tree.mem_of_namedChildren hchild)) haround
      have htop : (own?.toList ++ below).Pairwise MethodInfo.Leads := by
        cases own? with
        | none => exact hlead
        | some method =>
            refine List.pairwise_cons.mpr ⟨fun other hother => .inl ?_, hlead⟩
            exact span_of_body? hbody ▸ hinside other (List.mem_cons_of_mem _ hother)
      refine ⟨own?.toList ++ below ++ behind, by rw [hbehind, List.append_assoc],
        List.pairwise_append.mpr ⟨htop, hlead', fun a ha b hb => .inr ?_⟩, fun method hmethod => ?_⟩
      · obtain ⟨other, hother, haround⟩ := hwithin' b hb
        exact Nat.le_trans (Nat.le_trans (hinside a ha).2 (hahead other hother)) haround.1
      · rcases List.mem_append.mp hmethod with hmethod | hmethod
        · exact ⟨t, List.mem_cons_self, hinside method hmethod⟩
        · obtain ⟨other, hother, haround⟩ := hwithin' method hmethod
          exact ⟨other, List.mem_cons_of_mem _ hother, haround⟩

end Visit

/-- Every method of an index leads those behind it. -/
theorem Index.methods_lead {d : Document} {t : Tree} {index : Index} (h : Index.build d t = .ok index)
    (hnests : t.Nests d) : index.methods.Pairwise MethodInfo.Leads := by
  obtain ⟨visit, hvisit, h⟩ := bind_eq_ok.mp h
  obtain rfl := Except.ok.inj h
  obtain ⟨added, hadded, hlead, -⟩ := (Visit.walks_of_tree hvisit).methods_lead
    (fun other hother => List.mem_singleton.mp hother ▸ hnests) (List.pairwise_singleton _ _)
  have hmethods : visit.index.methods = added := hadded
  exact hmethods ▸ hlead

end CodeIntel
