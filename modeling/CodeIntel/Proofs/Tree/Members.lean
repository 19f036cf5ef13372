import CodeIntel.Proofs.Tree.Cursor
import CodeIntel.Proofs.Tree.Records

/-! The member that a call is made from. Nodes that share a piece of the text stand one above the other, so
that a call whose name lies in a method, with no other member below it, is made from this method and from no
other. The name of a method is an identifier, and no call is of a name that has a method below it. -/

namespace CodeIntel

namespace Tree

theorem sizeOf_lt_of_mem {t child : Tree} (h : child ∈ t.children) : sizeOf child < sizeOf t := by
  obtain ⟨head, children⟩ := t
  have hless := List.sizeOf_lt_of_mem (show child ∈ children from h)
  simp only [node.sizeOf_spec]
  omega

/-- What holds of a tree whenever it holds of the trees right below, holds of all trees. -/
@[elab_as_elim]
theorem induct {motive : Tree → Prop}
    (step : ∀ t, (∀ child ∈ t.children, motive child) → motive t) (t : Tree) : motive t :=
  step t fun child (_ : child ∈ t.children) => induct step child
termination_by sizeOf t
decreasing_by exact sizeOf_lt_of_mem ‹_›

variable {d : Document} {t m n child node name : Tree} {outer member : Option Tree} {start stop : Nat}

theorem mem_subtrees : n ∈ t.subtrees ↔ n = t ∨ ∃ child ∈ t.children, n ∈ child.subtrees := by
  obtain ⟨head, children⟩ := t
  rw [subtrees, List.mem_cons, mem_subtreesOf, children_node]

theorem subtrees_trans (hm : m ∈ t.subtrees) (hn : n ∈ m.subtrees) : n ∈ t.subtrees := by
  induction t using induct with
  | step t ih =>
      rcases mem_subtrees.mp hm with rfl | ⟨child, hchild, hm⟩
      · exact hn
      · exact subtrees_of_mem hchild (ih child hchild hm)

namespace Nests

theorem of_mem_subtrees (h : t.Nests d) (hn : n ∈ t.subtrees) : n.Nests d where
  inText other hother := h.inText other (subtrees_trans hn hother)
  ordered other hother := h.ordered other (subtrees_trans hn hother)
  inside other hother := h.inside other (subtrees_trans hn hother)
  apart other hother := h.apart other (subtrees_trans hn hother)

/-- A node lies inside every node above it. -/
theorem inside_of_mem_subtrees (h : t.Nests d) (hn : n ∈ t.subtrees) :
    t.span.start ≤ n.span.start ∧ n.span.stop ≤ t.span.stop := by
  induction t using induct with
  | step t ih =>
      rcases mem_subtrees.mp hn with rfl | ⟨child, hchild, hn⟩
      · exact ⟨Nat.le_refl _, Nat.le_refl _⟩
      · have hbelow := ih child hchild (h.of_mem hchild) hn
        have hinside := h.inside t t.self_mem_subtrees child hchild
        omega

/-- A piece of the text lies in one child of a node at most. -/
theorem child_eq (h : t.Nests d) (hm : m ∈ t.children) (hn : n ∈ t.children) (hwide : start < stop)
    (hinside : m.span.start ≤ start ∧ stop ≤ m.span.stop)
    (hinside' : n.span.start ≤ start ∧ stop ≤ n.span.stop) : m = n := by
  rcases eq_or_related_of_pairwise (h.ordered t t.self_mem_subtrees) hm hn with heq | hbefore | hbehind
  · exact heq
  · omega
  · omega

/-- Two nodes that share a piece of the text stand one above the other. -/
theorem above_or_below (h : t.Nests d) (hm : m ∈ t.subtrees) (hn : n ∈ t.subtrees) (hwide : start < stop)
    (hinside : m.span.start ≤ start ∧ stop ≤ m.span.stop)
    (hinside' : n.span.start ≤ start ∧ stop ≤ n.span.stop) : n ∈ m.subtrees ∨ m ∈ n.subtrees := by
  induction t using induct with
  | step t ih =>
      rcases mem_subtrees.mp hm with rfl | ⟨child, hchild, hm'⟩
      · exact .inl hn
      · rcases mem_subtrees.mp hn with rfl | ⟨other, hother, hn'⟩
        · exact .inr hm
        · have habove := (h.of_mem hchild).inside_of_mem_subtrees hm'
          have habove' := (h.of_mem hother).inside_of_mem_subtrees hn'
          obtain rfl := h.child_eq hchild hother hwide
            ⟨by omega, by omega⟩ ⟨by omega, by omega⟩
          exact ih child hchild (h.of_mem hchild) hm' hn'

end Nests

/-! ### Names that are called -/

theorem calledNames_eq_map (trees : List Tree) : calledNames trees = trees.map calledName? := by
  induction trees with
  | nil => rfl
  | cons child rest ih => rw [calledNames, ih, List.map_cons]

theorem exists_part {position : Option Nat} {children : List Tree}
    (h : (match position with
      | some index => (calledNames children)[index]?.join
      | none => none) = some name) : ∃ part ∈ children, part.calledName? = some name := by
  cases position with
  | none => cases h
  | some index =>
      dsimp only at h
      rw [Option.join_eq_some_iff, calledNames_eq_map, List.getElem?_map] at h
      obtain ⟨part, hpart, hname⟩ := Option.map_eq_some_iff.mp h
      exact ⟨part, List.mem_of_getElem? hpart, hname⟩

/-- The simple name of an expression is the expression itself, or an identifier right below it, or that of a
part of it. -/
theorem calledName?_cases (h : t.calledName? = some name) :
    (t.kind = "identifier" ∧ name = t) ∨
      t.isCallable = false ∧
        ((name ∈ t.children ∧ name.kind = "identifier") ∨
          ∃ part ∈ t.children, part.calledName? = some name) := by
  obtain ⟨head, children⟩ := t
  rw [calledName?] at h
  split at h
  · rename_i hkind
    exact .inl ⟨hkind, (Option.some.inj h).symm⟩
  · rename_i hkind
    have hfound := List.find?_some (show List.find? _ (namedChildren _) = some name from h)
    exact .inr ⟨by simp [isCallable, Tree.kind, hkind, Role.ofKind],
      .inl ⟨mem_of_childOfKind? h, of_decide_eq_true hfound⟩⟩
  · rename_i hkind
    exact .inr ⟨by simp [isCallable, Tree.kind, hkind, Role.ofKind], .inr (exists_part h)⟩
  · rename_i hkind
    exact .inr ⟨by simp [isCallable, Tree.kind, hkind, Role.ofKind], .inr (exists_part h)⟩
  · cases h

theorem kind_ne_of_isCallable (h : t.isCallable = true) : t.kind ≠ "identifier" := by
  intro hkind
  rw [isCallable, hkind] at h
  cases h

/-- What a call calls stands below it, and what is below is no member. -/
theorem called?_cases (h : t.called? = some name) :
    t.isMember = false ∧ ∃ target ∈ t.children, target.calledName? = some name := by
  unfold called? at h
  split at h
  · rename_i hrole
    obtain ⟨target, htarget, hname⟩ := Option.bind_eq_some_iff.mp h
    refine ⟨by rw [isMember, hrole], target, ?_, hname⟩
    rcases Option.or_eq_some_iff.mp htarget with hfield | ⟨-, hfirst⟩
    · exact mem_of_field? hfield
    · exact mem_of_namedChildren (List.mem_of_head? hfirst)
  · rename_i hrole
    obtain ⟨target, htarget, hname⟩ := Option.bind_eq_some_iff.mp h
    refine ⟨by rw [isMember, hrole], target, ?_, hname⟩
    rcases Option.or_eq_some_iff.mp htarget with hfield | ⟨-, hfirst⟩
    · exact mem_of_field? hfield
    · exact mem_of_namedChildren (List.mem_of_find?_eq_some hfirst)
  · cases h

theorem mem_subtrees_of_calledName? (h : t.calledName? = some name) : name ∈ t.subtrees := by
  induction t using induct with
  | step t ih =>
      rcases calledName?_cases h with ⟨-, rfl⟩ | ⟨-, ⟨hname, -⟩ | ⟨part, hpart, hname⟩⟩
      · exact name.self_mem_subtrees
      · exact subtrees_of_mem hname name.self_mem_subtrees
      · exact subtrees_of_mem hpart (ih part hpart hname)

theorem mem_subtrees_of_called? (h : t.called? = some name) : name ∈ t.subtrees := by
  obtain ⟨-, target, htarget, hname⟩ := called?_cases h
  exact subtrees_of_mem htarget (mem_subtrees_of_calledName? hname)

/-! ### Methods -/

/-- A method or constructor whose name is an identifier, with no other member below it. -/
structure IsMethod (m : Tree) : Prop where
  callable : m.isCallable = true
  name : ∃ name ∈ m.children, name.kind = "identifier" ∧ name.span.start < name.span.stop
  flat : ∀ child ∈ m.children, ∀ below ∈ child.subtrees, below.isMember = false

theorem IsMethod.not_below_identifier (hm : m.IsMethod) (h : n.Nests d) (hkind : n.kind = "identifier") :
    m ∉ n.subtrees := by
  intro hmem
  rcases mem_subtrees.mp hmem with rfl | ⟨child, hchild, hmem⟩
  · exact kind_ne_of_isCallable hm.callable hkind
  · obtain ⟨name, hname, hidentifier, -⟩ := hm.name
    exact h.apart n n.self_mem_subtrees hkind child hchild name
      (subtrees_trans hmem (subtrees_of_mem hname name.self_mem_subtrees)) hidentifier

/-- No part of what is called lies in a method below the call. -/
theorem IsMethod.not_around_called (hm : m.IsMethod) (h : t.Nests d) (hmem : m ∈ t.subtrees)
    (hcalled : t.calledName? = some name) (hwide : name.span.start < name.span.stop)
    (hinside : m.span.start ≤ name.span.start ∧ name.span.stop ≤ m.span.stop) : False := by
  induction t using induct with
  | step t ih =>
      rcases calledName?_cases hcalled with ⟨hkind, rfl⟩ | ⟨hplain, hbelow⟩
      · exact hm.not_below_identifier h hkind hmem
      · rcases mem_subtrees.mp hmem with rfl | ⟨child, hchild, hmem⟩
        · exact Bool.false_ne_true (hplain.symm.trans hm.callable)
        · have habove := (h.of_mem hchild).inside_of_mem_subtrees hmem
          have hchild' : child.span.start ≤ name.span.start ∧ name.span.stop ≤ child.span.stop := by
            omega
          rcases hbelow with ⟨hname, hkind⟩ | ⟨part, hpart, hname⟩
          · obtain rfl := h.child_eq hchild hname hwide hchild' ⟨Nat.le_refl _, Nat.le_refl _⟩
            exact hm.not_below_identifier (h.of_mem hchild) hkind hmem
          · have hpart' := (h.of_mem hpart).inside_of_mem_subtrees (mem_subtrees_of_calledName? hname)
            obtain rfl := h.child_eq hchild hpart hwide hchild' hpart'
            exact ih child hchild (h.of_mem hchild) hmem hname

theorem Stands.mem_subtrees (h : Stands outer t member node) : node ∈ t.subtrees := by
  induction h with
  | here => exact self_mem_subtrees _
  | under hchild _ ih => exact subtrees_of_mem (mem_of_namedChildren hchild) ih

/-- Where no member is below, calls are made from the member around. -/
theorem Stands.member_eq_of_flat (h : Stands outer t member node)
    (hflat : ∀ below ∈ t.subtrees, below.isMember = false) : member = outer := by
  induction h with
  | here => rfl
  | @under outer member t child node hchild _ ih =>
      have hchild := mem_of_namedChildren hchild
      rw [ih fun below hbelow => hflat below (subtrees_of_mem hchild hbelow), innermost,
        if_neg (by rw [hflat t t.self_mem_subtrees]; exact Bool.false_ne_true)]

/-- A call whose name lies in a method is made from this method. -/
theorem Stands.member_eq (h : Stands outer t member node) (hnests : t.Nests d) (hm : m.IsMethod)
    (hmem : m ∈ t.subtrees) (hcalled : node.called? = some name)
    (hwide : name.span.start < name.span.stop)
    (hinside : m.span.start ≤ name.span.start ∧ name.span.stop ≤ m.span.stop) : member = some m := by
  induction h with
  | @here outer t =>
      obtain ⟨hplain, target, htarget, hname⟩ := called?_cases hcalled
      rcases Tree.mem_subtrees.mp hmem with rfl | ⟨child, hchild, hmem⟩
      · exact absurd (hplain.symm.trans (isMember_of_isCallable hm.callable)) Bool.false_ne_true
      · have habove := (hnests.of_mem hchild).inside_of_mem_subtrees hmem
        have hinside' := (hnests.of_mem htarget).inside_of_mem_subtrees
          (mem_subtrees_of_calledName? hname)
        obtain rfl := hnests.child_eq hchild htarget hwide ⟨by omega, by omega⟩ hinside'
        exact (hm.not_around_called (hnests.of_mem hchild) hmem hname hwide hinside).elim
  | @under outer member t child node hchild hbelow ih =>
      have hchild := mem_of_namedChildren hchild
      rcases Tree.mem_subtrees.mp hmem with rfl | ⟨other, hother, hmem⟩
      · rw [hbelow.member_eq_of_flat (hm.flat child hchild), innermost,
          if_pos (isMember_of_isCallable hm.callable)]
      · have habove := (hnests.of_mem hother).inside_of_mem_subtrees hmem
        have hinside' := (hnests.of_mem hchild).inside_of_mem_subtrees
          (subtrees_trans hbelow.mem_subtrees (mem_subtrees_of_called? hcalled))
        obtain rfl := hnests.child_eq hother hchild hwide ⟨by omega, by omega⟩ hinside'
        exact ih (hnests.of_mem hother) hmem hcalled

/-- Methods that share a piece of the text are the same. -/
theorem IsMethod.eq_of_overlap {m' : Tree} (hm : m.IsMethod) (hm' : m'.IsMethod) (h : t.Nests d)
    (hmem : m ∈ t.subtrees) (hmem' : m' ∈ t.subtrees) (hwide : start < stop)
    (hinside : m.span.start ≤ start ∧ stop ≤ m.span.stop)
    (hinside' : m'.span.start ≤ start ∧ stop ≤ m'.span.stop) : m' = m := by
  have hflat : ∀ {n n' : Tree}, n.IsMethod → n'.IsMethod → n' ∈ n.subtrees → n' = n := by
    intro n n' hn hn' hbelow
    rcases Tree.mem_subtrees.mp hbelow with heq | ⟨child, hchild, hbelow⟩
    · exact heq
    · exact absurd ((hn.flat child hchild n' hbelow).symm.trans (isMember_of_isCallable hn'.callable))
        Bool.false_ne_true
  rcases h.above_or_below hmem hmem' hwide hinside hinside' with hbelow | habove
  · exact hflat hm hm' hbelow
  · exact (hflat hm' hm habove).symm

theorem IsMethod.start_lt_stop (hm : m.IsMethod) (h : m.Nests d) : m.span.start < m.span.stop := by
  obtain ⟨name, hname, -, hwide⟩ := hm.name
  have hinside := h.inside m m.self_mem_subtrees name hname
  omega

/-! ### Identifiers that are reached -/

theorem mem_identifiersOf {token : Token} {trees : List Tree} (hmem : child ∈ trees)
    (hnamed : child.head.named = true) (htoken : token ∈ child.identifiers d) :
    token ∈ identifiersOf d trees := by
  induction trees with
  | nil => cases hmem
  | cons first rest ih =>
      rw [identifiersOf]
      rcases List.mem_cons.mp hmem with rfl | hmem
      · rw [if_pos hnamed]
        exact List.mem_append_left _ htoken
      · exact List.mem_append_right _ (ih hmem)

/-- An identifier that a visit comes to is recorded. -/
theorem Stands.mem_identifiers (h : Stands outer t member node) {token : Token}
    (htoken : node.token? d = some token) : token ∈ t.identifiers d := by
  induction h with
  | @here outer t =>
      obtain ⟨head, children⟩ := t
      rw [identifiers, htoken]
      exact List.mem_append_left _ List.mem_cons_self
  | @under outer member t child node hchild _ ih =>
      obtain ⟨head, children⟩ := t
      obtain ⟨hmem, hnamed⟩ := List.mem_filter.mp hchild
      rw [identifiers]
      exact List.mem_append_right _ (mem_identifiersOf hmem hnamed (ih htoken))

/-- The name of every method or constructor is an identifier. -/
def NamesMethods (t : Tree) : Prop :=
  ∀ node ∈ t.subtrees, node.isCallable = true → ∀ name, node.nameNode? = some name →
    name.head.named = true ∧ name.kind = "identifier"

/-- The name of a method or constructor that is declared is one of the identifiers of the text. -/
theorem NamesMethods.mem_identifiers (h : t.NamesMethods) {index : Index} {x : Declaration}
    (hrecords : Index.Records d t index) (hx : x ∈ index.declarations)
    (hkind : x.symbol.kind.isCallable = true) :
    (⟨x.symbol.name, x.nameSpan⟩ : Token) ∈ t.identifiers d := by
  obtain ⟨member, node, name, hstands, hcallable, hname, -, hnameSpan⟩ := hrecords.placed x hx hkind
  obtain ⟨hnamed, hidentifier⟩ := h node hstands.mem_subtrees hcallable name hname
  have htoken : name.token? d = some ⟨x.symbol.name, x.nameSpan⟩ := by
    rw [token?, if_pos hidentifier, text?, ← hnameSpan, (hrecords.made x hx).name]
    rfl
  exact (hstands.namedChild (List.mem_filter.mpr ⟨mem_of_nameNode? hname, hnamed⟩)).mem_identifiers htoken

/-! ### Methods of an index -/

/-- What a parser promises of the methods of a text: the nodes of its tree are in order and none begins inside
the end of a line, the name of a method or constructor is an identifier, and no other member is below it. -/
structure NestsMethods (d : Document) (t : Tree) : Prop where
  nests : t.Nests d
  aligned : ∀ node ∈ t.subtrees, ¬ Lines.InsideEnd d.chars node.span.start
  named : ∀ node ∈ t.subtrees, node.isCallable = true → ∀ name, node.nameNode? = some name →
    name.head.named = true ∧ name.kind = "identifier" ∧ name.span.start < name.span.stop
  flat : ∀ node ∈ t.subtrees, node.isCallable = true → ∀ child ∈ node.children,
    ∀ below ∈ child.subtrees, below.isMember = false

namespace NestsMethods

variable {index : Index} {x y : Declaration}

theorem namesMethods (h : t.NestsMethods d) : t.NamesMethods := fun node hnode hcallable name hname =>
  ⟨(h.named node hnode hcallable name hname).1, (h.named node hnode hcallable name hname).2.1⟩

/-- A method is declared at a node of the tree, and its name is one of the identifiers of the text. -/
theorem exists_node (h : t.NestsMethods d) (hrecords : Index.Records d t index)
    (hx : x ∈ index.declarations) (hkind : x.symbol.kind.isCallable = true) :
    (⟨x.symbol.name, x.nameSpan⟩ : Token) ∈ t.identifiers d ∧ x.symbol.name ≠ "" ∧
      ∃ node ∈ t.subtrees, node.IsMethod ∧ node.span = x.span ∧
        (node.nameNode?.bind (·.text? d)).isSome = true := by
  obtain ⟨member, node, name, hstands, hcallable, hname, hspan, hnameSpan⟩ := hrecords.placed x hx hkind
  have hnode := hstands.mem_subtrees
  obtain ⟨-, hidentifier, hwide⟩ := h.named node hnode hcallable name hname
  have hbelow := mem_of_nameNode? hname
  have htext : name.text? d = some x.symbol.name := by
    rw [text?, ← hnameSpan]
    exact (hrecords.made x hx).name
  refine ⟨h.namesMethods.mem_identifiers hrecords hx hkind, fun hnil => ?_, node, hnode,
    ⟨hcallable, ⟨name, hbelow, hidentifier, hwide⟩, h.flat node hnode hcallable⟩, hspan.symm, ?_⟩
  · obtain ⟨_, _, -, -, hstop⟩ := Document.exists_of_slice? htext
    rw [hnil] at hstop
    exact absurd hstop (Nat.ne_of_lt hwide)
  · rw [hname, Option.bind_some, htext]
    rfl

/-- A method begins where its range says. -/
theorem offsetAt (h : t.NestsMethods d) (hmem : node ∈ t.subtrees) (hm : node.IsMethod) :
    d.offsetAt (d.extent node.span).start = .ok node.span.start := by
  obtain ⟨text, htext⟩ := h.nests.inText node hmem
  exact Document.offsetAt_start htext (hm.start_lt_stop (h.nests.of_mem_subtrees hmem)) (h.aligned node hmem)

/-- Methods of one range are of one span. -/
theorem span_eq_of_range_eq (h : t.NestsMethods d) (hrecords : Index.Records d t index)
    (hx : x ∈ index.declarations) (hkind : x.symbol.kind.isCallable = true) (hy : y ∈ index.declarations)
    (hkind' : y.symbol.kind.isCallable = true) (hrange : d.extent y.span = d.extent x.span) :
    y.span = x.span := by
  obtain ⟨-, -, m, hmem, hm, hspan, -⟩ := h.exists_node hrecords hx hkind
  obtain ⟨-, -, m', hmem', hm', hspan', -⟩ := h.exists_node hrecords hy hkind'
  rw [← hspan, ← hspan'] at hrange ⊢
  have hstart := h.offsetAt hmem' hm'
  rw [hrange, h.offsetAt hmem hm] at hstart
  have hstart : m.span.start = m'.span.start := Except.ok.inj hstart
  have hwide := hm.start_lt_stop (h.nests.of_mem_subtrees hmem)
  have hwide' := hm'.start_lt_stop (h.nests.of_mem_subtrees hmem')
  -- Both begin with the same byte.
  rw [hm.eq_of_overlap hm' h.nests hmem hmem' (Nat.lt_succ_self m.span.start) ⟨Nat.le_refl _, hwide⟩
    ⟨by omega, by omega⟩]

/-- A call in a method is written down as made from this method. -/
theorem caller_eq (h : t.NestsMethods d) (hrecords : Index.Records d t index)
    (hdistinct : ∀ y ∈ index.declarations, y.span = x.span → y = x) (hx : x ∈ index.declarations)
    (hkind : x.symbol.kind.isCallable = true) {call : Invocation} (hcall : call ∈ index.invocations)
    (hcallee : call.callee ≠ "")
    (hinside : x.span.start ≤ call.nameSpan.start ∧ call.nameSpan.stop ≤ x.span.stop) :
    call.caller = some x.symbol.qualifiedName := by
  obtain ⟨-, -, m, hmem, hm, hspan, hnamed⟩ := h.exists_node hrecords hx hkind
  obtain ⟨member, site, name, hstands, hcalled, hnameSpan, htext, hnames⟩ := hrecords.traces call hcall
  rw [← hspan, hnameSpan] at hinside
  have hmember := hstands.member_eq h.nests hm hmem hcalled (Document.start_lt_stop htext hcallee) hinside
  obtain ⟨y, hy, -, hspan', hcaller⟩ := hnames m hmember hm.callable hnamed
  rw [hcaller, hdistinct y hy (hspan'.trans hspan)]

end NestsMethods

end Tree

end CodeIntel
