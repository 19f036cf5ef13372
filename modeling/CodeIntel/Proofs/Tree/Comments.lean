import CodeIntel.Tree.Measure

/-! Comments and the measures of a method. A comment may stand between any two children of a node, and a tree
with some of its comments taken out has the same decisions and nests as deep. Its weight is the same too, but
for the comments that stand behind the `else` of a conditional statement: each of them is taken for a branch,
and weighs one. -/

namespace CodeIntel.Tree

/-- A comment is a node of the grammar without children. -/
def IsComment (t : Tree) : Prop := t.kind = "comment" ∧ t.head.named = true ∧ t.children = []

instance (t : Tree) : Decidable t.IsComment :=
  match t with
  | .node head [] => decidable_of_iff (head.kind = "comment" ∧ head.named = true)
      ⟨fun h => ⟨h.1, h.2, rfl⟩, fun h => ⟨h.1, h.2.1⟩⟩
  | .node _ (_ :: _) => .isFalse fun h => nomatch h.2.2

/-- Some trees with comments taken out, at the top and anywhere below. The fields of a node count its
children, so they may change. -/
inductive Strips : List Tree → List Tree → Prop where
  | nil : Strips [] []
  | strip {comment : Tree} {rest kept : List Tree} : comment.IsComment → Strips rest kept →
      Strips (comment :: rest) kept
  | keep {head : Node} {fields : List (String × Nat)} {children below rest kept : List Tree} :
      Strips children below → Strips rest kept →
      Strips (.node head children :: rest) (.node { head with fields } below :: kept)

/-- A tree with comments taken out below its root. -/
def StripsTo (t bare : Tree) : Prop :=
  ∃ fields below, Strips t.children below ∧ bare = .node { t.head with fields } below

mutual

/-- How many comments at and below a node are taken for branches of a conditional statement. -/
def branchComments : Tree → Nat
  | .node head children =>
    if head.kind = "if_statement" then branchCommentsIn false children else branchCommentsAmong children

/-- How many among the parts of a conditional statement are. -/
def branchCommentsIn (afterElse : Bool) : List Tree → Nat
  | [] => 0
  | child :: rest =>
    if !child.head.named then branchCommentsIn (afterElse || child.kind == "else") rest
    else
      (if afterElse && child.kind == "comment" then 1 else 0) + branchComments child +
        branchCommentsIn afterElse rest

/-- How many among the children of any other node are. -/
def branchCommentsAmong : List Tree → Nat
  | [] => 0
  | child :: rest =>
    (if child.head.named then branchComments child else 0) + branchCommentsAmong rest

end

section

variable {trees kept : List Tree} {comment : Tree} {load other : Load UInt32} {n m : Nat}

theorem IsComment.exists_head (h : comment.IsComment) :
    ∃ head, comment = .node head [] ∧ head.kind = "comment" ∧ head.named = true := by
  obtain ⟨head, children⟩ := comment
  obtain ⟨hkind, hnamed, hleaf⟩ := h
  exact ⟨head, congrArg (Tree.node head) hleaf, hkind, hnamed⟩

/-! ### Decisions -/

theorem decisions_of_isComment (h : comment.IsComment) (parentKind : String) :
    decisions parentKind comment = 0 := by
  obtain ⟨head, rfl, hkind, -⟩ := h.exists_head
  simp [decisions, decisionsAmong, isDecision, decisionKinds, hkind]

/-- Comments are no decisions. -/
theorem Strips.decisionsAmong_eq (h : Strips trees kept) (parentKind : String) :
    decisionsAmong parentKind trees = decisionsAmong parentKind kept := by
  induction h generalizing parentKind with
  | nil => rfl
  | strip hcomment _ ih => rw [decisionsAmong, decisions_of_isComment hcomment, Nat.zero_add, ih]
  | keep _ _ hbelow hrest => rw [decisionsAmong, decisionsAmong, decisions, decisions, hbelow, hrest]

/-! ### The walk -/

/-- Comments are no operators. -/
theorem Strips.logicalOperator?_eq (h : Strips trees kept) :
    logicalOperator? trees = logicalOperator? kept := by
  induction h with
  | nil => rfl
  | strip hcomment _ ih =>
      rw [← ih, logicalOperator?, List.find?_cons_of_neg (by simp [hcomment.2.1])]
      rfl
  | keep _ _ _ ih =>
      unfold logicalOperator? at ih ⊢
      rw [List.find?_cons, List.find?_cons]
      simp only [head_node, kind]
      split
      · rfl
      · exact ih

theorem walk_of_isComment (h : comment.IsComment) (above : Option String) (depth : UInt32) (elseIf : Bool)
    (load : Load UInt32) : walk above depth elseIf comment load = load := by
  obtain ⟨head, rfl, hkind, -⟩ := h.exists_head
  simp [walk, walkNamed, weight, nestingKinds, Load.add, hkind]

theorem branchComments_of_isComment (h : comment.IsComment) : branchComments comment = 0 := by
  obtain ⟨head, rfl, hkind, -⟩ := h.exists_head
  simp [branchComments, branchCommentsAmong, hkind]

/-- Two loads with the same nesting, whose weights differ as two numbers do. -/
def Load.Apart (load other : Load UInt32) (n m : Nat) : Prop :=
  load.nesting = other.nesting ∧ load.score + .ofNat m = other.score + .ofNat n

theorem Load.Apart.add (h : load.Apart other n m) (weight : UInt32) :
    (load.add weight).Apart (other.add weight) n m := by
  refine ⟨h.1, ?_⟩
  calc load.score + weight + .ofNat m = load.score + .ofNat m + weight := by ac_rfl
    _ = other.score + .ofNat n + weight := by rw [h.2]
    _ = other.score + weight + .ofNat n := by ac_rfl

theorem Load.Apart.count (h : load.Apart other n m) : (load.add 1).Apart other (n + 1) m := by
  refine ⟨h.1, ?_⟩
  calc load.score + 1 + .ofNat m = load.score + .ofNat m + 1 := by ac_rfl
    _ = other.score + .ofNat n + 1 := by rw [h.2]
    _ = other.score + .ofNat (n + 1) := by rw [UInt32.ofNat_add, UInt32.add_assoc]; rfl

theorem Load.Apart.shift (h : load.Apart other n m) (both : Nat) :
    load.Apart other (n + both) (m + both) := by
  refine ⟨h.1, ?_⟩
  rw [UInt32.ofNat_add, UInt32.ofNat_add, ← UInt32.add_assoc, ← UInt32.add_assoc, h.2]

theorem Load.Apart.reach (h : load.Apart other n m) (depth : UInt32) :
    (load.reach depth).Apart (other.reach depth) n m :=
  ⟨congrArg (max · depth) h.1, h.2⟩

/-- Walks of two nodes gather the same but for comments taken for branches. -/
def WalkApart (t bare : Tree) : Prop :=
  ∀ above depth elseIf load other n m, Load.Apart load other n m →
    (walk above depth elseIf t load).Apart (walk above depth elseIf bare other)
      (n + branchComments t) (m + branchComments bare)

/-- Walks through two lists of children do, be they those of a conditional statement or of any other node. -/
def WalksApart (trees kept : List Tree) : Prop :=
  (∀ above depth load other n m, Load.Apart load other n m →
    (walkNamed above depth trees load).Apart (walkNamed above depth kept other)
      (n + branchCommentsAmong trees) (m + branchCommentsAmong kept)) ∧
  ∀ depth afterElse load other n m, Load.Apart load other n m →
    (walkBranches depth afterElse trees load).Apart (walkBranches depth afterElse kept other)
      (n + branchCommentsIn afterElse trees) (m + branchCommentsIn afterElse kept)

/-- A walk of a node leads through its children in one of the two ways. -/
theorem WalksApart.walkApart {head : Node} {fields : List (String × Nat)} (h : WalksApart trees kept)
    (hstrips : Strips trees kept) : WalkApart (.node head trees) (.node { head with fields } kept) := by
  intro above depth elseIf load other n m hload
  rw [walk, walk, branchComments, branchComments]
  by_cases hif : head.kind = "if_statement"
  · simp only [if_pos hif]
    exact h.2 depth false _ _ n m ((hload.add _).reach _)
  · simp only [if_neg hif]
    have hweight : weight above depth { head with fields } kept = weight above depth head trees := by
      rw [weight, weight, hstrips.logicalOperator?_eq]
    rw [hweight, ← hstrips.logicalOperator?_eq]
    refine h.1 _ _ _ _ n m ?_
    split
    · exact (hload.add _).reach _
    · exact hload.add _

theorem WalksApart.nil : WalksApart [] [] := by
  refine ⟨fun above depth load other n m hload => ?_, fun depth afterElse load other n m hload => ?_⟩
  · rw [walkNamed, walkNamed, branchCommentsAmong]
    exact hload
  · rw [walkBranches, walkBranches, branchCommentsIn]
    exact hload

/-- A comment more counts as a branch behind `else`, and nowhere else. -/
theorem WalksApart.strip (h : WalksApart trees kept) (hcomment : comment.IsComment) :
    WalksApart (comment :: trees) kept := by
  refine ⟨fun above depth load other n m hload => ?_, fun depth afterElse load other n m hload => ?_⟩
  · rw [walkNamed, branchCommentsAmong, walk_of_isComment hcomment, branchComments_of_isComment hcomment,
      ite_self, ite_self, Nat.zero_add]
    exact h.1 above depth load other n m hload
  · rw [walkBranches, branchCommentsIn, branchComments_of_isComment hcomment, hcomment.1, hcomment.2.1]
    simp only [walk_of_isComment hcomment]
    cases afterElse with
    | true =>
        have hnext := h.2 depth true _ _ _ _ hload.count
        rw [Nat.add_assoc] at hnext
        exact hnext
    | false => simpa using h.2 depth false _ _ _ _ hload

/-- Children that are alike are walked in the same way, and so is what is behind them. -/
theorem WalksApart.keep {t bare : Tree} (h : WalksApart trees kept) (hwalk : WalkApart t bare)
    (hnamed : bare.head.named = t.head.named) (hkind : bare.kind = t.kind) :
    WalksApart (t :: trees) (bare :: kept) := by
  refine ⟨fun above depth load other n m hload => ?_, fun depth afterElse load other n m hload => ?_⟩
  · rw [walkNamed, walkNamed, branchCommentsAmong, branchCommentsAmong, ← Nat.add_assoc, ← Nat.add_assoc,
      hnamed]
    refine h.1 above depth _ _ _ _ ?_
    split
    · exact hwalk above depth false _ _ n m hload
    · exact hload
  · rw [walkBranches, walkBranches, branchCommentsIn, branchCommentsIn, hnamed, hkind]
    split
    · exact h.2 depth _ _ _ _ _ hload
    · rw [← Nat.add_assoc, ← Nat.add_assoc, ← Nat.add_assoc, ← Nat.add_assoc]
      cases afterElse with
      | false => simpa using h.2 depth false _ _ _ _ (hwalk none (depth + 1) false _ _ n m hload)
      | true =>
          by_cases hif : t.kind = "if_statement"
          · simpa [hif] using h.2 depth true _ _ _ _ (hwalk none depth true _ _ n m hload)
          · -- A comment that stays counts on both sides.
            have hboth := (hload.add 1).shift (if true && t.kind == "comment" then 1 else 0)
            simpa [hif] using h.2 depth true _ _ _ _ (hwalk none (depth + 1) false _ _ _ _ hboth)

/-- Taking comments out changes what a walk gathers only by the comments that it takes for branches. -/
theorem Strips.walksApart (h : Strips trees kept) : WalksApart trees kept := by
  induction h with
  | nil => exact .nil
  | strip hcomment _ ih => exact ih.strip hcomment
  | keep hstrips _ hbelow hrest => exact hrest.keep (hbelow.walkApart hstrips) rfl rfl

end

/-- Taking comments out of a method changes neither its decisions nor its nesting. Its weight is the same up to
the comments that stand behind the `else` of a conditional statement, of which each weighs one, as numbers of 32
bits. -/
theorem measure_of_strips {method bare : Tree} (h : method.StripsTo bare) (d : Document) :
    (method.measure d).cyclomatic = (bare.measure d).cyclomatic ∧
    (method.measure d).nesting = (bare.measure d).nesting ∧
    (method.measure d).cognitive + .ofNat bare.branchComments =
      (bare.measure d).cognitive + .ofNat method.branchComments := by
  obtain ⟨head, children⟩ := method
  obtain ⟨fields, below, hstrips, rfl⟩ := h
  have hstrips : Strips children below := hstrips
  have hwalk : WalkApart (.node head children) (.node { head with fields } below) :=
    hstrips.walksApart.walkApart hstrips
  obtain ⟨hnesting, hscore⟩ := hwalk none 0 false _ _ 0 0 (⟨rfl, rfl⟩ : Load.Apart ⟨0, 0⟩ ⟨0, 0⟩ 0 0)
  rw [Nat.zero_add, Nat.zero_add] at hscore
  refine ⟨?_, hnesting, hscore⟩
  change 1 + decisions "" (.node head children) = 1 + decisions "" (.node { head with fields } below)
  rw [decisions, decisions, hstrips.decisionsAmong_eq]

/-! ### A conditional statement with comments around its `else` -/

theorem Strips.refl : ∀ trees : List Tree, Strips trees trees
  | [] => .nil
  | .node _ children :: rest => .keep (refl children) (refl rest)

theorem Strips.append {trees kept others left : List Tree} (h : Strips trees kept) (h' : Strips others left) :
    Strips (trees ++ others) (kept ++ left) := by
  induction h with
  | nil => exact h'
  | strip hcomment _ ih => exact .strip hcomment ih
  | keep hbelow _ _ ih => exact .keep hbelow ih

/-- A method of one conditional statement, with something in front of `else` and something behind it. -/
def conditionalMethod (before behind : List Tree) : Tree :=
  let token (kind : String) (start : Nat) : Tree :=
    .node ⟨kind, false, false, false, false, ⟨start, start + kind.utf8ByteSize⟩, []⟩ []
  let part (kind : String) (start stop : Nat) (children : List Tree) : Tree :=
    .node ⟨kind, true, false, false, false, ⟨start, stop⟩, []⟩ children
  let block (start stop : Nat) (children : List Tree) : Tree :=
    part "block" start stop (token "\x7b" start :: (children ++ [token "\x7d" (stop - 1)]))
  let condition := [token "if" 37, token "(" 40, part "identifier" 41 42 [], token ")" 42]
  part "method_declaration" 14 78
    [part "void_keyword" 14 18 [], part "identifier" 19 20 [],
      part "parameter_list" 20 22 [token "(" 20, token ")" 21],
      block 27 78 [part "if_statement" 37 72
        (condition ++ block 44 47 [] :: (before ++ token "else" 56 :: (behind ++ [block 69 72 []])))]]

theorem conditionalMethod_strips {before behind before' behind' : List Tree} (h : Strips before before')
    (h' : Strips behind behind') :
    (conditionalMethod before behind).StripsTo (conditionalMethod before' behind') := by
  refine ⟨_, _, ?_, rfl⟩
  refine .keep .nil (.keep .nil (.keep (.refl _) (.keep (.keep .nil ?_) .nil)))
  refine .keep (.append (.refl _) (.keep (.refl _) (h.append (.keep .nil (h'.append (.refl _)))))) (.refl _)

/-- The document of the method with a comment on either side of `else`. -/
def conditionalDocument : Document :=
  ⟨"a", "class A\n\x7b\n    void M()\n    \x7b\n        if (a) \x7b \x7d /* x */ else /* z */ \x7b \x7d\n    \x7d\n\x7d\n", 0⟩

/-- A comment of seven bytes. -/
def smallComment (start : Nat) : Tree :=
  .node ⟨"comment", true, false, false, false, ⟨start, start + 7⟩, []⟩ []

/-- A comment in front of `else` does not count. -/
theorem comment_before_else_ignored :
    (conditionalMethod [smallComment 48] []).StripsTo (conditionalMethod [] []) ∧
    ((conditionalMethod [smallComment 48] []).measure conditionalDocument).cognitive =
      ((conditionalMethod [] []).measure conditionalDocument).cognitive := by
  have hstrips : (conditionalMethod [smallComment 48] []).StripsTo (conditionalMethod [] []) :=
    conditionalMethod_strips (.strip (by decide) .nil) .nil
  obtain ⟨-, -, hcognitive⟩ := measure_of_strips hstrips conditionalDocument
  have hsame : (conditionalMethod [] []).branchComments =
      (conditionalMethod [smallComment 48] []).branchComments := by
    decide +kernel
  rw [hsame] at hcognitive
  exact ⟨hstrips, (UInt32.add_left_inj _).mp hcognitive⟩

/-- A comment behind `else` weighs as much as a branch. -/
theorem comment_behind_else_weighs :
    (conditionalMethod [smallComment 48] [smallComment 61]).StripsTo (conditionalMethod [] []) ∧
    ((conditionalMethod [smallComment 48] [smallComment 61]).measure conditionalDocument).cognitive = 3 ∧
    ((conditionalMethod [] []).measure conditionalDocument).cognitive = 2 :=
  ⟨conditionalMethod_strips (.strip (by decide) .nil) (.strip (by decide) .nil), by decide +kernel,
    by decide +kernel⟩

end CodeIntel.Tree
