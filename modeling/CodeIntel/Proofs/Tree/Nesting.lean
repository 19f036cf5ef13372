import CodeIntel.Tree.Measure
import Mathlib.Tactic.Ring

/-! How the weight of a method stands to its nesting. A structure weighs one more than the depth that it stands
at, and so pays for the depth that it leads to. Functions inside functions lead deeper without a weight of
their own, but a depth is noted only where a structure pays for it. A conditional statement behind `else` weighs
one however deep it stands; the statement that it continues has paid for its depth. So a method weighs at least
as much as it nests deep.

That is so of weights as natural numbers. The weights of 32 bits are the same as long as they fit; one that does
not begins anew at zero, and then a walk can leave less than there was. -/

namespace CodeIntel.Tree

section

variable {ω : Type} [Add ω] [Max ω]

/-! ### What a walk does to a load

All that a walk does is to add weights and to note depths, so what both of them keep is kept by the walk. -/

/-- What adding weights and noting depths do to a load, one after another. -/
inductive Load.Gathers : Load ω → Load ω → Prop where
  | refl (load : Load ω) : Gathers load load
  | add {load after : Load ω} (weight : ω) : Gathers (load.add weight) after → Gathers load after
  | reach {load after : Load ω} (depth : ω) : Gathers (load.reach depth) after → Gathers load after

theorem Load.Gathers.trans {load middle after : Load ω} (h : load.Gathers middle) (h' : middle.Gathers after) :
    load.Gathers after := by
  induction h with
  | refl => exact h'
  | add weight _ ih => exact .add weight (ih h')
  | reach depth _ ih => exact .reach depth (ih h')

variable [OfNat ω 0] [OfNat ω 1]

mutual

theorem gathers_walk (above : Option String) (depth : ω) (elseIf : Bool) :
    ∀ (t : Tree) (load : Load ω), load.Gathers (walk above depth elseIf t load)
  | .node head children, load => by
    rw [walk]
    by_cases hif : head.kind = "if_statement"
    · rw [if_pos hif]
      exact .add _ (.reach _ (gathers_walkBranches depth false children _))
    · rw [if_neg hif]
      refine .add (weight above depth head children) ?_
      dsimp only
      by_cases hnests : nestingKinds.contains head.kind = true
      · rw [if_pos hnests]
        exact .reach _ (gathers_walkNamed _ _ children _)
      · rw [if_neg hnests]
        exact gathers_walkNamed _ _ children _

theorem gathers_walkBranches (depth : ω) (afterElse : Bool) :
    ∀ (trees : List Tree) (load : Load ω), load.Gathers (walkBranches depth afterElse trees load)
  | [], load => by
    rw [walkBranches]
    exact .refl load
  | child :: rest, load => by
    rw [walkBranches]
    split
    · exact gathers_walkBranches depth _ rest load
    · split
      · split
        · exact (gathers_walk none depth true child load).trans (gathers_walkBranches depth _ rest _)
        · exact .add 1 ((gathers_walk none (depth + 1) false child _).trans (gathers_walkBranches depth _ rest _))
      · exact (gathers_walk none (depth + 1) false child load).trans (gathers_walkBranches depth _ rest _)

theorem gathers_walkNamed (above : Option String) (depth : ω) :
    ∀ (trees : List Tree) (load : Load ω), load.Gathers (walkNamed above depth trees load)
  | [], load => by
    rw [walkNamed]
    exact .refl load
  | child :: rest, load => by
    rw [walkNamed]
    refine Load.Gathers.trans ?_ (gathers_walkNamed above depth rest _)
    split
    · exact gathers_walk above depth false child load
    · exact .refl load

end

end

namespace Load

/-! ### Natural numbers -/

section

variable {load middle after : Load Nat} {weight depth : Nat}

/-- What was gathered before is still there: neither the weight nor the nesting has become less. -/
structure Within (load after : Load Nat) : Prop where
  score : load.score ≤ after.score
  nesting : load.nesting ≤ after.nesting

theorem Within.trans (h : load.Within middle) (h' : middle.Within after) : load.Within after :=
  ⟨Nat.le_trans h.score h'.score, Nat.le_trans h.nesting h'.nesting⟩

theorem within_add (load : Load Nat) (weight : Nat) : load.Within (load.add weight) :=
  ⟨Nat.le_add_right _ _, Nat.le_refl _⟩

theorem Gathers.within (h : load.Gathers after) : load.Within after := by
  induction h with
  | refl => exact ⟨Nat.le_refl _, Nat.le_refl _⟩
  | @add load _ weight _ ih => exact (within_add load weight).trans ih
  | reach depth _ ih => exact ⟨ih.score, Nat.le_trans (Nat.le_max_left _ _) ih.nesting⟩

theorem le_nesting_reach (load : Load Nat) (depth : Nat) : depth ≤ (load.reach depth).nesting :=
  Nat.le_max_right _ _

/-- The weight pays for the nesting. -/
def Paid (load : Load Nat) : Prop := load.nesting ≤ load.score

theorem Paid.add (h : load.Paid) (weight : Nat) : (load.add weight).Paid :=
  Nat.le_trans h (within_add load weight).score

/-- A depth that has been reached before costs nothing. -/
theorem Paid.reach (h : load.Paid) (hdepth : depth ≤ load.nesting) : (load.reach depth).Paid := by
  show max load.nesting depth ≤ load.score
  rw [Nat.max_eq_left hdepth]
  exact h

/-- A weight pays for a depth that does not exceed it. -/
theorem Paid.spend (h : load.Paid) (hdepth : depth ≤ weight) : ((load.add weight).reach depth).Paid := by
  show max load.nesting depth ≤ load.score + weight
  apply Nat.max_le.mpr
  constructor
  · exact Nat.le_trans h (Nat.le_add_right _ _)
  · exact Nat.le_trans hdepth (Nat.le_add_left _ _)

end

end Load

open Load

mutual

/-- A walk keeps the nesting paid for. Where it continues a conditional statement, it needs the depth below that
statement to have been reached before. -/
theorem paid_walk (above : Option String) (depth : Nat) (elseIf : Bool) :
    ∀ (t : Tree) (load : Load Nat), load.Paid → (elseIf = true → depth + 1 ≤ load.nesting) →
      (walk above depth elseIf t load).Paid
  | .node head children, load, hpaid, hreached => by
    rw [walk]
    by_cases hif : head.kind = "if_statement"
    · rw [if_pos hif]
      apply paid_walkBranches depth false children _ _ (le_nesting_reach _ _)
      cases elseIf with
      | true => exact (hpaid.add 1).reach (hreached rfl)
      | false => exact hpaid.spend (Nat.le_of_eq (Nat.add_comm depth 1))
    · rw [if_neg hif]
      apply paid_walkNamed
      by_cases hnests : nestingKinds.contains head.kind = true
      · rw [if_pos hnests, weight, if_pos hnests]
        exact hpaid.spend (Nat.le_of_eq (Nat.add_comm depth 1))
      · rw [if_neg hnests]
        exact hpaid.add _

/-- The parts of a conditional statement keep the nesting paid for, once the statement has reached the depth
below it. -/
theorem paid_walkBranches (depth : Nat) (afterElse : Bool) :
    ∀ (trees : List Tree) (load : Load Nat), load.Paid → depth + 1 ≤ load.nesting →
      (walkBranches depth afterElse trees load).Paid
  | [], load, hpaid, _ => by
    rw [walkBranches]
    exact hpaid
  | child :: rest, load, hpaid, hreached => by
    have hkept : ∀ {middle : Load Nat}, load.Within middle → middle.Paid →
        (walkBranches depth afterElse rest middle).Paid := fun hwithin hpaid =>
      paid_walkBranches depth afterElse rest _ hpaid (Nat.le_trans hreached hwithin.nesting)
    rw [walkBranches]
    split
    · exact paid_walkBranches depth _ rest load hpaid hreached
    · split
      · split
        · exact hkept (gathers_walk none depth true child load).within
            (paid_walk none depth true child load hpaid fun _ => hreached)
        · exact hkept ((within_add load 1).trans (gathers_walk none (depth + 1) false child _).within)
            (paid_walk none (depth + 1) false child _ (hpaid.add 1) fun h => nomatch h)
      · exact hkept (gathers_walk none (depth + 1) false child load).within
          (paid_walk none (depth + 1) false child load hpaid fun h => nomatch h)

theorem paid_walkNamed (above : Option String) (depth : Nat) :
    ∀ (trees : List Tree) (load : Load Nat), load.Paid → (walkNamed above depth trees load).Paid
  | [], load, hpaid => by
    rw [walkNamed]
    exact hpaid
  | child :: rest, load, hpaid => by
    rw [walkNamed]
    apply paid_walkNamed
    split
    · exact paid_walk above depth false child load hpaid fun h => nomatch h
    · exact hpaid

end

/-! ### Numbers of 32 bits -/

namespace Load

variable {short : Load UInt32} {full : Load Nat}

/-- A load of 32 bits shows the weight of a load as far as it fits, and the nesting if that fits. -/
structure Shows (short : Load UInt32) (full : Load Nat) : Prop where
  score : short.score = .ofNat full.score
  nesting : full.nesting < UInt32.size → short.nesting = .ofNat full.nesting

theorem Shows.add (h : short.Shows full) (weight : Nat) : (short.add (.ofNat weight)).Shows (full.add weight) :=
  ⟨by rw [Load.add, Load.add, h.score, UInt32.ofNat_add], h.nesting⟩

theorem max_ofNat {n m : Nat} (hn : n < UInt32.size) (hm : m < UInt32.size) :
    max (UInt32.ofNat n) (.ofNat m) = .ofNat (max n m) := by
  by_cases hle : n ≤ m
  · rw [Nat.max_eq_right hle]
    exact if_pos ((UInt32.ofNat_le_iff_le hn hm).mpr hle)
  · rw [Nat.max_eq_left (Nat.le_of_not_le hle)]
    exact if_neg (mt (UInt32.ofNat_le_iff_le hn hm).mp hle)

theorem Shows.reach (h : short.Shows full) (depth : Nat) :
    (short.reach (.ofNat depth)).Shows (full.reach depth) := by
  refine ⟨h.score, fun hfits => ?_⟩
  obtain ⟨hnesting, hdepth⟩ := Nat.max_lt.mp (show max full.nesting depth < UInt32.size from hfits)
  show max short.nesting (.ofNat depth) = .ofNat (max full.nesting depth)
  rw [h.nesting hnesting, max_ofNat hnesting hdepth]

end Load

theorem weight_ofNat (above : Option String) (depth : Nat) (head : Node) (children : List Tree) :
    weight above (.ofNat depth : UInt32) head children = .ofNat (weight above depth head children) := by
  unfold weight
  split
  · rw [UInt32.ofNat_add]
    rfl
  · split
    · split
      · split <;> rfl
      · rfl
    · split <;> rfl

theorem succ_ofNat (depth : Nat) : UInt32.ofNat depth + 1 = .ofNat (depth + 1) := (UInt32.ofNat_add depth 1).symm

mutual

/-- A walk that is counted in 32 bits shows the walk that is counted in natural numbers. -/
theorem shows_walk (above : Option String) (depth : Nat) (elseIf : Bool) :
    ∀ (t : Tree) (short : Load UInt32) (full : Load Nat), short.Shows full →
      (walk above (.ofNat depth) elseIf t short).Shows (walk above depth elseIf t full)
  | .node head children, short, full, hshows => by
    rw [walk, walk]
    by_cases hif : head.kind = "if_statement"
    · rw [if_pos hif, if_pos hif, succ_ofNat]
      apply shows_walkBranches depth false children
      cases elseIf with
      | true => exact (hshows.add 1).reach _
      | false =>
          have hadd := hshows.add (1 + depth)
          rw [UInt32.ofNat_add] at hadd
          exact hadd.reach _
    · rw [if_neg hif, if_neg hif]
      dsimp only
      rw [weight_ofNat, succ_ofNat]
      have hadd := hshows.add (weight above depth head children)
      have hload : (if nestingKinds.contains head.kind = true then
            (short.add (.ofNat (weight above depth head children))).reach (.ofNat (depth + 1))
          else short.add (.ofNat (weight above depth head children))).Shows
          (if nestingKinds.contains head.kind = true then
            (full.add (weight above depth head children)).reach (depth + 1)
          else full.add (weight above depth head children)) := by
        split
        · exact hadd.reach _
        · exact hadd
      have hnamed := shows_walkNamed (if head.kind = "binary_expression" then logicalOperator? children else none)
        (if nests head.kind then depth + 1 else depth) children _ _ hload
      rw [apply_ite UInt32.ofNat] at hnamed
      exact hnamed

theorem shows_walkBranches (depth : Nat) (afterElse : Bool) :
    ∀ (trees : List Tree) (short : Load UInt32) (full : Load Nat), short.Shows full →
      (walkBranches (.ofNat depth) afterElse trees short).Shows (walkBranches depth afterElse trees full)
  | [], short, full, hshows => by
    rw [walkBranches, walkBranches]
    exact hshows
  | child :: rest, short, full, hshows => by
    rw [walkBranches, walkBranches, succ_ofNat]
    split
    · exact shows_walkBranches depth _ rest _ _ hshows
    · split
      · split
        · exact shows_walkBranches depth _ rest _ _ (shows_walk none depth true child _ _ hshows)
        · exact shows_walkBranches depth _ rest _ _ (shows_walk none (depth + 1) false child _ _ (hshows.add 1))
      · exact shows_walkBranches depth _ rest _ _ (shows_walk none (depth + 1) false child _ _ hshows)

theorem shows_walkNamed (above : Option String) (depth : Nat) :
    ∀ (trees : List Tree) (short : Load UInt32) (full : Load Nat), short.Shows full →
      (walkNamed above (.ofNat depth) trees short).Shows (walkNamed above depth trees full)
  | [], short, full, hshows => by
    rw [walkNamed, walkNamed]
    exact hshows
  | child :: rest, short, full, hshows => by
    rw [walkNamed, walkNamed]
    apply shows_walkNamed
    split
    · exact shows_walk above depth false child _ _ hshows
    · exact hshows

end

/-- The load as natural numbers. -/
def Load.full (load : Load UInt32) : Load Nat := ⟨load.score.toNat, load.nesting.toNat⟩

/-- What a walk through a method gathers, counted in natural numbers. -/
def fullLoad (method : Tree) : Load Nat := walk none 0 false method ⟨0, 0⟩

theorem Load.shows_full (load : Load UInt32) : load.Shows load.full :=
  ⟨UInt32.ofNat_toNat.symm, fun _ => UInt32.ofNat_toNat.symm⟩

/-- The nesting never becomes less, whatever becomes of the weight. -/
theorem Load.Gathers.nesting_le {load after : Load UInt32} (h : load.Gathers after) :
    load.nesting ≤ after.nesting := by
  induction h with
  | refl => exact UInt32.le_refl _
  | add _ _ ih => exact ih
  | @reach load _ depth _ ih =>
      have hmax : load.nesting ≤ max load.nesting depth := by
        show load.nesting ≤ if load.nesting ≤ depth then depth else load.nesting
        split
        · assumption
        · exact UInt32.le_refl _
      exact UInt32.le_trans hmax ih

/-- What is measured of a method is the full weight in 32 bits, and the nesting. -/
theorem measure_shows (method : Tree) (d : Document) :
    Load.Shows ⟨(method.measure d).cognitive, (method.measure d).nesting⟩ method.fullLoad :=
  shows_walk none 0 false method ⟨0, 0⟩ ⟨0, 0⟩ ⟨rfl, fun _ => rfl⟩

/-- The full weight of a method is at least its nesting, and is what is measured of it up to 2^32, so that a method
whose weight fits in 32 bits measures at least as much as it nests deep. A walk of any node, at any depth and begun
with anything, does not make the nesting less, nor the weight as long as the sum of the weights fits. -/
theorem nesting_le_cognitive_of_fits :
    (∀ (method : Tree) (d : Document), method.fullLoad.nesting ≤ method.fullLoad.score ∧
      (method.measure d).cognitive.toNat = method.fullLoad.score % 2 ^ 32 ∧
      (method.fullLoad.score < 2 ^ 32 → (method.measure d).nesting ≤ (method.measure d).cognitive)) ∧
    ∀ (above : Option String) (depth : UInt32) (elseIf : Bool) (t : Tree) (load : Load UInt32),
      load.nesting ≤ (walk above depth elseIf t load).nesting ∧
      ((walk above depth.toNat elseIf t load.full).score < 2 ^ 32 →
        load.score ≤ (walk above depth elseIf t load).score) := by
  constructor
  · intro method d
    have hshows := measure_shows method d
    have hpaid : method.fullLoad.Paid :=
      paid_walk none 0 false method ⟨0, 0⟩ (Nat.le_refl 0) fun h => nomatch h
    refine ⟨hpaid, ?_, fun hfits => ?_⟩
    · rw [show (method.measure d).cognitive = _ from hshows.score]
      exact UInt32.toNat_ofNat
    · have hnesting : method.fullLoad.nesting < UInt32.size := Nat.lt_of_le_of_lt hpaid hfits
      rw [show (method.measure d).cognitive = _ from hshows.score,
        show (method.measure d).nesting = _ from hshows.nesting hnesting]
      exact (UInt32.ofNat_le_iff_le hnesting hfits).mpr hpaid
  · intro above depth elseIf t load
    refine ⟨(gathers_walk above depth elseIf t load).nesting_le, fun hfits => ?_⟩
    have hshows := shows_walk above depth.toNat elseIf t load load.full load.shows_full
    rw [UInt32.ofNat_toNat] at hshows
    have hscore := (gathers_walk above depth.toNat elseIf t load.full).within.score
    rw [hshows.score, UInt32.le_iff_toNat_le, UInt32.toNat_ofNat_of_lt' hfits]
    exact hscore

/-! ### Loops in loops -/

/-- A number of loops, each in the body of the one before. -/
def loops : Nat → Tree
  | 0 => .node ⟨"block", true, false, false, false, ⟨0, 0⟩, []⟩ []
  | n + 1 => .node ⟨"while_statement", true, false, false, false, ⟨0, 0⟩, []⟩ [loops n]

theorem walk_loops_succ (n depth : Nat) (load : Load Nat) :
    walk none depth false (loops (n + 1)) load =
      walk none (depth + 1) false (loops n) ((load.add (1 + depth)).reach (depth + 1)) := by
  have hnamed : (loops n).head.named = true := by cases n <;> rfl
  simp [loops, walk, walkNamed, weight, nests, nestingKinds, hnamed]

/-- Each loop weighs one more than the one around it. -/
theorem walk_loops (n depth : Nat) (load : Load Nat) (hreached : depth ≤ load.nesting) :
    2 * (walk none depth false (loops n) load).score = 2 * load.score + 2 * (n * depth) + n * (n + 1) ∧
      (walk none depth false (loops n) load).nesting = max load.nesting (depth + n) := by
  induction n generalizing depth load with
  | zero =>
      have hidle : walk none depth false (loops 0) load = load := by
        simp [loops, walk, walkNamed, weight, nestingKinds, Load.add]
      rw [hidle]
      exact ⟨by ring, (Nat.max_eq_left hreached).symm⟩
  | succ n ih =>
      obtain ⟨hscore, hnesting⟩ := ih (depth + 1) ((load.add (1 + depth)).reach (depth + 1)) (le_nesting_reach _ _)
      rw [walk_loops_succ]
      constructor
      · rw [hscore]
        show 2 * (load.score + (1 + depth)) + 2 * (n * (depth + 1)) + n * (n + 1) = _
        ring
      · rw [hnesting]
        show max (max load.nesting (depth + 1)) (depth + 1 + n) = _
        omega

/-- A method of a number of loops. -/
def loopMethod (n : Nat) : Tree := .node ⟨"method_declaration", true, false, false, false, ⟨0, 0⟩, []⟩ [loops n]

theorem fullLoad_loopMethod (n : Nat) :
    2 * (loopMethod n).fullLoad.score = n * (n + 1) ∧ (loopMethod n).fullLoad.nesting = n := by
  have hnamed : (loops n).head.named = true := by cases n <;> rfl
  have hwalk : (loopMethod n).fullLoad = walk none 0 false (loops n) ⟨0, 0⟩ := by
    simp [fullLoad, loopMethod, walk, walkNamed, weight, nests, nestingKinds, innerFunctionKinds, Load.add, hnamed]
  obtain ⟨hscore, hnesting⟩ := walk_loops n 0 ⟨0, 0⟩ (Nat.le_refl 0)
  rw [hwalk]
  exact ⟨by simpa using hscore, by simpa using hnesting⟩

theorem measure_loopMethod {n : Nat} (hfits : n < UInt32.size) (d : Document) :
    ((loopMethod n).measure d).cognitive = .ofNat (n * (n + 1) / 2) ∧
      ((loopMethod n).measure d).nesting = .ofNat n := by
  have hshows := measure_shows (loopMethod n) d
  obtain ⟨hscore, hnesting⟩ := fullLoad_loopMethod n
  constructor
  · rw [← hscore, Nat.mul_div_cancel_left _ Nat.two_pos]
    exact hshows.score
  · have hshown : ((loopMethod n).measure d).nesting = .ofNat (loopMethod n).fullLoad.nesting :=
      hshows.nesting (hnesting.symm ▸ hfits)
    rw [hshown, hnesting]

/-- Two loops weigh three and nest two deep, and a jump behind them adds one. -/
theorem two_loops_paid :
    (loopMethod 2).fullLoad.score < 2 ^ 32 ∧
    ((loopMethod 2).measure ⟨"a", "", 0⟩).nesting ≤ ((loopMethod 2).measure ⟨"a", "", 0⟩).cognitive ∧
    (walk none (0 : UInt32).toNat false (.node ⟨"goto_statement", true, false, false, false, ⟨0, 0⟩, []⟩ [])
      (Load.full ⟨3, 2⟩)).score < 2 ^ 32 ∧
    (3 : UInt32) ≤ (walk none (0 : UInt32) false
      (.node ⟨"goto_statement", true, false, false, false, ⟨0, 0⟩, []⟩ []) ⟨3, 2⟩).score := by
  obtain ⟨hmethod, hwalk⟩ := nesting_le_cognitive_of_fits
  have hscore : (loopMethod 2).fullLoad.score < 2 ^ 32 := by
    have hfull := (fullLoad_loopMethod 2).1
    omega
  have hsum : (walk none (0 : UInt32).toNat false
      (.node ⟨"goto_statement", true, false, false, false, ⟨0, 0⟩, []⟩ []) (Load.full ⟨3, 2⟩)).score < 2 ^ 32 := by
    decide +kernel
  exact ⟨hscore, (hmethod _ _).2.2 hscore, hsum, (hwalk none 0 false _ ⟨3, 2⟩).2 hsum⟩

/-- A weight that does not fit begins anew: a method of 92682 loops, each in the one before, measures less than it
nests deep, and a jump takes the greatest weight to zero. -/
theorem loops_outweigh_bound :
    ((loopMethod 92682).measure ⟨"a", "", 0⟩).cognitive < ((loopMethod 92682).measure ⟨"a", "", 0⟩).nesting ∧
    (walk none (0 : UInt32) false (.node ⟨"goto_statement", true, false, false, false, ⟨0, 0⟩, []⟩ [])
      ⟨4294967295, 0⟩).score < 4294967295 := by
  obtain ⟨hcognitive, hnesting⟩ := measure_loopMethod (show 92682 < UInt32.size by decide) ⟨"a", "", 0⟩
  rw [hcognitive, hnesting]
  constructor
  · decide
  · decide +kernel

end CodeIntel.Tree
