import Mathlib.Data.List.Perm.Basic

/-! Sorting. It is stable: elements that precede each other stand as they were given. An order is often made
of comparisons by several keys of which the later ones decide where the earlier ones do not. -/

namespace CodeIntel

section

variable {α : Type} {precedes : α → α → Bool}
  (htrans : ∀ a b c, precedes a b = true → precedes b c = true → precedes a c = true)
  (htotal : ∀ a b, (precedes a b || precedes b a) = true)
include htrans htotal

/-- Of elements that are in order however they stand, sorting keeps the order in which they are given. -/
theorem filter_mergeSort {alike : α → Bool}
    (hsame : ∀ a b, alike a = true → alike b = true → precedes a b = true) (given : List α) :
    (given.mergeSort precedes).filter alike = given.filter alike := by
  have hsorted : (given.filter alike).Pairwise fun a b => precedes a b = true :=
    List.pairwise_of_forall_mem_list fun a ha b hb =>
      hsame a b (List.mem_filter.mp ha).2 (List.mem_filter.mp hb).2
  have hkept := (List.sublist_mergeSort htrans htotal hsorted List.filter_sublist).filter alike
  rw [List.filter_filter] at hkept
  simp only [Bool.and_self] at hkept
  have hperm := (List.mergeSort_perm given precedes).filter alike
  exact (hkept.eq_of_length hperm.length_eq.symm).symm

end

section

variable {α κ : Type} [DecidableEq κ] {precedes : α → α → Bool} (key : α → κ) {first second : List α}

theorem mem_iff_of_ties
    (hties : ∀ k, first.filter (fun a => key a = k) = second.filter (fun a => key a = k)) (a : α) :
    a ∈ first ↔ a ∈ second := by
  have hsame := congrArg (a ∈ ·) (hties (key a))
  simpa [List.mem_filter] using hsame

/-- Elements in order are known from those of each key, if only elements of one key precede each other. -/
theorem eq_of_ties (hkey : ∀ a b, precedes a b = true → precedes b a = true → key a = key b)
    (hfirst : first.Pairwise fun a b => precedes a b = true)
    (hsecond : second.Pairwise fun a b => precedes a b = true)
    (hties : ∀ k, first.filter (fun a => key a = k) = second.filter (fun a => key a = k)) :
    first = second := by
  induction first generalizing second with
  | nil =>
      refine (List.eq_nil_iff_forall_not_mem.mpr fun a hmem => ?_).symm
      cases (mem_iff_of_ties key hties a).mpr hmem
  | cons a first ih =>
      have hmem := mem_iff_of_ties key hties
      obtain ⟨b, second, rfl⟩ : ∃ b rest, second = b :: rest :=
        List.exists_cons_of_ne_nil (List.ne_nil_of_mem ((hmem a).mp List.mem_cons_self))
      rw [List.pairwise_cons] at hfirst hsecond
      -- Each head precedes the other, so they have one key and are the first elements of that key.
      have hheads : key a = key b := by
        rcases List.mem_cons.mp ((hmem a).mp List.mem_cons_self) with rfl | ha
        · rfl
        · rcases List.mem_cons.mp ((hmem b).mpr List.mem_cons_self) with rfl | hb
          · rfl
          · exact hkey a b (hfirst.1 b hb) (hsecond.1 a ha)
      have hhead := hties (key a)
      rw [List.filter_cons_of_pos (by simp), List.filter_cons_of_pos (by simp [hheads])] at hhead
      obtain ⟨rfl, -⟩ := List.cons.inj hhead
      rw [ih hfirst.2 hsecond.2 fun k => ?_]
      have hrest := hties k
      rw [List.filter_cons, List.filter_cons] at hrest
      split at hrest
      · exact (List.cons.inj hrest).2
      · exact hrest

end

section

variable {α : Type} (compares : α → α → Ordering) [Std.TransCmp compares]

theorem isLE_trans (a b c : α) (h : (compares a b).isLE = true) (h' : (compares b c).isLE = true) :
    (compares a c).isLE = true :=
  Std.TransCmp.isLE_trans h h'

theorem isLE_total (a b : α) : ((compares a b).isLE || (compares b a).isLE) = true := by
  have hswap : compares a b = (compares b a).swap := Std.OrientedCmp.eq_swap
  rw [hswap]
  cases compares b a <;> rfl

end

end CodeIntel
