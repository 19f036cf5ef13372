import CodeIntel.Analysis.Outcome
import Mathlib.Data.List.Forall2

/-! Inversion of chained work: what is known of the parts when the whole has ended with a value. Every
later proof about a function written as a chain takes the chain apart with these lemmas. -/

namespace CodeIntel

theorem bind_eq_ok {ε α β : Type} {first : Except ε α} {next : α → Except ε β} {result : β} :
    (first >>= next) = .ok result ↔ ∃ value, first = .ok value ∧ next value = .ok result := by
  cases first with
  | ok value => simp [bind, Except.bind]
  | error error => simp [bind, Except.bind]

theorem bind_eq_error {ε α β : Type} {first : Except ε α} {next : α → Except ε β} {fault : ε} :
    (first >>= next) = .error fault ↔
      first = .error fault ∨ ∃ value, first = .ok value ∧ next value = .error fault := by
  cases first with
  | ok value => simp [bind, Except.bind]
  | error error => simp [bind, Except.bind]

theorem map_eq_ok {ε α β : Type} {f : α → β} {work : Except ε α} {result : β} :
    work.map f = .ok result ↔ ∃ value, work = .ok value ∧ f value = result := by
  cases work <;> simp [Except.map]

theorem mapError_eq_ok {ε ε' α : Type} {f : ε → ε'} {work : Except ε α} {value : α} :
    work.mapError f = .ok value ↔ work = .ok value := by
  cases work <;> simp [Except.mapError]

theorem mapError_eq_error {ε ε' α : Type} {f : ε → ε'} {work : Except ε α} {fault : ε'} :
    work.mapError f = .error fault ↔ ∃ error, work = .error error ∧ f error = fault := by
  cases work <;> simp [Except.mapError]

theorem toOption_eq_some {ε α : Type} {work : Except ε α} {value : α} :
    work.toOption = some value ↔ work = .ok value := by
  cases work <;> simp [Except.toOption]

/-- A list is worked through successfully exactly when each of its elements is. -/
theorem mapM_eq_ok {ε α β : Type} {f : α → Except ε β} {items : List α} {results : List β} :
    items.mapM f = .ok results ↔
      List.Forall₂ (fun item result => f item = .ok result) items results := by
  induction items generalizing results with
  | nil =>
      rw [List.mapM_nil, List.forall₂_nil_left_iff]
      exact ⟨fun h => (Except.ok.inj h).symm, fun h => by rw [h]; rfl⟩
  | cons item items ih =>
      rw [List.mapM_cons, List.forall₂_cons_left_iff]
      constructor
      · intro h
        obtain ⟨result, hresult, h⟩ := bind_eq_ok.mp h
        obtain ⟨rest, hrest, h⟩ := bind_eq_ok.mp h
        exact ⟨result, rest, hresult, ih.mp hrest, (Except.ok.inj h).symm⟩
      · rintro ⟨result, rest, hresult, hrest, rfl⟩
        exact bind_eq_ok.mpr ⟨result, hresult, bind_eq_ok.mpr ⟨rest, ih.mpr hrest, rfl⟩⟩

theorem mapM_of_forall {ε α β : Type} {f : α → Except ε β} {items : List α} (g : α → β)
    (h : ∀ item ∈ items, f item = .ok (g item)) : items.mapM f = .ok (items.map g) := by
  rw [mapM_eq_ok, List.forall₂_map_right_iff, List.forall₂_same]
  exact h

/-- A list is worked through successfully if each of its elements is, and what holds of each result holds
of all. -/
theorem exists_mapM {ε α β : Type} {f : α → Except ε β} {items : List α} {holds : β → Prop}
    (h : ∀ item ∈ items, ∃ result, f item = .ok result ∧ holds result) :
    ∃ results, items.mapM f = .ok results ∧ ∀ result ∈ results, holds result := by
  induction items with
  | nil => exact ⟨[], rfl, fun _ hmem => absurd hmem List.not_mem_nil⟩
  | cons item items ih =>
      obtain ⟨result, hresult, hholds⟩ := h item List.mem_cons_self
      obtain ⟨results, hresults, hall⟩ := ih fun other hmem => h other (List.mem_cons_of_mem _ hmem)
      refine ⟨result :: results, ?_, List.forall_mem_cons.mpr ⟨hholds, hall⟩⟩
      rw [mapM_eq_ok] at hresults ⊢
      exact .cons hresult hresults

section

variable {α β γ : Type} {related : α → β → Prop} {items : List α} {results : List β}

theorem exists_of_forall₂ (h : List.Forall₂ related items results) {item : α} (hmem : item ∈ items) :
    ∃ result ∈ results, related item result := by
  induction h with
  | nil => cases hmem
  | cons hfirst _ ih =>
      rcases List.mem_cons.mp hmem with rfl | hmem
      · exact ⟨_, List.mem_cons_self, hfirst⟩
      · obtain ⟨result, hresult, hrest⟩ := ih hmem
        exact ⟨result, List.mem_cons_of_mem _ hresult, hrest⟩

theorem forall₂_trans {next : β → γ → Prop} {both : α → γ → Prop} {others : List γ}
    (hboth : ∀ item result other, related item result → next result other → both item other)
    (h : List.Forall₂ related items results) (hnext : List.Forall₂ next results others) :
    List.Forall₂ both items others := by
  induction h generalizing others with
  | nil =>
      cases hnext
      exact .nil
  | cons hfirst _ ih =>
      cases hnext with
      | cons hfirst' hrest' => exact .cons (hboth _ _ _ hfirst hfirst') (ih hrest')

end

theorem exists_of_mem_mapM {ε α β : Type} {f : α → Except ε β} {items : List α} {results : List β}
    (h : items.mapM f = .ok results) {result : β} (hmem : result ∈ results) :
    ∃ item ∈ items, f item = .ok result :=
  exists_of_forall₂ (mapM_eq_ok.mp h).flip hmem

theorem exists_of_mem_of_mapM {ε α β : Type} {f : α → Except ε β} {items : List α} {results : List β}
    (h : items.mapM f = .ok results) {item : α} (hmem : item ∈ items) :
    ∃ result, f item = .ok result ∧ result ∈ results := by
  obtain ⟨result, hresult, hitem⟩ := exists_of_forall₂ (mapM_eq_ok.mp h) hmem
  exact ⟨result, hitem, hresult⟩

/-- When a list is not worked through, one of its elements is at fault. -/
theorem exists_of_mapM_eq_error {ε α β : Type} {f : α → Except ε β} {items : List α} {fault : ε}
    (h : items.mapM f = .error fault) : ∃ item ∈ items, f item = .error fault := by
  induction items with
  | nil => cases h
  | cons item items ih =>
      rw [List.mapM_cons, bind_eq_error] at h
      rcases h with hfirst | ⟨_, -, h⟩
      · exact ⟨item, List.mem_cons_self, hfirst⟩
      · rcases bind_eq_error.mp h with hrest | ⟨_, -, h⟩
        · obtain ⟨other, hmem, hother⟩ := ih hrest
          exact ⟨other, List.mem_cons_of_mem _ hmem, hother⟩
        · cases h

/-- When a loop fails, one of its rounds is at fault. -/
theorem exists_of_foldlM_eq_error {ε α β : Type} {f : β → α → Except ε β} {items : List α}
    {state : β} {fault : ε} (h : items.foldlM f state = .error fault) :
    ∃ state, ∃ item ∈ items, f state item = .error fault := by
  induction items generalizing state with
  | nil => cases h
  | cons item items ih =>
      rw [List.foldlM_cons, bind_eq_error] at h
      rcases h with hfirst | ⟨middle, -, h⟩
      · exact ⟨state, item, List.mem_cons_self, hfirst⟩
      · obtain ⟨other, item', hmem, hfault⟩ := ih h
        exact ⟨other, item', List.mem_cons_of_mem _ hmem, hfault⟩

/-- In a loop that ends well every round has. -/
theorem exists_of_foldlM_eq_ok {ε α β : Type} {f : β → α → Except ε β} {items : List α}
    {state final : β} (h : items.foldlM f state = .ok final) :
    ∀ item ∈ items, ∃ state next, f state item = .ok next := by
  induction items generalizing state with
  | nil => exact fun _ hmem => absurd hmem List.not_mem_nil
  | cons item items ih =>
      rw [List.foldlM_cons] at h
      obtain ⟨middle, hmiddle, h⟩ := bind_eq_ok.mp h
      exact List.forall_mem_cons.mpr ⟨⟨state, middle, hmiddle⟩, ih h⟩

/-- What holds at the start of a loop and is kept by each of its rounds holds at its end. -/
theorem foldlM_invariant {ε α β : Type} {f : β → α → Except ε β} {items : List α}
    (holds : β → Prop)
    (hstep : ∀ state item next, item ∈ items → holds state → f state item = .ok next → holds next)
    {state final : β} (hstart : holds state) (h : items.foldlM f state = .ok final) :
    holds final := by
  induction items generalizing state with
  | nil => exact Except.ok.inj h ▸ hstart
  | cons item items ih =>
      rw [List.foldlM_cons] at h
      obtain ⟨middle, hmiddle, h⟩ := bind_eq_ok.mp h
      have hkept := hstep state item middle List.mem_cons_self hstart hmiddle
      exact ih (fun state other next hmem => hstep state other next (List.mem_cons_of_mem _ hmem))
        hkept h

namespace Outcome

theorem bind_eq_done {ε α β : Type} {work : Outcome ε α} {next : α → Outcome ε β} {result : β} :
    (work >>= next) = .done result ↔ ∃ value, work = .done value ∧ next value = .done result := by
  cases work <;> simp [bind, andThen]

theorem ofExcept_eq_done {ε α : Type} {work : Except ε α} {value : α} :
    ofExcept work = .done value ↔ work = .ok value := by
  cases work <;> simp [ofExcept]

theorem mapError_eq_done {ε ε' α : Type} {f : ε → ε'} {work : Outcome ε α} {value : α} :
    work.mapError f = .done value ↔ work = .done value := by
  cases work <;> simp [mapError]

end Outcome

end CodeIntel
