import CodeIntel.Proofs.Server.Answering
import CodeIntel.Proofs.Workspace.KeyOrder

/-! Who is reached by a cancellation. What happens to the requests that can be cancelled is a history of
registrations, finishes and cancellations, in any order and any number. At each moment the registry holds
exactly the requests that have been registered and not finished since, so that a cancellation reaches
exactly those of its key, however many share it; and a key stands in the registry only while it has one. -/

namespace CodeIntel

/-! ### The keys of the registry -/

/-- The keys stand in order, and under each of them a request is on its way. -/
structure Registry.Tidy (registry : Registry) : Prop where
  ascending : registry.running.Ascending
  filled : ∀ key entries, (key, entries) ∈ registry.running → entries ≠ []

namespace Registry.Tidy

variable {registry : Registry}

theorem register (h : registry.Tidy) (key : String) (token : RequestToken) :
    (registry.register key token).2.Tidy where
  ascending := h.ascending.insert key _
  filled := by
    intro other entries hmem
    rcases Keyed.mem_of_mem_insert hmem with ⟨-, rfl⟩ | hmem
    · simp
    · exact h.filled other entries hmem

theorem finish (h : registry.Tidy) (key : String) (ticket : Nat) : (registry.finish key ticket).Tidy := by
  rw [Registry.finish]
  split
  · refine ⟨h.ascending.erase key, fun other entries hmem => ?_⟩
    exact h.filled other entries (Keyed.mem_erase.mp hmem).2
  · rename_i hleft
    refine ⟨h.ascending.insert key _, fun other entries hmem => ?_⟩
    rcases Keyed.mem_of_mem_insert hmem with ⟨-, rfl⟩ | hmem
    · exact hleft
    · exact h.filled other entries hmem

/-- Where nothing is on its way there is no key. -/
theorem running_eq_nil (h : registry.Tidy) (hnone : ∀ key, registry.under key = []) :
    registry.running = [] := by
  refine List.eq_nil_iff_forall_not_mem.mpr fun ⟨key, entries⟩ hmem => ?_
  have hunder : registry.under key = entries := by
    rw [Registry.under, h.ascending.get?_of_mem hmem, Option.getD_some]
  exact h.filled key entries hmem (hunder.symm.trans (hnone key))

end Registry.Tidy

/-! ### Histories -/

/-- What happens to the requests that can be cancelled. -/
inductive RegistryEvent where
  | register (key : String) (token : RequestToken)
  | finish (key : String) (ticket : Nat)
  | cancel (key : String)
deriving DecidableEq

/-- A server after an event. -/
def Server.after (server : Server) : RegistryEvent → Server
  | .register key token => { server with registry := (server.registry.register key token).2 }
  | .finish key ticket => server.forget (some (key, ticket))
  | .cancel key => server.cancel (some key)

namespace RegistryEvent

/-- What an event gives back: the ticket of a registration, and how many requests a cancellation reaches. -/
def reply (server : Server) : RegistryEvent → Nat
  | register key token => (server.registry.register key token).1
  | finish _ _ => 0
  | cancel key => (server.registry.reached key).length

/-- The token that an event brings. -/
def token? : RegistryEvent → Option RequestToken
  | register _ token => some token
  | finish _ _ | cancel _ => none

/-- Every registration brings a token of its own. -/
def Fresh (events : List RegistryEvent) : Prop := (events.filterMap token?).Nodup

instance : DecidablePred Fresh := fun events => inferInstanceAs (Decidable (events.filterMap token?).Nodup)

variable (store : Store) (events : List RegistryEvent)

/-- The server when so many events have happened, if nothing was on its way before. -/
def serverAt (time : Nat) : Server := (events.take time).foldl Server.after { store }

/-- A request is registered by the event of a time and draws a ticket. -/
def Registers (time : Nat) (key : String) (token : RequestToken) (ticket : Nat) : Prop :=
  events[time]? = some (.register key token) ∧
    (register key token).reply (serverAt store events time) = ticket

/-- Before a time a request has been registered, and it has not been finished since. -/
def OnItsWay (time : Nat) (key : String) (token : RequestToken) (ticket : Nat) : Prop :=
  ∃ i < time, Registers store events i key token ticket ∧
    ∀ m, i < m → m < time → events[m]? ≠ some (.finish key ticket)

variable {store events} {time ticket : Nat} {key : String} {token : RequestToken} {event : RegistryEvent}

theorem Fresh.eq_of_register (h : Fresh events) {i j : Nat} {other : String}
    (hi : events[i]? = some (.register key token)) (hj : events[j]? = some (.register other token)) :
    i = j := by
  have hpairwise := List.pairwise_iff_getElem.mp (List.pairwise_filterMap.mp h)
  obtain ⟨hi', hi⟩ := List.getElem?_eq_some_iff.mp hi
  obtain ⟨hj', hj⟩ := List.getElem?_eq_some_iff.mp hj
  rcases lt_trichotomy i j with hlt | heq | hgt
  · exact absurd rfl (hpairwise i j hi' hj' hlt token (by rw [hi, token?]) token (by rw [hj, token?]))
  · exact heq
  · exact absurd rfl (hpairwise j i hj' hi' hgt token (by rw [hj, token?]) token (by rw [hi, token?]))

theorem serverAt_succ (store : Store) (h : events[time]? = some event) :
    serverAt store events (time + 1) = (serverAt store events time).after event := by
  rw [serverAt, List.take_add_one, h, List.foldl_append]
  rfl

/-- An event starts a request or ends one, and leaves the others on their way. -/
theorem onItsWay_succ (h : events[time]? = some event) :
    OnItsWay store events (time + 1) key token ticket ↔
      (OnItsWay store events time key token ticket ∧ event ≠ .finish key ticket) ∨
        Registers store events time key token ticket := by
  constructor
  · rintro ⟨i, hi, hregisters, hunfinished⟩
    rcases Nat.lt_succ_iff_lt_or_eq.mp hi with hi | rfl
    · refine .inl ⟨⟨i, hi, hregisters, fun m hm hmt => hunfinished m hm (Nat.lt_succ_of_lt hmt)⟩, ?_⟩
      rintro rfl
      exact hunfinished time hi (Nat.lt_succ_self _) h
    · exact .inr hregisters
  · rintro (⟨⟨i, hi, hregisters, hunfinished⟩, hevent⟩ | hregisters)
    · refine ⟨i, Nat.lt_succ_of_lt hi, hregisters, fun m hm hmt => ?_⟩
      rcases Nat.lt_succ_iff_lt_or_eq.mp hmt with hmt | rfl
      · exact hunfinished m hm hmt
      · rw [h]
        exact fun heq => hevent (Option.some.inj heq)
    · exact ⟨time, Nat.lt_succ_self _, hregisters, fun m hm hmt => absurd hm (by omega)⟩

/-- What the registry and the cancelled tokens are at a time, by what has happened until then. -/
structure Tracked (store : Store) (events : List RegistryEvent) (time : Nat) : Prop where
  under : ∀ key entry, entry ∈ (serverAt store events time).registry.under key ↔
    OnItsWay store events time key entry.token entry.ticket
  nodup : ∀ key, ((serverAt store events time).registry.reached key).Nodup
  later : ∀ i < time, ∀ key token ticket, Registers store events i key token ticket →
    ticket < (serverAt store events time).registry.nextTicket
  cancelled : ∀ token, token ∈ (serverAt store events time).cancelled ↔
    ∃ j < time, ∃ key ticket, events[j]? = some (.cancel key) ∧ OnItsWay store events j key token ticket
  tidy : (serverAt store events time).registry.Tidy

theorem tracked_zero : Tracked store events 0 where
  under key entry := by simp [serverAt, Registry.under, Keyed.get?, OnItsWay]
  nodup key := by simp [serverAt, Registry.reached, Registry.under, Keyed.get?]
  later := by simp
  cancelled token := by simp [serverAt]
  tidy := ⟨Keyed.ascending_nil, fun _ _ hmem => absurd hmem List.not_mem_nil⟩

namespace Tracked

theorem mem_reached (h : Tracked store events time) :
    token ∈ (serverAt store events time).registry.reached key ↔
      ∃ ticket, OnItsWay store events time key token ticket := by
  rw [Registry.reached, List.mem_map]
  constructor
  · rintro ⟨entry, hentry, rfl⟩
    exact ⟨entry.ticket, (h.under key entry).mp hentry⟩
  · rintro ⟨ticket, honItsWay⟩
    exact ⟨⟨ticket, token⟩, (h.under key ⟨ticket, token⟩).mpr honItsWay, rfl⟩

theorem cancelled_succ (h : Tracked store events time) (hevent : events[time]? = some event)
    (hcancelled : ∀ token, token ∈ (serverAt store events (time + 1)).cancelled ↔
      token ∈ (serverAt store events time).cancelled ∨
        ∃ key ticket, event = .cancel key ∧ OnItsWay store events time key token ticket)
    (token : RequestToken) :
    token ∈ (serverAt store events (time + 1)).cancelled ↔ ∃ j < time + 1, ∃ key ticket,
      events[j]? = some (.cancel key) ∧ OnItsWay store events j key token ticket := by
  rw [hcancelled, h.cancelled, Nat.exists_lt_succ_right, hevent]
  simp only [Option.some.injEq]

theorem register (h : Tracked store events time) (hfresh : Fresh events)
    (hevent : events[time]? = some (.register key token)) : Tracked store events (time + 1) := by
  have hserver := serverAt_succ store hevent
  constructor
  · intro other entry
    obtain ⟨ticket, brought⟩ := entry
    rw [hserver, Server.after, Run.under_register, List.mem_append, h.under, onItsWay_succ hevent]
    refine or_congr (by simp) ?_
    rw [Registers, hevent, reply, Registry.register]
    by_cases hkey : other = key
    · simp [hkey, eq_comm, and_comm]
    · simp [hkey, Ne.symm hkey]
  · intro other
    rw [hserver, Server.after, Registry.reached, Run.under_register, List.map_append]
    refine List.Nodup.append (h.nodup other) (by split <;> simp) fun brought hbefore hnow => ?_
    split at hnow
    · -- A token that is on its way has been registered before, and so is not fresh now.
      obtain rfl : brought = token := List.mem_singleton.mp hnow
      obtain ⟨_, i, hi, ⟨hregister, -⟩, -⟩ := h.mem_reached.mp hbefore
      exact absurd (hfresh.eq_of_register hregister hevent) (ne_of_lt hi)
    · cases hnow
  · intro i hi other brought ticket hregisters
    rw [hserver]
    change ticket < (serverAt store events time).registry.nextTicket + 1
    rcases Nat.lt_succ_iff_lt_or_eq.mp hi with hi | rfl
    · exact Nat.lt_succ_of_lt (h.later i hi other brought ticket hregisters)
    · exact hregisters.2 ▸ Nat.lt_succ_self _
  · refine h.cancelled_succ hevent fun brought => ?_
    rw [hserver, Server.after]
    simp
  · rw [hserver]
    exact h.tidy.register key token

theorem finish (h : Tracked store events time) (hevent : events[time]? = some (.finish key ticket)) :
    Tracked store events (time + 1) := by
  have hserver := serverAt_succ store hevent
  constructor
  · intro other entry
    rw [hserver, Server.after, Run.under_forget, List.mem_filter, h.under, onItsWay_succ hevent]
    simp [Registers, hevent, imp_iff_not_or]
  · intro other
    rw [hserver, Server.after, Registry.reached, Run.under_forget]
    exact (h.nodup other).sublist (List.filter_sublist.map _)
  · intro i hi other brought drawn hregisters
    rw [hserver, Server.after, Run.nextTicket_forget]
    rcases Nat.lt_succ_iff_lt_or_eq.mp hi with hi | rfl
    · exact h.later i hi other brought drawn hregisters
    · cases hevent.symm.trans hregisters.1
  · refine h.cancelled_succ hevent fun brought => ?_
    rw [hserver, Server.after, Server.forget]
    simp
  · rw [hserver]
    exact h.tidy.finish key ticket

theorem cancel (h : Tracked store events time) (hevent : events[time]? = some (.cancel key)) :
    Tracked store events (time + 1) := by
  have hserver := serverAt_succ store hevent
  constructor
  · intro other entry
    rw [hserver, Server.after, Server.cancel, h.under, onItsWay_succ hevent]
    simp [Registers, hevent]
  · intro other
    rw [hserver]
    exact h.nodup other
  · intro i hi other brought drawn hregisters
    rw [hserver]
    rcases Nat.lt_succ_iff_lt_or_eq.mp hi with hi | rfl
    · exact h.later i hi other brought drawn hregisters
    · cases hevent.symm.trans hregisters.1
  · refine h.cancelled_succ hevent fun brought => ?_
    rw [hserver, Server.after, Server.cancel, List.mem_append, h.mem_reached, or_comm]
    simp
  · rw [hserver]
    exact h.tidy

end Tracked

/-- At every time the registry is what the history says. -/
theorem tracked (store : Store) (hfresh : Fresh events) (htime : time ≤ events.length) :
    Tracked store events time := by
  induction time with
  | zero => exact tracked_zero
  | succ time ih =>
      have h := ih (Nat.le_of_succ_le htime)
      cases hevent : events[time]? with
      | none => exact absurd (List.getElem?_eq_none_iff.mp hevent) (Nat.not_le.mpr htime)
      | some event =>
          cases event with
          | register key token => exact h.register hfresh hevent
          | finish key ticket => exact h.finish hevent
          | cancel key => exact h.cancel hevent

section

variable {i j : Nat} {other : String} {brought : RequestToken} {drawn : Nat}

/-- A token belongs to one registration, and so do its key and its ticket. -/
theorem Fresh.registers_unique (h : Fresh events) (hi : Registers store events i key token ticket)
    (hj : Registers store events j other token drawn) : i = j ∧ key = other ∧ ticket = drawn := by
  obtain rfl := h.eq_of_register hi.1 hj.1
  obtain ⟨rfl, -⟩ := RegistryEvent.register.inj (Option.some.inj (hi.1.symm.trans hj.1))
  exact ⟨rfl, rfl, hi.2.symm.trans hj.2⟩

/-- No two registrations draw one ticket. -/
theorem Fresh.eq_of_ticket (h : Fresh events) (hi : Registers store events i key token ticket)
    (hj : Registers store events j other brought ticket) : i = j := by
  obtain ⟨hi', -⟩ := List.getElem?_eq_some_iff.mp hi.1
  obtain ⟨hj', -⟩ := List.getElem?_eq_some_iff.mp hj.1
  rcases lt_trichotomy i j with hlt | heq | hgt
  · exact absurd (hj.2 ▸ (tracked store h hj'.le).later i hlt _ _ _ hi) (lt_irrefl _)
  · exact heq
  · exact absurd (hi.2 ▸ (tracked store h hi'.le).later j hgt _ _ _ hj) (lt_irrefl _)

theorem Fresh.mem_cancelled_iff (h : Fresh events) (hi : Registers store events i key token ticket)
    (htime : time ≤ events.length) :
    token ∈ (serverAt store events time).cancelled ↔ ∃ j, i < j ∧ j < time ∧
      events[j]? = some (.cancel key) ∧ ∀ m, i < m → m < j → events[m]? ≠ some (.finish key ticket) := by
  rw [(tracked store h htime).cancelled]
  constructor
  · rintro ⟨j, hj, other, drawn, hcancel, first, hfirst, hregisters, hunfinished⟩
    obtain ⟨rfl, rfl, rfl⟩ := h.registers_unique hi hregisters
    exact ⟨j, hfirst, hj, hcancel, hunfinished⟩
  · rintro ⟨j, hij, hj, hcancel, hunfinished⟩
    exact ⟨j, hj, key, ticket, hcancel, i, hij, hi, hunfinished⟩

/-- A finish takes out the request that drew the ticket and leaves all others where they are. -/
theorem Fresh.under_finish (h : Fresh events) (hi : Registers store events i key token ticket)
    (hj : events[j]? = some (.finish key ticket)) (other : String) :
    (serverAt store events (j + 1)).registry.under other =
      ((serverAt store events j).registry.under other).filter fun entry => entry.token ≠ token := by
  obtain ⟨hj', -⟩ := List.getElem?_eq_some_iff.mp hj
  rw [serverAt_succ store hj, Server.after, Run.under_forget]
  refine List.filter_congr fun entry hentry => ?_
  obtain ⟨first, -, hregisters, -⟩ := ((tracked store h hj'.le).under other entry).mp hentry
  rw [decide_eq_decide, ne_eq, ne_eq, not_iff_not, Option.some.injEq, Prod.mk.injEq]
  constructor
  · rintro ⟨rfl, rfl⟩
    obtain rfl := h.eq_of_ticket hi hregisters
    exact (RegistryEvent.register.inj (Option.some.inj (hregisters.1.symm.trans hi.1))).2
  · intro htoken
    exact (h.registers_unique hi (htoken ▸ hregisters)).2

end

/-- A token is cancelled exactly if its key is cancelled between its registration and its finish; a
cancellation gives back how many requests are then on their way under its key; no two registrations draw one
ticket; a finish takes out its own request and no other; and a key stands in the registry only while a
request is on its way under it, so that nothing is left when all are finished. -/
theorem cancellation_reaches_requests_on_their_way (store : Store) {events : List RegistryEvent}
    (hfresh : Fresh events) :
    (∀ i key token ticket, Registers store events i key token ticket →
      ∀ time ≤ events.length,
        (token ∈ (serverAt store events time).cancelled ↔ ∃ j, i < j ∧ j < time ∧
          events[j]? = some (.cancel key) ∧ ∀ m, i < m → m < j → events[m]? ≠ some (.finish key ticket))) ∧
    (∀ j key, events[j]? = some (.cancel key) → ∃ tokens : List RequestToken, tokens.Nodup ∧
      (∀ token, token ∈ tokens ↔ ∃ ticket, OnItsWay store events j key token ticket) ∧
      (RegistryEvent.cancel key).reply (serverAt store events j) = tokens.length) ∧
    (∀ i j key other token brought ticket, Registers store events i key token ticket →
      Registers store events j other brought ticket → i = j) ∧
    (∀ i j key token ticket, Registers store events i key token ticket →
      events[j]? = some (.finish key ticket) →
      (serverAt store events (j + 1)).cancelled = (serverAt store events j).cancelled ∧
      ∀ other, (serverAt store events (j + 1)).registry.under other =
        ((serverAt store events j).registry.under other).filter fun entry => entry.token ≠ token) ∧
    ∀ time ≤ events.length,
      (∀ key entries, (key, entries) ∈ (serverAt store events time).registry.running → entries ≠ []) ∧
      ((∀ i < time, ∀ key token ticket, Registers store events i key token ticket →
          ∃ j, i < j ∧ j < time ∧ events[j]? = some (.finish key ticket)) →
        (serverAt store events time).registry.running = []) := by
  refine ⟨?_, ?_, ?_, ?_, ?_⟩
  · intro i key token ticket hi time htime
    exact hfresh.mem_cancelled_iff hi htime
  · intro j key hcancel
    obtain ⟨hj, -⟩ := List.getElem?_eq_some_iff.mp hcancel
    have htracked := tracked store hfresh hj.le
    exact ⟨_, htracked.nodup key, fun token => htracked.mem_reached, rfl⟩
  · intro i j key other token brought ticket hi hj
    exact hfresh.eq_of_ticket hi hj
  · intro i j key token ticket hi hfinish
    refine ⟨?_, hfresh.under_finish hi hfinish⟩
    rw [serverAt_succ store hfinish]
    rfl
  · intro time htime
    have htracked := tracked store hfresh htime
    refine ⟨htracked.tidy.filled, fun hfinished => htracked.tidy.running_eq_nil fun key => ?_⟩
    refine List.eq_nil_iff_forall_not_mem.mpr fun entry hentry => ?_
    obtain ⟨i, hi, hregisters, hunfinished⟩ := (htracked.under key entry).mp hentry
    obtain ⟨j, hij, hj, hfinish⟩ := hfinished i hi key _ _ hregisters
    exact hunfinished j hij hj hfinish

/-- Two requests of one id and one of another; the first has finished when the id is cancelled. -/
def sharedIdEvents : List RegistryEvent :=
  [.register "7" 0, .register "7" 1, .register "8" 2, .finish "7" 0, .cancel "7", .finish "8" 2,
    .finish "7" 1]

/-- The cancellation reaches the second request alone, and at the end nothing is left in the registry. -/
theorem second_of_shared_id_cancelled :
    0 ∉ (serverAt default sharedIdEvents 7).cancelled ∧ 1 ∈ (serverAt default sharedIdEvents 7).cancelled ∧
      (RegistryEvent.cancel "7").reply (serverAt default sharedIdEvents 4) = 1 ∧
      (serverAt default sharedIdEvents 7).registry.running = [] := by
  obtain ⟨hcancelled, -, -, -, hempty⟩ :=
    cancellation_reaches_requests_on_their_way default (show Fresh sharedIdEvents by decide)
  refine ⟨fun hmem => ?_, ?_, rfl, (hempty 7 (by decide)).2 ?_⟩
  · obtain ⟨j, -, hj, hcancel, hunfinished⟩ :=
      (hcancelled 0 "7" 0 0 ⟨rfl, rfl⟩ 7 (by decide)).mp hmem
    have hlate : 3 < j := by
      by_contra hearly
      obtain rfl | rfl | rfl | rfl : j = 0 ∨ j = 1 ∨ j = 2 ∨ j = 3 := by omega
      all_goals cases hcancel
    exact hunfinished 3 (by decide) hlate rfl
  · refine (hcancelled 1 "7" 1 1 ⟨rfl, rfl⟩ 7 (by decide)).mpr ⟨4, by decide, by decide, rfl, ?_⟩
    intro m hm hmj
    obtain rfl | rfl : m = 2 ∨ m = 3 := by omega
    all_goals decide
  · rintro i hi key token ticket ⟨hregister, hticket⟩
    obtain rfl | rfl | rfl | hrest : i = 0 ∨ i = 1 ∨ i = 2 ∨ 3 ≤ i := by omega
    · cases hregister
      exact ⟨3, by decide, by decide, by rw [← hticket]; rfl⟩
    · cases hregister
      exact ⟨6, by decide, by decide, by rw [← hticket]; rfl⟩
    · cases hregister
      exact ⟨5, by decide, by decide, by rw [← hticket]; rfl⟩
    · obtain rfl | rfl | rfl | rfl : i = 3 ∨ i = 4 ∨ i = 5 ∨ i = 6 := by omega
      all_goals cases hregister

end RegistryEvent

end CodeIntel
