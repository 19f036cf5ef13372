import CodeIntel.CSharp.Engine
import CodeIntel.Proofs.Service.Calls
import CodeIntel.Proofs.Workspace.History
import CodeIntel.Proofs.Workspace.KeyOrder

/-! A preview shows what the change would do. The two requests go through the same checks and the same
work of the engine, so that both fail alike or both come to the same edits, which are then shown or
made. Likewise the actions that are listed for a selection are those that can be done there by their
titles; and the engine for C# lists no title twice. -/

namespace CodeIntel

/-! ### Shown and made -/

/-- Two pieces of work that end alike. -/
inductive Outcome.Alike {α β : Type} (related : α → β → Prop) : Outcome Error α → Outcome Error β → Prop where
  | done {value : α} {other : β} : related value other → Alike related (.done value) (.done other)
  | failed (error : Error) : Alike related (.failed error) (.failed error)
  | crashed (report : Option String) : Alike related (.crashed report) (.crashed report)
  | interrupted : Alike related .interrupted .interrupted

theorem Outcome.Alike.bind {α β γ : Type} {related : β → γ → Prop} {work : Outcome Error α}
    {next : α → Outcome Error β} {next' : α → Outcome Error γ}
    (h : ∀ value, Alike related (next value) (next' value)) :
    Alike related (work >>= next) (work >>= next') := by
  cases work with
  | done value => exact h value
  | failed error => exact .failed error
  | crashed report => exact .crashed report
  | interrupted => exact .interrupted

namespace Plan

/-- What a request comes to that makes edits: what becomes of the edits, reported as an answer. -/
def made (store : Store) (snapshot : Snapshot) (edits : List DocumentEdit) (answer : Effect → Answer) :
    Envelope × Store :=
  let (result, after) := store.applyEdits snapshot.id snapshot.version edits
  (result.map fun version => answer (.applied version), after)

theorem finishEdits_false (snapshot : Snapshot) (edits : List DocumentEdit)
    (answer : Effect → Answer) :
    finishEdits snapshot edits false answer =
      .publish fun store => made store snapshot edits answer := by
  rw [finishEdits, if_neg Bool.false_ne_true]
  congr
  funext store
  rw [made]
  cases store.applyEdits snapshot.id snapshot.version edits with
  | mk result after => cases result <;> rfl

/-- What is left of two calls of which one shows the edits that the other makes. -/
def Shows (holds : List DocumentEdit → (Effect → Answer) → Prop) (snapshot : Snapshot)
    (shown made : Finish) : Prop :=
  ∃ edits answer, holds edits answer ∧ shown = finishEdits snapshot edits true answer ∧
    made = finishEdits snapshot edits false answer

/-- The plans of two such calls. -/
inductive Pairs (store : Store) (holds : List DocumentEdit → (Effect → Answer) → Prop) :
    Except Error Plan → Except Error Plan → Prop where
  | refused (error : Error) : Pairs store holds (.error error) (.error error)
  | planned {shown made : Store → Outcome Error Finish} {snapshot : Snapshot} :
      store.published = some snapshot →
      (∀ now, Outcome.Alike (Shows holds snapshot) (shown now) (made now)) →
      Pairs store holds (.ok (.work shown)) (.ok (.work made))

section

variable {store : Store} {holds : List DocumentEdit → (Effect → Answer) → Prop}

theorem Pairs.bind {α : Type} {checked : Except Error α} {next next' : α → Except Error Plan}
    (h : ∀ value, checked = .ok value → Pairs store holds (next value) (next' value)) :
    Pairs store holds (checked >>= next) (checked >>= next') := by
  cases checked with
  | error error => exact .refused error
  | ok value => exact h value rfl

theorem pairs_renameSymbol (engine : Engine) (store : Store) (cursor : Cursor) (newName : String) :
    Pairs store
      (fun edits answer => ∃ oldName, answer = fun effect =>
        .renamed ⟨oldName, newName, affectedFiles edits, changeCount edits, effect⟩)
      (renameSymbol engine store cursor newName true)
      (renameSymbol engine store cursor newName false) := by
  unfold renameSymbol
  split
  · exact .refused _
  · refine .bind fun snapshot hcurrent => .bind fun anchor _ =>
      .planned (Store.current_eq_ok.mp hcurrent) fun _ => .bind fun document => .bind fun symbol => ?_
    cases symbol with
    | none => exact .failed _
    | some symbol => exact .bind fun edits => .done ⟨edits, _, ⟨symbol.name, rfl⟩, rfl, rfl⟩

theorem pairs_applyCodeAction (engine : Engine) (store : Store) (selection : Selection)
    (title : String) :
    Pairs store
      (fun edits answer => answer = fun effect => .acted ⟨title, affectedFiles edits, effect⟩)
      (applyCodeAction engine store selection title true)
      (applyCodeAction engine store selection title false) := by
  refine .bind fun ends _ => .bind fun snapshot hcurrent => .bind fun range _ =>
    .planned (Store.current_eq_ok.mp hcurrent) fun _ => .bind fun document => .bind fun actions => ?_
  split
  · exact .failed _
  · exact .bind fun edits => .done ⟨edits, _, rfl, rfl, rfl⟩

/-- Both fail with one error and change nothing, or one shows the edits that the other makes. -/
theorem Pairs.carriedOut {shown applied : Except Error Plan} (h : Pairs store holds shown applied)
    (now : Store) (cancelled : Bool) :
    (∃ error, Plan.carriedOut now cancelled shown = (.error error, now) ∧
        Plan.carriedOut now cancelled applied = (.error error, now)) ∨
      ∃ snapshot edits answer, store.published = some snapshot ∧ holds edits answer ∧
        Plan.carriedOut now cancelled shown = (.ok (answer (.preview edits)), now) ∧
        Plan.carriedOut now cancelled applied = made now snapshot edits answer := by
  cases h with
  | refused error => exact .inl ⟨error, rfl, rfl⟩
  | @planned shown applied snapshot hpublished halike =>
      cases cancelled with
      | true => exact .inl ⟨Error.cancelled, rfl, rfl⟩
      | false =>
          simp only [Plan.carriedOut, Bool.false_eq_true, if_false]
          have halike := halike now
          generalize shown now = one at halike ⊢
          generalize applied now = other at halike ⊢
          cases halike with
          | done hshows =>
              obtain ⟨edits, answer, hholds, rfl, rfl⟩ := hshows
              refine .inr ⟨snapshot, edits, answer, hpublished, hholds, rfl, ?_⟩
              rw [finishEdits_false]
              rfl
          | failed error => exact .inl ⟨error, rfl, rfl⟩
          | crashed report => exact .inl ⟨_, rfl, rfl⟩
          | interrupted => exact .inl ⟨_, rfl, rfl⟩

end

/-! ### Listed and done -/

theorem carriedOut_of_reply {compute : Store → Outcome Error Finish} {now : Store} {answer : Answer}
    (h : compute now = .done (.reply answer)) :
    Plan.carriedOut now false (.ok (.work compute)) = (.ok answer, now) := by
  rw [Plan.carriedOut, if_neg Bool.false_ne_true, h]
  rfl

/-- A plan that asks the engine and only replies is answered when it is not cancelled and the engine
gives that answer. -/
theorem carriedOut_eq_ok {compute : Store → Outcome Error Finish} {now : Store} {cancelled : Bool}
    (hreplies : (compute now).Ends fun finish => ∃ answer, finish = .reply answer) {answer : Answer} :
    (Plan.carriedOut now cancelled (.ok (.work compute))).1 = .ok answer ↔
      cancelled = false ∧ compute now = .done (.reply answer) := by
  constructor
  · intro h
    cases cancelled with
    | true => cases h
    | false =>
        rw [Plan.carriedOut, if_neg Bool.false_ne_true] at h
        cases houtcome : compute now with
        | done finish =>
            obtain ⟨other, rfl⟩ := hreplies finish houtcome
            rw [houtcome] at h
            obtain rfl := Except.ok.inj h
            exact ⟨rfl, rfl⟩
        | failed | crashed | interrupted =>
            rw [houtcome] at h
            cases h
  · rintro ⟨rfl, hcompute⟩
    exact congrArg Prod.fst (carriedOut_of_reply hcompute)

/-- What only replies is answered by what it computes. -/
theorem carriedOut_reply_eq_ok {compute : Unit → Outcome Error Answer} {now : Store} {cancelled : Bool}
    {answer : Answer} : (Plan.carriedOut now cancelled (.ok (reply compute))).1 = .ok answer ↔
      cancelled = false ∧ compute () = .done answer := by
  refine (carriedOut_eq_ok (.bind fun answer => .done ⟨answer, rfl⟩)).trans (and_congr_right fun _ => ?_)
  rw [Outcome.bind_eq_done]
  constructor
  · rintro ⟨other, hother, hreply⟩
    obtain rfl := Finish.reply.inj (Outcome.done.inj hreply)
    exact hother
  · exact fun hanswer => ⟨answer, hanswer, rfl⟩

theorem carriedOut_bind_eq_ok {α : Type} {checked : Except Error α} {next : α → Except Error Plan}
    {now : Store} {cancelled : Bool} {answer : Answer} :
    (Plan.carriedOut now cancelled (checked >>= next)).1 = .ok answer ↔
      ∃ value, checked = .ok value ∧ (Plan.carriedOut now cancelled (next value)).1 = .ok answer := by
  cases checked with
  | error error => simp [bind, Except.bind, Plan.carriedOut]
  | ok value => simp [bind, Except.bind]

/-- The engine offers actions for a selection in the published snapshot. -/
def Offers (engine : Engine) (store : Store) (selection : Selection) (snapshot : Snapshot)
    (actions : List CodeAction) : Prop :=
  ∃ ends range document, selection.positions = .ok ends ∧ store.published = some snapshot ∧
    rangeOf store snapshot selection.cursor.file ends = .ok range ∧
    documentOf snapshot range.path = .done document ∧
    engine.codeActions snapshot document range = .done actions

section

variable {engine : Engine} {store now : Store} {selection : Selection} {cancelled : Bool}
  {answer : Answer}

theorem carriedOut_codeActions :
    (Plan.carriedOut now cancelled (codeActions engine store selection)).1 = .ok answer ↔
      cancelled = false ∧ ∃ snapshot actions,
        Offers engine store selection snapshot actions ∧ answer = .actions actions := by
  constructor
  · intro h
    obtain ⟨ends, hends, h⟩ := carriedOut_bind_eq_ok.mp h
    obtain ⟨snapshot, hcurrent, h⟩ := carriedOut_bind_eq_ok.mp h
    obtain ⟨range, hrange, h⟩ := carriedOut_bind_eq_ok.mp h
    obtain ⟨hlive, hdone⟩ := carriedOut_reply_eq_ok.mp h
    obtain ⟨document, hdocument, hdone⟩ := Outcome.bind_eq_done.mp hdone
    obtain ⟨actions, hactions, hdone⟩ := Outcome.bind_eq_done.mp hdone
    obtain rfl := Outcome.done.inj hdone
    exact ⟨hlive, snapshot, actions, ⟨ends, range, document, hends, Store.current_eq_ok.mp hcurrent,
      hrange, hdocument, Outcome.mapError_eq_done.mp hactions⟩, rfl⟩
  · rintro ⟨rfl, snapshot, actions, ⟨ends, range, document, hends, hpublished, hrange, hdocument,
      hactions⟩, rfl⟩
    refine carriedOut_bind_eq_ok.mpr ⟨ends, hends, carriedOut_bind_eq_ok.mpr ⟨snapshot,
      Store.current_eq_ok.mpr hpublished, carriedOut_bind_eq_ok.mpr ⟨range, hrange, ?_⟩⟩⟩
    exact carriedOut_reply_eq_ok.mpr ⟨rfl, Outcome.bind_eq_done.mpr ⟨document, hdocument,
      Outcome.bind_eq_done.mpr ⟨actions, Outcome.mapError_eq_done.mpr hactions, rfl⟩⟩⟩

theorem carriedOut_applyCodeAction {title : String} :
    (Plan.carriedOut now cancelled (applyCodeAction engine store selection title true)).1 =
        .ok answer ↔
      cancelled = false ∧ ∃ snapshot actions action edits,
        Offers engine store selection snapshot actions ∧
        actions.find? (fun action => action.title = title) = some action ∧
        engine.codeActionEdits snapshot action = .done edits ∧
        answer = .acted ⟨title, affectedFiles edits, .preview edits⟩ := by
  constructor
  · intro h
    obtain ⟨ends, hends, h⟩ := carriedOut_bind_eq_ok.mp h
    obtain ⟨snapshot, hcurrent, h⟩ := carriedOut_bind_eq_ok.mp h
    obtain ⟨range, hrange, h⟩ := carriedOut_bind_eq_ok.mp h
    obtain ⟨hlive, hdone⟩ := (carriedOut_eq_ok (.bind fun document => .bind fun actions => by
      split
      · exact .failed
      · exact .bind fun edits => .done ⟨_, rfl⟩)).mp h
    obtain ⟨document, hdocument, hdone⟩ := Outcome.bind_eq_done.mp hdone
    obtain ⟨actions, hactions, hdone⟩ := Outcome.bind_eq_done.mp hdone
    split at hdone
    · cases hdone
    · rename_i action hfound
      obtain ⟨edits, hedits, hdone⟩ := Outcome.bind_eq_done.mp hdone
      obtain rfl := Finish.reply.inj (Outcome.done.inj hdone)
      exact ⟨hlive, snapshot, actions, action, edits, ⟨ends, range, document, hends,
        Store.current_eq_ok.mp hcurrent, hrange, hdocument, Outcome.mapError_eq_done.mp hactions⟩,
        hfound, Outcome.mapError_eq_done.mp hedits, rfl⟩
  · rintro ⟨rfl, snapshot, actions, action, edits, ⟨ends, range, document, hends, hpublished, hrange,
      hdocument, hactions⟩, hfound, hedits, rfl⟩
    refine carriedOut_bind_eq_ok.mpr ⟨ends, hends, carriedOut_bind_eq_ok.mpr ⟨snapshot,
      Store.current_eq_ok.mpr hpublished, carriedOut_bind_eq_ok.mpr ⟨range, hrange, ?_⟩⟩⟩
    refine congrArg Prod.fst (carriedOut_of_reply ?_)
    refine Outcome.bind_eq_done.mpr ⟨document, hdocument, Outcome.bind_eq_done.mpr ⟨actions,
      Outcome.mapError_eq_done.mpr hactions, ?_⟩⟩
    rw [hfound]
    exact Outcome.bind_eq_done.mpr ⟨edits, Outcome.mapError_eq_done.mpr hedits, rfl⟩

end

/-! ### Files and titles -/

theorem mem_affectedFiles {edits : List DocumentEdit} {path : String} :
    path ∈ affectedFiles edits ↔ ∃ edit ∈ edits, edit.path = path ∧ edit.edits ≠ [] := by
  rw [affectedFiles, mem_ascending, List.mem_map]
  constructor
  · rintro ⟨edit, hmem, rfl⟩
    obtain ⟨hmem, hsome⟩ := List.mem_filter.mp hmem
    exact ⟨edit, hmem, rfl, by simpa using hsome⟩
  · rintro ⟨edit, hmem, rfl, hsome⟩
    exact ⟨edit, List.mem_filter.mpr ⟨hmem, by simpa using hsome⟩, rfl⟩

end Plan

theorem CSharp.nodup_distinctTitles (seen : List String) (actions : List CodeAction) :
    ((distinctTitles seen actions).map CodeAction.title).Nodup ∧
      ∀ title ∈ (distinctTitles seen actions).map CodeAction.title, title ∉ seen := by
  induction actions generalizing seen with
  | nil => simp [distinctTitles]
  | cons action rest ih =>
      rw [distinctTitles]
      split
      · exact ih seen
      · rename_i hunseen
        obtain ⟨hnodup, hothers⟩ := ih (action.title :: seen)
        rw [List.map_cons, List.nodup_cons]
        refine ⟨⟨?_, hnodup⟩, ?_⟩
        · intro hagain
          exact hothers _ hagain List.mem_cons_self
        · intro title hmem
          rcases List.mem_cons.mp hmem with rfl | hmem
          · simpa using hunseen
          · intro hseen
            exact hothers title hmem (List.mem_cons_of_mem _ hseen)

/-- The engine for C# lists no title twice. -/
theorem CSharp.nodup_codeActions {parser : Parser} {snapshot : Snapshot} {document : Document}
    {range : AnchorRange} {actions : List CodeAction}
    (h : codeActions parser snapshot document range = .ok actions) :
    (actions.map CodeAction.title).Nodup := by
  obtain ⟨index, -, h⟩ := bind_eq_ok.mp h
  obtain ⟨semicolons, -, h⟩ := bind_eq_ok.mp h
  obtain ⟨modifiers, -, h⟩ := bind_eq_ok.mp h
  obtain ⟨renames, -, h⟩ := bind_eq_ok.mp h
  obtain ⟨sorting, -, h⟩ := bind_eq_ok.mp h
  obtain rfl := Except.ok.inj h
  exact (nodup_distinctTitles [] _).1

/-- Showing a change and making it agree, and so do listing actions and doing them, for every engine,
store and token. Either both requests fail with one error and change nothing, or one shows the edits
and the other comes to what becomes of them when they are made to the published snapshot, with the same
names, files and counts; the files are those that have an edit, ascending and each once. Where the edits
of an action are those it was listed with, the preview of an action succeeds exactly when the listing
does and has its title, with the edits of the first action so titled. The engine for C# lists no title
twice. -/
theorem previews_agree_with_changes (engine : Engine) (store : Store) (cancelled : Bool) :
    (∀ (cursor : Cursor) (newName : String) (shown made : Request),
      shown.Asks (.renameSymbol cursor newName true) →
      made.Asks (.renameSymbol cursor newName false) →
      (∃ error, dispatch engine store shown cancelled = (.error error, store.drawn) ∧
        dispatch engine store made cancelled = (.error error, store.drawn)) ∨
      ∃ snapshot edits oldName files count, store.published = some snapshot ∧
        files = Plan.affectedFiles edits ∧ count = Plan.changeCount edits ∧
        dispatch engine store shown cancelled =
          (.ok (.renamed ⟨oldName, newName, files, count, .preview edits⟩), store.drawn) ∧
        dispatch engine store made cancelled =
          Plan.made store.drawn snapshot edits fun effect =>
            .renamed ⟨oldName, newName, files, count, effect⟩) ∧
    (∀ (selection : Selection) (title : String) (shown made : Request),
      shown.Asks (.applyCodeAction selection title true) →
      made.Asks (.applyCodeAction selection title false) →
      (∃ error, dispatch engine store shown cancelled = (.error error, store.drawn) ∧
        dispatch engine store made cancelled = (.error error, store.drawn)) ∨
      ∃ snapshot edits files, store.published = some snapshot ∧
        files = Plan.affectedFiles edits ∧
        dispatch engine store shown cancelled =
          (.ok (.acted ⟨title, files, .preview edits⟩), store.drawn) ∧
        dispatch engine store made cancelled =
          Plan.made store.drawn snapshot edits fun effect => .acted ⟨title, files, effect⟩) ∧
    (∀ edits : List DocumentEdit, (Plan.affectedFiles edits).Pairwise (· < ·) ∧
      ∀ path, path ∈ Plan.affectedFiles edits ↔
        ∃ edit ∈ edits, edit.path = path ∧ edit.edits ≠ []) ∧
    ((∀ snapshot action, engine.codeActionEdits snapshot action = pure action.edits) →
      ∀ (selection : Selection) (title : String) (listed shown : Request),
        listed.Asks (.getCodeActions selection) →
        shown.Asks (.applyCodeAction selection title true) →
        ∀ answer, (dispatch engine store shown cancelled).1 = .ok answer ↔
          ∃ actions action, (dispatch engine store listed cancelled).1 = .ok (.actions actions) ∧
            actions.find? (fun action => action.title = title) = some action ∧
            answer = .acted
              ⟨title, Plan.affectedFiles action.edits, .preview action.edits⟩) ∧
    ∀ (parser : CSharp.Parser) (snapshot : Snapshot) (document : Document) (range : AnchorRange)
      (actions : List CodeAction),
      (CSharp.engine parser).codeActions snapshot document range = .done actions →
        (actions.map CodeAction.title).Nodup := by
  refine ⟨?_, ?_, ?_, ?_, ?_⟩
  · intro cursor newName shown made hshown hmade
    rw [dispatch_of_asks hshown, dispatch_of_asks hmade]
    rcases (Plan.pairs_renameSymbol engine store cursor newName).carriedOut store.drawn cancelled with
      hfailed | ⟨snapshot, edits, _, hpublished, ⟨oldName, rfl⟩, hshown, hmade⟩
    · exact .inl hfailed
    · exact .inr ⟨snapshot, edits, oldName, _, _, hpublished, rfl, rfl, hshown, hmade⟩
  · intro selection title shown made hshown hmade
    rw [dispatch_of_asks hshown, dispatch_of_asks hmade]
    rcases (Plan.pairs_applyCodeAction engine store selection title).carriedOut store.drawn cancelled
      with hfailed | ⟨snapshot, edits, _, hpublished, rfl, hshown, hmade⟩
    · exact .inl hfailed
    · exact .inr ⟨snapshot, edits, _, hpublished, rfl, hshown, hmade⟩
  · intro edits
    exact ⟨pairwise_ascending _, fun path => Plan.mem_affectedFiles⟩
  · intro hlisted selection title listed shown hasked hshown answer
    rw [dispatch_of_asks hshown, dispatch_of_asks hasked]
    refine Plan.carriedOut_applyCodeAction.trans ?_
    constructor
    · rintro ⟨hlive, snapshot, actions, action, edits, hoffers, hfound, hedits, rfl⟩
      obtain rfl := Outcome.done.inj ((hlisted snapshot action).symm.trans hedits)
      exact ⟨actions, action,
        Plan.carriedOut_codeActions.mpr ⟨hlive, snapshot, actions, hoffers, rfl⟩, hfound, rfl⟩
    · rintro ⟨actions, action, hactions, hfound, rfl⟩
      obtain ⟨hlive, snapshot, others, hoffers, hsame⟩ := Plan.carriedOut_codeActions.mp hactions
      obtain rfl := Answer.actions.inj hsame
      exact ⟨hlive, snapshot, actions, action, _, hoffers, hfound, hlisted snapshot action, rfl⟩
  · intro parser snapshot document range actions hactions
    exact CSharp.nodup_codeActions (Outcome.ofExcept_eq_done.mp hactions)

/-! ### A change in the workspace of one file -/

/-- An engine that gives a name the insertion of a text at the start of the file, and offers the same as
the first of two actions with one title. -/
def insertingEngine : Engine :=
  { soloEngine with
    symbolAt := fun _ _ _ => .done (some ⟨"x", "a", .point ⟨0, 0⟩, none⟩)
    renameEdits := fun _ _ _ _ => .done (soloEdits 0)
    codeActions := fun _ _ _ =>
      .done [⟨"Insert y", .refactor, soloEdits 0⟩, ⟨"Insert y", .quickFix, soloEdits 1⟩] }

/-- The store when the file has been loaded, and when it has been edited. -/
def soloStore (version : Nat) (text : String) : Store :=
  (soloWorld text (some (soloSnapshot 0 version text)) [] [0]).store

/-- Requests for a rename at the start of the file, for what can be done there, and for doing it. -/
def soloRename (preview : Bool) : Request :=
  ⟨"RenameSymbol", .array [.string "a", .nat 0, .nat 0, .string "N", .bool preview]⟩

def soloListing : Request := ⟨"GetCodeActions", .array [.string "a", .nat 0, .nat 0]⟩

def soloAction (preview : Bool) : Request :=
  ⟨"ApplyCodeAction",
    .array [.string "a", .nat 0, .nat 0, .null, .null, .string "Insert y", .bool preview]⟩

theorem asks_soloRename (preview : Bool) :
    (soloRename preview).Asks (.renameSymbol ⟨"a", 0, 0⟩ "N" preview) := ⟨.renameSymbol, rfl, rfl⟩

theorem asks_soloListing : soloListing.Asks (.getCodeActions ⟨⟨"a", 0, 0⟩, none, none⟩) :=
  ⟨.getCodeActions, rfl, rfl⟩

theorem asks_soloAction (preview : Bool) :
    (soloAction preview).Asks (.applyCodeAction ⟨⟨"a", 0, 0⟩, none, none⟩ "Insert y" preview) :=
  ⟨.applyCodeAction, rfl, rfl⟩

theorem Store.applyEdits_drawn (store : Store) (id version : Nat) (edits : List DocumentEdit) :
    store.drawn.applyEdits id version edits =
      ((store.applyEdits id version edits).1, (store.applyEdits id version edits).2.drawn) := by
  have hends := store.applyEdits_ends id version edits
  generalize store.applyEdits id version edits = result at hends ⊢
  cases hends with
  | empty hnone => exact applyEditsBy_of_empty wholeWriter store.drawn id version hnone
  | stale hsome hcurrent => exact applyEditsBy_of_stale wholeWriter hsome hcurrent
  | misfit hsome hcurrent hmisfit =>
      exact applyEdits_of_misfit hsome hcurrent hmisfit
  | unwritten hsome hcurrent hgroups hchanged hwritten =>
      have hdrawn : store.drawn.ensureCurrent id version = .ok _ := hcurrent
      have hrefused : writeBack _ [] store.drawn.disk _ = (.error _, _) := hwritten
      rw [applyEdits_of_edited hsome hdrawn hgroups hchanged, hrefused]
      rfl
  | published hsome hcurrent hgroups hchanged hwritten =>
      exact applyEdits_of_written hsome hcurrent hgroups hchanged hwritten

namespace Plan

theorem made_solo (answer : Effect → Answer) :
    made (soloStore 0 "x").drawn (soloSnapshot 0 0 "x") (soloEdits 0) answer =
      (.ok (answer (.applied 1)), (soloStore 1 "yx").drawn) := by
  have hedits : (soloStore 0 "x").applyEdits 0 0 (soloEdits 0) = (.ok 1, soloStore 1 "yx") :=
    applyEdits_solo "x" [] [0] rfl
      (show Document.applyEdits ⟨"a", "x", 0⟩ [.insert ⟨0, 0⟩ "y"] 1 = .ok ⟨"a", "yx", 1⟩ by cbv)
  change (Except.map _ ((soloStore 0 "x").drawn.applyEdits 0 0 (soloEdits 0)).1,
    ((soloStore 0 "x").drawn.applyEdits 0 0 (soloEdits 0)).2) = _
  rw [Store.applyEdits_drawn, hedits]
  rfl

theorem anchor_solo : (soloSnapshot 0 0 "x").anchor (soloDisk "x") "a" ⟨0, 0⟩ = .ok ⟨"a", 0, ⟨0, 0⟩⟩ := by
  have hpath := mapError_eq_ok.mp (normalPath_solo (soloDisk "x") "/")
  have hoffset : Document.offsetAt ⟨"a", "x", 0⟩ ⟨0, 0⟩ = .ok 0 := by cbv
  exact bind_eq_ok.mpr ⟨"a", hpath, bind_eq_ok.mpr ⟨0, hoffset, rfl⟩⟩

theorem anchorOf_solo :
    anchorOf (soloStore 0 "x") (soloSnapshot 0 0 "x") ⟨"a", 0, 0⟩ = .ok ⟨"a", 0, ⟨0, 0⟩⟩ :=
  mapError_eq_ok.mpr anchor_solo

theorem offers_solo :
    Offers insertingEngine (soloStore 0 "x") ⟨⟨"a", 0, 0⟩, none, none⟩ (soloSnapshot 0 0 "x")
      [⟨"Insert y", .refactor, soloEdits 0⟩, ⟨"Insert y", .quickFix, soloEdits 1⟩] := by
  have hstop : Document.offsetAt ⟨"a", "x", 0⟩ ⟨0, 0⟩ = .ok 0 := by cbv
  refine ⟨(⟨0, 0⟩, ⟨0, 0⟩), ⟨"a", ⟨0, 0⟩, .point ⟨0, 0⟩⟩, ⟨"a", "x", 0⟩, rfl, rfl, ?_, rfl, rfl⟩
  refine mapError_eq_ok.mpr ?_
  rw [Snapshot.anchorRange, if_neg (by decide)]
  exact bind_eq_ok.mpr ⟨_, anchor_solo, bind_eq_ok.mpr ⟨0, hstop, rfl⟩⟩

end Plan

/-- What the rename comes to, shown or made. -/
theorem dispatch_soloRename (preview : Bool) :
    dispatch insertingEngine (soloStore 0 "x") (soloRename preview) false =
      if preview then
        (.ok (.renamed ⟨"x", "N", ["a"], 1, .preview (soloEdits 0)⟩), (soloStore 0 "x").drawn)
      else (.ok (.renamed ⟨"x", "N", ["a"], 1, .applied 1⟩), (soloStore 1 "yx").drawn) := by
  have hplan : ∃ compute, Plan.ofCall insertingEngine (soloStore 0 "x") (soloStore 0 "x").nextId
      (.renameSymbol ⟨"a", 0, 0⟩ "N" preview) = .ok (.work compute) ∧
      compute (soloStore 0 "x").drawn = .done
        (Plan.finishEdits (soloSnapshot 0 0 "x") (soloEdits 0) preview fun effect =>
          .renamed ⟨"x", "N", ["a"], 1, effect⟩) :=
    ⟨_, bind_eq_ok.mpr ⟨soloSnapshot 0 0 "x", rfl, bind_eq_ok.mpr ⟨_, Plan.anchorOf_solo, rfl⟩⟩, rfl⟩
  obtain ⟨compute, hplan, hcompute⟩ := hplan
  rw [dispatch_of_asks (asks_soloRename preview), hplan]
  cases preview with
  | true => exact Plan.carriedOut_of_reply hcompute
  | false =>
      rw [Plan.finishEdits_false] at hcompute
      rw [Plan.carriedOut, if_neg Bool.false_ne_true, hcompute]
      exact Plan.made_solo _

theorem dispatch_soloListing :
    (dispatch insertingEngine (soloStore 0 "x") soloListing false).1 =
      .ok (.actions [⟨"Insert y", .refactor, soloEdits 0⟩, ⟨"Insert y", .quickFix, soloEdits 1⟩]) := by
  rw [dispatch_of_asks asks_soloListing]
  exact Plan.carriedOut_codeActions.mpr ⟨rfl, soloSnapshot 0 0 "x", _, Plan.offers_solo, rfl⟩

/-- A rename and an action on code that are shown and then made: the one insertion, with the name before and
after and the count, or with the title, which is that of the first action that is listed. -/
theorem insertion_shown_and_made :
    dispatch insertingEngine (soloStore 0 "x") (soloRename true) false =
        (.ok (.renamed ⟨"x", "N", ["a"], 1, .preview (soloEdits 0)⟩), (soloStore 0 "x").drawn) ∧
      dispatch insertingEngine (soloStore 0 "x") (soloRename false) false =
        (.ok (.renamed ⟨"x", "N", ["a"], 1, .applied 1⟩), (soloStore 1 "yx").drawn) ∧
      (∃ others, (dispatch insertingEngine (soloStore 0 "x") soloListing false).1 =
        .ok (.actions (⟨"Insert y", .refactor, soloEdits 0⟩ :: others))) ∧
      dispatch insertingEngine (soloStore 0 "x") (soloAction true) false =
        (.ok (.acted ⟨"Insert y", ["a"], .preview (soloEdits 0)⟩), (soloStore 0 "x").drawn) ∧
      dispatch insertingEngine (soloStore 0 "x") (soloAction false) false =
        (.ok (.acted ⟨"Insert y", ["a"], .applied 1⟩), (soloStore 1 "yx").drawn) := by
  obtain ⟨hrenames, hacts, -, hlists, -⟩ :=
    previews_agree_with_changes insertingEngine (soloStore 0 "x") false
  have hrenamed := dispatch_soloRename true
  have hlisted := dispatch_soloListing
  have hanswer : (dispatch insertingEngine (soloStore 0 "x") (soloAction true) false).1 =
      .ok (.acted ⟨"Insert y", ["a"], .preview (soloEdits 0)⟩) :=
    (hlists (fun _ _ => rfl) _ _ _ _ asks_soloListing (asks_soloAction true) _).mpr
      ⟨_, ⟨"Insert y", .refactor, soloEdits 0⟩, hlisted, rfl, rfl⟩
  refine ⟨hrenamed, ?_, ⟨_, hlisted⟩, ?_⟩
  · rcases hrenames _ _ _ _ (asks_soloRename true) (asks_soloRename false) with
      ⟨error, hfailed, -⟩ | ⟨snapshot, edits, oldName, files, count, hpublished, -, -, hshown, hmade⟩
    · cases hrenamed.symm.trans hfailed
    · obtain ⟨rfl, rfl, rfl, rfl⟩ : oldName = "x" ∧ files = ["a"] ∧ count = 1 ∧ edits = soloEdits 0 := by
        simpa using hshown.symm.trans hrenamed
      obtain rfl := Option.some.inj hpublished
      exact hmade.trans (Plan.made_solo _)
  · rcases hacts _ _ _ _ (asks_soloAction true) (asks_soloAction false) with
      ⟨error, hfailed, -⟩ | ⟨snapshot, edits, files, hpublished, -, hshown, hmade⟩
    · cases hanswer.symm.trans (congrArg Prod.fst hfailed)
    · obtain ⟨rfl, rfl⟩ : files = ["a"] ∧ edits = soloEdits 0 := by
        simpa using (congrArg Prod.fst hshown).symm.trans hanswer
      obtain rfl := Option.some.inj hpublished
      exact ⟨hshown, hmade.trans (Plan.made_solo _)⟩

end CodeIntel
