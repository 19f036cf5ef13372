import CodeIntel.Proofs.Service.Previews
import CodeIntel.Proofs.Sorting
import CodeIntel.Proofs.Workspace.History

/-! Searching for symbols. A search goes through all documents of the published snapshot, keeps what is
wanted of the symbols that the engine reports, and sorts it; the bound of the request only says where the
answer is cut off. So the answers under different bounds are beginnings of one list. -/

namespace CodeIntel

namespace Position

instance : Std.TransOrd Position :=
  inferInstanceAs (Std.TransCmp (compareLex (compareOn Position.line) (compareOn Position.column)))

theorem compare_eq_lt {p q : Position} : compare p q = .lt ↔ p < q := by
  change compareLex (compareOn Position.line) (compareOn Position.column) p q = .lt ↔ _
  rw [compareLex, Ordering.then_eq_lt, compareOn, compareOn, compare_lt_iff_lt, compare_lt_iff_lt,
    compare_eq_iff_eq, lt_def]

theorem compare_eq_eq {p q : Position} : compare p q = .eq ↔ p = q := by
  change compareLex (compareOn Position.line) (compareOn Position.column) p q = .eq ↔ _
  rw [compareLex_eq_eq, compareOn, compareOn, compare_eq_iff_eq, compare_eq_iff_eq]
  obtain ⟨line, column⟩ := p
  obtain ⟨line', column'⟩ := q
  rw [mk.injEq]

end Position

namespace SymbolInfo

/-- A symbol does not stand behind another one: by path, then by start, then by name. -/
def NotBehind (a b : SymbolInfo) : Prop :=
  a.path < b.path ∨ (a.path = b.path ∧
    (a.range.start < b.range.start ∨ (a.range.start = b.range.start ∧ a.name ≤ b.name)))

/-- A symbol has the kind that is asked for, if one is, and a name that the pattern accepts. -/
def Wanted (pattern : Pattern) (kind : Option SymbolKind) (symbol : SymbolInfo) : Prop :=
  (∀ asked ∈ kind, symbol.kind = asked) ∧ pattern.accepts symbol.name = true

instance (pattern : Pattern) (kind : Option SymbolKind) : DecidablePred (Wanted pattern kind) :=
  fun _ => inferInstanceAs (Decidable (_ ∧ _))

end SymbolInfo

/-- The symbols of a kind that a pattern accepts are all that the engine reports of the documents. -/
theorem matchingSymbols_eq_done {symbolsOf : Document → Reply (List SymbolInfo)}
    {reported : Document → List SymbolInfo} {documents : List Document}
    (h : ∀ document ∈ documents, symbolsOf document = .done (reported document)) (pattern : Pattern)
    (kind : Option SymbolKind) :
    matchingSymbols symbolsOf pattern kind documents =
      .done ((documents.flatMap reported).filter (SymbolInfo.Wanted pattern kind)) := by
  induction documents with
  | nil => rfl
  | cons document rest ih =>
      obtain ⟨hdocument, hrest⟩ := List.forall_mem_cons.mp h
      have hwanted : ∀ symbol : SymbolInfo,
          ((kind.isNone || kind == some symbol.kind) && pattern.accepts symbol.name) =
            decide (symbol.Wanted pattern kind) := by
        intro symbol
        rw [Bool.eq_iff_iff, decide_eq_true_iff, SymbolInfo.Wanted, Bool.and_eq_true]
        refine and_congr_left fun _ => ?_
        cases kind with
        | none => simp
        | some asked => simpa using eq_comm
      rw [matchingSymbols, hdocument, ih hrest]
      simp only [hwanted]
      rw [List.flatMap_cons, List.filter_append]
      rfl

namespace Plan

theorem symbolPrecedes_iff {a b : SymbolInfo} : symbolPrecedes a b = true ↔ a.NotBehind b := by
  rw [symbolPrecedes, compareLex, Ordering.isLE_then_iff_or, compareLex, Ordering.isLE_then_iff_or]
  simp only [compareOn, compare_lt_iff_lt, compare_eq_iff_eq, Position.compare_eq_lt,
    Position.compare_eq_eq, Std.LawfulBCmp.isLE_iff_le]
  rfl

theorem symbolPrecedes_trans (a b c : SymbolInfo) (h : symbolPrecedes a b = true)
    (h' : symbolPrecedes b c = true) : symbolPrecedes a c = true :=
  isLE_trans (compareLex (compareOn SymbolInfo.path)
    (compareLex (compareOn fun s : SymbolInfo => s.range.start) (compareOn SymbolInfo.name))) a b c h h'

theorem symbolPrecedes_total (a b : SymbolInfo) : (symbolPrecedes a b || symbolPrecedes b a) = true :=
  isLE_total (compareLex (compareOn SymbolInfo.path)
    (compareLex (compareOn fun s : SymbolInfo => s.range.start) (compareOn SymbolInfo.name))) a b

/-- A list in the order of an answer: by path, start and name, and where these are the same, as given. -/
structure Ranked (given ordered : List SymbolInfo) : Prop where
  perm : ordered.Perm given
  sorted : ordered.Pairwise SymbolInfo.NotBehind
  ties : ∀ path start name,
    ordered.filter (fun s => s.path = path ∧ s.range.start = start ∧ s.name = name) =
      given.filter fun s => s.path = path ∧ s.range.start = start ∧ s.name = name

theorem ranked_mergeSort (given : List SymbolInfo) : Ranked given (given.mergeSort symbolPrecedes) := by
  refine ⟨List.mergeSort_perm given symbolPrecedes, ?_, fun path start name => ?_⟩
  · have hsorted := List.pairwise_mergeSort symbolPrecedes_trans symbolPrecedes_total given
    exact hsorted.imp symbolPrecedes_iff.mp
  · refine filter_mergeSort symbolPrecedes_trans symbolPrecedes_total (fun a b ha hb => ?_) given
    obtain ⟨hpath, hstart, hname⟩ := of_decide_eq_true ha
    obtain ⟨hpath', hstart', hname'⟩ := of_decide_eq_true hb
    exact symbolPrecedes_iff.mpr (.inr ⟨hpath.trans hpath'.symm, .inr ⟨hstart.trans hstart'.symm,
      le_of_eq (hname.trans hname'.symm)⟩⟩)

section

variable {engine : Engine} {store now : Store} {snapshot : Snapshot} {text : String}
  {kindText : Option String} {pattern : Pattern} {kind : Option SymbolKind} {found : List SymbolInfo}
  {most : Nat}

/-- A search answers with the beginning of what it has found, in order. -/
theorem carriedOut_searchSymbols (hpublished : store.published = some snapshot)
    (hpattern : Pattern.ofText text = .ok pattern) (hkind : kindText.mapM SymbolKind.ofText = .ok kind)
    (hmost : 1 ≤ most) (hfound : engine.symbolsMatching snapshot pattern kind = .done found) :
    carriedOut now false (searchSymbols engine store text kindText most) =
      (.ok (.found ⟨(found.mergeSort symbolPrecedes).take most, found.length, most < found.length,
        snapshot.version⟩), now) := by
  have hbound : checkBound "maxResults" most = .ok () := by
    rw [checkBound, if_neg (Nat.ne_of_gt hmost)]
  have hplan : ∃ compute, searchSymbols engine store text kindText most = .ok (.work compute) ∧
      compute now = .done (.reply (.found ⟨(found.mergeSort symbolPrecedes).take most, found.length,
        most < found.length, snapshot.version⟩)) := by
    refine ⟨_, bind_eq_ok.mpr ⟨pattern, hpattern, bind_eq_ok.mpr ⟨kind, hkind, bind_eq_ok.mpr ⟨(), hbound,
      bind_eq_ok.mpr ⟨snapshot, Store.current_eq_ok.mpr hpublished, rfl⟩⟩⟩⟩, ?_⟩
    refine Outcome.bind_eq_done.mpr ⟨_, Outcome.bind_eq_done.mpr ⟨found,
      Outcome.mapError_eq_done.mpr hfound, rfl⟩, ?_⟩
    change Outcome.done (Finish.reply (.found ⟨(found.mergeSort symbolPrecedes).take most, found.length,
      most < (found.mergeSort symbolPrecedes).length, snapshot.version⟩)) = _
    rw [List.length_mergeSort]
  obtain ⟨compute, hplan, hcompute⟩ := hplan
  rw [hplan, carriedOut_of_reply hcompute]

end

end Plan

/-- A search finds every symbol of every document that has the kind that is asked for and a name that the
pattern accepts, as often as the engine reports it, by path, start and name, and otherwise in the order of
the reports. A request shows the beginning of this one list up to its bound, and says how long the list is
and whether the bound cuts it off; with a smaller bound it shows a beginning of what it shows with a greater
one. -/
theorem search_complete_and_ordered {engine : Engine} {store : Store} {snapshot : Snapshot} {text : String}
    {kindText : Option String} {pattern : Pattern} {kind : Option SymbolKind}
    {reported : Document → List SymbolInfo} (hpublished : store.published = some snapshot)
    (hdefault : engine.symbolsMatching snapshot pattern kind =
      matchingSymbols engine.documentSymbols pattern kind snapshot.allDocuments)
    (hreported : ∀ document ∈ snapshot.allDocuments,
      engine.documentSymbols document = .done (reported document))
    (hpattern : Pattern.ofText text = .ok pattern)
    (hkind : kindText.mapM SymbolKind.ofText = .ok kind) :
    ∃ all : List SymbolInfo,
      Plan.Ranked ((snapshot.allDocuments.flatMap reported).filter (SymbolInfo.Wanted pattern kind)) all ∧
      (∀ most request, 1 ≤ most → request.Asks (.searchSymbols text kindText most) →
        dispatch engine store request false =
          (.ok (.found ⟨all.take most, all.length, most < all.length, snapshot.version⟩), store.drawn)) ∧
      ∀ most most' request request', 1 ≤ most → most ≤ most' →
        request.Asks (.searchSymbols text kindText most) →
        request'.Asks (.searchSymbols text kindText most') →
        ∃ result result', (dispatch engine store request false).1 = .ok (.found result) ∧
          (dispatch engine store request' false).1 = .ok (.found result') ∧
          result.symbols <+: result'.symbols := by
  have hfound := hdefault.trans (matchingSymbols_eq_done hreported pattern kind)
  generalize (snapshot.allDocuments.flatMap reported).filter (SymbolInfo.Wanted pattern kind) = found
    at hfound ⊢
  have hranked := Plan.ranked_mergeSort found
  have hanswer : ∀ most (request : Request), 1 ≤ most →
      request.Asks (.searchSymbols text kindText most) →
      dispatch engine store request false =
        (.ok (.found ⟨(found.mergeSort Plan.symbolPrecedes).take most,
          (found.mergeSort Plan.symbolPrecedes).length,
          most < (found.mergeSort Plan.symbolPrecedes).length, snapshot.version⟩), store.drawn) := by
    intro most request hmost hasks
    rw [dispatch_of_asks hasks, hranked.perm.length_eq]
    exact Plan.carriedOut_searchSymbols hpublished hpattern hkind hmost hfound
  refine ⟨_, hranked, hanswer, ?_⟩
  intro most most' request request' hmost hle hasks hasks'
  refine ⟨_, _, congrArg Prod.fst (hanswer most request hmost hasks),
    congrArg Prod.fst (hanswer most' request' (hmost.trans hle) hasks'), ?_⟩
  exact List.take_prefix_take_left hle

/-- An engine that reports three symbols of each document, the first one in second place. -/
def trioEngine : Engine :=
  let reported : List SymbolInfo :=
    [⟨"N", .method, none, "a", .point ⟨1, 0⟩, .point ⟨1, 0⟩⟩,
      ⟨"MN", .method, none, "a", .point ⟨0, 0⟩, .point ⟨0, 0⟩⟩,
      ⟨"M", .method, none, "a", .point ⟨2, 0⟩, .point ⟨2, 0⟩⟩]
  { soloEngine with
    documentSymbols := fun _ => .done reported
    symbolsMatching := fun snapshot pattern kind =>
      matchingSymbols (fun _ => .done reported) pattern kind snapshot.allDocuments }

/-- A search for at most one symbol whose name ends in a letter says that it leaves one out, of the two that there
are; the symbol whose name does not is not counted. -/
theorem second_symbol_left_out : ∃ result,
    (dispatch trioEngine (soloWorld "x" (some (soloSnapshot 0 0 "x")) [] [0]).store
      ⟨"SearchSymbols", .array [.string "*N", .null, .nat 1]⟩ false).1 = .ok (.found result) ∧
    result.symbols.length = 1 ∧ result.totalMatches = 2 ∧ result.truncated = true ∧
    ∀ symbol ∈ result.symbols, symbol.name ≠ "M" := by
  have hasks : Request.Asks ⟨"SearchSymbols", .array [.string "*N", .null, .nat 1]⟩
      (.searchSymbols "*N" none 1) := ⟨.searchSymbols, rfl, rfl⟩
  have hpattern : Pattern.ofText "*N" =
      .ok ⟨"*N", ([.start, .many .any, .one (.literal 'N'), .stop] : List Regex.Part)⟩ := by rfl
  have hkind : (none : Option String).mapM SymbolKind.ofText = .ok none := rfl
  have hpublished : (soloWorld "x" (some (soloSnapshot 0 0 "x")) [] [0]).store.published =
      some (soloSnapshot 0 0 "x") := rfl
  have hdefault : ∀ pattern, trioEngine.symbolsMatching (soloSnapshot 0 0 "x") pattern none =
    matchingSymbols trioEngine.documentSymbols pattern none (soloSnapshot 0 0 "x").allDocuments := fun _ => rfl
  obtain ⟨all, hranked, hanswer, -⟩ :=
    search_complete_and_ordered hpublished (hdefault _) (fun _ _ => rfl) hpattern hkind
  have hlength : all.length = 2 := hranked.perm.length_eq
  have hnames : ∀ symbol ∈ all, symbol.name ≠ "M" := by
    intro symbol hmem hname
    obtain ⟨-, hwanted⟩ := List.mem_filter.mp (hranked.perm.subset hmem)
    have haccepts := (of_decide_eq_true hwanted).2
    rw [hname] at haccepts
    exact absurd haccepts (by decide)
  refine ⟨_, congrArg Prod.fst (hanswer 1 _ (Nat.le_refl 1) hasks), ?_, hlength, ?_, ?_⟩
  · rw [List.length_take, hlength]
    rfl
  · rw [hlength]
    rfl
  · exact fun symbol hmem => hnames symbol (List.mem_of_mem_take hmem)

end CodeIntel
