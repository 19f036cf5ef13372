import CodeIntel.Proofs.CSharp.Symbols
import CodeIntel.Proofs.Service.Searches
import CodeIntel.Proofs.Tree.Faults
import CodeIntel.Service.Encode

/-! The findings of a workspace. The engine orders the findings of each document, and the request sorts what
is left of them once more, by path and start alone. That moves nothing, so that the findings of the workspace
are those of its documents, one document after another; a severity only leaves out what is less severe; and
no fault of a document is left out, whatever the severity. -/

namespace CodeIntel

/-- Nothing is less severe than an information and nothing more than an error, and a warning is in between. -/
theorem Severity.rank_le_rank {a b : Severity} : a.rank ≤ b.rank ↔ a = .info ∨ a = b ∨ b = .error := by
  cases a <;> cases b <;> decide

namespace Diagnostic

/-- A finding does not stand behind another one: by path, then by start, by end and by code. -/
def NotBehind (a b : Diagnostic) : Prop :=
  a.path < b.path ∨ (a.path = b.path ∧
    (a.range.start < b.range.start ∨ (a.range.start = b.range.start ∧
      (a.range.stop < b.range.stop ∨ (a.range.stop = b.range.stop ∧ a.code ≤ b.code)))))

/-- A finding is as severe as is asked for, if anything is. -/
def Reaches (least : Option Severity) (x : Diagnostic) : Prop :=
  ∀ asked ∈ least, asked.rank ≤ x.severity.rank

theorem reaches_none (x : Diagnostic) : Reaches none x := by
  intro asked hasked
  cases hasked

theorem reaches_error {x : Diagnostic} : Reaches (some .error) x ↔ x.severity = .error := by
  simp [Reaches, Severity.rank_le_rank, eq_comm]

instance (least : Option Severity) : DecidablePred (Reaches least) := fun x =>
  inferInstanceAs (Decidable (∀ asked ∈ least, asked.rank ≤ x.severity.rank))

instance : Std.TransCmp byPlace :=
  inferInstanceAs (Std.TransCmp (compareLex _ (compareLex _ _)))

theorem precedes_iff {a b : Diagnostic} : precedes a b = true ↔
    a.range.start < b.range.start ∨ (a.range.start = b.range.start ∧
      (a.range.stop < b.range.stop ∨ (a.range.stop = b.range.stop ∧ a.code ≤ b.code))) := by
  rw [precedes, byPlace, compareLex, Ordering.isLE_then_iff_or, compareLex, Ordering.isLE_then_iff_or]
  simp only [compareOn, Position.compare_eq_lt, Position.compare_eq_eq, Std.LawfulBCmp.isLE_iff_le]

/-- The order of the request is coarser than that of the engine. -/
theorem NotBehind.placePrecedes {a b : Diagnostic} (h : a.NotBehind b) :
    Plan.placePrecedes Diagnostic.path (fun x => x.range.start) a b = true := by
  rw [Plan.placePrecedes, compareLex, Ordering.isLE_then_iff_or]
  simp only [compareOn, compare_lt_iff_lt, compare_eq_iff_eq]
  refine h.imp_right (And.imp_right fun hplace => ?_)
  rw [Ordering.isLE_iff_eq_lt_or_eq_eq, Position.compare_eq_lt, Position.compare_eq_eq]
  exact hplace.imp_right And.left

/-- Findings in order are not moved by sorting them by path and start. -/
theorem mergeSort_of_notBehind {all : List Diagnostic} (h : all.Pairwise NotBehind) :
    all.mergeSort (Plan.placePrecedes Diagnostic.path fun x => x.range.start) = all :=
  List.mergeSort_of_pairwise (h.imp NotBehind.placePrecedes)

end Diagnostic

/-! ### The findings of a document -/

/-- The finding of a fault, if the fault lies in the text. -/
def ParseFault.reported (d : Document) (fault : ParseFault) : Diagnostic :=
  ⟨d.path, d.extent fault.span, .error, fault.code, fault.message⟩

/-- The findings of a document whose faults and handlers lie in the text. -/
def Document.findings (d : Document) (index : Index) : List Diagnostic :=
  let faults := index.faults.map (ParseFault.reported d)
  let catches := index.emptyCatches.map fun span =>
    (⟨d.path, d.extent span, .warning, "SL1001", "Empty catch block swallows exceptions"⟩ : Diagnostic)
  let complex := index.methods.filterMap (complexityDiagnostic? d)
  (faults ++ catches ++ complex).mergeSort Diagnostic.precedes

section

variable {d : Document} {t node : Tree} {index : Index}

theorem documentDiagnostics_eq (h : t.InText d) (hbuild : Index.build d t = .ok index) :
    documentDiagnostics d index = .ok (d.findings index) := by
  have hnode : ∀ {span node}, node ∈ t.subtrees → span = node.span →
      Visit.range d span = .ok (d.extent span) := by
    rintro span node hnode rfl
    obtain ⟨text, htext⟩ := h node hnode
    exact Visit.range_of_slice? htext
  have hfaults : faultDiagnostics d index.faults = .ok (index.faults.map (ParseFault.reported d)) := by
    refine mapM_of_forall _ fun fault hfault => ?_
    obtain ⟨node, hmem, hspan⟩ := Index.exists_node_of_fault hbuild hfault
    rw [ParseFault.diagnostic, hnode hmem hspan]
    rfl
  have hcatches : index.emptyCatches.mapM (emptyCatchDiagnostic d) =
      .ok (index.emptyCatches.map fun span =>
        ⟨d.path, d.extent span, .warning, "SL1001", "Empty catch block swallows exceptions"⟩) := by
    refine mapM_of_forall _ fun span hspan => ?_
    obtain ⟨node, hmem, hspan⟩ := Index.exists_node_of_catch hbuild hspan
    rw [emptyCatchDiagnostic, hnode hmem hspan]
    rfl
  rw [documentDiagnostics, hfaults, hcatches]
  rfl

theorem path_of_mem_findings {x : Diagnostic} (h : x ∈ d.findings index) : x.path = d.path := by
  rw [Document.findings, List.mem_mergeSort, List.mem_append, List.mem_append] at h
  rcases h with (hfault | hcatch) | hcomplex
  · obtain ⟨fault, -, rfl⟩ := List.mem_map.mp hfault
    rfl
  · obtain ⟨span, -, rfl⟩ := List.mem_map.mp hcatch
    rfl
  · obtain ⟨method, -, hmethod⟩ := List.mem_filterMap.mp hcomplex
    unfold complexityDiagnostic? at hmethod
    dsimp only at hmethod
    split at hmethod
    · obtain rfl := Option.some.inj hmethod
      rfl
    · cases hmethod

theorem findings_ordered (d : Document) (index : Index) :
    (d.findings index).Pairwise Diagnostic.NotBehind := by
  have hsorted : (d.findings index).Pairwise fun a b => Diagnostic.precedes a b = true :=
    List.pairwise_mergeSort (isLE_trans Diagnostic.byPlace) (isLE_total Diagnostic.byPlace) _
  refine hsorted.imp_of_mem fun {a b} ha hb hprecedes => .inr ⟨?_, Diagnostic.precedes_iff.mp hprecedes⟩
  rw [path_of_mem_findings ha, path_of_mem_findings hb]

/-- Whatever stands wrong in a tree lies in a fault that is reported. -/
theorem exists_finding_around (h : t.Nests d) (hbuild : Index.build d t = .ok index)
    (hroot : t.head.hasError = true) (hnode : node ∈ t.subtrees) (hfault : node.isFault = true) :
    ∃ x ∈ d.findings index, x.severity = .error ∧ (x.code = "SL0001" ∨ x.code = "SL0002") ∧
      ∃ span, d.rangeOf span = .ok x.range ∧ span.start ≤ node.span.start ∧
        node.span.stop ≤ span.stop := by
  obtain ⟨fault, hmem, haround⟩ := h.exists_fault_around hnode hfault
  have hindex : fault ∈ index.faults := by
    rw [Index.faults_of_build hbuild, Tree.faults, if_pos hroot]
    exact hmem
  obtain ⟨around, haround', hspan⟩ := Index.exists_node_of_fault hbuild hindex
  obtain ⟨text, htext⟩ := h.inText around haround'
  refine ⟨fault.reported d, ?_, rfl, ?_, fault.span, ?_, haround⟩
  · rw [Document.findings, List.mem_mergeSort]
    exact List.mem_append_left _ (List.mem_append_left _ (List.mem_map_of_mem hindex))
  · rw [ParseFault.reported, ParseFault.code]
    split
    · exact .inr rfl
    · exact .inl rfl
  · rw [ParseFault.reported, hspan]
    exact Document.rangeOf_of_slice? htext

end

/-! ### What is answered -/

theorem severityCounts_add_up (all : List Diagnostic) :
    severityCount .error all + severityCount .warning all + severityCount .info all = all.length := by
  induction all with
  | nil => rfl
  | cons x rest ih =>
      simp only [severityCount, List.filter_cons, List.length_cons] at ih ⊢
      cases hseverity : x.severity <;> simp <;> omega

/-- The members of an answer that count its findings. -/
theorem get?_severityCounts (all : List Diagnostic) :
    (Answer.diagnostics all).toJson.get? "diagnostics" = some (.array (all.map Diagnostic.toJson)) ∧
    (Answer.diagnostics all).toJson.get? "errorCount" = some (.nat (severityCount .error all)) ∧
    (Answer.diagnostics all).toJson.get? "warningCount" = some (.nat (severityCount .warning all)) ∧
    (Answer.diagnostics all).toJson.get? "infoCount" = some (.nat (severityCount .info all)) := by
  simp [Answer.toJson, Json.get?, Json.ofMembers, Json.orderedMembers, Json.member?_insertMember_of_ne,
    Json.member?_insertMember_self]

namespace Plan

variable {engine : Engine} {store now : Store} {snapshot : Snapshot} {file severity : Option String}
  {least : Option Severity} {path : Option String} {document : Option Document} {found : List Diagnostic}

/-- Where the engine gives findings in order, those that are severe enough are the answer. -/
theorem carriedOut_diagnostics (hpublished : store.published = some snapshot)
    (hleast : severity.mapM Severity.ofText = .ok least)
    (hfile : file.mapM (fileOf store snapshot) = .ok path)
    (hdocument : path.mapM (documentOf snapshot) = .done document)
    (hfound : engine.diagnostics snapshot document = .done found)
    (hordered : found.Pairwise Diagnostic.NotBehind) :
    carriedOut now false (diagnostics engine store file severity) =
      (.ok (.diagnostics (found.filter (Diagnostic.Reaches least))), now) := by
  have hkept : (found.filter fun x : Diagnostic => least.all fun least => x.severity.atLeast least) =
      found.filter (Diagnostic.Reaches least) := by
    refine List.filter_congr fun x _ => ?_
    rw [Bool.eq_iff_iff, decide_eq_true_iff, Diagnostic.Reaches]
    cases least <;> simp [Severity.atLeast]
  have hplan : ∃ compute, diagnostics engine store file severity = .ok (.work compute) ∧
      compute now = .done (.reply (.diagnostics (found.filter (Diagnostic.Reaches least)))) := by
    refine ⟨_, bind_eq_ok.mpr ⟨least, hleast, bind_eq_ok.mpr ⟨snapshot, Store.current_eq_ok.mpr hpublished,
      bind_eq_ok.mpr ⟨path, hfile, rfl⟩⟩⟩, ?_⟩
    refine Outcome.bind_eq_done.mpr ⟨_, Outcome.bind_eq_done.mpr ⟨document, hdocument,
      Outcome.bind_eq_done.mpr ⟨found, Outcome.mapError_eq_done.mpr hfound, rfl⟩⟩, ?_⟩
    rw [hkept, Diagnostic.mergeSort_of_notBehind (hordered.sublist List.filter_sublist)]
    rfl
  obtain ⟨compute, hplan, hanswer⟩ := hplan
  rw [hplan]
  exact carriedOut_of_reply hanswer

end Plan

namespace CSharp

variable {parser : Parser} {snapshot : Snapshot}

/-- The findings of a document by itself. -/
theorem Parser.Nests.diagnostics_eq (h : parser.Nests snapshot) {d : Document}
    (hmem : d ∈ snapshot.allDocuments) :
    (indexOf parser d >>= documentDiagnostics d) = .ok (d.findings (indexed parser d)) := by
  obtain ⟨hindex, t, hparse, hnests, -⟩ := h.indexOf_eq hmem
  have hbuild := (indexOf_eq_build hparse).symm.trans hindex
  rw [hindex]
  exact documentDiagnostics_eq hnests.inText hbuild

/-- The findings of a workspace are those of its documents. -/
theorem Parser.Nests.diagnostics_none (h : parser.Nests snapshot) :
    diagnostics parser snapshot none =
      .ok (snapshot.allDocuments.flatMap fun d => d.findings (indexed parser d)) := by
  have hall : snapshot.allDocuments.mapM (fun d => do documentDiagnostics d (← indexOf parser d)) =
      .ok (snapshot.allDocuments.map fun d => d.findings (indexed parser d)) :=
    mapM_of_forall _ fun d hmem => h.diagnostics_eq hmem
  rw [diagnostics, hall, List.flatMap_def]
  rfl

theorem findings_of_all_ordered (parser : Parser) (hfiled : Filed snapshot.documents) :
    (snapshot.allDocuments.flatMap fun d => d.findings (indexed parser d)).Pairwise
      Diagnostic.NotBehind := by
  refine List.pairwise_flatMap.mpr ⟨fun d _ => findings_ordered d _, ?_⟩
  refine hfiled.ordered.imp fun {first second} hpath x hx y hy => .inl ?_
  rw [path_of_mem_findings hx, path_of_mem_findings hy]
  exact hpath

/-- A request for the findings of one document is answered with those that are severe enough. -/
theorem Parser.Nests.dispatch_diagnostics (h : parser.Nests snapshot) (hfiled : Filed snapshot.documents)
    {store : Store} (hpublished : store.published = some snapshot) {severity : Option String}
    {least : Option Severity} (hleast : severity.mapM Severity.ofText = .ok least) {d : Document}
    (hmem : d ∈ snapshot.allDocuments) {file : String} {request : Request}
    (hfile : store.disk.normal? snapshot.root file = some d.path)
    (hasks : request.Asks (.getDiagnostics (some file) severity)) :
    dispatch (engine parser) store request false =
      (.ok (.diagnostics ((d.findings (indexed parser d)).filter (Diagnostic.Reaches least))),
        store.drawn) := by
  have hdocument := Snapshot.document?_of_mem hfiled hmem
  have hpath : (some file).mapM (Plan.fileOf store snapshot) = .ok (some d.path) :=
    bind_eq_ok.mpr ⟨d.path, Plan.fileOf_eq_ok hdocument hfile, rfl⟩
  have hof : (some d.path).mapM (Plan.documentOf snapshot) = .done (some d) :=
    Outcome.bind_eq_done.mpr ⟨d, by rw [Plan.documentOf, hdocument], rfl⟩
  have hfound : (engine parser).diagnostics snapshot (some d) = .done _ :=
    Outcome.ofExcept_eq_done.mpr (h.diagnostics_eq hmem)
  rw [dispatch_of_asks hasks]
  exact Plan.carriedOut_diagnostics hpublished hleast hpath hof hfound (findings_ordered d _)

/-- The findings of a workspace are the lists of its documents, one after another in path order, each list in
order and, under a severity, without the less severe of its findings; the counts of an answer are exact and
add up; and every node that does not parse or is missing lies in a fault that is reported for its document. -/
theorem workspace_findings_are_those_of_documents (h : parser.Nests snapshot)
    (hfiled : Filed snapshot.documents) :
    snapshot.allDocuments.Pairwise (fun first second => first.path < second.path) ∧
    (∃ listOf : Document → List Diagnostic,
      (∀ (store : Store) (severity : Option String) (least : Option Severity),
        store.published = some snapshot → severity.mapM Severity.ofText = .ok least →
        (∀ request : Request, request.Asks (.getDiagnostics none severity) →
          dispatch (engine parser) store request false =
            (.ok (.diagnostics (snapshot.allDocuments.flatMap fun d =>
              (listOf d).filter (Diagnostic.Reaches least))), store.drawn)) ∧
        ∀ d ∈ snapshot.allDocuments, ∀ (file : String) (request : Request),
          store.disk.normal? snapshot.root file = some d.path →
          request.Asks (.getDiagnostics (some file) severity) →
          dispatch (engine parser) store request false =
            (.ok (.diagnostics ((listOf d).filter (Diagnostic.Reaches least))), store.drawn)) ∧
      (∀ least : Option Severity, (snapshot.allDocuments.flatMap fun d =>
        (listOf d).filter (Diagnostic.Reaches least)).Pairwise Diagnostic.NotBehind) ∧
      ∀ d ∈ snapshot.allDocuments,
        (listOf d).Pairwise Diagnostic.NotBehind ∧
        ∀ t, parser d.text = some t →
          ((∃ node ∈ t.subtrees, node.isFault = true) → t.head.hasError = true) →
          ∀ node ∈ t.subtrees, node.isFault = true → ∀ least : Option Severity,
            ∃ x ∈ (listOf d).filter (Diagnostic.Reaches least), (x.code = "SL0001" ∨ x.code = "SL0002") ∧
              ∃ span, d.rangeOf span = .ok x.range ∧ span.start ≤ node.span.start ∧
                node.span.stop ≤ span.stop) ∧
    ∀ all : List Diagnostic, ∃ errors warnings infos,
      (Answer.diagnostics all).toJson.get? "diagnostics" = some (.array (all.map Diagnostic.toJson)) ∧
      (Answer.diagnostics all).toJson.get? "errorCount" = some (.nat errors) ∧
      (Answer.diagnostics all).toJson.get? "warningCount" = some (.nat warnings) ∧
      (Answer.diagnostics all).toJson.get? "infoCount" = some (.nat infos) ∧
      errors = all.countP (fun x => x.severity = .error) ∧
      warnings = all.countP (fun x => x.severity = .warning) ∧
      infos = all.countP (fun x => x.severity = .info) ∧ errors + warnings + infos = all.length := by
  refine ⟨hfiled.ordered, ⟨fun d => d.findings (indexed parser d), ?_, fun least => ?_, fun d hmem => ?_⟩,
    fun all => ?_⟩
  · intro store severity least hpublished hleast
    refine ⟨fun request hasks => ?_, fun d hmem file request hfile hasks => ?_⟩
    · have hfound : (engine parser).diagnostics snapshot none = .done _ :=
        Outcome.ofExcept_eq_done.mpr h.diagnostics_none
      rw [dispatch_of_asks hasks, ← List.filter_flatMap]
      exact Plan.carriedOut_diagnostics hpublished hleast rfl rfl hfound
        (findings_of_all_ordered parser hfiled)
    · exact h.dispatch_diagnostics hfiled hpublished hleast hmem hfile hasks
  · rw [← List.filter_flatMap]
    exact (findings_of_all_ordered parser hfiled).sublist List.filter_sublist
  · refine ⟨findings_ordered d _, fun t hparse hflagged node hnode hfault least => ?_⟩
    obtain ⟨hindex, t', hparse', hnests, -⟩ := h.indexOf_eq hmem
    obtain rfl := Option.some.inj (hparse.symm.trans hparse')
    have hbuild := (indexOf_eq_build hparse).symm.trans hindex
    obtain ⟨x, hx, hsevere, hcode, haround⟩ :=
      exists_finding_around hnests hbuild (hflagged ⟨node, hnode, hfault⟩) hnode hfault
    refine ⟨x, List.mem_filter.mpr ⟨hx, decide_eq_true fun asked _ => ?_⟩, hcode, haround⟩
    rw [hsevere]
    cases asked <;> decide
  · obtain ⟨hall, herrors, hwarnings, hinfos⟩ := get?_severityCounts all
    exact ⟨_, _, _, hall, herrors, hwarnings, hinfos, List.countP_eq_length_filter.symm,
      List.countP_eq_length_filter.symm, List.countP_eq_length_filter.symm, severityCounts_add_up all⟩

/-! ### Two documents that do not parse -/

/-- A node that is wrong: text that fits no rule, or a token that is missing. -/
def wrongNode (kind : String) (isMissing : Bool) (start stop : Nat) (children : List Tree) : Tree :=
  .node ⟨kind, true, !isMissing, isMissing, true, ⟨start, stop⟩, []⟩ children

/-- A tree of text that fits no rule, with more of it inside. -/
def strayTree : Tree :=
  faultyNode "compilation_unit" 0 3 [] [wrongNode "ERROR" false 0 3 [wrongNode "ERROR" false 2 3 []]]

/-- A tree in which a token is missing, behind a handler with nothing in it. -/
def unclosedTree : Tree :=
  faultyNode "compilation_unit" 0 3 []
    [soundNode "identifier" true 0 1 [] [],
      soundNode "catch_clause" true 1 3 [("body", 0)] [soundNode "block" true 1 3 [] []],
      wrongNode ";" true 3 3 []]

/-- The document of the first tree. -/
def strayDocument : Document := ⟨"a", "@ \x7d", 0⟩

/-- The document of the second tree. -/
def unclosedDocument : Document := ⟨"b", "x\x7b\x7d", 0⟩

/-- A workspace of the two documents. -/
def wrongSnapshot : Snapshot := pairSnapshot strayDocument.text unclosedDocument.text

/-- A store with this workspace. -/
def wrongStore : Store := (soloWorld "" (some wrongSnapshot) [] [0]).store

/-- A parser that knows the two documents. -/
def wrongParser : Parser := fun text =>
  if text = "x\x7b\x7d" then some unclosedTree else if text = "@ \x7d" then some strayTree else none

theorem flatMap_wrongSnapshot {α : Type} (f : Document → List α) :
    wrongSnapshot.allDocuments.flatMap f = f strayDocument ++ f unclosedDocument := by
  rw [show wrongSnapshot.allDocuments = [strayDocument, unclosedDocument] from rfl, List.flatMap_cons,
    List.flatMap_singleton]

theorem wrongParser_nests : wrongParser.Nests wrongSnapshot := by
  intro d hmem
  have hstray : strayTree.Nests strayDocument :=
    ⟨by decide +kernel, by decide +kernel, by decide +kernel, by decide +kernel⟩
  have hunclosed : unclosedTree.Nests unclosedDocument :=
    ⟨by decide +kernel, by decide +kernel, by decide +kernel, by decide +kernel⟩
  rcases mem_pairSnapshot.mp hmem with rfl | rfl
  · exact ⟨strayTree, rfl, hstray⟩
  · exact ⟨unclosedTree, rfl, hunclosed⟩

theorem catches_of_unclosed :
    (indexed wrongParser unclosedDocument).emptyCatches = [⟨1, 3⟩] := by decide +kernel

/-- Without a severity the second document is answered with all of its findings, a warning among them. -/
theorem exists_warning_of_unclosed {found : List Diagnostic} {after : Store}
    (h : dispatch (engine wrongParser) wrongStore
      ⟨"GetDiagnostics", .array [.string "b"]⟩ false = (.ok (.diagnostics found), after)) :
    ∃ x ∈ found, x.severity = .warning := by
  have hmem : unclosedDocument ∈ wrongSnapshot.allDocuments := mem_pairSnapshot.mpr (.inr rfl)
  have hpublished : wrongStore.published = some wrongSnapshot := rfl
  have hleast : (none : Option String).mapM Severity.ofText = .ok none := rfl
  have hfile : wrongStore.disk.normal? wrongSnapshot.root "b" =
      some "b" := by decide +kernel
  have hasks : Request.Asks ⟨"GetDiagnostics", .array [.string "b"]⟩ (.getDiagnostics (some "b") none) :=
    ⟨.getDiagnostics, rfl, rfl⟩
  have hfindings :=
    wrongParser_nests.dispatch_diagnostics (filed_pairSnapshot _ _) hpublished hleast hmem hfile hasks
  obtain ⟨hsame, -⟩ := Prod.mk.inj (h.symm.trans hfindings)
  obtain rfl := Answer.diagnostics.inj (Except.ok.inj hsame)
  let empty : Diagnostic :=
    ⟨"b", unclosedDocument.extent ⟨1, 3⟩, .warning, "SL1001", "Empty catch block swallows exceptions"⟩
  refine ⟨empty, List.mem_filter.mpr ⟨?_, decide_eq_true (Diagnostic.reaches_none _)⟩, rfl⟩
  rw [Document.findings, List.mem_mergeSort, catches_of_unclosed]
  exact List.mem_append_left _ (List.mem_append_right _ List.mem_cons_self)

/-- The errors of the two documents are those of each of them, and the text inside other text that fits no
rule is reported with that. Of the findings of the second one a warning is left out when errors are asked
for. -/
theorem stray_text_reported : ∃ first second whole : List Diagnostic,
    (dispatch (engine wrongParser) wrongStore ⟨"GetDiagnostics", .array [.string "a", .string "error"]⟩ false).1 =
      .ok (.diagnostics first) ∧
    (dispatch (engine wrongParser) wrongStore ⟨"GetDiagnostics", .array [.string "b", .string "error"]⟩ false).1 =
      .ok (.diagnostics second) ∧
    (dispatch (engine wrongParser) wrongStore ⟨"GetDiagnostics", .array [.null, .string "error"]⟩ false).1 =
      .ok (.diagnostics (first ++ second)) ∧
    (dispatch (engine wrongParser) wrongStore ⟨"GetDiagnostics", .array [.string "b"]⟩ false).1 =
      .ok (.diagnostics whole) ∧
    (∃ x ∈ first, ∃ span, strayDocument.rangeOf span = .ok x.range ∧ span.start ≤ 2 ∧
      3 ≤ span.stop) ∧
    (∃ x ∈ second, x.code = "SL0001" ∨ x.code = "SL0002") ∧
    ∃ x ∈ whole, x.severity = .warning ∧ x ∉ second := by
  obtain ⟨-, ⟨listOf, hanswers, -, hlists⟩, -⟩ :=
    workspace_findings_are_those_of_documents wrongParser_nests (filed_pairSnapshot _ _)
  have hleast : (some "error").mapM Severity.ofText = .ok (some .error) := rfl
  obtain ⟨hall, hone⟩ := hanswers wrongStore _ _ rfl hleast
  obtain ⟨-, hwhole⟩ := hanswers wrongStore none none rfl rfl
  have hfirst : strayDocument ∈ wrongSnapshot.allDocuments :=
    mem_pairSnapshot.mpr (.inl rfl)
  have hsecond : unclosedDocument ∈ wrongSnapshot.allDocuments :=
    mem_pairSnapshot.mpr (.inr rfl)
  have hinner : wrongNode "ERROR" false 2 3 [] ∈ strayTree.subtrees := by
    simp [strayTree, faultyNode, wrongNode, Tree.subtrees, Tree.subtreesOf]
  have hmissing : wrongNode ";" true 3 3 [] ∈ unclosedTree.subtrees := by
    simp [unclosedTree, faultyNode, soundNode, wrongNode, Tree.subtrees, Tree.subtreesOf]
  obtain ⟨x, hx, -, haround⟩ :=
    (hlists _ hfirst).2 strayTree rfl (fun _ => rfl) _ hinner rfl (some .error)
  obtain ⟨y, hy, hcode, -⟩ :=
    (hlists _ hsecond).2 unclosedTree rfl (fun _ => rfl) _ hmissing rfl (some .error)
  have hasks : Request.Asks ⟨"GetDiagnostics", .array [.string "b"]⟩ (.getDiagnostics (some "b") none) :=
    ⟨.getDiagnostics, rfl, rfl⟩
  have hanswer := hwhole _ hsecond "b" _ (by decide +kernel) hasks
  obtain ⟨z, hz, hwarning⟩ := exists_warning_of_unclosed hanswer
  refine ⟨_, _, _, ?_, ?_, ?_, congrArg Prod.fst hanswer, ⟨x, hx, haround⟩, ⟨y, hy, hcode⟩, z, hz, hwarning,
    fun hmem => ?_⟩
  · exact congrArg Prod.fst (hone _ hfirst "a" _ (by decide +kernel) ⟨.getDiagnostics, rfl, rfl⟩)
  · exact congrArg Prod.fst (hone _ hsecond "b" _ (by decide +kernel) ⟨.getDiagnostics, rfl, rfl⟩)
  · have hanswer := congrArg Prod.fst
      (hall ⟨"GetDiagnostics", .array [.null, .string "error"]⟩ ⟨.getDiagnostics, rfl, rfl⟩)
    rw [flatMap_wrongSnapshot] at hanswer
    exact hanswer
  · have herror := Diagnostic.reaches_error.mp (of_decide_eq_true (List.mem_filter.mp hmem).2)
    rw [hwarning] at herror
    cases herror

end CSharp

end CodeIntel
