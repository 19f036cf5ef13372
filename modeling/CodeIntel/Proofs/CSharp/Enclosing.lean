import CodeIntel.Proofs.CSharp.MethodSource
import CodeIntel.Proofs.CSharp.References
import CodeIntel.Proofs.Service.Batches
import CodeIntel.Proofs.Tree.Methods

/-! The method around a position. A cursor that asks for a method means, off every name, the one of the fewest
bytes around it; a request for measures takes the one of the fewest lines and, among those of as many, the one
that ends in the earliest column. Both choose among the same methods, so that either finds one whenever the
other does. Columns are no lengths, though: the two choices agree exactly if the method of the fewest bytes
holds its own by its lines and columns too. -/

namespace CodeIntel

/-- A range goes over fewer lines than another one, or over as many and ends in an earlier column. -/
def Range.Tighter (a b : Range) : Prop :=
  a.stop.line - a.start.line < b.stop.line - b.start.line ∨
    (a.stop.line - a.start.line = b.stop.line - b.start.line ∧ a.stop.column < b.stop.column)

instance (a b : Range) : Decidable (a.Tighter b) :=
  inferInstanceAs (Decidable (_ ∨ _))

theorem Range.Tighter.asymm {a b : Range} (h : a.Tighter b) : ¬ b.Tighter a := by
  unfold Tighter at h ⊢
  omega

namespace MethodInfo

/-- A method as its measures are reported. -/
def measured (m : MethodInfo) : MethodComplexity := ⟨m.name, m.container, m.range, m.metrics⟩

/-- A method has the range of its span, and both ends of the span have positions. -/
structure Ranged (d : Document) (m : MethodInfo) : Prop where
  range : m.range = d.extent m.span
  addressed : d.Addressed m.span

/-- Another method around the same offset does not take the place of a method by its lines and columns: if it
is around the method, it begins on an earlier line or ends behind it; if it ends where the method begins, the
method is the tighter one; and if it begins where the method ends, it is not the tighter one. -/
@[mk_iff]
structure Withstands (m n : MethodInfo) : Prop where
  around : n.span.Encloses m.span → n.range.start.line < m.range.start.line ∨ m.span.stop < n.span.stop
  before : n.span.stop = m.span.start → m.range.Tighter n.range
  behind : m.span.stop = n.span.start → ¬ n.range.Tighter m.range

instance (m n : MethodInfo) : Decidable (m.Withstands n) :=
  decidable_of_iff _ (withstands_iff m n).symm

end MethodInfo

theorem Plan.isTighter_iff {a b : MethodComplexity} : isTighter a b = true ↔ ¬ b.range.Tighter a.range := by
  simp only [isTighter, Range.Tighter, Bool.or_eq_true, Bool.and_eq_true, decide_eq_true_eq, beq_iff_eq]
  omega

namespace Index

variable {d : Document} {t : Tree} {index : Index} {m n : MethodInfo} {offset : Nat}

theorem Records.ranged (h : Records d t index) (haddresses : t.AddressesMethods d)
    (hm : m ∈ index.methods) : m.Ranged d := by
  obtain ⟨hrange, x, hx, hkind, hspan⟩ := h.declares m hm
  obtain ⟨member, node, name, hstands, hcallable, -, hspan', -⟩ := h.placed x hx hkind
  refine ⟨hrange, ?_⟩
  rw [← hspan, hspan']
  exact haddresses node hstands.mem_subtrees hcallable

/-- The method that a request for measures takes at an offset. -/
def tightest? (index : Index) (offset : Nat) : Option MethodInfo :=
  firstLeast? (fun a b => Plan.isTighter a.measured b.measured)
    (index.methods.filter fun m => m.span.touches offset)

theorem tightest?_eq_none_iff : index.tightest? offset = none ↔ index.methodContaining? offset = none := by
  rw [tightest?, methodContaining?, firstLeast?_eq_none_iff, firstLeast?_eq_none_iff]

theorem tightest?_eq_some_iff : index.tightest? offset = some m ↔ ∃ before behind,
    (index.methods.filter fun m => m.span.touches offset) = before ++ m :: behind ∧
      (∀ n ∈ before, m.range.Tighter n.range) ∧ ∀ n ∈ behind, ¬ n.range.Tighter m.range := by
  rw [tightest?, firstLeast?_eq_some_iff]
  · simp only [Bool.eq_false_iff, ne_eq, Plan.isTighter_iff, not_not]
    rfl
  · intro a b c
    simp only [Plan.isTighter_iff, Range.Tighter]
    omega
  · intro a b
    simp only [Plan.isTighter_iff, Range.Tighter]
    omega

theorem methodContaining?_eq_some_iff : index.methodContaining? offset = some m ↔ ∃ before behind,
    (index.methods.filter fun m => m.span.touches offset) = before ++ m :: behind ∧
      (∀ n ∈ before, m.span.stop - m.span.start < n.span.stop - n.span.start) ∧
      ∀ n ∈ behind, m.span.stop - m.span.start ≤ n.span.stop - n.span.start := by
  rw [methodContaining?, firstLeast?_eq_some_iff]
  · simp only [decide_eq_false_iff_not, decide_eq_true_eq, Nat.not_le]
  · intro a b c
    simp only [decide_eq_true_eq]
    omega
  · intro a b
    simp only [decide_eq_true_eq]
    omega

end Index

namespace MethodInfo

variable {d : Document} {m n : MethodInfo} {offset : Nat}

/-- Of two methods around the same text the inner one is tighter unless the outer one begins on the same line
and ends at the same place. -/
theorem Ranged.tighter_iff (hm : m.Ranged d) (hn : n.Ranged d) (haround : n.span.Encloses m.span) :
    m.range.Tighter n.range ↔ n.range.start.line < m.range.start.line ∨ m.span.stop < n.span.stop := by
  obtain ⟨text, htext⟩ := hm.addressed.inText
  obtain ⟨_, _, -, hstart, hstop⟩ := Document.exists_of_slice? htext
  rw [hm.range, hn.range, ← Lines.lt_iff_offset_lt hm.addressed.offsetAt_stop hn.addressed.offsetAt_stop]
  have hwide : (d.extent m.span).start ≤ (d.extent m.span).stop := Lines.locate_mono _ (by omega)
  have hstarts : (d.extent n.span).start ≤ (d.extent m.span).start := Lines.locate_mono _ haround.1
  have hstops : (d.extent m.span).stop ≤ (d.extent n.span).stop := Lines.locate_mono _ haround.2
  simp only [Range.Tighter, Position.lt_def, Position.le_def] at *
  omega

/-- A method that is tighter than another one withstands it. -/
theorem withstands_of_tighter (hm : m.Ranged d) (hn : n.Ranged d) (h : m.range.Tighter n.range) :
    m.Withstands n where
  around haround := (hm.tighter_iff hn haround).mp h
  before _ := h
  behind _ := h.asymm

/-- A method that withstands one that leads it is tighter. -/
theorem Withstands.tighter (h : m.Withstands n) (hm : m.Ranged d) (hn : n.Ranged d) (hleads : n.Leads m)
    (htouches : m.span.touches offset = true) (htouches' : n.span.touches offset = true) :
    m.range.Tighter n.range := by
  simp only [Span.touches, Bool.and_eq_true, decide_eq_true_eq] at htouches htouches'
  rcases hleads with haround | hbefore
  · exact (hm.tighter_iff hn haround).mpr (h.around haround)
  · exact h.before (by omega)

/-- Behind a method that is no longer, another one is withstood exactly if it is not tighter. -/
theorem withstands_iff_of_leads (hleads : m.Leads n) (hne : n.span ≠ m.span)
    (hshort : m.span.stop - m.span.start ≤ n.span.stop - n.span.start)
    (htouches : m.span.touches offset = true) (htouches' : n.span.touches offset = true) :
    m.Withstands n ↔ ¬ n.range.Tighter m.range := by
  simp only [Span.touches, Bool.and_eq_true, decide_eq_true_eq] at htouches htouches'
  have hapart : ¬ (n.span.Encloses m.span ∧ m.span.Encloses n.span) := fun h => hne (h.1.antisymm h.2)
  unfold Span.Encloses at hapart
  -- A method that is no longer than one inside of it has the span of that, so that the two meet at the offset.
  have hbehind : m.span.stop = n.span.start := by
    rcases hleads with ⟨hstart, hstop⟩ | hbefore <;> omega
  have hwide : m.span.stop < n.span.stop := by omega
  exact ⟨fun h => h.behind hbehind, fun h => ⟨fun _ => .inr hwide, fun _ => by omega, fun _ => h⟩⟩

end MethodInfo

namespace Index

variable {d : Document} {index : Index} {m : MethodInfo} {offset : Nat}

/-- What stands before a method around an offset leads it, and it leads what stands behind it. -/
theorem leads_around {before behind : List MethodInfo} (hleads : index.methods.Pairwise MethodInfo.Leads)
    (hall : (index.methods.filter fun m => m.span.touches offset) = before ++ m :: behind) :
    (∀ n ∈ before, n.Leads m) ∧ ∀ n ∈ behind, m.Leads n := by
  have hordered := hleads.sublist (List.filter_sublist (p := fun m => m.span.touches offset))
  rw [hall] at hordered
  obtain ⟨-, hbehind, hbefore⟩ := List.pairwise_append.mp hordered
  exact ⟨fun n hn => hbefore n hn m List.mem_cons_self, (List.pairwise_cons.mp hbehind).1⟩

/-- The tightest method is the one of the fewest bytes exactly if that one withstands all others. -/
theorem tightest?_eq_iff (hleads : index.methods.Pairwise MethodInfo.Leads)
    (hranged : ∀ m ∈ index.methods, m.Ranged d) (hm : index.methodContaining? offset = some m) :
    index.tightest? offset = some m ↔ ∀ n ∈ index.methods, n.span.touches offset = true →
      n.span ≠ m.span → m.Withstands n := by
  obtain ⟨before, behind, hall, hlonger, hlong⟩ := methodContaining?_eq_some_iff.mp hm
  obtain ⟨hlead, hled⟩ := leads_around hleads hall
  have hmember : ∀ n, (n ∈ index.methods ∧ n.span.touches offset = true) ↔ n ∈ before ++ m :: behind :=
    fun n => by rw [← hall, List.mem_filter]
  obtain ⟨hmem, htouches⟩ := (hmember m).mpr (by simp)
  constructor
  · intro h n hn hn' hne
    -- The two choices need not split the methods at the same place.
    obtain ⟨first, rest, hsplit, htighter, hnot⟩ := tightest?_eq_some_iff.mp h
    have hshort : m.span.stop - m.span.start ≤ n.span.stop - n.span.start := by
      rcases List.mem_append.mp ((hmember n).mp ⟨hn, hn'⟩) with hmember | hmember
      · exact Nat.le_of_lt (hlonger n hmember)
      · rcases List.mem_cons.mp hmember with rfl | hmember
        · exact Nat.le_refl _
        · exact hlong n hmember
    have hside : n ∈ first ++ m :: rest := hsplit ▸ List.mem_filter.mpr ⟨hn, hn'⟩
    rcases List.mem_append.mp hside with hside | hside
    · exact MethodInfo.withstands_of_tighter (hranged m hmem) (hranged n hn) (htighter n hside)
    · have hside := (List.mem_cons.mp hside).resolve_left fun heq => hne (heq ▸ rfl)
      exact (MethodInfo.withstands_iff_of_leads ((leads_around hleads hsplit).2 n hside) hne hshort
        htouches hn').mpr (hnot n hside)
  · intro h
    refine tightest?_eq_some_iff.mpr ⟨before, behind, hall, fun n hn => ?_, fun n hn => ?_⟩
    · obtain ⟨hn', htouches'⟩ := (hmember n).mpr (List.mem_append_left _ hn)
      have hne : n.span ≠ m.span := fun heq => absurd (heq ▸ hlonger n hn) (Nat.lt_irrefl _)
      exact (h n hn' htouches' hne).tighter (hranged m hmem) (hranged n hn') (hlead n hn) htouches
        htouches'
    · obtain ⟨hn', htouches'⟩ :=
        (hmember n).mpr (List.mem_append_right _ (List.mem_cons_of_mem _ hn))
      by_cases hne : n.span = m.span
      · rw [(hranged n hn').range, (hranged m hmem).range, hne]
        exact fun htighter => htighter.asymm htighter
      · exact (MethodInfo.withstands_iff_of_leads (hled n hn) hne (hlong n hn) htouches htouches').mp
          (h n hn' htouches' hne)

end Index

/-! ### A request for measures -/

namespace Plan

variable {engine : Engine} {store : Store} {snapshot : Snapshot} {d : Document} {p : Position}
  {offset : Nat} {names : Option (List String)} {chosen : List Metric}

/-- The measures at a position are those of the tightest method, if the ranges of methods are true to their
spans. -/
theorem complexityReport_eq {index : Index} (file : String)
    (h : ∀ m ∈ index.methods, m.range.contains p = m.span.touches offset) :
    complexityReport file chosen (some p) (index.methods.map MethodInfo.measured) =
      match index.tightest? offset with
      | some m => .done (.ofMethod file (chosenMetrics chosen m.measured))
      | none => .failed (.notFound s!"No method found at {file}:{p.text}") := by
  have hfilter : (index.methods.map MethodInfo.measured).filter (fun m => m.range.contains p) =
      (index.methods.filter fun m => m.span.touches offset).map MethodInfo.measured := by
    rw [List.filter_map]
    exact congrArg _ (List.filter_congr h)
  rw [complexityReport, hfilter, firstLeast?_map, Index.tightest?]
  cases firstLeast? (fun a b => isTighter (MethodInfo.measured a) b.measured) _ <;> rfl

/-- A request for measures at a position of a document comes to the report on the methods of the document. -/
theorem carriedOut_complexityMetrics {now : Store} {file : String} {methods : List MethodComplexity}
    (hpublished : store.published = some snapshot) (hchosen : selectedMetrics names = .ok chosen)
    (hdocument : snapshot.document? d.path = some d)
    (hfile : store.disk.normal? snapshot.root file = some d.path)
    (hpath : store.disk.normal? snapshot.root d.path = some d.path) (hoffset : d.offsetAt p = .ok offset)
    (hmethods : engine.methodComplexity d = .done methods) :
    carriedOut now false (complexityMetrics engine store file (some p.line) (some p.column) names) =
      ((complexityReport d.path chosen (some p) methods).settled.map .complexity, now) := by
  -- The position is looked up under the path that the file has been found under.
  have hcursor : anchorOf store snapshot ⟨d.path, p.line, p.column⟩ = .ok ⟨d.path, offset, p⟩ :=
    anchorOf_eq_ok hdocument hpath hoffset
  have hanchor : (some p).mapM (fun p =>
      (snapshot.anchor store.disk d.path p).mapError CoordinateError.toError) =
        .ok (some ⟨d.path, offset, p⟩) := bind_eq_ok.mpr ⟨_, hcursor, rfl⟩
  have hwork : (do
      let document ← documentOf snapshot d.path
      let methods ← ask (engine.methodComplexity document)
      return Answer.complexity (← complexityReport d.path chosen (some p) methods)) = (do
      return Answer.complexity (← complexityReport d.path chosen (some p) methods) : Outcome Error Answer) := by
    rw [documentOf, hdocument]
    simp only [ask, hmethods, bind, Outcome.andThen, Outcome.mapError]
  have hplan : complexityMetrics engine store file (some p.line) (some p.column) names =
      .ok (reply fun _ => do
        return Answer.complexity (← complexityReport d.path chosen (some p) methods)) := by
    rw [← hwork]
    exact bind_eq_ok.mpr ⟨chosen, hchosen, bind_eq_ok.mpr ⟨some p, rfl, bind_eq_ok.mpr ⟨snapshot,
      Store.current_eq_ok.mpr hpublished, bind_eq_ok.mpr ⟨d.path, fileOf_eq_ok hdocument hfile,
        bind_eq_ok.mpr ⟨_, hanchor, rfl⟩⟩⟩⟩⟩
  rw [hplan, carriedOut_reply]

end Plan

namespace CSharp

variable {parser : Parser} {snapshot : Snapshot} {d : Document} {t : Tree} {p : Position} {offset : Nat}

theorem exists_index_ranged (hparse : parser d.text = some t) (hnests : t.Nests d)
    (haddresses : t.AddressesMethods d) : ∃ index, indexOf parser d = .ok index ∧
      index.methods.Pairwise MethodInfo.Leads ∧ ∀ m ∈ index.methods, m.Ranged d := by
  obtain ⟨index, hbuild, -⟩ := Index.exists_build hnests.inText
  exact ⟨index, (indexOf_eq_build hparse).trans hbuild, Index.methods_lead hbuild hnests,
    fun m hm => (Index.records_of_build hbuild).ranged haddresses hm⟩

/-- A request for measures at a position of a document reports the tightest method there. -/
theorem dispatch_getComplexityMetrics {store : Store} {request : Request} {file : String}
    {names : Option (List String)} {chosen : List Metric} {index : Index}
    (hfiled : Filed snapshot.documents) (hmem : d ∈ snapshot.allDocuments) (hslash : '\\' ∉ d.path.toList)
    (hindex : indexOf parser d = .ok index) (hranged : ∀ m ∈ index.methods, m.Ranged d)
    (hoffset : d.offsetAt p = .ok offset) (hpublished : store.published = some snapshot)
    (hchosen : selectedMetrics names = .ok chosen)
    (hfile : store.disk.normal? snapshot.root file = some d.path)
    (hasks : request.Asks (.getComplexityMetrics file (some p.line) (some p.column) names)) :
    dispatch (engine parser) store request false =
      (match index.tightest? offset with
      | some m => .ok (.complexity (.ofMethod d.path (Plan.chosenMetrics chosen m.measured)))
      | none => .error (.notFound s!"No method found at {d.path}:{p.text}"), store.drawn) := by
  have hpath := (hfiled.named _ d ((Snapshot.mem_allDocuments hfiled).mp hmem)).2.normal? hslash store.disk
    snapshot.root
  have hmethods : (engine parser).methodComplexity d = .done (index.methods.map MethodInfo.measured) :=
    Outcome.ofExcept_eq_done.mpr (bind_eq_ok.mpr ⟨index, hindex, rfl⟩)
  have hcontains : ∀ m ∈ index.methods, m.range.contains p = m.span.touches offset := fun m hm => by
    rw [(hranged m hm).range]
    exact (hranged m hm).addressed.contains_eq_touches hoffset
  rw [dispatch_of_asks hasks]
  refine (Plan.carriedOut_complexityMetrics hpublished hchosen (Snapshot.document?_of_mem hfiled hmem) hfile
    hpath hoffset hmethods).trans ?_
  rw [Plan.complexityReport_eq d.path hcontains]
  cases index.tightest? offset <;> rfl

/-- A request for measures at a position reports the tightest of the methods that touch its offset. It finds
one exactly if there is a method around the offset at all, and this is the innermost method, the one of the
fewest bytes, exactly if that one withstands all others that touch the offset: every method around it begins
on an earlier line or ends behind it, one that ends where it begins is less tight, and one that begins where
it ends is not tighter. -/
theorem measured_method_exact (hfiled : Filed snapshot.documents) (hmem : d ∈ snapshot.allDocuments)
    (hslash : '\\' ∉ d.path.toList) (hparse : parser d.text = some t) (hnests : t.Nests d)
    (haddresses : t.AddressesMethods d) (hoffset : d.offsetAt p = .ok offset) :
    ∃ index, indexOf parser d = .ok index ∧
      (∀ (store : Store) (request : Request) (file : String) (names : Option (List String))
        (chosen : List Metric), store.published = some snapshot → selectedMetrics names = .ok chosen →
        store.disk.normal? snapshot.root file = some d.path →
        request.Asks (.getComplexityMetrics file (some p.line) (some p.column) names) →
        dispatch (engine parser) store request false =
          (match index.tightest? offset with
          | some m => .ok (.complexity (.ofMethod d.path (Plan.chosenMetrics chosen m.measured)))
          | none => .error (.notFound s!"No method found at {d.path}:{p.text}"), store.drawn)) ∧
      (index.tightest? offset = none ↔ index.methodContaining? offset = none) ∧
      ∀ m, index.methodContaining? offset = some m →
        (index.tightest? offset = some m ↔ ∀ n ∈ index.methods, n.span.touches offset = true →
          n.span ≠ m.span → m.Withstands n) := by
  obtain ⟨index, hindex, hleads, hranged⟩ := exists_index_ranged hparse hnests haddresses
  refine ⟨index, hindex, fun store request file names chosen hpublished hchosen hfile hasks => ?_,
    Index.tightest?_eq_none_iff, fun m hm => Index.tightest?_eq_iff hleads hranged hm⟩
  exact dispatch_getComplexityMetrics hfiled hmem hslash hindex hranged hoffset hpublished hchosen hfile hasks

/-! ### Methods that touch each other -/

theorem overloadTree_addressesMethods : overloadTree.AddressesMethods overloadDocument := by
  intro node hnode _
  obtain ⟨text, htext⟩ := (overloadTree_fits _ _).inText node hnode
  exact Document.addressed_of_not_mem htext (by decide +kernel)

/-- A store with the document of the class. -/
def overloadStore : Store := (soloWorld overloadText (some overloadSnapshot) [] [0]).store

/-- A request for the number of parameters of the method at a column of the class. -/
def parametersAt (column : Nat) : Request :=
  ⟨"GetComplexityMetrics", .array [.string "a", .nat 0, .nat column, .array [.string "parameters"]]⟩

/-- Where the first method ends and the second begins, the first is the innermost, and it is measured. -/
theorem first_of_touching_measured : ∃ m,
    (indexed overloadParser overloadDocument).methodContaining? 18 = some m ∧
      m.name = "F" ∧ m.range = ⟨⟨0, 8⟩, ⟨0, 18⟩⟩ ∧
      (dispatch (engine overloadParser) overloadStore (parametersAt 18) false).1 =
        .ok (.complexity (.ofMethod "a" ⟨m.name, m.container, m.range, [(.parameters, 0)]⟩)) := by
  obtain ⟨index, hindex, hanswer, -, hagrees⟩ := measured_method_exact (filed_soloSnapshot _)
    (mem_overloadSnapshot.mpr rfl) (by decide) (show overloadParser overloadDocument.text = _ from if_pos rfl)
    (overloadTree_fits _ _).nests overloadTree_addressesMethods
    (show overloadDocument.offsetAt ⟨0, 18⟩ = .ok 18 by decide +kernel)
  obtain rfl := indexed_of_indexOf hindex
  have hinnermost : (indexed overloadParser overloadDocument).methodContaining? 18 =
      some ⟨"F", some "A", ⟨8, 18⟩, ⟨⟨0, 8⟩, ⟨0, 18⟩⟩, ⟨1, 0, 0, 1, 0⟩⟩ := by decide +kernel
  have hwithstands : ∀ n ∈ (indexed overloadParser overloadDocument).methods, n.span.touches 18 = true →
      n.span ≠ ⟨8, 18⟩ → MethodInfo.Withstands
        ⟨"F", some "A", ⟨8, 18⟩, ⟨⟨0, 8⟩, ⟨0, 18⟩⟩, ⟨1, 0, 0, 1, 0⟩⟩ n := by decide +kernel
  have hreport := hanswer overloadStore (parametersAt 18) "a" (some ["parameters"]) [.parameters] rfl rfl
    (by decide +kernel) ⟨.getComplexityMetrics, rfl, rfl⟩
  rw [(hagrees _ hinnermost).mpr hwithstands] at hreport
  exact ⟨_, hinnermost, rfl, rfl, congrArg Prod.fst hreport⟩

/-- Where the second method ends and another one begins, that one is the innermost, by its bytes, but the
second method is measured: it ends in the earlier column. -/
theorem longer_method_measured : ∃ m,
    overloadTree.Nests overloadDocument ∧ overloadDocument.offsetAt ⟨0, 37⟩ = .ok 37 ∧
      (indexed overloadParser overloadDocument).methodContaining? 37 = some m ∧
      m.name = "G" ∧ m.range = ⟨⟨0, 37⟩, ⟨0, 47⟩⟩ ∧
      (dispatch (engine overloadParser) overloadStore (parametersAt 37) false).1 =
        .ok (.complexity (.ofMethod "a" ⟨"F", some "A", ⟨⟨0, 18⟩, ⟨0, 37⟩⟩, [(.parameters, 1)]⟩)) := by
  obtain ⟨index, hindex, -, hranged⟩ := exists_index_ranged
    (show overloadParser overloadDocument.text = _ from if_pos rfl) (overloadTree_fits _ _).nests
    overloadTree_addressesMethods
  obtain rfl := indexed_of_indexOf hindex
  have hoffset : overloadDocument.offsetAt ⟨0, 37⟩ = .ok 37 := by decide +kernel
  have htightest : (indexed overloadParser overloadDocument).tightest? 37 =
      some ⟨"F", some "A", ⟨18, 37⟩, ⟨⟨0, 18⟩, ⟨0, 37⟩⟩, ⟨1, 0, 0, 1, 1⟩⟩ := by decide +kernel
  have hinnermost : (indexed overloadParser overloadDocument).methodContaining? 37 =
      some ⟨"G", some "A", ⟨37, 47⟩, ⟨⟨0, 37⟩, ⟨0, 47⟩⟩, ⟨1, 0, 0, 1, 0⟩⟩ := by decide +kernel
  have hasks : (parametersAt 37).Asks
      (.getComplexityMetrics "a" (some 0) (some 37) (some ["parameters"])) :=
    ⟨.getComplexityMetrics, rfl, rfl⟩
  have hchosen : selectedMetrics (some ["parameters"]) = .ok [.parameters] := rfl
  have hreport := dispatch_getComplexityMetrics (filed_soloSnapshot _) (mem_overloadSnapshot.mpr rfl)
    (by decide) hindex hranged hoffset (show overloadStore.published = some overloadSnapshot from rfl)
    hchosen (by decide +kernel) hasks
  rw [htightest] at hreport
  exact ⟨_, (overloadTree_fits _ _).nests, hoffset, hinnermost, rfl, rfl, congrArg Prod.fst hreport⟩

end CSharp

end CodeIntel
