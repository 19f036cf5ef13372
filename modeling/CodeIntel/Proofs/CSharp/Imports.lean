import CodeIntel.Proofs.CSharp.Actions
import CodeIntel.Proofs.Text.Strung
import Mathlib.Data.Prod.Lex
import Mathlib.Data.String.Basic

/-! Sorting the imports of a document. The action rearranges the texts of the directives by their keys and
keeps what stands in front of the first of them and behind the last; what it drops in between is blank. Where
the texts already stand in that order it is not offered. The key of a directive does not say whether the
directive is global, so that global directives can come to stand behind others. -/

namespace CodeIntel

namespace Tree

/-- The texts of the directives at the top of a document. -/
def directiveTexts (d : Document) (t : Tree) : List String :=
  t.directives.filterMap fun node => (node.text? d).map Text.trimmed

/-- A tree whose nodes stand in the text of its document. Only the root is a unit, and the document has
positions for the ends of the directives at its top: none of them is inside what ends a line. -/
structure PlacesDirectives (d : Document) (t : Tree) : Prop where
  inText : t.InText d
  isUnit : t.IsUnit
  addressed : ∀ node ∈ t.directives,
    (∃ p, d.offsetAt p = .ok node.span.start) ∧ ∃ p, d.offsetAt p = .ok node.span.stop

variable {d : Document} {t node : Tree}

theorem kind_of_mem_directives (h : node ∈ t.directives) : node.kind = "using_directive" := by
  unfold directives at h
  split at h
  · exact of_decide_eq_true (List.mem_filter.mp h).2
  · cases h

theorem mem_subtrees_of_directives (h : node ∈ t.directives) : node ∈ t.subtrees := by
  unfold directives at h
  split at h
  · exact subtrees_of_mem (mem_of_namedChildren (List.mem_filter.mp h).1) node.self_mem_subtrees
  · cases h

/-- The imports of a document have the texts of its directives. -/
theorem map_text_imported? (d : Document) (t : Tree) :
    (t.directives.filterMap (imported? d)).map Import.text = t.directiveTexts d := by
  rw [List.map_filterMap, directiveTexts]
  refine List.filterMap_congr fun node hnode => ?_
  rw [imported?, if_pos (kind_of_mem_directives hnode), Option.map_map]
  rfl

/-- The imports of a document have the spans of its directives, if these stand in the text. -/
theorem map_span_imported? (hinside : t.InText d) :
    (t.directives.filterMap (imported? d)).map Import.span = t.directives.map span := by
  rw [List.map_filterMap, ← List.filterMap_eq_map]
  refine List.filterMap_congr fun node hnode => ?_
  obtain ⟨raw, hraw⟩ := hinside node (mem_subtrees_of_directives hnode)
  rw [imported?, if_pos (kind_of_mem_directives hnode), hraw]
  rfl

/-- An import has the text of its span, less the blanks around it. -/
theorem slice?_of_mem_imported? {imported : Import} (h : imported ∈ t.directives.filterMap (imported? d)) :
    ∃ raw, d.slice? imported.span = some raw ∧ imported.text = Text.trimmed raw := by
  obtain ⟨node, hnode, himported⟩ := List.mem_filterMap.mp h
  rw [imported?, if_pos (kind_of_mem_directives hnode)] at himported
  obtain ⟨raw, hraw, rfl⟩ := Option.map_eq_some_iff.mp himported
  exact ⟨raw, hraw, rfl⟩

end Tree

namespace CSharp

/-! ### The order of imports -/

/-- What imports are sorted by: those of the system library first, then by what they import. -/
def importKey (text : String) : Bool ×ₗ String := toLex (!isSystem text, importedName text)

theorem importPrecedes_iff {a b : String} : importPrecedes a b = true ↔ importKey a ≤ importKey b := by
  rw [importKey, importKey, Prod.Lex.toLex_le_toLex, importPrecedes]
  cases isSystem a <;> cases isSystem b <;> simp

theorem importPrecedes_trans (a b c : String) (h : importPrecedes a b = true)
    (h' : importPrecedes b c = true) : importPrecedes a c = true := by
  rw [importPrecedes_iff] at *
  exact le_trans h h'

theorem importPrecedes_total (a b : String) : (importPrecedes a b || importPrecedes b a) = true := by
  rw [Bool.or_eq_true, importPrecedes_iff, importPrecedes_iff]
  exact le_total _ _

/-- Given texts in ascending order of their keys, those with the same key as they were given. -/
structure Ascends (given sorted : List String) : Prop where
  perm : sorted.Perm given
  ascending : sorted.Pairwise fun a b => importKey a ≤ importKey b
  ties : ∀ key, sorted.filter (importKey · = key) = given.filter (importKey · = key)

theorem ascends_mergeSort (given : List String) : Ascends given (given.mergeSort importPrecedes) where
  perm := List.mergeSort_perm given importPrecedes
  ascending := (List.pairwise_mergeSort importPrecedes_trans importPrecedes_total given).imp
    importPrecedes_iff.mp
  ties key := by
    refine filter_mergeSort importPrecedes_trans importPrecedes_total (fun a b ha hb => ?_) given
    rw [importPrecedes_iff, of_decide_eq_true ha, of_decide_eq_true hb]

/-- Texts can be put in order in one way only. -/
theorem Ascends.unique {given sorted sorted' : List String} (h : Ascends given sorted)
    (h' : Ascends given sorted') : sorted = sorted' :=
  eq_of_ties importKey
    (fun _ _ hle hle' => le_antisymm (importPrecedes_iff.mp hle) (importPrecedes_iff.mp hle'))
    (h.ascending.imp importPrecedes_iff.mpr) (h'.ascending.imp importPrecedes_iff.mpr)
    fun key => by rw [h.ties, h'.ties]

theorem mergeSort_eq_iff {texts : List String} :
    texts.mergeSort importPrecedes = texts ↔ texts.Pairwise fun a b => importKey a ≤ importKey b := by
  constructor
  · intro h
    rw [← h]
    exact (ascends_mergeSort texts).ascending
  · exact fun h => List.mergeSort_of_pairwise (h.imp importPrecedes_iff.mpr)

section

variable {parser : Parser} {snapshot : Snapshot} {d : Document} {t : Tree} {range : AnchorRange}
  {action : CodeAction} {actions : List CodeAction} {index : Index}

/-! ### When the action is offered -/

theorem head?_append {front : String} {c : Char} (h : front.toList.head? = some c) (back : String) :
    (front ++ back).toList.head? = some c := by
  rw [String.toList_append, List.head?_append, h]
  rfl

theorem title_ne {c : Char} (h : action.title.toList.head? = some c) (hother : c ≠ 'S') :
    action.title ≠ "Sort using directives" := by
  intro htitle
  rw [htitle] at h
  exact hother (Option.some.inj h).symm

/-- Only sorting the imports has its title. -/
theorem exists_sorting (hactions : codeActions parser snapshot d range = .ok actions)
    (hmem : action ∈ actions) (htitle : action.title = "Sort using directives") :
    ∃ index, indexOf parser d = .ok index ∧ sortImports d index.imports = .ok (some action) := by
  obtain ⟨index, semicolons, modifiers, renames, sorting, hindex, hsemicolons, hmodifiers, hrenames,
    hsorting, rfl⟩ := codeActions_eq_ok.mp hactions
  have hmem := mem_of_mem_distinctTitles hmem
  simp only [List.mem_append, List.mem_filterMap, Option.mem_toList, id] at hmem
  rcases hmem with (((hfix | ⟨x, -, hcomment⟩) | hmodifier) | ⟨found, hfound, rfl⟩) | rfl
  · obtain ⟨places, -, hfixes⟩ := bind_eq_ok.mp hsemicolons
    obtain rfl := Except.ok.inj hfixes
    obtain ⟨p, -, rfl⟩ := List.mem_map.mp hfix
    have hinsert : "Insert missing ';'".toList.head? = some 'I' := by decide
    exact absurd htitle (title_ne hinsert (by decide))
  · simp only [documentation?] at hcomment
    split at hcomment
    · obtain rfl := Option.some.inj hcomment
      have hadd : "Add documentation comment for '".toList.head? = some 'A' := by decide
      exact absurd htitle (title_ne (head?_append (head?_append hadd _) _) (by decide))
    · cases hcomment
  · obtain ⟨field, -, hfield⟩ := exists_of_mem_mapM hmodifiers hmodifier
    obtain ⟨p, -, hfield⟩ := bind_eq_ok.mp hfield
    obtain rfl := Except.ok.inj hfield
    have hmake : "Make field '".toList.head? = some 'M' := by decide
    exact absurd htitle (title_ne (head?_append (head?_append hmake _) _) (by decide))
  · obtain ⟨x, -, hx⟩ := exists_of_mem_mapM hrenames hfound
    unfold renameAction? at hx
    split at hx
    · cases hx
    · obtain ⟨edits, -, hx⟩ := bind_eq_ok.mp hx
      obtain rfl := Option.some.inj (Except.ok.inj hx)
      have hrename : "Rename '".toList.head? = some 'R' := by decide
      refine absurd htitle (title_ne ?_ (by decide : 'R' ≠ 'S'))
      exact head?_append (head?_append (head?_append (head?_append hrename _) _) _) _
  · exact ⟨index, hindex, hsorting⟩

theorem exists_title_of_distinctTitles {seen : List String} (hmem : action ∈ actions)
    (hnew : action.title ∉ seen) : ∃ other ∈ distinctTitles seen actions, other.title = action.title := by
  induction actions generalizing seen with
  | nil => cases hmem
  | cons first rest ih =>
      rw [distinctTitles]
      split
      · rename_i hseen
        rcases List.mem_cons.mp hmem with rfl | hmem
        · exact absurd (List.contains_iff_mem.mp hseen) hnew
        · exact ih hmem hnew
      · by_cases hsame : first.title = action.title
        · exact ⟨first, List.mem_cons_self, hsame⟩
        · rcases List.mem_cons.mp hmem with rfl | hmem
          · exact absurd rfl hsame
          · have hunseen : action.title ∉ first.title :: seen := by
              rw [List.mem_cons, not_or]
              exact ⟨fun h => hsame h.symm, hnew⟩
            obtain ⟨other, hother, htitle⟩ := ih hmem hunseen
            exact ⟨other, List.mem_cons_of_mem _ hother, htitle⟩

/-- Sorting is offered exactly where the imports stand together and are not in ascending order. -/
theorem sorting_offered_iff (hindex : indexOf parser d = .ok index)
    (hactions : codeActions parser snapshot d range = .ok actions) :
    (∃ action ∈ actions, action.title = "Sort using directives") ↔
      areContiguous d index.imports = true ∧
      ¬ (index.imports.map Import.text).Pairwise fun a b => importKey a ≤ importKey b := by
  constructor
  · rintro ⟨action, hmem, htitle⟩
    obtain ⟨index', hindex', hsort⟩ := exists_sorting hactions hmem htitle
    obtain rfl := Except.ok.inj (hindex.symm.trans hindex')
    rcases sortImports_eq_ok.mp hsort with ⟨-, hnone⟩ | ⟨sorted, _, _, _, hsorted, -⟩
    · cases hnone
    · obtain ⟨-, htogether, rfl, hmoved⟩ := sortedImports?_eq_some.mp hsorted
      exact ⟨htogether, fun hascending => hmoved (mergeSort_eq_iff.mpr hascending)⟩
  · rintro ⟨htogether, hmoved⟩
    obtain ⟨index', semicolons, modifiers, renames, sorting, hindex', -, -, -, hsort, rfl⟩ :=
      codeActions_eq_ok.mp hactions
    obtain rfl := Except.ok.inj (hindex.symm.trans hindex')
    have hlong : 2 ≤ index.imports.length := by
      rcases himports : index.imports with _ | ⟨first, _ | ⟨second, rest⟩⟩
      · simp [himports] at hmoved
      · simp [himports] at hmoved
      · simp
    have hsorted := sortedImports?_eq_some.mpr
      ⟨hlong, htogether, rfl, fun hsame => hmoved (mergeSort_eq_iff.mp hsame)⟩
    rcases sortImports_eq_ok.mp hsort with ⟨hnone, -⟩ | ⟨_, _, _, _, -, -, -, -, rfl⟩
    · rw [hsorted] at hnone
      cases hnone
    · exact exists_title_of_distinctTitles (List.mem_append_right _ (List.mem_singleton_self _))
        List.not_mem_nil

/-! ### What the action does -/

/-- An edit puts the directives of a document in order. From the start of the first directive to the end of
the last there is nothing but their texts and blanks, and this is exchanged for the texts in order, with the
end of a line between neighbours. -/
structure SortsDirectives (d : Document) (t : Tree) (edit : TextEdit) (sorted : List String) : Prop where
  ascends : Ascends (t.directiveTexts d) sorted
  exchanges : ∃ first ∈ t.directives.head?, ∃ last ∈ t.directives.getLast?, ∃ front middle back,
    d.chars = front ++ middle ++ back ∧ Text.byteLength front = first.span.start ∧
    Text.byteLength (front ++ middle) = last.span.stop ∧
    Text.Strung ((t.directiveTexts d).map String.toList) middle ∧
    ∀ version, d.applyEdits [edit] version = .ok ⟨d.path, String.ofList (front ++
      (String.intercalate (if ['\r', '\n'] <:+: d.chars then "\r\n" else "\n") sorted).toList ++ back),
      version⟩

theorem lineEnd_eq (d : Document) :
    lineEnd d = if ['\r', '\n'] <:+: d.chars then "\r\n" else "\n" := by
  simp only [lineEnd, Text.find?_isSome]

theorem strung_text {imported : Import} {raw : String} (htext : imported.text = Text.trimmed raw) :
    Text.Strung [imported.text.toList] raw.toList := by
  rw [htext, Text.trimmed, String.toList_ofList]
  exact Text.strung_trim _

/-- Imports that stand together make up what is between their ends, with blanks. -/
theorem exists_middle {imports : List Import} {first last : Import}
    (h : areContiguous d imports = true)
    (hslices : ∀ imported ∈ imports, ∃ raw, d.slice? imported.span = some raw ∧
      imported.text = Text.trimmed raw)
    (hfirst : imports.head? = some first) (hlast : imports.getLast? = some last) :
    ∃ middle, d.slice? ⟨first.span.start, last.span.stop⟩ = some middle ∧
      Text.Strung (imports.map fun imported => imported.text.toList) middle.toList := by
  obtain ⟨rest, rfl⟩ := List.head?_eq_some_iff.mp hfirst
  clear hfirst
  obtain ⟨raw, hraw, htext⟩ := hslices first List.mem_cons_self
  induction rest generalizing first raw with
  | nil =>
      obtain rfl := Option.some.inj hlast
      exact ⟨raw, hraw, strung_text htext⟩
  | cons second rest ih =>
      rw [areContiguous, Bool.and_eq_true] at h
      obtain ⟨hblank, htogether⟩ := h
      split at hblank
      · rename_i between hbetween
        have hrest := fun imported hmem => hslices imported (List.mem_cons_of_mem _ hmem)
        obtain ⟨raw', hraw', htext'⟩ := hrest second List.mem_cons_self
        rw [List.getLast?_cons_cons] at hlast
        obtain ⟨more, hmore, hstrung⟩ := ih htogether hrest hlast raw' hraw' htext'
        refine ⟨raw ++ (between ++ more),
          Document.slice?_append hraw (Document.slice?_append hbetween hmore), ?_⟩
        rw [String.toList_append, String.toList_append]
        exact (strung_text htext).append (hstrung.behind hblank)
      · cases hblank

/-- The imports of a document are those that its directives make. -/
theorem imports_of_indexOf (hparse : parser d.text = some t) (hunit : t.IsUnit)
    (hindex : indexOf parser d = .ok index) :
    index.imports = t.directives.filterMap (Tree.imported? d) := by
  rw [indexOf, hparse] at hindex
  exact Index.imports_of_build hindex hunit

/-- The first and the last import have the spans of the first and the last directive. -/
theorem exists_directive (hinside : t.InText d) {imports : List Import}
    (himports : imports = t.directives.filterMap (Tree.imported? d)) {first last : Import}
    (hfirst : imports.head? = some first) (hlast : imports.getLast? = some last) :
    (∃ node ∈ t.directives.head?, node.span = first.span) ∧
      ∃ node ∈ t.directives.getLast?, node.span = last.span := by
  have hspans := Tree.map_span_imported? hinside
  rw [← himports] at hspans
  constructor
  · have hhead := congrArg List.head? hspans
    rw [List.head?_map, List.head?_map, hfirst] at hhead
    exact Option.map_eq_some_iff.mp hhead.symm
  · have hback := congrArg List.getLast? hspans
    rw [List.getLast?_map, List.getLast?_map, hlast] at hback
    exact Option.map_eq_some_iff.mp hback.symm

/-- The action that sorts the imports has one edit, which puts the directives in order. -/
theorem exists_sorting_edit (hparse : parser d.text = some t) (ht : t.PlacesDirectives d)
    (hactions : codeActions parser snapshot d range = .ok actions) (hmem : action ∈ actions)
    (htitle : action.title = "Sort using directives") :
    ∃ edit sorted, action.edits = [⟨d.path, [edit]⟩] ∧ SortsDirectives d t edit sorted := by
  obtain ⟨index, hindex, hsort⟩ := exists_sorting hactions hmem htitle
  have himports := imports_of_indexOf hparse ht.isUnit hindex
  have htexts : index.imports.map Import.text = t.directiveTexts d := by
    rw [himports, Tree.map_text_imported?]
  rcases sortImports_eq_ok.mp hsort with ⟨-, hnone⟩ | ⟨_, first, last, place, hsorted, hfirst, hlast,
    hplace, hfound⟩
  · cases hnone
  · obtain rfl := Option.some.inj hfound
    obtain ⟨-, htogether, rfl, -⟩ := sortedImports?_eq_some.mp hsorted
    rw [htexts]
    obtain ⟨⟨node, hnode, hspan⟩, ⟨node', hnode', hspan'⟩⟩ :=
      exists_directive ht.inText himports hfirst hlast
    obtain ⟨middle, hmiddle, hstrung⟩ := exists_middle htogether
      (fun imported hmem => Tree.slice?_of_mem_imported? (himports ▸ hmem)) hfirst hlast
    obtain ⟨front, back, hchars, hfront, hstop⟩ := Document.exists_of_slice? hmiddle
    obtain rfl : d.extent ⟨first.span.start, last.span.stop⟩ = place :=
      Except.ok.inj ((Visit.range_of_slice? hmiddle).symm.trans hplace)
    obtain ⟨hstart, -⟩ := ht.addressed node (List.mem_of_head? hnode)
    obtain ⟨-, hend⟩ := ht.addressed node' (List.mem_of_getLast? hnode')
    rw [hspan] at hstart
    rw [hspan'] at hend
    have hlength : Text.byteLength (front ++ middle.toList) = last.span.stop := by
      rw [Text.byteLength_append, hfront]
      exact hstop
    refine ⟨_, _, rfl, ascends_mergeSort _, node, hnode, node', hnode', front, middle.toList, back, hchars,
      by rw [hfront, hspan], by rw [hlength, hspan'], ?_, fun version => ?_⟩
    · rw [← htexts, List.map_map]
      exact hstrung
    · rw [← lineEnd_eq]
      exact Document.applyEdits_extent hchars hfront hlength hstart hend _ version

/-- Sorting the directives of a document rearranges their texts and changes nothing else. Where the directives
have exactly these texts in this order, sorting is not offered. -/
theorem sorting_rearranges (hparse : parser d.text = some t) (ht : t.PlacesDirectives d)
    (hactions : codeActions parser snapshot d range = .ok actions) (hmem : action ∈ actions)
    (htitle : action.title = "Sort using directives") :
    ∃ edit sorted, action.edits = [⟨d.path, [edit]⟩] ∧ SortsDirectives d t edit sorted ∧
      ∀ (parser' : Parser) (snapshot' : Snapshot) (d' : Document) (t' : Tree) (range' : AnchorRange)
        (actions' : List CodeAction), parser' d'.text = some t' → t'.IsUnit →
        t'.directiveTexts d' = sorted → codeActions parser' snapshot' d' range' = .ok actions' →
        ∀ action' ∈ actions', action'.title ≠ "Sort using directives" := by
  obtain ⟨edit, sorted, hedits, hsorts⟩ := exists_sorting_edit hparse ht hactions hmem htitle
  refine ⟨edit, sorted, hedits, hsorts, fun parser' snapshot' d' t' range' actions' hparse' hunit' htexts'
    hactions' action' hmem' htitle' => ?_⟩
  obtain ⟨index', hindex', -⟩ := exists_sorting hactions' hmem' htitle'
  obtain ⟨-, hmoved⟩ := (sorting_offered_iff hindex' hactions').mp ⟨action', hmem', htitle'⟩
  rw [imports_of_indexOf hparse' hunit' hindex', Tree.map_text_imported?, htexts'] at hmoved
  exact hmoved hsorts.ascends.ascending

end

/-! ### Global directives in front of another one -/

/-- The tree of two global directives and another one. -/
def mixedTree : Tree :=
  let global (start : Nat) : Tree :=
    soundNode "using_directive" true start (start + 15) []
      [soundNode "global" false start (start + 6) [] [],
        soundNode "using" false (start + 7) (start + 12) [] [],
        soundNode "identifier" true (start + 13) (start + 14) [] [],
        soundNode ";" false (start + 14) (start + 15) [] []]
  soundNode "compilation_unit" true 0 42 []
    [global 0, global 17,
      soundNode "using_directive" true 34 42 []
        [soundNode "using" false 34 39 [] [], soundNode "identifier" true 40 41 [] [],
          soundNode ";" false 41 42 [] []]]

/-- The document of the directives. -/
def mixedDocument : Document := ⟨"a", "global using Z;\r\nglobal using B;\r\nusing A;", 0⟩

/-- A parser that knows the directives. -/
def mixedParser : Parser := fun text => if text = mixedDocument.text then some mixedTree else none

/-- The start of the document. -/
def mixedRange : AnchorRange := ⟨"a", ⟨0, 0⟩, ⟨⟨0, 0⟩, ⟨0, 0⟩⟩⟩

theorem mixedTree_places : mixedTree.PlacesDirectives mixedDocument where
  inText := by decide +kernel
  isUnit := by decide +kernel
  addressed node hnode := by
    have hall : ∀ node ∈ mixedTree.directives,
        mixedDocument.offsetAt (mixedDocument.extent node.span).start = .ok node.span.start ∧
        mixedDocument.offsetAt (mixedDocument.extent node.span).stop = .ok node.span.stop := by
      decide +kernel
    exact ⟨⟨_, (hall node hnode).1⟩, ⟨_, (hall node hnode).2⟩⟩

theorem mixedParser_eq : mixedParser mixedDocument.text = some mixedTree := if_pos rfl

theorem mixedTree_texts : mixedTree.directiveTexts mixedDocument =
    ["global using Z;", "global using B;", "using A;"] := by decide +kernel

theorem sorted_mixed : ["global using Z;", "global using B;", "using A;"].mergeSort importPrecedes =
    ["using A;", "global using B;", "global using Z;"] := by
  have hfirst : importPrecedes "global using Z;" "global using B;" = false := by decide +kernel
  have hsecond : importPrecedes "global using B;" "using A;" = false := by decide +kernel
  simp [List.mergeSort, hfirst, hsecond]

/-- Sorting is offered. -/
theorem exists_sorting_mixed : ∃ actions,
    codeActions mixedParser (soloSnapshot 0 0 mixedDocument.text) mixedDocument mixedRange = .ok actions ∧
    ∃ action ∈ actions, action.title = "Sort using directives" := by
  obtain ⟨hindex, -⟩ := indexOf_of_inText mixedParser_eq mixedTree_places.inText
  have himports : (indexed mixedParser mixedDocument).imports =
      [⟨⟨0, 15⟩, "global using Z;"⟩, ⟨⟨17, 32⟩, "global using B;"⟩, ⟨⟨34, 42⟩, "using A;"⟩] := by
    decide +kernel
  have hsorted : sortedImports? mixedDocument (indexed mixedParser mixedDocument).imports =
      some ["using A;", "global using B;", "global using Z;"] := by
    rw [himports]
    exact sortedImports?_eq_some.mpr ⟨by decide, by decide +kernel, sorted_mixed.symm, by decide⟩
  exact ⟨_, codeActions_eq_ok.mpr ⟨_, [], [], [], some _, hindex, by rfl, by rfl, by rfl,
    sortImports_eq_ok.mpr (.inr ⟨_, _, _, _, hsorted, congrArg List.head? himports,
      congrArg List.getLast? himports, rfl, rfl⟩), rfl⟩, _, List.mem_singleton_self _, rfl⟩

/-- The directives can be put in order in one way only. -/
theorem eq_of_ascends_mixed {sorted : List String}
    (h : Ascends (mixedTree.directiveTexts mixedDocument) sorted) :
    sorted = ["using A;", "global using B;", "global using Z;"] := by
  rw [h.unique (ascends_mergeSort _), mixedTree_texts, sorted_mixed]

/-- The directives are turned around, with the ends of lines that the document has. -/
theorem mixed_directives_turned : ∃ actions,
    codeActions mixedParser (soloSnapshot 0 0 mixedDocument.text) mixedDocument mixedRange = .ok actions ∧
    ∃ action ∈ actions, ∃ edit, action.edits = [⟨"a", [edit]⟩] ∧
      mixedDocument.applyEdits [edit] 1 =
        .ok ⟨"a", "using A;\r\nglobal using B;\r\nglobal using Z;", 1⟩ := by
  obtain ⟨actions, hactions, action, hmem, htitle⟩ := exists_sorting_mixed
  obtain ⟨edit, sorted, hedits, hsorts, -⟩ :=
    sorting_rearranges mixedParser_eq mixedTree_places hactions hmem htitle
  obtain ⟨first, hfirst, last, hlast, front, middle, back, hchars, hfront, hmiddle, -, happly⟩ :=
    hsorts.exchanges
  obtain rfl := Option.some.inj hfirst
  obtain rfl := Option.some.inj hlast
  obtain rfl := Text.eq_nil_of_byteLength hfront
  have hback : Text.byteLength back = 0 := by
    have hlength := congrArg Text.byteLength hchars
    rw [Text.byteLength_append, hmiddle] at hlength
    have hwhole : Text.byteLength mixedDocument.chars = 42 := by decide +kernel
    rw [hwhole] at hlength
    exact Nat.add_left_cancel hlength.symm
  obtain rfl := Text.eq_nil_of_byteLength hback
  refine ⟨actions, hactions, action, hmem, edit, hedits, ?_⟩
  rw [happly, eq_of_ascends_mixed hsorts.ascends]
  decide +kernel

/-! ### Global directives -/

/-- Whether a directive is a global one. -/
def isGlobal (text : String) : Bool := "global".toList.isPrefixOf text.toList

/-- Directives that are global stand in front of those that are not. -/
def GlobalsFirst (texts : List String) : Prop :=
  texts.Pairwise fun a b => isGlobal b = true → isGlobal a = true

instance (texts : List String) : Decidable (GlobalsFirst texts) :=
  inferInstanceAs (Decidable (texts.Pairwise fun a b => isGlobal b = true → isGlobal a = true))

/-- Texts with the global ones first keep them there in ascending order exactly if no other text has a
smaller key than a global one. -/
theorem Ascends.globalsFirst_iff {given sorted : List String} (h : Ascends given sorted)
    (hgiven : GlobalsFirst given) :
    GlobalsFirst sorted ↔ ∀ a ∈ given, ∀ b ∈ given, isGlobal a = true → isGlobal b = false →
      importKey a ≤ importKey b := by
  constructor
  · intro hsorted a ha b hb hglobal hplain
    have hboth := eq_or_related_of_pairwise (h.ascending.and hsorted) (h.perm.mem_iff.mpr ha)
      (h.perm.mem_iff.mpr hb)
    rcases hboth with rfl | ⟨hle, -⟩ | ⟨-, hfirst⟩
    · exact le_refl _
    · exact hle
    · rw [hfirst hglobal] at hplain
      cases hplain
  · intro hkeys
    refine List.pairwise_iff_forall_sublist.mpr fun {a b} hsub hglobal => ?_
    by_contra hplain
    rw [Bool.not_eq_true] at hplain
    have hmem : ∀ text ∈ [a, b], text ∈ given := fun text htext => h.perm.mem_iff.mp (hsub.subset htext)
    have hsame : importKey a = importKey b :=
      le_antisymm (List.pairwise_iff_forall_sublist.mp h.ascending hsub)
        (hkeys b (hmem b (by simp)) a (hmem a (by simp)) hglobal hplain)
    -- Texts of one key stand as they were given, where the global ones come first.
    have hties := hsub.filter (importKey · = importKey b)
    rw [h.ties, List.filter_cons_of_pos (by simp [hsame]), List.filter_cons_of_pos (by simp),
      List.filter_nil] at hties
    have hfirst := List.pairwise_iff_forall_sublist.mp hgiven (hties.trans List.filter_sublist) hglobal
    rw [hfirst] at hplain
    cases hplain

/-- Where global directives stand first, sorting keeps them first exactly if none of the other directives has a
smaller key than one of them. -/
theorem globals_stay_first_iff {parser : Parser} {snapshot : Snapshot} {d : Document} {t : Tree}
    {range : AnchorRange} {actions : List CodeAction} {action : CodeAction}
    (hparse : parser d.text = some t) (ht : t.PlacesDirectives d)
    (hactions : codeActions parser snapshot d range = .ok actions) (hmem : action ∈ actions)
    (htitle : action.title = "Sort using directives") (hgiven : GlobalsFirst (t.directiveTexts d)) :
    ∃ edit sorted, action.edits = [⟨d.path, [edit]⟩] ∧ SortsDirectives d t edit sorted ∧
      (GlobalsFirst sorted ↔ ∀ a ∈ t.directiveTexts d, ∀ b ∈ t.directiveTexts d,
        isGlobal a = true → isGlobal b = false → importKey a ≤ importKey b) := by
  obtain ⟨edit, sorted, hedits, hsorts⟩ := exists_sorting_edit hparse ht hactions hmem htitle
  exact ⟨edit, sorted, hedits, hsorts, hsorts.ascends.globalsFirst_iff hgiven⟩

/-- The last directive has the smallest key, so that the global directives do not stay first. -/
theorem mixed_globals_not_first : GlobalsFirst (mixedTree.directiveTexts mixedDocument) ∧ ∃ actions,
    codeActions mixedParser (soloSnapshot 0 0 mixedDocument.text) mixedDocument mixedRange = .ok actions ∧
    ∃ action ∈ actions, ∃ edit sorted, action.edits = [⟨"a", [edit]⟩] ∧
      SortsDirectives mixedDocument mixedTree edit sorted ∧ ¬ GlobalsFirst sorted := by
  obtain ⟨actions, hactions, action, hmem, htitle⟩ := exists_sorting_mixed
  have hgiven : GlobalsFirst (mixedTree.directiveTexts mixedDocument) := by decide +kernel
  obtain ⟨edit, sorted, hedits, hsorts, hfirst⟩ :=
    globals_stay_first_iff mixedParser_eq mixedTree_places hactions hmem htitle hgiven
  refine ⟨hgiven, actions, hactions, action, hmem, edit, sorted, hedits, hsorts, fun hstay => ?_⟩
  rw [mixedTree_texts] at hfirst
  have hle := hfirst.mp hstay "global using B;" (by simp) "using A;" (by simp) (by decide) (by decide)
  exact absurd (importPrecedes_iff.mpr hle) (by decide +kernel)

/-- Sorting does not keep global directives in front of the others. -/
theorem global_directive_falls_behind :
    ¬ ∀ (parser : Parser) (snapshot : Snapshot) (d : Document) (t : Tree) (range : AnchorRange)
      (actions : List CodeAction), parser d.text = some t → t.PlacesDirectives d →
      GlobalsFirst (t.directiveTexts d) → codeActions parser snapshot d range = .ok actions →
      ∀ action ∈ actions, action.title = "Sort using directives" →
      ∀ edit sorted, action.edits = [⟨d.path, [edit]⟩] → SortsDirectives d t edit sorted →
        GlobalsFirst sorted := by
  intro hall
  obtain ⟨actions, hactions, action, hmem, htitle⟩ := exists_sorting_mixed
  obtain ⟨edit, sorted, hedits, hsorts⟩ :=
    exists_sorting_edit mixedParser_eq mixedTree_places hactions hmem htitle
  have hstay := hall _ _ _ _ _ actions mixedParser_eq mixedTree_places (by decide +kernel) hactions action
    hmem htitle edit sorted hedits hsorts
  rw [eq_of_ascends_mixed hsorts.ascends] at hstay
  exact absurd hstay (by decide)

end CSharp

end CodeIntel
