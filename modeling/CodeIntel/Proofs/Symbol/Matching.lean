import CodeIntel.Proofs.Regex.BuiltIn
import CodeIntel.Proofs.Text.Pieces
import CodeIntel.Symbol.Pattern

/-! What a pattern matches. A pattern is cut at its stars, and a name matches if it is made of the pieces in
their order with a gap where each star stands, and a gap may be anything that has no line feed. The expression of
a pattern says so to any library of regular expressions that does what is documented: it has a literal for each
character between the stars, a repetition for each star, and an anchor at either end. -/

namespace CodeIntel.SearchPattern

open CodeIntel.Regex

/-- The pieces in their order, with a gap between each two. -/
def Woven (pieces : List (List Char)) (name : List Char) : Prop :=
  ∃ first rest gaps, pieces = first :: rest ∧ gaps.length = rest.length ∧
    (∀ gap ∈ gaps, '\n' ∉ gap) ∧ name = first ++ (List.zipWith (· ++ ·) gaps rest).flatten

theorem woven_single {piece name : List Char} : Woven [piece] name ↔ name = piece := by
  constructor
  · rintro ⟨_, _, gaps, hpieces, hlength, -, rfl⟩
    obtain ⟨rfl, rfl⟩ := List.cons.inj hpieces
    rw [List.length_eq_zero_iff.mp hlength, List.zipWith_nil_left, List.flatten_nil, List.append_nil]
  · rintro rfl
    exact ⟨name, [], [], rfl, rfl, by simp, by simp⟩

/-- A character in front of the first piece stands in front of the name. -/
theorem woven_cons {c : Char} {piece name : List Char} {rest : List (List Char)} :
    Woven ((c :: piece) :: rest) name ↔ ∃ tail, name = c :: tail ∧ Woven (piece :: rest) tail := by
  constructor
  · rintro ⟨_, _, gaps, hpieces, hlength, hgaps, rfl⟩
    obtain ⟨rfl, rfl⟩ := List.cons.inj hpieces
    exact ⟨_, List.cons_append, piece, rest, gaps, rfl, hlength, hgaps, rfl⟩
  · rintro ⟨_, rfl, _, _, gaps, hpieces, hlength, hgaps, rfl⟩
    obtain ⟨rfl, rfl⟩ := List.cons.inj hpieces
    exact ⟨c :: piece, rest, gaps, rfl, hlength, hgaps, rfl⟩

/-- Before an empty first piece there is only the gap behind it. -/
theorem woven_nil_cons {pieces : List (List Char)} (hne : pieces ≠ []) {name : List Char} :
    Woven ([] :: pieces) name ↔ ∃ gap tail, '\n' ∉ gap ∧ name = gap ++ tail ∧ Woven pieces tail := by
  obtain ⟨first, rest, rfl⟩ := List.exists_cons_of_ne_nil hne
  constructor
  · rintro ⟨_, _, gaps, hpieces, hlength, hgaps, rfl⟩
    obtain ⟨rfl, rfl⟩ := List.cons.inj hpieces
    obtain ⟨gap, others, rfl⟩ := List.exists_cons_of_length_eq_add_one hlength
    obtain ⟨hgap, hothers⟩ := List.forall_mem_cons.mp hgaps
    refine ⟨gap, _, hgap, ?_, first, rest, others, rfl, Nat.succ.inj hlength, hothers, rfl⟩
    rw [List.nil_append, List.zipWith_cons_cons, List.flatten_cons, List.append_assoc]
  · rintro ⟨gap, _, hgap, rfl, _, _, others, hpieces, hlength, hothers, rfl⟩
    obtain ⟨rfl, rfl⟩ := List.cons.inj hpieces
    refine ⟨[], _, gap :: others, rfl, congrArg (· + 1) hlength,
      List.forall_mem_cons.mpr ⟨hgap, hothers⟩, ?_⟩
    rw [List.nil_append, List.zipWith_cons_cons, List.flatten_cons, List.append_assoc]

/-! ### The expression of a pattern -/

/-- What a character of a pattern becomes. -/
def partOf (c : Char) : Part := if c = '*' then .many .any else .one (.literal c)

/-- What a pattern becomes: its characters in their order, between the two ends. -/
def partsOf (source : List Char) : List Part := .start :: (source.map partOf ++ [.stop])

/-- Escaped pieces that are joined by repetitions spell what the characters of a pattern become. -/
theorem joined_escaped (source : List Char) :
    Text.joined ['.', '*'] ((Text.pieces '*' source).map fun piece => piece.flatMap escaped) =
      (source.map partOf).flatMap Part.spelling := by
  induction source with
  | nil => rfl
  | cons c source ih =>
      show _ = (partOf c).spelling ++ (source.map partOf).flatMap Part.spelling
      rw [← ih]
      by_cases hc : c = '*'
      · subst hc
        obtain ⟨first, rest, hpieces⟩ := List.exists_cons_of_ne_nil (Text.pieces_ne_nil '*' source)
        rw [Text.pieces, if_pos rfl, hpieces]
        rfl
      · obtain ⟨piece, rest, hpieces, hall⟩ := Text.pieces_cons_of_ne source hc
        rw [hall, hpieces, partOf, if_neg hc]
        cases rest <;> simp [Text.joined, Part.spelling, Atom.spelling]

theorem expression_eq (source : String) : expression source = spelling (partsOf source.toList) := by
  have hpieces : ((Text.pieces '*' source.toList).map String.ofList).map escape =
      ((Text.pieces '*' source.toList).map fun piece => piece.flatMap escaped).map String.ofList := by
    simp [escape, Function.comp_def]
  have hjoined : String.intercalate ".*" (((Text.pieces '*' source.toList).map String.ofList).map escape) =
      String.ofList ((source.toList.map partOf).flatMap Part.spelling) := by
    rw [hpieces, ← joined_escaped]
    exact Text.intercalate_ofList ['.', '*'] _
  calc expression source = "^" ++ String.ofList ((source.toList.map partOf).flatMap Part.spelling) ++ "$" := by
        rw [expression, hjoined]
    _ = spelling (partsOf source.toList) := by
        rw [spelling, partsOf, List.flatMap_cons, List.flatMap_append, String.ofList_append, String.ofList_append,
          ← String.append_assoc]
        rfl

/-! ### What it matches -/

variable {atStart : Bool} {source taken after : List Char} {parts : List Part}

/-- A repetition takes up a gap. -/
theorem matches_gap : Matches atStart (.many .any :: parts) taken after ↔
    ∃ gap rest, '\n' ∉ gap ∧ taken = gap ++ rest ∧ Matches (atStart && gap.isEmpty) parts rest after := by
  constructor
  · intro h
    generalize hparts : Part.many .any :: parts = whole at h
    induction h with
    | skip hrest =>
        obtain ⟨-, rfl⟩ := List.cons.inj hparts
        exact ⟨[], _, List.not_mem_nil, rfl, by simpa using hrest⟩
    | @more atStart _ c _ _ _ htakes _ ih =>
        obtain ⟨hatom, -⟩ := List.cons.inj hparts
        obtain rfl := Part.many.inj hatom
        obtain ⟨gap, rest, hgap, rfl, hrest⟩ := ih hparts
        exact ⟨c :: gap, rest, List.not_mem_cons_of_ne_of_not_mem (Ne.symm htakes) hgap, rfl, by simpa using hrest⟩
    | nil | one | start | stop => cases hparts
  · rintro ⟨gap, rest, hgap, rfl, hrest⟩
    induction gap generalizing atStart with
    | nil => exact .skip (by simpa using hrest)
    | cons c gap ih =>
        obtain ⟨hc, hgap⟩ := not_or.mp (mt List.mem_cons.mpr hgap)
        exact .more (Ne.symm hc) (ih hgap (by simpa using hrest))

theorem matches_literal {c : Char} : Matches atStart (.one (.literal c) :: parts) taken after ↔
    ∃ rest, taken = c :: rest ∧ Matches false parts rest after := by
  constructor
  · intro h
    cases h with
    | one htakes hrest => exact ⟨_, congrArg (· :: _) htakes, hrest⟩
  · rintro ⟨rest, rfl, hrest⟩
    exact .one rfl hrest

/-- From any place the characters of a pattern and the end behind them match what is woven of the pieces and
reaches to the end. -/
theorem matches_woven : Matches atStart (source.map partOf ++ [.stop]) taken after ↔
    after = [] ∧ Woven (Text.pieces '*' source) taken := by
  induction source generalizing atStart taken with
  | nil =>
      rw [List.map_nil, List.nil_append, Text.pieces, woven_single]
      constructor
      · intro h
        cases h with
        | stop => exact ⟨rfl, rfl⟩
      · rintro ⟨rfl, rfl⟩
        exact .stop .nil
  | cons c source ih =>
      rw [List.map_cons, List.cons_append, partOf]
      by_cases hc : c = '*'
      · subst hc
        rw [if_pos rfl, matches_gap, Text.pieces, if_pos rfl, woven_nil_cons (Text.pieces_ne_nil _ _)]
        simp only [ih]
        tauto
      · obtain ⟨piece, rest, hrest, hall⟩ := Text.pieces_cons_of_ne source hc
        rw [if_neg hc, matches_literal, hall, woven_cons, ← hrest]
        simp only [ih]
        tauto

/-- The expression of a pattern is found in just the names that are woven of the pieces of the pattern. -/
theorem foundIn_iff_woven (source name : List Char) :
    FoundIn (partsOf source) name ↔ Woven (Text.pieces '*' source) name := by
  constructor
  · rintro ⟨before, taken, after, rfl, hmatches⟩
    generalize hstart : before.isEmpty = atStart at hmatches
    cases hmatches with
    | start hrest =>
        obtain ⟨rfl, hwoven⟩ := matches_woven.mp hrest
        rw [List.isEmpty_iff.mp hstart, List.nil_append, List.append_nil]
        exact hwoven
  · intro hwoven
    exact ⟨[], name, [], by simp, .start (matches_woven.mpr ⟨rfl, hwoven⟩)⟩

/-- Whatever the library, as long as it does what is documented: of the texts whose expression is not too big for
it only those are refused that are blank. Every other one makes a pattern, which accepts exactly the names that are
woven of the pieces between its stars. -/
theorem accepts_iff_woven {library : Library} (hstandard : library.Standard) (text : String)
    (hsize : ∀ limit, library.compile (expression (Text.trimmed text)) ≠ .error (.tooBig limit)) :
    ((∃ error, parse library text = .error error ∧ error.code = .invalidArgument) ↔ Text.trimmed text = "") ∧
      (Text.trimmed text ≠ "" → ∃ pattern, parse library text = .ok pattern ∧ ∀ name : String,
        pattern.accepts name = true ↔
          ∃ first rest gaps, Text.pieces '*' (Text.trimmed text).toList = first :: rest ∧
            gaps.length = rest.length ∧ (∀ gap ∈ gaps, '\n' ∉ gap) ∧
            name.toList = first ++ (List.zipWith (· ++ ·) gaps rest).flatten) := by
  have hmade : Text.trimmed text ≠ "" → ∃ regex, library.compile (expression (Text.trimmed text)) = .ok regex ∧
      parse library text = .ok ⟨Text.trimmed text, regex⟩ := by
    intro hne
    cases hcompile : library.compile (expression (Text.trimmed text)) with
    | error refusal =>
        obtain ⟨limit, rfl⟩ := hstandard.compiles _ refusal (expression_eq _ ▸ hcompile)
        exact absurd hcompile (hsize limit)
    | ok regex => exact ⟨regex, rfl, by rw [parse, if_neg hne, hcompile]⟩
  constructor
  · constructor
    · rintro ⟨error, herror, -⟩
      by_contra hne
      obtain ⟨regex, -, hparse⟩ := hmade hne
      rw [hparse] at herror
      cases herror
    · intro hempty
      exact ⟨.invalidArgument "Search pattern must not be empty", by rw [parse, if_pos hempty], rfl⟩
  · intro hne
    obtain ⟨regex, hcompile, hparse⟩ := hmade hne
    refine ⟨_, hparse, fun name => ?_⟩
    exact (hstandard.finds _ regex (expression_eq _ ▸ hcompile) name).trans (foundIn_iff_woven _ _)

/-- A full stop in a pattern stands for itself. -/
theorem full_stop_accepts_itself :
    builtIn.Standard ∧
      (∀ limit, builtIn.compile (expression (Text.trimmed " Get.*")) ≠ .error (.tooBig limit)) ∧
      ∃ pattern, parse builtIn " Get.*" = .ok pattern ∧
        pattern.accepts "Get.Value" = true ∧ pattern.accepts "GetValue" = false := by
  have hsize : ∀ limit, builtIn.compile (expression (Text.trimmed " Get.*")) ≠ .error (.tooBig limit) := by
    intro limit
    rw [expression_eq, compile_spelling, if_neg (by decide)]
    exact fun h => nomatch h
  obtain ⟨-, hmade⟩ := accepts_iff_woven builtIn_standard " Get.*" hsize
  obtain ⟨pattern, hpattern, haccepts⟩ := hmade (by decide)
  have hpieces : Text.pieces '*' (Text.trimmed " Get.*").toList = [['G', 'e', 't', '.'], []] := by decide
  refine ⟨builtIn_standard, hsize, pattern, hpattern, (haccepts _).mpr ?_,
    Bool.eq_false_iff.mpr fun hvalue => ?_⟩
  · exact ⟨_, _, [['V', 'a', 'l', 'u', 'e']], hpieces, rfl, by decide, by decide⟩
  · obtain ⟨first, rest, gaps, hcut, -, -, hname⟩ := (haccepts _).mp hvalue
    obtain ⟨rfl, -⟩ := List.cons.inj (hpieces.symm.trans hcut)
    exact absurd (congrArg (·[3]?) hname) (by simp)

end CodeIntel.SearchPattern
