import CodeIntel.CSharp.Cache
import CodeIntel.Proofs.Outcome
import Mathlib.Logic.Relation

/-! The cache of the engine for C# does not show. An index depends on the path and the text of its document
and not on the version; so as long as no two texts of one document that are looked up have one hash, what
is kept under a key is the index of every document with that key, whoever kept it and whatever was pushed
out since. -/

namespace CodeIntel.CSharp

/-! ### Versions do not matter -/

section

variable (path text : String) (version other : Nat)

theorem declare_version :
    Visit.declare ⟨path, text, version⟩ = Visit.declare ⟨path, text, other⟩ := rfl

theorem addMethod_version :
    Visit.addMethod ⟨path, text, version⟩ = Visit.addMethod ⟨path, text, other⟩ := rfl

theorem addVariables_version :
    Visit.addVariables ⟨path, text, version⟩ = Visit.addVariables ⟨path, text, other⟩ := rfl

theorem addCall_version :
    Visit.addCall ⟨path, text, version⟩ = Visit.addCall ⟨path, text, other⟩ := rfl

theorem addIdentifier_version :
    Visit.addIdentifier ⟨path, text, version⟩ = Visit.addIdentifier ⟨path, text, other⟩ := rfl

theorem addImport_version :
    Visit.addImport ⟨path, text, version⟩ = Visit.addImport ⟨path, text, other⟩ := rfl

mutual

theorem visitTree_version (parentKind : String) : ∀ (t : Tree) (visit : Visit),
    Visit.tree ⟨path, text, version⟩ parentKind t visit =
      Visit.tree ⟨path, text, other⟩ parentKind t visit
  | .node head children, visit => by
      have htrees := visitTrees_version head.kind children
      rw [Visit.tree, Visit.tree]
      simp only [htrees, declare_version path text version other, addMethod_version path text version other,
        addVariables_version path text version other, addCall_version path text version other,
        addIdentifier_version path text version other, addImport_version path text version other]

theorem visitTrees_version (parentKind : String) : ∀ (children : List Tree) (visit : Visit),
    Visit.trees ⟨path, text, version⟩ parentKind children visit =
      Visit.trees ⟨path, text, other⟩ parentKind children visit
  | [], visit => rfl
  | child :: rest, visit => by
      have htree := visitTree_version parentKind child
      have htrees := visitTrees_version parentKind rest
      rw [Visit.trees, Visit.trees]
      simp only [htree, htrees]

end

mutual

theorem faultsBelow_version : ∀ t : Tree,
    t.faultsBelow ⟨path, text, version⟩ = t.faultsBelow ⟨path, text, other⟩
  | .node head children => by
      rw [Tree.faultsBelow, Tree.faultsBelow, faultsAmong_version children]
      rfl

theorem faultsAmong_version : ∀ children : List Tree,
    Tree.faultsAmong ⟨path, text, version⟩ children = Tree.faultsAmong ⟨path, text, other⟩ children
  | [] => rfl
  | child :: rest => by
      rw [Tree.faultsAmong, Tree.faultsAmong, faultsBelow_version child, faultsAmong_version rest]

end

theorem build_version (t : Tree) :
    Index.build ⟨path, text, version⟩ t = Index.build ⟨path, text, other⟩ t := by
  simp only [Index.build, Tree.faults, visitTree_version path text version other,
    faultsBelow_version path text version other]

end

/-- Documents with one path and one text have one index. -/
theorem indexOf_congr (parser : Parser) {d e : Document} (hpath : d.path = e.path)
    (htext : d.text = e.text) : indexOf parser d = indexOf parser e := by
  obtain ⟨path, text, version⟩ := d
  obtain ⟨_, _, other⟩ := e
  obtain rfl := hpath
  obtain rfl := htext
  simp only [indexOf, build_version path text version other]

/-! ### What is kept -/

/-- No two texts of one document have one hash, among the documents that are asked for. -/
def Hash.Distinguishes (hash : Hash) (asked : Document → Prop) : Prop :=
  ∀ d e, asked d → asked e → d.path = e.path → hash d.text = hash e.text → d.text = e.text

/-- In one snapshot no path stands twice, so that there is nothing to mix up. -/
theorem Hash.distinguishes_of_paths (hash : Hash) {asked : Document → Prop}
    (hpaths : ∀ d e, asked d → asked e → d.path = e.path → d = e) : hash.Distinguishes asked :=
  fun d e hd he hpath _ => congrArg Document.text (hpaths d e hd he hpath)

/-- A step that a request takes on the cache: it finds the index of a document, or it keeps one that it
has made. -/
inductive CacheStep (hash : Hash) (parser : Parser) (asked : Document → Prop) : Cache → Cache → Prop where
  | found {cache next : Cache} {d : Document} {index : Index} : asked d →
      cache.take? (hash.key d) = some (index, next) → CacheStep hash parser asked cache next
  | kept {cache : Cache} {d : Document} {index : Index} : asked d → indexOf parser d = .ok index →
      CacheStep hash parser asked cache (cache.put (hash.key d) index)

/-- Every entry is the index of a document that was asked for, no key stands twice, and there are no more
entries than there is room for. -/
structure Cache.Sound (hash : Hash) (parser : Parser) (asked : Document → Prop) (cache : Cache) : Prop where
  own : ∀ entry ∈ cache.entries, ∃ d, asked d ∧ entry.1 = hash.key d ∧ indexOf parser d = .ok entry.2
  distinct : (cache.entries.map Prod.fst).Nodup
  room : cache.entries.length ≤ cache.capacity

section

variable {hash : Hash} {parser : Parser} {asked : Document → Prop} {cache next : Cache}
  {key : CacheKey} {index : Index}

theorem Cache.Sound.ofCapacity (capacity : Nat) :
    (Cache.ofCapacity capacity).Sound hash parser asked where
  own _ hmem := by cases hmem
  distinct := List.nodup_nil
  room := Nat.zero_le _

theorem Cache.take?_eq_some (h : cache.take? key = some (index, next)) :
    (key, index) ∈ cache.entries ∧
      next = { cache with entries := (key, index) :: cache.others key } := by
  rw [take?] at h
  split at h
  · rename_i other found hfound
    obtain ⟨rfl, rfl⟩ := Prod.mk.inj (Option.some.inj h)
    have hkey : other = key := by simpa using List.find?_some hfound
    exact ⟨hkey ▸ List.mem_of_find?_eq_some hfound, rfl⟩
  · cases h

theorem Cache.Sound.nodup_cons_others (h : cache.Sound hash parser asked) (key : CacheKey)
    (index : Index) : (((key, index) :: cache.others key).map Prod.fst).Nodup := by
  rw [List.map_cons, List.nodup_cons]
  refine ⟨?_, h.distinct.sublist (List.filter_sublist.map _)⟩
  simp [others]

theorem Cache.Sound.step (h : cache.Sound hash parser asked)
    (hstep : CacheStep hash parser asked cache next) : next.Sound hash parser asked := by
  cases hstep with
  | @found _ d index hasked htake =>
      obtain ⟨hmem, rfl⟩ := take?_eq_some htake
      refine ⟨?_, h.nodup_cons_others _ _, ?_⟩
      · intro entry hentry
        rcases List.mem_cons.mp hentry with rfl | hentry
        · exact h.own _ hmem
        · exact h.own entry (List.mem_filter.mp hentry).1
      · -- The entry that was found is left out behind the new one.
        have hfewer : (cache.others (hash.key d)).length < cache.entries.length :=
          List.length_filter_lt_length_iff_exists.mpr ⟨_, hmem, by simp⟩
        exact Nat.lt_of_lt_of_le hfewer h.room
  | @kept d index hasked hindex =>
      refine ⟨?_, ?_, ?_⟩
      · intro entry hentry
        rcases List.mem_cons.mp (List.mem_of_mem_take hentry) with rfl | hentry
        · exact ⟨d, hasked, rfl, hindex⟩
        · exact h.own entry (List.mem_filter.mp hentry).1
      · exact (h.nodup_cons_others _ _).sublist ((List.take_sublist _ _).map _)
      · exact List.length_take_le _ _

/-- However the steps of requests fall, the cache stays sound. -/
theorem Cache.Sound.run (h : cache.Sound hash parser asked)
    (hrun : Relation.ReflTransGen (CacheStep hash parser asked) cache next) :
    next.Sound hash parser asked := by
  induction hrun with
  | refl => exact h
  | tail _ hstep ih => exact ih.step hstep

variable {d : Document}

/-- What is found for a document is its own index. -/
theorem Cache.Sound.indexOf_eq_ok (h : cache.Sound hash parser asked)
    (hdistinguishes : hash.Distinguishes asked) (hasked : asked d)
    (htake : cache.take? (hash.key d) = some (index, next)) : indexOf parser d = .ok index := by
  obtain ⟨e, hother, hkey, hindex⟩ := h.own _ (take?_eq_some htake).1
  obtain ⟨hpath, hhash⟩ := CacheKey.mk.inj hkey
  rw [indexOf_congr parser hpath (hdistinguishes d e hasked hother hpath hhash), hindex]

theorem cachedIndexOf_eq (h : cache.Sound hash parser asked)
    (hdistinguishes : hash.Distinguishes asked) (hasked : asked d) :
    (cachedIndexOf hash parser d cache).1 = indexOf parser d ∧
      Relation.ReflTransGen (CacheStep hash parser asked) cache
        (cachedIndexOf hash parser d cache).2 := by
  rw [cachedIndexOf]
  split
  · rename_i index next htake
    exact ⟨(h.indexOf_eq_ok hdistinguishes hasked htake).symm, .single (.found hasked htake)⟩
  · split
    · rename_i index hindex
      exact ⟨hindex.symm, .single (.kept hasked hindex)⟩
    · rename_i error herror
      exact ⟨herror.symm, .refl⟩

end

/-- The cache does not show: at every point of any interleaving of steps on it, looking a document up gives
what the engine makes of the document, if no two texts of one document that are asked for have one hash.
The cache never holds more than it has room for. -/
theorem cached_index_is_own {hash : Hash} {parser : Parser} {asked : Document → Prop} {capacity : Nat}
    {cache : Cache} (hdistinguishes : hash.Distinguishes asked)
    (hrun : Relation.ReflTransGen (CacheStep hash parser asked) (Cache.ofCapacity capacity) cache) :
    cache.entries.length ≤ cache.capacity ∧
      ∀ d, asked d → (cachedIndexOf hash parser d cache).1 = indexOf parser d ∧
        Relation.ReflTransGen (CacheStep hash parser asked) (Cache.ofCapacity capacity)
          (cachedIndexOf hash parser d cache).2 := by
  have hsound := (Cache.Sound.ofCapacity capacity).run hrun
  refine ⟨hsound.room, fun d hasked => ?_⟩
  obtain ⟨hindex, hsteps⟩ := cachedIndexOf_eq hsound hdistinguishes hasked
  exact ⟨hindex, hrun.trans hsteps⟩

/-- Documents that are looked up one after another have the indexes that the engine makes of them, whatever
room there is. -/
theorem lookups_eq {hash : Hash} {parser : Parser} {asked : Document → Prop} {capacity : Nat}
    {cache : Cache} (hdistinguishes : hash.Distinguishes asked)
    (hrun : Relation.ReflTransGen (CacheStep hash parser asked) (Cache.ofCapacity capacity) cache)
    {documents : List Document} (hasked : ∀ d ∈ documents, asked d) :
    ((documents.mapM (m := StateM Cache) (cachedIndexOf hash parser)).run cache).1 =
      documents.map (indexOf parser) := by
  induction documents generalizing cache with
  | nil => rfl
  | cons d rest ih =>
      obtain ⟨hindex, hrun⟩ := (cached_index_is_own hdistinguishes hrun).2 d (hasked d List.mem_cons_self)
      have hrest := ih hrun fun e hmem => hasked e (List.mem_cons_of_mem _ hmem)
      rw [List.mapM_cons, List.map_cons, ← hindex]
      exact congrArg (List.cons _) hrest

/-- A parser that takes the first letter of every text for a name. -/
def letterParser : Parser := fun _ =>
  some (.node ⟨"identifier", true, false, false, false, ⟨0, 1⟩, []⟩ [])

/-- With one hash for all texts the second text of a document is given the index of the first. -/
theorem colliding_texts_mixed_up :
    (cachedIndexOf (fun _ => 0) letterParser ⟨"a", "y", 1⟩
        (cachedIndexOf (fun _ => 0) letterParser ⟨"a", "x", 0⟩ (.ofCapacity 1)).2).1 =
      indexOf letterParser ⟨"a", "x", 0⟩ ∧
    indexOf letterParser ⟨"a", "x", 0⟩ ≠ indexOf letterParser ⟨"a", "y", 1⟩ := by
  have hfirst : (indexOf letterParser ⟨"a", "x", 0⟩).map Index.identifiers = .ok [⟨"x", ⟨0, 1⟩⟩] := by rfl
  have hsecond : (indexOf letterParser ⟨"a", "y", 1⟩).map Index.identifiers = .ok [⟨"y", ⟨0, 1⟩⟩] := by rfl
  refine ⟨by rfl, fun hsame => ?_⟩
  rw [hsame, hsecond] at hfirst
  exact absurd hfirst (by decide)

end CodeIntel.CSharp
