import CodeIntel.CSharp.Engine

/-! The cache of the engine for C#. The index of a document is kept under its path and a hash of its text,
so that a text is indexed once while its entry lasts; when there is no room the entry that was used
longest ago goes. Looking an index up and keeping one are single steps, and between the two of one
request there may be steps of others. -/

namespace CodeIntel.CSharp

/-- A hash of texts. -/
abbrev Hash := String → UInt64

/-- What an index is kept under. -/
structure CacheKey where
  path : String
  hash : UInt64
deriving DecidableEq, Repr, Inhabited

/-- The key of a document. -/
def Hash.key (hash : Hash) (d : Document) : CacheKey := ⟨d.path, hash d.text⟩

/-- The indexes that are kept, the one that was used last in front. -/
structure Cache where
  /-- How many there may be. -/
  capacity : Nat
  entries : List (CacheKey × Index) := []

namespace Cache

/-- How many indexes are kept unless someone says otherwise. -/
def defaultCapacity : Nat := 512

/-- A cache with nothing in it; there is room for one index in any. -/
def ofCapacity (capacity : Nat := defaultCapacity) : Cache := { capacity := max 1 capacity }

/-- The entries under other keys. -/
def others (cache : Cache) (key : CacheKey) : List (CacheKey × Index) :=
  cache.entries.filter fun entry => entry.1 ≠ key

/-- The index under a key, and the cache in which it is the one used last. -/
def take? (cache : Cache) (key : CacheKey) : Option (Index × Cache) :=
  match cache.entries.find? fun entry => entry.1 = key with
  | some (_, index) => some (index, { cache with entries := (key, index) :: cache.others key })
  | none => none

/-- Keeps an index under a key. -/
def put (cache : Cache) (key : CacheKey) (index : Index) : Cache :=
  { cache with entries := ((key, index) :: cache.others key).take cache.capacity }

end Cache

/-- The index of a document, from the cache if it is there. -/
def cachedIndexOf (hash : Hash) (parser : Parser) (d : Document) (cache : Cache) :
    Except EngineError Index × Cache :=
  match cache.take? (hash.key d) with
  | some (index, cache) => (.ok index, cache)
  | none =>
    match indexOf parser d with
    | .ok index => (.ok index, cache.put (hash.key d) index)
    | .error error => (.error error, cache)

end CodeIntel.CSharp
