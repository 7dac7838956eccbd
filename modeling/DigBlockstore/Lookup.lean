import DigBlockstore.Tier

/-! What the lookup tiers answer, and what a read may do to the store: move cache entries
and add entries taken from the rows. -/
namespace DigBlockstore
open ByteCodec Faulty

/- `CF_CANONICAL` as a partial function on heights. -/
def canonicalAt (db : Db) (height : UInt64) : Option Bytes32 :=
  (db .canonical)[heightKey height]?.bind Bytes32.ofBytes?

namespace Store
variable (crates : Crates)

/- The row behind the height cache: `canonical.bin` first, `CF_CANONICAL` otherwise. -/
def stored (s : Store) (height : UInt64) : Option Bytes32 :=
  (s.canonicalBin.answer height).or (canonicalAt s.db height)

def lookup (s : Store) (height : UInt64) : Option Bytes32 :=
  if height < s.minRetainedHeightCached then none
  else s.canonicalHeightCache[height]?.or (s.stored height)

def headerAt (s : Store) (hash : Bytes32) : Option L2BlockHeader :=
  (s.db .headers)[hashKey hash]?.bind fun raw => (deserializeHeader crates raw).toOption

def bodyAt (s : Store) (hash : Bytes32) : Option L2Block :=
  (s.db .blocks)[hashKey hash]?.bind fun raw => (s.deserializeBlock crates raw).toOption

/- A header the store can take for the hash without hashing anything. -/
def Knows (s : Store) (hash : Bytes32) (header : L2BlockHeader) : Prop :=
  s.headerCache.peek hash = some header ∨ s.headerAt crates hash = some header ∨
    ∃ block, s.bodyAt crates hash = some block ∧ header = block.header

structure Touched (s t : Store) : Prop where
  rest : t = {s with
    recordCache := t.recordCache
    blockCache := t.blockCache
    headerCache := t.headerCache
    canonicalHeightCache := t.canonicalHeightCache
    hashToHeightCache := t.hashToHeightCache}
  heights : ∀ h x, t.canonicalHeightCache[h]? = some x →
    s.canonicalHeightCache[h]? = some x ∨ s.minRetainedHeightCached ≤ h ∧ s.stored h = some x
  bodies : ∀ hash block, t.blockCache.peek hash = some block →
    s.blockCache.peek hash = some block ∨ s.bodyAt crates hash = some block
  headers : ∀ hash header, t.headerCache.peek hash = some header → s.Knows crates hash header
  records : ∀ hash record, t.recordCache hash = some record →
    s.recordCache hash = some record ∨ s.recordCache hash = none ∧
      ∃ header, s.Knows crates hash header ∧ record = .fromHeader crates header .validated
  recordsKept : ∀ hash record, s.recordCache hash = some record → t.recordCache hash = some record
  heightsOf : ∀ hash n, t.hashToHeightCache.peek hash = some n →
    s.hashToHeightCache.peek hash = some n ∨ (∃ header, s.Knows crates hash header ∧ n = header.height) ∨
      ∃ record, s.recordCache hash = some record ∧ n = record.height

namespace Touched
variable {crates} {s t u : Store}

theorem refl (s : Store) : Touched crates s s where
  rest := rfl
  heights _ _ found := .inl found
  bodies _ _ found := .inl found
  headers _ _ found := .inl found
  records _ _ found := .inl found
  recordsKept _ _ found := found
  heightsOf _ _ found := .inl found

section Fields
variable (h : Touched crates s t)
include h

theorem db : t.db = s.db := by rw [h.rest]
theorem tip : t.tip = s.tip := by rw [h.rest]
theorem readOnly : t.readOnly = s.readOnly := by rw [h.rest]
theorem bin : t.canonicalBin = s.canonicalBin := by rw [h.rest]
theorem floor : t.minRetainedHeightCached = s.minRetainedHeightCached := by rw [h.rest]
theorem capacity : t.canonicalHeightCacheCapacity = s.canonicalHeightCacheCapacity := by rw [h.rest]
theorem zstdDict : t.zstdDict = s.zstdDict := by rw [h.rest]
theorem stored (height : UInt64) : t.stored height = s.stored height := by
  rw [Store.stored,h.bin,h.db,Store.stored]
theorem headerAt (hash : Bytes32) : t.headerAt crates hash = s.headerAt crates hash := by
  rw [Store.headerAt,h.db,Store.headerAt]
theorem deserialize (raw : Bytes) : t.deserializeBlock crates raw = s.deserializeBlock crates raw := by
  rw [h.rest]
  rfl
theorem bodyAt (hash : Bytes32) : t.bodyAt crates hash = s.bodyAt crates hash := by
  rw [Store.bodyAt,h.db,Store.bodyAt]
  simp only [h.deserialize]
theorem knows {hash : Bytes32} {header : L2BlockHeader} (known : t.Knows crates hash header) :
    s.Knows crates hash header := by
  rcases known with cached | row | ⟨block,row,same⟩
  · exact h.headers hash header cached
  · exact .inr (.inl (by rw [← h.headerAt]; exact row))
  · exact .inr (.inr ⟨block,by rw [← h.bodyAt]; exact row,same⟩)

end Fields

theorem trans (first : Touched crates s t) (later : Touched crates t u) : Touched crates s u where
  rest := by
    rw [later.rest,first.rest]
  heights h x found := by
    rcases later.heights h x found with cached | ⟨low,row⟩
    · exact first.heights h x cached
    · rw [first.floor] at low
      rw [first.stored] at row
      exact .inr ⟨low,row⟩
  bodies hash block found := by
    rcases later.bodies hash block found with cached | row
    · exact first.bodies hash block cached
    · rw [first.bodyAt] at row
      exact .inr row
  headers hash header found := first.knows (later.headers hash header found)
  records hash record found := by
    rcases later.records hash record found with cached | ⟨empty,header,known,made⟩
    · exact first.records hash record cached
    · refine .inr ⟨?_,header,first.knows known,made⟩
      cases older : s.recordCache hash with
      | none => rfl
      | some r => rw [first.recordsKept hash r older] at empty; cases empty
  recordsKept hash record found := later.recordsKept hash record (first.recordsKept hash record found)
  heightsOf hash n found := by
    rcases later.heightsOf hash n found with cached | ⟨header,known,same⟩ | ⟨record,cached,same⟩
    · exact first.heightsOf hash n cached
    · exact .inr (.inl ⟨header,first.knows known,same⟩)
    · rcases first.records hash record cached with older | ⟨_,header,known,made⟩
      · exact .inr (.inr ⟨record,older,same⟩)
      · exact .inr (.inl ⟨header,known,by rw [same,made]; rfl⟩)

end Touched

theorem evictLowestSub {capacity fuel : Nat} {cache : Std.ExtTreeMap UInt64 Bytes32 compare}
    {h : UInt64} {x : Bytes32} (found : (evictLowest capacity fuel cache)[h]? = some x) :
    cache[h]? = some x := by
  induction fuel generalizing cache with
  | zero => exact found
  | succ fuel ih =>
    unfold evictLowest at found
    split at found
    · split at found
      · have kept := ih found
        rw [Std.ExtTreeMap.getElem?_erase] at kept
        split at kept
        · cases kept
        · exact kept
      · exact found
    · exact found

theorem insertHeightFound {s : Store} {height h : UInt64} {hash x : Bytes32}
    (found : (s.insertCanonicalHeightCache height hash).canonicalHeightCache[h]? = some x) :
    h = height ∧ x = hash ∨ s.canonicalHeightCache[h]? = some x ∧
      (s.canonicalHeightCacheCapacity ≠ 0 → h ≠ height) := by
  unfold insertCanonicalHeightCache at found
  split at found
  · rename_i off
    exact .inr ⟨found,fun on => absurd off on⟩
  · have kept := evictLowestSub found
    rw [Std.ExtTreeMap.getElem?_insert] at kept
    split at kept
    · rename_i same
      exact .inl ⟨(Std.LawfulEqCmp.eq_of_compare same).symm,(Option.some.inj kept).symm⟩
    · rename_i apart
      refine .inr ⟨kept,fun _ same => apart ?_⟩
      subst same
      exact Std.ReflCmp.compare_self

theorem insertHeightRest (s : Store) (height : UInt64) (hash : Bytes32) :
    s.insertCanonicalHeightCache height hash = {s with
      canonicalHeightCache := (s.insertCanonicalHeightCache height hash).canonicalHeightCache} := by
  unfold insertCanonicalHeightCache
  split <;> rfl

theorem touchedInsertHeight {s : Store} {height : UInt64} {hash : Bytes32}
    (low : s.minRetainedHeightCached ≤ height) (row : s.stored height = some hash) :
    Touched crates s (s.insertCanonicalHeightCache height hash) where
  rest := by
    rw [insertHeightRest]
  heights h x found := by
    rcases insertHeightFound found with ⟨rfl,rfl⟩ | ⟨older,_⟩
    · exact .inr ⟨low,row⟩
    · exact .inl older
  bodies hash block found := by rw [insertHeightRest] at found; exact .inl found
  headers hash header found := by rw [insertHeightRest] at found; exact .inl found
  records hash record found := by rw [insertHeightRest] at found; exact .inl found
  recordsKept hash record found := by rw [insertHeightRest]; exact found
  heightsOf hash n found := by rw [insertHeightRest] at found; exact .inl found

end Store

end DigBlockstore
