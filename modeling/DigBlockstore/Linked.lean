import DigBlockstore.Lookups
import DigBlockstore.Library.Segment

/-! Linked runs: the canonical rows are a segment of a linked chain from the floor to the
tip. Each call of such a run keeps it. -/
namespace DigBlockstore
open ByteCodec Faulty ColumnStore PartialMap Pipeline Trace ChainSegment

theorem toNatInjective : Function.Injective UInt64.toNat := fun _ _ => UInt64.toNat_inj.mp

namespace Store
variable {crates : Crates} {s t u : Store} {content : Bytes32 → L2BlockHeader}

def Mentions (s : Store) (hash : Bytes32) : Prop :=
  (s.headerCache.peek hash).isSome ∨ (s.blockCache.peek hash).isSome ∨ (s.recordCache hash).isSome

/- Block and header rows come in pairs, and the caches mention no other hash. -/
structure Whole (s : Store) : Prop where
  paired : ∀ hash, (s.db .blocks)[hashKey hash]?.isSome ↔ (s.db .headers)[hashKey hash]?.isSome
  cached : ∀ hash, s.Mentions hash → (s.db .headers)[hashKey hash]?.isSome

def Stored (s : Store) (hash : Bytes32) : Prop := (s.db .headers)[hashKey hash]?.isSome

def Spans (content : Bytes32 → L2BlockHeader) (index : UInt64 → Option Bytes32) (low high : UInt64) : Prop :=
  Segment UInt64.toNat (fun x => (content x).height) (fun x => (content x).parentHash) index low high

structure Headed (content : Bytes32 → L2BlockHeader) (index : UInt64 → Option Bytes32) (low : UInt64)
    (tip : ChainTip) : Prop where
  spans : Spans content index low tip.height
  top : index tip.height = some tip.hash

/- With no tip there are no rows and nothing has been pruned. -/
def Chained (content : Bytes32 → L2BlockHeader) (index : UInt64 → Option Bytes32) (low : UInt64) :
    Option ChainTip → Prop
  | none => (∀ h, index h = none) ∧ low = 0
  | some tip => Headed content index low tip

structure Linked (crates : Crates) (content : Bytes32 → L2BlockHeader) (s : Store) : Prop where
  filed : Filed crates content s
  whole : Whole s
  chain : Chained content (canonicalAt s.db) s.minRetainedHeightCached s.tip
  held : ∀ h x, canonicalAt s.db h = some x → s.Stored x

/- The ascending parent walk over the header rows. -/
inductive ParentWalk (crates : Crates) (s : Store) : Bytes32 → UInt64 → List Bytes32 → Bytes32 → UInt64 → Prop where
  | nil (a : Bytes32) (height : UInt64) : ParentWalk crates s a height [] a height
  | cons {a c b : Bytes32} {height top : UInt64} {rest : List Bytes32} {header : L2BlockHeader}
      (row : s.headerAt crates c = some header) (up : header.parentHash = a)
      (next : header.height.toNat = height.toNat + 1) (later : ParentWalk crates s c header.height rest b top) :
      ParentWalk crates s a height (c :: rest) b top

/- The calls of a linked run. -/
inductive LinkedCall (crates : Crates) (s : Store) : Call → Prop where
  | read (r : Read) : LinkedCall crates s (.read r)
  | genesis (block : L2Block) : LinkedCall crates s (.initGenesis block)
  | aside (block : L2Block) : LinkedCall crates s (.putBlock block false)
  | extend {block : L2Block} {tip : ChainTip} (head : s.tip = some tip) (up : block.header.parentHash = tip.hash)
      (next : block.height.toNat = tip.height.toNat + 1) : LinkedCall crates s (.extendChain block)
  | rollback (target : UInt64) : LinkedCall crates s (.rollbackToHeight target)
  | reorg {a b : Bytes32} {ancestor top depth : UInt64} {walk : List Bytes32} {u : Store}
      (found : Runs (findCommonAncestor crates b depth) s (.ok (some (a,ancestor))) u)
      (steps : ParentWalk crates s a ancestor walk b top) : LinkedCall crates s (.applyReorg ancestor walk)
  | prune {tip : ChainTip} {height : UInt64} (head : s.tip = some tip) (below : height ≤ tip.height) :
      LinkedCall crates s (.pruneBeforeHeight height)

section Whole

theorem Knows.stored (whole : Whole s) {hash : Bytes32} {header : L2BlockHeader}
    (known : s.Knows crates hash header) : s.Stored hash := by
  rcases known with cached | row | ⟨block,row,_⟩
  · exact whole.cached hash (.inl (by rw [cached]; rfl))
  · obtain ⟨raw,found,_⟩ := Option.bind_eq_some_iff.mp row
    rw [Stored,found]
    rfl
  · obtain ⟨raw,found,_⟩ := Option.bind_eq_some_iff.mp row
    exact (whole.paired hash).mp (by rw [found]; rfl)

theorem Touched.whole (touched : Touched crates s t) (whole : Whole s) : Whole t where
  paired := by rw [touched.db]; exact whole.paired
  cached hash mentioned := by
    rw [touched.db]
    rcases mentioned with header | body | record
    · obtain ⟨header,found⟩ := Option.isSome_iff_exists.mp header
      exact Knows.stored whole (touched.headers hash header found)
    · obtain ⟨block,found⟩ := Option.isSome_iff_exists.mp body
      rcases touched.bodies hash block found with cached | row
      · exact whole.cached hash (.inr (.inl (by rw [cached]; rfl)))
      · exact Knows.stored whole (.inr (.inr ⟨block,row,rfl⟩))
    · obtain ⟨record,found⟩ := Option.isSome_iff_exists.mp record
      rcases touched.records hash record found with cached | ⟨_,header,known,_⟩
      · exact whole.cached hash (.inr (.inr (by rw [cached]; rfl)))
      · exact Knows.stored whole known

theorem Keeps.mentions (keeps : Keeps s t) {hash : Bytes32} (mentioned : t.Mentions hash) : s.Mentions hash := by
  rcases mentioned with header | body | record
  · obtain ⟨header,found⟩ := Option.isSome_iff_exists.mp header
    exact .inl (by rw [keeps.header hash header found]; rfl)
  · obtain ⟨block,found⟩ := Option.isSome_iff_exists.mp body
    exact .inr (.inl (by rw [keeps.body hash block found]; rfl))
  · obtain ⟨record,found⟩ := Option.isSome_iff_exists.mp record
    obtain ⟨r,held,_⟩ := keeps.record hash record found
    exact .inr (.inr (by rw [held]; rfl))

theorem Keeps.whole (keeps : Keeps s t) (whole : Whole s) (blocks : t.db .blocks = s.db .blocks)
    (headers : t.db .headers = s.db .headers) : Whole t where
  paired := by rw [blocks,headers]; exact whole.paired
  cached hash mentioned := by
    rw [headers]
    exact whole.cached hash (keeps.mentions mentioned)

theorem Ingests.stored {block : L2Block} {compressed headerBytes : Bytes}
    (ingests : Ingests crates s t block compressed headerBytes) (hash : Bytes32) :
    t.Stored hash ↔ hash = block.hash crates ∨ s.Stored hash := by
  unfold Stored
  rw [ingests.rows .headers (.inr rfl),bodyRowsRow]
  by_cases same : hash = block.hash crates
  · simp [same]
  · rw [if_neg fun both => same (hashKeyInj.mp both.2),if_neg (by simp)]
    simp [same]

theorem Whole.ingest {block : L2Block} {compressed headerBytes : Bytes} (whole : Whole s)
    (ingests : Ingests crates s t block compressed headerBytes) : Whole t := by
  refine ⟨fun hash => ?_,fun hash mentioned => (ingests.stored hash).mpr ?_⟩
  · rw [show (t.db .headers)[hashKey hash]?.isSome ↔ _ from ingests.stored hash,ingests.rows .blocks (.inl rfl),bodyRowsRow,if_neg (by simp)]
    by_cases same : hash = block.hash crates
    · simp [same]
    · rw [if_neg fun both => same (hashKeyInj.mp both.2),whole.paired]
      simp [same,Stored]
  · by_cases same : hash = block.hash crates
    · exact .inl same
    · refine .inr (whole.cached hash ?_)
      rcases mentioned with header | body | record
      · rw [ingests.headers] at header
        obtain ⟨header,found⟩ := Option.isSome_iff_exists.mp header
        rcases ShardedLruCache.peekInsert found with ⟨rfl,_⟩ | ⟨_,older⟩
        · exact absurd rfl same
        · exact .inl (Option.isSome_iff_exists.mpr ⟨_,older⟩)
      · rw [ingests.bodies] at body
        obtain ⟨block,found⟩ := Option.isSome_iff_exists.mp body
        rcases ShardedLruCache.peekInsert found with ⟨rfl,_⟩ | ⟨_,older⟩
        · exact absurd rfl same
        · exact .inr (.inl (Option.isSome_iff_exists.mpr ⟨_,older⟩))
      · rw [ingests.records] at record
        refine .inr (.inr ?_)
        change (Function.update s.recordCache (block.hash crates) _ hash).isSome at record
        rwa [Function.update_of_ne same] at record

end Whole

end Store
end DigBlockstore
