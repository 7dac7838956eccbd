import DigBlockstore.RowRuns
import DigBlockstore.Ancestors
import DigBlockstore.Library.Greatest

/-! The height cache as the set of the heights it holds: an insert keeps the greatest of them
that fit. Every call but a reorg keeps the cache within its capacity. -/
namespace DigBlockstore
open ByteCodec Faulty ColumnStore PartialMap Pipeline Greatest Trace
open Std (ExtTreeMap)

instance heightOrder : LinearOrder UInt64 where
  le_refl := UInt64.le_refl
  le_trans _ _ _ := UInt64.le_trans
  lt_iff_le_not_ge _ _ := Std.lt_iff_le_and_not_ge
  le_antisymm _ _ := UInt64.le_antisymm
  le_total := UInt64.le_total
  toDecidableLE := inferInstance
  toDecidableLT := inferInstance
  toDecidableEq := inferInstance
  min_def _ _ := rfl
  max_def _ _ := rfl
  compare_eq_compareOfLessAndEq _ _ := rfl

namespace Store
variable {crates : Crates} {s t u : Store}

section Maps
variable {cache : ExtTreeMap UInt64 Bytes32 compare} {h : UInt64}

def heightsIn (cache : ExtTreeMap UInt64 Bytes32 compare) : Finset UInt64 := cache.keys.toFinset

theorem memHeightsIn : h ∈ heightsIn cache ↔ h ∈ cache := by
  rw [heightsIn,List.mem_toFinset,ExtTreeMap.mem_keys]

theorem cardHeightsIn (cache : ExtTreeMap UInt64 Bytes32 compare) : (heightsIn cache).card = cache.size := by
  rw [heightsIn,List.toFinset_card_of_nodup ExtTreeMap.nodup_keys,ExtTreeMap.length_keys]

theorem getHeightsIn : (if h ∈ heightsIn cache then cache[h]? else none) = cache[h]? := by
  split
  · rfl
  · rename_i out
    exact (ExtTreeMap.getElem?_eq_none fun mem => out (memHeightsIn.mpr mem)).symm

theorem heightsInErase (cache : ExtTreeMap UInt64 Bytes32 compare) (h : UInt64) :
    heightsIn (cache.erase h) = (heightsIn cache).erase h := by
  ext k
  rw [Finset.mem_erase,memHeightsIn,memHeightsIn,ExtTreeMap.mem_erase,Ne,Std.LawfulEqCmp.compare_eq_iff_eq]
  exact ⟨fun ⟨apart,mem⟩ => ⟨Ne.symm apart,mem⟩,fun ⟨apart,mem⟩ => ⟨Ne.symm apart,mem⟩⟩

theorem heightsInInsert (cache : ExtTreeMap UInt64 Bytes32 compare) (h : UInt64) (x : Bytes32) :
    heightsIn (cache.insert h x) = insert h (heightsIn cache) := by
  ext k
  rw [Finset.mem_insert,memHeightsIn,memHeightsIn,ExtTreeMap.mem_insert,Std.LawfulEqCmp.compare_eq_iff_eq,eq_comm]

theorem minKeyLeast {lowest : UInt64} (least : cache.minKey? = some lowest) :
    lowest ∈ cache ∧ ∀ k ∈ (heightsIn cache).erase lowest, lowest < k := by
  refine ⟨ExtTreeMap.minKey?_mem least,fun k mem => ?_⟩
  obtain ⟨apart,held⟩ := Finset.mem_erase.mp mem
  exact lt_of_le_of_ne (Std.isLE_compare.mp ((ExtTreeMap.minKey?_eq_some_iff_mem_and_forall.mp least).2 k
    (memHeightsIn.mp held))) (Ne.symm apart)

theorem evictLowestGet {capacity fuel : Nat} (enough : cache.size ≤ fuel) (h : UInt64) :
    (evictLowest capacity fuel cache)[h]? = if h ∈ greatest capacity (heightsIn cache) then cache[h]? else none := by
  induction fuel generalizing cache with
  | zero =>
    rw [greatestOfLe (by rw [cardHeightsIn]; omega),getHeightsIn]
    rfl
  | succ fuel ih =>
    unfold evictLowest
    split
    · rename_i full
      cases least : cache.minKey? with
      | none =>
        rw [ExtTreeMap.minKey?_eq_none_iff.mp least] at full
        cases full
      | some lowest =>
        obtain ⟨held,above'⟩ := minKeyLeast least
        have count : ((heightsIn cache).erase lowest).card = cache.size - 1 := by
          rw [Finset.card_erase_of_mem (memHeightsIn.mpr held),cardHeightsIn]
        have size := cardHeightsIn (cache.erase lowest)
        rw [heightsInErase,count] at size
        have dropped : greatest capacity (heightsIn cache) = greatest capacity ((heightsIn cache).erase lowest) := by
          conv_lhs => rw [← Finset.insert_erase (memHeightsIn.mpr held)]
          rw [greatestInsertLeast above',if_neg (by omega)]
        dsimp only
        rw [ih (by omega),heightsInErase,dropped]
        refine if_ctx_congr Iff.rfl (fun mem => ?_) fun _ => rfl
        rw [ExtTreeMap.getElem?_erase,if_neg]
        rw [Std.LawfulEqCmp.compare_eq_iff_eq]
        exact Ne.symm (Finset.mem_erase.mp (greatestSubset mem)).1
    · rename_i room
      rw [greatestOfLe (by rw [cardHeightsIn]; omega),getHeightsIn]

end Maps

section Bound

def cachedHeights (s : Store) : Finset UInt64 := heightsIn s.canonicalHeightCache

def HeightsBounded (s : Store) : Prop := s.canonicalHeightCache.size ≤ s.canonicalHeightCacheCapacity

theorem boundedCard : s.HeightsBounded ↔ s.cachedHeights.card ≤ s.canonicalHeightCacheCapacity := by
  rw [HeightsBounded,cachedHeights,cardHeightsIn]

theorem boundedGreatest (bounded : s.HeightsBounded) :
    greatest s.canonicalHeightCacheCapacity s.cachedHeights = s.cachedHeights := greatestOfLe (boundedCard.mp bounded)

theorem insertHeightAt (on : s.canonicalHeightCacheCapacity ≠ 0) (height : UInt64) (hash : Bytes32) (h : UInt64) :
    (s.insertCanonicalHeightCache height hash).canonicalHeightCache[h]? =
      if h ∈ greatest s.canonicalHeightCacheCapacity (insert height s.cachedHeights) then
        if h = height then some hash else s.canonicalHeightCache[h]?
      else none := by
  unfold insertCanonicalHeightCache
  rw [if_neg on]
  dsimp only
  rw [evictLowestGet le_rfl,heightsInInsert,ExtTreeMap.getElem?_insert]
  exact if_congr Iff.rfl (if_congr (Std.LawfulEqCmp.compare_eq_iff_eq.trans eq_comm) rfl rfl) rfl

theorem insertHeightsOn (on : s.canonicalHeightCacheCapacity ≠ 0) (height : UInt64) (hash : Bytes32) :
    (s.insertCanonicalHeightCache height hash).cachedHeights =
      greatest s.canonicalHeightCacheCapacity (insert height s.cachedHeights) := by
  ext h
  rw [cachedHeights,memHeightsIn,← ExtTreeMap.isSome_getElem?_iff_mem,insertHeightAt on]
  split
  · rename_i mem
    refine iff_of_true ?_ mem
    split
    · rfl
    · rename_i apart
      rw [ExtTreeMap.isSome_getElem?_iff_mem,← memHeightsIn]
      exact (Finset.mem_insert.mp (greatestSubset mem)).resolve_left apart
  · rename_i out
    exact iff_of_false (by simp) out

theorem boundedOff (bounded : s.HeightsBounded) (off : s.canonicalHeightCacheCapacity = 0) : s.canonicalHeightCache = ∅ := by
  rw [HeightsBounded,off] at bounded
  exact ExtTreeMap.eq_empty_iff_size_eq_zero.mpr (Nat.le_zero.mp bounded)

theorem insertHeightGet (bounded : s.HeightsBounded) (height : UInt64) (hash : Bytes32) (h : UInt64) :
    (s.insertCanonicalHeightCache height hash).canonicalHeightCache[h]? =
      if h ∈ greatest s.canonicalHeightCacheCapacity (insert height s.cachedHeights) then
        if h = height then some hash else s.canonicalHeightCache[h]?
      else none := by
  by_cases off : s.canonicalHeightCacheCapacity = 0
  · rw [insertCanonicalHeightCache,if_pos off,boundedOff bounded off,off,greatestZero,if_neg (Finset.notMem_empty h)]
    exact ExtTreeMap.getElem?_empty
  · exact insertHeightAt off height hash h

theorem insertHeights (bounded : s.HeightsBounded) (height : UInt64) (hash : Bytes32) :
    (s.insertCanonicalHeightCache height hash).cachedHeights =
      greatest s.canonicalHeightCacheCapacity (insert height s.cachedHeights) := by
  by_cases off : s.canonicalHeightCacheCapacity = 0
  · rw [insertCanonicalHeightCache,if_pos off,off,greatestZero,cachedHeights,boundedOff bounded off]
    rfl
  · exact insertHeightsOn off height hash

structure Caps (s t : Store) : Prop where
  capacity : t.canonicalHeightCacheCapacity = s.canonicalHeightCacheCapacity
  bounded : s.HeightsBounded → t.HeightsBounded

instance : IsPreorder Store Caps where
  refl _ := ⟨rfl,id⟩
  trans _ _ _ first later := ⟨later.capacity.trans first.capacity,later.bounded ∘ first.bounded⟩

theorem capsFewer (capacity : t.canonicalHeightCacheCapacity = s.canonicalHeightCacheCapacity)
    (fewer : t.canonicalHeightCache.size ≤ s.canonicalHeightCache.size) : Caps s t :=
  ⟨capacity,fun bounded => by
    rw [HeightsBounded,capacity]
    exact fewer.trans bounded⟩

theorem capsSame (capacity : t.canonicalHeightCacheCapacity = s.canonicalHeightCacheCapacity)
    (cache : t.canonicalHeightCache = s.canonicalHeightCache) : Caps s t := capsFewer capacity (by rw [cache])

theorem capsInsert (height : UInt64) (hash : Bytes32) : Caps s (s.insertCanonicalHeightCache height hash) := by
  have capacity : (s.insertCanonicalHeightCache height hash).canonicalHeightCacheCapacity =
      s.canonicalHeightCacheCapacity := by rw [insertHeightRest]
  refine ⟨capacity,fun bounded => ?_⟩
  rw [boundedCard,insertHeights bounded,cardGreatest,capacity]
  exact Nat.min_le_left ..

theorem withinAside {f : Store → Store}
    (aside : ∀ s, (f s).canonicalHeightCacheCapacity = s.canonicalHeightCacheCapacity ∧
      (f s).canonicalHeightCache = s.canonicalHeightCache) : Within Caps (Op.modify f : StoreM Unit) :=
  withinModify fun s => capsSame (aside s).1 (aside s).2

theorem withinBinCaps (m : CanonicalBin.Bin Unit) : Within Caps (onBin m) := withinZoom fun _ _ => capsSame rfl rfl

theorem withinWriteCaps (batch : List Write) : Within Caps (write batch) :=
  withinBind (withinStep _) fun _ => withinAside fun _ => ⟨rfl,rfl⟩

end Bound

section Reading

theorem getHashByHeightCaps (height : UInt64) : Within Caps (getHashByHeight height) :=
  withinBind withinGet fun s => by
    split
    · exact withinPure _
    · split
      · exact withinPure _
      · refine withinBind (withinLift _) fun slot => ?_
        split
        · exact withinBind (withinModify fun _ => capsInsert _ _) fun _ => withinPure _
        · split
          · exact withinPure _
          · split
            · exact withinError _
            · exact withinBind (withinModify fun _ => capsInsert _ _) fun _ => withinPure _

theorem getBlockCaps (hash : Bytes32) : Within Caps (getBlock crates hash) :=
  withinBind withinGet fun s => withinBind (withinAside fun _ => ⟨rfl,rfl⟩) fun _ => by
    split
    · exact withinPure _
    · split
      · exact withinPure _
      · exact withinBind (withinOfExcept _) fun _ => withinBind (withinAside fun _ => ⟨rfl,rfl⟩) fun _ =>
          withinBind (withinAside fun _ => ⟨rfl,rfl⟩) fun _ =>
            withinBind (withinAside fun _ => ⟨rfl,rfl⟩) fun _ => withinPure _

theorem getHeaderCaps (hash : Bytes32) : Within Caps (getHeader crates hash) :=
  withinBind withinGet fun s => withinBind (withinAside fun _ => ⟨rfl,rfl⟩) fun _ => by
    split
    · exact withinPure _
    · split
      · exact withinPure _
      · exact withinBind (withinOfExcept _) fun _ => withinBind (withinAside fun _ => ⟨rfl,rfl⟩) fun _ =>
          withinBind (withinAside fun _ => ⟨rfl,rfl⟩) fun _ => withinPure _

theorem getRecordCaps (hash : Bytes32) : Within Caps (getRecord crates hash) := fun _ _ _ h =>
  have ⟨touched,cache,_⟩ := getRecordRuns h
  capsSame touched.capacity cache

theorem recordCaps (hash : Bytes32) : Within Caps (getRecordOrMissing crates hash) :=
  withinBind (getRecordCaps hash) fun found => by
    cases found with
    | none => exact withinError _
    | some record => exact withinPure _

theorem byHeightCaps {α : Type} (height : UInt64) {m : Bytes32 → StoreM (Option α)} (inner : ∀ hash, Within Caps (m hash)) :
    Within Caps (do match ← getHashByHeight height with
                    | none => pure none
                    | some hash => m hash) :=
  withinBind (getHashByHeightCaps height) fun found => by
    cases found with
    | none => exact withinPure _
    | some hash => exact inner hash

theorem collectCanonicalCaps (heights : List UInt64) : Within Caps (collectCanonical heights) :=
  withinBind (withinCollect heights fun height _ => getHashByHeightCaps height) fun _ => withinPure _

theorem reserveCaps (size : Nat) (lo hi : UInt64) : Within Caps (reserve crates size lo hi) := by
  unfold reserve
  dsimp only
  split
  · split
    · exact withinPanic _
    · exact withinPure _
  · split
    · exact withinPanic _
    · exact withinPure _

theorem rangeCaps {α : Type} {f : UInt64 → StoreM (Option α)} (size : Nat) (lo hi : UInt64)
    (turn : ∀ height, Within Caps (f height)) :
    Within Caps (if lo > hi then pure [] else do
                   reserve crates size lo hi
                   let found ← Op.collect f (heightsThrough lo hi)
                   pure (found.filterMap id)) := by
  split
  · exact withinPure _
  · exact withinBind (reserveCaps size lo hi) fun _ => withinBind (withinCollect _ fun height _ => turn height) fun _ => withinPure _

theorem epochHashesCaps (heights : List UInt64) : Within Caps (epochHashes heights) := by
  induction heights with
  | nil => exact withinPure _
  | cons height rest ih =>
    refine withinBind (getHashByHeightCaps height) fun found => ?_
    cases found with
    | none => exact withinPure _
    | some hash => exact withinBind ih fun _ => withinPure _

theorem ancestorWalkCaps (depth : Nat) (hash : Bytes32) : Within Caps (ancestorWalk crates hash depth) := by
  induction depth generalizing hash with
  | zero => exact withinPure _
  | succ depth ih =>
    refine withinBind (getRecordCaps hash) fun found => ?_
    cases found with
    | none => exact withinPure _
    | some record =>
      refine withinBind (withinAside fun _ => ⟨rfl,rfl⟩) fun _ => withinBind (getHashByHeightCaps _) fun _ => ?_
      split
      · exact withinPure _
      · exact ih _

theorem probeBlocksCaps (rows : List (Bytes32 × Nat)) (results : List (Option L2Block)) (misses : List Nat) :
    Within Caps (probeBlocks rows results misses) := by
  induction rows generalizing results misses with
  | nil => exact withinPure _
  | cons row rest ih =>
    refine withinBind withinGet fun s => withinBind (withinAside fun _ => ⟨rfl,rfl⟩) fun _ => ?_
    split <;> exact ih _ _

theorem loadMissingCaps (hashes : List Bytes32) (rows : List (Option Bytes × Nat)) (results : List (Option L2Block)) :
    Within Caps (loadMissing crates hashes rows results) := by
  induction rows generalizing results with
  | nil => exact withinPure _
  | cons row rest ih =>
    obtain ⟨found,idx⟩ := row
    cases found with
    | none => exact ih _
    | some raw =>
      exact withinBind withinGet fun s => withinBind (withinOfExcept _) fun _ =>
        withinBind (withinAside fun _ => ⟨rfl,rfl⟩) fun _ => withinBind (withinAside fun _ => ⟨rfl,rfl⟩) fun _ => ih _

theorem getBlocksByHashCaps (hashes : List Bytes32) : Within Caps (getBlocksByHash crates hashes) :=
  withinBind (probeBlocksCaps _ _ _) fun ⟨results,misses⟩ => by
    dsimp only
    split
    · exact withinPure _
    · exact withinBind withinGet fun s => loadMissingCaps _ _ _

theorem streamNextCaps (hash : Bytes32) : Within Caps (streamNext crates hash) :=
  withinBind withinGet fun s => withinBind (withinAside fun _ => ⟨rfl,rfl⟩) fun _ => by
    split
    · exact withinPure _
    · split
      · exact withinError _
      · exact withinBind (withinOfExcept _) fun _ => withinBind (withinAside fun _ => ⟨rfl,rfl⟩) fun _ =>
          withinBind (withinAside fun _ => ⟨rfl,rfl⟩) fun _ => withinPure _

theorem exportFrameCaps (height : UInt64) : Within Caps (exportFrame height) :=
  withinBind (getHashByHeightCaps height) fun found => by
    cases found with
    | none => exact withinError _
    | some hash =>
      refine withinBind withinGet fun s => ?_
      split
      · exact withinError _
      · exact withinBind (withinStep _) fun _ => withinBind (withinStep _) fun _ => withinPure _

theorem exportSnapshotCaps (lo hi : UInt64) : Within Caps (exportSnapshot crates lo hi) := by
  unfold exportSnapshot
  dsimp only
  split
  · exact withinPanic _
  · refine withinBind (byHeightCaps _ getHeaderCaps) fun found => ?_
    cases found with
    | none => exact withinError _
    | some header =>
      exact withinBind (withinOfExcept _) fun _ => withinBind (withinStep _) fun _ =>
        withinBind (withinCollect _ fun height _ => exportFrameCaps height) fun _ =>
          withinBind (withinStep _) fun _ => withinPure _

theorem readCaps (r : Read) : Within Caps (read crates r) := by
  cases r with
  | getHashByHeight height => exact withinDiscard (getHashByHeightCaps height)
  | getBlock hash => exact withinDiscard (getBlockCaps hash)
  | getHeader hash => exact withinDiscard (getHeaderCaps hash)
  | getRecord hash => exact withinDiscard (getRecordCaps hash)
  | hasBlock hash => exact withinPure _
  | getBlocksByHash hashes => exact withinDiscard (getBlocksByHashCaps hashes)
  | getBlockByHeight height => exact withinDiscard (byHeightCaps height getBlockCaps)
  | getHeaderByHeight height => exact withinDiscard (byHeightCaps height getHeaderCaps)
  | getRecordByHeight height => exact withinDiscard (byHeightCaps height getRecordCaps)
  | getBlocksInRange size lo hi => exact withinDiscard (rangeCaps size lo hi fun height => byHeightCaps height getBlockCaps)
  | getRecordsInRange size lo hi => exact withinDiscard (rangeCaps size lo hi fun height => byHeightCaps height getRecordCaps)
  | getEpochBlockHashes epoch => exact withinDiscard (epochHashesCaps _)
  | streamBlocksInRange lo hi =>
    refine withinDiscard ?_
    unfold streamBlocksInRange
    split
    · exact withinPure _
    · exact withinBind withinGet fun s => withinBind (withinOfExcept _) fun pairs =>
        withinCollect pairs fun pair _ => withinAttempt (streamNextCaps pair.2)
  | blocksToRevert target =>
    refine withinDiscard (withinBind withinGet fun s => ?_)
    split
    · exact withinPure _
    · split
      · exact withinPure _
      · exact collectCanonicalCaps _
  | findCommonAncestor hash maxDepth => exact withinDiscard (ancestorWalkCaps _ hash)
  | getAttestation hash =>
    refine withinDiscard (withinBind withinGet fun s => ?_)
    split
    · exact withinPure _
    · exact withinBind (withinOfExcept _) fun _ => withinPure _
  | getCheckpoint epoch =>
    refine withinDiscard (withinBind withinGet fun s => ?_)
    split
    · exact withinPure _
    · exact withinBind (withinOfExcept _) fun _ => withinPure _
  | getLatestCheckpoint =>
    refine withinDiscard (withinBind withinGet fun s => ?_)
    split
    · exact withinPure _
    · exact withinBind (withinOfExcept _) fun _ => withinPure _
  | getCheckpointsInRange lo hi =>
    refine withinDiscard ?_
    unfold getCheckpointsInRange
    split
    · exact withinPure _
    · exact withinBind withinGet fun s => withinCollect _ fun _ _ => withinOfExcept _
  | exportSnapshot lo hi => exact withinDiscard (exportSnapshotCaps lo hi)

end Reading

section Writing

theorem trainCaps : Within Caps (maybeTrainDictionary crates) := fun _ _ _ h => by
  have trained := maybeTrainRuns h
  exact capsSame (by rw [trained.rest]) (by rw [trained.rest])

theorem setTipCaps (tip : ChainTip) : Within Caps (setTip tip) :=
  withinBind (withinRefuse _) fun _ => withinBind (withinWriteCaps _) fun _ => withinAside fun _ => ⟨rfl,rfl⟩

theorem indexCaps (canonical : Bool) (height : UInt64) (hash : Bytes32) :
    Within Caps (indexCanonical canonical height hash) := by
  unfold indexCanonical
  split
  · exact withinBind (withinBinCaps _) fun _ => withinModify fun _ => capsInsert _ _
  · exact withinPure _

theorem putBlockCaps (block : L2Block) (canonical : Bool) : Within Caps (putBlock crates block canonical) :=
  putBlockWithin (fun _ _ _ _ => capsSame rfl rfl)
    (withinBind (indexCaps _ _ _) fun _ => withinBind (withinAside fun _ => ⟨rfl,rfl⟩) fun _ =>
      withinBind (withinAside fun _ => ⟨rfl,rfl⟩) fun _ => withinBind (withinAside fun _ => ⟨rfl,rfl⟩) fun _ =>
        withinBind (withinAside fun _ => ⟨rfl,rfl⟩) fun _ => withinBind trainCaps fun _ => withinPure _)

theorem initGenesisCaps (block : L2Block) : Within Caps (initGenesis crates block) := fun s r t h => by
  rcases initGenesisRuns h with rfl | ⟨compressed,headerBytes,_,_,_,later⟩
  · exact refl_of _ _
  · have tail : Within Caps (genesisTail crates block) :=
      withinBind (withinBinCaps _) fun _ => withinBind (withinAside fun _ => ⟨rfl,rfl⟩) fun _ =>
        withinBind (withinAside fun _ => ⟨rfl,rfl⟩) fun _ => withinBind (withinAside fun _ => ⟨rfl,rfl⟩) fun _ =>
          withinBind (withinAside fun _ => ⟨rfl,rfl⟩) fun _ => trainCaps
    have rows : Caps s (s.commit (genesisRows crates block compressed headerBytes)) := capsSame rfl rfl
    exact trans_of _ rows (tail _ _ _ later)

theorem flushCaps (jobs : List PipelineJob) : Within Caps (Store.flushPipelineBatch crates jobs) :=
  flushBatchWithin {
    rows := fun _ _ _ => capsSame rfl rfl
    bins := fun rows => withinForEach rows fun row _ => by
      split
      · exact withinBinCaps _
      · exact withinPure _
    cache := fun row _ _ =>
      withinBind (withinOnStore (withinAside fun _ => ⟨rfl,rfl⟩)) fun _ =>
        withinBind (withinOnStore (withinAside fun _ => ⟨rfl,rfl⟩)) fun _ =>
          withinBind (withinOnStore (withinAside fun _ => ⟨rfl,rfl⟩)) fun _ =>
            withinBind (withinAttempt (withinOnStore trainCaps)) fun answer => by
              cases answer <;> exact withinSend _ _ }

theorem markCaps (hash : Bytes32) (record : BlockRecord) : Within Caps (Op.modify (markCanonical hash record) : StoreM Unit) :=
  withinAside fun s => by
    rw [markedRest]
    exact ⟨rfl,rfl⟩

theorem flagCaps (flag : Bool) (hashes : List Bytes32) : Within Caps (Op.modify (flagRecords flag hashes) : StoreM Unit) :=
  withinAside fun s => by
    rw [flagRecordsRest]
    exact ⟨rfl,rfl⟩

theorem setCanonicalCaps (hash : Bytes32) : Within Caps (setCanonical crates hash) :=
  withinBind (withinRefuse _) fun _ => withinBind (recordCaps hash) fun _ => withinBind (withinWriteCaps _) fun _ =>
    withinBind (withinBinCaps _) fun _ => withinBind (withinModify fun _ => capsInsert _ _) fun _ =>
      withinBind (withinAside fun _ => ⟨rfl,rfl⟩) fun _ => markCaps _ _

theorem setCanonicalBatchCaps (hashes : List Bytes32) : Within Caps (setCanonicalBatch crates hashes) :=
  withinBind (withinRefuse _) fun _ => by
    split
    · exact withinPure _
    · exact withinBind (withinCollect hashes fun hash _ => recordCaps hash) fun _ =>
        withinBind (withinWriteCaps _) fun _ => withinForEach _ fun _ _ =>
          withinBind (withinBinCaps _) fun _ => markCaps _ _

theorem dropCachedSize (heights : List UInt64) (s : Store) :
    (s.dropCachedHeights heights).canonicalHeightCache.size ≤ s.canonicalHeightCache.size := by
  unfold dropCachedHeights
  dsimp only
  generalize s.canonicalHeightCache = cache
  induction heights generalizing cache with
  | nil => exact le_rfl
  | cons h rest ih => exact (ih (cache.erase h)).trans ExtTreeMap.size_erase_le

theorem dropCaps (heights : List UInt64) : Within Caps (Op.modify (dropCachedHeights heights) : StoreM Unit) :=
  withinModify fun s => capsFewer rfl (dropCachedSize heights s)

theorem rollbackCaps (target : UInt64) : Within Caps (rollbackToHeight target) :=
  withinBind (withinRefuse _) fun _ => withinBind withinGet fun s => by
    split
    · exact withinError _
    · split
      · exact withinError _
      · split
        · exact withinError _
        · split
          · exact withinPure _
          · refine withinBind (collectCanonicalCaps _) fun reverted => withinBind (withinWriteCaps _) fun _ =>
              withinBind (withinBinCaps _) fun _ => withinBind (getHashByHeightCaps _) fun found => withinBind ?_ fun _ =>
                withinBind (flagCaps _ _) fun _ => withinBind (dropCaps _) fun _ => withinPure _
            cases found with
            | none => exact withinPure _
            | some hash => exact setTipCaps _

theorem pruneCanonicalCaps (heights : List UInt64) : Within Caps (pruneCanonical heights) := by
  induction heights with
  | nil => exact withinPure _
  | cons height rest ih =>
    refine withinBind (getHashByHeightCaps height) fun found => withinBind ih fun ⟨batch,hashes⟩ => ?_
    cases found with
    | none => exact withinPure _
    | some hash => exact withinPure _

theorem pruneCaps (height : UInt64) : Within Caps (pruneBeforeHeight crates height) :=
  withinBind (withinRefuse _) fun _ => withinBind withinGet fun s => by
    split
    · exact withinPure _
    · refine withinBind (pruneCanonicalCaps _) fun ⟨batch,hashes⟩ => withinBind withinGet fun s =>
        withinBind (withinWriteCaps _) fun _ => withinBind (withinAside fun _ => ⟨rfl,rfl⟩) fun _ =>
          withinBind (withinAside fun s => ?_) fun _ =>
            withinBind (withinModify fun s => capsFewer rfl ExtTreeMap.size_filter_le_size) fun _ => withinPure _
      change (evictAll _ s).canonicalHeightCacheCapacity = _ ∧ (evictAll _ s).canonicalHeightCache = _
      rw [evictAllRest]
      exact ⟨rfl,rfl⟩

theorem pruneCheckpointsCaps (epoch : UInt64) : Within Caps (pruneCheckpointsBeforeEpoch epoch) :=
  withinBind (withinRefuse _) fun _ => by
    split
    · exact withinPure _
    · refine withinBind withinGet fun s => ?_
      dsimp only
      split
      · exact withinBind (withinWriteCaps _) fun _ => withinPure _
      · exact withinPure _

theorem callCaps {c : Call} (other : ∀ ancestor hashes, c ≠ .applyReorg ancestor hashes) : Within Caps (call crates c) := by
  cases c with
  | read r => exact readCaps r
  | initGenesis block => exact initGenesisCaps block
  | putBlock block canonical => exact withinDiscard (putBlockCaps block canonical)
  | flush jobs =>
    exact withinBind (flushCaps jobs) fun acks => withinForEach acks fun _ _ => withinDiscard (withinOfExcept _)
  | extendChain block => exact withinDiscard (extendChainWithin (putBlockCaps block true) setTipCaps)
  | setCanonical hash => exact setCanonicalCaps hash
  | setCanonicalBatch hashes => exact setCanonicalBatchCaps hashes
  | rollbackToHeight target => exact withinDiscard (rollbackCaps target)
  | applyReorg ancestor hashes => exact absurd rfl (other ancestor hashes)
  | pruneBeforeHeight height => exact withinDiscard (pruneCaps height)
  | setTip tip => exact setTipCaps tip
  | putAttestation hash attested =>
    exact withinBind (withinRefuse _) fun _ => withinBind (withinOfExcept _) fun _ => withinWriteCaps _
  | putCheckpoint checkpoint =>
    exact withinBind (withinRefuse _) fun _ => withinBind (withinOfExcept _) fun _ => withinWriteCaps _
  | pruneCheckpointsBeforeEpoch epoch => exact withinDiscard (pruneCheckpointsCaps epoch)
  | updateStatus hash status =>
    refine withinBind withinGet fun s => ?_
    split
    · exact withinError _
    · exact withinAside fun _ => ⟨rfl,rfl⟩
  | importSnapshot input => exact withinDiscard (importSnapshotWithin (fun block => putBlockCaps block true) input)
  | initDictionary => exact (withinAside fun _ => ⟨rfl,rfl⟩ : Within Caps initDictionary)
  | disableCanonicalBinAcceleration => exact (withinAside fun _ => ⟨rfl,rfl⟩ : Within Caps disableCanonicalBinAcceleration)
  | invalidateBlockCacheEntry hash => exact (withinAside fun _ => ⟨rfl,rfl⟩ : Within Caps (invalidateBlockCacheEntry hash))
  | invalidateHeaderCacheEntry hash => exact (withinAside fun _ => ⟨rfl,rfl⟩ : Within Caps (invalidateHeaderCacheEntry hash))
  | invalidateRecordCacheEntry hash => exact (withinAside fun _ => ⟨rfl,rfl⟩ : Within Caps (invalidateRecordCacheEntry hash))
  | compaction visited =>
    change Within Caps (compaction crates visited)
    refine withinAside fun s => ?_
    split <;> exact ⟨rfl,rfl⟩

end Writing

section Reorgs
variable {content : Bytes32 → L2BlockHeader}

def readsThrough (s : Store) (height : UInt64) : Bool := s.minRetainedHeightCached ≤ height && (s.stored height).isSome

/- The heights a reorg leaves in the cache: those left when the reverted heights have been read
through it and dropped, and those of the new chain. -/
def reorgHeights (s : Store) (ancestor : UInt64) (tip : ChainTip) (added : List UInt64) : Finset UInt64 :=
  greatest s.canonicalHeightCacheCapacity
    (s.cachedHeights ∪ ((heightsThrough (ancestor + 1) tip.height).filter s.readsThrough).toFinset)
    \ (heightsThrough (ancestor + 1) tip.height).toFinset ∪ added.toFinset

/- What a reorg leaves in the cache is no more than it takes. -/
def Roomy (crates : Crates) (s : Store) : Call → Prop
  | .applyReorg ancestor hashes => ∀ (tip : ChainTip) (rows : List (Bytes32 × BlockRecord)), s.tip = some tip →
      rows.map Prod.fst = hashes → (∀ row ∈ rows, MayRecord crates s row.1 row.2) →
      (s.reorgHeights ancestor tip (rows.map fun row => row.2.height)).card ≤ s.canonicalHeightCacheCapacity
  | _ => True

theorem touchedReadsThrough (touched : Touched crates s t) : t.readsThrough = s.readsThrough := by
  funext h
  rw [readsThrough,readsThrough,touched.floor,touched.stored]

theorem lookupHeights {height : UInt64} {found : Option Bytes32} (bounded : s.HeightsBounded)
    (h : Runs (getHashByHeight height) s (.ok found) t) :
    t.cachedHeights = greatest s.canonicalHeightCacheCapacity
      (s.cachedHeights ∪ ([height].filter s.readsThrough).toFinset) := by
  have through : s.readsThrough height = true → s.cachedHeights ∪ ([height].filter s.readsThrough).toFinset =
      insert height s.cachedHeights := fun reads => by
    rw [List.filter_cons_of_pos reads,List.filter_nil,List.toFinset_cons,List.toFinset_nil,Finset.union_insert,
      Finset.union_empty]
  have missed : s.readsThrough height = false → s.cachedHeights = greatest s.canonicalHeightCacheCapacity
      (s.cachedHeights ∪ ([height].filter s.readsThrough).toFinset) := fun reads => by
    rw [List.filter_cons_of_neg (by simp [reads]),List.filter_nil,List.toFinset_nil,Finset.union_empty,
      boundedGreatest bounded]
  unfold getHashByHeight at h
  rw [runsGetBind] at h
  split at h
  · rename_i below
    rw [(runsPure.mp h).2]
    exact missed (by simp [readsThrough,UInt64.not_le.mpr below])
  · rename_i above'
    have low : s.minRetainedHeightCached ≤ height := UInt64.not_lt.mp above'
    split at h
    · rename_i x cached
      rw [(runsPure.mp h).2]
      have held : height ∈ s.cachedHeights := by
        rw [cachedHeights,memHeightsIn,← ExtTreeMap.isSome_getElem?_iff_mem,cached]
        rfl
      cases reads : s.readsThrough height with
      | true => rw [through reads,Finset.insert_eq_of_mem held,boundedGreatest bounded]
      | false => exact missed reads
    · obtain ⟨slot,v,read,later⟩ := runsBindOk h
      obtain ⟨answered,rfl⟩ := runsLift read
      have tier : v.canonicalBin.answer height = slot := by
        rw [CanonicalBin.answer,← answered]
      split at later
      · rename_i x
        have reads : v.readsThrough height = true := by simp [readsThrough,low,stored,tier]
        rw [runsModifyBind] at later
        rw [(runsPure.mp later).2,through reads,insertHeights bounded]
      · have fall : v.stored height = canonicalAt v.db height := by rw [stored,tier]; rfl
        split at later
        · rename_i empty
          rw [(runsPure.mp later).2]
          exact missed (by simp [readsThrough,fall,canonicalAt,empty])
        · rename_i bytes present
          split at later
          · cases (runsError.mp later).1
          · rename_i x decoded
            have reads : v.readsThrough height = true := by simp [readsThrough,low,fall,canonicalAt,present,decoded]
            rw [runsModifyBind] at later
            rw [(runsPure.mp later).2,through reads,insertHeights bounded]

theorem lookupsHeights (crates : Crates) {heights : List UInt64} {found : List (Option Bytes32)} (bounded : s.HeightsBounded)
    (h : Runs (Op.collect getHashByHeight heights) s (.ok found) t) :
    t.cachedHeights = greatest s.canonicalHeightCacheCapacity
      (s.cachedHeights ∪ (heights.filter s.readsThrough).toFinset) := by
  induction heights generalizing s t found with
  | nil =>
    rw [(runsPure.mp h).2,List.filter_nil,List.toFinset_nil,Finset.union_empty,boundedGreatest bounded]
  | cons height rest ih =>
    obtain ⟨one,u,first,later⟩ := runsBindOk h
    obtain ⟨more,v,others,last⟩ := runsBindOk later
    have caps := getHashByHeightCaps height _ _ _ first
    have touched : Touched crates s u := getHashByHeightTouched first
    have parts : (height :: rest).filter s.readsThrough = [height].filter s.readsThrough ++ rest.filter s.readsThrough := by
      rw [← List.filter_append,List.singleton_append]
    rw [(runsPure.mp last).2,ih (caps.bounded bounded) others,caps.capacity,touchedReadsThrough touched,
      lookupHeights bounded first,greatestUnion,parts,List.toFinset_append,Finset.union_assoc]

theorem dropCachedHeightsSet (heights : List UInt64) (s : Store) :
    (s.dropCachedHeights heights).cachedHeights = s.cachedHeights \ heights.toFinset := by
  unfold cachedHeights dropCachedHeights
  dsimp only
  generalize s.canonicalHeightCache = cache
  induction heights generalizing cache with
  | nil => simp
  | cons h rest ih =>
    rw [List.foldl_cons,ih,heightsInErase,List.toFinset_cons,Finset.sdiff_insert,Finset.erase_sdiff_comm]

theorem cacheReorgHeightsSet (rows : List (Bytes32 × BlockRecord)) (s : Store) :
    (s.cacheReorgHeights rows).cachedHeights = s.cachedHeights ∪ (rows.map fun row => row.2.height).toFinset := by
  unfold cachedHeights cacheReorgHeights
  dsimp only
  generalize s.canonicalHeightCache = cache
  induction rows generalizing cache with
  | nil => simp
  | cons row rest ih =>
    rw [List.foldl_cons,ih,heightsInInsert,List.map_cons,List.toFinset_cons,Finset.union_insert,Finset.insert_union]

theorem reorgedHeights {ancestor : UInt64} {hashes : List Bytes32} {plan : ReorgPlan} (bounded : s.HeightsBounded)
    (planned : Planned crates s u ancestor hashes plan) :
    (u.reorged ancestor hashes plan).cachedHeights =
      s.reorgHeights ancestor plan.tip (plan.records.map fun row => row.2.height) := by
  obtain ⟨v,reading,reverting⟩ := planned.validated
  obtain ⟨touched,cache,_,_⟩ := validatedOk reading
  obtain ⟨found,w,collecting,last⟩ := runsBindOk reverting
  have kept : v.cachedHeights = s.cachedHeights := by rw [cachedHeights,cache,cachedHeights]
  have caps : Caps s v := capsSame touched.capacity cache
  have read : u.cachedHeights = greatest s.canonicalHeightCacheCapacity
      (s.cachedHeights ∪ ((heightsThrough (ancestor + 1) plan.tip.height).filter s.readsThrough).toFinset) := by
    rw [(runsPure.mp last).2,lookupsHeights crates (caps.bounded bounded) collecting,kept,touched.capacity,
      touchedReadsThrough touched,planned.heights,List.filter_reverse,List.toFinset_reverse]
  have flagged : (flagRecords true hashes (flagRecords false plan.reverted (u.switched ancestor plan))).cachedHeights =
      u.cachedHeights := by
    rw [flagRecordsRest,flagRecordsRest]
    rfl
  change (cacheReorgHeights plan.records (dropCachedHeights plan.heights
    (flagRecords true hashes (flagRecords false plan.reverted (u.switched ancestor plan))))).cachedHeights = _
  rw [cacheReorgHeightsSet,dropCachedHeightsSet,flagged,read,planned.heights,reorgHeights]

theorem reorgedCapacity {ancestor : UInt64} {hashes : List Bytes32} {plan : ReorgPlan}
    (planned : Planned crates s u ancestor hashes plan) :
    (u.reorged ancestor hashes plan).canonicalHeightCacheCapacity = s.canonicalHeightCacheCapacity := by
  change (flagRecords true hashes (flagRecords false plan.reverted (u.switched ancestor plan))).canonicalHeightCacheCapacity = _
  rw [flagRecordsRest,flagRecordsRest]
  exact planned.touched.capacity

theorem Planned.mayRecord {ancestor : UInt64} {hashes : List Bytes32} {plan : ReorgPlan}
    (planned : Planned crates s u ancestor hashes plan) : ∀ row ∈ plan.records, MayRecord crates s row.1 row.2 :=
  fun row mem => by
    obtain ⟨v,reading,_⟩ := planned.validated
    obtain ⟨touched,_,_,held⟩ := validatedOk reading
    exact touched.mayRecord (held row mem)

theorem reorgFails (ancestor : UInt64) (hashes : List Bytes32) : FailsWithin Caps (applyReorg crates ancestor hashes) :=
  failsBind (withinRefuse _) fun _ => failsBind withinGet fun s => by
    split
    · exact (withinError _).fails
    · exact (withinError _).fails
    · exact failsBind (withinCollect hashes fun hash _ => recordCaps hash) fun records =>
        failsBind (fun s r t h => by rw [(heightAboveRuns h).1]; exact refl_of _ _) fun start =>
          failsBind (collectCanonicalCaps _) fun reverted => failsBind (withinWriteCaps _) fun _ =>
            failsBind (withinBinCaps _) fun _ => failsBind (withinForEach _ fun _ _ => withinBinCaps _) fun _ =>
              failsBind (flagCaps _ _) fun _ => failsBind (flagCaps _ _) fun _ => failsBind (dropCaps _) fun _ => by
                intro s e t h
                rw [runsModifyBind,runsModifyBind] at h
                cases (runsPure.mp h).1

theorem reorgCaps {ancestor : UInt64} {hashes : List Bytes32} {r : Exit ReorgResult}
    (roomy : s.Roomy crates (.applyReorg ancestor hashes)) (h : Runs (applyReorg crates ancestor hashes) s r t) : Caps s t := by
  cases r with
  | error e => exact reorgFails ancestor hashes s e t h
  | ok result =>
    obtain ⟨plan,u,planned,_,_,_,rfl⟩ := applyReorgOk h
    refine ⟨reorgedCapacity planned,fun bounded => ?_⟩
    rw [boundedCard,reorgedHeights bounded planned,reorgedCapacity planned]
    exact roomy _ _ planned.head planned.hashes planned.mayRecord

/- A reorg that returns leaves the cache within its capacity only when there is room for it. -/
theorem reorgNeedsRoom (lawful : crates.Lawful) (filed : Filed crates content s) {ancestor : UInt64} {hashes : List Bytes32}
    {result : ReorgResult} (bounded : s.HeightsBounded) (h : Runs (applyReorg crates ancestor hashes) s (.ok result) t)
    (after : t.HeightsBounded) : s.Roomy crates (.applyReorg ancestor hashes) := by
  obtain ⟨plan,u,planned,_,_,_,rfl⟩ := applyReorgOk h
  rw [boundedCard,reorgedHeights bounded planned,reorgedCapacity planned] at after
  intro tip rows head order held
  have heights : ∀ list : List (Bytes32 × BlockRecord), (∀ row ∈ list, MayRecord crates s row.1 row.2) →
      list.map (fun row => row.2.height) = (list.map Prod.fst).map fun x => (content x).height := fun list held => by
    rw [List.map_map]
    exact List.map_congr_left fun row mem => (filed.mayRecord lawful (held row mem)).1
  have here : plan.tip = tip := Option.some.inj (planned.head.symm.trans head)
  rwa [heights rows held,order,← planned.hashes,← heights _ planned.mayRecord,← here]

end Reorgs

section Opening

theorem warmCachesCaps (depth : UInt64) : Within Caps (warmCaches crates depth) :=
  withinBind withinGet fun s => by
    split
    · exact withinPure _
    · refine withinBind (withinCollect _ fun h _ => ?_) fun _ => withinPure _
      refine withinBind (withinAttempt (byHeightCaps h getBlockCaps)) fun found => ?_
      split
      · exact withinBind (withinAttempt (byHeightCaps h getRecordCaps)) fun _ => withinPure _
      · exact withinPure _

theorem bootedBounded {config : BlockStoreConfig} {readOnly : Bool} {db : Db} (booted : Booted config readOnly db s) :
    s.HeightsBounded := by
  obtain ⟨_,_,_,rfl,_⟩ := booted.built
  exact Nat.zero_le _

theorem openedBounded {config : BlockStoreConfig} {disk disk' : Disk} (h : Runs (openStore crates config) disk (.ok t) disk') :
    t.HeightsBounded := by
  obtain ⟨_,a,_,opening⟩ := runsBindOk h
  obtain ⟨s,b,two,warming⟩ := runsBindOk opening
  have bounded := bootedBounded (openFilesOk two).2
  split at warming
  · obtain ⟨script,rest,warming⟩ := warming
    unfold warm at warming
    split at warming <;> rename_i w run <;> injection warming with hr hw
    · cases hr
      exact (warmCachesCaps _ _ _ _ ⟨script,w.script,run⟩).bounded bounded
    · cases hr
  · obtain ⟨hr,rfl⟩ := runsPure.mp warming
    cases hr
    exact bounded

end Opening

end Store

/- A reorg finds room in the height cache. -/
def Roomy (crates : Crates) (s : Store) : Action → Prop
  | .call c => s.Roomy crates c
  | .reopen _ | .reopenReadonly _ => True

theorem attemptsBounded {crates : Crates} {s t : Store} {action : Action}
    (h : Guarded (Roomy crates) (Attempts crates) s action t) (bounded : s.HeightsBounded) : t.HeightsBounded := by
  obtain ⟨roomy,taken⟩ := h
  cases action with
  | call c =>
    obtain ⟨r,run⟩ := taken
    cases c with
    | applyReorg ancestor hashes =>
      rcases runsBind run with ⟨result,u,one,last⟩ | ⟨e,_,one⟩
      · rw [(runsPure.mp last).2]
        exact (Store.reorgCaps roomy one).bounded bounded
      · exact (Store.reorgCaps roomy one).bounded bounded
    | _ => exact (Store.callCaps (by simp) _ _ _ run).bounded bounded
  | reopen config =>
    obtain ⟨_,_,run⟩ := taken
    exact Store.openedBounded run
  | reopenReadonly path =>
    obtain ⟨_,_,run⟩ := taken
    exact Store.bootedBounded (Store.openReadonlyOk run).2

theorem attemptsRunBounded {crates : Crates} {s t : Store} {actions : List Action}
    (run : Run (Guarded (Roomy crates) (Attempts crates)) s actions t) (bounded : s.HeightsBounded) : t.HeightsBounded := by
  induction run with
  | nil => exact bounded
  | cons first _ ih => exact ih (attemptsBounded first bounded)

/- In every run whose reorgs find room, the height cache holds at most its capacity, nothing at
capacity zero, and an insert keeps the greatest heights. A reorg that returns from a state of
successful calls keeps the bound exactly when it finds room. -/
theorem heightCacheBounded {crates : Crates} (lawful : crates.Lawful) {start s : Store} {actions : List Action}
    (opened : Opened crates start) (run : Run (Guarded (Roomy crates) (Attempts crates)) start actions s) :
    s.canonicalHeightCache.size ≤ s.canonicalHeightCacheCapacity ∧
    (s.canonicalHeightCacheCapacity = 0 → s.canonicalHeightCache = ∅) ∧
    (∀ height hash h, (s.insertCanonicalHeightCache height hash).canonicalHeightCache[h]? =
      if h ∈ greatest s.canonicalHeightCacheCapacity (insert height s.cachedHeights) then
        if h = height then some hash else s.canonicalHeightCache[h]?
      else none) ∧
    (Reaches crates s → ∀ ancestor hashes result t, Runs (Store.applyReorg crates ancestor hashes) s (.ok result) t →
      (t.canonicalHeightCache.size ≤ t.canonicalHeightCacheCapacity ↔ s.Roomy crates (.applyReorg ancestor hashes))) := by
  obtain ⟨config,file,disk,opening⟩ := opened
  have bounded := attemptsRunBounded run (Store.openedBounded opening)
  refine ⟨bounded,Store.boundedOff bounded,Store.insertHeightGet bounded,
    fun reached ancestor hashes result t reorg => ⟨fun after => ?_,fun roomy => ?_⟩⟩
  · obtain ⟨content,filed⟩ := reachesFiled lawful reached
    exact Store.reorgNeedsRoom lawful filed bounded reorg after
  · exact (Store.reorgCaps roomy reorg).bounded bounded

namespace Store
variable {crates : Crates}

def spacious (s : Store) : Call → Bool
  | .applyReorg ancestor hashes => s.canonicalHeightCache.size + hashes.length +
      (s.tip.map fun tip => (heightsThrough (ancestor + 1) tip.height).length).getD 0 ≤ s.canonicalHeightCacheCapacity
  | _ => true

theorem spaciousRoomy (s : Store) (c : Call) (h : spacious s c = true) : DigBlockstore.Roomy crates s (.call c) := by
  cases c with
  | applyReorg ancestor hashes =>
    intro tip rows head order _
    have room := of_decide_eq_true h
    rw [head,Option.map_some,Option.getD_some,← cardHeightsIn,← cachedHeights] at room
    have kept := (Finset.card_le_card (Finset.sdiff_subset (s := greatest s.canonicalHeightCacheCapacity (s.cachedHeights ∪
      ((heightsThrough (ancestor + 1) tip.height).filter s.readsThrough).toFinset))
      (t := (heightsThrough (ancestor + 1) tip.height).toFinset))).trans (Finset.card_le_card greatestSubset)
    have all := kept.trans (Finset.card_union_le _ _)
    have read := (List.toFinset_card_le ((heightsThrough (ancestor + 1) tip.height).filter s.readsThrough)).trans
      (List.length_filter_le _ _)
    have added := List.toFinset_card_le (rows.map fun row => row.2.height)
    have length : (rows.map fun row => row.2.height).length = hashes.length := by
      rw [← order,List.length_map,List.length_map]
    exact (Finset.card_union_le _ _).trans (by omega)
  | _ => trivial

end Store

namespace Sample

def cached (capacity : Nat) : BlockStoreConfig := {config with canonicalHeightCacheCapacity := capacity}

def forkedCalls : List Call :=
  [.initGenesis (block 0 0 1),.extendChain (block 1 1 2),.putBlock (block 1 1 3) false,.putBlock (block 2 3 4) false]

def reorgedCalls : List Call := forkedCalls ++ [.applyReorg 0 [hash 3,hash 4]]

def wide : Store := .after crates Store.spacious (cached 8) reorgedCalls

def slim : Store := .after crates Store.spacious (cached 1) forkedCalls

end Sample

theorem heightCacheBoundedSample :
    Sample.wide.canonicalHeightCache.size ≤ Sample.wide.canonicalHeightCacheCapacity ∧
    (∃ result t, Runs (Store.applyReorg Sample.crates 0 [Sample.hash 2]) Sample.wide (.ok result) t ∧
      t.canonicalHeightCache.size ≤ t.canonicalHeightCacheCapacity ∧
        Sample.wide.Roomy Sample.crates (.applyReorg 0 [Sample.hash 2])) ∧
    ∃ result t, Runs (Store.applyReorg Sample.crates 0 [Sample.hash 3,Sample.hash 4]) Sample.slim (.ok result) t ∧
      ¬t.canonicalHeightCache.size ≤ t.canonicalHeightCacheCapacity ∧
        ¬Sample.slim.Roomy Sample.crates (.applyReorg 0 [Sample.hash 3,Sample.hash 4]) := by
  have done : (Store.exec Sample.crates Store.spacious Sample.reorgedCalls (.created (Sample.cached 8))).isSome = true := by
    decide +kernel
  have done' : (Store.exec Sample.crates Store.spacious Sample.forkedCalls (.created (Sample.cached 1))).isSome = true := by
    decide +kernel
  have run : Run (Guarded (Roomy Sample.crates) (Attempts Sample.crates)) _ _ _ :=
    (Store.execRun (@Store.spaciousRoomy Sample.crates) (Store.afterExec done)).mono
      fun _ _ _ both => ⟨both.1,takesAttempts both.2⟩
  have run' : Run (Guarded (Roomy Sample.crates) (Attempts Sample.crates)) _ _ _ :=
    (Store.execRun (@Store.spaciousRoomy Sample.crates) (Store.afterExec done')).mono
      fun _ _ _ both => ⟨both.1,takesAttempts both.2⟩
  obtain ⟨bound,_,_,fits⟩ := heightCacheBounded Sample.lawful (Store.createdOpened Sample.crates (Sample.cached 8)) run
  obtain ⟨_,_,_,spills⟩ := heightCacheBounded Sample.lawful (Store.createdOpened Sample.crates (Sample.cached 1)) run'
  have back : Sample.wide.Roomy Sample.crates (.applyReorg 0 [Sample.hash 2]) :=
    Store.spaciousRoomy Sample.wide (.applyReorg 0 [Sample.hash 2]) (by decide +kernel)
  obtain ⟨result,ran⟩ := okOfIsSome (show (Store.applyReorg Sample.crates 0 [Sample.hash 2]
    ⟨Sample.wide,[]⟩).1.toOption.isSome = true by decide +kernel)
  obtain ⟨result',ran'⟩ := okOfIsSome (show (Store.applyReorg Sample.crates 0 [Sample.hash 3,Sample.hash 4]
    ⟨Sample.slim,[]⟩).1.toOption.isSome = true by decide +kernel)
  have spilt : ¬(Store.applyReorg Sample.crates 0 [Sample.hash 3,Sample.hash 4]
      ⟨Sample.slim,[]⟩).2.state.canonicalHeightCache.size ≤ (Store.applyReorg Sample.crates 0 [Sample.hash 3,Sample.hash 4]
      ⟨Sample.slim,[]⟩).2.state.canonicalHeightCacheCapacity := by decide +kernel
  have run₁ := Runs.ofResult ran
  have run₂ := Runs.ofResult ran'
  exact ⟨bound,⟨result,_,run₁,(fits (Store.afterReaches done) _ _ _ _ run₁).mpr back,back⟩,result',_,run₂,spilt,
    fun roomy => spilt ((spills (Store.afterReaches done') _ _ _ _ run₂).mpr roomy)⟩

/- A reorg onto two blocks leaves two heights in a cache for one. -/
theorem reorgOverfills : Reaches Sample.crates Sample.slim ∧
    (Store.applyReorg Sample.crates 0 [Sample.hash 3,Sample.hash 4] ⟨Sample.slim,[]⟩).1 =
      .ok ⟨[Sample.hash 2],[Sample.hash 3,Sample.hash 4],⟨Sample.hash 4,2⟩⟩ ∧
    (Store.applyReorg Sample.crates 0 [Sample.hash 3,Sample.hash 4] ⟨Sample.slim,[]⟩).2.state.canonicalHeightCache.size = 2 ∧
    (Store.applyReorg Sample.crates 0 [Sample.hash 3,Sample.hash 4] ⟨Sample.slim,[]⟩).2.state.canonicalHeightCacheCapacity = 1 :=
  ⟨Store.afterReaches (by decide +kernel),by decide +kernel,by decide +kernel,by decide +kernel⟩

end DigBlockstore
