import DigBlockstore.Ingest

/-! Moving the head back and onto another branch. -/
namespace DigBlockstore
open ByteCodec Faulty
namespace Store
variable (crates : Crates)

def dropCachedHeights (heights : List UInt64) (s : Store) : Store :=
  {s with canonicalHeightCache := heights.foldl (fun cache h => cache.erase h) s.canonicalHeightCache}

def cacheReorgHeights (rows : List (Bytes32 × BlockRecord)) (s : Store) : Store :=
  {s with canonicalHeightCache :=
            rows.foldl (fun cache row => cache.insert row.2.height row.1) s.canonicalHeightCache}

def flagRecords (flag : Bool) (hashes : List Bytes32) (s : Store) : Store :=
  hashes.foldl (fun s hash => s.flagRecord flag hash) s

def retipAt (targetHeight : UInt64) : Option Bytes32 → StoreM Unit
  | some targetHash => setTip ⟨targetHash,targetHeight⟩
  | none => pure ()

def rollbackToHeight (targetHeight : UInt64) : StoreM (List Bytes32) := do
  refuseReadOnly errMutationReadOnly
  let s ← Op.get
  match s.tip with
  | none => Op.error .noTip
  | some currentTip =>
      if targetHeight > currentTip.height then
        Op.error (.rollbackAboveTip targetHeight currentTip.height)
      else if targetHeight < s.minRetainedHeightCached then
        Op.error (.rollbackBelowMin targetHeight s.minRetainedHeightCached)
      else if targetHeight = currentTip.height then pure []
      else
        let heights := heightsThrough (targetHeight + 1) currentTip.height
        let reverted ← collectCanonical heights.reverse
        write (heights.map fun h => .delete .canonical (heightKey h))
        onBin (CanonicalBin.truncateToHeight targetHeight)
        let found ← getHashByHeight targetHeight
        retipAt targetHeight found
        Op.modify (flagRecords false reverted)
        Op.modify (dropCachedHeights heights)
        pure reverted

/- `ancestor_height + 1`: a panic with overflow checks, wrapping without. -/
def heightAbove (height : UInt64) : StoreM UInt64 :=
  if height.toNat + 1 = 2 ^ 64 ∧ crates.overflowChecks then Op.panic "attempt to add with overflow"
  else pure (height + 1)

def applyReorg (ancestorHeight : UInt64) (newChainHashes : List Bytes32) : StoreM ReorgResult := do
  refuseReadOnly errMutationReadOnly
  let s ← Op.get
  match s.tip,newChainHashes.getLast? with
  | none,_ => Op.error .noTip
  | some _,none => Op.error .emptyReorgChain
  | some currentTip,some newTipHash =>
      let newRecords ← Op.collect (getRecordOrMissing crates) newChainHashes
      let start ← heightAbove crates ancestorHeight
      let heights := heightsThrough start currentTip.height
      let reverted ← collectCanonical heights.reverse
      let newTipHeight := (newRecords.getLast?.map fun row => row.2.height).getD 0
      let newTip : ChainTip := ⟨newTipHash,newTipHeight⟩
      write (heights.reverse.map (fun h => .delete .canonical (heightKey h))
        ++ newRecords.map (fun row => canonicalRow row.2.height row.1)
        ++ [.put .metadata metaTip newTip.toBytes])
      onBin (CanonicalBin.truncateToHeight ancestorHeight)
      Op.forEach (fun row => onBin (CanonicalBin.extendWrite row.2.height row.1)) newRecords
      Op.modify (flagRecords false reverted)
      Op.modify (flagRecords true newChainHashes)
      Op.modify (dropCachedHeights heights)
      Op.modify (cacheReorgHeights newRecords)
      Op.modify fun s => {s with tip := some newTip}
      pure ⟨reverted,newChainHashes,newTip⟩

end Store
end DigBlockstore
