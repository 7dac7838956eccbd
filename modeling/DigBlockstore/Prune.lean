import DigBlockstore.Reorg

/-! Pruning below a height, checkpoint rows, and the compaction filters. -/
namespace DigBlockstore
open ByteCodec Faulty
namespace Store
variable (crates : Crates)

def bodyDeletes (hash : Bytes32) : List Write :=
  [.delete .blocks (hashKey hash),.delete .headers (hashKey hash),.delete .attested (hashKey hash)]

/- First pass: the canonical heights from the old floor, with the batch that drops them. -/
def pruneCanonical : List UInt64 → StoreM (List Write × List Bytes32)
  | [] => pure ([],[])
  | h :: rest => do
      let found ← getHashByHeight h
      let (batch,hashes) ← pruneCanonical rest
      match found with
      | none => pure (batch,hashes)
      | some hash =>
          pure (bodyDeletes hash ++ .delete .canonical (heightKey h) :: batch,hash :: hashes)

/- Second pass: the other header rows below the height. -/
def pruneForks (height : UInt64) (canonicalSet : List Bytes32) (rows : List (Bytes × Bytes)) :
    List Bytes32 :=
  rows.filterMap fun (keyBytes,valueBytes) =>
    match Bytes32.ofBytes? keyBytes with
    | none => none
    | some hash =>
        if hash ∈ canonicalSet then none
        else
          match deserializeHeader crates valueBytes with
          | .error _ => none
          | .ok header => if header.height < height then some hash else none

def evictPruned (hash : Bytes32) (s : Store) : Store :=
  {s with
    blockCache := s.blockCache.remove hash
    headerCache := s.headerCache.remove hash
    recordCache := Function.update s.recordCache hash none
    hashToHeightCache := s.hashToHeightCache.remove hash}

def evictHeightsBelow (height : UInt64) (s : Store) : Store :=
  {s with canonicalHeightCache := s.canonicalHeightCache.filter fun h _ => !(h < height)}

def pruneBeforeHeight (height : UInt64) : StoreM Nat := do
  refuseReadOnly errMutationReadOnly
  let s ← Op.get
  if height ≤ s.minRetainedHeightCached then pure 0
  else
    let (batch,canonicalHashes) ← pruneCanonical (heightsBefore s.minRetainedHeightCached height)
    let s ← Op.get
    let forkHashes := pruneForks crates height canonicalHashes (s.db .headers).toList
    let prunedHashes := canonicalHashes ++ forkHashes
    write (batch ++ forkHashes.flatMap bodyDeletes ++ [.put .metadata metaMinHeight (toLeBytes height)])
    Op.modify fun s => {s with minRetainedHeightCached := height}
    Op.modify fun s => prunedHashes.foldl (fun s hash => s.evictPruned hash) s
    Op.modify (evictHeightsBelow height)
    pure prunedHashes.length

def putCheckpoint (checkpoint : StoredCheckpoint) : StoreM Unit := do
  refuseReadOnly errMutationReadOnly
  let value ← Op.ofExcept ((crates.encodeCheckpoint checkpoint).mapError .serialization)
  write [.put .checkpoints (epochKey checkpoint.epoch) value]

def decodeCheckpoint (value : Bytes) : StoreM StoredCheckpoint :=
  Op.ofExcept ((crates.decodeCheckpoint value).mapError .serialization)

def getCheckpoint (epoch : UInt64) : StoreM (Option StoredCheckpoint) := do
  let s ← Op.get
  match (s.db .checkpoints)[epochKey epoch]? with
  | none => pure none
  | some bytes =>
      let checkpoint ← decodeCheckpoint crates bytes
      pure (some checkpoint)

def getLatestCheckpoint : StoreM (Option StoredCheckpoint) := do
  let s ← Op.get
  match (s.db .checkpoints).toList.getLast? with
  | none => pure none
  | some (_,value) =>
      let checkpoint ← decodeCheckpoint crates value
      pure (some checkpoint)

def checkpointRows (endEpoch : UInt64) : List (Bytes × Bytes) → List Bytes
  | [] => []
  | (key,value) :: rest =>
      if key.length ≠ 8 then checkpointRows endEpoch rest
      else if decodeEpochKey key > endEpoch then []
      else value :: checkpointRows endEpoch rest

def getCheckpointsInRange (startEpoch endEpoch : UInt64) : StoreM (List StoredCheckpoint) := do
  if startEpoch > endEpoch then pure []
  else
    let s ← Op.get
    let rows := (s.db .checkpoints).toList.filter fun (key,_) => compare (epochKey startEpoch) key ≠ .gt
    Op.collect (decodeCheckpoint crates) (checkpointRows endEpoch rows)

def checkpointKeysBelow (epoch : UInt64) : List (Bytes × Bytes) → List Bytes
  | [] => []
  | (key,_) :: rest =>
      if key.length ≠ 8 then checkpointKeysBelow epoch rest
      else if decodeEpochKey key ≥ epoch then []
      else key :: checkpointKeysBelow epoch rest

def pruneCheckpointsBeforeEpoch (epoch : UInt64) : StoreM Nat := do
  refuseReadOnly errMutationReadOnly
  if epoch = 0 then pure 0
  else
    let s ← Op.get
    let keys := checkpointKeysBelow epoch (s.db .checkpoints).toList
    if keys.length > 0 then
      write (keys.map fun key => .delete .checkpoints key)
      pure keys.length
    else pure keys.length

/- The three compaction filters: remove a row they can decode to a block below the floor. -/
def filterRemoves (minHeight : UInt64) (cf : Cf) (value : Bytes) : Bool :=
  if minHeight = 0 then false
  else
    match cf with
    | .blocks =>
        match crates.decodeAll value with
        | .error _ => false
        | .ok raw =>
            match crates.deserializeBlock raw with
            | .error _ => false
            | .ok block => block.height < minHeight
    | .headers =>
        match crates.deserializeHeader value with
        | .error _ => false
        | .ok header => header.height < minHeight
    | .attested =>
        match crates.deserializeAttested value with
        | .error _ => false
        | .ok attested => attested.block.height < minHeight
    | .canonical | .checkpoints | .metadata => false

/- A compaction may visit any of the rows. -/
def compacted (visited : Cf → Bytes → Bool) (s : Store) : Store :=
  {s with db := fun cf => (s.db cf).filter fun key value =>
            !(visited cf key && filterRemoves crates s.minRetainedHeightCached cf value)}

def compaction (visited : Cf → Bytes → Bool) : StoreM Unit :=
  Op.modify fun s => if s.compactionPruning then s.compacted crates visited else s

end Store
end DigBlockstore
