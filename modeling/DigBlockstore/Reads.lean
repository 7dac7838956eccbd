import DigBlockstore.Compression

/-! Reads by hash and by height. A read may move and add cache entries and changes
nothing else. -/
namespace DigBlockstore
open ByteCodec Faulty
namespace Store
variable (crates : Crates)

def getBlock (hash : Bytes32) : StoreM (Option L2Block) := do
  let s ← Op.get
  Op.modify (promoteBody hash)
  match (s.blockCache.getClone hash).1 with
  | some block => pure (some block)
  | none =>
      match (s.db .blocks)[hashKey hash]? with
      | none => pure none
      | some raw =>
          let block ← Op.ofExcept (s.deserializeBlock crates raw)
          Op.modify (cacheBody hash block)
          Op.modify (cacheHeader hash block.header)
          Op.modify (cacheHeight hash block.height)
          pure (some block)

def hasBlock (hash : Bytes32) (s : Store) : Bool :=
  s.blockCache.contains hash || s.headerCache.contains hash ||
    (s.db .headers)[hashKey hash]?.isSome || (s.db .blocks)[hashKey hash]?.isSome

def getHeader (hash : Bytes32) : StoreM (Option L2BlockHeader) := do
  let s ← Op.get
  Op.modify (promoteHeader hash)
  match (s.headerCache.getClone hash).1 with
  | some header => pure (some header)
  | none =>
      match (s.db .headers)[hashKey hash]? with
      | none => pure none
      | some raw =>
          let header ← Op.ofExcept (deserializeHeader crates raw)
          Op.modify (cacheHeader hash header)
          Op.modify (cacheHeight hash header.height)
          pure (some header)

def getRecord (hash : Bytes32) : StoreM (Option BlockRecord) := do
  let s ← Op.get
  match s.recordCache hash with
  | some record => pure (some record)
  | none =>
      Op.modify (promoteHeader hash)
      match (s.headerCache.getClone hash).1 with
      | some header =>
          let record := BlockRecord.fromHeader crates header .validated
          Op.modify (cacheRecord hash record)
          pure (some record)
      | none =>
          match (s.db .headers)[hashKey hash]? with
          | none => pure none
          | some bytes =>
              let header ← Op.ofExcept (deserializeHeader crates bytes)
              Op.modify (cacheHeader hash header)
              let record := BlockRecord.fromHeader crates header .validated
              Op.modify (cacheRecord hash record)
              pure (some record)

/- First loop of `get_blocks_by_hash`: hits go to their places, the indices of misses are kept. -/
def probeBlocks : List (Bytes32 × Nat) → List (Option L2Block) → List Nat →
    StoreM (List (Option L2Block) × List Nat)
  | [],results,missIndices => pure (results,missIndices)
  | (hash,i) :: rest,results,missIndices => do
      let s ← Op.get
      Op.modify (promoteBody hash)
      match (s.blockCache.getClone hash).1 with
      | some block => probeBlocks rest (results.set i (some block)) missIndices
      | none => probeBlocks rest results (missIndices ++ [i])

/- `multi_get_cf`: one result for each key, in key order. -/
def multiGet (s : Store) (cf : Cf) (keys : List Bytes) : List (Option Bytes) := keys.map fun key => (s.db cf)[key]?

/- Second loop: every row found is decoded, cached and put in its place. -/
def loadMissing (hashes : List Bytes32) : List (Option Bytes × Nat) → List (Option L2Block) →
    StoreM (List (Option L2Block))
  | [],results => pure results
  | (none,_) :: rest,results => loadMissing hashes rest results
  | (some raw,idx) :: rest,results => do
      let s ← Op.get
      let block ← Op.ofExcept (s.deserializeBlock crates raw)
      Op.modify (cacheBody (hashes.getD idx Bytes32.zero) block)
      Op.modify (cacheHeader (hashes.getD idx Bytes32.zero) block.header)
      loadMissing hashes rest (results.set idx (some block))

def getBlocksByHash (hashes : List Bytes32) : StoreM (List (Option L2Block)) := do
  let (results,missIndices) ← probeBlocks hashes.zipIdx (List.replicate hashes.length none) []
  if missIndices.isEmpty then pure results
  else
    let s ← Op.get
    let keys := missIndices.map fun idx => hashKey (hashes.getD idx Bytes32.zero)
    loadMissing crates hashes ((s.multiGet .blocks keys).zip missIndices) results

def invalidateBlockCacheEntry (hash : Bytes32) : StoreM Unit :=
  Op.modify fun s => {s with blockCache := s.blockCache.remove hash}

def invalidateHeaderCacheEntry (hash : Bytes32) : StoreM Unit :=
  Op.modify fun s => {s with headerCache := s.headerCache.remove hash}

def invalidateRecordCacheEntry (hash : Bytes32) : StoreM Unit :=
  Op.modify fun s => {s with recordCache := Function.update s.recordCache hash none}

def getBlockByHeight (height : UInt64) : StoreM (Option L2Block) := do
  match ← getHashByHeight height with
  | none => pure none
  | some hash => getBlock crates hash

def getRecordByHeight (height : UInt64) : StoreM (Option BlockRecord) := do
  match ← getHashByHeight height with
  | none => pure none
  | some hash => getRecord crates hash

def getHeaderByHeight (height : UInt64) : StoreM (Option L2BlockHeader) := do
  match ← getHashByHeight height with
  | none => pure none
  | some hash => getHeader crates hash

/- `Vec::with_capacity((end - start + 1) as usize)` for elements of `size` bytes. -/
def reserve (size : Nat) (startHeight endHeight : UInt64) : StoreM Unit :=
  let n := endHeight.toNat - startHeight.toNat + 1
  if n ≥ 2 ^ 64 then
    if crates.overflowChecks then Op.panic "attempt to add with overflow" else pure ()
  else if n * size ≥ 2 ^ 63 then Op.panic "capacity overflow"
  else pure ()

def getBlocksInRange (size : Nat) (startHeight endHeight : UInt64) : StoreM (List L2Block) := do
  if startHeight > endHeight then pure []
  else
    reserve crates size startHeight endHeight
    let found ← Op.collect (getBlockByHeight crates) (heightsThrough startHeight endHeight)
    pure (found.filterMap id)

def getRecordsInRange (size : Nat) (startHeight endHeight : UInt64) : StoreM (List BlockRecord) := do
  if startHeight > endHeight then pure []
  else
    reserve crates size startHeight endHeight
    let found ← Op.collect (getRecordByHeight crates) (heightsThrough startHeight endHeight)
    pure (found.filterMap id)

def epochHashes : List UInt64 → StoreM (List Bytes32)
  | [] => pure []
  | height :: rest => do
      match ← getHashByHeight height with
      | none => pure []  -- chain hasn't reached this height yet
      | some hash =>
          let later ← epochHashes rest
          pure (hash :: later)

def getEpochBlockHashes (epoch : UInt64) : StoreM (List Bytes32) :=
  epochHashes (heightsThrough (crates.firstHeightInEpoch epoch) (crates.epochCheckpointHeight epoch))

def collectCanonical (heights : List UInt64) : StoreM (List Bytes32) := do
  let found ← Op.collect getHashByHeight heights
  pure (found.filterMap id)

def blocksToRevert (targetHeight : UInt64) : StoreM (List Bytes32) := do
  let s ← Op.get
  match s.tip with
  | none => pure []
  | some currentTip =>
      if targetHeight ≥ currentTip.height then pure []
      else collectCanonical (heightsThrough (targetHeight + 1) currentTip.height).reverse

def canonicalPairs (start endHeight : UInt64) : List (Bytes × Bytes) →
    Except BlockStoreError (List (UInt64 × Bytes32))
  | [] => .ok []
  | (k,v) :: rest =>
      if k.length ≠ 8 then
        .error (.serialization "stream_blocks_in_range: CF_CANONICAL key must be exactly 8 bytes")
      else
        let height := decodeHeightKey k
        if height > endHeight then .ok []
        else if height < start then canonicalPairs start endHeight rest
        else
          match Bytes32.ofBytes? v with
          | none => .error (.serialization
              "stream_blocks_in_range: CF_CANONICAL value must be exactly 32 bytes")
          | some hash => (canonicalPairs start endHeight rest).map ((height,hash) :: ·)

/- `StreamBlocksInRange::next` for one of its pairs. -/
def streamNext (hash : Bytes32) : StoreM L2Block := do
  let s ← Op.get
  Op.modify (promoteBody hash)
  match (s.blockCache.getClone hash).1 with
  | some block => pure block
  | none =>
      match (s.db .blocks)[hashKey hash]? with
      | none => Op.error (.blockNotFound hash)
      | some raw =>
          let block ← Op.ofExcept (s.deserializeBlock crates raw)
          Op.modify (cacheBody hash block)
          Op.modify (cacheHeader hash block.header)
          pure block

def streamBlocksInRange (start endHeight : UInt64) : StoreM (List (Except BlockStoreError L2Block)) := do
  if start > endHeight then pure []
  else
    let s ← Op.get
    let rows := (s.db .canonical).toList.filter fun (k,_) =>
      compare (heightKey start) k ≠ .gt ∧ (endHeight.toNat + 1 < 2 ^ 64 → compare k (heightKey (endHeight + 1)) = .lt)
    let pairs ← Op.ofExcept (canonicalPairs start endHeight rows)
    Op.collect (fun (_,hash) => Op.attempt (streamNext crates hash)) pairs

def ancestorWalk (currentHash : Bytes32) : (depth : Nat) → StoreM (Option (Bytes32 × UInt64))
  | 0 => pure none  -- exceeded max_depth
  | depth+1 => do
      match ← getRecord crates currentHash with
      | none => pure none  -- block not in store or chain broken
      | some record =>
          Op.modify (cacheHeight currentHash record.height)
          let canonicalHash ← getHashByHeight record.height
          if canonicalHash = some currentHash then pure (some (currentHash,record.height))
          else ancestorWalk record.parentHash depth

def findCommonAncestor (hash : Bytes32) (maxDepth : UInt64) : StoreM (Option (Bytes32 × UInt64)) :=
  ancestorWalk crates hash maxDepth.toNat

end Store
end DigBlockstore
