import DigBlockstore.Reads

/-! Adding blocks and moving the tip: genesis, puts, canonical switches, extension. -/
namespace DigBlockstore
open ByteCodec Faulty
namespace Store
variable (crates : Crates)

def refuseReadOnly (message : String) : StoreM Unit := do
  let s ← Op.get
  if s.readOnly then Op.error (.serialization message) else pure ()

def bodyRows (hash : Bytes32) (compressed headerBytes : Bytes) : List Write :=
  [.put .blocks (hashKey hash) compressed,.put .headers (hashKey hash) headerBytes]

def canonicalRow (height : UInt64) (hash : Bytes32) : Write :=
  .put .canonical (heightKey height) (hashKey hash)

def initGenesis (block : L2Block) : StoreM Unit := do
  refuseReadOnly errInitGenesisReadOnly
  let s ← Op.get
  if (s.db .metadata)[metaTip]?.isSome || (s.db .metadata)[metaGenesisHash]?.isSome then
    Op.error (.serialization errInitGenesisAlreadyInitialized)
  else if block.height ≠ 0 then
    Op.error (.serialization ("init_genesis: genesis block height must be 0, got "
      ++ toString block.height))
  else
    let hash := block.hash crates
    let compressed ← Op.ofExcept (s.serializeBlock crates block)
    let headerBytes ← Op.ofExcept (serializeHeader crates block.header)
    let tip : ChainTip := ⟨hash,0⟩
    write (bodyRows hash compressed headerBytes ++ [canonicalRow 0 hash,
      .put .metadata metaTip tip.toBytes,.put .metadata metaGenesisHash hash.bytes])
    onBin (CanonicalBin.extendWrite 0 hash)
    Op.modify fun s => {s with tip := some tip}
    Op.modify (cacheRecord hash (BlockRecord.fromHeader crates block.header .validated))
    Op.modify (cacheBody hash block)
    Op.modify (cacheHeader hash block.header)
    maybeTrainDictionary crates

def disableCanonicalBinAcceleration : StoreM Unit :=
  Op.modify fun s => {s with canonicalBin := s.canonicalBin.disable}

def setTip (tip : ChainTip) : StoreM Unit := do
  refuseReadOnly errMutationReadOnly
  write [.put .metadata metaTip tip.toBytes]
  Op.modify fun s => {s with tip := some tip}

def indexCanonical (canonical : Bool) (height : UInt64) (hash : Bytes32) : StoreM Unit :=
  if canonical then do
    onBin (CanonicalBin.extendWrite height hash)
    Op.modify (insertCanonicalHeightCache height hash)
  else pure ()

def putBlock (block : L2Block) (canonical : Bool) : StoreM Bool := do
  refuseReadOnly errMutationReadOnly
  let hash := block.hash crates
  let s ← Op.get
  if (s.db .blocks)[hashKey hash]?.isSome then pure false
  else
    let compressed ← Op.ofExcept (s.serializeBlock crates block)
    let headerBytes ← Op.ofExcept (serializeHeader crates block.header)
    write (bodyRows hash compressed headerBytes
      ++ if canonical then [canonicalRow block.height hash] else [])
    indexCanonical canonical block.height hash
    Op.modify (cacheRecord hash (BlockRecord.fromHeader crates block.header .validated))
    Op.modify (cacheBody hash block)
    Op.modify (cacheHeader hash block.header)
    Op.modify (cacheHeight hash block.height)
    maybeTrainDictionary crates
    pure true

def getRecordOrMissing (hash : Bytes32) : StoreM (Bytes32 × BlockRecord) := do
  match ← getRecord crates hash with
  | none => Op.error (.blockNotInStore hash)
  | some record => pure (hash,record)

/- The record read before is put back when the cache has lost it since. -/
def markCanonical (hash : Bytes32) (record : BlockRecord) (s : Store) : Store :=
  match s.recordCache hash with
  | some _ => s.flagRecord true hash
  | none => s.cacheRecord hash {record with inCanonicalChain := true}

def setCanonical (hash : Bytes32) : StoreM Unit := do
  refuseReadOnly errMutationReadOnly
  let row ← getRecordOrMissing crates hash
  write [canonicalRow row.2.height hash]
  onBin (CanonicalBin.extendWrite row.2.height hash)
  Op.modify (insertCanonicalHeightCache row.2.height hash)
  Op.modify (cacheHeight hash row.2.height)
  Op.modify (markCanonical hash row.2)

def setCanonicalBatch (hashes : List Bytes32) : StoreM Unit := do
  refuseReadOnly errMutationReadOnly
  if hashes = [] then pure ()
  else
    let validated ← Op.collect (getRecordOrMissing crates) hashes
    write (validated.map fun row => canonicalRow row.2.height row.1)
    Op.forEach (fun row => do
      onBin (CanonicalBin.extendWrite row.2.height row.1)
      Op.modify (markCanonical row.1 row.2)) validated

def extendChain (block : L2Block) : StoreM Bool := do
  let hash := block.hash crates
  let s ← Op.get
  if s.hasBlock hash then pure false
  else
    let _ ← putBlock crates block true
    setTip ⟨hash,block.height⟩
    pure true

def putAttestation (hash : Bytes32) (attested : AttestedBlock) : StoreM Unit := do
  refuseReadOnly errMutationReadOnly
  let bytes ← Op.ofExcept ((crates.serializeAttested attested).mapError .serialization)
  write [.put .attested (hashKey hash) bytes]

def getAttestation (hash : Bytes32) : StoreM (Option AttestedBlock) := do
  let s ← Op.get
  match (s.db .attested)[hashKey hash]? with
  | none => pure none
  | some raw =>
      let attested ← Op.ofExcept ((crates.deserializeAttested raw).mapError
        fun why => .serialization ("get_attestation: bincode deserialize failed: " ++ why))
      pure (some attested)

def updateStatus (hash : Bytes32) (status : BlockStatus) : StoreM Unit := do
  let s ← Op.get
  match s.recordCache hash with
  | none => Op.error (.serialization (errUpdateStatusRecordNotCachedPrefix ++ crates.showHash hash))
  | some record =>
      Op.modify (cacheRecord hash {record with status := status,inCanonicalChain := status.isCanonical})

end Store
end DigBlockstore
