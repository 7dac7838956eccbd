import DigBlockstore.Open
import DigBlockstore.Library.Trace

/-! The public calls on an open store, and runs in which every call returns Ok. -/
namespace DigBlockstore
open ByteCodec Faulty

inductive Read where
  | getHashByHeight (height : UInt64)
  | getBlock (hash : Bytes32)
  | getHeader (hash : Bytes32)
  | getRecord (hash : Bytes32)
  | hasBlock (hash : Bytes32)
  | getBlocksByHash (hashes : List Bytes32)
  | getBlockByHeight (height : UInt64)
  | getHeaderByHeight (height : UInt64)
  | getRecordByHeight (height : UInt64)
  | getBlocksInRange (size : Nat) (startHeight endHeight : UInt64)
  | getRecordsInRange (size : Nat) (startHeight endHeight : UInt64)
  | getEpochBlockHashes (epoch : UInt64)
  | streamBlocksInRange (start endHeight : UInt64)
  | blocksToRevert (targetHeight : UInt64)
  | findCommonAncestor (hash : Bytes32) (maxDepth : UInt64)
  | getAttestation (hash : Bytes32)
  | getCheckpoint (epoch : UInt64)
  | getLatestCheckpoint
  | getCheckpointsInRange (startEpoch endEpoch : UInt64)
  | exportSnapshot (startHeight endHeight : UInt64)

inductive Call where
  | read (r : Read)
  | initGenesis (block : L2Block)
  | putBlock (block : L2Block) (canonical : Bool)
  | flush (jobs : List PipelineJob)
  | extendChain (block : L2Block)
  | setCanonical (hash : Bytes32)
  | setCanonicalBatch (hashes : List Bytes32)
  | rollbackToHeight (targetHeight : UInt64)
  | applyReorg (ancestorHeight : UInt64) (newChainHashes : List Bytes32)
  | pruneBeforeHeight (height : UInt64)
  | setTip (tip : ChainTip)
  | putAttestation (hash : Bytes32) (attested : AttestedBlock)
  | putCheckpoint (checkpoint : StoredCheckpoint)
  | pruneCheckpointsBeforeEpoch (epoch : UInt64)
  | updateStatus (hash : Bytes32) (status : BlockStatus)
  | importSnapshot (input : Bytes)
  | initDictionary
  | disableCanonicalBinAcceleration
  | invalidateBlockCacheEntry (hash : Bytes32)
  | invalidateHeaderCacheEntry (hash : Bytes32)
  | invalidateRecordCacheEntry (hash : Bytes32)
  | compaction (visited : Cf → Bytes → Bool)

namespace Store
variable (crates : Crates)

def discard {α : Type} (m : StoreM α) : StoreM Unit := do
  let _ ← m
  pure ()

def read : Read → StoreM Unit
  | .getHashByHeight height => discard (getHashByHeight height)
  | .getBlock hash => discard (getBlock crates hash)
  | .getHeader hash => discard (getHeader crates hash)
  | .getRecord hash => discard (getRecord crates hash)
  | .hasBlock _ => pure ()
  | .getBlocksByHash hashes => discard (getBlocksByHash crates hashes)
  | .getBlockByHeight height => discard (getBlockByHeight crates height)
  | .getHeaderByHeight height => discard (getHeaderByHeight crates height)
  | .getRecordByHeight height => discard (getRecordByHeight crates height)
  | .getBlocksInRange size startHeight endHeight => discard (getBlocksInRange crates size startHeight endHeight)
  | .getRecordsInRange size startHeight endHeight => discard (getRecordsInRange crates size startHeight endHeight)
  | .getEpochBlockHashes epoch => discard (getEpochBlockHashes crates epoch)
  | .streamBlocksInRange start endHeight => discard (streamBlocksInRange crates start endHeight)
  | .blocksToRevert targetHeight => discard (blocksToRevert targetHeight)
  | .findCommonAncestor hash maxDepth => discard (findCommonAncestor crates hash maxDepth)
  | .getAttestation hash => discard (getAttestation crates hash)
  | .getCheckpoint epoch => discard (getCheckpoint crates epoch)
  | .getLatestCheckpoint => discard (getLatestCheckpoint crates)
  | .getCheckpointsInRange startEpoch endEpoch => discard (getCheckpointsInRange crates startEpoch endEpoch)
  | .exportSnapshot startHeight endHeight => discard (exportSnapshot crates startHeight endHeight)

/- A flush returns Ok to its callers when every acknowledgement is Ok. -/
def flushOk (jobs : List PipelineJob) : StoreM Unit := do
  let acks ← flushPipelineBatch crates jobs
  Op.forEach (fun ack => discard (Op.ofExcept ack.2)) acks

def call : Call → StoreM Unit
  | .read r => read crates r
  | .initGenesis block => initGenesis crates block
  | .putBlock block canonical => discard (putBlock crates block canonical)
  | .flush jobs => flushOk crates jobs
  | .extendChain block => discard (extendChain crates block)
  | .setCanonical hash => setCanonical crates hash
  | .setCanonicalBatch hashes => setCanonicalBatch crates hashes
  | .rollbackToHeight targetHeight => discard (rollbackToHeight targetHeight)
  | .applyReorg ancestorHeight newChainHashes => discard (applyReorg crates ancestorHeight newChainHashes)
  | .pruneBeforeHeight height => discard (pruneBeforeHeight crates height)
  | .setTip tip => setTip tip
  | .putAttestation hash attested => putAttestation crates hash attested
  | .putCheckpoint checkpoint => putCheckpoint crates checkpoint
  | .pruneCheckpointsBeforeEpoch epoch => discard (pruneCheckpointsBeforeEpoch epoch)
  | .updateStatus hash status => updateStatus crates hash status
  | .importSnapshot input => discard (importSnapshot crates input)
  | .initDictionary => initDictionary
  | .disableCanonicalBinAcceleration => disableCanonicalBinAcceleration
  | .invalidateBlockCacheEntry hash => invalidateBlockCacheEntry hash
  | .invalidateHeaderCacheEntry hash => invalidateHeaderCacheEntry hash
  | .invalidateRecordCacheEntry hash => invalidateRecordCacheEntry hash
  | .compaction visited => compaction crates visited

end Store

inductive Action where
  | call (c : Call)
  | reopen (config : BlockStoreConfig)
  | reopenReadonly (path : String)

/- The action returns Ok. -/
def Takes (crates : Crates) (s : Store) (action : Action) (t : Store) : Prop :=
  match action with
  | .call c => Runs (Store.call crates c) s (.ok ()) t
  | .reopen config => ∃ disk, Runs (Store.openStore crates config) s.disk (.ok t) disk
  | .reopenReadonly path => ∃ disk, Runs (Store.openReadonly crates path) s.disk (.ok t) disk

/- A store opened on an empty database, whatever file lies beside it. -/
def Opened (crates : Crates) (s : Store) : Prop :=
  ∃ config file disk, Runs (Store.openStore crates config) ⟨fun _ => ∅,file⟩ (.ok s) disk

end DigBlockstore
