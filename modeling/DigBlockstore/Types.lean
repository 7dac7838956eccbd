import DigBlockstore.Library.Bytes
import DigBlockstore.Library.Columns

/-! The values the store keeps and the keys it keeps them under. Header fields that
the store never reads are one `rest`, and a block's spend bundles one `body`. -/
namespace DigBlockstore
open ByteCodec

structure Bytes32 where
  bytes : Bytes
  length : bytes.length = 32
  deriving DecidableEq, Repr

namespace Bytes32

@[ext] theorem ext {a b : Bytes32} (h : a.bytes = b.bytes) : a = b := by
  cases a; cases b; cases h; rfl

def ofBytes? (bytes : Bytes) : Option Bytes32 :=
  if length : bytes.length = 32 then some ⟨bytes,length⟩ else none

@[simp] theorem ofBytesBytes (x : Bytes32) : ofBytes? x.bytes = some x := by
  simp [ofBytes?,x.length]

theorem ofBytesSome {bytes : Bytes} {x : Bytes32} (h : ofBytes? bytes = some x) : bytes = x.bytes := by
  unfold ofBytes? at h
  split at h <;> try contradiction
  cases Option.some.inj h
  rfl

def zero : Bytes32 := ⟨List.replicate 32 0,by simp⟩

end Bytes32

structure L2BlockHeader where
  height : UInt64
  epoch : UInt64
  parentHash : Bytes32
  timestamp : UInt64
  proposerIndex : UInt32
  spendBundleCount : UInt32
  totalCost : UInt64
  totalFees : UInt64
  additionsCount : UInt32
  removalsCount : UInt32
  l1Height : UInt32
  l1Hash : Bytes32
  stateRoot : Bytes32
  rest : Bytes
  deriving DecidableEq, Repr

structure L2Block where
  header : L2BlockHeader
  body : Bytes
  deriving DecidableEq, Repr

def L2Block.height (block : L2Block) : UInt64 := block.header.height

inductive BlockStatus where
  | pending | validated | softFinalized | hardFinalized | orphaned | rejected
  deriving DecidableEq, Repr

def BlockStatus.isCanonical : BlockStatus → Bool
  | orphaned | rejected => false
  | _ => true

structure BlockRecord where
  hash : Bytes32
  height : UInt64
  epoch : UInt64
  parentHash : Bytes32
  inCanonicalChain : Bool
  status : BlockStatus
  timestamp : UInt64
  proposerIndex : UInt32
  spendBundleCount : UInt32
  totalCost : UInt64
  totalFees : UInt64
  additionsCount : UInt32
  removalsCount : UInt32
  blockSize : UInt64
  l1Height : UInt32
  l1Hash : Bytes32
  stateRoot : Bytes32
  deriving DecidableEq, Repr

structure ChainTip where
  hash : Bytes32
  height : UInt64
  deriving DecidableEq, Repr

structure ReorgResult where
  reverted : List Bytes32
  applied : List Bytes32
  newTip : ChainTip
  deriving DecidableEq, Repr

structure AttestedBlock where
  block : L2Block
  attestation : Bytes
  deriving DecidableEq, Repr

structure StoredCheckpoint where
  epoch : UInt64
  rest : Bytes
  deriving DecidableEq, Repr

structure SnapshotManifest where
  version : UInt32
  startHeight : UInt64
  endHeight : UInt64
  blockCount : UInt64
  stateRoot : Bytes32
  checksum : Bytes32
  deriving DecidableEq, Repr

inductive BlockStoreError where
  | rocksDb (why : String)
  | serialization (why : String)
  | compression (why : String)
  | blockNotFound (hash : Bytes32)
  | checkpointNotFound (epoch : UInt64)
  | blockNotInStore (hash : Bytes32)
  | rollbackBelowMin (target min : UInt64)
  | rollbackAboveTip (target tip : UInt64)
  | noTip
  | schemaMismatch (expected found : UInt32)
  | notInitialized
  | emptyReorgChain
  | pipelineClosed
  deriving DecidableEq, Repr

def errInitGenesisReadOnly : String := "init_genesis: block store is read-only"

def errMutationReadOnly : String := "mutating API invoked on read-only block store"

def errInitGenesisAlreadyInitialized : String := "init_genesis: block store already initialized"

def errUpdateStatusRecordNotCachedPrefix : String :=
  "update_status: no BlockRecord cached for block hash "

inductive Cf where
  | blocks | headers | attested | canonical | checkpoints | metadata
  deriving DecidableEq, Repr

abbrev Db := ColumnStore.Columns Cf Bytes Bytes

abbrev Write := ColumnStore.Write Cf Bytes Bytes

def metadataKey (name : String) : Bytes := name.toUTF8.data.toList

def metaTip : Bytes := metadataKey "tip"

def metaGenesisHash : Bytes := metadataKey "genesis_hash"

def metaMinHeight : Bytes := metadataKey "min_height"

def metaZstdDict : Bytes := metadataKey "zstd_dict"

def dictTrainingThreshold : Nat := 1000

def dictTargetSize : Nat := 100 * 1024

def snapshotVersion : UInt32 := 1

def hashKey (hash : Bytes32) : Bytes := hash.bytes

def heightKey (height : UInt64) : Bytes := beBytes 8 height.toNat

def decodeHeightKey (key : Bytes) : UInt64 := UInt64.ofNat (beNat key)

def epochKey (epoch : UInt64) : Bytes := beBytes 8 epoch.toNat

def decodeEpochKey (key : Bytes) : UInt64 := UInt64.ofNat (beNat key)

/- `u64::to_le_bytes` and `from_le_bytes`. -/
def toLeBytes (n : UInt64) : Bytes := leBytes 8 n.toNat

def fromLeBytes (bytes : Bytes) : UInt64 := UInt64.ofNat (leNat bytes)

@[simp] theorem metadataKeysApart : metaTip ≠ metaGenesisHash ∧ metaTip ≠ metaMinHeight ∧
    metaTip ≠ metaZstdDict ∧ metaGenesisHash ≠ metaMinHeight ∧ metaGenesisHash ≠ metaZstdDict ∧
    metaMinHeight ≠ metaZstdDict := by decide

@[simp] theorem metadataKeysApartSymm : metaGenesisHash ≠ metaTip ∧ metaMinHeight ≠ metaTip ∧
    metaZstdDict ≠ metaTip ∧ metaMinHeight ≠ metaGenesisHash ∧ metaZstdDict ≠ metaGenesisHash ∧
    metaZstdDict ≠ metaMinHeight := by decide

theorem hashKeyInj {a b : Bytes32} : hashKey a = hashKey b ↔ a = b :=
  ⟨Bytes32.ext,congrArg _⟩

@[simp] theorem heightKeyLength (height : UInt64) : (heightKey height).length = 8 := by
  simp [heightKey]

theorem decodeHeightKeyHeightKey (height : UInt64) : decodeHeightKey (heightKey height) = height := by
  have small := height.toNat_lt
  rw [decodeHeightKey,heightKey,beNatBeBytes,Nat.mod_eq_of_lt (by simpa using small)]
  exact UInt64.ofNat_toNat

theorem heightKeyInj {a b : UInt64} : heightKey a = heightKey b ↔ a = b := by
  constructor
  · intro h
    rw [← decodeHeightKeyHeightKey a,h,decodeHeightKeyHeightKey]
  · exact congrArg _

theorem heightKeyDecode {key : Bytes} (h : key.length = 8) : heightKey (decodeHeightKey key) = key := by
  have small : beNat key < 256 ^ 8 := by
    have := leNatLt key.reverse
    rwa [List.length_reverse,h] at this
  have exact : (decodeHeightKey key).toNat = beNat key := by
    rw [decodeHeightKey,UInt64.toNat_ofNat']
    exact Nat.mod_eq_of_lt (by simpa using small)
  rw [heightKey,exact,← h,beBytesBeNat]

theorem fromLeBytesToLeBytes (n : UInt64) : fromLeBytes (toLeBytes n) = n := by
  have small := n.toNat_lt
  rw [fromLeBytes,toLeBytes,leNatLeBytes,Nat.mod_eq_of_lt (by simpa using small)]
  exact UInt64.ofNat_toNat

namespace ChainTip

def toBytes (tip : ChainTip) : Bytes := tip.hash.bytes ++ toLeBytes tip.height

def fromBytes (bytes : Bytes) : Except BlockStoreError ChainTip :=
  if length : bytes.length = 40 then
    .ok ⟨⟨bytes.take 32,by simp [length]⟩,fromLeBytes (bytes.drop 32)⟩
  else .error (.serialization ("ChainTip requires 40 bytes, got " ++ toString bytes.length))

theorem fromBytesToBytes (tip : ChainTip) : fromBytes tip.toBytes = .ok tip := by
  have total : tip.toBytes.length = 40 := by simp [toBytes,toLeBytes,tip.hash.length]
  have front : tip.toBytes.take 32 = tip.hash.bytes := by
    rw [toBytes,← tip.hash.length,List.take_left]
  have back : tip.toBytes.drop 32 = toLeBytes tip.height := by
    rw [toBytes,← tip.hash.length,List.drop_left]
  simp [fromBytes,total,front,back,fromLeBytesToLeBytes]

end ChainTip

end DigBlockstore
