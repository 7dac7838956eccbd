import DigBlockstore.CanonicalBin
import DigBlockstore.Sharded

/-! The open store, and what it takes from its crates: block and header hashing,
bincode, zstd, SHA-256, the epoch arithmetic and the build's overflow checks.
RocksDB writes are the external steps that may fail; its point reads answer. -/
namespace DigBlockstore
open ByteCodec Faulty
open Std (ExtTreeMap)

structure Crates where
  overflowChecks : Bool
  headerHash : L2BlockHeader → Bytes32
  serializeHeader : L2BlockHeader → Except String Bytes
  deserializeHeader : Bytes → Except String L2BlockHeader
  serializeBlock : L2Block → Except String Bytes
  deserializeBlock : Bytes → Except String L2Block
  encodeAll : Bytes → Int → Except String Bytes
  decodeAll : Bytes → Except String Bytes
  compressWith : (dict : Bytes) → (level : Int) → (raw : Bytes) → Except String Bytes
  decompressor : (dict : Bytes) → Except String Unit
  decompressWith : (dict : Bytes) → (compressed : Bytes) → (cap : Nat) → Except String Bytes
  shuffle : List Bytes → List Bytes
  fromSamples : List Bytes → Nat → Except String Bytes
  serializeAttested : AttestedBlock → Except String Bytes
  deserializeAttested : Bytes → Except String AttestedBlock
  encodeCheckpoint : StoredCheckpoint → Except String Bytes
  decodeCheckpoint : Bytes → Except String StoredCheckpoint
  serializeManifest : SnapshotManifest → Except String Bytes
  deserializeManifest : Bytes → Except String (SnapshotManifest × Bytes)
  sha256 : Bytes → Bytes32
  firstHeightInEpoch : UInt64 → UInt64
  epochCheckpointHeight : UInt64 → UInt64
  showHash : Bytes32 → String

structure BlockStoreConfig where
  path : String
  blockCacheCapacity : Nat
  headerCacheCapacity : Nat
  cacheShards : Nat
  warmCacheOnOpen : Bool
  warmCacheDepth : UInt64
  compressionLevel : Int
  useCompressionDict : Bool
  maxDecompressedBlockBytes : Nat
  zstdDictionaryOverride : Option Bytes
  canonicalHeightCacheCapacity : Nat
  hashToHeightCacheCapacity : Nat
  enableCompactionPruning : Bool

def BlockStoreConfig.default (path : String) : BlockStoreConfig where
  path := path
  blockCacheCapacity := 1000
  headerCacheCapacity := 2000
  cacheShards := 16
  warmCacheOnOpen := true
  warmCacheDepth := 64
  compressionLevel := 3
  useCompressionDict := true
  maxDecompressedBlockBytes := 128 * 1024 * 1024
  zstdDictionaryOverride := none
  canonicalHeightCacheCapacity := 10000
  hashToHeightCacheCapacity := 10000
  enableCompactionPruning := false

structure Store where
  db : Db
  readOnly : Bool
  tip : Option ChainTip
  compressionLevel : Int
  useCompressionDict : Bool
  maxDecompressedBlockBytes : Nat
  zstdDict : Option Bytes
  recordCache : Bytes32 → Option BlockRecord
  blockCache : ShardedLruCache L2Block
  headerCache : ShardedLruCache L2BlockHeader
  canonicalBin : CanonicalBin
  minRetainedHeightCached : UInt64
  canonicalHeightCache : ExtTreeMap UInt64 Bytes32 compare
  canonicalHeightCacheCapacity : Nat
  hashToHeightCache : ShardedLruCache UInt64
  compactionPruning : Bool

abbrev StoreM (α : Type) := Op Store BlockStoreError α

variable (crates : Crates)

def L2Block.hash (block : L2Block) : Bytes32 := crates.headerHash block.header

def BlockRecord.fromHeader (header : L2BlockHeader) (status : BlockStatus) : BlockRecord where
  hash := crates.headerHash header
  height := header.height
  epoch := header.epoch
  parentHash := header.parentHash
  inCanonicalChain := status.isCanonical
  status := status
  timestamp := header.timestamp
  proposerIndex := header.proposerIndex
  spendBundleCount := header.spendBundleCount
  totalCost := header.totalCost
  totalFees := header.totalFees
  additionsCount := header.additionsCount
  removalsCount := header.removalsCount
  blockSize := 0
  l1Height := header.l1Height
  l1Hash := header.l1Hash
  stateRoot := header.stateRoot

/- `lo..=hi` and `lo..hi`, ascending. -/
def heightsThrough (lo hi : UInt64) : List UInt64 :=
  (List.range (hi.toNat + 1 - lo.toNat)).map fun i => UInt64.ofNat (lo.toNat + i)

def heightsBefore (lo hi : UInt64) : List UInt64 :=
  (List.range (hi.toNat - lo.toNat)).map fun i => UInt64.ofNat (lo.toNat + i)

theorem ofNatToNat {n : Nat} (small : n < 2 ^ 64) : (UInt64.ofNat n).toNat = n := by
  rw [UInt64.toNat_ofNat']
  exact Nat.mod_eq_of_lt small

theorem spanNodup {lo n : Nat} (fits : lo + n ≤ 2 ^ 64) : ((List.range n).map fun i => UInt64.ofNat (lo + i)).Nodup := by
  refine List.Nodup.map_on (fun i mem j mem' same => ?_) List.nodup_range
  rw [List.mem_range] at mem mem'
  have same' := congrArg UInt64.toNat same
  rw [ofNatToNat (by omega),ofNatToNat (by omega)] at same'
  omega

theorem heightsThroughNodup (lo hi : UInt64) : (heightsThrough lo hi).Nodup :=
  spanNodup (by have := hi.toNat_lt; have := lo.toNat_lt; omega)

theorem heightsBeforeNodup (lo hi : UInt64) : (heightsBefore lo hi).Nodup :=
  spanNodup (by have := hi.toNat_lt; have := lo.toNat_lt; omega)

theorem memHeightsThrough {lo hi h : UInt64} : h ∈ heightsThrough lo hi ↔ lo ≤ h ∧ h ≤ hi := by
  have bound := hi.toNat_lt
  simp only [heightsThrough,List.mem_map,List.mem_range,UInt64.le_iff_toNat_le]
  constructor
  · rintro ⟨i,inside,rfl⟩
    rw [ofNatToNat (by omega)]
    omega
  · rintro ⟨low,high⟩
    refine ⟨h.toNat - lo.toNat,by omega,?_⟩
    rw [← UInt64.toNat_inj,ofNatToNat (by omega)]
    omega

theorem memHeightsBefore {lo hi h : UInt64} : h ∈ heightsBefore lo hi ↔ lo ≤ h ∧ h < hi := by
  have bound := hi.toNat_lt
  simp only [heightsBefore,List.mem_map,List.mem_range,UInt64.le_iff_toNat_le,UInt64.lt_iff_toNat_lt]
  constructor
  · rintro ⟨i,inside,rfl⟩
    rw [ofNatToNat (by omega)]
    omega
  · rintro ⟨low,high⟩
    refine ⟨h.toNat - lo.toNat,by omega,?_⟩
    rw [← UInt64.toNat_inj,ofNatToNat (by omega)]
    omega

theorem succToNat {h k : UInt64} (below : h < k) : (h + 1).toNat = h.toNat + 1 := by
  have bound := k.toNat_lt
  rw [UInt64.lt_iff_toNat_lt] at below
  rw [UInt64.toNat_add,UInt64.toNat_one]
  exact Nat.mod_eq_of_lt (by omega)

theorem memAbove {lo hi h : UInt64} (below : lo < hi) :
    h ∈ heightsThrough (lo + 1) hi ↔ lo < h ∧ h ≤ hi := by
  rw [memHeightsThrough,UInt64.le_iff_toNat_le,succToNat below,UInt64.lt_iff_toNat_lt]
  rfl

namespace Store

/- `WriteBatch` and single-row writes: durable as a whole or not at all. -/
def write (batch : List Write) : StoreM Unit := do
  Op.step .rocksDb
  Op.modify fun s => {s with db := ColumnStore.applyAll batch s.db}

def onBin (m : CanonicalBin.Bin Unit) : StoreM Unit :=
  Op.zoom (fun s => s.canonicalBin) (fun bin s => {s with canonicalBin := bin}) m

def evictLowest (capacity : Nat) : Nat → ExtTreeMap UInt64 Bytes32 compare → ExtTreeMap UInt64 Bytes32 compare
  | 0, cache => cache
  | fuel+1, cache =>
      if cache.size > capacity then
        match cache.minKey? with
        | some lowest => evictLowest capacity fuel (cache.erase lowest)
        | none => cache
      else cache

def insertCanonicalHeightCache (height : UInt64) (hash : Bytes32) (s : Store) : Store :=
  if s.canonicalHeightCacheCapacity = 0 then s
  else
    let cache := s.canonicalHeightCache.insert height hash
    {s with canonicalHeightCache := evictLowest s.canonicalHeightCacheCapacity cache.size cache}

def cacheRecord (hash : Bytes32) (record : BlockRecord) (s : Store) : Store :=
  {s with recordCache := Function.update s.recordCache hash (some record)}

@[simp] theorem cacheRecordSelf (hash : Bytes32) (record : BlockRecord) (s : Store) :
    (s.cacheRecord hash record).recordCache hash = some record := Function.update_self ..

theorem cacheRecordOther {hash other : Bytes32} (apart : other ≠ hash) (record : BlockRecord) (s : Store) :
    (s.cacheRecord hash record).recordCache other = s.recordCache other := Function.update_of_ne apart ..

def cacheHeader (hash : Bytes32) (header : L2BlockHeader) (s : Store) : Store :=
  {s with headerCache := s.headerCache.insert hash header}

def cacheBody (hash : Bytes32) (block : L2Block) (s : Store) : Store :=
  {s with blockCache := s.blockCache.insert hash block}

def promoteBody (hash : Bytes32) (s : Store) : Store :=
  {s with blockCache := (s.blockCache.getClone hash).2}

def promoteHeader (hash : Bytes32) (s : Store) : Store :=
  {s with headerCache := (s.headerCache.getClone hash).2}

def cacheHeight (hash : Bytes32) (height : UInt64) (s : Store) : Store :=
  {s with hashToHeightCache := s.hashToHeightCache.insert hash height}

def flagRecord (flag : Bool) (hash : Bytes32) (s : Store) : Store :=
  match s.recordCache hash with
  | some record => s.cacheRecord hash {record with inCanonicalChain := flag}
  | none => s

def getHashByHeight (height : UInt64) : StoreM (Option Bytes32) := do
  let s ← Op.get
  if height < s.minRetainedHeightCached then
    pure none
  else
    match s.canonicalHeightCache[height]? with
    | some hash => pure (some hash)
    | none =>
        match ← Op.lift (s.canonicalBin.readHashBytes height) with
        | some hash =>
            Op.modify (insertCanonicalHeightCache height hash)
            pure (some hash)
        | none =>
            match (s.db .canonical)[heightKey height]? with
            | none => pure none
            | some hashBytes =>
                match Bytes32.ofBytes? hashBytes with
                | none => Op.error (.serialization
                    "get_hash_by_height: CF_CANONICAL value must be exactly 32 bytes")
                | some hash =>
                    Op.modify (insertCanonicalHeightCache height hash)
                    pure (some hash)

end Store

end DigBlockstore
