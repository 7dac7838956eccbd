import DigBlockstore.Store

/-! Row encodings and the zstd dictionary. Bodies are bincode under zstd, with the
dictionary once there is one; headers are bincode alone. -/
namespace DigBlockstore
open ByteCodec Faulty
namespace Store
variable (crates : Crates)

def serializeHeader (header : L2BlockHeader) : Except BlockStoreError Bytes :=
  (crates.serializeHeader header).mapError .serialization

def deserializeHeader (bytes : Bytes) : Except BlockStoreError L2BlockHeader :=
  (crates.deserializeHeader bytes).mapError .serialization

def activeDictionary (s : Store) : Option Bytes := if s.useCompressionDict then s.zstdDict else none

def serializeBlock (s : Store) (block : L2Block) : Except BlockStoreError Bytes :=
  match crates.serializeBlock block with
  | .error why => .error (.serialization why)
  | .ok raw =>
      match s.activeDictionary with
      | some dict => (crates.compressWith dict s.compressionLevel raw).mapError .compression
      | none => (crates.encodeAll raw s.compressionLevel).mapError .compression

def decompressBlockPayload (s : Store) (compressed : Bytes) : Except String Bytes :=
  match s.activeDictionary with
  | some dict =>
      match crates.decompressor dict with
      | .error why => .error why
      | .ok () =>
          match crates.decompressWith dict compressed s.maxDecompressedBlockBytes with
          | .ok bytes => .ok bytes
          | .error _ => crates.decodeAll compressed
  | none => crates.decodeAll compressed

def deserializeBlock (s : Store) (compressed : Bytes) : Except BlockStoreError L2Block :=
  match s.decompressBlockPayload crates compressed with
  | .error why => .error (.serialization ("deserialize_block: decompress failed: " ++ why))
  | .ok raw => (crates.deserializeBlock raw).mapError .serialization

def blockCount (s : Store) : Nat := (s.db .blocks).size

def loadZstdDictFromDb (db : Db) (useCompressionDict : Bool) : Option Bytes :=
  if useCompressionDict then
    match (db .metadata)[metaZstdDict]? with
    | none => none
    | some blob => if blob.isEmpty then none else some blob
  else none

def resolveZstdDictionary (db : Db) (useCompressionDict : Bool) (overrideBytes : Option Bytes) :
    Option Bytes :=
  match overrideBytes with
  | some bytes => if bytes.isEmpty then none else some bytes
  | none => loadZstdDictFromDb db useCompressionDict

def initDictionary : StoreM Unit :=
  Op.modify fun s => {s with zstdDict := loadZstdDictFromDb s.db s.useCompressionDict}

def decompressSamples (s : Store) : List Bytes → Except BlockStoreError (List Bytes)
  | [] => .ok []
  | compressed :: rest =>
      match s.decompressBlockPayload crates compressed with
      | .error why => .error (.serialization ("dictionary training sample decompress: " ++ why))
      | .ok raw => (decompressSamples s rest).map (raw :: ·)

def sampleBlockBodies (s : Store) (sampleCount : Nat) : Except BlockStoreError (List Bytes) :=
  let blobs := (s.db .blocks).toList.map Prod.snd
  if blobs.length < sampleCount then
    .error (.serialization ("dictionary training: need at least " ++ toString sampleCount
      ++ " blocks in blocks, have " ++ toString blobs.length))
  else s.decompressSamples crates ((crates.shuffle blobs).take sampleCount)

def trainDictionary : StoreM Bytes := do
  let s ← Op.get
  match loadZstdDictFromDb s.db true with
  | some blob => pure blob
  | none =>
      let samples ← Op.ofExcept (s.sampleBlockBodies crates dictTrainingThreshold)
      let dict ← Op.ofExcept ((crates.fromSamples samples dictTargetSize).mapError
        fun why => .serialization ("dictionary training failed: " ++ why))
      write [.put .metadata metaZstdDict dict]
      pure dict

def maybeTrainDictionary : StoreM Unit := do
  let s ← Op.get
  if !s.useCompressionDict then pure ()
  else if s.zstdDict.isSome then pure ()
  else if (loadZstdDictFromDb s.db true).isSome then initDictionary
  else if s.blockCount < dictTrainingThreshold then pure ()
  else
    let dict ← trainDictionary crates
    Op.modify fun s => {s with zstdDict := some dict}

end Store
end DigBlockstore
