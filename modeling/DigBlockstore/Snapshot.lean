import DigBlockstore.Pipeline

/-! Snapshot export and import: a manifest, one length-prefixed frame for each block, and
the SHA-256 of everything before it. -/
namespace DigBlockstore
open ByteCodec Faulty
namespace Store
variable (crates : Crates)

def snapshotWrite : StoreM Unit := Op.step fun why => .serialization ("snapshot write: " ++ why)

/- `u32` length prefix: `len as u32`, little-endian. -/
def frame (compressed : Bytes) : Bytes := leBytes 4 (compressed.length % 2 ^ 32) ++ compressed

def exportFrame (height : UInt64) : StoreM Bytes := do
  match ← getHashByHeight height with
  | none => Op.error (.serialization ("export_snapshot: no canonical hash at height " ++ toString height))
  | some hash =>
      let s ← Op.get
      match (s.db .blocks)[hashKey hash]? with
      | none => Op.error (.blockNotFound hash)
      | some compressed =>
          snapshotWrite
          snapshotWrite
          pure (frame compressed)

def exportSnapshot (startHeight endHeight : UInt64) : StoreM (SnapshotManifest × Bytes) := do
  let span := endHeight.toNat - startHeight.toNat
  if span + 1 = 2 ^ 64 ∧ crates.overflowChecks then Op.panic "attempt to add with overflow"
  else
    match ← getHeaderByHeight crates endHeight with
    | none => Op.error (.serialization
        ("export_snapshot: no canonical block at end_height " ++ toString endHeight))
    | some endHeader =>
        let manifest : SnapshotManifest :=
          ⟨snapshotVersion,startHeight,endHeight,UInt64.ofNat (span + 1),endHeader.stateRoot,Bytes32.zero⟩
        let manifestBytes ← Op.ofExcept ((crates.serializeManifest manifest).mapError .serialization)
        snapshotWrite
        let frames ← Op.collect exportFrame (heightsThrough startHeight endHeight)
        let hashed := manifestBytes ++ frames.flatten
        let checksum := crates.sha256 hashed
        snapshotWrite
        pure ({manifest with checksum := checksum},hashed ++ checksum.bytes)

def readExact (failure : String) (n : Nat) (input : Bytes) : Except BlockStoreError (Bytes × Bytes) :=
  if n ≤ input.length then .ok (input.take n,input.drop n)
  else .error (.serialization (failure ++ "failed to fill whole buffer"))

/- The frames from a height on: what is left of the input, and the bytes hashed so far. -/
def importFrames (prevHash : Option Bytes32) (input hashed : Bytes) :
    List UInt64 → StoreM (Bytes × Bytes)
  | [] => pure (input,hashed)
  | expectedHeight :: rest => do
      let (lenBytes,input) ← Op.ofExcept (readExact "snapshot read: " 4 input)
      let (compressed,input) ← Op.ofExcept (readExact "snapshot read: " (leNat lenBytes) input)
      let s ← Op.get
      let block ← Op.ofExcept (s.deserializeBlock crates compressed)
      if block.height ≠ expectedHeight then
        Op.error (.serialization ("non-contiguous height: expected " ++ toString expectedHeight
          ++ ", got " ++ toString block.height))
      else if prevHash.any (· ≠ block.header.parentHash) then
        Op.error (.serialization ("broken parent link at height " ++ toString expectedHeight))
      else
        let _ ← putBlock crates block true
        importFrames (some (block.hash crates)) input (hashed ++ lenBytes ++ compressed) rest

def importSnapshot (input : Bytes) : StoreM SnapshotManifest := do
  let (manifest,input) ← Op.ofExcept ((crates.deserializeManifest input).mapError
    fun why => .serialization ("invalid snapshot manifest: " ++ why))
  let manifestBytes ← Op.ofExcept ((crates.serializeManifest manifest).mapError .serialization)
  if manifest.version ≠ snapshotVersion then
    Op.error (.serialization ("unsupported snapshot version: " ++ toString manifest.version))
  else
    let (input,hashed) ← importFrames crates none input manifestBytes
      (heightsThrough manifest.startHeight manifest.endHeight)
    let (checksumBytes,_) ← Op.ofExcept (readExact "snapshot checksum read: " 32 input)
    if checksumBytes ≠ (crates.sha256 hashed).bytes then
      Op.error (.serialization "snapshot checksum mismatch")
    else pure manifest

end Store
end DigBlockstore
