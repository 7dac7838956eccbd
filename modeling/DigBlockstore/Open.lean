import DigBlockstore.Snapshot

/-! Opening a store from its directory: the database, and `canonical.bin` rebuilt from
the canonical rows where the two differ. -/
namespace DigBlockstore
open ByteCodec Faulty

structure Disk where
  db : Db
  canonicalBin : Option Bytes

def Store.disk (s : Store) : Disk := ⟨s.db,s.canonicalBin.file⟩

namespace CanonicalBin
variable (crates : Crates)

def parseCanonical : List (Bytes × Bytes) → Except BlockStoreError (List (UInt64 × Bytes32))
  | [] => .ok []
  | (key,value) :: rest =>
      if key.length ≠ 8 then
        .error (.serialization "canonical.bin rebuild: CF_CANONICAL key must be exactly 8 bytes")
      else
        match Bytes32.ofBytes? value with
        | none => .error (.serialization "canonical.bin rebuild: CF_CANONICAL value must be exactly 32 bytes")
        | some hash => (parseCanonical rest).map ((decodeHeightKey key,hash) :: ·)

/- `usize` arithmetic: a panic with overflow checks, wrapping without. -/
def usize (message : String) (n : Nat) : Exit Nat :=
  if n < 2 ^ 64 then .ok n
  else if crates.overflowChecks then .error (.panic message) else .ok (n % 2 ^ 64)

def denseSize (maxHeight : UInt64) : Exit Nat :=
  match usize crates "attempt to add with overflow" (maxHeight.toNat + 1) with
  | .error e => .error e
  | .ok slots =>
      match usize crates "attempt to multiply with overflow" (slots * 32) with
      | .error e => .error e
      | .ok size => if size ≥ 2 ^ 63 then .error (.panic "capacity overflow") else .ok size

def fillDense : Bytes → List (UInt64 × Bytes32) → Exit Bytes
  | buf,[] => .ok buf
  | buf,(h,hash) :: rest =>
      let o := min (h.toNat * 32) (2 ^ 64 - 1)
      match usize crates "attempt to add with overflow" (o + 32) with
      | .error e => .error e
      | .ok oEnd =>
          if oEnd > buf.length then
            .error (.error (.serialization
              "canonical.bin rebuild: height exceeds dense buffer (internal error)"))
          else if oEnd < o then .error (.panic "slice index starts after it ends")
          else fillDense (copyAt buf o hash.bytes) rest

def denseBytesFromCf (db : Db) : Exit Bytes :=
  match parseCanonical (db .canonical).toList with
  | .error e => .error (.error e)
  | .ok [] => .ok []
  | .ok (first :: rest) =>
      let maxHeight := (first :: rest).foldl (fun h row => max h row.1) 0
      match denseSize crates maxHeight with
      | .error e => .error e
      | .ok size => fillDense crates (List.replicate size 0) (first :: rest)

def ioStep (before path after : String) : Op (Option Bytes) BlockStoreError Unit :=
  Op.step fun why => .serialization ("canonical.bin " ++ before ++ path ++ after ++ why)

def mapFile (path : String) (writable : Bool) : Op (Option Bytes) BlockStoreError CanonicalBin :=
  if writable then do
    ioStep "create parent " path ": "
    ioStep "open rw " path ": "
    Op.modify fun file => some (file.getD [])
    ioStep "metadata " path ": "
    ioStep "mmap_mut " path ": "
    let file ← Op.get
    pure (rw ⟨file.getD [],true⟩)
  else do
    ioStep "ro open " path ": "
    ioStep "mmap " path ": "
    let file ← Op.get
    pure (ro (file.getD []))

def readFile (path : String) : Op (Option Bytes) BlockStoreError (Option Bytes) := do
  let file ← Op.get
  if file.isSome then do
    ioStep "read " path ": "
    pure file
  else pure file

def rebuildFile (path : String) (expected : Bytes) : Op (Option Bytes) BlockStoreError Unit := do
  ioStep "create parent " path ": "
  ioStep "open " path " for rebuild: "
  Op.modify fun _ => some []
  ioStep "write " path ": "
  Op.modify fun _ => some expected
  ioStep "flush " path ": "

def touchEmpty (path : String) : Op (Option Bytes) BlockStoreError Unit := do
  ioStep "create parent " path ": "
  ioStep "touch empty " path ": "
  Op.modify fun _ => some []

def openSynced (db : Db) (path : String) (writable : Bool) : Op (Option Bytes) BlockStoreError CanonicalBin := do
  let expected ← Op.lift (denseBytesFromCf crates db)
  let file ← readFile path
  if file.getD [] ≠ expected then
    if !writable then pure (disabled file)
    else
      rebuildFile path expected
      mapFile path writable
  else if expected = [] ∧ file = none then
    if writable then
      touchEmpty path
      mapFile path writable
    else pure (disabled file)
  else mapFile path writable

end CanonicalBin

namespace Store
variable (crates : Crates)

def loadTip (db : Db) : Except BlockStoreError (Option ChainTip) :=
  match (db .metadata)[metaTip]? with
  | none => .ok none
  | some raw => (ChainTip.fromBytes raw).map some

def readMinRetainedHeight (db : Db) : Except BlockStoreError (Option UInt64) :=
  match (db .metadata)[metaMinHeight]? with
  | none => .ok none
  | some bytes =>
      if bytes.length = 8 then .ok (some (fromLeBytes bytes))
      else .error (.serialization ("stats: META_MIN_HEIGHT value must be exactly 8 bytes "
        ++ "(little-endian u64), got " ++ toString bytes.length ++ " bytes"))

/- The floor the atomic is set to on open; an unreadable row leaves it at zero. -/
def loadFloor (db : Db) : UInt64 :=
  match readMinRetainedHeight db with
  | .ok (some h) => h
  | _ => 0

def warmHeight (h : UInt64) : StoreM Nat := do
  match ← Op.attempt (getBlockByHeight crates h) with
  | .ok (some _) =>
      let _ ← Op.attempt (getRecordByHeight crates h)
      pure 1
  | _ => pure 0

def warmCaches (depth : UInt64) : StoreM Nat := do
  let s ← Op.get
  match s.tip with
  | none => pure 0
  | some t =>
      let start := UInt64.ofNat (t.height.toNat - (depth.toNat - 1))
      let counts ← Op.collect (warmHeight crates) (heightsThrough start t.height).reverse
      pure counts.sum

def fresh (config : BlockStoreConfig) (readOnly : Bool) (db : Db) (bin : CanonicalBin)
    (dict : Option Bytes) (tip : Option ChainTip) : Store where
  db := db
  readOnly := readOnly
  tip := tip
  compressionLevel := config.compressionLevel
  useCompressionDict := config.useCompressionDict
  maxDecompressedBlockBytes := config.maxDecompressedBlockBytes
  zstdDict := dict
  recordCache := fun _ => none
  blockCache := .new config.blockCacheCapacity (max config.cacheShards 1)
  headerCache := .new config.headerCacheCapacity (max config.cacheShards 1)
  canonicalBin := bin
  minRetainedHeightCached := loadFloor db
  canonicalHeightCache := ∅
  canonicalHeightCacheCapacity := config.canonicalHeightCacheCapacity
  hashToHeightCache := .new config.hashToHeightCacheCapacity (max config.cacheShards 1)
  compactionPruning := config.enableCompactionPruning && !readOnly

def warm (config : BlockStoreConfig) (store : Store) : Op Disk BlockStoreError Store := fun w =>
  match warmCaches crates config.warmCacheDepth ⟨store,w.script⟩ with
  | (.ok _,w') => (.ok w'.state,⟨w.state,w'.script⟩)
  | (.error e,w') => (.error e,⟨w.state,w'.script⟩)

def openFiles (config : BlockStoreConfig) (readOnly : Bool) : Op Disk BlockStoreError Store := do
  Op.step .rocksDb
  let d ← Op.get
  let bin ← Op.zoom Disk.canonicalBin (fun file d => {d with canonicalBin := file})
    (CanonicalBin.openSynced crates d.db config.path (!readOnly))
  let dict := resolveZstdDictionary d.db config.useCompressionDict config.zstdDictionaryOverride
  let tip ← Op.ofExcept (loadTip d.db)
  pure (fresh config readOnly d.db bin dict tip)

def openStore (config : BlockStoreConfig) : Op Disk BlockStoreError Store := do
  Op.step fun why => .serialization ("filesystem error creating database directory "
    ++ config.path ++ ": " ++ why)
  let store ← openFiles crates config false
  if config.warmCacheOnOpen then warm crates config store else pure store

def openReadonly (path : String) : Op Disk BlockStoreError Store := do
  Op.step fun _ => .serialization ("open_readonly: database path does not exist: " ++ path)
  openFiles crates (.default path) true

end Store
end DigBlockstore
