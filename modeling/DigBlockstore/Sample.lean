import DigBlockstore.FiledCalls

/-! Crates small enough to run: plain encodings, frames that hold their payload as it is,
and a header's state root for its hash. With them runs from an empty directory evaluate. -/
namespace DigBlockstore
open ByteCodec Faulty ColumnStore Trace
namespace Sample

section Codec

def word (width n : Nat) (rest : Bytes) : Bytes := beBytes width n ++ rest

/- Bytes of any length, each behind a one and the end marked by a zero. -/
def chunk : Bytes → Bytes → Bytes
  | [],rest => 0 :: rest
  | b :: bytes,rest => 1 :: b :: chunk bytes rest

def unword (width : Nat) (bytes : Bytes) : Nat × Bytes := (beNat (bytes.take width),bytes.drop width)

def unhash (bytes : Bytes) : Bytes32 × Bytes := ((Bytes32.ofBytes? (bytes.take 32)).getD Bytes32.zero,bytes.drop 32)

def unchunk : Bytes → Bytes × Bytes
  | 1 :: b :: rest => (b :: (unchunk rest).1,(unchunk rest).2)
  | _ :: rest => ([],rest)
  | [] => ([],[])

theorem unwordWord {width n : Nat} (fits : n < 256 ^ width) (rest : Bytes) : unword width (word width n rest) = (n,rest) := by
  have length := beBytesLength width n
  have front : (word width n rest).take width = beBytes width n := by
    rw [word,List.take_append_of_le_length (by omega),List.take_of_length_le (by omega)]
  have back : (word width n rest).drop width = rest := by
    rw [word,List.drop_append_of_le_length (by omega),List.drop_of_length_le (by omega),List.nil_append]
  rw [unword,front,back,beNatBeBytes,Nat.mod_eq_of_lt fits]

theorem unhashHash (hash : Bytes32) (rest : Bytes) : unhash (hash.bytes ++ rest) = (hash,rest) := by
  have length := hash.length
  have front : (hash.bytes ++ rest).take 32 = hash.bytes := by
    rw [List.take_append_of_le_length (by omega),List.take_of_length_le (by omega)]
  have back : (hash.bytes ++ rest).drop 32 = rest := by
    rw [List.drop_append_of_le_length (by omega),List.drop_of_length_le (by omega),List.nil_append]
  rw [unhash,front,back,Bytes32.ofBytesBytes]
  rfl

theorem unchunkChunk (bytes rest : Bytes) : unchunk (chunk bytes rest) = (bytes,rest) := by
  induction bytes with
  | nil => rfl
  | cons b bytes ih => simp [chunk,unchunk,ih]

def encodeHeader (h : L2BlockHeader) (rest : Bytes) : Bytes :=
  word 8 h.height.toNat (word 8 h.epoch.toNat (h.parentHash.bytes ++ word 8 h.timestamp.toNat
    (word 4 h.proposerIndex.toNat (word 4 h.spendBundleCount.toNat (word 8 h.totalCost.toNat
      (word 8 h.totalFees.toNat (word 4 h.additionsCount.toNat (word 4 h.removalsCount.toNat
        (word 4 h.l1Height.toNat (h.l1Hash.bytes ++ (h.stateRoot.bytes ++ chunk h.rest rest)))))))))))

def decodeHeader (bytes : Bytes) : L2BlockHeader × Bytes :=
  let height := unword 8 bytes
  let epoch := unword 8 height.2
  let parentHash := unhash epoch.2
  let timestamp := unword 8 parentHash.2
  let proposerIndex := unword 4 timestamp.2
  let spendBundleCount := unword 4 proposerIndex.2
  let totalCost := unword 8 spendBundleCount.2
  let totalFees := unword 8 totalCost.2
  let additionsCount := unword 4 totalFees.2
  let removalsCount := unword 4 additionsCount.2
  let l1Height := unword 4 removalsCount.2
  let l1Hash := unhash l1Height.2
  let stateRoot := unhash l1Hash.2
  let rest := unchunk stateRoot.2
  (⟨.ofNat height.1,.ofNat epoch.1,parentHash.1,.ofNat timestamp.1,.ofNat proposerIndex.1,
    .ofNat spendBundleCount.1,.ofNat totalCost.1,.ofNat totalFees.1,.ofNat additionsCount.1,
    .ofNat removalsCount.1,.ofNat l1Height.1,l1Hash.1,stateRoot.1,rest.1⟩,rest.2)

theorem decodeEncodeHeader (header : L2BlockHeader) (rest : Bytes) :
    decodeHeader (encodeHeader header rest) = (header,rest) := by
  have wide : ∀ n : UInt64, n.toNat < 256 ^ 8 := fun n => n.toNat_lt
  have narrow : ∀ n : UInt32, n.toNat < 256 ^ 4 := fun n => n.toNat_lt
  simp only [decodeHeader,encodeHeader,unwordWord (wide _),unwordWord (narrow _),unhashHash,unchunkChunk,
    UInt64.ofNat_toNat,UInt32.ofNat_toNat]

def encodeBlock (block : L2Block) : Bytes := encodeHeader block.header block.body

def decodeBlock (bytes : Bytes) : L2Block := ⟨(decodeHeader bytes).1,(decodeHeader bytes).2⟩

theorem decodeEncodeBlock (block : L2Block) : decodeBlock (encodeBlock block) = block := by
  simp [decodeBlock,encodeBlock,decodeEncodeHeader]

end Codec

/- What training makes: the magic number of a zstd dictionary and its id. -/
def trainedDict : Bytes := [55,164,48,236,1,0,0,0]

def crates : Crates where
  overflowChecks := true
  headerHash header := header.stateRoot
  serializeHeader header := .ok (encodeHeader header [])
  deserializeHeader bytes := .ok (decodeHeader bytes).1
  serializeBlock block := .ok (encodeBlock block)
  deserializeBlock bytes := .ok (decodeBlock bytes)
  encodeAll raw _ := .ok raw
  decodeAll compressed := .ok compressed
  compressWith _ _ raw := .ok raw
  decompressor _ := .ok ()
  decompressWith _ compressed cap := if compressed.length ≤ cap then .ok compressed else .error "size cap"
  shuffle := id
  fromSamples samples _ := if samples = [] then .error "no samples" else .ok trainedDict
  serializeAttested attested := .ok (encodeHeader attested.block.header (chunk attested.block.body attested.attestation))
  deserializeAttested bytes :=
    .ok ⟨⟨(decodeHeader bytes).1,(unchunk (decodeHeader bytes).2).1⟩,(unchunk (decodeHeader bytes).2).2⟩
  encodeCheckpoint checkpoint := .ok (word 8 checkpoint.epoch.toNat checkpoint.rest)
  decodeCheckpoint bytes := .ok ⟨.ofNat (unword 8 bytes).1,(unword 8 bytes).2⟩
  serializeManifest manifest := .ok (word 8 manifest.startHeight.toNat (word 8 manifest.endHeight.toNat []))
  deserializeManifest bytes :=
    .ok (⟨snapshotVersion,.ofNat (unword 8 bytes).1,.ofNat (unword 8 (unword 8 bytes).2).1,0,Bytes32.zero,Bytes32.zero⟩,
      (unword 8 (unword 8 bytes).2).2)
  sha256 bytes := (unhash bytes).1
  firstHeightInEpoch epoch := epoch * 32 + 1
  epochCheckpointHeight epoch := epoch * 32 + 32
  showHash hash := toString (beNat hash.bytes)

def config : BlockStoreConfig := {BlockStoreConfig.default "store" with warmCacheOnOpen := false,cacheShards := 1}

def hash (n : UInt8) : Bytes32 := ⟨List.replicate 32 n,List.length_replicate ..⟩

/- A block of a height over a parent, with the hash of its own number. -/
def block (height : UInt64) (parent own : UInt8) : L2Block where
  header := ⟨height,0,hash parent,0,0,0,0,0,0,0,0,Bytes32.zero,hash own,[]⟩
  body := []

theorem compressedSame {raw compressed : Bytes} (h : Compressed crates raw compressed) : compressed = raw := by
  rcases h with ⟨_,h⟩ | ⟨_,_,h⟩ <;> exact (Except.ok.inj h).symm

theorem lawful : crates.Lawful where
  header header raw h := by
    cases h
    change Except.ok (decodeHeader _).1 = _
    rw [decodeEncodeHeader]
  block block raw h := by
    cases h
    change Except.ok (decodeBlock _) = _
    rw [decodeEncodeBlock]
  decodeAll raw compressed raw' packed decoded := (Except.ok.inj decoded).symm.trans (compressedSame packed)
  decompressWith dict cap raw compressed raw' packed decoded := by
    rw [compressedSame packed] at decoded
    change (if raw.length ≤ cap then Except.ok raw else .error "size cap") = .ok raw' at decoded
    split at decoded
    · exact (Except.ok.inj decoded).symm
    · cases decoded

end Sample

namespace Store

def created (config : BlockStoreConfig) : Store :=
  fresh config false (fun _ => ∅) (.rw ⟨[],true⟩)
    (resolveZstdDictionary (fun _ => ∅) config.useCompressionDict config.zstdDictionaryOverride) none

theorem createdOpened (crates : Crates) (config : BlockStoreConfig) : Opened crates (created config) := by
  have files : Clean (openFiles crates config false) ⟨fun _ => ∅,none⟩ (.ok (created config)) ⟨fun _ => ∅,some []⟩ := rfl
  have opened : Clean (openStore crates config) ⟨fun _ => ∅,none⟩ (.ok (created config)) ⟨fun _ => ∅,some []⟩ := by
    unfold openStore
    refine cleanBind (cleanStep _ _) (cleanBind files ?_)
    split <;> rfl
  exact ⟨config,none,_,opened.runs⟩

/- The calls in turn, no external step failing, while each passes the test and returns Ok. -/
def exec (crates : Crates) (test : Store → Call → Bool) : List Call → Store → Option Store
  | [],s => some s
  | c :: rest,s =>
      if test s c then
        match call crates c ⟨s,[]⟩ with
        | (.ok (),w) => exec crates test rest w.state
        | _ => none
      else none

theorem execRun {crates : Crates} {test : Store → Call → Bool} {guard : Store → Action → Prop}
    (sound : ∀ s c, test s c = true → guard s (.call c)) {calls : List Call} {s t : Store}
    (h : exec crates test calls s = some t) : Run (Guarded guard (Takes crates)) s (calls.map .call) t := by
  induction calls generalizing s with
  | nil =>
    cases h
    exact .nil _
  | cons c rest ih =>
    unfold exec at h
    split at h
    · rename_i passed
      split at h
      · rename_i w ran
        exact .cons ⟨sound s c passed,[],w.script,ran⟩ (ih h)
      · cases h
    · cases h

/- Calls that put in the height cache every canonical row they write, unless it is off. -/
def refreshes : Call → Bool
  | .initGenesis _ | .setCanonicalBatch _ | .flush _ => false
  | _ => true

def tame (s : Store) (c : Call) : Bool :=
  s.canonicalHeightCache.isEmpty || s.canonicalHeightCacheCapacity != 0 && refreshes c

theorem tameUnshadowed {crates : Crates} (s : Store) (c : Call) (h : tame s c = true) :
    DigBlockstore.Unshadowed crates s (.call c) := by
  intro rows behind k x y _ _ cached
  unfold tame at h
  rw [Bool.or_eq_true,Bool.and_eq_true] at h
  rcases h with empty | ⟨on,refreshing⟩
  · rw [Std.ExtTreeMap.isEmpty_iff.mp empty,Std.ExtTreeMap.getElem?_empty] at cached
    cases cached
  · have on' : s.canonicalHeightCacheCapacity ≠ 0 := by simpa using on
    cases behind with
    | genesis block => cases refreshing
    | put off _ => exact absurd off on'
    | extend off _ => exact absurd off on'
    | set off _ => exact absurd off on'
    | batch _ _ => cases refreshing
    | flush _ => cases refreshing
    | imported off _ => exact absurd off on'

/- The store a list of calls leaves in a directory just created. -/
def after (crates : Crates) (test : Store → Call → Bool) (config : BlockStoreConfig) (calls : List Call) : Store :=
  (exec crates test calls (created config)).getD (created config)

theorem afterExec {crates : Crates} {test : Store → Call → Bool} {config : BlockStoreConfig} {calls : List Call}
    (done : (exec crates test calls (created config)).isSome = true) :
    exec crates test calls (created config) = some (after crates test config calls) := by
  obtain ⟨t,ran⟩ := Option.isSome_iff_exists.mp done
  rw [after,ran]
  rfl

theorem afterReaches {crates : Crates} {test : Store → Call → Bool} {config : BlockStoreConfig} {calls : List Call}
    (done : (exec crates test calls (created config)).isSome = true) :
    Reaches crates (after crates test config calls) :=
  ⟨_,_,createdOpened crates config,
    (@execRun crates test (fun _ _ => True) (fun _ _ _ => trivial) _ _ _ (afterExec done)).mono fun _ _ _ both => both.2⟩

theorem afterTame {crates : Crates} {config : BlockStoreConfig} {calls : List Call}
    (done : (exec crates tame calls (created config)).isSome = true) :
    ReachesUnshadowed crates (after crates tame config calls) :=
  ⟨_,_,createdOpened crates config,execRun tameUnshadowed (afterExec done)⟩

end Store
end DigBlockstore
