import DigBlockstore.Reorg
import DigBlockstore.Pipeline
import DigBlockstore.Tier
import DigBlockstore.Library.Interleave

/-! The calls as sequences of atomic steps: one step for each lock taken and each database call
made. Alone, each runs as the call does. -/
namespace DigBlockstore
open ByteCodec Faulty

/- What a step reads or writes of the store. -/
inductive Access where
  | tipRead (tip : Option ChainTip)
  | tipSet (tip : ChainTip)
  | rowRead (cf : Cf) (key : Bytes)
  | batch (writes : List Write)
  | heightRead (height : UInt64)
  | heightPut (height : UInt64) (hash : Bytes32)
  | heightsSwap (heights : List UInt64) (rows : List (Bytes32 × BlockRecord))
  | slotRead (height : UInt64) (found : Option Bytes32)
  | slotWrite (height : UInt64) (hash : Bytes32)
  | cut (height : UInt64)
  | other
  | fault
  deriving DecidableEq

abbrev Steps (α : Type) := Proc Access Store BlockStoreError α

namespace Store
variable (crates : Crates)

def ask {α : Type} (f : Store → α) : StoreM α := do
  let s ← Op.get
  pure (f s)

def askOk {α : Type} (f : Store → Except BlockStoreError α) : StoreM α := do
  let s ← Op.get
  Op.ofExcept (f s)

/- One step. One that fails is seen as a fault. -/
def does {α : Type} (access : Store → Access) (m : StoreM α) : Steps α :=
  Proc.atom (fun s => if (m ⟨s,[]⟩).1.isOk then access s else .fault) m

@[simp] theorem aloneDoes {α : Type} (access : Store → Access) (m : StoreM α) : (does access m).alone = m := aloneAtom ..

def other {α : Type} (m : StoreM α) : Steps α := does (fun _ => .other) m

@[simp] theorem aloneOther {α : Type} (m : StoreM α) : (other m).alone = m := aloneAtom ..

def getHashByHeightSteps (height : UInt64) : Steps (Option Bytes32) := do
  if ← other (ask fun s => decide (height < s.minRetainedHeightCached)) then pure none
  else
    match ← does (fun _ => .heightRead height) (ask fun s => s.canonicalHeightCache[height]?) with
    | some hash => pure (some hash)
    | none =>
        match ← does (fun s => .slotRead height (s.canonicalBin.answer height)) (do
          let s ← Op.get
          Op.lift (s.canonicalBin.readHashBytes height)) with
        -- the guard of the file's read lock lives to the end of this branch
        | some hash =>
            does (fun _ => .heightPut height hash) (Op.modify (insertCanonicalHeightCache height hash))
            pure (some hash)
        | none =>
            match ← does (fun _ => .rowRead .canonical (heightKey height))
              (ask fun s => (s.db .canonical)[heightKey height]?) with
            | none => pure none
            | some hashBytes =>
                match Bytes32.ofBytes? hashBytes with
                | none => Proc.error (.serialization
                    "get_hash_by_height: CF_CANONICAL value must be exactly 32 bytes")
                | some hash =>
                    does (fun _ => .heightPut height hash) (Op.modify (insertCanonicalHeightCache height hash))
                    pure (some hash)

theorem askBind {α β : Type} (f : Store → α) (g : α → StoreM β) (w : World Store) : (ask f >>= g) w = g (f w.state) w := rfl

theorem getBind {β : Type} (g : Store → StoreM β) (w : World Store) : (Op.get >>= g) w = g w.state w := rfl

theorem liftOkBind {α β : Type} (a : α) (g : α → StoreM β) (w : World Store) : (Op.lift (.ok a) >>= g) w = g a w := rfl

theorem modifyBind {β : Type} (f : Store → Store) (g : Unit → StoreM β) (w : World Store) :
    (Op.modify f >>= g) w = g () ⟨f w.state,w.script⟩ := rfl

theorem pureBind {α β : Type} (a : α) (g : α → StoreM β) (w : World Store) : ((pure a : StoreM α) >>= g) w = g a w := rfl

theorem getHashByHeightAlone (height : UInt64) :
    (getHashByHeightSteps height).alone = getHashByHeight height := by
  funext w
  simp only [getHashByHeightSteps,getHashByHeight,aloneBind,aloneOther,askBind,getBind,decide_eq_true_eq]
  split
  · rfl
  · rw [aloneBind,aloneDoes,askBind]
    cases w.state.canonicalHeightCache[height]? with
    | some hash => rfl
    | none =>
      simp only [aloneBind,aloneDoes,opBindAssoc,getBind]
      rcases w.state.canonicalBin.readHashBytes height with e | _ | hash
      · rfl
      · rw [liftOkBind,liftOkBind]
        simp only [aloneBind,aloneDoes,askBind]
        cases (w.state.db .canonical)[heightKey height]? with
        | none => rfl
        | some hashBytes => 
          dsimp only
          cases Bytes32.ofBytes? hashBytes <;> rfl
      · rfl

def getRecordSteps (hash : Bytes32) : Steps (Option BlockRecord) := do
  match ← other (ask fun s => s.recordCache hash) with
  | some record => pure (some record)
  | none =>
      match ← other (do
        let s ← Op.get
        Op.modify (promoteHeader hash)
        pure (s.headerCache.getClone hash).1) with
      | some header =>
          let record := BlockRecord.fromHeader crates header .validated
          other (Op.modify (cacheRecord hash record))
          pure (some record)
      | none =>
          match ← does (fun _ => .rowRead .headers (hashKey hash)) (ask fun s => (s.db .headers)[hashKey hash]?) with
          | none => pure none
          | some bytes =>
              let header ← Proc.ofExcept (deserializeHeader crates bytes)
              other (Op.modify (cacheHeader hash header))
              let record := BlockRecord.fromHeader crates header .validated
              other (Op.modify (cacheRecord hash record))
              pure (some record)

theorem getRecordAlone (hash : Bytes32) : (getRecordSteps crates hash).alone = getRecord crates hash := by
  funext w
  simp only [getRecordSteps,getRecord,aloneBind,aloneOther,askBind,getBind]
  cases w.state.recordCache hash with
  | some record => rfl
  | none =>
    simp only [aloneBind,aloneOther,opBindAssoc,getBind,modifyBind]
    rw [pureBind]
    cases (w.state.headerCache.getClone hash).1 with
    | some header => rfl
    | none =>
      simp only [aloneBind,aloneDoes,askBind]
      rw [show (promoteHeader hash w.state).db = w.state.db from rfl]
      cases (w.state.db .headers)[hashKey hash]? with
      | none => rfl
      | some bytes =>
        dsimp only
        simp only [aloneBind,aloneOther,aloneOfExcept,alonePure]

def hasBlockSteps (hash : Bytes32) : Steps Bool := do
  if ← other (ask fun s => s.blockCache.contains hash) then pure true
  else if ← other (ask fun s => s.headerCache.contains hash) then pure true
  else if ← does (fun _ => .rowRead .headers (hashKey hash)) (ask fun s => (s.db .headers)[hashKey hash]?.isSome) then
    pure true
  else does (fun _ => .rowRead .blocks (hashKey hash)) (ask fun s => (s.db .blocks)[hashKey hash]?.isSome)

theorem hasBlockAlone (hash : Bytes32) : (hasBlockSteps hash).alone = ask (hasBlock hash) := by
  funext w
  change _ = ((Except.ok (hasBlock hash w.state),w) : Except (Stop BlockStoreError) Bool × World Store)
  simp only [hasBlockSteps,hasBlock,aloneBind,aloneOther,askBind]
  cases w.state.blockCache.contains hash
  · rw [if_neg (by simp),aloneBind,aloneOther,askBind]
    cases w.state.headerCache.contains hash
    · rw [if_neg (by simp),aloneBind,aloneDoes,askBind]
      cases (w.state.db .headers)[hashKey hash]?.isSome
      · rw [if_neg (by simp),aloneDoes]
        rfl
      · rfl
    · rfl
  · rfl

def initDictionarySteps : Steps Unit := do
  let loaded ← does (fun _ => .rowRead .metadata metaZstdDict) (ask fun s => loadZstdDictFromDb s.db s.useCompressionDict)
  other (Op.modify fun s => {s with zstdDict := loaded})

def sampleSteps (compressed : Bytes) : Steps Bytes :=
  other (askOk fun s => (s.decompressBlockPayload crates compressed).mapError
    fun why => .serialization ("dictionary training sample decompress: " ++ why))

def sampleBlockBodiesSteps (sampleCount : Nat) : Steps (List Bytes) := do
  let blobs ← other (ask fun s => (s.db .blocks).toList.map Prod.snd)
  if blobs.length < sampleCount then
    other (Op.error (.serialization ("dictionary training: need at least " ++ toString sampleCount
      ++ " blocks in blocks, have " ++ toString blobs.length)))
  else Proc.gather (sampleSteps crates) ((crates.shuffle blobs).take sampleCount)

def trainDictionarySteps : Steps Bytes := do
  match ← does (fun _ => .rowRead .metadata metaZstdDict) (ask fun s => loadZstdDictFromDb s.db true) with
  | some blob => pure blob
  | none =>
      let samples ← sampleBlockBodiesSteps crates dictTrainingThreshold
      let dict ← other (Op.ofExcept ((crates.fromSamples samples dictTargetSize).mapError
        fun why => .serialization ("dictionary training failed: " ++ why)))
      does (fun _ => .batch [.put .metadata metaZstdDict dict]) (write [.put .metadata metaZstdDict dict])
      pure dict

def maybeTrainDictionarySteps : Steps Unit := do
  if !(← other (ask useCompressionDict)) then pure ()
  else if ← other (ask fun s => s.zstdDict.isSome) then pure ()
  else if ← does (fun _ => .rowRead .metadata metaZstdDict) (ask fun s => (loadZstdDictFromDb s.db true).isSome) then
    initDictionarySteps
  else if ← other (ask fun s => decide (s.blockCount < dictTrainingThreshold)) then pure ()
  else
    let dict ← trainDictionarySteps crates
    other (Op.modify fun s => {s with zstdDict := some dict})

theorem samplesAlone (blobs : List Bytes) (w : World Store) :
    Op.collect (fun c => (sampleSteps crates c).alone) blobs w = Op.ofExcept (w.state.decompressSamples crates blobs) w := by
  induction blobs with
  | nil => rfl
  | cons compressed rest ih =>
    rw [Op.collect,sampleSteps,aloneOther,askOk,opBindAssoc,getBind,decompressSamples]
    cases w.state.decompressBlockPayload crates compressed with
    | error why => rfl
    | ok raw =>
      change Op.bind (Op.collect _ rest) _ w = _
      unfold Op.bind
      rw [ih]
      cases w.state.decompressSamples crates rest <;> rfl

theorem trainDictionaryAlone : (trainDictionarySteps crates).alone = trainDictionary crates := by
  funext w
  simp only [trainDictionarySteps,trainDictionary,aloneBind,aloneDoes,askBind,getBind]
  cases loadZstdDictFromDb w.state.db true with
  | some blob => rfl
  | none =>
    simp only [sampleBlockBodiesSteps,sampleBlockBodies,aloneBind,aloneOther,opBindAssoc,askBind]
    split
    · rfl
    · rw [aloneGather]
      change Op.bind (Op.collect _ _) _ w = Op.bind (Op.ofExcept _) _ w
      unfold Op.bind
      rw [samplesAlone]
      cases w.state.decompressSamples crates _ with
      | error e => rfl
      | ok samples => simp only [aloneDoes,alonePure]

theorem maybeTrainDictionaryAlone : (maybeTrainDictionarySteps crates).alone = maybeTrainDictionary crates := by
  funext w
  simp only [maybeTrainDictionarySteps,maybeTrainDictionary,aloneBind,aloneOther,askBind,getBind]
  split
  · rfl
  · rw [aloneBind,aloneOther,askBind]
    split
    · rfl
    · rw [aloneBind,aloneDoes,askBind]
      split
      · rfl
      · simp only [aloneBind,aloneOther,askBind,decide_eq_true_eq]
        split
        · rfl
        · rw [aloneBind,trainDictionaryAlone]
          simp only [aloneOther]

def setTipSteps (tip : ChainTip) : Steps Unit := do
  other (refuseReadOnly errMutationReadOnly)
  does (fun _ => .batch [.put .metadata metaTip tip.toBytes]) (write [.put .metadata metaTip tip.toBytes])
  does (fun _ => .tipSet tip) (Op.modify fun s => {s with tip := some tip})

theorem setTipAlone (tip : ChainTip) : (setTipSteps tip).alone = setTip tip := by
  simp only [setTipSteps,setTip,aloneBind,aloneOther,aloneDoes]

def slotStep (height : UInt64) (hash : Bytes32) : Steps Unit :=
  does (fun _ => .slotWrite height hash) (onBin (CanonicalBin.extendWrite height hash))

def indexCanonicalSteps (canonical : Bool) (height : UInt64) (hash : Bytes32) : Steps Unit :=
  if canonical then do
    slotStep height hash
    does (fun _ => .heightPut height hash) (Op.modify (insertCanonicalHeightCache height hash))
  else pure ()

theorem indexCanonicalAlone (canonical : Bool) (height : UInt64) (hash : Bytes32) :
    (indexCanonicalSteps canonical height hash).alone = indexCanonical canonical height hash := by
  cases canonical
  · rfl
  · simp only [indexCanonicalSteps,indexCanonical,if_true,aloneBind,slotStep,aloneDoes]

def putBatch (hash : Bytes32) (compressed headerBytes : Bytes) (canonical : Bool) (height : UInt64) : List Write :=
  bodyRows hash compressed headerBytes ++ if canonical then [canonicalRow height hash] else []

def putBlockSteps (block : L2Block) (canonical : Bool) : Steps Bool := do
  other (refuseReadOnly errMutationReadOnly)
  let hash := block.hash crates
  if ← does (fun _ => .rowRead .blocks (hashKey hash)) (ask fun s => (s.db .blocks)[hashKey hash]?.isSome) then
    pure false
  else
    let compressed ← other (askOk fun s => s.serializeBlock crates block)
    let headerBytes ← other (Op.ofExcept (serializeHeader crates block.header))
    does (fun _ => .batch (putBatch hash compressed headerBytes canonical block.height))
      (write (putBatch hash compressed headerBytes canonical block.height))
    indexCanonicalSteps canonical block.height hash
    other (Op.modify (cacheRecord hash (BlockRecord.fromHeader crates block.header .validated)))
    other (Op.modify (cacheBody hash block))
    other (Op.modify (cacheHeader hash block.header))
    other (Op.modify (cacheHeight hash block.height))
    maybeTrainDictionarySteps crates
    pure true

theorem refuseBind {β : Type} (message : String) (g : Unit → StoreM β) (w : World Store) :
    (refuseReadOnly message >>= g) w =
      if w.state.readOnly then (.error (.error (.serialization message)),w) else g () w := by
  unfold refuseReadOnly
  rw [opBindAssoc,getBind]
  split <;> rfl

theorem putBlockAlone (block : L2Block) (canonical : Bool) :
    (putBlockSteps crates block canonical).alone = putBlock crates block canonical := by
  funext w
  simp only [putBlockSteps,putBlock,aloneBind,aloneOther,aloneDoes,refuseBind,askBind,getBind]
  split
  · rfl
  · split
    · rfl
    · simp only [aloneBind,aloneOther,aloneDoes,askOk,opBindAssoc,getBind,indexCanonicalAlone,maybeTrainDictionaryAlone,
        alonePure]
      rfl

def extendChainSteps (block : L2Block) : Steps Bool := do
  let hash := block.hash crates
  if ← hasBlockSteps hash then pure false
  else
    let _ ← putBlockSteps crates block true
    setTipSteps ⟨hash,block.height⟩
    pure true

theorem extendChainAlone (block : L2Block) : (extendChainSteps crates block).alone = extendChain crates block := by
  funext w
  simp only [extendChainSteps,extendChain,aloneBind,hasBlockAlone,askBind,getBind]
  split
  · rfl
  · simp only [aloneBind,putBlockAlone,setTipAlone,alonePure]

def collectCanonicalSteps (heights : List UInt64) : Steps (List Bytes32) := do
  let found ← Proc.gather getHashByHeightSteps heights
  pure (found.filterMap id)

theorem collectCanonicalAlone (heights : List UInt64) : (collectCanonicalSteps heights).alone = collectCanonical heights := by
  simp only [collectCanonicalSteps,collectCanonical,aloneBind,aloneGather,alonePure,getHashByHeightAlone]

def retipAtSteps (targetHeight : UInt64) : Option Bytes32 → Steps Unit
  | some targetHash => setTipSteps ⟨targetHash,targetHeight⟩
  | none => pure ()

theorem retipAtAlone (targetHeight : UInt64) (found : Option Bytes32) :
    (retipAtSteps targetHeight found).alone = retipAt targetHeight found := by
  cases found with
  | none => rfl
  | some targetHash => exact setTipAlone _

def cutStep (height : UInt64) : Steps Unit := does (fun _ => .cut height) (onBin (CanonicalBin.truncateToHeight height))

def tipStep : Steps (Option ChainTip) := does (fun s => .tipRead s.tip) (ask tip)

def revertSteps (targetHeight : UInt64) (heights : List UInt64) : Steps (List Bytes32) := do
  let reverted ← collectCanonicalSteps heights.reverse
  does (fun _ => .batch (heights.map fun h => .delete .canonical (heightKey h)))
    (write (heights.map fun h => .delete .canonical (heightKey h)))
  cutStep targetHeight
  let found ← getHashByHeightSteps targetHeight
  retipAtSteps targetHeight found
  other (Op.modify (flagRecords false reverted))
  does (fun _ => .heightsSwap heights []) (Op.modify (dropCachedHeights heights))
  pure reverted

def rollbackToHeightSteps (targetHeight : UInt64) : Steps (List Bytes32) := do
  other (refuseReadOnly errMutationReadOnly)
  match ← tipStep with
  | none => Proc.error .noTip
  | some currentTip =>
      if targetHeight > currentTip.height then
        Proc.error (.rollbackAboveTip targetHeight currentTip.height)
      else
        let min ← other (ask minRetainedHeightCached)
        if targetHeight < min then Proc.error (.rollbackBelowMin targetHeight min)
        else if targetHeight = currentTip.height then pure []
        else revertSteps targetHeight (heightsThrough (targetHeight + 1) currentTip.height)

theorem rollbackToHeightAlone (targetHeight : UInt64) :
    (rollbackToHeightSteps targetHeight).alone = rollbackToHeight targetHeight := by
  funext w
  simp only [rollbackToHeightSteps,rollbackToHeight,aloneBind,aloneOther,refuseBind,tipStep,aloneDoes,askBind,getBind]
  split
  · rfl
  · cases w.state.tip with
    | none => rfl
    | some currentTip =>
      dsimp only
      split
      · rfl
      · simp only [aloneBind,aloneOther,askBind]
        split
        · rfl
        · split
          · rfl
          · simp only [revertSteps,cutStep,aloneBind,aloneOther,aloneDoes,collectCanonicalAlone,getHashByHeightAlone,
              retipAtAlone,alonePure]

def getRecordOrMissingSteps (hash : Bytes32) : Steps (Bytes32 × BlockRecord) := do
  match ← getRecordSteps crates hash with
  | none => Proc.error (.blockNotInStore hash)
  | some record => pure (hash,record)

theorem getRecordOrMissingAlone (hash : Bytes32) :
    (getRecordOrMissingSteps crates hash).alone = getRecordOrMissing crates hash := by
  simp only [getRecordOrMissingSteps,getRecordOrMissing,aloneBind,getRecordAlone]
  congr 1
  funext found
  cases found <;> rfl

def heightAboveSteps (height : UInt64) : Steps UInt64 :=
  if height.toNat + 1 = 2 ^ 64 ∧ crates.overflowChecks then Proc.stop (.panic "attempt to add with overflow")
  else pure (height + 1)

theorem heightAboveAlone (height : UInt64) : (heightAboveSteps crates height).alone = heightAbove crates height := by
  unfold heightAboveSteps heightAbove
  split <;> rfl

def reorgRows (heights : List UInt64) (records : List (Bytes32 × BlockRecord)) (newTip : ChainTip) : List Write :=
  heights.reverse.map (fun h => .delete .canonical (heightKey h))
    ++ records.map (fun row => canonicalRow row.2.height row.1) ++ [.put .metadata metaTip newTip.toBytes]

/- From the commit on. The height cache is dropped and filled again under one lock, and so are
the flags set. -/
def switchSteps (ancestorHeight : UInt64) (heights : List UInt64) (reverted hashes : List Bytes32)
    (records : List (Bytes32 × BlockRecord)) (newTip : ChainTip) : Steps ReorgResult := do
  does (fun _ => .batch (reorgRows heights records newTip)) (write (reorgRows heights records newTip))
  cutStep ancestorHeight
  Proc.each (fun row => slotStep row.2.height row.1) records
  other (do
    Op.modify (flagRecords false reverted)
    Op.modify (flagRecords true hashes))
  does (fun _ => .heightsSwap heights records) (do
    Op.modify (dropCachedHeights heights)
    Op.modify (cacheReorgHeights records))
  does (fun _ => .tipSet newTip) (Op.modify fun s => {s with tip := some newTip})
  pure ⟨reverted,hashes,newTip⟩

def applyReorgSteps (ancestorHeight : UInt64) (newChainHashes : List Bytes32) : Steps ReorgResult := do
  other (refuseReadOnly errMutationReadOnly)
  match ← tipStep,newChainHashes.getLast? with
  | none,_ => Proc.error .noTip
  | some _,none => Proc.error .emptyReorgChain
  | some currentTip,some newTipHash =>
      let newRecords ← Proc.gather (getRecordOrMissingSteps crates) newChainHashes
      let start ← heightAboveSteps crates ancestorHeight
      let heights := heightsThrough start currentTip.height
      let reverted ← collectCanonicalSteps heights.reverse
      let newTipHeight := (newRecords.getLast?.map fun row => row.2.height).getD 0
      switchSteps ancestorHeight heights reverted newChainHashes newRecords ⟨newTipHash,newTipHeight⟩

theorem applyReorgAlone (ancestorHeight : UInt64) (newChainHashes : List Bytes32) :
    (applyReorgSteps crates ancestorHeight newChainHashes).alone = applyReorg crates ancestorHeight newChainHashes := by
  funext w
  simp only [applyReorgSteps,applyReorg,aloneBind,aloneOther,refuseBind,tipStep,aloneDoes,askBind,getBind]
  split
  · rfl
  · cases w.state.tip with
    | none => rfl
    | some currentTip =>
      cases newChainHashes.getLast? with
      | none => rfl
      | some newTipHash =>
        simp only [switchSteps,reorgRows,slotStep,cutStep,aloneBind,aloneOther,aloneDoes,aloneGather,aloneEach,alonePure,
          getRecordOrMissingAlone,heightAboveAlone,collectCanonicalAlone,opBindAssoc]

end Store
end DigBlockstore
