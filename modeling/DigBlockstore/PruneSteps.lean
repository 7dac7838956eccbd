import DigBlockstore.PruneEffects
import DigBlockstore.Steps

/-! Pruning, attestations and compaction as sequences of atomic steps. Alone, each runs as the
call does. -/
namespace DigBlockstore
open ByteCodec Faulty
namespace Store
variable (crates : Crates)

def pruneCanonicalSteps : List UInt64 → Steps (List Write × List Bytes32)
  | [] => pure ([],[])
  | h :: rest => do
      let found ← getHashByHeightSteps h
      let (batch,hashes) ← pruneCanonicalSteps rest
      match found with
      | none => pure (batch,hashes)
      | some hash => pure (bodyDeletes hash ++ .delete .canonical (heightKey h) :: batch,hash :: hashes)

/- One lock for each cache. -/
def evictPrunedSteps (hash : Bytes32) : Steps Unit := do
  other (Op.modify fun s => {s with blockCache := s.blockCache.remove hash})
  other (Op.modify fun s => {s with headerCache := s.headerCache.remove hash})
  other (Op.modify fun s => {s with recordCache := Function.update s.recordCache hash none})
  other (Op.modify fun s => {s with hashToHeightCache := s.hashToHeightCache.remove hash})

def pruneRows (batch : List Write) (forkHashes : List Bytes32) (height : UInt64) : List Write :=
  batch ++ forkHashes.flatMap bodyDeletes ++ [.put .metadata metaMinHeight (toLeBytes height)]

def pruneBeforeHeightSteps (height : UInt64) : Steps Nat := do
  other (refuseReadOnly errMutationReadOnly)
  let currentMin ← other (ask minRetainedHeightCached)
  if height ≤ currentMin then pure 0
  else
    let (batch,canonicalHashes) ← pruneCanonicalSteps (heightsBefore currentMin height)
    let rows ← other (ask fun s => (s.db .headers).toList)
    let forkHashes := pruneForks crates height canonicalHashes rows
    let prunedHashes := canonicalHashes ++ forkHashes
    does (fun _ => .batch (pruneRows batch forkHashes height)) (write (pruneRows batch forkHashes height))
    other (Op.modify fun s => {s with minRetainedHeightCached := height})
    Proc.each evictPrunedSteps prunedHashes
    other (Op.modify (evictHeightsBelow height))
    pure prunedHashes.length

def putAttestationSteps (hash : Bytes32) (attested : AttestedBlock) : Steps Unit := do
  other (refuseReadOnly errMutationReadOnly)
  let bytes ← Proc.ofExcept ((crates.serializeAttested attested).mapError .serialization)
  does (fun _ => .batch [.put .attested (hashKey hash) bytes]) (write [.put .attested (hashKey hash) bytes])

/- The filters run on some of the rows with the floor of that moment. -/
def compactionSteps (visited : Cf → Bytes → Bool) : Steps Unit := other (compaction crates visited)

/- The end of `open`: the floor starts at zero and is set from its row, if that reads. -/
def loadFloorSteps : Steps Unit := do
  match ← does (fun _ => .rowRead .metadata metaMinHeight) (ask fun s => readMinRetainedHeight s.db) with
  | .ok (some h) => other (Op.modify fun s => {s with minRetainedHeightCached := h})
  | _ => pure ()

theorem pruneCanonicalAlone (heights : List UInt64) : (pruneCanonicalSteps heights).alone = pruneCanonical heights := by
  induction heights with
  | nil => rfl
  | cons h rest ih =>
    simp only [pruneCanonicalSteps,pruneCanonical,aloneBind,getHashByHeightAlone,ih]
    congr 1
    funext found
    cases found <;> rfl

theorem evictPrunedAlone (hash : Bytes32) : (evictPrunedSteps hash).alone = Op.modify fun s => s.evictPruned hash := by
  funext w
  simp only [evictPrunedSteps,aloneBind,aloneOther,modifyBind]
  rfl

theorem forEachModify {α : Type} (f : Store → α → Store) (as : List α) :
    (Op.forEach (fun a => Op.modify fun s => f s a) as : StoreM Unit) = Op.modify fun s => as.foldl f s := by
  induction as with
  | nil => rfl
  | cons a rest ih =>
    rw [Op.forEach,ih]
    rfl

theorem pruneBeforeHeightAlone (height : UInt64) :
    (pruneBeforeHeightSteps crates height).alone = pruneBeforeHeight crates height := by
  funext w
  simp only [pruneBeforeHeightSteps,pruneBeforeHeight,aloneBind,aloneOther,refuseBind,askBind,getBind]
  split
  · rfl
  · split
    · rfl
    · simp only [aloneBind,aloneOther,aloneDoes,aloneEach,pruneCanonicalAlone,evictPrunedAlone,forEachModify,alonePure,
        pruneRows]
      rfl

theorem putAttestationAlone (hash : Bytes32) (attested : AttestedBlock) :
    (putAttestationSteps crates hash attested).alone = putAttestation crates hash attested := by
  simp only [putAttestationSteps,putAttestation,aloneBind,aloneOther,aloneOfExcept,aloneDoes]

theorem compactionAlone (visited : Cf → Bytes → Bool) : (compactionSteps crates visited).alone = compaction crates visited :=
  aloneOther _

theorem loadFloorAlone (s : Store) (script : List Event) (zero : s.minRetainedHeightCached = 0) :
    loadFloorSteps.alone ⟨s,script⟩ = (.ok (),⟨{s with minRetainedHeightCached := loadFloor s.db},script⟩) := by
  have same : s = {s with minRetainedHeightCached := 0} := by rw [← zero]
  simp only [loadFloorSteps,aloneBind,aloneDoes,askBind,loadFloor]
  cases readMinRetainedHeight s.db with
  | error e => rw [same]; rfl
  | ok found =>
    cases found with
    | none => rw [same]; rfl
    | some h => rfl

end Store
end DigBlockstore
