import DigBlockstore.Prune

/-! The write pipeline's flush: one batch for the jobs not stored yet, one acknowledgement
for each job. -/
namespace DigBlockstore
open ByteCodec Faulty

structure PipelineJob where
  block : L2Block
  canonical : Bool
  ack : Nat
  deriving DecidableEq, Repr

structure StagedRow where
  hash : Bytes32
  block : L2Block
  compressed : Bytes
  headerBytes : Bytes
  canonical : Bool
  ack : Nat
  deriving DecidableEq, Repr

/- The store, and the acknowledgements sent so far. -/
structure Ledger where
  store : Store
  sent : List (Nat × Except BlockStoreError Bool)

namespace Pipeline
variable (crates : Crates)

abbrev FlushM (α : Type) := Op Ledger BlockStoreError α

def onStore {α : Type} (m : StoreM α) : FlushM α := Op.zoom Ledger.store (fun s l => {l with store := s}) m

def send (ack : Nat) (result : Except BlockStoreError Bool) : FlushM Unit :=
  Op.modify fun l => {l with sent := l.sent ++ [(ack,result)]}

def stageJob (job : PipelineJob) : FlushM (Option StagedRow) := do
  let hash := job.block.hash crates
  let l ← Op.get
  match ← Op.attempt (Op.step BlockStoreError.rocksDb) with
  | .error e =>
      send job.ack (.error e)
      pure none
  | .ok () =>
      if (l.store.db .blocks)[hashKey hash]?.isSome then
        send job.ack (.ok false)
        pure none
      else
        match l.store.serializeBlock crates job.block with
        | .error e =>
            send job.ack (.error e)
            pure none
        | .ok compressed =>
            match Store.serializeHeader crates job.block.header with
            | .error e =>
                send job.ack (.error e)
                pure none
            | .ok headerBytes =>
                pure (some ⟨hash,job.block,compressed,headerBytes,job.canonical,job.ack⟩)

def stage (seen : List Bytes32) : List PipelineJob → FlushM (List StagedRow)
  | [] => pure []
  | job :: rest => do
      let hash := job.block.hash crates
      if hash ∈ seen then
        send job.ack (.ok false)
        stage seen rest
      else
        let row ← stageJob crates job
        let rows ← stage (hash :: seen) rest
        pure (row.toList ++ rows)

def rowWrites (row : StagedRow) : List Write :=
  Store.bodyRows row.hash row.compressed row.headerBytes
    ++ if row.canonical then [Store.canonicalRow row.block.height row.hash] else []

def sendAll (rows : List StagedRow) (message : String) : FlushM Unit :=
  Op.forEach (fun row => send row.ack (.error (.serialization message))) rows

def writeBins : List StagedRow → StoreM Unit :=
  Op.forEach fun row =>
    if row.canonical then Store.onBin (CanonicalBin.extendWrite row.block.height row.hash) else pure ()

def cacheRow (row : StagedRow) : FlushM Unit := do
  onStore (Op.modify (Store.cacheRecord row.hash (BlockRecord.fromHeader crates row.block.header .validated)))
  onStore (Op.modify (Store.cacheBody row.hash row.block))
  onStore (Op.modify (Store.cacheHeader row.hash row.block.header))
  match ← Op.attempt (onStore (Store.maybeTrainDictionary crates)) with
  | .ok () => send row.ack (.ok true)
  | .error e => send row.ack (.error e)

def errorText : BlockStoreError → String
  | .rocksDb why => why
  | .serialization why => "serialization error: " ++ why
  | _ => ""

def commit (staged : List StagedRow) : FlushM Unit := do
  match ← Op.attempt (onStore (Store.write (staged.flatMap rowWrites))) with
  | .error e => sendAll staged ("write pipeline: rocksdb write failed: " ++ errorText e)
  | .ok () =>
      match ← Op.attempt (onStore (writeBins staged)) with
      | .error e =>
          sendAll staged ("write pipeline: canonical.bin mmap update failed: " ++ errorText e)
      | .ok () => Op.forEach (cacheRow crates) staged

def flushPipelineBatch (jobs : List PipelineJob) : FlushM Unit := do
  let l ← Op.get
  if l.store.readOnly then
    Op.forEach (fun job => send job.ack (.error (.serialization errMutationReadOnly))) jobs
  else
    let staged ← stage crates [] jobs
    if staged = [] then pure () else commit crates staged

end Pipeline

namespace Store

/- A flush seen as a call on the store: the acknowledgements it sent, in order. -/
def flushPipelineBatch (crates : Crates) (jobs : List PipelineJob) :
    StoreM (List (Nat × Except BlockStoreError Bool)) := fun w =>
  match Pipeline.flushPipelineBatch crates jobs ⟨⟨w.state,[]⟩,w.script⟩ with
  | (.ok (),w') => (.ok w'.state.sent,⟨w'.state.store,w'.script⟩)
  | (.error e,w') => (.error e,⟨w'.state.store,w'.script⟩)

end Store
end DigBlockstore
