import DigBlockstore.Steps

/-! The write pipeline's flush as a sequence of atomic steps. It answers with one report for each
job, and alone it runs as the flush does. -/
namespace DigBlockstore
open ByteCodec Faulty

structure Report where
  hash : Bytes32
  ack : Nat
  result : Except BlockStoreError Bool

def Report.sent (report : Report) : Nat × Except BlockStoreError Bool := (report.ack,report.result)

namespace Pipeline
variable (crates : Crates)

def rowSteps (job : PipelineJob) : Steps (Option StagedRow) := do
  let hash := job.block.hash crates
  if ← Store.does (fun _ => .rowRead .blocks (hashKey hash)) (do
      Op.step BlockStoreError.rocksDb
      Store.ask fun s => (s.db .blocks)[hashKey hash]?.isSome) then pure none
  else
    let compressed ← Store.other (Store.askOk fun s => s.serializeBlock crates job.block)
    let headerBytes ← Store.other (Op.ofExcept (Store.serializeHeader crates job.block.header))
    pure (some ⟨hash,job.block,compressed,headerBytes,job.canonical,job.ack⟩)

def unstaged (hash : Bytes32) (ack : Nat) : Except BlockStoreError (Option StagedRow) → List Report
  | .error e => [⟨hash,ack,.error e⟩]
  | .ok none => [⟨hash,ack,.ok false⟩]
  | .ok (some _) => []

def stagedRow : Except BlockStoreError (Option StagedRow) → Option StagedRow
  | .ok row => row
  | .error _ => none

def stageSteps (seen : List Bytes32) : List PipelineJob → Steps (List Report × List StagedRow)
  | [] => pure ([],[])
  | job :: rest => do
      let hash := job.block.hash crates
      if hash ∈ seen then
        let later ← stageSteps seen rest
        pure (⟨hash,job.ack,.ok false⟩ :: later.1,later.2)
      else
        let row ← Proc.attempt (rowSteps crates job)
        let later ← stageSteps (hash :: seen) rest
        pure (unstaged hash job.ack row ++ later.1,(stagedRow row).toList ++ later.2)

def reportAll (rows : List StagedRow) (message : String) : List Report :=
  rows.map fun row => ⟨row.hash,row.ack,.error (.serialization message)⟩

def writeBinSteps (row : StagedRow) : Steps Unit :=
  if row.canonical then Store.slotStep row.block.height row.hash else pure ()

def cacheRowSteps (row : StagedRow) : Steps Report := do
  Store.other (Op.modify (Store.cacheRecord row.hash (BlockRecord.fromHeader crates row.block.header .validated)))
  Store.other (Op.modify (Store.cacheBody row.hash row.block))
  Store.other (Op.modify (Store.cacheHeader row.hash row.block.header))
  let done ← Proc.attempt (Store.maybeTrainDictionarySteps crates)
  pure ⟨row.hash,row.ack,done.map fun _ => true⟩

/- From the write on: the slots, then the caches row by row. -/
def placeSteps (staged : List StagedRow) : Steps (List Report) := do
  match ← Proc.attempt (Proc.each writeBinSteps staged) with
  | .error e => pure (reportAll staged ("write pipeline: canonical.bin mmap update failed: " ++ errorText e))
  | .ok () => Proc.gather (cacheRowSteps crates) staged

def commitSteps (staged : List StagedRow) : Steps (List Report) := do
  match ← Proc.attempt (Store.does (fun _ => .batch (staged.flatMap rowWrites)) (Store.write (staged.flatMap rowWrites))) with
  | .error e => pure (reportAll staged ("write pipeline: rocksdb write failed: " ++ errorText e))
  | .ok () => placeSteps crates staged

def flushSteps (jobs : List PipelineJob) : Steps (List Report) := do
  match ← Proc.attempt (Store.other (Store.refuseReadOnly errMutationReadOnly)) with
  | .error e => pure (jobs.map fun job => ⟨job.block.hash crates,job.ack,.error e⟩)
  | .ok () =>
      let staged ← stageSteps crates [] jobs
      if staged.2 = [] then pure staged.1
      else
        let more ← commitSteps crates staged.2
        pure (staged.1 ++ more)

section Alone
variable {crates : Crates}

inductive Told {α : Type} (sent : List (Nat × Except BlockStoreError Bool)) :
    Exit α × World Ledger → Exit (List Report × α) × World Store → Prop where
  | ok (a : α) (reports : List Report) (w : World Store) :
      Told sent (.ok a,⟨⟨w.state,sent ++ reports.map Report.sent⟩,w.script⟩) (.ok (reports,a),w)
  | error (e : Stop BlockStoreError) (more : List (Nat × Except BlockStoreError Bool)) (w : World Store) :
      Told sent (.error e,⟨⟨w.state,more⟩,w.script⟩) (.error e,w)

/- On a ledger the operation does what it does on the store, and sends what it reports. -/
def Tells {α : Type} (m : FlushM α) (n : StoreM (List Report × α)) : Prop := ∀ s sent script,
  Told sent (m ⟨⟨s,sent⟩,script⟩) (n ⟨s,script⟩)

theorem toldNothing {α : Type} (a : α) (sent : List (Nat × Except BlockStoreError Bool)) (w : World Store) :
    Told sent (.ok a,⟨⟨w.state,sent⟩,w.script⟩) (.ok ([],a),w) := by
  have told := @Told.ok _ sent a [] w
  rwa [List.map_nil,List.append_nil] at told

theorem tellsPure {α : Type} (a : α) : Tells (pure a) (pure ([],a)) := fun s sent script => toldNothing a sent ⟨s,script⟩

theorem tellsSend (report : Report) : Tells (send report.ack report.result) (pure ([report],())) := fun s _ script =>
  .ok () [report] ⟨s,script⟩

theorem tellsBind {α β : Type} {m : FlushM α} {n : StoreM (List Report × α)} {f : α → FlushM β}
    {g : α → StoreM (List Report × β)} (first : Tells m n) (later : ∀ a, Tells (f a) (g a)) :
    Tells (m >>= f) (do
      let here ← n
      let rest ← g here.2
      pure (here.1 ++ rest.1,rest.2)) := by
  intro s sent script
  change Told sent (Op.bind m f _) (Op.bind n _ _)
  unfold Op.bind
  have told := first s sent script
  generalize m ⟨⟨s,sent⟩,script⟩ = x at told ⊢
  generalize n ⟨s,script⟩ = y at told ⊢
  cases told with
  | error e more w => exact .error e more w
  | ok a reports w =>
    dsimp only
    change Told sent _ (Op.bind (g a) _ _)
    unfold Op.bind
    have told := later a w.state (sent ++ reports.map Report.sent) w.script
    generalize f a ⟨⟨w.state,sent ++ reports.map Report.sent⟩,w.script⟩ = x at told ⊢
    generalize g a ⟨w.state,w.script⟩ = y at told ⊢
    cases told with
    | error e more w => exact .error e more w
    | ok b more v =>
      have both := @Told.ok _ sent b (reports ++ more) v
      rw [List.map_append,← List.append_assoc] at both
      exact both

theorem tellsStore {α β : Type} (m : StoreM α) {f : α → FlushM β} {g : α → StoreM (List Report × β)}
    (later : ∀ a, Tells (f a) (g a)) : Tells (onStore m >>= f) (m >>= g) := by
  intro s sent script
  change Told sent (Op.bind (Op.zoom _ _ m) f _) (Op.bind m _ _)
  unfold Op.bind Op.zoom
  cases m ⟨s,script⟩ with
  | mk r w =>
    cases r with
    | ok a => exact later a w.state sent w.script
    | error e => exact .error e sent w

theorem attemptOnStore {α : Type} (m : StoreM α) : Op.attempt (onStore m) = onStore (Op.attempt m) := by
  funext w
  change Op.attempt (Op.zoom _ _ m) w = Op.zoom _ _ (Op.attempt m) w
  unfold Op.attempt Op.zoom
  dsimp only
  rcases m ⟨w.state.store,w.script⟩ with ⟨(e | message | _) | a,v⟩ <;> rfl

def rowOf (crates : Crates) (s : Store) (job : PipelineJob) : Except BlockStoreError (Option StagedRow) :=
  if (s.db .blocks)[hashKey (job.block.hash crates)]?.isSome then .ok none
  else do
    let compressed ← s.serializeBlock crates job.block
    let headerBytes ← Store.serializeHeader crates job.block.header
    pure (some ⟨job.block.hash crates,job.block,compressed,headerBytes,job.canonical,job.ack⟩)

theorem rowAlone (job : PipelineJob) : (rowSteps crates job).alone = (do
    Op.step BlockStoreError.rocksDb
    let s ← Op.get
    Op.ofExcept (rowOf crates s job)) := by
  funext w
  simp only [rowSteps,aloneBind,Store.aloneDoes,opBindAssoc]
  change Op.bind _ _ _ = Op.bind _ _ _
  unfold Op.bind
  rcases Op.step BlockStoreError.rocksDb w with ⟨e | _,v⟩
  · rfl
  · dsimp only
    rw [Store.askBind,Store.getBind,rowOf]
    cases (v.state.db .blocks)[hashKey (job.block.hash crates)]?.isSome
    · simp only [Bool.false_eq_true,if_false,aloneBind,Store.aloneOther,Store.askOk,opBindAssoc,Store.getBind]
      cases v.state.serializeBlock crates job.block with
      | error e => rfl
      | ok compressed =>
        cases Store.serializeHeader crates job.block.header <;> rfl
    · rfl

def answer (job : PipelineJob) : Except BlockStoreError (Option StagedRow) → FlushM (Option StagedRow)
  | .error e => do
      send job.ack (.error e)
      pure none
  | .ok none => do
      send job.ack (.ok false)
      pure none
  | .ok (some row) => pure (some row)

theorem stageJobAnswers (job : PipelineJob) (l : Ledger) (script : List Event) :
    stageJob crates job ⟨l,script⟩ = Op.bind (Op.attempt (Op.step BlockStoreError.rocksDb))
      (fun opened => answer job (opened >>= fun _ => rowOf crates l.store job)) ⟨l,script⟩ := by
  unfold stageJob
  change Op.bind (Op.attempt _) _ _ = _
  unfold Op.bind
  rcases Op.attempt (Op.step BlockStoreError.rocksDb) ⟨l,script⟩ with ⟨stopped | e | _,w⟩
  · rfl
  · rfl
  · change _ = answer job (rowOf crates l.store job) w
    dsimp only
    unfold rowOf
    cases (l.store.db .blocks)[hashKey (job.block.hash crates)]?.isSome
    · simp only [Bool.false_eq_true,if_false]
      cases l.store.serializeBlock crates job.block with
      | error e => rfl
      | ok compressed => cases Store.serializeHeader crates job.block.header <;> rfl
    · rfl

theorem answerTells (job : PipelineJob) (row : Except BlockStoreError (Option StagedRow)) :
    Tells (answer job row) (pure (unstaged (job.block.hash crates) job.ack row,stagedRow row)) := by
  rcases row with e | _ | row
  · exact tellsBind (tellsSend ⟨job.block.hash crates,job.ack,.error e⟩) fun _ => tellsPure none
  · exact tellsBind (tellsSend ⟨job.block.hash crates,job.ack,.ok false⟩) fun _ => tellsPure none
  · exact tellsPure (some row)

theorem tellsJob (job : PipelineJob) : Tells (stageJob crates job) (do
    let row ← Op.attempt (rowSteps crates job).alone
    pure (unstaged (job.block.hash crates) job.ack row,stagedRow row)) := by
  intro s sent script
  have told (row : Except BlockStoreError (Option StagedRow)) (later : List Event) :=
    @answerTells crates job row s sent later
  rw [stageJobAnswers,rowAlone]
  have looked (later : List Event) : (Op.attempt (Op.ofExcept (rowOf crates s job)) : StoreM _) ⟨s,later⟩ =
      (.ok (rowOf crates s job),⟨s,later⟩) := by
    cases rowOf crates s job <;> rfl
  rcases script with _ | ⟨_ | why | _,script⟩
  · change Told sent (answer job (rowOf crates s job) ⟨⟨s,sent⟩,[]⟩) (Op.bind (Op.attempt (Op.ofExcept (rowOf crates s job))) _ ⟨s,[]⟩)
    rw [Op.bind,looked]
    exact told _ []
  · change Told sent (answer job (rowOf crates s job) ⟨⟨s,sent⟩,script⟩)
      (Op.bind (Op.attempt (Op.ofExcept (rowOf crates s job))) _ ⟨s,script⟩)
    rw [Op.bind,looked]
    exact told _ script
  · exact told (.error (.rocksDb why)) script
  · exact .error .crash sent ⟨s,script⟩

theorem tellsStage (seen : List Bytes32) (jobs : List PipelineJob) :
    Tells (stage crates seen jobs) (stageSteps crates seen jobs).alone := by
  induction jobs generalizing seen with
  | nil => exact tellsPure []
  | cons job rest ih =>
    rw [stage,stageSteps]
    split
    · rw [aloneBind]
      exact tellsBind (tellsSend ⟨job.block.hash crates,job.ack,.ok false⟩) fun _ => ih seen
    · have both := tellsBind (@tellsJob crates job) fun row => tellsBind (ih (job.block.hash crates :: seen)) fun rows =>
        tellsPure (row.toList ++ rows)
      rw [opBindAssoc] at both
      simp only [aloneBind,aloneAttempt]
      convert both using 2
      funext row w
      change Op.bind _ _ w = Op.bind (Op.bind _ _) _ w
      unfold Op.bind
      rcases (stageSteps crates (job.block.hash crates :: seen) rest).alone w with ⟨e | later,v⟩
      · rfl
      · change _ = ((Except.ok (_ ++ (later.1 ++ []),_),v) : Exit (List Report × List StagedRow) × World Store)
        rw [List.append_nil]
        rfl

theorem writeBinsAlone (staged : List StagedRow) : (Proc.each writeBinSteps staged).alone = writeBins staged := by
  rw [aloneEach,writeBins]
  congr 1
  funext row
  unfold writeBinSteps
  split
  · exact Store.aloneDoes _ _
  · rfl

theorem tellsAll (rows : List StagedRow) (message : String) :
    Tells (sendAll rows message) (pure (reportAll rows message,())) := by
  induction rows with
  | nil => exact tellsPure ()
  | cons row rest ih =>
    exact tellsBind (tellsSend ⟨row.hash,row.ack,.error (.serialization message)⟩) fun _ => ih

theorem tellsCacheRow (row : StagedRow) : Tells (cacheRow crates row) (do
    let report ← (cacheRowSteps crates row).alone
    pure ([report],())) := by
  simp only [cacheRowSteps,aloneBind,Store.aloneOther,aloneAttempt,Store.maybeTrainDictionaryAlone,opBindAssoc]
  unfold cacheRow
  rw [attemptOnStore]
  refine tellsStore _ fun _ => tellsStore _ fun _ => tellsStore _ fun _ => tellsStore _ fun done => ?_
  cases done with
  | ok _ => exact tellsSend ⟨row.hash,row.ack,.ok true⟩
  | error e => exact tellsSend ⟨row.hash,row.ack,.error e⟩

theorem tellsCacheRows (staged : List StagedRow) : Tells (Op.forEach (cacheRow crates) staged) (do
    let reports ← (Proc.gather (cacheRowSteps crates) staged).alone
    pure (reports,())) := by
  induction staged with
  | nil => exact tellsPure ()
  | cons row rest ih =>
    have both := tellsBind (@tellsCacheRow crates row) fun _ => ih
    simp only [opBindAssoc] at both
    simp only [Proc.gather,aloneBind,opBindAssoc]
    exact both

theorem tellsCommit (staged : List StagedRow) : Tells (commit crates staged) (do
    let reports ← (commitSteps crates staged).alone
    pure (reports,())) := by
  simp only [commitSteps,aloneBind,aloneAttempt,Store.aloneDoes,opBindAssoc]
  unfold commit
  rw [attemptOnStore]
  refine tellsStore _ fun written => ?_
  cases written with
  | error e => exact tellsAll staged _
  | ok _ =>
    dsimp only
    simp only [placeSteps,aloneBind,aloneAttempt,writeBinsAlone,opBindAssoc]
    rw [attemptOnStore]
    refine tellsStore _ fun placed => ?_
    cases placed with
    | error e => exact tellsAll staged _
    | ok _ => exact tellsCacheRows staged

theorem tellsStaged (jobs : List PipelineJob) : Tells (do
    let staged ← stage crates [] jobs
    if staged = [] then pure () else commit crates staged) (do
    let staged ← (stageSteps crates [] jobs).alone
    if staged.2 = [] then pure (staged.1,())
    else
      let more ← (commitSteps crates staged.2).alone
      pure (staged.1 ++ more,())) := by
  have both := tellsBind (@tellsStage crates [] jobs) fun staged => show Tells
      (if staged = [] then pure () else commit crates staged)
      (if staged = [] then pure ([],()) else do
        let more ← (commitSteps crates staged).alone
        pure (more,())) by
    split
    · exact tellsPure ()
    · exact tellsCommit staged
  convert both using 2
  funext staged
  split
  · funext w
    change _ = ((Except.ok (staged.1 ++ [],()),w) : Exit (List Report × Unit) × World Store)
    rw [List.append_nil]
    rfl
  · rw [opBindAssoc]
    rfl

theorem tellsRefused (jobs : List PipelineJob) (e : BlockStoreError) :
    Tells (Op.forEach (fun job => send job.ack (.error e)) jobs)
      (pure (jobs.map fun job => ⟨job.block.hash crates,job.ack,.error e⟩,())) := by
  induction jobs with
  | nil => exact tellsPure ()
  | cons job rest ih => exact tellsBind (tellsSend ⟨job.block.hash crates,job.ack,.error e⟩) fun _ => ih

theorem tellsFlush (jobs : List PipelineJob) : Tells (flushPipelineBatch crates jobs) (do
    let reports ← (flushSteps crates jobs).alone
    pure (reports,())) := by
  intro s sent script
  simp only [flushSteps,aloneBind,aloneAttempt,Store.aloneOther,opBindAssoc]
  unfold flushPipelineBatch
  change Told sent ((if s.readOnly then _ else _ : FlushM Unit) _) _
  cases writes : s.readOnly with
  | true =>
    have refused : (Op.attempt (Store.refuseReadOnly errMutationReadOnly) : StoreM _) ⟨s,script⟩ =
        (.ok (.error (.serialization errMutationReadOnly)),⟨s,script⟩) := by
      simp only [Op.attempt,Store.refuseReadOnly,Store.getBind]
      rw [if_pos writes]
      rfl
    change Told sent _ (Op.bind _ _ _)
    rw [if_pos rfl,Op.bind,refused]
    exact tellsRefused jobs _ s sent script
  | false =>
    have opened : (Op.attempt (Store.refuseReadOnly errMutationReadOnly) : StoreM _) ⟨s,script⟩ = (.ok (.ok ()),⟨s,script⟩) := by
      simp only [Op.attempt,Store.refuseReadOnly,Store.getBind]
      rw [if_neg (by simp [writes])]
      rfl
    change Told sent _ (Op.bind _ _ _)
    rw [if_neg (by simp),Op.bind,opened]
    dsimp only
    simp only [aloneBind,opBindAssoc]
    convert tellsStaged jobs s sent script using 4
    split
    · rfl
    · rw [aloneBind,opBindAssoc]
      rfl

end Alone

end Pipeline

theorem flushAlone (crates : Crates) (jobs : List PipelineJob) : Store.flushPipelineBatch crates jobs = (do
    let reports ← (Pipeline.flushSteps crates jobs).alone
    pure (reports.map Report.sent)) := by
  funext w
  have told := @Pipeline.tellsFlush crates jobs w.state [] w.script
  unfold Store.flushPipelineBatch
  change _ = Op.bind _ _ w
  change Pipeline.Told [] _ (Op.bind _ _ w) at told
  unfold Op.bind at told ⊢
  generalize Pipeline.flushPipelineBatch crates jobs ⟨⟨w.state,[]⟩,w.script⟩ = x at told ⊢
  generalize (Pipeline.flushSteps crates jobs).alone w = y at told ⊢
  rcases y with ⟨e | reports,v⟩
  · cases told
    rfl
  · cases told
    rfl

end DigBlockstore
