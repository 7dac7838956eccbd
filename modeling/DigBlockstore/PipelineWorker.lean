import DigBlockstore.Library.Uncut
import DigBlockstore.PipelineAcks

/-! The write pipeline's worker: it drains the channel into its buffer and flushes the
buffer when it is full, when the timer fires and when the channel closes. What it delivers
holds in every run in which no flush finds the file unmapped. -/
namespace DigBlockstore
open ByteCodec Faulty ColumnStore Trace

/- Where the worker waits: for the first job, for more of them, or no longer. -/
inductive WorkerPhase where
  | receiving | collecting | returned | panicked
  deriving DecidableEq, Repr

/- The worker with its channel. Accepted jobs and flushed batches are kept for the record. -/
structure Worker where
  phase : WorkerPhase
  queue : List PipelineJob
  closed : Bool
  buf : List PipelineJob
  store : Store
  sent : List Ack
  accepted : List PipelineJob
  flushed : List (List PipelineJob)

inductive WorkerEvent where
  | send (job : PipelineJob)
  | close
  | other (store : Store)
  | receive
  | tick

namespace Worker

def start (store : Store) : Worker := ⟨.receiving,[],false,[],store,[],[],[]⟩

/- A flush takes the batch out of the buffer and ignores its result; a panic ends the worker. -/
inductive Flushes (crates : Crates) (w : Worker) (batch : List PipelineJob) (next : WorkerPhase) : Worker → Prop where
  | done {script rest : List Event} {l : Ledger} {r : Except BlockStoreError Unit}
      (run : Op.attempt (Pipeline.flushPipelineBatch crates batch) ⟨⟨w.store,[]⟩,script⟩ = (.ok r,⟨l,rest⟩)) :
      Flushes crates w batch next {w with
        phase := next,buf := [],store := l.store,sent := w.sent ++ l.sent,flushed := w.flushed ++ [batch]}
  | panic {script rest : List Event} {l : Ledger} {message : String}
      (run : Pipeline.flushPipelineBatch crates batch ⟨⟨w.store,[]⟩,script⟩ = (.error (.panic message),⟨l,rest⟩)) :
      Flushes crates w batch next {w with
        phase := .panicked,buf := [],store := l.store,sent := w.sent ++ l.sent,flushed := w.flushed ++ [batch]}

inductive Step (crates : Crates) (batchSize : Nat) : Worker → WorkerEvent → Worker → Prop where
  | send {w : Worker} (job : PipelineJob) (live : w.closed = false) :
      Step crates batchSize w (.send job) {w with queue := w.queue ++ [job],accepted := w.accepted ++ [job]}
  | close (w : Worker) : Step crates batchSize w .close {w with closed := true}
  -- other tasks use the same store between two flushes
  | other (w : Worker) (store : Store) : Step crates batchSize w (.other store) {w with store := store}
  | hold {w : Worker} {job : PipelineJob} {rest : List PipelineJob}
      (waits : w.phase = .receiving ∨ w.phase = .collecting) (queued : w.queue = job :: rest)
      (short : (w.buf ++ [job]).length < batchSize) :
      Step crates batchSize w .receive {w with phase := .collecting,queue := rest,buf := w.buf ++ [job]}
  | fill {w w' : Worker} {job : PipelineJob} {rest : List PipelineJob}
      (waits : w.phase = .receiving ∨ w.phase = .collecting) (queued : w.queue = job :: rest)
      (full : batchSize ≤ (w.buf ++ [job]).length)
      (flush : Flushes crates {w with queue := rest} (w.buf ++ [job]) .receiving w') :
      Step crates batchSize w .receive w'
  | idle {w : Worker} (waits : w.phase = .receiving) (drained : w.queue = []) (closed : w.closed = true) :
      Step crates batchSize w .receive {w with phase := .returned}
  | last {w w' : Worker} (waits : w.phase = .collecting) (drained : w.queue = []) (closed : w.closed = true)
      (flush : Flushes crates w w.buf .returned w') : Step crates batchSize w .receive w'
  -- the receiver is polled first, but a task out of budget finds it pending with jobs queued
  | tick {w w' : Worker} (waits : w.phase = .collecting) (some : w.buf ≠ [])
      (flush : Flushes crates w w.buf .receiving w') : Step crates batchSize w .tick w'

def inHand (w : Worker) : WorkerEvent → List PipelineJob
  | .receive => w.buf ++ w.queue.head?.toList
  | .tick => w.buf
  | .send _ | .close | .other _ => []

/- An event in which the worker itself goes on. -/
def isOwn : WorkerEvent → Bool
  | .receive | .tick => true
  | .send _ | .close | .other _ => false

/- How many more of its own steps the worker takes at most before the accepted jobs up to a number are flushed. -/
def delay (batchSize : Nat) (w : Worker) (n : Nat) : Nat :=
  (n + 1 - w.flushed.flatten.length) * batchSize + (batchSize - w.buf.length)

/- A resize of the file that failed half way leaves it unmapped. -/
def Mapped (s : Store) : Prop := ∀ d, s.canonicalBin = .rw d → d.mapped = true

/- The file is mapped, or no canonical job at hand is new to the store. -/
def Unbroken (crates : Crates) (w : Worker) (event : WorkerEvent) : Prop :=
  Mapped w.store ∨ ∀ job ∈ w.inHand event, job.canonical = true →
    (w.store.db .blocks)[hashKey (job.block.hash crates)]?.isSome

/- Every accepted job is in the order of its arrival in one batch, in the buffer or in the
queue, and the jobs of the batches are the acknowledged ones, each acknowledged once. -/
structure Delivered (crates : Crates) (batchSize : Nat) (w : Worker) : Prop where
  order : w.accepted = w.flushed.flatten ++ w.buf ++ w.queue
  acked : (w.sent.map Prod.fst).Perm (w.flushed.flatten.map PipelineJob.ack)
  batches : ∀ batch ∈ w.flushed, batch ≠ [] ∧ batch.length ≤ batchSize
  bounded : w.buf.length ≤ batchSize
  returned : w.phase = .returned → w.buf = [] ∧ w.queue = [] ∧ w.closed = true ∧ w.flushed.flatten = w.accepted ∧
    (w.sent.map Prod.fst).Perm (w.accepted.map PipelineJob.ack)
  -- the worker is never stuck: not with a job queued, nor with one buffered, nor once the channel has closed
  receives : w.phase ≠ .returned → w.queue ≠ [] ∨ w.closed = true → ∃ w', Step crates batchSize w .receive w'
  ticks : w.buf ≠ [] → ∃ w', Step crates batchSize w .tick w'
  -- and has only so many steps of its own before a job is flushed, and before it returns once the channel has closed
  prompt : ∀ n events w', Run (Guarded (Unbroken crates) (Step crates batchSize)) w events w' → w'.phase ≠ .returned →
    w'.flushed.flatten.length ≤ n → events.countP isOwn ≤ w.delay batchSize n

end Worker

namespace Pipeline
open Worker
variable {crates : Crates} {l l' : Ledger} {s t : Store}

theorem writePanics {batch : List Write} {message : String} : ¬Runs (Store.write batch) s (.error (.panic message)) t := by
  intro h
  rcases runsBind h with ⟨_,u,_,later⟩ | ⟨e,same,step⟩
  · cases (runsModify.mp later).1
  · cases same
    rcases (runsStep.mp step).2 with bad | ⟨why,bad⟩ | bad <;> cases bad

theorem trainPanics {message : String} : ¬Runs (Store.maybeTrainDictionary crates) s (.error (.panic message)) t := by
  intro h
  unfold Store.maybeTrainDictionary at h
  rw [runsGetBind] at h
  split at h
  · cases (runsPure.mp h).1
  · split at h
    · cases (runsPure.mp h).1
    · split at h
      · cases (runsModify.mp h).1
      · split at h
        · cases (runsPure.mp h).1
        · rcases runsBind h with ⟨dict,u,_,last⟩ | ⟨e,same,training⟩
          · cases (runsModify.mp last).1
          · cases same
            unfold Store.trainDictionary at training
            rw [runsGetBind] at training
            split at training
            · cases (runsPure.mp training).1
            · rcases runsBind training with ⟨samples,u,_,later⟩ | ⟨e,same,one⟩
              · rcases runsBind later with ⟨dict,v,_,rest⟩ | ⟨e,same,two⟩
                · rcases runsBind rest with ⟨_,w,_,last⟩ | ⟨e,same,three⟩
                  · cases (runsPure.mp last).1
                  · cases same
                    exact writePanics three
                · cases same
                  rcases (runsOfExcept two).2 with ⟨_,_,bad⟩ | ⟨_,_,bad⟩ <;> cases bad
              · cases same
                rcases (runsOfExcept one).2 with ⟨_,_,bad⟩ | ⟨_,_,bad⟩ <;> cases bad

theorem extendPanics {height : UInt64} {hash : Bytes32} {message : String}
    (h : Runs (Store.onBin (CanonicalBin.extendWrite height hash)) s (.error (.panic message)) t) : ¬Mapped s := by
  intro mapped
  obtain ⟨bin,run,_⟩ := Store.onBinRuns h
  rcases CanonicalBin.onDenseRuns run with ⟨d,d',dense,_,writing⟩ | ⟨_,bad,_⟩
  · have installed := mapped d dense
    unfold CanonicalDenseFile.writeHash at writing
    split at writing
    · cases (runsError.mp writing).1
    · rw [runsGetBind,CanonicalDenseFile.lenBytes,if_pos installed] at writing
      rcases runsBind writing with ⟨_,u,_,last⟩ | ⟨e,same,growing⟩
      · cases (runsModify.mp last).1
      · cases same
        unfold CanonicalDenseFile.grow at growing
        split at growing
        · unfold CanonicalDenseFile.resize at growing
          rw [runsModifyBind] at growing
          rcases runsBind growing with ⟨_,u,_,later⟩ | ⟨e,same,one⟩
          · rw [runsModifyBind] at later
            rcases runsBind later with ⟨_,v,_,last⟩ | ⟨e,same,two⟩
            · cases (runsModify.mp last).1
            · cases same
              rcases (runsStep.mp two).2 with bad | ⟨why,bad⟩ | bad <;> cases bad
          · cases same
            rcases (runsStep.mp one).2 with bad | ⟨why,bad⟩ | bad <;> cases bad
        · cases (runsPure.mp growing).1
  · cases bad

theorem mappedWritten (height : UInt64) (hash : Bytes32) : Mapped (s.writeSlot height hash) := by
  intro d dense
  change s.canonicalBin.written height hash = .rw d at dense
  cases held : s.canonicalBin with
  | rw file => rw [held] at dense; cases dense; rfl
  | ro mmap => rw [held] at dense; cases dense
  | disabled left => rw [held] at dense; cases dense

theorem writeBinsPanics {staged : List StagedRow} {message : String}
    (h : Runs (writeBins staged) s (.error (.panic message)) t) :
    ¬Mapped s ∧ ∃ row ∈ staged, row.canonical = true := by
  induction staged generalizing s with
  | nil => cases (runsPure.mp h).1
  | cons row rest ih =>
    rcases runsBind h with ⟨_,u,one,later⟩ | ⟨e,same,one⟩
    · obtain ⟨broken,other,mem,canonical⟩ := ih later
      refine ⟨fun mapped => broken ?_,other,List.mem_cons_of_mem _ mem,canonical⟩
      dsimp only at one
      split at one
      · rw [(Store.extendWriteRuns one).2]
        exact mappedWritten _ _
      · rwa [(runsPure.mp one).2]
    · cases same
      dsimp only at one
      split at one
      · rename_i canonical
        exact ⟨extendPanics one,row,by simp,canonical⟩
      · cases (runsPure.mp one).1

theorem cacheRowStops {row : StagedRow} {e : Stop BlockStoreError} (h : Runs (cacheRow crates row) l (.error e) l') :
    e = .crash := by
  rcases runsBind h with ⟨_,u,_,rest⟩ | ⟨e,_,one⟩
  · rcases runsBind rest with ⟨_,w,_,rest'⟩ | ⟨e,_,two⟩
    · rcases runsBind rest' with ⟨_,x,_,rest''⟩ | ⟨e,_,three⟩
      · rcases runsBind rest'' with ⟨training,y,_,last⟩ | ⟨e',same,four⟩
        · cases training with
          | ok a => cases (sendRuns last).1
          | error e => cases (sendRuns last).1
        · cases same
          obtain ⟨script,left,ran⟩ := four
          rcases attemptAt ran with ⟨_,bad,_⟩ | ⟨_,bad,_⟩ | ⟨message,same,run⟩ | ⟨same,_⟩
          · cases bad
          · cases bad
          · exact absurd (onStoreRuns (runsAt run)).1 trainPanics
          · exact Except.error.inj same
      · cases (runsModify.mp (onStoreRuns three).1).1
    · cases (runsModify.mp (onStoreRuns two).1).1
  · cases (runsModify.mp (onStoreRuns one).1).1

theorem cacheAllStops {staged : List StagedRow} {e : Stop BlockStoreError}
    (h : Runs (Op.forEach (cacheRow crates) staged) l (.error e) l') : e = .crash := by
  induction staged generalizing l with
  | nil => cases (runsPure.mp h).1
  | cons row rest ih =>
    rcases runsBind h with ⟨_,u,_,later⟩ | ⟨e,same,one⟩
    · exact ih later
    · cases same
      exact cacheRowStops one

theorem commitStops {staged : List StagedRow} {e : Stop BlockStoreError}
    (h : Runs (commit crates staged) l (.error e) l') :
    e = .crash ∨ (∃ message, e = .panic message) ∧ ¬Mapped l.store ∧ ∃ row ∈ staged, row.canonical = true := by
  rcases runsBind h with ⟨wrote,u,one,later⟩ | ⟨e',same,one⟩
  · cases wrote with
    | error e => cases (sendAllSent later).1
    | ok done =>
      have kept : u.store.canonicalBin = l.store.canonicalBin := by
        rcases runsAttempt one with ⟨a,_,run⟩ | ⟨e,bad,_⟩ | ⟨e,bad,_⟩
        · rw [Store.writeOk (onStoreRuns run).1]
          rfl
        · cases bad
        · cases bad
      rcases runsBind later with ⟨slots,w,_,caching⟩ | ⟨e',same,two⟩
      · cases slots with
        | error e => cases (sendAllSent caching).1
        | ok done => exact .inl (cacheAllStops caching)
      · cases same
        obtain ⟨script,left,ran⟩ := two
        rcases attemptAt ran with ⟨_,bad,_⟩ | ⟨_,bad,_⟩ | ⟨message,same,run⟩ | ⟨same,_⟩
        · cases bad
        · cases bad
        · obtain ⟨broken,row⟩ := writeBinsPanics (onStoreRuns (runsAt run)).1
          exact .inr ⟨⟨message,Except.error.inj same⟩,fun mapped => broken fun d dense => mapped d (kept ▸ dense),row⟩
        · exact .inl (Except.error.inj same)
  · cases same
    obtain ⟨script,left,ran⟩ := one
    rcases attemptAt ran with ⟨_,bad,_⟩ | ⟨_,bad,_⟩ | ⟨message,same,run⟩ | ⟨same,_⟩
    · cases bad
    · cases bad
    · exact absurd (onStoreRuns (runsAt run)).1 writePanics
    · exact .inl (Except.error.inj same)

theorem flushStops {jobs : List PipelineJob} {script rest : List Event} {e : Stop BlockStoreError}
    (h : flushPipelineBatch crates jobs ⟨⟨s,[]⟩,script⟩ = (.error e,⟨l,rest⟩)) :
    e = .crash ∨ (∃ message, e = .panic message) ∧ ¬Mapped s ∧ ∃ job ∈ jobs, job.canonical = true ∧
      (s.db .blocks)[hashKey (job.block.hash crates)]? = none := by
  cases only : s.readOnly with
  | true =>
    change (if s.readOnly = true then _ else _ : FlushM Unit) ⟨⟨s,[]⟩,script⟩ = _ at h
    rw [if_pos only] at h
    obtain ⟨i,done⟩ : ∃ l', Op.forEach (fun job : PipelineJob => send job.ack (.error (.serialization errMutationReadOnly)))
        jobs ⟨⟨s,[]⟩,script⟩ = (.ok (),⟨l',script⟩) := by
      generalize (⟨s,[]⟩ : Ledger) = l
      clear h only
      induction jobs generalizing l with
      | nil => exact ⟨l,rfl⟩
      | cons job rest ih => exact ih ⟨l.store,l.sent ++ [(job.ack,_)]⟩
    rw [done] at h
    cases h
  | false =>
    change (if s.readOnly = true then _ else _ : FlushM Unit) ⟨⟨s,[]⟩,script⟩ = _ at h
    rw [if_neg (by simp [only])] at h
    obtain ⟨rows,w,staging',later⟩ | ⟨e',same,staging'⟩ := bindAt h
    · obtain ⟨kept,plan⟩ := stageRuns (runsAt staging')
      have plan := plan rows rfl
      dsimp only at kept plan
      split at later
      · cases later
      · rcases commitStops (runsAt later) with crash | ⟨panic,broken,row,mem,canonical⟩
        · exact .inl crash
        · rw [kept] at broken
          have staged := plan.rows row mem
          refine .inr ⟨panic,broken,_,staged.job,canonical,?_⟩
          rw [← staged.hash]
          exact staged.absent
    · cases same
      rcases @stageAt crates ⟨s,[]⟩ [] jobs script with ⟨_,cut⟩ | done
      · rw [staging'] at cut
        exact .inl (Except.error.inj cut)
      · rw [staging'] at done
        cases (Prod.mk.inj done).1

theorem flushAcks {jobs : List PipelineJob} {script rest : List Event} {r : Except BlockStoreError Unit}
    (h : Op.attempt (flushPipelineBatch crates jobs) ⟨⟨s,[]⟩,script⟩ = (.ok r,⟨l,rest⟩)) :
    (l.sent.map Prod.fst).Perm (jobs.map PipelineJob.ack) := by
  rcases attemptAt h with ⟨u,_,run⟩ | ⟨e,_,run⟩ | ⟨_,bad,_⟩ | ⟨bad,_⟩
  · cases only : s.readOnly with
    | true =>
      rw [flushReadOnly only run,List.map_map]
      exact .refl _
    | false =>
      obtain ⟨done,flushed⟩ := flushAt only run
      rw [flushed.sent,List.map_append,flushed.acks]
      exact stagingAcks ..
  · rcases flushStops run with bad | ⟨⟨_,bad⟩,_⟩
    · cases bad
    · cases bad
  · cases bad
  · cases bad

section Ending

theorem uncutOnStore {α : Type} {m : StoreM α} (inner : Uncut m) : Uncut (onStore m) := uncutZoom inner

theorem uncutSend (ack : Nat) (result : Except BlockStoreError Bool) : Uncut (send ack result) := uncutModify _

theorem uncutWrite (batch : List Write) : Uncut (Store.write batch) := uncutBind (uncutStep _) fun _ => uncutModify _

theorem uncutTrain : Uncut (Store.maybeTrainDictionary crates) := by
  have train : Uncut (Store.trainDictionary crates) := uncutBind uncutGet fun s => by
    split
    · exact uncutPure _
    · exact uncutBind (uncutOfExcept _) fun _ => uncutBind (uncutOfExcept _) fun _ =>
        uncutBind (uncutWrite _) fun _ => uncutPure _
  refine uncutBind uncutGet fun s => ?_
  split
  · exact uncutPure _
  · split
    · exact uncutPure _
    · split
      · exact uncutModify _
      · split
        · exact uncutPure _
        · exact uncutBind train fun _ => uncutModify _

theorem uncutExtend (height : UInt64) (hash : Bytes32) : Uncut (CanonicalBin.extendWrite height hash) := by
  have grows (need cur : Nat) : Uncut (CanonicalDenseFile.grow need cur) := by
    unfold CanonicalDenseFile.grow
    split
    · exact uncutBind (uncutModify _) fun _ => uncutBind (uncutStep _) fun _ => uncutBind (uncutModify _) fun _ =>
        uncutBind (uncutStep _) fun _ => uncutModify _
    · exact uncutPure _
  have writes : Uncut (CanonicalDenseFile.writeHash height hash) := by
    unfold CanonicalDenseFile.writeHash
    split
    · exact uncutError _
    · refine uncutBind uncutGet fun d => ?_
      unfold CanonicalDenseFile.lenBytes
      split
      · rename_i stopped
        split at stopped
        · cases stopped
        · cases stopped
          exact fun s => ⟨_,_,rfl,by simp⟩
      · exact uncutBind (grows _ _) fun _ => uncutModify _
  intro bin
  cases bin with
  | rw d =>
    obtain ⟨r,t,ran,whole⟩ := uncutZoom (p := fun _ : CanonicalBin => d) (q := fun d _ => .rw d) writes (.rw d)
    exact ⟨r,t,ran,whole⟩
  | ro mmap => exact ⟨_,_,rfl,by simp⟩
  | disabled left => exact ⟨_,_,rfl,by simp⟩

theorem uncutStage (seen : List Bytes32) (jobs : List PipelineJob) : Uncut (stage crates seen jobs) := by
  induction jobs generalizing seen with
  | nil => exact uncutPure _
  | cons job rest ih =>
    unfold stage
    dsimp only
    split
    · exact uncutBind (uncutSend _ _) fun _ => ih _
    · refine uncutBind (uncutBind uncutGet fun l => uncutBind (uncutAttempt (uncutStep _)) fun answer => ?_) fun row =>
        uncutBind (ih _) fun rows => uncutPure _
      split
      · exact uncutBind (uncutSend _ _) fun _ => uncutPure _
      · split
        · exact uncutBind (uncutSend _ _) fun _ => uncutPure _
        · split
          · exact uncutBind (uncutSend _ _) fun _ => uncutPure _
          · split
            · exact uncutBind (uncutSend _ _) fun _ => uncutPure _
            · exact uncutPure _

theorem uncutCacheRow (row : StagedRow) : Uncut (cacheRow crates row) :=
  uncutBind (uncutOnStore (uncutModify _)) fun _ => uncutBind (uncutOnStore (uncutModify _)) fun _ =>
    uncutBind (uncutOnStore (uncutModify _)) fun _ => uncutBind (uncutAttempt (uncutOnStore uncutTrain)) fun answer => by
      cases answer <;> exact uncutSend _ _

theorem uncutCommit (staged : List StagedRow) : Uncut (commit crates staged) := by
  have bins : Uncut (writeBins staged) := uncutForEach staged fun row => by
    split
    · exact uncutZoom (uncutExtend _ _)
    · exact uncutPure _
  refine uncutBind (uncutAttempt (uncutOnStore (uncutWrite _))) fun wrote => ?_
  cases wrote with
  | error e => exact uncutForEach staged fun _ => uncutSend _ _
  | ok done =>
    refine uncutBind (uncutAttempt (uncutOnStore bins)) fun slots => ?_
    cases slots with
    | error e => exact uncutForEach staged fun _ => uncutSend _ _
    | ok done => exact uncutForEach staged uncutCacheRow

theorem uncutFlush (jobs : List PipelineJob) : Uncut (flushPipelineBatch crates jobs) := by
  refine uncutBind uncutGet fun l => ?_
  split
  · exact uncutForEach jobs fun _ => uncutSend _ _
  · refine uncutBind (uncutStage _ _) fun staged => ?_
    split
    · exact uncutPure _
    · exact uncutCommit staged

end Ending

end Pipeline

namespace Worker
open Pipeline
variable {crates : Crates} {batchSize : Nat} {w w' : Worker}

theorem flushesSome (batch : List PipelineJob) (next : WorkerPhase) : ∃ w', Flushes crates w batch next w' := by
  obtain ⟨r,l,ran,whole⟩ := @uncutFlush crates batch ⟨w.store,[]⟩
  have done (answer : Except BlockStoreError Unit) (ran : Op.attempt (flushPipelineBatch crates batch) ⟨⟨w.store,[]⟩,[]⟩ =
      (.ok answer,⟨l,[]⟩)) : ∃ w', Flushes crates w batch next w' := ⟨_,.done ran⟩
  have ran : flushPipelineBatch crates batch ⟨⟨w.store,[]⟩,[]⟩ = (r,⟨l,[]⟩) := ran
  cases r with
  | ok a => exact done (.ok a) (by rw [Op.attempt,ran])
  | error e =>
    cases e with
    | error e => exact done (.error e) (by rw [Op.attempt,ran])
    | panic message => exact ⟨_,.panic ran⟩
    | crash => exact absurd rfl whole

structure Kept (batchSize : Nat) (w : Worker) : Prop where
  order : w.accepted = w.flushed.flatten ++ w.buf ++ w.queue
  acked : (w.sent.map Prod.fst).Perm (w.flushed.flatten.map PipelineJob.ack)
  batches : ∀ batch ∈ w.flushed, batch ≠ [] ∧ batch.length ≤ batchSize
  bounded : w.buf.length ≤ batchSize
  returned : w.phase = .returned → w.buf = [] ∧ w.queue = []
  running : w.phase ≠ .panicked
  empty : w.phase = .receiving → w.buf = []
  filling : w.phase = .collecting → w.buf ≠ [] ∧ w.buf.length < batchSize
  ended : w.phase = .returned → w.closed = true

theorem keptStart {store : Store} : Kept batchSize (start store) :=
  ⟨rfl,.refl _,by simp [start],by simp [start],by simp [start],by simp [start],fun _ => rfl,by simp [start],by simp [start]⟩

theorem flushesKept {batch : List PipelineJob} {next : WorkerPhase}
    (order : w.accepted = w.flushed.flatten ++ batch ++ w.queue)
    (acked : (w.sent.map Prod.fst).Perm (w.flushed.flatten.map PipelineJob.ack))
    (batches : ∀ batch ∈ w.flushed, batch ≠ [] ∧ batch.length ≤ batchSize) (some' : batch ≠ [])
    (fits : batch.length ≤ batchSize)
    (unbroken : Mapped w.store ∨ ∀ job ∈ batch, job.canonical = true →
      (w.store.db .blocks)[hashKey (job.block.hash crates)]?.isSome)
    (phase : next = .receiving ∨ next = .returned ∧ w.queue = [] ∧ w.closed = true)
    (flush : Flushes crates w batch next w') : Kept batchSize w' := by
  cases flush with
  | done run =>
    have flat : (w.flushed ++ [batch]).flatten = w.flushed.flatten ++ batch := by simp
    refine ⟨?_,?_,fun other mem => ?_,Nat.zero_le _,fun ended => ⟨rfl,?_⟩,fun bad => ?_,fun _ => rfl,fun bad => ?_,fun ended => ?_⟩
    · rw [flat,List.append_nil]
      exact order
    · rw [flat,List.map_append,List.map_append]
      exact acked.append (flushAcks run)
    · rcases List.mem_append.mp mem with older | here
      · exact batches other older
      · rw [List.mem_singleton.mp here]
        exact ⟨some',fits⟩
    · rcases phase with rfl | ⟨_,drained,_⟩
      · cases ended
      · exact drained
    · rcases phase with rfl | ⟨rfl,_⟩ <;> cases bad
    · rcases phase with rfl | ⟨rfl,_⟩ <;> cases bad
    · rcases phase with rfl | ⟨_,_,closed⟩
      · cases ended
      · exact closed
  | panic run =>
    exfalso
    rcases flushStops run with bad | ⟨_,broken,job,mem,canonical,absent⟩
    · cases bad
    · rcases unbroken with mapped | stored
      · exact broken mapped
      · have present := stored job mem canonical
        rw [absent] at present
        cases present

theorem keptStep {event : WorkerEvent} (positive : 1 ≤ batchSize) (kept : Kept batchSize w)
    (unbroken : Unbroken crates w event) (step : Step crates batchSize w event w') : Kept batchSize w' := by
  obtain ⟨order,acked,batches,bounded,returned,running,empty,filling,ended⟩ := kept
  cases step with
  | send job live =>
    refine ⟨?_,acked,batches,bounded,fun done => ?_,running,empty,filling,ended⟩
    · change w.accepted ++ [job] = _ ++ _ ++ (w.queue ++ [job])
      rw [order,List.append_assoc (w.flushed.flatten ++ w.buf)]
    · rw [ended done] at live
      cases live
  | close => exact ⟨order,acked,batches,bounded,returned,running,empty,filling,fun _ => rfl⟩
  | other store => exact ⟨order,acked,batches,bounded,returned,running,empty,filling,ended⟩
  | @hold job rest waits queued short =>
    refine ⟨?_,acked,batches,Nat.le_of_lt short,by simp,by simp,by simp,fun _ => ⟨by simp,short⟩,by simp⟩
    change w.accepted = _ ++ (w.buf ++ [job]) ++ rest
    rw [order,queued]
    simp
  | @fill _ job rest waits queued full flush =>
    refine @flushesKept crates batchSize {w with queue := rest} w' _ _ ?_ acked batches
      (List.append_ne_nil_of_right_ne_nil _ (List.cons_ne_nil _ _)) ?_ ?_ (.inl rfl) flush
    · change w.accepted = _ ++ (w.buf ++ [job]) ++ rest
      rw [order,queued]
      simp
    · rw [List.length_append,List.length_singleton]
      rcases waits with receiving | collecting
      · rw [empty receiving]
        exact positive
      · exact (filling collecting).2
    · rcases unbroken with mapped | stored
      · exact .inl mapped
      · refine .inr fun other mem => stored other ?_
        rw [inHand,queued]
        exact mem
  | idle waits drained closed =>
    exact ⟨order,acked,batches,bounded,fun _ => ⟨empty waits,drained⟩,by simp,by simp,by simp,fun _ => closed⟩
  | last waits drained closed flush =>
    obtain ⟨some',short⟩ := filling waits
    refine flushesKept order acked batches some' (Nat.le_of_lt short) ?_ (.inr ⟨rfl,drained,closed⟩) flush
    rcases unbroken with mapped | stored
    · exact .inl mapped
    · exact .inr fun other mem => stored other (List.mem_append_left _ mem)
  | tick waits some' flush =>
    exact flushesKept order acked batches some' (Nat.le_of_lt (filling waits).2) unbroken (.inl rfl) flush

section Progress

theorem Kept.waits (kept : Kept batchSize w) (live : w.phase ≠ .returned) : w.phase = .receiving ∨ w.phase = .collecting := by
  have running := kept.running
  cases phase : w.phase with
  | receiving => exact .inl rfl
  | collecting => exact .inr rfl
  | returned => exact absurd phase live
  | panicked => exact absurd phase running

theorem Kept.receives (kept : Kept batchSize w) (live : w.phase ≠ .returned) (some' : w.queue ≠ [] ∨ w.closed = true) :
    ∃ w', Step crates batchSize w .receive w' := by
  have waits := kept.waits live
  cases queued : w.queue with
  | cons job rest =>
    by_cases short : (w.buf ++ [job]).length < batchSize
    · exact ⟨_,.hold waits queued short⟩
    · obtain ⟨w',flush⟩ := @flushesSome crates {w with queue := rest} (w.buf ++ [job]) .receiving
      exact ⟨w',.fill waits queued (Nat.le_of_not_lt short) flush⟩
  | nil =>
    have closed : w.closed = true := some'.resolve_left fun full => full queued
    rcases waits with receiving | collecting
    · exact ⟨_,.idle receiving queued closed⟩
    · obtain ⟨w',flush⟩ := @flushesSome crates w w.buf .returned
      exact ⟨w',.last collecting queued closed flush⟩

theorem Kept.ticks (kept : Kept batchSize w) (some' : w.buf ≠ []) : ∃ w', Step crates batchSize w .tick w' := by
  have live : w.phase ≠ .returned := fun ended => some' (kept.returned ended).1
  have collecting := (kept.waits live).resolve_left fun receiving => some' (kept.empty receiving)
  obtain ⟨w',flush⟩ := @flushesSome crates w w.buf .receiving
  exact ⟨w',.tick collecting some' flush⟩

theorem flushesFlushed {batch : List PipelineJob} {next : WorkerPhase} (flush : Flushes crates w batch next w') :
    w'.flushed.flatten.length = w.flushed.flatten.length + batch.length ∧ w'.buf = [] := by
  cases flush <;> simp

theorem stepGrows {event : WorkerEvent} (step : Step crates batchSize w event w') :
    w.flushed.flatten.length ≤ w'.flushed.flatten.length ∧ (w.phase = .returned → w'.phase = .returned) := by
  cases step with
  | send _ _ => exact ⟨Nat.le_refl _,id⟩
  | close => exact ⟨Nat.le_refl _,id⟩
  | other _ => exact ⟨Nat.le_refl _,id⟩
  | hold waits _ _ => exact ⟨Nat.le_refl _,fun ended => by rw [ended] at waits; simp at waits⟩
  | fill waits _ _ flush =>
    exact ⟨by rw [(flushesFlushed flush).1]; exact Nat.le_add_right _ _,fun ended => by rw [ended] at waits; simp at waits⟩
  | idle waits _ _ => exact ⟨Nat.le_refl _,fun _ => rfl⟩
  | last waits _ _ flush =>
    exact ⟨by rw [(flushesFlushed flush).1]; exact Nat.le_add_right _ _,fun ended => by rw [ended] at waits; cases waits⟩
  | tick waits _ flush =>
    exact ⟨by rw [(flushesFlushed flush).1]; exact Nat.le_add_right _ _,fun ended => by rw [ended] at waits; cases waits⟩

/- A batch flushed makes up for the room it leaves in the buffer. -/
theorem delayFlushed {n old batch size buf : Nat} (some' : 1 ≤ batch) (few : old + batch ≤ n) (short : buf < size) :
    (n + 1 - (old + batch)) * size + size + 1 ≤ (n + 1 - old) * size + (size - buf) := by
  have less : n + 1 - (old + batch) + 1 ≤ n + 1 - old := by omega
  have scaled := Nat.mul_le_mul_right size less
  rw [Nat.add_mul,Nat.one_mul] at scaled
  omega

/- A step of the worker brings every job not yet flushed nearer to its flush. -/
theorem Kept.nearer {event : WorkerEvent} {n : Nat} (positive : 1 ≤ batchSize) (kept : Kept batchSize w)
    (step : Step crates batchSize w event w') (live : w'.phase ≠ .returned) (waits : w'.flushed.flatten.length ≤ n) :
    (if isOwn event then 1 else 0) + w'.delay batchSize n ≤ w.delay batchSize n := by
  have flushing {batch : List PipelineJob} (some' : batch ≠ []) (short : w.buf.length < batchSize)
      (flushed : w'.flushed.flatten.length = w.flushed.flatten.length + batch.length ∧ w'.buf = []) :
      1 + w'.delay batchSize n ≤ w.delay batchSize n := by
    have more := List.length_pos_of_ne_nil some'
    have less := delayFlushed more (flushed.1 ▸ waits) short
    rw [delay,delay,flushed.1,flushed.2,List.length_nil,Nat.sub_zero]
    omega
  have room : w.phase = .receiving ∨ w.phase = .collecting → w.buf.length < batchSize := by
    rintro (receiving | collecting)
    · rw [kept.empty receiving]
      exact positive
    · exact (kept.filling collecting).2
  cases step with
  | send _ _ => exact Nat.le_of_eq (Nat.zero_add _)
  | close => exact Nat.le_of_eq (Nat.zero_add _)
  | other _ => exact Nat.le_of_eq (Nat.zero_add _)
  | hold _ _ short =>
    rw [List.length_append,List.length_singleton] at short
    simp only [isOwn,delay,if_pos,List.length_append,List.length_singleton]
    omega
  | fill phase _ _ flush =>
    have flushed := flushesFlushed flush
    exact flushing (List.append_ne_nil_of_right_ne_nil _ (List.cons_ne_nil _ _)) (room phase) flushed
  | idle _ _ _ => exact absurd rfl live
  | last phase _ _ flush => exact flushing (kept.filling phase).1 (room (.inr phase)) (flushesFlushed flush)
  | tick phase some' flush => exact flushing some' (room (.inr phase)) (flushesFlushed flush)

theorem runGrows {events : List WorkerEvent} (run : Run (Guarded (Unbroken crates) (Step crates batchSize)) w events w') :
    w.flushed.flatten.length ≤ w'.flushed.flatten.length ∧ (w.phase = .returned → w'.phase = .returned) := by
  induction run with
  | nil => exact ⟨Nat.le_refl _,id⟩
  | cons first _ ih =>
    obtain ⟨grown,ends⟩ := stepGrows first.2
    exact ⟨Nat.le_trans grown ih.1,fun ended => ih.2 (ends ended)⟩

theorem Kept.prompt {events : List WorkerEvent} {n : Nat} (positive : 1 ≤ batchSize) (kept : Kept batchSize w)
    (run : Run (Guarded (Unbroken crates) (Step crates batchSize)) w events w') (live : w'.phase ≠ .returned)
    (waits : w'.flushed.flatten.length ≤ n) : events.countP isOwn ≤ w.delay batchSize n := by
  induction run with
  | nil => exact Nat.zero_le _
  | cons first later ih =>
    obtain ⟨grown,ends⟩ := runGrows later
    have near := kept.nearer positive first.2 (fun ended => live (ends ended)) (Nat.le_trans grown waits)
    have rest := ih (keptStep positive kept first.1 first.2) live waits
    rw [List.countP_cons]
    omega

theorem Kept.delivered (positive : 1 ≤ batchSize) (kept : Kept batchSize w) : Delivered crates batchSize w where
  order := kept.order
  acked := kept.acked
  batches := kept.batches
  bounded := kept.bounded
  returned ended := by
    obtain ⟨empty,drained⟩ := kept.returned ended
    have all : w.flushed.flatten = w.accepted := by rw [kept.order,empty,drained,List.append_nil,List.append_nil]
    exact ⟨empty,drained,kept.ended ended,all,all ▸ kept.acked⟩
  receives := kept.receives
  ticks := kept.ticks
  prompt _ _ _ run live waits := kept.prompt positive run live waits

end Progress

end Worker

/- In every run in which no flush finds the file unmapped with a new canonical job, every
accepted job is flushed once, in order and after a bounded number of steps, and acknowledged once. -/
theorem pipelineDelivers {crates : Crates} {batchSize : Nat} (positive : 1 ≤ batchSize) {store : Store}
    {events : List WorkerEvent} {w : Worker}
    (run : Run (Guarded (Worker.Unbroken crates) (Worker.Step crates batchSize)) (.start store) events w) :
    w.Delivered crates batchSize :=
  (run.invariant Worker.keptStart fun _ _ _ kept both => Worker.keptStep positive kept both.1 both.2).delivered positive

namespace Sample
open Worker

def firstJob : PipelineJob := ⟨block 1 0 1,true,0⟩

def secondJob : PipelineJob := ⟨block 2 1 2,true,1⟩

def flushOf (job : PipelineJob) (store : Store) (script : List Event) : World Ledger :=
  (Pipeline.flushPipelineBatch crates [job] ⟨⟨store,[]⟩,script⟩).2

def sentOne (job : PipelineJob) (w : Worker) : Worker := {w with queue := w.queue ++ [job],accepted := w.accepted ++ [job]}

def received (job : PipelineJob) (phase : WorkerPhase) (script : List Event) (w : Worker) : Worker := {w with
  queue := w.queue.tail,phase := phase,buf := [],store := (flushOf job w.store script).state.store
  sent := w.sent ++ (flushOf job w.store script).state.sent,flushed := w.flushed ++ [[job]]}

theorem receivedStep {job : PipelineJob} {rest : List PipelineJob} {script : List Event} {w : Worker}
    (waits : w.phase = .receiving) (queued : w.queue = job :: rest) (empty : w.buf = [])
    (finishes : (Pipeline.flushPipelineBatch crates [job] ⟨⟨w.store,[]⟩,script⟩).1 = .ok ()) :
    Step crates 1 w .receive (received job .receiving script w) := by
  have ran : Pipeline.flushPipelineBatch crates [job] ⟨⟨w.store,[]⟩,script⟩ =
      (.ok (),⟨(flushOf job w.store script).state,(flushOf job w.store script).script⟩) := by
    rw [← finishes]
    rfl
  refine .fill (.inl waits) queued (by simp) ?_
  rw [empty,received,queued]
  refine @Flushes.done _ _ _ _ script (flushOf job w.store script).script _ (.ok ()) ?_
  simp only [List.nil_append,Op.attempt,ran]

theorem panickedStep {job : PipelineJob} {rest : List PipelineJob} {script : List Event} {w : Worker} {message : String}
    (waits : w.phase = .receiving) (queued : w.queue = job :: rest) (empty : w.buf = [])
    (panics : (Pipeline.flushPipelineBatch crates [job] ⟨⟨w.store,[]⟩,script⟩).1 = .error (.panic message)) :
    Step crates 1 w .receive (received job .panicked script w) := by
  refine .fill (.inl waits) queued (by simp) ?_
  rw [empty,received,queued]
  refine @Flushes.panic _ _ _ _ script (flushOf job w.store script).script _ message ?_
  rw [List.nil_append,← panics]
  rfl

def oneFlushed (script : List Event) : Worker := received firstJob .receiving script (sentOne firstJob (.start (.created config)))

def shut (script : List Event) : Worker := {oneFlushed script with closed := true}

def drained (script : List Event) : Worker := {shut script with phase := .returned}

def bothFlushed : Worker := received secondJob .panicked [] (sentOne secondJob (oneFlushed [.ok,.ok,.fail "disk full"]))

end Sample

theorem pipelineDeliversSample : (Sample.drained []).phase = .returned ∧ (Sample.drained []).sent = [(0,.ok true)] ∧
    (Sample.drained []).Delivered Sample.crates 1 := by
  have mapped : Worker.Mapped (.created Sample.config) := fun d dense => by cases dense; rfl
  have flushes : Worker.Step Sample.crates 1 (Sample.sentOne Sample.firstJob (.start (.created Sample.config))) .receive
      (Sample.oneFlushed []) := @Sample.receivedStep Sample.firstJob [] [] _ rfl rfl rfl (by decide +kernel)
  have closes : Worker.Step Sample.crates 1 (Sample.oneFlushed []) .close (Sample.shut []) := .close (Sample.oneFlushed [])
  have ends : Worker.Step Sample.crates 1 (Sample.shut []) .receive {Sample.shut [] with phase := .returned} :=
    .idle rfl rfl rfl
  refine ⟨rfl,by decide +kernel,@pipelineDelivers Sample.crates 1 (Nat.le_refl 1) (.created Sample.config)
    [.send Sample.firstJob,.receive,.close,.receive] _ (.cons ⟨.inl mapped,.send Sample.firstJob rfl⟩ (.cons ⟨.inl mapped,flushes⟩
      (.cons ⟨.inr fun _ bad => ?_,closes⟩ (.cons ⟨.inr fun _ bad => ?_,ends⟩ (.nil _)))))⟩
  · cases bad
  · cases bad

/- The file cannot grow for the first job and is left unmapped; the flush of the second panics. -/
theorem pipelineLoses : Opened Sample.crates (.created Sample.config) ∧
    Run (Worker.Step Sample.crates 1) (.start (.created Sample.config))
      [.send Sample.firstJob,.receive,.send Sample.secondJob,.receive] Sample.bothFlushed ∧
    ¬Sample.bothFlushed.Delivered Sample.crates 1 := by
  refine ⟨Store.createdOpened _ _,?_,fun delivered => ?_⟩
  · have first : (Pipeline.flushPipelineBatch Sample.crates [Sample.firstJob]
        ⟨⟨.created Sample.config,[]⟩,[.ok,.ok,.fail "disk full"]⟩).1 = .ok () := by decide +kernel
    have second : (Pipeline.flushPipelineBatch Sample.crates [Sample.secondJob]
        ⟨⟨(Sample.oneFlushed [.ok,.ok,.fail "disk full"]).store,[]⟩,[]⟩).1 =
          .error (.panic "canonical.bin: mmap must be installed after open/remap") := by decide +kernel
    refine .cons (.send Sample.firstJob rfl) (.cons (Sample.receivedStep rfl rfl rfl first) ?_)
    exact .cons (.send Sample.secondJob rfl) (.cons (Sample.panickedStep rfl rfl rfl second) (.nil _))
  · have same := delivered.acked.length_eq
    revert same
    decide +kernel

end DigBlockstore
