import DigBlockstore.PruneEffects

/-! A pipeline flush whose acknowledgements are all Ok: the rows it staged, the batch and
slots they became, and what that does to the index. -/
namespace DigBlockstore
open ByteCodec Faulty ColumnStore PartialMap
namespace Pipeline
open Store
variable {crates : Crates} {l l' : Ledger} {s t u : Store}

/- A row staged for one of the jobs, against the store the flush began with. -/
structure StagedFor (crates : Crates) (s : Store) (jobs : List PipelineJob) (row : StagedRow) : Prop where
  hash : row.hash = row.block.hash crates
  job : ⟨row.block,row.canonical,row.ack⟩ ∈ jobs
  absent : (s.db .blocks)[hashKey row.hash]? = none
  body : s.serializeBlock crates row.block = .ok row.compressed
  header : Store.serializeHeader crates row.block.header = .ok row.headerBytes

structure Staged (crates : Crates) (s : Store) (jobs : List PipelineJob) (seen : List Bytes32)
    (staged : List StagedRow) : Prop where
  rows : ∀ row ∈ staged, StagedFor crates s jobs row
  distinct : (staged.map StagedRow.hash).Nodup
  unseen : ∀ row ∈ staged, row.hash ∉ seen

theorem StagedFor.later {jobs : List PipelineJob} {row : StagedRow} (staged : StagedFor crates s jobs row)
    (job : PipelineJob) : StagedFor crates s (job :: jobs) row :=
  ⟨staged.hash,List.mem_cons_of_mem _ staged.job,staged.absent,staged.body,staged.header⟩

theorem sendRuns {ack : Nat} {result : Except BlockStoreError Bool} {r : Exit Unit}
    (h : Runs (send ack result) l r l') : r = .ok () ∧ l' = ⟨l.store,l.sent ++ [(ack,result)]⟩ := runsModify.mp h

theorem sendNone {ack : Nat} {result : Except BlockStoreError Bool} {r : Exit (Option StagedRow)}
    (h : Runs (do send ack result; pure none) l r l') : r = .ok none ∧ l'.store = l.store := by
  obtain ⟨_,v,one,last⟩ | ⟨e,_,one⟩ := runsBind h
  · obtain ⟨rfl,rfl⟩ := runsPure.mp last
    exact ⟨rfl,by rw [(sendRuns one).2]⟩
  · cases (sendRuns one).1

theorem stageJobRuns {job : PipelineJob} {r : Exit (Option StagedRow)} (h : Runs (stageJob crates job) l r l') :
    l'.store = l.store ∧ ∀ row, r = .ok (some row) →
      row.block = job.block ∧ StagedFor crates l.store [job] row := by
  unfold stageJob at h
  rw [runsGetBind] at h
  rcases runsBind h with ⟨step,u,one,later⟩ | ⟨e,rfl,one⟩
  · have same : u = l := by
      rcases runsAttempt one with ⟨a,_,run⟩ | ⟨e,_,run⟩ | ⟨e,_,run⟩ <;> exact (runsStep.mp run).1
    subst same
    split at later
    · obtain ⟨rfl,same⟩ := sendNone later
      exact ⟨same,fun row found => by cases found⟩
    · split at later
      · obtain ⟨rfl,same⟩ := sendNone later
        exact ⟨same,fun row found => by cases found⟩
      · rename_i absent
        split at later
        · obtain ⟨rfl,same⟩ := sendNone later
          exact ⟨same,fun row found => by cases found⟩
        · rename_i compressed body
          split at later
          · obtain ⟨rfl,same⟩ := sendNone later
            exact ⟨same,fun row found => by cases found⟩
          · rename_i headerBytes header
            obtain ⟨rfl,rfl⟩ := runsPure.mp later
            refine ⟨rfl,fun row found => ?_⟩
            cases found
            exact ⟨rfl,rfl,by simp,by simpa using absent,body,header⟩
  · have same : l' = l := by
      rcases runsAttempt one with ⟨a,_,run⟩ | ⟨e,_,run⟩ | ⟨e,_,run⟩ <;> exact (runsStep.mp run).1
    exact ⟨by rw [same],fun row found => by cases found⟩

theorem stageRuns {seen : List Bytes32} {jobs : List PipelineJob} {r : Exit (List StagedRow)}
    (h : Runs (stage crates seen jobs) l r l') :
    l'.store = l.store ∧ ∀ staged, r = .ok staged → Staged crates l.store jobs seen staged := by
  induction jobs generalizing seen l l' r with
  | nil =>
    obtain ⟨rfl,rfl⟩ := runsPure.mp h
    refine ⟨rfl,fun staged found => ?_⟩
    cases found
    exact ⟨by simp,by simp,by simp⟩
  | cons job rest ih =>
    dsimp only [stage] at h
    split at h
    · rcases runsBind h with ⟨_,u,one,later⟩ | ⟨e,_,one⟩
      · obtain ⟨same,rows⟩ := ih later
        have kept : u.store = l.store := by rw [(sendRuns one).2]
        rw [kept] at same rows
        exact ⟨same,fun staged found => ⟨fun row mem => ((rows staged found).rows row mem).later job,
          (rows staged found).distinct,(rows staged found).unseen⟩⟩
      · cases (sendRuns one).1
    · rename_i unseen
      rcases runsBind h with ⟨row,u,one,later⟩ | ⟨e,rfl,one⟩
      · obtain ⟨kept,here⟩ := stageJobRuns one
        rcases runsBind later with ⟨rows,v,more,last⟩ | ⟨e,rfl,more⟩
        · obtain ⟨same,staged⟩ := ih more
          rw [kept] at same staged
          obtain ⟨rfl,rfl⟩ := runsPure.mp last
          refine ⟨same,fun all found => ?_⟩
          have found' := Except.ok.inj found
          subst found'
          have tail := staged rows rfl
          cases row with
          | none =>
            exact ⟨fun row mem => (tail.rows row mem).later job,tail.distinct,
              fun row mem old => tail.unseen row mem (List.mem_cons_of_mem _ old)⟩
          | some first =>
            obtain ⟨block,head⟩ := here first rfl
            have hash : first.hash = job.block.hash crates := by rw [head.hash,block]
            refine ⟨fun row mem => ?_,?_,fun row mem old => ?_⟩
            · rcases List.mem_cons.mp mem with rfl | older
              · exact ⟨head.hash,by simpa using Or.inl (List.mem_singleton.mp head.job),head.absent,head.body,
                  head.header⟩
              · exact (tail.rows row older).later job
            · refine List.nodup_cons.mpr ⟨fun mem => ?_,tail.distinct⟩
              obtain ⟨row,inside,same⟩ := List.mem_map.mp mem
              exact tail.unseen row inside (by rw [same,hash]; simp)
            · rcases List.mem_cons.mp mem with rfl | older
              · exact unseen (by rwa [hash] at old)
              · exact tail.unseen row older (List.mem_cons_of_mem _ old)
        · obtain ⟨same,_⟩ := ih more
          exact ⟨same.trans kept,fun staged found => by cases found⟩
      · exact ⟨(stageJobRuns one).1,fun staged found => by cases found⟩

def canonicalRows (staged : List StagedRow) : List (UInt64 × Bytes32) :=
  (staged.filter StagedRow.canonical).map fun row => (row.block.height,row.hash)

/- The caches filled row by row, each time with a chance of training the dictionary. -/
inductive Cached (crates : Crates) : List StagedRow → Store → Store → Prop where
  | nil (s : Store) : Cached crates [] s s
  | cons {row : StagedRow} {rest : List StagedRow} {s t u : Store} (here : Trained (s.cacheBlock crates row.block) u) (later : Cached crates rest u t) :
      Cached crates (row :: rest) s t

theorem Cached.quiet {staged : List StagedRow} (cached : Cached crates staged s t) : Quiet s t := by
  induction cached with
  | nil s => exact .refl s
  | cons here _ ih => exact ((quietCacheBlock _).trans here.quiet).trans ih

theorem onStoreRuns {α : Type} {m : StoreM α} {r : Exit α} (h : Runs (onStore m) l r l') :
    Runs m l.store r l'.store ∧ l'.sent = l.sent := by
  obtain ⟨d,run,rfl⟩ := runsZoom h
  exact ⟨run,rfl⟩

theorem sendAllRuns {rows : List StagedRow} {message : String} {r : Exit Unit}
    (h : Runs (sendAll rows message) l r l') :
    l'.store = l.store ∧ (rows ≠ [] → ∃ ack e, (ack,.error e) ∈ l'.sent) := by
  induction rows generalizing l with
  | nil => exact ⟨by rw [(runsPure.mp h).2],fun some => absurd rfl some⟩
  | cons row rest ih =>
    rcases runsBind h with ⟨_,u,one,later⟩ | ⟨e,_,one⟩
    · obtain ⟨same,_⟩ := ih later
      obtain ⟨_,sent⟩ := sendRuns one
      refine ⟨by rw [same,sent],fun _ => ⟨row.ack,.serialization message,?_⟩⟩
      refine runsForEach (I := fun l : Ledger => (row.ack,.error (.serialization message)) ∈ l.sent) later
        (by rw [sent]; simp) fun other _ v w r kept turn => ?_
      rw [(sendRuns turn).2]
      exact List.mem_append_left _ kept
    · cases (sendRuns one).1

theorem writeBinsOk {staged : List StagedRow} {v : Unit} (h : Runs (writeBins staged) s (.ok v) t) :
    (∀ row ∈ staged, row.canonical = true → s.canonicalBin.Accepts row.block.height) ∧
      t = {s with canonicalBin := s.canonicalBin.writtenAll (canonicalRows staged)} := by
  induction staged generalizing s with
  | nil => exact ⟨by simp,(runsPure.mp h).2⟩
  | cons row rest ih =>
    obtain ⟨_,u,one,later⟩ := runsBindOk h
    obtain ⟨fits,same⟩ := ih later
    dsimp only at one
    split at one
    · rename_i canonical
      obtain ⟨here,rfl⟩ := Store.extendWriteRuns one
      refine ⟨fun other mem yes => ?_,?_⟩
      · rcases List.mem_cons.mp mem with rfl | older
        · exact here
        · simpa [Store.writeSlot] using fits other older yes
      · rw [same]
        simp [canonicalRows,canonical,Store.writeSlot]
    · rename_i aside
      obtain ⟨_,rfl⟩ := runsPure.mp one
      refine ⟨fun other mem yes => ?_,?_⟩
      · rcases List.mem_cons.mp mem with rfl | older
        · exact absurd yes aside
        · exact fits other older yes
      · rw [same]
        simp [canonicalRows,aside]

theorem cacheRowRuns {row : StagedRow} {v : Unit} (hash : row.hash = row.block.hash crates)
    (h : Runs (cacheRow crates row) l (.ok v) l') : Trained (l.store.cacheBlock crates row.block) l'.store := by
  obtain ⟨_,u,one,rest⟩ := runsBindOk h
  obtain ⟨_,w,two,rest'⟩ := runsBindOk rest
  obtain ⟨_,x,three,rest''⟩ := runsBindOk rest'
  obtain ⟨training,y,four,last⟩ := runsBindOk rest''
  have filled : x.store = l.store.cacheBlock crates row.block := by
    rw [(runsModify.mp (onStoreRuns three).1).2,(runsModify.mp (onStoreRuns two).1).2,
      (runsModify.mp (onStoreRuns one).1).2,hash]
    rfl
  have trained : Trained x.store y.store := by
    rcases runsAttempt four with ⟨a,_,run⟩ | ⟨e,_,run⟩ | ⟨e,bad,_⟩
    · exact maybeTrainRuns (onStoreRuns run).1
    · exact maybeTrainRuns (onStoreRuns run).1
    · cases bad
  rw [filled] at trained
  cases training with
  | ok a => rw [(sendRuns last).2]; exact trained
  | error e => rw [(sendRuns last).2]; exact trained

theorem cacheAllRuns {staged : List StagedRow} {v : Unit} (hash : ∀ row ∈ staged, row.hash = row.block.hash crates)
    (h : Runs (Op.forEach (cacheRow crates) staged) l (.ok v) l') : Cached crates staged l.store l'.store := by
  induction staged generalizing l with
  | nil =>
    rw [(runsPure.mp h).2]
    exact .nil _
  | cons row rest ih =>
    obtain ⟨_,u,one,later⟩ := runsBindOk h
    exact .cons (cacheRowRuns (hash row (by simp)) one)
      (ih (fun other mem => hash other (List.mem_cons_of_mem _ mem)) later)

def flushed (staged : List StagedRow) (s : Store) : Store :=
  {s.commit (staged.flatMap rowWrites) with canonicalBin := s.canonicalBin.writtenAll (canonicalRows staged)}

theorem commitOk {staged : List StagedRow} {v : Unit} (some' : staged ≠ [])
    (hash : ∀ row ∈ staged, row.hash = row.block.hash crates) (h : Runs (commit crates staged) l (.ok v) l') :
    (∃ ack e, (ack,.error e) ∈ l'.sent) ∨
      (∀ row ∈ staged, row.canonical = true → l.store.canonicalBin.Accepts row.block.height) ∧
        Cached crates staged (flushed staged l.store) l'.store := by
  obtain ⟨wrote,u,one,later⟩ := runsBindOk h
  cases wrote with
  | error e => exact .inl ((sendAllRuns later).2 some')
  | ok done =>
    obtain ⟨slots,w,two,caching⟩ := runsBindOk later
    cases slots with
    | error e => exact .inl ((sendAllRuns caching).2 some')
    | ok done' =>
      have batch : u.store = l.store.commit (staged.flatMap rowWrites) := by
        rcases runsAttempt one with ⟨a,_,run⟩ | ⟨e,bad,_⟩ | ⟨e,bad,_⟩
        · exact writeOk (onStoreRuns run).1
        · cases bad
        · cases bad
      rcases runsAttempt two with ⟨a,_,run⟩ | ⟨e,bad,_⟩ | ⟨e,bad,_⟩
      · obtain ⟨fits,same⟩ := writeBinsOk (onStoreRuns run).1
        have cached := cacheAllRuns hash caching
        rw [same,batch] at cached
        rw [batch] at fits
        exact .inr ⟨fits,cached⟩
      · cases bad
      · cases bad

end Pipeline

namespace Store
open Pipeline
variable {crates : Crates} {s t : Store}

theorem flushBatchRuns {jobs : List PipelineJob} {acks : List (Nat × Except BlockStoreError Bool)}
    (h : Runs (Store.flushPipelineBatch crates jobs) s (.ok acks) t) :
    ∃ l, Runs (Pipeline.flushPipelineBatch crates jobs) ⟨s,[]⟩ (.ok ()) l ∧ t = l.store ∧ acks = l.sent := by
  obtain ⟨script,rest,h⟩ := h
  unfold Store.flushPipelineBatch at h
  split at h <;> rename_i w run <;> injection h with hr hw <;> injection hw with ht hs
  · exact ⟨w.state,⟨script,w.script,run⟩,ht.symm,(Except.ok.inj hr).symm⟩
  · cases hr

theorem acksOk {acks : List (Nat × Except BlockStoreError Bool)} {v : Unit}
    (h : Runs (Op.forEach (fun ack : Nat × Except BlockStoreError Bool => discard (Op.ofExcept ack.2)) acks)
      s (.ok v) t) : t = s ∧ ∀ ack e, (ack,.error e) ∉ acks := by
  induction acks generalizing s with
  | nil => exact ⟨(runsPure.mp h).2,by simp⟩
  | cons ack rest ih =>
    obtain ⟨_,u,one,later⟩ := runsBindOk h
    obtain ⟨_,w,answer,last⟩ := runsBindOk one
    obtain ⟨same,rfl⟩ := runsOfExceptOk answer
    obtain ⟨_,rfl⟩ := runsPure.mp last
    obtain ⟨rfl,none'⟩ := ih later
    refine ⟨rfl,fun n e mem => ?_⟩
    rcases List.mem_cons.mp mem with here | older
    · rw [← here] at same
      cases same
    · exact none' n e older

theorem flushOkOk {jobs : List PipelineJob} {v : Unit} (h : Runs (flushOk crates jobs) s (.ok v) t) :
    t = s ∨ ∃ staged, s.readOnly = false ∧ Staged crates s jobs [] staged ∧
      (∀ row ∈ staged, row.canonical = true → s.canonicalBin.Accepts row.block.height) ∧
      Cached crates staged (flushed staged s) t := by
  obtain ⟨acks,u,flushing,answers⟩ := runsBindOk h
  obtain ⟨l,run,rfl,rfl⟩ := flushBatchRuns flushing
  obtain ⟨rfl,clean⟩ := acksOk answers
  unfold Pipeline.flushPipelineBatch at run
  rw [runsGetBind] at run
  split at run
  · refine .inl ?_
    exact runsForEach (I := fun l : Ledger => l.store = s) run rfl fun job _ v w r kept turn => by
      rw [(sendRuns turn).2]
      exact kept
  · rename_i writes
    obtain ⟨staged,w,staging,committing⟩ := runsBindOk run
    obtain ⟨kept,rows⟩ := stageRuns staging
    have plan := rows staged rfl
    split at committing
    · rw [(runsPure.mp committing).2]
      exact .inl kept
    · rename_i some'
      rcases commitOk some' (fun row mem => (plan.rows row mem).hash) committing with ⟨ack,e,bad⟩ | ⟨fits,cached⟩
      · exact absurd bad (clean ack e)
      · rw [kept] at fits cached
        exact .inr ⟨staged,by simpa using writes,plan,fits,cached⟩

theorem rowWritesTyped (staged : List StagedRow) : ∀ write ∈ staged.flatMap rowWrites, TypedWrite write := by
  intro write mem
  obtain ⟨row,_,inside⟩ := List.mem_flatMap.mp mem
  rcases List.mem_append.mp inside with body | here
  · exact typedAside (asideBodyRows _ _ _ write body)
  · split at here
    · rw [List.mem_singleton.mp here]
      exact typedCanonicalRow _ _
    · cases here

theorem rowWritesMetadata (staged : List StagedRow) (db : Db) (key : Bytes) :
    (applyAll (staged.flatMap rowWrites) db .metadata)[key]? = (db .metadata)[key]? := by
  apply ColumnStore.frame
  intro write mem
  obtain ⟨row,_,inside⟩ := List.mem_flatMap.mp mem
  rcases List.mem_append.mp inside with body | here
  · simp only [bodyRows,List.mem_cons,List.not_mem_nil,or_false] at body
    rcases body with rfl | rfl <;> simp [effectPut]
  · split at here
    · rw [List.mem_singleton.mp here]
      exact metadataCanonicalRow _ _ _
    · cases here

theorem rowWritesCanonical (staged : List StagedRow) (db : Db) :
    canonicalAt (applyAll (staged.flatMap rowWrites) db) = putAll (canonicalRows staged) (canonicalAt db) := by
  induction staged generalizing db with
  | nil => rfl
  | cons row rest ih =>
    rw [List.flatMap_cons,applyAllAppend,ih,rowWrites,applyAllAppend]
    cases canonical : row.canonical with
    | true =>
      rw [if_pos rfl,canonicalAtPut,canonicalAtAside (asideBodyRows _ _ _)]
      simp [canonicalRows,canonical]
    | false =>
      rw [if_neg (by simp)]
      change putAll (canonicalRows rest) (canonicalAt (applyAll (bodyRows _ _ _) db)) = _
      rw [canonicalAtAside (asideBodyRows _ _ _)]
      simp [canonicalRows,canonical]

theorem flushedShift {staged : List StagedRow} (indexed : Indexed s) (writes : s.readOnly = false)
    (cached : Cached crates staged (flushed staged s) t) :
    Shift s t (putAll (canonicalRows staged) (canonicalAt s.db)) s.tip s.minRetainedHeightCached fun _ => True := by
  refine .andQuiet ?_ cached.quiet
  exact shiftCommit indexed (rowWritesTyped staged) (rowWritesCanonical staged s.db)
    (indexed.bin.writeAll (indexed.writable writes) _)
    ((CanonicalBin.writtenAllWritable ..).trans (indexed.writable writes))
    ((rowWritesMetadata ..).trans indexed.tipRow) (rowWritesMetadata ..)

theorem flushShift {jobs : List PipelineJob} {v : Unit} (indexed : Indexed s)
    (h : Runs (flushOk crates jobs) s (.ok v) t) :
    ∃ staged, (staged ≠ [] → s.readOnly = false) ∧ Staged crates s jobs [] staged ∧
      Shift s t (putAll (canonicalRows staged) (canonicalAt s.db)) s.tip s.minRetainedHeightCached fun _ => True := by
  rcases flushOkOk h with rfl | ⟨staged,writes,plan,_,cached⟩
  · exact ⟨[],by simp,⟨by simp,by simp,by simp⟩,.ofQuiet (.refl _) indexed⟩
  · exact ⟨staged,fun _ => writes,plan,flushedShift indexed writes cached⟩

end Store
end DigBlockstore
