import DigBlockstore.Sample

/-! What a flush acknowledges: each job once, and a job of a repeated hash before the first
copy of it is written. -/
namespace DigBlockstore
open ByteCodec Faulty ColumnStore

abbrev Ack := Nat × Except BlockStoreError Bool

namespace Pipeline
variable {crates : Crates} {s : Store} {l : Ledger}

def firstCopies (crates : Crates) : List Bytes32 → List PipelineJob → List PipelineJob
  | _,[] => []
  | seen,job :: rest =>
      if job.block.hash crates ∈ seen then firstCopies crates seen rest
      else job :: firstCopies crates (job.block.hash crates :: seen) rest

def repeats (crates : Crates) : List Bytes32 → List PipelineJob → List PipelineJob
  | _,[] => []
  | seen,job :: rest =>
      if job.block.hash crates ∈ seen then job :: repeats crates seen rest
      else repeats crates (job.block.hash crates :: seen) rest

def verdict (crates : Crates) (s : Store) (job : PipelineJob) : Event → Except BlockStoreError Bool ⊕ StagedRow
  | .fail why => .inl (.error (.rocksDb why))
  | _ =>
      if (s.db .blocks)[hashKey (job.block.hash crates)]?.isSome then .inl (.ok false)
      else match s.serializeBlock crates job.block with
      | .error e => .inl (.error e)
      | .ok compressed => match Store.serializeHeader crates job.block.header with
        | .error e => .inl (.error e)
        | .ok headerBytes =>
            .inr ⟨job.block.hash crates,job.block,compressed,headerBytes,job.canonical,job.ack⟩

/- The rows staged and the answers sent on the way, each existence read an event of the script. -/
def staging (crates : Crates) (s : Store) : List Bytes32 → List PipelineJob → List Event → List StagedRow × List Ack
  | _,[],_ => ([],[])
  | seen,job :: rest,script =>
      if job.block.hash crates ∈ seen then
        ((staging crates s seen rest script).1,(job.ack,.ok false) :: (staging crates s seen rest script).2)
      else
        let later := staging crates s (job.block.hash crates :: seen) rest script.tail
        match verdict crates s job (eventAt script 0) with
        | .inl answer => (later.1,(job.ack,answer) :: later.2)
        | .inr row => (row :: later.1,later.2)

theorem stageJobAt (job : PipelineJob) (script : List Event) :
    stageJob crates job ⟨l,script⟩ = if eventAt script 0 = .crash then (.error .crash,⟨l,script.tail⟩)
      else match verdict crates l.store job (eventAt script 0) with
      | .inl answer => (.ok none,⟨⟨l.store,l.sent ++ [(job.ack,answer)]⟩,script.tail⟩)
      | .inr row => (.ok (some row),⟨l,script.tail⟩) := by
  simp only [stageJob,bind,Op.bind,Op.get,Op.attempt,stepAt]
  cases eventAt script 0 with
  | fail why => rfl
  | crash => rfl
  | ok =>
    simp only [reduceCtorEq,if_false,verdict]
    split
    · rfl
    · cases l.store.serializeBlock crates job.block with
      | error e => rfl
      | ok compressed =>
        cases Store.serializeHeader crates job.block.header with
        | error e => rfl
        | ok headerBytes => rfl

theorem stageAt (seen : List Bytes32) (jobs : List PipelineJob) (script : List Event) :
    (∃ i < (firstCopies crates seen jobs).length, eventAt script i = .crash) ∧
      (stage crates seen jobs ⟨l,script⟩).1 = .error .crash ∨
    stage crates seen jobs ⟨l,script⟩ = (.ok (staging crates l.store seen jobs script).1,
      ⟨⟨l.store,l.sent ++ (staging crates l.store seen jobs script).2⟩,
        script.drop (firstCopies crates seen jobs).length⟩) := by
  induction jobs generalizing seen l script with
  | nil => exact .inr (by simp [stage,staging,firstCopies]; rfl)
  | cons job rest ih =>
    unfold stage
    dsimp only [firstCopies,staging]
    split
    · rename_i old
      have sent : (send job.ack (.ok false) : FlushM Unit) ⟨l,script⟩ =
          (.ok (),⟨⟨l.store,l.sent ++ [(job.ack,.ok false)]⟩,script⟩) := rfl
      simp only [bind,Op.bind,sent]
      rcases @ih ⟨l.store,l.sent ++ [(job.ack,.ok false)]⟩ seen script with cut | done
      · exact .inl cut
      · exact .inr (by rw [done]; simp)
    · rename_i new
      simp only [bind,Op.bind,stageJobAt]
      by_cases crash : eventAt script 0 = .crash
      · exact .inl ⟨⟨0,by simp,crash⟩,by simp [crash]⟩
      · rw [if_neg crash]
        cases answer : verdict crates l.store job (eventAt script 0) with
        | inl result =>
          rcases @ih ⟨l.store,l.sent ++ [(job.ack,result)]⟩ (job.block.hash crates :: seen) script.tail with ⟨⟨i,low,cut⟩,stopped⟩ | done
          · refine .inl ⟨⟨i + 1,by simpa using low,by rwa [← eventAtTail]⟩,?_⟩
            simp only
            split <;> rename_i heq <;> simp_all
          · refine .inr ?_
            simp only [done]
            cases script <;> simp [pure]
        | inr row =>
          rcases @ih l (job.block.hash crates :: seen) script.tail with ⟨⟨i,low,cut⟩,stopped⟩ | done
          · refine .inl ⟨⟨i + 1,by simpa using low,by rwa [← eventAtTail]⟩,?_⟩
            simp only
            split <;> rename_i heq <;> simp_all
          · refine .inr ?_
            simp only [done]
            cases script <;> simp [pure]

theorem sendAllSent {rows : List StagedRow} {message : String} {l' : Ledger} {r : Exit Unit}
    (h : Runs (sendAll rows message) l r l') :
    r = .ok () ∧ l' = ⟨l.store,l.sent ++ rows.map fun row => (row.ack,.error (.serialization message))⟩ := by
  induction rows generalizing l with
  | nil =>
    obtain ⟨rfl,rfl⟩ := runsPure.mp h
    exact ⟨rfl,by simp⟩
  | cons row rest ih =>
    rcases runsBind h with ⟨_,u,one,later⟩ | ⟨e,_,one⟩
    · obtain ⟨_,rfl⟩ := sendRuns one
      obtain ⟨rfl,rfl⟩ := ih later
      exact ⟨rfl,by simp⟩
    · cases (sendRuns one).1

structure Acked (staged : List StagedRow) (l l' : Ledger) (done : List Ack) : Prop where
  sent : l'.sent = l.sent ++ done
  acks : done.map Prod.fst = staged.map StagedRow.ack
  news : ∀ ack ∈ done, ∀ added, ack.2 = .ok added → added = true
  columns : ∀ cf, cf ≠ .metadata → l'.store.db cf = l.store.db cf

theorem cacheRowAcked {row : StagedRow} {l' : Ledger} {v : Unit} (hash : row.hash = row.block.hash crates)
    (h : Runs (cacheRow crates row) l (.ok v) l') : ∃ done, Acked [row] l l' done := by
  have columns : ∀ cf, cf ≠ .metadata → l'.store.db cf = l.store.db cf := fun cf apart =>
    (cacheRowRuns hash h).column apart
  obtain ⟨_,u,one,rest⟩ := runsBindOk h
  obtain ⟨_,w,two,rest'⟩ := runsBindOk rest
  obtain ⟨_,x,three,rest''⟩ := runsBindOk rest'
  obtain ⟨training,y,four,last⟩ := runsBindOk rest''
  have kept : y.sent = l.sent := by
    have trained : y.sent = x.sent := by
      rcases runsAttempt four with ⟨a,_,run⟩ | ⟨e,_,run⟩ | ⟨e,bad,_⟩
      · exact (onStoreRuns run).2
      · exact (onStoreRuns run).2
      · cases bad
    rw [trained,(onStoreRuns three).2,(onStoreRuns two).2,(onStoreRuns one).2]
  cases training with
  | ok a =>
    obtain ⟨_,rfl⟩ := sendRuns last
    exact ⟨[(row.ack,.ok true)],by rw [← kept],rfl,by simp,columns⟩
  | error e =>
    obtain ⟨_,rfl⟩ := sendRuns last
    exact ⟨[(row.ack,.error e)],by rw [← kept],rfl,by simp,columns⟩

theorem cacheAllAcked {staged : List StagedRow} {l' : Ledger} {v : Unit}
    (hash : ∀ row ∈ staged, row.hash = row.block.hash crates)
    (h : Runs (Op.forEach (cacheRow crates) staged) l (.ok v) l') : ∃ done, Acked staged l l' done := by
  induction staged generalizing l with
  | nil =>
    obtain ⟨_,rfl⟩ := runsPure.mp h
    exact ⟨[],by simp,rfl,by simp,fun _ _ => rfl⟩
  | cons row rest ih =>
    obtain ⟨_,u,one,later⟩ := runsBindOk h
    obtain ⟨first,here⟩ := cacheRowAcked (hash row (by simp)) one
    obtain ⟨more,tail⟩ := ih (fun other mem => hash other (List.mem_cons_of_mem _ mem)) later
    refine ⟨first ++ more,by rw [tail.sent,here.sent,List.append_assoc],?_,fun ack mem => ?_,fun cf apart => ?_⟩
    · rw [List.map_append,here.acks,tail.acks]
      rfl
    · rcases List.mem_append.mp mem with head | older
      · exact here.news ack head
      · exact tail.news ack older
    · rw [tail.columns cf apart,here.columns cf apart]

theorem writeBinsDb {staged : List StagedRow} {s t : Store} {r : Exit Unit} (h : Runs (writeBins staged) s r t) :
    t.db = s.db := by
  refine runsForEach (I := fun u : Store => u.db = s.db) h rfl fun row _ u v r kept turn => ?_
  split at turn
  · obtain ⟨bin,_,rfl⟩ := Store.onBinRuns turn
    exact kept
  · rw [(runsPure.mp turn).2]
    exact kept

theorem runsAt {σ ε α : Type} {m : Op σ ε α} {s t : σ} {script rest : List Event} {r : Except (Stop ε) α}
    (h : m ⟨s,script⟩ = (r,⟨t,rest⟩)) : Runs m s r t := ⟨script,rest,h⟩

theorem commitAt {staged : List StagedRow} {l' : Ledger} {script rest : List Event}
    (hash : ∀ row ∈ staged, row.hash = row.block.hash crates)
    (h : commit crates staged ⟨l,script⟩ = (.ok (),⟨l',rest⟩)) :
    (∃ message, eventAt script 0 ≠ .ok ∧
      l' = ⟨l.store,l.sent ++ staged.map fun row => (row.ack,.error (.serialization message))⟩) ∨
    eventAt script 0 = .ok ∧ ∃ done,
      Acked staged ⟨l.store.commit (staged.flatMap rowWrites),l.sent⟩ l' done := by
  unfold commit at h
  obtain ⟨wrote,w,one,later⟩ | ⟨e,bad,_⟩ := bindAt h
  · simp only [Op.attempt,onStore,Op.zoom,Store.write,bind,Op.bind,stepAt] at one
    cases event : eventAt script 0 with
    | crash => rw [event] at one; cases one
    | fail why =>
      rw [event] at one
      cases one
      obtain ⟨_,same⟩ := sendAllSent (runsAt later)
      exact .inl ⟨_,by simp,same⟩
    | ok =>
      rw [event] at one
      cases one
      refine .inr ⟨rfl,?_⟩
      obtain ⟨slots,w,two,caching⟩ := runsBindOk (runsAt later)
      have filled : w.sent = l.sent ∧ w.store.db = (l.store.commit (staged.flatMap rowWrites)).db := by
        rcases runsAttempt two with ⟨a,_,run⟩ | ⟨e,_,run⟩ | ⟨e,bad,_⟩
        · exact ⟨(onStoreRuns run).2,writeBinsDb (onStoreRuns run).1⟩
        · exact ⟨(onStoreRuns run).2,writeBinsDb (onStoreRuns run).1⟩
        · cases bad
      cases slots with
      | error e =>
        obtain ⟨_,same⟩ := sendAllSent caching
        subst same
        refine ⟨_,by rw [filled.1],?_,?_,fun cf _ => by rw [filled.2]⟩
        · rw [List.map_map]
          rfl
        · rintro ack mem added answer
          obtain ⟨row,_,rfl⟩ := List.mem_map.mp mem
          cases answer
      | ok done =>
        obtain ⟨acks,acked⟩ := cacheAllAcked hash caching
        exact ⟨acks,by rw [acked.sent,filled.1],acked.acks,acked.news,
          fun cf apart => by rw [acked.columns cf apart,filled.2]⟩
  · cases bad

section Staging
variable {seen : List Bytes32} {jobs : List PipelineJob} {script : List Event}

theorem stagingAcks (crates : Crates) (s : Store) (seen : List Bytes32) (jobs : List PipelineJob) (script : List Event) :
    ((staging crates s seen jobs script).2.map Prod.fst ++
      (staging crates s seen jobs script).1.map StagedRow.ack).Perm (jobs.map PipelineJob.ack) := by
  induction jobs generalizing seen script with
  | nil => exact .refl _
  | cons job rest ih =>
    dsimp only [staging]
    split
    · exact (ih seen script).cons _
    · cases answer : verdict crates s job (eventAt script 0) with
      | inl result => exact (ih _ script.tail).cons _
      | inr row =>
        have ack : row.ack = job.ack := by
          unfold verdict at answer
          split at answer
          · cases answer
          · split at answer
            · cases answer
            · split at answer
              · cases answer
              · split at answer <;> cases answer
                rfl
        dsimp only
        rw [List.map_cons,List.map_cons,ack]
        exact List.perm_middle.trans ((ih _ script.tail).cons _)

theorem verdictRow {job : PipelineJob} {event : Event} (row : (s.db .blocks)[hashKey (job.block.hash crates)]? = none) :
    (∃ staged, verdict crates s job event = .inr staged) ↔
      (∀ why, event ≠ .fail why) ∧ (∃ compressed, s.serializeBlock crates job.block = .ok compressed) ∧
        ∃ headerBytes, Store.serializeHeader crates job.block.header = .ok headerBytes := by
  unfold verdict
  cases event with
  | fail why => simp
  | ok => simp only [row]; cases s.serializeBlock crates job.block <;> cases Store.serializeHeader crates job.block.header <;> simp
  | crash => simp only [row]; cases s.serializeBlock crates job.block <;> cases Store.serializeHeader crates job.block.header <;> simp

theorem verdictHash {job : PipelineJob} {event : Event} {row : StagedRow} (h : verdict crates s job event = .inr row) :
    row.hash = job.block.hash crates := by
  unfold verdict at h
  split at h
  · cases h
  · split at h
    · cases h
    · split at h
      · cases h
      · split at h <;> cases h
        rfl

theorem stagedIff (crates : Crates) (s : Store) (seen : List Bytes32) (jobs : List PipelineJob) (script : List Event)
    (row : StagedRow) : row ∈ (staging crates s seen jobs script).1 ↔
      ∃ (i : Nat) (first : PipelineJob), (firstCopies crates seen jobs)[i]? = some first ∧
        verdict crates s first (eventAt script i) = .inr row := by
  induction jobs generalizing seen script with
  | nil => simp [staging,firstCopies]
  | cons job rest ih =>
    dsimp only [staging,firstCopies]
    split
    · exact ih seen script
    · have later := ih (job.block.hash crates :: seen) script.tail
      have shift : (∃ (i : Nat) (first : PipelineJob),
          (job :: firstCopies crates (job.block.hash crates :: seen) rest)[i]? = some first ∧
            verdict crates s first (eventAt script i) = .inr row) ↔
          verdict crates s job (eventAt script 0) = .inr row ∨ row ∈ (staging crates s (job.block.hash crates :: seen) rest script.tail).1 := by
        rw [later]
        constructor
        · rintro ⟨i,first,at',answer⟩
          cases i with
          | zero => cases at'; exact .inl answer
          | succ i => exact .inr ⟨i,first,at',by rwa [eventAtTail]⟩
        · rintro (answer | ⟨i,first,at',answer⟩)
          · exact ⟨0,job,rfl,answer⟩
          · exact ⟨i + 1,first,at',by rwa [← eventAtTail]⟩
      rw [shift]
      cases answer : verdict crates s job (eventAt script 0) with
      | inl result => simp
      | inr here => simp [eq_comm]

theorem firstHashes (crates : Crates) (seen : List Bytes32) (jobs : List PipelineJob) :
    ((firstCopies crates seen jobs).map fun job => job.block.hash crates).Nodup ∧
      ∀ job ∈ firstCopies crates seen jobs, job.block.hash crates ∉ seen := by
  induction jobs generalizing seen with
  | nil => simp [firstCopies]
  | cons job rest ih =>
    unfold firstCopies
    split
    · exact ih seen
    · rename_i new
      obtain ⟨distinct,apart⟩ := ih (job.block.hash crates :: seen)
      refine ⟨List.nodup_cons.mpr ⟨fun mem => ?_,distinct⟩,fun other mem => ?_⟩
      · obtain ⟨other,inside,same⟩ := List.mem_map.mp mem
        exact apart other inside (by rw [same]; simp)
      · rcases List.mem_cons.mp mem with rfl | older
        · exact new
        · exact fun old => apart other older (List.mem_cons_of_mem _ old)

theorem firstUnique {i j : Nat} {first other : PipelineJob} (here : (firstCopies crates seen jobs)[i]? = some first)
    (there : (firstCopies crates seen jobs)[j]? = some other)
    (same : other.block.hash crates = first.block.hash crates) : i = j := by
  have inside : i < ((firstCopies crates seen jobs).map fun job => job.block.hash crates).length := by
    rw [List.length_map]
    exact (List.getElem?_eq_some_iff.mp here).1
  refine (List.getElem?_inj inside (firstHashes crates seen jobs).1).mp ?_
  rw [List.getElem?_map,List.getElem?_map,here,there,Option.map_some,Option.map_some,same]

theorem repeatsFirst {job : PipelineJob} (mem : job ∈ repeats crates seen jobs) :
    job.block.hash crates ∈ seen ∨
      ∃ first ∈ firstCopies crates seen jobs, first.block.hash crates = job.block.hash crates := by
  induction jobs generalizing seen with
  | nil => cases mem
  | cons other rest ih =>
    unfold repeats at mem
    unfold firstCopies
    split at mem
    · rename_i old
      rw [if_pos old]
      rcases List.mem_cons.mp mem with rfl | later
      · exact .inl old
      · exact ih later
    · rename_i new
      rw [if_neg new]
      rcases ih mem with old | ⟨first,inside,same⟩
      · rcases List.mem_cons.mp old with same | older
        · exact .inr ⟨other,by simp,same.symm⟩
        · exact .inl older
      · exact .inr ⟨first,List.mem_cons_of_mem _ inside,same⟩

theorem repeatsAcked {job : PipelineJob} (mem : job ∈ repeats crates seen jobs) :
    (job.ack,.ok false) ∈ (staging crates s seen jobs script).2 := by
  induction jobs generalizing seen script with
  | nil => cases mem
  | cons other rest ih =>
    unfold repeats at mem
    dsimp only [staging]
    split at mem
    · rename_i old
      rw [if_pos old]
      rcases List.mem_cons.mp mem with rfl | later
      · simp
      · exact List.mem_cons_of_mem _ (ih later)
    · rename_i new
      rw [if_neg new]
      cases verdict crates s other (eventAt script 0) with
      | inl result => exact List.mem_cons_of_mem _ (ih mem)
      | inr row => exact ih mem

theorem stagingOk {n : Nat} {added : Bool} (sent : (n,.ok added) ∈ (staging crates s seen jobs script).2) :
    added = false ∧ ∃ job ∈ jobs, job.ack = n ∧
      ((s.db .blocks)[hashKey (job.block.hash crates)]?.isSome ∨ job ∈ repeats crates seen jobs) := by
  induction jobs generalizing seen script with
  | nil => cases sent
  | cons job rest ih =>
    dsimp only [staging] at sent
    unfold repeats
    split at sent
    · rename_i old
      rw [if_pos old]
      rcases List.mem_cons.mp sent with here | older
      · cases here
        exact ⟨rfl,job,by simp,rfl,.inr (by simp)⟩
      · obtain ⟨no,other,inside,ack,why⟩ := ih older
        exact ⟨no,other,List.mem_cons_of_mem _ inside,ack,why.imp_right (List.mem_cons_of_mem _)⟩
    · rename_i new
      rw [if_neg new]
      have later : (n,.ok added) ∈ (staging crates s (job.block.hash crates :: seen) rest script.tail).2 →
          added = false ∧ ∃ other ∈ job :: rest, other.ack = n ∧
            ((s.db .blocks)[hashKey (other.block.hash crates)]?.isSome ∨
              other ∈ repeats crates (job.block.hash crates :: seen) rest) := fun older => by
        obtain ⟨no,other,inside,ack,why⟩ := ih older
        exact ⟨no,other,List.mem_cons_of_mem _ inside,ack,why⟩
      cases answer : verdict crates s job (eventAt script 0) with
      | inr row => rw [answer] at sent; exact later sent
      | inl result =>
        rw [answer] at sent
        rcases List.mem_cons.mp sent with here | older
        · cases here
          unfold verdict at answer
          split at answer
          · cases answer
          · split at answer
            · rename_i stored
              cases answer
              exact ⟨rfl,job,by simp,rfl,.inl stored⟩
            · split at answer
              · cases answer
              · split at answer <;> cases answer
        · exact later older

end Staging

/- How a flush that may write ends: the answers of staging, then those of the rows, whose
batch is written unless its event says otherwise. -/
structure Flushed (crates : Crates) (s : Store) (jobs : List PipelineJob) (script : List Event) (l : Ledger)
    (done : List Ack) : Prop where
  staged : Staged crates s jobs [] (staging crates s [] jobs script).1
  sent : l.sent = (staging crates s [] jobs script).2 ++ done
  acks : done.map Prod.fst = (staging crates s [] jobs script).1.map StagedRow.ack
  news : ∀ ack ∈ done, ∀ added, ack.2 = .ok added →
    added = true ∧ eventAt script (firstCopies crates [] jobs).length = .ok
  rows : (l.store.db .blocks) = if eventAt script (firstCopies crates [] jobs).length = .ok then
    applyAll ((staging crates s [] jobs script).1.flatMap rowWrites) s.db .blocks else s.db .blocks

theorem flushAt {jobs : List PipelineJob} {script rest : List Event} (writes : s.readOnly = false)
    (h : flushPipelineBatch crates jobs ⟨⟨s,[]⟩,script⟩ = (.ok (),⟨l,rest⟩)) :
    ∃ done, Flushed crates s jobs script l done := by
  change (if s.readOnly = true then _ else _ : FlushM Unit) ⟨⟨s,[]⟩,script⟩ = _ at h
  rw [if_neg (by simp [writes])] at h
  obtain ⟨rows,w,staging',later⟩ | ⟨e,bad,_⟩ := bindAt h
  · have plan := (stageRuns (runsAt staging')).2 rows rfl
    rcases @stageAt crates ⟨s,[]⟩ [] jobs script with ⟨_,cut⟩ | done
    · rw [staging'] at cut
      cases cut
    · rw [staging'] at done
      obtain ⟨same,world⟩ := Prod.mk.inj done
      cases same
      subst world
      dsimp only at plan later
      split at later
      · rename_i none'
        obtain ⟨_,same⟩ := runsPure.mp (runsAt later)
        subst same
        refine ⟨[],plan,by simp,by rw [none']; rfl,by simp,?_⟩
        rw [none']
        split <;> rfl
      · have zero : ∀ n, eventAt (script.drop n) 0 = eventAt script n := fun n => eventAtDrop script n 0
        rcases commitAt (fun row mem => (plan.rows row mem).hash) later with ⟨message,event,same⟩ | ⟨event,done,acked⟩
        · rw [zero] at event
          subst same
          refine ⟨_,plan,rfl,?_,fun ack mem added answer => ?_,by rw [if_neg event]⟩
          · rw [List.map_map]
            rfl
          · obtain ⟨row,_,rfl⟩ := List.mem_map.mp mem
            cases answer
        · rw [zero] at event
          refine ⟨done,plan,acked.sent,acked.acks,fun ack mem added answer => ⟨acked.news ack mem added answer,event⟩,?_⟩
          rw [if_pos event,acked.columns _ (by simp)]
          rfl
  · cases bad

theorem flushReadOnly {jobs : List PipelineJob} {script rest : List Event} (only : s.readOnly = true)
    (h : flushPipelineBatch crates jobs ⟨⟨s,[]⟩,script⟩ = (.ok (),⟨l,rest⟩)) :
    l = ⟨s,jobs.map fun job => (job.ack,.error (.serialization errMutationReadOnly))⟩ := by
  change (if s.readOnly = true then _ else _ : FlushM Unit) ⟨⟨s,[]⟩,script⟩ = _ at h
  rw [if_pos only] at h
  have all : ∀ (jobs : List PipelineJob) (l l' : Ledger) (r : Exit Unit),
      Runs (Op.forEach (fun job => send job.ack (.error (.serialization errMutationReadOnly))) jobs) l r l' →
      l' = ⟨l.store,l.sent ++ jobs.map fun job => (job.ack,.error (.serialization errMutationReadOnly))⟩ := by
    intro jobs
    induction jobs with
    | nil =>
      intro l l' r run
      rw [(runsPure.mp run).2]
      simp
    | cons job rest ih =>
      intro l l' r run
      rcases runsBind run with ⟨_,u,one,later⟩ | ⟨e,_,one⟩
      · obtain ⟨_,rfl⟩ := sendRuns one
        rw [ih _ _ _ later]
        simp
      · cases (sendRuns one).1
  exact all jobs _ _ _ (runsAt h)

theorem rowWritesBlocks (staged : List StagedRow) (db : Db) (hash : Bytes32) :
    (applyAll (staged.flatMap rowWrites) db .blocks)[hashKey hash]?.isSome ↔
      hash ∈ staged.map StagedRow.hash ∨ (db .blocks)[hashKey hash]?.isSome := by
  induction staged generalizing db with
  | nil => simp [applyAll]
  | cons row rest ih =>
    rw [List.flatMap_cons,applyAllAppend,ih,List.map_cons,List.mem_cons]
    have here : (applyAll (rowWrites row) db .blocks)[hashKey hash]?.isSome ↔
        hash = row.hash ∨ (db .blocks)[hashKey hash]?.isSome := by
      rw [rowWrites,applyAllAppend,frameColumn (by split <;> simp [Store.canonicalRow,ColumnStore.Write.column]),
        Store.bodyRowsRow]
      by_cases same : hash = row.hash
      · simp [same]
      · rw [if_neg (by simp),if_neg fun both => same (hashKeyInj.mp both.2)]
        simp [same]
    rw [here]
    tauto

/- Every acknowledgement that is Ok tells the truth about the block rows. -/
def AcksTrue (crates : Crates) (s : Store) (jobs : List PipelineJob) (l : Ledger) : Prop :=
  ∀ job ∈ jobs, ∀ added, (job.ack,.ok added) ∈ l.sent →
    (l.store.db .blocks)[hashKey (job.block.hash crates)]?.isSome ∧
    (added = true → (s.db .blocks)[hashKey (job.block.hash crates)]? = none)

/- A hash repeated in the batch and not stored before has its first copy read, serialized
and written. -/
def CopiesWritten (crates : Crates) (s : Store) (jobs : List PipelineJob) (script : List Event) : Prop :=
  ∀ job ∈ repeats crates [] jobs, (s.db .blocks)[hashKey (job.block.hash crates)]? = none →
    eventAt script (firstCopies crates [] jobs).length = .ok ∧
    ∀ (i : Nat) (first : PipelineJob), (firstCopies crates [] jobs)[i]? = some first →
      first.block.hash crates = job.block.hash crates →
      (∀ why, eventAt script i ≠ .fail why) ∧ (∃ compressed, s.serializeBlock crates first.block = .ok compressed) ∧
      ∃ headerBytes, Store.serializeHeader crates first.block.header = .ok headerBytes

theorem repeatsMem {seen : List Bytes32} {jobs : List PipelineJob} {job : PipelineJob}
    (mem : job ∈ repeats crates seen jobs) : job ∈ jobs := by
  induction jobs generalizing seen with
  | nil => cases mem
  | cons other rest ih =>
    unfold repeats at mem
    split at mem
    · rcases List.mem_cons.mp mem with rfl | later
      · simp
      · exact List.mem_cons_of_mem _ (ih later)
    · exact List.mem_cons_of_mem _ (ih mem)

end Pipeline

open Pipeline in
/- The acknowledgements of a flush that finishes are true exactly when the first copy of every
repeated hash is written. -/
theorem acksTrue {crates : Crates} {s : Store} {jobs : List PipelineJob} (distinct : (jobs.map PipelineJob.ack).Nodup)
    {script rest : List Event} {l : Ledger}
    (finishes : flushPipelineBatch crates jobs ⟨⟨s,[]⟩,script⟩ = (.ok (),⟨l,rest⟩)) :
    AcksTrue crates s jobs l ↔ s.readOnly = true ∨ CopiesWritten crates s jobs script := by
  cases only : s.readOnly with
  | true =>
    refine iff_of_true (fun job _ added sent => ?_) (.inl rfl)
    rw [flushReadOnly only finishes] at sent
    obtain ⟨other,_,same⟩ := List.mem_map.mp sent
    cases (Prod.mk.inj same).2
  | false =>
    obtain ⟨done,flushed⟩ := flushAt only finishes
    rw [or_iff_right (by simp)]
    constructor
    · intro true' job repeated absent
      have present := (true' job (repeatsMem repeated) false
        (by rw [flushed.sent]; exact List.mem_append_left _ (repeatsAcked repeated))).1
      rw [flushed.rows] at present
      split at present
      · rename_i event
        rw [rowWritesBlocks,absent] at present
        obtain ⟨row,staged,hash⟩ := List.mem_map.mp (present.resolve_right (by simp))
        obtain ⟨i,first,here,answer⟩ := (stagedIff ..).mp staged
        refine ⟨event,fun j other there same => ?_⟩
        obtain rfl := firstUnique here there (by rw [same,← hash,verdictHash answer])
        rw [there] at here
        cases here
        exact (verdictRow (by rw [same]; exact absent)).mp ⟨row,answer⟩
      · rw [absent] at present
        cases present
    · intro written job mem added sent
      rw [flushed.sent] at sent
      rcases List.mem_append.mp sent with early | late
      · obtain ⟨rfl,other,inside,ack,why⟩ := stagingOk early
        obtain rfl := List.inj_on_of_nodup_map distinct inside mem ack
        refine ⟨?_,by simp⟩
        have kept : (s.db .blocks)[hashKey (other.block.hash crates)]?.isSome →
            (l.store.db .blocks)[hashKey (other.block.hash crates)]?.isSome := fun stored => by
          rw [flushed.rows]
          split
          · exact (rowWritesBlocks ..).mpr (.inr stored)
          · exact stored
        rcases why with stored | repeated
        · exact kept stored
        · cases absent : (s.db .blocks)[hashKey (other.block.hash crates)]? with
          | some raw => exact kept (by rw [absent]; rfl)
          | none =>
            obtain ⟨event,copies⟩ := written other repeated absent
            obtain ⟨first,inside',same⟩ := (repeatsFirst repeated).resolve_left (by simp)
            obtain ⟨i,here⟩ := List.getElem?_of_mem inside'
            obtain ⟨row,answer⟩ := (verdictRow (by rw [same]; exact absent)).mpr (copies i first here same)
            rw [flushed.rows,if_pos event,rowWritesBlocks]
            refine .inl (List.mem_map.mpr ⟨row,(stagedIff ..).mpr ⟨i,first,here,answer⟩,?_⟩)
            rw [verdictHash answer,same]
      · obtain ⟨rfl,event⟩ := flushed.news _ late added rfl
        have staged : job.ack ∈ (staging crates s [] jobs script).1.map StagedRow.ack := by
          rw [← flushed.acks]
          exact List.mem_map.mpr ⟨_,late,rfl⟩
        obtain ⟨row,inside,ack⟩ := List.mem_map.mp staged
        have plan := flushed.staged.rows row inside
        obtain rfl := List.inj_on_of_nodup_map distinct plan.job mem ack
        rw [flushed.rows,if_pos event,rowWritesBlocks]
        exact ⟨.inl (List.mem_map.mpr ⟨row,inside,plan.hash⟩),fun _ => by rw [← plan.hash]; exact plan.absent⟩

namespace Sample
open Pipeline

def twice : List PipelineJob := [⟨block 1 0 1,true,0⟩,⟨block 1 0 1,true,1⟩]

def twiceFlushed (script : List Event) : Except (Stop BlockStoreError) Unit × World Ledger :=
  flushPipelineBatch crates twice ⟨⟨.created config,[]⟩,script⟩

theorem twiceFinishes {script : List Event} (done : (twiceFlushed script).1 = .ok ()) :
    flushPipelineBatch crates twice ⟨⟨.created config,[]⟩,script⟩ =
      (.ok (),⟨(twiceFlushed script).2.state,(twiceFlushed script).2.script⟩) := by
  rw [← done]
  rfl

theorem twiceWritten : CopiesWritten crates (.created config) twice [] := by
  intro job _ _
  refine ⟨rfl,fun i first _ _ => ⟨fun why event => ?_,⟨_,rfl⟩,⟨_,rfl⟩⟩⟩
  cases event

end Sample

theorem acksTrueSample : Pipeline.AcksTrue Sample.crates (.created Sample.config) Sample.twice (Sample.twiceFlushed []).2.state ∧
    (1,.ok false) ∈ (Sample.twiceFlushed []).2.state.sent :=
  ⟨(acksTrue (by decide) (Sample.twiceFinishes (by decide +kernel))).mpr (.inr Sample.twiceWritten),by decide +kernel⟩

/- The batch write fails: the repeat is already acknowledged as stored. -/
theorem acksFalse : Opened Sample.crates (.created Sample.config) ∧
    (Sample.twiceFlushed [.ok,.fail "disk full"]).1 = .ok () ∧
    ¬Pipeline.AcksTrue Sample.crates (.created Sample.config) Sample.twice
      (Sample.twiceFlushed [.ok,.fail "disk full"]).2.state := by
  refine ⟨Store.createdOpened _ _,by decide +kernel,fun true' => ?_⟩
  have present := (true' ⟨Sample.block 1 0 1,true,1⟩ (by decide) false (by decide +kernel)).1
  have absent : ((Sample.twiceFlushed [.ok,.fail "disk full"]).2.state.store.db .blocks)[hashKey (Sample.hash 1)]? =
      none := by decide +kernel
  change ((Sample.twiceFlushed _).2.state.store.db .blocks)[hashKey (Sample.hash 1)]?.isSome at present
  rw [absent] at present
  cases present

end DigBlockstore
