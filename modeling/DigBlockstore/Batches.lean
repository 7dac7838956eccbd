import DigBlockstore.Retries

/-! Batches of the write pipeline against puts one by one. While no dictionary is trained, every split
of the jobs into batches ends in the store of the puts, but for the two caches of heights. -/
namespace DigBlockstore
open ByteCodec Faulty ColumnStore PartialMap

namespace Faulty

theorem cleanAttemptOk {σ ε α : Type} {m : Op σ ε α} {s t : σ} {a : α} (ran : Clean m s (.ok a) t) :
    Clean (Op.attempt m) s (.ok (.ok a)) t := by
  unfold Clean Op.attempt
  rw [show m ⟨s,[]⟩ = _ from ran]

theorem cleanAttemptError {σ ε α : Type} {m : Op σ ε α} {s t : σ} {e : ε} (ran : Clean m s (.error (.error e)) t) :
    Clean (Op.attempt m) s (.ok (.error e)) t := by
  unfold Clean Op.attempt
  rw [show m ⟨s,[]⟩ = _ from ran]

end Faulty

namespace Store
variable {crates : Crates} {s t u v : Store} {block : L2Block} {jobs : List PipelineJob}

/- No dictionary is trained while at most `n` bodies are added: none is wanted, one is there, or the rows are too few. -/
def Trainless (n : Nat) (s : Store) : Prop :=
  s.useCompressionDict = false ∨ s.zstdDict.isSome ∨
    loadZstdDictFromDb s.db true = none ∧ s.blockCount + n < dictTrainingThreshold

def encodedBlock (crates : Crates) (s : Store) (block : L2Block) : Except BlockStoreError (Bytes × Bytes) := do
  let compressed ← s.serializeBlock crates block
  let headerBytes ← serializeHeader crates block.header
  pure (compressed,headerBytes)

/- `put_block` on one job after another: an error answers its own job. -/
def putEach (crates : Crates) : List PipelineJob → StoreM (List (Nat × Except BlockStoreError Bool))
  | [] => pure []
  | job :: rest => do
      let answer ← Op.attempt (putBlock crates job.block job.canonical)
      let answers ← putEach crates rest
      pure ((job.ack,answer) :: answers)

def flushEach (crates : Crates) : List (List PipelineJob) → StoreM (List (Nat × Except BlockStoreError Bool))
  | [] => pure []
  | jobs :: rest => do
      let sent ← flushPipelineBatch crates jobs
      let later ← flushEach crates rest
      pure (sent ++ later)

def ButHeights (s t : Store) : Prop :=
  ∃ heights hashes, t = {s with canonicalHeightCache := heights,hashToHeightCache := hashes}

structure Footing (s t : Store) : Prop where
  readOnly : t.readOnly = s.readOnly
  level : t.compressionLevel = s.compressionLevel
  uses : t.useCompressionDict = s.useCompressionDict
  dict : t.zstdDict = s.zstdDict
  cap : t.maxDecompressedBlockBytes = s.maxDecompressedBlockBytes
  ready : s.canonicalBin.Ready → t.canonicalBin.Ready
  accepts : ∀ height, t.canonicalBin.Accepts height ↔ s.canonicalBin.Accepts height

instance : IsPreorder Store Footing where
  refl _ := ⟨rfl,rfl,rfl,rfl,rfl,id,fun _ => Iff.rfl⟩
  trans _ _ _ first later := ⟨later.readOnly.trans first.readOnly,later.level.trans first.level,later.uses.trans first.uses,
    later.dict.trans first.dict,later.cap.trans first.cap,fun ready => later.ready (first.ready ready),
    fun height => (later.accepts height).trans (first.accepts height)⟩

theorem Trainless.mono {n m : Nat} (idle : Trainless n s) (fewer : m ≤ n) : Trainless m s :=
  idle.imp_right (.imp_right fun few => ⟨few.1,by omega⟩)

theorem Trainless.adds {n m : Nat} (idle : Trainless (m + n) s) (kept : Footing s t)
    (row : (t.db .metadata)[metaZstdDict]? = (s.db .metadata)[metaZstdDict]?) (count : t.blockCount ≤ s.blockCount + m) :
    Trainless n t := by
  rcases idle with off | made | ⟨unwritten,few⟩
  · exact .inl (kept.uses.trans off)
  · exact .inr (.inl (by rwa [kept.dict]))
  · refine .inr (.inr ⟨?_,by omega⟩)
    unfold loadZstdDictFromDb at unwritten ⊢
    rwa [row]

theorem Footing.encodes (kept : Footing s t) (block : L2Block) :
    t.encodedBlock crates block = s.encodedBlock crates block := by
  unfold encodedBlock serializeBlock activeDictionary
  rw [kept.level,kept.uses,kept.dict]

theorem ButHeights.footing (same : ButHeights s t) : Footing s t := by
  obtain ⟨heights,hashes,rfl⟩ := same
  exact ⟨rfl,rfl,rfl,rfl,rfl,id,fun _ => Iff.rfl⟩

theorem ingestedFooting (block : L2Block) (canonical : Bool) (compressed headerBytes : Bytes) (s : Store) :
    Footing s (s.ingested crates block canonical compressed headerBytes) := by
  unfold ingested refreshIndex
  split
  · rw [insertHeightRest]
    exact ⟨rfl,rfl,rfl,rfl,rfl,fun ready => CanonicalBin.writtenReady ready _ _,fun _ => CanonicalBin.writtenAccepts ..⟩
  · exact ⟨rfl,rfl,rfl,rfl,rfl,id,fun _ => Iff.rfl⟩

theorem maybeTrainIdle {n : Nat} (idle : Trainless n s) : Clean (maybeTrainDictionary crates) s (.ok ()) s := by
  unfold maybeTrainDictionary
  rw [cleanGetBind]
  split
  · exact cleanPure _ _
  · rename_i wanted
    split
    · exact cleanPure _ _
    · rename_i missing
      rcases idle with off | made | ⟨unwritten,few⟩
      · simp [off] at wanted
      · exact absurd made missing
      · rw [if_neg (by rw [unwritten]; simp),if_pos (by omega)]
        exact cleanPure _ _

theorem rowWritesCount (row : StagedRow) (db : Db) :
    (applyAll (Pipeline.rowWrites row) db .blocks).size ≤ (db .blocks).size + 1 := by
  rw [rowWritesColumn row (.inl rfl)]
  change ((db .blocks).insert (hashKey row.hash) row.compressed).size ≤ _
  rw [Std.ExtTreeMap.size_insert]
  split
  · omega
  · omega

theorem flushedCount (staged : List StagedRow) (s : Store) :
    (Pipeline.flushed staged s).blockCount ≤ s.blockCount + staged.length := by
  change (applyAll (staged.flatMap Pipeline.rowWrites) s.db .blocks).size ≤ (s.db .blocks).size + staged.length
  induction staged generalizing s with
  | nil => exact Nat.le_refl _
  | cons row rest ih =>
    have one := rowWritesCount row s.db
    have more := ih (s.commit (Pipeline.rowWrites row))
    rw [List.flatMap_cons,applyAllAppend,List.length_cons]
    have same : (s.commit (Pipeline.rowWrites row)).db = applyAll (Pipeline.rowWrites row) s.db := rfl
    rw [same] at more
    omega

theorem Trainless.ingested {n : Nat} (idle : Trainless (n + 1) s) (block : L2Block) (canonical : Bool)
    (compressed headerBytes : Bytes) :
    Trainless n (s.ingested crates block canonical compressed headerBytes) := by
  refine @Trainless.adds s _ n 1 (idle.mono (by omega)) (ingestedFooting block canonical compressed headerBytes s) ?_ ?_
  · rw [ingestedDb]
    exact metadataPutRows ..
  · unfold blockCount
    rw [ingestedDb]
    exact rowWritesCount ⟨block.hash crates,block,compressed,headerBytes,canonical,0⟩ s.db

section Puts

theorem putPresent {canonical : Bool} (writes : s.readOnly = false)
    (present : (s.db .blocks)[hashKey (block.hash crates)]?.isSome) :
    Clean (putBlock crates block canonical) s (.ok false) s := by
  unfold putBlock
  refine cleanBind (refuseReadOnlyClean _ writes) ?_
  dsimp only
  rw [cleanGetBind,if_pos present]
  exact cleanPure _ _

theorem encodedError {e : BlockStoreError} (failed : s.encodedBlock crates block = .error e) :
    s.serializeBlock crates block = .error e ∨
      ∃ compressed, s.serializeBlock crates block = .ok compressed ∧ serializeHeader crates block.header = .error e := by
  unfold encodedBlock at failed
  cases body : s.serializeBlock crates block with
  | error e' =>
    rw [body] at failed
    cases failed
    exact .inl rfl
  | ok compressed =>
    cases header : serializeHeader crates block.header with
    | error e' =>
      rw [body,header] at failed
      cases failed
      exact .inr ⟨compressed,rfl,rfl⟩
    | ok headerBytes =>
      rw [body,header] at failed
      cases failed

theorem putUnencoded {canonical : Bool} {e : BlockStoreError} (writes : s.readOnly = false)
    (absent : (s.db .blocks)[hashKey (block.hash crates)]? = none) (failed : s.encodedBlock crates block = .error e) :
    Clean (putBlock crates block canonical) s (.error (.error e)) s := by
  unfold putBlock
  refine cleanBind (refuseReadOnlyClean _ writes) ?_
  dsimp only
  rw [cleanGetBind,absent,if_neg (by simp)]
  rcases encodedError failed with body | ⟨compressed,body,header⟩
  · rw [body]
    rfl
  · rw [body,header]
    exact cleanBind (cleanPure compressed _) rfl

theorem encodedOk {compressed headerBytes : Bytes} (encoded : s.encodedBlock crates block = .ok (compressed,headerBytes)) :
    s.serializeBlock crates block = .ok compressed ∧ serializeHeader crates block.header = .ok headerBytes := by
  unfold encodedBlock at encoded
  cases body : s.serializeBlock crates block with
  | error e =>
    rw [body] at encoded
    cases encoded
  | ok raw =>
    cases header : serializeHeader crates block.header with
    | error e =>
      rw [body,header] at encoded
      cases encoded
    | ok raw' =>
      rw [body,header] at encoded
      cases encoded
      exact ⟨rfl,rfl⟩

theorem putEncoded {canonical : Bool} {compressed headerBytes : Bytes} (writes : s.readOnly = false)
    {n : Nat} (idle : Trainless (n + 1) s) (ready : s.canonicalBin.Ready)
    (fits : canonical = true → s.canonicalBin.Accepts block.height)
    (absent : (s.db .blocks)[hashKey (block.hash crates)]? = none)
    (encoded : s.encodedBlock crates block = .ok (compressed,headerBytes)) :
    Clean (putBlock crates block canonical) s (.ok true) (s.ingested crates block canonical compressed headerBytes) := by
  obtain ⟨body,header⟩ := encodedOk encoded
  have index : Clean (indexCanonical canonical block.height (block.hash crates))
      (s.commit (putRows crates block canonical compressed headerBytes)) (.ok ())
      ((s.commit (putRows crates block canonical compressed headerBytes)).refreshIndex canonical block.height
        (block.hash crates)) := by
    unfold indexCanonical refreshIndex
    split
    · rename_i yes
      exact cleanBind (extendWriteClean _ ready (fits yes)) (cleanModify _ _)
    · exact cleanPure _ _
  unfold putBlock
  refine cleanBind (refuseReadOnlyClean _ writes) ?_
  dsimp only
  rw [cleanGetBind,absent,if_neg (by simp),body,header]
  refine cleanBind (cleanPure compressed _) (cleanBind (cleanPure headerBytes _) (cleanBind (writeClean _ _) ?_))
  refine cleanBind index ?_
  rw [cleanModifyBind,cleanModifyBind,cleanModifyBind,cleanModifyBind]
  exact cleanBind (maybeTrainIdle (idle.ingested block canonical compressed headerBytes)) (cleanPure _ _)

end Puts

section Batches
open Pipeline

/- The store amid the puts of a batch that is staged against `s`: the hashes seen have their rows. -/
structure Midway (crates : Crates) (s : Store) (seen : List Bytes32) (jobs : List PipelineJob) (v : Store) : Prop where
  footing : Footing s v
  known : ∀ job ∈ jobs, job.block.hash crates ∈ seen → (v.db .blocks)[hashKey (job.block.hash crates)]?.isSome
  fresh : ∀ x ∉ seen, (v.db .blocks)[hashKey x]? = (s.db .blocks)[hashKey x]?

def Repeatable (crates : Crates) (s : Store) (jobs : List PipelineJob) : Prop :=
  jobs.Pairwise fun job later => job.block.hash crates = later.block.hash crates →
    ∃ rows, s.encodedBlock crates job.block = .ok rows

def putStaged (crates : Crates) (staged : List StagedRow) (s : Store) : Store :=
  staged.foldl (fun s row => s.ingested crates row.block row.canonical row.compressed row.headerBytes) s

def cacheStaged (crates : Crates) (staged : List StagedRow) (s : Store) : Store :=
  staged.foldl (fun s row => s.cacheBlock crates row.block) s

theorem putStagedCons (row : StagedRow) (staged : List StagedRow) (s : Store) : putStaged crates (row :: staged) s =
    putStaged crates staged (s.ingested crates row.block row.canonical row.compressed row.headerBytes) := rfl

theorem cacheStagedCons (row : StagedRow) (staged : List StagedRow) (s : Store) :
    cacheStaged crates (row :: staged) s = cacheStaged crates staged (s.cacheBlock crates row.block) := rfl

def added (staged : List StagedRow) : List (Nat × Except BlockStoreError Bool) := staged.map fun row => (row.ack,.ok true)

def Slotted (crates : Crates) (s : Store) (row : StagedRow) : Prop :=
  row.hash = row.block.hash crates ∧ (row.canonical = true → s.canonicalBin.Accepts row.block.height)

variable {l : Ledger} {job : PipelineJob}

theorem stagePresent (present : (l.store.db .blocks)[hashKey (job.block.hash crates)]?.isSome) :
    Clean (stageJob crates job) l (.ok none) ⟨l.store,l.sent ++ [(job.ack,.ok false)]⟩ := by
  unfold stageJob
  rw [cleanGetBind]
  refine cleanBind (cleanAttemptOk (cleanStep _ _)) ?_
  dsimp only
  rw [if_pos present]
  exact cleanBind (cleanModify _ _) (cleanPure _ _)

theorem stageUnencoded {e : BlockStoreError} (absent : (l.store.db .blocks)[hashKey (job.block.hash crates)]? = none)
    (failed : l.store.encodedBlock crates job.block = .error e) :
    Clean (stageJob crates job) l (.ok none) ⟨l.store,l.sent ++ [(job.ack,.error e)]⟩ := by
  unfold stageJob
  rw [cleanGetBind]
  refine cleanBind (cleanAttemptOk (cleanStep _ _)) ?_
  dsimp only
  rw [absent,if_neg (by simp)]
  rcases encodedError failed with body | ⟨compressed,body,header⟩
  · rw [body]
    exact cleanBind (cleanModify _ _) (cleanPure _ _)
  · rw [body]
    dsimp only
    rw [header]
    exact cleanBind (cleanModify _ _) (cleanPure _ _)

theorem stageEncoded {compressed headerBytes : Bytes}
    (absent : (l.store.db .blocks)[hashKey (job.block.hash crates)]? = none)
    (encoded : l.store.encodedBlock crates job.block = .ok (compressed,headerBytes)) : Clean (stageJob crates job) l
      (.ok (some ⟨job.block.hash crates,job.block,compressed,headerBytes,job.canonical,job.ack⟩)) l := by
  obtain ⟨body,header⟩ := encodedOk encoded
  unfold stageJob
  rw [cleanGetBind]
  refine cleanBind (cleanAttemptOk (cleanStep _ _)) ?_
  dsimp only
  rw [absent,if_neg (by simp),body]
  dsimp only
  rw [header]
  exact cleanPure _ _

theorem ingestedRow (block : L2Block) (canonical : Bool) (compressed headerBytes : Bytes) (s : Store) (x : Bytes32) :
    ((s.ingested crates block canonical compressed headerBytes).db .blocks)[hashKey x]? =
      if x = block.hash crates then some compressed else (s.db .blocks)[hashKey x]? := by
  have batch : ((s.commit (putRows crates block canonical compressed headerBytes)).db .blocks)[hashKey x]? =
      ((applyAll (putRows crates block canonical compressed headerBytes) s.db) .blocks)[hashKey x]? := rfl
  rw [ingestedDb,batch,putRowsColumn (.inl rfl),bodyRowsRow]
  simp [hashKeyInj]

section Amid
variable {seen : List Bytes32} {rest : List PipelineJob}

theorem Midway.tail (mid : Midway crates s seen (job :: rest) v) : Midway crates s seen rest v :=
  ⟨mid.footing,fun other mem => mid.known other (List.mem_cons_of_mem _ mem),mid.fresh⟩

theorem Midway.sees (mid : Midway crates s seen (job :: rest) v)
    (row : ∀ other ∈ rest, other.block.hash crates = job.block.hash crates →
      (v.db .blocks)[hashKey (job.block.hash crates)]?.isSome) :
    Midway crates s (job.block.hash crates :: seen) rest v where
  footing := mid.footing
  known other mem again := by
    rcases List.mem_cons.mp again with same | older
    · rw [same]
      exact row other mem same
    · exact mid.tail.known other mem older
  fresh x out := mid.fresh x fun older => out (List.mem_cons_of_mem _ older)

theorem Midway.ingests (mid : Midway crates s seen (job :: rest) v) (compressed headerBytes : Bytes) :
    Midway crates s (job.block.hash crates :: seen) rest
      (v.ingested crates job.block job.canonical compressed headerBytes) where
  footing := Trans.trans mid.footing (ingestedFooting ..)
  known other mem again := by
    rw [ingestedRow]
    split
    · rfl
    · rename_i apart
      rcases List.mem_cons.mp again with same | older
      · exact absurd same apart
      · exact mid.tail.known other mem older
  fresh x out := by
    rw [ingestedRow,if_neg fun same => out (by simp [same])]
    exact mid.fresh x fun older => out (List.mem_cons_of_mem _ older)

end Amid

/- The puts of a batch answer what its stage answers, and store the rows it stages. -/
theorem stagePuts (writes : s.readOnly = false) (idle : Trainless jobs.length v) (ready : s.canonicalBin.Ready)
    (repeatable : Repeatable crates s jobs)
    (fits : ∀ job ∈ jobs, job.canonical = true → s.canonicalBin.Accepts job.block.height) {seen : List Bytes32}
    {sent : List (Nat × Except BlockStoreError Bool)} (mid : Midway crates s seen jobs v) :
    ∃ staged answered answers, Clean (stage crates seen jobs) ⟨s,sent⟩ (.ok staged) ⟨s,sent ++ answered⟩ ∧
      Clean (putEach crates jobs) v (.ok answers) (putStaged crates staged v) ∧
      ((∀ row ∈ staged, Slotted crates s row) ∧ staged.length ≤ jobs.length) ∧
      (answered ++ added staged).Perm answers := by
  induction jobs generalizing seen sent v with
  | nil => exact ⟨[],[],[],by rw [List.append_nil]; exact cleanPure _ _,cleanPure _ _,⟨by simp,Nat.le_refl _⟩,.refl _⟩
  | cons job rest ih =>
    obtain ⟨once,more⟩ := List.pairwise_cons.mp repeatable
    have room := fun other mem => fits other (List.mem_cons_of_mem job mem)
    have open' : v.readOnly = false := mid.footing.readOnly.trans writes
    -- The job is answered without a row.
    have answersNow {answer : Except BlockStoreError Bool} {seen' : List Bytes32}
        (put : Clean (Op.attempt (putBlock crates job.block job.canonical)) v (.ok answer) v)
        (mid' : Midway crates s seen' rest v) (staging : ∀ rows answered, Clean (stage crates seen' rest)
          ⟨s,sent ++ [(job.ack,answer)]⟩ (.ok rows) ⟨s,sent ++ [(job.ack,answer)] ++ answered⟩ →
          Clean (stage crates seen (job :: rest)) ⟨s,sent⟩ (.ok rows) ⟨s,sent ++ [(job.ack,answer)] ++ answered⟩) :
        ∃ staged answered answers, Clean (stage crates seen (job :: rest)) ⟨s,sent⟩ (.ok staged) ⟨s,sent ++ answered⟩ ∧
          Clean (putEach crates (job :: rest)) v (.ok answers) (putStaged crates staged v) ∧
          ((∀ row ∈ staged, Slotted crates s row) ∧ staged.length ≤ (job :: rest).length) ∧
          (answered ++ added staged).Perm answers := by
      obtain ⟨staged,answered,answers,ran,puts,⟨placed,fewer⟩,perm⟩ := ih (idle.mono (by simp)) more room mid'
      refine ⟨staged,(job.ack,answer) :: answered,(job.ack,answer) :: answers,?_,
        cleanBind put (cleanBind puts (cleanPure _ _)),⟨placed,Nat.le_succ_of_le fewer⟩,perm.cons _⟩
      have ran' := staging staged answered ran
      rwa [List.append_assoc,List.singleton_append] at ran'
    by_cases old : job.block.hash crates ∈ seen
    · refine answersNow (cleanAttemptOk (putPresent open' (mid.known job (by simp) old))) mid.tail
        fun rows answered ran => ?_
      dsimp only [stage]
      rw [if_pos old]
      exact cleanBind (cleanModify _ _) ran
    · have new := mid.fresh _ old
      -- The stage of a job whose hash is new, given the stage of its own row.
      have staging {row : Option StagedRow} {now : List (Nat × Except BlockStoreError Bool)}
          (here : Clean (stageJob crates job) ⟨s,sent⟩ (.ok row) ⟨s,sent ++ now⟩) rows answered
          (ran : Clean (stage crates (job.block.hash crates :: seen) rest) ⟨s,sent ++ now⟩ (.ok rows)
            ⟨s,sent ++ now ++ answered⟩) :
          Clean (stage crates seen (job :: rest)) ⟨s,sent⟩ (.ok (row.toList ++ rows)) ⟨s,sent ++ now ++ answered⟩ := by
        dsimp only [stage]
        rw [if_neg old]
        exact cleanBind here (cleanBind ran (cleanPure _ _))
      cases found : (s.db .blocks)[hashKey (job.block.hash crates)]? with
      | some frame =>
        have present : (v.db .blocks)[hashKey (job.block.hash crates)]?.isSome := by rw [new,found]; rfl
        exact answersNow (cleanAttemptOk (putPresent open' present)) (mid.sees fun _ _ _ => present)
          (staging (stagePresent (by dsimp only; rw [found]; rfl)))
      | none =>
        have absent : (v.db .blocks)[hashKey (job.block.hash crates)]? = none := new.trans found
        cases encoded : s.encodedBlock crates job.block with
        | error e =>
          refine answersNow (cleanAttemptError (putUnencoded open' absent ((mid.footing.encodes _).trans encoded)))
            (mid.sees fun other mem same => ?_) (staging (stageUnencoded found encoded))
          obtain ⟨rows,bad⟩ := once other mem same.symm
          rw [encoded] at bad
          cases bad
        | ok rows =>
          obtain ⟨compressed,headerBytes⟩ := rows
          have fit := fits job (by simp)
          have put := @putEncoded crates v job.block job.canonical compressed headerBytes open' rest.length idle
            (mid.footing.ready ready) (fun yes => (mid.footing.accepts _).mpr (fit yes)) absent
            ((mid.footing.encodes _).trans encoded)
          obtain ⟨staged,answered,answers,ran,puts,⟨placed,fewer⟩,perm⟩ :=
            @ih _ (idle.ingested ..) more room _ sent (mid.ingests compressed headerBytes)
          refine ⟨⟨job.block.hash crates,job.block,compressed,headerBytes,job.canonical,job.ack⟩ :: staged,answered,
            (job.ack,.ok true) :: answers,?_,cleanBind (cleanAttemptOk put) (cleanBind puts (cleanPure _ _)),?_,?_⟩
          · have row := stageEncoded (l := ⟨s,sent⟩) found encoded
            have here := @staging _ [] (by rw [List.append_nil]; exact row) staged answered (by rw [List.append_nil]; exact ran)
            rwa [List.append_nil] at here
          · exact ⟨List.forall_mem_cons.mpr ⟨⟨rfl,fit⟩,placed⟩,Nat.succ_le_succ fewer⟩
          · exact List.perm_middle.trans (perm.cons _)

theorem onStoreClean {α : Type} {m : StoreM α} {r : Exit α} (ran : Clean m l.store r t) :
    Clean (onStore m) l r ⟨t,l.sent⟩ :=
  cleanZoom ran

theorem writeBinsClean {staged : List StagedRow} (ready : s.canonicalBin.Ready)
    (placed : ∀ row ∈ staged, Slotted crates s row) :
    Clean (writeBins staged) s (.ok ()) {s with canonicalBin := s.canonicalBin.writtenAll (canonicalRows staged)} := by
  induction staged generalizing s with
  | nil => exact cleanPure _ _
  | cons row rest ih =>
    obtain ⟨here,later⟩ := List.forall_mem_cons.mp placed
    cases canonical : row.canonical with
    | true =>
      have slots : canonicalRows (row :: rest) = (row.block.height,row.hash) :: canonicalRows rest := by
        simp [canonicalRows,canonical]
      rw [slots]
      have one : Clean (if row.canonical then onBin (CanonicalBin.extendWrite row.block.height row.hash) else pure ()) s (.ok ())
          (s.writeSlot row.block.height row.hash) := by
        rw [if_pos canonical]
        exact extendWriteClean _ ready (here.2 canonical)
      exact cleanBind one (ih (CanonicalBin.writtenReady ready _ _) fun other mem =>
        ⟨(later other mem).1,fun yes => (CanonicalBin.writtenAccepts ..).mpr ((later other mem).2 yes)⟩)
    | false =>
      have slots : canonicalRows (row :: rest) = canonicalRows rest := by simp [canonicalRows,canonical]
      rw [slots]
      have one : Clean (if row.canonical then onBin (CanonicalBin.extendWrite row.block.height row.hash) else pure ())
          s (.ok ()) s := by
        rw [if_neg (by simp [canonical])]
        exact cleanPure _ _
      exact cleanBind one (ih ready later)

theorem cacheBlockFooting (block : L2Block) (s : Store) : Footing s (s.cacheBlock crates block) :=
  ⟨rfl,rfl,rfl,rfl,rfl,id,fun _ => Iff.rfl⟩

theorem cacheRowClean {row : StagedRow} (hash : row.hash = row.block.hash crates) {n : Nat} (idle : Trainless n l.store) :
    Clean (cacheRow crates row) l (.ok ()) ⟨l.store.cacheBlock crates row.block,l.sent ++ [(row.ack,.ok true)]⟩ := by
  unfold cacheRow
  rw [hash]
  refine cleanBind (onStoreClean (cleanModify _ _)) (cleanBind (onStoreClean (cleanModify _ _)) (cleanBind
    (onStoreClean (cleanModify _ _)) (cleanBind (cleanAttemptOk (onStoreClean (@maybeTrainIdle _ _ n ?_))) (cleanModify _ _))))
  exact idle

theorem cacheAllClean {staged : List StagedRow} (placed : ∀ row ∈ staged, Slotted crates u row)
    {n : Nat} (idle : Trainless n l.store) : Clean (Op.forEach (cacheRow crates) staged) l (.ok ())
      ⟨cacheStaged crates staged l.store,l.sent ++ added staged⟩ := by
  induction staged generalizing l with
  | nil =>
    rw [added,List.map_nil,List.append_nil]
    exact cleanPure _ _
  | cons row rest ih =>
    obtain ⟨here,later⟩ := List.forall_mem_cons.mp placed
    have rows := @ih ⟨l.store.cacheBlock crates row.block,l.sent ++ [(row.ack,.ok true)]⟩ later
      idle
    rw [List.append_assoc,List.singleton_append] at rows
    exact cleanBind (cacheRowClean here.1 idle) rows

theorem flushedFooting (staged : List StagedRow) (s : Store) : Footing s (flushed staged s) := by
  refine ⟨rfl,rfl,rfl,rfl,rfl,fun ready => ?_,fun height => ?_⟩
  · change (s.canonicalBin.writtenAll (canonicalRows staged)).Ready
    induction canonicalRows staged generalizing s with
    | nil => exact ready
    | cons row rest ih => exact ih (s.writeSlot row.1 row.2) (CanonicalBin.writtenReady ready _ _)
  · change (s.canonicalBin.writtenAll (canonicalRows staged)).Accepts height ↔ _
    induction canonicalRows staged generalizing s with
    | nil => exact Iff.rfl
    | cons row rest ih => exact (ih (s.writeSlot row.1 row.2)).trans (CanonicalBin.writtenAccepts ..)

theorem Trainless.flushed {n : Nat} (staged : List StagedRow) (idle : Trainless (staged.length + n) s) :
    Trainless n (flushed staged s) :=
  idle.adds (flushedFooting staged s) (rowWritesMetadata staged s.db _) (flushedCount staged s)

theorem commitClean {staged : List StagedRow} {sent : List (Nat × Except BlockStoreError Bool)}
    {n : Nat} (idle : Trainless (staged.length + n) s) (ready : s.canonicalBin.Ready)
    (placed : ∀ row ∈ staged, Slotted crates s row) :
    Clean (Pipeline.commit crates staged) ⟨s,sent⟩ (.ok ())
      ⟨cacheStaged crates staged (flushed staged s),sent ++ added staged⟩ := by
  unfold Pipeline.commit
  refine cleanBind (cleanAttemptOk (onStoreClean (writeClean _ _))) ?_
  dsimp only
  refine cleanBind (cleanAttemptOk (onStoreClean (@writeBinsClean crates _ _ ready placed))) ?_
  exact cacheAllClean placed (idle.flushed staged)

theorem flushClean {staged : List StagedRow} {answered : List (Nat × Except BlockStoreError Bool)}
    (writes : s.readOnly = false) {n : Nat} (idle : Trainless (staged.length + n) s) (ready : s.canonicalBin.Ready)
    (staging : Clean (stage crates [] jobs) ⟨s,[]⟩ (.ok staged) ⟨s,answered⟩)
    (placed : ∀ row ∈ staged, Slotted crates s row) :
    Clean (flushPipelineBatch crates jobs) s (.ok (answered ++ added staged))
      (cacheStaged crates staged (flushed staged s)) := by
  have ran : Clean (Pipeline.flushPipelineBatch crates jobs) ⟨s,[]⟩ (.ok ())
      ⟨cacheStaged crates staged (flushed staged s),answered ++ added staged⟩ := by
    unfold Pipeline.flushPipelineBatch
    rw [cleanGetBind,if_neg (by simp [writes])]
    refine cleanBind staging ?_
    split
    · rename_i none'
      subst none'
      rw [added,List.map_nil,List.append_nil]
      exact cleanPure _ _
    · exact commitClean idle ready placed
  unfold Clean Store.flushPipelineBatch
  rw [show Pipeline.flushPipelineBatch crates jobs ⟨⟨s,[]⟩,[]⟩ = _ from ran]

theorem ingestedBeside {row : StagedRow} (hash : row.hash = row.block.hash crates) (same : ButHeights s v) :
    ButHeights ((flushed [row] s).cacheBlock crates row.block)
      (v.ingested crates row.block row.canonical row.compressed row.headerBytes) := by
  obtain ⟨heights,hashes,rfl⟩ := same
  have rows : [row].flatMap rowWrites = putRows crates row.block row.canonical row.compressed row.headerBytes := by
    rw [List.flatMap_singleton,rowWrites,putRows,hash]
  unfold ingested refreshIndex flushed
  rw [rows]
  cases canonical : row.canonical with
  | true =>
    have slots : canonicalRows [row] = [(row.block.height,row.block.hash crates)] := by simp [canonicalRows,canonical,hash]
    rw [if_pos rfl,insertHeightRest,slots]
    exact ⟨_,_,rfl⟩
  | false =>
    have slots : canonicalRows [row] = [] := by simp [canonicalRows,canonical]
    rw [if_neg (by simp),slots]
    exact ⟨_,_,rfl⟩

theorem flushedCons (row : StagedRow) (staged : List StagedRow) (s : Store) :
    (flushed (row :: staged) s).cacheBlock crates row.block =
      flushed staged ((flushed [row] s).cacheBlock crates row.block) := by
  have batch : (row :: staged).flatMap rowWrites = [row].flatMap rowWrites ++ staged.flatMap rowWrites := by simp
  have slots : canonicalRows (row :: staged) = canonicalRows [row] ++ canonicalRows staged := by
    rw [canonicalRows,← List.singleton_append,List.filter_append,List.map_append]
    rfl
  have bins : s.canonicalBin.writtenAll (canonicalRows [row] ++ canonicalRows staged) =
      (s.canonicalBin.writtenAll (canonicalRows [row])).writtenAll (canonicalRows staged) := List.foldl_append ..
  have rows : s.commit ([row].flatMap rowWrites ++ staged.flatMap rowWrites) =
      (s.commit ([row].flatMap rowWrites)).commit (staged.flatMap rowWrites) := by
    unfold Store.commit
    rw [applyAllAppend]
  unfold flushed
  rw [batch,slots,bins,rows]
  rfl

theorem stagedBeside {staged : List StagedRow} (placed : ∀ row ∈ staged, Slotted crates u row) (same : ButHeights s v) :
    ButHeights (cacheStaged crates staged (flushed staged s)) (putStaged crates staged v) := by
  induction staged generalizing s v with
  | nil => exact same
  | cons row rest ih =>
    obtain ⟨here,later⟩ := List.forall_mem_cons.mp placed
    rw [cacheStagedCons,flushedCons,putStagedCons]
    exact ih later (ingestedBeside here.1 same)

theorem putEachAppend (jobs rest : List PipelineJob) : putEach crates (jobs ++ rest) = (do
    let answers ← putEach crates jobs
    let later ← putEach crates rest
    pure (answers ++ later)) := by
  induction jobs with
  | nil =>
    funext w
    change _ = Op.bind (putEach crates rest) pure w
    unfold Op.bind
    rw [List.nil_append]
    rcases putEach crates rest w with ⟨r,w'⟩
    cases r <;> rfl
  | cons job more ih =>
    rw [List.cons_append,putEach,ih,putEach]
    simp only [opBindAssoc]
    rfl

theorem batchPuts (writes : s.readOnly = false) {n : Nat} (idle : Trainless (jobs.length + n) s)
    (ready : s.canonicalBin.Ready) (repeatable : Repeatable crates s jobs)
    (fits : ∀ job ∈ jobs, job.canonical = true → s.canonicalBin.Accepts job.block.height) (same : ButHeights s v) :
    ∃ sent answers staged,
      Clean (flushPipelineBatch crates jobs) s (.ok sent) (cacheStaged crates staged (flushed staged s)) ∧
      Clean (putEach crates jobs) v (.ok answers) (putStaged crates staged v) ∧ sent.Perm answers ∧
      ButHeights (cacheStaged crates staged (flushed staged s)) (putStaged crates staged v) ∧
      staged.length ≤ jobs.length := by
  have rows : v.db = s.db ∧ Trainless jobs.length v := by
    obtain ⟨heights,hashes,rfl⟩ := same
    exact ⟨rfl,idle.mono (Nat.le_add_right ..)⟩
  obtain ⟨staged,answered,answers,staging,puts,⟨placed,fewer⟩,perm⟩ :=
    @stagePuts crates s v jobs writes rows.2 ready repeatable fits [] [] ⟨same.footing,by simp,fun x _ => by rw [rows.1]⟩
  exact ⟨_,answers,staged,@flushClean _ _ _ _ _ writes n (idle.mono (by omega)) ready staging placed,puts,perm,
    stagedBeside placed same,fewer⟩

theorem cacheStagedFooting (staged : List StagedRow) (s : Store) : Footing s (cacheStaged crates staged s) := by
  induction staged generalizing s with
  | nil => exact refl s
  | cons row rest ih => exact Trans.trans (cacheBlockFooting row.block s) (ih _)

theorem cacheStagedTrainless {n : Nat} (staged : List StagedRow) (idle : Trainless n s) :
    Trainless n (cacheStaged crates staged s) := by
  induction staged generalizing s with
  | nil => exact idle
  | cons row rest ih => exact @ih (s.cacheBlock crates row.block) idle

theorem cacheStagedHeights (staged : List StagedRow) (s : Store) :
    (cacheStaged crates staged s).canonicalHeightCache = s.canonicalHeightCache := by
  induction staged generalizing s with
  | nil => rfl
  | cons row rest ih => exact ih _

theorem ingestedCoherent (on : s.canonicalHeightCacheCapacity ≠ 0) (indexed : Indexed s) (coherent : Coherent s)
    (writes : s.readOnly = false) (block : L2Block) (canonical : Bool) (compressed headerBytes : Bytes) :
    Coherent (s.ingested crates block canonical compressed headerBytes) := by
  have shift := @ingestedShift crates s indexed writes block canonical compressed headerBytes
  cases canonical with
  | false => exact shift.coherent coherent (UInt64.le_refl _) fun h x _ _ _ row => row
  | true =>
    exact @Shift.putCoherent s _ [(block.height,block.hash crates)] _ _ shift coherent
      fun h x y low keep last cached => absurd (lastRowOne last) (keep rfl on)

theorem putStagedIndexed (staged : List StagedRow) (indexed : Indexed s) (writes : s.readOnly = false) :
    Indexed (putStaged crates staged s) ∧ (putStaged crates staged s).minRetainedHeightCached = s.minRetainedHeightCached ∧
      (s.canonicalHeightCacheCapacity ≠ 0 → Coherent s → Coherent (putStaged crates staged s)) := by
  induction staged generalizing s with
  | nil => exact ⟨indexed,rfl,fun _ coherent => coherent⟩
  | cons row rest ih =>
    have shift := @ingestedShift crates s indexed writes row.block row.canonical row.compressed row.headerBytes
    obtain ⟨later,floor,keeps⟩ := ih shift.indexed (shift.readOnly.trans writes)
    refine ⟨later,floor.trans shift.floor,fun on coherent => keeps (by rwa [shift.capacity]) ?_⟩
    exact ingestedCoherent on indexed coherent writes row.block row.canonical row.compressed row.headerBytes

theorem batchesPuts {batches : List (List PipelineJob)} (writes : s.readOnly = false)
    (idle : Trainless batches.flatten.length s) (ready : s.canonicalBin.Ready)
    (repeatable : ∀ jobs ∈ batches, Repeatable crates s jobs)
    (fits : ∀ job ∈ batches.flatten, job.canonical = true → s.canonicalBin.Accepts job.block.height)
    (same : ButHeights s v) :
    ∃ sent answers t staged, Clean (flushEach crates batches) s (.ok sent) t ∧
      Clean (putEach crates batches.flatten) v (.ok answers) (putStaged crates staged v) ∧ sent.Perm answers ∧
      ButHeights t (putStaged crates staged v) ∧ t.canonicalHeightCache = s.canonicalHeightCache := by
  induction batches generalizing s v with
  | nil => exact ⟨[],[],s,[],cleanPure _ _,cleanPure _ _,.refl _,same,rfl⟩
  | cons jobs rest ih =>
    obtain ⟨first,more⟩ := List.forall_mem_cons.mp repeatable
    have room := fun job (mem : job ∈ rest.flatten) => fits job (by simp [List.flatten_cons,mem])
    have total : Trainless (jobs.length + rest.flatten.length) s := by rwa [List.flatten_cons,List.length_append] at idle
    obtain ⟨sent,answers,staged,flush,puts,perm,beside,fewer⟩ := batchPuts writes total ready first
      (fun job mem => fits job (by simp [List.flatten_cons,mem])) same
    have footing : Footing s (cacheStaged crates staged (flushed staged s)) :=
      Trans.trans (flushedFooting staged s) (cacheStagedFooting staged _)
    have idle' : Trainless rest.flatten.length (cacheStaged crates staged (flushed staged s)) :=
      cacheStagedTrainless staged (Trainless.flushed staged (total.mono (by omega)))
    obtain ⟨sent',answers',t,staged',flushes,puts',perm',beside',heights⟩ := ih (footing.readOnly.trans writes)
      idle' (footing.ready ready) (fun jobs mem => (more jobs mem).imp fun {job later} once again => by
        rw [footing.encodes]
        exact once again)
      (fun job mem yes => (footing.accepts _).mpr (room job mem yes)) beside
    refine ⟨sent ++ sent',answers ++ answers',t,staged ++ staged',cleanBind flush (cleanBind flushes (cleanPure _ _)),?_,
      perm.append perm',?_,heights.trans (cacheStagedHeights staged _)⟩
    · rw [List.flatten_cons,putEachAppend,putStaged,List.foldl_append]
      exact cleanBind puts (cleanBind puts' (cleanPure _ _))
    · rw [putStaged,List.foldl_append]
      exact beside'

end Batches

section Answers

def cleanAnswer {α : Type} (m : StoreM α) (s : Store) : Exit α := (m ⟨s,[]⟩).1

theorem getBlockBeside (same : ButHeights s t) (x : Bytes32) :
    cleanAnswer (getBlock crates x) t = cleanAnswer (getBlock crates x) s := by
  obtain ⟨heights,hashes,rfl⟩ := same
  simp only [cleanAnswer,getBlock,getBind,modifyBind]
  cases (s.blockCache.getClone x).1 with
  | some block => rfl
  | none =>
    dsimp only
    cases (s.db .blocks)[hashKey x]? with
    | none => rfl
    | some raw =>
      dsimp only
      change (Op.bind (Op.ofExcept (s.deserializeBlock crates raw)) _ _).1 =
        (Op.bind (Op.ofExcept (s.deserializeBlock crates raw)) _ _).1
      cases s.deserializeBlock crates raw with
      | error e => rfl
      | ok block => rfl

theorem getHeaderBeside (same : ButHeights s t) (x : Bytes32) :
    cleanAnswer (getHeader crates x) t = cleanAnswer (getHeader crates x) s := by
  obtain ⟨heights,hashes,rfl⟩ := same
  simp only [cleanAnswer,getHeader,getBind,modifyBind]
  cases (s.headerCache.getClone x).1 with
  | some header => rfl
  | none =>
    dsimp only
    cases (s.db .headers)[hashKey x]? with
    | none => rfl
    | some raw =>
      dsimp only
      cases deserializeHeader crates raw with
      | error e => rfl
      | ok header => rfl

theorem getRecordBeside (same : ButHeights s t) (x : Bytes32) :
    cleanAnswer (getRecord crates x) t = cleanAnswer (getRecord crates x) s := by
  obtain ⟨heights,hashes,rfl⟩ := same
  simp only [cleanAnswer,getRecord,getBind]
  cases s.recordCache x with
  | some record => rfl
  | none =>
    simp only [modifyBind]
    cases (s.headerCache.getClone x).1 with
    | some header => rfl
    | none =>
      dsimp only
      cases (s.db .headers)[hashKey x]? with
      | none => rfl
      | some raw =>
        dsimp only
        cases deserializeHeader crates raw with
        | error e => rfl
        | ok header => rfl

theorem lookupBeside (crates : Crates) (indexed : Indexed s) (coherent : Coherent s) (same : ButHeights t s)
    {height : UInt64} (slot : height ≠ lastSlot) :
    cleanAnswer (getHashByHeight height) t = cleanAnswer (getHashByHeight height) s ↔ CoherentAt t height := by
  obtain ⟨heights,hashes,rfl⟩ := same
  have indexed' : Indexed t := ⟨indexed.typed,indexed.bin,indexed.writable,indexed.tipRow,indexed.floorRow⟩
  obtain ⟨_,_,asked⟩ := lookupAnswers crates indexed (fun _ same => absurd same slot) []
  obtain ⟨_,_,asked'⟩ := lookupAnswers crates indexed' (fun _ same => absurd same slot) []
  rw [cleanAnswer,cleanAnswer,asked,asked',lookupAt indexed (coherent.at height)]
  constructor
  · intro agree low x cached
    have here : t.lookup height = t.canonicalAnswer height := Except.ok.inj agree
    rw [lookup,if_neg (UInt64.not_lt.mpr low),cached,canonicalAnswer,if_neg (UInt64.not_lt.mpr low)] at here
    exact here.symm
  · intro here
    rw [lookupAt indexed' here]
    rfl

end Answers
end Store

namespace Sample

def twoHigh : Store := .after crates Store.tame config [.initGenesis (block 0 0 1),.extendChain (block 1 1 2)]

def rivals : List (List PipelineJob) := [[⟨block 1 1 4,true,0⟩,⟨block 1 1 4,true,1⟩],[⟨block 2 4 5,true,2⟩]]

theorem rivalsRepeatable : ∀ jobs ∈ rivals, Store.Repeatable crates twoHigh jobs := by
  have encodes : (twoHigh.encodedBlock crates (block 1 1 4)).toOption.isSome = true := by decide +kernel
  have first : ∃ rows, twoHigh.encodedBlock crates (block 1 1 4) = .ok rows := okOfIsSome encodes
  refine List.forall_mem_cons.mpr ⟨?_,List.forall_mem_cons.mpr ⟨List.pairwise_singleton _ _,by simp⟩⟩
  exact List.pairwise_pair.mpr fun _ => first

end Sample

end DigBlockstore
