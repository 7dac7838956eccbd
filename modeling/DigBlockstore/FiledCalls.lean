import DigBlockstore.Filed

/-! Every call keeps what is filed, for the content its ingests leave. -/
namespace DigBlockstore
open ByteCodec Faulty ColumnStore PartialMap Pipeline Trace
namespace Store
variable {crates : Crates} {s t u : Store} {content : Bytes32 → L2BlockHeader}

section Ingest

theorem canonicalRowColumn {height : UInt64} {hash : Bytes32} {cf : Cf} (side : cf = .blocks ∨ cf = .headers)
    (db : Db) : applyAll [canonicalRow height hash] db cf = db cf := by
  refine frameColumn ?_
  rcases side with rfl | rfl <;> simp [canonicalRow,ColumnStore.Write.column]

theorem putRowsColumn {block : L2Block} {canonical : Bool} {compressed headerBytes : Bytes} {cf : Cf}
    (side : cf = .blocks ∨ cf = .headers) (db : Db) :
    applyAll (putRows crates block canonical compressed headerBytes) db cf =
      applyAll (bodyRows (block.hash crates) compressed headerBytes) db cf := by
  unfold putRows
  rw [applyAllAppend]
  cases canonical with
  | true => exact canonicalRowColumn side _
  | false => rfl

theorem ingestedIngests (block : L2Block) (canonical : Bool) (compressed headerBytes : Bytes) :
    Ingests crates s (s.ingested crates block canonical compressed headerBytes) block compressed headerBytes := by
  unfold ingested refreshIndex
  cases canonical with
  | false => exact ⟨fun cf side => putRowsColumn side _,rfl,rfl,rfl⟩
  | true =>
    rw [if_pos rfl,insertHeightRest]
    exact ⟨fun cf side => putRowsColumn side _,rfl,rfl,rfl⟩

theorem genesisIngests (block : L2Block) (compressed headerBytes : Bytes) :
    Ingests crates s (s.genesis crates block compressed headerBytes) block compressed headerBytes := by
  refine ⟨fun cf side => ?_,rfl,rfl,rfl⟩
  change applyAll (genesisRows crates block compressed headerBytes) s.db cf = _
  rw [genesisRows,applyAllAppend]
  refine frameColumn ?_
  rcases side with rfl | rfl <;> simp [canonicalRow,ColumnStore.Write.column]

theorem ingestedFiled {block : L2Block} {canonical : Bool} {compressed headerBytes : Bytes}
    (filed : Filed crates content s) (body : s.serializeBlock crates block = .ok compressed)
    (header : serializeHeader crates block.header = .ok headerBytes) :
    Filed crates (ingest crates content block) (s.ingested crates block canonical compressed headerBytes) :=
  filed.ingest (serializeBlockEncodes body) (serializeHeaderOk header) (ingestedIngests ..)

theorem putBlockFiled {block : L2Block} {canonical added : Bool} (filed : Filed crates content s)
    (h : Runs (putBlock crates block canonical) s (.ok added) t) :
    added = false ∧ t = s ∨ added = true ∧ (s.db .blocks)[hashKey (block.hash crates)]? = none ∧
      Filed crates (ingest crates content block) t := by
  rcases putBlockOk h with ⟨no,same,_⟩ | ⟨yes,compressed,headerBytes,packs,_,trained⟩
  · exact .inl ⟨no,same⟩
  · exact .inr ⟨yes,packs.absent,trained.keeps.filed (ingestedFiled filed packs.body packs.header)⟩

theorem extendChainFiled {block : L2Block} {added : Bool} (filed : Filed crates content s)
    (h : Runs (extendChain crates block) s (.ok added) t) :
    added = false ∧ t = s ∨ added = true ∧ s.hasBlock (block.hash crates) = false ∧
      Filed crates (ingest crates content block) t := by
  rcases extendChainOk h with ⟨no,same,_⟩ | ⟨yes,absent,u,b,putting,_,rfl⟩
  · exact .inl ⟨no,same⟩
  · rcases putBlockOk putting with ⟨_,_,present⟩ | ⟨_,compressed,headerBytes,packs,_,trained⟩
    · simp [hasBlock,present] at absent
    · exact .inr ⟨yes,absent,(keepsWithTip _).filed (trained.keeps.filed (ingestedFiled filed packs.body packs.header))⟩

theorem initGenesisFiled {block : L2Block} {v : Unit} (filed : Filed crates content s)
    (h : Runs (initGenesis crates block) s (.ok v) t) : Filed crates (ingest crates content block) t := by
  obtain ⟨_,_,_,_,compressed,headerBytes,body,header,trained⟩ := initGenesisOk h
  exact trained.keeps.filed (filed.ingest (serializeBlockEncodes body) (serializeHeaderOk header) (genesisIngests ..))

def ingestAll (crates : Crates) (content : Bytes32 → L2BlockHeader) (blocks : List L2Block) : Bytes32 → L2BlockHeader :=
  blocks.foldl (ingest crates) content

theorem rowWritesColumn (row : StagedRow) {cf : Cf} (side : cf = .blocks ∨ cf = .headers) (db : Db) :
    applyAll (rowWrites row) db cf = applyAll (bodyRows row.hash row.compressed row.headerBytes) db cf := by
  unfold rowWrites
  rw [applyAllAppend]
  split
  · exact canonicalRowColumn side _
  · rfl

theorem applyAllColumn {batch : List Write} {db db' : Db} {cf : Cf} (same : db cf = db' cf) :
    applyAll batch db cf = applyAll batch db' cf := by
  apply Std.ExtTreeMap.ext_getElem?
  intro key
  rw [getApplyAll,getApplyAll,same]

def withDb (db : Db) (s : Store) : Store := {s with db := db}

/- The rows of a batch are committed before any of its caches are filled; the part not yet
cached is what stands between the database and one that is filed. -/
theorem cachedFiled {staged : List StagedRow} (cached : Cached crates staged s t) {db : Db}
    (filed : Filed crates content (s.withDb db))
    (rows : ∀ cf, cf = .blocks ∨ cf = .headers → s.db cf = applyAll (staged.flatMap rowWrites) db cf)
    (sound : ∀ row ∈ staged, row.hash = row.block.hash crates ∧ Encodes crates row.block row.compressed ∧
      crates.serializeHeader row.block.header = .ok row.headerBytes) :
    Filed crates (ingestAll crates content (staged.map StagedRow.block)) t := by
  induction cached generalizing db content with
  | nil s =>
    refine Keeps.filed (s := s.withDb db) ?_ filed
    exact {Keeps.refl (s.withDb db) with rows := fun cf _ _ side row => by rwa [rows cf side] at row}
  | @cons row rest s t u here _ ih =>
    obtain ⟨hash,encodes,header⟩ := sound row (by simp)
    let db' : Db := applyAll (bodyRows row.hash row.compressed row.headerBytes) db
    have first : Filed crates (ingest crates content row.block) ((s.cacheBlock crates row.block).withDb db') :=
      filed.ingest encodes header ⟨fun cf _ => by rw [← hash]; rfl,rfl,rfl,rfl⟩
    have moved : Filed crates (ingest crates content row.block) (u.withDb db') := by
      refine Keeps.filed ?_ first
      rw [here.rest]
      exact {Keeps.refl _ with rows := fun _ _ _ _ row => row}
    refine ih moved (fun cf side => ?_) fun other mem => sound other (List.mem_cons_of_mem _ mem)
    have column : u.db cf = s.db cf := here.column (by rcases side with rfl | rfl <;> simp)
    rw [column,rows cf side,List.flatMap_cons,applyAllAppend]
    exact applyAllColumn (rowWritesColumn row side db)

theorem flushedFiled {jobs : List PipelineJob} {staged : List StagedRow} (filed : Filed crates content s)
    (plan : Staged crates s jobs [] staged) (cached : Cached crates staged (flushed staged s) t) :
    Filed crates (ingestAll crates content (staged.map StagedRow.block)) t := by
  refine @cachedFiled crates _ t content staged cached s.db ?_ (fun _ _ => rfl) fun row mem => ?_
  · have same : Keeps s ((flushed staged s).withDb s.db) := {Keeps.refl s with rows := fun _ _ _ _ row => row}
    exact same.filed filed
  · have one := plan.rows row mem
    exact ⟨one.hash,serializeBlockEncodes one.body,serializeHeaderOk one.header⟩

theorem flushFiled {jobs : List PipelineJob} {v : Unit} (filed : Filed crates content s)
    (h : Runs (flushOk crates jobs) s (.ok v) t) :
    ∃ staged, Staged crates s jobs [] staged ∧
      Filed crates (ingestAll crates content (staged.map StagedRow.block)) t := by
  rcases flushOkOk h with rfl | ⟨staged,_,plan,_,cached⟩
  · exact ⟨[],⟨by simp,by simp,by simp⟩,filed⟩
  · exact ⟨staged,plan,flushedFiled filed plan cached⟩

theorem putsFiled {blocks : List L2Block} (puts : Puts crates blocks s t) (filed : Filed crates content s) :
    ∃ content', Filed crates content' t := by
  induction puts generalizing content with
  | nil s => exact ⟨content,filed⟩
  | cons first _ ih =>
    rcases putBlockFiled filed first with ⟨_,rfl⟩ | ⟨_,_,filed'⟩
    · exact ih filed
    · exact ih filed'

end Ingest

section Moves

theorem keepsMarked {hash : Bytes32} {record held : BlockRecord} (cached : s.recordCache hash = some held) :
    Keeps s (s.markCanonical hash record) := by
  unfold markCanonical
  rw [cached]
  exact keepsFlagRecord true hash

theorem flagRecordKeeps {flag : Bool} {hash other : Bytes32} (cached : (s.recordCache other).isSome) :
    ((s.flagRecord flag hash).recordCache other).isSome := by
  unfold flagRecord
  split
  · by_cases same : other = hash
    · subst same
      rw [cacheRecordSelf]
      rfl
    · rwa [cacheRecordOther same]
  · exact cached

theorem keepsCanonicalRows (rows : List (UInt64 × Bytes32)) :
    Keeps s (s.commit (rows.map fun row => canonicalRow row.1 row.2)) := by
  refine keepsCommit fun write mem => ?_
  obtain ⟨row,_,rfl⟩ := List.mem_map.mp mem
  simp [canonicalRow,Spares]

theorem setCanonicalKeeps {hash : Bytes32} {v : Unit} (h : Runs (setCanonical crates hash) s (.ok v) t) :
    ∃ u, Touched crates s u ∧ Keeps u t := by
  obtain ⟨record,u,_,touched,_,held,_,rfl⟩ := setCanonicalOk h
  refine ⟨u,touched,(keepsCanonicalRows [(record.height,hash)]).trans ?_⟩
  have inner : Keeps (u.commit [canonicalRow record.height hash])
      ((((u.commit [canonicalRow record.height hash]).writeSlot record.height
        hash).insertCanonicalHeightCache record.height hash).cacheHeight hash record.height) := by
    rw [insertHeightRest]
    exact {Keeps.refl _ with rows := fun _ _ _ _ row => row}
  refine inner.trans (@keepsMarked _ hash record record ?_)
  rw [insertHeightRest]
  exact held

theorem setBatchKeeps {validated : List (Bytes32 × BlockRecord)} {v : Unit}
    (cached : ∀ row ∈ validated, (s.recordCache row.1).isSome)
    (h : Runs (Op.forEach (fun row => do
      onBin (CanonicalBin.extendWrite row.2.height row.1)
      Op.modify (markCanonical row.1 row.2)) validated) s (.ok v) t) : Keeps s t := by
  induction validated generalizing s with
  | nil =>
    rw [(runsPure.mp h).2]
    exact .refl s
  | cons row rest ih =>
    obtain ⟨_,u,turn,later⟩ := runsBindOk h
    obtain ⟨_,w,slot,mark⟩ := runsBindOk turn
    obtain ⟨_,rfl⟩ := extendWriteRuns slot
    obtain ⟨_,rfl⟩ := runsModify.mp mark
    obtain ⟨held,here⟩ := Option.isSome_iff_exists.mp (cached row (by simp))
    have slot' : Keeps s (s.writeSlot row.2.height row.1) := {Keeps.refl s with rows := fun _ _ _ _ row => row}
    have kept : Keeps s ((s.writeSlot row.2.height row.1).markCanonical row.1 row.2) :=
      slot'.trans (keepsMarked here)
    refine kept.trans (ih (fun other mem => ?_) later)
    unfold markCanonical
    rw [show (s.writeSlot row.2.height row.1).recordCache row.1 = some held from here]
    exact flagRecordKeeps (cached other (List.mem_cons_of_mem _ mem))

theorem setCanonicalBatchKeeps {hashes : List Bytes32} {v : Unit}
    (h : Runs (setCanonicalBatch crates hashes) s (.ok v) t) : ∃ u, Touched crates s u ∧ Keeps u t := by
  obtain ⟨_,u,opening,checking⟩ := runsBindOk h
  obtain ⟨_,rfl⟩ := refuseReadOnlyOk opening
  split at checking
  · rw [(runsPure.mp checking).2]
    exact ⟨u,.refl u,.refl u⟩
  · obtain ⟨validated,w,one,committing⟩ := runsBindOk checking
    obtain ⟨touched,_,_,held⟩ := validatedOk one
    obtain ⟨_,x,two,turns⟩ := runsBindOk committing
    have batch := writeOk two
    subst batch
    have rows : validated.map (fun row => canonicalRow row.2.height row.1) =
        (rowsOf validated).map fun row => canonicalRow row.1 row.2 := by simp [rowsOf,Function.comp_def]
    rw [rows] at turns
    refine ⟨w,touched,(keepsCanonicalRows (rowsOf validated)).trans (setBatchKeeps (fun row mem => ?_) turns)⟩
    change (w.recordCache row.1).isSome
    rw [held row mem]
    rfl

theorem rolledBackKeeps {target : UInt64} {tip : ChainTip} {reverted : List Bytes32}
    (back : RolledBack crates s t target tip reverted) : ∃ u v, Touched crates s u ∧
      Touched crates ((u.commit (deleteRows (heightsThrough (target + 1) tip.height))).cutSlots target) v ∧
      Keeps u ((u.commit (deleteRows (heightsThrough (target + 1) tip.height))).cutSlots target) ∧ Keeps v t := by
  obtain ⟨u,v,found,rolling,_,looking,rfl⟩ := back.steps
  refine ⟨u,v,rolling.touched,(getHashByHeightRuns looking).1,?_,?_⟩
  · have deletes : Keeps u (u.commit (deleteRows (heightsThrough (target + 1) tip.height))) :=
      keepsCommit fun write mem => by
        obtain ⟨h,_,rfl⟩ := List.mem_map.mp mem
        trivial
    exact deletes.trans {Keeps.refl _ with rows := fun _ _ _ _ row => row}
  · refine ((keepsRetip target found).trans (keepsFlagRecords false reverted)).trans ?_
    exact {Keeps.refl _ with rows := fun _ _ _ _ row => row}

theorem reorgedKeeps (ancestor : UInt64) (hashes : List Bytes32) (plan : ReorgPlan) :
    Keeps u (u.reorged ancestor hashes plan) := by
  have rows : Keeps u (u.commit plan.rows) := keepsCommit fun write mem => by
    rcases List.mem_append.mp mem with rows | tip
    · rcases List.mem_append.mp rows with deleted | put
      · obtain ⟨h,_,rfl⟩ := List.mem_map.mp deleted
        trivial
      · obtain ⟨row,_,rfl⟩ := List.mem_map.mp put
        simp [canonicalRow,Spares]
    · rw [List.mem_singleton.mp tip]
      simp [Spares]
  have slots : Keeps (u.commit plan.rows) (u.switched ancestor plan) :=
    {Keeps.refl _ with rows := fun _ _ _ _ row => row}
  refine ((rows.trans slots).trans ((keepsFlagRecords false plan.reverted).trans
    (keepsFlagRecords true hashes))).trans ?_
  exact {Keeps.refl _ with rows := fun _ _ _ _ row => row}

theorem prunedKeeps (height : UInt64) (plan : PrunePlan) : Keeps u (u.pruned height plan) := by
  have rows : Keeps u (u.commit (plan.batch height)) := keepsCommit fun write mem => by
    rcases pruneWrite mem with ⟨hash,_,body⟩ | ⟨row,_,rfl⟩ | rfl
    · simp only [bodyDeletes,List.mem_cons,List.not_mem_nil,or_false] at body
      rcases body with rfl | rfl | rfl <;> trivial
    · trivial
    · simp [Spares]
  have floor : Keeps (u.commit (plan.batch height)) ((u.commit (plan.batch height)).floorAt height) :=
    {Keeps.refl _ with rows := fun _ _ _ _ row => row}
  refine ((rows.trans floor).trans (keepsEvictAll plan.hashes)).trans ?_
  exact {Keeps.refl _ with rows := fun _ _ _ _ row => row}

theorem keepsWrite {batch : List Write} {v : Unit} (spares : ∀ write ∈ batch, Spares write)
    (h : Runs (write batch) s (.ok v) t) : Keeps s t := by
  rw [writeOk h]
  exact keepsCommit spares

theorem attestationKeeps {hash : Bytes32} {attested : AttestedBlock} {v : Unit}
    (h : Runs (putAttestation crates hash attested) s (.ok v) t) : Keeps s t := by
  obtain ⟨_,u,opening,packing⟩ := runsBindOk h
  obtain ⟨_,rfl⟩ := refuseReadOnlyOk opening
  obtain ⟨bytes,w,one,writing⟩ := runsBindOk packing
  obtain ⟨_,rfl⟩ := runsOfExceptOk one
  exact keepsWrite (by simp [Spares]) writing

theorem checkpointKeeps {checkpoint : StoredCheckpoint} {v : Unit}
    (h : Runs (putCheckpoint crates checkpoint) s (.ok v) t) : Keeps s t := by
  obtain ⟨_,u,opening,packing⟩ := runsBindOk h
  obtain ⟨_,rfl⟩ := refuseReadOnlyOk opening
  obtain ⟨bytes,w,one,writing⟩ := runsBindOk packing
  obtain ⟨_,rfl⟩ := runsOfExceptOk one
  exact keepsWrite (by simp [Spares]) writing

theorem pruneCheckpointsKeeps {epoch : UInt64} {n : Nat}
    (h : Runs (pruneCheckpointsBeforeEpoch epoch) s (.ok n) t) : Keeps s t := by
  obtain ⟨_,u,opening,checking⟩ := runsBindOk h
  obtain ⟨_,rfl⟩ := refuseReadOnlyOk opening
  split at checking
  · rw [(runsPure.mp checking).2]
    exact .refl _
  · rw [runsGetBind] at checking
    dsimp only at checking
    split at checking
    · obtain ⟨_,w,writing,last⟩ := runsBindOk checking
      rw [(runsPure.mp last).2]
      refine keepsWrite (fun write mem => ?_) writing
      obtain ⟨key,_,rfl⟩ := List.mem_map.mp mem
      trivial
    · rw [(runsPure.mp checking).2]
      exact .refl _

theorem updateStatusKeeps {hash : Bytes32} {status : BlockStatus} {v : Unit}
    (h : Runs (updateStatus crates hash status) s (.ok v) t) : Keeps s t := by
  unfold updateStatus at h
  rw [runsGetBind] at h
  split at h
  · cases (runsError.mp h).1
  · rename_i record held
    rw [(runsModify.mp h).2]
    refine {Keeps.refl s with
      rows := fun _ _ _ _ row => row
      record := fun other r found => ?_}
    by_cases same : other = hash
    · subst same
      rw [cacheRecordSelf] at found
      cases found
      exact ⟨record,held,rfl,rfl⟩
    · rw [cacheRecordOther same] at found
      exact ⟨r,found,rfl,rfl⟩

theorem invalidateKeeps {hash : Bytes32} {v : Unit}
    (h : Runs (invalidateBlockCacheEntry hash) s (.ok v) t ∨ Runs (invalidateHeaderCacheEntry hash) s (.ok v) t ∨
      Runs (invalidateRecordCacheEntry hash) s (.ok v) t) : Keeps s t := by
  rcases h with h | h | h <;> rw [(runsModify.mp h).2]
  · refine {Keeps.refl s with
      rows := fun _ _ _ _ row => row
      body := fun other block found => ?_}
    rw [ShardedLruCache.peekRemove] at found
    split at found
    · cases found
    · exact found
  · refine {Keeps.refl s with
      rows := fun _ _ _ _ row => row
      header := fun other header found => ?_}
    rw [ShardedLruCache.peekRemove] at found
    split at found
    · cases found
    · exact found
  · refine {Keeps.refl s with
      rows := fun _ _ _ _ row => row
      record := fun other record found => ?_}
    change Function.update s.recordCache hash none other = some record at found
    rw [Function.update_apply] at found
    split at found
    · cases found
    · exact ⟨record,found,rfl,rfl⟩

theorem compactionKeeps {visited : Cf → Bytes → Bool} {v : Unit}
    (h : Runs (compaction crates visited) s (.ok v) t) : Keeps s t := by
  rw [(runsModify.mp h).2]
  split
  · refine {Keeps.refl s with
      rows := fun cf key value side row => ?_}
    rw [compactedRow] at row
    exact (Option.filter_eq_some_iff.mp row).1
  · exact .refl s

theorem bootedFiled {config : BlockStoreConfig} {readOnly : Bool} (filed : Filed crates content s)
    (booted : Booted config readOnly s.db t) : Filed crates content t := by
  obtain ⟨bin,dict,tip,rfl,_⟩ := booted.built
  refine @Keeps.filed _ s _ _ ⟨fun _ _ _ _ row => row,fun hash header found => ?_,fun hash block found => ?_,
    fun hash record found => ?_⟩ filed
  · simp [fresh] at found
  · simp [fresh] at found
  · cases found

end Moves

theorem callFiled {c : Call} {v : Unit} (lawful : crates.Lawful) (indexed : Indexed s)
    (filed : Filed crates content s) (h : Runs (call crates c) s (.ok v) t) :
    ∃ content', Filed crates content' t := by
  cases c with
  | read r => exact ⟨content,(readTouched h).filed lawful filed⟩
  | initGenesis block => exact ⟨_,initGenesisFiled filed h⟩
  | putBlock block canonical =>
    obtain ⟨added,run⟩ := discardOk h
    rcases putBlockFiled filed run with ⟨_,rfl⟩ | ⟨_,_,filed'⟩
    · exact ⟨content,filed⟩
    · exact ⟨_,filed'⟩
  | flush jobs =>
    obtain ⟨staged,_,filed'⟩ := flushFiled filed h
    exact ⟨_,filed'⟩
  | extendChain block =>
    obtain ⟨added,run⟩ := discardOk h
    rcases extendChainFiled filed run with ⟨_,rfl⟩ | ⟨_,_,filed'⟩
    · exact ⟨content,filed⟩
    · exact ⟨_,filed'⟩
  | setCanonical hash =>
    obtain ⟨u,touched,keeps⟩ := setCanonicalKeeps h
    exact ⟨content,keeps.filed (touched.filed lawful filed)⟩
  | setCanonicalBatch hashes =>
    obtain ⟨u,touched,keeps⟩ := setCanonicalBatchKeeps h
    exact ⟨content,keeps.filed (touched.filed lawful filed)⟩
  | rollbackToHeight target =>
    obtain ⟨reverted,run⟩ := discardOk h
    obtain ⟨tip,_,_,_,_,⟨_,_,rfl⟩ | back⟩ := @rollbackOk crates _ _ _ _ run
    · exact ⟨content,filed⟩
    · obtain ⟨u,v,first,second,cut,rest⟩ := rolledBackKeeps back
      exact ⟨content,rest.filed (second.filed lawful (cut.filed (first.filed lawful filed)))⟩
  | applyReorg ancestor hashes =>
    obtain ⟨result,run⟩ := discardOk h
    obtain ⟨plan,u,planned,_,_,_,rfl⟩ := applyReorgOk run
    exact ⟨content,(reorgedKeeps ancestor hashes plan).filed (planned.touched.filed lawful filed)⟩
  | pruneBeforeHeight height =>
    obtain ⟨n,run⟩ := discardOk h
    rcases pruneRuns indexed run with ⟨⟨e,bad⟩,_⟩ | ⟨_,_,_,rfl⟩ | ⟨plan,u,pruning,_,rfl⟩
    · cases bad
    · exact ⟨content,filed⟩
    · exact ⟨content,(prunedKeeps height plan).filed (pruning.touched.filed lawful filed)⟩
  | setTip tip =>
    rw [(setTipOk h).2]
    exact ⟨content,(keepsWithTip tip).filed filed⟩
  | putAttestation hash attested => exact ⟨content,(attestationKeeps h).filed filed⟩
  | putCheckpoint checkpoint => exact ⟨content,(checkpointKeeps h).filed filed⟩
  | pruneCheckpointsBeforeEpoch epoch =>
    obtain ⟨n,run⟩ := discardOk h
    exact ⟨content,(pruneCheckpointsKeeps run).filed filed⟩
  | updateStatus hash status => exact ⟨content,(updateStatusKeeps h).filed filed⟩
  | importSnapshot input =>
    obtain ⟨manifest,run⟩ := discardOk h
    obtain ⟨blocks,puts⟩ := importSnapshotOk run
    exact putsFiled puts filed
  | initDictionary =>
    have same : Keeps s t := by
      rw [(runsModify.mp (show Runs initDictionary s (.ok v) t from h)).2]
      exact {Keeps.refl s with rows := fun _ _ _ _ row => row}
    exact ⟨content,same.filed filed⟩
  | disableCanonicalBinAcceleration =>
    have same : Keeps s t := by
      rw [(runsModify.mp (show Runs disableCanonicalBinAcceleration s (.ok v) t from h)).2]
      exact {Keeps.refl s with rows := fun _ _ _ _ row => row}
    exact ⟨content,same.filed filed⟩
  | invalidateBlockCacheEntry hash => exact ⟨content,(invalidateKeeps (.inl h)).filed filed⟩
  | invalidateHeaderCacheEntry hash => exact ⟨content,(invalidateKeeps (.inr (.inl h))).filed filed⟩
  | invalidateRecordCacheEntry hash => exact ⟨content,(invalidateKeeps (.inr (.inr h))).filed filed⟩
  | compaction visited => exact ⟨content,(compactionKeeps h).filed filed⟩

end Store

theorem takesFiled {crates : Crates} {s t : Store} {action : Action} (lawful : crates.Lawful) (indexed : s.Indexed)
    (filed : ∃ content, s.Filed crates content) (h : Takes crates s action t) : ∃ content, t.Filed crates content := by
  obtain ⟨content,filed⟩ := filed
  cases action with
  | call c => exact Store.callFiled lawful indexed filed h
  | reopen config =>
    obtain ⟨disk,run⟩ := h
    obtain ⟨_,u,booted,touched⟩ := Store.openStoreOk run
    exact ⟨content,touched.filed lawful (Store.bootedFiled filed booted)⟩
  | reopenReadonly path =>
    obtain ⟨disk,run⟩ := h
    obtain ⟨_,booted⟩ := Store.openReadonlyOk run
    exact ⟨content,Store.bootedFiled filed booted⟩

end DigBlockstore
