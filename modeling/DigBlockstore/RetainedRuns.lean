import DigBlockstore.Retained
import DigBlockstore.RowRuns
import DigBlockstore.LinkedRuns

/-! Each call keeps what is retained, for the content its ingests leave, and so does every run. -/
namespace DigBlockstore
open ByteCodec Faulty ColumnStore PartialMap Pipeline Trace
namespace Store
variable {crates : Crates} {s t u : Store} {content content' : Bytes32 → L2BlockHeader}

section Ingest

theorem putBlockRetains {block : L2Block} {canonical added : Bool} (indexed : Indexed s) (retains : Retains content s)
    (h : Runs (putBlock crates block canonical) s (.ok added) t) :
    added = false ∧ t = s ∨ added = true ∧ Retains (ingest crates content block) t := by
  rcases putBlockOk h with ⟨no,same,_⟩ | ⟨yes,compressed,headerBytes,packs,_,trained⟩
  · exact .inl ⟨no,same⟩
  · have shift := (ingestedShift indexed packs.writes block canonical compressed headerBytes).andQuiet trained.quiet
    exact .inr ⟨yes,(ingestedIngests block canonical compressed headerBytes).retains
      (fun above stored => absurd stored (retains.absent packs.absent above)) trained.echoes (fun _ => trained.keeps.mentions) shift (fun _ _ => putIndexRow) retains⟩

theorem withTipEchoes (tip : ChainTip) : Echoes s (s.withTip tip) :=
  (keepsWithTip tip).echoes fun cf side => frameColumn (by rcases side with rfl | rfl <;> simp [ColumnStore.Write.column])

theorem extendChainRetains {block : L2Block} {added : Bool} (indexed : Indexed s) (retains : Retains content s)
    (h : Runs (extendChain crates block) s (.ok added) t) :
    added = false ∧ t = s ∨ added = true ∧ Retains (ingest crates content block) t := by
  rcases extendChainOk h with ⟨no,same,_⟩ | ⟨yes,missing,u,b,putting,_,rfl⟩
  · exact .inl ⟨no,same⟩
  · rcases putBlockOk putting with ⟨_,_,present⟩ | ⟨_,compressed,headerBytes,packs,_,trained⟩
    · simp [hasBlock,present] at missing
    · have shift := ((ingestedShift indexed packs.writes block true compressed headerBytes).andQuiet
        trained.quiet).withTip ⟨block.hash crates,block.height⟩
      exact .inr ⟨yes,(ingestedIngests block true compressed headerBytes).retains
        (fun above stored => absurd stored (retains.absent packs.absent above)) (trained.echoes.trans (withTipEchoes _))
        (fun _ mentioned => trained.keeps.mentions ((keepsWithTip _).mentions mentioned)) shift (fun _ _ => putIndexRow) retains⟩

theorem genesisRetains {block : L2Block} {v : Unit} (indexed : Indexed s) (filed : Filed crates content s)
    (retains : Retains content s)
    (unclaimed : Unclaimed crates s block) (h : Runs (initGenesis crates block) s (.ok v) t) :
    Retains (ingest crates content block) t := by
  obtain ⟨_,shift⟩ := initGenesisShift indexed h
  obtain ⟨_,_,zero,_,compressed,headerBytes,_,_,trained⟩ := initGenesisOk h
  refine (genesisIngests block compressed headerBytes).retains (fun above stored => ?_) trained.echoes
    (fun _ => trained.keeps.mentions) shift (fun height x row => ?_) retains
  · obtain ⟨raw,row⟩ := Option.isSome_iff_exists.mp ((retains.paired _ above).mpr stored)
    obtain ⟨found,encodes,same⟩ := filed.bodyRow _ raw row
    rw [← same,unclaimed raw found row encodes]
  · by_cases same : height = 0
    · subst same
      rw [Function.update_self] at row
      exact .inr ⟨zero.symm,(Option.some.inj row).symm⟩
    · rw [Function.update_of_ne same] at row
      exact .inl row

theorem rowWritesFiled (staged : List StagedRow) (db : Db) {cf : Cf} (side : cf = .blocks ∨ cf = .headers) (x : Bytes32) :
    (applyAll (staged.flatMap rowWrites) db cf)[hashKey x]?.isSome ↔
      x ∈ staged.map StagedRow.hash ∨ (db cf)[hashKey x]?.isSome := by
  induction staged generalizing db with
  | nil => simp [applyAll]
  | cons row rest ih =>
    have here : (applyAll (rowWrites row) db cf)[hashKey x]?.isSome ↔ x = row.hash ∨ (db cf)[hashKey x]?.isSome := by
      rw [rowWritesColumn row side,bodyRowsRow]
      by_cases same : x = row.hash
      · rcases side with rfl | rfl <;> simp [same]
      · rw [if_neg fun both => same (hashKeyInj.mp both.2),if_neg fun both => same (hashKeyInj.mp both.2)]
        simp [same]
    rw [List.flatMap_cons,applyAllAppend,ih,here,List.map_cons,List.mem_cons]
    tauto

theorem ingestAllOther {blocks : List L2Block} {x : Bytes32} (apart : x ∉ blocks.map (L2Block.hash crates)) :
    ingestAll crates content blocks x = content x := by
  induction blocks generalizing content with
  | nil => rfl
  | cons block rest ih =>
    rw [List.map_cons,List.mem_cons,not_or] at apart
    exact (ih apart.2).trans (Function.update_of_ne apart.1 ..)

theorem ingestAllOwn {blocks : List L2Block} {block : L2Block} (distinct : (blocks.map (L2Block.hash crates)).Nodup)
    (mem : block ∈ blocks) : ingestAll crates content blocks (block.hash crates) = block.header := by
  induction blocks generalizing content with
  | nil => cases mem
  | cons first rest ih =>
    obtain ⟨fresh,distinct⟩ := List.nodup_cons.mp distinct
    rcases List.mem_cons.mp mem with rfl | older
    · exact (ingestAllOther fresh).trans (Function.update_self ..)
    · exact ih distinct older

theorem cachedMentions {staged : List StagedRow} (cached : Cached crates staged s t) {x : Bytes32}
    (apart : x ∉ staged.map fun row => row.block.hash crates) (mentioned : t.Mentions x) : s.Mentions x := by
  induction cached with
  | nil s => exact mentioned
  | cons here _ ih =>
    rw [List.map_cons,List.mem_cons,not_or] at apart
    exact cacheBlockMentions apart.1 (here.keeps.mentions (ih apart.2 mentioned))

theorem cachedColumn {staged : List StagedRow} (cached : Cached crates staged s t) {cf : Cf} (apart : cf ≠ .metadata) :
    t.db cf = s.db cf := by
  induction cached with
  | nil s => rfl
  | cons here _ ih => exact ih.trans (here.column apart)

theorem flushedRetains {jobs : List PipelineJob} {staged : List StagedRow} (indexed : Indexed s)
    (writes : s.readOnly = false) (plan : Staged crates s jobs [] staged)
    (cached : Cached crates staged (flushed staged s) t) (retains : Retains content s) :
    Retains (ingestAll crates content (staged.map StagedRow.block)) t := by
  have hashes : staged.map StagedRow.hash = (staged.map StagedRow.block).map (L2Block.hash crates) := by
    rw [List.map_map]
    exact List.map_congr_left fun row mem => (plan.rows row mem).hash
  have distinct := plan.distinct
  rw [hashes] at distinct
  have shift := flushedShift indexed writes cached
  have row : ∀ {k y}, putAll (canonicalRows staged) (canonicalAt s.db) k = some y → Tier s k y ∨
      y ∈ staged.map StagedRow.hash ∧ (ingestAll crates content (staged.map StagedRow.block) y).height = k := by
    intro k y found
    rw [putAllAt] at found
    rcases Option.or_eq_some_iff.mp found with last | ⟨_,older⟩
    · obtain ⟨row,mem,same⟩ := List.mem_map.mp (lastRowMem last)
      cases same
      have inside := (List.mem_filter.mp mem).1
      refine .inr ⟨List.mem_map_of_mem inside,?_⟩
      rw [(plan.rows row inside).hash,ingestAllOwn distinct (List.mem_map_of_mem inside)]
      rfl
    · exact .inl (.inr older)
  have gains : Gains (staged.map StagedRow.hash) content (ingestAll crates content (staged.map StagedRow.block)) s t :=
    { floor := shift.floor
      apart := fun x mem above stored => by
        obtain ⟨row,inside,rfl⟩ := List.mem_map.mp mem
        exact absurd stored (retains.absent (plan.rows row inside).absent above)
      bodies := fun x => by
        rw [cachedColumn cached (by simp)]
        exact rowWritesFiled staged s.db (.inl rfl) x
      stored := fun x => by
        rw [Stored,cachedColumn cached (by simp)]
        exact rowWritesFiled staged s.db (.inr rfl) x
      same := fun x apart => ingestAllOther (by rwa [hashes] at apart)
      mentions := fun x apart mentioned => by
        rw [hashes,List.map_map] at apart
        exact cachedMentions cached apart mentioned
      tiers := fun h x above tier => by
        rcases tier with held | here
        · rcases shift.heights h x above held with new | ⟨older,_⟩
          · exact row new
          · exact .inl (.inl older)
        · rw [shift.rows] at here
          exact row here }
  exact gains.retains retains

end Ingest

section Moves

theorem Untouched.column {inside : Cf → Bytes → Prop} (untouched : Untouched inside s t) {cf : Cf}
    (out : ∀ key, ¬inside cf key) : t.db cf = s.db cf :=
  Std.ExtTreeMap.ext_getElem? fun key => untouched cf key (out key)

theorem Untouched.switchEchoes (untouched : Untouched Switched s t) (touched : Touched crates s u) (keeps : Keeps u t) :
    Echoes s t where
  bodies := untouched.column (by simp [Switched])
  headers := untouched.column (by simp [Switched])
  mentions x mentioned := touched.echoes.mentions x (keeps.mentions mentioned)

theorem Untouched.echoes (untouched : Untouched Beside s t) (keeps : Keeps s t) : Echoes s t :=
  keeps.echoes fun cf side => untouched.column fun key beside => by rcases side with rfl | rfl <;> simp [Beside] at beside

theorem setCanonicalRetains {hash : Bytes32} {v : Unit} (lawful : crates.Lawful) (indexed : Indexed s)
    (filed : Filed crates content s) (retains : Retains content s) (h : Runs (setCanonical crates hash) s (.ok v) t) :
    Retains content t := by
  obtain ⟨record,u,touched,held,shift⟩ := setCanonicalShift indexed h
  obtain ⟨w,reading,keeps⟩ := setCanonicalKeeps h
  refine ((setCanonicalWithin hash _ _ _ h).switchEchoes reading keeps).retains shift retains fun height x above row => ?_
  by_cases same : height = record.height
  · subst same
    rw [Function.update_self] at row
    cases row
    exact .inr (retains.record lawful filed (touched.mayRecord held) above)
  · rw [Function.update_of_ne same] at row
    exact .inl row

theorem Retains.putRows {validated : List (Bytes32 × BlockRecord)} {index : UInt64 → Option Bytes32}
    (lawful : crates.Lawful) (filed : Filed crates content s) (retains : Retains content s)
    (held : ∀ row ∈ validated, MayRecord crates s row.1 row.2) {h : UInt64} {x : Bytes32}
    (above : s.minRetainedHeightCached ≤ h) (row : putAll (rowsOf validated) index h = some x) :
    index h = some x ∨ s.Stored x ∧ (content x).height = h := by
  rw [putAllAt] at row
  rcases Option.or_eq_some_iff.mp row with last | ⟨_,older⟩
  · obtain ⟨pair,mem,same⟩ := List.mem_map.mp (lastRowMem last)
    cases same
    exact .inr (retains.record lawful filed (held pair mem) above)
  · exact .inl older

theorem setCanonicalBatchRetains {hashes : List Bytes32} {v : Unit} (lawful : crates.Lawful) (indexed : Indexed s)
    (filed : Filed crates content s) (retains : Retains content s)
    (h : Runs (setCanonicalBatch crates hashes) s (.ok v) t) : Retains content t := by
  obtain ⟨validated,u,touched,_,held,shift⟩ := setCanonicalBatchShift indexed h
  obtain ⟨w,reading,keeps⟩ := setCanonicalBatchKeeps h
  exact ((setCanonicalBatchWithin hashes _ _ _ h).switchEchoes reading keeps).retains shift retains fun _ _ above =>
    retains.putRows lawful filed (fun row mem => touched.mayRecord (held row mem)) above

theorem rollbackRetains {target : UInt64} {tip : ChainTip} {reverted : List Bytes32} (indexed : Indexed s)
    (retains : Retains content s) (back : RolledBack crates s t target tip reverted) : Retains content t := by
  obtain ⟨found,_,shift⟩ := rollbackShift indexed back
  obtain ⟨u,v,first,second,cut,rest⟩ := rolledBackKeeps back
  have column : ∀ cf, cf = .blocks ∨ cf = .headers → t.db cf = s.db cf := fun cf side =>
    back.column (by rcases side with rfl | rfl <;> simp) (by rcases side with rfl | rfl <;> simp)
  have cutColumn : ∀ cf, cf = .blocks ∨ cf = .headers →
      applyAll (deleteRows (heightsThrough (target + 1) tip.height)) u.db cf = u.db cf := fun cf side =>
    deletedColumn _ _ (by rcases side with rfl | rfl <;> simp)
  have echoes : Echoes s v := (first.echoes.trans (cut.echoes cutColumn)).trans second.echoes
  refine (echoes.trans (rest.echoes fun cf side => ?_)).retains shift retains fun _ _ _ row => .inl (eraseAllSome row)
  rw [column cf side]
  rcases side with rfl | rfl
  · exact echoes.bodies.symm
  · exact echoes.headers.symm

theorem reorgRetains {ancestor : UInt64} {hashes : List Bytes32} {plan : ReorgPlan} (lawful : crates.Lawful)
    (indexed : Indexed s) (filed : Filed crates content s) (retains : Retains content s)
    (planned : Planned crates s u ancestor hashes plan) (fits : u.canonicalBin.Accepts ancestor) :
    Retains content (u.reorged ancestor hashes plan) := by
  have echoes := planned.touched.echoes.trans ((reorgedKeeps ancestor hashes plan).echoes fun cf side =>
    reorgedColumn ancestor hashes plan (by rcases side with rfl | rfl <;> simp) (by rcases side with rfl | rfl <;> simp))
  refine echoes.retains (applyReorgShift indexed planned fits) retains fun height x above row => ?_
  obtain ⟨v,reading,_⟩ := planned.validated
  obtain ⟨touched,_,_,held⟩ := validatedOk reading
  exact (retains.putRows lawful filed (fun pair mem => touched.mayRecord (held pair mem)) above row).imp_left eraseAllSome

theorem pruneRetains {height : UInt64} {plan : PrunePlan} (lawful : crates.Lawful) (indexed : Indexed s)
    (filed : Filed crates content s) (retains : Retains content s) (pruning : Pruning crates s u height plan) :
    Retains content (u.pruned height plan) := by
  have echoes := pruning.touched.echoes
  have shift := pruneShift indexed pruning
  have low := UInt64.le_of_lt pruning.above
  have dropped := pruning.below lawful filed fun h x above tier => (retains.tiers h x above tier).2
  have spared : ∀ x, height ≤ (content x).height → x ∉ plan.hashes := fun x above mem =>
    absurd (dropped x mem) (UInt64.not_lt.mpr above)
  have stored : ∀ x, height ≤ (content x).height → ((u.pruned height plan).Stored x ↔ s.Stored x) := fun x above => by
    rw [Stored,prunedRow plan height (.inr (.inl rfl)),if_neg (spared x above),echoes.headers,Stored]
  refine ⟨fun x above => ?_,fun x mentioned above => ?_,fun h x above tier => ?_⟩ <;> rw [shift.floor] at above
  · rw [prunedRow plan height (.inl rfl),if_neg (spared x above),echoes.bodies,stored x above]
    exact retains.paired x (UInt64.le_trans low above)
  · have mentions := (prunedKeeps height plan).mentions mentioned
    exact (stored x above).mpr (retains.heard (echoes.mentions x mentions) (UInt64.le_trans low above))
  · have old : Tier s h x := by
      rcases tier with held | row
      · rcases shift.heights h x above held with new | ⟨older,_⟩
        · exact .inr (eraseAllSome new)
        · exact .inl older
      · rw [shift.rows] at row
        exact .inr (eraseAllSome row)
    obtain ⟨kept,same⟩ := retains.tiers h x (UInt64.le_trans low above) old
    exact ⟨(stored x (by rw [same]; exact above)).mpr kept,same⟩

theorem Filed.spared (lawful : crates.Lawful) (filed : Filed crates content s) {floor : UInt64} {x : Bytes32} {cf : Cf}
    {raw : Bytes} (above : floor ≤ (content x).height) (side : cf = .blocks ∨ cf = .headers)
    (row : (s.db cf)[hashKey x]? = some raw) : filterRemoves crates floor cf raw = false := by
  unfold filterRemoves
  split
  · rfl
  · rcases side with rfl | rfl
    · obtain ⟨block,⟨payload,serialized,packed⟩,same⟩ := filed.bodyRow x raw row
      dsimp only
      split
      · rfl
      · rename_i found decoded
        rw [lawful.decodeAll _ _ _ packed decoded,lawful.block _ _ serialized]
        have height : block.height = (content x).height := by rw [← same]; rfl
        simpa [height] using above
    · dsimp only
      rw [lawful.header _ _ (filed.headerRow x raw row)]
      simpa using above

theorem compactionRetains {visited : Cf → Bytes → Bool} {v : Unit} (lawful : crates.Lawful) (indexed : Indexed s)
    (filed : Filed crates content s) (retains : Retains content s) (h : Runs (compaction crates visited) s (.ok v) t) :
    Retains content t := by
  have quiet := compactionQuiet h
  have keeps := compactionKeeps h
  have rows : ∀ cf, cf = .blocks ∨ cf = .headers → ∀ x, s.minRetainedHeightCached ≤ (content x).height →
      (t.db cf)[hashKey x]? = (s.db cf)[hashKey x]? := by
    intro cf side x above
    rw [(runsModify.mp h).2]
    split
    · rw [compactedRow]
      cases row : (s.db cf)[hashKey x]? with
      | none => rfl
      | some raw => rw [Option.filter_some,if_pos (by rw [filed.spared lawful above side row]; simp)]
    · rfl
  refine ⟨fun x above => ?_,fun x mentioned above => ?_,fun h x above tier => ?_⟩ <;> rw [quiet.floor] at above
  · rw [Stored,rows _ (.inl rfl) x above,rows _ (.inr rfl) x above]
    exact retains.paired x above
  · rw [Stored,rows _ (.inr rfl) x above]
    exact retains.cached x (keeps.mentions mentioned) above
  · have both := retains.tiers h x above (quiet.tier indexed above tier)
    rw [Stored,rows _ (.inr rfl) x (by rw [both.2]; exact above)]
    exact both

end Moves

section Calls

structure Housed (crates : Crates) (content : Bytes32 → L2BlockHeader) (s : Store) : Prop where
  filed : Filed crates content s
  retains : Retains content s

/- The genesis block has no other stored block under its hash. -/
def Original (crates : Crates) (s : Store) : Call → Prop
  | .initGenesis block => Unclaimed crates s block
  | _ => True

theorem Housed.aside (housed : Housed crates content s) (indexed : Indexed s) (quiet : Quiet s t) (keeps : Keeps s t)
    (untouched : Untouched Beside s t) : Housed crates content t :=
  ⟨keeps.filed housed.filed,(untouched.echoes keeps).quiet quiet indexed housed.retains⟩

theorem Touched.housed (lawful : crates.Lawful) (touched : Touched crates s t) (indexed : Indexed s)
    (housed : Housed crates content s) : Housed crates content t :=
  ⟨touched.filed lawful housed.filed,touched.retains indexed housed.retains⟩

theorem putHoused {block : L2Block} {canonical added : Bool} (indexed : Indexed s) (housed : Housed crates content s)
    (h : Runs (putBlock crates block canonical) s (.ok added) t) : ∃ content', Housed crates content' t := by
  rcases putBlockFiled housed.filed h with ⟨_,rfl⟩ | ⟨yes,_,filed⟩
  · exact ⟨content,housed⟩
  · rcases putBlockRetains indexed housed.retains h with ⟨no,_⟩ | ⟨_,retains⟩
    · cases yes.symm.trans no
    · exact ⟨_,filed,retains⟩

theorem putsHoused {blocks : List L2Block} (puts : Puts crates blocks s t) (indexed : Indexed s)
    (housed : Housed crates content s) : ∃ content', Housed crates content' t := by
  induction puts generalizing content with
  | nil s => exact ⟨content,housed⟩
  | cons first _ ih =>
    obtain ⟨content',housed'⟩ := putHoused indexed housed first
    exact ih (putIndexed indexed first) housed'

theorem callHoused {c : Call} {v : Unit} (lawful : crates.Lawful) (indexed : Indexed s)
    (housed : Housed crates content s) (original : Original crates s c) (h : Runs (call crates c) s (.ok v) t) :
    ∃ content', Housed crates content' t := by
  have ⟨filed,retains⟩ := housed
  cases c with
  | read r => exact ⟨content,(readTouched h).housed lawful indexed housed⟩
  | initGenesis block => exact ⟨_,initGenesisFiled filed h,genesisRetains indexed filed retains original h⟩
  | putBlock block canonical =>
    obtain ⟨added,run⟩ := discardOk h
    exact putHoused indexed housed run
  | flush jobs =>
    rcases flushOkOk h with rfl | ⟨staged,writes,plan,_,cached⟩
    · exact ⟨content,housed⟩
    · exact ⟨_,flushedFiled filed plan cached,flushedRetains indexed writes plan cached retains⟩
  | extendChain block =>
    obtain ⟨added,run⟩ := discardOk h
    rcases extendChainFiled filed run with ⟨_,rfl⟩ | ⟨yes,_,filed'⟩
    · exact ⟨content,housed⟩
    · rcases extendChainRetains indexed retains run with ⟨no,_⟩ | ⟨_,retains'⟩
      · cases yes.symm.trans no
      · exact ⟨_,filed',retains'⟩
  | setCanonical hash =>
    obtain ⟨u,touched,keeps⟩ := setCanonicalKeeps h
    exact ⟨content,keeps.filed (touched.filed lawful filed),setCanonicalRetains lawful indexed filed retains h⟩
  | setCanonicalBatch hashes =>
    obtain ⟨u,touched,keeps⟩ := setCanonicalBatchKeeps h
    exact ⟨content,keeps.filed (touched.filed lawful filed),setCanonicalBatchRetains lawful indexed filed retains h⟩
  | rollbackToHeight target =>
    obtain ⟨reverted,run⟩ := discardOk h
    obtain ⟨tip,_,_,_,_,⟨_,_,rfl⟩ | back⟩ := @rollbackOk crates _ _ _ _ run
    · exact ⟨content,housed⟩
    · obtain ⟨u,v,first,second,cut,rest⟩ := rolledBackKeeps back
      exact ⟨content,rest.filed (second.filed lawful (cut.filed (first.filed lawful filed))),
        rollbackRetains indexed retains back⟩
  | applyReorg ancestor hashes =>
    obtain ⟨result,run⟩ := discardOk h
    obtain ⟨plan,u,planned,fits,_,_,rfl⟩ := applyReorgOk run
    exact ⟨content,(reorgedKeeps ancestor hashes plan).filed (planned.touched.filed lawful filed),
      reorgRetains lawful indexed filed retains planned fits⟩
  | pruneBeforeHeight height =>
    obtain ⟨n,run⟩ := discardOk h
    rcases pruneRuns indexed run with ⟨⟨e,bad⟩,_⟩ | ⟨_,_,_,rfl⟩ | ⟨plan,u,pruning,_,rfl⟩
    · cases bad
    · exact ⟨content,housed⟩
    · exact ⟨content,(prunedKeeps height plan).filed (pruning.touched.filed lawful filed),
        pruneRetains lawful indexed filed retains pruning⟩
  | setTip tip =>
    have shift := setTipShift indexed h
    rw [(setTipOk h).2] at shift ⊢
    exact ⟨content,(keepsWithTip tip).filed filed,(withTipEchoes tip).retains shift retains fun _ _ _ row => .inl row⟩
  | putAttestation hash attested =>
    exact ⟨content,housed.aside indexed (putAttestationQuiet h) (attestationKeeps h) (putAttestationWithin hash attested _ _ _ h)⟩
  | putCheckpoint checkpoint =>
    exact ⟨content,housed.aside indexed (putCheckpointQuiet h) (checkpointKeeps h) (putCheckpointWithin checkpoint _ _ _ h)⟩
  | pruneCheckpointsBeforeEpoch epoch =>
    obtain ⟨n,run⟩ := discardOk h
    exact ⟨content,housed.aside indexed (pruneCheckpointsQuiet run) (pruneCheckpointsKeeps run)
      (pruneCheckpointsWithin epoch _ _ _ run)⟩
  | updateStatus hash status =>
    exact ⟨content,housed.aside indexed (updateStatusQuiet h) (updateStatusKeeps h) (updateStatusWithin hash status _ _ _ h)⟩
  | importSnapshot input =>
    obtain ⟨manifest,run⟩ := discardOk h
    obtain ⟨blocks,puts⟩ := importSnapshotOk run
    exact putsHoused puts indexed housed
  | initDictionary =>
    have quiet := initDictionaryQuiet h
    rw [(runsModify.mp (show Runs initDictionary s (.ok v) t from h)).2] at quiet ⊢
    exact ⟨content,housed.aside indexed quiet {Keeps.refl s with rows := fun _ _ _ _ row => row} (untouchedDb rfl)⟩
  | disableCanonicalBinAcceleration =>
    have shift := disableShift indexed h
    rw [(runsModify.mp (show Runs disableCanonicalBinAcceleration s (.ok v) t from h)).2] at shift ⊢
    have keeps : Keeps s {s with canonicalBin := s.canonicalBin.disable} := {Keeps.refl s with rows := fun _ _ _ _ row => row}
    exact ⟨content,keeps.filed filed,(keeps.echoes fun _ _ => rfl).retains shift retains fun _ _ _ row => .inl row⟩
  | invalidateBlockCacheEntry hash =>
    exact ⟨content,housed.aside indexed (invalidateQuiet (.inl h)) (invalidateKeeps (.inl h))
      (untouchedDb (by rw [(runsModify.mp (show Runs (invalidateBlockCacheEntry hash) s (.ok v) t from h)).2]))⟩
  | invalidateHeaderCacheEntry hash =>
    exact ⟨content,housed.aside indexed (invalidateQuiet (.inr (.inl h))) (invalidateKeeps (.inr (.inl h)))
      (untouchedDb (by rw [(runsModify.mp (show Runs (invalidateHeaderCacheEntry hash) s (.ok v) t from h)).2]))⟩
  | invalidateRecordCacheEntry hash =>
    exact ⟨content,housed.aside indexed (invalidateQuiet (.inr (.inr h))) (invalidateKeeps (.inr (.inr h)))
      (untouchedDb (by rw [(runsModify.mp (show Runs (invalidateRecordCacheEntry hash) s (.ok v) t from h)).2]))⟩
  | compaction visited =>
    exact ⟨content,(compactionKeeps h).filed filed,compactionRetains lawful indexed filed retains h⟩

end Calls

theorem bootedHoused {config : BlockStoreConfig} {readOnly : Bool} {head : Option ChainTip} (indexed : Indexed s)
    (row : (s.db .metadata)[metaTip]? = head.map ChainTip.toBytes) (housed : Housed crates content s)
    (booted : Booted config readOnly s.db t) : Indexed t ∧ Housed crates content t := by
  obtain ⟨indexed',db,_,floor,cache,_⟩ := bootedIndexed indexed.typed row booted
  have same : t.minRetainedHeightCached = s.minRetainedHeightCached := floor.trans indexed.floorRow
  have unheard : ∀ x, ¬t.Mentions x := by
    obtain ⟨bin,dict,tip,rfl,_⟩ := booted.built
    rintro x (header | body | record)
    · simp [fresh] at header
    · simp [fresh] at body
    · cases record
  refine ⟨indexed',bootedFiled housed.filed booted,fun x above => ?_,fun x mentioned => absurd mentioned (unheard x),
    fun h x above tier => ?_⟩
  · rw [same] at above
    rw [Stored,db]
    exact housed.retains.paired x above
  · rw [same] at above
    rw [Stored,db]
    rcases tier with cached | row
    · rw [cache,Std.ExtTreeMap.getElem?_empty] at cached
      cases cached
    · rw [db] at row
      exact housed.retains.tiers h x above (.inr row)

end Store

def Original (crates : Crates) (s : Store) : Action → Prop
  | .call c => s.Original crates c
  | .reopen _ | .reopenReadonly _ => True

/- Runs of successful calls in which no genesis block collides with another stored block. -/
def ReachesOriginal (crates : Crates) (s : Store) : Prop :=
  ∃ start actions, Opened crates start ∧ Run (Guarded (Original crates) (Takes crates)) start actions s

theorem ReachesOriginal.reaches {crates : Crates} {s : Store} (h : ReachesOriginal crates s) : Reaches crates s := by
  obtain ⟨start,actions,opened,run⟩ := h
  exact ⟨start,actions,opened,run.mono fun _ _ _ both => both.2⟩

theorem takesHoused {crates : Crates} {s t : Store} {action : Action} (lawful : crates.Lawful) (indexed : s.Indexed)
    (housed : ∃ content, s.Housed crates content) (original : Original crates s action)
    (h : Takes crates s action t) : ∃ content, t.Housed crates content := by
  obtain ⟨content,housed⟩ := housed
  cases action with
  | call c => exact Store.callHoused lawful indexed housed original h
  | reopen config =>
    obtain ⟨disk,run⟩ := h
    obtain ⟨_,u,booted,touched⟩ := Store.openStoreOk run
    obtain ⟨indexed',housed'⟩ := Store.bootedHoused indexed indexed.tipRow housed booted
    exact ⟨content,touched.housed lawful indexed' housed'⟩
  | reopenReadonly path =>
    obtain ⟨disk,run⟩ := h
    exact ⟨content,(Store.bootedHoused indexed indexed.tipRow housed (Store.openReadonlyOk run).2).2⟩

theorem openedHoused {crates : Crates} {s : Store} (lawful : crates.Lawful) (opened : Opened crates s) :
    ∃ content, s.Housed crates content := by
  obtain ⟨indexed,coherent,_,empty⟩ := openedIndexed opened
  obtain ⟨content,linked⟩ := openedLinked lawful opened
  refine ⟨content,linked.filed,fun x _ => linked.whole.paired x,fun x mentioned _ => linked.whole.cached x mentioned,
    fun h x above tier => ?_⟩
  rcases tier with cached | row
  · cases (empty h).symm.trans (coherent h x above cached)
  · cases (empty h).symm.trans row

theorem reachesHoused {crates : Crates} {s : Store} (lawful : crates.Lawful) (reached : ReachesOriginal crates s) :
    ∃ content, s.Housed crates content := by
  obtain ⟨start,actions,opened,run⟩ := reached
  exact (run.invariantWith (openedIndexed opened).1 (fun _ _ _ known both => takesIndexed known both.2)
    (openedHoused lawful opened) fun _ _ _ known kept both => takesHoused lawful known kept both.1 both.2).2

end DigBlockstore
