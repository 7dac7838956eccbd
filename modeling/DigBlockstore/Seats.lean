import DigBlockstore.Lookups

/-! The height no file can be asked about has no canonical row while a file is mapped: no
call that returns Ok has put one there, and no file is built over one. -/
namespace DigBlockstore
open ByteCodec Faulty ColumnStore PartialMap Trace
namespace CanonicalBin
variable {crates : Crates}

theorem slotApart {height : UInt64} (fits : (slotEnd height).isSome) : height ≠ lastSlot := by
  rintro rfl
  cases fits

theorem acceptsApart {bin : CanonicalBin} {height : UInt64} (writes : bin.writable = true) (mapped : bin.mapping = true)
    (fits : bin.Accepts height) : height ≠ lastSlot := by
  cases bin with
  | rw d => exact slotApart fits
  | ro mmap => cases writes
  | disabled left => cases mapped

theorem parseCanonicalMem {cells : List (Bytes × Bytes)} {rows : List (UInt64 × Bytes32)}
    (h : parseCanonical cells = .ok rows) {key value : Bytes} (mem : (key,value) ∈ cells) :
    ∃ x, (decodeHeightKey key,x) ∈ rows := by
  induction cells generalizing rows with
  | nil => cases mem
  | cons cell rest ih =>
    unfold parseCanonical at h
    split at h
    · cases h
    · split at h
      · cases h
      · rename_i hash decoded
        cases later : parseCanonical rest with
        | error e => rw [later] at h; cases h
        | ok more =>
          rw [later] at h
          cases h
          rcases List.mem_cons.mp mem with rfl | older
          · exact ⟨hash,by simp⟩
          · obtain ⟨x,inside⟩ := ih later older
            exact ⟨x,List.mem_cons_of_mem _ inside⟩

theorem fillDenseFits {rows : List (UInt64 × Bytes32)} {buf out : Bytes} (h : fillDense crates buf rows = .ok out) :
    ∀ row ∈ rows, row.1.toNat * 32 + 32 ≤ buf.length := by
  induction rows generalizing buf with
  | nil => simp
  | cons row rest ih =>
    unfold fillDense at h
    dsimp only at h
    split at h
    · cases h
    · rename_i stop computed
      split at h
      · cases h
      · split at h
        · cases h
        · have width := row.2.length
          have bounds := usizeOk computed
          have inside : min (row.1.toNat * 32) (2 ^ 64 - 1) = row.1.toNat * 32 ∧
              row.1.toNat * 32 + 32 ≤ buf.length := by omega
          intro other mem
          rcases List.mem_cons.mp mem with rfl | older
          · exact inside.2
          · have later := ih h other older
            rw [copyAtLength (by omega)] at later
            exact later

/- A database with a row at the last slot has no dense file. -/
theorem denseNoLastSlot {db : Db} {file : Bytes} (h : denseBytesFromCf crates db = .ok file) :
    canonicalAt db lastSlot = none := by
  cases row : (db .canonical)[heightKey lastSlot]? with
  | none => rw [canonicalAt,row]; rfl
  | some value =>
    have cell := Std.ExtTreeMap.mem_toList_iff_getElem?_eq_some.mpr row
    unfold denseBytesFromCf at h
    split at h
    · cases h
    · rename_i parsed
      obtain ⟨x,mem⟩ := parseCanonicalMem parsed cell
      cases mem
    · rename_i first rest parsed
      obtain ⟨x,mem⟩ := parseCanonicalMem parsed cell
      rw [decodeHeightKeyHeightKey] at mem
      dsimp only at h
      split at h
      · cases h
      · rename_i size sized
        have fits := fillDenseFits h _ mem
        rw [List.length_replicate] at fits
        dsimp only at fits
        unfold denseSize at sized
        split at sized
        · cases sized
        · split at sized
          · cases sized
          · split at sized
            · cases sized
            · cases sized
              have past := ((lastSlotIff lastSlot).mp rfl).2
              omega

theorem openSyncedDense {db : Db} {path : String} {writable : Bool} {file file' : Option Bytes} {bin : CanonicalBin}
    (h : Runs (openSynced crates db path writable) file (.ok bin) file') : canonicalAt db lastSlot = none := by
  obtain ⟨expected,a,one,_⟩ := runsBindOk h
  exact denseNoLastSlot (runsLift one).1.symm

end CanonicalBin

namespace Store
variable {crates : Crates} {s t u : Store}

def Seated (s : Store) : Prop := s.canonicalBin.mapping = true → canonicalAt s.db lastSlot = none

theorem Seated.along (seated : Seated s) (mapping : t.canonicalBin.mapping = true → s.canonicalBin.mapping = true)
    (rows : s.canonicalBin.mapping = true → canonicalAt s.db lastSlot = none → canonicalAt t.db lastSlot = none) :
    Seated t := fun mapped => rows (mapping mapped) (seated (mapping mapped))

theorem Quiet.seated (quiet : Quiet s t) (seated : Seated s) : Seated t :=
  seated.along (fun mapped => by rwa [quiet.bin] at mapped) fun _ row => by rw [quiet.canonicalAt,row]

theorem Seated.put {rows : List (UInt64 × Bytes32)} (seated : Seated s) (writable : s.canonicalBin.writable = true)
    (mapping : t.canonicalBin.mapping = true → s.canonicalBin.mapping = true)
    (fits : ∀ row ∈ rows, s.canonicalBin.Accepts row.1)
    (index : canonicalAt t.db = putAll rows (canonicalAt s.db)) : Seated t := by
  refine seated.along mapping fun mapped row => ?_
  rw [index,putAllOther,row]
  intro x mem
  exact CanonicalBin.acceptsApart writable mapped (fits _ mem) rfl

theorem Seated.erase {heights : List UInt64} (seated : Seated s)
    (mapping : t.canonicalBin.mapping = true → s.canonicalBin.mapping = true)
    (index : canonicalAt t.db = eraseAll heights (canonicalAt s.db)) : Seated t := by
  refine seated.along mapping fun _ row => ?_
  rw [index,eraseAll]
  split
  · rfl
  · exact row

theorem refreshIndexMapping (canonical : Bool) (height : UInt64) (hash : Bytes32) (s : Store) :
    (s.refreshIndex canonical height hash).canonicalBin.mapping = s.canonicalBin.mapping := by
  unfold refreshIndex
  split
  · rw [insertHeightRest]
    exact CanonicalBin.writtenMapping ..
  · rfl

theorem putSeated {block : L2Block} {canonical added : Bool} (indexed : Indexed s) (seated : Seated s)
    (h : Runs (putBlock crates block canonical) s (.ok added) t) : Seated t := by
  have shift := putBlockShift indexed h
  rcases putBlockOk h with ⟨_,rfl,_⟩ | ⟨rfl,compressed,headerBytes,packs,fits,trained⟩
  · exact seated
  · obtain ⟨bad,_⟩ | ⟨_,_,moved⟩ := shift
    · cases bad
    · have mapping : t.canonicalBin.mapping = s.canonicalBin.mapping := by
        rw [trained.quiet.bin]
        exact refreshIndexMapping ..
      cases canonical with
      | false => exact seated.along (fun mapped => mapping ▸ mapped) fun _ row => (congrFun moved.rows lastSlot).trans row
      | true =>
        refine @Seated.put s t [(block.height,block.hash crates)] seated (indexed.writable packs.writes)
          (fun mapped => mapping ▸ mapped) (fun row mem => ?_) moved.rows
        rw [List.mem_singleton.mp mem]
        exact fits rfl

theorem putsSeated {blocks : List L2Block} (puts : Puts crates blocks s t) (indexed : Indexed s) (seated : Seated s) :
    Seated t := by
  induction puts with
  | nil s => exact seated
  | cons first _ ih => exact ih (putIndexed indexed first) (putSeated indexed seated first)

theorem withTipSeated (tip : ChainTip) (seated : Seated s) : Seated (s.withTip tip) := by
  refine seated.along id fun _ row => ?_
  have column : (s.withTip tip).db .canonical = s.db .canonical := frameColumn (by simp [ColumnStore.Write.column])
  rw [canonicalAtCongr column,row]

theorem retipBin (target : UInt64) (found : Option Bytes32) (s : Store) :
    (s.retip target found).canonicalBin = s.canonicalBin := by cases found <;> rfl

theorem RolledBack.mapping {target : UInt64} {tip : ChainTip} {reverted : List Bytes32}
    (back : RolledBack crates s t target tip reverted) : t.canonicalBin.mapping = s.canonicalBin.mapping := by
  obtain ⟨u,v,found,rolling,_,looking,rfl⟩ := back.steps
  have touched := (@getHashByHeightRuns crates _ _ _ _ looking).1
  change (flagRecords false reverted (v.retip target found)).canonicalBin.mapping = s.canonicalBin.mapping
  rw [flagRecordsRest]
  change (v.retip target found).canonicalBin.mapping = s.canonicalBin.mapping
  rw [retipBin,touched.bin,← rolling.touched.bin]
  exact CanonicalBin.cutMapping ..

theorem reorgedMapping (ancestor : UInt64) (hashes : List Bytes32) (plan : ReorgPlan) :
    (u.reorged ancestor hashes plan).canonicalBin.mapping = u.canonicalBin.mapping := by
  change (flagRecords true hashes (flagRecords false plan.reverted (u.switched ancestor plan))).canonicalBin.mapping = _
  rw [flagRecordsRest,flagRecordsRest]
  change ((u.canonicalBin.cut ancestor).writtenAll (rowsOf plan.records)).mapping = u.canonicalBin.mapping
  rw [CanonicalBin.writtenAllMapping,CanonicalBin.cutMapping]

theorem genesisSeated {block : L2Block} {v : Unit} (indexed : Indexed s) (seated : Seated s)
    (h : Runs (initGenesis crates block) s (.ok v) t) : Seated t := by
  have shift := (initGenesisShift indexed h).2
  obtain ⟨writes,_,_,fits,compressed,headerBytes,_,_,trained⟩ := initGenesisOk h
  have mapping : t.canonicalBin.mapping = s.canonicalBin.mapping := by
    rw [trained.quiet.bin]
    exact CanonicalBin.writtenMapping ..
  refine @Seated.put s t [(0,block.hash crates)] seated (indexed.writable writes) (fun mapped => mapping ▸ mapped)
    (fun row mem => ?_) shift.rows
  rw [List.mem_singleton.mp mem]
  exact fits

theorem flushSeated {jobs : List PipelineJob} {v : Unit} (indexed : Indexed s) (seated : Seated s)
    (h : Runs (call crates (.flush jobs)) s (.ok v) t) : Seated t := by
  rcases flushOkOk h with rfl | ⟨staged,writes,_,fits,cached⟩
  · exact seated
  · refine cached.quiet.seated ?_
    refine @Seated.put s _ (Pipeline.canonicalRows staged) seated (indexed.writable writes)
      (fun mapped => ?_) (fun row mem => ?_) (rowWritesCanonical staged s.db)
    · rwa [show (Pipeline.flushed staged s).canonicalBin = s.canonicalBin.writtenAll (Pipeline.canonicalRows staged)
        from rfl,CanonicalBin.writtenAllMapping] at mapped
    · obtain ⟨one,inside,rfl⟩ := List.mem_map.mp mem
      obtain ⟨staging,canonical⟩ := List.mem_filter.mp inside
      exact fits one staging canonical

theorem extendSeated {block : L2Block} {added : Bool} (indexed : Indexed s) (seated : Seated s)
    (h : Runs (extendChain crates block) s (.ok added) t) : Seated t := by
  rcases extendChainOk h with ⟨_,rfl,_⟩ | ⟨_,_,u,b,putting,_,rfl⟩
  · exact seated
  · exact withTipSeated _ (putSeated indexed seated putting)

theorem setCanonicalSeated {hash : Bytes32} {v : Unit} (indexed : Indexed s) (seated : Seated s)
    (h : Runs (setCanonical crates hash) s (.ok v) t) : Seated t := by
  obtain ⟨record,u,writes,touched,_,_,fits,rfl⟩ := setCanonicalOk h
  have indexed' := touched.quiet.indexed indexed
  refine @Seated.put u _ [(record.height,hash)] (touched.quiet.seated seated)
    (indexed'.writable (touched.readOnly.trans writes)) (fun mapped => ?_) (fun row mem => ?_) ?_
  · rw [markedRest,insertHeightRest] at mapped
    change (u.canonicalBin.written record.height hash).mapping = true at mapped
    rwa [CanonicalBin.writtenMapping] at mapped
  · rw [List.mem_singleton.mp mem]
    exact fits
  · rw [markedRest,insertHeightRest]
    exact canonicalAtPut u.db record.height hash

theorem setCanonicalBatchSeated {hashes : List Bytes32} {v : Unit} (indexed : Indexed s) (seated : Seated s)
    (h : Runs (setCanonicalBatch crates hashes) s (.ok v) t) : Seated t := by
  rcases setCanonicalBatchOk h with ⟨_,rfl⟩ | ⟨validated,u,writes,touched,_,_,_,fits,rfl⟩
  · exact seated
  · refine @Seated.put u _ (rowsOf validated) (touched.quiet.seated seated)
      ((touched.quiet.indexed indexed).writable (touched.readOnly.trans writes)) (fun mapped => ?_)
      (fun row mem => ?_) (canonicalAtPutAll (rowsOf validated) u.db)
    · rwa [show (u.batched validated).canonicalBin = u.canonicalBin.writtenAll (rowsOf validated) from rfl,
        CanonicalBin.writtenAllMapping] at mapped
    · obtain ⟨one,inside,rfl⟩ := List.mem_map.mp mem
      exact fits one inside

theorem rollbackSeated (crates : Crates) {target : UInt64} {reverted : List Bytes32} (indexed : Indexed s) (seated : Seated s)
    (h : Runs (rollbackToHeight target) s (.ok reverted) t) : Seated t := by
  obtain ⟨tip,_,_,_,_,⟨_,_,rfl⟩ | back⟩ := @rollbackOk crates _ _ _ _ h
  · exact seated
  · obtain ⟨found,_,shift⟩ := rollbackShift indexed back
    exact seated.erase (fun mapped => by rwa [back.mapping] at mapped) shift.rows

theorem reorgSeated {ancestor : UInt64} {hashes : List Bytes32} {result : ReorgResult} (indexed : Indexed s)
    (seated : Seated s) (h : Runs (applyReorg crates ancestor hashes) s (.ok result) t) : Seated t := by
  obtain ⟨plan,u,planned,fits,slots,_,rfl⟩ := applyReorgOk h
  have touched := planned.touched
  have shift := applyReorgShift indexed planned fits
  refine seated.along (fun mapped => by rwa [reorgedMapping,touched.bin] at mapped) fun mapped row => ?_
  rw [shift.rows,ReorgPlan.index,putAllOther,eraseAll]
  · split
    · rfl
    · exact row
  · intro x mem
    obtain ⟨one,inside,same⟩ := List.mem_map.mp mem
    have apart := CanonicalBin.acceptsApart ((touched.quiet.indexed indexed).writable
      (touched.readOnly.trans planned.writes)) (touched.bin ▸ mapped) (slots one inside)
    exact apart (congrArg Prod.fst same)

theorem pruneSeated {height : UInt64} {n : Nat} (indexed : Indexed s) (seated : Seated s)
    (h : Runs (pruneBeforeHeight crates height) s (.ok n) t) : Seated t := by
  rcases pruneRuns indexed h with ⟨⟨e,bad⟩,_⟩ | ⟨_,_,_,rfl⟩ | ⟨plan,u,pruning,_,rfl⟩
  · cases bad
  · exact seated
  · refine seated.erase (fun mapped => ?_) (pruneShift indexed pruning).rows
    rw [← pruning.touched.bin]
    rw [pruned,evictHeightsBelow,evictAllRest] at mapped
    exact mapped

theorem callSeated {c : Call} {v : Unit} (indexed : Indexed s) (seated : Seated s)
    (h : Runs (call crates c) s (.ok v) t) : Seated t := by
  cases c with
  | read r => exact (readTouched h).quiet.seated seated
  | initGenesis block => exact genesisSeated indexed seated h
  | putBlock block canonical =>
    obtain ⟨added,run⟩ := discardOk h
    exact putSeated indexed seated run
  | flush jobs => exact flushSeated indexed seated h
  | extendChain block =>
    obtain ⟨added,run⟩ := discardOk h
    exact extendSeated indexed seated run
  | setCanonical hash => exact setCanonicalSeated indexed seated h
  | setCanonicalBatch hashes => exact setCanonicalBatchSeated indexed seated h
  | rollbackToHeight target =>
    obtain ⟨reverted,run⟩ := discardOk h
    exact rollbackSeated crates indexed seated run
  | applyReorg ancestor hashes =>
    obtain ⟨result,run⟩ := discardOk h
    exact reorgSeated indexed seated run
  | pruneBeforeHeight height =>
    obtain ⟨n,run⟩ := discardOk h
    exact pruneSeated indexed seated run
  | setTip tip =>
    rw [(setTipOk h).2]
    exact withTipSeated tip seated
  | putAttestation hash attested => exact (putAttestationQuiet h).seated seated
  | putCheckpoint checkpoint => exact (putCheckpointQuiet h).seated seated
  | pruneCheckpointsBeforeEpoch epoch =>
    obtain ⟨n,run⟩ := discardOk h
    exact (pruneCheckpointsQuiet run).seated seated
  | updateStatus hash status => exact (updateStatusQuiet h).seated seated
  | importSnapshot input =>
    obtain ⟨manifest,run⟩ := discardOk h
    obtain ⟨blocks,puts⟩ := importSnapshotOk run
    exact putsSeated puts indexed seated
  | initDictionary => exact (initDictionaryQuiet h).seated seated
  | disableCanonicalBinAcceleration =>
    change Runs disableCanonicalBinAcceleration s (.ok v) t at h
    rw [(runsModify.mp h).2]
    intro mapped
    cases mapped
  | invalidateBlockCacheEntry hash => exact (invalidateQuiet (.inl h)).seated seated
  | invalidateHeaderCacheEntry hash => exact (invalidateQuiet (.inr (.inl h))).seated seated
  | invalidateRecordCacheEntry hash => exact (invalidateQuiet (.inr (.inr h))).seated seated
  | compaction visited => exact (compactionQuiet h).seated seated

theorem openFilesSeated {config : BlockStoreConfig} {readOnly : Bool} {disk disk' : Disk}
    (h : Runs (openFiles crates config readOnly) disk (.ok s) disk') : canonicalAt disk.db lastSlot = none := by
  obtain ⟨_,a,one,mapping⟩ := runsBindOk h
  have same := runsStepOk one
  subst same
  rw [runsGetBind] at mapping
  obtain ⟨bin,b,two,_⟩ := runsBindOk mapping
  obtain ⟨file,opening,_⟩ := runsZoom two
  exact CanonicalBin.openSyncedDense opening

theorem openStoreSeated {config : BlockStoreConfig} {disk disk' : Disk}
    (h : Runs (openStore crates config) disk (.ok s) disk') : canonicalAt disk.db lastSlot = none := by
  obtain ⟨_,a,one,opening⟩ := runsBindOk h
  have same := runsStepOk one
  subst same
  obtain ⟨_,_,two,_⟩ := runsBindOk opening
  exact openFilesSeated two

theorem openReadonlySeated {path : String} {disk disk' : Disk}
    (h : Runs (openReadonly crates path) disk (.ok s) disk') : canonicalAt disk.db lastSlot = none := by
  obtain ⟨_,a,one,opening⟩ := runsBindOk h
  have same := runsStepOk one
  subst same
  exact openFilesSeated opening

end Store

theorem takesSeated {crates : Crates} {s t : Store} {action : Action} (indexed : s.Indexed) (seated : s.Seated)
    (h : Takes crates s action t) : t.Seated := by
  cases action with
  | call c => exact Store.callSeated indexed seated h
  | reopen config =>
    obtain ⟨disk,run⟩ := h
    have row := Store.openStoreSeated run
    obtain ⟨_,u,booted,touched⟩ := Store.openStoreOk run
    intro _
    rwa [touched.db,(Store.bootedIndexed indexed.typed indexed.tipRow booted).2.1]
  | reopenReadonly path =>
    obtain ⟨disk,run⟩ := h
    have row := Store.openReadonlySeated run
    obtain ⟨_,booted⟩ := Store.openReadonlyOk run
    intro _
    rwa [(Store.bootedIndexed indexed.typed indexed.tipRow booted).2.1]

theorem reachesSeated {crates : Crates} {s : Store} (h : Reaches crates s) : s.Indexed ∧ s.Seated := by
  obtain ⟨start,actions,opened,run⟩ := h
  obtain ⟨indexed,_,_,rows⟩ := openedIndexed opened
  exact run.invariantWith indexed (fun _ _ _ => takesIndexed) (fun _ => rows lastSlot)
    fun _ _ _ known kept taken => takesSeated known kept taken

namespace Store
variable {crates : Crates} {s : Store}

/- A height at or above the floor whose slot does not end past the last `usize` of a mapped file. -/
def Representable (s : Store) (height : UInt64) : Prop :=
  s.canonicalBin.mapping = true → height = lastSlot → height < s.minRetainedHeightCached

theorem Representable.answerable {height : UInt64} (fits : s.Representable height) : s.Answerable height :=
  fun mapped last => .inl (fits mapped last)

theorem answerableIff (coherent : Coherent s) (seated : Seated s) (height : UInt64) :
    s.Answerable height ↔ s.Representable height := by
  refine ⟨fun asked mapped last => ?_,Representable.answerable⟩
  rcases asked mapped last with low | cached
  · exact low
  · by_contra high
    obtain ⟨x,held⟩ := Option.isSome_iff_exists.mp cached
    have row := coherent height x (UInt64.not_lt.mp high) held
    rw [last,seated mapped] at row
    cases row

end Store
end DigBlockstore
