import DigBlockstore.IngestEffects

/-! What genesis, puts, extension and canonical switches do to the index. -/
namespace DigBlockstore
open ByteCodec Faulty ColumnStore PartialMap
namespace Store
variable {crates : Crates} {s t u : Store}

theorem shiftCommit (indexed : Indexed s) {batch : List Write} {bin : CanonicalBin}
    {index : UInt64 → Option Bytes32} {head : Option ChainTip}
    (typed : ∀ write ∈ batch, TypedWrite write) (rows : canonicalAt (applyAll batch s.db) = index)
    (sound : bin.Sound s.minRetainedHeightCached index) (writable : bin.writable = true)
    (tipRow : (applyAll batch s.db .metadata)[metaTip]? = head.map ChainTip.toBytes)
    (floorRow : (applyAll batch s.db .metadata)[metaMinHeight]? = (s.db .metadata)[metaMinHeight]?) :
    Shift s {s.commit batch with canonicalBin := bin,tip := head} index head s.minRetainedHeightCached
      fun _ => True where
  indexed :=
    { typed := typedCommit indexed.typed typed
      bin := by
        change bin.Sound s.minRetainedHeightCached (canonicalAt (applyAll batch s.db))
        rw [rows]
        exact sound
      writable := fun _ => writable
      tipRow := tipRow
      floorRow := (loadFloorCongr floorRow).trans indexed.floorRow }
  rows := rows
  tip := rfl
  floor := rfl
  readOnly := rfl
  capacity := rfl
  heights _ _ _ found := .inr ⟨found,trivial⟩

theorem Shift.refresh {index : UInt64 → Option Bytes32} {head : Option ChainTip} {base height : UInt64}
    {hash : Bytes32} (shift : Shift s t index head base fun _ => True) (here : index height = some hash) :
    Shift s (t.insertCanonicalHeightCache height hash) index head base
      fun h => s.canonicalHeightCacheCapacity ≠ 0 → h ≠ height := by
  have quiet : ∀ h x, base ≤ h →
      (t.insertCanonicalHeightCache height hash).canonicalHeightCache[h]? = some x →
        index h = some x ∨ s.canonicalHeightCache[h]? = some x ∧
          (s.canonicalHeightCacheCapacity ≠ 0 → h ≠ height) := by
    intro h x low found
    rcases insertHeightFound found with ⟨rfl,rfl⟩ | ⟨older,apart⟩
    · exact .inl here
    · rcases shift.heights h x low older with row | ⟨first,_⟩
      · exact .inl row
      · exact .inr ⟨first,by rwa [shift.capacity] at apart⟩
  rw [insertHeightRest] at quiet ⊢
  exact ⟨⟨shift.indexed.typed,shift.indexed.bin,shift.indexed.writable,shift.indexed.tipRow,
    shift.indexed.floorRow⟩,shift.rows,shift.tip,shift.floor,shift.readOnly,shift.capacity,quiet⟩

theorem typedPutRows (block : L2Block) (canonical : Bool) (compressed headerBytes : Bytes) :
    ∀ write ∈ putRows crates block canonical compressed headerBytes, TypedWrite write := by
  intro write mem
  rcases List.mem_append.mp mem with body | row
  · exact typedAside (asideBodyRows _ _ _ write body)
  · cases canonical with
    | false => cases row
    | true =>
      rw [List.mem_singleton.mp row]
      exact typedCanonicalRow _ _

theorem metadataPutRows (block : L2Block) (canonical : Bool) (compressed headerBytes : Bytes) (db : Db)
    (key : Bytes) :
    (applyAll (putRows crates block canonical compressed headerBytes) db .metadata)[key]? =
      (db .metadata)[key]? := by
  apply ColumnStore.frame
  intro write mem
  apply effectOtherColumn
  rcases List.mem_append.mp mem with body | row
  · simp only [bodyRows,List.mem_cons,List.not_mem_nil,or_false] at body
    rcases body with rfl | rfl <;> simp [ColumnStore.Write.column]
  · cases canonical with
    | false => cases row
    | true =>
      rw [List.mem_singleton.mp row]
      simp [canonicalRow,ColumnStore.Write.column]

theorem putRowsCanonical (block : L2Block) (compressed headerBytes : Bytes) (db : Db) :
    canonicalAt (applyAll (putRows crates block true compressed headerBytes) db) =
      Function.update (canonicalAt db) block.height (some (block.hash crates)) := by
  unfold putRows
  rw [if_pos rfl,applyAllAppend,canonicalAtPut,canonicalAtAside (asideBodyRows _ _ _)]

def putIndex (crates : Crates) (s : Store) (block : L2Block) (canonical : Bool) : UInt64 → Option Bytes32 :=
  if canonical then Function.update (canonicalAt s.db) block.height (some (block.hash crates))
  else canonicalAt s.db

/- The heights at which a put may leave an older cached hash. -/
def putKept (s : Store) (block : L2Block) (canonical : Bool) (h : UInt64) : Prop :=
  canonical = true → s.canonicalHeightCacheCapacity ≠ 0 → h ≠ block.height

theorem ingestedShift (indexed : Indexed s) (writes : s.readOnly = false) (block : L2Block)
    (canonical : Bool) (compressed headerBytes : Bytes) :
    Shift s (s.ingested crates block canonical compressed headerBytes) (putIndex crates s block canonical)
      s.tip s.minRetainedHeightCached (putKept s block canonical) := by
  refine .andQuiet (.andQuiet ?_ (quietCacheBlock block)) (quietCacheHeight _ _)
  cases canonical with
  | false =>
    have quiet : Quiet s (s.commit (putRows crates block false compressed headerBytes)) := by
      apply quietCommit
      simpa [putRows] using asideBodyRows (block.hash crates) compressed headerBytes
    have shift := Shift.ofQuiet quiet indexed
    exact ⟨shift.indexed,shift.rows,shift.tip,shift.floor,shift.readOnly,shift.capacity,
      fun h x low found => (shift.heights h x low found).imp_right fun older => ⟨older.1,by simp [putKept]⟩⟩
  | true =>
    have put : Shift s ((s.commit (putRows crates block true compressed headerBytes)).writeSlot block.height
        (block.hash crates)) (putIndex crates s block true) s.tip s.minRetainedHeightCached fun _ => True :=
      shiftCommit indexed (typedPutRows block true compressed headerBytes)
        (putRowsCanonical block compressed headerBytes s.db)
        (indexed.bin.writeAll (indexed.writable writes) [(block.height,block.hash crates)])
        ((CanonicalBin.writtenWritable ..).trans (indexed.writable writes))
        ((metadataPutRows ..).trans indexed.tipRow) (metadataPutRows ..)
    have fresh := put.refresh (Function.update_self ..)
    exact ⟨fresh.indexed,fresh.rows,fresh.tip,fresh.floor,fresh.readOnly,fresh.capacity,
      fun h x low found => (fresh.heights h x low found).imp_right fun older => ⟨older.1,fun _ => older.2⟩⟩

theorem putBlockShift {block : L2Block} {canonical added : Bool} (indexed : Indexed s)
    (h : Runs (putBlock crates block canonical) s (.ok added) t) :
    added = false ∧ t = s ∨ added = true ∧ (s.db .blocks)[hashKey (block.hash crates)]? = none ∧
      Shift s t (putIndex crates s block canonical) s.tip s.minRetainedHeightCached
        (putKept s block canonical) := by
  rcases putBlockOk h with ⟨no,same,_⟩ | ⟨yes,compressed,headerBytes,packs,_,trained⟩
  · exact .inl ⟨no,same⟩
  · exact .inr ⟨yes,packs.absent,(ingestedShift indexed packs.writes block canonical compressed headerBytes).andQuiet
      trained.quiet⟩

theorem Shift.withTip {index : UInt64 → Option Bytes32} {head : Option ChainTip} {base : UInt64}
    {kept : UInt64 → Prop} (shift : Shift s t index head base kept) (tip : ChainTip) :
    Shift s (t.withTip tip) index (some tip) base kept := by
  have rows : ∀ write ∈ [(.put .metadata metaTip tip.toBytes : Write)], ∀ key,
      write.effect .canonical key = none := by
    intro write mem key
    rw [List.mem_singleton.mp mem]
    simp [effectPut]
  have column : applyAll [(.put .metadata metaTip tip.toBytes : Write)] t.db .canonical = t.db .canonical :=
    Std.ExtTreeMap.ext_getElem? fun key => ColumnStore.frame fun write mem => rows write mem key
  have floorRow : (applyAll [(.put .metadata metaTip tip.toBytes : Write)] t.db .metadata)[metaMinHeight]? =
      (t.db .metadata)[metaMinHeight]? := by
    apply ColumnStore.frame
    intro write mem
    rw [List.mem_singleton.mp mem,effectPut,if_neg]
    simp
  have tipRow : (applyAll [(.put .metadata metaTip tip.toBytes : Write)] t.db .metadata)[metaTip]? =
      some tip.toBytes := by
    rw [getApplyAll,lastEffectCons,lastEffectNil,effectPut,if_pos ⟨rfl,rfl⟩]
    rfl
  refine ⟨⟨?_,?_,shift.indexed.writable,tipRow,(loadFloorCongr floorRow).trans shift.indexed.floorRow⟩,
    ?_,rfl,shift.floor,shift.readOnly,shift.capacity,shift.heights⟩
  · intro k v row
    change (applyAll _ t.db .canonical)[k]? = some v at row
    rw [column] at row
    exact shift.indexed.typed k v row
  · exact shift.indexed.bin.raise (UInt64.le_refl _) fun h _ => canonicalAtCongr column h
  · exact (funext (canonicalAtCongr column)).trans shift.rows

theorem extendChainShift {block : L2Block} {added : Bool} (indexed : Indexed s)
    (h : Runs (extendChain crates block) s (.ok added) t) :
    added = false ∧ t = s ∧ s.hasBlock (block.hash crates) = true ∨
    added = true ∧ s.hasBlock (block.hash crates) = false ∧
      Shift s t (putIndex crates s block true) (some ⟨block.hash crates,block.height⟩)
        s.minRetainedHeightCached (putKept s block true) := by
  rcases extendChainOk h with ⟨no,same,present⟩ | ⟨yes,absent,u,b,putting,_,rfl⟩
  · exact .inl ⟨no,same,present⟩
  · rcases putBlockOk putting with ⟨_,_,present⟩ | ⟨_,compressed,headerBytes,packs,_,trained⟩
    · simp [hasBlock,present] at absent
    · have shift := (@ingestedShift crates s indexed packs.writes block true compressed headerBytes).andQuiet
        trained.quiet
      exact .inr ⟨yes,absent,shift.withTip ⟨block.hash crates,block.height⟩⟩

theorem setTipShift {tip : ChainTip} {v : Unit} (indexed : Indexed s) (h : Runs (setTip tip) s (.ok v) t) :
    Shift s t (canonicalAt s.db) (some tip) s.minRetainedHeightCached fun _ => True := by
  obtain ⟨_,rfl⟩ := setTipOk h
  exact (Shift.ofQuiet (.refl s) indexed).withTip tip

section Genesis

def genesisRows (crates : Crates) (block : L2Block) (compressed headerBytes : Bytes) : List Write :=
  bodyRows (block.hash crates) compressed headerBytes ++ [canonicalRow 0 (block.hash crates),
    .put .metadata metaTip (ChainTip.toBytes ⟨block.hash crates,0⟩),
    .put .metadata metaGenesisHash (block.hash crates).bytes]

def genesis (crates : Crates) (block : L2Block) (compressed headerBytes : Bytes) (s : Store) : Store :=
  cacheBlock crates block {(s.commit (genesisRows crates block compressed headerBytes)).writeSlot 0
    (block.hash crates) with tip := some ⟨block.hash crates,0⟩}

theorem initGenesisOk {block : L2Block} {v : Unit} (h : Runs (initGenesis crates block) s (.ok v) t) :
    s.readOnly = false ∧ (s.db .metadata)[metaTip]? = none ∧ block.height = 0 ∧
      s.canonicalBin.Accepts 0 ∧ ∃ compressed headerBytes,
        s.serializeBlock crates block = .ok compressed ∧
        serializeHeader crates block.header = .ok headerBytes ∧
        Trained (s.genesis crates block compressed headerBytes) t := by
  obtain ⟨_,u,opening,checking⟩ := runsBindOk h
  obtain ⟨writes,rfl⟩ := refuseReadOnlyOk opening
  rw [runsGetBind] at checking
  split at checking
  · cases (runsError.mp checking).1
  · rename_i uninitialized
    split at checking
    · cases (runsError.mp checking).1
    · rename_i zero
      obtain ⟨compressed,v,one,packing⟩ := runsBindOk checking
      obtain ⟨body,rfl⟩ := runsOfExceptOk one
      obtain ⟨headerBytes,w,two,committing⟩ := runsBindOk packing
      obtain ⟨header,rfl⟩ := runsOfExceptOk two
      obtain ⟨_,x,three,indexing⟩ := runsBindOk committing
      have batch := writeOk three
      subst batch
      obtain ⟨_,y,four,caching⟩ := runsBindOk indexing
      obtain ⟨fits,rfl⟩ := extendWriteRuns four
      rw [runsModifyBind,runsModifyBind,runsModifyBind,runsModifyBind] at caching
      have absent : (w.db .metadata)[metaTip]? = none := by
        simp only [Bool.or_eq_true,not_or] at uninitialized
        simpa using uninitialized.1
      exact ⟨writes,absent,by simpa using zero,fits,compressed,headerBytes,body,header,maybeTrainRuns caching⟩

theorem initGenesisShift {block : L2Block} {v : Unit} (indexed : Indexed s)
    (h : Runs (initGenesis crates block) s (.ok v) t) :
    s.tip = none ∧ Shift s t (Function.update (canonicalAt s.db) 0 (some (block.hash crates)))
      (some ⟨block.hash crates,0⟩) s.minRetainedHeightCached fun _ => True := by
  obtain ⟨writes,absent,zero,fits,compressed,headerBytes,_,_,trained⟩ := initGenesisOk h
  refine ⟨?_,.andQuiet (.andQuiet ?_ (quietCacheBlock block)) trained.quiet⟩
  · have row := indexed.tipRow
    rw [absent] at row
    exact Option.map_eq_none_iff.mp row.symm
  · have split : genesisRows crates block compressed headerBytes =
        (bodyRows (block.hash crates) compressed headerBytes ++ [canonicalRow 0 (block.hash crates)]) ++
          [.put .metadata metaTip (ChainTip.toBytes ⟨block.hash crates,0⟩),
            .put .metadata metaGenesisHash (block.hash crates).bytes] := by simp [genesisRows]
    refine shiftCommit indexed ?_ ?_
      (indexed.bin.writeAll (indexed.writable writes) [(0,block.hash crates)])
      ((CanonicalBin.writtenWritable ..).trans (indexed.writable writes)) ?_ ?_
    · intro write mem
      rw [split] at mem
      rcases List.mem_append.mp mem with rows | metas
      · rcases List.mem_append.mp rows with body | row
        · exact typedAside (asideBodyRows _ _ _ write body)
        · rw [List.mem_singleton.mp row]
          exact typedCanonicalRow _ _
      · simp only [List.mem_cons,List.not_mem_nil,or_false] at metas
        rcases metas with rfl | rfl <;> trivial
    · have metas : ∀ db : Db, canonicalAt (applyAll [.put .metadata metaTip
          (ChainTip.toBytes ⟨block.hash crates,0⟩),.put .metadata metaGenesisHash
            (block.hash crates).bytes] db) = canonicalAt db := by
        intro db
        refine funext (canonicalAtCongr (frameColumn ?_))
        simp [ColumnStore.Write.column]
      rw [split,applyAllAppend,metas,applyAllAppend,canonicalAtPut,canonicalAtAside (asideBodyRows _ _ _)]
    · rw [getApplyAll,split]
      simp [lastEffectAppend,lastEffectCons,effectPut]
    · rw [getApplyAll,split]
      simp [lastEffectCons,effectPut,bodyRows,canonicalRow]

end Genesis

section Switch

theorem Shift.ofSame {index : UInt64 → Option Bytes32} {head : Option ChainTip} {base : UInt64}
    {kept : UInt64 → Prop} (quiet : Quiet s t) (cache : t.canonicalHeightCache = s.canonicalHeightCache)
    (shift : Shift t u index head base kept) : Shift s u index head base kept where
  indexed := shift.indexed
  rows := shift.rows
  tip := shift.tip
  floor := shift.floor
  readOnly := shift.readOnly.trans quiet.readOnly
  capacity := shift.capacity.trans quiet.capacity
  heights h x low found := by
    have moved := shift.heights h x low found
    rwa [cache] at moved

theorem flagRecordRest (flag : Bool) (hash : Bytes32) (s : Store) :
    s.flagRecord flag hash = {s with recordCache := (s.flagRecord flag hash).recordCache} := by
  unfold flagRecord
  split <;> rfl

theorem markedRest (hash : Bytes32) (record : BlockRecord) (s : Store) :
    s.markCanonical hash record = {s with recordCache := (s.markCanonical hash record).recordCache} := by
  unfold markCanonical
  split
  · exact flagRecordRest true hash s
  · rfl

theorem quietRecords (records : Bytes32 → Option BlockRecord) : Quiet s {s with recordCache := records} :=
  ⟨rfl,rfl,rfl,rfl,rfl,rfl,rfl,rfl,fun _ _ _ found => .inl found⟩

theorem quietMarked (hash : Bytes32) (record : BlockRecord) : Quiet s (s.markCanonical hash record) := by
  rw [markedRest]
  exact quietRecords _

def rowsOf (validated : List (Bytes32 × BlockRecord)) : List (UInt64 × Bytes32) :=
  validated.map fun row => (row.2.height,row.1)

theorem getRecordOrMissingOk {hash : Bytes32} {row : Bytes32 × BlockRecord}
    (h : Runs (getRecordOrMissing crates hash) s (.ok row) t) :
    Touched crates s t ∧ t.canonicalHeightCache = s.canonicalHeightCache ∧ row.1 = hash ∧
      t.recordCache hash = some row.2 := by
  obtain ⟨found,u,read,later⟩ := runsBindOk h
  obtain ⟨touched,cache,held,_⟩ := getRecordRuns read
  cases found with
  | none => cases (runsError.mp later).1
  | some record =>
    obtain ⟨hr,rfl⟩ := runsPure.mp later
    cases hr
    exact ⟨touched,cache,rfl,held record rfl⟩

theorem validatedOk {hashes : List Bytes32} {validated : List (Bytes32 × BlockRecord)}
    (h : Runs (Op.collect (getRecordOrMissing crates) hashes) s (.ok validated) t) :
    Touched crates s t ∧ t.canonicalHeightCache = s.canonicalHeightCache ∧
      validated.map Prod.fst = hashes ∧ ∀ row ∈ validated, t.recordCache row.1 = some row.2 := by
  induction hashes generalizing s validated with
  | nil =>
    obtain ⟨hr,rfl⟩ := runsPure.mp h
    cases hr
    exact ⟨.refl _,rfl,rfl,by simp⟩
  | cons hash rest ih =>
    obtain ⟨row,u,read,later⟩ := runsBindOk h
    obtain ⟨rows,v,more,last⟩ := runsBindOk later
    obtain ⟨hr,rfl⟩ := runsPure.mp last
    cases hr
    obtain ⟨touched,cache,same,held⟩ := getRecordOrMissingOk read
    obtain ⟨touched',cache',same',held'⟩ := ih more
    refine ⟨touched.trans touched',cache'.trans cache,by rw [List.map_cons,same,same'],?_⟩
    intro r mem
    rcases List.mem_cons.mp mem with rfl | older
    · rw [same]
      exact touched'.recordsKept _ _ held
    · exact held' r older

theorem rowsOfHashes {validated : List (Bytes32 × BlockRecord)} :
    (rowsOf validated).map Prod.snd = validated.map Prod.fst := by
  simp [rowsOf,Function.comp_def]

theorem setCanonicalOk {hash : Bytes32} {v : Unit} (h : Runs (setCanonical crates hash) s (.ok v) t) :
    ∃ record u, s.readOnly = false ∧ Touched crates s u ∧ u.canonicalHeightCache = s.canonicalHeightCache ∧
      u.recordCache hash = some record ∧ u.canonicalBin.Accepts record.height ∧
      t = ((((u.commit [canonicalRow record.height hash]).writeSlot record.height
        hash).insertCanonicalHeightCache record.height hash).cacheHeight hash record.height).markCanonical hash record := by
  obtain ⟨_,u,opening,reading⟩ := runsBindOk h
  obtain ⟨writes,rfl⟩ := refuseReadOnlyOk opening
  obtain ⟨row,v,one,committing⟩ := runsBindOk reading
  obtain ⟨touched,cache,same,held⟩ := getRecordOrMissingOk one
  obtain ⟨_,w,two,indexing⟩ := runsBindOk committing
  have batch := writeOk two
  subst batch
  obtain ⟨_,x,three,caching⟩ := runsBindOk indexing
  obtain ⟨fits,rfl⟩ := extendWriteRuns three
  rw [runsModifyBind,runsModifyBind] at caching
  exact ⟨row.2,v,writes,touched,cache,held,fits,(runsModify.mp caching).2⟩

theorem metadataRows (rows : List (UInt64 × Bytes32)) (db : Db) (key : Bytes) :
    (applyAll (rows.map fun row => canonicalRow row.1 row.2) db .metadata)[key]? = (db .metadata)[key]? := by
  apply ColumnStore.frame
  intro write mem
  obtain ⟨row,_,rfl⟩ := List.mem_map.mp mem
  exact metadataCanonicalRow _ _ _

theorem typedRows (rows : List (UInt64 × Bytes32)) :
    ∀ write ∈ rows.map fun row => canonicalRow row.1 row.2, TypedWrite write := by
  intro write mem
  obtain ⟨row,_,rfl⟩ := List.mem_map.mp mem
  exact typedCanonicalRow _ _

theorem shiftRows (indexed : Indexed s) (writes : s.readOnly = false) (rows : List (UInt64 × Bytes32)) :
    Shift s {s.commit (rows.map fun row => canonicalRow row.1 row.2) with
        canonicalBin := s.canonicalBin.writtenAll rows}
      (putAll rows (canonicalAt s.db)) s.tip s.minRetainedHeightCached fun _ => True :=
  shiftCommit indexed (typedRows rows) (canonicalAtPutAll rows s.db)
    (indexed.bin.writeAll (indexed.writable writes) rows)
    ((CanonicalBin.writtenAllWritable ..).trans (indexed.writable writes))
    ((metadataRows ..).trans indexed.tipRow) (metadataRows ..)

theorem setCanonicalShift {hash : Bytes32} {v : Unit} (indexed : Indexed s)
    (h : Runs (setCanonical crates hash) s (.ok v) t) :
    ∃ record u, Touched crates s u ∧ u.recordCache hash = some record ∧
      Shift s t (Function.update (canonicalAt s.db) record.height (some hash)) s.tip s.minRetainedHeightCached
        fun h => s.canonicalHeightCacheCapacity ≠ 0 → h ≠ record.height := by
  obtain ⟨record,u,writes,touched,cache,held,_,rfl⟩ := setCanonicalOk h
  refine ⟨record,u,touched,held,?_⟩
  have put := shiftRows (touched.quiet.indexed indexed) (touched.readOnly.trans writes) [(record.height,hash)]
  have fresh := ((put.refresh (Function.update_self ..)).andQuiet
    (quietCacheHeight hash record.height)).andQuiet (quietMarked hash record)
  have moved := Shift.ofSame touched.quiet cache fresh
  rw [touched.capacity,touched.tip,touched.floor,funext touched.quiet.canonicalAt] at moved
  exact moved

theorem markedRecords {hash : Bytes32} {record : BlockRecord} (same : t.recordCache = s.recordCache) :
    (t.markCanonical hash record).recordCache = (s.markCanonical hash record).recordCache := by
  unfold markCanonical flagRecord cacheRecord
  rw [same]
  cases s.recordCache hash with
  | none => rfl
  | some held => rfl

def markAll (validated : List (Bytes32 × BlockRecord)) (s : Store) : Store :=
  validated.foldl (fun s row => s.markCanonical row.1 row.2) s

theorem markAllRecords {validated : List (Bytes32 × BlockRecord)} (same : t.recordCache = s.recordCache) :
    (markAll validated t).recordCache = (markAll validated s).recordCache := by
  induction validated generalizing s t with
  | nil => exact same
  | cons row rest ih => exact ih (markedRecords same)

theorem setBatchTurns {validated : List (Bytes32 × BlockRecord)} {v : Unit}
    (h : Runs (Op.forEach (fun row => do
      onBin (CanonicalBin.extendWrite row.2.height row.1)
      Op.modify (markCanonical row.1 row.2)) validated) s (.ok v) t) :
    (∀ row ∈ validated, s.canonicalBin.Accepts row.2.height) ∧
      t = {s with
        canonicalBin := s.canonicalBin.writtenAll (rowsOf validated)
        recordCache := (markAll validated s).recordCache} := by
  induction validated generalizing s with
  | nil =>
    obtain ⟨_,rfl⟩ := runsPure.mp h
    exact ⟨by simp,rfl⟩
  | cons row rest ih =>
    obtain ⟨_,u,turn,later⟩ := runsBindOk h
    obtain ⟨_,w,slot,mark⟩ := runsBindOk turn
    obtain ⟨fits,rfl⟩ := extendWriteRuns slot
    obtain ⟨_,rfl⟩ := runsModify.mp mark
    obtain ⟨more,done⟩ := ih later
    have records : ((s.writeSlot row.2.height row.1).markCanonical row.1 row.2).recordCache =
        (s.markCanonical row.1 row.2).recordCache := markedRecords rfl
    rw [markAllRecords records,markedRest] at done
    refine ⟨fun other mem => ?_,done⟩
    rcases List.mem_cons.mp mem with rfl | older
    · exact fits
    · have accepts := more other older
      rw [markedRest] at accepts
      simpa [writeSlot] using accepts

def batched (validated : List (Bytes32 × BlockRecord)) (s : Store) : Store :=
  {s.commit ((rowsOf validated).map fun row => canonicalRow row.1 row.2) with
    canonicalBin := s.canonicalBin.writtenAll (rowsOf validated)
    recordCache := (markAll validated s).recordCache}

theorem setCanonicalBatchOk {hashes : List Bytes32} {v : Unit} (h : Runs (setCanonicalBatch crates hashes) s (.ok v) t) :
    (hashes = [] ∧ t = s) ∨ ∃ validated u, s.readOnly = false ∧ Touched crates s u ∧
      u.canonicalHeightCache = s.canonicalHeightCache ∧ validated.map Prod.fst = hashes ∧
      (∀ row ∈ validated, u.recordCache row.1 = some row.2) ∧
      (∀ row ∈ validated, u.canonicalBin.Accepts row.2.height) ∧ t = u.batched validated := by
  obtain ⟨_,u,opening,checking⟩ := runsBindOk h
  obtain ⟨writes,rfl⟩ := refuseReadOnlyOk opening
  split at checking
  · rename_i empty
    exact .inl ⟨empty,(runsPure.mp checking).2⟩
  · obtain ⟨validated,w,one,committing⟩ := runsBindOk checking
    obtain ⟨touched,cache,same,held⟩ := validatedOk one
    obtain ⟨_,x,two,turns⟩ := runsBindOk committing
    have batch := writeOk two
    subst batch
    obtain ⟨fits,done⟩ := setBatchTurns turns
    have rows : validated.map (fun row => canonicalRow row.2.height row.1) =
        (rowsOf validated).map fun row => canonicalRow row.1 row.2 := by simp [rowsOf,Function.comp_def]
    rw [rows] at done
    have records : (markAll validated (w.commit ((rowsOf validated).map fun row => canonicalRow row.1 row.2))).recordCache =
        (markAll validated w).recordCache := markAllRecords rfl
    rw [records] at done
    exact .inr ⟨validated,w,writes,touched,cache,same,held,fits,done⟩

theorem setCanonicalBatchShift {hashes : List Bytes32} {v : Unit} (indexed : Indexed s)
    (h : Runs (setCanonicalBatch crates hashes) s (.ok v) t) :
    ∃ validated u, Touched crates s u ∧ validated.map Prod.fst = hashes ∧
      (∀ row ∈ validated, u.recordCache row.1 = some row.2) ∧
      Shift s t (putAll (rowsOf validated) (canonicalAt s.db)) s.tip s.minRetainedHeightCached fun _ => True := by
  rcases setCanonicalBatchOk h with ⟨rfl,rfl⟩ | ⟨validated,w,writes,touched,cache,same,held,_,rfl⟩
  · exact ⟨[],t,.refl _,rfl,by simp,.ofQuiet (.refl _) indexed⟩
  · refine ⟨validated,w,touched,same,held,?_⟩
    have put := shiftRows (touched.quiet.indexed indexed) (touched.readOnly.trans writes) (rowsOf validated)
    have moved := Shift.ofSame touched.quiet cache (put.andQuiet (quietRecords (markAll validated w).recordCache))
    rw [touched.tip,touched.floor,funext touched.quiet.canonicalAt] at moved
    exact moved

end Switch

end Store
end DigBlockstore
