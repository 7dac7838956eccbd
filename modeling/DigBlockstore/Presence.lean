import DigBlockstore.Dictionary
import DigBlockstore.Library.Upholds

/-! The map a store stands for: the rows, the four caches and every read answer for a hash
what one partial map from hashes to blocks says of it. -/
namespace DigBlockstore
open ByteCodec Faulty ColumnStore PartialMap Pipeline Trace
namespace Store
variable {crates : Crates} {config : BlockStoreConfig} {content : Bytes32 → Option L2Block} {s t u : Store}

/- A record made from the header of its hash; only the canonical flag may have been moved. -/
def Recorded (crates : Crates) (content : Bytes32 → Option L2Block) (hash : Bytes32) (record : BlockRecord) : Prop :=
  ∃ block flag, content hash = some block ∧
    record = {BlockRecord.fromHeader crates block.header .validated with inCanonicalChain := flag}

structure Mirrors (crates : Crates) (config : BlockStoreConfig) (content : Bytes32 → Option L2Block) (s : Store) :
    Prop where
  legible : Legible crates config content s
  keys : ∀ (cf : Cf) (key value : Bytes), cf = .blocks ∨ cf = .headers → (s.db cf)[key]? = some value → ∃ hash, key = hashKey hash
  stored : ∀ hash block, content hash = some block → (s.db .blocks)[hashKey hash]?.isSome ∧
    ∃ raw, (s.db .headers)[hashKey hash]? = some raw ∧ crates.serializeHeader block.header = .ok raw
  known : ∀ hash, (s.db .headers)[hashKey hash]?.isSome → (content hash).isSome
  headers : ∀ hash header, s.headerCache.peek hash = some header → (content hash).map L2Block.header = some header
  records : ∀ hash record, s.recordCache hash = some record → Recorded crates content hash record
  heights : ∀ hash n, s.hashToHeightCache.peek hash = some n → (content hash).map L2Block.height = some n

section Reading

theorem Mirrors.bodyRow (mirrors : Mirrors crates config content s) (hash : Bytes32) :
    (s.db .blocks)[hashKey hash]?.isSome ↔ (content hash).isSome := by
  constructor
  · intro row
    obtain ⟨frame,row⟩ := Option.isSome_iff_exists.mp row
    obtain ⟨block,_,known,_⟩ := mirrors.legible.rows hash frame row
    rw [known]
    rfl
  · intro known
    obtain ⟨block,known⟩ := Option.isSome_iff_exists.mp known
    exact (mirrors.stored hash block known).1

theorem Mirrors.headerRow (mirrors : Mirrors crates config content s) (hash : Bytes32) :
    (s.db .headers)[hashKey hash]?.isSome ↔ (content hash).isSome := by
  refine ⟨mirrors.known hash,fun known => ?_⟩
  obtain ⟨block,known⟩ := Option.isSome_iff_exists.mp known
  obtain ⟨_,raw,row,_⟩ := mirrors.stored hash block known
  rw [row]
  rfl

theorem Mirrors.decodes (lawful : crates.Lawful) (mirrors : Mirrors crates config content s) {hash : Bytes32} {raw : Bytes}
    (row : (s.db .headers)[hashKey hash]? = some raw) :
    ∃ block, content hash = some block ∧ deserializeHeader crates raw = .ok block.header := by
  obtain ⟨block,known⟩ := Option.isSome_iff_exists.mp (mirrors.known hash (by rw [row]; rfl))
  obtain ⟨_,raw',row',packed⟩ := mirrors.stored hash block known
  rw [row] at row'
  cases row'
  refine ⟨block,known,?_⟩
  rw [deserializeHeader,lawful.header _ _ packed]
  rfl

theorem Mirrors.headerAt (lawful : crates.Lawful) (mirrors : Mirrors crates config content s) (hash : Bytes32) :
    s.headerAt crates hash = (content hash).map L2Block.header := by
  unfold Store.headerAt
  cases row : (s.db .headers)[hashKey hash]? with
  | none =>
    cases known : content hash with
    | none => rfl
    | some block =>
      have present := (mirrors.headerRow hash).mpr (by rw [known]; rfl)
      rw [row] at present
      cases present
  | some raw =>
    obtain ⟨block,known,decoded⟩ := mirrors.decodes lawful row
    rw [known,Option.bind_some,decoded]
    rfl

theorem Mirrors.bodyAt (faithful : crates.Faithful) (mirrors : Mirrors crates config content s) (hash : Bytes32) :
    s.bodyAt crates hash = content hash := by
  unfold Store.bodyAt
  cases row : (s.db .blocks)[hashKey hash]? with
  | none =>
    cases known : content hash with
    | none => rfl
    | some block =>
      have present := (mirrors.bodyRow hash).mpr (by rw [known]; rfl)
      rw [row] at present
      cases present
  | some raw =>
    obtain ⟨block,known,decoded⟩ := mirrors.legible.decodes faithful row
    rw [known,Option.bind_some,decoded]
    rfl

theorem Mirrors.knows (lawful : crates.Lawful) (faithful : crates.Faithful) (mirrors : Mirrors crates config content s)
    {hash : Bytes32} {header : L2BlockHeader} (known : s.Knows crates hash header) :
    (content hash).map L2Block.header = some header := by
  rcases known with cached | row | ⟨block,row,same⟩
  · exact mirrors.headers hash header cached
  · rwa [mirrors.headerAt lawful] at row
  · rw [mirrors.bodyAt faithful] at row
    rw [row,same]
    rfl

theorem recordedHeader {hash : Bytes32} {header : L2BlockHeader}
    (known : (content hash).map L2Block.header = some header) :
    Recorded crates content hash (.fromHeader crates header .validated) := by
  obtain ⟨block,here,rfl⟩ := Option.map_eq_some_iff.mp known
  exact ⟨block,_,here,rfl⟩

theorem Recorded.height {hash : Bytes32} {record : BlockRecord} (recorded : Recorded crates content hash record) :
    (content hash).map L2Block.height = some record.height := by
  obtain ⟨block,flag,known,rfl⟩ := recorded
  rw [known]
  rfl

theorem headerHeight {hash : Bytes32} {header : L2BlockHeader}
    (known : (content hash).map L2Block.header = some header) : (content hash).map L2Block.height = some header.height := by
  obtain ⟨block,here,rfl⟩ := Option.map_eq_some_iff.mp known
  rw [here]
  rfl

theorem touchedMirrors (lawful : crates.Lawful) (faithful : crates.Faithful) (touched : Touched crates s t)
    (mirrors : Mirrors crates config content s) : Mirrors crates config content t where
  legible := (touchedPreserves faithful touched mirrors.legible).1
  keys := by rw [touched.db]; exact mirrors.keys
  stored := by rw [touched.db]; exact mirrors.stored
  known := by rw [touched.db]; exact mirrors.known
  headers hash header found := mirrors.knows lawful faithful (touched.headers hash header found)
  records hash record found := by
    rcases touched.records hash record found with cached | ⟨_,header,known,rfl⟩
    · exact mirrors.records hash record cached
    · exact recordedHeader (mirrors.knows lawful faithful known)
  heights hash n found := by
    rcases touched.heightsOf hash n found with cached | ⟨header,known,rfl⟩ | ⟨record,cached,rfl⟩
    · exact mirrors.heights hash n cached
    · exact headerHeight (mirrors.knows lawful faithful known)
    · exact (mirrors.records hash record cached).height

end Reading

section Answers

theorem Mirrors.getBlock (faithful : crates.Faithful) (mirrors : Mirrors crates config content s) (hash : Bytes32)
    (script : List Event) : (getBlock crates hash ⟨s,script⟩).1 = .ok (content hash) := by
  cases known : content hash with
  | some block =>
    obtain ⟨found,known',answer⟩ := mirrors.legible.getBlock faithful (mirrors.stored hash block known).1 script
    rw [known] at known'
    cases known'
    exact answer
  | none =>
    have row : (s.db .blocks)[hashKey hash]? = none := by
      cases row : (s.db .blocks)[hashKey hash]? with
      | none => rfl
      | some raw =>
        have present := (mirrors.bodyRow hash).mp (by rw [row]; rfl)
        rw [known] at present
        cases present
    unfold Store.getBlock
    simp only [bind,Op.bind,Op.get,Op.modify]
    cases cached : (s.blockCache.getClone hash).1 with
    | some block => cases known.symm.trans (mirrors.legible.bodies hash block cached)
    | none =>
      dsimp only
      rw [row]
      rfl

theorem Mirrors.getHeader (lawful : crates.Lawful) (mirrors : Mirrors crates config content s) (hash : Bytes32)
    (script : List Event) : (getHeader crates hash ⟨s,script⟩).1 = .ok ((content hash).map L2Block.header) := by
  unfold Store.getHeader
  simp only [bind,Op.bind,Op.get,Op.modify]
  cases cached : (s.headerCache.getClone hash).1 with
  | some header => exact congrArg Except.ok (mirrors.headers hash header cached).symm
  | none =>
    dsimp only
    cases row : (s.db .headers)[hashKey hash]? with
    | none =>
      have same := mirrors.headerAt lawful hash
      unfold Store.headerAt at same
      rw [row] at same
      exact congrArg Except.ok same
    | some raw =>
      obtain ⟨block,known,decoded⟩ := mirrors.decodes lawful row
      dsimp only
      rw [decoded,known]
      rfl

theorem Mirrors.getRecord (lawful : crates.Lawful) (mirrors : Mirrors crates config content s) (hash : Bytes32)
    (script : List Event) : ∃ record, (getRecord crates hash ⟨s,script⟩).1 = .ok record ∧
      record.isSome = (content hash).isSome := by
  unfold Store.getRecord
  simp only [bind,Op.bind,Op.get]
  cases held : s.recordCache hash with
  | some record =>
    obtain ⟨block,_,known,_⟩ := mirrors.records hash record held
    exact ⟨some record,rfl,by rw [known]; rfl⟩
  | none =>
    dsimp only
    cases cached : (s.headerCache.getClone hash).1 with
    | some header =>
      obtain ⟨block,known,_⟩ := Option.map_eq_some_iff.mp (mirrors.headers hash header cached)
      exact ⟨some _,rfl,by rw [known]; rfl⟩
    | none =>
      dsimp only
      cases row : (s.db .headers)[hashKey hash]? with
      | none =>
        have same := mirrors.headerAt lawful hash
        unfold Store.headerAt at same
        rw [row] at same
        refine ⟨none,rfl,?_⟩
        rw [← Option.isSome_map (f := L2Block.header),← same]
        rfl
      | some raw =>
        obtain ⟨block,known,decoded⟩ := mirrors.decodes lawful row
        dsimp only
        rw [decoded,known]
        exact ⟨_,rfl,rfl⟩

theorem Mirrors.hasBlock (mirrors : Mirrors crates config content s) (hash : Bytes32) :
    s.hasBlock hash = (content hash).isSome := by
  rw [Bool.eq_iff_iff,Store.hasBlock]
  simp only [Bool.or_eq_true,mirrors.bodyRow hash,mirrors.headerRow hash,ShardedLruCache.contains]
  constructor
  · rintro (((body | header) | row) | row)
    · obtain ⟨block,cached⟩ := Option.isSome_iff_exists.mp body
      rw [mirrors.legible.bodies hash block cached]
      rfl
    · obtain ⟨header,cached⟩ := Option.isSome_iff_exists.mp header
      obtain ⟨block,known,_⟩ := Option.map_eq_some_iff.mp (mirrors.headers hash header cached)
      rw [known]
      rfl
    · exact row
    · exact row
  · exact .inr

/- The read paths agree: each row is paired, each cache entry is what the rows hold, and the
four reads of a hash say the same of it. -/
structure Agrees (crates : Crates) (s : Store) : Prop where
  paired : ∀ key : Bytes, (s.db .blocks)[key]?.isSome ↔ (s.db .headers)[key]?.isSome
  body : ∀ hash block, s.blockCache.peek hash = some block → s.bodyAt crates hash = some block
  header : ∀ hash header, s.headerCache.peek hash = some header → s.headerAt crates hash = some header
  record : ∀ hash record, s.recordCache hash = some record → ∃ header flag, s.headerAt crates hash = some header ∧
    record = {BlockRecord.fromHeader crates header .validated with inCanonicalChain := flag}
  height : ∀ hash n, s.hashToHeightCache.peek hash = some n →
    ∃ header, s.headerAt crates hash = some header ∧ n = header.height
  reads : ∀ hash script, (Store.getBlock crates hash ⟨s,script⟩).1 = .ok (s.bodyAt crates hash) ∧
    (Store.getHeader crates hash ⟨s,script⟩).1 = .ok ((s.bodyAt crates hash).map L2Block.header) ∧
    (∃ record, (Store.getRecord crates hash ⟨s,script⟩).1 = .ok record ∧ record.isSome = (s.bodyAt crates hash).isSome) ∧
    s.hasBlock hash = (s.bodyAt crates hash).isSome

theorem Mirrors.agrees (lawful : crates.Lawful) (faithful : crates.Faithful) (mirrors : Mirrors crates config content s) :
    Agrees crates s where
  paired key := by
    have both : ∀ hash, (s.db .blocks)[hashKey hash]?.isSome ↔ (s.db .headers)[hashKey hash]?.isSome := fun hash =>
      (mirrors.bodyRow hash).trans (mirrors.headerRow hash).symm
    constructor <;> intro row <;> obtain ⟨raw,found⟩ := Option.isSome_iff_exists.mp row
    · obtain ⟨hash,rfl⟩ := mirrors.keys _ _ _ (.inl rfl) found
      exact (both hash).mp row
    · obtain ⟨hash,rfl⟩ := mirrors.keys _ _ _ (.inr rfl) found
      exact (both hash).mpr row
  body hash block cached := (mirrors.bodyAt faithful hash).trans (mirrors.legible.bodies hash block cached)
  header hash header cached := (mirrors.headerAt lawful hash).trans (mirrors.headers hash header cached)
  record hash record held := by
    obtain ⟨block,flag,known,same⟩ := mirrors.records hash record held
    exact ⟨block.header,flag,by rw [mirrors.headerAt lawful,known]; rfl,same⟩
  height hash n cached := by
    obtain ⟨block,known,rfl⟩ := Option.map_eq_some_iff.mp (mirrors.heights hash n cached)
    exact ⟨block.header,by rw [mirrors.headerAt lawful,known]; rfl,rfl⟩
  reads hash script := by
    rw [mirrors.bodyAt faithful]
    exact ⟨mirrors.getBlock faithful hash script,mirrors.getHeader lawful hash script,mirrors.getRecord lawful hash script,
      mirrors.hasBlock hash⟩

end Answers

section Switches

structure Still (s t : Store) : Prop where
  aloof : Aloof s t
  headerRows : t.db .headers = s.db .headers
  headers : ∀ hash header, t.headerCache.peek hash = some header → s.headerCache.peek hash = some header
  records : ∀ hash record, t.recordCache hash = some record → ∃ older flag, s.recordCache hash = some older ∧
    record = {older with inCanonicalChain := flag}
  heights : ∀ hash n, t.hashToHeightCache.peek hash = some n → s.hashToHeightCache.peek hash = some n

theorem Still.mirrors (still : Still s t) (mirrors : Mirrors crates config content s) : Mirrors crates config content t where
  legible := (still.aloof.preserves mirrors.legible).1
  keys cf key value side row := by
    rcases side with rfl | rfl
    · rw [still.aloof.blocks] at row
      exact mirrors.keys _ _ _ (.inl rfl) row
    · rw [still.headerRows] at row
      exact mirrors.keys _ _ _ (.inr rfl) row
  stored := by
    rw [still.aloof.blocks,still.headerRows]
    exact mirrors.stored
  known := by
    rw [still.headerRows]
    exact mirrors.known
  headers hash header found := mirrors.headers hash header (still.headers hash header found)
  records hash record found := by
    obtain ⟨older,flag,held,rfl⟩ := still.records hash record found
    obtain ⟨block,flag',known,rfl⟩ := mirrors.records hash older held
    exact ⟨block,flag,known,rfl⟩
  heights hash n found := mirrors.heights hash n (still.heights hash n found)

theorem stillRest (blocks : t.db .blocks = s.db .blocks) (headers : t.db .headers = s.db .headers)
    (row : (t.db .metadata)[metaZstdDict]? = (s.db .metadata)[metaZstdDict]?)
    (rest : t.zstdDict = s.zstdDict ∧ t.useCompressionDict = s.useCompressionDict ∧
      t.maxDecompressedBlockBytes = s.maxDecompressedBlockBytes ∧ t.blockCache = s.blockCache ∧
      t.headerCache = s.headerCache ∧ t.recordCache = s.recordCache ∧ t.hashToHeightCache = s.hashToHeightCache) :
    Still s t := by
  obtain ⟨dict,use,cap,bodies,cached,records,heights⟩ := rest
  refine ⟨⟨blocks,row,dict,use,cap,fun _ _ found => by rwa [bodies] at found⟩,headers,
    fun _ _ found => by rwa [cached] at found,fun hash record found => ⟨record,record.inCanonicalChain,?_,rfl⟩,
    fun _ _ found => by rwa [heights] at found⟩
  rwa [records] at found

theorem stillMemory (same : t.db = s.db)
    (rest : t.zstdDict = s.zstdDict ∧ t.useCompressionDict = s.useCompressionDict ∧
      t.maxDecompressedBlockBytes = s.maxDecompressedBlockBytes ∧ t.blockCache = s.blockCache ∧
      t.headerCache = s.headerCache ∧ t.recordCache = s.recordCache ∧ t.hashToHeightCache = s.hashToHeightCache) :
    Still s t := stillRest (by rw [same]) (by rw [same]) (by rw [same]) rest

theorem stillCommit {batch : List Write} (only : ∀ write ∈ batch, ∀ cf key, cf = .blocks ∨ cf = .headers ∨
      cf = .metadata ∧ key = metaZstdDict → write.effect cf key = none) : Still s (s.commit batch) := by
  have frame : ∀ cf key, cf = .blocks ∨ cf = .headers ∨ cf = .metadata ∧ key = metaZstdDict →
      ((s.commit batch).db cf)[key]? = (s.db cf)[key]? :=
    fun cf key side => ColumnStore.frame fun write mem => only write mem cf key side
  exact stillRest (Std.ExtTreeMap.ext_getElem? fun key => frame _ key (.inl rfl))
    (Std.ExtTreeMap.ext_getElem? fun key => frame _ key (.inr (.inl rfl))) (frame _ _ (.inr (.inr ⟨rfl,rfl⟩)))
    ⟨rfl,rfl,rfl,rfl,rfl,rfl,rfl⟩

theorem stillSwitch {batch : List Write}
    (only : ∀ write ∈ batch, ∀ cf key, ¬Switched cf key → write.effect cf key = none) : Still s (s.commit batch) :=
  stillCommit fun write mem cf key side => only write mem cf key (by
    rcases side with rfl | rfl | ⟨rfl,rfl⟩
    · rintro (bad | ⟨bad,_⟩) <;> cases bad
    · rintro (bad | ⟨bad,_⟩) <;> cases bad
    · rintro (bad | ⟨_,bad⟩)
      · cases bad
      · exact metadataKeysApartSymm.2.2.1 bad)

theorem stillInsertHeight (height : UInt64) (hash : Bytes32) : Still s (s.insertCanonicalHeightCache height hash) := by
  rw [insertHeightRest]
  exact stillMemory rfl ⟨rfl,rfl,rfl,rfl,rfl,rfl,rfl⟩

theorem stillBin (bin : CanonicalBin) : Still s {s with canonicalBin := bin} := stillMemory rfl ⟨rfl,rfl,rfl,rfl,rfl,rfl,rfl⟩

variable (lawful : crates.Lawful) (faithful : crates.Faithful)
include lawful faithful

theorem touchedUpholds {α : Type} {m : StoreM α} (touched : ∀ s r t, Runs m s r t → Touched crates s t) :
    Upholds (Mirrors crates config content) (fun _ => True) m := fun s r t mirrors h =>
  ⟨touchedMirrors lawful faithful (touched s r t h) mirrors,fun _ _ => trivial⟩

theorem getRecordOrMissingUpholds (hash : Bytes32) : Upholds (Mirrors crates config content)
    (fun row => row.1 = hash ∧ Recorded crates content row.1 row.2) (getRecordOrMissing crates hash) := by
  intro s r t mirrors h
  rcases runsBind h with ⟨found,u,one,later⟩ | ⟨e,rfl,one⟩
  · obtain ⟨touched,_,held,_⟩ := getRecordRuns one
    have mirrors' := touchedMirrors lawful faithful touched mirrors
    cases found with
    | none =>
      obtain ⟨rfl,rfl⟩ := runsError.mp later
      exact ⟨mirrors',fun row bad => by cases bad⟩
    | some record =>
      obtain ⟨rfl,rfl⟩ := runsPure.mp later
      refine ⟨mirrors',fun row same => ?_⟩
      cases same
      exact ⟨rfl,mirrors'.records hash record (held record rfl)⟩
  · exact ⟨touchedMirrors lawful faithful (getRecordRuns one).1 mirrors,fun row bad => by cases bad⟩

omit lawful faithful

theorem mirrorsRecord {hash : Bytes32} {record : BlockRecord} (recorded : Recorded crates content hash record)
    (mirrors : Mirrors crates config content s) : Mirrors crates config content (s.cacheRecord hash record) :=
  {mirrors with
    legible := mirrors.legible.framed rfl rfl rfl rfl mirrors.legible.rows mirrors.legible.bodies
    records := fun other held found => by
      by_cases same : other = hash
      · subst same
        rw [cacheRecordSelf] at found
        cases found
        exact recorded
      · rw [cacheRecordOther same] at found
        exact mirrors.records other held found}

theorem mirrorsHeight {hash : Bytes32} {n : UInt64} (known : (content hash).map L2Block.height = some n)
    (mirrors : Mirrors crates config content s) : Mirrors crates config content (s.cacheHeight hash n) :=
  {mirrors with
    legible := mirrors.legible.framed rfl rfl rfl rfl mirrors.legible.rows mirrors.legible.bodies
    heights := fun other m found => by
      rcases ShardedLruCache.peekInsert found with ⟨rfl,rfl⟩ | ⟨_,older⟩
      · exact known
      · exact mirrors.heights other m older}

theorem mirrorsHeader {hash : Bytes32} {header : L2BlockHeader} (known : (content hash).map L2Block.header = some header)
    (mirrors : Mirrors crates config content s) : Mirrors crates config content (s.cacheHeader hash header) :=
  {mirrors with
    legible := mirrors.legible.framed rfl rfl rfl rfl mirrors.legible.rows mirrors.legible.bodies
    headers := fun other found cached => by
      rcases ShardedLruCache.peekInsert cached with ⟨rfl,rfl⟩ | ⟨_,older⟩
      · exact known
      · exact mirrors.headers other found older}

theorem mirrorsBody {hash : Bytes32} {block : L2Block} (known : content hash = some block)
    (mirrors : Mirrors crates config content s) : Mirrors crates config content (s.cacheBody hash block) :=
  {mirrors with
    legible := mirrors.legible.framed rfl rfl rfl rfl mirrors.legible.rows fun other found cached => by
      rcases ShardedLruCache.peekInsert cached with ⟨rfl,rfl⟩ | ⟨_,older⟩
      · exact known
      · exact mirrors.legible.bodies other found older}

theorem Recorded.flagged {hash : Bytes32} {record : BlockRecord} (recorded : Recorded crates content hash record)
    (flag : Bool) : Recorded crates content hash {record with inCanonicalChain := flag} := by
  obtain ⟨block,_,known,rfl⟩ := recorded
  exact ⟨block,flag,known,rfl⟩

theorem mirrorsFlag (flag : Bool) (hash : Bytes32) (mirrors : Mirrors crates config content s) :
    Mirrors crates config content (s.flagRecord flag hash) := by
  unfold flagRecord
  split
  · rename_i record held
    exact mirrorsRecord ((mirrors.records hash record held).flagged flag) mirrors
  · exact mirrors

theorem mirrorsFlags (flag : Bool) (hashes : List Bytes32) (mirrors : Mirrors crates config content s) :
    Mirrors crates config content (flagRecords flag hashes s) := by
  unfold flagRecords
  induction hashes generalizing s with
  | nil => exact mirrors
  | cons hash rest ih => exact ih (mirrorsFlag flag hash mirrors)

theorem mirrorsMarked {hash : Bytes32} {record : BlockRecord} (recorded : Recorded crates content hash record)
    (mirrors : Mirrors crates config content s) : Mirrors crates config content (s.markCanonical hash record) := by
  unfold markCanonical
  split
  · exact mirrorsFlag true hash mirrors
  · exact mirrorsRecord (recorded.flagged true) mirrors

theorem writeUpholds {batch : List Write} (still : ∀ s : Store, Still s (s.commit batch)) :
    Upholds (Mirrors crates config content) (fun _ => True) (write batch) :=
  upholdsBind (upholdsStep _) fun _ _ => upholdsModify fun s mirrors => (still s).mirrors mirrors

theorem stillUpholds {f : Store → Store} (still : ∀ s, Still s (f s)) :
    Upholds (Mirrors crates config content) (fun _ => True) (Op.modify f : StoreM Unit) :=
  upholdsModify fun s mirrors => (still s).mirrors mirrors

theorem binUpholds (m : CanonicalBin.Bin Unit) : Upholds (Mirrors crates config content) (fun _ => True) (onBin m) :=
  upholdsZoom fun _ _ mirrors => (stillBin _).mirrors mirrors

theorem refuseUpholds (message : String) :
    Upholds (Mirrors crates config content) (fun _ => True) (refuseReadOnly message) :=
  upholdsBind upholdsGet fun s _ => by
    split
    · exact upholdsError _
    · exact upholdsPure trivial

theorem setTipUpholds (tip : ChainTip) : Upholds (Mirrors crates config content) (fun _ => True) (setTip tip) :=
  upholdsBind (refuseUpholds _) fun _ _ => upholdsBind
    (writeUpholds fun _ => stillSwitch fun write mem cf key out => by
      rw [List.mem_singleton.mp mem]
      exact switchedTip _ out)
    fun _ _ => stillUpholds fun _ => stillMemory rfl ⟨rfl,rfl,rfl,rfl,rfl,rfl,rfl⟩

include lawful faithful

theorem setCanonicalUpholds (hash : Bytes32) :
    Upholds (Mirrors crates config content) (fun _ => True) (setCanonical crates hash) :=
  upholdsBind (refuseUpholds _) fun _ _ => upholdsBind (getRecordOrMissingUpholds lawful faithful hash) fun row read => by
    obtain ⟨rfl,recorded⟩ := read
    refine upholdsBind (writeUpholds fun _ => stillSwitch fun write mem cf key out => ?_) fun _ _ => ?_
    · rw [List.mem_singleton.mp mem]
      exact switchedRow _ _ out
    · exact upholdsBind (binUpholds _) fun _ _ => upholdsBind (stillUpholds fun _ => stillInsertHeight _ _) fun _ _ =>
        upholdsBind (upholdsModify fun _ => mirrorsHeight recorded.height) fun _ _ => upholdsModify fun _ => mirrorsMarked recorded

theorem setCanonicalBatchUpholds (hashes : List Bytes32) :
    Upholds (Mirrors crates config content) (fun _ => True) (setCanonicalBatch crates hashes) :=
  upholdsBind (refuseUpholds _) fun _ _ => by
    split
    · exact upholdsPure trivial
    · refine upholdsBind (upholdsCollect hashes fun hash _ =>
        (getRecordOrMissingUpholds lawful faithful hash).mono fun row read => read.2) fun validated recorded =>
          upholdsBind (writeUpholds fun _ => stillSwitch fun write mem cf key out => ?_) fun _ _ => ?_
      · obtain ⟨row,_,rfl⟩ := List.mem_map.mp mem
        exact switchedRow _ _ out
      · exact upholdsForEach _ fun row mem => upholdsBind (binUpholds _) fun _ _ =>
          upholdsModify fun _ => mirrorsMarked (recorded row mem)

theorem rollbackUpholds (target : UInt64) :
    Upholds (Mirrors crates config content) (fun _ => True) (rollbackToHeight target) :=
  upholdsBind (refuseUpholds _) fun _ _ => upholdsBind upholdsGet fun s _ => by
    split
    · exact upholdsError _
    · rename_i tip _
      split
      · exact upholdsError _
      · split
        · exact upholdsError _
        · split
          · exact upholdsPure trivial
          · refine upholdsBind (touchedUpholds lawful faithful fun _ _ _ => collectCanonicalTouched) fun reverted _ => ?_
            refine upholdsBind (writeUpholds fun _ => stillSwitch fun write mem cf key out => ?_) fun _ _ => ?_
            · obtain ⟨h,_,rfl⟩ := List.mem_map.mp mem
              exact switchedDelete _ out
            · refine upholdsBind (binUpholds _) fun _ _ =>
                upholdsBind (touchedUpholds lawful faithful fun _ _ _ => getHashByHeightTouched) fun found _ =>
                  upholdsBind (P := fun _ => True) ?_ fun _ _ => ?_
              · cases found with
                | none => exact upholdsPure trivial
                | some hash => exact setTipUpholds _
              · exact upholdsBind (upholdsModify fun _ => mirrorsFlags false reverted) fun _ _ =>
                  upholdsBind (stillUpholds fun _ => stillMemory rfl ⟨rfl,rfl,rfl,rfl,rfl,rfl,rfl⟩) fun _ _ =>
                    upholdsPure trivial

theorem applyReorgUpholds (ancestor : UInt64) (hashes : List Bytes32) :
    Upholds (Mirrors crates config content) (fun _ => True) (applyReorg crates ancestor hashes) :=
  upholdsBind (refuseUpholds _) fun _ _ => upholdsBind upholdsGet fun s _ => by
    split
    · exact upholdsError _
    · exact upholdsError _
    · refine upholdsBind (upholdsCollect hashes fun hash _ =>
        (getRecordOrMissingUpholds lawful faithful hash).any) fun records _ => ?_
      refine upholdsBind (touchedUpholds lawful faithful fun _ _ _ h => by rw [(heightAboveRuns h).1]; exact .refl _)
        fun start _ => upholdsBind (touchedUpholds lawful faithful fun _ _ _ => collectCanonicalTouched) fun reverted _ => ?_
      refine upholdsBind (writeUpholds fun _ => stillSwitch fun write mem cf key out => ?_) fun _ _ => ?_
      · rcases List.mem_append.mp mem with rows | tip
        · rcases List.mem_append.mp rows with deletes | puts
          · obtain ⟨h,_,rfl⟩ := List.mem_map.mp deletes
            exact switchedDelete _ out
          · obtain ⟨row,_,rfl⟩ := List.mem_map.mp puts
            exact switchedRow _ _ out
        · rw [List.mem_singleton.mp tip]
          exact switchedTip _ out
      · refine upholdsBind (binUpholds _) fun _ _ => upholdsBind (upholdsForEach _ fun row _ => binUpholds _) fun _ _ =>
          upholdsBind (upholdsModify fun _ => mirrorsFlags false reverted) fun _ _ =>
            upholdsBind (upholdsModify fun _ => mirrorsFlags true hashes) fun _ _ => ?_
        exact upholdsBind (stillUpholds fun _ => stillMemory rfl ⟨rfl,rfl,rfl,rfl,rfl,rfl,rfl⟩) fun _ _ =>
          upholdsBind (stillUpholds fun _ => stillMemory rfl ⟨rfl,rfl,rfl,rfl,rfl,rfl,rfl⟩) fun _ _ =>
            upholdsBind (stillUpholds fun _ => stillMemory rfl ⟨rfl,rfl,rfl,rfl,rfl,rfl,rfl⟩) fun _ _ => upholdsPure trivial

end Switches

end Store
end DigBlockstore
