import DigBlockstore.Presence

/-! Runs of successful calls keep a store the mirror of some map: blocks are filed, pruned
and switched, the store reopened, and entries of the caches lost. -/
namespace DigBlockstore
open ByteCodec Faulty ColumnStore PartialMap Pipeline Trace
namespace Store
variable {crates : Crates} {config : BlockStoreConfig} {content : Bytes32 → Option L2Block} {s t u : Store}

section Ingest

def filed (crates : Crates) (content : Bytes32 → Option L2Block) (block : L2Block) : Bytes32 → Option L2Block :=
  Function.update content (block.hash crates) (some block)

@[simp] theorem filedSelf (block : L2Block) : filed crates content block (block.hash crates) = some block :=
  Function.update_self ..

theorem filedOther {block : L2Block} {hash : Bytes32} (apart : hash ≠ block.hash crates) :
    filed crates content block hash = content hash := Function.update_of_ne apart ..

theorem trainedMirrors (trained : Trained s t) (legible : Legible crates config content t)
    (mirrors : Mirrors crates config content s) : Mirrors crates config content t where
  legible := legible
  keys cf key value side row := by
    rw [trained.rows cf key (by rintro ⟨rfl,_⟩; rcases side with side | side <;> cases side)] at row
    exact mirrors.keys cf key value side row
  stored := by
    rw [trained.column (by simp : Cf.blocks ≠ .metadata),trained.column (by simp : Cf.headers ≠ .metadata)]
    exact mirrors.stored
  known := by
    rw [trained.column (by simp : Cf.headers ≠ .metadata)]
    exact mirrors.known
  headers hash header found := mirrors.headers hash header (by rwa [trained.rest] at found)
  records hash record found := mirrors.records hash record (by rwa [trained.rest] at found)
  heights hash n found := mirrors.heights hash n (by rwa [trained.rest] at found)

theorem maybeTrainUpholds (faithful : crates.Faithful) :
    Upholds (Mirrors crates config content) (fun _ => True) (maybeTrainDictionary crates) := fun s r t mirrors h =>
  ⟨trainedMirrors (maybeTrainRuns h) (maybeTrainPreserves faithful s r t h mirrors.legible).1 mirrors,fun _ _ => trivial⟩

/- A frame made of the block now is a plain one, or the block is within the cap. -/
def Narrow (crates : Crates) (s : Store) (block : L2Block) : Prop :=
  s.activeDictionary.isSome → ∀ raw, crates.serializeBlock block = .ok raw → raw.length ≤ s.maxDecompressedBlockBytes

theorem Mirrors.serialized {block : L2Block} {compressed : Bytes} (mirrors : Mirrors crates config content s)
    (narrow : s.Narrow crates block) (body : s.serializeBlock crates block = .ok compressed) :
    Written crates config (filed crates content block) s.activeDictionary (block.hash crates) compressed :=
  serializeWritten (filedSelf block)
    (fun active raw encoded => mirrors.legible.cap ▸ narrow active raw encoded) body

structure Files (crates : Crates) (block : L2Block) (s t : Store) : Prop where
  bodies : ∀ hash found, t.blockCache.peek hash = some found →
    hash = block.hash crates ∧ found = block ∨ hash ≠ block.hash crates ∧ s.blockCache.peek hash = some found
  headers : ∀ hash found, t.headerCache.peek hash = some found →
    hash = block.hash crates ∧ found = block.header ∨ hash ≠ block.hash crates ∧ s.headerCache.peek hash = some found
  records : ∀ hash found, t.recordCache hash = some found →
    hash = block.hash crates ∧ found = .fromHeader crates block.header .validated ∨
      hash ≠ block.hash crates ∧ s.recordCache hash = some found
  heights : ∀ hash n, t.hashToHeightCache.peek hash = some n →
    hash = block.hash crates ∧ n = block.height ∨ hash ≠ block.hash crates ∧ s.hashToHeightCache.peek hash = some n

structure Laid (crates : Crates) (block : L2Block) (compressed headerBytes : Bytes) (s t : Store) : Prop where
  blocks : ∀ hash, (t.db .blocks)[hashKey hash]? =
    if hash = block.hash crates then some compressed else (s.db .blocks)[hashKey hash]?
  headers : ∀ hash, (t.db .headers)[hashKey hash]? =
    if hash = block.hash crates then some headerBytes else (s.db .headers)[hashKey hash]?
  keys : ∀ (cf : Cf) (key value : Bytes), cf = .blocks ∨ cf = .headers → (t.db cf)[key]? = some value →
    key = hashKey (block.hash crates) ∨ (s.db cf)[key]? = some value
  dict : (t.db .metadata)[metaZstdDict]? = (s.db .metadata)[metaZstdDict]?
  memory : t.zstdDict = s.zstdDict
  use : t.useCompressionDict = s.useCompressionDict
  cap : t.maxDecompressedBlockBytes = s.maxDecompressedBlockBytes

theorem laidRows {block : L2Block} {compressed headerBytes : Bytes} {more : List Write}
    (aside : ∀ write ∈ more, Beside write.column [] ∧ write.effect .metadata metaZstdDict = none)
    (db : t.db = (s.commit (bodyRows (block.hash crates) compressed headerBytes ++ more)).db)
    (tuned : t.zstdDict = s.zstdDict ∧ t.useCompressionDict = s.useCompressionDict ∧
      t.maxDecompressedBlockBytes = s.maxDecompressedBlockBytes) : Laid crates block compressed headerBytes s t := by
  have rows {cf : Cf} := fun side =>
    @getBodyRows s (block.hash crates) compressed headerBytes more (fun write mem => (aside write mem).1) cf side
  refine ⟨fun hash => ?_,fun hash => ?_,fun cf key value side row => ?_,?_,tuned.1,tuned.2.1,tuned.2.2⟩
  · rw [db,rows (.inl rfl),if_neg (by simp)]
    by_cases same : hash = block.hash crates
    · rw [if_pos ⟨rfl,by rw [same]⟩,if_pos same]
    · rw [if_neg fun both => same (hashKeyInj.mp both.2),if_neg same]
  · rw [db,rows (.inr rfl)]
    by_cases same : hash = block.hash crates
    · rw [if_pos ⟨rfl,by rw [same]⟩,if_pos same]
    · rw [if_neg fun both => same (hashKeyInj.mp both.2),if_neg (by simp),if_neg same]
  · rw [db,rows side] at row
    split at row
    · rename_i here
      exact .inl here.2
    · split at row
      · rename_i here
        exact .inl here.2
      · exact .inr row
  · rw [db]
    refine ColumnStore.frame fun write mem => ?_
    rcases List.mem_append.mp mem with body | other
    · simp only [bodyRows,List.mem_cons,List.not_mem_nil,or_false] at body
      rcases body with rfl | rfl <;> exact effectOtherColumn (by simp [ColumnStore.Write.column]) _
    · exact (aside write other).2

theorem Laid.legible {block : L2Block} {compressed headerBytes : Bytes} (laid : Laid crates block compressed headerBytes s t)
    (legible : Legible crates config content s)
    (written : Written crates config (filed crates content block) s.activeDictionary (block.hash crates) compressed)
    (files : Files crates block s t) : Legible crates config (filed crates content block) t where
  use := laid.use.trans legible.use
  cap := laid.cap.trans legible.cap
  held := by
    rw [laid.memory,resolvedCongr laid.dict]
    exact legible.held
  override := by
    rw [laid.memory]
    exact legible.override
  loads := by
    rw [laid.memory,persistedCongr laid.dict]
    exact legible.loads
  rows hash frame row := by
    rw [activeDictionary,laid.use,laid.memory]
    rw [laid.blocks] at row
    split at row
    · rename_i same
      cases row
      rw [same]
      exact written
    · rename_i apart
      obtain ⟨own,raw,known,rest⟩ := legible.rows hash frame row
      exact ⟨own,raw,(filedOther apart).trans known,rest⟩
  bodies hash found cached := by
    rcases files.bodies hash found cached with ⟨rfl,rfl⟩ | ⟨apart,older⟩
    · exact filedSelf _
    · exact (filedOther apart).trans (legible.bodies hash found older)

theorem Mirrors.file {block : L2Block} {compressed headerBytes : Bytes} (mirrors : Mirrors crates config content s)
    (written : Written crates config (filed crates content block) s.activeDictionary (block.hash crates) compressed)
    (header : crates.serializeHeader block.header = .ok headerBytes) (laid : Laid crates block compressed headerBytes s t)
    (files : Files crates block s t) : Mirrors crates config (filed crates content block) t where
  legible := laid.legible mirrors.legible written files
  keys cf key value side row := by
    rcases laid.keys cf key value side row with own | older
    · exact ⟨_,own⟩
    · exact mirrors.keys cf key value side older
  stored hash found here := by
    rw [laid.blocks,laid.headers]
    by_cases same : hash = block.hash crates
    · rw [same,filedSelf] at here
      cases here
      rw [if_pos same,if_pos same]
      exact ⟨rfl,headerBytes,rfl,header⟩
    · rw [filedOther same] at here
      rw [if_neg same,if_neg same]
      exact mirrors.stored hash found here
  known hash row := by
    rw [laid.headers] at row
    split at row
    · rename_i same
      rw [same,filedSelf]
      rfl
    · rename_i apart
      rw [filedOther apart]
      exact mirrors.known hash row
  headers hash found cached := by
    rcases files.headers hash found cached with ⟨rfl,rfl⟩ | ⟨apart,older⟩
    · rw [filedSelf]
      rfl
    · rw [filedOther apart]
      exact mirrors.headers hash found older
  records hash record held := by
    rcases files.records hash record held with ⟨rfl,rfl⟩ | ⟨apart,older⟩
    · exact ⟨block,_,filedSelf _,rfl⟩
    · obtain ⟨own,flag,known,same⟩ := mirrors.records hash record older
      exact ⟨own,flag,(filedOther apart).trans known,same⟩
  heights hash n cached := by
    rcases files.heights hash n cached with ⟨rfl,rfl⟩ | ⟨apart,older⟩
    · rw [filedSelf]
      rfl
    · rw [filedOther apart]
      exact mirrors.heights hash n older

theorem Mirrors.absent (mirrors : Mirrors crates config content s) {block : L2Block}
    (absent : (s.db .blocks)[hashKey (block.hash crates)]? = none) : Files crates block s s := by
  have unknown : content (block.hash crates) = none := by
    cases known : content (block.hash crates) with
    | none => rfl
    | some found =>
      have row := (mirrors.bodyRow (block.hash crates)).mpr (by rw [known]; rfl)
      rw [absent] at row
      cases row
  refine ⟨fun hash found cached => .inr ⟨?_,cached⟩,fun hash found cached => .inr ⟨?_,cached⟩,
    fun hash record held => .inr ⟨?_,held⟩,fun hash n cached => .inr ⟨?_,cached⟩⟩ <;> rintro rfl
  · cases unknown.symm.trans (mirrors.legible.bodies _ found cached)
  · have known := mirrors.headers _ found cached
    rw [unknown] at known
    cases known
  · obtain ⟨_,_,known,_⟩ := mirrors.records _ record held
    cases unknown.symm.trans known
  · have known := mirrors.heights _ n cached
    rw [unknown] at known
    cases known

theorem Mirrors.add {block : L2Block} {compressed headerBytes : Bytes} {more : List Write}
    (mirrors : Mirrors crates config content s) (absent : (s.db .blocks)[hashKey (block.hash crates)]? = none)
    (written : Written crates config (filed crates content block) s.activeDictionary (block.hash crates) compressed)
    (header : crates.serializeHeader block.header = .ok headerBytes)
    (aside : ∀ write ∈ more, Beside write.column [] ∧ write.effect .metadata metaZstdDict = none) :
    Mirrors crates config (filed crates content block)
      (s.commit (bodyRows (block.hash crates) compressed headerBytes ++ more)) :=
  have files := mirrors.absent absent
  mirrors.file written header (laidRows aside rfl ⟨rfl,rfl,rfl⟩) ⟨files.bodies,files.headers,files.records,files.heights⟩

variable {block : L2Block}

theorem indexUpholds (canonical : Bool) (height : UInt64) (hash : Bytes32) :
    Upholds (Mirrors crates config content) (fun _ => True) (indexCanonical canonical height hash) := by
  unfold indexCanonical
  split
  · exact upholdsBind (binUpholds _) fun _ _ => stillUpholds fun _ => stillInsertHeight _ _
  · exact upholdsPure trivial

theorem putTailUpholds (faithful : crates.Faithful) (known : content (block.hash crates) = some block) (canonical : Bool) :
    Upholds (Mirrors crates config content) (fun _ => True) (putTail crates block canonical) :=
  upholdsBind (indexUpholds _ _ _) fun _ _ =>
    upholdsBind (upholdsModify fun _ => mirrorsRecord ⟨block,_,known,rfl⟩) fun _ _ =>
      upholdsBind (upholdsModify fun _ => mirrorsBody known) fun _ _ =>
        upholdsBind (upholdsModify fun _ => mirrorsHeader (by rw [known]; rfl)) fun _ _ =>
          upholdsBind (upholdsModify fun _ => mirrorsHeight (by rw [known]; rfl)) fun _ _ =>
            upholdsBind (maybeTrainUpholds faithful) fun _ _ => upholdsPure trivial

theorem putMirrors (faithful : crates.Faithful) {canonical : Bool} {r : Exit Bool}
    (narrow : (s.db .blocks)[hashKey (block.hash crates)]? = none → s.Narrow crates block)
    (mirrors : Mirrors crates config content s) (h : Runs (putBlock crates block canonical) s r t) :
    ∃ content', Mirrors crates config content' t := by
  rcases putBlockRuns h with ⟨_,rfl,_⟩ | ⟨_,rfl⟩ | ⟨compressed,headerBytes,packs,later⟩
  · exact ⟨content,mirrors⟩
  · exact ⟨content,mirrors⟩
  · have added : Mirrors crates config (filed crates content block)
        (s.commit (putRows crates block canonical compressed headerBytes)) :=
      mirrors.add packs.absent (mirrors.serialized (narrow packs.absent) packs.body) (serializeHeaderOk packs.header) canonicalAside
    exact ⟨_,(putTailUpholds faithful (filedSelf block) canonical _ _ _ added later).1⟩

theorem extendMirrors (faithful : crates.Faithful) {r : Exit Bool}
    (narrow : (s.db .blocks)[hashKey (block.hash crates)]? = none → s.Narrow crates block)
    (mirrors : Mirrors crates config content s) (h : Runs (extendChain crates block) s r t) :
    ∃ content', Mirrors crates config content' t := by
  unfold extendChain at h
  rw [runsGetBind] at h
  split at h
  · rw [(runsPure.mp h).2]
    exact ⟨content,mirrors⟩
  · rcases runsBind h with ⟨added,u,one,later⟩ | ⟨e,_,one⟩
    · obtain ⟨content',mirrors'⟩ := putMirrors faithful narrow mirrors one
      exact ⟨content',(upholdsBind (setTipUpholds _) (fun _ _ => upholdsPure (P := fun _ : Bool => True) trivial) _ _ _ mirrors' later).1⟩
    · exact putMirrors faithful narrow mirrors one

theorem putsMirrors (faithful : crates.Faithful) {blocks : List L2Block}
    (narrow : ∀ before block after u, blocks = before ++ block :: after → Puts crates before s u →
      (u.db .blocks)[hashKey (block.hash crates)]? = none → u.Narrow crates block)
    (mirrors : Mirrors crates config content s) (puts : Puts crates blocks s t) :
    ∃ content', Mirrors crates config content' t := by
  induction puts generalizing content with
  | nil => exact ⟨content,mirrors⟩
  | cons first _ ih =>
    obtain ⟨content',mirrors'⟩ := putMirrors faithful (narrow [] _ _ _ rfl (.nil _)) mirrors first
    exact ih (fun before block after u split puts => narrow (_ :: before) block after u (by rw [split]; rfl) (.cons first puts))
      mirrors'

theorem genesisMirrors (faithful : crates.Faithful) {v : Unit} (narrow : s.Narrow crates block)
    (same : ∀ found, content (block.hash crates) = some found → found.header = block.header)
    (mirrors : Mirrors crates config content s) (h : Runs (initGenesis crates block) s (.ok v) t) :
    ∃ content', Mirrors crates config content' t := by
  rcases initGenesisRuns h with rfl | ⟨compressed,headerBytes,body,header,_,later⟩
  · exact ⟨content,mirrors⟩
  · obtain ⟨_,u,one,caching⟩ := runsBindOk later
    obtain ⟨bin,_,rfl⟩ := runsZoom one
    rw [runsModifyBind,runsModifyBind,runsModifyBind,runsModifyBind] at caching
    refine ⟨filed crates content block,(maybeTrainUpholds faithful _ _ _ ?_ caching).1⟩
    refine mirrors.file (mirrors.serialized narrow body) (serializeHeaderOk header)
      (laidRows genesisAside rfl ⟨rfl,rfl,rfl⟩) ⟨fun hash found cached => ?_,fun hash found cached => ?_,fun hash record held => ?_,fun hash n cached => ?_⟩
    · exact ShardedLruCache.peekInsert cached
    · exact ShardedLruCache.peekInsert cached
    · change Function.update s.recordCache (block.hash crates) _ hash = some record at held
      by_cases own : hash = block.hash crates
      · rw [own,Function.update_self] at held
        exact .inl ⟨own,(Option.some.inj held).symm⟩
      · rw [Function.update_of_ne own] at held
        exact .inr ⟨own,held⟩
    · by_cases own : hash = block.hash crates
      · have known := mirrors.heights hash n cached
        rw [own] at known
        obtain ⟨found,here,rfl⟩ := Option.map_eq_some_iff.mp known
        exact .inl ⟨own,congrArg L2BlockHeader.height (same found here)⟩
      · exact .inr ⟨own,cached⟩

end Ingest

section Flush

theorem stagedMirrors {staged : List StagedRow} (distinct : (staged.map StagedRow.hash).Nodup)
    (narrow : ∀ row ∈ staged, s.Narrow crates row.block)
    (rows : ∀ row ∈ staged, row.hash = row.block.hash crates ∧ (s.db .blocks)[hashKey row.hash]? = none ∧
      s.serializeBlock crates row.block = .ok row.compressed ∧ crates.serializeHeader row.block.header = .ok row.headerBytes)
    (mirrors : Mirrors crates config content s) :
    ∃ content', Mirrors crates config content' (s.commit (staged.flatMap rowWrites)) ∧
      (∀ row ∈ staged, content' row.hash = some row.block) ∧
      ∀ hash, hash ∉ staged.map StagedRow.hash → content' hash = content hash := by
  induction staged generalizing s content with
  | nil => exact ⟨content,mirrors,by simp,fun _ _ => rfl⟩
  | cons row rest ih =>
    obtain ⟨fresh,distinct⟩ := List.nodup_cons.mp distinct
    obtain ⟨hash,absent,body,header⟩ := rows row (by simp)
    have first : Mirrors crates config (filed crates content row.block) (s.commit (rowWrites row)) := by
      unfold rowWrites
      rw [hash] at absent ⊢
      exact mirrors.add absent (mirrors.serialized (narrow row (by simp)) body) header canonicalAside
    obtain ⟨content',later,filed',others⟩ := ih (s := s.commit (rowWrites row)) distinct (fun other mem => narrow other (List.mem_cons_of_mem _ mem))
      (fun other mem => by
        obtain ⟨hash',absent',body',header'⟩ := rows other (List.mem_cons_of_mem _ mem)
        refine ⟨hash',?_,body',header'⟩
        have apart : other.hash ≠ row.hash := fun same => fresh (same ▸ List.mem_map_of_mem mem)
        change (applyAll (rowWrites row) s.db .blocks)[hashKey other.hash]? = none
        rw [rowWritesColumn row (.inl rfl),bodyRowsRow,if_neg (by simp),if_neg fun here => apart (hashKeyInj.mp here.2)]
        exact absent') first
    rw [commitAppend] at later
    refine ⟨content',later,fun other mem => ?_,fun hash' out => ?_⟩
    · rcases List.mem_cons.mp mem with rfl | older
      · rw [others _ fresh,hash]
        exact filedSelf _
      · exact filed' other older
    · rw [List.map_cons,List.mem_cons,not_or] at out
      rw [others hash' out.2,filedOther (hash ▸ out.1)]

theorem cacheRowUpholds (faithful : crates.Faithful) {row : StagedRow} (known : content row.hash = some row.block) :
    Upholds (fun l : Ledger => Mirrors crates config content l.store) (fun _ => True) (cacheRow crates row) := by
  have here {α : Type} {P : α → Prop} {m : StoreM α} (inner : Upholds (Mirrors crates config content) P m) :
      Upholds (fun l : Ledger => Mirrors crates config content l.store) P (onStore m) := upholdsPart inner fun _ _ => rfl
  refine upholdsBind (here (upholdsModify fun _ => mirrorsRecord ⟨row.block,_,known,rfl⟩)) fun _ _ =>
    upholdsBind (here (upholdsModify fun _ => mirrorsBody known)) fun _ _ =>
      upholdsBind (here (upholdsModify fun _ => mirrorsHeader (by rw [known]; rfl))) fun _ _ =>
        upholdsBind (upholdsAttempt (here (maybeTrainUpholds faithful))) fun answer _ => ?_
  cases answer <;> exact upholdsModify fun _ kept => kept

theorem sendUpholds (ack : Nat) (result : Except BlockStoreError Bool) :
    Upholds (fun l : Ledger => Mirrors crates config content l.store) (fun _ => True) (send ack result) :=
  upholdsModify fun _ kept => kept

theorem sendAllUpholds (rows : List StagedRow) (message : String) :
    Upholds (fun l : Ledger => Mirrors crates config content l.store) (fun _ => True) (sendAll rows message) :=
  upholdsForEach rows fun _ _ => sendUpholds _ _

theorem writeBinsUpholds (rows : List StagedRow) :
    Upholds (fun l : Ledger => Mirrors crates config content l.store) (fun _ => True)
      (Op.attempt (onStore (writeBins rows))) :=
  upholdsAttempt (upholdsPart (p := Ledger.store) (upholdsForEach rows fun row _ => by
    split
    · exact binUpholds _
    · exact upholdsPure trivial) fun _ _ => rfl)

theorem commitMirrors (faithful : crates.Faithful) {jobs : List PipelineJob} {staged : List StagedRow} {l l' : Ledger}
    {r : Exit Unit} (plan : Staged crates l.store jobs [] staged)
    (narrow : ∀ job ∈ jobs, (l.store.db .blocks)[hashKey (job.block.hash crates)]? = none → l.store.Narrow crates job.block)
    (mirrors : Mirrors crates config content l.store) (h : Runs (Pipeline.commit crates staged) l r l') :
    ∃ content', Mirrors crates config content' l'.store := by
  obtain ⟨content',committed,known,_⟩ := stagedMirrors plan.distinct
    (fun row mem =>
      have staging := plan.rows row mem
      narrow _ staging.job (staging.hash ▸ staging.absent))
    (fun row mem =>
      have staging := plan.rows row mem
      ⟨staging.hash,staging.absent,staging.body,serializeHeaderOk staging.header⟩) mirrors
  have wrote : ∀ r m, Runs (Op.attempt (onStore (write (staged.flatMap rowWrites)))) l r m →
      m.store = l.store ∨ m.store = l.store.commit (staged.flatMap rowWrites) := fun r m run => by
    have inner : ∃ r, Runs (write (staged.flatMap rowWrites)) l.store r m.store := by
      rcases runsAttempt run with ⟨_,_,run⟩ | ⟨_,_,run⟩ | ⟨_,_,run⟩ <;> exact ⟨_,(onStoreRuns run).1⟩
    obtain ⟨_,run⟩ := inner
    rcases writeRuns run with ⟨_,same⟩ | ⟨_,same⟩
    · exact .inr same
    · exact .inl same
  rcases runsBind h with ⟨done,m,one,later⟩ | ⟨e,_,one⟩
  · cases done with
    | error e =>
      have either : ∃ content', Mirrors crates config content' m.store := by
        rcases wrote _ _ one with same | same <;> rw [same]
        · exact ⟨content,mirrors⟩
        · exact ⟨content',committed⟩
      obtain ⟨kept,here⟩ := either
      exact ⟨kept,(sendAllUpholds _ _ _ _ _ here later).1⟩
    | ok done =>
      have here : Mirrors crates config content' m.store := by
        rcases runsAttempt one with ⟨_,_,run⟩ | ⟨e,bad,_⟩ | ⟨e,bad,_⟩
        · rw [writeOk (onStoreRuns run).1]
          exact committed
        · cases bad
        · cases bad
      refine ⟨content',(upholdsBind (Q := fun _ => True) (writeBinsUpholds staged) (fun slots _ => ?_) _ _ _ here later).1⟩
      cases slots with
      | error e => exact sendAllUpholds _ _
      | ok done => exact upholdsForEach staged fun row mem => cacheRowUpholds faithful (known row mem)
  · rcases wrote _ _ one with same | same <;> rw [same]
    · exact ⟨content,mirrors⟩
    · exact ⟨content',committed⟩

theorem flushMirrors (faithful : crates.Faithful) {jobs : List PipelineJob} {v : Unit}
    (narrow : ∀ job ∈ jobs, (s.db .blocks)[hashKey (job.block.hash crates)]? = none → s.Narrow crates job.block)
    (mirrors : Mirrors crates config content s) (h : Runs (flushOk crates jobs) s (.ok v) t) :
    ∃ content', Mirrors crates config content' t := by
  obtain ⟨acks,u,flushing,answers⟩ := runsBindOk h
  obtain ⟨l,run,rfl,rfl⟩ := flushBatchRuns flushing
  obtain ⟨rfl,_⟩ := acksOk answers
  unfold Pipeline.flushPipelineBatch at run
  rw [runsGetBind] at run
  split at run
  · exact ⟨content,(upholdsForEach (I := fun l : Ledger => Mirrors crates config content l.store) jobs
      (fun _ _ => sendUpholds _ _) _ _ _ mirrors run).1⟩
  · obtain ⟨staged,w,staging,committing⟩ := runsBindOk run
    obtain ⟨kept,rows⟩ := stageRuns staging
    have plan := rows staged rfl
    rw [← kept] at plan
    have mirrors' : Mirrors crates config content w.store := by
      rw [kept]
      exact mirrors
    split at committing
    · rw [(runsPure.mp committing).2]
      exact ⟨content,mirrors'⟩
    · exact commitMirrors faithful plan (by rw [kept]; exact narrow) mirrors' committing

end Flush

section Prune

theorem evictAllHeight (hashes : List Bytes32) (hash : Bytes32) : (evictAll hashes s).hashToHeightCache.peek hash =
    if hash ∈ hashes then none else s.hashToHeightCache.peek hash := by
  unfold evictAll
  induction hashes generalizing s with
  | nil => rfl
  | cons other rest ih =>
    rw [List.foldl_cons,ih]
    change (if hash ∈ rest then none else (s.hashToHeightCache.remove other).peek hash) = _
    rw [ShardedLruCache.peekRemove]
    by_cases same : hash = other <;> by_cases mem : hash ∈ rest <;> simp [same,mem]

def dropped (hashes : List Bytes32) (content : Bytes32 → Option L2Block) : Bytes32 → Option L2Block :=
  fun hash => if hash ∈ hashes then none else content hash

theorem prunedMirrors (height : UInt64) (plan : PrunePlan) (mirrors : Mirrors crates config content u) :
    Mirrors crates config (dropped plan.hashes content) (u.pruned height plan) := by
  have kept {hash : Bytes32} (out : hash ∉ plan.hashes) : dropped plan.hashes content hash = content hash := if_neg out
  have db := prunedDb plan height u
  have tuned : (u.pruned height plan).zstdDict = u.zstdDict ∧
      (u.pruned height plan).useCompressionDict = u.useCompressionDict ∧
      (u.pruned height plan).maxDecompressedBlockBytes = u.maxDecompressedBlockBytes := by
    unfold pruned evictHeightsBelow
    rw [evictAllRest]
    exact ⟨rfl,rfl,rfl⟩
  have row : ((u.pruned height plan).db .metadata)[metaZstdDict]? = (u.db .metadata)[metaZstdDict]? := by
    rw [db]
    exact metadataPrune plan height u.db (by simp)
  have active : (u.pruned height plan).activeDictionary = u.activeDictionary := by
    rw [activeDictionary,activeDictionary,tuned.1,tuned.2.1]
  refine ⟨⟨tuned.2.1.trans mirrors.legible.use,tuned.2.2.trans mirrors.legible.cap,?_,?_,?_,fun hash frame found => ?_,
    fun hash block cached => ?_⟩,fun cf key value side found => mirrors.keys cf key value side ((prunedKeeps height plan).rows cf key value side found),
    fun hash block here => ?_,fun hash found => ?_,fun hash header cached => ?_,fun hash record held => ?_,
    fun hash n cached => ?_⟩
  · rw [tuned.1,resolvedCongr row]
    exact mirrors.legible.held
  · rw [tuned.1]
    exact mirrors.legible.override
  · rw [tuned.1,persistedCongr row]
    exact mirrors.legible.loads
  · rw [prunedRow plan height (.inl rfl)] at found
    rw [active]
    split at found
    · cases found
    · rename_i out
      obtain ⟨block,raw,known,rest⟩ := mirrors.legible.rows hash frame found
      exact ⟨block,raw,(kept out).trans known,rest⟩
  · rw [(prunedMentions height plan hash).2.1] at cached
    split at cached
    · cases cached
    · rename_i out
      exact (kept out).trans (mirrors.legible.bodies hash block cached)
  · rw [prunedRow plan height (.inl rfl),prunedRow plan height (.inr (.inl rfl))]
    unfold dropped at here
    split at here
    · cases here
    · rename_i out
      rw [if_neg out,if_neg out]
      exact mirrors.stored hash block here
  · rw [prunedRow plan height (.inr (.inl rfl))] at found
    split at found
    · cases found
    · rename_i out
      rw [kept out]
      exact mirrors.known hash found
  · rw [(prunedMentions height plan hash).1] at cached
    split at cached
    · cases cached
    · rename_i out
      rw [kept out]
      exact mirrors.headers hash header cached
  · rw [(prunedMentions height plan hash).2.2] at held
    split at held
    · cases held
    · rename_i out
      obtain ⟨block,flag,known,same⟩ := mirrors.records hash record held
      exact ⟨block,flag,(kept out).trans known,same⟩
  · rw [show (u.pruned height plan).hashToHeightCache.peek hash = _ from evictAllHeight plan.hashes hash] at cached
    split at cached
    · cases cached
    · rename_i out
      rw [kept out]
      exact mirrors.heights hash n cached

end Prune

end Store

/- Two configurations that read the block rows alike. -/
structure Alike (config config' : BlockStoreConfig) : Prop where
  use : config'.useCompressionDict = config.useCompressionDict
  override : config'.zstdDictionaryOverride = config.zstdDictionaryOverride
  cap : config'.maxDecompressedBlockBytes = config.maxDecompressedBlockBytes

/- What happens to a store: a call or a reopen, or entries lost from the LRU caches. -/
inductive Turn where
  | act (action : Action)
  | evict

def Stores (crates : Crates) (s : Store) (block : L2Block) (u : Store) : Call → Prop
  | .initGenesis own | .putBlock own _ | .extendChain own => own = block ∧ u = s
  | .flush jobs => (∃ job ∈ jobs, job.block = block) ∧ u = s
  | .importSnapshot input => ∃ manifest before after t, Store.ReadsStream crates input s manifest (before ++ block :: after) t ∧
      Store.Puts crates before s u
  | _ => False

def Listed (s : Store) : Call → Prop
  | .setTip _ | .putAttestation .. | .putCheckpoint _ | .pruneCheckpointsBeforeEpoch _ | .updateStatus .. | .initDictionary
  | .disableCanonicalBinAcceleration => False
  | .compaction _ => s.compactionPruning = false
  | _ => True

/- A reopen with the settings of the last open, or one whose settings read every stored row. -/
def Rereads (crates : Crates) (s : BlockStoreConfig × Store) (config : BlockStoreConfig) : Prop :=
  Alike s.1 config ∨ Store.Usable crates config ∧ Store.Reread crates config (s.2.bodyAt crates) s.2

/- A row is written under a dictionary for a block within the cap alone, no genesis comes over
another header of its hash, and every reopen reads the rows there are. -/
def Apt (crates : Crates) (s : BlockStoreConfig × Store) : Turn → Prop
  | .act (.call c) => Listed s.2 c ∧ (∀ block u, Stores crates s.2 block u c →
      (u.db .blocks)[hashKey (block.hash crates)]? = none ∨ c = .initGenesis block → u.Narrow crates block) ∧
      ∀ block, c = .initGenesis block → ∀ header, s.2.headerAt crates (block.hash crates) = some header → header = block.header
  | .act (.reopen config) => Rereads crates s config
  | .act (.reopenReadonly path) => Rereads crates s (.default path)
  | .evict => True

def Turn.config : Turn → BlockStoreConfig → BlockStoreConfig
  | .act (.reopen config),_ => config
  | .act (.reopenReadonly path),_ => .default path
  | _,config => config

/- Turns of a store beside the configuration it was last opened with. -/
def Turns (crates : Crates) (s : BlockStoreConfig × Store) (turn : Turn) (t : BlockStoreConfig × Store) : Prop :=
  t.1 = turn.config s.1 ∧ match turn with
  | .act action => Takes crates s.2 action t.2
  | .evict => ∃ bodies headers heights,
      t.2 = {s.2 with blockCache := bodies,headerCache := headers,hashToHeightCache := heights} ∧
      (∀ hash block, bodies.peek hash = some block → s.2.blockCache.peek hash = some block) ∧
      (∀ hash header, headers.peek hash = some header → s.2.headerCache.peek hash = some header) ∧
      ∀ hash n, heights.peek hash = some n → s.2.hashToHeightCache.peek hash = some n

namespace Store
variable {crates : Crates} {config config' : BlockStoreConfig} {content : Bytes32 → Option L2Block} {s t u : Store}

section Calls

theorem Usable.alike (alike : Alike config config') (usable : Usable crates config) : Usable crates config' :=
  fun own here => usable own (alike.override.symm.trans here)

theorem Reread.alike (alike : Alike config config') (reread : Reread crates config content s) :
    Reread crates config' content s := by
  unfold Reread Written opensUnder resolved at *
  rwa [alike.use,alike.override,alike.cap]

theorem Mirrors.rereads (faithful : crates.Faithful) (usable : Usable crates config) (mirrors : Mirrors crates config content s)
    (rereads : Rereads crates (config,s) config') : Usable crates config' ∧ Reread crates config' content s := by
  rcases rereads with alike | ⟨usable',reread⟩
  · exact ⟨usable.alike alike,mirrors.legible.reread.alike alike⟩
  · rw [show s.bodyAt crates = content from funext (mirrors.bodyAt faithful)] at reread
    exact ⟨usable',reread⟩

theorem bootedMirrors (usable : Usable crates config') (reread : Reread crates config' content s) {readOnly : Bool}
    (booted : Booted config' readOnly s.db u) (mirrors : Mirrors crates config content s) :
    Mirrors crates config' content u := by
  have legible := bootedLegible usable mirrors.legible reread booted
  obtain ⟨bin,_,tip,rfl,_⟩ := booted
  refine ⟨legible,mirrors.keys,mirrors.stored,mirrors.known,fun hash header found => ?_,fun hash record found => ?_,
    fun hash n found => ?_⟩
  · simp [fresh] at found
  · cases found
  · simp [fresh] at found

theorem createdMirrors (usable : Usable crates config) : Mirrors crates config (fun _ => none) (created config) := by
  have empty : ∀ (cf : Cf) (key : Bytes), ((created config).db cf)[key]? = none := fun _ _ => Std.ExtTreeMap.getElem?_empty
  refine ⟨createdLegible usable,fun cf key value _ row => ?_,fun _ _ known => by (cases known),fun hash row => ?_,
    fun hash header found => ?_,fun hash record found => ?_,fun hash n found => ?_⟩
  · cases (empty cf key).symm.trans row
  · rw [empty] at row
    cases row
  · simp [created,fresh] at found
  · cases found
  · simp [created,fresh] at found

theorem invalidateMirrors {hash : Bytes32} {v : Unit}
    (h : Runs (invalidateBlockCacheEntry hash) s (.ok v) t ∨ Runs (invalidateHeaderCacheEntry hash) s (.ok v) t ∨
      Runs (invalidateRecordCacheEntry hash) s (.ok v) t) (mirrors : Mirrors crates config content s) :
    Mirrors crates config content t := by
  rcases h with h | h | h <;> rw [(runsModify.mp h).2]
  · refine Still.mirrors (s := s) ⟨⟨rfl,rfl,rfl,rfl,rfl,fun other block found => ?_⟩,rfl,fun _ _ found => found,
      fun _ record held => ⟨record,record.inCanonicalChain,held,rfl⟩,fun _ _ found => found⟩ mirrors
    rw [ShardedLruCache.peekRemove] at found
    split at found
    · cases found
    · exact found
  · refine Still.mirrors (s := s) ⟨⟨rfl,rfl,rfl,rfl,rfl,fun _ _ found => found⟩,rfl,fun other header found => ?_,
      fun _ record held => ⟨record,record.inCanonicalChain,held,rfl⟩,fun _ _ found => found⟩ mirrors
    rw [ShardedLruCache.peekRemove] at found
    split at found
    · cases found
    · exact found
  · refine Still.mirrors (s := s) ⟨⟨rfl,rfl,rfl,rfl,rfl,fun _ _ found => found⟩,rfl,fun _ _ found => found,
      fun other record held => ?_,fun _ _ found => found⟩ mirrors
    dsimp only at held
    rw [Function.update_apply] at held
    split at held
    · cases held
    · exact ⟨record,record.inCanonicalChain,held,rfl⟩

theorem callMirrors {c : Call} {v : Unit} (lawful : crates.Lawful) (faithful : crates.Faithful) (indexed : Indexed s)
    (apt : Apt crates (config,s) (.act (.call c))) (mirrors : Mirrors crates config content s)
    (h : Runs (call crates c) s (.ok v) t) : ∃ content', Mirrors crates config content' t := by
  obtain ⟨listed,narrow,collides⟩ := apt
  have upheld {m : StoreM Unit} (upholds : Upholds (Mirrors crates config content) (fun _ => True) m)
      (run : Runs m s (.ok v) t) : ∃ content', Mirrors crates config content' t :=
    ⟨content,(upholds _ _ _ mirrors run).1⟩
  have done {α : Type} {m : StoreM α} (upholds : Upholds (Mirrors crates config content) (fun _ => True) m)
      (run : Runs (discard m) s (.ok v) t) : ∃ content', Mirrors crates config content' t :=
    upheld (upholdsBind upholds fun _ _ => upholdsPure trivial) run
  cases c with
  | read r => exact ⟨content,touchedMirrors lawful faithful (readTouched h) mirrors⟩
  | initGenesis block =>
    refine genesisMirrors faithful (narrow block s ⟨rfl,rfl⟩ (.inr rfl)) (fun found known => ?_) mirrors h
    refine collides block rfl found.header ?_
    rw [mirrors.headerAt lawful,known]
    rfl
  | putBlock block canonical =>
    obtain ⟨added,run⟩ := discardOk h
    exact putMirrors faithful (fun absent => narrow block s ⟨rfl,rfl⟩ (.inl absent)) mirrors run
  | flush jobs =>
    exact flushMirrors faithful (fun job mem absent => narrow job.block s ⟨⟨job,mem,rfl⟩,rfl⟩ (.inl absent)) mirrors h
  | extendChain block =>
    obtain ⟨added,run⟩ := discardOk h
    exact extendMirrors faithful (fun absent => narrow block s ⟨rfl,rfl⟩ (.inl absent)) mirrors run
  | setCanonical hash => exact upheld (setCanonicalUpholds lawful faithful hash) h
  | setCanonicalBatch hashes => exact upheld (setCanonicalBatchUpholds lawful faithful hashes) h
  | rollbackToHeight target => exact done (rollbackUpholds lawful faithful target) h
  | applyReorg ancestor hashes => exact done (applyReorgUpholds lawful faithful ancestor hashes) h
  | pruneBeforeHeight height =>
    obtain ⟨n,run⟩ := discardOk h
    rcases pruneRuns indexed run with ⟨⟨e,bad⟩,_⟩ | ⟨_,_,_,rfl⟩ | ⟨plan,u,pruning,_,rfl⟩
    · cases bad
    · exact ⟨content,mirrors⟩
    · exact ⟨_,prunedMirrors height plan (touchedMirrors lawful faithful pruning.touched mirrors)⟩
  | importSnapshot input =>
    obtain ⟨manifest,run⟩ := discardOk h
    obtain ⟨blocks,reads⟩ := importReads run
    obtain ⟨_,_,_,frames⟩ := id reads
    refine putsMirrors faithful (fun before block after u split puts absent => ?_) mirrors frames.puts
    exact narrow block u ⟨manifest,before,after,t,split ▸ reads,puts⟩ (.inl absent)
  | invalidateBlockCacheEntry hash => exact ⟨content,invalidateMirrors (.inl h) mirrors⟩
  | invalidateHeaderCacheEntry hash => exact ⟨content,invalidateMirrors (.inr (.inl h)) mirrors⟩
  | invalidateRecordCacheEntry hash => exact ⟨content,invalidateMirrors (.inr (.inr h)) mirrors⟩
  | compaction visited =>
    rw [(runsModify.mp (show Runs (compaction crates visited) s _ t from h)).2,
      if_neg (by rw [show s.compactionPruning = false from listed]; simp)]
    exact ⟨content,mirrors⟩
  | _ => exact listed.elim

end Calls

end Store

theorem turnMirrors {crates : Crates} {s t : BlockStoreConfig × Store} {turn : Turn} (lawful : crates.Lawful)
    (faithful : crates.Faithful) (indexed : s.2.Indexed) (h : Guarded (Apt crates) (Turns crates) s turn t)
    (mirrors : Store.Usable crates s.1 ∧ ∃ content, s.2.Mirrors crates s.1 content) :
    Store.Usable crates t.1 ∧ ∃ content, t.2.Mirrors crates t.1 content := by
  obtain ⟨apt,settings,taken⟩ := h
  obtain ⟨usable,content,mirrors⟩ := mirrors
  rw [settings]
  cases turn with
  | act action =>
    cases action with
    | call c => exact ⟨usable,Store.callMirrors lawful faithful indexed apt mirrors taken⟩
    | reopen config =>
      obtain ⟨disk,run⟩ := taken
      obtain ⟨_,u,booted,touched⟩ := Store.openStoreOk run
      obtain ⟨usable',reread⟩ := mirrors.rereads faithful usable apt
      exact ⟨usable',content,Store.touchedMirrors lawful faithful touched (Store.bootedMirrors usable' reread booted mirrors)⟩
    | reopenReadonly path =>
      obtain ⟨disk,run⟩ := taken
      obtain ⟨usable',reread⟩ := mirrors.rereads faithful usable apt
      exact ⟨usable',content,Store.bootedMirrors usable' reread (Store.openReadonlyOk run).2 mirrors⟩
  | evict =>
    obtain ⟨bodies,headers,heights,same,fewer,fewerHeaders,fewerHeights⟩ := taken
    rw [same]
    exact ⟨usable,content,Store.Still.mirrors (s := s.2) ⟨⟨rfl,rfl,rfl,rfl,rfl,fewer⟩,rfl,fewerHeaders,
      fun _ record held => ⟨record,record.inCanonicalChain,held,rfl⟩,fewerHeights⟩ mirrors⟩

theorem turnIndexed {crates : Crates} {s t : BlockStoreConfig × Store} {turn : Turn} (indexed : s.2.Indexed)
    (h : Turns crates s turn t) : t.2.Indexed := by
  obtain ⟨_,taken⟩ := h
  cases turn with
  | act action => exact takesIndexed indexed taken
  | evict =>
    obtain ⟨_,_,_,same,_⟩ := taken
    rw [same]
    exact Store.Quiet.indexed (s := s.2) ⟨rfl,rfl,rfl,rfl,rfl,rfl,rfl,rfl,fun _ _ _ found => .inl found⟩ indexed

namespace Sample

def rootTurn : Turn := .act (.call rootCall)

def tightened : BlockStoreConfig := {config with maxDecompressedBlockBytes := 4}

def tightRoot : Store := (Store.call sealed rootCall ⟨.created tightened,[]⟩).2.state

def plainRoot : Bytes := 0 :: encodeBlock (block 0 0 1)

theorem tightRows : (tightRoot.db .blocks).toList = [(hashKey (hash 1),plainRoot)] := by decide +kernel

theorem tightRereads : Rereads sealed (tightened,tightRoot) config := by
  refine .inr ⟨fun _ here => (by cases here),fun other frame row => ?_⟩
  have mem := Std.ExtTreeMap.mem_toList_iff_getElem?_eq_some.mpr row
  rw [tightRows] at mem
  obtain ⟨own,rfl⟩ := Prod.mk.inj (List.mem_singleton.mp mem)
  obtain rfl := hashKeyInj.mp own
  refine ⟨block 0 0 1,encodeBlock (block 0 0 1),?_,rfl,.inl ⟨0,rfl⟩⟩
  have found : (tightRoot.db .blocks)[hashKey (hash 1)]? = some plainRoot := row
  rw [Store.bodyAt,found]
  change (Except.mapError BlockStoreError.serialization (sealed.deserializeBlock (encodeBlock (block 0 0 1)))).toOption = _
  rw [sealedFaithful.block _ _ rfl]
  rfl

theorem tightReopens : ∃ t, Takes sealed tightRoot (.reopen config) t ∧ t.hasBlock (hash 1) = true := by
  have checked : (match (Store.openStore sealed config ⟨tightRoot.disk,[]⟩).1 with
      | .ok t => t.hasBlock (hash 1)
      | .error _ => false) = true := by decide +kernel
  cases answer : (Store.openStore sealed config ⟨tightRoot.disk,[]⟩).1 with
  | ok t =>
    rw [answer] at checked
    exact ⟨t,⟨_,Faulty.Runs.ofResult answer⟩,checked⟩
  | error e =>
    rw [answer] at checked
    cases checked

end Sample

namespace Sample

def keyed : BlockStoreConfig := {config with zstdDictionaryOverride := some trainedDict}

def capped : BlockStoreConfig := {keyed with maxDecompressedBlockBytes := 4}

def evicted : List Call := [rootCall,.invalidateBlockCacheEntry (hash 1)]

def oversized : Store := .after sealed (fun _ _ => true) capped evicted

def keyedRoot : Store := .after sealed (fun _ _ => true) keyed evicted

def backed : Store := .after sealed (fun _ _ => true) config
  [.initGenesis (block 0 0 1),.extendChain (block 1 1 2),.rollbackToHeight 0]

def collided : Store := .after sealed (fun _ _ => true) config [.putBlock (block 5 0 1) false,.initGenesis (block 0 0 1)]

theorem keyedReopens : ∃ t, Takes sealed keyedRoot (.reopen config) t ∧ t.hasBlock (hash 1) = true ∧
    (Store.getBlock sealed (hash 1) ⟨t,[]⟩).1 =
      .error (.error (.serialization "deserialize_block: decompress failed: dictionary mismatch")) := by
  have checked : (match (Store.openStore sealed config ⟨keyedRoot.disk,[]⟩).1 with
      | .ok t => decide (t.hasBlock (hash 1) = true ∧ (Store.getBlock sealed (hash 1) ⟨t,[]⟩).1 =
          .error (.error (.serialization "deserialize_block: decompress failed: dictionary mismatch")))
      | .error _ => false) = true := by decide +kernel
  cases answer : (Store.openStore sealed config ⟨keyedRoot.disk,[]⟩).1 with
  | ok t =>
    rw [answer] at checked
    exact ⟨t,⟨_,Faulty.Runs.ofResult answer⟩,of_decide_eq_true checked⟩
  | error e =>
    rw [answer] at checked
    cases checked

end Sample

end DigBlockstore
