import DigBlockstore.Coherence

/-! What is filed under a hash: one header, in the header and block rows and in every
cache entry. It holds of all runs, for whatever content the last ingest of a hash gave it. -/
namespace DigBlockstore
open ByteCodec Faulty ColumnStore PartialMap Pipeline

/- A zstd frame of the payload, with any dictionary or none. -/
def Compressed (crates : Crates) (raw compressed : Bytes) : Prop :=
  (∃ level, crates.encodeAll raw level = .ok compressed) ∨
    ∃ dict level, crates.compressWith dict level raw = .ok compressed

/- bincode reads back what it wrote, and zstd answers what was compressed or fails. -/
structure Crates.Lawful (crates : Crates) : Prop where
  header : ∀ header raw, crates.serializeHeader header = .ok raw → crates.deserializeHeader raw = .ok header
  block : ∀ block raw, crates.serializeBlock block = .ok raw → crates.deserializeBlock raw = .ok block
  decodeAll : ∀ raw compressed raw', Compressed crates raw compressed →
    crates.decodeAll compressed = .ok raw' → raw' = raw
  decompressWith : ∀ dict cap raw compressed raw', Compressed crates raw compressed →
    crates.decompressWith dict compressed cap = .ok raw' → raw' = raw

/- A `CF_BLOCKS` value some dictionary may have produced for the block. -/
def Encodes (crates : Crates) (block : L2Block) (compressed : Bytes) : Prop :=
  ∃ raw, crates.serializeBlock block = .ok raw ∧ Compressed crates raw compressed

namespace Store
variable {crates : Crates} {s t u : Store} {content : Bytes32 → L2BlockHeader}

structure Filed (crates : Crates) (content : Bytes32 → L2BlockHeader) (s : Store) : Prop where
  keys : ∀ (cf : Cf) (key value : Bytes), cf = .blocks ∨ cf = .headers → (s.db cf)[key]? = some value → ∃ hash, key = hashKey hash
  headerRow : ∀ hash raw, (s.db .headers)[hashKey hash]? = some raw →
    crates.serializeHeader (content hash) = .ok raw
  bodyRow : ∀ hash raw, (s.db .blocks)[hashKey hash]? = some raw →
    ∃ block, Encodes crates block raw ∧ block.header = content hash
  header : ∀ hash header, s.headerCache.peek hash = some header → header = content hash
  body : ∀ hash block, s.blockCache.peek hash = some block → block.header = content hash
  record : ∀ hash record, s.recordCache hash = some record →
    record.height = (content hash).height ∧ record.parentHash = (content hash).parentHash

theorem serializeBlockEncodes {block : L2Block} {compressed : Bytes}
    (h : s.serializeBlock crates block = .ok compressed) : Encodes crates block compressed := by
  unfold Store.serializeBlock at h
  split at h
  · cases h
  · rename_i raw encoded
    refine ⟨raw,encoded,?_⟩
    split at h
    · rename_i dict _
      cases packed : crates.compressWith dict s.compressionLevel raw with
      | error why => rw [packed] at h; cases h
      | ok bytes =>
        rw [packed] at h
        cases h
        exact .inr ⟨dict,s.compressionLevel,packed⟩
    · cases packed : crates.encodeAll raw s.compressionLevel with
      | error why => rw [packed] at h; cases h
      | ok bytes =>
        rw [packed] at h
        cases h
        exact .inl ⟨s.compressionLevel,packed⟩

theorem serializeHeaderOk {header : L2BlockHeader} {raw : Bytes}
    (h : serializeHeader crates header = .ok raw) : crates.serializeHeader header = .ok raw := by
  unfold serializeHeader at h
  cases packed : crates.serializeHeader header with
  | error why => rw [packed] at h; cases h
  | ok bytes => rw [packed] at h; cases h; rfl

/- However the dictionary stands, a body row decodes to the block it encodes or not at all. -/
theorem deserializeEncoded (lawful : crates.Lawful) {block found : L2Block} {compressed : Bytes}
    (encodes : Encodes crates block compressed) (h : s.deserializeBlock crates compressed = .ok found) :
    found = block := by
  obtain ⟨raw,serialized,packed⟩ := encodes
  unfold Store.deserializeBlock at h
  split at h
  · cases h
  · rename_i raw' unpacked
    have same : raw' = raw := by
      unfold Store.decompressBlockPayload at unpacked
      split at unpacked
      · split at unpacked
        · cases unpacked
        · split at unpacked
          · rename_i bytes decoded
            cases unpacked
            exact lawful.decompressWith _ _ _ _ _ packed decoded
          · exact lawful.decodeAll _ _ _ packed unpacked
      · exact lawful.decodeAll _ _ _ packed unpacked
    rw [same,lawful.block block raw serialized] at h
    exact (Except.ok.inj h).symm

theorem Filed.headerAt (lawful : crates.Lawful) (filed : Filed crates content s) {hash : Bytes32} :
    s.headerAt crates hash = if (s.db .headers)[hashKey hash]?.isSome then some (content hash) else none := by
  unfold Store.headerAt
  cases row : (s.db .headers)[hashKey hash]? with
  | none => rfl
  | some raw =>
    have decoded := lawful.header _ _ (filed.headerRow hash raw row)
    simp only [Option.bind_some,deserializeHeader,decoded]
    rfl

theorem Filed.bodyAt (lawful : crates.Lawful) (filed : Filed crates content s) {hash : Bytes32} {block : L2Block}
    (h : s.bodyAt crates hash = some block) : block.header = content hash := by
  obtain ⟨raw,row,decoded⟩ := Option.bind_eq_some_iff.mp h
  obtain ⟨stored,encodes,same⟩ := filed.bodyRow hash raw row
  cases read : s.deserializeBlock crates raw with
  | error e => rw [read] at decoded; cases decoded
  | ok found =>
    rw [read] at decoded
    cases decoded
    rw [deserializeEncoded lawful encodes read,same]

theorem Filed.knows (lawful : crates.Lawful) (filed : Filed crates content s) {hash : Bytes32}
    {header : L2BlockHeader} (known : s.Knows crates hash header) : header = content hash := by
  rcases known with cached | row | ⟨block,row,same⟩
  · exact filed.header hash header cached
  · rw [filed.headerAt lawful] at row
    split at row
    · exact (Option.some.inj row).symm
    · cases row
  · rw [same]
    exact filed.bodyAt lawful row

theorem Filed.mayRecord (lawful : crates.Lawful) (filed : Filed crates content s) {hash : Bytes32}
    {record : BlockRecord} (held : MayRecord crates s hash record) :
    record.height = (content hash).height ∧ record.parentHash = (content hash).parentHash := by
  rcases held with cached | ⟨_,header,known,rfl⟩
  · exact filed.record hash record cached
  · rw [filed.knows lawful known]
    exact ⟨rfl,rfl⟩

theorem Touched.filed (lawful : crates.Lawful) (touched : Touched crates s t) (filed : Filed crates content s) :
    Filed crates content t where
  keys := by rw [touched.db]; exact filed.keys
  headerRow := by rw [touched.db]; exact filed.headerRow
  bodyRow := by rw [touched.db]; exact filed.bodyRow
  header hash header found := filed.knows lawful (touched.headers hash header found)
  body hash block found := by
    rcases touched.bodies hash block found with cached | row
    · exact filed.body hash block cached
    · exact filed.bodyAt lawful row
  record hash record found := filed.mayRecord lawful (touched.records hash record found)

structure Keeps (s t : Store) : Prop where
  rows : ∀ (cf : Cf) (key value : Bytes), cf = .blocks ∨ cf = .headers → (t.db cf)[key]? = some value → (s.db cf)[key]? = some value
  header : ∀ hash header, t.headerCache.peek hash = some header → s.headerCache.peek hash = some header
  body : ∀ hash block, t.blockCache.peek hash = some block → s.blockCache.peek hash = some block
  record : ∀ hash record, t.recordCache hash = some record → ∃ record', s.recordCache hash = some record' ∧
    record.height = record'.height ∧ record.parentHash = record'.parentHash

theorem Keeps.refl (s : Store) : Keeps s s :=
  ⟨fun _ _ _ _ row => row,fun _ _ found => found,fun _ _ found => found,fun _ r found => ⟨r,found,rfl,rfl⟩⟩

theorem Keeps.trans (first : Keeps s t) (later : Keeps t u) : Keeps s u where
  rows cf key value side row := first.rows cf key value side (later.rows cf key value side row)
  header hash header found := first.header hash header (later.header hash header found)
  body hash block found := first.body hash block (later.body hash block found)
  record hash record found := by
    obtain ⟨r,held,height,parent⟩ := later.record hash record found
    obtain ⟨r',held',height',parent'⟩ := first.record hash r held
    exact ⟨r',held',height.trans height',parent.trans parent'⟩

theorem Keeps.filed (keeps : Keeps s t) (filed : Filed crates content s) : Filed crates content t where
  keys cf key value side row := filed.keys cf key value side (keeps.rows cf key value side row)
  headerRow hash raw row := filed.headerRow hash raw (keeps.rows .headers _ raw (.inr rfl) row)
  bodyRow hash raw row := filed.bodyRow hash raw (keeps.rows .blocks _ raw (.inl rfl) row)
  header hash header found := filed.header hash header (keeps.header hash header found)
  body hash block found := filed.body hash block (keeps.body hash block found)
  record hash record found := by
    obtain ⟨r,held,height,parent⟩ := keeps.record hash record found
    obtain ⟨height',parent'⟩ := filed.record hash r held
    exact ⟨height.trans height',parent.trans parent'⟩

def Spares : Write → Prop
  | .put column _ _ => column ≠ .blocks ∧ column ≠ .headers
  | .delete _ _ => True

theorem commitRow {batch : List Write} (spares : ∀ write ∈ batch, Spares write) {cf : Cf} {key value : Bytes}
    (side : cf = .blocks ∨ cf = .headers) (row : (applyAll batch s.db cf)[key]? = some value) :
    (s.db cf)[key]? = some value := by
  rw [getApplyAll] at row
  cases last : lastEffect batch cf key with
  | none => rwa [last] at row
  | some left =>
    rw [last] at row
    obtain ⟨write,mem,effect⟩ := lastEffectMem last
    cases write with
    | put column k v =>
      rw [effectPut] at effect
      split at effect
      · rename_i same
        have apart := spares _ mem
        rcases side with rfl | rfl
        · exact absurd same.1 apart.1
        · exact absurd same.1 apart.2
      · cases effect
    | delete column k =>
      rw [effectDelete] at effect
      split at effect
      · cases effect
        cases row
      · cases effect

theorem keepsCommit {batch : List Write} (spares : ∀ write ∈ batch, Spares write) : Keeps s (s.commit batch) :=
  {Keeps.refl s with rows := fun _ _ _ side row => commitRow spares side row}

theorem keepsWithTip (tip : ChainTip) : Keeps s (s.withTip tip) :=
  (@keepsCommit s [.put .metadata metaTip tip.toBytes] (by simp [Spares])).trans
    {Keeps.refl _ with rows := fun _ _ _ _ row => row}

theorem keepsRetip (target : UInt64) (found : Option Bytes32) : Keeps s (s.retip target found) := by
  cases found with
  | none => exact .refl s
  | some hash => exact keepsWithTip ⟨hash,target⟩

theorem Trained.keeps (trained : Trained s t) : Keeps s t where
  rows cf key value side row := by
    rwa [trained.rows cf key (by rintro ⟨rfl,_⟩; rcases side with side | side <;> cases side)] at row
  header hash header found := by rwa [trained.rest] at found
  body hash block found := by rwa [trained.rest] at found
  record hash record found := ⟨record,by rwa [trained.rest] at found,rfl,rfl⟩

theorem keepsFlagRecord (flag : Bool) (hash : Bytes32) : Keeps s (s.flagRecord flag hash) := by
  unfold flagRecord
  split
  · rename_i record held
    refine {Keeps.refl s with
      rows := fun _ _ _ _ row => row
      record := fun other r found => ?_}
    by_cases same : other = hash
    · subst same
      rw [cacheRecordSelf] at found
      cases found
      exact ⟨record,held,rfl,rfl⟩
    · rw [cacheRecordOther same] at found
      exact ⟨r,found,rfl,rfl⟩
  · exact .refl s

theorem keepsFlagRecords (flag : Bool) (hashes : List Bytes32) : Keeps s (s.flagRecords flag hashes) := by
  unfold flagRecords
  induction hashes generalizing s with
  | nil => exact .refl s
  | cons hash rest ih => exact (keepsFlagRecord flag hash).trans ih

theorem evictPrunedHeader (s : Store) (hash other : Bytes32) : (s.evictPruned hash).headerCache.peek other =
    if other = hash then none else s.headerCache.peek other := ShardedLruCache.peekRemove ..

theorem evictPrunedBody (s : Store) (hash other : Bytes32) : (s.evictPruned hash).blockCache.peek other =
    if other = hash then none else s.blockCache.peek other := ShardedLruCache.peekRemove ..

theorem evictPrunedRecord (s : Store) (hash other : Bytes32) : (s.evictPruned hash).recordCache other =
    if other = hash then none else s.recordCache other := Function.update_apply ..

theorem keepsEvictPruned (hash : Bytes32) : Keeps s (s.evictPruned hash) := by
  refine ⟨fun _ _ _ _ row => row,fun other header found => ?_,fun other block found => ?_,
    fun other record found => ?_⟩
  · rw [evictPrunedHeader] at found
    split at found
    · cases found
    · exact found
  · rw [evictPrunedBody] at found
    split at found
    · cases found
    · exact found
  · rw [evictPrunedRecord] at found
    split at found
    · cases found
    · exact ⟨record,found,rfl,rfl⟩

theorem keepsEvictAll (hashes : List Bytes32) : Keeps s (evictAll hashes s) := by
  unfold evictAll
  induction hashes generalizing s with
  | nil => exact .refl s
  | cons hash rest ih => exact (keepsEvictPruned hash).trans ih

def ingest (crates : Crates) (content : Bytes32 → L2BlockHeader) (block : L2Block) : Bytes32 → L2BlockHeader :=
  Function.update content (block.hash crates) block.header

theorem bodyRowsRow (hash : Bytes32) (compressed headerBytes : Bytes) (db : Db) (cf : Cf) (key : Bytes) :
    (applyAll (bodyRows hash compressed headerBytes) db cf)[key]? =
      if cf = .headers ∧ key = hashKey hash then some headerBytes
      else if cf = .blocks ∧ key = hashKey hash then some compressed else (db cf)[key]? := by
  rw [getApplyAll,bodyRows,lastEffectCons,lastEffectCons,lastEffectNil,effectPut,effectPut]
  by_cases header : cf = .headers ∧ key = hashKey hash
  · rw [if_pos header,if_pos ⟨header.1.symm,header.2.symm⟩]
    rfl
  · rw [if_neg header,if_neg fun both => header ⟨both.1.symm,both.2.symm⟩]
    by_cases body : cf = .blocks ∧ key = hashKey hash
    · rw [if_pos body,if_pos ⟨body.1.symm,body.2.symm⟩]
      rfl
    · rw [if_neg body,if_neg fun both => body ⟨both.1.symm,both.2.symm⟩]
      rfl

/- Filing one block: its two rows and its three cache entries. -/
structure Ingests (crates : Crates) (s t : Store) (block : L2Block) (compressed headerBytes : Bytes) : Prop where
  rows : ∀ cf, cf = .blocks ∨ cf = .headers →
    t.db cf = applyAll (bodyRows (block.hash crates) compressed headerBytes) s.db cf
  headers : t.headerCache = (s.cacheBlock crates block).headerCache
  bodies : t.blockCache = (s.cacheBlock crates block).blockCache
  records : t.recordCache = (s.cacheBlock crates block).recordCache

theorem Filed.ingest {block : L2Block} {compressed headerBytes : Bytes} (filed : Filed crates content s)
    (encodes : Encodes crates block compressed) (header : crates.serializeHeader block.header = .ok headerBytes)
    (ingests : Ingests crates s t block compressed headerBytes) :
    Filed crates (ingest crates content block) t where
  keys cf key value side row := by
    rw [ingests.rows cf side,bodyRowsRow] at row
    split at row
    · exact ⟨_,And.right ‹_›⟩
    · split at row
      · exact ⟨_,And.right ‹_›⟩
      · exact filed.keys cf key value side row
  headerRow hash raw row := by
    rw [ingests.rows .headers (.inr rfl),bodyRowsRow] at row
    by_cases same : hash = block.hash crates
    · subst same
      rw [if_pos ⟨rfl,rfl⟩] at row
      cases row
      rwa [Store.ingest,Function.update_self]
    · rw [if_neg fun both => same (hashKeyInj.mp both.2),if_neg (by simp)] at row
      rw [Store.ingest,Function.update_of_ne same]
      exact filed.headerRow hash raw row
  bodyRow hash raw row := by
    rw [ingests.rows .blocks (.inl rfl),bodyRowsRow,if_neg (by simp)] at row
    by_cases same : hash = block.hash crates
    · subst same
      rw [if_pos ⟨rfl,rfl⟩] at row
      cases row
      exact ⟨block,encodes,by rw [Store.ingest,Function.update_self]⟩
    · rw [if_neg fun both => same (hashKeyInj.mp both.2)] at row
      rw [Store.ingest,Function.update_of_ne same]
      exact filed.bodyRow hash raw row
  header hash found held := by
    rw [ingests.headers] at held
    rcases ShardedLruCache.peekInsert held with ⟨rfl,rfl⟩ | ⟨apart,older⟩
    · rw [Store.ingest,Function.update_self]
    · rw [Store.ingest,Function.update_of_ne apart]
      exact filed.header hash found older
  body hash found held := by
    rw [ingests.bodies] at held
    rcases ShardedLruCache.peekInsert held with ⟨rfl,rfl⟩ | ⟨apart,older⟩
    · rw [Store.ingest,Function.update_self]
    · rw [Store.ingest,Function.update_of_ne apart]
      exact filed.body hash found older
  record hash found held := by
    rw [ingests.records] at held
    change Function.update s.recordCache (block.hash crates) _ hash = some found at held
    by_cases same : hash = block.hash crates
    · subst same
      rw [Function.update_self] at held
      cases held
      rw [Store.ingest,Function.update_self]
      exact ⟨rfl,rfl⟩
    · rw [Function.update_of_ne same] at held
      rw [Store.ingest,Function.update_of_ne same]
      exact filed.record hash found held

end Store
end DigBlockstore
