import DigBlockstore.RowRuns
import DigBlockstore.Imports

/-! Blocks stay readable while a dictionary is trained: every row is a plain frame or one of
the dictionary in memory, which is the persisted one, and that is never replaced. -/
namespace DigBlockstore
open ByteCodec Faulty ColumnStore PartialMap Pipeline Trace

/- bincode and zstd read back what they wrote; a frame made without a dictionary is read
rightly under one or not at all; a trained dictionary loads. -/
structure Crates.Faithful (crates : Crates) : Prop where
  block : ∀ block raw, crates.serializeBlock block = .ok raw → crates.deserializeBlock raw = .ok block
  plain : ∀ raw level frame, crates.encodeAll raw level = .ok frame → crates.decodeAll frame = .ok raw
  packed : ∀ dict level raw frame cap, crates.compressWith dict level raw = .ok frame → raw.length ≤ cap →
    crates.decompressWith dict frame cap = .ok raw
  aside : ∀ dict level raw frame cap found, crates.encodeAll raw level = .ok frame →
    crates.decompressWith dict frame cap = .ok found → found = raw
  trained : ∀ samples size dict, crates.fromSamples samples size = .ok dict →
    dict ≠ [] ∧ crates.decompressor dict = .ok ()

namespace Store
variable {crates : Crates} {config : BlockStoreConfig} {content : Bytes32 → Option L2Block}
  {s t u : Store}

/- `META_ZSTD_DICT`, unless it is empty. -/
def persisted (s : Store) : Option Bytes := loadZstdDictFromDb s.db true

/- A block row: the block of its hash, in a plain frame or, no larger than the cap, in one of
the dictionary given. -/
def Written (crates : Crates) (config : BlockStoreConfig) (content : Bytes32 → Option L2Block)
    (dictionary : Option Bytes) (hash : Bytes32) (frame : Bytes) : Prop :=
  ∃ block raw, content hash = some block ∧ crates.serializeBlock block = .ok raw ∧
    ((∃ level, crates.encodeAll raw level = .ok frame) ∨ ∃ dict level, dictionary = some dict ∧
      crates.compressWith dict level raw = .ok frame ∧ raw.length ≤ config.maxDecompressedBlockBytes)

def resolved (config : BlockStoreConfig) (s : Store) : Option Bytes :=
  resolveZstdDictionary s.db config.useCompressionDict config.zstdDictionaryOverride

/- The rows are read rightly, the dictionary in memory is the one the next open takes, and an
override never gives way to another. -/
structure Legible (crates : Crates) (config : BlockStoreConfig) (content : Bytes32 → Option L2Block) (s : Store) :
    Prop where
  use : s.useCompressionDict = config.useCompressionDict
  cap : s.maxDecompressedBlockBytes = config.maxDecompressedBlockBytes
  held : ∀ dict, s.zstdDict = some dict → s.resolved config = some dict
  override : ∀ own, config.zstdDictionaryOverride = some own → s.zstdDict = some own
  loads : ∀ dict, s.zstdDict = some dict ∨ s.persisted = some dict → crates.decompressor dict = .ok ()
  rows : ∀ hash frame, (s.db .blocks)[hashKey hash]? = some frame →
    Written crates config content s.activeDictionary hash frame
  bodies : ∀ hash block, s.blockCache.peek hash = some block → content hash = some block

def Preserves (crates : Crates) (config : BlockStoreConfig) (content : Bytes32 → Option L2Block) (s t : Store) : Prop :=
  Legible crates config content s → Legible crates config content t ∧
    ∀ dict, s.persisted = some dict → t.persisted = some dict

instance : IsPreorder Store (Preserves crates config content) where
  refl _ legible := ⟨legible,fun _ kept => kept⟩
  trans _ _ _ first later legible :=
    have middle := first legible
    have last := later middle.1
    ⟨last.1,fun dict kept => last.2 dict (middle.2 dict kept)⟩

section Decoding

theorem activeSome {dict : Bytes} (active : s.activeDictionary = some dict) : s.zstdDict = some dict := by
  unfold activeDictionary at active
  split at active
  · exact active
  · cases active

theorem Legible.decodes (faithful : crates.Faithful) (legible : Legible crates config content s) {hash : Bytes32}
    {frame : Bytes} (row : (s.db .blocks)[hashKey hash]? = some frame) :
    ∃ block, content hash = some block ∧ s.deserializeBlock crates frame = .ok block := by
  obtain ⟨block,raw,known,encoded,form⟩ := legible.rows hash frame row
  have unpacked : s.decompressBlockPayload crates frame = .ok raw := by
    unfold decompressBlockPayload
    cases active : s.activeDictionary with
    | none =>
      rcases form with ⟨level,plain⟩ | ⟨_,_,held,_⟩
      · exact faithful.plain raw level frame plain
      · rw [active] at held
        cases held
    | some dict =>
      dsimp only
      rw [legible.loads dict (.inl (activeSome active))]
      dsimp only
      rcases form with ⟨level,plain⟩ | ⟨other,level,same,packed,small⟩
      · cases answer : crates.decompressWith dict frame s.maxDecompressedBlockBytes with
        | ok found => rw [faithful.aside dict level raw frame _ found plain answer]
        | error why => exact faithful.plain raw level frame plain
      · rw [active] at same
        cases same
        rw [legible.cap,faithful.packed dict level raw frame _ packed small]
  refine ⟨block,known,?_⟩
  rw [deserializeBlock,unpacked]
  dsimp only
  rw [faithful.block _ _ encoded]
  rfl

theorem Legible.bodyAt (faithful : crates.Faithful) (legible : Legible crates config content s) {hash : Bytes32}
    {block : L2Block} (found : s.bodyAt crates hash = some block) : content hash = some block := by
  obtain ⟨frame,row,decoded⟩ := Option.bind_eq_some_iff.mp found
  obtain ⟨own,known,answer⟩ := legible.decodes faithful row
  rw [answer] at decoded
  exact known.trans decoded

theorem Legible.getBlock (faithful : crates.Faithful) (legible : Legible crates config content s) {hash : Bytes32}
    (stored : (s.db .blocks)[hashKey hash]?.isSome) (script : List Event) :
    ∃ block, content hash = some block ∧ (getBlock crates hash ⟨s,script⟩).1 = .ok (some block) := by
  obtain ⟨frame,row⟩ := Option.isSome_iff_exists.mp stored
  unfold Store.getBlock
  simp only [bind,Op.bind,Op.get,Op.modify]
  cases cached : (s.blockCache.getClone hash).1 with
  | some block => exact ⟨block,legible.bodies hash block cached,rfl⟩
  | none =>
    obtain ⟨block,known,decoded⟩ := legible.decodes faithful row
    refine ⟨block,known,?_⟩
    dsimp only
    rw [row]
    dsimp only
    rw [decoded]
    rfl

end Decoding

section Parts

structure Aloof (s t : Store) : Prop where
  blocks : t.db .blocks = s.db .blocks
  row : (t.db .metadata)[metaZstdDict]? = (s.db .metadata)[metaZstdDict]?
  dict : t.zstdDict = s.zstdDict
  use : t.useCompressionDict = s.useCompressionDict
  cap : t.maxDecompressedBlockBytes = s.maxDecompressedBlockBytes
  bodies : ∀ hash block, t.blockCache.peek hash = some block → s.blockCache.peek hash = some block

theorem persistedCongr (row : (t.db .metadata)[metaZstdDict]? = (s.db .metadata)[metaZstdDict]?) :
    t.persisted = s.persisted := by
  unfold persisted loadZstdDictFromDb
  rw [row]

theorem resolvedCongr (row : (t.db .metadata)[metaZstdDict]? = (s.db .metadata)[metaZstdDict]?) :
    t.resolved config = s.resolved config := by
  unfold resolved resolveZstdDictionary loadZstdDictFromDb
  rw [row]

theorem Legible.framed (legible : Legible crates config content s)
    (row : (t.db .metadata)[metaZstdDict]? = (s.db .metadata)[metaZstdDict]?) (dict : t.zstdDict = s.zstdDict)
    (use : t.useCompressionDict = s.useCompressionDict)
    (cap : t.maxDecompressedBlockBytes = s.maxDecompressedBlockBytes)
    (rows : ∀ hash frame, (t.db .blocks)[hashKey hash]? = some frame →
      Written crates config content s.activeDictionary hash frame)
    (bodies : ∀ hash block, t.blockCache.peek hash = some block → content hash = some block) :
    Legible crates config content t where
  use := use.trans legible.use
  cap := cap.trans legible.cap
  held := by
    rw [dict,resolvedCongr row]
    exact legible.held
  override := by
    rw [dict]
    exact legible.override
  loads := by
    rw [dict,persistedCongr row]
    exact legible.loads
  rows := by
    rw [show t.activeDictionary = s.activeDictionary by rw [activeDictionary,activeDictionary,use,dict]]
    exact rows
  bodies := bodies

theorem Aloof.preserves (aloof : Aloof s t) : Preserves crates config content s t := fun legible =>
  ⟨legible.framed aloof.row aloof.dict aloof.use aloof.cap (by rw [aloof.blocks]; exact legible.rows)
    fun hash block found => legible.bodies hash block (aloof.bodies hash block found),
    fun _ kept => (persistedCongr aloof.row).trans kept⟩

theorem withinAloof {f : Store → Store} (aloof : ∀ s, Aloof s (f s)) :
    Within (Preserves crates config content) (Op.modify f : StoreM Unit) := withinModify fun s => (aloof s).preserves

theorem onBinPreserves (m : CanonicalBin.Bin Unit) : Within (Preserves crates config content) (onBin m) :=
  withinZoom fun _ _ => Aloof.preserves ⟨rfl,rfl,rfl,rfl,rfl,fun _ _ found => found⟩

theorem touchedPreserves (faithful : crates.Faithful) (touched : Touched crates s t) :
    Preserves crates config content s t := by
  intro legible
  have row : (t.db .metadata)[metaZstdDict]? = (s.db .metadata)[metaZstdDict]? := by rw [touched.db]
  have tuned : t.useCompressionDict = s.useCompressionDict ∧ t.maxDecompressedBlockBytes = s.maxDecompressedBlockBytes := by
    rw [touched.rest]
    exact ⟨rfl,rfl⟩
  refine ⟨legible.framed row touched.zstdDict tuned.1 tuned.2 (by rw [touched.db]; exact legible.rows)
    fun hash block found => ?_,fun _ kept => (persistedCongr row).trans kept⟩
  rcases touched.bodies hash block found with cached | row
  · exact legible.bodies hash block cached
  · exact legible.bodyAt faithful row

theorem bodyPreserves {block : L2Block} (known : content (block.hash crates) = some block) :
    Within (Preserves crates config content) (Op.modify (cacheBody (block.hash crates) block) : StoreM Unit) :=
  withinModify fun s legible => by
    refine ⟨legible.framed rfl rfl rfl rfl legible.rows fun hash found cached => ?_,fun _ kept => kept⟩
    rcases ShardedLruCache.peekInsert cached with ⟨rfl,rfl⟩ | ⟨_,older⟩
    · exact known
    · exact legible.bodies hash found older

theorem rowsPreserve {hash : Bytes32} {compressed headerBytes : Bytes} {more : List Write}
    (written : Written crates config content s.activeDictionary hash compressed)
    (aside : ∀ write ∈ more, Beside write.column [] ∧ write.effect .metadata metaZstdDict = none) :
    Preserves crates config content s (s.commit (bodyRows hash compressed headerBytes ++ more)) := by
  intro legible
  have row : (applyAll (bodyRows hash compressed headerBytes ++ more) s.db .metadata)[metaZstdDict]? =
      (s.db .metadata)[metaZstdDict]? := by
    refine ColumnStore.frame fun write mem => ?_
    rcases List.mem_append.mp mem with body | other
    · simp only [bodyRows,List.mem_cons,List.not_mem_nil,or_false] at body
      rcases body with rfl | rfl <;> exact effectOtherColumn (by simp [ColumnStore.Write.column]) _
    · exact (aside write other).2
  refine ⟨legible.framed row rfl rfl rfl (fun other frame found => ?_) legible.bodies,
    fun _ kept => (persistedCongr row).trans kept⟩
  rw [getBodyRows hash compressed headerBytes (fun write mem => (aside write mem).1) (.inl rfl),if_neg (by simp)] at found
  split at found
  · rename_i here
    cases found
    obtain rfl := hashKeyInj.mp here.2
    exact written
  · exact legible.rows other frame found

theorem serializeWritten {block : L2Block} {compressed : Bytes} (known : content (block.hash crates) = some block)
    (small : s.activeDictionary.isSome → ∀ raw, crates.serializeBlock block = .ok raw →
      raw.length ≤ config.maxDecompressedBlockBytes) (body : s.serializeBlock crates block = .ok compressed) :
    Written crates config content s.activeDictionary (block.hash crates) compressed := by
  unfold Store.serializeBlock at body
  split at body
  · cases body
  · rename_i raw encoded
    refine ⟨block,raw,known,encoded,?_⟩
    split at body
    · rename_i dict active
      cases packed : crates.compressWith dict s.compressionLevel raw with
      | error why => rw [packed] at body; cases body
      | ok frame =>
        rw [packed] at body
        cases body
        exact .inr ⟨dict,_,active,packed,small (by rw [active]; rfl) raw encoded⟩
    · cases packed : crates.encodeAll raw s.compressionLevel with
      | error why => rw [packed] at body; cases body
      | ok frame =>
        rw [packed] at body
        cases body
        exact .inl ⟨_,packed⟩

end Parts

section Training

theorem trainDictionaryEnds {r : Exit Bytes} (h : Runs (trainDictionary crates) s r t) :
    (t = s ∧ ∀ dict, r = .ok dict → s.persisted = some dict) ∨ s.persisted = none ∧
      ∃ samples dict, crates.fromSamples samples dictTargetSize = .ok dict ∧ t = s.commit [.put .metadata metaZstdDict dict] ∧
        ∀ answer, r = .ok answer → answer = dict := by
  unfold trainDictionary at h
  rw [runsGetBind] at h
  split at h
  · rename_i blob found
    obtain ⟨rfl,rfl⟩ := runsPure.mp h
    exact .inl ⟨rfl,fun dict same => found.trans (congrArg some (Except.ok.inj same))⟩
  · rename_i none'
    rcases runsBind h with ⟨samples,u,one,training⟩ | ⟨e,rfl,one⟩
    · obtain ⟨_,rfl⟩ := runsOfExceptOk one
      rcases runsBind training with ⟨dict,v,two,writing⟩ | ⟨e,rfl,two⟩
      · obtain ⟨made,rfl⟩ := runsOfExceptOk two
        have made : crates.fromSamples samples dictTargetSize = .ok dict := by
          cases answer : crates.fromSamples samples dictTargetSize with
          | ok found =>
            rw [answer] at made
            cases made
            rfl
          | error why =>
            rw [answer] at made
            cases made
        rcases runsBind writing with ⟨_,w,three,last⟩ | ⟨e,rfl,three⟩
        · obtain ⟨rfl,rfl⟩ := runsPure.mp last
          exact .inr ⟨none',samples,dict,made,writeOk three,fun answer same => (Except.ok.inj same).symm⟩
        · rcases writeRuns three with ⟨bad,_⟩ | ⟨_,same⟩
          · cases bad
          · exact .inl ⟨same,fun dict bad => by cases bad⟩
      · exact .inl ⟨(runsOfExcept two).1,fun dict bad => by cases bad⟩
    · exact .inl ⟨(runsOfExcept one).1,fun dict bad => by cases bad⟩

theorem persistedPut {dict : Bytes} (nonempty : dict ≠ []) :
    (s.commit [.put .metadata metaZstdDict dict]).persisted = some dict := by
  have row : ((s.commit [.put .metadata metaZstdDict dict]).db .metadata)[metaZstdDict]? = some dict := by
    change (applyAll [.put .metadata metaZstdDict dict] s.db .metadata)[metaZstdDict]? = some dict
    rw [getApplyAll,lastEffectCons,lastEffectNil,effectPut,if_pos ⟨rfl,rfl⟩]
    rfl
  unfold persisted loadZstdDictFromDb
  rw [if_pos rfl,row]
  dsimp only
  rw [if_neg (by simpa using nonempty)]

theorem resolvedSome {dict : Bytes} (found : s.resolved config = some dict) :
    config.zstdDictionaryOverride = some dict ∨ config.zstdDictionaryOverride = none ∧
      config.useCompressionDict = true ∧ s.persisted = some dict := by
  unfold resolved resolveZstdDictionary at found
  split at found
  · rename_i own here
    split at found
    · cases found
    · cases found
      exact .inl here
  · rename_i none'
    unfold loadZstdDictFromDb at found
    split at found
    · rename_i use
      refine .inr ⟨none',use,?_⟩
      unfold persisted loadZstdDictFromDb
      rw [if_pos rfl]
      exact found
    · cases found

/- Taking a dictionary into memory: no row was written under another. -/
theorem Legible.adopt {dict : Option Bytes} (legible : Legible crates config content s)
    (fresh : ∀ own, dict = some own → s.resolved config = some own)
    (covers : ∀ own, s.zstdDict = some own → dict = some own) :
    Legible crates config content {s with zstdDict := dict} where
  use := legible.use
  cap := legible.cap
  held := fresh
  override own here := covers own (legible.override own here)
  loads own here := by
    rcases here with here | kept
    · rcases resolvedSome (fresh own here) with override | ⟨_,_,kept⟩
      · exact legible.loads own (.inl (legible.override own override))
      · exact legible.loads own (.inr kept)
    · exact legible.loads own (.inr kept)
  rows hash frame row := by
    obtain ⟨block,raw,known,encoded,form⟩ := legible.rows hash frame row
    refine ⟨block,raw,known,encoded,form.imp_right fun ⟨own,level,here,packed⟩ => ⟨own,level,?_,packed⟩⟩
    unfold activeDictionary at here ⊢
    split at here
    · rename_i use
      rw [if_pos (show s.useCompressionDict = true from use)]
      exact covers own here
    · cases here
  bodies := legible.bodies

theorem trainPreserves (faithful : crates.Faithful) :
    Within (Preserves crates config content) (trainDictionary crates) := by
  intro s r t h legible
  rcases trainDictionaryEnds h with ⟨rfl,_⟩ | ⟨none',samples,dict,made,rfl,_⟩
  · exact ⟨legible,fun _ kept => kept⟩
  · obtain ⟨nonempty,loads⟩ := faithful.trained _ _ _ made
    have now := @persistedPut s dict nonempty
    refine ⟨⟨legible.use,legible.cap,fun other held => ?_,legible.override,fun other found => ?_,fun hash frame row => ?_,
      legible.bodies⟩,fun other kept => ?_⟩
    · rcases resolvedSome (legible.held other held) with override | ⟨_,_,kept⟩
      · have before := legible.held other held
        unfold resolved resolveZstdDictionary at before ⊢
        rw [override] at before ⊢
        exact before
      · rw [none'] at kept
        cases kept
    · rcases found with held | found
      · exact legible.loads other (.inl held)
      · rw [now] at found
        cases found
        exact loads
    · have same : ((s.commit [.put .metadata metaZstdDict dict]).db .blocks)[hashKey hash]? = (s.db .blocks)[hashKey hash]? :=
        ColumnStore.frame fun write mem => by
          rw [List.mem_singleton.mp mem]
          exact effectOtherColumn (by simp [ColumnStore.Write.column]) _
      rw [same] at row
      exact legible.rows hash frame row
    · rw [none'] at kept
      cases kept

theorem unoverridden (fixed : config.zstdDictionaryOverride = none) (db : Db) (use : Bool) :
    resolveZstdDictionary db use config.zstdDictionaryOverride = loadZstdDictFromDb db use := by
  rw [fixed]
  rfl

theorem initDictionaryPreserves (fixed : config.zstdDictionaryOverride = none) :
    Within (Preserves crates config content) initDictionary :=
  withinModify fun s legible => by
    have same : loadZstdDictFromDb s.db s.useCompressionDict = s.resolved config := by
      rw [resolved,unoverridden fixed,legible.use]
    exact ⟨legible.adopt (fun own loaded => same.symm.trans loaded) (fun own here => same.trans (legible.held own here)),
      fun _ kept => kept⟩

theorem maybeTrainPreserves (faithful : crates.Faithful) :
    Within (Preserves crates config content) (maybeTrainDictionary crates) := by
  intro s r t h legible
  unfold maybeTrainDictionary at h
  rw [runsGetBind] at h
  split at h
  · rw [(runsPure.mp h).2]
    exact ⟨legible,fun _ kept => kept⟩
  · rename_i use
    split at h
    · rw [(runsPure.mp h).2]
      exact ⟨legible,fun _ kept => kept⟩
    · rename_i unheld
      -- an override is in memory from the start, so there is none
      have fixed : config.zstdDictionaryOverride = none := by
        cases own : config.zstdDictionaryOverride with
        | none => rfl
        | some dict =>
          rw [legible.override dict own] at unheld
          exact (unheld rfl).elim
      split at h
      · exact initDictionaryPreserves fixed _ _ _ h legible
      · split at h
        · rw [(runsPure.mp h).2]
          exact ⟨legible,fun _ kept => kept⟩
        · rcases runsBind h with ⟨dict,u,one,last⟩ | ⟨e,_,one⟩
          · obtain ⟨legible',kept⟩ := trainPreserves faithful _ _ _ one legible
            have held : u.persisted = some dict ∧ u.zstdDict = s.zstdDict := by
              rcases trainDictionaryEnds one with ⟨rfl,found⟩ | ⟨_,samples,own,made,rfl,same⟩
              · exact ⟨found dict rfl,rfl⟩
              · rw [same dict rfl]
                exact ⟨persistedPut (faithful.trained _ _ _ made).1,rfl⟩
            rw [(runsModify.mp last).2]
            refine ⟨legible'.adopt (fun own here => ?_) fun own here => ?_,kept⟩
            · cases here
              have used : config.useCompressionDict = true := legible.use.symm.trans (by simpa using use)
              rw [resolved,unoverridden fixed,used]
              exact held.1
            · rw [held.2] at here
              rw [here] at unheld
              exact (unheld rfl).elim
          · exact trainPreserves faithful _ _ _ one legible

end Training

section Puts

/- A block of the run: the one of its hash, no larger than the cap. -/
structure Suits (crates : Crates) (config : BlockStoreConfig) (content : Bytes32 → Option L2Block) (block : L2Block) :
    Prop where
  known : content (block.hash crates) = some block
  small : ∀ raw, crates.serializeBlock block = .ok raw → raw.length ≤ config.maxDecompressedBlockBytes

variable {block : L2Block}

theorem aloofCache {f : Store → Store} (same : ∀ s, (f s).db = s.db ∧ (f s).zstdDict = s.zstdDict ∧
      (f s).useCompressionDict = s.useCompressionDict ∧ (f s).maxDecompressedBlockBytes = s.maxDecompressedBlockBytes ∧
      (f s).blockCache = s.blockCache) : Within (Preserves crates config content) (Op.modify f : StoreM Unit) :=
  withinAloof fun s => by
    obtain ⟨db,dict,use,cap,bodies⟩ := same s
    exact ⟨by rw [db],by rw [db],dict,use,cap,fun _ _ found => by rwa [bodies] at found⟩

theorem heightCachePreserves (height : UInt64) (hash : Bytes32) :
    Within (Preserves crates config content) (Op.modify (insertCanonicalHeightCache height hash) : StoreM Unit) :=
  aloofCache fun s => by
    rw [insertHeightRest]
    exact ⟨rfl,rfl,rfl,rfl,rfl⟩

theorem setTipPreserves (tip : ChainTip) : Within (Preserves crates config content) (setTip tip) :=
  withinBind (withinRefuse _) fun _ => withinBind
    (withinBind (withinStep _) fun _ => withinAloof fun s => by
      have frame : ∀ cf key, ¬(cf = .metadata ∧ key = metaTip) →
          ((s.commit [.put .metadata metaTip tip.toBytes]).db cf)[key]? = (s.db cf)[key]? :=
        fun cf key apart => ColumnStore.frame fun write mem => by
          rw [List.mem_singleton.mp mem,effectPut,if_neg fun here => apart ⟨here.1.symm,here.2.symm⟩]
      exact ⟨Std.ExtTreeMap.ext_getElem? fun key => frame .blocks key (by simp),frame .metadata metaZstdDict (by simp),
        rfl,rfl,rfl,fun _ _ found => found⟩)
    fun _ => aloofCache fun _ => ⟨rfl,rfl,rfl,rfl,rfl⟩

theorem canonicalAside {canonical : Bool} {height : UInt64} {hash : Bytes32} :
    ∀ write ∈ if canonical then [canonicalRow height hash] else [],
      Beside write.column [] ∧ write.effect .metadata metaZstdDict = none := by
  intro write mem
  refine ⟨canonicalBeside write mem,?_⟩
  split at mem
  · rw [List.mem_singleton.mp mem]
    exact effectOtherColumn (by simp [canonicalRow,ColumnStore.Write.column]) _
  · cases mem

theorem indexPreserves (canonical : Bool) (height : UInt64) (hash : Bytes32) :
    Within (Preserves crates config content) (indexCanonical canonical height hash) := by
  unfold indexCanonical
  split
  · exact withinBind (onBinPreserves _) fun _ => heightCachePreserves _ _
  · exact withinPure _

theorem putBlockPreserves (faithful : crates.Faithful) (suits : Suits crates config content block) (canonical : Bool) :
    Within (Preserves crates config content) (putBlock crates block canonical) :=
  putBlockWithin
    (fun _ _ _ packs legible =>
      rowsPreserve (serializeWritten suits.known (fun _ => suits.small) packs.body)
        canonicalAside legible)
    (withinBind (indexPreserves _ _ _) fun _ =>
      withinBind (aloofCache fun _ => ⟨rfl,rfl,rfl,rfl,rfl⟩) fun _ => withinBind (bodyPreserves suits.known) fun _ =>
        withinBind (aloofCache fun _ => ⟨rfl,rfl,rfl,rfl,rfl⟩) fun _ =>
          withinBind (aloofCache fun _ => ⟨rfl,rfl,rfl,rfl,rfl⟩) fun _ =>
            withinBind (maybeTrainPreserves faithful) fun _ => withinPure _)

theorem genesisAside {hash : Bytes32} {tip : Bytes} : ∀ write ∈ [canonicalRow 0 hash,.put .metadata metaTip tip,
      .put .metadata metaGenesisHash hash.bytes],
    Beside write.column [] ∧ write.effect .metadata metaZstdDict = none := by
  intro write mem
  simp only [List.mem_cons,List.not_mem_nil,or_false] at mem
  rcases mem with rfl | rfl | rfl
  · exact ⟨⟨by simp [canonicalRow,ColumnStore.Write.column],by simp [canonicalRow,ColumnStore.Write.column]⟩,
      effectOtherColumn (by simp [canonicalRow,ColumnStore.Write.column]) _⟩
  · exact ⟨⟨by simp [ColumnStore.Write.column],by simp [ColumnStore.Write.column]⟩,by
      rw [effectPut,if_neg fun here => metadataKeysApart.2.2.1 here.2]⟩
  · exact ⟨⟨by simp [ColumnStore.Write.column],by simp [ColumnStore.Write.column]⟩,by
      rw [effectPut,if_neg fun here => metadataKeysApart.2.2.2.2.1 here.2]⟩

theorem initGenesisPreserves (faithful : crates.Faithful) (suits : Suits crates config content block) :
    Within (Preserves crates config content) (initGenesis crates block) := by
  intro s r t h
  rcases initGenesisRuns h with rfl | ⟨compressed,headerBytes,body,_,_,later⟩
  · exact refl_of _ _
  · have rows : Preserves crates config content s (s.commit (genesisRows crates block compressed headerBytes)) :=
      rowsPreserve (serializeWritten suits.known (fun _ => suits.small) body) genesisAside
    have tail : Within (Preserves crates config content) (genesisTail crates block) :=
      withinBind (onBinPreserves _) fun _ => withinBind (aloofCache fun _ => ⟨rfl,rfl,rfl,rfl,rfl⟩) fun _ =>
        withinBind (aloofCache fun _ => ⟨rfl,rfl,rfl,rfl,rfl⟩) fun _ => withinBind (bodyPreserves suits.known) fun _ =>
          withinBind (aloofCache fun _ => ⟨rfl,rfl,rfl,rfl,rfl⟩) fun _ => maybeTrainPreserves faithful
    exact trans_of _ rows (tail _ _ _ later)

theorem commitAppend (first later : List Write) (s : Store) : (s.commit first).commit later = s.commit (first ++ later) := by
  unfold commit
  rw [applyAllAppend]

/- The rows of a batch were all written under the dictionary in memory when it was staged. -/
theorem stagedPreserve {staged : List StagedRow}
    (written : ∀ row ∈ staged, Written crates config content s.activeDictionary row.hash row.compressed) :
    Preserves crates config content s (s.commit (staged.flatMap rowWrites)) := by
  induction staged generalizing s with
  | nil => exact refl_of _ _
  | cons row rest ih =>
    have first : Preserves crates config content s (s.commit (rowWrites row)) :=
      rowsPreserve (written row (by simp)) canonicalAside
    have later := @ih (s.commit (rowWrites row)) fun other mem => written other (List.mem_cons_of_mem _ mem)
    rw [commitAppend] at later
    exact trans_of _ first later

theorem flushPreserves (faithful : crates.Faithful) {jobs : List PipelineJob}
    (suits : ∀ job ∈ jobs, Suits crates config content job.block) :
    Within (Preserves crates config content) (Store.flushPipelineBatch crates jobs) :=
  flushBatchWithin {
    rows := fun s staged plan => stagedPreserve fun row mem => by
      have staging := plan.rows row mem
      have own := suits _ staging.job
      rw [staging.hash]
      exact serializeWritten own.known (fun _ => own.small) staging.body
    bins := fun rows => withinForEach rows fun row _ => by
      split
      · exact onBinPreserves _
      · exact withinPure _
    cache := fun row hash job => by
      obtain ⟨job,mem,same⟩ := job
      have own := (suits job mem).known
      rw [same] at own
      refine withinBind (withinOnStore (aloofCache fun _ => ⟨rfl,rfl,rfl,rfl,rfl⟩)) fun _ => withinBind ?_ fun _ =>
        withinBind (withinOnStore (aloofCache fun _ => ⟨rfl,rfl,rfl,rfl,rfl⟩)) fun _ =>
          withinBind (withinAttempt (withinOnStore (maybeTrainPreserves faithful))) fun answer => ?_
      · rw [hash]
        exact withinOnStore (bodyPreserves own)
      · cases answer <;> exact withinSend _ _ }

end Puts

section Opening

/- An override that an open can take. -/
def Usable (crates : Crates) (config : BlockStoreConfig) : Prop :=
  ∀ own, config.zstdDictionaryOverride = some own → own ≠ [] ∧ crates.decompressor own = .ok ()

theorem unoverriddenUsable (fixed : config.zstdDictionaryOverride = none) : Usable crates config := fun own here => by
  rw [fixed] at here
  cases here

theorem resolvedOverride (usable : Usable crates config) {own : Bytes}
    (here : config.zstdDictionaryOverride = some own) : s.resolved config = some own := by
  unfold resolved resolveZstdDictionary
  rw [here]
  dsimp only
  rw [if_neg (by simpa using (usable own here).1)]

/- The dictionary a store opened with the configuration reads and writes rows under. -/
def opensUnder (config : BlockStoreConfig) (s : Store) : Option Bytes :=
  if config.useCompressionDict then s.resolved config else none

/- The rows are those of the dictionary and the cap of a configuration the store may be opened with. -/
def Reread (crates : Crates) (config : BlockStoreConfig) (content : Bytes32 → Option L2Block) (s : Store) : Prop :=
  ∀ hash frame, (s.db .blocks)[hashKey hash]? = some frame → Written crates config content (s.opensUnder config) hash frame

theorem Legible.reread (legible : Legible crates config content s) : Reread crates config content s := by
  intro hash frame row
  obtain ⟨block,raw,known,encoded,form⟩ := legible.rows hash frame row
  refine ⟨block,raw,known,encoded,form.imp_right fun ⟨dict,level,here,packed⟩ => ⟨dict,level,?_,packed⟩⟩
  unfold activeDictionary at here
  split at here
  · rename_i use
    exact (if_pos (legible.use.symm.trans use)).trans (legible.held dict here)
  · cases here

theorem bootedLegible {config' : BlockStoreConfig} (usable : Usable crates config')
    (legible : Legible crates config content s) (reread : Reread crates config' content s) {u : Store}
    {readOnly : Bool} (booted : Booted config' readOnly s.db u) : Legible crates config' content u := by
  obtain ⟨bin,_,tip,rfl,_,rfl,_⟩ := booted
  refine ⟨rfl,rfl,fun _ held => held,fun own here => resolvedOverride usable here,fun dict found => ?_,reread,?_⟩
  · rcases found with held | kept
    · rcases @resolvedSome config' s dict held with override | ⟨_,_,kept⟩
      · exact (usable dict override).2
      · exact legible.loads dict (.inr kept)
    · exact legible.loads dict (.inr kept)
  · intro hash block found
    rw [show (fresh config' readOnly s.db bin _ tip).blockCache = .new _ _ from rfl,ShardedLruCache.peekNew] at found
    cases found

theorem reopenPreserves (faithful : crates.Faithful) (usable : Usable crates config) {file : Option Bytes}
    {disk : Disk} (h : Runs (openStore crates config) ⟨s.db,file⟩ (.ok t) disk) :
    Preserves crates config content s t := by
  obtain ⟨_,u,booted,touched⟩ := openStoreOk h
  have same : u.persisted = s.persisted := by
    obtain ⟨_,_,_,rfl,_⟩ := booted
    rfl
  exact trans_of _ (fun legible => ⟨bootedLegible usable legible legible.reread booted,fun _ kept => same.trans kept⟩)
    (touchedPreserves faithful touched)

theorem createdLegible (usable : Usable crates config) : Legible crates config content (created config) := by
  have unwritten : (created config).persisted = none := by
    unfold persisted loadZstdDictFromDb
    rw [if_pos rfl,show ((created config).db .metadata)[metaZstdDict]? = none from Std.ExtTreeMap.getElem?_empty]
  refine ⟨rfl,rfl,fun _ held => held,
    fun own here => (resolvedOverride usable here : (created config).resolved config = some own),fun dict found => ?_,
    fun hash frame row => ?_,fun hash block found => ?_⟩
  · rcases found with held | kept
    · rcases @resolvedSome config (created config) dict held with override | ⟨_,_,kept⟩
      · exact (usable dict override).2
      · rw [unwritten] at kept
        cases kept
    · rw [unwritten] at kept
      cases kept
  · change (∅ : Std.ExtTreeMap Bytes Bytes compare)[hashKey hash]? = some frame at row
    rw [Std.ExtTreeMap.getElem?_empty] at row
    cases row
  · change (ShardedLruCache.new _ _ : ShardedLruCache L2Block).peek hash = some block at found
    rw [ShardedLruCache.peekNew] at found
    cases found

end Opening

end Store

/- The calls of a store that only grows. -/
inductive Storing : Call → Prop where
  | genesis (block : L2Block) : Storing (.initGenesis block)
  | put (block : L2Block) (canonical : Bool) : Storing (.putBlock block canonical)
  | extend (block : L2Block) : Storing (.extendChain block)
  | flush (jobs : List PipelineJob) : Storing (.flush jobs)
  | init : Storing .initDictionary
  | read (r : Read) : Storing (.read r)
  | dropBlock (hash : Bytes32) : Storing (.invalidateBlockCacheEntry hash)
  | dropHeader (hash : Bytes32) : Storing (.invalidateHeaderCacheEntry hash)
  | dropRecord (hash : Bytes32) : Storing (.invalidateRecordCacheEntry hash)

/- `shed` loses any cached bodies. -/
inductive Growth where
  | call (c : Call)
  | trainDictionary
  | maybeTrainDictionary
  | shed
  | reopen

def Growth.blocks : Growth → List L2Block
  | .call (.initGenesis block) | .call (.putBlock block _) | .call (.extendChain block) => [block]
  | .call (.flush jobs) => jobs.map PipelineJob.block
  | _ => []

/- A move that ends, with whatever result. A directory is opened with whatever file lies in it. -/
def Moves (crates : Crates) (config : BlockStoreConfig) (s : Store) (move : Growth) (t : Store) : Prop :=
  match move with
  | .call c => Storing c ∧ ∃ r, Runs (Store.call crates c) s r t
  | .trainDictionary => ∃ r, Runs (Store.trainDictionary crates) s r t
  | .maybeTrainDictionary => ∃ r, Runs (Store.maybeTrainDictionary crates) s r t
  | .shed => ∃ cache : ShardedLruCache L2Block, t = {s with blockCache := cache} ∧
      ∀ hash block, cache.peek hash = some block → s.blockCache.peek hash = some block
  | .reopen => ∃ file disk, Runs (Store.openStore crates config) ⟨s.db,file⟩ (.ok t) disk

namespace Store
variable {crates : Crates} {config : BlockStoreConfig} {content : Bytes32 → Option L2Block} {s t : Store}

theorem storingPreserves (faithful : crates.Faithful) (fixed : config.zstdDictionaryOverride = none) {c : Call} (storing : Storing c)
    (suits : ∀ block ∈ (Growth.call c).blocks, Suits crates config content block) :
    Within (Preserves crates config content) (call crates c) := by
  cases storing with
  | genesis block => exact initGenesisPreserves faithful (suits block (by simp [Growth.blocks]))
  | put block canonical => exact withinDiscard (putBlockPreserves faithful (suits block (by simp [Growth.blocks])) canonical)
  | extend block =>
    exact withinDiscard (extendChainWithin (putBlockPreserves faithful (suits block (by simp [Growth.blocks])) true) setTipPreserves)
  | flush jobs =>
    exact withinBind (flushPreserves faithful fun job mem => suits _ (List.mem_map_of_mem mem)) fun acks =>
      withinForEach acks fun _ _ => withinDiscard (withinOfExcept _)
  | init => exact initDictionaryPreserves fixed
  | read r => exact fun _ _ _ h => touchedPreserves faithful (readTouched h)
  | dropBlock hash =>
    refine (withinAloof fun s => ⟨rfl,rfl,rfl,rfl,rfl,fun other block found => ?_⟩ :
      Within (Preserves crates config content) (invalidateBlockCacheEntry hash))
    rw [ShardedLruCache.peekRemove] at found
    split at found
    · cases found
    · exact found
  | dropHeader hash =>
    exact (aloofCache fun _ => ⟨rfl,rfl,rfl,rfl,rfl⟩ : Within (Preserves crates config content) (invalidateHeaderCacheEntry hash))
  | dropRecord hash =>
    exact (aloofCache fun _ => ⟨rfl,rfl,rfl,rfl,rfl⟩ : Within (Preserves crates config content) (invalidateRecordCacheEntry hash))

theorem movePreserves (faithful : crates.Faithful) (fixed : config.zstdDictionaryOverride = none) {move : Growth}
    (suits : ∀ block ∈ move.blocks, Suits crates config content block) (h : Moves crates config s move t) :
    Preserves crates config content s t := by
  cases move with
  | call c =>
    obtain ⟨storing,_,run⟩ := h
    exact storingPreserves faithful fixed storing suits _ _ _ run
  | trainDictionary =>
    obtain ⟨_,run⟩ := h
    exact trainPreserves faithful _ _ _ run
  | maybeTrainDictionary =>
    obtain ⟨_,run⟩ := h
    exact maybeTrainPreserves faithful _ _ _ run
  | shed =>
    obtain ⟨cache,rfl,older⟩ := h
    exact Aloof.preserves ⟨rfl,rfl,rfl,rfl,rfl,older⟩
  | reopen =>
    obtain ⟨_,_,run⟩ := h
    exact reopenPreserves faithful (unoverriddenUsable fixed) run

theorem runPreserves (faithful : crates.Faithful) (fixed : config.zstdDictionaryOverride = none) {moves : List Growth}
    (run : Run (Moves crates config) s moves t)
    (suits : ∀ block ∈ moves.flatMap Growth.blocks, Suits crates config content block) :
    Preserves crates config content s t := by
  induction run with
  | nil => exact refl_of _ _
  | cons first _ ih =>
    rw [List.flatMap_cons] at suits
    exact trans_of _ (movePreserves faithful fixed (fun block mem => suits block (List.mem_append_left _ mem)) first)
      (ih fun block mem => suits block (List.mem_append_right _ mem))

def namedBy (crates : Crates) (blocks : List L2Block) (hash : Bytes32) : Option L2Block :=
  blocks.find? fun block => block.hash crates = hash

theorem namedBySome {blocks : List L2Block} {hash : Bytes32} {block : L2Block}
    (found : namedBy crates blocks hash = some block) : block ∈ blocks ∧ block.hash crates = hash :=
  ⟨List.mem_of_find?_eq_some found,by simpa [namedBy] using List.find?_some found⟩

theorem namedByOwn {blocks : List L2Block} (distinct : ∀ block ∈ blocks, ∀ other ∈ blocks,
      block.hash crates = other.hash crates → block = other) {block : L2Block} (mem : block ∈ blocks) :
    namedBy crates blocks (block.hash crates) = some block := by
  cases found : namedBy crates blocks (block.hash crates) with
  | none =>
    have apart := List.find?_eq_none.mp found block mem
    simp at apart
  | some other =>
    obtain ⟨inside,same⟩ := namedBySome found
    rw [distinct block mem other inside same.symm]

end Store

namespace Sample

theorem faithful : crates.Faithful where
  block block raw encoded := by
    cases encoded
    change Except.ok (decodeBlock _) = _
    rw [decodeEncodeBlock]
  plain raw level frame packed := packed.symm
  packed dict level raw frame cap packed small := by
    cases packed
    change (if raw.length ≤ cap then Except.ok raw else .error "size cap") = .ok raw
    rw [if_pos small]
  aside dict level raw frame cap found packed decoded := by
    cases packed
    change (if raw.length ≤ cap then Except.ok raw else .error "size cap") = .ok found at decoded
    split at decoded
    · exact (Except.ok.inj decoded).symm
    · cases decoded
  trained samples size dict made := by
    change (if samples = [] then Except.error "no samples" else .ok trainedDict) = .ok dict at made
    split at made
    · cases made
    · cases made
      exact ⟨by simp [trainedDict],rfl⟩

/- Frames that name the dictionary they were made with. zstd takes no notice of one under eight bytes. -/
def sealed : Crates := {crates with
  encodeAll := fun raw _ => .ok (0 :: raw)
  decodeAll := fun
    | 0 :: raw => .ok raw
    | _ => .error "dictionary mismatch"
  compressWith := fun dict _ raw => .ok (if dict.length < 8 then 0 :: raw else 1 :: chunk dict raw)
  decompressWith := fun dict frame cap =>
    match frame with
    | 0 :: raw => if raw.length ≤ cap then .ok raw else .error "size cap"
    | 1 :: rest =>
        if (unchunk rest).1 ≠ dict then .error "dictionary mismatch"
        else if (unchunk rest).2.length ≤ cap then .ok (unchunk rest).2 else .error "size cap"
    | _ => .error "no frame"}

theorem sealedFrame {dict raw frame : Bytes} {level : Int} (packed : sealed.compressWith dict level raw = .ok frame) :
    frame = 0 :: raw ∨ 8 ≤ dict.length ∧ frame = 1 :: chunk dict raw := by
  cases packed
  by_cases short : dict.length < 8
  · exact .inl (if_pos short)
  · exact .inr ⟨Nat.le_of_not_lt short,if_neg short⟩

theorem sealedLong {dict : Bytes} (long : 8 ≤ dict.length) (level : Int) (raw : Bytes) :
    sealed.compressWith dict level raw = .ok (1 :: chunk dict raw) := congrArg Except.ok (if_neg (by omega))

theorem sealedPlain (dict raw : Bytes) (cap : Nat) :
    sealed.decompressWith dict (0 :: raw) cap = if raw.length ≤ cap then .ok raw else .error "size cap" := rfl

theorem sealedKeyed (dict own raw : Bytes) (cap : Nat) : sealed.decompressWith dict (1 :: chunk own raw) cap =
    if own ≠ dict then .error "dictionary mismatch" else if raw.length ≤ cap then .ok raw else .error "size cap" := by
  change (if (unchunk (chunk own raw)).1 ≠ dict then Except.error "dictionary mismatch"
    else if (unchunk (chunk own raw)).2.length ≤ cap then .ok (unchunk (chunk own raw)).2 else .error "size cap") = _
  rw [unchunkChunk]

theorem sealedForm {raw frame : Bytes} {level : Int}
    (packed : sealed.encodeAll raw level = .ok frame ∨ ∃ own, sealed.compressWith own level raw = .ok frame) :
    frame = 0 :: raw ∨ ∃ own, frame = 1 :: chunk own raw := by
  rcases packed with plain | ⟨own,packed⟩
  · exact .inl (Except.ok.inj plain).symm
  · exact (sealedFrame packed).imp_right fun keyed => ⟨own,keyed.2⟩

theorem sealedOpens {dict raw frame found : Bytes} {level : Int} {cap : Nat}
    (decoded : sealed.decompressWith dict frame cap = .ok found)
    (packed : sealed.encodeAll raw level = .ok frame ∨ ∃ own, sealed.compressWith own level raw = .ok frame) :
    found = raw := by
  rcases sealedForm packed with rfl | ⟨own,rfl⟩
  · rw [sealedPlain] at decoded
    split at decoded
    · exact (Except.ok.inj decoded).symm
    · cases decoded
  · rw [sealedKeyed] at decoded
    split at decoded
    · cases decoded
    · split at decoded
      · exact (Except.ok.inj decoded).symm
      · cases decoded

theorem sealedFaithful : sealed.Faithful where
  block := faithful.block
  plain raw level frame packed := by
    cases packed
    rfl
  packed dict level raw frame cap packed small := by
    rcases sealedFrame packed with rfl | ⟨_,rfl⟩
    · rw [sealedPlain,if_pos small]
    · rw [sealedKeyed,if_neg (by simp),if_pos small]
  aside dict level raw frame cap found packed decoded := sealedOpens decoded (.inl packed)
  trained := faithful.trained

theorem sealedLawful : sealed.Lawful where
  header := lawful.header
  block := lawful.block
  decodeAll raw frame raw' packed decoded := by
    have either : ∃ level, sealed.encodeAll raw level = .ok frame ∨ ∃ own, sealed.compressWith own level raw = .ok frame := by
      rcases packed with ⟨level,plain⟩ | ⟨own,level,packed⟩
      · exact ⟨level,.inl plain⟩
      · exact ⟨level,.inr ⟨own,packed⟩⟩
    obtain ⟨_,packed⟩ := either
    rcases sealedForm packed with rfl | ⟨own,rfl⟩
    · exact (Except.ok.inj decoded).symm
    · cases decoded
  decompressWith dict cap raw frame raw' packed decoded := by
    rcases packed with ⟨level,plain⟩ | ⟨own,level,packed⟩
    · exact sealedOpens decoded (.inl plain)
    · exact sealedOpens decoded (.inr ⟨own,packed⟩)

def rootCall : Call := .putBlock (block 0 0 1) true

end Sample

end DigBlockstore
