import DigBlockstore.BatchReads
import DigBlockstore.RoundTrips
import DigBlockstore.Training

/-! The dictionary switch for a reader. Every block row is a plain frame or one made with the
persisted dictionary, and a store opened with the switch off reads the plain ones alone. -/
namespace DigBlockstore
open ByteCodec Faulty ColumnStore Pipeline Trace

/- A trained dictionary is not empty, and marks the frames made with it: the plain decoder refuses them. -/
structure Crates.Marking (crates : Crates) : Prop extends Crates.Inverse crates where
  nonempty : ∀ samples size dict, crates.fromSamples samples size = .ok dict → dict ≠ []
  refused : ∀ samples size dict level raw frame, crates.fromSamples samples size = .ok dict →
    crates.compressWith dict level raw = .ok frame → ∃ why, crates.decodeAll frame = .error why

namespace Store
variable {crates : Crates} {config : BlockStoreConfig} {s t u v : Store} {block : L2Block}

def FrameOf (crates : Crates) (dictionary : Option Bytes) (frame : Bytes) : Prop :=
  ∃ block raw, crates.serializeBlock block = .ok raw ∧ ((∃ level, crates.encodeAll raw level = .ok frame) ∨
    ∃ dict level, dictionary = some dict ∧ crates.compressWith dict level raw = .ok frame)

/- The dictionary in memory is the persisted one, which was trained, and so is that of the block rows. -/
structure Keyed (crates : Crates) (s : Store) : Prop where
  held : ∀ dict, s.zstdDict = some dict → s.persisted = some dict
  trained : ∀ dict, s.persisted = some dict → ∃ samples size, crates.fromSamples samples size = .ok dict
  rows : ∀ key frame : Bytes, (s.db .blocks)[key]? = some frame → FrameOf crates s.persisted frame

def KeepsKeyed (crates : Crates) (s t : Store) : Prop := Keyed crates s → Keyed crates t

instance : IsPreorder Store (KeepsKeyed crates) where
  refl _ keyed := keyed
  trans _ _ _ first later keyed := later (first keyed)

section Writing

structure Sheltered (s t : Store) : Prop where
  blocks : t.db .blocks = s.db .blocks
  row : (t.db .metadata)[metaZstdDict]? = (s.db .metadata)[metaZstdDict]?
  dict : t.zstdDict = s.zstdDict

theorem Sheltered.keeps (sheltered : Sheltered s t) : KeepsKeyed crates s t := fun keyed => by
  have same := persistedCongr sheltered.row
  refine ⟨?_,?_,?_⟩
  · rw [same,sheltered.dict]
    exact keyed.held
  · rw [same]
    exact keyed.trained
  · rw [same,sheltered.blocks]
    exact keyed.rows

theorem keyedMemory {f : Store → Store} (same : ∀ s, (f s).db = s.db ∧ (f s).zstdDict = s.zstdDict) :
    Within (KeepsKeyed crates) (Op.modify f : StoreM Unit) := withinModify fun s =>
  (⟨by rw [(same s).1],by rw [(same s).1],(same s).2⟩ : Sheltered s (f s)).keeps

theorem keyedBin (m : CanonicalBin.Bin Unit) : Within (KeepsKeyed crates) (onBin m) :=
  withinZoom fun _ _ => Sheltered.keeps ⟨rfl,rfl,rfl⟩

theorem touchedKeyed (touched : Touched crates s t) : KeepsKeyed crates s t :=
  Sheltered.keeps ⟨by rw [touched.db],by rw [touched.db],touched.zstdDict⟩

theorem keyedTip (tip : ChainTip) : Within (KeepsKeyed crates) (setTip tip) :=
  withinBind (withinRefuse _) fun _ => withinBind
    (withinBind (withinStep _) fun _ => withinModify fun s => by
      have frame : ∀ cf key, ¬(cf = .metadata ∧ key = metaTip) →
          ((s.commit [.put .metadata metaTip tip.toBytes]).db cf)[key]? = (s.db cf)[key]? :=
        fun cf key apart => ColumnStore.frame fun write mem => by
          rw [List.mem_singleton.mp mem,effectPut,if_neg fun here => apart ⟨here.1.symm,here.2.symm⟩]
      exact Sheltered.keeps
        ⟨Std.ExtTreeMap.ext_getElem? fun key => frame .blocks key (by simp),frame .metadata metaZstdDict (by simp),rfl⟩)
    fun _ => keyedMemory fun _ => ⟨rfl,rfl⟩

theorem serializeFrame {compressed : Bytes} (body : s.serializeBlock crates block = .ok compressed) :
    FrameOf crates s.zstdDict compressed := by
  unfold Store.serializeBlock at body
  split at body
  · cases body
  · rename_i raw encoded
    refine ⟨block,raw,encoded,?_⟩
    split at body
    · rename_i dict active
      exact .inr ⟨dict,_,activeSome active,mapErrorOk body⟩
    · exact .inl ⟨_,mapErrorOk body⟩

theorem keyedRows {hash : Bytes32} {compressed headerBytes : Bytes} {more : List Write}
    (framed : FrameOf crates s.zstdDict compressed)
    (aside : ∀ write ∈ more, Beside write.column [] ∧ write.effect .metadata metaZstdDict = none) :
    KeepsKeyed crates s (s.commit (bodyRows hash compressed headerBytes ++ more)) := by
  intro keyed
  have row : ((s.commit (bodyRows hash compressed headerBytes ++ more)).db .metadata)[metaZstdDict]? =
      (s.db .metadata)[metaZstdDict]? := by
    refine ColumnStore.frame fun write mem => ?_
    rcases List.mem_append.mp mem with body | other
    · simp only [bodyRows,List.mem_cons,List.not_mem_nil,or_false] at body
      rcases body with rfl | rfl <;> exact effectOtherColumn (by simp [ColumnStore.Write.column]) _
    · exact (aside write other).2
  have same := persistedCongr row
  refine ⟨?_,?_,fun key frame found => ?_⟩
  · rw [same]
    exact keyed.held
  · rw [same]
    exact keyed.trained
  · rw [same]
    rw [getBodyRows hash compressed headerBytes (fun write mem => (aside write mem).1) (.inl rfl),if_neg (by simp)] at found
    split at found
    · cases found
      obtain ⟨block,raw,encoded,plain | ⟨dict,level,held,packed⟩⟩ := framed
      · exact ⟨block,raw,encoded,.inl plain⟩
      · exact ⟨block,raw,encoded,.inr ⟨dict,level,keyed.held dict held,packed⟩⟩
    · exact keyed.rows key frame found

end Writing

section Training

theorem trainKeyed (marking : crates.Marking) : Within (KeepsKeyed crates) (trainDictionary crates) := by
  intro s r t h keyed
  rcases trainDictionaryEnds h with ⟨rfl,_⟩ | ⟨none',samples,dict,made,rfl,_⟩
  · exact keyed
  · have now := @persistedPut s dict (marking.nonempty _ _ _ made)
    refine ⟨fun other held => ?_,fun other found => ?_,fun key frame row => ?_⟩
    · have bad := keyed.held other held
      rw [none'] at bad
      cases bad
    · rw [now] at found
      cases found
      exact ⟨samples,_,made⟩
    · have same : ((s.commit [.put .metadata metaZstdDict dict]).db .blocks)[key]? = (s.db .blocks)[key]? :=
        ColumnStore.frame fun write mem => by
          rw [List.mem_singleton.mp mem]
          exact effectOtherColumn (by simp [ColumnStore.Write.column]) _
      rw [same] at row
      obtain ⟨block,raw,encoded,form⟩ := keyed.rows key frame row
      refine ⟨block,raw,encoded,.inl (form.resolve_right ?_)⟩
      rintro ⟨own,_,held,_⟩
      rw [none'] at held
      cases held

theorem Keyed.adopt {dict : Option Bytes} (keyed : Keyed crates s) (from' : ∀ own, dict = some own → s.persisted = some own) :
    Keyed crates {s with zstdDict := dict} := ⟨from',keyed.trained,keyed.rows⟩

theorem loadedPersisted {own : Bytes} {use : Bool} (loaded : loadZstdDictFromDb s.db use = some own) :
    s.persisted = some own := by
  cases use with
  | true => exact loaded
  | false => cases loaded

theorem initKeyed : Within (KeepsKeyed crates) initDictionary :=
  withinModify fun _ keyed => keyed.adopt fun _ loaded => loadedPersisted loaded

theorem maybeTrainKeyed (marking : crates.Marking) : Within (KeepsKeyed crates) (maybeTrainDictionary crates) := by
  intro s r t h keyed
  unfold maybeTrainDictionary at h
  rw [runsGetBind] at h
  split at h
  · rwa [(runsPure.mp h).2]
  · split at h
    · rwa [(runsPure.mp h).2]
    · split at h
      · exact initKeyed _ _ _ h keyed
      · split at h
        · rwa [(runsPure.mp h).2]
        · rcases runsBind h with ⟨dict,u,one,last⟩ | ⟨e,_,one⟩
          · have keyed' := trainKeyed marking _ _ _ one keyed
            rw [(runsModify.mp last).2]
            refine keyed'.adopt fun own here => ?_
            cases here
            rcases trainDictionaryEnds one with ⟨rfl,found⟩ | ⟨_,samples,other,made,rfl,same⟩
            · exact found dict rfl
            · rw [same dict rfl]
              exact persistedPut (marking.nonempty _ _ _ made)
          · exact trainKeyed marking _ _ _ one keyed

end Training

section Calls

theorem putKeyed (marking : crates.Marking) (block : L2Block) (canonical : Bool) :
    Within (KeepsKeyed crates) (putBlock crates block canonical) := by
  refine putBlockWithin (fun _ _ _ packs => keyedRows (serializeFrame packs.body) canonicalAside) ?_
  have index : Within (KeepsKeyed crates) (indexCanonical canonical block.height (block.hash crates)) := by
    unfold indexCanonical
    split
    · exact withinBind (keyedBin _) fun _ => keyedMemory fun s => by
        rw [insertHeightRest]
        exact ⟨rfl,rfl⟩
    · exact withinPure _
  exact withinBind index fun _ => withinBind (keyedMemory fun _ => ⟨rfl,rfl⟩) fun _ =>
    withinBind (keyedMemory fun _ => ⟨rfl,rfl⟩) fun _ => withinBind (keyedMemory fun _ => ⟨rfl,rfl⟩) fun _ =>
      withinBind (keyedMemory fun _ => ⟨rfl,rfl⟩) fun _ => withinBind (maybeTrainKeyed marking) fun _ => withinPure _

theorem genesisKeyed (marking : crates.Marking) (block : L2Block) : Within (KeepsKeyed crates) (initGenesis crates block) := by
  intro s r t h
  rcases initGenesisRuns h with rfl | ⟨compressed,headerBytes,body,_,_,later⟩
  · exact refl_of _ _
  · have rows : KeepsKeyed crates s (s.commit (genesisRows crates block compressed headerBytes)) :=
      keyedRows (serializeFrame body) genesisAside
    have tail : Within (KeepsKeyed crates) (genesisTail crates block) :=
      withinBind (keyedBin _) fun _ => withinBind (keyedMemory fun _ => ⟨rfl,rfl⟩) fun _ =>
        withinBind (keyedMemory fun _ => ⟨rfl,rfl⟩) fun _ => withinBind (keyedMemory fun _ => ⟨rfl,rfl⟩) fun _ =>
          withinBind (keyedMemory fun _ => ⟨rfl,rfl⟩) fun _ => maybeTrainKeyed marking
    exact trans_of _ rows (tail _ _ _ later)

theorem stagedKeyed {staged : List StagedRow} (framed : ∀ row ∈ staged, FrameOf crates s.zstdDict row.compressed) :
    KeepsKeyed crates s (s.commit (staged.flatMap rowWrites)) := by
  induction staged generalizing s with
  | nil => exact refl_of _ _
  | cons row rest ih =>
    have first : KeepsKeyed crates s (s.commit (rowWrites row)) := keyedRows (framed row (by simp)) canonicalAside
    have later := @ih (s.commit (rowWrites row)) fun other mem => framed other (List.mem_cons_of_mem _ mem)
    rw [commitAppend] at later
    exact trans_of _ first later

theorem flushKeyed (marking : crates.Marking) (jobs : List PipelineJob) :
    Within (KeepsKeyed crates) (Store.flushPipelineBatch crates jobs) :=
  flushBatchWithin {
    rows := fun _ _ plan => stagedKeyed fun row mem => serializeFrame (plan.rows row mem).body
    bins := fun rows => withinForEach rows fun row _ => by
      split
      · exact keyedBin _
      · exact withinPure _
    cache := fun row _ _ => withinBind (withinOnStore (keyedMemory fun _ => ⟨rfl,rfl⟩)) fun _ =>
      withinBind (withinOnStore (keyedMemory fun _ => ⟨rfl,rfl⟩)) fun _ =>
        withinBind (withinOnStore (keyedMemory fun _ => ⟨rfl,rfl⟩)) fun _ =>
          withinBind (withinAttempt (withinOnStore (maybeTrainKeyed marking))) fun answer => by
            cases answer <;> exact withinSend _ _ }

theorem storingKeyed (marking : crates.Marking) {c : Call} (storing : Storing c) :
    Within (KeepsKeyed crates) (call crates c) := by
  cases storing with
  | genesis block => exact genesisKeyed marking block
  | put block canonical => exact withinDiscard (putKeyed marking block canonical)
  | extend block => exact withinDiscard (extendChainWithin (putKeyed marking block true) keyedTip)
  | flush jobs =>
    exact withinBind (flushKeyed marking jobs) fun acks => withinForEach acks fun _ _ => withinDiscard (withinOfExcept _)
  | init => exact initKeyed
  | read r => exact fun _ _ _ h => touchedKeyed (readTouched h)
  | dropBlock hash => exact (keyedMemory fun _ => ⟨rfl,rfl⟩ : Within (KeepsKeyed crates) (invalidateBlockCacheEntry hash))
  | dropHeader hash => exact (keyedMemory fun _ => ⟨rfl,rfl⟩ : Within (KeepsKeyed crates) (invalidateHeaderCacheEntry hash))
  | dropRecord hash => exact (keyedMemory fun _ => ⟨rfl,rfl⟩ : Within (KeepsKeyed crates) (invalidateRecordCacheEntry hash))

end Calls

section Opening

theorem bootedKeyed (fixed : config.zstdDictionaryOverride = none) {readOnly : Bool}
    (booted : Booted config readOnly s.db u) : KeepsKeyed crates s u := by
  intro keyed
  obtain ⟨bin,_,tip,rfl,_,rfl,_⟩ := booted
  refine ⟨fun own held => ?_,keyed.trained,keyed.rows⟩
  change resolveZstdDictionary s.db config.useCompressionDict config.zstdDictionaryOverride = some own at held
  rw [unoverridden fixed] at held
  exact loadedPersisted held

theorem reopenKeyed (fixed : config.zstdDictionaryOverride = none) {file : Option Bytes} {disk : Disk}
    (h : Runs (openStore crates config) ⟨s.db,file⟩ (.ok t) disk) : KeepsKeyed crates s t := by
  obtain ⟨_,u,booted,touched⟩ := openStoreOk h
  exact trans_of _ (bootedKeyed fixed booted) (touchedKeyed touched)

theorem createdKeyed (fixed : config.zstdDictionaryOverride = none) : Keyed crates (created config) := by
  have unwritten : (created config).persisted = none := by
    unfold persisted loadZstdDictFromDb
    rw [if_pos rfl,show ((created config).db .metadata)[metaZstdDict]? = none from Std.ExtTreeMap.getElem?_empty]
  refine ⟨fun own held => ?_,fun own held => ?_,fun key frame row => ?_⟩
  · change resolveZstdDictionary (created config).db config.useCompressionDict config.zstdDictionaryOverride = some own at held
    rw [unoverridden fixed] at held
    exact loadedPersisted held
  · rw [unwritten] at held
    cases held
  · change (∅ : Std.ExtTreeMap Bytes Bytes compare)[key]? = some frame at row
    rw [Std.ExtTreeMap.getElem?_empty] at row
    cases row

structure Serves (crates : Crates) (config : BlockStoreConfig) (s t : Store) : Prop where
  db : t.db = s.db
  cap : t.maxDecompressedBlockBytes = config.maxDecompressedBlockBytes
  active : t.activeDictionary = if config.useCompressionDict then s.persisted else none
  bodies : ∀ hash block, t.blockCache.peek hash = some block → t.bodyAt crates hash = some block

theorem openServes (fixed : config.zstdDictionaryOverride = none) {file : Option Bytes} {disk : Disk}
    (h : Runs (openStore crates config) ⟨s.db,file⟩ (.ok t) disk) : Serves crates config s t := by
  obtain ⟨_,u,⟨bin,_,tip,rfl,_,rfl,_⟩,touched⟩ := openStoreOk h
  have rest := touched.rest
  refine ⟨touched.db,by rw [rest]; rfl,?_,fun hash block cached => ?_⟩
  · have use : t.useCompressionDict = config.useCompressionDict := by rw [rest]; rfl
    have dict : t.zstdDict = resolveZstdDictionary s.db config.useCompressionDict config.zstdDictionaryOverride := touched.zstdDict
    rw [activeDictionary,use,dict,unoverridden fixed]
    split
    · rename_i on
      rw [on]
      rfl
    · rfl
  · rcases touched.bodies hash block cached with held | row
    · change (ShardedLruCache.new _ _ : ShardedLruCache L2Block).peek hash = some block at held
      rw [ShardedLruCache.peekNew] at held
      cases held
    · rwa [touched.bodyAt]

def frameAnswer (crates : Crates) (s : Store) (frame : Bytes) : Exit (Option L2Block) :=
  ((s.deserializeBlock crates frame).map some).mapError .error

theorem Serves.answers (serves : Serves crates config s t) {hash : Bytes32} {frame : Bytes}
    (row : (s.db .blocks)[hashKey hash]? = some frame) (script : List Event) :
    (getBlock crates hash ⟨t,script⟩).1 = t.frameAnswer crates frame := by
  rw [← serves.db] at row
  rw [getBlockAnswers,blockAnswer,frameAnswer]
  cases cached : t.blockCache.peek hash with
  | some block =>
    have read := serves.bodies hash block cached
    rw [bodyAt,row,Option.bind_some] at read
    dsimp only
    cases decoded : t.deserializeBlock crates frame with
    | error e =>
      rw [decoded] at read
      cases read
    | ok found =>
      rw [decoded] at read
      cases read
      rfl
  | none =>
    dsimp only
    rw [row]
    dsimp only
    cases t.deserializeBlock crates frame <;> rfl

end Opening

section Reading

/- The frame was made with the persisted dictionary, and its payload is within the cap. -/
def NeedsDictionary (crates : Crates) (cap : Nat) (s : Store) (frame : Bytes) : Prop :=
  ∃ dict level raw, s.persisted = some dict ∧ crates.compressWith dict level raw = .ok frame ∧ raw.length ≤ cap

/- With the dictionary and without it, a row reads the same exactly when it does not need it. -/
theorem Keyed.readings (marking : crates.Marking) (keyed : Keyed crates s) {key frame : Bytes}
    (row : (s.db .blocks)[key]? = some frame) (on : u.activeDictionary = s.persisted) (off : v.activeDictionary = none) :
    u.frameAnswer crates frame = v.frameAnswer crates frame ↔
      ¬s.NeedsDictionary crates u.maxDecompressedBlockBytes frame := by
  have plainly : v.decompressBlockPayload crates frame = crates.decodeAll frame := by
    rw [decompressBlockPayload,off]
  have alike (same : u.decompressBlockPayload crates frame = crates.decodeAll frame) :
      u.frameAnswer crates frame = v.frameAnswer crates frame := by
    rw [frameAnswer,frameAnswer,deserializeBlock,deserializeBlock,plainly,same]
  have opens {dict : Bytes} (here : s.persisted = some dict) {found : Bytes}
      (read : crates.decompressWith dict frame u.maxDecompressedBlockBytes = .ok found) :
      u.decompressBlockPayload crates frame = .ok found := by
    obtain ⟨samples,size,made⟩ := keyed.trained dict here
    rw [decompressBlockPayload,on,here]
    dsimp only
    rw [marking.trained _ _ _ made,read]
  have falls {dict : Bytes} (here : s.persisted = some dict) {why : String}
      (failed : crates.decompressWith dict frame u.maxDecompressedBlockBytes = .error why) :
      u.decompressBlockPayload crates frame = crates.decodeAll frame := by
    obtain ⟨samples,size,made⟩ := keyed.trained dict here
    rw [decompressBlockPayload,on,here]
    dsimp only
    rw [marking.trained _ _ _ made,failed]
  obtain ⟨block,raw,encoded,form⟩ := keyed.rows key frame row
  cases here : s.persisted with
  | none =>
    refine iff_of_true (alike ?_) ?_
    · rw [decompressBlockPayload,on,here]
    · rintro ⟨dict,_,_,found,_⟩
      rw [here] at found
      cases found
  | some dict =>
    obtain ⟨samples,size,made⟩ := keyed.trained dict here
    rcases form with ⟨level,plain⟩ | ⟨own,level,same,packed⟩
    · refine iff_of_true (alike ?_) ?_
      · cases answer : crates.decompressWith dict frame u.maxDecompressedBlockBytes with
        | error why => exact falls here answer
        | ok found => rw [opens here answer,marking.aside _ _ _ _ _ _ plain answer,marking.plain _ _ _ plain]
      · rintro ⟨_,level',raw',found,packed,_⟩
        rw [here] at found
        cases found
        obtain ⟨why,refused⟩ := marking.refused _ _ _ _ _ _ made packed
        rw [marking.plain _ _ _ plain] at refused
        cases refused
    · rw [here] at same
      cases same
      obtain ⟨why,refused⟩ := marking.refused _ _ _ _ _ _ made packed
      by_cases small : raw.length ≤ u.maxDecompressedBlockBytes
      · refine iff_of_false (fun equal => ?_) fun absent => absent ⟨dict,level,raw,here,packed,small⟩
        have reads : u.frameAnswer crates frame = .ok (some block) := by
          rw [frameAnswer,deserializeBlock,opens here (marking.packed _ _ _ _ _ packed small)]
          dsimp only
          rw [marking.block _ _ encoded]
          rfl
        rw [reads,frameAnswer,deserializeBlock,plainly,refused] at equal
        cases equal
      · refine iff_of_true (alike ?_) ?_
        · obtain ⟨_,full⟩ := marking.full _ _ _ _ _ packed (Nat.lt_of_not_le small)
          exact falls here full
        · rintro ⟨_,level',raw',found,packed',small'⟩
          rw [here] at found
          cases found
          -- one frame, one payload
          have read := marking.packed _ _ _ _ _ packed' (Nat.le_max_left raw'.length raw.length)
          rw [marking.packed _ _ _ _ _ packed (Nat.le_max_right raw'.length raw.length)] at read
          cases read
          exact small small'

end Reading

end Store

def Tuned (crates : Crates) (s : Store) (step : BlockStoreConfig × Growth) (t : Store) : Prop :=
  step.1.zstdDictionaryOverride = none ∧ Moves crates step.1 s step.2 t

namespace Store
variable {crates : Crates} {s t : Store}

theorem tunedKeyed (marking : crates.Marking) {step : BlockStoreConfig × Growth} (tuned : Tuned crates s step t) :
    KeepsKeyed crates s t := by
  obtain ⟨config,move⟩ := step
  obtain ⟨fixed,moved⟩ := tuned
  cases move with
  | call c =>
    obtain ⟨storing,_,run⟩ := moved
    exact storingKeyed marking storing _ _ _ run
  | trainDictionary =>
    obtain ⟨_,run⟩ := moved
    exact trainKeyed marking _ _ _ run
  | maybeTrainDictionary =>
    obtain ⟨_,run⟩ := moved
    exact maybeTrainKeyed marking _ _ _ run
  | shed =>
    obtain ⟨cache,rfl,_⟩ := moved
    exact Sheltered.keeps ⟨rfl,rfl,rfl⟩
  | reopen =>
    obtain ⟨_,_,run⟩ := moved
    exact reopenKeyed fixed run

theorem movesTuned {config : BlockStoreConfig} (fixed : config.zstdDictionaryOverride = none) {moves : List Growth}
    (run : Run (Moves crates config) s moves t) : Run (Tuned crates) s (moves.map (Prod.mk config)) t := by
  induction run with
  | nil => exact .nil _
  | cons first _ ih => exact .cons ⟨fixed,first⟩ ih

end Store

namespace Sample

theorem sealedTrains {samples : List Bytes} {size : Nat} {dict : Bytes} (made : sealed.fromSamples samples size = .ok dict) :
    dict = trainedDict := by
  change (if samples = [] then Except.error "no samples" else .ok trainedDict) = .ok dict at made
  split at made
  · cases made
  · exact (Except.ok.inj made).symm

theorem sealedMarking : sealed.Marking where
  toInverse := sealedInverse
  nonempty samples size dict made := (sealedFaithful.trained samples size dict made).1
  refused samples size dict level raw frame made packed := by
    rw [sealedTrains made,sealedLong (by decide)] at packed
    cases packed
    exact ⟨"dictionary mismatch",rfl⟩

def switchedOff : BlockStoreConfig := {config with useCompressionDict := false}

end Sample

/- Over the rows of any run, a store opened with the switch on and one opened with it off answer
alike for a stored hash, unless its frame needs the dictionary, and then they do not. -/
theorem switchReads {crates : Crates} (marking : crates.Marking) {config : BlockStoreConfig}
    (fixed : config.zstdDictionaryOverride = none) {start s : Store} {steps : List (BlockStoreConfig × Growth)}
    {file : Option Bytes} {disk : Disk} (opened : Runs (Store.openStore crates config) ⟨fun _ => ∅,file⟩ (.ok start) disk)
    (run : Run (Tuned crates) start steps s) {on off : BlockStoreConfig} (switchedOn : on.useCompressionDict = true)
    (switchedOff : off.useCompressionDict = false) (own : on.zstdDictionaryOverride = none)
    (own' : off.zstdDictionaryOverride = none) {u v : Store} {file' file'' : Option Bytes} {disk' disk'' : Disk}
    (opensOn : Runs (Store.openStore crates on) ⟨s.db,file'⟩ (.ok u) disk')
    (opensOff : Runs (Store.openStore crates off) ⟨s.db,file''⟩ (.ok v) disk'') :
    ∀ hash frame, (s.db .blocks)[hashKey hash]? = some frame → ∀ script script',
      ((Store.getBlock crates hash ⟨u,script⟩).1 = (Store.getBlock crates hash ⟨v,script'⟩).1 ↔
        ¬s.NeedsDictionary crates on.maxDecompressedBlockBytes frame) := by
  have created : Store.Keyed crates (.created config) := Store.createdKeyed fixed
  have keyed : s.Keyed crates := run.invariant
    (@Store.reopenKeyed crates config (.created config) start fixed file disk opened created)
    fun _ _ _ held step => Store.tunedKeyed marking step held
  have servesOn := Store.openServes own opensOn
  have servesOff := Store.openServes own' opensOff
  have active : u.activeDictionary = s.persisted := by rw [servesOn.active,if_pos switchedOn]
  have none' : v.activeDictionary = none := by rw [servesOff.active,if_neg (by rw [switchedOff]; exact Bool.false_ne_true)]
  intro hash frame row script script'
  rw [servesOn.answers row,servesOff.answers row,← servesOn.cap]
  exact keyed.readings marking row active none'

theorem switchReadsSample : ∃ s u v disk disk', Run (Moves Sample.sealed Sample.config) (.created Sample.config) Sample.manyPuts s ∧
    Runs (Store.openStore Sample.sealed Sample.config) ⟨s.db,none⟩ (.ok u) disk ∧
    Runs (Store.openStore Sample.sealed Sample.switchedOff) ⟨s.db,none⟩ (.ok v) disk' ∧
    (s.db .blocks)[Sample.numberedKey 0]?.isSome ∧ (s.db .blocks)[Sample.numberedKey dictTrainingThreshold]?.isSome ∧
    ∀ script script', (Store.getBlock Sample.sealed ((Sample.numbered 0).hash Sample.sealed) ⟨u,script⟩).1 =
        (Store.getBlock Sample.sealed ((Sample.numbered 0).hash Sample.sealed) ⟨v,script'⟩).1 ∧
      (Store.getBlock Sample.sealed ((Sample.numbered dictTrainingThreshold).hash Sample.sealed) ⟨u,script⟩).1 ≠
        (Store.getBlock Sample.sealed ((Sample.numbered dictTrainingThreshold).hash Sample.sealed) ⟨v,script'⟩).1 := by
  have opened : Runs (Store.openStore Sample.sealed Sample.config) ⟨fun _ => ∅,none⟩ (.ok (.created Sample.config)) _ :=
    Faulty.Runs.ofResult rfl
  obtain ⟨s,run,persisted,_,first,last,canonical,head⟩ := Sample.manyRun
  obtain ⟨u,disk,opensOn⟩ := Sample.opensBare canonical head true
  obtain ⟨v,disk',opensOff⟩ := Sample.opensBare canonical head false
  have reads := switchReads Sample.sealedMarking rfl opened (Store.movesTuned rfl run) rfl rfl rfl rfl opensOn opensOff
  refine ⟨s,u,v,disk,disk',run,opensOn,opensOff,by rw [first]; rfl,by rw [last]; rfl,fun script script' => ⟨?_,?_⟩⟩
  · refine (reads _ _ first script script').mpr ?_
    rintro ⟨dict,level,raw,own,packed,_⟩
    rw [persisted] at own
    cases own
    rw [Sample.sealedLong (by decide)] at packed
    cases packed
  · refine fun alike => (reads _ _ last script script').mp alike
      ⟨_,3,Sample.encodeBlock (Sample.numbered dictTrainingThreshold),persisted,Sample.sealedLong (by decide) _ _,?_⟩
    rw [Sample.numberedLength]
    decide +kernel

/- A block put after training, read by a store opened with the switch off. -/
theorem switchLosesBlock : ∃ s u v disk disk', Run (Moves Sample.sealed Sample.config) (.created Sample.config) Sample.manyPuts s ∧
    Runs (Store.openStore Sample.sealed Sample.config) ⟨s.db,none⟩ (.ok u) disk ∧
    Runs (Store.openStore Sample.sealed Sample.switchedOff) ⟨s.db,none⟩ (.ok v) disk' ∧
    (s.db .blocks)[Sample.numberedKey dictTrainingThreshold]?.isSome ∧
    (Store.getBlock Sample.sealed ((Sample.numbered dictTrainingThreshold).hash Sample.sealed) ⟨u,[]⟩).1 =
      .ok (some (Sample.numbered dictTrainingThreshold)) ∧
    (Store.getBlock Sample.sealed ((Sample.numbered dictTrainingThreshold).hash Sample.sealed) ⟨v,[]⟩).1 =
      .error (.error (.serialization "deserialize_block: decompress failed: dictionary mismatch")) := by
  obtain ⟨s,run,persisted,_,_,row,canonical,head⟩ := Sample.manyRun
  obtain ⟨u,disk,opensOn⟩ := Sample.opensBare canonical head true
  obtain ⟨v,disk',opensOff⟩ := Sample.opensBare canonical head false
  have servesOn := Store.openServes rfl opensOn
  have servesOff := Store.openServes rfl opensOff
  refine ⟨s,u,v,disk,disk',run,opensOn,opensOff,by rw [row]; rfl,?_,?_⟩
  · rw [servesOn.answers row,Store.frameAnswer,Store.deserializeBlock,Store.decompressBlockPayload,servesOn.active,if_pos rfl,
      persisted,servesOn.cap]
    dsimp only
    rw [show Sample.sealed.decompressor Sample.trainedDict = .ok () from rfl]
    dsimp only
    rw [Sample.sealedInverse.packed Sample.trainedDict 3 (Sample.encodeBlock (Sample.numbered dictTrainingThreshold))
      Sample.keyedFrame _ (Sample.sealedLong (by decide) _ _) (by rw [Sample.numberedLength]; decide +kernel)]
    dsimp only
    rw [Sample.sealedInverse.block _ _ rfl]
    rfl
  · rw [servesOff.answers row,Store.frameAnswer,Store.deserializeBlock,Store.decompressBlockPayload,servesOff.active]
    rfl

end DigBlockstore
