import DigBlockstore.CallEffects

/-! Coherence of the height cache over runs. A call shadows a height when it writes a
canonical row there that the height cache does not learn of while it holds another hash. -/
namespace DigBlockstore
open ByteCodec Faulty ColumnStore PartialMap Pipeline Trace
namespace Store
variable {crates : Crates} {s t u : Store}

/- A record the store can answer for a hash. -/
def MayRecord (crates : Crates) (s : Store) (hash : Bytes32) (record : BlockRecord) : Prop :=
  s.recordCache hash = some record ∨ s.recordCache hash = none ∧
    ∃ header, s.Knows crates hash header ∧ record = .fromHeader crates header .validated

/- The canonical rows a call may write without putting them in the height cache. -/
inductive Behind (crates : Crates) (s : Store) : Call → List (UInt64 × Bytes32) → Prop where
  | genesis (block : L2Block) : Behind crates s (.initGenesis block) [(0,block.hash crates)]
  | put {block : L2Block} (off : s.canonicalHeightCacheCapacity = 0)
      (absent : (s.db .blocks)[hashKey (block.hash crates)]? = none) :
      Behind crates s (.putBlock block true) [(block.height,block.hash crates)]
  | extend {block : L2Block} (off : s.canonicalHeightCacheCapacity = 0)
      (absent : s.hasBlock (block.hash crates) = false) :
      Behind crates s (.extendChain block) [(block.height,block.hash crates)]
  | set {hash : Bytes32} {record : BlockRecord} (off : s.canonicalHeightCacheCapacity = 0)
      (held : MayRecord crates s hash record) : Behind crates s (.setCanonical hash) [(record.height,hash)]
  | batch {hashes : List Bytes32} {validated : List (Bytes32 × BlockRecord)}
      (order : validated.map Prod.fst = hashes) (held : ∀ row ∈ validated, MayRecord crates s row.1 row.2) :
      Behind crates s (.setCanonicalBatch hashes) (rowsOf validated)
  | flush {jobs : List PipelineJob} {staged : List StagedRow} (plan : Staged crates s jobs [] staged) :
      Behind crates s (.flush jobs) (canonicalRows staged)
  | imported {input : Bytes} (off : s.canonicalHeightCacheCapacity = 0) (rows : List (UInt64 × Bytes32)) :
      Behind crates s (.importSnapshot input) rows

/- No row of the list stands against another hash in the height cache. -/
def Clear (s : Store) (rows : List (UInt64 × Bytes32)) : Prop :=
  ∀ h x y, s.minRetainedHeightCached ≤ h → lastRow rows h = some y → s.canonicalHeightCache[h]? = some x → x = y

def Unshadowed (crates : Crates) (s : Store) (c : Call) : Prop := ∀ rows, Behind crates s c rows → Clear s rows

theorem Touched.mayRecord {hash : Bytes32} {record : BlockRecord} (touched : Touched crates s u)
    (held : u.recordCache hash = some record) : MayRecord crates s hash record := touched.records hash record held

/- Rows put over a coherent cache leave it coherent when the cache learns of each row or
held nothing against it. -/
theorem Shift.putCoherent {rows : List (UInt64 × Bytes32)} {head : Option ChainTip} {kept : UInt64 → Prop}
    (shift : Shift s t (putAll rows (canonicalAt s.db)) head s.minRetainedHeightCached kept)
    (coherent : Coherent s)
    (clear : ∀ h x y, s.minRetainedHeightCached ≤ h → kept h → lastRow rows h = some y →
      s.canonicalHeightCache[h]? = some x → x = y) : Coherent t := by
  refine shift.coherent coherent (UInt64.le_refl _) fun h x low keep cached row => ?_
  rw [putAllAt]
  cases last : lastRow rows h with
  | none => exact row
  | some y => rw [clear h x y low keep last cached]; rfl

theorem lastRowOne {h k : UInt64} {x y : Bytes32} (last : lastRow [(k,x)] h = some y) : h = k := by
  have mem := lastRowMem last
  simp only [List.mem_singleton,Prod.mk.injEq] at mem
  exact mem.1

theorem putCoherent {block : L2Block} {canonical added : Bool} (indexed : Indexed s) (coherent : Coherent s)
    (clear : canonical = true → s.canonicalHeightCacheCapacity = 0 →
      (s.db .blocks)[hashKey (block.hash crates)]? = none → Clear s [(block.height,block.hash crates)])
    (h : Runs (putBlock crates block canonical) s (.ok added) t) : Coherent t := by
  rcases putBlockShift indexed h with ⟨_,rfl⟩ | ⟨_,absent,shift⟩
  · exact coherent
  · cases canonical with
    | false => exact shift.coherent coherent (UInt64.le_refl _) fun h x _ _ _ row => row
    | true =>
      refine @Shift.putCoherent s t [(block.height,block.hash crates)] _ _ shift coherent
        fun h x y low keep last cached => ?_
      have here := lastRowOne last
      by_cases off : s.canonicalHeightCacheCapacity = 0
      · exact clear rfl off absent h x y low last cached
      · exact absurd here (keep rfl off)

theorem putCacheOff {block : L2Block} {added : Bool} (off : s.canonicalHeightCacheCapacity = 0)
    (h : Runs (putBlock crates block true) s (.ok added) t) :
    t.canonicalHeightCache = s.canonicalHeightCache ∧
      t.canonicalHeightCacheCapacity = s.canonicalHeightCacheCapacity ∧
      t.minRetainedHeightCached = s.minRetainedHeightCached := by
  rcases putBlockOk h with ⟨_,rfl,_⟩ | ⟨_,compressed,headerBytes,_,_,trained⟩
  · exact ⟨rfl,rfl,rfl⟩
  · rw [trained.rest]
    unfold ingested refreshIndex insertCanonicalHeightCache
    rw [if_pos rfl,if_pos (by exact off)]
    exact ⟨rfl,rfl,rfl⟩

theorem putsCoherent {blocks : List L2Block} (puts : Puts crates blocks s t) (indexed : Indexed s)
    (coherent : Coherent s) (clear : s.canonicalHeightCacheCapacity = 0 → ∀ rows, Clear s rows) : Coherent t := by
  induction puts with
  | nil s => exact coherent
  | cons first _ ih =>
    refine ih (putIndexed indexed first) (putCoherent indexed coherent (fun _ off _ => clear off _) first) ?_
    intro off rows h x y low last cached
    rcases putBlockShift indexed first with ⟨_,rfl⟩ | ⟨_,_,shift⟩
    · exact clear off rows h x y low last cached
    · have off' := shift.capacity.symm.trans off
      obtain ⟨cache,_,floor⟩ := putCacheOff off' first
      rw [floor] at low
      rw [cache] at cached
      exact clear off' rows h x y low last cached

theorem reorgCoherent {ancestor : UInt64} {hashes : List Bytes32} {plan : ReorgPlan} (indexed : Indexed s)
    (coherent : Coherent s) (planned : Planned crates s u ancestor hashes plan) (fits : u.canonicalBin.Accepts ancestor) :
    Coherent (u.reorged ancestor hashes plan) := by
  refine (applyReorgShift indexed planned fits).coherent coherent (UInt64.le_refl _) fun h x _ keep _ row => ?_
  rw [ReorgPlan.index,putAllAt,keep.2,eraseAll,if_neg keep.1,row]
  rfl

theorem callCoherent {c : Call} {v : Unit} (indexed : Indexed s) (coherent : Coherent s)
    (clear : Unshadowed crates s c) (h : Runs (call crates c) s (.ok v) t) : Coherent t := by
  cases c with
  | read r => exact (readTouched h).quiet.coherent indexed coherent
  | initGenesis block =>
    exact @Shift.putCoherent s t [(0,block.hash crates)] _ _ (initGenesisShift indexed h).2 coherent
      fun h x y low _ last cached => clear _ (.genesis block) h x y low last cached
  | putBlock block canonical =>
    obtain ⟨added,run⟩ := discardOk h
    refine putCoherent indexed coherent (fun yes off absent => ?_) run
    subst yes
    exact clear _ (.put off absent)
  | flush jobs =>
    obtain ⟨staged,_,plan,shift⟩ := flushShift indexed h
    exact shift.putCoherent coherent fun h x y low _ last cached => clear _ (.flush plan) h x y low last cached
  | extendChain block =>
    obtain ⟨added,run⟩ := discardOk h
    rcases extendChainShift indexed run with ⟨_,rfl,_⟩ | ⟨_,absent,shift⟩
    · exact coherent
    · refine @Shift.putCoherent s t [(block.height,block.hash crates)] _ _ shift coherent
        fun h x y low keep last cached => ?_
      by_cases off : s.canonicalHeightCacheCapacity = 0
      · exact clear _ (.extend off absent) h x y low last cached
      · exact absurd (lastRowOne last) (keep rfl off)
  | setCanonical hash =>
    obtain ⟨record,u,touched,held,shift⟩ := setCanonicalShift indexed h
    refine @Shift.putCoherent s t [(record.height,hash)] _ _ shift coherent fun h x y low keep last cached => ?_
    by_cases off : s.canonicalHeightCacheCapacity = 0
    · exact clear _ (.set off (touched.mayRecord held)) h x y low last cached
    · exact absurd (lastRowOne last) (keep off)
  | setCanonicalBatch hashes =>
    obtain ⟨validated,u,touched,order,held,shift⟩ := setCanonicalBatchShift indexed h
    exact shift.putCoherent coherent fun h x y low _ last cached =>
      clear _ (.batch order fun row mem => touched.mayRecord (held row mem)) h x y low last cached
  | rollbackToHeight target =>
    obtain ⟨reverted,run⟩ := discardOk h
    obtain ⟨tip,_,_,_,_,⟨_,_,rfl⟩ | back⟩ := @rollbackOk crates _ _ _ _ run
    · exact coherent
    · obtain ⟨found,_,shift⟩ := rollbackShift indexed back
      exact shift.coherent coherent (UInt64.le_refl _) fun h x _ keep _ row => by rw [eraseAll,if_neg keep,row]
  | applyReorg ancestor hashes =>
    obtain ⟨result,run⟩ := discardOk h
    obtain ⟨plan,u,planned,fits,_,_,rfl⟩ := applyReorgOk run
    exact reorgCoherent indexed coherent planned fits
  | pruneBeforeHeight height =>
    obtain ⟨n,run⟩ := discardOk h
    rcases pruneRuns indexed run with ⟨⟨e,bad⟩,_⟩ | ⟨_,_,_,rfl⟩ | ⟨plan,u,pruning,_,rfl⟩
    · cases bad
    · exact coherent
    · refine (pruneShift indexed pruning).coherent coherent (UInt64.le_of_lt pruning.above)
        fun h x low _ _ row => ?_
      rw [eraseAll,if_neg fun mem => UInt64.not_le.mpr (memHeightsBefore.mp mem).2 low,row]
  | setTip tip => exact (setTipShift indexed h).coherent coherent (UInt64.le_refl _) fun _ _ _ _ _ row => row
  | putAttestation hash attested => exact (putAttestationQuiet h).coherent indexed coherent
  | putCheckpoint checkpoint => exact (putCheckpointQuiet h).coherent indexed coherent
  | pruneCheckpointsBeforeEpoch epoch =>
    obtain ⟨n,run⟩ := discardOk h
    exact (pruneCheckpointsQuiet run).coherent indexed coherent
  | updateStatus hash status => exact (updateStatusQuiet h).coherent indexed coherent
  | importSnapshot input =>
    obtain ⟨manifest,run⟩ := discardOk h
    obtain ⟨blocks,puts⟩ := importSnapshotOk run
    exact putsCoherent puts indexed coherent fun off rows => clear rows (.imported off rows)
  | initDictionary => exact (initDictionaryQuiet h).coherent indexed coherent
  | disableCanonicalBinAcceleration =>
    exact (disableShift indexed h).coherent coherent (UInt64.le_refl _) fun _ _ _ _ _ row => row
  | invalidateBlockCacheEntry hash => exact (invalidateQuiet (.inl h)).coherent indexed coherent
  | invalidateHeaderCacheEntry hash => exact (invalidateQuiet (.inr (.inl h))).coherent indexed coherent
  | invalidateRecordCacheEntry hash => exact (invalidateQuiet (.inr (.inr h))).coherent indexed coherent
  | compaction visited => exact (compactionQuiet h).coherent indexed coherent

end Store

/- An action that shadows no cached height. -/
def Unshadowed (crates : Crates) (s : Store) : Action → Prop
  | .call c => s.Unshadowed crates c
  | .reopen _ | .reopenReadonly _ => True

theorem takesCoherent {crates : Crates} {s t : Store} {action : Action} (indexed : s.Indexed)
    (coherent : s.Coherent) (clear : Unshadowed crates s action) (h : Takes crates s action t) : t.Coherent := by
  cases action with
  | call c => exact Store.callCoherent indexed coherent clear h
  | reopen config =>
    obtain ⟨disk,run⟩ := h
    obtain ⟨_,u,booted,touched⟩ := Store.openStoreOk run
    obtain ⟨indexed',_,_,_,cache,_⟩ := Store.bootedIndexed indexed.typed indexed.tipRow booted
    exact touched.quiet.coherent indexed' (Store.cachelessCoherent cache)
  | reopenReadonly path =>
    obtain ⟨disk,run⟩ := h
    obtain ⟨_,booted⟩ := Store.openReadonlyOk run
    exact Store.cachelessCoherent (Store.bootedIndexed indexed.typed indexed.tipRow booted).2.2.2.2.1

/- Runs from an empty database. -/
def Reaches (crates : Crates) (s : Store) : Prop :=
  ∃ start actions, Opened crates start ∧ Run (Takes crates) start actions s

def ReachesUnshadowed (crates : Crates) (s : Store) : Prop :=
  ∃ start actions, Opened crates start ∧ Run (Guarded (Unshadowed crates) (Takes crates)) start actions s

theorem ReachesUnshadowed.reaches {crates : Crates} {s : Store} (h : ReachesUnshadowed crates s) : Reaches crates s := by
  obtain ⟨start,actions,opened,run⟩ := h
  exact ⟨start,actions,opened,run.mono fun _ _ _ both => both.2⟩

theorem reachesIndexed {crates : Crates} {s : Store} (h : Reaches crates s) : s.Indexed := by
  obtain ⟨start,actions,opened,run⟩ := h
  exact run.invariant (openedIndexed opened).1 fun _ _ _ => takesIndexed

theorem reachesCoherent {crates : Crates} {s : Store} (h : ReachesUnshadowed crates s) :
    s.Indexed ∧ s.Coherent := by
  obtain ⟨start,actions,opened,run⟩ := h
  obtain ⟨indexed,coherent,_⟩ := openedIndexed opened
  exact run.invariantWith indexed (fun _ _ _ known both => takesIndexed known both.2) coherent
    fun _ _ _ known kept both => takesCoherent known kept both.1 both.2

end DigBlockstore
