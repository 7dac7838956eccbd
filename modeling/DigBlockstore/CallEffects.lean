import DigBlockstore.OpenEffects

/-! Every call that returns Ok keeps the index invariant, and keeps the height cache
coherent unless it writes a canonical row over a cached one without refreshing it. -/
namespace DigBlockstore
open ByteCodec Faulty ColumnStore PartialMap
namespace Store
variable {crates : Crates} {s t u : Store}

section Aside

theorem quietWrite {batch : List Write} {r : Exit Unit} (aside : ∀ write ∈ batch, Aside write)
    (h : Runs (write batch) s r t) : Quiet s t := by
  rcases writeRuns h with ⟨_,rfl⟩ | ⟨_,rfl⟩
  · exact quietCommit aside
  · exact .refl _

theorem putAttestationQuiet {hash : Bytes32} {attested : AttestedBlock} {v : Unit}
    (h : Runs (putAttestation crates hash attested) s (.ok v) t) : Quiet s t := by
  obtain ⟨_,u,opening,packing⟩ := runsBindOk h
  obtain ⟨_,rfl⟩ := refuseReadOnlyOk opening
  obtain ⟨bytes,w,one,writing⟩ := runsBindOk packing
  obtain ⟨_,rfl⟩ := runsOfExceptOk one
  exact quietWrite (by simp [Aside,effectPut]) writing

theorem putCheckpointQuiet {checkpoint : StoredCheckpoint} {v : Unit}
    (h : Runs (putCheckpoint crates checkpoint) s (.ok v) t) : Quiet s t := by
  obtain ⟨_,u,opening,packing⟩ := runsBindOk h
  obtain ⟨_,rfl⟩ := refuseReadOnlyOk opening
  obtain ⟨bytes,w,one,writing⟩ := runsBindOk packing
  obtain ⟨_,rfl⟩ := runsOfExceptOk one
  exact quietWrite (by simp [Aside,effectPut]) writing

theorem pruneCheckpointsQuiet {epoch : UInt64} {n : Nat}
    (h : Runs (pruneCheckpointsBeforeEpoch epoch) s (.ok n) t) : Quiet s t := by
  obtain ⟨_,u,opening,checking⟩ := runsBindOk h
  obtain ⟨_,rfl⟩ := refuseReadOnlyOk opening
  split at checking
  · rw [(runsPure.mp checking).2]
    exact .refl _
  · rw [runsGetBind] at checking
    dsimp only at checking
    split at checking
    · obtain ⟨_,w,writing,last⟩ := runsBindOk checking
      rw [(runsPure.mp last).2]
      refine quietWrite (fun write mem => ?_) writing
      obtain ⟨key,_,rfl⟩ := List.mem_map.mp mem
      simp [Aside,effectDelete]
    · rw [(runsPure.mp checking).2]
      exact .refl _

theorem updateStatusQuiet {hash : Bytes32} {status : BlockStatus} {v : Unit}
    (h : Runs (updateStatus crates hash status) s (.ok v) t) : Quiet s t := by
  unfold updateStatus at h
  rw [runsGetBind] at h
  split at h
  · cases (runsError.mp h).1
  · rw [(runsModify.mp h).2]
    exact quietRecords _

theorem compactedRow (visited : Cf → Bytes → Bool) (cf : Cf) (key : Bytes) :
    ((s.compacted crates visited).db cf)[key]? = (s.db cf)[key]?.filter fun value =>
      !(visited cf key && filterRemoves crates s.minRetainedHeightCached cf value) :=
  Std.ExtTreeMap.getElem?_filter'

theorem compactedColumn (visited : Cf → Bytes → Bool) {cf : Cf}
    (spared : ∀ value, filterRemoves crates s.minRetainedHeightCached cf value = false) :
    (s.compacted crates visited).db cf = s.db cf := by
  apply Std.ExtTreeMap.ext_getElem?
  intro key
  rw [compactedRow]
  simp only [spared,Bool.and_false,Bool.not_false]
  cases (s.db cf)[key]? <;> rfl

theorem quietCompacted (visited : Cf → Bytes → Bool) : Quiet s (s.compacted crates visited) where
  canonical := compactedColumn visited fun _ => by simp [filterRemoves]
  tipRow := by rw [compactedColumn visited fun _ => by simp [filterRemoves]]
  floorRow := by rw [compactedColumn visited fun _ => by simp [filterRemoves]]
  bin := rfl
  tip := rfl
  floor := rfl
  readOnly := rfl
  capacity := rfl
  heights _ _ _ found := .inl found

theorem compactionQuiet {visited : Cf → Bytes → Bool} {v : Unit}
    (h : Runs (compaction crates visited) s (.ok v) t) : Quiet s t := by
  rw [(runsModify.mp h).2]
  split
  · exact quietCompacted visited
  · exact .refl s

theorem initDictionaryQuiet {v : Unit} (h : Runs initDictionary s (.ok v) t) : Quiet s t := by
  rw [(runsModify.mp h).2]
  exact ⟨rfl,rfl,rfl,rfl,rfl,rfl,rfl,rfl,fun _ _ _ found => .inl found⟩

theorem invalidateQuiet {hash : Bytes32} {v : Unit}
    (h : Runs (invalidateBlockCacheEntry hash) s (.ok v) t ∨ Runs (invalidateHeaderCacheEntry hash) s (.ok v) t ∨
      Runs (invalidateRecordCacheEntry hash) s (.ok v) t) : Quiet s t := by
  rcases h with h | h | h <;> rw [(runsModify.mp h).2] <;>
    exact ⟨rfl,rfl,rfl,rfl,rfl,rfl,rfl,rfl,fun _ _ _ found => .inl found⟩

end Aside

theorem disableShift (indexed : Indexed s) {v : Unit} (h : Runs disableCanonicalBinAcceleration s (.ok v) t) :
    Shift s t (canonicalAt s.db) s.tip s.minRetainedHeightCached fun _ => True := by
  rw [(runsModify.mp h).2]
  exact ⟨⟨indexed.typed,.disable,fun _ => rfl,indexed.tipRow,indexed.floorRow⟩,rfl,rfl,rfl,rfl,rfl,
    fun _ _ _ found => .inr ⟨found,trivial⟩⟩

inductive Puts (crates : Crates) : List L2Block → Store → Store → Prop where
  | nil (s : Store) : Puts crates [] s s
  | cons {block : L2Block} {rest : List L2Block} {added : Bool} {s t u : Store}
      (first : Runs (putBlock crates block true) s (.ok added) t) (later : Puts crates rest t u) :
      Puts crates (block :: rest) s u

theorem importFramesOk {prev : Option Bytes32} {input hashed : Bytes} {heights : List UInt64}
    {left : Bytes × Bytes} (h : Runs (importFrames crates prev input hashed heights) s (.ok left) t) :
    ∃ blocks, Puts crates blocks s t := by
  induction heights generalizing prev input hashed s with
  | nil =>
    obtain ⟨_,rfl⟩ := runsPure.mp h
    exact ⟨[],.nil _⟩
  | cons height rest ih =>
    obtain ⟨lenBytes,a,one,reading⟩ := runsBindOk h
    obtain ⟨_,rfl⟩ := runsOfExceptOk one
    obtain ⟨compressed,b,two,unpacking⟩ := runsBindOk reading
    obtain ⟨_,rfl⟩ := runsOfExceptOk two
    rw [runsGetBind] at unpacking
    obtain ⟨block,c,three,checking⟩ := runsBindOk unpacking
    obtain ⟨_,rfl⟩ := runsOfExceptOk three
    split at checking
    · cases (runsError.mp checking).1
    · split at checking
      · cases (runsError.mp checking).1
      · obtain ⟨added,d,putting,more⟩ := runsBindOk checking
        obtain ⟨blocks,puts⟩ := ih more
        exact ⟨block :: blocks,.cons putting puts⟩

theorem importSnapshotOk {input : Bytes} {manifest : SnapshotManifest}
    (h : Runs (importSnapshot crates input) s (.ok manifest) t) : ∃ blocks, Puts crates blocks s t := by
  obtain ⟨pair,a,one,reading⟩ := runsBindOk h
  obtain ⟨_,rfl⟩ := runsOfExceptOk one
  obtain ⟨bytes,b,two,checking⟩ := runsBindOk reading
  obtain ⟨_,rfl⟩ := runsOfExceptOk two
  dsimp only at checking
  split at checking
  · cases (runsError.mp checking).1
  · obtain ⟨left,c,three,summing⟩ := runsBindOk checking
    obtain ⟨blocks,puts⟩ := importFramesOk three
    obtain ⟨sum,d,four,last⟩ := runsBindOk summing
    obtain ⟨_,rfl⟩ := runsOfExceptOk four
    split at last
    · cases (runsError.mp last).1
    · rw [(runsPure.mp last).2]
      exact ⟨blocks,puts⟩

theorem discardOk {α : Type} {m : StoreM α} {v : Unit} (h : Runs (discard m) s (.ok v) t) :
    ∃ a, Runs m s (.ok a) t := by
  obtain ⟨a,u,one,last⟩ := runsBindOk h
  obtain ⟨_,rfl⟩ := runsPure.mp last
  exact ⟨a,one⟩

theorem putIndexed {block : L2Block} {canonical added : Bool} (indexed : Indexed s)
    (h : Runs (putBlock crates block canonical) s (.ok added) t) : Indexed t := by
  rcases putBlockShift indexed h with ⟨_,rfl⟩ | ⟨_,_,shift⟩
  · exact indexed
  · exact shift.indexed

theorem putsIndexed {blocks : List L2Block} (puts : Puts crates blocks s t) (indexed : Indexed s) : Indexed t := by
  induction puts with
  | nil s => exact indexed
  | cons first _ ih => exact ih (putIndexed indexed first)

theorem callIndexed {c : Call} {v : Unit} (indexed : Indexed s) (h : Runs (call crates c) s (.ok v) t) :
    Indexed t := by
  cases c with
  | read r => exact (readTouched h).quiet.indexed indexed
  | initGenesis block => exact (initGenesisShift indexed h).2.indexed
  | putBlock block canonical =>
    obtain ⟨added,run⟩ := discardOk h
    exact putIndexed indexed run
  | flush jobs =>
    obtain ⟨staged,_,_,shift⟩ := flushShift indexed h
    exact shift.indexed
  | extendChain block =>
    obtain ⟨added,run⟩ := discardOk h
    rcases extendChainShift indexed run with ⟨_,rfl,_⟩ | ⟨_,_,shift⟩
    · exact indexed
    · exact shift.indexed
  | setCanonical hash =>
    obtain ⟨record,u,_,_,shift⟩ := setCanonicalShift indexed h
    exact shift.indexed
  | setCanonicalBatch hashes =>
    obtain ⟨validated,u,_,_,_,shift⟩ := setCanonicalBatchShift indexed h
    exact shift.indexed
  | rollbackToHeight target =>
    obtain ⟨reverted,run⟩ := discardOk h
    obtain ⟨tip,_,_,_,_,⟨_,_,rfl⟩ | back⟩ := @rollbackOk crates _ _ _ _ run
    · exact indexed
    · obtain ⟨found,_,shift⟩ := rollbackShift indexed back
      exact shift.indexed
  | applyReorg ancestor hashes =>
    obtain ⟨result,run⟩ := discardOk h
    obtain ⟨plan,u,planned,fits,_,_,rfl⟩ := applyReorgOk run
    exact (applyReorgShift indexed planned fits).indexed
  | pruneBeforeHeight height =>
    obtain ⟨n,run⟩ := discardOk h
    rcases pruneRuns indexed run with ⟨⟨e,bad⟩,_⟩ | ⟨_,_,_,rfl⟩ | ⟨plan,u,pruning,_,rfl⟩
    · cases bad
    · exact indexed
    · exact (pruneShift indexed pruning).indexed
  | setTip tip => exact (setTipShift indexed h).indexed
  | putAttestation hash attested => exact (putAttestationQuiet h).indexed indexed
  | putCheckpoint checkpoint => exact (putCheckpointQuiet h).indexed indexed
  | pruneCheckpointsBeforeEpoch epoch =>
    obtain ⟨n,run⟩ := discardOk h
    exact (pruneCheckpointsQuiet run).indexed indexed
  | updateStatus hash status => exact (updateStatusQuiet h).indexed indexed
  | importSnapshot input =>
    obtain ⟨manifest,run⟩ := discardOk h
    obtain ⟨blocks,puts⟩ := importSnapshotOk run
    exact putsIndexed puts indexed
  | initDictionary => exact (initDictionaryQuiet h).indexed indexed
  | disableCanonicalBinAcceleration => exact (disableShift indexed h).indexed
  | invalidateBlockCacheEntry hash => exact (invalidateQuiet (.inl h)).indexed indexed
  | invalidateHeaderCacheEntry hash => exact (invalidateQuiet (.inr (.inl h))).indexed indexed
  | invalidateRecordCacheEntry hash => exact (invalidateQuiet (.inr (.inr h))).indexed indexed
  | compaction visited => exact (compactionQuiet h).indexed indexed

end Store

theorem takesIndexed {crates : Crates} {s t : Store} {action : Action} (indexed : s.Indexed)
    (h : Takes crates s action t) : t.Indexed := by
  cases action with
  | call c => exact Store.callIndexed indexed h
  | reopen config =>
    obtain ⟨disk,run⟩ := h
    obtain ⟨_,u,booted,touched⟩ := Store.openStoreOk run
    exact touched.quiet.indexed (Store.bootedIndexed indexed.typed indexed.tipRow booted).1
  | reopenReadonly path =>
    obtain ⟨disk,run⟩ := h
    obtain ⟨_,booted⟩ := Store.openReadonlyOk run
    exact (Store.bootedIndexed indexed.typed indexed.tipRow booted).1

theorem openedIndexed {crates : Crates} {s : Store} (opened : Opened crates s) :
    s.Indexed ∧ s.Coherent ∧ s.tip = none ∧ (∀ h, canonicalAt s.db h = none) := by
  obtain ⟨config,file,disk,run⟩ := opened
  obtain ⟨db,u,booted,touched⟩ := Store.openStoreOk run
  have typed : TypedRows fun _ : Cf => (∅ : Std.ExtTreeMap Bytes Bytes compare) := by
    intro k v row
    simp at row
  obtain ⟨indexed,same,tip,_,cache,_⟩ := @Store.bootedIndexed _ _ _ _ none typed (by simp) booted
  refine ⟨touched.quiet.indexed indexed,touched.quiet.coherent indexed (Store.cachelessCoherent cache),?_,fun h => ?_⟩
  · rw [touched.tip,tip]
  · rw [touched.db,same]
    simp [canonicalAt]

end DigBlockstore
