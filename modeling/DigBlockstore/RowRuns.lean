import DigBlockstore.RowFrames

/-! Runs of calls that end in any way: rows are only added, and a genesis over a row of its
own hash is the one call that can put another block there. -/
namespace DigBlockstore
open ByteCodec Faulty ColumnStore PartialMap Pipeline Trace
namespace Store
variable {crates : Crates} {s t u : Store} {inside : Cf → Bytes → Prop}

section Flush

theorem cacheRowWithin (row : StagedRow) : Within (OnStore (Untouched Beside)) (cacheRow crates row) :=
  withinBind (withinOnStore (withinMemory fun _ => rfl)) fun _ =>
    withinBind (withinOnStore (withinMemory fun _ => rfl)) fun _ =>
      withinBind (withinOnStore (withinMemory fun _ => rfl)) fun _ =>
        withinBind (withinAttempt (withinOnStore (withinTrain besideMetadata))) fun answer => by
          cases answer <;> exact withinSend _ _

theorem writeBinsWithin (rows : List StagedRow) : Within (Untouched inside) (writeBins rows) :=
  withinForEach rows fun row _ => by
    split
    · exact withinOnBin _
    · exact withinPure _

theorem addStaged {staged : List StagedRow} (distinct : (staged.map StagedRow.hash).Nodup)
    (rows : ∀ row ∈ staged, (s.db .blocks)[hashKey row.hash]? = none ∧ Encodes crates row.block row.compressed ∧
      crates.serializeHeader row.block.header = .ok row.headerBytes) :
    Adds crates s (s.commit (staged.flatMap rowWrites)) := by
  induction staged generalizing s with
  | nil => exact refl_of _ _
  | cons row rest ih =>
    obtain ⟨fresh,distinct⟩ := List.nodup_cons.mp distinct
    obtain ⟨absent,body,header⟩ := rows row (by simp)
    have first : Adds crates s (s.commit (rowWrites row)) := addBody absent body header canonicalBeside
    have later : Adds crates (s.commit (rowWrites row)) ((s.commit (rowWrites row)).commit (rest.flatMap rowWrites)) := by
      refine ih distinct fun other mem => ?_
      obtain ⟨absent',body',header'⟩ := rows other (List.mem_cons_of_mem _ mem)
      refine ⟨?_,body',header'⟩
      have apart : other.hash ≠ row.hash := fun same => fresh (same ▸ List.mem_map_of_mem mem)
      change (applyAll (rowWrites row) s.db .blocks)[hashKey other.hash]? = none
      rw [rowWritesColumn row (.inl rfl),bodyRowsRow,if_neg (by simp),if_neg fun here => apart (hashKeyInj.mp here.2)]
      exact absent'
    have split : (s.commit (rowWrites row)).commit (rest.flatMap rowWrites) = s.commit ((row :: rest).flatMap rowWrites) := by
      rw [List.flatMap_cons]
      unfold commit
      rw [applyAllAppend]
    rw [split] at later
    exact trans_of _ first later

theorem flushBatchAdds (jobs : List PipelineJob) : Within (Adds crates) (Store.flushPipelineBatch crates jobs) :=
  flushBatchWithin {
    rows := fun _ _ plan => addStaged plan.distinct fun row mem =>
      have staged := plan.rows row mem
      ⟨staged.absent,serializeBlockEncodes staged.body,serializeHeaderOk staged.header⟩
    bins := fun rows => Within.adds (writeBinsWithin rows)
    cache := fun row _ _ => (cacheRowWithin row).mono fun _ _ => Untouched.adds }

end Flush

section Calls

/- No block stored under the hash of the genesis block is another block. -/
def Unclaimed (crates : Crates) (s : Store) (block : L2Block) : Prop :=
  ∀ raw found, (s.db .blocks)[hashKey (block.hash crates)]? = some raw → Encodes crates found raw → found = block

def Grows (crates : Crates) (s t : Store) : Prop :=
  Stocked crates s → Stocked crates t ∧
    (∀ key raw : Bytes, (s.db .blocks)[key]? = some raw → ∃ raw', (t.db .blocks)[key]? = some raw' ∧
      ∀ block, Encodes crates block raw → Encodes crates block raw') ∧
    ∀ key raw : Bytes, (s.db .headers)[key]? = some raw → (t.db .headers)[key]? = some raw

instance : IsPreorder Store (Grows crates) where
  refl _ stocked := ⟨stocked,fun _ raw row => ⟨raw,row,fun _ encodes => encodes⟩,fun _ _ row => row⟩
  trans _ _ _ first later stocked := by
    obtain ⟨middle,blocks,headers⟩ := first stocked
    obtain ⟨last,blocks',headers'⟩ := later middle
    refine ⟨last,fun key raw row => ?_,fun key raw row => headers' key raw (headers key raw row)⟩
    obtain ⟨raw',row',same⟩ := blocks key raw row
    obtain ⟨raw'',row'',same'⟩ := blocks' key raw' row'
    exact ⟨raw'',row'',fun block encodes => same' block (same block encodes)⟩

theorem Adds.grows (adds : Adds crates s t) : Grows crates s t := fun stocked =>
  have ⟨after,rows⟩ := adds stocked
  ⟨after,fun key raw row => ⟨raw,rows _ key raw (.inl rfl) row,fun _ encodes => encodes⟩,
    fun key raw row => rows _ key raw (.inr rfl) row⟩

theorem genesisRowsSplit (block : L2Block) (compressed headerBytes : Bytes) :
    ∃ more, (∀ write ∈ more, Beside write.column []) ∧ genesisRows crates block compressed headerBytes =
      bodyRows (block.hash crates) compressed headerBytes ++ more := by
  refine ⟨_,fun write mem => ?_,rfl⟩
  simp only [List.mem_cons,List.not_mem_nil,or_false] at mem
  rcases mem with rfl | rfl | rfl <;> exact ⟨by simp [canonicalRow,ColumnStore.Write.column],by simp [canonicalRow,ColumnStore.Write.column]⟩

theorem genesisGrows {block : L2Block} {compressed headerBytes : Bytes} (unclaimed : Unclaimed crates s block)
    (body : Encodes crates block compressed) (header : crates.serializeHeader block.header = .ok headerBytes) :
    Grows crates s (s.commit (genesisRows crates block compressed headerBytes)) := by
  obtain ⟨more,aside,rows⟩ := @genesisRowsSplit crates block compressed headerBytes
  rw [rows]
  cases present : (s.db .blocks)[hashKey (block.hash crates)]? with
  | none => exact (addBody present body header aside).grows
  | some raw =>
    intro stocked
    obtain ⟨found,headerRaw,encodes,headerRow,same⟩ := stocked.body _ _ present
    obtain rfl := unclaimed raw found present encodes
    obtain rfl : headerRaw = headerBytes := Except.ok.inj (same.symm.trans header)
    have rows {cf : Cf} := fun side =>
      @getBodyRows s (found.hash crates) compressed headerRaw more aside cf side
    have headers : ∀ key : Bytes, ((s.commit (bodyRows (found.hash crates) compressed headerRaw ++ more)).db .headers)[key]? =
        (s.db .headers)[key]? := fun key => by
      rw [rows (.inr rfl)]
      split
      · rename_i here
        rw [here.2]
        exact headerRow.symm
      · rw [if_neg (by simp)]
    have elsewhere : ∀ key : Bytes, key ≠ hashKey (found.hash crates) →
        ((s.commit (bodyRows (found.hash crates) compressed headerRaw ++ more)).db .blocks)[key]? =
          (s.db .blocks)[key]? := fun key apart => by
      rw [rows (.inl rfl),if_neg (by simp),if_neg fun here => apart here.2]
    have here : ((s.commit (bodyRows (found.hash crates) compressed headerRaw ++ more)).db .blocks)[hashKey (found.hash crates)]? =
        some compressed := by
      rw [rows (.inl rfl),if_neg (by simp),if_pos ⟨rfl,rfl⟩]
    refine ⟨⟨fun key raw' row => ?_,fun key row => ?_⟩,fun key raw' row => ?_,fun key raw' row => ?_⟩
    · rw [headers]
      by_cases apart : key = hashKey (found.hash crates)
      · subst apart
        rw [here] at row
        cases row
        exact ⟨found,headerRaw,body,headerRow,header⟩
      · rw [elsewhere key apart] at row
        exact stocked.body key raw' row
    · rw [headers] at row
      by_cases apart : key = hashKey (found.hash crates)
      · rw [apart,here]
        rfl
      · rw [elsewhere key apart]
        exact stocked.header key row
    · by_cases apart : key = hashKey (found.hash crates)
      · subst apart
        rw [present] at row
        cases row
        refine ⟨compressed,here,fun block encodes' => ?_⟩
        rw [unclaimed _ block present encodes']
        exact body
      · exact ⟨raw',by rw [elsewhere key apart]; exact row,fun _ encodes' => encodes'⟩
    · rw [headers]
      exact row

theorem initGenesisGrows {block : L2Block} {r : Exit Unit} (unclaimed : s.Founds block → Unclaimed crates s block)
    (h : Runs (initGenesis crates block) s r t) : Grows crates s t := by
  rcases initGenesisRuns h with rfl | ⟨compressed,headerBytes,body,header,founds,later⟩
  · exact refl_of _ _
  · have written := genesisGrows (unclaimed founds) (serializeBlockEncodes body) (serializeHeaderOk header)
    have tail : Within (Untouched Beside) (genesisTail crates block) :=
      withinBind (withinOnBin _) fun _ => withinBind (withinMemory fun _ => rfl) fun _ =>
        withinBind (withinMemory fun _ => rfl) fun _ => withinBind (withinMemory fun _ => rfl) fun _ =>
          withinBind (withinMemory fun _ => rfl) fun _ => withinTrain besideMetadata
    exact trans_of _ written (tail _ _ _ later).adds.grows

theorem withinColumn (cf : Cf) {batch : List Write} (column : ∀ write ∈ batch, write.column = cf)
    (beside : Beside cf []) : Within (Untouched Beside) (write batch) :=
  withinWrite fun write mem cf' key out => effectOtherColumn (fun same => out (by
    rw [← same,column write mem]
    exact beside)) _

theorem putAttestationWithin (hash : Bytes32) (attested : AttestedBlock) :
    Within (Untouched Beside) (putAttestation crates hash attested) :=
  withinBind (withinRefuse _) fun _ => withinBind (withinOfExcept _) fun _ =>
    withinColumn .attested (fun _ mem => by rw [List.mem_singleton.mp mem]; rfl) ⟨by simp,by simp⟩

theorem putCheckpointWithin (checkpoint : StoredCheckpoint) : Within (Untouched Beside) (putCheckpoint crates checkpoint) :=
  withinBind (withinRefuse _) fun _ => withinBind (withinOfExcept _) fun _ =>
    withinColumn .checkpoints (fun _ mem => by rw [List.mem_singleton.mp mem]; rfl) ⟨by simp,by simp⟩

theorem pruneCheckpointsWithin (epoch : UInt64) : Within (Untouched Beside) (pruneCheckpointsBeforeEpoch epoch) :=
  withinBind (withinRefuse _) fun _ => by
    split
    · exact withinPure _
    · refine withinBind withinGet fun s => ?_
      dsimp only
      split
      · refine withinBind (withinColumn .checkpoints (fun write mem => ?_) ⟨by simp,by simp⟩) fun _ => withinPure _
        obtain ⟨key,_,rfl⟩ := List.mem_map.mp mem
        rfl
      · exact withinPure _

theorem updateStatusWithin (hash : Bytes32) (status : BlockStatus) :
    Within (Untouched inside) (updateStatus crates hash status) :=
  withinBind withinGet fun s => by
    split
    · exact withinError _
    · exact withinMemory fun _ => rfl

end Calls

/- The calls that prune nothing, with a genesis that is not refused only where it is unclaimed. -/
def Sparing (crates : Crates) (s : Store) : Call → Prop
  | .pruneBeforeHeight _ => False
  | .compaction _ => s.compactionPruning = false
  | .initGenesis block => s.Founds block → Unclaimed crates s block
  | _ => True

theorem callGrows {c : Call} {r : Exit Unit} (sparing : Sparing crates s c) (h : Runs (call crates c) s r t) :
    Grows crates s t := by
  cases c with
  | read r => exact (untouchedDb (readTouched h).db : Untouched Beside s t).adds.grows
  | initGenesis block => exact initGenesisGrows sparing h
  | putBlock block canonical => exact (withinDiscard (putBlockAdds block canonical) _ _ _ h).grows
  | flush jobs =>
    exact (withinBind (flushBatchAdds jobs) (fun acks =>
      withinForEach acks fun _ _ => withinDiscard (withinOfExcept _)) _ _ _ h).grows
  | extendChain block => exact (withinDiscard (extendChainWithin (putBlockAdds block true) fun tip => Within.switched (setTipWithin tip)) _ _ _ h).grows
  | setCanonical hash => exact (Within.switched (setCanonicalWithin hash) _ _ _ h).grows
  | setCanonicalBatch hashes => exact (Within.switched (setCanonicalBatchWithin hashes) _ _ _ h).grows
  | rollbackToHeight target => exact (Within.switched (withinDiscard (rollbackWithin crates target)) _ _ _ h).grows
  | applyReorg ancestor hashes => exact (Within.switched (withinDiscard (applyReorgWithin ancestor hashes)) _ _ _ h).grows
  | pruneBeforeHeight height => exact sparing.elim
  | setTip tip => exact (Within.switched (setTipWithin tip) _ _ _ h).grows
  | putAttestation hash attested => exact (Within.adds (putAttestationWithin hash attested) _ _ _ h).grows
  | putCheckpoint checkpoint => exact (Within.adds (putCheckpointWithin checkpoint) _ _ _ h).grows
  | pruneCheckpointsBeforeEpoch epoch => exact (Within.adds (withinDiscard (pruneCheckpointsWithin epoch)) _ _ _ h).grows
  | updateStatus hash status => exact (Within.adds (updateStatusWithin hash status) _ _ _ h).grows
  | importSnapshot input => exact (withinDiscard (importSnapshotWithin (fun block => putBlockAdds block true) input) _ _ _ h).grows
  | initDictionary => exact ((withinMemory fun _ => rfl : Within (Untouched Beside) initDictionary) _ _ _ h).adds.grows
  | disableCanonicalBinAcceleration => exact ((withinMemory fun _ => rfl : Within (Untouched Beside) disableCanonicalBinAcceleration) _ _ _ h).adds.grows
  | invalidateBlockCacheEntry hash => exact ((withinMemory fun _ => rfl : Within (Untouched Beside) (invalidateBlockCacheEntry hash)) _ _ _ h).adds.grows
  | invalidateHeaderCacheEntry hash => exact ((withinMemory fun _ => rfl : Within (Untouched Beside) (invalidateHeaderCacheEntry hash)) _ _ _ h).adds.grows
  | invalidateRecordCacheEntry hash => exact ((withinMemory fun _ => rfl : Within (Untouched Beside) (invalidateRecordCacheEntry hash)) _ _ _ h).adds.grows
  | compaction visited =>
    rw [(runsModify.mp (show Runs (compaction crates visited) s r t from h)).2,
      if_neg (by rw [show s.compactionPruning = false from sparing]; simp)]
    exact refl_of _ _

end Store

/- The action ends, in whatever way. A directory is opened with whatever file lies in it. -/
def Attempts (crates : Crates) (s : Store) (action : Action) (t : Store) : Prop :=
  match action with
  | .call c => ∃ r, Runs (Store.call crates c) s r t
  | .reopen config => ∃ file disk, Runs (Store.openStore crates config) ⟨s.db,file⟩ (.ok t) disk
  | .reopenReadonly path => ∃ file disk, Runs (Store.openReadonly crates path) ⟨s.db,file⟩ (.ok t) disk

theorem takesAttempts {crates : Crates} {s t : Store} {action : Action} (h : Takes crates s action t) :
    Attempts crates s action t := by
  cases action with
  | call c => exact ⟨_,h⟩
  | reopen config =>
    obtain ⟨disk,run⟩ := h
    exact ⟨_,disk,run⟩
  | reopenReadonly path =>
    obtain ⟨disk,run⟩ := h
    exact ⟨_,disk,run⟩

def Sparing (crates : Crates) (s : Store) : Action → Prop
  | .call c => s.Sparing crates c
  | .reopen _ | .reopenReadonly _ => True

theorem attemptsGrows {crates : Crates} {s t : Store} {action : Action}
    (h : Guarded (Sparing crates) (Attempts crates) s action t) : s.Grows crates t := by
  obtain ⟨sparing,taken⟩ := h
  cases action with
  | call c =>
    obtain ⟨_,run⟩ := taken
    exact Store.callGrows sparing run
  | reopen config =>
    obtain ⟨_,_,run⟩ := taken
    obtain ⟨_,u,booted,touched⟩ := Store.openStoreOk run
    obtain ⟨_,_,_,rfl,_⟩ := booted.built
    exact (Store.untouchedDb touched.db : s.Untouched Store.Beside t).adds.grows
  | reopenReadonly path =>
    obtain ⟨_,_,run⟩ := taken
    obtain ⟨_,_,_,built,_⟩ := (Store.openReadonlyOk run).2.built
    have same : t.db = s.db := by rw [built]; rfl
    exact (Store.untouchedDb same : s.Untouched Store.Beside t).adds.grows

theorem attemptsRunGrows {crates : Crates} {s t : Store} {actions : List Action}
    (run : Run (Guarded (Sparing crates) (Attempts crates)) s actions t) : s.Grows crates t := by
  induction run with
  | nil => exact refl_of _ _
  | cons first _ ih => exact trans_of _ (attemptsGrows first) ih

theorem openedStocked {crates : Crates} {s : Store} (opened : Opened crates s) : s.Stocked crates := by
  obtain ⟨config,file,disk,run⟩ := opened
  obtain ⟨_,u,booted,touched⟩ := Store.openStoreOk run
  obtain ⟨_,_,_,rfl,_⟩ := booted.built
  have empty : ∀ cf, s.db cf = ∅ := fun cf => by rw [touched.db]; rfl
  refine ⟨fun key raw row => ?_,fun key row => ?_⟩
  · rw [empty,Std.ExtTreeMap.getElem?_empty] at row
    cases row
  · rw [empty,Std.ExtTreeMap.getElem?_empty] at row
    cases row

namespace Store

/- Every block row is still there and decodes to no other block, whatever the dictionaries,
and every header row is as it was. -/
structure RowsKept (crates : Crates) (s t : Store) : Prop where
  blocks : ∀ key raw : Bytes, (s.db .blocks)[key]? = some raw → ∃ raw', (t.db .blocks)[key]? = some raw' ∧
    ∀ (u v : Store) (block block' : L2Block), u.deserializeBlock crates raw = .ok block →
      v.deserializeBlock crates raw' = .ok block' → block' = block
  headers : ∀ key raw : Bytes, (s.db .headers)[key]? = some raw → (t.db .headers)[key]? = some raw

/- The calls that move the canonical chain or the tip and store nothing. -/
inductive Switch : Call → Prop where
  | rollback (target : UInt64) : Switch (.rollbackToHeight target)
  | reorg (ancestor : UInt64) (hashes : List Bytes32) : Switch (.applyReorg ancestor hashes)
  | set (hash : Bytes32) : Switch (.setCanonical hash)
  | batch (hashes : List Bytes32) : Switch (.setCanonicalBatch hashes)
  | tip (tip : ChainTip) : Switch (.setTip tip)

theorem switchWithin {crates : Crates} {c : Call} (switch : Switch c) : Within (Untouched Switched) (call crates c) := by
  cases switch with
  | rollback target => exact withinDiscard (rollbackWithin crates target)
  | reorg ancestor hashes => exact withinDiscard (applyReorgWithin ancestor hashes)
  | set hash => exact setCanonicalWithin hash
  | batch hashes => exact setCanonicalBatchWithin hashes
  | tip tip => exact setTipWithin tip

end Store

/- Between two states of a run, rows are kept; and a switch from there changes only canonical
rows and the tip. -/
theorem rowsOutliveRuns {crates : Crates} (lawful : crates.Lawful) {start s t : Store} {before later : List Action}
    (opened : Opened crates start) (reached : Run (Guarded (Sparing crates) (Attempts crates)) start before s)
    (goes : Run (Guarded (Sparing crates) (Attempts crates)) s later t) :
    s.RowsKept crates t ∧ ∀ c, Store.Switch c → ∀ r u, Runs (Store.call crates c) s r u →
      s.Untouched Store.Switched u := by
  obtain ⟨stocked,_,_⟩ := attemptsRunGrows reached (openedStocked opened)
  obtain ⟨_,blocks,headers⟩ := attemptsRunGrows goes stocked
  refine ⟨⟨fun key raw row => ?_,headers⟩,fun c switch r u run => Store.switchWithin switch _ _ _ run⟩
  obtain ⟨raw',row',same⟩ := blocks key raw row
  obtain ⟨found,_,encodes,_,_⟩ := stocked.body key raw row
  refine ⟨raw',row',fun u v block block' one two => ?_⟩
  rw [Store.deserializeEncoded lawful encodes one,Store.deserializeEncoded lawful (same found encodes) two]

namespace Store

def spares (crates : Crates) (s : Store) : Call → Bool
  | .pruneBeforeHeight _ => false
  | .compaction _ => !s.compactionPruning
  | .initGenesis block => (s.db .blocks)[hashKey (block.hash crates)]?.isNone
  | _ => true

theorem sparesSparing {crates : Crates} (s : Store) (c : Call) (h : spares crates s c = true) :
    DigBlockstore.Sparing crates s (.call c) := by
  cases c with
  | pruneBeforeHeight height => cases h
  | compaction visited =>
    have off : (!s.compactionPruning) = true := h
    rwa [Bool.not_eq_true'] at off
  | initGenesis block =>
    intro _ raw found row _
    have absent : (s.db .blocks)[hashKey (block.hash crates)]?.isNone = true := h
    rw [row] at absent
    cases absent
  | _ => trivial

theorem execGetD {test : Store → Call → Bool} {calls : List Call} {s : Store}
    (done : (exec crates test calls s).isSome = true) :
    exec crates test calls s = some ((exec crates test calls s).getD s) := by
  obtain ⟨t,ran⟩ := Option.isSome_iff_exists.mp done
  rw [ran]
  rfl

theorem sparingRun {calls : List Call} {s : Store} (done : (exec crates (spares crates) calls s).isSome = true) :
    Run (Guarded (DigBlockstore.Sparing crates) (Attempts crates)) s (calls.map .call)
      ((exec crates (spares crates) calls s).getD s) := by
  exact (execRun sparesSparing (execGetD done)).mono fun _ _ _ both => ⟨both.1,takesAttempts both.2⟩

end Store

namespace Sample

def rootBody (body : Bytes) : L2Block := {block 0 0 1 with body := body}

def rootAside : Store := .after crates (fun _ _ => true) config [.putBlock (rootBody []) false]

def rootCalls : List Call := [.putBlock (rootBody []) false]

def rootPut : Store :=
  (Store.exec crates (Store.spares crates) rootCalls (.created config)).getD (.created config)

def forkCalls : List Call := [.putBlock (rootBody [7]) true,.extendChain (block 1 1 2),.rollbackToHeight 0]

def rootForked : Store := (Store.exec crates (Store.spares crates) forkCalls rootPut).getD rootPut

end Sample

theorem rowsOutliveRunsSample : Opened Sample.crates (Store.created Sample.config) ∧
    (Sample.rootPut.db .blocks).size = 1 ∧ (Sample.rootForked.db .blocks).size = 2 ∧
    Sample.rootPut.RowsKept Sample.crates Sample.rootForked :=
  have opened := Store.createdOpened Sample.crates Sample.config
  have one := @Store.sparingRun Sample.crates Sample.rootCalls (.created Sample.config) (by decide +kernel)
  have two := @Store.sparingRun Sample.crates Sample.forkCalls Sample.rootPut (by decide +kernel)
  ⟨opened,by decide +kernel,by decide +kernel,(rowsOutliveRuns Sample.lawful opened one two).1⟩

/- A genesis over a block put aside replaces its body. -/
theorem genesisReplacesBody : Reaches Sample.crates Sample.rootAside ∧
    (Store.initGenesis Sample.crates (Sample.rootBody [7]) ⟨Sample.rootAside,[]⟩).1 = .ok () ∧
    Sample.rootAside.bodyAt Sample.crates (Sample.hash 1) = some (Sample.rootBody []) ∧
    (Store.initGenesis Sample.crates (Sample.rootBody [7]) ⟨Sample.rootAside,[]⟩).2.state.bodyAt Sample.crates
      (Sample.hash 1) = some (Sample.rootBody [7]) :=
  ⟨Store.afterReaches (by decide +kernel),by decide +kernel,by decide +kernel,by decide +kernel⟩

end DigBlockstore
