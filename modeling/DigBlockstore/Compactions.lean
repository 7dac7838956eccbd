import DigBlockstore.PruneSteps
import DigBlockstore.Sample

/-! Compaction among puts, attestations, prunes and reopens, their steps in any order. Every row
of the three filtered columns belongs to a block under its hash, so a filter can decode it to
no other height. -/
namespace DigBlockstore
open ByteCodec Faulty ColumnStore

inductive RowOf (crates : Crates) (block : L2Block) : Cf → Bytes → Bytes → Prop where
  | body {value : Bytes} (encodes : Encodes crates block value) :
      RowOf crates block .blocks (hashKey (block.hash crates)) value
  | header {value : Bytes} (encoded : crates.serializeHeader block.header = .ok value) :
      RowOf crates block .headers (hashKey (block.hash crates)) value
  | attested {attested : AttestedBlock} {value : Bytes} (own : attested.block = block)
      (encoded : crates.serializeAttested attested = .ok value) :
      RowOf crates block .attested (hashKey (block.hash crates)) value

def Filtered (cf : Cf) : Prop := cf = .blocks ∨ cf = .headers ∨ cf = .attested

theorem RowOf.filtered {crates : Crates} {block : L2Block} {cf : Cf} {key value : Bytes}
    (own : RowOf crates block cf key value) : Filtered cf := by
  cases own with
  | body _ => exact .inl rfl
  | header _ => exact .inr (.inl rfl)
  | attested _ _ => exact .inr (.inr rfl)

theorem RowOf.key {crates : Crates} {block : L2Block} {cf : Cf} {key value : Bytes}
    (own : RowOf crates block cf key value) : key = hashKey (block.hash crates) := by
  cases own <;> rfl

theorem RowOf.encodedHeader {crates : Crates} {block : L2Block} {key value : Bytes} (own : RowOf crates block .headers key value) :
    crates.serializeHeader block.header = .ok value := by
  cases own with
  | header encoded => exact encoded

def Named (crates : Crates) (height : UInt64) (hash : Bytes32) : Prop :=
  ∃ header : L2BlockHeader, crates.headerHash header = hash ∧ header.height = height

/- bincode reads back the attested block it wrote. -/
def Crates.Attests (crates : Crates) : Prop :=
  ∀ attested raw, crates.serializeAttested attested = .ok raw → crates.deserializeAttested raw = .ok attested

structure Belonging (crates : Crates) (db : Db) : Prop where
  rows : ∀ (cf : Cf) (key value : Bytes), Filtered cf → (db cf)[key]? = some value → ∃ block, RowOf crates block cf key value
  index : ∀ h x, canonicalAt db h = some x → Named crates h x

def CanonicalBin.Labelled (label : UInt64 → Bytes32 → Prop) (bin : CanonicalBin) : Prop :=
  (∃ d, bin = .rw d ∧ d.mapped = false) ∨
    bin.Ready ∧ bin.writable = true ∧ ∀ h x, bin.answer h = some x → label h x

namespace Store
variable {crates : Crates} {s t : Store}

structure Rowed (crates : Crates) (s : Store) : Prop where
  db : Belonging crates s.db
  slots : s.canonicalBin.Labelled (Named crates)
  cache : ∀ h x, s.canonicalHeightCache[h]? = some x → Named crates h x

/- A row that goes is of a block below the floor in force, or of the hash of a header below the
floor the database holds afterwards. -/
def Spared (crates : Crates) (s t : Store) : Prop :=
  ∀ (block : L2Block) (cf : Cf) (key value : Bytes), (s.db cf)[key]? = some value → RowOf crates block cf key value →
    (t.db cf)[key]? = none → block.height < s.minRetainedHeightCached ∨
      ∃ height, Named crates height (block.hash crates) ∧ height < loadFloor t.db

section Filters

theorem filterSpares (lawful : crates.Lawful) (attests : crates.Attests) {block : L2Block} {cf : Cf} {key value : Bytes}
    {floor : UInt64} (row : RowOf crates block cf key value) (above : floor ≤ block.height) :
    filterRemoves crates floor cf value = false := by
  have kept : ¬block.height < floor := UInt64.not_lt.mpr above
  unfold filterRemoves
  split
  · rfl
  · cases row with
    | body encodes =>
      obtain ⟨raw,serialized,packed⟩ := encodes
      dsimp only
      split
      · rfl
      · rename_i raw' decoded
        rw [lawful.decodeAll raw value raw' packed decoded,lawful.block block raw serialized]
        exact decide_eq_false kept
    | header encoded =>
      dsimp only
      rw [lawful.header block.header value encoded]
      exact decide_eq_false kept
    | attested own encoded =>
      dsimp only
      rw [attests _ value encoded]
      subst own
      exact decide_eq_false kept

theorem compactedAside (visited : Cf → Bytes → Bool) {cf : Cf} (aside : ¬Filtered cf) :
    (s.compacted crates visited).db cf = s.db cf :=
  compactedColumn visited fun value => by
    unfold filterRemoves
    split
    · rfl
    · cases cf with
      | blocks => exact absurd (.inl rfl) aside
      | headers => exact absurd (.inr (.inl rfl)) aside
      | attested => exact absurd (.inr (.inr rfl)) aside
      | _ => rfl

theorem compactionSpares (lawful : crates.Lawful) (attests : crates.Attests) (visited : Cf → Bytes → Bool) {block : L2Block}
    {cf : Cf} {key value : Bytes} (row : (s.db cf)[key]? = some value) (own : RowOf crates block cf key value)
    (above : s.minRetainedHeightCached ≤ block.height) : ((s.compacted crates visited).db cf)[key]? = some value := by
  rw [compactedRow,row,Option.filter_some,filterSpares lawful attests own above]
  simp

end Filters

section Batches

/- The writes of the calls: rows of blocks, canonical rows under the height of a header with the
hash, metadata, and deletes. -/
inductive Fair (crates : Crates) : Write → Prop where
  | row {block : L2Block} {cf : Cf} {key value : Bytes} (own : RowOf crates block cf key value) : Fair crates (.put cf key value)
  | canonical {height : UInt64} {hash : Bytes32} (named : Named crates height hash) : Fair crates (canonicalRow height hash)
  | metadata (key value : Bytes) : Fair crates (.put .metadata key value)
  | delete (cf : Cf) (key : Bytes) : Fair crates (.delete cf key)

theorem canonicalUnfiltered : ¬Filtered .canonical := by rintro (bad | bad | bad) <;> cases bad

theorem metadataUnfiltered : ¬Filtered .metadata := by rintro (bad | bad | bad) <;> cases bad

theorem belongingBatch {batch : List Write} {db : Db} (belonging : Belonging crates db) (fair : ∀ write ∈ batch, Fair crates write) :
    Belonging crates (applyAll batch db) where
  rows cf key value filtered held := by
    rcases appliedSome held with put | older
    · generalize same : (.put cf key value : Write) = write at put
      cases fair write put with
      | row own =>
        cases same
        exact ⟨_,own⟩
      | canonical named =>
        cases same
        exact absurd filtered canonicalUnfiltered
      | metadata key value =>
        cases same
        exact absurd filtered metadataUnfiltered
      | delete cf key => cases same
    · exact belonging.rows cf key value filtered older
  index h x found := by
    obtain ⟨value,held,decoded⟩ := Option.bind_eq_some_iff.mp found
    rcases appliedSome held with put | older
    · generalize same : (.put .canonical (heightKey h) value : Write) = write at put
      cases fair write put with
      | row own =>
        cases same
        exact absurd own.filtered canonicalUnfiltered
      | @canonical height hash named =>
        injection same with _ keys values
        rw [heightKeyInj.mp keys]
        rw [values,hashKey,Bytes32.ofBytesBytes] at decoded
        exact Option.some.inj decoded ▸ named
      | metadata key value => cases same
      | delete cf key => cases same
    · exact belonging.index h x (Option.bind_eq_some_iff.mpr ⟨value,older,decoded⟩)

theorem rowedCommit {batch : List Write} (rowed : Rowed crates s) (fair : ∀ write ∈ batch, Fair crates write) :
    Rowed crates (s.commit batch) := ⟨belongingBatch rowed.db fair,rowed.slots,rowed.cache⟩

theorem sparedPuts {batch : List Write} (puts : ∀ cf key, .delete cf key ∉ batch) : Spared crates s (s.commit batch) :=
  fun _ cf key _ held _ gone => absurd (appliedNone held gone) (puts cf key)

theorem sparedSame (same : t.db = s.db) : Spared crates s t := fun _ cf key value held _ gone => by
  rw [same,held] at gone
  cases gone

theorem rowedSame (rowed : Rowed crates s) (db : t.db = s.db) (bin : t.canonicalBin = s.canonicalBin)
    (cache : t.canonicalHeightCache = s.canonicalHeightCache) : Rowed crates t := by
  obtain ⟨belonging,slots,held⟩ := rowed
  rw [← db] at belonging
  rw [← bin] at slots
  rw [← cache] at held
  exact ⟨belonging,slots,held⟩

theorem rowedCompacted (visited : Cf → Bytes → Bool) (rowed : Rowed crates s) : Rowed crates (s.compacted crates visited) where
  db := {
    rows := fun cf key value filtered held => by
      rw [compactedRow] at held
      exact rowed.db.rows cf key value filtered (Option.filter_eq_some_iff.mp held).1
    index := fun h x found => by
      unfold canonicalAt at found
      rw [compactedAside visited canonicalUnfiltered] at found
      exact rowed.db.index h x found }
  slots := rowed.slots
  cache := rowed.cache

theorem sparedCompacted (lawful : crates.Lawful) (attests : crates.Attests) (visited : Cf → Bytes → Bool) :
    Spared crates s (s.compacted crates visited) := by
  intro block cf key value held own gone
  by_contra kept
  obtain ⟨above,_⟩ := not_or.mp kept
  rw [compactionSpares lawful attests visited held own (UInt64.not_lt.mp above)] at gone
  cases gone

end Batches

section Slots

theorem writeHashStops {d d' : CanonicalDenseFile} {height : UInt64} {hash : Bytes32} {e : Stop BlockStoreError}
    (h : Runs (CanonicalDenseFile.writeHash height hash) d (.error e) d') : d' = d ∨ d'.mapped = false := by
  unfold CanonicalDenseFile.writeHash at h
  split at h
  · exact .inl (runsError.mp h).2
  · rw [runsGetBind] at h
    split at h
    · exact .inl (runsStop.mp h).2
    · rcases runsBind h with ⟨_,v,_,last⟩ | ⟨_,_,growing⟩
      · cases (runsModify.mp last).1
      · unfold CanonicalDenseFile.grow at growing
        split at growing
        · rcases CanonicalDenseFile.resizeRuns growing with ⟨bad,_⟩ | ⟨_,lost⟩
          · cases bad
          · exact .inr lost
        · cases (runsPure.mp growing).1

theorem writeHashUnmapped {d d' : CanonicalDenseFile} {height : UInt64} {hash : Bytes32} {r : Exit Unit}
    (unmapped : d.mapped = false) (h : Runs (CanonicalDenseFile.writeHash height hash) d r d') : d' = d := by
  unfold CanonicalDenseFile.writeHash at h
  split at h
  · exact (runsError.mp h).2
  · rw [runsGetBind,CanonicalDenseFile.lenBytes,if_neg (by simp [unmapped])] at h
    exact (runsStop.mp h).2

theorem labelledWrite {label : UInt64 → Bytes32 → Prop} {bin bin' : CanonicalBin} {height : UInt64} {hash : Bytes32} {r : Exit Unit}
    (labelled : bin.Labelled label) (here : label height hash) (h : Runs (CanonicalBin.extendWrite height hash) bin r bin') :
    bin'.Labelled label := by
  rcases labelled with ⟨d,rfl,unmapped⟩ | ⟨ready,writes,answers⟩
  · rcases CanonicalBin.onDenseRuns h with ⟨d₁,d₂,same,rfl,run⟩ | ⟨other,_,_⟩
    · cases same
      rw [writeHashUnmapped unmapped run]
      exact .inl ⟨d,rfl,unmapped⟩
    · exact absurd rfl (other d)
  · cases r with
    | ok v =>
      obtain ⟨_,rfl⟩ := CanonicalBin.extendWriteOk h
      refine .inr ⟨CanonicalBin.writtenReady ready height hash,by rw [CanonicalBin.writtenWritable]; exact writes,fun k x found => ?_⟩
      rcases CanonicalBin.answerWritten ready writes found with ⟨rfl,rfl⟩ | ⟨_,older⟩
      · exact here
      · exact answers k x older
    | error e =>
      rcases CanonicalBin.onDenseRuns h with ⟨d,d',rfl,rfl,run⟩ | ⟨_,bad,_⟩
      · rcases writeHashStops run with rfl | lost
        · exact .inr ⟨ready,writes,answers⟩
        · exact .inl ⟨d',rfl,lost⟩
      · cases bad

end Slots

section Steps
variable {α : Type} {P : α → Prop}

theorem keepsAside {access : Store → Access} {m : StoreM α}
    (aside : ∀ s r t, Runs m s r t → t.db = s.db ∧ t.canonicalBin = s.canonicalBin ∧
      t.canonicalHeightCache = s.canonicalHeightCache)
    (value : ∀ s a t, Rowed crates s → Runs m s (.ok a) t → P a) :
    (does access m).Keeps (Rowed crates) (Spared crates) P :=
  keepsAtom fun s r t rowed run =>
    have ⟨db,bin,cache⟩ := aside s r t run
    ⟨⟨rowedSame rowed db bin cache,sparedSame db⟩,fun a same => value s a t rowed (same ▸ run)⟩

theorem keepsAsk {access : Store → Access} {f : Store → α} (value : ∀ s, Rowed crates s → P (f s)) :
    (does access (ask f)).Keeps (Rowed crates) (Spared crates) P := by
  have asked : ∀ s r t, Runs (ask f) s r t → r = .ok (f s) ∧ t = s := fun s r t run => by
    unfold ask at run
    rw [runsGetBind] at run
    exact runsPure.mp run
  refine keepsAside (fun s r t run => ?_) fun s a t rowed run => ?_
  · rw [(asked s r t run).2]
    exact ⟨rfl,rfl,rfl⟩
  · rw [Except.ok.inj (asked s _ t run).1]
    exact value s rowed

theorem keepsAskOk {f : Store → Except BlockStoreError α} (value : ∀ s a, f s = .ok a → P a) :
    (other (askOk f)).Keeps (Rowed crates) (Spared crates) P := by
  refine keepsAside (fun s r t run => ?_) fun s a t _ run => ?_
  · unfold askOk at run
    rw [runsGetBind] at run
    rw [(runsOfExcept run).1]
    exact ⟨rfl,rfl,rfl⟩
  · unfold askOk at run
    rw [runsGetBind] at run
    exact value s a (runsOfExceptOk run).1

theorem keepsModify {f : Store → Store} (aside : ∀ s, (f s).db = s.db ∧ (f s).canonicalBin = s.canonicalBin ∧
    (f s).canonicalHeightCache = s.canonicalHeightCache) :
    (other (Op.modify f)).Keeps (Rowed crates) (Spared crates) fun _ => True :=
  keepsAside (fun s r t run => by rw [(runsModify.mp run).2]; exact aside s) fun _ _ _ _ _ => trivial

theorem keepsRefuse (message : String) : (other (refuseReadOnly message)).Keeps (Rowed crates) (Spared crates) fun _ => True :=
  keepsAside (fun s r t run => by rw [(refuseReadOnlyRuns run).1]; exact ⟨rfl,rfl,rfl⟩) fun _ _ _ _ _ => trivial

theorem keepsBatch {access : Store → Access} {batch : List Write} (fair : ∀ write ∈ batch, Fair crates write)
    (spared : ∀ s, Spared crates s (s.commit batch)) :
    (does access (write batch)).Keeps (Rowed crates) (Spared crates) fun _ => True :=
  keepsAtom fun s r t rowed run => by
    refine ⟨?_,fun _ _ => trivial⟩
    rcases writeRuns run with ⟨_,rfl⟩ | ⟨_,rfl⟩
    · exact ⟨rowedCommit rowed fair,spared s⟩
    · exact ⟨rowed,sparedSame rfl⟩

theorem keepsSlot {height : UInt64} {hash : Bytes32} (named : Named crates height hash) :
    (slotStep height hash).Keeps (Rowed crates) (Spared crates) fun _ => True :=
  keepsAtom fun s r t rowed run => by
    obtain ⟨bin,slot,rfl⟩ := runsZoom run
    exact ⟨⟨⟨rowed.db,labelledWrite rowed.slots named slot,rowed.cache⟩,sparedSame rfl⟩,fun _ _ => trivial⟩

theorem keepsHeightPut {access : Store → Access} {height : UInt64} {hash : Bytes32} (named : Named crates height hash) :
    (does access (Op.modify (insertCanonicalHeightCache height hash))).Keeps (Rowed crates) (Spared crates) fun _ => True :=
  keepsAtom fun s r t rowed run => by
    rw [(runsModify.mp run).2,insertHeightRest]
    refine ⟨⟨⟨rowed.db,rowed.slots,fun h x found => ?_⟩,sparedSame rfl⟩,fun _ _ => trivial⟩
    rcases insertHeightFound found with ⟨rfl,rfl⟩ | ⟨older,_⟩
    · exact named
    · exact rowed.cache h x older

theorem getHashByHeightKeeps (height : UInt64) : (getHashByHeightSteps height).Keeps (Rowed crates) (Spared crates)
    fun found => ∀ x, found = some x → Named crates height x := by
  unfold getHashByHeightSteps
  refine (keepsAsk (P := fun _ => True) fun _ _ => trivial).bind fun below _ => ?_
  split
  · exact keepsPure fun _ bad => by cases bad
  · refine (keepsAsk (P := fun found => ∀ x, found = some x → Named crates height x)
      fun s rowed x cached => rowed.cache height x cached).bind fun cached named => ?_
    cases cached with
    | some hash => exact keepsPure fun x same => Option.some.inj same ▸ named hash rfl
    | none =>
      have slot : (does (fun s => .slotRead height (s.canonicalBin.answer height)) (do
          let s ← Op.get
          Op.lift (s.canonicalBin.readHashBytes height))).Keeps (Rowed crates) (Spared crates)
            fun found => ∀ x, found = some x → Named crates height x := by
        refine keepsAside (fun s r t run => ?_) fun s a t rowed run x same => ?_
        · rw [runsGetBind] at run
          rw [(runsLift run).2]
          exact ⟨rfl,rfl,rfl⟩
        · rw [runsGetBind] at run
          have answer : s.canonicalBin.readHashBytes height = .ok a := (runsLift run).1.symm
          rcases rowed.slots with ⟨d,bin,unmapped⟩ | ⟨_,_,answers⟩
          · rw [bin,CanonicalBin.readHashBytes,CanonicalDenseFile.readSlotNonzeroBytes] at answer
            split at answer
            · cases answer
              cases same
            · rw [if_neg (by simp [unmapped])] at answer
              cases answer
          · exact answers height x (by rw [CanonicalBin.answer,answer]; exact same)
      refine slot.bind fun found named => ?_
      cases found with
      | some hash =>
        exact (keepsHeightPut (named hash rfl)).bind fun _ _ => keepsPure fun x same => Option.some.inj same ▸ named hash rfl
      | none =>
        refine (keepsAsk (P := fun row => ∀ x, row.bind Bytes32.ofBytes? = some x → Named crates height x)
          fun s rowed x found => rowed.db.index height x found).bind fun row named => ?_
        cases row with
        | none => exact keepsPure fun _ bad => by cases bad
        | some hashBytes =>
          dsimp only
          split
          · exact keepsStop _
          · rename_i hash decoded
            exact (keepsHeightPut (named hash decoded)).bind fun _ _ =>
              keepsPure fun x same => Option.some.inj same ▸ named hash decoded

end Steps

section Calls

theorem sampleKeeps (compressed : Bytes) : (sampleSteps crates compressed).Keeps (Rowed crates) (Spared crates) fun _ => True :=
  keepsAskOk fun _ _ _ => trivial

theorem trainKeeps : (maybeTrainDictionarySteps crates).Keeps (Rowed crates) (Spared crates) fun _ => True := by
  have asked {β : Type} {access : Store → Access} (f : Store → β) :
      (does access (ask f)).Keeps (Rowed crates) (Spared crates) fun _ => True := keepsAsk fun _ _ => trivial
  have set (f : Store → Option Bytes) :
      (other (Op.modify fun s => {s with zstdDict := f s})).Keeps (Rowed crates) (Spared crates) fun _ => True :=
    keepsModify fun _ => ⟨rfl,rfl,rfl⟩
  unfold maybeTrainDictionarySteps
  refine (asked _).bind fun used _ => ?_
  split
  · exact keepsPure trivial
  · refine (asked _).bind fun held _ => ?_
    split
    · exact keepsPure trivial
    · refine (asked _).bind fun loaded _ => ?_
      split
      · exact (asked _).bind fun dict _ => set fun _ => dict
      · refine (asked _).bind fun few _ => ?_
        split
        · exact keepsPure trivial
        · refine Proc.Keeps.bind (Q := fun _ => True) ?_ fun dict _ => set fun _ => some dict
          unfold trainDictionarySteps
          refine (asked _).bind fun found _ => ?_
          cases found with
          | some blob => exact keepsPure trivial
          | none =>
            refine Proc.Keeps.bind (Q := fun _ => True) ?_ fun samples _ => ?_
            · unfold sampleBlockBodiesSteps
              refine (asked _).bind fun blobs _ => ?_
              split
              · exact keepsAside (fun s r t run => by rw [(runsError.mp run).2]; exact ⟨rfl,rfl,rfl⟩) fun _ _ _ _ _ => trivial
              · exact keepsGather _ fun compressed _ => sampleKeeps compressed
            · refine Proc.Keeps.bind (Q := fun _ => True) ?_ fun dict _ => ?_
              · exact keepsAside (fun s r t run => by rw [(runsOfExcept run).1]; exact ⟨rfl,rfl,rfl⟩) fun _ _ _ _ _ => trivial
              · refine (keepsBatch (fun write mem => ?_) fun s => sparedPuts fun cf key mem => ?_).bind fun _ _ => keepsPure trivial
                · rw [List.mem_singleton.mp mem]
                  exact .metadata _ _
                · cases List.mem_singleton.mp mem

theorem putBatchFair {block : L2Block} {compressed headerBytes : Bytes} (canonical : Bool) (body : Encodes crates block compressed)
    (header : crates.serializeHeader block.header = .ok headerBytes) :
    ∀ write ∈ putBatch (block.hash crates) compressed headerBytes canonical block.height, Fair crates write := by
  intro write mem
  rcases List.mem_append.mp mem with rows | index
  · simp only [bodyRows,List.mem_cons,List.not_mem_nil,or_false] at rows
    rcases rows with rfl | rfl
    · exact .row (.body body)
    · exact .row (.header header)
  · split at index
    · rw [List.mem_singleton.mp index]
      exact .canonical ⟨block.header,rfl,rfl⟩
    · cases index

theorem putBatchPuts (hash : Bytes32) (compressed headerBytes : Bytes) (canonical : Bool) (height : UInt64) (cf : Cf) (key : Bytes) :
    .delete cf key ∉ putBatch hash compressed headerBytes canonical height := by
  cases canonical <;> simp [putBatch,bodyRows,canonicalRow]

theorem putBlockKeeps (block : L2Block) (canonical : Bool) :
    (putBlockSteps crates block canonical).Keeps (Rowed crates) (Spared crates) fun _ => True := by
  have named : Named crates block.height (block.hash crates) := ⟨block.header,rfl,rfl⟩
  unfold putBlockSteps
  refine (keepsRefuse _).bind fun _ _ => (keepsAsk (P := fun _ => True) fun _ _ => trivial).bind fun present _ => ?_
  split
  · exact keepsPure trivial
  · refine (keepsAskOk (P := Encodes crates block) fun s compressed packed => serializeBlockEncodes packed).bind
      fun compressed body => ?_
    refine Proc.Keeps.bind (Q := fun headerBytes => crates.serializeHeader block.header = .ok headerBytes) ?_
      fun headerBytes header => ?_
    · exact keepsAside (fun s r t run => by rw [(runsOfExcept run).1]; exact ⟨rfl,rfl,rfl⟩)
        fun s a t _ run => serializeHeaderOk (runsOfExceptOk run).1
    · refine (keepsBatch (putBatchFair canonical body header) fun s => sparedPuts (putBatchPuts _ _ _ _ _)).bind fun _ _ => ?_
      refine Proc.Keeps.bind (Q := fun _ => True) ?_ fun _ _ => ?_
      · unfold indexCanonicalSteps
        split
        · exact (keepsSlot named).bind fun _ _ => keepsHeightPut named
        · exact keepsPure trivial
      · exact .bind (keepsModify fun _ => ⟨rfl,rfl,rfl⟩) fun _ _ => .bind (keepsModify fun _ => ⟨rfl,rfl,rfl⟩) fun _ _ =>
          .bind (keepsModify fun _ => ⟨rfl,rfl,rfl⟩) fun _ _ => .bind (keepsModify fun _ => ⟨rfl,rfl,rfl⟩) fun _ _ =>
            .bind trainKeeps fun _ _ => keepsPure trivial

theorem putAttestationKeeps (attested : AttestedBlock) :
    (putAttestationSteps crates (attested.block.hash crates) attested).Keeps (Rowed crates) (Spared crates) fun _ => True := by
  unfold putAttestationSteps
  refine (keepsRefuse _).bind fun _ _ => ?_
  refine (keepsOfExcept (P := fun bytes => crates.serializeAttested attested = .ok bytes) fun bytes packed => ?_).bind
    fun bytes encoded => keepsBatch (fun write mem => ?_) fun s => sparedPuts fun cf key mem => ?_
  · cases made : crates.serializeAttested attested with
    | error why => rw [made] at packed; cases packed
    | ok found => rw [made] at packed; cases packed; rfl
  · rw [List.mem_singleton.mp mem]
    exact .row (.attested rfl encoded)
  · cases List.mem_singleton.mp mem

inductive Drops (crates : Crates) (height : UInt64) : Write → Prop where
  | body {hash : Bytes32} {h : UInt64} (cf : Cf) (named : Named crates h hash) (below : h < height) :
      Drops crates height (.delete cf (hashKey hash))
  | canonical (h : UInt64) : Drops crates height (.delete .canonical (heightKey h))

theorem bodyDrops {hash : Bytes32} {h height : UInt64} (named : Named crates h hash) (below : h < height) :
    ∀ write ∈ bodyDeletes hash, Drops crates height write := by
  intro write mem
  simp only [bodyDeletes,List.mem_cons,List.not_mem_nil,or_false] at mem
  rcases mem with rfl | rfl | rfl <;> exact .body _ named below

theorem pruneCanonicalKeeps {heights : List UInt64} {height : UInt64} (below : ∀ h ∈ heights, h < height) :
    (pruneCanonicalSteps heights).Keeps (Rowed crates) (Spared crates) fun pair => ∀ write ∈ pair.1, Drops crates height write := by
  induction heights with
  | nil => exact keepsPure fun _ mem => by cases mem
  | cons h rest ih =>
    unfold pruneCanonicalSteps
    refine (getHashByHeightKeeps h).bind fun found named =>
      (ih fun k mem => below k (List.mem_cons_of_mem _ mem)).bind fun pair drops => ?_
    cases found with
    | none => exact keepsPure drops
    | some hash =>
      refine keepsPure fun write mem => ?_
      rcases List.mem_append.mp mem with body | others
      · exact bodyDrops (named hash rfl) (below h (by simp)) write body
      · rcases List.mem_cons.mp others with rfl | older
        · exact .canonical h
        · exact drops write older

theorem pruneForksNamed (lawful : crates.Lawful) {height : UInt64} {canonical : List Bytes32} {rows : List (Bytes × Bytes)}
    (own : ∀ row ∈ rows, ∃ block, RowOf crates block .headers row.1 row.2) {hash : Bytes32}
    (mem : hash ∈ pruneForks crates height canonical rows) : ∃ h, Named crates h hash ∧ h < height := by
  obtain ⟨_,raw,header,inside,decoded,below⟩ := memPruneForks.mp mem
  obtain ⟨block,row⟩ := own _ inside
  have key := row.key
  rw [hashKeyInj] at key
  have read := lawful.header block.header raw row.encodedHeader
  have same : header = block.header := by
    rw [deserializeHeader,read] at decoded
    exact (Except.ok.inj decoded).symm
  exact ⟨header.height,⟨header,by rw [same,key]; rfl,rfl⟩,below⟩

theorem pruneRowsFair {batch : List Write} {forks : List Bytes32} {height : UInt64} (drops : ∀ write ∈ batch, Drops crates height write) :
    ∀ write ∈ pruneRows batch forks height, Fair crates write := by
  intro write mem
  rcases List.mem_append.mp mem with deletes | floor
  · rcases List.mem_append.mp deletes with canonical | fork
    · cases drops write canonical with
      | body cf named below => exact .delete _ _
      | canonical h => exact .delete _ _
    · obtain ⟨hash,_,body⟩ := List.mem_flatMap.mp fork
      simp only [bodyDeletes,List.mem_cons,List.not_mem_nil,or_false] at body
      rcases body with rfl | rfl | rfl <;> exact .delete _ _
  · rw [List.mem_singleton.mp floor]
    exact .metadata _ _

theorem pruneRowsSpared {batch : List Write} {forks : List Bytes32} {height : UInt64} (drops : ∀ write ∈ batch, Drops crates height write)
    (named : ∀ hash ∈ forks, ∃ h, Named crates h hash ∧ h < height) : Spared crates s (s.commit (pruneRows batch forks height)) := by
  intro block cf key value held own gone
  have floor : loadFloor (applyAll (pruneRows batch forks height) s.db) = height := loadFloorRow (by
    rw [getApplyAll,pruneRows,lastEffectAppend,lastEffectCons,lastEffectNil,effectPut,if_pos ⟨rfl,rfl⟩]
    rfl)
  refine .inr ?_
  change ∃ h, _ ∧ h < loadFloor (applyAll (pruneRows batch forks height) s.db)
  rw [floor]
  have key' := own.key
  have all : Drops crates height (.delete cf key) := by
    rcases List.mem_append.mp (appliedNone held gone) with deletes | bad
    · rcases List.mem_append.mp deletes with canonical | fork
      · exact drops _ canonical
      · obtain ⟨hash,mem,body⟩ := List.mem_flatMap.mp fork
        obtain ⟨h,name,below⟩ := named hash mem
        exact bodyDrops name below _ body
    · cases List.mem_singleton.mp bad
  generalize same : (.delete cf key : Write) = write at all
  cases all with
  | @body hash h _ name below =>
    cases same
    rw [hashKeyInj.mp key'] at name
    exact ⟨h,name,below⟩
  | canonical h =>
    cases same
    exact absurd own.filtered canonicalUnfiltered

theorem pruneKeeps (lawful : crates.Lawful) (height : UInt64) :
    (pruneBeforeHeightSteps crates height).Keeps (Rowed crates) (Spared crates) fun _ => True := by
  unfold pruneBeforeHeightSteps
  refine (keepsRefuse _).bind fun _ _ => (keepsAsk (P := fun _ => True) fun _ _ => trivial).bind fun currentMin _ => ?_
  split
  · exact keepsPure trivial
  · refine (pruneCanonicalKeeps fun h mem => (memHeightsBefore.mp mem).2).bind fun pair drops => ?_
    refine (keepsAsk (P := fun rows : List (Bytes × Bytes) => ∀ row ∈ rows, ∃ block, RowOf crates block .headers row.1 row.2)
      fun s rowed row mem => ?_).bind fun rows own => ?_
    · exact rowed.db.rows .headers row.1 row.2 (.inr (.inl rfl)) (Std.ExtTreeMap.mem_toList_iff_getElem?_eq_some.mp mem)
    · refine (keepsBatch (pruneRowsFair drops) fun s => pruneRowsSpared drops fun hash mem =>
        pruneForksNamed lawful own mem).bind fun _ _ => ?_
      refine .bind (keepsModify fun _ => ⟨rfl,rfl,rfl⟩) fun _ _ => .bind (keepsEach _ fun hash _ => ?_) fun _ _ => ?_
      · exact .bind (keepsModify fun _ => ⟨rfl,rfl,rfl⟩) fun _ _ => .bind (keepsModify fun _ => ⟨rfl,rfl,rfl⟩) fun _ _ =>
          .bind (keepsModify fun _ => ⟨rfl,rfl,rfl⟩) fun _ _ => keepsModify fun _ => ⟨rfl,rfl,rfl⟩
      · refine Proc.Keeps.bind (Q := fun _ => True) (keepsAtom fun s r t rowed run => ?_) fun _ _ => keepsPure trivial
        rw [(runsModify.mp run).2]
        refine ⟨⟨⟨rowed.db,rowed.slots,fun h x found => ?_⟩,sparedSame rfl⟩,fun _ _ => trivial⟩
        unfold evictHeightsBelow at found
        rw [Std.ExtTreeMap.getElem?_filter'] at found
        exact rowed.cache h x (Option.filter_eq_some_iff.mp found).1

theorem filtersKeep (lawful : crates.Lawful) (attests : crates.Attests) (visited : Cf → Bytes → Bool) :
    (compactionSteps crates visited).Keeps (Rowed crates) (Spared crates) fun _ => True :=
  keepsAtom fun s r t rowed run => by
    refine ⟨?_,fun _ _ => trivial⟩
    rw [(runsModify.mp run).2]
    split
    · exact ⟨rowedCompacted visited rowed,sparedCompacted lawful attests visited⟩
    · exact ⟨rowed,sparedSame rfl⟩

theorem loadFloorKeeps : loadFloorSteps.Keeps (Rowed crates) (Spared crates) fun _ => True := by
  unfold loadFloorSteps
  refine (keepsAsk (P := fun _ => True) fun _ _ => trivial).bind fun row _ => ?_
  split
  · exact keepsModify fun _ => ⟨rfl,rfl,rfl⟩
  · exact keepsPure trivial

end Calls

end Store

/- What runs on an open store. An attestation goes under its own block's hash. -/
inductive StoreTask where
  | putBlock (block : L2Block) (canonical : Bool)
  | putAttestation (attested : AttestedBlock)
  | pruneBeforeHeight (height : UInt64)
  | compaction (visited : Cf → Bytes → Bool)
  | loadFloor

def StoreTask.steps (crates : Crates) : StoreTask → Steps Unit
  | putBlock block canonical => do
      let _ ← Store.putBlockSteps crates block canonical
      pure ()
  | putAttestation attested => Store.putAttestationSteps crates (attested.block.hash crates) attested
  | pruneBeforeHeight height => do
      let _ ← Store.pruneBeforeHeightSteps crates height
      pure ()
  | compaction visited => Store.compactionSteps crates visited
  | loadFloor => Store.loadFloorSteps

/- The store just opened on a database, its floor not loaded yet. -/
def Opens (crates : Crates) (config : BlockStoreConfig) (db : Db) (start : Store) : Prop :=
  ∃ file s disk, Runs (Store.openFiles crates config false) ⟨db,file⟩ (.ok s) disk ∧
    start = {s with minRetainedHeightCached := 0}

/- The databases left by sessions, each broken off at any moment. -/
inductive Persisted (crates : Crates) : Db → Prop where
  | empty : Persisted crates fun _ => ∅
  | session {ι : Type} [DecidableEq ι] {config : BlockStoreConfig} {db : Db} {start : Store} {tasks : ι → StoreTask}
      {past : List (ι × Access)} {c : Live ι Access Store BlockStoreError Unit} (before : Persisted crates db)
      (opens : Opens crates config db start)
      (moment : Interleaving (Live.start start fun i => (tasks i).steps crates) past c) : Persisted crates c.now.db

namespace Store
variable {crates : Crates} {s t : Store}

theorem taskKeeps (lawful : crates.Lawful) (attests : crates.Attests) (task : StoreTask) :
    (task.steps crates).Keeps (Rowed crates) (Spared crates) fun _ => True := by
  cases task with
  | putBlock block canonical => exact (putBlockKeeps block canonical).bind fun _ _ => keepsPure trivial
  | putAttestation attested => exact putAttestationKeeps attested
  | pruneBeforeHeight height => exact (pruneKeeps lawful height).bind fun _ _ => keepsPure trivial
  | compaction visited => exact filtersKeep lawful attests visited
  | loadFloor => exact loadFloorKeeps

theorem opensRowed {config : BlockStoreConfig} {db : Db} (belonging : Belonging crates db) (opens : Opens crates config db s) :
    Rowed crates s := by
  obtain ⟨file,u,disk,run,rfl⟩ := opens
  obtain ⟨_,a,one,mapping⟩ := runsBindOk run
  have same := runsStepOk one
  subst same
  rw [runsGetBind] at mapping
  obtain ⟨bin,b,two,reading⟩ := runsBindOk mapping
  obtain ⟨_,opening,rfl⟩ := runsZoom two
  obtain ⟨sound,writable⟩ := CanonicalBin.openSyncedOk 0 opening
  obtain ⟨tip,_,_,last⟩ := runsBindOk reading
  obtain ⟨made,_⟩ := runsPure.mp last
  cases made
  refine ⟨belonging,.inr ⟨sound.ready,writable rfl,fun h x found => ?_⟩,fun h x found => ?_⟩
  · exact belonging.index h x (sound.agrees h x (UInt64.zero_le) found)
  · rw [show fresh config false db bin _ tip = _ from rfl] at found
    cases found

theorem persistedBelonging (lawful : crates.Lawful) (attests : crates.Attests) {db : Db} (persisted : Persisted crates db) :
    Belonging crates db := by
  induction persisted with
  | empty => exact ⟨fun cf key value _ held => by simp at held,fun h x found => by simp [canonicalAt] at found⟩
  | session _ opens moment ih =>
    exact (interleavingKeeps (opensRowed ih opens) (fun i => taskKeeps lawful attests _) moment).1.db

end Store

/- At any moment of any order of steps in any session, every row of the filtered columns belongs
to a block; a compaction then takes no row of a block at or above the floor in force and nothing
of the other columns; and, where no two headers of one hash differ in height, every step takes rows
only of blocks below the floor in force or the floor it persists. -/
theorem compactionKeepsRetained {crates : Crates} (lawful : crates.Lawful) (attests : crates.Attests) {ι : Type} [DecidableEq ι]
    {config : BlockStoreConfig} {db : Db} {start : Store} {tasks : ι → StoreTask} {past : List (ι × Access)}
    {c : Live ι Access Store BlockStoreError Unit} (persisted : Persisted crates db) (opens : Opens crates config db start)
    (moment : Interleaving (Live.start start fun i => (tasks i).steps crates) past c) :
    (∀ (cf : Cf) (key value : Bytes), Filtered cf → (c.now.db cf)[key]? = some value → ∃ block, RowOf crates block cf key value) ∧
    (∀ visited r t, Runs (Store.compaction crates visited) c.now r t →
      (∀ (block : L2Block) (cf : Cf) (key value : Bytes), (c.now.db cf)[key]? = some value → RowOf crates block cf key value →
        c.now.minRetainedHeightCached ≤ block.height → (t.db cf)[key]? = some value) ∧
      ∀ cf, ¬Filtered cf → t.db cf = c.now.db cf) ∧
    ((∀ a b : L2BlockHeader, crates.headerHash a = crates.headerHash b → a.height = b.height) →
      ∀ i label p w, (c.procs i).advance c.world = some (label,p,w) →
        ∀ (block : L2Block) (cf : Cf) (key value : Bytes), (c.now.db cf)[key]? = some value → RowOf crates block cf key value →
          (w.state.db cf)[key]? = none →
          block.height < c.now.minRetainedHeightCached ∨ block.height < Store.loadFloor w.state.db) := by
  have belonging := Store.persistedBelonging lawful attests persisted
  obtain ⟨rowed,each⟩ := interleavingKeeps (Store.opensRowed belonging opens)
    (fun i => Store.taskKeeps lawful attests (tasks i)) moment
  refine ⟨rowed.db.rows,fun visited r t run => ?_,fun apart i label p w taken block cf key value held own gone => ?_⟩
  · rw [(runsModify.mp run).2]
    split
    · exact ⟨fun block cf key value held own above => Store.compactionSpares lawful attests visited held own above,
        fun cf aside => Store.compactedAside visited aside⟩
    · exact ⟨fun _ _ _ _ held _ _ => held,fun _ _ => rfl⟩
  · rcases ((each i).advance rowed taken).1.2 block cf key value held own gone with low | ⟨height,⟨header,name,same⟩,below⟩
    · exact .inl low
    · have agree : block.header.height = header.height := apart _ _ name.symm
      exact .inr (by rw [L2Block.height,agree,same]; exact below)

namespace Sample

theorem attests : crates.Attests := by
  intro attested raw h
  cases h
  change Except.ok _ = _
  simp only [decodeEncodeHeader,unchunkChunk]

/- The hash names the height, so that headers of one hash are of one height. -/
def levelled : Crates := {crates with
  headerHash := fun header => ⟨heightKey header.height ++ header.stateRoot.bytes.take 24,by
    simp [heightKey,beBytesLength,header.stateRoot.length]⟩}

theorem levelledLawful : levelled.Lawful := {lawful with}

theorem levelledApart (a b : L2BlockHeader) (same : levelled.headerHash a = levelled.headerHash b) : a.height = b.height := by
  have bytes := congrArg Bytes32.bytes same
  have keys := (List.append_inj bytes (by simp [heightKey,beBytesLength])).1
  exact heightKeyInj.mp keys

def pruning : BlockStoreConfig := {config with enableCompactionPruning := true}

def justOpened : Store := {Store.created pruning with minRetainedHeightCached := 0}

theorem justOpens : Opens levelled pruning (fun _ => ∅) justOpened := by
  have files : Clean (Store.openFiles levelled pruning false) ⟨fun _ => ∅,none⟩ (.ok (Store.created pruning))
      ⟨fun _ => ∅,some []⟩ := rfl
  exact ⟨none,_,_,files.runs,rfl⟩

def chores : List StoreTask :=
  [.putBlock (block 0 0 1) true,.putBlock (block 5 1 2) true,.pruneBeforeHeight 3,.compaction fun _ _ => true]

def busy : Live (Fin 4) Access Store BlockStoreError Unit := .start justOpened fun i => (chores.get i).steps levelled

/- Both puts done, and the prune about to write its batch. -/
def beforeBatch : List (Fin 4) := List.replicate 12 0 ++ List.replicate 12 1 ++ List.replicate 13 2

def lowKey : Bytes := hashKey ((block 0 0 1).hash levelled)

def highKey : Bytes := hashKey ((block 5 1 2).hash levelled)

end Sample

/- The batch of the prune takes the block below its height and leaves the one above. -/
theorem compactionKeepsRetainedSample : ∃ past c label p w value, Interleaving Sample.busy past c ∧
    (c.procs 2).advance c.world = some (label,p,w) ∧ (c.now.db .blocks)[Sample.lowKey]?.isSome ∧
    (w.state.db .blocks)[Sample.lowKey]? = none ∧ (c.now.db .blocks)[Sample.highKey]? = some value ∧
    (w.state.db .blocks)[Sample.highKey]?.isSome ∧
    ∀ visited r t, Runs (Store.compaction Sample.levelled visited) c.now r t → (t.db .blocks)[Sample.highKey]? = some value := by
  have seen : ((play Sample.beforeBatch [] Sample.busy).any fun moment => ((moment.2.procs 2).advance moment.2.world).any fun next =>
      moment.2.now.minRetainedHeightCached = 0 ∧ (moment.2.now.db .blocks)[Sample.lowKey]?.isSome ∧
        (next.2.2.state.db .blocks)[Sample.lowKey]? = none ∧ Store.loadFloor next.2.2.state.db = 3 ∧
          (moment.2.now.db .blocks)[Sample.highKey]? = some (Sample.encodeBlock (Sample.block 5 1 2))) = true := by decide +kernel
  obtain ⟨⟨past,c⟩,played,passed⟩ := (Option.any_eq_true _ _).mp seen
  obtain ⟨⟨label,p,w⟩,taken,passed⟩ := (Option.any_eq_true _ _).mp passed
  obtain ⟨floor,low,gone,persisted,high⟩ := of_decide_eq_true passed
  have moment := playInterleaves .start played
  have body : RowOf Sample.levelled (Sample.block 5 1 2) .blocks Sample.highKey (Sample.encodeBlock (Sample.block 5 1 2)) :=
    .body ⟨_,rfl,.inl ⟨0,rfl⟩⟩
  obtain ⟨_,spares,takes⟩ := compactionKeepsRetained Sample.levelledLawful Sample.attests .empty Sample.justOpens moment
  refine ⟨past,c,label,p,w,_,moment,taken,low,gone,high,?_,fun visited r t run => ?_⟩
  · by_contra lost
    rcases takes Sample.levelledApart 2 label p w taken _ _ _ _ high body (Option.not_isSome_iff_eq_none.mp lost) with below | below
    · rw [floor] at below
      exact absurd below (by decide)
    · rw [persisted] at below
      exact absurd below (by decide)
  · exact (spares visited r t run).1 _ _ _ _ high body (by rw [floor]; decide)

end DigBlockstore
