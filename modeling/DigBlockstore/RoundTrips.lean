import DigBlockstore.Dictionary
import DigBlockstore.Manifests

/-! The size cap of the block decoder: which blocks a store reads back from the frames it
writes, and which payloads it unpacks to more than the cap. -/
namespace DigBlockstore
open ByteCodec Faulty

/- bincode reads back what it wrote, and so does zstd under one dictionary: within the capacity it
is given, and not beyond. A plain frame is read rightly under a dictionary or not at all. -/
structure Crates.Inverse (crates : Crates) : Prop where
  block : ∀ block raw, crates.serializeBlock block = .ok raw → crates.deserializeBlock raw = .ok block
  plain : ∀ raw level frame, crates.encodeAll raw level = .ok frame → crates.decodeAll frame = .ok raw
  loads : ∀ dict level raw frame, crates.compressWith dict level raw = .ok frame → crates.decompressor dict = .ok ()
  packed : ∀ dict level raw frame cap, crates.compressWith dict level raw = .ok frame → raw.length ≤ cap →
    crates.decompressWith dict frame cap = .ok raw
  full : ∀ dict level raw frame cap, crates.compressWith dict level raw = .ok frame → cap < raw.length →
    ∃ why, crates.decompressWith dict frame cap = .error why
  aside : ∀ dict level raw frame cap found, crates.encodeAll raw level = .ok frame →
    crates.decompressWith dict frame cap = .ok found → found = raw
  trained : ∀ samples size dict, crates.fromSamples samples size = .ok dict → crates.decompressor dict = .ok ()

namespace Store
variable {crates : Crates} {s t u : Store} {block : L2Block} {raw frame : Bytes}

section RoundTrip

/- No dictionary is in use, or the block is within the cap, or zstd makes a frame of it that
the plain decoder reads as well. -/
def Fits (crates : Crates) (s : Store) (block : L2Block) (raw : Bytes) : Prop :=
  ∀ dict, s.activeDictionary = some dict → raw.length ≤ s.maxDecompressedBlockBytes ∨
    ∀ frame, crates.compressWith dict s.compressionLevel raw = .ok frame →
      ∃ found, crates.decodeAll frame = .ok found ∧ crates.deserializeBlock found = .ok block

def Loads (crates : Crates) (s : Store) : Prop :=
  ∀ dict, s.activeDictionary = some dict → crates.decompressor dict = .ok ()

/- The settings a frame is read under are those it was written under, but for a dictionary found since. -/
structure Suited (s t : Store) : Prop where
  cap : t.maxDecompressedBlockBytes = s.maxDecompressedBlockBytes
  held : ∀ dict, s.activeDictionary = some dict → t.activeDictionary = some dict

theorem deserializeOk : s.deserializeBlock crates frame = .ok block ↔
    ∃ found, s.decompressBlockPayload crates frame = .ok found ∧ crates.deserializeBlock found = .ok block := by
  unfold deserializeBlock
  cases s.decompressBlockPayload crates frame with
  | error why => simp
  | ok found =>
    dsimp only
    cases answer : crates.deserializeBlock found with
    | error why => simp [Except.mapError,answer]
    | ok other => simp [Except.mapError,answer]

/- A frame is read back under the same settings exactly when its block fits, and under a dictionary
found since when that loads. -/
theorem readsBack (inverse : crates.Inverse) (encoded : crates.serializeBlock block = .ok raw)
    (written : s.serializeBlock crates block = .ok frame) (suited : Suited s t) :
    t.deserializeBlock crates frame = .ok block ↔ Fits crates s block raw ∧ (s.activeDictionary = none → Loads crates t) := by
  have original := inverse.block block raw encoded
  unfold serializeBlock at written
  rw [encoded] at written
  cases active : s.activeDictionary with
  | none =>
    rw [active] at written
    dsimp only at written
    have packed := mapErrorOk written
    have fits : Fits crates s block raw := fun dict held => by rw [active] at held; cases held
    rw [deserializeOk,decompressBlockPayload]
    cases active' : t.activeDictionary with
    | none =>
      dsimp only
      exact iff_of_true ⟨raw,inverse.plain _ _ _ packed,original⟩ ⟨fits,fun _ dict held => by rw [active'] at held; cases held⟩
    | some dict =>
      dsimp only
      cases loaded : crates.decompressor dict with
      | error why =>
        dsimp only
        refine iff_of_false (fun ⟨_,bad,_⟩ => by cases bad) fun ⟨_,loads⟩ => ?_
        rw [loads rfl dict active'] at loaded
        cases loaded
      | ok _ =>
        dsimp only
        refine iff_of_true ⟨raw,?_,original⟩ ⟨fits,fun _ own held => ?_⟩
        · cases answer : crates.decompressWith dict frame t.maxDecompressedBlockBytes with
          | error why => exact inverse.plain _ _ _ packed
          | ok found => rw [inverse.aside _ _ _ _ _ _ packed answer]
        · rw [active'] at held
          cases held
          exact loaded
  | some dict =>
    rw [active] at written
    dsimp only at written
    have packed := mapErrorOk written
    rw [deserializeOk,decompressBlockPayload,suited.held dict active]
    dsimp only
    rw [inverse.loads _ _ _ _ packed]
    dsimp only
    by_cases small : raw.length ≤ s.maxDecompressedBlockBytes
    · rw [suited.cap,inverse.packed _ _ _ _ _ packed small]
      exact iff_of_true ⟨raw,rfl,original⟩ ⟨fun _ _ => .inl small,fun bad => by cases bad⟩
    · obtain ⟨why,refused⟩ := inverse.full _ _ _ _ _ packed (Nat.lt_of_not_le small)
      rw [suited.cap,refused]
      dsimp only
      constructor
      · rintro ⟨found,read,same⟩
        refine ⟨fun own held => .inr fun other made => ?_,fun bad => by cases bad⟩
        rw [active] at held
        cases held
        rw [packed] at made
        cases made
        exact ⟨found,read,same⟩
      · rintro ⟨fits,_⟩
        exact (fits dict active).resolve_left small frame packed

end RoundTrip

section Evicted
variable {hash : Bytes32}

/- The store with other bodies in its block cache, and none for the hash. -/
def Evicted (t u : Store) (hash : Bytes32) : Prop :=
  u = {t with blockCache := u.blockCache} ∧ u.blockCache.peek hash = none

theorem getBlockRow (uncached : u.blockCache.peek hash = none) (row : (u.db .blocks)[hashKey hash]? = some frame)
    (script : List Event) : (getBlock crates hash ⟨u,script⟩).1 = .ok (some block) ↔ u.deserializeBlock crates frame = .ok block := by
  unfold getBlock
  simp only [bind,Op.bind,Op.get,Op.modify,ShardedLruCache.getClone,uncached,row]
  cases u.deserializeBlock crates frame with
  | error e => exact iff_of_false (fun bad => by cases bad) fun bad => by cases bad
  | ok found =>
    change Except.ok (some found) = Except.ok (some block) ↔ Except.ok found = Except.ok block
    simp

theorem maybeTrainHeld {r : Exit Unit} (h : Runs (maybeTrainDictionary crates) s r t) :
    ∀ dict, s.activeDictionary = some dict → t.activeDictionary = some dict := by
  intro dict held
  have own := activeSome held
  unfold maybeTrainDictionary at h
  rw [runsGetBind] at h
  split at h
  · rwa [(runsPure.mp h).2]
  · rw [if_pos (by rw [own]; rfl)] at h
    rwa [(runsPure.mp h).2]

/- A persisted dictionary not yet in memory loads, for a store that uses one. -/
def Latent (crates : Crates) (s : Store) : Prop := s.useCompressionDict = true → s.zstdDict = none →
  ∀ dict, s.persisted = some dict → crates.decompressor dict = .ok ()

theorem loadsLatent (idle : s.zstdDict = none ∨ s.useCompressionDict = false) (quiet : s.persisted = none ∨ s.useCompressionDict = false) :
    Loads crates s ∧ Latent crates s := by
  refine ⟨fun dict held => ?_,fun use _ dict found => ?_⟩
  · unfold activeDictionary at held
    rcases idle with none' | off
    · rw [none'] at held
      split at held <;> cases held
    · rw [if_neg (by rw [off]; exact Bool.false_ne_true)] at held
      cases held
  · rcases quiet with none' | off
    · rw [none'] at found
      cases found
    · rw [off] at use
      cases use

theorem maybeTrainLoads (inverse : crates.Inverse) (plain : s.activeDictionary = none)
    (h : Runs (maybeTrainDictionary crates) s (.ok ()) t) : Loads crates t ↔ Latent crates s := by
  unfold maybeTrainDictionary at h
  rw [runsGetBind] at h
  split at h
  · rename_i off
    rw [(runsPure.mp h).2]
    have both := @loadsLatent crates s (.inr (by simpa using off)) (.inr (by simpa using off))
    exact iff_of_true both.1 both.2
  · rename_i on
    have use : s.useCompressionDict = true := by simpa using on
    have idle : s.zstdDict = none := by rwa [activeDictionary,if_pos use] at plain
    rw [if_neg (by rw [idle]; exact Bool.false_ne_true)] at h
    have persisted : loadZstdDictFromDb s.db s.useCompressionDict = s.persisted := by rw [use]; rfl
    split at h
    · rw [(runsModify.mp h).2]
      have active : ∀ d : Option Bytes, ({s with zstdDict := d} : Store).activeDictionary = d := fun d => if_pos use
      rw [persisted,Loads,active]
      exact ⟨fun loads _ _ => loads,fun latent => latent use idle⟩
    · rename_i absent
      have none' : s.persisted = none := by
        cases found : s.persisted with
        | none => rfl
        | some dict =>
          rw [show loadZstdDictFromDb s.db true = s.persisted from rfl,found] at absent
          exact absurd rfl absent
      have both := @loadsLatent crates s (.inl idle) (.inl none')
      split at h
      · rw [(runsPure.mp h).2]
        exact iff_of_true both.1 both.2
      · obtain ⟨dict,u,one,last⟩ := runsBindOk h
        rw [(runsModify.mp last).2]
        refine iff_of_true (fun own held => ?_) both.2
        obtain rfl : dict = own := by
          have same := activeSome held
          exact Option.some.inj same
        rcases trainDictionaryEnds one with ⟨rfl,found⟩ | ⟨_,samples,made,trained,_,same⟩
        · have bad := found dict rfl
          rw [none'] at bad
          cases bad
        · rw [same dict rfl]
          exact inverse.trained _ _ _ trained

theorem ingestedTuned (block : L2Block) (canonical : Bool) (compressed headerBytes : Bytes) :
    (s.ingested crates block canonical compressed headerBytes).maxDecompressedBlockBytes = s.maxDecompressedBlockBytes ∧
      (s.ingested crates block canonical compressed headerBytes).useCompressionDict = s.useCompressionDict ∧
      (s.ingested crates block canonical compressed headerBytes).zstdDict = s.zstdDict ∧
      (s.ingested crates block canonical compressed headerBytes).persisted = s.persisted := by
  have row := @metadataPutRows crates block canonical compressed headerBytes s.db metaZstdDict
  unfold ingested refreshIndex
  cases canonical with
  | false => exact ⟨rfl,rfl,rfl,persistedCongr row⟩
  | true =>
    rw [if_pos rfl,insertHeightRest]
    exact ⟨rfl,rfl,rfl,persistedCongr row⟩

theorem putStores {canonical : Bool} (h : Runs (putBlock crates block canonical) s (.ok true) t) :
    ∃ frame, s.serializeBlock crates block = .ok frame ∧ (t.db .blocks)[hashKey (block.hash crates)]? = some frame ∧
      Suited s t ∧ (crates.Inverse → s.activeDictionary = none → (Loads crates t ↔ Latent crates s)) := by
  rcases putBlockRuns h with ⟨bad,_⟩ | ⟨⟨e,bad⟩,_⟩ | ⟨compressed,headerBytes,packs,tail⟩
  · cases bad
  · cases bad
  · obtain ⟨_,u,index,cached⟩ := runsBindOk tail
    obtain ⟨_,rfl⟩ := indexCanonicalOk index
    rw [runsModifyBind,runsModifyBind,runsModifyBind,runsModifyBind] at cached
    obtain ⟨_,v,training,last⟩ := runsBindOk cached
    obtain ⟨_,rfl⟩ := runsPure.mp last
    change Runs (maybeTrainDictionary crates) (s.ingested crates block canonical compressed headerBytes) _ _ at training
    have trained := maybeTrainRuns training
    obtain ⟨cap,use,dict,persisted⟩ := @ingestedTuned crates s block canonical compressed headerBytes
    have active : (s.ingested crates block canonical compressed headerBytes).activeDictionary = s.activeDictionary := by
      rw [activeDictionary,use,dict]
      rfl
    refine ⟨compressed,packs.body,?_,⟨?_,fun own held => maybeTrainHeld training own (active.trans held)⟩,fun inverse plain => ?_⟩
    · rw [trained.column (by simp),(ingestedIngests block canonical compressed headerBytes).rows .blocks (.inl rfl),
        bodyRowsRow,if_neg (by simp),if_pos ⟨rfl,rfl⟩]
    · rw [trained.rest]
      exact cap
    · rw [maybeTrainLoads inverse (active.trans plain) training,Latent,Latent,use,dict,persisted]

theorem putReadsBack {canonical : Bool} (inverse : crates.Inverse) (encoded : crates.serializeBlock block = .ok raw)
    (put : Runs (putBlock crates block canonical) s (.ok true) t) (evicted : Evicted t u (block.hash crates))
    (script : List Event) : (getBlock crates (block.hash crates) ⟨u,script⟩).1 = .ok (some block) ↔
      Fits crates s block raw ∧ Latent crates s := by
  obtain ⟨frame,written,row,suited,latent⟩ := putStores put
  have sameRow : (u.db .blocks)[hashKey (block.hash crates)]? = some frame := by rw [evicted.1]; exact row
  have suited' : Suited s u := by rw [evicted.1]; exact ⟨suited.cap,suited.held⟩
  have same : Loads crates u ↔ Loads crates t := by rw [evicted.1]; exact Iff.rfl
  rw [getBlockRow evicted.2 sameRow,readsBack inverse encoded written suited',same]
  refine and_congr_right fun _ => ⟨fun loads use idle => ?_,fun held plain => (latent inverse plain).mpr held⟩
  have plain : s.activeDictionary = none := by rw [activeDictionary,if_pos use,idle]
  exact (latent inverse plain).mp (loads plain) use idle

end Evicted

section Bounded
variable {payload input : Bytes}

def Bounded (crates : Crates) (s : Store) (payload : Bytes) : Prop :=
  ∀ found, s.decompressBlockPayload crates payload = .ok found → found.length ≤ s.maxDecompressedBlockBytes

/- The capped decoder has the last word: there is a dictionary, and it does not load or reads the payload. -/
def Guarded (crates : Crates) (s : Store) (payload : Bytes) : Prop :=
  ∃ dict, s.activeDictionary = some dict ∧ ((∃ why, crates.decompressor dict = .error why) ∨
    ∃ found, crates.decompressWith dict payload s.maxDecompressedBlockBytes = .ok found)

/- The payload does not reach the plain decoder, or is no plain frame of more than the cap. -/
def Harmless (crates : Crates) (s : Store) (payload : Bytes) : Prop :=
  Guarded crates s payload ∨ ∀ found, crates.decodeAll payload = .ok found → found.length ≤ s.maxDecompressedBlockBytes

theorem boundedIff (capped : ∀ dict frame cap found, crates.decompressWith dict frame cap = .ok found → found.length ≤ cap) :
    Bounded crates s payload ↔ Harmless crates s payload := by
  unfold Bounded Harmless Guarded decompressBlockPayload
  cases active : s.activeDictionary with
  | none =>
    dsimp only
    refine ⟨.inr,fun either => either.resolve_left ?_⟩
    rintro ⟨_,bad,_⟩
    cases bad
  | some dict =>
    dsimp only
    cases loaded : crates.decompressor dict with
    | error why =>
      exact iff_of_true (fun _ bad => by cases bad) (.inl ⟨dict,rfl,.inl ⟨why,loaded⟩⟩)
    | ok _ =>
      dsimp only
      cases answer : crates.decompressWith dict payload s.maxDecompressedBlockBytes with
      | ok found =>
        refine iff_of_true (fun other same => ?_) (.inl ⟨dict,rfl,.inr ⟨found,answer⟩⟩)
        cases same
        exact capped _ _ _ _ answer
      | error why =>
        refine ⟨.inr,fun either => either.resolve_left ?_⟩
        rintro ⟨own,same,⟨_,failed⟩ | ⟨_,read⟩⟩
        · cases same
          rw [loaded] at failed
          cases failed
        · cases same
          rw [answer] at read
          cases read

/- An import of the input into the store unpacks the payload in the state it has come to: the frames
before are put, and this is the next. -/
def Unpacks (crates : Crates) (input : Bytes) (s u : Store) (payload : Bytes) : Prop :=
  ∃ manifest body head read height rest blocks left, crates.deserializeManifest input = .ok (manifest,body) ∧
    crates.serializeManifest manifest = .ok head ∧ manifest.version = snapshotVersion ∧
    heightsThrough manifest.startHeight manifest.endHeight = read ++ height :: rest ∧
    Frames crates none body read s blocks left u ∧
    ∃ lenBytes body' left', readExact "snapshot read: " 4 left = .ok (lenBytes,body') ∧
      readExact "snapshot read: " (leNat lenBytes) body' = .ok (payload,left')

theorem putsCap {blocks : List L2Block} (puts : Puts crates blocks s t) :
    t.maxDecompressedBlockBytes = s.maxDecompressedBlockBytes := by
  induction puts with
  | nil => rfl
  | @cons block rest added s u t first later ih =>
    rw [ih]
    cases added with
    | true =>
      obtain ⟨_,_,_,suited,_⟩ := putStores first
      exact suited.cap
    | false =>
      rcases putBlockOk first with ⟨_,rfl,_⟩ | ⟨bad,_⟩
      · rfl
      · cases bad

theorem Frames.member {prev : Option Bytes32} {left : Bytes} {heights : List UInt64} {blocks : List L2Block}
    (frames : Frames crates prev input heights s blocks left t) : ∀ block ∈ blocks,
    ∃ read height rest before last prev' after u, heights = read ++ height :: rest ∧ Frames crates prev input read s before last u ∧
      Framed crates u prev' last height block after := by
  induction frames with
  | nil => exact fun block bad => by cases bad
  | @cons prev input left last height heights block blocks added s u t framed put _ ih =>
    intro other mem
    rcases List.mem_cons.mp mem with rfl | inside
    · exact ⟨[],height,heights,[],input,prev,left,s,rfl,.nil prev input s,framed⟩
    · obtain ⟨read,height',rest,before,last',prev',after,v,split,frames,framed'⟩ := ih other inside
      exact ⟨height :: read,height',rest,block :: before,last',prev',after,v,by rw [split,List.cons_append],
        .cons framed put frames,framed'⟩

theorem importUnpacks {manifest : SnapshotManifest} (h : Runs (importSnapshot crates input) s (.ok manifest) t) :
    ∃ blocks, ReadsStream crates input s manifest blocks t ∧ ∀ block ∈ blocks, ∃ u payload found,
      Unpacks crates input s u payload ∧ u.decompressBlockPayload crates payload = .ok found ∧
        crates.deserializeBlock found = .ok block := by
  obtain ⟨blocks,body,left,parsed,frames⟩ := importReads h
  obtain ⟨_,_,consumes⟩ := importOk h
  obtain ⟨head,body',parsed',serial,_⟩ := consumes.parsed
  refine ⟨blocks,⟨body,left,parsed,frames⟩,fun block mem => ?_⟩
  obtain ⟨read,height,rest,before,last,_,_,u,split,ahead,framed⟩ := frames.member block mem
  obtain ⟨lenBytes,tail,payload,one,two,decoded⟩ := framed.read
  obtain ⟨found,unpacked,same⟩ := deserializeOk.mp decoded
  exact ⟨u,payload,found,⟨manifest,body,head,read,height,rest,before,last,parsed,serial,consumes.version,split,ahead,
    lenBytes,tail,_,one,two⟩,unpacked,same⟩

theorem Unpacks.cap (unpacks : Unpacks crates input s u payload) : u.maxDecompressedBlockBytes = s.maxDecompressedBlockBytes := by
  obtain ⟨_,_,_,_,_,_,_,_,_,_,_,_,frames,_⟩ := unpacks
  exact putsCap frames.puts

end Bounded

end Store

namespace Sample

theorem sealedInverse : sealed.Inverse where
  block := sealedFaithful.block
  plain := sealedFaithful.plain
  loads dict level raw frame packed := rfl
  packed := sealedFaithful.packed
  full dict level raw frame cap packed large := by
    refine ⟨"size cap",?_⟩
    rcases sealedFrame packed with rfl | ⟨_,rfl⟩
    · rw [sealedPlain,if_neg (Nat.not_le.mpr large)]
    · rw [sealedKeyed,if_neg (by simp),if_neg (Nat.not_le.mpr large)]
  aside := sealedFaithful.aside
  trained samples size dict made := (sealedFaithful.trained samples size dict made).2

theorem decompressCapped (dict frame : Bytes) (cap : Nat) (found : Bytes) (read : crates.decompressWith dict frame cap = .ok found) :
    found.length ≤ cap := by
  change (if frame.length ≤ cap then Except.ok frame else .error "size cap") = .ok found at read
  split at read
  · cases read
    assumption
  · cases read

def tight : BlockStoreConfig := {config with maxDecompressedBlockBytes := 4}

def tightDictionary : BlockStoreConfig := {tight with useCompressionDict := true,zstdDictionaryOverride := some trainedDict}

def dictionary : BlockStoreConfig := {config with useCompressionDict := true,zstdDictionaryOverride := some trainedDict}

def roomy : Store := .after sealed Store.tame dictionary []

def narrow : Store := .after sealed Store.tame tightDictionary []

def packedFrame : Bytes := 1 :: chunk trainedDict (encodeBlock (block 1 1 3))

def shed : Store :=
  {(Store.putBlock sealed (block 1 1 3) true ⟨narrow,[]⟩).2.state with blockCache := ShardedLruCache.new 0 1}

end Sample

/- A frame a store writes is read back by it exactly when its block fits, and so is the row of a
block put, once it has left the cache. -/
theorem roundTrips {crates : Crates} (inverse : crates.Inverse) {s : Store} {block : L2Block} {frame : Bytes}
    (written : s.serializeBlock crates block = .ok frame) : ∃ raw, crates.serializeBlock block = .ok raw ∧
      (s.deserializeBlock crates frame = .ok block ↔ s.Fits crates block raw) ∧
      ∀ canonical t u script, Runs (Store.putBlock crates block canonical) s (.ok true) t →
        Store.Evicted t u (block.hash crates) →
        ((Store.getBlock crates (block.hash crates) ⟨u,script⟩).1 = .ok (some block) ↔
          s.Fits crates block raw ∧ s.Latent crates) := by
  have encoded : ∃ raw, crates.serializeBlock block = .ok raw := by
    unfold Store.serializeBlock at written
    cases answer : crates.serializeBlock block with
    | error why => rw [answer] at written; cases written
    | ok raw => exact ⟨raw,rfl⟩
  obtain ⟨raw,encoded⟩ := encoded
  refine ⟨raw,encoded,?_,fun canonical t u script put evicted => Store.putReadsBack inverse encoded put evicted script⟩
  rw [Store.readsBack inverse encoded written ⟨rfl,fun _ held => held⟩]
  exact and_iff_left fun plain dict held => by
    rw [plain] at held
    cases held

theorem roundTripsSample : (Store.putBlock Sample.sealed (Sample.block 1 1 3) true ⟨Sample.roomy,[]⟩).1 = .ok true ∧
    Sample.roomy.deserializeBlock Sample.sealed Sample.packedFrame = .ok (Sample.block 1 1 3) ∧
    ∀ canonical t u script, Runs (Store.putBlock Sample.sealed (Sample.block 1 1 3) canonical) Sample.roomy (.ok true) t →
      Store.Evicted t u ((Sample.block 1 1 3).hash Sample.sealed) →
      (Store.getBlock Sample.sealed ((Sample.block 1 1 3).hash Sample.sealed) ⟨u,script⟩).1 = .ok (some (Sample.block 1 1 3)) := by
  have written : Sample.roomy.serializeBlock Sample.sealed (Sample.block 1 1 3) = .ok Sample.packedFrame := by decide +kernel
  obtain ⟨raw,encoded,own,evicted⟩ := roundTrips Sample.sealedInverse written
  have fits : Sample.roomy.Fits Sample.sealed (Sample.block 1 1 3) raw := fun _ _ => by
    cases encoded
    exact .inl (by decide +kernel)
  have latent : Sample.roomy.Latent Sample.sealed := fun _ idle =>
    absurd idle (by rw [show Sample.roomy.zstdDict = some Sample.trainedDict by decide +kernel]; simp)
  exact ⟨by decide +kernel,own.mpr fits,fun canonical t u script put gone =>
    (evicted canonical t u script put gone).mpr ⟨fits,latent⟩⟩

/- A block of more bytes than the cap is written with the dictionary and never read again. -/
theorem oversizeLost : Reaches Sample.sealed Sample.narrow ∧
    Sample.narrow.serializeBlock Sample.sealed (Sample.block 1 1 3) = .ok Sample.packedFrame ∧
    ¬Sample.narrow.deserializeBlock Sample.sealed Sample.packedFrame = .ok (Sample.block 1 1 3) ∧
    (Store.putBlock Sample.sealed (Sample.block 1 1 3) true ⟨Sample.narrow,[]⟩).1 = .ok true ∧
    ¬(Store.getBlock Sample.sealed (Sample.hash 3) ⟨Sample.shed,[]⟩).1 = .ok (some (Sample.block 1 1 3)) :=
  ⟨Store.afterReaches (by decide +kernel),by decide +kernel,by decide +kernel,by decide +kernel,by decide +kernel⟩

/- What comes out of a payload is within the cap exactly when the payload is harmless, and so for all
that an import unpacks, the blocks of an accepted one among it. -/
theorem decompressionBounded {crates : Crates}
    (capped : ∀ dict frame cap found, crates.decompressWith dict frame cap = .ok found → found.length ≤ cap) (s : Store) :
    (∀ payload, s.Bounded crates payload ↔ s.Harmless crates payload) ∧
    ∀ input, ((∀ u payload, s.Unpacks crates input u payload → ∀ found, u.decompressBlockPayload crates payload = .ok found →
        found.length ≤ s.maxDecompressedBlockBytes) ↔
      ∀ u payload, s.Unpacks crates input u payload → u.Harmless crates payload) ∧
      ∀ manifest t, Runs (Store.importSnapshot crates input) s (.ok manifest) t →
        ∃ blocks, Store.ReadsStream crates input s manifest blocks t ∧ ∀ block ∈ blocks, ∃ u payload found,
          s.Unpacks crates input u payload ∧ u.decompressBlockPayload crates payload = .ok found ∧
            crates.deserializeBlock found = .ok block := by
  refine ⟨fun payload => Store.boundedIff capped,fun input => ⟨?_,fun manifest t run => Store.importUnpacks run⟩⟩
  constructor
  · intro bounded u payload unpacks
    refine (Store.boundedIff capped).mp fun found out => ?_
    rw [unpacks.cap]
    exact bounded u payload unpacks found out
  · intro harmless u payload unpacks found out
    rw [← unpacks.cap]
    exact (Store.boundedIff capped).mpr (harmless u payload unpacks) found out

theorem decompressionBoundedSample : Sample.grown.Bounded Sample.crates [1,2,3] := by
  refine ((decompressionBounded Sample.decompressCapped Sample.grown).1 [1,2,3]).mpr (.inr fun found read => ?_)
  cases read
  decide +kernel

namespace Sample

def tightPlain : Store := .after crates Store.tame tight []

def tightPacked : Store := .after crates Store.tame tightDictionary []

def tightWired : Store := .after wired Store.tame tight []

def afterManifest : Bytes := (sealedStream counted oneFrame).drop 92

def afterFrame : Bytes := (wired.sha256 (laid counted oneFrame)).bytes

theorem streamUnpacks : Store.Unpacks wired (sealedStream counted oneFrame) tightWired tightWired (encodeBlock (block 1 1 3)) :=
  ⟨counted,afterManifest,encodeManifest counted,[],1,[],[],afterManifest,by decide +kernel,rfl,by decide +kernel,by decide +kernel,
    .nil none afterManifest tightWired,afterManifest.take 4,afterManifest.drop 4,afterFrame,by decide +kernel,by decide +kernel⟩

end Sample

/- Five bytes come out of a frame under a cap of four, without a dictionary and by the fallback from
one; and an import takes in a block that large. -/
theorem decompressionUnbounded : Reaches Sample.crates Sample.tightPlain ∧ ¬Sample.tightPlain.Bounded Sample.crates [1,2,3,4,5] ∧
    Reaches Sample.crates Sample.tightPacked ∧ Sample.tightPacked.activeDictionary = some Sample.trainedDict ∧
    ¬Sample.tightPacked.Bounded Sample.crates [1,2,3,4,5] ∧ Reaches Sample.wired Sample.tightWired ∧
    (Store.importSnapshot Sample.wired (Sample.sealedStream Sample.counted Sample.oneFrame) ⟨Sample.tightWired,[]⟩).1 =
      .ok Sample.counted ∧
    ∃ payload found, Sample.tightWired.Unpacks Sample.wired (Sample.sealedStream Sample.counted Sample.oneFrame) Sample.tightWired
      payload ∧ Sample.tightWired.decompressBlockPayload Sample.wired payload = .ok found ∧
        Sample.tightWired.maxDecompressedBlockBytes < found.length := by
  have wide : ∀ s : Store, s.maxDecompressedBlockBytes = 4 →
      s.decompressBlockPayload Sample.crates [1,2,3,4,5] = .ok [1,2,3,4,5] → ¬s.Bounded Sample.crates [1,2,3,4,5] := by
    intro s cap out bounded
    have small := bounded _ out
    rw [cap] at small
    exact absurd small (by decide)
  refine ⟨Store.afterReaches (by decide +kernel),wide _ (by decide +kernel) (by decide +kernel),
    Store.afterReaches (by decide +kernel),by decide +kernel,wide _ (by decide +kernel) (by decide +kernel),
    Store.afterReaches (by decide +kernel),by decide +kernel,?_⟩
  exact ⟨Sample.encodeBlock (Sample.block 1 1 3),Sample.encodeBlock (Sample.block 1 1 3),Sample.streamUnpacks,by decide +kernel,
    by decide +kernel⟩

end DigBlockstore
