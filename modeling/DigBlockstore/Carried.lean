import DigBlockstore.Batches
import DigBlockstore.Exports
import DigBlockstore.Manifests

/-! A snapshot carried to another store: what an export of linked rows writes is read frame by frame by
any store that decodes the frames, and put there at the same heights. -/
namespace DigBlockstore
open ByteCodec Faulty ColumnStore PartialMap
namespace Store
variable {crates : Crates} {s t u d : Store} {block : L2Block} {blocks : List L2Block} {values : List Bytes}

/- A manifest is read back from what is written of it, whatever follows. -/
def ManifestReads (crates : Crates) : Prop := ∀ manifest head body, crates.serializeManifest manifest = .ok head →
  crates.deserializeManifest (head ++ body) = .ok (manifest,body)

/- The canonical blocks of a range, each over the one before. -/
structure LinkedRange (crates : Crates) (s : Store) (start endHeight : UInt64) (blocks : List L2Block) : Prop where
  levels : blocks.map L2Block.height = heightsThrough start endHeight
  hashes : (blocks.map (L2Block.hash crates)).Nodup
  rows : ∀ block ∈ blocks, canonicalAt s.db block.height = some (block.hash crates)
  linked : blocks.IsChain fun below block => block.header.parentHash = below.hash crates

/- A stored value that fits its length prefix and is decoded to the block. -/
def Unframes (crates : Crates) (d : Store) (block : L2Block) (value : Bytes) : Prop :=
  value.length < 2 ^ 32 ∧ d.deserializeBlock crates value = .ok block

theorem Footing.decodes (kept : Footing s t) (value : Bytes) :
    t.deserializeBlock crates value = s.deserializeBlock crates value := by
  unfold deserializeBlock decompressBlockPayload activeDictionary
  rw [kept.uses,kept.dict,kept.cap]

section Loop

theorem putsClean {n : Nat} (writes : s.readOnly = false) (idle : Trainless (n + 1) s) (ready : s.canonicalBin.Ready)
    (fits : s.canonicalBin.Accepts block.height) (encodes : ∃ rows, s.encodedBlock crates block = .ok rows) :
    ∃ added t, Clean (putBlock crates block true) s (.ok added) t ∧ Footing s t ∧ Trainless n t := by
  obtain ⟨⟨compressed,headerBytes⟩,encoded⟩ := encodes
  cases row : (s.db .blocks)[hashKey (block.hash crates)]? with
  | some value => exact ⟨false,s,putPresent writes (by rw [row]; rfl),refl s,idle.mono (Nat.le_succ n)⟩
  | none => exact ⟨true,_,putEncoded writes idle ready (fun _ => fits) row encoded,ingestedFooting ..,idle.ingested ..⟩

theorem importFramesClean (pairs : List.Forall₂ (Unframes crates d) blocks values) (foot : Footing d u)
    (writes : d.readOnly = false) (idle : Trainless blocks.length u) (ready : d.canonicalBin.Ready)
    (fits : ∀ block ∈ blocks, d.canonicalBin.Accepts block.height)
    (encodes : ∀ block ∈ blocks, ∃ rows, d.encodedBlock crates block = .ok rows) {prev : Option Bytes32}
    (above : ∀ block ∈ blocks.head?, ∀ x ∈ prev, block.header.parentHash = x)
    (linked : blocks.IsChain fun below block => block.header.parentHash = below.hash crates) (tail hashed : Bytes) :
    ∃ t, Clean (importFrames crates prev ((values.map frame).flatten ++ tail) hashed (blocks.map L2Block.height)) u
      (.ok (tail,hashed ++ (values.map frame).flatten)) t ∧ Puts crates blocks u t := by
  induction pairs generalizing u prev hashed with
  | nil => exact ⟨u,by rw [List.map_nil,List.flatten_nil,List.append_nil]; exact cleanPure _ _,.nil u⟩
  | @cons block value blocks values carries _ ih =>
    obtain ⟨short,decoded⟩ := carries
    obtain ⟨fit,room⟩ := List.forall_mem_cons.mp fits
    obtain ⟨encoded,more⟩ := List.forall_mem_cons.mp encodes
    obtain ⟨added,w,put,foot',idle'⟩ := @putsClean crates u block blocks.length (foot.readOnly.trans writes) idle
      (foot.ready ready) ((foot.accepts _).mpr fit) (by rw [foot.encodes]; exact encoded)
    have next : ∀ upper ∈ blocks.head?, ∀ x ∈ some (block.hash crates), upper.header.parentHash = x := by
      intro upper first x here
      cases here
      cases blocks with
      | nil => cases first
      | cons other rest =>
        cases first
        exact (List.isChain_cons_cons.mp linked).1
    obtain ⟨t,loop,puts⟩ := ih (Trans.trans foot foot') idle' room more next linked.tail
      (hashed ++ leBytes 4 value.length ++ value)
    refine ⟨t,?_,.cons put.runs puts⟩
    obtain ⟨fronted,counted⟩ := readsFrame "snapshot read: " short ((values.map frame).flatten ++ tail)
    have laid : frame value = leBytes 4 value.length ++ value := by rw [frame,Nat.mod_eq_of_lt short]
    rw [List.map_cons,List.map_cons,List.flatten_cons,List.append_assoc]
    unfold importFrames
    rw [fronted]
    refine cleanBind (cleanPure _ _) ?_
    dsimp only
    rw [counted]
    refine cleanBind (cleanPure _ _) ?_
    dsimp only
    rw [cleanGetBind,foot.decodes,decoded]
    refine cleanBind (cleanPure _ _) ?_
    rw [if_neg (by simp),if_neg ?_]
    · refine cleanBind put ?_
      rw [laid,← List.append_assoc,← List.append_assoc]
      exact loop
    · cases prev with
      | none => simp
      | some x => simp [above block rfl x rfl]

end Loop

section Carrying

theorem carriesAll {hashes : List Bytes32} (indexed : Indexed s) (coherent : Coherent s)
    (rows : ∀ block ∈ blocks, canonicalAt s.db block.height = some (block.hash crates))
    (reads : ∀ block ∈ blocks, ∀ value, (s.db .blocks)[hashKey (block.hash crates)]? = some value →
      Unframes crates d block value)
    (found : List.Forall₂ s.Offers (blocks.map L2Block.height) hashes) (bodies : List.Forall₂ s.BodyRow hashes values) :
    List.Forall₂ (Unframes crates d) blocks values := by
  induction blocks generalizing hashes values with
  | nil =>
    cases found
    cases bodies
    exact .nil
  | cons block rest ih =>
    obtain ⟨row,rows'⟩ := List.forall_mem_cons.mp rows
    obtain ⟨read,reads'⟩ := List.forall_mem_cons.mp reads
    cases found with
    | cons offers found' =>
      cases bodies with
      | cons held bodies' =>
        cases (offers.canonical indexed coherent).symm.trans row
        exact .cons (read _ held) (ih rows' reads' found' bodies')

theorem importCarried {start endHeight : UInt64} {manifest : SnapshotManifest} {bytes : Bytes} (codec : ManifestReads crates)
    {hashes : List Bytes32} (exported : Exported crates s start endHeight manifest bytes hashes values)
    (levels : blocks.map L2Block.height = heightsThrough start endHeight)
    (linked : blocks.IsChain fun below block => block.header.parentHash = below.hash crates)
    (pairs : List.Forall₂ (Unframes crates d) blocks values) (writes : d.readOnly = false)
    (idle : Trainless blocks.length d) (ready : d.canonicalBin.Ready)
    (fits : ∀ block ∈ blocks, d.canonicalBin.Accepts block.height)
    (encodes : ∀ block ∈ blocks, ∃ rows, d.encodedBlock crates block = .ok rows) :
    ∃ t, Clean (importSnapshot crates bytes) d (.ok {manifest with checksum := Bytes32.zero}) t ∧ Puts crates blocks d t := by
  obtain ⟨_,_,_,_,made,_⟩ := exported.root
  obtain ⟨head,serial,laid,sealed⟩ := exported.laid
  have bounds : manifest.version = snapshotVersion ∧ manifest.startHeight = start ∧ manifest.endHeight = endHeight := by
    rw [made]
    exact ⟨rfl,rfl,rfl⟩
  obtain ⟨t,loop,puts⟩ := @importFramesClean crates d d blocks values pairs (refl d) writes idle ready fits encodes none
    (fun _ _ _ bad => by cases bad) linked manifest.checksum.bytes head
  refine ⟨t,?_,puts⟩
  have last := readExactAppend "snapshot checksum read: " manifest.checksum.bytes []
  rw [manifest.checksum.length,List.append_nil] at last
  unfold importSnapshot
  rw [laid,List.append_assoc,codec _ _ _ serial]
  refine cleanBind (cleanPure _ _) ?_
  dsimp only
  rw [serial]
  refine cleanBind (cleanPure _ _) ?_
  rw [if_neg (by simp [bounds.1]),bounds.2.1,bounds.2.2,← levels]
  refine cleanBind loop ?_
  dsimp only
  rw [last]
  refine cleanBind (cleanPure _ _) ?_
  dsimp only
  rw [if_neg (by simp [sealed])]
  exact cleanPure _ _

theorem acceptsInside {bin : CanonicalBin} {height : UInt64} (writes : bin.writable = true) (fits : bin.Accepts height) :
    bin.mapping = true → height ≠ lastSlot := by
  cases bin with
  | rw dense =>
    rintro _ rfl
    exact absurd (show (slotEnd lastSlot).isSome from fits) (by decide)
  | ro mmap => cases writes
  | disabled left => exact fun bad => by cases bad

end Carrying

end Store

/- An export of linked canonical blocks is imported by every store that decodes each of its frames and
encodes each of its blocks, with the manifest that was written; a block of it ends at its height with a row
of its own exactly when it is new there, or held there already. -/
theorem snapshotCarried {crates : Crates} {s s' d : Store} {start endHeight : UInt64} {manifest : SnapshotManifest}
    {bytes : Bytes} {blocks : List L2Block} (codec : Store.ManifestReads crates) (source : ReachesUnshadowed crates s)
    (range : Store.LinkedRange crates s start endHeight blocks)
    (run : Runs (Store.exportSnapshot crates start endHeight) s (.ok (manifest,bytes)) s')
    (target : ReachesUnshadowed crates d) (writes : d.readOnly = false) (idle : Store.Trainless blocks.length d)
    (above : d.minRetainedHeightCached ≤ start) (fits : ∀ block ∈ blocks, d.canonicalBin.Accepts block.height)
    (reads : ∀ block ∈ blocks, ∀ value, (s.db .blocks)[hashKey (block.hash crates)]? = some value →
      Store.Unframes crates d block value)
    (encodes : ∀ block ∈ blocks, ∃ rows, d.encodedBlock crates block = .ok rows) :
    ∃ t, Clean (Store.importSnapshot crates bytes) d (.ok {manifest with checksum := Bytes32.zero}) t ∧
      ∀ block ∈ blocks, Store.Resolves t block.height (block.hash crates) ∧ Store.Holds crates t block ↔
        Store.Lands crates d block := by
  obtain ⟨indexed,coherent⟩ := reachesCoherent source
  obtain ⟨indexed',coherent'⟩ := reachesCoherent target
  obtain ⟨hashes,values,exported⟩ := Store.exportOk run
  have pairs := Store.carriesAll indexed coherent range.rows reads (by rw [range.levels]; exact exported.found) exported.rows
  obtain ⟨t,ran,puts⟩ := Store.importCarried codec exported range.levels range.linked pairs writes idle indexed'.bin.ready
    fits encodes
  refine ⟨t,ran,fun block mem => ?_⟩
  have levels : (blocks.map L2Block.height).Nodup := by
    rw [range.levels]
    exact heightsThroughNodup ..
  have low : ∀ block ∈ blocks, d.minRetainedHeightCached ≤ block.height := fun block mem => by
    have inside : block.height ∈ heightsThrough start endHeight := by
      rw [← range.levels]
      exact List.mem_map_of_mem mem
    exact UInt64.le_trans above (memHeightsThrough.mp inside).1
  obtain ⟨_,_,_,mapping⟩ := Store.putsFrame puts indexed'
  have inside : t.Inside block.height := by
    rw [Store.Inside,mapping]
    exact Store.acceptsInside (indexed'.writable writes) (fits block mem)
  rw [Store.resolvesIff crates (Store.putsIndexed puts indexed') inside]
  exact Store.landsIff puts indexed' coherent' levels range.hashes low mem

namespace Sample

theorem wiredReads : Store.ManifestReads wired := by
  rintro manifest head body serial
  cases serial
  have wide (n : UInt64) : n.toNat < 256 ^ 8 := n.toNat_lt
  have narrow (n : UInt32) : n.toNat < 256 ^ 4 := n.toNat_lt
  change decodeManifest (encodeManifest manifest ++ body) = _
  unfold decodeManifest
  rw [if_neg (by
    simp only [encodeManifest,word,List.length_append,beBytesLength,manifest.stateRoot.length,manifest.checksum.length]
    omega)]
  simp only [encodeManifest,wordAppend,List.append_assoc,unwordWord (narrow _),unwordWord (wide _),unhashHash,
    UInt32.ofNat_toNat,UInt64.ofNat_toNat]

def carriedBlocks : List L2Block := [block 0 0 1,block 1 1 2,block 2 2 3]

def wiredThree : Store := .after wired Store.tame config
  [.initGenesis (block 0 0 1),.extendChain (block 1 1 2),.extendChain (block 2 2 3)]

theorem carriedRange : Store.LinkedRange wired wiredThree 0 2 carriedBlocks where
  levels := by decide +kernel
  hashes := by decide +kernel
  rows := by decide +kernel
  linked := by decide +kernel

theorem carriedReads : ∀ own ∈ carriedBlocks, ∀ value, (wiredThree.db .blocks)[hashKey (own.hash wired)]? = some value →
    Store.Unframes wired bare own value := by
  have checked : ∀ own ∈ carriedBlocks, ((wiredThree.db .blocks)[hashKey (own.hash wired)]?.all fun value =>
      value.length < 2 ^ 32 && (bare.deserializeBlock wired value).toOption = some own) = true := by decide +kernel
  intro own mem value row
  have one := checked own mem
  rw [row,Option.all_some,Bool.and_eq_true] at one
  exact ⟨of_decide_eq_true one.1,Store.toOptionSome.mp (of_decide_eq_true one.2)⟩

theorem carriedEncodes : ∀ own ∈ carriedBlocks, ∃ rows, bare.encodedBlock wired own = .ok rows := by
  have checked : ∀ own ∈ carriedBlocks, (bare.encodedBlock wired own).toOption.isSome = true := by decide +kernel
  exact fun own mem => okOfIsSome (checked own mem)

end Sample

/- Three blocks carried to a store just opened. -/
theorem snapshotCarriedSample : ∃ manifest bytes t,
    (Store.exportSnapshot Sample.wired 0 2 ⟨Sample.wiredThree,[]⟩).1 = .ok (manifest,bytes) ∧
    Clean (Store.importSnapshot Sample.wired bytes) Sample.bare (.ok {manifest with checksum := Bytes32.zero}) t ∧
    ∀ own ∈ Sample.carriedBlocks, Store.Resolves t own.height (own.hash Sample.wired) ∧ Store.Holds Sample.wired t own := by
  have ran : (Store.exportSnapshot Sample.wired 0 2 ⟨Sample.wiredThree,[]⟩).1.toOption.isSome := by decide +kernel
  have few : Sample.bare.blockCount + Sample.carriedBlocks.length < dictTrainingThreshold := by decide +kernel
  have new : ∀ own ∈ Sample.carriedBlocks, (Sample.bare.db .blocks)[hashKey (own.hash Sample.wired)]? = none := by
    decide +kernel
  have on : Sample.bare.canonicalHeightCacheCapacity ≠ 0 := by decide +kernel
  cases out : (Store.exportSnapshot Sample.wired 0 2 ⟨Sample.wiredThree,[]⟩).1 with
  | error e =>
    rw [out] at ran
    cases ran
  | ok pair =>
    obtain ⟨t,imported,landed⟩ := snapshotCarried Sample.wiredReads (Store.afterTame (by decide +kernel)) Sample.carriedRange
      (Faulty.Runs.ofResult out) (Store.afterTame (by decide +kernel)) (by decide +kernel)
      (.inr (.inr ⟨by decide +kernel,few⟩)) (by decide +kernel) (by decide +kernel) Sample.carriedReads Sample.carriedEncodes
    exact ⟨pair.1,pair.2,t,rfl,imported,fun own mem => (landed own mem).mpr (.inl ⟨new own mem,.inl on⟩)⟩

end DigBlockstore
