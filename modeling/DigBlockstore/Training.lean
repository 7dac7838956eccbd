import DigBlockstore.Dictionary
import DigBlockstore.Recovery

/-! Reading across a training: what every run keeps readable, and the run of puts up to the
number of blocks that trains, with its plain rows and those of the dictionary. -/
namespace DigBlockstore
open ByteCodec Faulty ColumnStore Trace
namespace Store
variable {crates : Crates} {s t : Store}

theorem putBlockClean {block : L2Block} {frame headerBytes : Bytes} (writes : s.readOnly = false)
    (absent : (s.db .blocks)[hashKey (block.hash crates)]? = none) (body : s.serializeBlock crates block = .ok frame)
    (header : serializeHeader crates block.header = .ok headerBytes)
    (trained : Clean (maybeTrainDictionary crates) (s.ingested crates block false frame headerBytes) (.ok ()) t) :
    Clean (putBlock crates block false) s (.ok true) t := by
  unfold putBlock
  refine cleanBind (refuseReadOnlyClean _ writes) ?_
  dsimp only
  rw [cleanGetBind,absent,if_neg (by simp),body,header]
  refine cleanBind (cleanPure frame _) (cleanBind (cleanPure headerBytes _) (cleanBind (writeClean _ _) ?_))
  refine cleanBind (cleanPure () _) ?_
  rw [cleanModifyBind,cleanModifyBind,cleanModifyBind,cleanModifyBind]
  exact cleanBind trained (cleanPure _ _)

end Store

namespace Sample

def numbered (n : Nat) : L2Block :=
  {block 0 0 0 with header := {(block 0 0 0).header with stateRoot := ⟨beBytes 32 n,beBytesLength 32 n⟩}}

def numberedKey (n : Nat) : Bytes := hashKey ((numbered n).hash sealed)

theorem numberedApart {m n : Nat} (small : m < 256 ^ 32) (small' : n < 256 ^ 32) (same : numberedKey m = numberedKey n) : m = n :=
  beBytesInj small small' same

def plainFrame (n : Nat) : Bytes := 0 :: encodeBlock (numbered n)

/- A store that has not trained yet, with the plain rows of the blocks below a number. -/
structure Filling (n : Nat) (s : Store) : Prop where
  writes : s.readOnly = false
  use : s.useCompressionDict = true
  idle : s.zstdDict = none
  unwritten : s.persisted = none
  count : s.blockCount = n
  plain : ∀ key frame : Bytes, (s.db .blocks)[key]? = some frame → ∃ raw, frame = 0 :: raw
  rows : ∀ i, i < n → (s.db .blocks)[numberedKey i]? = some (plainFrame i)
  absent : ∀ i, n ≤ i → i < 256 ^ 32 → (s.db .blocks)[numberedKey i]? = none
  bare : s.db .canonical = ∅ ∧ (s.db .metadata)[metaTip]? = none

theorem createdFilling : Filling 0 (.created config) where
  writes := rfl
  use := rfl
  idle := rfl
  unwritten := rfl
  count := rfl
  plain key frame row := by
    change (∅ : Std.ExtTreeMap Bytes Bytes compare)[key]? = some frame at row
    rw [Std.ExtTreeMap.getElem?_empty] at row
    cases row
  rows _ bad := absurd bad (Nat.not_lt_zero _)
  absent _ _ _ := Std.ExtTreeMap.getElem?_empty
  bare := ⟨rfl,rfl⟩

def filled (s : Store) (n : Nat) (frame : Bytes) : Store :=
  s.ingested sealed (numbered n) false frame (encodeHeader (numbered n).header [])

theorem filledRow (s : Store) (n : Nat) (frame key : Bytes) :
    ((filled s n frame).db .blocks)[key]? = if key = numberedKey n then some frame else (s.db .blocks)[key]? := by
  change ((s.commit (Store.bodyRows _ frame _ ++ [])).db .blocks)[key]? = _
  rw [Store.getBodyRows _ _ _ (fun _ bad => by cases bad) (.inl rfl),if_neg (by simp)]
  by_cases here : key = numberedKey n
  · rw [if_pos ⟨rfl,here⟩,if_pos here]
  · rw [if_neg fun both => here both.2,if_neg here]

theorem Filling.fill {s : Store} {n : Nat} (filling : Filling n s) (small : n < 256 ^ 32) :
    Filling (n + 1) (filled s n (plainFrame n)) where
  writes := filling.writes
  use := filling.use
  idle := filling.idle
  unwritten := filling.unwritten
  count := by
    have fresh := filling.absent n (Nat.le_refl n) small
    change ((s.db .blocks).insert (numberedKey n) (plainFrame n)).size = n + 1
    rw [Std.ExtTreeMap.size_insert,if_neg (by rw [Std.ExtTreeMap.contains_eq_isSome_getElem?,fresh]; simp)]
    exact congrArg (· + 1) filling.count
  plain key frame row := by
    rw [filledRow] at row
    split at row
    · cases row
      exact ⟨_,rfl⟩
    · exact filling.plain key frame row
  rows i below := by
    rw [filledRow]
    by_cases here : i = n
    · rw [here,if_pos rfl]
    · rw [if_neg fun same => here (numberedApart (by omega) small same)]
      exact filling.rows i (by omega)
  absent i above wide := by
    rw [filledRow,if_neg fun same => by have := numberedApart wide small same; omega]
    exact filling.absent i (by omega) wide
  bare := filling.bare

theorem Filling.body {s : Store} {n : Nat} (filling : Filling n s) (block : L2Block) :
    s.serializeBlock sealed block = .ok (0 :: encodeBlock block) := by
  unfold Store.serializeBlock Store.activeDictionary
  rw [filling.use,filling.idle]
  rfl

theorem putsCall {s t : Store} {block : L2Block} (put : Clean (Store.putBlock sealed block false) s (.ok true) t) :
    Moves sealed config s (.call (.putBlock block false)) t :=
  ⟨.put _ _,_,(cleanBind put (cleanPure () _) : Clean (Store.call sealed (.putBlock block false)) s (.ok ()) t).runs⟩

theorem Filling.waits {s : Store} {n : Nat} (filling : Filling n s) (few : n < dictTrainingThreshold) :
    Clean (Store.maybeTrainDictionary sealed) s (.ok ()) s := by
  unfold Store.maybeTrainDictionary
  rw [cleanGetBind,if_neg (by rw [filling.use]; simp),if_neg (by rw [filling.idle]; simp),
    if_neg (by rw [show Store.loadZstdDictFromDb _ true = _ from filling.unwritten]; simp),if_pos (by rw [filling.count]; exact few)]
  exact cleanPure _ _

theorem Filling.samples {s : Store} {n : Nat} (filling : Filling n s) {frames : List Bytes}
    (rows : ∀ frame ∈ frames, ∃ raw, frame = 0 :: raw) : s.decompressSamples sealed frames = .ok (frames.map List.tail) := by
  induction frames with
  | nil => rfl
  | cons frame rest ih =>
    obtain ⟨raw,rfl⟩ := rows frame (by simp)
    rw [Store.decompressSamples,Store.decompressBlockPayload,Store.activeDictionary,filling.idle,ite_self,
      ih fun other mem => rows other (List.mem_cons_of_mem _ mem)]
    rfl

def taught (s : Store) : Store := {s.commit [.put .metadata metaZstdDict trainedDict] with zstdDict := some trainedDict}

theorem Filling.learns {s : Store} {n : Nat} (filling : Filling n s) (enough : dictTrainingThreshold ≤ n) :
    Clean (Store.maybeTrainDictionary sealed) s (.ok ()) (taught s) := by
  have length : ((s.db .blocks).toList.map Prod.snd).length = n := by
    rw [List.length_map,Std.ExtTreeMap.length_toList]
    exact filling.count
  have rows : ∀ frame ∈ ((s.db .blocks).toList.map Prod.snd).take dictTrainingThreshold, ∃ raw, frame = 0 :: raw := by
    intro frame mem
    obtain ⟨⟨key,own⟩,inside,rfl⟩ := List.mem_map.mp (List.mem_of_mem_take mem)
    exact filling.plain key own (Std.ExtTreeMap.mem_toList_iff_getElem?_eq_some.mp inside)
  have sampled : s.sampleBlockBodies sealed dictTrainingThreshold =
      .ok ((((s.db .blocks).toList.map Prod.snd).take dictTrainingThreshold).map List.tail) := by
    unfold Store.sampleBlockBodies
    dsimp only
    rw [if_neg (by omega)]
    exact filling.samples rows
  have made : sealed.fromSamples ((((s.db .blocks).toList.map Prod.snd).take dictTrainingThreshold).map List.tail)
      dictTargetSize = .ok trainedDict := by
    refine if_neg fun empty => ?_
    have none' := congrArg List.length empty
    rw [List.length_map,List.length_take,length,List.length_nil,Nat.min_eq_left enough] at none'
    exact absurd none' (by decide)
  have trained : Clean (Store.trainDictionary sealed) s (.ok trainedDict) (s.commit [.put .metadata metaZstdDict trainedDict]) := by
    unfold Store.trainDictionary
    rw [cleanGetBind,show Store.loadZstdDictFromDb _ true = _ from filling.unwritten]
    dsimp only
    rw [sampled]
    refine cleanBind (cleanPure _ _) ?_
    rw [made]
    exact cleanBind (cleanPure _ _) (cleanBind (Store.writeClean _ _) (cleanPure _ _))
  unfold Store.maybeTrainDictionary
  rw [cleanGetBind,if_neg (by rw [filling.use]; simp),if_neg (by rw [filling.idle]; simp),
    if_neg (by rw [show Store.loadZstdDictFromDb _ true = _ from filling.unwritten]; simp),if_neg (by rw [filling.count]; omega)]
  exact cleanBind trained (cleanModify _ _)

theorem Filling.puts {s t : Store} {n : Nat} (filling : Filling n s) (wide : n < 256 ^ 32)
    (trained : Clean (Store.maybeTrainDictionary sealed) (filled s n (plainFrame n)) (.ok ()) t) :
    Moves sealed config s (.call (.putBlock (numbered n) false)) t :=
  putsCall (Store.putBlockClean filling.writes (filling.absent n (Nat.le_refl n) wide) (filling.body _) rfl trained)

theorem filledTo (n : Nat) (few : n < dictTrainingThreshold) :
    ∃ t, Run (Moves sealed config) (.created config) ((List.range n).map fun i => .call (.putBlock (numbered i) false)) t ∧
      Filling n t := by
  induction n with
  | zero => exact ⟨_,.nil _,createdFilling⟩
  | succ n ih =>
    obtain ⟨s,run,filling⟩ := ih (by omega)
    have wide : n < 256 ^ 32 := Nat.lt_of_lt_of_le few (by decide) |>.trans_le' (by omega)
    have filled' := filling.fill wide
    refine ⟨_,?_,filled'⟩
    rw [List.range_succ,List.map_append]
    exact run.append (.cons (filling.puts wide (filled'.waits few)) (.nil _))

def manyPuts : List Growth := (List.range (dictTrainingThreshold + 1)).map fun i => .call (.putBlock (numbered i) false)

def keyedFrame : Bytes := 1 :: chunk trainedDict (encodeBlock (numbered dictTrainingThreshold))

theorem manyRun : ∃ s, Run (Moves sealed config) (.created config) manyPuts s ∧ s.persisted = some trainedDict ∧
    s.zstdDict = some trainedDict ∧ (s.db .blocks)[numberedKey 0]? = some (plainFrame 0) ∧
    (s.db .blocks)[numberedKey dictTrainingThreshold]? = some keyedFrame ∧ s.db .canonical = ∅ ∧
    (s.db .metadata)[metaTip]? = none := by
  obtain ⟨r,run,filling⟩ := filledTo (dictTrainingThreshold - 1) (by decide)
  have wide : dictTrainingThreshold - 1 < 256 ^ 32 ∧ dictTrainingThreshold < 256 ^ 32 := by decide
  have full : Filling dictTrainingThreshold (filled r (dictTrainingThreshold - 1) (plainFrame (dictTrainingThreshold - 1))) :=
    filling.fill wide.1
  generalize middle : filled r (dictTrainingThreshold - 1) (plainFrame (dictTrainingThreshold - 1)) = s at full
  have trains : Moves sealed config r (.call (.putBlock (numbered (dictTrainingThreshold - 1)) false)) (taught s) :=
    filling.puts wide.1 (by rw [middle]; exact full.learns (Nat.le_refl _))
  have metadata : ∀ key, key ≠ metaZstdDict → ((taught s).db .metadata)[key]? = (s.db .metadata)[key]? := fun key apart =>
    ColumnStore.frame fun write mem => by
      rw [List.mem_singleton.mp mem,effectPut,if_neg fun here => apart here.2.symm]
  have blocks : (taught s).db .blocks = s.db .blocks := rfl
  have absent : ((taught s).db .blocks)[numberedKey dictTrainingThreshold]? = none := full.absent _ (Nat.le_refl _) wide.2
  have body : (taught s).serializeBlock sealed (numbered dictTrainingThreshold) = .ok keyedFrame := by
    unfold Store.serializeBlock Store.activeDictionary
    rw [show (taught s).useCompressionDict = true from full.use]
    rfl
  have held : Clean (Store.maybeTrainDictionary sealed) (filled (taught s) dictTrainingThreshold keyedFrame) (.ok ())
      (filled (taught s) dictTrainingThreshold keyedFrame) := by
    unfold Store.maybeTrainDictionary
    rw [cleanGetBind,if_neg (by rw [show (filled (taught s) _ _).useCompressionDict = true from full.use]; simp)]
    exact cleanPure _ _
  have last : Moves sealed config (taught s) (.call (.putBlock (numbered dictTrainingThreshold) false))
      (filled (taught s) dictTrainingThreshold keyedFrame) := putsCall (Store.putBlockClean full.writes absent body rfl held)
  refine ⟨filled (taught s) dictTrainingThreshold keyedFrame,?_,?_,rfl,?_,?_,full.bare.1,?_⟩
  · have all := run.append (.cons trains (.cons last (.nil _)))
    have split : manyPuts = (List.range (dictTrainingThreshold - 1)).map (fun i => .call (.putBlock (numbered i) false)) ++
        [.call (.putBlock (numbered (dictTrainingThreshold - 1)) false),.call (.putBlock (numbered dictTrainingThreshold) false)] := by
      rw [manyPuts,List.range_succ,show dictTrainingThreshold = (dictTrainingThreshold - 1) + 1 from rfl,List.range_succ,
        List.map_append,List.map_append,List.append_assoc]
      rfl
    rw [split]
    exact all
  · exact @Store.persistedPut s trainedDict (by simp [trainedDict])
  · rw [filledRow,if_neg fun same => by have := numberedApart (by decide) wide.2 same; cases this]
    exact full.rows 0 (by decide)
  · rw [filledRow,if_pos rfl]
  · change ((taught s).db .metadata)[metaTip]? = none
    rw [metadata _ (by decide)]
    exact full.bare.2

theorem opensBare {db : Db} (rows : db .canonical = ∅) (head : (db .metadata)[metaTip]? = none) (use : Bool) :
    ∃ t disk, Runs (Store.openStore sealed {config with useCompressionDict := use}) ⟨db,none⟩ (.ok t) disk := by
  have dense : CanonicalBin.denseBytesFromCf sealed db = .ok [] := by
    unfold CanonicalBin.denseBytesFromCf
    rw [rows]
    rfl
  have tip : Store.loadTip db = .ok none := by
    unfold Store.loadTip
    rw [head]
  have opened := cleanZoom (p := Disk.canonicalBin) (q := fun file (d : Disk) => {d with canonicalBin := file}) (s := ⟨db,none⟩)
    (CanonicalBin.openWritable dense config.path none)
  have files : Clean (Store.openFiles sealed {config with useCompressionDict := use} false) ⟨db,none⟩
      (.ok (Store.fresh {config with useCompressionDict := use} false db (.rw ⟨[],true⟩)
        (Store.resolveZstdDictionary db use none) none)) ⟨db,some []⟩ := by
    unfold Store.openFiles
    refine cleanBind (cleanStep _ _) (cleanGetBind.mpr (cleanBind opened ?_))
    dsimp only
    rw [tip]
    exact cleanBind (cleanPure none _) (cleanPure _ _)
  exact ⟨_,_,Clean.runs (cleanBind (cleanStep _ _) (cleanBind files (cleanPure _ _)))⟩

theorem numberedLength (n : Nat) : (encodeBlock (numbered n)).length = 157 := by
  simp [encodeBlock,encodeHeader,word,beBytesLength,Bytes32.length,numbered,block,chunk]

theorem numberedBlock {block : L2Block} (mem : block ∈ manyPuts.flatMap Growth.blocks) :
    ∃ n, n ≤ dictTrainingThreshold ∧ block = numbered n := by
  obtain ⟨move,here,inside⟩ := List.mem_flatMap.mp mem
  obtain ⟨n,below,rfl⟩ := List.mem_map.mp here
  exact ⟨n,Nat.lt_succ_iff.mp (List.mem_range.mp below),List.mem_singleton.mp inside⟩

theorem numberedInj {m n : Nat} (small : m ≤ dictTrainingThreshold) (small' : n ≤ dictTrainingThreshold)
    (same : (numbered m).hash sealed = (numbered n).hash sealed) : numbered m = numbered n := by
  have wide : dictTrainingThreshold < 256 ^ 32 := by decide
  rw [numberedApart (by omega) (by omega) (congrArg hashKey same)]

/- A check whether to train, the cached bodies lost, and a restart. -/
def restart : List Growth := [.maybeTrainDictionary,.shed,.reopen]

theorem restarts {s : Store} (held : s.zstdDict = some trainedDict)
    (canonical : s.db .canonical = ∅) (head : (s.db .metadata)[metaTip]? = none) :
    ∃ t, Run (Moves sealed config) s restart t ∧ t.db = s.db := by
  obtain ⟨t,disk,opens⟩ := opensBare canonical head true
  have checks : Clean (Store.maybeTrainDictionary sealed) s (.ok ()) s := by
    unfold Store.maybeTrainDictionary
    rw [cleanGetBind]
    split
    · exact cleanPure _ _
    · rw [if_pos (by rw [held]; rfl)]
      exact cleanPure _ _
  obtain ⟨_,_,⟨_,_,_,rfl,_⟩,touched⟩ := Store.openStoreOk opens
  exact ⟨t,.cons ⟨_,checks.runs⟩ (.cons ⟨ShardedLruCache.new 0 1,rfl,fun _ _ bad => by simp at bad⟩
    (.cons ⟨none,disk,opens⟩ (.nil _))),touched.db⟩

end Sample

/- In any run of a store created without an override, a stored hash reads as the block of
the run that has it, and a persisted dictionary is never another one. -/
theorem storedBlocksRead {crates : Crates} (faithful : crates.Faithful) {config : BlockStoreConfig}
    (fixed : config.zstdDictionaryOverride = none) {start s t : Store} {before later : List Growth} {file : Option Bytes}
    {disk : Disk} (opened : Runs (Store.openStore crates config) ⟨fun _ => ∅,file⟩ (.ok start) disk)
    (reached : Run (Moves crates config) start before s) (goes : Run (Moves crates config) s later t)
    (named : ∀ block ∈ (before ++ later).flatMap Growth.blocks, ∀ other ∈ (before ++ later).flatMap Growth.blocks,
      block.hash crates = other.hash crates → block = other)
    (small : ∀ block ∈ (before ++ later).flatMap Growth.blocks, ∀ raw, crates.serializeBlock block = .ok raw →
      raw.length ≤ config.maxDecompressedBlockBytes) :
    (∀ hash, (t.db .blocks)[hashKey hash]?.isSome → ∃ block ∈ (before ++ later).flatMap Growth.blocks,
      block.hash crates = hash ∧ ∀ script, (Store.getBlock crates hash ⟨t,script⟩).1 = .ok (some block)) ∧
    ∀ dict, s.persisted = some dict → t.persisted = some dict := by
  generalize all : (before ++ later).flatMap Growth.blocks = blocks at named small ⊢
  rw [List.flatMap_append] at all
  let content := Store.namedBy crates blocks
  have suits : ∀ block ∈ blocks, Store.Suits crates config content block :=
    fun block mem => ⟨Store.namedByOwn named mem,small block mem⟩
  have fresh : Store.Preserves crates config content (.created config) start :=
    @Store.reopenPreserves crates config content (.created config) start faithful (Store.unoverriddenUsable fixed) file
      disk opened
  have legible := (fresh (Store.createdLegible (Store.unoverriddenUsable fixed))).1
  have first := Store.runPreserves faithful fixed reached (fun block mem => suits block (all ▸ List.mem_append_left _ mem)) legible
  have second := Store.runPreserves faithful fixed goes (fun block mem => suits block (all ▸ List.mem_append_right _ mem)) first.1
  refine ⟨fun hash stored => ?_,second.2⟩
  obtain ⟨block,known,_⟩ := second.1.getBlock faithful stored []
  obtain ⟨inside,own⟩ := Store.namedBySome known
  refine ⟨block,inside,own,fun script => ?_⟩
  obtain ⟨other,known',answer⟩ := second.1.getBlock faithful stored script
  rw [known] at known'
  cases known'
  exact answer

theorem storedBlocksReadSample : ∃ s t, Run (Moves Sample.sealed Sample.config) (.created Sample.config) Sample.manyPuts s ∧
    Run (Moves Sample.sealed Sample.config) s Sample.restart t ∧ s.persisted = some Sample.trainedDict ∧
    t.persisted = some Sample.trainedDict ∧ (t.db .blocks)[Sample.numberedKey 0]? = some (Sample.plainFrame 0) ∧
    (t.db .blocks)[Sample.numberedKey dictTrainingThreshold]? = some Sample.keyedFrame ∧
    ∀ n ∈ [0,dictTrainingThreshold], ∀ script,
      (Store.getBlock Sample.sealed ((Sample.numbered n).hash Sample.sealed) ⟨t,script⟩).1 = .ok (some (Sample.numbered n)) := by
  have opened : Runs (Store.openStore Sample.sealed Sample.config) ⟨fun _ => ∅,none⟩ (.ok (.created Sample.config)) _ :=
    Faulty.Runs.ofResult rfl
  obtain ⟨s,run,persisted,held,first,last,canonical,head⟩ := Sample.manyRun
  obtain ⟨t,goes,same⟩ := Sample.restarts held canonical head
  have blocks : (Sample.manyPuts ++ Sample.restart).flatMap Growth.blocks = Sample.manyPuts.flatMap Growth.blocks := by
    rw [List.flatMap_append,show Sample.restart.flatMap Growth.blocks = [] from rfl,List.append_nil]
  have reads := storedBlocksRead Sample.sealedFaithful rfl opened run goes
    (by
      rw [blocks]
      intro block mem other mem' alike
      obtain ⟨m,small,rfl⟩ := Sample.numberedBlock mem
      obtain ⟨n,small',rfl⟩ := Sample.numberedBlock mem'
      exact Sample.numberedInj small small' alike)
    (by
      rw [blocks]
      intro block mem raw encoded
      obtain ⟨n,_,rfl⟩ := Sample.numberedBlock mem
      cases encoded
      rw [Sample.numberedLength]
      decide +kernel)
  rw [← same] at first last
  refine ⟨s,t,run,goes,persisted,reads.2 _ persisted,first,last,fun n mem script => ?_⟩
  have within : n ≤ dictTrainingThreshold := by
    simp only [List.mem_cons,List.not_mem_nil,or_false] at mem
    rcases mem with rfl | rfl
    · exact Nat.zero_le _
    · exact Nat.le_refl _
  have stored : (t.db .blocks)[Sample.numberedKey n]?.isSome := by
    simp only [List.mem_cons,List.not_mem_nil,or_false] at mem
    rcases mem with rfl | rfl
    · rw [first]
      rfl
    · rw [last]
      rfl
  obtain ⟨block,inside,named,answer⟩ := reads.1 _ stored
  rw [blocks] at inside
  obtain ⟨m,small,rfl⟩ := Sample.numberedBlock inside
  rw [answer script,Sample.numberedInj small within named]

end DigBlockstore
