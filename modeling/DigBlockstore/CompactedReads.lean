import DigBlockstore.BatchReads
import DigBlockstore.Compactions
import DigBlockstore.Dictionary
import DigBlockstore.RetainedRuns

/-! What a compaction of every row leaves: the headers from the floor up, their bodies, and the
bodies below it that the plain decoder cannot open. The caches and the index are not told. -/
namespace DigBlockstore
open ByteCodec Faulty ColumnStore PartialMap Trace
namespace Store
variable {crates : Crates} {content : Bytes32 → L2BlockHeader} {s t : Store} {x : Bytes32}

section Presence

def Plain (crates : Crates) (frame : Bytes) : Prop := ∃ raw, crates.decodeAll frame = .ok raw

/- `has_block`, `get_block` and `get_header` say the same of a hash. -/
structure Concurs (crates : Crates) (s : Store) (x : Bytes32) : Prop where
  body : ∀ script, ∃ found, (getBlock crates x ⟨s,script⟩).1 = .ok found ∧ found.isSome = s.hasBlock x
  header : ∀ script, ∃ found, (getHeader crates x ⟨s,script⟩).1 = .ok found ∧ found.isSome = s.hasBlock x

def BodyDecodes (crates : Crates) (s : Store) (x : Bytes32) : Prop :=
  s.blockCache.peek x = none → ∀ frame, (s.db .blocks)[hashKey x]? = some frame →
    ∃ block, s.deserializeBlock crates frame = .ok block

def HasBody (s : Store) (x : Bytes32) : Prop := (s.blockCache.peek x).isSome ∨ (s.db .blocks)[hashKey x]?.isSome

def HasHeader (s : Store) (x : Bytes32) : Prop := (s.headerCache.peek x).isSome ∨ s.Stored x

theorem hasBlockIff : s.hasBlock x = true ↔ s.HasBody x ∨ s.HasHeader x := by
  unfold hasBlock HasBody HasHeader Stored
  simp only [ShardedLruCache.contains,Bool.or_eq_true]
  constructor
  · rintro (((body | header) | row) | row)
    · exact .inl (.inl body)
    · exact .inr (.inl header)
    · exact .inr (.inr row)
    · exact .inl (.inr row)
  · rintro ((body | row) | header | row)
    · exact .inl (.inl (.inl body))
    · exact .inr row
    · exact .inl (.inl (.inr header))
    · exact .inl (.inr row)

theorem bodyFound (script : List Event) (b : Bool) :
    (∃ found, (getBlock crates x ⟨s,script⟩).1 = .ok found ∧ found.isSome = b) ↔ s.BodyDecodes crates x ∧ (b = true ↔ s.HasBody x) := by
  rw [getBlockAnswers,blockAnswer]
  unfold BodyDecodes HasBody
  cases s.blockCache.peek x with
  | some block => cases b <;> simp
  | none =>
    cases row : (s.db .blocks)[hashKey x]? with
    | none => cases b <;> simp
    | some frame =>
      dsimp only
      cases decoded : s.deserializeBlock crates frame with
      | error e => cases b <;> simp [decoded]
      | ok block => cases b <;> simp [decoded]

theorem headerFound (lawful : crates.Lawful) (filed : Filed crates content s) (script : List Event) (b : Bool) :
    (∃ found, (getHeader crates x ⟨s,script⟩).1 = .ok found ∧ found.isSome = b) ↔ (b = true ↔ s.HasHeader x) := by
  unfold Store.getHeader HasHeader Stored
  simp only [bind,Op.bind,Op.get,Op.modify,ShardedLruCache.getClone]
  cases s.headerCache.peek x with
  | some header => cases b <;> simp [pure]
  | none =>
    dsimp only
    cases row : (s.db .headers)[hashKey x]? with
    | none => cases b <;> simp [pure]
    | some raw =>
      dsimp only
      rw [deserializeHeader,lawful.header _ _ (filed.headerRow x raw row)]
      constructor
      · rintro ⟨found,same,rfl⟩
        cases same
        simp
      · intro same
        exact ⟨some (content x),rfl,by simpa using same⟩

theorem concursIff (lawful : crates.Lawful) (filed : Filed crates content s) :
    s.Concurs crates x ↔ s.BodyDecodes crates x ∧ (s.HasBody x ↔ s.HasHeader x) := by
  have has := @hasBlockIff s x
  constructor
  · rintro ⟨body,header⟩
    obtain ⟨decodes,hasBody⟩ := (bodyFound [] _).mp (body [])
    have hasHeader := (headerFound lawful filed [] _).mp (header [])
    exact ⟨decodes,hasBody.symm.trans hasHeader⟩
  · rintro ⟨decodes,same⟩
    refine ⟨fun script => (bodyFound script _).mpr ⟨decodes,has.trans ?_⟩,
      fun script => (headerFound lawful filed script _).mpr (has.trans ?_)⟩
    · rw [same,or_self]
    · rw [same,or_self]

end Presence

section Compacting

def everyRow (_ : Cf) (_ : Bytes) : Bool := true

theorem fullCompaction {v : Unit} (on : s.compactionPruning = true) (h : Runs (compaction crates everyRow) s (.ok v) t) :
    t = s.compacted crates everyRow := by
  rw [(runsModify.mp h).2,if_pos on]

theorem compactedSome (cf : Cf) (key : Bytes) : ((s.compacted crates everyRow).db cf)[key]?.isSome ↔
    ∃ value, (s.db cf)[key]? = some value ∧ ¬filterRemoves crates s.minRetainedHeightCached cf value = true := by
  rw [compactedRow]
  cases (s.db cf)[key]? with
  | none => simp
  | some value => simp [everyRow,Option.filter_some]

theorem compactionRuns (on : s.compactionPruning = true) :
    Runs (compaction crates everyRow) s (.ok ()) (s.compacted crates everyRow) :=
  runsModify.mpr ⟨rfl,(if_pos on).symm⟩

theorem compactedHeader (lawful : crates.Lawful) (filed : Filed crates content s) :
    (s.compacted crates everyRow).Stored x ↔ s.Stored x ∧ s.minRetainedHeightCached ≤ (content x).height := by
  have kept {raw : Bytes} (row : (s.db .headers)[hashKey x]? = some raw) :
      ¬filterRemoves crates s.minRetainedHeightCached .headers raw = true ↔ s.minRetainedHeightCached ≤ (content x).height := by
    unfold filterRemoves
    split
    · rename_i zero
      rw [zero]
      simp
    · dsimp only
      rw [lawful.header _ _ (filed.headerRow x raw row)]
      simp
  unfold Stored
  rw [compactedSome,Option.isSome_iff_exists]
  constructor
  · rintro ⟨raw,row,spared⟩
    exact ⟨⟨raw,row⟩,(kept row).mp spared⟩
  · rintro ⟨⟨raw,row⟩,above⟩
    exact ⟨raw,row,(kept row).mpr above⟩

theorem compactedBody (lawful : crates.Lawful) (filed : Filed crates content s) :
    ((s.compacted crates everyRow).db .blocks)[hashKey x]?.isSome ↔ ∃ frame, (s.db .blocks)[hashKey x]? = some frame ∧
      (s.minRetainedHeightCached ≤ (content x).height ∨ ¬Plain crates frame) := by
  rw [compactedSome]
  refine exists_congr fun frame => and_congr_right fun row => ?_
  obtain ⟨block,⟨raw,serialized,packed⟩,same⟩ := filed.bodyRow x frame row
  unfold filterRemoves Plain
  split
  · rename_i zero
    rw [zero]
    simp
  · dsimp only
    cases decoded : crates.decodeAll frame with
    | error why => simp
    | ok found =>
      dsimp only
      rw [lawful.decodeAll _ _ _ packed decoded,lawful.block _ _ serialized,← same]
      simp only [L2Block.height,Bool.not_eq_true,Except.ok.injEq,exists_eq',not_true_eq_false,or_false]
      exact decide_eq_false_iff_not.trans UInt64.not_lt

theorem compactedAbove (lawful : crates.Lawful) (housed : Housed crates content s)
    (filed : Filed crates content (s.compacted crates everyRow)) (above : s.minRetainedHeightCached ≤ (content x).height) :
    (((s.compacted crates everyRow).db .blocks)[hashKey x]?.isSome ↔ (s.compacted crates everyRow).Stored x) ∧
    ((s.compacted crates everyRow).Concurs crates x ↔ s.BodyDecodes crates x) := by
  have body : ((s.compacted crates everyRow).db .blocks)[hashKey x]? = (s.db .blocks)[hashKey x]? := by
    rw [compactedRow]
    cases row : (s.db .blocks)[hashKey x]? with
    | none => rfl
    | some frame => rw [Option.filter_some,if_pos (by rw [housed.filed.spared lawful above (.inl rfl) row]; simp)]
  have header : (s.compacted crates everyRow).Stored x ↔ s.Stored x :=
    (compactedHeader lawful housed.filed).trans (and_iff_left above)
  have paired := housed.retains.paired x above
  have cached (mentioned : s.Mentions x) : s.Stored x := housed.retains.cached x mentioned above
  refine ⟨by rw [body,header]; exact paired,?_⟩
  rw [concursIff lawful filed]
  have same : (s.compacted crates everyRow).HasBody x ↔ (s.compacted crates everyRow).HasHeader x := by
    unfold HasBody HasHeader
    rw [body,header]
    constructor
    · rintro (held | row)
      · exact .inr (cached (.inr (.inl held)))
      · exact .inr (paired.mp row)
    · rintro (held | row)
      · exact .inr (paired.mpr (cached (.inl held)))
      · exact .inr (paired.mpr row)
  have decodes : (s.compacted crates everyRow).BodyDecodes crates x ↔ s.BodyDecodes crates x := by
    unfold BodyDecodes
    rw [body]
    exact Iff.rfl
  rw [decodes]
  exact and_iff_left same

theorem compactedBelow (lawful : crates.Lawful) (filed : Filed crates content s)
    (filed' : Filed crates content (s.compacted crates everyRow)) (below : (content x).height < s.minRetainedHeightCached)
    (gone : ((s.compacted crates everyRow).db .blocks)[hashKey x]? = none) :
    (s.compacted crates everyRow).Concurs crates x ↔ ((s.blockCache.peek x).isSome ↔ (s.headerCache.peek x).isSome) := by
  have header : ¬(s.compacted crates everyRow).Stored x := fun stored =>
    UInt64.not_lt.mpr ((compactedHeader lawful filed).mp stored).2 below
  rw [concursIff lawful filed']
  unfold BodyDecodes HasBody HasHeader
  rw [gone]
  constructor
  · rintro ⟨_,same⟩
    exact ⟨fun body => (same.mp (.inl body)).resolve_right header,
      fun held => (same.mpr (.inl held)).resolve_right (by simp)⟩
  · intro same
    refine ⟨fun _ _ bad => by (cases bad),fun body => ?_,fun either => ?_⟩
    · exact .inl (same.mp (body.resolve_right (by simp)))
    · exact .inl (same.mpr (either.resolve_right header))

end Compacting

end Store

namespace Sample

def ungenesis (_ : Store) : Call → Bool
  | .initGenesis _ => false
  | _ => true

theorem afterOriginal {crates : Crates} {config : BlockStoreConfig} {calls : List Call}
    (done : (Store.exec crates ungenesis calls (.created config)).isSome = true) :
    ReachesOriginal crates (.after crates ungenesis config calls) :=
  have sound : ∀ s c, ungenesis s c = true → Original crates s (.call c) := fun _ c passed => by
    cases c with
    | initGenesis _ => cases passed
    | _ => trivial
  ⟨_,_,Store.createdOpened crates config,Store.execRun sound (Store.afterExec done)⟩

def lateCalls : List Call :=
  [.putBlock (block 0 0 1) true,.putBlock (block 5 1 2) true,.pruneBeforeHeight 3,.putBlock (block 1 1 4) true,
    .putBlock (block 6 2 5) true]

def late : Store := .after crates ungenesis {pruning with blockCacheCapacity := 1} lateCalls

def lateFiltered : Store := late.compacted crates Store.everyRow

theorem lateCompacts : ReachesOriginal crates late ∧ late.compactionPruning = true ∧
    Runs (Store.compaction crates Store.everyRow) late (.ok ()) lateFiltered := by
  have on : late.compactionPruning = true := by decide +kernel
  refine ⟨afterOriginal (by decide +kernel),on,?_⟩
  unfold lateFiltered
  exact Store.compactionRuns on

def latePacked : Store := .after sealed ungenesis {pruning with zstdDictionaryOverride := some trainedDict} lateCalls

def packedFiltered : Store := latePacked.compacted sealed Store.everyRow

theorem packedCompacts : ReachesOriginal sealed latePacked ∧ latePacked.compactionPruning = true ∧
    Runs (Store.compaction sealed Store.everyRow) latePacked (.ok ()) packedFiltered := by
  have on : latePacked.compactionPruning = true := by decide +kernel
  refine ⟨afterOriginal (by decide +kernel),on,?_⟩
  unfold packedFiltered
  exact Store.compactionRuns on

end Sample

/- After a compaction of every row the headers are those from the floor up, the bodies these and
the frames below it that the plain decoder refuses, and the canonical rows are as they were. A
block from the floor up is in both columns or neither and answered alike where its body can be
read; one below it is, when its body is gone, where the two caches agree on it. -/
theorem compactionFilters {crates : Crates} (lawful : crates.Lawful) {s t : Store} (reached : ReachesOriginal crates s)
    (on : s.compactionPruning = true) {v : Unit} (h : Runs (Store.compaction crates Store.everyRow) s (.ok v) t) :
    ∃ content, s.Filed crates content ∧ t.Filed crates content ∧
      (∀ x, t.Stored x ↔ s.Stored x ∧ s.minRetainedHeightCached ≤ (content x).height) ∧
      (∀ x, (t.db .blocks)[hashKey x]?.isSome ↔ ∃ frame, (s.db .blocks)[hashKey x]? = some frame ∧
        (s.minRetainedHeightCached ≤ (content x).height ∨ ¬Store.Plain crates frame)) ∧
      (∀ x, s.minRetainedHeightCached ≤ (content x).height →
        ((t.db .blocks)[hashKey x]?.isSome ↔ t.Stored x) ∧ (t.Concurs crates x ↔ s.BodyDecodes crates x)) ∧
      (∀ x, (content x).height < s.minRetainedHeightCached → (t.db .blocks)[hashKey x]? = none →
        (t.Concurs crates x ↔ ((s.blockCache.peek x).isSome ↔ (s.headerCache.peek x).isSome))) ∧
      t.db .canonical = s.db .canonical ∧
      ∀ n x, s.minRetainedHeightCached ≤ n → canonicalAt t.db n = some x → t.Stored x := by
  obtain ⟨content,housed⟩ := reachesHoused lawful reached
  have filed : t.Filed crates content := (Store.compactionKeeps h).filed housed.filed
  obtain rfl := Store.fullCompaction on h
  have canonical : (s.compacted crates Store.everyRow).db .canonical = s.db .canonical :=
    Store.compactedAside Store.everyRow Store.canonicalUnfiltered
  refine ⟨content,housed.filed,filed,fun x => Store.compactedHeader lawful housed.filed,
    fun x => Store.compactedBody lawful housed.filed,fun x above => Store.compactedAbove lawful housed filed above,
    fun x below gone => Store.compactedBelow lawful housed.filed filed below gone,canonical,fun n x above row => ?_⟩
  have tier : s.Tier n x := .inr (by unfold canonicalAt at row ⊢; rwa [canonical] at row)
  obtain ⟨stored,height⟩ := housed.retains.tiers n x above tier
  exact (Store.compactedHeader lawful housed.filed).mpr ⟨stored,by rw [height]; exact above⟩

theorem compactionFiltersSample : ∃ content, Sample.lateFiltered.Filed Sample.crates content ∧
    (∀ x, Sample.lateFiltered.Stored x ↔ Sample.late.Stored x ∧ Sample.late.minRetainedHeightCached ≤ (content x).height) ∧
    Sample.lateFiltered.db .canonical = Sample.late.db .canonical := by
  obtain ⟨reached,on,compacts⟩ := Sample.lateCompacts
  obtain ⟨content,_,filed,headers,_,_,_,canonical,_⟩ := compactionFilters Sample.lawful reached on compacts
  exact ⟨content,filed,headers,canonical⟩

/- A block put below the floor leaves its canonical row and its cached header behind, and its body
row as well where that is in a frame of a dictionary. -/
theorem compactionLeaves :
    ((ReachesOriginal Sample.crates Sample.late ∧ Sample.late.compactionPruning = true ∧
      Runs (Store.compaction Sample.crates Store.everyRow) Sample.late (.ok ()) Sample.lateFiltered) ∧
      Sample.late.minRetainedHeightCached = 3 ∧ (Sample.late.db .blocks)[hashKey (Sample.hash 4)]?.isSome ∧
      (Sample.lateFiltered.db .blocks)[hashKey (Sample.hash 4)]? = none ∧
      (Sample.lateFiltered.db .headers)[hashKey (Sample.hash 4)]? = none ∧
      canonicalAt Sample.lateFiltered.db 1 = some (Sample.hash 4) ∧
      Sample.lateFiltered.hasBlock (Sample.hash 4) = true ∧
      (Store.getBlock Sample.crates (Sample.hash 4) ⟨Sample.lateFiltered,[]⟩).1 = .ok none ∧
      (Store.getHeader Sample.crates (Sample.hash 4) ⟨Sample.lateFiltered,[]⟩).1 = .ok (some (Sample.block 1 1 4).header)) ∧
    (ReachesOriginal Sample.sealed Sample.latePacked ∧ Sample.latePacked.compactionPruning = true ∧
      Runs (Store.compaction Sample.sealed Store.everyRow) Sample.latePacked (.ok ()) Sample.packedFiltered) ∧
      Sample.latePacked.minRetainedHeightCached = 3 ∧
      Sample.packedFiltered.bodyAt Sample.sealed (Sample.hash 4) = some (Sample.block 1 1 4) ∧
      (Sample.packedFiltered.db .headers)[hashKey (Sample.hash 4)]? = none :=
  ⟨⟨Sample.lateCompacts,by decide +kernel,by decide +kernel,by decide +kernel,by decide +kernel,by decide +kernel,
    by decide +kernel,by decide +kernel,by decide +kernel⟩,Sample.packedCompacts,by decide +kernel,by decide +kernel,
    by decide +kernel⟩

end DigBlockstore
