import DigBlockstore.CompactedReads

/-! What a prune clears below its height: the rows and cached copies of every stored block there,
and the canonical rows from the old floor up. -/
namespace DigBlockstore
open ByteCodec Faulty ColumnStore PartialMap Trace
namespace Store
variable {crates : Crates} {content : Bytes32 → L2BlockHeader} {s t u : Store} {x : Bytes32} {height : UInt64} {plan : PrunePlan}

structure Forgets (crates : Crates) (s : Store) (x : Bytes32) : Prop where
  body : ∀ script, (getBlock crates x ⟨s,script⟩).1 = .ok none
  header : ∀ script, (getHeader crates x ⟨s,script⟩).1 = .ok none
  record : ∀ script, (getRecord crates x ⟨s,script⟩).1 = .ok none
  has : s.hasBlock x = false

/- The blocks below a height are gone and counted, and nothing at or above it moved. -/
structure Clears (crates : Crates) (content : Bytes32 → L2BlockHeader) (s t : Store) (height : UInt64) (n : Nat) : Prop where
  rows : ∀ x, (content x).height < height → (t.db .blocks)[hashKey x]? = none ∧ (t.db .headers)[hashKey x]? = none
  attested : ∀ x, (content x).height < height → s.Stored x ∨ (s.db .blocks)[hashKey x]?.isSome →
    (t.db .attested)[hashKey x]? = none
  index : ∀ h, h < height → (t.db .canonical)[heightKey h]? = none
  reads : ∀ x, (content x).height < height → t.Forgets crates x
  heights : ∀ h, h < height → ∀ script, (getHashByHeight h ⟨t,script⟩).1 = .ok none
  count : s.blockCount = t.blockCount + n
  kept : ∀ x, height ≤ (content x).height → ∀ cf, cf = .blocks ∨ cf = .headers ∨ cf = .attested →
    (t.db cf)[hashKey x]? = (s.db cf)[hashKey x]?
  indexKept : ∀ h, height ≤ h → (t.db .canonical)[heightKey h]? = (s.db .canonical)[heightKey h]?
  floorRow : (t.db .metadata)[metaMinHeight]? = some (toLeBytes height)
  floor : t.minRetainedHeightCached = height

section Reading

theorem forgetsIff (lawful : crates.Lawful) (filed : Filed crates content s) : s.Forgets crates x ↔ ¬s.Heard x := by
  constructor
  · rintro ⟨body,header,record,has⟩ heard
    have none' : ¬(s.HasBody x ∨ s.HasHeader x) := fun either => by
      rw [hasBlockIff.mpr either] at has
      cases has
    rcases heard with (held | held | held) | stored | row
    · exact none' (.inr (.inl held))
    · exact none' (.inl (.inl held))
    · obtain ⟨found,cached⟩ := Option.isSome_iff_exists.mp held
      have answer := record []
      simp only [getRecord,bind,Op.bind,Op.get,cached] at answer
      cases answer
    · exact none' (.inr (.inr stored))
    · exact none' (.inl (.inr row))
  · intro unheard
    have none' : ¬(s.HasBody x ∨ s.HasHeader x) := by
      rintro ((held | row) | held | stored)
      · exact unheard (.inl (.inr (.inl held)))
      · exact unheard (.inr (.inr row))
      · exact unheard (.inl (.inl held))
      · exact unheard (.inr (.inl stored))
    have unstored : (s.db .headers)[hashKey x]? = none := Option.not_isSome_iff_eq_none.mp fun row => unheard (.inr (.inl row))
    refine ⟨fun script => ?_,fun script => ?_,fun script => ?_,?_⟩
    · have decodes : s.BodyDecodes crates x := fun _ frame row => absurd (.inl (.inr (by rw [row]; rfl))) none'
      obtain ⟨found,same,empty⟩ := (@bodyFound crates s x script false).mpr
        ⟨decodes,fun bad => (by cases bad),fun held => absurd (.inl held) none'⟩
      rw [same,Option.isSome_eq_false_iff.mp empty |> Option.isNone_iff_eq_none.mp]
    · obtain ⟨found,same,empty⟩ := (headerFound lawful filed script false).mpr
        ⟨fun bad => (by cases bad),fun held => absurd (.inr held) none'⟩
      rw [same,Option.isSome_eq_false_iff.mp empty |> Option.isNone_iff_eq_none.mp]
    · obtain ⟨_,_,_,ran⟩ := getRecordAnswers (filed.reads lawful x) script
      have record : s.recordCache x = none :=
        Option.not_isSome_iff_eq_none.mp fun held => unheard (.inl (.inr (.inr held)))
      have header : s.headerCache.peek x = none := Option.not_isSome_iff_eq_none.mp fun held => unheard (.inl (.inl held))
      rw [ran,recordAt,record,header,headerAt,unstored]
      rfl
    · exact Bool.eq_false_iff.mpr fun has => none' (hasBlockIff.mp has)

end Reading

section Planning

theorem Pruning.lists (lawful : crates.Lawful) (filed : Filed crates content s) (retains : Retains content s)
    (pruning : Pruning crates s u height plan) : x ∈ plan.hashes ↔ s.Stored x ∧ (content x).height < height := by
  constructor
  · intro mem
    refine ⟨?_,pruning.below lawful filed (fun h y above tier => (retains.tiers h y above tier).2) x mem⟩
    rcases List.mem_append.mp mem with found | fork
    · obtain ⟨row,inside,rfl⟩ := List.mem_map.mp found
      obtain ⟨low,_,tier⟩ := pruning.sound row inside
      exact (retains.tiers _ _ low tier).1
    · rw [pruning.forks] at fork
      obtain ⟨_,raw,_,inside,_⟩ := memPruneForks.mp fork
      rw [Stored,Std.ExtTreeMap.mem_toList_iff_getElem?_eq_some.mp inside]
      rfl
  · rintro ⟨stored,below⟩
    obtain ⟨raw,row⟩ := Option.isSome_iff_exists.mp stored
    by_cases canonical : x ∈ plan.rows.map Prod.snd
    · exact List.mem_append_left _ canonical
    · refine List.mem_append_right _ ?_
      rw [pruning.forks]
      exact memPruneForks.mpr ⟨canonical,raw,content x,Std.ExtTreeMap.mem_toList_iff_getElem?_eq_some.mpr row,
        by rw [deserializeHeader,lawful.header _ _ (filed.headerRow x raw row)]; rfl,below⟩

theorem memForkKey {canonical : List Bytes32} {row : Bytes × Bytes} {hash : Bytes32}
    (listed : hash ∈ pruneForks crates height canonical [row]) : row.1 = hashKey hash := by
  obtain ⟨_,raw,_,mem,_⟩ := memPruneForks.mp listed
  rw [← List.mem_singleton.mp mem]

theorem pruneForksNodup {canonical : List Bytes32} {rows : List (Bytes × Bytes)}
    (distinct : rows.Pairwise fun a b => a.1 ≠ b.1) : (pruneForks crates height canonical rows).Nodup := by
  refine distinct.filterMap _ fun a a' apart hash found hash' found' same => apart ?_
  have key : a.1 = hashKey hash := memForkKey (List.mem_filterMap.mpr ⟨a,List.mem_singleton_self a,found⟩)
  have key' : a'.1 = hashKey hash' := memForkKey (List.mem_filterMap.mpr ⟨a',List.mem_singleton_self a',found'⟩)
  rw [key,key',same]

theorem Pruning.nodup (retains : Retains content s) (pruning : Pruning crates s u height plan) : plan.hashes.Nodup := by
  have heights : (plan.rows.map Prod.snd).map (fun x => (content x).height) = plan.rows.map Prod.fst := by
    rw [List.map_map]
    refine List.map_congr_left fun row mem => ?_
    obtain ⟨low,_,tier⟩ := pruning.sound row mem
    exact (retains.tiers _ _ low tier).2
  refine List.nodup_append'.mpr ⟨.of_map (fun x => (content x).height) (heights ▸ pruning.distinct),?_,fun x found fork => ?_⟩
  · rw [pruning.forks]
    exact pruneForksNodup (Std.ExtTreeMap.distinct_keys_toList.imp fun apart same => apart (Std.compare_eq_iff_eq.mpr same))
  · rw [pruning.forks] at fork
    exact (memPruneForks.mp fork).1 found

theorem Pruning.counts (retains : Retains content s) (pruning : Pruning crates s u height plan) :
    s.blockCount = (u.pruned height plan).blockCount + plan.hashes.length ↔
      ∀ x ∈ plan.hashes, (s.db .blocks)[hashKey x]?.isSome := by
  have distinct : (plan.hashes.map hashKey).Nodup := (pruning.nodup retains).map fun _ _ => hashKeyInj.mp
  have erased : (s.db .blocks).size = ((u.pruned height plan).db .blocks).size +
      ((plan.hashes.map hashKey).filter (s.db .blocks).contains).length := sizeErased distinct fun key => by
    rw [prunedDb,pruneFrame plan height u.db (.inl rfl),pruning.touched.db]
    simp [List.mem_map,eq_comm]
  have wide : plan.hashes.length = (plan.hashes.map hashKey).length := (List.length_map _).symm
  rw [blockCount,blockCount,erased,Nat.add_left_cancel_iff,wide,
    List.length_filter_eq_length_iff]
  simp

end Planning

section Clearing

theorem Pruning.heard (pruning : Pruning crates s u height plan) :
    (u.pruned height plan).Heard x ↔ x ∉ plan.hashes ∧ s.Heard x := by
  have warmed : u = {s with canonicalHeightCache := u.canonicalHeightCache} := pruning.warmed
  have header : u.headerCache = s.headerCache := by rw [warmed]
  have body : u.blockCache = s.blockCache := by rw [warmed]
  have record : u.recordCache = s.recordCache := by rw [warmed]
  obtain ⟨headers,bodies,records⟩ := prunedMentions (u := u) height plan x
  unfold Heard Mentions Stored
  rw [headers,bodies,records,prunedRow plan height (.inl rfl),prunedRow plan height (.inr (.inl rfl)),pruning.touched.db,
    header,body,record]
  by_cases listed : x ∈ plan.hashes
  · simp [listed]
  · simp [listed]

theorem Pruning.indexRow (pruning : Pruning crates s u height plan) {h : UInt64} (above : height ≤ h) :
    ((u.pruned height plan).db .canonical)[heightKey h]? = (s.db .canonical)[heightKey h]? := by
  rw [prunedDb,← pruning.touched.db]
  refine ColumnStore.frame fun write mem => ?_
  rcases pruneWrite mem with ⟨hash,_,body⟩ | ⟨row,inside,rfl⟩ | rfl
  · exact effectOtherColumn (bodyDeletesColumn body).1 _
  · obtain ⟨_,below,_⟩ := pruning.sound row inside
    rw [effectDelete,if_neg]
    rintro ⟨_,same⟩
    rw [heightKeyInj.mp same] at below
    exact UInt64.not_lt.mpr above below
  · simp [effectPut]

theorem Pruning.indexBelow (indexed : Indexed s) (pruning : Pruning crates s u height plan) {h : UInt64} (below : h < height) :
    ((u.pruned height plan).db .canonical)[heightKey h]? = none ↔
      (h < s.minRetainedHeightCached → (s.db .canonical)[heightKey h]? = none) := by
  have shift := pruneShift indexed pruning
  rw [← canonicalNoneIff shift.indexed.typed,← canonicalNoneIff indexed.typed,shift.rows,eraseAll]
  by_cases low : h < s.minRetainedHeightCached
  · rw [if_neg fun mem => UInt64.not_lt.mpr (memHeightsBefore.mp mem).1 low]
    exact ⟨fun row _ => row,fun row => row low⟩
  · rw [if_pos (memHeightsBefore.mpr ⟨UInt64.not_lt.mp low,below⟩)]
    exact ⟨fun _ bad => absurd bad low,fun _ => rfl⟩

theorem wholeIff : s.Whole ↔ (∀ x, s.Heard x → s.Stored x) ∧ ∀ x, s.Stored x → (s.db .blocks)[hashKey x]?.isSome := by
  constructor
  · intro whole
    refine ⟨fun x heard => ?_,fun x stored => (whole.paired x).mpr stored⟩
    rcases heard with mentioned | stored | body
    · exact whole.cached x mentioned
    · exact stored
    · exact (whole.paired x).mp body
  · rintro ⟨heard,bodies⟩
    exact ⟨fun x => ⟨fun body => heard x (.inr (.inr body)),bodies x⟩,fun x mentioned => heard x (.inl mentioned)⟩

theorem prunedFloor : (u.pruned height plan).minRetainedHeightCached = height := by
  unfold pruned evictHeightsBelow
  rw [evictAllRest]
  rfl

theorem lookupBelow {h : UInt64} (below : h < s.minRetainedHeightCached) (script : List Event) :
    (getHashByHeight h ⟨s,script⟩).1 = .ok none := by
  simp only [getHashByHeight,bind,Op.bind,Op.get]
  rw [if_pos below]
  rfl

theorem Pruning.clearsIff (lawful : crates.Lawful) (indexed : Indexed s) (housed : Housed crates content s)
    (pruning : Pruning crates s u height plan) :
    Clears crates content s (u.pruned height plan) height plan.hashes.length ↔
      s.Whole ∧ ∀ h, h < s.minRetainedHeightCached → (s.db .canonical)[heightKey h]? = none := by
  have lists (x : Bytes32) := pruning.lists (x := x) lawful housed.filed housed.retains
  have filed : (u.pruned height plan).Filed crates content :=
    (prunedKeeps height plan).filed (pruning.touched.filed lawful housed.filed)
  have low := UInt64.le_of_lt pruning.above
  constructor
  · intro clears
    refine ⟨wholeIff.mpr ⟨fun x heard => ?_,fun x stored => ?_⟩,fun h below => ?_⟩
    · by_cases below : (content x).height < height
      · have silent := (forgetsIff lawful filed).mp (clears.reads x below)
        rw [pruning.heard] at silent
        exact ((lists x).mp (by_contra fun out => silent ⟨out,heard⟩)).1
      · exact housed.retains.heard heard (UInt64.le_trans low (UInt64.not_lt.mp below))
    · by_cases below : (content x).height < height
      · exact (pruning.counts housed.retains).mp clears.count x ((lists x).mpr ⟨stored,below⟩)
      · exact (housed.retains.paired x (UInt64.le_trans low (UInt64.not_lt.mp below))).mpr stored
    · have under := UInt64.lt_of_lt_of_le below low
      exact (pruning.indexBelow indexed under).mp (clears.index h under) below
  · rintro ⟨whole,none'⟩
    obtain ⟨heard,bodies⟩ := wholeIff.mp whole
    have listed : ∀ x, (content x).height < height → s.Heard x → x ∈ plan.hashes := fun x below known =>
      (lists x).mpr ⟨heard x known,below⟩
    have silent : ∀ x, (content x).height < height → ¬(u.pruned height plan).Heard x := fun x below known =>
      (pruning.heard.mp known).1 (listed x below (pruning.heard.mp known).2)
    have floor : (u.pruned height plan).minRetainedHeightCached = height := prunedFloor
    exact
      { rows := fun x below => ⟨Option.not_isSome_iff_eq_none.mp fun row => silent x below (.inr (.inr row)),
          Option.not_isSome_iff_eq_none.mp fun row => silent x below (.inr (.inl row))⟩
        attested := fun x below known => by
          rw [prunedRow plan height (.inr (.inr rfl)),if_pos (listed x below (.inr known))]
        index := fun h below => (pruning.indexBelow indexed below).mpr (none' h)
        reads := fun x below => (forgetsIff lawful filed).mpr (silent x below)
        heights := fun h below => lookupBelow (by rw [floor]; exact below)
        count := (pruning.counts housed.retains).mpr fun x mem => bodies x ((lists x).mp mem).1
        kept := fun x above cf side => by
          rw [prunedRow plan height side,if_neg fun mem => UInt64.not_lt.mpr above ((lists x).mp mem).2,pruning.touched.db]
        indexKept := fun h above => pruning.indexRow above
        floorRow := by rw [prunedDb]; exact floorRowPrune plan height u.db
        floor := floor }

theorem Retains.whole (retains : Retains content s) (floor : s.minRetainedHeightCached = 0) : s.Whole where
  paired x := retains.paired x (by rw [floor]; simp)
  cached x mentioned := retains.cached x mentioned (by rw [floor]; simp)

theorem ranHere {α : Type} {m : StoreM α} {r : Exit α} (answered : (m ⟨s,[]⟩).1 = r) : Runs m s r (m ⟨s,[]⟩).2.state :=
  ⟨[],(m ⟨s,[]⟩).2.script,by rw [← answered]⟩

end Clearing

end Store

namespace Sample

def parted : Store := .after crates ungenesis config
  [.putBlock (block 0 0 1) true,.putBlock (block 5 1 2) true,.putBlock (block 4 1 3) false]

def backfilled : Store := .after crates ungenesis config
  [.putBlock (block 0 0 1) true,.putBlock (block 5 1 2) true,.pruneBeforeHeight 3,.putBlock (block 1 1 4) true]

end Sample

/- A prune at or below the floor changes nothing. Above it, it clears all of its height down exactly
from a store whose rows come in pairs, whose caches hold nothing else, and that has no canonical
row below the floor. -/
theorem pruneClears {crates : Crates} (lawful : crates.Lawful) {s : Store} (reached : ReachesOriginal crates s) :
    ∃ content, s.Filed crates content ∧ ∀ height n t, Runs (Store.pruneBeforeHeight crates height) s (.ok n) t →
      (height ≤ s.minRetainedHeightCached → t = s ∧ n = 0) ∧
      (s.minRetainedHeightCached < height → (s.Clears crates content t height n ↔
        s.Whole ∧ ∀ h, h < s.minRetainedHeightCached → (s.db .canonical)[heightKey h]? = none)) := by
  obtain ⟨content,housed⟩ := reachesHoused lawful reached
  have indexed := reachesIndexed reached.reaches
  refine ⟨content,housed.filed,fun height n t h => ?_⟩
  rcases Store.pruneRuns indexed h with ⟨⟨e,bad⟩,_⟩ | ⟨_,below,same,rfl⟩ | ⟨plan,u,pruning,same,rfl⟩
  · cases bad
  · cases same
    exact ⟨fun _ => ⟨rfl,rfl⟩,fun above => absurd below (UInt64.not_le.mpr above)⟩
  · cases same
    exact ⟨fun below => absurd pruning.above (UInt64.not_lt.mpr below),fun _ => pruning.clearsIff lawful indexed housed⟩

theorem pruneClearsSample : ∃ content t, Sample.parted.Filed Sample.crates content ∧
    Runs (Store.pruneBeforeHeight Sample.crates 5) Sample.parted (.ok 2) t ∧ Sample.parted.Clears Sample.crates content t 5 2 := by
  have reached : ReachesOriginal Sample.crates Sample.parted := Sample.afterOriginal (by decide +kernel)
  have floor : Sample.parted.minRetainedHeightCached = 0 := by decide +kernel
  obtain ⟨t,run⟩ := @Store.ranOk Sample.parted _ (Store.pruneBeforeHeight Sample.crates 5) 2 (by decide +kernel)
  obtain ⟨content,filed,clears⟩ := pruneClears Sample.lawful reached
  obtain ⟨_,housed⟩ := reachesHoused Sample.lawful reached
  refine ⟨content,t,filed,run,((clears 5 2 t run).2 (by rw [floor]; decide)).mpr ⟨housed.retains.whole floor,fun h below => ?_⟩⟩
  rw [floor] at below
  simp at below

/- The canonical row of a block put below the floor outlives the block. -/
theorem pruneLeavesRow : ∃ t, ReachesOriginal Sample.crates Sample.backfilled ∧
    Sample.backfilled.minRetainedHeightCached = 3 ∧
    Runs (Store.pruneBeforeHeight Sample.crates 6) Sample.backfilled (.ok 2) t ∧
    (t.db .blocks)[hashKey (Sample.hash 4)]? = none ∧ (t.db .canonical)[heightKey 1]? = some (hashKey (Sample.hash 4)) :=
  ⟨_,Sample.afterOriginal (by decide +kernel),by decide +kernel,Store.ranHere (by decide +kernel),by decide +kernel,
    by decide +kernel⟩

end DigBlockstore
