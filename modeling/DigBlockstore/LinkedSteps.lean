import DigBlockstore.Linked

/-! Each call of a linked run keeps the segment of canonical rows. -/
namespace DigBlockstore
open ByteCodec Faulty ColumnStore PartialMap Pipeline Trace ChainSegment
namespace Store
variable {crates : Crates} {s t u : Store} {content : Bytes32 → L2BlockHeader}

theorem Chained.ingest {index : UInt64 → Option Bytes32} {low : UInt64} {head : Option ChainTip} {block : L2Block}
    (chain : Chained content index low head) (apart : ∀ h x, index h = some x → x ≠ block.hash crates) :
    Chained (ingest crates content block) index low head := by
  cases head with
  | none => exact chain
  | some tip =>
    refine ⟨chain.spans.change fun h x found => ?_,chain.top⟩
    rw [Store.ingest,Function.update_of_ne (apart h x found)]
    exact ⟨rfl,rfl⟩

theorem Linked.apart (linked : Linked crates content s) {block : L2Block}
    (absent : ¬s.Stored (block.hash crates)) : ∀ h x, canonicalAt s.db h = some x → x ≠ block.hash crates := by
  intro h x found same
  subst same
  exact absent (linked.held h _ found)

theorem Touched.linked (lawful : crates.Lawful) (touched : Touched crates s t) (linked : Linked crates content s) :
    Linked crates content t where
  filed := touched.filed lawful linked.filed
  whole := touched.whole linked.whole
  chain := by
    rw [touched.db,touched.floor,touched.tip]
    exact linked.chain
  held h x found := by
    rw [touched.db] at found
    rw [Stored,touched.db]
    exact linked.held h x found

theorem Trained.whole (trained : Trained s t) (whole : Whole s) : Whole t :=
  trained.keeps.whole whole (trained.column (by simp)) (trained.column (by simp))

theorem Trained.stored (trained : Trained s t) (hash : Bytes32) : t.Stored hash ↔ s.Stored hash := by
  rw [Stored,trained.column (by simp),Stored]

theorem putAside {block : L2Block} {added : Bool} (indexed : Indexed s) (linked : Linked crates content s)
    (h : Runs (putBlock crates block false) s (.ok added) t) : ∃ content', Linked crates content' t := by
  rcases putBlockOk h with ⟨_,rfl,_⟩ | ⟨_,compressed,headerBytes,packs,_,trained⟩
  · exact ⟨content,linked⟩
  · have absent : ¬s.Stored (block.hash crates) := fun stored => by
      have row := (linked.whole.paired _).mpr stored
      rw [packs.absent] at row
      cases row
    have ingests := @ingestedIngests crates s block false compressed headerBytes
    have shift := (ingestedShift indexed packs.writes block false compressed headerBytes).andQuiet trained.quiet
    have rows : canonicalAt t.db = canonicalAt s.db := shift.rows
    refine ⟨ingest crates content block,trained.keeps.filed (ingestedFiled linked.filed packs.body packs.header),
      trained.whole (linked.whole.ingest ingests),?_,fun h x found => ?_⟩
    · rw [rows,shift.floor,shift.tip]
      exact linked.chain.ingest (linked.apart absent)
    · rw [rows] at found
      rw [trained.stored,ingests.stored]
      exact .inr (linked.held h x found)

theorem extendLinked {block : L2Block} {tip : ChainTip} {added : Bool} (indexed : Indexed s)
    (linked : Linked crates content s) (head : s.tip = some tip) (up : block.header.parentHash = tip.hash)
    (next : block.height.toNat = tip.height.toNat + 1)
    (h : Runs (extendChain crates block) s (.ok added) t) : ∃ content', Linked crates content' t := by
  rcases extendChainOk h with ⟨_,rfl,_⟩ | ⟨_,missing,u,b,putting,_,rfl⟩
  · exact ⟨content,linked⟩
  · have absent : ¬s.Stored (block.hash crates) := fun stored => by
      simp [hasBlock,show (s.db .headers)[hashKey (block.hash crates)]?.isSome = true from stored] at missing
    rcases putBlockOk putting with ⟨_,_,present⟩ | ⟨_,compressed,headerBytes,packs,_,trained⟩
    · simp [hasBlock,present] at missing
    · have ingests := @ingestedIngests crates s block true compressed headerBytes
      have shift := ((ingestedShift indexed packs.writes block true compressed headerBytes).andQuiet
        trained.quiet).withTip ⟨block.hash crates,block.height⟩
      have rows : canonicalAt (u.withTip ⟨block.hash crates,block.height⟩).db =
          Function.update (canonicalAt s.db) block.height (some (block.hash crates)) := shift.rows
      have tipped := @keepsWithTip u ⟨block.hash crates,block.height⟩
      have columns : ∀ cf, cf ≠ .metadata → (u.withTip ⟨block.hash crates,block.height⟩).db cf = u.db cf :=
        fun cf apart => frameColumn (by simp [ColumnStore.Write.column,Ne.symm apart])
      refine ⟨ingest crates content block,
        tipped.filed (trained.keeps.filed (ingestedFiled linked.filed packs.body packs.header)),
        tipped.whole (trained.whole (linked.whole.ingest ingests)) (columns _ (by simp)) (columns _ (by simp)),?_,
        fun h x found => ?_⟩
      · have chain : Chained (ingest crates content block) (canonicalAt s.db) s.minRetainedHeightCached (some tip) := by
          rw [← head]
          exact linked.chain.ingest (linked.apart absent)
        have here : ingest crates content block (block.hash crates) = block.header := Function.update_self ..
        have grown := chain.spans.extend toNatInjective (block.hash crates)
          (by rw [here]; exact next) (by rw [here,up]; exact chain.top)
        rw [here] at grown
        rw [rows,shift.floor,shift.tip]
        exact ⟨grown,Function.update_self ..⟩
      · rw [Stored,columns _ (by simp)]
        refine (trained.stored x).mpr ((ingests.stored x).mpr ?_)
        rw [rows] at found
        by_cases same : h = block.height
        · subst same
          rw [Function.update_self] at found
          exact .inl (Option.some.inj found).symm
        · rw [Function.update_of_ne same] at found
          exact .inr (linked.held h x found)

theorem genesisLinked {block : L2Block} {v : Unit} (indexed : Indexed s) (linked : Linked crates content s)
    (h : Runs (initGenesis crates block) s (.ok v) t) : ∃ content', Linked crates content' t := by
  obtain ⟨headless,shift⟩ := initGenesisShift indexed h
  obtain ⟨_,_,zero,_,compressed,headerBytes,body,header,trained⟩ := initGenesisOk h
  have ingests := @genesisIngests crates s block compressed headerBytes
  have chain := linked.chain
  rw [headless] at chain
  obtain ⟨empty,floor⟩ := chain
  refine ⟨ingest crates content block,initGenesisFiled linked.filed h,trained.whole (linked.whole.ingest ingests),
    ?_,fun h x found => ?_⟩
  · rw [shift.rows,shift.floor,shift.tip,floor]
    refine ⟨Segment.single toNatInjective ?_ empty,Function.update_self ..⟩
    rw [Store.ingest,Function.update_self]
    exact zero
  · rw [trained.stored,ingests.stored]
    rw [shift.rows] at found
    by_cases same : h = 0
    · subst same
      rw [Function.update_self] at found
      exact .inl (Option.some.inj found).symm
    · rw [Function.update_of_ne same,empty] at found
      cases found

theorem rollbackLinked {target : UInt64} {reverted : List Bytes32} (lawful : crates.Lawful) (indexed : Indexed s)
    (coherent : Coherent s) (linked : Linked crates content s)
    (h : Runs (rollbackToHeight target) s (.ok reverted) t) : Linked crates content t := by
  obtain ⟨tip,head,below,retained,_,⟨_,_,rfl⟩ | back⟩ := @rollbackOk crates _ _ _ _ h
  · exact linked
  · obtain ⟨found,⟨_,answer⟩,shift⟩ := rollbackShift indexed back
    obtain ⟨u,v,first,second,cut,rest⟩ := rolledBackKeeps back
    have keeps : ∀ {hash}, t.Stored hash ↔ s.Stored hash := by
      intro hash
      rw [Stored,back.column (by simp) (by simp),Stored]
    have chain := linked.chain
    rw [head] at chain
    have filed := rest.filed (second.filed lawful (cut.filed (first.filed lawful linked.filed)))
    have strict : target < tip.height := by
      obtain ⟨u,v,found,rolling,_⟩ := back.steps
      exact rolling.below
    have kept : ∀ h, canonicalAt t.db h = if h.toNat ≤ target.toNat then canonicalAt s.db h else none := by
      intro h
      rw [shift.rows]
      unfold eraseAll
      by_cases low : h.toNat ≤ target.toNat
      · rw [if_pos low,if_neg fun mem => absurd ((memAbove strict).mp mem).1 (UInt64.not_lt.mpr low)]
      · rw [if_neg low]
        split
        · rfl
        · rename_i apart
          refine chain.spans.outside (.inr ?_)
          rw [memAbove strict,not_and] at apart
          have above := apart (UInt64.not_le.mp low)
          rwa [UInt64.not_le,UInt64.lt_iff_toNat_lt] at above
    obtain ⟨x,row⟩ := chain.spans.item (h := target) retained below
    have tipped : t.tip = some ⟨x,target⟩ := by
      rw [shift.tip,answer coherent,row]
      rfl
    have files : ∀ cf, cf ≠ .canonical → applyAll (deleteRows (heightsThrough (target + 1) tip.height)) u.db cf =
        s.db cf := fun cf apart => by rw [deletedColumn _ _ apart,first.db]
    refine ⟨filed,?_,?_,fun h y found => ?_⟩
    · refine rest.whole (second.whole (cut.whole (first.whole linked.whole) ?_ ?_)) ?_ ?_
      · exact deletedColumn _ _ (by simp)
      · exact deletedColumn _ _ (by simp)
      · rw [back.column (by simp) (by simp),second.db]
        exact (files _ (by simp)).symm
      · rw [back.column (by simp) (by simp),second.db]
        exact (files _ (by simp)).symm
    · rw [tipped,shift.floor]
      exact ⟨chain.spans.cut retained below kept,by rw [kept,if_pos (Nat.le_refl _)]; exact row⟩
    · rw [kept] at found
      split at found
      · exact keeps.mpr (linked.held h y found)
      · cases found

theorem ancestorWalkFound {depth : Nat} {start a : Bytes32} {height : UInt64} (indexed : Indexed s)
    (coherent : Coherent s) (h : Runs (ancestorWalk crates start depth) s (.ok (some (a,height))) t) :
    s.canonicalAnswer height = some a := by
  induction depth generalizing s start with
  | zero => cases (runsPure.mp h).1
  | succ depth ih =>
    obtain ⟨found,u,reading,later⟩ := runsBindOk h
    have touched := @getRecordTouched crates _ _ _ _ reading
    cases found with
    | none => cases (runsPure.mp later).1
    | some record =>
      obtain ⟨_,_,held,_⟩ := getRecordRuns reading
      rw [runsModifyBind] at later
      have noted : Touched crates u (u.cacheHeight start record.height) :=
        touchedCacheHeight (.inr ⟨record,held record rfl,rfl⟩)
      obtain ⟨answer,v,looking,last⟩ := runsBindOk later
      obtain ⟨looked,same⟩ := @getHashByHeightRuns crates _ _ _ _ looking
      have quiet := (touched.trans noted).quiet
      split at last
      · rename_i canonical
        cases (runsPure.mp last).1
        rw [← coherentAnswer indexed coherent,← quiet.lookup indexed coherent,← same answer rfl,canonical]
      · have all := quiet.trans looked.quiet
        have more := ih (all.indexed indexed) (all.coherent indexed coherent) last
        rwa [canonicalAnswer,all.floor,all.canonicalAt] at more

theorem Planned.heightsOf {ancestor : UInt64} {hashes : List Bytes32} {plan : ReorgPlan} (lawful : crates.Lawful)
    (filed : Filed crates content s) (planned : Planned crates s u ancestor hashes plan) :
    rowsOf plan.records = hashes.map (fun x => ((content x).height,x)) ∧
      plan.newTip.height = (hashes.getLast?.map fun x => (content x).height).getD 0 := by
  obtain ⟨v,reading,_⟩ := planned.validated
  obtain ⟨touched,_,order,held⟩ := validatedOk reading
  have heights : ∀ row ∈ plan.records, row.2.height = (content row.1).height := fun row mem =>
    (filed.mayRecord lawful (touched.mayRecord (held row mem))).1
  rw [planned.height,← order,rowsOf,List.map_map,List.getLast?_map,Option.map_map]
  refine ⟨List.map_congr_left fun row mem => by simp [heights row mem],?_⟩
  cases last : plan.records.getLast? with
  | none => rfl
  | some row => exact heights row (List.mem_of_getLast? last)

theorem ParentWalk.walk {a b : Bytes32} {height top : UInt64} {hashes : List Bytes32} (lawful : crates.Lawful)
    (filed : Filed crates content s) (steps : ParentWalk crates s a height hashes b top) :
    Walk UInt64.toNat (fun x => (content x).height) (fun x => (content x).parentHash) a height hashes b top := by
  induction steps with
  | nil a height => exact .nil a height
  | cons row up next later ih =>
    rw [filed.headerAt lawful] at row
    split at row
    · cases row
      exact .cons up next ih
    · cases row

theorem ParentWalk.stored {a b : Bytes32} {height top : UInt64} {hashes : List Bytes32}
    (steps : ParentWalk crates s a height hashes b top) : ∀ x ∈ hashes, s.Stored x := by
  induction steps with
  | nil => simp
  | cons row up next later ih =>
    intro x mem
    rcases List.mem_cons.mp mem with rfl | older
    · obtain ⟨raw,found,_⟩ := Option.bind_eq_some_iff.mp row
      rw [Stored,found]
      rfl
    · exact ih x older

theorem reorgSpans {a b : Bytes32} {ancestor top low : UInt64} {hashes : List Bytes32} {plan : ReorgPlan}
    {index : UInt64 → Option Bytes32} (spans : Spans content index low plan.tip.height)
    (base : index ancestor = some a)
    (walk : Walk UInt64.toNat (fun x => (content x).height) (fun x => (content x).parentHash) a ancestor hashes b top)
    (some' : hashes ≠ []) (heights : plan.heights = heightsThrough (ancestor + 1) plan.tip.height)
    (rows : rowsOf plan.records = hashes.map fun x => ((content x).height,x)) :
    Spans content (plan.index index) low top ∧ plan.index index top = some b := by
  obtain ⟨above,below⟩ := spans.inside base
  have risen := walk.rises
  have longer : 0 < hashes.length := List.length_pos_iff.mpr some'
  have bound := top.toNat_lt
  have next : (ancestor + 1).toNat = ancestor.toNat + 1 := by
    rw [UInt64.toNat_add,UInt64.toNat_one]
    exact Nat.mod_eq_of_lt (by omega)
  have kept : ∀ h, eraseAll plan.heights index h = if h.toNat ≤ ancestor.toNat then index h else none := by
    intro h
    rw [eraseAll,heights]
    by_cases low : h.toNat ≤ ancestor.toNat
    · rw [if_pos low,if_neg fun mem => ?_]
      have high := UInt64.le_iff_toNat_le.mp (memHeightsThrough.mp mem).1
      omega
    · rw [if_neg low]
      split
      · rfl
      · rename_i apart
        refine spans.outside (.inr ?_)
        rw [memHeightsThrough,not_and,UInt64.le_iff_toNat_le,UInt64.le_iff_toNat_le] at apart
        have := apart (by omega)
        omega
  have cut := spans.cut above below kept
  have grown := cut.append toNatInjective walk (by rw [kept,if_pos (Nat.le_refl _)]; exact base)
  rw [ReorgPlan.index,rows]
  exact grown

theorem Planned.some {ancestor : UInt64} {hashes : List Bytes32} {plan : ReorgPlan}
    (planned : Planned crates s u ancestor hashes plan) : hashes ≠ [] := by
  rintro rfl
  cases planned.last

theorem Planned.newTip {a b : Bytes32} {ancestor top : UInt64} {hashes : List Bytes32} {plan : ReorgPlan}
    (lawful : crates.Lawful) (filed : Filed crates content s) (planned : Planned crates s u ancestor hashes plan)
    (walk : Walk UInt64.toNat (fun x => (content x).height) (fun x => (content x).parentHash) a ancestor hashes b top) :
    plan.newTip = ⟨b,top⟩ := by
  obtain ⟨last,height⟩ := walk.ends planned.some
  have hash : plan.newTip.hash = b := Option.some.inj (planned.last.symm.trans last)
  have here := (planned.heightsOf lawful filed).2
  rw [last] at here
  have top' : plan.newTip.height = top := here.trans height
  rw [← hash,← top']

theorem reorgOntoLinked {a b : Bytes32} {ancestor top : UInt64} {hashes : List Bytes32} {result : ReorgResult}
    (lawful : crates.Lawful) (indexed : Indexed s) (linked : Linked crates content s) (base : canonicalAt s.db ancestor = some a)
    (steps : ParentWalk crates s a ancestor hashes b top)
    (h : Runs (applyReorg crates ancestor hashes) s (.ok result) t) : Linked crates content t := by
  obtain ⟨plan,u,planned,fits,_,_,rfl⟩ := applyReorgOk h
  have touched := planned.touched
  have shift := applyReorgShift indexed planned fits
  have keeps := reorgedKeeps (u := u) ancestor hashes plan
  have columns : ∀ cf, cf ≠ .canonical → cf ≠ .metadata → (u.reorged ancestor hashes plan).db cf = u.db cf :=
    fun cf rows metas => reorgedColumn ancestor hashes plan rows metas
  have stored : ∀ {x}, (u.reorged ancestor hashes plan).Stored x ↔ s.Stored x := by
    intro x
    rw [Stored,columns _ (by simp) (by simp),touched.db,Stored]
  have rows := (planned.heightsOf lawful linked.filed).1
  have walk := steps.walk lawful linked.filed
  have chain := linked.chain
  rw [planned.head] at chain
  obtain ⟨spans,top'⟩ := reorgSpans chain.spans base walk planned.some planned.heights rows
  refine ⟨keeps.filed (touched.filed lawful linked.filed),
    keeps.whole (touched.whole linked.whole) (columns _ (by simp) (by simp)) (columns _ (by simp) (by simp)),?_,
    fun h x hit => ?_⟩
  · rw [shift.rows,shift.floor,shift.tip,planned.newTip lawful linked.filed walk]
    exact ⟨spans,top'⟩
  · rw [stored]
    rw [shift.rows,ReorgPlan.index,putAllAt,rows] at hit
    rcases Option.or_eq_some_iff.mp hit with last | ⟨_,older⟩
    · obtain ⟨y,mem,same⟩ := List.mem_map.mp (lastRowMem last)
      cases same
      exact steps.stored _ mem
    · unfold eraseAll at older
      split at older
      · cases older
      · exact linked.held h x older

theorem reorgLinked {a b : Bytes32} {ancestor top depth : UInt64} {hashes : List Bytes32} {w : Store}
    {result : ReorgResult} (lawful : crates.Lawful) (indexed : Indexed s) (coherent : Coherent s)
    (linked : Linked crates content s)
    (found : Runs (findCommonAncestor crates b depth) s (.ok (some (a,ancestor))) w)
    (steps : ParentWalk crates s a ancestor hashes b top)
    (h : Runs (applyReorg crates ancestor hashes) s (.ok result) t) : Linked crates content t := by
  have base : canonicalAt s.db ancestor = some a := by
    have answer := ancestorWalkFound indexed coherent found
    unfold canonicalAnswer at answer
    split at answer
    · cases answer
    · exact answer
  exact reorgOntoLinked lawful indexed linked base steps h

theorem Pruning.below {height : UInt64} {plan : PrunePlan} (lawful : crates.Lawful)
    (filed : Filed crates content s) (pruning : Pruning crates s u height plan)
    (placed : ∀ h x, s.minRetainedHeightCached ≤ h → Tier s h x → (content x).height = h) :
    ∀ x ∈ plan.hashes, (content x).height < height := by
  intro x mem
  rcases List.mem_append.mp mem with found | fork
  · obtain ⟨row,inside,rfl⟩ := List.mem_map.mp found
    obtain ⟨low,high,tier⟩ := pruning.sound row inside
    rwa [placed row.1 row.2 low tier]
  · rw [pruning.forks] at fork
    obtain ⟨_,raw,header,inside,read,below⟩ := memPruneForks.mp fork
    have stored := filed.headerRow x raw (Std.ExtTreeMap.mem_toList_iff_getElem?_eq_some.mp inside)
    rw [deserializeHeader,lawful.header _ _ stored] at read
    cases read
    exact below

theorem pruneLinked {height : UInt64} {tip : ChainTip} {n : Nat} (lawful : crates.Lawful) (indexed : Indexed s)
    (coherent : Coherent s) (linked : Linked crates content s) (head : s.tip = some tip)
    (below : height ≤ tip.height) (h : Runs (pruneBeforeHeight crates height) s (.ok n) t) :
    Linked crates content t := by
  rcases pruneRuns indexed h with ⟨⟨e,bad⟩,_⟩ | ⟨_,_,_,rfl⟩ | ⟨plan,u,pruning,_,rfl⟩
  · cases bad
  · exact linked
  · have touched := pruning.touched
    have shift := pruneShift indexed pruning
    have chain := linked.chain
    rw [head] at chain
    have placed : ∀ h x, s.minRetainedHeightCached ≤ h → Tier s h x → (content x).height = h := by
      intro h x low tier
      rcases tier with cached | row
      · exact chain.spans.placed h x (coherent h x low cached)
      · exact chain.spans.placed h x row
    have dropped := pruning.below lawful linked.filed placed
    have kept : ∀ h, canonicalAt (u.pruned height plan).db h =
        if height.toNat ≤ h.toNat then canonicalAt s.db h else none := by
      intro h
      rw [shift.rows,eraseAll]
      by_cases low : height ≤ h
      · rw [if_pos (UInt64.le_iff_toNat_le.mp low),
          if_neg fun mem => UInt64.not_le.mpr (memHeightsBefore.mp mem).2 low]
      · rw [if_neg fun le => low (UInt64.le_iff_toNat_le.mpr le)]
        split
        · rfl
        · rename_i apart
          refine chain.spans.outside (.inl ?_)
          rw [memHeightsBefore,not_and] at apart
          by_contra above
          exact apart (UInt64.le_iff_toNat_le.mpr (by omega)) (UInt64.not_le.mp low)
    have stored : ∀ x, (u.pruned height plan).Stored x ↔ x ∉ plan.hashes ∧ s.Stored x := by
      intro x
      rw [Stored,prunedRow plan height (.inr (.inl rfl)),touched.db]
      split <;> simp_all [Stored]
    have whole := touched.whole linked.whole
    refine ⟨(prunedKeeps height plan).filed (touched.filed lawful linked.filed),⟨fun x => ?_,fun x mentioned => ?_⟩,
      ?_,fun h x found => ?_⟩
    · rw [prunedRow plan height (.inl rfl),prunedRow plan height (.inr (.inl rfl))]
      split
      · simp
      · exact whole.paired x
    · have split : x ∉ plan.hashes ∧ u.Mentions x := by
        obtain ⟨header,body,record⟩ := @prunedMentions u height plan x
        unfold Mentions at mentioned
        rw [header,body,record] at mentioned
        by_cases gone : x ∈ plan.hashes
        · simp [gone] at mentioned
        · simp only [if_neg gone] at mentioned
          exact ⟨gone,mentioned⟩
      rw [prunedRow plan height (.inr (.inl rfl)),if_neg split.1]
      exact whole.cached x split.2
    · rw [shift.floor,shift.tip,head]
      refine ⟨chain.spans.raise ?_ below kept,?_⟩
      · exact UInt64.le_of_lt pruning.above
      · rw [kept,if_pos (UInt64.le_iff_toNat_le.mp below)]
        exact chain.top
    · rw [kept] at found
      split at found
      · rename_i low
        rw [stored]
        refine ⟨fun mem => ?_,linked.held h x found⟩
        have high := dropped x mem
        rw [chain.spans.placed h x found] at high
        exact absurd low (Nat.not_le.mpr high)
      · cases found

end Store
end DigBlockstore
