import DigBlockstore.LinkedRuns
import DigBlockstore.Library.BlockTree
import DigBlockstore.RetainedRuns
import DigBlockstore.Rollbacks

/-! A linked run is a run of a block tree. The store's answers are those of the tree: of its rows,
slots and caches nothing more is seen than the blocks, the head and the floor. -/
namespace DigBlockstore
open ByteCodec Faulty ColumnStore PartialMap Trace ChainSegment BlockTree

def L2BlockHeader.level (header : L2BlockHeader) : Nat := header.height.toNat

abbrev HeaderTree := Tree Bytes32 L2BlockHeader

namespace HeaderTree

def chainAt (tree : HeaderTree) (h : Nat) : Option Bytes32 := Tree.chainAt L2BlockHeader.level L2BlockHeader.parentHash tree h

def above (tree : HeaderTree) (h : Nat) : List Bytes32 := Tree.above L2BlockHeader.level L2BlockHeader.parentHash tree h

def meet (tree : HeaderTree) (depth : Nat) (x : Bytes32) : Option Bytes32 :=
  Tree.meet L2BlockHeader.level L2BlockHeader.parentHash tree depth x

def move (tree : HeaderTree) (m : Move Bytes32 L2BlockHeader) : HeaderTree :=
  Tree.move L2BlockHeader.level L2BlockHeader.parentHash tree m

end HeaderTree

def Call.moves (crates : Crates) : Call → List (Move Bytes32 L2BlockHeader)
  | .initGenesis block => [.genesis (block.hash crates) block.header]
  | .putBlock block _ => [.add (block.hash crates) block.header]
  | .extendChain block => [.extend (block.hash crates) block.header]
  | .rollbackToHeight target => [.rollback target.toNat]
  | .applyReorg _ walk => [.reorg walk]
  | .pruneBeforeHeight height => [.prune height.toNat]
  | _ => []

def Action.moves (crates : Crates) : Action → List (Move Bytes32 L2BlockHeader)
  | .call c => c.moves crates
  | .reopen _ | .reopenReadonly _ => []

namespace Store
variable {crates : Crates} {s t u : Store} {content : Bytes32 → L2BlockHeader}

def tree (crates : Crates) (s : Store) : HeaderTree :=
  ⟨s.headerAt crates,s.tip.map ChainTip.hash,s.minRetainedHeightCached.toNat⟩

theorem denseHeights (h k : UInt64) (below : h.toNat < k.toNat) : ∃ j : UInt64, j.toNat = h.toNat + 1 :=
  ⟨UInt64.ofNat (h.toNat + 1),ofNatToNat (Nat.lt_of_le_of_lt below k.toNat_lt)⟩

theorem Linked.treeTop (lawful : crates.Lawful) (linked : Linked crates content s) {tip : ChainTip} (head : s.tip = some tip) :
    (s.tree crates).top = some (tip.hash,content tip.hash) ∧ (content tip.hash).height = tip.height := by
  have chain := linked.chain
  rw [head] at chain
  refine ⟨?_,chain.spans.placed _ _ chain.top⟩
  simp [tree,Tree.top,head,linked.filed.storedHeader lawful (linked.held _ _ chain.top)]

theorem Chained.chainAt {index : UInt64 → Option Bytes32} {low : UInt64} {head : Option ChainTip} {tree : HeaderTree}
    (chain : Chained content index low head) (top : tree.head = head.map ChainTip.hash) (floor : tree.floor = low.toNat)
    (held : ∀ h x, index h = some x → tree.blocks x = some (content x)) (h : UInt64) : index h = tree.chainAt h.toNat := by
  cases head with
  | none =>
    rw [chain.1 h]
    simp [HeaderTree.chainAt,Tree.chainAt,Tree.top,top]
  | some tip =>
    refine Tree.chainSegment toNatInjective denseHeights chain.spans (fun k y found => ?_) chain.top top floor h
    exact ⟨content y,held k y found,congrArg UInt64.toNat (chain.spans.placed k y found),rfl⟩

theorem Linked.chainAt (lawful : crates.Lawful) (linked : Linked crates content s) (h : UInt64) :
    canonicalAt s.db h = (s.tree crates).chainAt h.toNat :=
  @Chained.chainAt content _ _ _ (s.tree crates) linked.chain rfl rfl (fun k y found => linked.filed.storedHeader lawful (linked.held k y found)) h

section Moves

theorem Touched.tree (touched : Touched crates s t) : t.tree crates = s.tree crates := by
  rw [Store.tree,funext touched.headerAt,touched.tip,touched.floor,Store.tree]

theorem headerRows (same : t.db .headers = s.db .headers) : t.headerAt crates = s.headerAt crates := by
  funext x
  rw [headerAt,same,headerAt]

theorem bootedTree {config : BlockStoreConfig} {readOnly : Bool} (indexed : Indexed s)
    (booted : Booted config readOnly s.db u) : u.tree crates = s.tree crates := by
  obtain ⟨_,db,tip,floor,_⟩ := bootedIndexed indexed.typed indexed.tipRow booted
  have blocks : u.headerAt crates = s.headerAt crates := headerRows (by rw [db])
  rw [tree,tip,floor,indexed.floorRow,blocks,tree]

theorem putTree {block : L2Block} {compressed headerBytes : Bytes} (lawful : crates.Lawful) (filed : Filed crates content s)
    (filed' : Filed crates (ingest crates content block) u) (ingests : Ingests crates s t block compressed headerBytes)
    (same : ∀ x, u.Stored x ↔ t.Stored x) :
    u.headerAt crates = Function.update (s.headerAt crates) (block.hash crates) (some block.header) := by
  funext x
  by_cases own : x = block.hash crates
  · subst own
    rw [filed'.storedHeader lawful ((same _).mpr ((ingests.stored _).mpr (.inl rfl))),Function.update_self,ingest,
      Function.update_self]
  · rw [Function.update_of_ne own,filed'.headerAt lawful,filed.headerAt lawful,ingest,Function.update_of_ne own]
    refine if_congr ?_ rfl rfl
    have stored := (same x).trans (ingests.stored x)
    exact stored.trans (or_iff_right own)

theorem Linked.stored (lawful : crates.Lawful) (linked : Linked crates content s) (x : Bytes32) :
    ((s.tree crates).blocks x).isSome ↔ s.Stored x := by
  rw [show (s.tree crates).blocks x = _ from linked.filed.headerAt lawful]
  unfold Stored
  split
  · simp_all
  · simp_all

theorem Linked.present (linked : Linked crates content s) (x : Bytes32) : s.hasBlock x = true ↔ s.Stored x := by
  constructor
  · intro present
    simp only [hasBlock,Bool.or_eq_true,ShardedLruCache.contains] at present
    rcases present with ((body | header) | row) | row
    · exact linked.whole.cached x (.inr (.inl body))
    · exact linked.whole.cached x (.inl header)
    · exact row
    · exact (linked.whole.paired x).mp row
  · intro stored
    simp [hasBlock,show (s.db .headers)[hashKey x]?.isSome = true from stored]

theorem asideTree {block : L2Block} {added : Bool} (lawful : crates.Lawful) (indexed : Indexed s)
    (linked : Linked crates content s) (h : Runs (putBlock crates block false) s (.ok added) t) :
    t.tree crates = (s.tree crates).move (.add (block.hash crates) block.header) := by
  have stored := linked.stored lawful (block.hash crates)
  rcases putBlockOk h with ⟨_,rfl,present⟩ | ⟨_,compressed,headerBytes,packs,_,trained⟩
  · have row : t.Stored (block.hash crates) := (linked.whole.paired _).mp (by rw [present])
    rw [HeaderTree.move,Tree.move,if_pos (stored.mpr row)]
  · have absent : ¬s.Stored (block.hash crates) := fun row => by
      have body := (linked.whole.paired _).mpr row
      rw [packs.absent] at body
      cases body
    have shift := (ingestedShift indexed packs.writes block false compressed headerBytes).andQuiet trained.quiet
    have filed' := trained.keeps.filed (@ingestedFiled crates s content block false _ _ linked.filed packs.body packs.header)
    have blocks := putTree lawful linked.filed filed' (ingestedIngests ..) trained.stored
    rw [HeaderTree.move,Tree.move,if_neg fun row => absent (stored.mp row),tree,blocks,shift.tip,shift.floor]
    rfl

theorem extendTree {block : L2Block} {added : Bool} (lawful : crates.Lawful) (indexed : Indexed s)
    (linked : Linked crates content s) (h : Runs (extendChain crates block) s (.ok added) t) :
    t.tree crates = (s.tree crates).move (.extend (block.hash crates) block.header) := by
  have stored := linked.stored lawful (block.hash crates)
  rcases extendChainOk h with ⟨_,rfl,present⟩ | ⟨_,missing,u,b,putting,_,rfl⟩
  · rw [HeaderTree.move,Tree.move,if_pos (stored.mpr ((linked.present _).mp present))]
  · have absent : ¬s.Stored (block.hash crates) := fun row => by
      rw [(linked.present _).mpr row] at missing
      cases missing
    rcases putBlockOk putting with ⟨_,_,present⟩ | ⟨_,compressed,headerBytes,packs,_,trained⟩
    · exact absurd ((linked.whole.paired _).mp (by rw [present])) absent
    · have shift := ((ingestedShift indexed packs.writes block true compressed headerBytes).andQuiet
        trained.quiet).withTip ⟨block.hash crates,block.height⟩
      have filed' := trained.keeps.filed (@ingestedFiled crates s content block true _ _ linked.filed packs.body packs.header)
      have blocks := putTree lawful linked.filed ((keepsWithTip ⟨block.hash crates,block.height⟩).filed filed')
        (ingestedIngests ..) fun x => by
          rw [Stored,show (u.withTip _).db .headers = u.db .headers from frameColumn (by simp [ColumnStore.Write.column])]
          exact trained.stored x
      rw [HeaderTree.move,Tree.move,if_neg fun row => absent (stored.mp row),tree,blocks,shift.tip,shift.floor]
      rfl

theorem genesisTree {block : L2Block} {v : Unit} (lawful : crates.Lawful) (indexed : Indexed s)
    (linked : Linked crates content s) (h : Runs (initGenesis crates block) s (.ok v) t) :
    t.tree crates = (s.tree crates).move (.genesis (block.hash crates) block.header) := by
  obtain ⟨_,shift⟩ := initGenesisShift indexed h
  obtain ⟨_,_,_,_,compressed,headerBytes,_,_,trained⟩ := initGenesisOk h
  have blocks := putTree lawful linked.filed (initGenesisFiled linked.filed h) (genesisIngests ..) trained.stored
  rw [HeaderTree.move,Tree.move,tree,blocks,shift.tip,shift.floor]
  rfl

theorem rollbackTree {target : UInt64} {reverted : List Bytes32} (lawful : crates.Lawful) (agreed : Agreed s)
    (linked : Linked crates content s) (h : Runs (rollbackToHeight target) s (.ok reverted) t) :
    t.tree crates = (s.tree crates).move (.rollback target.toNat) := by
  obtain ⟨tip,head,_⟩ := @rollbackOk crates _ _ _ _ h
  obtain ⟨low,below,cut⟩ := rollbackCuts crates agreed head h
  have chain := linked.chain
  rw [head] at chain
  have blocks : t.headerAt crates = s.headerAt crates := by
    exact headerRows ((rollbackWithin crates target _ _ _ h).column (by simp [Switched]))
  have moved : t.tip.map ChainTip.hash = canonicalAt s.db target := by
    obtain ⟨x,row⟩ := chain.spans.item (h := target) low below
    rcases UInt64.lt_or_eq_of_le below with under | same
    · rw [cut.head under,row]
      rfl
    · rw [cut.same same,head,same,chain.top]
      rfl
  rw [HeaderTree.move,Tree.move,tree,blocks,moved,cut.floor,linked.chainAt lawful]
  rfl

theorem reorgTree {a b : Bytes32} {ancestor top : UInt64} {hashes : List Bytes32} {result : ReorgResult}
    (lawful : crates.Lawful) (indexed : Indexed s) (linked : Linked crates content s)
    (steps : ParentWalk crates s a ancestor hashes b top) (h : Runs (applyReorg crates ancestor hashes) s (.ok result) t) :
    t.tree crates = (s.tree crates).move (.reorg hashes) := by
  obtain ⟨plan,u,planned,fits,_,_,rfl⟩ := applyReorgOk h
  have shift := applyReorgShift indexed planned fits
  have walk := steps.walk lawful linked.filed
  have blocks : (u.reorged ancestor hashes plan).headerAt crates = s.headerAt crates := headerRows (by
    rw [reorgedColumn ancestor hashes plan (by simp) (by simp),planned.touched.db])
  rw [HeaderTree.move,Tree.move,tree,blocks,shift.tip,shift.floor,(walk.ends planned.some).1,
    planned.newTip lawful linked.filed walk]
  rfl

theorem Linked.retains (coherent : Coherent s) (linked : Linked crates content s) (tip : ChainTip) (head : s.tip = some tip) :
    Retains content s where
  paired x _ := linked.whole.paired x
  cached x mentioned _ := linked.whole.cached x mentioned
  tiers h x low tier := by
    have row : canonicalAt s.db h = some x := tier.elim (coherent h x low) id
    have chain := linked.chain
    rw [head] at chain
    exact ⟨linked.held h x row,chain.spans.placed h x row⟩

theorem pruneTree {height : UInt64} {n : Nat} {tip : ChainTip} (lawful : crates.Lawful) (agreed : Agreed s)
    (linked : Linked crates content s) (head : s.tip = some tip) (h : Runs (pruneBeforeHeight crates height) s (.ok n) t) :
    t.tree crates = (s.tree crates).move (.prune height.toNat) := by
  rcases pruneRuns agreed.indexed h with ⟨⟨e,bad⟩,_⟩ | ⟨_,low,_,rfl⟩ | ⟨plan,u,pruning,_,rfl⟩
  · cases bad
  · rw [HeaderTree.move,Tree.move,if_pos (by exact UInt64.le_iff_toNat_le.mp low)]
  · have shift := pruneShift agreed.indexed pruning
    have above := UInt64.lt_iff_toNat_lt.mp pruning.above
    have lists (x : Bytes32) := pruning.lists (x := x) lawful linked.filed (linked.retains agreed.coherent tip head)
    have filed := (prunedKeeps height plan).filed (pruning.touched.filed lawful linked.filed)
    have blocks : (u.pruned height plan).headerAt crates =
        fun x => (s.headerAt crates x).filter fun header => height.toNat ≤ header.level := by
      funext x
      have kept : (u.pruned height plan).Stored x ↔ s.Stored x ∧ ¬(content x).height < height := by
        rw [Stored,prunedRow plan height (.inr (.inl rfl)),pruning.touched.db]
        by_cases listed : x ∈ plan.hashes
        · simp [listed,((lists x).mp listed).2]
        · rw [if_neg listed]
          exact ⟨fun row => ⟨row,fun low => listed ((lists x).mpr ⟨row,low⟩)⟩,fun both => both.1⟩
      by_cases stored : s.Stored x
      · rw [linked.filed.storedHeader lawful stored,filed.headerAt lawful,Option.filter_some]
        refine if_congr (kept.trans ?_) rfl rfl
        rw [and_iff_right stored,UInt64.not_lt,UInt64.le_iff_toNat_le,decide_eq_true_iff]
        rfl
      · have gone : ¬(u.pruned height plan).Stored x := fun row => stored (kept.mp row).1
        rw [linked.filed.headerAt lawful,filed.headerAt lawful,if_neg (by exact gone),if_neg (by exact stored)]
        rfl
    rw [HeaderTree.move,Tree.move,if_neg (by exact Nat.not_le.mpr above),tree,blocks,shift.tip,shift.floor]
    rfl

theorem takesTree {action : Action} (lawful : crates.Lawful) (agreed : Agreed s) (linked : Linked crates content s)
    (guard : LinkedAction crates s action) (h : Takes crates s action t) :
    t.tree crates = (action.moves crates).foldl HeaderTree.move (s.tree crates) := by
  cases action with
  | call c =>
    cases guard with
    | read r => exact (readTouched h).tree
    | genesis block => exact genesisTree lawful agreed.indexed linked h
    | aside block =>
      obtain ⟨added,run⟩ := discardOk h
      exact asideTree lawful agreed.indexed linked run
    | extend head up next =>
      obtain ⟨added,run⟩ := discardOk h
      exact extendTree lawful agreed.indexed linked run
    | rollback target =>
      obtain ⟨reverted,run⟩ := discardOk h
      exact rollbackTree lawful agreed linked run
    | reorg found steps =>
      obtain ⟨result,run⟩ := discardOk h
      exact reorgTree lawful agreed.indexed linked steps run
    | prune head below =>
      obtain ⟨n,run⟩ := discardOk h
      exact pruneTree lawful agreed linked head run
  | reopen config =>
    obtain ⟨disk,run⟩ := h
    obtain ⟨_,u,booted,touched⟩ := openStoreOk run
    exact touched.tree.trans (bootedTree agreed.indexed booted)
  | reopenReadonly path =>
    obtain ⟨disk,run⟩ := h
    obtain ⟨_,booted⟩ := openReadonlyOk run
    exact bootedTree agreed.indexed booted

theorem openedTree (opened : Opened crates s) : s.tree crates = Tree.empty := by
  obtain ⟨config,file,disk,run⟩ := opened
  obtain ⟨_,u,booted,touched⟩ := openStoreOk run
  have bare := @bootedTree crates _ _ _ _ (openedIndexed (createdOpened crates config)).1 booted
  rw [touched.tree,bare]
  rfl

end Moves

section Queries

/- A store read as a tree: every answer it gives is the tree's. -/
structure Shows (crates : Crates) (s : Store) (tree : HeaderTree) : Prop where
  head : s.tip = tree.top.map fun top => ⟨top.1,top.2.height⟩
  floor : s.minRetainedHeightCached.toNat = tree.floor
  present : ∀ x, s.hasBlock x = (tree.blocks x).isSome
  header : ∀ x found t, Runs (getHeader crates x) s (.ok found) t → found = tree.blocks x
  block : ∀ x found t, Runs (getBlock crates x) s (.ok found) t → found.map L2Block.header = tree.blocks x
  height : ∀ h found t, Runs (getHashByHeight h) s (.ok found) t → found = tree.chainAt h.toNat
  preview : ∀ target xs t, Runs (blocksToRevert target) s (.ok xs) t → xs = tree.above target.toNat
  ancestor : ∀ x depth found t, Runs (findCommonAncestor crates x depth) s (.ok found) t →
    found = (tree.meet depth.toNat x).bind fun a => (tree.blocks a).map fun header => (a,header.height)

theorem Linked.canonicalAnswer (lawful : crates.Lawful) (linked : Linked crates content s) (h : UInt64) :
    s.canonicalAnswer h = (s.tree crates).chainAt h.toNat := by
  unfold Store.canonicalAnswer
  split
  · rename_i low
    have under : ¬(s.tree crates).floor ≤ h.toNat := Nat.not_le.mpr (UInt64.lt_iff_toNat_lt.mp low)
    rw [HeaderTree.chainAt,Tree.chainAt]
    simp [under]
  · exact linked.chainAt lawful h

theorem aboveHeights {target top : UInt64} (next : target.toNat + 1 < 2 ^ 64) :
    ((heightsThrough (target + 1) top).reverse).map UInt64.toNat =
      (List.range (top.toNat - target.toNat)).map fun n => top.toNat - n := by
  have bound := top.toNat_lt
  have step : (target + 1).toNat = target.toNat + 1 := by
    rw [UInt64.toNat_add,UInt64.toNat_one]
    exact Nat.mod_eq_of_lt next
  refine List.ext_getElem ?_ fun i here there => ?_
  · simp only [heightsThrough,List.length_map,List.length_reverse,List.length_range,step]
    omega
  · simp only [List.length_map,List.length_reverse,heightsThrough,List.length_range,step] at here
    simp only [heightsThrough,List.getElem_map,List.getElem_reverse,List.getElem_range,List.length_map,List.length_range,step]
    rw [ofNatToNat (by omega)]
    omega

theorem Linked.preview (lawful : crates.Lawful) (agreed : Agreed s) (linked : Linked crates content s) {target : UInt64}
    {xs : List Bytes32} (h : Runs (blocksToRevert target) s (.ok xs) t) : xs = (s.tree crates).above target.toNat := by
  unfold blocksToRevert at h
  rw [runsGetBind] at h
  split at h
  · rename_i headless
    cases (runsPure.mp h).1
    simp [HeaderTree.above,Tree.above,Tree.top,tree,headless]
  · rename_i tip head
    obtain ⟨top,placed⟩ := linked.treeTop lawful head
    rw [HeaderTree.above,Tree.above,top]
    dsimp only
    rw [L2BlockHeader.level,placed]
    split at h
    · rename_i past
      cases (runsPure.mp h).1
      rw [Nat.sub_eq_zero_of_le (UInt64.le_iff_toNat_le.mp past)]
      rfl
    · rename_i under
      have below := UInt64.lt_iff_toNat_lt.mp (UInt64.not_le.mp under)
      have heights := @aboveHeights target tip.height (Nat.lt_of_le_of_lt below tip.height.toNat_lt)
      rw [(collectCanonicalOk crates agreed.indexed h).2 agreed.coherent]
      have lookups : s.lookup = (s.tree crates).chainAt ∘ UInt64.toNat := funext fun k => by
        rw [coherentAnswer agreed.indexed agreed.coherent,linked.canonicalAnswer lawful,Function.comp_apply]
      rw [lookups,← List.filterMap_map,heights,List.filterMap_map]
      rfl

theorem Linked.meet (lawful : crates.Lawful) (linked : Linked crates content s) (x : Bytes32) (depth : Nat) :
    s.forkPoint crates x depth = ((s.tree crates).meet depth x).bind fun a =>
      ((s.tree crates).blocks a).map fun header => (a,header.height) := by
  induction depth generalizing x with
  | zero => rfl
  | succ depth ih =>
    rw [forkPoint,HeaderTree.meet,Tree.meet,show (s.tree crates).blocks x = s.headerAt crates x from rfl]
    cases row : s.headerAt crates x with
    | none => rfl
    | some header =>
      rw [Option.bind_some]
      dsimp only
      rw [linked.canonicalAnswer lawful]
      by_cases on : (s.tree crates).chainAt header.height.toNat = some x
      · rw [if_pos on,if_pos (by exact on),Option.bind_some,show (s.tree crates).blocks x = s.headerAt crates x from rfl,row]
        rfl
      · rw [if_neg on,if_neg (by exact on),ih]
        rfl

theorem Linked.ends (lawful : crates.Lawful) (linked : Linked crates content s) (x : Bytes32) : s.Ends crates x := by
  intro absent
  have gone : ¬s.Stored x := fun stored => by
    rw [linked.filed.storedHeader lawful stored] at absent
    cases absent
  refine ⟨Option.not_isSome_iff_eq_none.mp gone,Option.not_isSome_iff_eq_none.mp fun body => gone ((linked.whole.paired x).mp body),
    fun mentioned => gone (linked.whole.cached x mentioned)⟩

theorem Linked.readsHeader (lawful : crates.Lawful) (linked : Linked crates content s) {x : Bytes32}
    {found : Option L2BlockHeader} (h : Runs (getHeader crates x) s (.ok found) t) : found = s.headerAt crates x := by
  cases found with
  | some header =>
    have known := getHeaderKnown h
    rw [linked.filed.storedHeader lawful (known.stored linked.whole),linked.filed.knows lawful known]
  | none =>
    refine (linked.filed.headerAt lawful).trans (if_neg fun stored => ?_) |>.symm
    unfold getHeader at h
    rw [runsGetBind,runsModifyBind] at h
    split at h
    · cases (runsPure.mp h).1
    · split at h
      · rename_i absent
        rw [absent] at stored
        cases stored
      · obtain ⟨_,_,_,later⟩ := runsBindOk h
        rw [runsModifyBind,runsModifyBind] at later
        cases (runsPure.mp later).1

theorem Linked.readsBlock (lawful : crates.Lawful) (linked : Linked crates content s) {x : Bytes32}
    {found : Option L2Block} (h : Runs (getBlock crates x) s (.ok found) t) :
    found.map L2Block.header = s.headerAt crates x := by
  obtain ⟨script,_,ran⟩ := id h
  have answer := getBlockAnswers crates x s script
  rw [ran,blockAnswer] at answer
  cases found with
  | some block =>
    have stored : s.Stored x := by
      split at answer
      · rename_i cached
        exact linked.whole.cached x (.inr (.inl (by rw [cached]; rfl)))
      · split at answer
        · cases answer
        · rename_i raw row
          exact (linked.whole.paired x).mp (by rw [row]; rfl)
    rw [linked.filed.storedHeader lawful stored,Option.map_some,getBlockFiled lawful linked.filed h]
  | none =>
    refine (linked.filed.headerAt lawful).trans (if_neg fun stored => ?_) |>.symm
    have row := (linked.whole.paired x).mpr stored
    split at answer
    · cases answer
    · split at answer
      · rename_i absent
        rw [absent] at row
        cases row
      · split at answer <;> cases answer

theorem Linked.shows (lawful : crates.Lawful) (agreed : Agreed s) (linked : Linked crates content s) :
    s.Shows crates (s.tree crates) where
  head := by
    cases head : s.tip with
    | none => simp [Tree.top,tree,head]
    | some tip =>
      obtain ⟨top,placed⟩ := linked.treeTop lawful head
      rw [top,Option.map_some,placed]
  floor := rfl
  present x := by
    rw [Bool.eq_iff_iff]
    exact (linked.present x).trans (linked.stored lawful x).symm
  header _ _ _ h := linked.readsHeader lawful h
  block _ _ _ h := linked.readsBlock lawful h
  height h found t ran := by
    rw [(@getHashByHeightRuns crates _ _ _ _ ran).2 found rfl,coherentAnswer agreed.indexed agreed.coherent,
      linked.canonicalAnswer lawful]
  preview _ _ _ h := linked.preview lawful agreed h
  ancestor x depth found t h := by
    obtain ⟨script,_,ran⟩ := h
    have along : ∀ (d : Nat) (y : Bytes32), Along crates s (s.Ends crates) y d := fun d => by
      induction d with
      | zero => exact fun _ => trivial
      | succ d ih => exact fun y => ⟨linked.ends lawful y,fun header _ _ => ih header.parentHash⟩
    obtain ⟨u,_,⟨_,answered⟩ | ⟨_,message,stuck⟩⟩ :=
      ancestorWalkAnswers lawful ⟨agreed,linked.filed⟩ (along depth.toNat x) script
    · rw [findCommonAncestor,answered] at ran
      cases ran
      exact linked.meet lawful x depth.toNat
    · rw [findCommonAncestor] at ran
      rw [ran] at stuck
      cases stuck

end Queries

end Store

end DigBlockstore
