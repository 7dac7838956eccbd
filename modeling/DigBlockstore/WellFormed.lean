import DigBlockstore.LinkedRuns

/-! Well-formed chains: the canonical rows are linked blocks from some height up to the tip, and
every lookup tier agrees with them. A reorg along a parent walk leaves such a chain. -/
namespace DigBlockstore
open ByteCodec Faulty ColumnStore PartialMap ChainSegment
namespace Store
variable {crates : Crates} {s t u : Store} {content : Bytes32 → L2BlockHeader} {low : UInt64} {tip : ChainTip}

def BlockAt (crates : Crates) (s : Store) (hash : Bytes32) (header : L2BlockHeader) : Prop :=
  s.headerAt crates hash = some header ∧ (s.db .blocks)[hashKey hash]?.isSome

structure WellFormed (crates : Crates) (s : Store) (low : UInt64) (tip : ChainTip) : Prop where
  floor : s.minRetainedHeightCached ≤ low
  order : low ≤ tip.height
  heights : ∀ h, (canonicalAt s.db h).isSome ↔ low ≤ h ∧ h ≤ tip.height
  blocks : ∀ h x, canonicalAt s.db h = some x → ∃ header, s.BlockAt crates x header ∧ header.height = h ∧
    (low < h → canonicalAt s.db (h - 1) = some header.parentHash)
  head : s.tip = some tip
  top : canonicalAt s.db tip.height = some tip.hash
  tiers : ∀ h x, s.minRetainedHeightCached ≤ h →
    s.canonicalHeightCache[h]? = some x ∨ s.canonicalBin.answer h = some x → canonicalAt s.db h = some x

/- What a reorg of the chain onto the walk leaves and returns. -/
structure Rebased (crates : Crates) (s t : Store) (low : UInt64) (tip : ChainTip) (ancestor : UInt64) (hashes : List Bytes32)
    (b : Bytes32) (top : UInt64) (result : ReorgResult) : Prop where
  formed : WellFormed crates t low ⟨b,top⟩
  below : ∀ h ≤ ancestor, canonicalAt t.db h = canonicalAt s.db h
  above : ∀ i x, hashes[i]? = some x → canonicalAt t.db (.ofNat (ancestor.toNat + 1 + i)) = some x
  reverted : result.reverted.map some = (heightsThrough (ancestor + 1) tip.height).reverse.map (canonicalAt s.db)
  applied : result.applied = hashes
  newTip : result.newTip = ⟨b,top⟩
  columns : ∀ cf, cf = .blocks ∨ cf = .headers ∨ cf = .attested → t.db cf = s.db cf

section Formed

theorem oneBelow {h : UInt64} {n : Nat} (above : n < h.toNat) : (h - 1).toNat + 1 = h.toNat := by
  have one : (1 : UInt64) ≤ h := UInt64.le_iff_toNat_le.mpr (by rw [UInt64.toNat_one]; omega)
  rw [UInt64.toNat_sub_of_le _ _ one,UInt64.toNat_one]
  omega

theorem WellFormed.coherent (formed : WellFormed crates s low tip) : Coherent s := fun h x above cached =>
  formed.tiers h x above (.inl cached)

theorem WellFormed.spans (lawful : crates.Lawful) (filed : Filed crates content s) (formed : WellFormed crates s low tip) :
    Spans content (canonicalAt s.db) low tip.height where
  order := UInt64.le_iff_toNat_le.mp formed.order
  span h := by
    rw [formed.heights,UInt64.le_iff_toNat_le,UInt64.le_iff_toNat_le]
  placed h x found := by
    obtain ⟨header,⟨row,_⟩,height,_⟩ := formed.blocks h x found
    rw [← (filed.headerStored lawful row).2,height]
  linked h k x found next above := by
    obtain ⟨header,⟨row,_⟩,_,parent⟩ := formed.blocks k x found
    have under := oneBelow (h := k) (n := h.toNat) (by omega)
    have same : k - 1 = h := toNatInjective (by omega)
    rw [← (filed.headerStored lawful row).2,← same]
    exact parent (UInt64.lt_iff_toNat_lt.mpr (by omega))

theorem formedOf (lawful : crates.Lawful) (filed : Filed crates content s) (indexed : Indexed s) (coherent : Coherent s)
    (floor : s.minRetainedHeightCached ≤ low) (head : s.tip = some tip) (spans : Spans content (canonicalAt s.db) low tip.height)
    (top : canonicalAt s.db tip.height = some tip.hash)
    (held : ∀ h x, canonicalAt s.db h = some x → s.Stored x ∧ (s.db .blocks)[hashKey x]?.isSome) :
    WellFormed crates s low tip where
  floor := floor
  order := UInt64.le_iff_toNat_le.mpr spans.order
  heights h := by
    rw [spans.span,UInt64.le_iff_toNat_le,UInt64.le_iff_toNat_le]
  blocks h x found := by
    obtain ⟨stored,body⟩ := held h x found
    refine ⟨content x,⟨filed.storedHeader lawful stored,body⟩,spans.placed h x found,fun above => ?_⟩
    have higher := UInt64.lt_iff_toNat_lt.mp above
    have under := oneBelow higher
    exact spans.linked (h - 1) h x found (by omega) (by omega)
  head := head
  top := top
  tiers h x above hit := by
    rcases hit with cached | slot
    · exact coherent h x above cached
    · exact indexed.bin.agrees h x above slot

theorem Linked.formed (lawful : crates.Lawful) (agreed : Agreed s) (linked : Linked crates content s) (head : s.tip = some tip) :
    WellFormed crates s s.minRetainedHeightCached tip := by
  have chain := linked.chain
  rw [head] at chain
  exact formedOf lawful linked.filed agreed.indexed agreed.coherent (UInt64.le_refl _) head chain.spans chain.top
    fun h x found => ⟨linked.held h x found,(linked.whole.paired x).mpr (linked.held h x found)⟩

end Formed

section Rebase

theorem slotBelow {low high : UInt64} (below : low.toNat ≤ high.toNat) (fits : (slotEnd high).isSome) :
    (slotEnd low).isSome := by
  obtain ⟨n,found⟩ := Option.isSome_iff_exists.mp fits
  have wide := (CanonicalDenseFile.slotEndSome found).2
  unfold slotEnd
  rw [if_pos (by omega)]
  rfl

theorem acceptsSlot {bin : CanonicalBin} {height : UInt64} (fits : (slotEnd height).isSome) : bin.Accepts height := by
  cases bin with
  | rw d => exact fits
  | ro mmap => trivial
  | disabled left => trivial

theorem densely (h k : UInt64) (below : h.toNat < k.toNat) : ∃ j : UInt64, j.toNat = h.toNat + 1 := by
  have bound := k.toNat_lt
  refine ⟨h + 1,?_⟩
  rw [UInt64.toNat_add,UInt64.toNat_one]
  exact Nat.mod_eq_of_lt (by omega)

theorem walkRows {a b : Bytes32} {ancestor top : UInt64} {hashes : List Bytes32} {plan : ReorgPlan}
    (index : UInt64 → Option Bytes32)
    (walk : Walk UInt64.toNat (fun x => (content x).height) (fun x => (content x).parentHash) a ancestor hashes b top)
    (heights : ∀ h ∈ plan.heights, ancestor < h)
    (rows : rowsOf plan.records = hashes.map fun x => ((content x).height,x)) :
    (∀ h ≤ ancestor, plan.index index h = index h) ∧ ∀ x ∈ hashes, plan.index index (content x).height = some x := by
  constructor
  · intro h low
    have old : lastRow (rowsOf plan.records) h = none := lastRowNone.mpr fun x mem => by
      rw [rows] at mem
      obtain ⟨y,inside,same⟩ := List.mem_map.mp mem
      cases same
      have above := (walk.heights x inside).1
      have under := UInt64.le_iff_toNat_le.mp low
      omega
    rw [ReorgPlan.index,putAllAt,old,Option.none_or,eraseAll,if_neg fun mem => UInt64.not_le.mpr (heights h mem) low]
  · intro x mem
    have new : lastRow (rowsOf plan.records) (content x).height = some x := by
      rw [rows]
      refine lastRowUnique ?_ (List.mem_map.mpr ⟨x,mem,rfl⟩)
      rw [List.map_map]
      exact walk.distinctHeights
    rw [ReorgPlan.index,putAllAt,new]
    rfl

theorem rowsWhole {low high : UInt64} {index : UInt64 → Option Bytes32} {heights : List UInt64}
    (spans : Spans content index low high) (inside : ∀ h ∈ heights, low ≤ h ∧ h ≤ high) :
    (heights.filterMap index).map some = heights.map index := by
  rw [filterMapRows,List.filter_eq_self.mpr fun h mem => ?_]
  obtain ⟨above,below⟩ := inside h mem
  exact (spans.span h).mpr ⟨UInt64.le_iff_toNat_le.mp above,UInt64.le_iff_toNat_le.mp below⟩

theorem WellFormed.rebases {a b : Bytes32} {ancestor top : UInt64} {hashes : List Bytes32} {result : ReorgResult}
    (lawful : crates.Lawful) (agreed : Agreed s) (filed : Filed crates content s) (formed : WellFormed crates s low tip)
    (base : canonicalAt s.db ancestor = some a) (steps : ParentWalk crates s a ancestor hashes b top)
    (bodies : ∀ x ∈ hashes, (s.db .blocks)[hashKey x]?.isSome)
    (h : Runs (applyReorg crates ancestor hashes) s (.ok result) t) :
    Rebased crates s t low tip ancestor hashes b top result := by
  obtain ⟨plan,u,planned,fits,_,same,rfl⟩ := applyReorgOk h
  have touched := planned.touched
  have shift := applyReorgShift agreed.indexed planned fits
  have walk := steps.walk lawful filed
  have spans := formed.spans lawful filed
  have rows := (planned.heightsOf lawful filed).1
  have head : plan.tip = tip := by
    have head := planned.head
    rw [formed.head] at head
    exact (Option.some.inj head).symm
  have columns : ∀ cf, cf ≠ .canonical → cf ≠ .metadata → (u.reorged ancestor hashes plan).db cf = s.db cf :=
    fun cf rows metas => (reorgedColumn ancestor hashes plan rows metas).trans (by rw [touched.db])
  obtain ⟨above,below⟩ := spans.inside base
  have longer := walk.rises
  have some' := planned.some
  have bound := top.toNat_lt
  have next : ancestor.toNat + 1 < 2 ^ 64 := by
    have := List.length_pos_iff.mpr some'
    omega
  have higher : ∀ h ∈ plan.heights, ancestor < h := fun h mem => by
    rw [planned.heights] at mem
    exact ((memAboveTip next).mp mem).1
  obtain ⟨kept,put⟩ := walkRows (canonicalAt s.db) walk higher rows
  obtain ⟨grown,top'⟩ := reorgSpans (by rw [head]; exact spans) base walk some' planned.heights rows
  have reverted := reorgReverts agreed formed.head (UInt64.le_trans formed.floor (UInt64.le_iff_toNat_le.mpr above)) next h
  rw [same] at reverted
  constructor
  case formed =>
    refine formedOf lawful ((reorgedKeeps (u := u) ancestor hashes plan).filed (touched.filed lawful filed)) shift.indexed
      (reorgCoherent agreed.indexed agreed.coherent planned fits) (by rw [shift.floor]; exact formed.floor)
      (by rw [shift.tip,planned.newTip lawful filed walk]) (by rw [shift.rows]; exact grown) (by rw [shift.rows]; exact top')
      fun h x found => ?_
    rw [shift.rows,ReorgPlan.index,putAllAt,rows] at found
    rw [Stored,columns .headers (by simp) (by simp),columns .blocks (by simp) (by simp)]
    rcases Option.or_eq_some_iff.mp found with last | ⟨_,older⟩
    · obtain ⟨y,mem,same⟩ := List.mem_map.mp (lastRowMem last)
      cases same
      exact ⟨steps.stored _ mem,bodies _ mem⟩
    · unfold eraseAll at older
      split at older
      · cases older
      · obtain ⟨header,⟨row,body⟩,_⟩ := formed.blocks h x older
        exact ⟨(filed.headerStored lawful row).1,body⟩
  case below =>
    intro h under
    rw [shift.rows]
    exact kept h under
  case above =>
    intro i x found
    have height := walk.nth found
    have here : (UInt64.ofNat (ancestor.toNat + 1 + i)) = (content x).height := by
      rw [← height,UInt64.ofNat_toNat]
    rw [shift.rows,here]
    exact put x (List.mem_of_getElem? found)
  case reverted =>
    rw [same,reverted]
    refine rowsWhole spans fun h mem => ?_
    obtain ⟨higher,under⟩ := (memAboveTip next).mp (List.mem_reverse.mp mem)
    exact ⟨UInt64.le_trans (UInt64.le_iff_toNat_le.mpr above) (UInt64.le_of_lt higher),under⟩
  case applied => rw [same]
  case newTip => rw [same,planned.newTip lawful filed walk]
  case columns =>
    rintro cf (rfl | rfl | rfl) <;> exact columns _ (by simp) (by simp)

end Rebase

end Store

/- A reorg from the found ancestor onto the walk up to a stored block that is not canonical
returns Ok when nothing fails, and rebases the chain. -/
theorem reorgRebases {crates : Crates} {s w : Store} {low : UInt64} {tip : ChainTip} {a b : Bytes32}
    {ancestor top depth : UInt64} {hashes : List Bytes32} (lawful : crates.Lawful) (reached : Reaches crates s)
    (formed : s.WellFormed crates low tip) (writes : s.readOnly = false)
    (found : Runs (Store.findCommonAncestor crates b depth) s (.ok (some (a,ancestor))) w)
    (steps : Store.ParentWalk crates s a ancestor hashes b top)
    (bodies : ∀ x ∈ hashes, (s.db .blocks)[hashKey x]?.isSome) (aside : ∀ h, canonicalAt s.db h ≠ some b)
    (slots : (slotEnd top).isSome) :
    (∃ result t, Clean (Store.applyReorg crates ancestor hashes) s (.ok result) t) ∧
      ∀ result t, Runs (Store.applyReorg crates ancestor hashes) s (.ok result) t →
        Store.Rebased crates s t low tip ancestor hashes b top result := by
  obtain ⟨content,filed⟩ := reachesFiled lawful reached
  have agreed := agreedOf reached formed.coherent
  have base : canonicalAt s.db ancestor = some a :=
    Store.canonicalAnswerRow (Store.ancestorWalkFound agreed.indexed agreed.coherent found)
  refine ⟨?_,fun result t run => formed.rebases lawful agreed filed base steps bodies run⟩
  have spans := formed.spans lawful filed
  have walk := steps.walk lawful filed
  have some' : hashes ≠ [] := by
    rintro rfl
    cases steps
    exact aside ancestor base
  obtain ⟨above,_⟩ := spans.inside base
  have longer := walk.rises
  have more := List.length_pos_iff.mpr some'
  have bound := top.toNat_lt
  refine Store.applyReorgClean lawful agreed filed formed.head writes (by omega) some' steps.stored
    (Store.acceptsSlot (Store.slotBelow (by omega) slots)) (fun x mem => ?_) fun h higher under mapped last => ?_
  · exact Store.acceptsSlot (Store.slotBelow (walk.heights x mem).2 slots)
  · have strict := UInt64.lt_iff_toNat_lt.mp higher
    obtain ⟨x,row⟩ := spans.item (h := h) (by omega) (UInt64.le_iff_toNat_le.mp under)
    rw [last,agreed.seated mapped] at row
    cases row

namespace Sample

def branched : Store := .after crates (Store.links crates) config
  [.initGenesis (block 0 0 1),.extendChain (block 1 1 2),.extendChain (block 2 2 3),.putBlock (block 1 1 4) false,
    .putBlock (block 2 4 5) false]

theorem branchedLinked : ReachesLinked crates branched := Store.afterLinked (by decide +kernel)

theorem branchedFormed : branched.WellFormed crates 0 ⟨hash 3,2⟩ := by
  obtain ⟨agreed,content,linked⟩ := reachesLinked lawful branchedLinked
  have head : branched.tip = some ⟨hash 3,2⟩ := by decide +kernel
  have formed := linked.formed lawful agreed head
  rwa [show branched.minRetainedHeightCached = 0 by decide +kernel] at formed

theorem branchedWalk : Store.ParentWalk crates branched (hash 1) 0 [hash 4,hash 5] (hash 5) 2 :=
  @Store.ParentWalk.cons crates branched (hash 1) (hash 4) (hash 5) 0 2 [hash 5] (block 1 1 4).header (by decide +kernel) rfl rfl
    (@Store.ParentWalk.cons crates branched (hash 4) (hash 5) (hash 5) 1 2 [] (block 2 4 5).header (by decide +kernel) rfl rfl
      (.nil (hash 5) 2))

theorem branchedAside (h : UInt64) : canonicalAt branched.db h ≠ some (hash 5) := by
  intro found
  obtain ⟨header,⟨row,_⟩,rfl,_⟩ := branchedFormed.blocks h (hash 5) found
  have filed : branched.headerAt crates (hash 5) = some (block 2 4 5).header := by decide +kernel
  rw [filed] at row
  cases row
  have top : canonicalAt branched.db 2 = some (hash 3) := by decide +kernel
  rw [show (block 2 4 5).header.height = 2 from rfl,top] at found
  exact absurd found (by decide)

end Sample

theorem reorgRebasesSample : ∃ result t,
    Clean (Store.applyReorg Sample.crates 0 [Sample.hash 4,Sample.hash 5]) Sample.branched (.ok result) t ∧
      Store.Rebased Sample.crates Sample.branched t 0 ⟨Sample.hash 3,2⟩ 0 [Sample.hash 4,Sample.hash 5] (Sample.hash 5) 2 result := by
  obtain ⟨w,found⟩ := Store.ranOk (m := Store.findCommonAncestor Sample.crates (Sample.hash 5) 8) (s := Sample.branched)
    (a := some (Sample.hash 1,0)) (by decide +kernel)
  obtain ⟨⟨result,t,ran⟩,post⟩ := reorgRebases Sample.lawful Sample.branchedLinked.reaches Sample.branchedFormed (by decide +kernel)
    found Sample.branchedWalk (by decide +kernel) Sample.branchedAside (by decide +kernel)
  exact ⟨result,t,ran,post result t ran.runs⟩

end DigBlockstore
