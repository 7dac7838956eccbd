import DigBlockstore.Races

/-! A reorg with a reader between any two of its steps: what the reader is shown at each point. -/
namespace DigBlockstore
open ByteCodec Faulty ColumnStore PartialMap ChainSegment
namespace Store
variable {crates : Crates} {s t u m : Store} {content : Bytes32 → L2BlockHeader} {low : UInt64} {tip : ChainTip} {h : UInt64}

def view (s : Store) : Option ChainTip × (UInt64 → Exit (Option Bytes32)) :=
  (s.tip,fun height => (getHashByHeight height ⟨s,[]⟩).1)

section View

theorem answerRetip (s : Store) (head : Option ChainTip) (height : UInt64) :
    (getHashByHeight height ⟨{s with tip := head},[]⟩).1 = (getHashByHeight height ⟨s,[]⟩).1 := by
  rw [getHashByHeightUnfolds,getHashByHeightUnfolds]
  dsimp only
  split
  · rfl
  · cases s.canonicalHeightCache[height]? with
    | some hash => rfl
    | none =>
      dsimp only
      rcases s.canonicalBin.readHashBytes height with e | _ | hash
      · rfl
      · dsimp only
        cases (s.db .canonical)[heightKey height]? with
        | none => rfl
        | some bytes =>
          dsimp only
          cases Bytes32.ofBytes? bytes <;> rfl
      · rfl

end View

section Mid

theorem runsAtWorld {α : Type} {op : StoreM α} {w v : World Store} {r : Exit α} (ran : op w = (r,v)) :
    Runs op w.state r v.state := ⟨w.script,v.script,ran⟩

theorem reorgMid {ancestor : UInt64} {hashes : List Bytes32} {result : ReorgResult}
    (ran : Clean (applyReorg crates ancestor hashes) s (.ok result) t) : ∃ m newTip past c,
      Interleaving (.start s fun _ : Unit => applyReorgSteps crates ancestor hashes) past c ∧ c.now = m ∧ m.tip = s.tip ∧
        t = {m with tip := some newTip} := by
  have start : Reached (.start s fun _ : Unit => applyReorgSteps crates ancestor hashes) () (applyReorgSteps crates ancestor hashes)
      ⟨s,[]⟩ := ⟨[],_,.start,rfl,rfl⟩
  have run : (applyReorgSteps crates ancestor hashes).alone ⟨s,[]⟩ = (.ok result,⟨t,[]⟩) := by
    rw [applyReorgAlone]
    exact ran
  obtain ⟨_,w,refused,here,run⟩ := start.peel run
  rw [aloneOther] at refused
  have tip₁ : w.state.tip = s.tip := by rw [(refuseReadOnlyOk (runsAtWorld refused)).2]
  obtain ⟨head,w₁,asked,here,run⟩ := here.peel run
  have tip₂ : w₁.state.tip = s.tip := by
    cases asked
    exact tip₁
  cases head with
  | none => cases run
  | some top =>
    cases last : hashes.getLast? with
    | none =>
      rw [last] at run
      cases run
    | some newest =>
      rw [last] at here run
      obtain ⟨records,w₃,reading,here,run⟩ := here.peel run
      obtain ⟨start',w₄,above,here,run⟩ := here.peel run
      obtain ⟨reverted,w₅,looking,here,run⟩ := here.peel run
      rw [aloneGather,funext (getRecordOrMissingAlone crates)] at reading
      rw [heightAboveAlone] at above
      rw [collectCanonicalAlone] at looking
      have tip₅ : w₅.state.tip = s.tip := by
        rw [(@collectCanonicalTouched crates _ _ _ _ (runsAtWorld looking)).tip,(heightAboveRuns (runsAtWorld above)).1,
          (validatedTouched (runsAtWorld reading)).tip,tip₂]
      obtain ⟨_,w₆,batched,here,run⟩ := here.peel run
      obtain ⟨_,w₇,cut,here,run⟩ := here.peel run
      obtain ⟨_,w₈,slotted,here,run⟩ := here.peel run
      obtain ⟨_,w₉,flagged,here,run⟩ := here.peel run
      obtain ⟨_,w₁₀,swapped,here,run⟩ := here.peel run
      rw [aloneDoes] at batched
      rw [cutStep,aloneDoes] at cut
      simp only [aloneEach,slotStep,aloneDoes] at slotted
      rw [aloneOther] at flagged
      have tip₈ : w₈.state.tip = s.tip := by
        rw [(extendAllOk (runsAtWorld slotted)).2,← tip₅]
        change w₇.state.tip = _
        rw [(truncateRuns (runsAtWorld cut)).2,writeOk (runsAtWorld batched)]
        rfl
      have tip₁₀ : w₁₀.state.tip = s.tip := by
        cases swapped
        change w₉.state.tip = _
        cases flagged
        change (flagRecords true hashes (flagRecords false reverted w₈.state)).tip = _
        rw [flagRecordsRest,flagRecordsRest]
        exact tip₈
      obtain ⟨past,c,before,_,now⟩ := here
      exact ⟨w₁₀.state,⟨newest,(records.getLast?.map fun row => row.2.height).getD 0⟩,past,c,before,by rw [Live.now,now],tip₁₀,
        congrArg (fun ended => ended.2.state) run.symm⟩

end Mid

section Moved
variable {a b : Bytes32} {ancestor top : UInt64} {hashes : List Bytes32} {result : ReorgResult}

theorem Seated.representable (seated : Seated s) {x : Bytes32} (row : canonicalAt s.db h = some x) : s.Representable h := by
  rintro mapped rfl
  rw [seated mapped] at row
  cases row

theorem rowShared (crates : Crates) (agreed : Agreed s) (agreed' : Agreed t)
    (alike : ∀ k, (getHashByHeight k ⟨t,[]⟩).1 = (getHashByHeight k ⟨s,[]⟩).1) {x : Bytes32} (above : s.minRetainedHeightCached ≤ h)
    (above' : t.minRetainedHeightCached ≤ h) (row : canonicalAt s.db h = some x) : canonicalAt t.db h = some x := by
  have answers : (getHashByHeight h ⟨s,[]⟩).1 = .ok (canonicalAt s.db h) :=
    (lookupAnswered crates agreed).mpr ⟨agreed.seated.representable row,(canonicalAnswerAbove above).symm⟩
  rw [← alike,row] at answers
  have found := ((lookupAnswered crates agreed').mp answers).2
  rw [canonicalAnswerAbove above'] at found
  exact found.symm

theorem reorgAgreed (agreed : Agreed s) (ran : Clean (applyReorg crates ancestor hashes) s (.ok result) t) : Agreed t := by
  obtain ⟨plan,u,planned,fits,_,_,same⟩ := applyReorgOk ran.runs
  have called : Clean (call crates (.applyReorg ancestor hashes)) s (.ok ()) t := cleanBind ran (cleanPure () t)
  refine ⟨callIndexed agreed.indexed called.runs,?_,callSeated agreed.indexed agreed.seated called.runs⟩
  rw [same]
  exact reorgCoherent agreed.indexed agreed.coherent planned fits

/- With the tip still to be set the reader sees neither chain, unless the two have one end. -/
theorem WellFormed.sameEnd (lawful : crates.Lawful) (agreed : Agreed s) (filed : Filed crates content s)
    (formed : WellFormed crates s low tip) (base : canonicalAt s.db ancestor = some a)
    (steps : ParentWalk crates s a ancestor hashes b top) (ran : Clean (applyReorg crates ancestor hashes) s (.ok result) t)
    {newTip : ChainTip} (head : m.tip = s.tip) (set : t = {m with tip := some newTip}) (shown : m.view = s.view ∨ m.view = t.view) :
    tip = ⟨b,top⟩ := by
  obtain ⟨plan,u,planned,fits,_,_,same⟩ := applyReorgOk ran.runs
  have shift := applyReorgShift agreed.indexed planned fits
  rw [← same] at shift
  have walk := steps.walk lawful filed
  have spans := formed.spans lawful filed
  have old : plan.tip = tip := Option.some.inj (planned.head.symm.trans formed.head)
  obtain ⟨grown,top'⟩ := reorgSpans (by rw [old]; exact spans) base walk planned.some planned.heights
    (planned.heightsOf lawful filed).1
  rw [← shift.rows] at grown top'
  rcases shown with before | after
  · have alike : ∀ k, (getHashByHeight k ⟨t,[]⟩).1 = (getHashByHeight k ⟨s,[]⟩).1 := fun k => by
      rw [set,answerRetip]
      exact congrFun (congrArg Prod.snd before) k
    have low' : ∀ {k : UInt64}, low ≤ k → s.minRetainedHeightCached ≤ k := fun above => UInt64.le_trans formed.floor above
    have agreed' := reorgAgreed agreed ran
    have lower : low ≤ top := UInt64.le_iff_toNat_le.mpr grown.order
    have here : canonicalAt s.db top = some b := rowShared crates agreed' agreed (fun k => (alike k).symm)
      (by rw [shift.floor]; exact low' lower) (low' lower) top'
    have there : canonicalAt t.db tip.height = some tip.hash := rowShared crates agreed agreed' alike (low' formed.order)
      (by rw [shift.floor]; exact low' formed.order) formed.top
    have height : tip.height = top := toNatInjective (Nat.le_antisymm (grown.inside there).2 (spans.inside here).2)
    rw [← height,formed.top] at here
    rw [← height,← Option.some.inj here]
  · have tips : m.tip = t.tip := congrArg Prod.fst after
    rw [head,formed.head,shift.tip,planned.newTip lawful filed walk] at tips
    exact Option.some.inj tips

end Moved

end Store

namespace Switch
variable {ι : Type} [DecidableEq ι] {sw : Switch} {w : ι} {s : Store} {tips : Option ChainTip → Prop} {x : Scene ι Access Store}

def ofPlan (ancestor : UInt64) (plan : Store.ReorgPlan) : Switch :=
  ofReorg ancestor (heightsThrough (ancestor + 1) plan.tip.height) plan.records plan.newTip

theorem Racing.unseen (crates : Crates) (fits : sw.Fits s) (agreed : s.Agreed) (racing : sw.Racing w s tips x)
    (held : ∀ h y, (h,y) ∈ sw.rows → canonicalAt s.db h = some y) (kept : sw.index (canonicalAt s.db) = canonicalAt s.db) (h : UInt64) :
    (Store.getHashByHeight h ⟨x.now,[]⟩).1 = (Store.getHashByHeight h ⟨s,[]⟩).1 := by
  have rows : canonicalAt x.now.db = canonicalAt s.db := by
    rw [racing.rows,kept,ite_self]
  by_cases below : h < s.minRetainedHeightCached
  · rw [Store.getHashByHeightUnfolds,Store.getHashByHeightUnfolds,racing.floor,if_pos below,if_pos below]
  · have above := UInt64.not_lt.mp below
    have cached : ∀ y, sw.MayCache s (sw.stage w x.past) h y → canonicalAt s.db h = some y := by
      intro y may
      by_cases early : sw.stage w x.past = []
      · exact may.first early
      · rcases may.later early with row | ⟨_,_,row | mem⟩
        · rwa [kept] at row
        · exact row
        · exact held h y mem
    have told : ∀ y, sw.Says s (sw.stage w x.past) h y → canonicalAt s.db h = some y :=
      fun y told => told.seen.elim id (held h y)
    by_cases asked : s.Representable h
    · have answers := racing.answersRow fits agreed.indexed (by rwa [rows]) (by rwa [rows]) above asked []
      have answers' : (Store.getHashByHeight h ⟨s,[]⟩).1 = .ok (canonicalAt s.db h) :=
        (Store.lookupAnswered crates agreed).mpr ⟨asked,(Store.canonicalAnswerAbove above).symm⟩
      rw [answers,answers',rows]
    · rw [Store.lookupPast agreed asked]
      simp only [Store.Representable,not_forall] at asked
      obtain ⟨mapped,rfl,_⟩ := asked
      rw [Store.getHashByHeightUnfolds,racing.floor,if_neg below]
      cases hit : x.now.canonicalHeightCache[lastSlot]? with
      | some y =>
        have row := cached y (racing.cache lastSlot y above hit)
        rw [agreed.seated mapped] at row
        cases row
      | none =>
        rw [racing.bin]
        dsimp only
        rw [CanonicalBin.readsLastSlot (fileReady (sw.stage w x.past) agreed.indexed.bin.ready) ((fileMapping ..).trans mapped)]

end Switch

namespace Store
variable {crates : Crates} {s t : Store} {content : Bytes32 → L2BlockHeader} {low : UInt64} {tip : ChainTip}
  {a b : Bytes32} {ancestor top : UInt64} {hashes : List Bytes32} {result : ReorgResult}

theorem WellFormed.unmoved (lawful : crates.Lawful) (agreed : Agreed s) (filed : Filed crates content s)
    (formed : WellFormed crates s low ⟨b,top⟩) (base : canonicalAt s.db ancestor = some a)
    (steps : ParentWalk crates s a ancestor hashes b top) (ran : Clean (applyReorg crates ancestor hashes) s (.ok result) t) :
    ∃ plan u v, Planned crates s v ancestor hashes plan ∧ plan.newTip = ⟨b,top⟩ ∧
      Clean (Op.collect (getRecordOrMissing crates) hashes) s (.ok plan.records) u ∧ (Switch.ofPlan ancestor plan).Fits s ∧
      (∀ h y, (h,y) ∈ rowsOf plan.records → canonicalAt s.db h = some y) ∧
      plan.index (canonicalAt s.db) = canonicalAt s.db := by
  obtain ⟨plan₀,u₀,planned₀,cut,slots,_,_⟩ := applyReorgOk ran.runs
  rw [planned₀.touched.bin] at cut slots
  have walk := steps.walk lawful filed
  have spans := formed.spans lawful filed
  have some' := planned₀.some
  have risen := walk.rises
  have longer := List.length_pos_iff.mpr some'
  have bound := top.toNat_lt
  have next : ancestor.toNat + 1 < 2 ^ 64 := by omega
  have revertable : s.Revertable ancestor ⟨b,top⟩ := by
    intro h higher under
    have strict := UInt64.lt_iff_toNat_lt.mp higher
    obtain ⟨x,row⟩ := spans.item (h := h) (by have := (spans.inside base).1; omega) (UInt64.le_iff_toNat_le.mp under)
    exact agreed.seated.representable row
  obtain ⟨plan,u,v,planned,reading,_,heights⟩ := plannedClean lawful agreed filed formed.head planned₀.writes next some'
    steps.stored revertable
  have rows := (planned.heightsOf lawful filed).1
  have newTip := planned.newTip lawful filed walk
  have old : plan.tip = ⟨b,top⟩ := Option.some.inj (planned.head.symm.trans formed.head)
  have accepts : ∀ row ∈ plan.records, s.canonicalBin.Accepts row.2.height := by
    intro row mem
    obtain ⟨inside,height⟩ := heights row mem
    have same : ((content row.1).height,row.1) ∈ rowsOf plan₀.records := by
      rw [(planned₀.heightsOf lawful filed).1]
      exact List.mem_map.mpr ⟨row.1,inside,rfl⟩
    obtain ⟨row₀,mem₀,same⟩ := List.mem_map.mp same
    have placed : row₀.2.height = (content row.1).height := congrArg Prod.fst same
    rw [height,← placed]
    exact slots row₀ mem₀
  obtain ⟨grown,top'⟩ := reorgSpans (by rw [old]; exact spans) base walk some' planned.heights rows
  have kept : plan.index (canonicalAt s.db) = canonicalAt s.db :=
    spans.unique toNatInjective densely grown (top'.trans formed.top.symm)
  have higher : ∀ h ∈ plan.heights, ancestor < h := fun h mem => by
    rw [planned.heights] at mem
    exact ((memAboveTip next).mp mem).1
  refine ⟨plan,u,v,planned,newTip,reading,Switch.reorgFits agreed.indexed planned.writes cut accepts plan.newTip,fun h y mem => ?_,
    kept⟩
  rw [rows] at mem
  obtain ⟨x,inside,same⟩ := List.mem_map.mp mem
  cases same
  rw [← kept]
  exact (walkRows (canonicalAt s.db) walk higher rows).2 y inside

theorem WellFormed.still (lawful : crates.Lawful) (agreed : Agreed s) (filed : Filed crates content s)
    (formed : WellFormed crates s low ⟨b,top⟩) (base : canonicalAt s.db ancestor = some a)
    (steps : ParentWalk crates s a ancestor hashes b top) (ran : Clean (applyReorg crates ancestor hashes) s (.ok result) t)
    {past : List (Unit × Access)} {c : Live Unit Access Store BlockStoreError ReorgResult}
    (run : Interleaving (.start s fun _ : Unit => applyReorgSteps crates ancestor hashes) past c) : c.now.view = s.view := by
  obtain ⟨plan,u,v,planned,newTip,reading,fits,held,kept⟩ := formed.unmoved lawful agreed filed base steps ran
  have start : (Switch.ofPlan ancestor plan).Racing () s (fun head => head = s.tip) (⟨[],s⟩ : Scene Unit Access Store) :=
    .start agreed.indexed agreed.coherent rfl
  have safe : (applyReorgSteps crates ancestor hashes).Safe (fun _ => True) ((Switch.ofPlan ancestor plan).Racing () s
      fun head => head = s.tip) (Switch.Rely ()) () ((Switch.ofPlan ancestor plan).Settles ()) ⟨[],s⟩ := by
    refine Switch.reorgSafe fits agreed.indexed (fun tip last records w _ head newest read => ?_) start ⟨rfl,refl_of Warmed s⟩
    rw [planned.head] at head
    rw [planned.last] at newest
    cases head
    cases newest
    cases (reading.unique read).1
    rw [← planned.height]
    exact ⟨rfl,by rw [formed.head]; exact congrArg some newTip⟩
  obtain ⟨_,racing,_⟩ := interleavingSafe (fun _ _ _ => trivial) rfl start (fun _ => safe) run trivial
  have same : (Switch.ofPlan ancestor plan).index (canonicalAt s.db) = plan.index (canonicalAt s.db) := by
    rw [ReorgPlan.index,planned.heights]
    rfl
  exact Prod.ext racing.tip (funext fun h => racing.unseen crates fits agreed held (same.trans kept) h)

end Store

/- At every point of a reorg that returns Ok the reader is shown the old chain or the new one exactly
when both end in the same block. -/
theorem reorgMoments {crates : Crates} {s t : Store} {low : UInt64} {tip : ChainTip} {a b : Bytes32} {ancestor top : UInt64}
    {hashes : List Bytes32} {result : ReorgResult} (lawful : crates.Lawful) (reached : Reaches crates s)
    (formed : s.WellFormed crates low tip) (base : canonicalAt s.db ancestor = some a)
    (steps : Store.ParentWalk crates s a ancestor hashes b top)
    (ran : Clean (Store.applyReorg crates ancestor hashes) s (.ok result) t) :
    (∀ past c, Interleaving (.start s fun _ : Unit => Store.applyReorgSteps crates ancestor hashes) past c →
      c.now.view = s.view ∨ c.now.view = t.view) ↔ tip = ⟨b,top⟩ := by
  obtain ⟨content,filed⟩ := reachesFiled lawful reached
  have agreed := agreedOf reached formed.coherent
  constructor
  · intro shown
    obtain ⟨m,newTip,past,c,before,rfl,head,set⟩ := Store.reorgMid ran
    exact formed.sameEnd lawful agreed filed base steps ran head set (shown past c before)
  · rintro rfl past c run
    exact .inl (formed.still lawful agreed filed base steps ran run)

namespace Sample

theorem branchedCurrent : Store.ParentWalk crates branched (hash 1) 0 [hash 2,hash 3] (hash 3) 2 :=
  @Store.ParentWalk.cons crates branched (hash 1) (hash 2) (hash 3) 0 2 [hash 3] (block 1 1 2).header (by decide +kernel) rfl rfl
    (@Store.ParentWalk.cons crates branched (hash 2) (hash 3) (hash 3) 1 2 [] (block 2 2 3).header (by decide +kernel) rfl rfl
      (.nil (hash 3) 2))

theorem branchedReorgs {hashes : List Bytes32} {b : Bytes32} (some' : hashes ≠ [])
    (steps : Store.ParentWalk crates branched (hash 1) 0 hashes b 2) :
    ∃ result t, Clean (Store.applyReorg crates 0 hashes) branched (.ok result) t := by
  obtain ⟨content,filed⟩ := reachesFiled lawful branchedLinked.reaches
  have formed := branchedFormed
  have agreed := agreedOf branchedLinked.reaches formed.coherent
  have slots : (slotEnd 2).isSome := rfl
  have low : (0 : UInt64).toNat ≤ (2 : UInt64).toNat := by decide
  refine Store.applyReorgClean lawful agreed filed formed.head (by decide +kernel) (by decide) some' steps.stored
    (Store.acceptsSlot (Store.slotBelow low slots)) (fun x mem => ?_) fun h _ under _ last => ?_
  · exact Store.acceptsSlot (Store.slotBelow ((steps.walk lawful filed).heights x mem).2 slots)
  · rw [last] at under
    exact absurd under (by decide)

def reorging : Live Unit Access Store BlockStoreError ReorgResult :=
  .start branched fun _ => Store.applyReorgSteps crates 0 [hash 4,hash 5]

def torn (s : Store) : Bool := s.tip = some ⟨hash 3,2⟩ ∧ (Store.getHashByHeight 2 ⟨s,[]⟩).1 = .ok (some (hash 5))

theorem tornMoment : ∃ past c, Interleaving reorging past c ∧ c.now.tip = some ⟨hash 3,2⟩ ∧
    (Store.getHashByHeight 2 ⟨c.now,[]⟩).1 = .ok (some (hash 5)) := by
  have seen : ((play (List.replicate 14 ()) [] reorging).any fun moment => torn moment.2.now) = true := by decide +kernel
  obtain ⟨⟨past,c⟩,played,passed⟩ := Option.any_eq_true _ _ |>.mp seen
  have both : c.now.tip = some ⟨hash 3,2⟩ ∧ (Store.getHashByHeight 2 ⟨c.now,[]⟩).1 = .ok (some (hash 5)) :=
    of_decide_eq_true passed
  exact ⟨past,c,playInterleaves .start played,both⟩

end Sample

theorem reorgMomentsSample : ∃ result t, Clean (Store.applyReorg Sample.crates 0 [Sample.hash 2,Sample.hash 3]) Sample.branched
    (.ok result) t ∧ ∀ past c, Interleaving (.start Sample.branched fun _ : Unit =>
      Store.applyReorgSteps Sample.crates 0 [Sample.hash 2,Sample.hash 3]) past c →
        c.now.view = Sample.branched.view ∨ c.now.view = t.view := by
  obtain ⟨result,t,ran⟩ := Sample.branchedReorgs (by simp) Sample.branchedCurrent
  have base : canonicalAt Sample.branched.db 0 = some (Sample.hash 1) := by decide +kernel
  exact ⟨result,t,ran,(reorgMoments Sample.lawful Sample.branchedLinked.reaches Sample.branchedFormed base Sample.branchedCurrent
    ran).mpr rfl⟩

/- One step before the end the tip is the old one and the height below it answers the new block. -/
theorem reorgTears : Reaches Sample.crates Sample.branched ∧ Sample.branched.WellFormed Sample.crates 0 ⟨Sample.hash 3,2⟩ ∧
    Store.ParentWalk Sample.crates Sample.branched (Sample.hash 1) 0 [Sample.hash 4,Sample.hash 5] (Sample.hash 5) 2 ∧
    ∃ result t, Clean (Store.applyReorg Sample.crates 0 [Sample.hash 4,Sample.hash 5]) Sample.branched (.ok result) t ∧
      ∃ past c, Interleaving Sample.reorging past c ∧ c.now.view ≠ Sample.branched.view ∧ c.now.view ≠ t.view := by
  obtain ⟨result,t,ran⟩ := Sample.branchedReorgs (by simp) Sample.branchedWalk
  obtain ⟨past,c,before,tip,found⟩ := Sample.tornMoment
  refine ⟨Sample.branchedLinked.reaches,Sample.branchedFormed,Sample.branchedWalk,result,t,ran,past,c,before,
    fun same => ?_,fun same => ?_⟩
  · have held : (Store.getHashByHeight 2 ⟨Sample.branched,[]⟩).1 = .ok (some (Sample.hash 3)) := by decide +kernel
    have shown := congrFun (congrArg Prod.snd same) 2
    dsimp only [Store.view] at shown
    rw [found,held] at shown
    exact absurd (Option.some.inj (Except.ok.inj shown)) (by decide)
  · have set : (Store.applyReorg Sample.crates 0 [Sample.hash 4,Sample.hash 5] ⟨Sample.branched,[]⟩).2.state.tip =
        some ⟨Sample.hash 5,2⟩ := by decide +kernel
    rw [show Store.applyReorg Sample.crates 0 [Sample.hash 4,Sample.hash 5] ⟨Sample.branched,[]⟩ = _ from ran] at set
    have shown : c.now.tip = t.tip := congrArg Prod.fst same
    rw [tip,set] at shown
    exact absurd (Option.some.inj shown) (by decide)

end DigBlockstore
