import DigBlockstore.Streams
import DigBlockstore.BatchSwitch
import DigBlockstore.Recovery

/-! The eager reads of a range, for any bounds: the vector they reserve, and the rows of the
range as if it had been clipped to the canonical index. -/
namespace DigBlockstore
open ByteCodec Faulty ColumnStore
namespace Store
variable {crates : Crates} {s t u : Store} {content : Bytes32 → L2BlockHeader}

section Turns
variable {α β : Type} {f : α → StoreM β} {answer : α → β} {ok : α → Prop} {kept : Store → Prop}

structure Turns (f : α → StoreM β) (answer : α → β) (ok : α → Prop) (kept : Store → Prop) (as : List α) : Prop where
  answers : ∀ a ∈ as, ok a → ∀ u script, kept u → ∃ t, kept t ∧ f a ⟨u,script⟩ = (.ok (answer a),⟨t,script⟩)
  stops : ∀ a ∈ as, ¬ok a → ∀ u script, kept u → ∃ e, (f a ⟨u,script⟩).1 = .error e

theorem Turns.tail {a : α} {rest : List α} (turns : Turns f answer ok kept (a :: rest)) : Turns f answer ok kept rest :=
  ⟨fun b mem => turns.answers b (List.mem_cons_of_mem _ mem),fun b mem => turns.stops b (List.mem_cons_of_mem _ mem)⟩

theorem Turns.collects {as : List α} (turns : Turns f answer ok kept as) (start : kept s) (script : List Event) :
    ((∀ a ∈ as, ok a) → ∃ t, kept t ∧ Op.collect f as ⟨s,script⟩ = (.ok (as.map answer),⟨t,script⟩)) ∧
      ∀ found, (Op.collect f as ⟨s,script⟩).1 = .ok found → ∀ a ∈ as, ok a := by
  induction as generalizing s with
  | nil => exact ⟨fun _ => ⟨s,start,rfl⟩,by simp⟩
  | cons a rest ih =>
    constructor
    · intro all
      obtain ⟨u,kept',first⟩ := turns.answers a (by simp) (all a (by simp)) s script start
      obtain ⟨t,done,later⟩ := (ih turns.tail kept').1 fun b mem => all b (List.mem_cons_of_mem _ mem)
      refine ⟨t,done,?_⟩
      rw [Op.collect,bindOk _ first,bindOk _ later,List.map_cons]
      rfl
    · intro found ran
      by_cases here : ok a
      · obtain ⟨u,kept',first⟩ := turns.answers a (by simp) here s script start
        rw [Op.collect,bindOk _ first] at ran
        rw [List.forall_mem_cons]
        refine ⟨here,?_⟩
        cases later : (Op.collect f rest ⟨u,script⟩).1 with
        | ok more => exact (ih turns.tail kept').2 more later
        | error e =>
          rw [bindError _ later] at ran
          cases ran
      · obtain ⟨e,bad⟩ := turns.stops a (by simp) here s script start
        rw [Op.collect,bindError _ bad] at ran
        cases ran

end Turns

section Blocks

def Decodes (crates : Crates) (s : Store) (hash : Bytes32) : Prop :=
  (s.db .blocks)[hashKey hash]?.isSome → (s.bodyAt crates hash).isSome

theorem getBlockReads {hash : Bytes32} (backed : s.Backed crates hash) (script : List Event) :
    (s.Decodes crates hash → ∃ t, Touched crates s t ∧
      getBlock crates hash ⟨s,script⟩ = (.ok (s.bodyAt crates hash),⟨t,script⟩)) ∧
    (¬s.Decodes crates hash → ∃ e, (getBlock crates hash ⟨s,script⟩).1 = .error e) := by
  cases body : s.bodyAt crates hash with
  | some block =>
    refine ⟨fun _ => getBlockBody backed body script,fun bad => absurd (fun _ => by rw [body]; rfl) bad⟩
  | none =>
    have uncached : s.blockCache.peek hash = none := by
      cases held : s.blockCache.peek hash with
      | none => rfl
      | some block =>
        rw [backed.1 block held] at body
        cases body
    cases row : (s.db .blocks)[hashKey hash]? with
    | none =>
      refine ⟨fun _ => ?_,fun bad => absurd (fun present => by rw [row] at present; cases present) bad⟩
      have ran : ∃ t, getBlock crates hash ⟨s,script⟩ = (.ok none,⟨t,script⟩) := by
        simp only [getBlock,bind,Op.bind,Op.get,Op.modify,ShardedLruCache.getClone,uncached,row]
        exact ⟨_,rfl⟩
      obtain ⟨t,same⟩ := ran
      exact ⟨t,getBlockTouched ⟨script,script,same⟩,same⟩
    | some raw =>
      refine ⟨fun decodes => ?_,fun _ => ?_⟩
      · have bad := decodes (by rw [row]; rfl)
        rw [body] at bad
        cases bad
      · have item : ∃ e, s.deserializeBlock crates raw = .error e := by
          cases decoded : s.deserializeBlock crates raw with
          | error e => exact ⟨e,rfl⟩
          | ok block =>
            rw [bodyAt,row,Option.bind_some,decoded] at body
            cases body
        obtain ⟨e,failed⟩ := item
        refine ⟨.error e,?_⟩
        simp only [getBlock,bind,Op.bind,Op.get,Op.modify,ShardedLruCache.getClone,uncached,row]
        rw [failed]
        rfl

/- What a range needs of a height: the lookup can ask the file, and the row's body decodes. -/
def Readable (crates : Crates) (s : Store) (h : UInt64) : Prop :=
  s.Representable h ∧ ∀ x, s.canonicalAnswer h = some x → s.Decodes crates x

theorem blockTurns (agreed : Agreed s) {heights : List UInt64}
    (backed : ∀ h ∈ heights, ∀ x, canonicalAt s.db h = some x → s.Backed crates x) :
    Turns (getBlockByHeight crates) (s.blockAtHeight crates) (s.Readable crates) (Touched crates s) heights where
  answers h mem readable u script touched := by
    have quiet := touched.quiet
    obtain ⟨v,looked,_,ran⟩ := lookupRow crates (quiet.agreed agreed) (quiet.representable.mpr readable.1) script
    rw [quiet.canonicalAnswer] at ran
    have both := touched.trans looked
    cases answer : s.canonicalAnswer h with
    | none =>
      rw [answer] at ran
      refine ⟨v,both,?_⟩
      rw [getBlockByHeight,bindOk _ ran,blockAtHeight,answer]
      rfl
    | some x =>
      rw [answer] at ran
      have decodes : v.Decodes crates x := by
        intro present
        rw [both.db] at present
        rw [both.bodyAt]
        exact readable.2 x answer present
      obtain ⟨t,more,read⟩ := (getBlockReads (both.backed (backed h mem x (canonicalAnswerRow answer))) script).1 decodes
      refine ⟨t,both.trans more,?_⟩
      rw [getBlockByHeight,bindOk _ ran,blockAtHeight,answer,Option.bind_some,← both.bodyAt]
      exact read
  stops h mem unreadable u script touched := by
    have quiet := touched.quiet
    by_cases fits : s.Representable h
    · obtain ⟨v,looked,_,ran⟩ := lookupRow crates (quiet.agreed agreed) (quiet.representable.mpr fits) script
      rw [quiet.canonicalAnswer] at ran
      have both := touched.trans looked
      obtain ⟨x,answer,bad⟩ : ∃ x, s.canonicalAnswer h = some x ∧ ¬s.Decodes crates x := by
        by_contra all
        refine unreadable ⟨fits,fun x answer => ?_⟩
        by_contra bad
        exact all ⟨x,answer,bad⟩
      have bad' : ¬v.Decodes crates x := fun decodes => bad fun present => by
        rw [← both.bodyAt]
        exact decodes (by rw [both.db]; exact present)
      obtain ⟨e,failed⟩ := (getBlockReads (both.backed (backed h mem x (canonicalAnswerRow answer))) script).2 bad'
      rw [answer] at ran
      refine ⟨e,?_⟩
      rw [getBlockByHeight,bindOk _ ran]
      exact failed
    · refine ⟨.panic "canonical.bin slot end overflows usize",?_⟩
      rw [getBlockByHeight]
      exact bindError _ (lookupPast (quiet.agreed agreed) (fun here => fits (quiet.representable.mp here)) script)

end Blocks

section Records

def recordAtHeight (crates : Crates) (s : Store) (h : UInt64) : Option BlockRecord :=
  (s.canonicalAnswer h).bind (s.recordAt crates)

theorem Touched.recordAt (lawful : crates.Lawful) (filed : Filed crates content s) (touched : Touched crates s t)
    {hash : Bytes32} (ends : s.Ends crates hash) : t.recordAt crates hash = s.recordAt crates hash := by
  have same := touched.record lawful filed ends []
  obtain ⟨_,_,_,ran⟩ := getRecordAnswers (filed.reads lawful hash) []
  obtain ⟨_,_,_,ran'⟩ := getRecordAnswers ((touched.filed lawful filed).reads lawful hash) []
  rw [ran,ran'] at same
  exact Except.ok.inj same

theorem recordTurns (lawful : crates.Lawful) (agreed : Agreed s) (filed : Filed crates content s) {heights : List UInt64}
    (ends : ∀ h ∈ heights, ∀ x, canonicalAt s.db h = some x → s.Ends crates x) :
    Turns (getRecordByHeight crates) (s.recordAtHeight crates) s.Representable (Touched crates s) heights where
  answers h mem fits u script touched := by
    have quiet := touched.quiet
    obtain ⟨v,looked,_,ran⟩ := lookupRow crates (quiet.agreed agreed) (quiet.representable.mpr fits) script
    rw [quiet.canonicalAnswer] at ran
    have both := touched.trans looked
    cases answer : s.canonicalAnswer h with
    | none =>
      rw [answer] at ran
      refine ⟨v,both,?_⟩
      rw [getRecordByHeight,bindOk _ ran,recordAtHeight,answer]
      rfl
    | some x =>
      rw [answer] at ran
      obtain ⟨t,more,_,read⟩ := getRecordAnswers ((both.filed lawful filed).reads lawful x) script
      refine ⟨t,both.trans more,?_⟩
      rw [getRecordByHeight,bindOk _ ran,recordAtHeight,answer,Option.bind_some,
        ← both.recordAt lawful filed (ends h mem x (canonicalAnswerRow answer))]
      exact read
  stops h _ past u script touched := by
    have quiet := touched.quiet
    refine ⟨.panic "canonical.bin slot end overflows usize",?_⟩
    rw [getRecordByHeight]
    exact bindError _ (lookupPast (quiet.agreed agreed) (fun here => past (quiet.representable.mp here)) script)

end Records

section Clipping

def eagerRange {β : Type} (crates : Crates) (f : UInt64 → StoreM (Option β)) (size : Nat) (start endHeight : UInt64) :
    StoreM (List β) := do
  if start > endHeight then pure []
  else
    reserve crates size start endHeight
    let found ← Op.collect f (heightsThrough start endHeight)
    pure (found.filterMap id)

theorem Turns.ranges {β : Type} {f : UInt64 → StoreM (Option β)} {answer : UInt64 → Option β} {ok : UInt64 → Prop}
    {kept : Store → Prop} {size : Nat} {start endHeight : UInt64}
    (turns : Turns f answer ok kept (heightsThrough start endHeight)) (begin' : kept s) (ordered : start ≤ endHeight)
    (room : Reserves size start endHeight) (script : List Event) (items : List β) :
    (eagerRange crates f size start endHeight ⟨s,script⟩).1 = .ok items ↔
      (∀ h ∈ heightsThrough start endHeight, ok h) ∧ items = (heightsThrough start endHeight).filterMap answer := by
  obtain ⟨answers,stops⟩ := turns.collects begin' script
  have answered : (∀ h ∈ heightsThrough start endHeight, ok h) →
      (eagerRange crates f size start endHeight ⟨s,script⟩).1 = .ok ((heightsThrough start endHeight).filterMap answer) := by
    intro all
    obtain ⟨t,_,ran⟩ := answers all
    rw [eagerRange,if_neg (UInt64.not_lt.mpr ordered),bindOk _ (reserveOk room _),bindOk _ ran,List.filterMap_map]
    rfl
  constructor
  · intro ran
    have all : ∀ h ∈ heightsThrough start endHeight, ok h := by
      cases loop : (Op.collect f (heightsThrough start endHeight) ⟨s,script⟩).1 with
      | ok found => exact stops found loop
      | error e =>
        rw [eagerRange,if_neg (UInt64.not_lt.mpr ordered),bindOk _ (reserveOk room _),bindError _ loop] at ran
        cases ran
    rw [answered all] at ran
    exact ⟨all,(Except.ok.inj ran).symm⟩
  · rintro ⟨all,rfl⟩
    exact answered all

/- Both vectors are reserved without an overflow, and both reads answer the canonical rows of the range. -/
structure ReadsRange (crates : Crates) (s : Store) (size size' : Nat) (start endHeight : UInt64) (script : List Event) :
    Prop where
  reserved : ∀ w, (reserve (CanonicalBin.checked crates) size start endHeight w).1 = .ok () ∧
    (reserve (CanonicalBin.checked crates) size' start endHeight w).1 = .ok ()
  blocks : (getBlocksInRange crates size start endHeight ⟨s,script⟩).1 =
    .ok ((heightsThrough start endHeight).filterMap fun h => (canonicalAt s.db h).bind (s.bodyAt crates))
  records : (getRecordsInRange crates size' start endHeight ⟨s,script⟩).1 =
    .ok ((heightsThrough start endHeight).filterMap fun h => (canonicalAt s.db h).bind (s.recordAt crates))

theorem reservesIff {size : Nat} {start endHeight : UInt64} (w : World Store) :
    (reserve (CanonicalBin.checked crates) size start endHeight w).1 = .ok () ↔ Reserves size start endHeight := by
  constructor
  · intro ran
    unfold reserve at ran
    split at ran
    · rw [if_pos (show (CanonicalBin.checked crates).overflowChecks = true from rfl)] at ran
      cases ran
    · rename_i counts
      split at ran
      · cases ran
      · rename_i fits
        exact ⟨Nat.not_le.mp counts,Nat.not_le.mp fits⟩
  · intro room
    rw [reserveOk room]

/- What the reads need of a canonical row: none below the floor that has a header, and every body
above it readable. -/
def RowClips (crates : Crates) (s : Store) (h : UInt64) (x : Bytes32) : Prop :=
  (s.Stored x → s.minRetainedHeightCached ≤ h) ∧ (s.minRetainedHeightCached ≤ h → s.Decodes crates x)

theorem recordSome (lawful : crates.Lawful) (filed : Filed crates content s) {hash : Bytes32} (ends : s.Ends crates hash) :
    (s.recordAt crates hash).isSome ↔ s.Stored hash := by
  rcases recordAtRow lawful filed ends with ⟨row,unknown⟩ | ⟨header,record,row,found,_⟩
  · rw [unknown]
    constructor
    · intro bad
      cases bad
    · intro stored
      rw [filed.storedHeader lawful stored] at row
      cases row
  · rw [found]
    exact ⟨fun _ => (filed.headerStored lawful row).1,fun _ => rfl⟩

theorem belowFloor (lawful : crates.Lawful) (filed : Filed crates content s) {h : UInt64} {x : Bytes32}
    (ends : s.Ends crates x) (clips : s.RowClips crates h x) (low : h < s.minRetainedHeightCached) :
    s.bodyAt crates x = none ∧ s.recordAt crates x = none := by
  have unstored : ¬s.Stored x := fun stored => UInt64.not_le.mpr low (clips.1 stored)
  have headless : s.headerAt crates x = none := by
    cases row : s.headerAt crates x with
    | none => rfl
    | some header => exact absurd (filed.headerStored lawful row).1 unstored
  constructor
  · rw [bodyAt,(ends headless).2.1]
    rfl
  · rw [← Option.not_isSome_iff_eq_none,recordSome lawful filed ends]
    exact unstored

end Clipping

end Store

/- Where the lookup tiers agree with the canonical rows and the caches with the stored ones, the eager
reads of a range clip it exactly when their vectors can be reserved, each height of it can be
asked about, and each canonical row of it is retained and readable. -/
theorem rangesClip {crates : Crates} {s : Store} (lawful : crates.Lawful) (reached : Reaches crates s)
    (coherent : s.Coherent) {start endHeight : UInt64} (ordered : start ≤ endHeight) (size size' : Nat)
    (backed : ∀ h x, start ≤ h → h ≤ endHeight → canonicalAt s.db h = some x → s.Backed crates x ∧ s.Ends crates x)
    (script : List Event) :
    s.ReadsRange crates size size' start endHeight script ↔
      Store.Reserves size start endHeight ∧ Store.Reserves size' start endHeight ∧
        ∀ h, start ≤ h → h ≤ endHeight → s.Representable h ∧
          ∀ x, canonicalAt s.db h = some x → s.RowClips crates h x := by
  obtain ⟨content,filed⟩ := reachesFiled lawful reached
  have agreed := agreedOf reached coherent
  have rows : ∀ h ∈ heightsThrough start endHeight, ∀ x, canonicalAt s.db h = some x → s.Backed crates x ∧ s.Ends crates x :=
    fun h mem x row => backed h x (memHeightsThrough.mp mem).1 (memHeightsThrough.mp mem).2 row
  have bodies := Store.blockTurns agreed fun h mem x row => (rows h mem x row).1
  have records := Store.recordTurns lawful agreed filed fun h mem x row => (rows h mem x row).2
  constructor
  · intro reads
    have reserved := reads.reserved ⟨s,script⟩
    rw [Store.reservesIff,Store.reservesIff] at reserved
    obtain ⟨readable,items⟩ := (bodies.ranges (.refl s) ordered reserved.1 script _).mp reads.blocks
    obtain ⟨_,items'⟩ := (records.ranges (.refl s) ordered reserved.2 script _).mp reads.records
    refine ⟨reserved.1,reserved.2,fun h low high => ?_⟩
    have mem := memHeightsThrough.mpr ⟨low,high⟩
    refine ⟨(readable h mem).1,fun x row => ⟨fun stored => ?_,fun above => ?_⟩⟩
    · have found := Store.filterMapCount (f := s.recordAtHeight crates) (fun k _ some' => ?_)
        (Nat.le_of_eq (congrArg List.length items')) h mem ?_
      · by_contra below
        rw [Store.recordAtHeight,Store.canonicalAnswerBelow (UInt64.not_le.mp below)] at found
        cases found
      · obtain ⟨record,found⟩ := Option.isSome_iff_exists.mp some'
        obtain ⟨y,answer,record'⟩ := Option.bind_eq_some_iff.mp found
        rw [Store.canonicalAnswerRow answer,Option.bind_some,record']
        rfl
      · rw [row,Option.bind_some,Store.recordSome lawful filed (rows h mem x row).2]
        exact stored
    · exact (readable h mem).2 x ((Store.canonicalAnswerAbove above).trans row)
  · rintro ⟨room,room',all⟩
    have clips : ∀ h ∈ heightsThrough start endHeight, ∀ x, canonicalAt s.db h = some x → s.RowClips crates h x :=
      fun h mem => (all h (memHeightsThrough.mp mem).1 (memHeightsThrough.mp mem).2).2
    have fits : ∀ h ∈ heightsThrough start endHeight, s.Representable h :=
      fun h mem => (all h (memHeightsThrough.mp mem).1 (memHeightsThrough.mp mem).2).1
    have above : ∀ h x, s.canonicalAnswer h = some x → s.minRetainedHeightCached ≤ h := fun h x answer => by
      by_contra below
      rw [Store.canonicalAnswerBelow (UInt64.not_le.mp below)] at answer
      cases answer
    have same : ∀ h ∈ heightsThrough start endHeight,
        (canonicalAt s.db h).bind (s.bodyAt crates) = s.blockAtHeight crates h ∧
          (canonicalAt s.db h).bind (s.recordAt crates) = s.recordAtHeight crates h := by
      intro h mem
      unfold Store.blockAtHeight Store.recordAtHeight
      by_cases low : h < s.minRetainedHeightCached
      · rw [Store.canonicalAnswerBelow low]
        cases row : canonicalAt s.db h with
        | none => exact ⟨rfl,rfl⟩
        | some x => exact Store.belowFloor lawful filed (rows h mem x row).2 (clips h mem x row) low
      · rw [Store.canonicalAnswerAbove (UInt64.not_lt.mp low)]
        exact ⟨rfl,rfl⟩
    refine ⟨fun w => ⟨Store.reservesIff w |>.mpr room,Store.reservesIff w |>.mpr room'⟩,
      (bodies.ranges (.refl s) ordered room script _).mpr ⟨fun h mem => ⟨fits h mem,fun x answer => ?_⟩,?_⟩,
      (records.ranges (.refl s) ordered room' script _).mpr ⟨fits,?_⟩⟩
    · exact (clips h mem x (Store.canonicalAnswerRow answer)).2 (above h x answer)
    · exact List.filterMap_congr fun h mem => (same h mem).1
    · exact List.filterMap_congr fun h mem => (same h mem).2

namespace Sample

theorem threeRows (h : UInt64) (low : h ≤ 4) : Store.Representable threeBlocks h ∧
    ∀ x, canonicalAt threeBlocks.db h = some x →
      threeBlocks.Backed crates x ∧ threeBlocks.Ends crates x ∧ threeBlocks.RowClips crates h x := by
  have stored : ∀ {x : Bytes32}, (threeBlocks.headerAt crates x).isSome → threeBlocks.Ends crates x := fun header row => by
    rw [row] at header
    cases header
  have clips : ∀ {h : UInt64} {x : Bytes32}, threeBlocks.minRetainedHeightCached ≤ h →
      (threeBlocks.bodyAt crates x).isSome → threeBlocks.RowClips crates h x := fun above body =>
    ⟨fun _ => above,fun _ _ => body⟩
  have cases' : h = 0 ∨ h = 1 ∨ h = 2 ∨ h = 3 ∨ h = 4 := by
    rw [UInt64.le_iff_toNat_le] at low
    simp only [← UInt64.toNat_inj]
    change h.toNat ≤ 4 at low
    change h.toNat = 0 ∨ h.toNat = 1 ∨ h.toNat = 2 ∨ h.toNat = 3 ∨ h.toNat = 4
    omega
  have row : ∀ {h : UInt64} {y : Bytes32}, canonicalAt threeBlocks.db h = some y →
      threeBlocks.Backed crates y → (threeBlocks.headerAt crates y).isSome → (threeBlocks.bodyAt crates y).isSome →
      threeBlocks.minRetainedHeightCached ≤ h → ∀ x, canonicalAt threeBlocks.db h = some x →
        threeBlocks.Backed crates x ∧ threeBlocks.Ends crates x ∧ threeBlocks.RowClips crates h x :=
    fun here backed header body above x found => by
      rw [here] at found
      cases found
      exact ⟨backed,stored header,clips above body⟩
  refine ⟨fun _ last => ?_,?_⟩
  · rw [last] at low
    exact absurd low (by decide)
  · rcases cases' with rfl | rfl | rfl | rfl | rfl
    · exact row (y := hash 1) (by decide +kernel) (Store.backedOf (block 0 0 1) (by decide +kernel) (by decide +kernel)
        (by decide +kernel)) (by decide +kernel) (by decide +kernel) (by decide +kernel)
    · exact row (y := hash 2) (by decide +kernel) (Store.backedOf (block 1 1 2) (by decide +kernel) (by decide +kernel)
        (by decide +kernel)) (by decide +kernel) (by decide +kernel) (by decide +kernel)
    · exact row (y := hash 3) (by decide +kernel) (Store.backedOf (block 2 2 3) (by decide +kernel) (by decide +kernel)
        (by decide +kernel)) (by decide +kernel) (by decide +kernel) (by decide +kernel)
    · intro x found
      rw [show canonicalAt threeBlocks.db 3 = none by decide +kernel] at found
      cases found
    · intro x found
      rw [show canonicalAt threeBlocks.db 4 = none by decide +kernel] at found
      cases found

end Sample

theorem rangesClipSample : Sample.threeBlocks.ReadsRange Sample.crates 1056 200 1 4 [] := by
  have run : ReachesUnshadowed Sample.crates Sample.threeBlocks := Store.afterTame (by decide +kernel)
  exact (rangesClip Sample.lawful run.reaches (reachesCoherent run).2 (by decide) 1056 200
    (fun h x _ high row => ⟨((Sample.threeRows h high).2 x row).1,((Sample.threeRows h high).2 x row).2.1⟩) []).mpr
    ⟨by decide,by decide,fun h _ high => ⟨(Sample.threeRows h high).1,fun x row => ((Sample.threeRows h high).2 x row).2.2⟩⟩

/- The whole range counts one height too many, and a range of 2^56 heights asks for too large a vector
of records. -/
theorem rangesOverflow : Reaches Sample.crates Sample.threeBlocks ∧
    (Store.getBlocksInRange Sample.crates 1056 0 18446744073709551615 ⟨Sample.threeBlocks,[]⟩).1 =
      .error (.panic "attempt to add with overflow") ∧
    (Store.getRecordsInRange Sample.crates 200 0 72057594037927936 ⟨Sample.threeBlocks,[]⟩).1 =
      .error (.panic "capacity overflow") ∧
    ¬Sample.threeBlocks.ReadsRange Sample.crates 1056 200 0 18446744073709551615 [] := by
  have run : ReachesUnshadowed Sample.crates Sample.threeBlocks := Store.afterTame (by decide +kernel)
  refine ⟨run.reaches,rfl,rfl,fun reads => ?_⟩
  have reserved := (reads.reserved ⟨Sample.threeBlocks,[]⟩).1
  cases reserved

end DigBlockstore
