import DigBlockstore.Checkpoints
import DigBlockstore.BatchReads
import DigBlockstore.Previews

/-! The stream of a range against the eager read of it: one scans the canonical rows, the
other looks each height up. They agree where no row of the range lies below the floor. -/
namespace DigBlockstore
open ByteCodec Faulty ColumnStore
namespace Store
variable {crates : Crates} {s t u : Store} {content : Bytes32 → L2BlockHeader}

section Scan

theorem heightKeyOrdered : Ordered heightKey := ⟨epochKeyOrdered.below,epochKeyOrdered.injective⟩

theorem ascendingSame {V : Type} {rows rows' : List (UInt64 × V)} (sorted : rows.Pairwise fun a b => a.1 < b.1)
    (sorted' : rows'.Pairwise fun a b => a.1 < b.1) (mem : ∀ row, row ∈ rows ↔ row ∈ rows') : rows = rows' := by
  have apart : ∀ {list : List (UInt64 × V)}, list.Pairwise (fun a b => a.1 < b.1) → list.Nodup := fun h => by
    refine List.Pairwise.imp ?_ h
    rintro a b below rfl
    exact UInt64.lt_irrefl _ below
  refine List.Perm.eq_of_pairwise (fun a b _ _ below above => ?_) sorted sorted'
    ((List.perm_ext_iff_of_nodup (apart sorted) (apart sorted')).mpr mem)
  exact absurd (UInt64.lt_trans below above) (UInt64.lt_irrefl _)

def rowsAt (s : Store) (heights : List UInt64) : List (UInt64 × Bytes32) :=
  heights.filterMap fun h => (canonicalAt s.db h).map (h,·)

theorem memRowsAt {heights : List UInt64} {h : UInt64} {x : Bytes32} :
    (h,x) ∈ s.rowsAt heights ↔ h ∈ heights ∧ canonicalAt s.db h = some x := by
  rw [rowsAt,List.mem_filterMap]
  constructor
  · rintro ⟨k,mem,row⟩
    obtain ⟨y,found,same⟩ := Option.map_eq_some_iff.mp row
    cases same
    exact ⟨mem,found⟩
  · rintro ⟨mem,found⟩
    exact ⟨h,mem,by rw [found]; rfl⟩

theorem rowsAtAscend {heights : List UInt64} (ascends : heights.Pairwise (· < ·)) :
    (s.rowsAt heights).Pairwise fun a b => a.1 < b.1 := by
  refine List.pairwise_filterMap.mpr (ascends.imp fun below a row b row' => ?_)
  obtain ⟨x,_,rfl⟩ := Option.map_eq_some_iff.mp row
  obtain ⟨y,_,rfl⟩ := Option.map_eq_some_iff.mp row'
  exact below

theorem canonicalColumn {db : Db} (typed : TypedRows db) : ∃ rows : List (UInt64 × Bytes32),
    (db .canonical).toList = rows.map (fun row => (heightKey row.1,hashKey row.2)) ∧
    rows.Pairwise (fun a b => a.1 < b.1) ∧ ∀ h x, (h,x) ∈ rows ↔ canonicalAt db h = some x := by
  obtain ⟨keyed,same,sorted,mem⟩ := heightKeyOrdered.rows (db .canonical) fun key found => by
    obtain ⟨value,row⟩ := Option.isSome_iff_exists.mp (Std.ExtTreeMap.mem_iff_isSome_getElem?.mp found)
    obtain ⟨h,_,rfl,_⟩ := typed key value row
    exact ⟨h,rfl⟩
  have hashes : ∀ row ∈ keyed, ∃ x, row.2 = hashKey x := fun row inside => by
    obtain ⟨_,x,_,value⟩ := typed _ _ ((mem row.1 row.2).mp inside)
    exact ⟨x,value⟩
  obtain ⟨rows,image⟩ : ∃ rows : List (UInt64 × Bytes32), keyed = rows.map (Prod.map id hashKey) := by
    clear same sorted mem
    induction keyed with
    | nil => exact ⟨[],rfl⟩
    | cons row rest ih =>
      obtain ⟨rows,later⟩ := ih fun r inside => hashes r (List.mem_cons_of_mem _ inside)
      obtain ⟨x,value⟩ := hashes row (by simp)
      exact ⟨(row.1,x) :: rows,by rw [List.map_cons,later,Prod.map,id,← value]⟩
  subst image
  refine ⟨rows,by rw [same,List.map_map]; rfl,?_,fun h x => ?_⟩
  · rwa [List.pairwise_map] at sorted
  · rw [canonicalRowIff typed,← mem,List.mem_map]
    constructor
    · exact fun inside => ⟨(h,x),inside,rfl⟩
    · rintro ⟨⟨k,y⟩,inside,eq⟩
      injection eq with height value
      cases height
      rwa [← hashKeyInj.mp value]

theorem canonicalPairsInside {start endHeight : UInt64} {rows : List (UInt64 × Bytes32)}
    (inside : ∀ row ∈ rows, start ≤ row.1 ∧ row.1 ≤ endHeight) :
    canonicalPairs start endHeight (rows.map fun row => (heightKey row.1,hashKey row.2)) = .ok rows := by
  induction rows with
  | nil => rfl
  | cons row rest ih =>
    obtain ⟨low,high⟩ := inside row (by simp)
    have width : ¬(heightKey row.1).length ≠ 8 := by simp [heightKey]
    rw [List.map_cons,canonicalPairs,if_neg width]
    dsimp only
    rw [decodeHeightKeyHeightKey,if_neg (UInt64.not_lt.mpr high),if_neg (UInt64.not_lt.mpr low),hashKey,
      Bytes32.ofBytesBytes]
    dsimp only
    rw [ih fun r mem => inside r (List.mem_cons_of_mem _ mem)]
    rfl

theorem iteratorBounds (start endHeight h : UInt64) :
    (compare (heightKey start) (heightKey h) ≠ .gt ∧
      (endHeight.toNat + 1 < 2 ^ 64 → compare (heightKey h) (heightKey (endHeight + 1)) = .lt)) ↔
      start ≤ h ∧ h ≤ endHeight := by
  have low : compare (heightKey start) (heightKey h) ≠ .gt ↔ start ≤ h := by
    rw [Ne,Std.OrientedCmp.gt_iff_lt.trans (heightKeyOrdered.below h start),UInt64.not_lt]
  have high : (endHeight.toNat + 1 < 2 ^ 64 → compare (heightKey h) (heightKey (endHeight + 1)) = .lt) ↔ h ≤ endHeight := by
    rw [heightKeyOrdered.below,UInt64.le_iff_toNat_le]
    have bound := h.toNat_lt
    by_cases last : endHeight.toNat + 1 < 2 ^ 64
    · have next : (endHeight + 1).toNat = endHeight.toNat + 1 := by
        rw [UInt64.toNat_add,UInt64.toNat_one]
        exact Nat.mod_eq_of_lt last
      rw [UInt64.lt_iff_toNat_lt,next]
      omega
    · exact ⟨fun _ => by omega,fun _ below => absurd below last⟩
  rw [low,high]

theorem streamPairs (typed : TypedRows s.db) (start endHeight : UInt64) :
    canonicalPairs start endHeight ((s.db .canonical).toList.filter fun (k,_) =>
      compare (heightKey start) k ≠ .gt ∧
        (endHeight.toNat + 1 < 2 ^ 64 → compare k (heightKey (endHeight + 1)) = .lt)) =
      .ok (s.rowsAt (heightsThrough start endHeight)) := by
  obtain ⟨rows,same,sorted,mem⟩ := canonicalColumn typed
  have kept : (s.db .canonical).toList.filter (fun (k,_) => compare (heightKey start) k ≠ .gt ∧
      (endHeight.toNat + 1 < 2 ^ 64 → compare k (heightKey (endHeight + 1)) = .lt)) =
      (rows.filter fun row => start ≤ row.1 ∧ row.1 ≤ endHeight).map fun row => (heightKey row.1,hashKey row.2) := by
    rw [same,List.filter_map]
    congr 1
    refine List.filter_congr fun row _ => ?_
    exact decide_eq_decide.mpr (iteratorBounds start endHeight row.1)
  have listed : rows.filter (fun row => start ≤ row.1 ∧ row.1 ≤ endHeight) = s.rowsAt (heightsThrough start endHeight) := by
    refine ascendingSame (sorted.filter _) (rowsAtAscend (heightsAscend ..)) fun ⟨h,x⟩ => ?_
    rw [List.mem_filter,mem,memRowsAt,memHeightsThrough,decide_eq_true_iff,and_comm]
  rw [kept,canonicalPairsInside fun row inside => of_decide_eq_true (List.mem_filter.mp inside).2,listed]

end Scan

section Bodies

/- The body row and the block cache agree on the hash, and a readable body has a header row. -/
def Backed (crates : Crates) (s : Store) (hash : Bytes32) : Prop :=
  (∀ block, s.blockCache.peek hash = some block → s.bodyAt crates hash = some block) ∧
    ((s.bodyAt crates hash).isSome → (s.headerAt crates hash).isSome)

theorem backedOf {hash : Bytes32} (block : L2Block) (body : s.bodyAt crates hash = some block)
    (held : s.blockCache.peek hash = some block) (header : (s.headerAt crates hash).isSome) : s.Backed crates hash := by
  refine ⟨fun found cached => ?_,fun _ => header⟩
  rw [held] at cached
  rw [body,cached]

theorem Touched.backed (touched : Touched crates s t) {hash : Bytes32} (backed : s.Backed crates hash) :
    t.Backed crates hash := by
  refine ⟨fun block held => ?_,by rw [touched.bodyAt,touched.headerAt]; exact backed.2⟩
  rw [touched.bodyAt]
  rcases touched.bodies hash block held with older | row
  · exact backed.1 block older
  · exact row

/- What the stream yields at a hash, read off the rows. -/
def bodyItem (crates : Crates) (s : Store) (hash : Bytes32) : Except BlockStoreError L2Block :=
  match (s.db .blocks)[hashKey hash]? with
  | none => .error (.blockNotFound hash)
  | some raw => s.deserializeBlock crates raw

theorem bodyItemOk {hash : Bytes32} {block : L2Block} : s.bodyItem crates hash = .ok block ↔ s.bodyAt crates hash = some block := by
  unfold bodyItem bodyAt
  cases (s.db .blocks)[hashKey hash]? with
  | none => simp
  | some raw =>
    dsimp only [Option.bind_some]
    cases s.deserializeBlock crates raw with
    | error e => simp [Except.toOption]
    | ok found => simp [Except.toOption]

theorem Touched.bodyItem (touched : Touched crates s t) (hash : Bytes32) : t.bodyItem crates hash = s.bodyItem crates hash := by
  unfold Store.bodyItem
  rw [touched.db]
  cases (s.db .blocks)[hashKey hash]? with
  | none => rfl
  | some raw => exact touched.deserialize raw

theorem streamNextAnswers {hash : Bytes32} (backed : s.Backed crates hash) (script : List Event) :
    ∃ t, Touched crates s t ∧
      Op.attempt (streamNext crates hash) ⟨s,script⟩ = (.ok (s.bodyItem crates hash),⟨t,script⟩) := by
  have ran : ∃ r t, streamNext crates hash ⟨s,script⟩ = (r,⟨t,script⟩) ∧
      r = (s.bodyItem crates hash).mapError .error := by
    simp only [streamNext,bind,Op.bind,Op.get,Op.modify,ShardedLruCache.getClone]
    cases held : s.blockCache.peek hash with
    | some block => exact ⟨_,_,rfl,by rw [bodyItemOk.mpr (backed.1 block held)]; rfl⟩
    | none =>
      unfold bodyItem
      cases (s.db .blocks)[hashKey hash]? with
      | none => exact ⟨_,_,rfl,rfl⟩
      | some raw =>
        dsimp only
        cases s.deserializeBlock crates raw with
        | error e => exact ⟨_,_,rfl,rfl⟩
        | ok block => exact ⟨_,_,rfl,rfl⟩
  obtain ⟨r,t,ran,same⟩ := ran
  refine ⟨t,streamNextTouched ⟨script,script,ran⟩,?_⟩
  rw [Op.attempt,ran,same]
  cases s.bodyItem crates hash <;> rfl

theorem streamAnswers {rows : List (UInt64 × Bytes32)} (backed : ∀ row ∈ rows, s.Backed crates row.2)
    (script : List Event) : ∃ t, Touched crates s t ∧
      Op.collect (fun (_,hash) => Op.attempt (streamNext crates hash)) rows ⟨s,script⟩ =
        (.ok (rows.map fun row => s.bodyItem crates row.2),⟨t,script⟩) := by
  induction rows generalizing s with
  | nil => exact ⟨s,.refl s,rfl⟩
  | cons row rest ih =>
    obtain ⟨u,touched,first⟩ := streamNextAnswers (backed row (by simp)) script
    obtain ⟨t,more,later⟩ := ih fun r mem => touched.backed (backed r (List.mem_cons_of_mem _ mem))
    refine ⟨t,touched.trans more,?_⟩
    rw [Op.collect,bindOk _ first,bindOk _ later,List.map_cons]
    simp only [touched.bodyItem]
    rfl

theorem streamReads (typed : TypedRows s.db) (start endHeight : UInt64)
    (backed : ∀ row ∈ s.rowsAt (heightsThrough start endHeight), s.Backed crates row.2) (script : List Event) :
    (streamBlocksInRange crates start endHeight ⟨s,script⟩).1 =
      .ok ((s.rowsAt (heightsThrough start endHeight)).map fun row => s.bodyItem crates row.2) := by
  unfold streamBlocksInRange
  by_cases inverted : start > endHeight
  · have empty : heightsThrough start endHeight = [] := List.eq_nil_iff_forall_not_mem.mpr fun h mem => by
      obtain ⟨low,high⟩ := memHeightsThrough.mp mem
      exact absurd (UInt64.le_trans low high) (UInt64.not_le.mpr inverted)
    rw [if_pos inverted,empty]
    rfl
  · rw [if_neg inverted]
    obtain ⟨t,_,ran⟩ := streamAnswers backed script
    simp only [bind,Op.bind,Op.get,streamPairs typed start endHeight]
    exact congrArg Prod.fst ran

end Bodies

section Eager

def blockAtHeight (crates : Crates) (s : Store) (height : UInt64) : Option L2Block :=
  (s.canonicalAnswer height).bind (s.bodyAt crates)

theorem canonicalAnswerRow {height : UInt64} {x : Bytes32} (found : s.canonicalAnswer height = some x) :
    canonicalAt s.db height = some x := by
  unfold canonicalAnswer at found
  split at found
  · cases found
  · exact found

theorem getBlockBody {hash : Bytes32} {block : L2Block} (backed : s.Backed crates hash)
    (body : s.bodyAt crates hash = some block) (script : List Event) :
    ∃ t, Touched crates s t ∧ getBlock crates hash ⟨s,script⟩ = (.ok (some block),⟨t,script⟩) := by
  have ran : ∃ t, getBlock crates hash ⟨s,script⟩ = (.ok (some block),⟨t,script⟩) := by
    simp only [getBlock,bind,Op.bind,Op.get,Op.modify,ShardedLruCache.getClone]
    cases held : s.blockCache.peek hash with
    | some found =>
      have same := backed.1 found held
      rw [body] at same
      cases same
      exact ⟨_,rfl⟩
    | none =>
      have item := bodyItemOk.mpr body
      unfold bodyItem at item
      cases row : (s.db .blocks)[hashKey hash]? with
      | none => rw [row] at item; cases item
      | some raw =>
        rw [row] at item
        dsimp only at item ⊢
        rw [item]
        exact ⟨_,rfl⟩
  obtain ⟨t,same⟩ := ran
  exact ⟨t,getBlockTouched ⟨script,script,same⟩,same⟩

theorem blockByHeightAnswers (agreed : Agreed s) {height : UInt64} (fits : s.Representable height)
    (reads : ∀ x, canonicalAt s.db height = some x → s.Backed crates x ∧ (s.bodyAt crates x).isSome) (script : List Event) :
    ∃ t, Touched crates s t ∧ getBlockByHeight crates height ⟨s,script⟩ = (.ok (s.blockAtHeight crates height),⟨t,script⟩) := by
  obtain ⟨u,touched,_,looked⟩ := lookupRow crates agreed fits script
  cases answer : s.canonicalAnswer height with
  | none =>
    rw [answer] at looked
    refine ⟨u,touched,?_⟩
    rw [getBlockByHeight,bindOk _ looked,blockAtHeight,answer]
    rfl
  | some x =>
    obtain ⟨backed,some'⟩ := reads x (canonicalAnswerRow answer)
    obtain ⟨block,body⟩ := Option.isSome_iff_exists.mp some'
    obtain ⟨t,more,read⟩ := getBlockBody (touched.backed backed) (by rw [touched.bodyAt]; exact body) script
    rw [answer] at looked
    refine ⟨t,touched.trans more,?_⟩
    rw [getBlockByHeight,bindOk _ looked,blockAtHeight,answer,Option.bind_some,body]
    exact read

theorem Touched.blockAtHeight (touched : Touched crates s t) : t.blockAtHeight crates = s.blockAtHeight crates := by
  funext height
  simp only [Store.blockAtHeight,touched.quiet.canonicalAnswer,funext touched.bodyAt]

theorem eagerAnswers (agreed : Agreed s) {heights : List UInt64} (fits : ∀ h ∈ heights, s.Representable h)
    (reads : ∀ h ∈ heights, ∀ x, canonicalAt s.db h = some x → s.Backed crates x ∧ (s.bodyAt crates x).isSome)
    (script : List Event) : ∃ t, Touched crates s t ∧
      Op.collect (getBlockByHeight crates) heights ⟨s,script⟩ = (.ok (heights.map (s.blockAtHeight crates)),⟨t,script⟩) := by
  induction heights generalizing s with
  | nil => exact ⟨s,.refl s,rfl⟩
  | cons height rest ih =>
    obtain ⟨u,touched,first⟩ := blockByHeightAnswers agreed (fits height (by simp)) (reads height (by simp)) script
    obtain ⟨t,more,later⟩ := ih (touched.quiet.agreed agreed)
      (fun h mem => touched.quiet.representable.mpr (fits h (List.mem_cons_of_mem _ mem))) fun h mem x row => by
        rw [touched.quiet.canonicalAt] at row
        obtain ⟨backed,body⟩ := reads h (List.mem_cons_of_mem _ mem) x row
        exact ⟨touched.backed backed,by rw [touched.bodyAt]; exact body⟩
    refine ⟨t,touched.trans more,?_⟩
    rw [Op.collect,bindOk _ first,bindOk _ later,List.map_cons,touched.blockAtHeight]
    rfl

theorem eagerFits (agreed : Agreed s) {heights : List UInt64} {found : List (Option L2Block)} {script : List Event}
    {w : World Store} (ran : Op.collect (getBlockByHeight crates) heights ⟨s,script⟩ = (.ok found,w)) :
    ∀ h ∈ heights, s.Representable h := by
  induction heights generalizing s found script w with
  | nil => simp
  | cons height rest ih =>
    by_cases fits : s.Representable height
    · cases first : getBlockByHeight crates height ⟨s,script⟩ with
      | mk r w' =>
        obtain ⟨u,script'⟩ := w'
        cases r with
        | error e =>
          have bad := bindError (fun b => do
            let bs ← Op.collect (getBlockByHeight crates) rest
            pure (b :: bs)) (congrArg Prod.fst first)
          rw [Op.collect] at ran
          rw [ran] at bad
          cases bad
        | ok block =>
          have touched : Touched crates s u := getBlockByHeightTouched ⟨script,script',first⟩
          rw [Op.collect,bindOk _ first] at ran
          cases more : Op.collect (getBlockByHeight crates) rest ⟨u,script'⟩ with
          | mk r' v =>
            cases r' with
            | error e =>
              have bad := bindError (fun bs => (pure (block :: bs) : StoreM _)) (congrArg Prod.fst more)
              rw [ran] at bad
              cases bad
            | ok later =>
              rw [List.forall_mem_cons]
              exact ⟨fits,fun h mem => touched.quiet.representable.mp (ih (touched.quiet.agreed agreed) more h mem)⟩
    · have bad : (Op.collect (getBlockByHeight crates) (height :: rest) ⟨s,script⟩).1 =
          .error (.panic "canonical.bin slot end overflows usize") := by
        rw [Op.collect]
        refine bindError _ ?_
        rw [getBlockByHeight]
        exact bindError _ (lookupPast agreed fits script)
      rw [ran] at bad
      cases bad

theorem recordHeights (lawful : crates.Lawful) (agreed : Agreed s) (filed : Filed crates content s) {heights : List UInt64}
    (fits : ∀ h ∈ heights, s.Representable h)
    (rows : ∀ h ∈ heights, ∀ x, canonicalAt s.db h = some x → s.Stored x) (script : List Event) :
    ∃ found t, Op.collect (getRecordByHeight crates) heights ⟨s,script⟩ = (.ok found,⟨t,script⟩) ∧
      found.map (Option.map BlockRecord.height) =
        heights.map fun h => (s.canonicalAnswer h).map fun x => (content x).height := by
  induction heights generalizing s with
  | nil => exact ⟨[],s,rfl,rfl⟩
  | cons height rest ih =>
    obtain ⟨u,touched,_,looked⟩ := lookupRow crates agreed (fits height (by simp)) script
    have one : ∃ record v, Touched crates s v ∧ getRecordByHeight crates height ⟨s,script⟩ = (.ok record,⟨v,script⟩) ∧
        record.map BlockRecord.height = (s.canonicalAnswer height).map fun x => (content x).height := by
      cases answer : s.canonicalAnswer height with
      | none =>
        rw [answer] at looked
        exact ⟨none,u,touched,by rw [getRecordByHeight,bindOk _ looked]; rfl,rfl⟩
      | some x =>
        rw [answer] at looked
        have filed' := touched.filed lawful filed
        have stored : u.Stored x := by
          rw [Stored,touched.db]
          exact rows height (by simp) x (canonicalAnswerRow answer)
        obtain ⟨record,v,more,read,height'⟩ := recordStored lawful filed' stored script
        exact ⟨some record,v,touched.trans more,by rw [getRecordByHeight,bindOk _ looked]; exact read,
          congrArg some height'⟩
    obtain ⟨record,v,touched,first,same⟩ := one
    obtain ⟨found,t,later,heights'⟩ := ih (touched.quiet.agreed agreed) (touched.filed lawful filed)
      (fun h mem => touched.quiet.representable.mpr (fits h (List.mem_cons_of_mem _ mem))) fun h mem x row => by
        rw [touched.quiet.canonicalAt] at row
        rw [Stored,touched.db]
        exact rows h (List.mem_cons_of_mem _ mem) x row
    refine ⟨record :: found,t,?_,?_⟩
    · rw [Op.collect,bindOk _ first,bindOk _ later]
      rfl
    · rw [List.map_cons,List.map_cons,same,heights']
      simp only [touched.quiet.canonicalAnswer]

end Eager

section Agreement

def Reserves (size : Nat) (start endHeight : UInt64) : Prop :=
  endHeight.toNat - start.toNat + 1 < 2 ^ 64 ∧ (endHeight.toNat - start.toNat + 1) * size < 2 ^ 63

instance (size : Nat) (start endHeight : UInt64) : Decidable (Reserves size start endHeight) :=
  inferInstanceAs (Decidable (_ ∧ _))

theorem reserveOk {size : Nat} {start endHeight : UInt64} (room : Reserves size start endHeight) (w : World Store) :
    reserve crates size start endHeight w = (.ok (),w) := by
  have counts : ¬endHeight.toNat - start.toNat + 1 ≥ 2 ^ 64 := Nat.not_le.mpr room.1
  have fits : ¬(endHeight.toNat - start.toNat + 1) * size ≥ 2 ^ 63 := Nat.not_le.mpr room.2
  simp only [reserve,if_neg counts,if_neg fits]
  rfl

theorem itemsBlocks {heights : List UInt64} (same : ∀ h ∈ heights, canonicalAt s.db h = s.canonicalAnswer h)
    (reads : ∀ h ∈ heights, ∀ x, canonicalAt s.db h = some x → (s.bodyAt crates x).isSome) :
    (s.rowsAt heights).map (fun row => s.bodyItem crates row.2) =
      (heights.filterMap (s.blockAtHeight crates)).map Except.ok := by
  induction heights with
  | nil => rfl
  | cons h rest ih =>
    have later := ih (fun k mem => same k (List.mem_cons_of_mem _ mem)) fun k mem => reads k (List.mem_cons_of_mem _ mem)
    have here := same h (by simp)
    unfold rowsAt at later ⊢
    rw [List.filterMap_cons,List.filterMap_cons,blockAtHeight,← here]
    cases row : canonicalAt s.db h with
    | none => exact later
    | some x =>
      obtain ⟨block,body⟩ := Option.isSome_iff_exists.mp (reads h (by simp) x row)
      rw [Option.bind_some,body]
      dsimp only [Option.map_some]
      rw [List.map_cons,List.map_cons,later,bodyItemOk.mpr body]

theorem filterMapLess {α β γ : Type} {f : α → Option β} {g : α → Option γ} {as : List α}
    (less : ∀ a ∈ as, (f a).isSome → (g a).isSome) : (as.filterMap f).length ≤ (as.filterMap g).length := by
  induction as with
  | nil => simp
  | cons a as ih =>
    have later := ih fun b mem => less b (List.mem_cons_of_mem _ mem)
    have here := less a (by simp)
    rw [List.filterMap_cons,List.filterMap_cons]
    cases hf : f a with
    | none =>
      cases g a with
      | none => exact later
      | some c => exact Nat.le_succ_of_le later
    | some b =>
      cases hg : g a with
      | none => rw [hf,hg] at here; cases here rfl
      | some c => exact Nat.succ_le_succ later

theorem filterMapCount {α β γ : Type} {f : α → Option β} {g : α → Option γ} {as : List α}
    (less : ∀ a ∈ as, (f a).isSome → (g a).isSome) (many : (as.filterMap g).length ≤ (as.filterMap f).length) :
    ∀ a ∈ as, (g a).isSome → (f a).isSome := by
  induction as with
  | nil => simp
  | cons a as ih =>
    have rest := fun b mem => less b (List.mem_cons_of_mem _ mem)
    have later := filterMapLess rest
    have here := less a (by simp)
    rw [List.filterMap_cons,List.filterMap_cons] at many
    rw [List.forall_mem_cons]
    cases hf : f a with
    | none =>
      cases hg : g a with
      | none =>
        rw [hf,hg] at many
        exact ⟨fun some' => some',ih rest many⟩
      | some c =>
        rw [hf,hg] at many
        exact absurd (Nat.lt_of_succ_le many) (Nat.not_lt.mpr later)
    | some b =>
      cases hg : g a with
      | none => rw [hf,hg] at here; cases here rfl
      | some c =>
        rw [hf,hg] at many
        exact ⟨fun _ => rfl,ih rest (Nat.le_of_succ_le_succ many)⟩

theorem blockHeights (lawful : crates.Lawful) (filed : Filed crates content s) {heights : List UInt64}
    (reads : ∀ h ∈ heights, ∀ x, canonicalAt s.db h = some x → (s.bodyAt crates x).isSome) :
    (heights.filterMap (s.blockAtHeight crates)).map (fun block => block.header.height) =
      heights.filterMap fun h => (s.canonicalAnswer h).map fun x => (content x).height := by
  rw [List.map_filterMap]
  refine List.filterMap_congr fun h mem => ?_
  unfold blockAtHeight
  cases answer : s.canonicalAnswer h with
  | none => rfl
  | some x =>
    obtain ⟨block,body⟩ := Option.isSome_iff_exists.mp (reads h mem x (canonicalAnswerRow answer))
    rw [Option.bind_some,body,Option.map_some,Option.map_some,filed.bodyAt lawful body]

/- What the three reads of a range agree on. -/
structure OneRange (crates : Crates) (s : Store) (size size' : Nat) (start endHeight : UInt64) (script : List Event)
    (blocks : List L2Block) : Prop where
  eager : (getBlocksInRange crates size start endHeight ⟨s,script⟩).1 = .ok blocks
  stream : (streamBlocksInRange crates start endHeight ⟨s,script⟩).1 = .ok (blocks.map .ok)
  records : ∃ records, (getRecordsInRange crates size' start endHeight ⟨s,script⟩).1 = .ok records ∧
    records.map BlockRecord.height = blocks.map fun block => block.header.height
  order : blocks = (heightsThrough start endHeight).filterMap (s.blockAtHeight crates)

theorem inverted {start endHeight : UInt64} (above : start > endHeight) : heightsThrough start endHeight = [] :=
  List.eq_nil_iff_forall_not_mem.mpr fun h mem => by
    obtain ⟨low,high⟩ := memHeightsThrough.mp mem
    exact absurd (UInt64.le_trans low high) (UInt64.not_le.mpr above)

theorem eagerReads (agreed : Agreed s) {size : Nat} {start endHeight : UInt64}
    (room : start ≤ endHeight → Reserves size start endHeight)
    (fits : ∀ h ∈ heightsThrough start endHeight, s.Representable h)
    (reads : ∀ h ∈ heightsThrough start endHeight, ∀ x, canonicalAt s.db h = some x →
      s.Backed crates x ∧ (s.bodyAt crates x).isSome) (script : List Event) :
    (getBlocksInRange crates size start endHeight ⟨s,script⟩).1 =
      .ok ((heightsThrough start endHeight).filterMap (s.blockAtHeight crates)) := by
  unfold getBlocksInRange
  by_cases above : start > endHeight
  · rw [if_pos above,inverted above]
    rfl
  · rw [if_neg above]
    obtain ⟨t,_,ran⟩ := eagerAnswers agreed fits reads script
    rw [bindOk _ (reserveOk (room (UInt64.not_lt.mp above)) _),bindOk _ ran,List.filterMap_map]
    rfl

theorem recordReads (lawful : crates.Lawful) (agreed : Agreed s) (filed : Filed crates content s) {size : Nat}
    {start endHeight : UInt64} (room : start ≤ endHeight → Reserves size start endHeight)
    (fits : ∀ h ∈ heightsThrough start endHeight, s.Representable h)
    (rows : ∀ h ∈ heightsThrough start endHeight, ∀ x, canonicalAt s.db h = some x → s.Stored x) (script : List Event) :
    ∃ records, (getRecordsInRange crates size start endHeight ⟨s,script⟩).1 = .ok records ∧
      records.map BlockRecord.height =
        (heightsThrough start endHeight).filterMap fun h => (s.canonicalAnswer h).map fun x => (content x).height := by
  unfold getRecordsInRange
  by_cases above : start > endHeight
  · rw [if_pos above,inverted above]
    exact ⟨[],rfl,rfl⟩
  · rw [if_neg above]
    obtain ⟨found,t,ran,heights⟩ := recordHeights lawful agreed filed fits rows script
    refine ⟨found.filterMap id,?_,?_⟩
    · rw [bindOk _ (reserveOk (room (UInt64.not_lt.mp above)) _),bindOk _ ran]
      rfl
    · have listed := congrArg (List.filterMap id) heights
      rw [List.filterMap_map,List.filterMap_map] at listed
      rw [List.map_filterMap]
      exact listed

theorem eagerFitsRange (agreed : Agreed s) {size : Nat} {start endHeight : UInt64} {blocks : List L2Block}
    {script : List Event} (room : start ≤ endHeight → Reserves size start endHeight)
    (ran : (getBlocksInRange crates size start endHeight ⟨s,script⟩).1 = .ok blocks) :
    ∀ h ∈ heightsThrough start endHeight, s.Representable h := by
  unfold getBlocksInRange at ran
  by_cases above : start > endHeight
  · simp [inverted above]
  · rw [if_neg above,bindOk _ (reserveOk (room (UInt64.not_lt.mp above)) _)] at ran
    cases all : Op.collect (getBlockByHeight crates) (heightsThrough start endHeight) ⟨s,script⟩ with
    | mk r w =>
      cases r with
      | ok found => exact eagerFits agreed all
      | error e =>
        rw [bindError _ (congrArg Prod.fst all)] at ran
        cases ran

theorem rowsRetained {heights : List UInt64}
    (many : (s.rowsAt heights).length ≤ (heights.filterMap (s.blockAtHeight crates)).length) :
    ∀ h ∈ heights, (canonicalAt s.db h).isSome → s.minRetainedHeightCached ≤ h := by
  intro h mem row
  have found := filterMapCount (f := s.blockAtHeight crates) (g := fun h => (canonicalAt s.db h).map (h,·))
    (fun k _ some' => by
      obtain ⟨block,found⟩ := Option.isSome_iff_exists.mp some'
      obtain ⟨x,answer,_⟩ := Option.bind_eq_some_iff.mp found
      rw [canonicalAnswerRow answer]
      rfl) many h mem (by rwa [Option.isSome_map])
  by_contra below
  rw [blockAtHeight,canonicalAnswerBelow (UInt64.not_le.mp below)] at found
  cases found

end Agreement

end Store

namespace Sample

def putBelow : Store := .after crates Store.tame config
  [.initGenesis (block 0 0 1),.extendChain (block 1 1 2),.extendChain (block 2 2 3),.pruneBeforeHeight 2,
    .putBlock (block 1 1 4) true]

end Sample

end DigBlockstore
