import DigBlockstore.Streams
import DigBlockstore.LinkedRuns

/-! Height and epoch keys in byte order: they decode to what they encode, they sort as the numbers do, and a scan
from one of them to the first number above a bound visits the numbers between. -/
namespace DigBlockstore
open ByteCodec ColumnStore

def rowsOnwards {V : Type} (start : Bytes) (table : Std.ExtTreeMap Bytes V compare) : List (Bytes × V) :=
  table.toList.filter fun row => compare start row.1 ≠ .gt

theorem decodeOrdered {a b : Bytes} (wideA : a.length = 8) (wideB : b.length = 8) :
    compare a b = .lt ↔ decodeEpochKey a < decodeEpochKey b := by
  have same : ∀ {key : Bytes}, key.length = 8 → epochKey (decodeEpochKey key) = key := heightKeyDecode
  rw [← epochKeyOrdered.below,same wideA,same wideB]

section Scans

def numbered (rows : List (Bytes × Bytes)) : List (UInt64 × Bytes) :=
  (rows.filter fun row => row.1.length = 8).map (Prod.map decodeEpochKey id)

theorem numberedAscend {rows : List (Bytes × Bytes)} (sorted : rows.Pairwise fun a b => compare a.1 b.1 = .lt) :
    (numbered rows).Pairwise fun a b => a.1 < b.1 := by
  rw [numbered,List.pairwise_map]
  refine (sorted.filter _).imp_of_mem fun memA memB below => ?_
  exact (decodeOrdered (of_decide_eq_true (List.mem_filter.mp memA).2) (of_decide_eq_true (List.mem_filter.mp memB).2)).mp below

theorem memNumbered {rows : List (Bytes × Bytes)} {number : UInt64} {value : Bytes} :
    (number,value) ∈ numbered rows ↔ (epochKey number,value) ∈ rows := by
  rw [numbered,List.mem_map]
  constructor
  · rintro ⟨row,mem,same⟩
    obtain ⟨inside,wide⟩ := List.mem_filter.mp mem
    injection same with hk hv
    rw [← hk,show epochKey (decodeEpochKey row.1) = row.1 from heightKeyDecode (of_decide_eq_true wide),← hv]
    exact inside
  · exact fun mem => ⟨_,List.mem_filter.mpr ⟨mem,by simp [epochKey]⟩,by rw [Prod.map,decodeEpochKeyEpochKey]; rfl⟩

theorem checkpointRowsOf {rows : List (Bytes × Bytes)} (sorted : rows.Pairwise fun a b => compare a.1 b.1 = .lt)
    (endEpoch : UInt64) :
    Store.checkpointRows endEpoch rows = ((numbered rows).filter fun row => row.1 ≤ endEpoch).map Prod.snd := by
  induction rows with
  | nil => rfl
  | cons row rest ih =>
    obtain ⟨first,later⟩ := List.pairwise_cons.mp sorted
    have ascends := numberedAscend sorted
    rw [Store.checkpointRows]
    by_cases wide : row.1.length = 8
    · have split : numbered (row :: rest) = (decodeEpochKey row.1,row.2) :: numbered rest := by
        rw [numbered,List.filter_cons_of_pos (by simpa using wide)]
        rfl
      rw [split] at ascends ⊢
      rw [if_neg (by simp [wide])]
      by_cases above : decodeEpochKey row.1 > endEpoch
      · have none' : ∀ a ∈ (decodeEpochKey row.1,row.2) :: numbered rest, ¬a.1 ≤ endEpoch := fun a mem => by
          rcases List.mem_cons.mp mem with rfl | older
          · exact UInt64.not_le.mpr above
          · exact UInt64.not_le.mpr (UInt64.lt_trans above ((List.pairwise_cons.mp ascends).1 a older))
        rw [if_pos above,List.filter_eq_nil_iff.mpr fun a mem => by simpa using none' a mem]
        rfl
      · rw [if_neg above,ih later,List.filter_cons_of_pos (by simpa using above)]
        rfl
    · have split : numbered (row :: rest) = numbered rest := by
        rw [numbered,List.filter_cons_of_neg (by simpa using wide)]
        rfl
      rw [if_pos wide,ih later,split]

theorem canonicalPairsOf {start endHeight : UInt64} {rows : List (UInt64 × Bytes32)}
    (sorted : rows.Pairwise fun a b => a.1 < b.1) (low : ∀ row ∈ rows, start ≤ row.1) :
    Store.canonicalPairs start endHeight (rows.map fun row => (heightKey row.1,hashKey row.2)) =
      .ok (rows.filter fun row => row.1 ≤ endHeight) := by
  induction rows with
  | nil => rfl
  | cons row rest ih =>
    obtain ⟨first,later⟩ := List.pairwise_cons.mp sorted
    have width : ¬(heightKey row.1).length ≠ 8 := by simp
    rw [List.map_cons,Store.canonicalPairs,if_neg width]
    dsimp only
    rw [decodeHeightKeyHeightKey]
    by_cases above : row.1 > endHeight
    · have none' : ∀ a ∈ row :: rest, ¬a.1 ≤ endHeight := fun a mem => by
        rcases List.mem_cons.mp mem with rfl | older
        · exact UInt64.not_le.mpr above
        · exact UInt64.not_le.mpr (UInt64.lt_trans above (first a older))
      rw [if_pos above,List.filter_eq_nil_iff.mpr fun a mem => by simpa using none' a mem]
    · rw [if_neg above,if_neg (UInt64.not_lt.mpr (low row (by simp))),hashKey,Bytes32.ofBytesBytes]
      dsimp only
      rw [ih later fun r mem => low r (List.mem_cons_of_mem _ mem),List.filter_cons_of_pos (by simpa using above)]
      rfl

end Scans

/- The numbers a scan visits: those of the table in the range, each once, in ascending order. -/
structure Visits {V : Type} (start stop : UInt64) (held : UInt64 → V → Prop) (visited : List (UInt64 × V)) : Prop where
  ascends : visited.Pairwise fun a b => a.1 < b.1
  exact : ∀ n v, (n,v) ∈ visited ↔ start ≤ n ∧ n ≤ stop ∧ held n v

theorem canonicalScan {db : Db} (typed : TypedRows db) (start stop : UInt64) : ∃ visited,
    Store.canonicalPairs start stop (rowsOnwards (heightKey start) (db .canonical)) = .ok visited ∧
      Visits start stop (fun h x => canonicalAt db h = some x) visited := by
  obtain ⟨rows,same,sorted,mem⟩ := Store.canonicalColumn typed
  have onwards : rowsOnwards (heightKey start) (db .canonical) =
      (rows.filter fun row => start ≤ row.1).map fun row => (heightKey row.1,hashKey row.2) := by
    rw [rowsOnwards,same,List.filter_map]
    congr 1
    refine List.filter_congr fun row _ => decide_eq_decide.mpr ?_
    rw [Ne,Std.OrientedCmp.gt_iff_lt.trans (Store.heightKeyOrdered.below row.1 start),UInt64.not_lt]
  refine ⟨_,by rw [onwards,canonicalPairsOf (sorted.filter _) fun row inside => of_decide_eq_true (List.mem_filter.mp inside).2],
    (sorted.filter _).filter _,fun h x => ?_⟩
  rw [List.mem_filter,List.mem_filter,mem]
  simp only [decide_eq_true_eq]
  tauto

theorem checkpointScan (db : Db) (start stop : UInt64) : ∃ visited : List (UInt64 × Bytes),
    Store.checkpointRows stop (rowsOnwards (epochKey start) (db .checkpoints)) = visited.map Prod.snd ∧
      Visits start stop (fun e raw => (db .checkpoints)[epochKey e]? = some raw) visited := by
  have sorted : (rowsOnwards (epochKey start) (db .checkpoints)).Pairwise fun a b => compare a.1 b.1 = .lt :=
    (db .checkpoints).ordered_keys_toList.filter _
  refine ⟨_,checkpointRowsOf sorted stop,(numberedAscend sorted).filter _,fun e raw => ?_⟩
  have low : compare (epochKey start) (epochKey e) ≠ .gt ↔ start ≤ e := by
    rw [Ne,Std.OrientedCmp.gt_iff_lt.trans (epochKeyOrdered.below e start),UInt64.not_lt]
  rw [List.mem_filter,memNumbered,rowsOnwards,List.mem_filter,Std.ExtTreeMap.mem_toList_iff_getElem?_eq_some]
  simp only [decide_eq_true_eq,low]
  tauto

/- Both kinds of keys are order isomorphisms onto the 8-byte keys, so a scan of either column from the key of `start`,
stopped above `stop`, visits what is stored between them. -/
theorem keysFollowNumbers {db : Db} (typed : TypedRows db) (start stop : UInt64) :
    (∀ a b, a < b ↔ compare (heightKey a) (heightKey b) = .lt) ∧ (∀ a b, a < b ↔ compare (epochKey a) (epochKey b) = .lt) ∧
    (∀ a, decodeHeightKey (heightKey a) = a) ∧ (∀ a, decodeEpochKey (epochKey a) = a) ∧
    (∀ key : Bytes, key.length = 8 → heightKey (decodeHeightKey key) = key ∧ epochKey (decodeEpochKey key) = key) ∧
    (∃ visited, Store.canonicalPairs start stop (rowsOnwards (heightKey start) (db .canonical)) = .ok visited ∧
      Visits start stop (fun h x => canonicalAt db h = some x) visited) ∧
    ∃ visited : List (UInt64 × Bytes),
      Store.checkpointRows stop (rowsOnwards (epochKey start) (db .checkpoints)) = visited.map Prod.snd ∧
        Visits start stop (fun e raw => (db .checkpoints)[epochKey e]? = some raw) visited :=
  ⟨fun a b => (Store.heightKeyOrdered.below a b).symm,fun a b => (epochKeyOrdered.below a b).symm,decodeHeightKeyHeightKey,
    decodeEpochKeyEpochKey,fun _ wide => ⟨heightKeyDecode wide,heightKeyDecode wide⟩,canonicalScan typed start stop,
    checkpointScan db start stop⟩

theorem keysFollowNumbersSample : TypedRows Sample.rebased.db ∧ ∃ visited,
    Store.canonicalPairs 1 2 (rowsOnwards (heightKey 1) (Sample.rebased.db .canonical)) = .ok visited ∧
      Visits 1 2 (fun h x => canonicalAt Sample.rebased.db h = some x) visited :=
  have typed := (reachesIndexed Sample.rebasedLinked.reaches).typed
  ⟨typed,(keysFollowNumbers typed 1 2).2.2.2.2.2.1⟩

end DigBlockstore
