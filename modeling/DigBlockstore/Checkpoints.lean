import DigBlockstore.Sample
import DigBlockstore.Library.KeyTable

/-! Checkpoints: the rows under epoch keys are an ordered map from epochs. Point reads,
the last row, a range and a prune agree with it. -/
namespace DigBlockstore
open ByteCodec Faulty ColumnStore

abbrev CheckpointMap := UInt64 → Option StoredCheckpoint

namespace CheckpointMap

def put (m : CheckpointMap) (checkpoint : StoredCheckpoint) : CheckpointMap :=
  Function.update m checkpoint.epoch (some checkpoint)

def prunedBefore (m : CheckpointMap) (epoch : UInt64) : CheckpointMap := fun e => if e < epoch then none else m e

/- The checkpoint of the greatest epoch. -/
def Latest (m : CheckpointMap) : Option StoredCheckpoint → Prop
  | none => ∀ e, m e = none
  | some checkpoint => m checkpoint.epoch = some checkpoint ∧ ∀ e, m e ≠ none → e ≤ checkpoint.epoch

/- The checkpoints between two epochs, in ascending order. -/
def Ranged (m : CheckpointMap) (startEpoch endEpoch : UInt64) (checkpoints : List StoredCheckpoint) : Prop :=
  checkpoints.Pairwise (fun a b => a.epoch < b.epoch) ∧
    ∀ c, c ∈ checkpoints ↔ startEpoch ≤ c.epoch ∧ c.epoch ≤ endEpoch ∧ m c.epoch = some c

end CheckpointMap

/- Runs of checkpoint calls and reopens, with the map they lead to. -/
inductive CheckpointRun (crates : Crates) : Store → CheckpointMap → Prop where
  | opened {s : Store} (start : Opened crates s) : CheckpointRun crates s fun _ => none
  | put {s t : Store} {m : CheckpointMap} {checkpoint : StoredCheckpoint} (run : CheckpointRun crates s m)
      (h : Runs (Store.putCheckpoint crates checkpoint) s (.ok ()) t) : CheckpointRun crates t (m.put checkpoint)
  | putFailed {s t : Store} {m : CheckpointMap} {checkpoint : StoredCheckpoint} {e : BlockStoreError}
      (run : CheckpointRun crates s m) (h : Runs (Store.putCheckpoint crates checkpoint) s (.error (.error e)) t) :
      CheckpointRun crates t m
  | prune {s t : Store} {m : CheckpointMap} {epoch : UInt64} {n : Nat} (run : CheckpointRun crates s m)
      (h : Runs (Store.pruneCheckpointsBeforeEpoch epoch) s (.ok n) t) : CheckpointRun crates t (m.prunedBefore epoch)
  | pruneFailed {s t : Store} {m : CheckpointMap} {epoch : UInt64} {e : BlockStoreError}
      (run : CheckpointRun crates s m)
      (h : Runs (Store.pruneCheckpointsBeforeEpoch epoch) s (.error (.error e)) t) : CheckpointRun crates t m
  | reopen {s t : Store} {m : CheckpointMap} {config : BlockStoreConfig} {disk : Disk} (run : CheckpointRun crates s m)
      (h : Runs (Store.openStore crates config) s.disk (.ok t) disk) : CheckpointRun crates t m
  | reopenReadonly {s t : Store} {m : CheckpointMap} {path : String} {disk : Disk} (run : CheckpointRun crates s m)
      (h : Runs (Store.openReadonly crates path) s.disk (.ok t) disk) : CheckpointRun crates t m

theorem decodeEpochKeyEpochKey (epoch : UInt64) : decodeEpochKey (epochKey epoch) = epoch :=
  decodeHeightKeyHeightKey epoch

theorem epochKeyOrdered : Ordered epochKey where
  below a b := by
    have value : ∀ e : UInt64, beNat (epochKey e) = e.toNat := fun e => by
      rw [epochKey,beNatBeBytes]
      exact Nat.mod_eq_of_lt e.toNat_lt
    rw [compareBeNat (by simp [epochKey]),value,value,Nat.compare_eq_lt,UInt64.lt_iff_toNat_lt]
  injective a b same := by
    rw [← decodeEpochKeyEpochKey a,same,decodeEpochKeyEpochKey]

namespace Store
variable {crates : Crates} {s t : Store} {m : CheckpointMap}

/- The checkpoint rows hold what the map says. -/
structure Checkpointed (crates : Crates) (db : Db) (m : CheckpointMap) : Prop where
  keyed : ∀ key ∈ db .checkpoints, ∃ e, key = epochKey e
  held : ∀ (e : UInt64) (raw : Bytes), (db .checkpoints)[epochKey e]? = some raw →
    ∃ c, m e = some c ∧ c.epoch = e ∧ crates.decodeCheckpoint raw = .ok c
  absent : ∀ e : UInt64, (db .checkpoints)[epochKey e]? = none → m e = none

theorem checkpointedEmpty : Checkpointed crates (fun _ => ∅) fun _ => none :=
  ⟨fun key mem => by simp at mem,fun e raw row => by simp at row,fun _ _ => rfl⟩

theorem Checkpointed.put {db : Db} {checkpoint : StoredCheckpoint} {raw : Bytes} (rows : Checkpointed crates db m)
    (read : crates.decodeCheckpoint raw = .ok checkpoint) :
    Checkpointed crates (applyAll [.put .checkpoints (epochKey checkpoint.epoch) raw] db) (m.put checkpoint) := by
  have here : ∀ e : UInt64, (applyAll [.put .checkpoints (epochKey checkpoint.epoch) raw] db .checkpoints)[epochKey e]? =
      if e = checkpoint.epoch then some raw else (db .checkpoints)[epochKey e]? := by
    intro e
    rw [getApplyAll,lastEffectCons,lastEffectNil,effectPut]
    by_cases same : e = checkpoint.epoch
    · simp [same]
    · have apart : epochKey checkpoint.epoch ≠ epochKey e := fun eq => same (epochKeyOrdered.injective eq).symm
      simp [same,apart]
  refine ⟨fun key mem => ?_,fun e raw' row => ?_,fun e row => ?_⟩
  · simp only [applyAll,List.foldl_cons,List.foldl_nil,ColumnStore.Write.apply,Function.update_self,
      Std.ExtTreeMap.mem_insert] at mem
    rcases mem with same | older
    · exact ⟨checkpoint.epoch,(Std.LawfulEqOrd.eq_of_compare same).symm⟩
    · exact rows.keyed key older
  · rw [here] at row
    by_cases same : e = checkpoint.epoch
    · subst same
      rw [if_pos rfl] at row
      cases row
      exact ⟨checkpoint,Function.update_self ..,rfl,read⟩
    · rw [if_neg same] at row
      rw [CheckpointMap.put,Function.update_of_ne same]
      exact rows.held e raw' row
  · rw [here] at row
    by_cases same : e = checkpoint.epoch
    · rw [if_pos same] at row
      cases row
    · rw [if_neg same] at row
      rw [CheckpointMap.put,Function.update_of_ne same]
      exact rows.absent e row

theorem Checkpointed.epoch {db : Db} (rows : Checkpointed crates db m) {e : UInt64} {c : StoredCheckpoint}
    (known : m e = some c) : c.epoch = e := by
  cases row : (db .checkpoints)[epochKey e]? with
  | none => rw [rows.absent e row] at known; cases known
  | some raw =>
    obtain ⟨c',known',here,_⟩ := rows.held e raw row
    rw [known] at known'
    cases known'
    exact here

theorem Checkpointed.list {db : Db} (rows : Checkpointed crates db m) :
    ∃ entries : List (StoredCheckpoint × Bytes),
      (db .checkpoints).toList = entries.map (fun r => (epochKey r.1.epoch,r.2)) ∧
      (∀ r ∈ entries, crates.decodeCheckpoint r.2 = .ok r.1) ∧
      entries.Pairwise (fun a b => a.1.epoch < b.1.epoch) ∧
      ∀ c, c ∈ entries.map Prod.fst ↔ m c.epoch = some c := by
  obtain ⟨keyed,same,sorted,mem⟩ := epochKeyOrdered.rows (db .checkpoints) rows.keyed
  have decoded : ∀ row ∈ keyed, ∃ c, m row.1 = some c ∧ c.epoch = row.1 ∧ crates.decodeCheckpoint row.2 = .ok c :=
    fun row inside => rows.held row.1 row.2 ((mem row.1 row.2).mp inside)
  obtain ⟨entries,image,all⟩ : ∃ entries : List (StoredCheckpoint × Bytes),
      keyed = entries.map (fun r => (r.1.epoch,r.2)) ∧
      ∀ r ∈ entries, m r.1.epoch = some r.1 ∧ crates.decodeCheckpoint r.2 = .ok r.1 := by
    clear same sorted mem
    induction keyed with
    | nil => exact ⟨[],rfl,by simp⟩
    | cons row rest ih =>
      obtain ⟨entries,later,all⟩ := ih fun r inside => decoded r (List.mem_cons_of_mem _ inside)
      obtain ⟨c,known,epoch,read⟩ := decoded row (by simp)
      refine ⟨(c,row.2) :: entries,by rw [List.map_cons,later,epoch],fun r inside => ?_⟩
      rcases List.mem_cons.mp inside with rfl | older
      · exact ⟨by rw [epoch]; exact known,read⟩
      · exact all r older
  subst image
  refine ⟨entries,by rw [same,List.map_map]; rfl,fun r inside => (all r inside).2,?_,fun c => ?_⟩
  · rwa [List.pairwise_map] at sorted
  · constructor
    · intro inside
      obtain ⟨r,found,rfl⟩ := List.mem_map.mp inside
      exact (all r found).1
    · intro known
      cases row : (db .checkpoints)[epochKey c.epoch]? with
      | none => rw [rows.absent _ row] at known; cases known
      | some raw =>
        obtain ⟨r,found,eq⟩ := List.mem_map.mp ((mem c.epoch raw).mpr row)
        injection eq with epoch _
        have other := (all r found).1
        rw [epoch,known] at other
        exact List.mem_map.mpr ⟨r,found,(Option.some.inj other).symm⟩

theorem Checkpointed.prune {db : Db} {batch : List Write} {epoch : UInt64} (rows : Checkpointed crates db m)
    (column : ∀ key, (applyAll batch db .checkpoints)[key]? =
      if decodeEpochKey key < epoch then none else (db .checkpoints)[key]?) :
    Checkpointed crates (applyAll batch db) (m.prunedBefore epoch) := by
  refine ⟨fun key mem => ?_,fun e raw row => ?_,fun e row => ?_⟩
  · rw [Std.ExtTreeMap.mem_iff_isSome_getElem?,column] at mem
    split at mem
    · cases mem
    · exact rows.keyed key (Std.ExtTreeMap.mem_iff_isSome_getElem?.mpr mem)
  · rw [column,decodeEpochKeyEpochKey] at row
    split at row
    · cases row
    · rename_i kept
      rw [CheckpointMap.prunedBefore,if_neg kept]
      exact rows.held e raw row
  · rw [column,decodeEpochKeyEpochKey] at row
    unfold CheckpointMap.prunedBefore
    split at row
    · rename_i gone
      rw [if_pos gone]
    · rename_i kept
      rw [if_neg kept]
      exact rows.absent e row

section Listed
variable {entries : List (StoredCheckpoint × Bytes)}

def rowOf (entry : StoredCheckpoint × Bytes) : Bytes × Bytes := (epochKey entry.1.epoch,entry.2)

theorem keysBelow (sorted : entries.Pairwise fun a b => a.1.epoch < b.1.epoch) (epoch : UInt64) :
    checkpointKeysBelow epoch (entries.map rowOf) =
      (entries.filter fun r => r.1.epoch < epoch).map fun r => epochKey r.1.epoch := by
  induction entries with
  | nil => rfl
  | cons r rest ih =>
    obtain ⟨first,later⟩ := List.pairwise_cons.mp sorted
    have width : ¬(epochKey r.1.epoch).length ≠ 8 := by simp [epochKey]
    rw [List.map_cons,rowOf,checkpointKeysBelow,if_neg width,decodeEpochKeyEpochKey]
    by_cases above : r.1.epoch ≥ epoch
    · have none' : ∀ a ∈ r :: rest, ¬a.1.epoch < epoch := fun a mem => by
        rcases List.mem_cons.mp mem with rfl | older
        · exact UInt64.not_lt.mpr above
        · exact UInt64.not_lt.mpr (UInt64.le_trans above (UInt64.le_of_lt (first a older)))
      rw [if_pos above,List.filter_eq_nil_iff.mpr fun a mem => by simpa using none' a mem]
      rfl
    · rw [if_neg above,ih later,List.filter_cons_of_pos (by simpa using above)]
      rfl

theorem rowsThrough (sorted : entries.Pairwise fun a b => a.1.epoch < b.1.epoch) (endEpoch : UInt64) :
    checkpointRows endEpoch (entries.map rowOf) =
      (entries.filter fun r => r.1.epoch ≤ endEpoch).map Prod.snd := by
  induction entries with
  | nil => rfl
  | cons r rest ih =>
    obtain ⟨first,later⟩ := List.pairwise_cons.mp sorted
    have width : ¬(epochKey r.1.epoch).length ≠ 8 := by simp [epochKey]
    rw [List.map_cons,rowOf,checkpointRows,if_neg width,decodeEpochKeyEpochKey]
    by_cases above : r.1.epoch > endEpoch
    · have none' : ∀ a ∈ r :: rest, ¬a.1.epoch ≤ endEpoch := fun a mem => by
        rcases List.mem_cons.mp mem with rfl | older
        · exact UInt64.not_le.mpr above
        · exact UInt64.not_le.mpr (UInt64.lt_trans above (first a older))
      rw [if_pos above,List.filter_eq_nil_iff.mpr fun a mem => by simpa using none' a mem]
      rfl
    · rw [if_neg above,ih later,List.filter_cons_of_pos (by simpa using above)]
      rfl

theorem rowsFrom (startEpoch : UInt64) :
    (entries.map rowOf).filter (fun (key,_) => compare (epochKey startEpoch) key ≠ .gt) =
      (entries.filter fun r => startEpoch ≤ r.1.epoch).map rowOf := by
  rw [List.filter_map]
  congr 1
  refine List.filter_congr fun r _ => ?_
  have order : compare (epochKey startEpoch) (epochKey r.1.epoch) = .gt ↔ r.1.epoch < startEpoch :=
    Std.OrientedCmp.gt_iff_lt.trans (epochKeyOrdered.below r.1.epoch startEpoch)
  change decide (compare (epochKey startEpoch) (epochKey r.1.epoch) ≠ .gt) = decide (startEpoch ≤ r.1.epoch)
  rw [decide_eq_decide,Ne,order,UInt64.not_lt]

theorem decodeAll (read : ∀ r ∈ entries, crates.decodeCheckpoint r.2 = .ok r.1) (w : World Store) :
    Op.collect (decodeCheckpoint crates) (entries.map Prod.snd) w = (.ok (entries.map Prod.fst),w) := by
  induction entries with
  | nil => rfl
  | cons r rest ih =>
    have first : decodeCheckpoint crates r.2 w = (.ok r.1,w) := by
      rw [decodeCheckpoint,read r (by simp)]
      rfl
    have later := ih fun a mem => read a (List.mem_cons_of_mem _ mem)
    rw [List.map_cons,Op.collect]
    simp only [bind,Op.bind,first,later]
    rfl

end Listed

theorem putCheckpointRuns {checkpoint : StoredCheckpoint} {r : Exit Unit}
    (h : Runs (putCheckpoint crates checkpoint) s r t) :
    (∃ e, r = .error e) ∧ t = s ∨ ∃ raw, crates.encodeCheckpoint checkpoint = .ok raw ∧ r = .ok () ∧
      t = s.commit [.put .checkpoints (epochKey checkpoint.epoch) raw] := by
  rcases runsBind h with ⟨_,u,opening,packing⟩ | ⟨e,rfl,opening⟩
  · obtain ⟨_,rfl⟩ := refuseReadOnlyOk opening
    rcases runsBind packing with ⟨raw,v,one,writing⟩ | ⟨e,rfl,one⟩
    · obtain ⟨encoded,rfl⟩ := runsOfExceptOk one
      rcases writeRuns writing with ⟨rfl,rfl⟩ | ⟨bad,rfl⟩
      · cases packed : crates.encodeCheckpoint checkpoint with
        | error why => rw [packed] at encoded; cases encoded
        | ok raw' =>
          rw [packed] at encoded
          cases encoded
          exact .inr ⟨raw,rfl,rfl,rfl⟩
      · exact .inl ⟨bad,rfl⟩
    · exact .inl ⟨⟨e,rfl⟩,(runsOfExcept one).1⟩
  · exact .inl ⟨⟨e,rfl⟩,(refuseReadOnlyRuns opening).1⟩

theorem pruneCheckpointsRuns {epoch : UInt64} {r : Exit Nat} (h : Runs (pruneCheckpointsBeforeEpoch epoch) s r t) :
    (∃ e, r = .error e) ∧ t = s ∨ ∃ keys, (epoch = 0 ∧ keys = [] ∨ keys = checkpointKeysBelow epoch (s.db .checkpoints).toList) ∧
      r = .ok keys.length ∧ t = s.commit (keys.map (.delete .checkpoints)) := by
  rcases runsBind h with ⟨_,u,opening,checking⟩ | ⟨e,rfl,opening⟩
  · obtain ⟨_,rfl⟩ := refuseReadOnlyOk opening
    split at checking
    · rename_i zero
      obtain ⟨rfl,rfl⟩ := runsPure.mp checking
      exact .inr ⟨[],.inl ⟨zero,rfl⟩,rfl,rfl⟩
    · rw [runsGetBind] at checking
      dsimp only at checking
      split at checking
      · rcases runsBind checking with ⟨_,v,writing,last⟩ | ⟨e,rfl,writing⟩
        · obtain ⟨rfl,rfl⟩ := runsPure.mp last
          exact .inr ⟨_,.inr rfl,rfl,writeOk writing⟩
        · rcases writeRuns writing with ⟨bad,_⟩ | ⟨_,rfl⟩
          · cases bad
          · exact .inl ⟨⟨e,rfl⟩,rfl⟩
      · rename_i none'
        obtain ⟨rfl,rfl⟩ := runsPure.mp checking
        have empty : checkpointKeysBelow epoch (t.db .checkpoints).toList = [] :=
          List.length_eq_zero_iff.mp (by omega)
        exact .inr ⟨_,.inr rfl,rfl,by rw [empty]; rfl⟩
  · exact .inl ⟨⟨e,rfl⟩,(refuseReadOnlyRuns opening).1⟩

theorem Checkpointed.dropped (rows : Checkpointed crates s.db m) {epoch : UInt64} {keys : List Bytes}
    (found : epoch = 0 ∧ keys = [] ∨ keys = checkpointKeysBelow epoch (s.db .checkpoints).toList) :
    (∀ key, (applyAll (keys.map (ColumnStore.Write.delete .checkpoints)) s.db .checkpoints)[key]? =
      if decodeEpochKey key < epoch then none else (s.db .checkpoints)[key]?) ∧
    keys.length = {e | e < epoch ∧ m e ≠ none}.ncard := by
  obtain ⟨entries,same,read,sorted,mem⟩ := rows.list
  have all : keys = (entries.filter fun r => r.1.epoch < epoch).map fun r => epochKey r.1.epoch := by
    rcases found with ⟨rfl,rfl⟩ | rfl
    · rw [List.filter_eq_nil_iff.mpr fun r _ => by simp]
      rfl
    · rw [same]
      exact keysBelow sorted epoch
  have inside : ∀ e : UInt64, epochKey e ∈ keys ↔ e < epoch ∧ m e ≠ none := by
    intro e
    rw [all,List.mem_map]
    constructor
    · rintro ⟨r,kept,eq⟩
      obtain ⟨held,below⟩ := List.mem_filter.mp kept
      have known := (mem r.1).mp (List.mem_map.mpr ⟨r,held,rfl⟩)
      rw [← epochKeyOrdered.injective eq,known]
      exact ⟨by simpa using below,by simp⟩
    · rintro ⟨below,present⟩
      obtain ⟨c,known⟩ := Option.ne_none_iff_exists'.mp present
      have same' := rows.epoch known
      subst same'
      obtain ⟨r,held,rfl⟩ := List.mem_map.mp ((mem c).mpr known)
      exact ⟨r,List.mem_filter.mpr ⟨held,by simpa using below⟩,rfl⟩
  refine ⟨fun key => ?_,?_⟩
  · rw [getDeletes]
    cases row : (s.db .checkpoints)[key]? with
    | none => simp
    | some raw =>
      obtain ⟨e,rfl⟩ := rows.keyed key (Std.ExtTreeMap.mem_iff_isSome_getElem?.mpr (by rw [row]; rfl))
      obtain ⟨c,known,_⟩ := rows.held e raw row
      simp [inside,known,decodeEpochKeyEpochKey]
  · have image : {e | e < epoch ∧ m e ≠ none} = ↑((keys.map decodeEpochKey).toFinset) := by
      ext e
      rw [Finset.mem_coe,List.mem_toFinset,List.mem_map,Set.mem_ofPred_eq,← inside]
      constructor
      · exact fun mem => ⟨_,mem,decodeEpochKeyEpochKey e⟩
      · rintro ⟨key,mem,rfl⟩
        rw [all] at mem
        obtain ⟨r,_,rfl⟩ := List.mem_map.mp mem
        rwa [decodeEpochKeyEpochKey,all]
    have distinct : (keys.map decodeEpochKey).Nodup := by
      rw [all,List.map_map]
      have ordered := (sorted.filter fun r => r.1.epoch < epoch)
      rw [List.Nodup,List.pairwise_map]
      refine ordered.imp fun lt same => ?_
      simp only [Function.comp,decodeEpochKeyEpochKey] at same
      rw [same] at lt
      exact UInt64.lt_irrefl _ lt
    rw [image,Set.ncard_coe_finset,List.toFinset_card_of_nodup distinct,List.length_map]

theorem checkpointed (roundTrip : ∀ c raw, crates.encodeCheckpoint c = .ok raw → crates.decodeCheckpoint raw = .ok c)
    (run : CheckpointRun crates s m) : Checkpointed crates s.db m := by
  have reopened : ∀ {s t : Store} {m config readOnly}, Checkpointed crates s.db m →
      Booted config readOnly s.disk.db t → Checkpointed crates t.db m := by
    rintro s t m config readOnly rows ⟨_,_,_,rfl,_⟩
    exact rows
  induction run with
  | opened start =>
    obtain ⟨config,file,disk,opening⟩ := start
    obtain ⟨_,_,⟨_,_,_,rfl,_⟩,touched⟩ := openStoreOk opening
    rw [touched.db]
    exact checkpointedEmpty
  | put run h ih =>
    rcases putCheckpointRuns h with ⟨⟨e,bad⟩,_⟩ | ⟨raw,packed,_,rfl⟩
    · cases bad
    · exact ih.put (roundTrip _ _ packed)
  | putFailed run h ih =>
    rcases putCheckpointRuns h with ⟨_,rfl⟩ | ⟨raw,_,bad,_⟩
    · exact ih
    · cases bad
  | prune run h ih =>
    rcases pruneCheckpointsRuns h with ⟨⟨e,bad⟩,_⟩ | ⟨keys,found,_,rfl⟩
    · cases bad
    · exact ih.prune (ih.dropped found).1
  | pruneFailed run h ih =>
    rcases pruneCheckpointsRuns h with ⟨_,rfl⟩ | ⟨keys,_,bad,_⟩
    · exact ih
    · cases bad
  | reopen run h ih =>
    obtain ⟨_,u,booted,touched⟩ := openStoreOk h
    rw [touched.db]
    exact reopened ih booted
  | reopenReadonly run h ih => exact reopened ih (openReadonlyOk h).2

theorem getCheckpointAnswers (rows : Checkpointed crates s.db m) (epoch : UInt64) (script : List Event) :
    getCheckpoint crates epoch ⟨s,script⟩ = (.ok (m epoch),⟨s,script⟩) := by
  simp only [getCheckpoint,bind,Op.bind,Op.get]
  cases row : (s.db .checkpoints)[epochKey epoch]? with
  | none => rw [rows.absent epoch row]; rfl
  | some raw =>
    obtain ⟨c,known,_,read⟩ := rows.held epoch raw row
    simp only [decodeCheckpoint,read,known]
    rfl

theorem getLatestAnswers (rows : Checkpointed crates s.db m) (script : List Event) :
    ∃ latest, getLatestCheckpoint crates ⟨s,script⟩ = (.ok latest,⟨s,script⟩) ∧ m.Latest latest := by
  obtain ⟨entries,same,read,sorted,mem⟩ := rows.list
  simp only [getLatestCheckpoint,bind,Op.bind,Op.get,same,List.getLast?_map]
  cases last : entries.getLast? with
  | none =>
    refine ⟨none,rfl,fun e => ?_⟩
    rw [List.getLast?_eq_none_iff] at last
    subst last
    by_contra present
    obtain ⟨c,known⟩ := Option.ne_none_iff_exists'.mp present
    have same' := rows.epoch known
    subst same'
    have inside := (mem c).mpr known
    simp at inside
  | some r =>
    have held := List.mem_of_getLast? last
    refine ⟨some r.1,?_,(mem r.1).mp (List.mem_map.mpr ⟨r,held,rfl⟩),fun e known => ?_⟩
    · simp only [Option.map_some,decodeCheckpoint,read r held]
      rfl
    · obtain ⟨before,rfl⟩ := List.getLast?_eq_some_iff.mp last
      obtain ⟨c,known⟩ := Option.ne_none_iff_exists'.mp known
      have same' := rows.epoch known
      subst same'
      obtain ⟨r',inside,rfl⟩ := List.mem_map.mp ((mem c).mpr known)
      rcases List.mem_append.mp inside with earlier | final
      · exact UInt64.le_of_lt ((List.pairwise_append.mp sorted).2.2 r' earlier r (by simp))
      · rw [List.mem_singleton.mp final]
        exact UInt64.le_refl _

theorem getRangeAnswers (rows : Checkpointed crates s.db m) (startEpoch endEpoch : UInt64) (script : List Event) :
    ∃ checkpoints, getCheckpointsInRange crates startEpoch endEpoch ⟨s,script⟩ = (.ok checkpoints,⟨s,script⟩) ∧
      m.Ranged startEpoch endEpoch checkpoints := by
  obtain ⟨entries,same,read,sorted,mem⟩ := rows.list
  unfold getCheckpointsInRange
  by_cases crossed : startEpoch > endEpoch
  · rw [if_pos crossed]
    refine ⟨[],rfl,.nil,fun c => ⟨by simp,fun both => ?_⟩⟩
    exact absurd (UInt64.le_trans both.1 both.2.1) (UInt64.not_le.mpr crossed)
  · rw [if_neg crossed]
    have kept := (sorted.filter fun r => startEpoch ≤ r.1.epoch)
    have chosen := rowsThrough kept endEpoch
    have decoded := @decodeAll crates ((entries.filter fun r => startEpoch ≤ r.1.epoch).filter
      fun r => r.1.epoch ≤ endEpoch) (fun r inside => read r (List.mem_of_mem_filter (List.mem_of_mem_filter inside)))
    refine ⟨((entries.filter fun r => startEpoch ≤ r.1.epoch).filter fun r => r.1.epoch ≤ endEpoch).map Prod.fst,
      ?_,?_,fun c => ?_⟩
    · simp only [bind,Op.bind,Op.get,same]
      change Op.collect _ (checkpointRows endEpoch ((entries.map rowOf).filter _)) _ = _
      rw [rowsFrom,chosen]
      exact decoded ⟨s,script⟩
    · rw [List.pairwise_map]
      exact kept.filter _
    · rw [← mem]
      simp only [List.mem_map,List.mem_filter,decide_eq_true_eq]
      constructor
      · rintro ⟨r,⟨⟨held,low⟩,high⟩,rfl⟩
        exact ⟨low,high,r,held,rfl⟩
      · rintro ⟨low,high,r,held,rfl⟩
        exact ⟨r,⟨⟨held,low⟩,high⟩,rfl⟩

end Store

namespace Sample

theorem checkpointRoundTrip (c : StoredCheckpoint) (raw : Bytes) (h : crates.encodeCheckpoint c = .ok raw) :
    crates.decodeCheckpoint raw = .ok c := by
  cases h
  change Except.ok (StoredCheckpoint.mk (.ofNat (unword 8 (word 8 c.epoch.toNat c.rest)).1)
    (unword 8 (word 8 c.epoch.toNat c.rest)).2) = _
  rw [unwordWord c.epoch.toNat_lt,UInt64.ofNat_toNat]

def putCheckpointRow (c : StoredCheckpoint) (s : Store) : Store :=
  s.commit [.put .checkpoints (epochKey c.epoch) (word 8 c.epoch.toNat c.rest)]

def checkpointStore : Store := putCheckpointRow ⟨3,[2]⟩ (putCheckpointRow ⟨7,[1]⟩ (.created config))

def checkpointMap : CheckpointMap := CheckpointMap.put (CheckpointMap.put (fun _ => none) ⟨7,[1]⟩) ⟨3,[2]⟩

theorem checkpointRun : CheckpointRun crates checkpointStore checkpointMap :=
  .put (.put (.opened (Store.createdOpened crates config)) (Clean.runs rfl)) (Clean.runs rfl)

end Sample

end DigBlockstore
