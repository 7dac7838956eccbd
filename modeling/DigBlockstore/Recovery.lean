import DigBlockstore.Seats
import DigBlockstore.Streams

/-! Startup recovery: what opening makes of `canonical.bin` for any canonical rows and any
file left on disk. -/
namespace DigBlockstore
open ByteCodec Faulty ColumnStore
namespace CanonicalBin
variable {crates : Crates} {db : Db}

/- Slot by slot the canonical rows, zero where there is none, up to the highest one. -/
structure IsDense (db : Db) (file : Bytes) : Prop where
  empty : (∀ h, canonicalAt db h = none) → file = []
  length : ∀ top, (canonicalAt db top).isSome → (∀ h, (canonicalAt db h).isSome → h ≤ top) →
    file.length = (top.toNat + 1) * 32
  slots : ∀ h x, canonicalAt db h = some x → slotBytes file h.toNat = x.bytes
  gaps : ∀ h : UInt64, canonicalAt db h = none → ∀ j < 32, ∀ b, file[h.toNat * 32 + j]? = some b → b = 0

def Live (db : Db) : Prop := ∀ h x, canonicalAt db h = some x → x.bytes.all (· == 0) = false

theorem IsDense.live {file : Bytes} (dense : IsDense db file) (live : Live db) (h : UInt64) :
    liveSlot file h.toNat = canonicalAt db h := by
  cases row : canonicalAt db h with
  | some x =>
    rw [liveSlot,dense.slots h x row,Bytes32.ofBytesBytes,Option.filter_some,live h x row]
    rfl
  | none =>
    by_cases outside : file.length < h.toNat * 32 + 32
    · exact liveSlotOutside outside
    · apply liveSlotZero
      intro j small
      have inside : h.toNat * 32 + j < file.length := by omega
      have byte := List.getElem?_eq_getElem inside
      rw [byte,dense.gaps h row j small _ byte]

section Build

theorem parseColumn (rows : List (UInt64 × Bytes32)) :
    parseCanonical (rows.map fun row => (heightKey row.1,hashKey row.2)) = .ok rows := by
  induction rows with
  | nil => rfl
  | cons row rest ih =>
    rw [List.map_cons,parseCanonical]
    simp only [heightKeyLength,hashKey,Bytes32.ofBytesBytes,decodeHeightKeyHeightKey]
    unfold hashKey at ih
    rw [if_neg (by simp),ih]
    rfl

theorem usizeFits {message : String} {n : Nat} (fits : n < 2 ^ 64) : usize crates message n = .ok n :=
  if_pos fits

theorem fillDenseBuilds {rows : List (UInt64 × Bytes32)} {buf : Bytes} (small : buf.length < 2 ^ 64)
    (inside : ∀ row ∈ rows, row.1.toNat * 32 + 32 ≤ buf.length) (ascends : rows.Pairwise fun a b => a.1 < b.1) :
    ∃ out, fillDense crates buf rows = .ok out ∧ out.length = buf.length ∧
      (∀ row ∈ rows, slotBytes out row.1.toNat = row.2.bytes) ∧
      ∀ i, (∀ row ∈ rows, i ≠ row.1.toNat) → ∀ j < 32, out[i * 32 + j]? = buf[i * 32 + j]? := by
  induction rows generalizing buf with
  | nil => exact ⟨buf,rfl,rfl,by simp,fun _ _ _ _ => rfl⟩
  | cons row rest ih =>
    have width := row.2.length
    have here := inside row (by simp)
    have length : (copyAt buf (row.1.toNat * 32) row.2.bytes).length = buf.length := copyAtLength (by omega)
    obtain ⟨later,distinct⟩ := List.pairwise_cons.mp ascends
    obtain ⟨out,filled,same,slots,frame⟩ := ih (by rwa [length])
      (fun r mem => by rw [length]; exact inside r (List.mem_cons_of_mem _ mem)) distinct
    have offset : min (row.1.toNat * 32) (2 ^ 64 - 1) = row.1.toNat * 32 := by omega
    refine ⟨out,?_,same.trans length,fun r mem => ?_,fun i apart j small => ?_⟩
    · rw [fillDense]
      simp only [offset,usizeFits (show row.1.toNat * 32 + 32 < 2 ^ 64 by omega)]
      rw [if_neg (by omega),if_neg (by omega),filled]
    · rcases List.mem_cons.mp mem with rfl | older
      · apply List.ext_getElem?
        intro j
        rw [slotBytesAt]
        split
        · rename_i small
          rw [frame r.1.toNat (fun q at' => ?_) j small,copyAtAt (by omega),if_pos (by omega)]
          · congr 1
            omega
          · have below := UInt64.lt_iff_toNat_lt.mp (later q at')
            omega
        · rw [List.getElem?_eq_none (by omega)]
      · exact slots r older
    · have other := apart row (by simp)
      rw [frame i (fun r mem => apart r (List.mem_cons_of_mem _ mem)) j small,copyAtAt (by omega),if_neg (by omega)]

theorem maxBounds (a b : UInt64) : a ≤ max a b ∧ b ≤ max a b ∧ (max a b = a ∨ max a b = b) := by
  change a ≤ (if a ≤ b then b else a) ∧ b ≤ (if a ≤ b then b else a) ∧ ((if a ≤ b then b else a) = a ∨ (if a ≤ b then b else a) = b)
  split
  · rename_i below
    exact ⟨below,UInt64.le_refl _,.inr rfl⟩
  · rename_i above
    exact ⟨UInt64.le_refl _,UInt64.le_of_lt (UInt64.not_le.mp above),.inl rfl⟩

theorem highest (rows : List (UInt64 × Bytes32)) (start : UInt64) :
    start ≤ rows.foldl (fun h row => max h row.1) start ∧
    (∀ row ∈ rows, row.1 ≤ rows.foldl (fun h row => max h row.1) start) ∧
    (rows.foldl (fun h row => max h row.1) start = start ∨
      ∃ row ∈ rows, row.1 = rows.foldl (fun h row => max h row.1) start) := by
  induction rows generalizing start with
  | nil => exact ⟨UInt64.le_refl _,by simp,.inl rfl⟩
  | cons row rest ih =>
    rw [List.foldl_cons]
    obtain ⟨low,all,source⟩ := ih (max start row.1)
    obtain ⟨left,right,choice⟩ := maxBounds start row.1
    refine ⟨UInt64.le_trans left low,fun r mem => ?_,?_⟩
    · rcases List.mem_cons.mp mem with rfl | older
      · exact UInt64.le_trans right low
      · exact all r older
    · rcases source with same | ⟨r,mem,top⟩
      · rcases choice with left | right
        · exact .inl (same.trans left)
        · exact .inr ⟨row,by simp,(same.trans right).symm⟩
      · exact .inr ⟨r,List.mem_cons_of_mem _ mem,top⟩

/- Every canonical height has a slot, and all the slots fit a vector. -/
def Allocatable (db : Db) : Prop := ∀ h, (canonicalAt db h).isSome → (h.toNat + 1) * 32 < 2 ^ 63

def Seats (db : Db) : Prop := ∀ h, (canonicalAt db h).isSome → (slotEnd h).isSome

theorem denseSizeFits {h : UInt64} (fits : (slotEnd h).isSome) :
    denseSize crates h = if (h.toNat + 1) * 32 ≥ 2 ^ 63 then .error (.panic "capacity overflow")
      else .ok ((h.toNat + 1) * 32) := by
  obtain ⟨n,found⟩ := Option.isSome_iff_exists.mp fits
  have small := (CanonicalDenseFile.slotEndSome found).2
  rw [denseSize]
  simp only [@usizeFits crates _ (h.toNat + 1) (by omega),@usizeFits crates _ ((h.toNat + 1) * 32) (by omega)]

theorem denseOfTop (crates : Crates) (typed : TypedRows db) :
    (∀ h, canonicalAt db h = none) ∧ denseBytesFromCf crates db = .ok [] ∨
      ∃ top rows, (canonicalAt db top).isSome ∧ (∀ h, (canonicalAt db h).isSome → h.toNat ≤ top.toNat) ∧
        rows.Pairwise (fun a b => a.1 < b.1) ∧ (∀ h x, (h,x) ∈ rows ↔ canonicalAt db h = some x) ∧
        (∀ e, denseSize crates top = .error e → denseBytesFromCf crates db = .error e) ∧
        ∀ size, denseSize crates top = .ok size →
          denseBytesFromCf crates db = fillDense crates (List.replicate size 0) rows := by
  obtain ⟨rows,column,ascends,mem⟩ := Store.canonicalColumn typed
  have some' : ∀ row ∈ rows, (canonicalAt db row.1).isSome := fun row inside => by
    rw [(mem row.1 row.2).mp inside]
    rfl
  have listed : ∀ h, (canonicalAt db h).isSome → ∃ row ∈ rows, row.1 = h := fun h found => by
    obtain ⟨x,row⟩ := Option.isSome_iff_exists.mp found
    exact ⟨(h,x),(mem h x).mpr row,rfl⟩
  unfold denseBytesFromCf
  rw [column,parseColumn]
  cases rows with
  | nil =>
    refine .inl ⟨fun h => ?_,rfl⟩
    rw [← Option.not_isSome_iff_eq_none]
    intro found
    obtain ⟨_,bad,_⟩ := listed h found
    cases bad
  | cons first rest =>
    dsimp only
    generalize top' : (first :: rest).foldl (fun h row => max h row.1) 0 = top
    obtain ⟨_,above,source⟩ := highest (first :: rest) 0
    rw [top'] at above source
    refine .inr ⟨top,first :: rest,?_,fun h found => ?_,ascends,mem,fun e failed => ?_,fun size sized => ?_⟩
    · rcases source with zero | ⟨row,inside,same⟩
      · have low := above first (by simp)
        rw [zero,UInt64.le_iff_toNat_le] at low
        have same : first.1 = top := by
          rw [zero,← UInt64.toNat_inj]
          exact Nat.le_zero.mp low
        rw [← same]
        exact some' first (by simp)
      · rw [← same]
        exact some' row inside
    · obtain ⟨row,inside,same⟩ := listed h found
      rw [← same]
      exact UInt64.le_iff_toNat_le.mp (above row inside)
    · rw [failed]
    · rw [sized]

theorem denseBuilt (typed : TypedRows db) (seats : Seats db) :
    Allocatable db ∧ (∃ file, denseBytesFromCf crates db = .ok file ∧ IsDense db file) ∨
      ¬Allocatable db ∧ denseBytesFromCf crates db = .error (.panic "capacity overflow") := by
  rcases denseOfTop crates typed with ⟨none',empty⟩ | ⟨top,rows,topRow,highest,ascends,mem,fails,fills⟩
  · left
    refine ⟨fun h found => ?_,[],empty,⟨fun _ => rfl,fun h found => ?_,fun h x found => ?_,fun h _ j _ b found => by simp at found⟩⟩
    all_goals rw [none' h] at found; cases found
  · have some' : ∀ row ∈ rows, (canonicalAt db row.1).isSome := fun row inside => by
      rw [(mem row.1 row.2).mp inside]
      rfl
    have sized := @denseSizeFits crates top (seats top topRow)
    by_cases large : (top.toNat + 1) * 32 ≥ 2 ^ 63
    · rw [if_pos large] at sized
      exact .inr ⟨fun small => by have := small top topRow; omega,fails _ sized⟩
    · rw [if_neg large] at sized
      left
      obtain ⟨out,filled,length,slots,frame⟩ := @fillDenseBuilds crates rows (List.replicate ((top.toNat + 1) * 32) 0)
        (by rw [List.length_replicate]; omega)
        (fun row inside => by
          have low := highest row.1 (some' row inside)
          rw [List.length_replicate]
          omega) ascends
      rw [List.length_replicate] at length
      refine ⟨fun h found => by have := highest h found; omega,out,(fills _ sized).trans filled,⟨fun none' => ?_,fun other found all => ?_,
        fun h x row => slots (h,x) ((mem h x).mpr row),fun h none' j small b byte => ?_⟩⟩
      · rw [none' top] at topRow
        cases topRow
      · have low := highest other found
        have high := UInt64.le_iff_toNat_le.mp (all top topRow)
        rw [length,Nat.le_antisymm low high]
      · rw [frame h.toNat (fun row inside same => ?_) j small,List.getElem?_replicate] at byte
        · split at byte
          · exact (Option.some.inj byte).symm
          · cases byte
        · have found := some' row inside
          rw [← UInt64.toNat_inj.mp same,none'] at found
          cases found

def checked (crates : Crates) : Crates := {crates with overflowChecks := true}

theorem checkedPanics (crates : Crates) {h : UInt64} (large : 2 ^ 63 ≤ (h.toNat + 1) * 32) :
    ∃ message, denseSize (checked crates) h = .error (.panic message) := by
  unfold denseSize usize
  by_cases slots : h.toNat + 1 < 2 ^ 64
  · rw [if_pos slots]
    dsimp only
    by_cases fits : (h.toNat + 1) * 32 < 2 ^ 64
    · rw [if_pos fits]
      exact ⟨_,if_pos large⟩
    · rw [if_neg fits]
      exact ⟨_,rfl⟩
  · rw [if_neg slots]
    exact ⟨_,rfl⟩

theorem Allocatable.seats (small : Allocatable db) : Seats db := fun h found => by
  have fits := small h found
  rw [slotEnd,if_pos (by omega)]
  rfl

/- Rebuilding the file neither overflows nor panics. -/
def Rebuilds (crates : Crates) (db : Db) : Prop :=
  ∀ message, denseBytesFromCf (checked crates) db ≠ .error (.panic message)

theorem rebuildsIff (crates : Crates) (typed : TypedRows db) : Rebuilds crates db ↔ Allocatable db := by
  constructor
  · intro safe
    rcases denseOfTop (checked crates) typed with ⟨none',_⟩ | ⟨top,rows,topRow,highest,_,_,fails,_⟩
    · intro h found
      rw [none' h] at found
      cases found
    · intro h found
      by_contra large
      have low := highest h found
      obtain ⟨message,panics⟩ := checkedPanics crates (h := top) (by omega)
      exact safe message (fails _ panics)
  · intro small message panics
    rcases @denseBuilt (checked crates) db typed small.seats with ⟨_,file,built,_⟩ | ⟨large,_⟩
    · rw [built] at panics
      cases panics
    · exact large small

end Build

section Opening
variable {path : String} {file : Option Bytes}

theorem openWritable {out : Bytes} (dense : denseBytesFromCf crates db = .ok out) (path : String) (file : Option Bytes) :
    Clean (openSynced crates db path true) file (.ok (rw ⟨out,true⟩)) (some out) := by
  have mapped : Clean (mapFile path true) (some out) (.ok (rw ⟨out,true⟩)) (some out) := rfl
  have read : Clean (readFile path) file (.ok file) file := by
    cases file <;> rfl
  unfold openSynced
  rw [dense]
  refine cleanBind (cleanPure out _) (cleanBind read ?_)
  split
  · exact cleanBind (show Clean (rebuildFile path out) file (.ok ()) (some out) from rfl) mapped
  · rename_i same
    have here : file.getD [] = out := Decidable.not_not.mp same
    split
    · rename_i fresh
      rw [fresh.1] at mapped ⊢
      exact cleanBind (show Clean (touchEmpty path) file (.ok ()) (some []) from rfl) mapped
    · rw [← here]
      rfl

theorem openReadOnly {out : Bytes} (dense : denseBytesFromCf crates db = .ok out) (path : String) (file : Option Bytes) :
    Clean (openSynced crates db path false) file (.ok (disabled file)) file ∨
      file = some out ∧ Clean (openSynced crates db path false) file (.ok (ro out)) file := by
  have read : Clean (readFile path) file (.ok file) file := by
    cases file <;> rfl
  unfold openSynced
  rw [dense]
  by_cases same : file.getD [] = out
  · cases file with
    | none =>
      left
      refine cleanBind (cleanPure out _) (cleanBind read ?_)
      rw [if_neg (not_not_intro same),if_pos ⟨same.symm,rfl⟩]
      rfl
    | some bytes =>
      right
      have here : bytes = out := same
      subst here
      refine ⟨rfl,cleanBind (cleanPure bytes _) (cleanBind read ?_)⟩
      rw [if_neg (not_not_intro same),if_neg (by simp)]
      rfl
  · left
    refine cleanBind (cleanPure out _) (cleanBind read ?_)
    rw [if_pos same]
    rfl

theorem openKeeps (crates : Crates) (db : Db) (path : String) : Within Eq (openSynced crates db path false) := by
  have mapping : Within Eq (mapFile path false) :=
    withinBind (withinStep _) fun _ => withinBind (withinStep _) fun _ => withinBind withinGet fun _ => withinPure _
  have reading : Within Eq (readFile path) := by
    refine withinBind withinGet fun left => ?_
    split
    · exact withinBind (withinStep _) fun _ => withinPure _
    · exact withinPure _
  refine withinBind (withinLift _) fun expected => withinBind reading fun found => ?_
  split
  · exact withinPure _
  · split
    · exact withinPure _
    · exact mapping

/- What is expected of opening, seen at one height. -/
structure Recovers (crates : Crates) (db : Db) (path : String) (file : Option Bytes) (h : UInt64) : Prop where
  rebuilds : ∃ out, Clean (openSynced crates db path true) file (.ok (rw ⟨out,true⟩)) (some out) ∧ IsDense db out ∧
    (rw ⟨out,true⟩).readHashBytes h = .ok (canonicalAt db h)
  reads : ∃ bin, Clean (openSynced crates db path false) file (.ok bin) file ∧
    ((∃ left, bin = disabled left) ∨ bin.readHashBytes h = .ok (canonicalAt db h))
  keeps : ∀ r after, Runs (openSynced crates db path false) file r after → after = file

theorem IsDense.reads {out : Bytes} (dense : denseBytesFromCf crates db = .ok out) (is' : IsDense db out) (live : Live db)
    (seats : Seats db) {h : UInt64} (apart : h ≠ lastSlot) :
    (rw ⟨out,true⟩).readHashBytes h = .ok (canonicalAt db h) ∧ (ro out).readHashBytes h = .ok (canonicalAt db h) := by
  obtain ⟨sound,soundRo⟩ := mappedSound dense 0
  have past : ¬h.toNat * 32 + 32 < 2 ^ 64 → canonicalAt db h = none := fun past => by
    rw [← Option.not_isSome_iff_eq_none]
    intro found
    obtain ⟨n,fits⟩ := Option.isSome_iff_exists.mp (seats h found)
    exact past (CanonicalDenseFile.slotEndSome fits).2
  have answered : (if h.toNat * 32 + 32 < 2 ^ 64 then liveSlot out h.toNat else none) = canonicalAt db h := by
    split
    · exact is'.live live h
    · exact (past (by assumption)).symm
  constructor
  · rw [readsAnswer sound.ready fun _ => apart,answerRw rfl,answered]
  · rw [readsAnswer soundRo.ready fun _ => apart,answerRo,answered]

/- Opening recovers the index when its dense bytes fit a vector, at every height but the last slot. -/
theorem openRecovers (crates : Crates) {db : Db} (typed : TypedRows db) (live : Live db) (seats : Seats db)
    (path : String) (file : Option Bytes) (h : UInt64) :
    Recovers crates db path file h ↔ Allocatable db ∧ h ≠ lastSlot := by
  rcases @denseBuilt crates db typed seats with ⟨small,out,dense,is'⟩ | ⟨large,panics⟩
  · constructor
    · rintro ⟨⟨bytes,opened,_,read⟩,_,_⟩
      refine ⟨small,?_⟩
      rintro rfl
      have ready := (CanonicalBin.openSyncedOk 0 opened.runs).1.ready
      rw [readsLastSlot ready rfl] at read
      cases read
    · rintro ⟨_,apart⟩
      obtain ⟨read,readRo⟩ := is'.reads dense live seats apart
      refine ⟨⟨out,openWritable dense path file,is',read⟩,?_,fun r after run => (openKeeps crates db path _ _ _ run).symm⟩
      rcases openReadOnly dense path file with off | ⟨_,on⟩
      · exact ⟨_,off,.inl ⟨_,rfl⟩⟩
      · exact ⟨_,on,.inr readRo⟩
  · constructor
    · rintro ⟨⟨bytes,opened,_,_⟩,_,_⟩
      obtain ⟨_,_,one,_⟩ := runsBindOk opened.runs
      have bad := (runsLift one).1
      rw [panics] at bad
      cases bad
    · exact fun bad => absurd bad.1 large

end Opening

end CanonicalBin

namespace Sample

def gapped : Db := applyAll [Store.canonicalRow 2 (hash 3)] fun _ => ∅

theorem gappedRows : TypedRows gapped ∧ CanonicalBin.Live gapped ∧ CanonicalBin.Allocatable gapped ∧ CanonicalBin.Seats gapped := by
  have typed : TypedRows gapped := by
    refine typedCommit (fun k v row => ?_) fun write mem => ?_
    · rw [Std.ExtTreeMap.getElem?_empty] at row
      cases row
    · rw [List.mem_singleton.mp mem]
      exact typedCanonicalRow 2 (hash 3)
  have only : ∀ h x, canonicalAt gapped h = some x → h = 2 ∧ x = hash 3 := by
    intro h x found
    rw [gapped,canonicalAtPut,Function.update_apply] at found
    split at found
    · cases found
      exact ⟨by assumption,rfl⟩
    · rw [canonicalAt,Std.ExtTreeMap.getElem?_empty] at found
      cases found
  refine ⟨typed,fun h x found => ?_,fun h found => ?_,fun h found => ?_⟩
  · rw [(only h x found).2]
    decide
  · obtain ⟨x,row⟩ := Option.isSome_iff_exists.mp found
    rw [(only h x row).1]
    decide
  · obtain ⟨x,row⟩ := Option.isSome_iff_exists.mp found
    rw [(only h x row).1]
    decide

end Sample

theorem openRecoversSample : CanonicalBin.Recovers Sample.crates Sample.gapped "store" (some [7,7,7]) 2 :=
  (CanonicalBin.openRecovers Sample.crates Sample.gappedRows.1 Sample.gappedRows.2.1 Sample.gappedRows.2.2.2 "store" _ 2).mpr
    ⟨Sample.gappedRows.2.2.1,by decide⟩

/- The slot that ends at the last `usize` is read past it, whatever the file holds. -/
theorem openLosesLastSlot : TypedRows Sample.gapped ∧ CanonicalBin.Live Sample.gapped ∧ CanonicalBin.Seats Sample.gapped ∧
    ¬CanonicalBin.Recovers Sample.crates Sample.gapped "store" none lastSlot := by
  refine ⟨Sample.gappedRows.1,Sample.gappedRows.2.1,Sample.gappedRows.2.2.2,?_⟩
  rintro ⟨⟨out,_,_,read⟩,_,_⟩
  have panics : (CanonicalBin.rw ⟨out,true⟩).readHashBytes lastSlot =
      .error (.panic "canonical.bin slot end overflows usize") := rfl
  rw [panics] at read
  cases read

end DigBlockstore
