import DigBlockstore.Sample

/-! Lookups by height answer the canonical rows: over every run that shadows no cached
height, at every height the mapped file can be asked about. -/
namespace DigBlockstore
open ByteCodec Faulty ColumnStore PartialMap Trace
namespace Store
variable {crates : Crates} {s t : Store}

/- What a lookup should answer: the row at the height, nothing below the floor. -/
def canonicalAnswer (s : Store) (height : UInt64) : Option Bytes32 :=
  if height < s.minRetainedHeightCached then none else canonicalAt s.db height

/- A mapped file cannot be asked about the slot whose end is past the last `usize`. -/
def Answerable (s : Store) (height : UInt64) : Prop :=
  s.canonicalBin.mapping = true → height = lastSlot →
    height < s.minRetainedHeightCached ∨ s.canonicalHeightCache[height]?.isSome

theorem getHashByHeightUnfolds (height : UInt64) (s : Store) (script : List Event) :
    getHashByHeight height ⟨s,script⟩ =
      if height < s.minRetainedHeightCached then (.ok none,⟨s,script⟩)
      else match s.canonicalHeightCache[height]? with
      | some hash => (.ok (some hash),⟨s,script⟩)
      | none => match s.canonicalBin.readHashBytes height with
        | .error e => (.error e,⟨s,script⟩)
        | .ok (some hash) => (.ok (some hash),⟨s.insertCanonicalHeightCache height hash,script⟩)
        | .ok none => match (s.db .canonical)[heightKey height]? with
          | none => (.ok none,⟨s,script⟩)
          | some value => match Bytes32.ofBytes? value with
            | none => (.error (.error (.serialization
                "get_hash_by_height: CF_CANONICAL value must be exactly 32 bytes")),⟨s,script⟩)
            | some hash => (.ok (some hash),⟨s.insertCanonicalHeightCache height hash,script⟩) := by
  simp only [getHashByHeight,bind,Op.bind,Op.get]
  by_cases below : height < s.minRetainedHeightCached
  · simp only [if_pos below]
    rfl
  · simp only [if_neg below]
    cases s.canonicalHeightCache[height]? with
    | some hash => rfl
    | none =>
      cases s.canonicalBin.readHashBytes height with
      | error e => rfl
      | ok found =>
        cases found with
        | some hash => rfl
        | none =>
          simp only [Op.lift,pure]
          cases (s.db .canonical)[heightKey height]? with
          | none => rfl
          | some value =>
            simp only
            cases Bytes32.ofBytes? value with
            | none => rfl
            | some hash => rfl

theorem lookupAnswers (crates : Crates) (indexed : Indexed s) {height : UInt64} (answerable : Answerable s height)
    (script : List Event) : ∃ t, Touched crates s t ∧
      getHashByHeight height ⟨s,script⟩ = (.ok (s.lookup height),⟨t,script⟩) := by
  have ran : ∃ found t, getHashByHeight height ⟨s,script⟩ = (.ok found,⟨t,script⟩) := by
    rw [getHashByHeightUnfolds]
    by_cases below : height < s.minRetainedHeightCached
    · exact ⟨_,_,if_pos below⟩
    · rw [if_neg below]
      cases cached : s.canonicalHeightCache[height]? with
      | some hash => exact ⟨_,_,rfl⟩
      | none =>
        have reads := CanonicalBin.readsAnswer indexed.bin.ready fun mapped same => by
          rcases answerable mapped same with low | held
          · exact below low
          · rw [cached] at held
            cases held
        rw [reads]
        cases s.canonicalBin.answer height with
        | some hash => exact ⟨_,_,rfl⟩
        | none =>
          cases row : (s.db .canonical)[heightKey height]? with
          | none => exact ⟨_,_,rfl⟩
          | some value =>
            obtain ⟨_,x,_,rfl⟩ := indexed.typed _ _ row
            simp only [hashKey,Bytes32.ofBytesBytes]
            exact ⟨_,_,rfl⟩
  obtain ⟨found,t,same⟩ := ran
  obtain ⟨touched,answer⟩ := @getHashByHeightRuns crates _ _ _ _ ⟨script,script,same⟩
  exact ⟨t,touched,by rw [same,answer found rfl]⟩

theorem lookupPanics (indexed : Indexed s) {height : UInt64} (asked : ¬Answerable s height) (script : List Event) :
    (getHashByHeight height ⟨s,script⟩).1 = .error (.panic "canonical.bin slot end overflows usize") := by
  simp only [Answerable,not_forall,not_or] at asked
  obtain ⟨mapped,rfl,above,uncached⟩ := asked
  have none' : s.canonicalHeightCache[lastSlot]? = none := by simpa using uncached
  rw [getHashByHeightUnfolds,if_neg above,none',
    CanonicalBin.readsLastSlot indexed.bin.ready mapped]

theorem coherentAnswer (indexed : Indexed s) (coherent : Coherent s) (height : UInt64) :
    s.lookup height = s.canonicalAnswer height := lookupCoherent indexed coherent height

end Store

/- After a run that shadows no cached height, a lookup answers the canonical row exactly when
the file can be asked. -/
theorem lookupCoherence {crates : Crates} {s : Store} (run : ReachesUnshadowed crates s) (height : UInt64)
    (script : List Event) :
    (Store.getHashByHeight height ⟨s,script⟩).1 = .ok (s.canonicalAnswer height) ↔ s.Answerable height := by
  obtain ⟨indexed,coherent⟩ := reachesCoherent run
  constructor
  · intro answers
    by_contra asked
    rw [Store.lookupPanics indexed asked script] at answers
    cases answers
  · intro answerable
    obtain ⟨t,_,same⟩ := Store.lookupAnswers crates indexed answerable script
    rw [same,Store.coherentAnswer indexed coherent]

namespace Sample

def switchedCalls : List Call :=
  [.putBlock (block 1 0 1) true,.putBlock (block 1 0 2) false,.setCanonicalBatch [hash 2]]

def switched : Store := .after crates (fun _ _ => true) config switchedCalls

def shortChain : Store :=
  .after crates Store.tame config [.initGenesis (block 0 0 1),.extendChain (block 1 1 2),.read (.getHashByHeight 1)]

end Sample

theorem lookupCoherenceSample : ReachesUnshadowed Sample.crates Sample.shortChain ∧
    canonicalAt Sample.shortChain.db 1 = some (Sample.hash 2) ∧
    (Store.getHashByHeight 1 ⟨Sample.shortChain,[]⟩).1 = .ok (Sample.shortChain.canonicalAnswer 1) :=
  have run : ReachesUnshadowed Sample.crates Sample.shortChain := Store.afterTame (by decide +kernel)
  ⟨run,by decide +kernel,(lookupCoherence run 1 []).mpr fun _ last => by cases last⟩

namespace Store

theorem canonicalHeights {db : Db} {p : UInt64 → Bool} (checked : ((db .canonical).toList.all fun row => p (decodeHeightKey row.1)) = true)
    {h : UInt64} (found : (canonicalAt db h).isSome) : p h = true := by
  obtain ⟨x,row⟩ := Option.isSome_iff_exists.mp found
  obtain ⟨value,cell,_⟩ := Option.bind_eq_some_iff.mp row
  have one := List.all_eq_true.mp checked _ (Std.ExtTreeMap.mem_toList_iff_getElem?_eq_some.mpr cell)
  rwa [decodeHeightKeyHeightKey] at one

/- Heights whose slots fit a `usize`, and no zero hash. -/
def Regular (s : Store) : Prop := ∀ h x, canonicalAt s.db h = some x → x ≠ Bytes32.zero ∧ (slotEnd h).isSome

def regular (s : Store) : Bool :=
  (s.db .canonical).toList.all fun row => row.2 != Bytes32.zero.bytes && (slotEnd (decodeHeightKey row.1)).isSome

theorem regularSound {s : Store} (h : s.regular = true) : s.Regular := by
  intro height x found
  obtain ⟨value,row,decoded⟩ := Option.bind_eq_some_iff.mp found
  have mem := Std.ExtTreeMap.mem_toList_iff_getElem?_eq_some.mpr row
  have fits := List.all_eq_true.mp h _ mem
  rw [Bool.and_eq_true,decodeHeightKeyHeightKey] at fits
  refine ⟨?_,fits.2⟩
  rintro rfl
  rw [Bytes32.ofBytesSome decoded] at fits
  simp at fits

end Store

/- A batch switch leaves the first hash in the height cache, where lookups find it. -/
theorem lookupStale : Reaches Sample.crates Sample.switched ∧ Sample.switched.Regular ∧
    (Store.getHashByHeight 1 ⟨Sample.switched,[]⟩).1 = .ok (some (Sample.hash 1)) ∧
    Sample.switched.canonicalAnswer 1 = some (Sample.hash 2) :=
  ⟨Store.afterReaches (by decide +kernel),Store.regularSound (by decide +kernel),by decide +kernel,by decide +kernel⟩

end DigBlockstore
