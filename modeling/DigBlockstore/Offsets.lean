import DigBlockstore.Recovery
import DigBlockstore.Resizes
import DigBlockstore.RowRuns

/-! The offsets of `canonical.bin`: which heights its methods and its rebuild can be asked
about, and what a slot says of the canonical row behind it. -/
namespace DigBlockstore
open ByteCodec Faulty ColumnStore

namespace CanonicalDenseFile
variable {d t : CanonicalDenseFile} {h : UInt64}

/- No method overflows or indexes out of bounds, and a write copies inside the mapped bytes. -/
structure Safe (d : CanonicalDenseFile) (h : UInt64) : Prop where
  read : ∀ message, d.readHash h ≠ .error (.panic message)
  slot : ∀ message, d.readSlotNonzeroBytes h ≠ .error (.panic message)
  bytes : ∀ message, (CanonicalBin.rw d).readHashBytes h ≠ .error (.panic message)
  readOnly : ∀ message, (CanonicalBin.ro d.file).readHashBytes h ≠ .error (.panic message)
  write : ∀ x r t, Runs (writeHash h x) d r t → (∀ message, r ≠ .error (.panic message)) ∧
    (r = .ok () → h.toNat * 32 + 32 ≤ t.file.length ∧ t.file.length = max d.file.length (h.toNat * 32 + 32) ∧
      h.toNat * 32 + 32 < 2 ^ 64)
  truncate : ∀ r t, Runs (truncate h) d r t → ∀ message, r ≠ .error (.panic message)

theorem truncateSafe {r : Exit Unit} (run : Runs (truncate h) d r t) (message : String) : r ≠ .error (.panic message) := by
  unfold truncate at run
  split at run
  · rw [(runsError.mp run).1]
    intro bad
    cases bad
  · exact resizeSafe run message

theorem readHashSafe (mapped : d.mapped = true) (apart : h ≠ lastSlot) (message : String) :
    d.readHash h ≠ .error (.panic message) := by
  rw [Ne,lastSlotIff] at apart
  unfold readHash
  split
  · intro bad
    cases bad
  · rw [if_neg (by omega)]
    split <;> intro bad <;> cases bad

theorem readSliceSafe (file : Bytes) (apart : h ≠ lastSlot) (inside : ¬h.toNat * 32 ≥ 2 ^ 64) (message : String) :
    readSliceNonzero file (h.toNat * 32) ≠ .error (.panic message) := by
  rw [Ne,lastSlotIff] at apart
  rw [readLiveSlot (by omega)]
  intro bad
  cases bad

theorem readSlotSafe (mapped : d.mapped = true) (apart : h ≠ lastSlot) (message : String) :
    d.readSlotNonzeroBytes h ≠ .error (.panic message) := by
  unfold readSlotNonzeroBytes
  split
  · intro bad
    cases bad
  · rename_i inside
    exact readSliceSafe d.file apart inside message

theorem readLastSlot (d : CanonicalDenseFile) :
    d.readHash lastSlot = .error (.panic "canonical.bin slot end overflows usize") := by
  obtain ⟨inside,past⟩ := (lastSlotIff lastSlot).mp rfl
  rw [readHash,if_neg (by omega),if_pos past]

theorem safeIff (mapped : d.mapped = true) : d.Safe h ↔ h ≠ lastSlot := by
  constructor
  · rintro safe rfl
    exact safe.read _ (readLastSlot d)
  · intro apart
    refine ⟨readHashSafe mapped apart,readSlotSafe mapped apart,readSlotSafe mapped apart,fun message => ?_,
      fun x r t run => ⟨writeHashSafe mapped run,?_⟩,fun r t run => truncateSafe run⟩
    · unfold CanonicalBin.readHashBytes
      dsimp only
      split
      · intro bad
        cases bad
      · rename_i inside
        exact readSliceSafe d.file apart inside message
    · rintro rfl
      obtain ⟨_,fits,rfl⟩ := writeHashOk run
      obtain ⟨n,found⟩ := Option.isSome_iff_exists.mp fits
      have width := x.length
      have length : (d.written h x).file.length = max d.file.length ((h.toNat + 1) * 32) := by
        change (copyAt _ _ _).length = _
        rw [copyAtLength (by rw [setLenLength]; omega),setLenLength]
      have small := (slotEndSome found).2
      rw [length]
      omega

end CanonicalDenseFile

namespace Store
variable {crates : Crates} {s t : Store} {block : L2Block}

def Commits (crates : Crates) (s : Store) (block : L2Block) (script : List Event) : Prop :=
  (∃ compressed headerBytes, Packs crates s block compressed headerBytes) ∧ eventAt script 0 = .ok

theorem putBlockAborts {script rest : List Event} {canonical : Bool} {r : Exit Bool} (aborts : ¬Commits crates s block script)
    (run : putBlock crates block canonical ⟨s,script⟩ = (r,⟨t,rest⟩)) : t = s := by
  have kept : ∀ {x : Exit Bool} {more : List Event}, (x,⟨s,more⟩) = (r,(⟨t,rest⟩ : World Store)) → t = s := by
    intro x more same
    exact (congrArg World.state (congrArg Prod.snd same)).symm
  unfold putBlock at run
  rw [refuseBind] at run
  split at run
  · exact kept run
  · rename_i writes
    rw [getBind] at run
    dsimp only at run
    split at run
    · exact kept run
    · rename_i absent
      cases body : s.serializeBlock crates block with
      | error e =>
        rw [body] at run
        exact kept run
      | ok compressed =>
        rw [body] at run
        cases header : serializeHeader crates block.header with
        | error e =>
          rw [header] at run
          exact kept run
        | ok headerBytes =>
          rw [header] at run
          have packs : Packs crates s block compressed headerBytes :=
            ⟨by simpa using writes,by simpa using absent,body,header⟩
          cases script with
          | nil => exact absurd ⟨⟨_,_,packs⟩,rfl⟩ aborts
          | cons event more =>
            cases event with
            | ok => exact absurd ⟨⟨_,_,packs⟩,rfl⟩ aborts
            | fail why => exact kept run
            | crash => exact kept run

theorem putColumn {script rest : List Event} {r : Exit Bool} (typed : TypedRows s.db)
    (run : putBlock crates block true ⟨s,script⟩ = (r,⟨t,rest⟩)) :
    TypedRows t.db ∧
      (Commits crates s block script → canonicalAt t.db = Function.update (canonicalAt s.db) block.height (some (block.hash crates))) ∧
      (¬Commits crates s block script → canonicalAt t.db = canonicalAt s.db) := by
  by_cases commits : Commits crates s block script
  · obtain ⟨⟨compressed,headerBytes,packs⟩,lands⟩ := commits
    rw [putBlockCommits packs lands] at run
    have kept : ∀ key, (t.db .canonical)[key]? =
        ((s.commit (putRows crates block true compressed headerBytes)).db .canonical)[key]? := fun key =>
      @putTailWithin crates (fun cf _ => cf = .metadata) (fun _ => rfl) block true _ _ _ ⟨_,_,run⟩ .canonical key (by simp)
    refine ⟨fun k v row => ?_,fun _ => ?_,fun aborts => absurd ⟨⟨_,_,packs⟩,lands⟩ aborts⟩
    · rw [kept] at row
      exact typedCommit typed (typedPutRows block true compressed headerBytes) k v row
    · rw [← putRowsCanonical block compressed headerBytes]
      funext h
      rw [canonicalAt,kept]
      rfl
  · cases putBlockAborts commits run
    exact ⟨typed,fun bad => absurd bad commits,fun _ => rfl⟩

theorem putRebuilds {script rest : List Event} {r : Exit Bool} (typed : TypedRows s.db)
    (run : putBlock crates block true ⟨s,script⟩ = (r,⟨t,rest⟩)) :
    CanonicalBin.Rebuilds crates t.db ↔ CanonicalBin.Allocatable s.db ∧
      (Commits crates s block script → (block.height.toNat + 1) * 32 < 2 ^ 63) := by
  obtain ⟨typed',lands,aborts⟩ := putColumn typed run
  rw [CanonicalBin.rebuildsIff crates typed']
  by_cases commits : Commits crates s block script
  · have rows := lands commits
    constructor
    · intro small
      refine ⟨fun h found => small h ?_,fun _ => small block.height ?_⟩
      · rw [rows,Function.update_apply]
        split
        · rfl
        · exact found
      · rw [rows,Function.update_self]
        rfl
    · rintro ⟨small,own⟩ h found
      rw [rows,Function.update_apply] at found
      split at found
      · rename_i same
        rw [same]
        exact own commits
      · exact small h found
  · rw [CanonicalBin.Allocatable,aborts commits]
    exact ⟨fun small => ⟨small,fun bad => absurd bad commits⟩,fun both => both.1⟩

end Store

namespace CanonicalBin

/- The hash in a mapped slot; no mapping reaches past the last `usize`. -/
def slot (bin : CanonicalBin) (h : UInt64) : Option Bytes32 :=
  match bin with
  | rw d => if h.toNat * 32 + 32 < 2 ^ 64 then liveSlot d.file h.toNat else none
  | ro mmap => if h.toNat * 32 + 32 < 2 ^ 64 then liveSlot mmap h.toNat else none
  | disabled _ => none

theorem slotAnswer {bin : CanonicalBin} (ready : bin.Ready) (h : UInt64) : bin.answer h = bin.slot h := by
  cases bin with
  | rw d => exact answerRw ready.1 h
  | ro mmap => exact answerRo mmap h
  | disabled left => rfl

end CanonicalBin

namespace Store
variable {crates : Crates} {s t : Store} {block : L2Block} {h : UInt64}

/- A live slot above the floor is the canonical row; behind any other slot the lookup finds the row. -/
structure SlotAgrees (s : Store) (h : UInt64) : Prop where
  agrees : s.minRetainedHeightCached ≤ h → ∀ x, s.canonicalBin.slot h = some x → canonicalAt s.db h = some x
  falls : s.minRetainedHeightCached ≤ h → s.canonicalHeightCache[h]? = none → s.canonicalBin.slot h = none →
    ∀ script, (getHashByHeight h ⟨s,script⟩).1 = .ok (canonicalAt s.db h)

theorem answeredIff (crates : Crates) (indexed : s.Indexed) (script : List Event) :
    (∃ found, (getHashByHeight h ⟨s,script⟩).1 = .ok found) ↔ s.Answerable h := by
  constructor
  · rintro ⟨found,answer⟩
    by_contra asked
    rw [lookupPanics indexed asked script] at answer
    cases answer
  · intro answerable
    obtain ⟨t,_,same⟩ := lookupAnswers crates indexed answerable script
    exact ⟨_,by rw [same]⟩

theorem slotAgreesIff (crates : Crates) (indexed : s.Indexed) : s.SlotAgrees h ↔ s.Answerable h := by
  constructor
  · intro holds mapped last
    subst last
    by_contra asked
    obtain ⟨above,uncached⟩ := not_or.mp asked
    have past : s.canonicalBin.slot lastSlot = none := by
      cases bin : s.canonicalBin <;> rfl
    have answer := holds.falls (UInt64.not_lt.mp above) (Option.not_isSome_iff_eq_none.mp uncached) past []
    rw [lookupPanics indexed (fun answerable => asked (answerable mapped rfl)) []] at answer
    cases answer
  · intro answerable
    refine ⟨fun above x found => ?_,fun above uncached empty script => ?_⟩
    · rw [← CanonicalBin.slotAnswer indexed.bin.ready] at found
      exact indexed.bin.agrees h x above found
    · obtain ⟨t,_,same⟩ := lookupAnswers crates indexed answerable script
      rw [same,lookup,if_neg (UInt64.not_lt.mpr above),uncached,Option.none_or,stored,
        CanonicalBin.slotAnswer indexed.bin.ready,empty,Option.none_or]

end Store

/- After any run `canonical.bin` agrees with the canonical rows at every height it can be asked about. -/
theorem slotsAgree {crates : Crates} {s : Store} (reached : Reaches crates s) (h : UInt64) :
    s.SlotAgrees h ↔ s.Answerable h := Store.slotAgreesIff crates (reachesIndexed reached)

theorem slotsAgreeSample : Reaches Sample.crates Sample.shortChain ∧
    Sample.shortChain.canonicalBin.slot 1 = some (Sample.hash 2) ∧ Sample.shortChain.SlotAgrees 1 :=
  have run : ReachesUnshadowed Sample.crates Sample.shortChain := Store.afterTame (by decide +kernel)
  ⟨run.reaches,by decide +kernel,(slotsAgree run.reaches 1).mpr fun _ last => by cases last⟩

theorem slotsDisagree : Reaches Sample.crates Sample.shortChain ∧
    Sample.shortChain.canonicalBin.slot lastSlot = none ∧ Sample.shortChain.canonicalHeightCache[lastSlot]? = none ∧
    ¬Sample.shortChain.SlotAgrees lastSlot := by
  have run : ReachesUnshadowed Sample.crates Sample.shortChain := Store.afterTame (by decide +kernel)
  refine ⟨run.reaches,by decide +kernel,by decide +kernel,fun holds => ?_⟩
  have answer := holds.falls (by decide +kernel) (by decide +kernel) (by decide +kernel) []
  have panics : (Store.getHashByHeight lastSlot ⟨Sample.shortChain,[]⟩).1 =
      .error (.panic "canonical.bin slot end overflows usize") := by decide +kernel
  rw [panics] at answer
  cases answer

/- The offset arithmetic: of the methods at a height, of a lookup after any run, and of the
rebuild after any put on a store so reached. -/
theorem offsetsSafe (crates : Crates) :
    (∀ (d : CanonicalDenseFile) (h : UInt64), d.mapped = true → (d.Safe h ↔ h ≠ lastSlot)) ∧
    ∀ s, Reaches crates s →
      (∀ h script, (∃ found, (Store.getHashByHeight h ⟨s,script⟩).1 = .ok found) ↔ s.Answerable h) ∧
      ∀ block script r t rest, Store.putBlock crates block true ⟨s,script⟩ = (r,⟨t,rest⟩) →
        (CanonicalBin.Rebuilds crates t.db ↔ CanonicalBin.Allocatable s.db ∧
          (Store.Commits crates s block script → (block.height.toNat + 1) * 32 < 2 ^ 63)) :=
  ⟨fun _ _ mapped => CanonicalDenseFile.safeIff mapped,fun _ reached =>
    ⟨fun _ script => Store.answeredIff crates (reachesIndexed reached) script,
      fun _ _ _ _ _ run => Store.putRebuilds (reachesIndexed reached).typed run⟩⟩

theorem Sample.shortAllocatable : CanonicalBin.Allocatable Sample.shortChain.db := fun h found => of_decide_eq_true
  (@Store.canonicalHeights Sample.shortChain.db (fun h => decide ((h.toNat + 1) * 32 < 2 ^ 63)) (by decide +kernel) h found)

theorem offsetsSafeSample : Sample.twoSlots.Safe 1 ∧
    (∃ found, (Store.getHashByHeight 1 ⟨Sample.shortChain,[]⟩).1 = .ok found) ∧
    (Store.putBlock Sample.crates (Sample.block 5 1 3) true ⟨Sample.shortChain,[]⟩).1 = .ok true ∧
    CanonicalBin.Rebuilds Sample.crates
      (Store.putBlock Sample.crates (Sample.block 5 1 3) true ⟨Sample.shortChain,[]⟩).2.state.db := by
  have run : ReachesUnshadowed Sample.crates Sample.shortChain := Store.afterTame (by decide +kernel)
  obtain ⟨safe,reached⟩ := offsetsSafe Sample.crates
  obtain ⟨answers,rebuilds⟩ := reached _ run.reaches
  exact ⟨(safe _ 1 rfl).mpr (by decide),(answers 1 []).mpr (fun _ last => by cases last),by decide +kernel,
    (rebuilds (Sample.block 5 1 3) [] _ _ (Store.putBlock Sample.crates (Sample.block 5 1 3) true
      ⟨Sample.shortChain,[]⟩).2.script rfl).mpr ⟨Sample.shortAllocatable,fun _ => by decide⟩⟩

/- The offset of the last slot, and the size of the file asked for by a put that was refused. -/
theorem offsetsOverflow :
    (⟨[],true⟩ : CanonicalDenseFile).readHash lastSlot = .error (.panic "canonical.bin slot end overflows usize") ∧
    (Store.getHashByHeight lastSlot ⟨Sample.shortChain,[]⟩).1 = .error (.panic "canonical.bin slot end overflows usize") ∧
    (Store.putBlock Sample.crates Sample.remote true ⟨Store.created Sample.config,[]⟩).1 =
      .error (.error (.serialization "canonical.bin write: height overflow")) ∧
    CanonicalBin.denseBytesFromCf Sample.crates
      (Store.putBlock Sample.crates Sample.remote true ⟨Store.created Sample.config,[]⟩).2.state.db =
        .error (.panic "attempt to multiply with overflow") :=
  ⟨by decide,by decide +kernel,by decide +kernel,by decide +kernel⟩

end DigBlockstore
