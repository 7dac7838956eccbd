import DigBlockstore.Answers

/-! Epoch queries walk up from the first height of the epoch and stop at the first height
without a hash. They cover the epoch unless the floor stands inside it. -/
namespace DigBlockstore
open ByteCodec Faulty

theorem heightsAscend (lo hi : UInt64) : (heightsThrough lo hi).Pairwise (· < ·) := by
  have bound := hi.toNat_lt
  unfold heightsThrough
  rw [List.pairwise_map]
  refine List.Pairwise.imp_of_mem ?_ List.pairwise_lt_range
  intro i j inside inside' below
  rw [List.mem_range] at inside inside'
  rw [UInt64.lt_iff_toNat_lt,ofNatToNat (by omega),ofNatToNat (by omega)]
  omega

theorem heightsHead {lo hi : UInt64} (some' : heightsThrough lo hi ≠ []) : (heightsThrough lo hi).head? = some lo := by
  unfold heightsThrough at some' ⊢
  cases n : hi.toNat + 1 - lo.toNat with
  | zero => rw [n] at some'; exact absurd rfl some'
  | succ n => simp [List.range_succ_eq_map]

theorem heightsFrom (lo hi : UInt64) :
    heightsThrough lo hi = (List.range' lo.toNat (hi.toNat + 1 - lo.toNat)).map UInt64.ofNat := by
  rw [List.range'_eq_map_range,List.map_map]
  rfl

theorem heightsAppend {lo mid next hi : UInt64} (ordered : lo ≤ mid) (meets : next.toNat = mid.toNat + 1) (ordered' : next ≤ hi) :
    heightsThrough lo mid ++ heightsThrough next hi = heightsThrough lo hi := by
  rw [UInt64.le_iff_toNat_le] at ordered ordered'
  rw [heightsFrom,heightsFrom,heightsFrom,← List.map_append]
  congr 1
  have start : next.toNat = lo.toNat + 1 * (mid.toNat + 1 - lo.toNat) := by omega
  rw [start,List.range'_append]
  congr 1
  omega

section Walk
variable {f : UInt64 → Option Bytes32}

def upToGap (f : UInt64 → Option Bytes32) : List UInt64 → List Bytes32
  | [] => []
  | h :: rest =>
      match f h with
      | none => []
      | some x => x :: upToGap f rest

def Visited (f : UInt64 → Option Bytes32) (heights : List UInt64) (h : UInt64) : Prop :=
  h ∈ heights ∧ ∀ k ∈ heights, k < h → (f k).isSome

theorem visitedNext {h k : UInt64} {rest : List UInt64} (ascends : (h :: rest).Pairwise (· < ·)) {x : Bytes32}
    (here : f h = some x) (mem : k ∈ rest) : Visited f (h :: rest) k ↔ Visited f rest k := by
  have above := (List.pairwise_cons.mp ascends).1
  unfold Visited
  rw [List.forall_mem_cons]
  constructor
  · exact fun both => ⟨mem,both.2.2⟩
  · exact fun both => ⟨List.mem_cons_of_mem _ mem,fun _ => by rw [here]; rfl,both.2⟩

theorem upToGapAll {heights : List UInt64} {top : UInt64} (ascends : heights.Pairwise (· < ·))
    (stops : ∀ h ∈ heights, ((f h).isSome ↔ h ≤ top)) : upToGap f heights = heights.filterMap f := by
  induction heights with
  | nil => rfl
  | cons h rest ih =>
    obtain ⟨above,later⟩ := List.pairwise_cons.mp ascends
    have stops' : ∀ k ∈ rest, ((f k).isSome ↔ k ≤ top) := fun k mem => stops k (List.mem_cons_of_mem _ mem)
    cases here : f h with
    | some x => rw [upToGap,here,List.filterMap_cons_some here,ih later stops']
    | none =>
      have past : ¬h ≤ top := fun low => by
        have found := (stops h (by simp)).mpr low
        rw [here] at found
        cases found
      have empty : rest.filterMap f = [] := by
        rw [List.filterMap_eq_nil_iff]
        intro k mem
        by_contra found
        have low := (stops' k mem).mp (Option.isSome_iff_ne_none.mpr found)
        exact past (UInt64.le_trans (UInt64.le_of_lt (above k mem)) low)
      rw [upToGap,here,List.filterMap_cons_none here,empty]

theorem upToGapEmpty {heights : List UInt64} (gap : ∀ h ∈ heights.head?, f h = none) : upToGap f heights = [] := by
  cases heights with
  | nil => rfl
  | cons h rest => rw [upToGap,gap h rfl]

end Walk

namespace Store
variable {crates : Crates} {s t : Store}

/- The canonical index holds every height from the floor to the top and none above. -/
def Contiguous (s : Store) (top : UInt64) : Prop :=
  ∀ h, s.minRetainedHeightCached ≤ h → ((canonicalAt s.db h).isSome ↔ h ≤ top)

def epochHeights (crates : Crates) (epoch : UInt64) : List UInt64 :=
  heightsThrough (crates.firstHeightInEpoch epoch) (crates.epochCheckpointHeight epoch)

/- The canonical hashes at the retained heights of an epoch, ascending. -/
def retainedHashes (crates : Crates) (s : Store) (epoch : UInt64) : List Bytes32 :=
  (epochHeights crates epoch).filterMap s.canonicalAnswer

/- The floor is not inside the retained part of the epoch, and the walk can ask what it comes to. -/
def Covered (crates : Crates) (s : Store) (top epoch : UInt64) : Prop :=
  (s.minRetainedHeightCached ≤ crates.firstHeightInEpoch epoch ∨
    ∀ h ∈ epochHeights crates epoch, ¬(s.minRetainedHeightCached ≤ h ∧ h ≤ top)) ∧
  ∀ h, Visited s.canonicalAnswer (epochHeights crates epoch) h → s.Representable h

theorem epochHashesRuns (crates : Crates) (agreed : Agreed s) {heights : List UInt64} (ascends : heights.Pairwise (· < ·))
    (script : List Event) : ∃ t, Touched crates s t ∧
      ((∀ h, Visited s.canonicalAnswer heights h → s.Representable h) ∧
        epochHashes heights ⟨s,script⟩ = (.ok (upToGap s.canonicalAnswer heights),⟨t,script⟩) ∨
      (∃ h, Visited s.canonicalAnswer heights h ∧ ¬s.Representable h) ∧ ∃ message,
        (epochHashes heights ⟨s,script⟩).1 = .error (.panic message)) := by
  induction heights generalizing s with
  | nil => exact ⟨s,.refl s,.inl ⟨fun h seen => absurd seen.1 List.not_mem_nil,rfl⟩⟩
  | cons height rest ih =>
    obtain ⟨above,later⟩ := List.pairwise_cons.mp ascends
    have first : Visited s.canonicalAnswer (height :: rest) height := by
      refine ⟨by simp,fun k mem below => ?_⟩
      rcases List.mem_cons.mp mem with rfl | older
      · exact absurd below (UInt64.lt_irrefl _)
      · exact absurd (UInt64.lt_trans below (above k older)) (UInt64.lt_irrefl _)
    by_cases fits : s.Representable height
    · obtain ⟨u,touched,_,ran⟩ := lookupRow crates agreed fits script
      have answers : u.canonicalAnswer = s.canonicalAnswer := funext touched.quiet.canonicalAnswer
      cases here : s.canonicalAnswer height with
      | none =>
        rw [here] at ran
        refine ⟨u,touched,.inl ⟨fun h seen => ?_,?_⟩⟩
        · rcases List.mem_cons.mp seen.1 with rfl | older
          · exact fits
          · have found := seen.2 height (by simp) (above h older)
            rw [here] at found
            cases found
        · rw [epochHashes,bindOk _ ran,upToGap,here]
          rfl
      | some x =>
        rw [here] at ran
        obtain ⟨t,touched',outcome⟩ := ih (touched.quiet.agreed agreed) later
        refine ⟨t,touched.trans touched',?_⟩
        rw [answers] at outcome
        rcases outcome with ⟨all,more⟩ | ⟨⟨h,seen,past⟩,message,more⟩
        · refine .inl ⟨fun h seen => ?_,?_⟩
          · rcases List.mem_cons.mp seen.1 with rfl | older
            · exact fits
            · exact touched.quiet.representable.mp (all h ((visitedNext ascends here older).mp seen))
          · rw [epochHashes,bindOk _ ran]
            dsimp only
            rw [bindOk _ more,upToGap,here]
            rfl
        · refine .inr ⟨⟨h,(visitedNext ascends here seen.1).mpr seen,fun fits' => past (touched.quiet.representable.mpr fits')⟩,
            message,?_⟩
          rw [epochHashes,bindOk _ ran]
          exact bindError _ more
    · exact ⟨s,.refl s,.inr ⟨⟨height,first,fits⟩,_,bindError _ (lookupPast agreed fits script)⟩⟩

theorem answerIsSome {top h : UInt64} (contiguous : Contiguous s top) :
    (s.canonicalAnswer h).isSome ↔ s.minRetainedHeightCached ≤ h ∧ h ≤ top := by
  by_cases low : s.minRetainedHeightCached ≤ h
  · rw [canonicalAnswerAbove low,contiguous h low]
    exact (and_iff_right low).symm
  · rw [canonicalAnswerBelow (UInt64.not_le.mp low)]
    constructor
    · intro found
      cases found
    · exact fun both => absurd both.1 low

theorem epochAnswers (agreed : Agreed s) {top : UInt64} (contiguous : Contiguous s top) (epoch : UInt64)
    (script : List Event) :
    (getEpochBlockHashes crates epoch ⟨s,script⟩).1 = .ok (retainedHashes crates s epoch) ↔ Covered crates s top epoch := by
  have ascends : (epochHeights crates epoch).Pairwise (· < ·) := heightsAscend ..
  obtain ⟨t,_,outcome⟩ := epochHashesRuns crates agreed ascends script
  change (epochHashes (epochHeights crates epoch) ⟨s,script⟩).1 = _ ↔ _
  rcases outcome with ⟨fits,ran⟩ | ⟨⟨h,seen,past⟩,message,ran⟩
  · rw [ran]
    constructor
    · intro same
      refine ⟨?_,fits⟩
      by_contra inside
      simp only [not_or,not_forall,not_not] at inside
      obtain ⟨below,h,mem,kept⟩ := inside
      have gap : upToGap s.canonicalAnswer (epochHeights crates epoch) = [] := by
        refine upToGapEmpty fun k head => ?_
        rw [epochHeights,heightsHead (List.ne_nil_of_mem mem)] at head
        cases head
        exact canonicalAnswerBelow (UInt64.not_le.mp below)
      rw [gap] at same
      have none' := List.filterMap_eq_nil_iff.mp (Except.ok.inj same).symm h mem
      have found := (answerIsSome contiguous).mpr kept
      rw [none'] at found
      cases found
    · rintro ⟨clear,_⟩
      refine congrArg Except.ok ?_
      rcases clear with low | none'
      · refine @upToGapAll _ _ top ascends fun h mem => ?_
        rw [answerIsSome contiguous]
        exact ⟨And.right,fun high => ⟨UInt64.le_trans low (memHeightsThrough.mp mem).1,high⟩⟩
      · have empty : ∀ h ∈ epochHeights crates epoch, s.canonicalAnswer h = none := fun h mem => by
          by_contra found
          exact none' h mem ((answerIsSome contiguous).mp (Option.isSome_iff_ne_none.mpr found))
        rw [retainedHashes,List.filterMap_eq_nil_iff.mpr empty]
        exact upToGapEmpty fun h head => empty h (List.mem_of_mem_head? head)
  · rw [ran]
    constructor
    · intro same
      cases same
    · exact fun covered => absurd (covered.2 h seen) past

/- Epochs follow one another without gap or overlap. -/
def Consecutive (crates : Crates) (n : Nat) : Prop :=
  (∀ e ≤ n, crates.firstHeightInEpoch (.ofNat e) ≤ crates.epochCheckpointHeight (.ofNat e)) ∧
    ∀ e < n, (crates.firstHeightInEpoch (.ofNat (e + 1))).toNat = (crates.epochCheckpointHeight (.ofNat e)).toNat + 1

theorem epochsJoin {n : Nat} (consecutive : Consecutive crates n) :
    (List.range (n + 1)).flatMap (fun e => epochHeights crates (.ofNat e)) =
      heightsThrough (crates.firstHeightInEpoch 0) (crates.epochCheckpointHeight (.ofNat n)) ∧
    crates.firstHeightInEpoch 0 ≤ crates.epochCheckpointHeight (.ofNat n) := by
  induction n with
  | zero => exact ⟨by simp [epochHeights],consecutive.1 0 (Nat.le_refl _)⟩
  | succ n ih =>
    obtain ⟨joined,ordered⟩ := ih ⟨fun e small => consecutive.1 e (by omega),fun e small => consecutive.2 e (by omega)⟩
    have meets := consecutive.2 n (by omega)
    have last := consecutive.1 (n + 1) (Nat.le_refl _)
    refine ⟨?_,?_⟩
    · rw [List.range_succ,List.flatMap_append,joined,List.flatMap_singleton,epochHeights]
      exact heightsAppend ordered meets last
    · rw [UInt64.le_iff_toNat_le] at ordered last ⊢
      omega

theorem epochsAnswer (agreed : Agreed s) {top : UInt64} (contiguous : Contiguous s top) (epochs : List UInt64)
    (covered : ∀ e ∈ epochs, Covered crates s top e) (script : List Event) :
    (Op.collect (getEpochBlockHashes crates) epochs ⟨s,script⟩).1 = .ok (epochs.map (retainedHashes crates s)) := by
  induction epochs generalizing s with
  | nil => rfl
  | cons epoch rest ih =>
    have here := (epochAnswers agreed contiguous epoch script).mpr (covered epoch (by simp))
    have ascends : (epochHeights crates epoch).Pairwise (· < ·) := heightsAscend ..
    obtain ⟨t,touched,outcome⟩ := epochHashesRuns crates agreed ascends script
    change (epochHashes (epochHeights crates epoch) ⟨s,script⟩).1 = _ at here
    have ran : getEpochBlockHashes crates epoch ⟨s,script⟩ = (.ok (retainedHashes crates s epoch),⟨t,script⟩) := by
      rcases outcome with ⟨_,ran⟩ | ⟨_,message,ran⟩
      · rw [ran] at here
        exact ran.trans (Prod.ext here rfl)
      · rw [ran] at here
        cases here
    have answers : t.canonicalAnswer = s.canonicalAnswer := funext touched.quiet.canonicalAnswer
    have same : retainedHashes crates t = retainedHashes crates s := funext fun e => by
      rw [retainedHashes,answers,retainedHashes]
    have contiguous' : Contiguous t top := fun h low => by
      rw [touched.quiet.canonicalAt]
      exact contiguous h (by rwa [touched.floor] at low)
    have later := ih (touched.quiet.agreed agreed) contiguous' fun e mem => by
      obtain ⟨clear,fits⟩ := covered e (List.mem_cons_of_mem _ mem)
      refine ⟨by rw [touched.floor]; exact clear,fun h seen => ?_⟩
      rw [answers] at seen
      exact touched.quiet.representable.mpr (fits h seen)
    rw [Op.collect,bindOk _ ran]
    rw [same] at later
    cases more : Op.collect (getEpochBlockHashes crates) rest ⟨t,script⟩ with
    | mk r w =>
      rw [more] at later
      cases later
      rw [bindOk _ more]
      rfl

end Store

/- With the lookup tiers agreeing with a contiguous canonical index, an epoch query returns the
canonical hashes at the retained heights of its epoch exactly when the epoch is covered, and
covered epochs in turn yield every retained hash of their heights once. -/
theorem epochHashesCover {crates : Crates} {s : Store} {top : UInt64} (reached : Reaches crates s) (coherent : s.Coherent)
    (contiguous : s.Contiguous top) :
    (∀ epoch script, (Store.getEpochBlockHashes crates epoch ⟨s,script⟩).1 = .ok (s.retainedHashes crates epoch) ↔
      s.Covered crates top epoch) ∧
    ∀ n script, Store.Consecutive crates n → (∀ e ≤ n, s.Covered crates top (.ofNat e)) →
      ∃ lists, (Op.collect (Store.getEpochBlockHashes crates) ((List.range (n + 1)).map .ofNat) ⟨s,script⟩).1 = .ok lists ∧
        lists.flatten = (heightsThrough (crates.firstHeightInEpoch 0) (crates.epochCheckpointHeight (.ofNat n))).filterMap
          s.canonicalAnswer := by
  have agreed := agreedOf reached coherent
  refine ⟨Store.epochAnswers agreed contiguous,fun n script consecutive covered => ?_⟩
  refine ⟨_,Store.epochsAnswer agreed contiguous _ (fun e mem => ?_) script,?_⟩
  · obtain ⟨i,small,rfl⟩ := List.mem_map.mp mem
    exact covered i (Nat.le_of_lt_succ (List.mem_range.mp small))
  · rw [← (Store.epochsJoin consecutive).1,List.map_map,← List.flatMap_def,List.filterMap_flatMap]
    rfl

namespace Store

def contiguous (s : Store) (top : UInt64) : Bool :=
  (heightsThrough s.minRetainedHeightCached top).all (fun h => (canonicalAt s.db h).isSome) &&
    (s.db .canonical).toList.all fun row => decodeHeightKey row.1 ≤ top

theorem contiguousSound {s : Store} {top : UInt64} (h : s.contiguous top = true) : s.Contiguous top := by
  rw [contiguous,Bool.and_eq_true,List.all_eq_true] at h
  exact fun height low => ⟨fun found => of_decide_eq_true (@canonicalHeights s.db (fun h => decide (h ≤ top)) h.2 height found),
    fun high => h.1 height (memHeightsThrough.mpr ⟨low,high⟩)⟩

end Store

namespace Sample

def epochCalls : List Call := [.initGenesis (block 0 0 1),.extendChain (block 1 1 2),.extendChain (block 2 2 3)]

def epochChain : Store := .after crates Store.tame config epochCalls

def prunedInside : Store := .after crates Store.tame config (epochCalls ++ [.pruneBeforeHeight 2])

end Sample

theorem epochHashesCoverSample : (Store.getEpochBlockHashes Sample.crates 0 ⟨Sample.epochChain,[]⟩).1 =
    .ok (Sample.epochChain.retainedHashes Sample.crates 0) :=
  have run : ReachesUnshadowed Sample.crates Sample.epochChain := Store.afterTame (by decide +kernel)
  have contiguous : Sample.epochChain.Contiguous 2 := Store.contiguousSound (by decide +kernel)
  ((epochHashesCover run.reaches (reachesCoherent run).2 contiguous).1 0 []).mpr
    ⟨.inl (by decide +kernel),fun _ seen _ last => absurd (last ▸ seen.1) (by decide +kernel)⟩

/- A floor inside the epoch hides the retained heights of the epoch. -/
theorem epochCutShort : Reaches Sample.crates Sample.prunedInside ∧ Sample.prunedInside.Coherent ∧
    Sample.prunedInside.Contiguous 2 ∧
    (Store.getEpochBlockHashes Sample.crates 0 ⟨Sample.prunedInside,[]⟩).1 = .ok [] ∧
    Sample.prunedInside.retainedHashes Sample.crates 0 = [Sample.hash 3] :=
  have run : ReachesUnshadowed Sample.crates Sample.prunedInside := Store.afterTame (by decide +kernel)
  ⟨run.reaches,(reachesCoherent run).2,Store.contiguousSound (by decide +kernel),by decide +kernel,by decide +kernel⟩

end DigBlockstore
