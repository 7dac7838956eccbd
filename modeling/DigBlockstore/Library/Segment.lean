import DigBlockstore.Library.PartialMap

/-! A segment of a linked chain held in a partial map: every height between two bounds and
no other has an item, each item belongs at its height, and each one but the lowest has the
item below for its parent. Heights are anything ranked by natural numbers. -/
namespace DigBlockstore.ChainSegment
open PartialMap

variable {H X : Type} {rank : H → Nat} {height : X → H} {parent : X → X}

structure Segment (rank : H → Nat) (height : X → H) (parent : X → X) (index : H → Option X) (low high : H) : Prop where
  order : rank low ≤ rank high
  span : ∀ h, (index h).isSome ↔ rank low ≤ rank h ∧ rank h ≤ rank high
  placed : ∀ h x, index h = some x → height x = h
  linked : ∀ h k x, index k = some x → rank k = rank h + 1 → rank low ≤ rank h → index h = some (parent x)

/- The ascending parent walk: each item's parent is the one before it, one height below. -/
inductive Walk (rank : H → Nat) (height : X → H) (parent : X → X) : X → H → List X → X → H → Prop where
  | nil (a : X) (h : H) : Walk rank height parent a h [] a h
  | cons {a c b : X} {h k : H} {rest : List X} (up : parent c = a) (next : rank (height c) = rank h + 1)
      (later : Walk rank height parent c (height c) rest b k) : Walk rank height parent a h (c :: rest) b k

namespace Segment
variable {index : H → Option X} {low high k : H}

theorem inside (segment : Segment rank height parent index low high) {h : H} {x : X} (found : index h = some x) :
    rank low ≤ rank h ∧ rank h ≤ rank high := (segment.span h).mp (by rw [found]; rfl)

theorem outside (segment : Segment rank height parent index low high) {h : H}
    (apart : rank h < rank low ∨ rank high < rank h) : index h = none := by
  rw [← Option.not_isSome_iff_eq_none,segment.span]
  omega

theorem item (segment : Segment rank height parent index low high) {h : H} (above : rank low ≤ rank h)
    (below : rank h ≤ rank high) : ∃ x, index h = some x :=
  Option.isSome_iff_exists.mp ((segment.span h).mpr ⟨above,below⟩)

theorem once (segment : Segment rank height parent index low high) {h k : H} {x : X} (here : index h = some x)
    (there : index k = some x) : h = k := (segment.placed h x here).symm.trans (segment.placed k x there)

theorem congr {index' : H → Option X} (segment : Segment rank height parent index low high)
    (same : ∀ h, index' h = index h) : Segment rank height parent index' low high := by
  rwa [show index' = index from funext same]

theorem change {height' : X → H} {parent' : X → X} (segment : Segment rank height parent index low high)
    (same : ∀ h x, index h = some x → height' x = height x ∧ parent' x = parent x) :
    Segment rank height' parent' index low high where
  order := segment.order
  span := segment.span
  placed h x found := by rw [(same h x found).1,segment.placed h x found]
  linked h k x found next above := by rw [(same k x found).2,segment.linked h k x found next above]

theorem single [DecidableEq H] (distinct : Function.Injective rank) {x : X} (here : height x = k) (empty : ∀ h, index h = none) :
    Segment rank height parent (Function.update index k (some x)) k k where
  order := Nat.le_refl _
  span h := by
    by_cases same : h = k
    · subst same
      simp
    · rw [Function.update_of_ne same,empty h]
      have apart : rank h ≠ rank k := fun eq => same (distinct eq)
      simp only [Option.isSome_none,Bool.false_eq_true,false_iff]
      omega
  placed h y found := by
    by_cases same : h = k
    · subst same
      rw [Function.update_self] at found
      cases found
      exact here
    · rw [Function.update_of_ne same,empty h] at found
      cases found
  linked h j y found next above := by
    by_cases same : j = k
    · subst same
      omega
    · rw [Function.update_of_ne same,empty j] at found
      cases found

theorem extend [DecidableEq H] (distinct : Function.Injective rank) (segment : Segment rank height parent index low high)
    (x : X)
    (next : rank (height x) = rank high + 1) (up : index high = some (parent x)) :
    Segment rank height parent (Function.update index (height x) (some x)) low (height x) where
  order := by have := segment.order; omega
  span h := by
    have order := segment.order
    by_cases same : h = height x
    · subst same
      simp only [Function.update_self,Option.isSome_some,true_iff]
      omega
    · have apart : rank h ≠ rank (height x) := fun eq => same (distinct eq)
      rw [Function.update_of_ne same,segment.span h]
      omega
  placed h y found := by
    by_cases same : h = height x
    · subst same
      rw [Function.update_self] at found
      cases found
      rfl
    · rw [Function.update_of_ne same] at found
      exact segment.placed h y found
  linked h k y found step above := by
    by_cases same : k = height x
    · subst same
      rw [Function.update_self] at found
      cases found
      have top : h = high := distinct (by omega)
      subst top
      rw [Function.update_of_ne fun eq => by rw [← eq] at next; omega]
      exact up
    · rw [Function.update_of_ne same] at found
      have below := (segment.inside found).2
      have lower : h ≠ height x := by
        intro eq
        rw [eq] at step
        omega
      rw [Function.update_of_ne lower]
      exact segment.linked h k y found step above

theorem cut {index' : H → Option X} (segment : Segment rank height parent index low high)
    (above : rank low ≤ rank k) (below : rank k ≤ rank high)
    (kept : ∀ h, index' h = if rank h ≤ rank k then index h else none) :
    Segment rank height parent index' low k where
  order := above
  span h := by
    rw [kept]
    split
    · rw [segment.span h]
      omega
    · simp only [Option.isSome_none,Bool.false_eq_true,false_iff]
      omega
  placed h x found := by
    rw [kept] at found
    split at found
    · exact segment.placed h x found
    · cases found
  linked h j x found next low' := by
    rw [kept] at found ⊢
    split at found
    · rw [if_pos (by omega)]
      exact segment.linked h j x found next low'
    · cases found

theorem raise {index' : H → Option X} (segment : Segment rank height parent index low high)
    (above : rank low ≤ rank k) (below : rank k ≤ rank high)
    (kept : ∀ h, index' h = if rank k ≤ rank h then index h else none) :
    Segment rank height parent index' k high where
  order := below
  span h := by
    rw [kept]
    split
    · rw [segment.span h]
      omega
    · simp only [Option.isSome_none,Bool.false_eq_true,false_iff]
      omega
  placed h x found := by
    rw [kept] at found
    split at found
    · exact segment.placed h x found
    · cases found
  linked h j x found next low' := by
    rw [kept] at found ⊢
    split at found
    · rw [if_pos low']
      exact segment.linked h j x found next (by omega)
    · cases found

theorem append [DecidableEq H] (distinct : Function.Injective rank) {a b : X} {walk : List X}
    (steps : Walk rank height parent a high walk b k) (segment : Segment rank height parent index low high)
    (top : index high = some a) :
    Segment rank height parent (putAll (walk.map fun x => (height x,x)) index) low k ∧
      putAll (walk.map fun x => (height x,x)) index k = some b := by
  induction steps generalizing index with
  | nil a h => exact ⟨segment,top⟩
  | cons up next later ih =>
    rw [List.map_cons,putAllCons]
    exact ih (segment.extend distinct _ next (by rw [top,up])) (Function.update_self ..)

theorem base {a b : X} {h : H} {walk : List X} (segment : Segment rank height parent index low high)
    (steps : Walk rank height parent a h walk b k) (last : index k = some b) (above : rank low ≤ rank h) : index h = some a := by
  induction steps with
  | nil => exact last
  | cons up next later ih => rw [segment.linked _ _ _ (ih last (by omega)) next above,up]

theorem unique {index' : H → Option X} (distinct : Function.Injective rank)
    (dense : ∀ h k : H, rank h < rank k → ∃ j, rank j = rank h + 1) (segment : Segment rank height parent index low high)
    (segment' : Segment rank height parent index' low high) (top : index' high = index high) : index' = index := by
  funext h
  by_cases inside : rank low ≤ rank h ∧ rank h ≤ rank high
  · obtain ⟨above,below⟩ := inside
    induction gap : rank high - rank h generalizing h with
    | zero => rwa [show h = high from distinct (by omega)]
    | succ n ih =>
      obtain ⟨j,next⟩ := dense h high (by omega)
      obtain ⟨x,found⟩ := segment.item (h := j) (by omega) (by omega)
      have found' := (ih j (by omega) (by omega) (by omega)).trans found
      rw [segment.linked h j x found next above,segment'.linked h j x found' next above]
  · rw [segment.outside (by omega),segment'.outside (by omega)]

end Segment

namespace Walk

theorem rises {a b : X} {h k : H} {walk : List X} (steps : Walk rank height parent a h walk b k) :
    rank k = rank h + walk.length := by
  induction steps with
  | nil => rfl
  | cons _ next _ ih => rw [ih,List.length_cons]; omega

theorem heights {a b : X} {h k : H} {walk : List X} (steps : Walk rank height parent a h walk b k) :
    ∀ x ∈ walk, rank h < rank (height x) ∧ rank (height x) ≤ rank k := by
  induction steps with
  | nil => simp
  | cons _ next later ih =>
    intro x mem
    have top := later.rises
    rcases List.mem_cons.mp mem with rfl | older
    · omega
    · have := ih x older
      omega

theorem nth {a b : X} {h k : H} {walk : List X} (steps : Walk rank height parent a h walk b k) {i : Nat} {x : X}
    (found : walk[i]? = some x) : rank (height x) = rank h + 1 + i := by
  induction steps generalizing i with
  | nil => cases found
  | cons _ next _ ih =>
    cases i with
    | zero =>
      cases found
      exact next
    | succ i =>
      rw [ih (i := i) found]
      omega

theorem distinctHeights {a b : X} {h k : H} {walk : List X} (steps : Walk rank height parent a h walk b k) :
    (walk.map height).Nodup := by
  induction steps with
  | nil => simp
  | cons _ next later ih =>
    refine List.nodup_cons.mpr ⟨fun mem => ?_,ih⟩
    obtain ⟨x,inside,same⟩ := List.mem_map.mp mem
    have above := (later.heights x inside).1
    rw [same] at above
    omega

theorem ends {a b : X} {h k : H} {walk : List X} (steps : Walk rank height parent a h walk b k) (some' : walk ≠ []) :
    walk.getLast? = some b ∧ height b = k := by
  induction steps with
  | nil => exact absurd rfl some'
  | @cons a c b h k rest up next later ih =>
    cases rest with
    | nil =>
      cases later
      exact ⟨rfl,rfl⟩
    | cons d rest => exact ih (by simp)

end Walk

end DigBlockstore.ChainSegment
