import DigBlockstore.Library.PartialMap

/-! The top of a partial map: the highest key held, at or above a floor, with what it holds. Each
change of the map crowns its new top exactly under a condition on the map before. -/
namespace DigBlockstore.ChainCrown
open PartialMap

variable {H X : Type} {rank : H → Nat}

structure Crown (rank : H → Nat) (index : H → Option X) (low top : H) (x : X) : Prop where
  row : index top = some x
  above : ∀ h, rank top < rank h → index h = none
  floor : rank low ≤ rank top

namespace Crown
variable {index index' : H → Option X} {low low' top k : H} {x y : X}

theorem congr (same : ∀ h, index' h = index h) : Crown rank index' low top x ↔ Crown rank index low top x := by
  rw [show index' = index from funext same]

theorem first [DecidableEq H] (empty : ∀ h, index h = none) :
    Crown rank (Function.update index k (some x)) low k x ↔ rank low ≤ rank k := by
  constructor
  · exact fun crown => crown.floor
  · intro floor
    refine ⟨Function.update_self ..,fun h above => ?_,floor⟩
    have apart : h ≠ k := fun same => by
      subst same
      exact Nat.lt_irrefl _ above
    rw [Function.update_of_ne apart,empty]

theorem put [DecidableEq H] (crown : Crown rank index low top x) :
    Crown rank (Function.update index k (some y)) low k y ↔ rank top ≤ rank k := by
  constructor
  · intro crown'
    by_contra lower
    have gone := crown'.above top (Nat.not_le.mp lower)
    have apart : top ≠ k := fun same => by
      subst same
      exact lower (Nat.le_refl _)
    rw [Function.update_of_ne apart,crown.row] at gone
    cases gone
  · intro higher
    refine ⟨Function.update_self ..,fun h above => ?_,Nat.le_trans crown.floor higher⟩
    have apart : h ≠ k := fun same => by
      subst same
      exact Nat.lt_irrefl _ above
    rw [Function.update_of_ne apart]
    exact crown.above h (Nat.lt_of_le_of_lt higher above)

theorem cut (crown : Crown rank index low top x) (floor : rank low ≤ rank k) (row : index k = some y)
    (gone : ∀ h, index' h = if rank k < rank h ∧ rank h ≤ rank top then none else index h) : Crown rank index' low k y where
  row := by rw [gone,if_neg fun both => Nat.lt_irrefl _ both.1,row]
  above h above := by
    rw [gone]
    split
    · rfl
    · rename_i out
      exact crown.above h (Nat.lt_of_not_le fun below => out ⟨above,below⟩)
  floor := floor

theorem notCut (below : rank k < rank top)
    (gone : ∀ h, index' h = if rank k < rank h ∧ rank h ≤ rank top then none else index h) :
    ¬Crown rank index' low top x := by
  intro crown
  have row := crown.row
  rw [gone,if_pos ⟨below,Nat.le_refl _⟩] at row
  cases row

theorem raise [DecidableEq H] {keys : List H} (crown : Crown rank index low top x) (below : ∀ h ∈ keys, rank h < rank low') :
    Crown rank (eraseAll keys index) low' top x ↔ rank low' ≤ rank top := by
  constructor
  · exact fun crown' => crown'.floor
  · intro floor
    refine ⟨?_,fun h above => ?_,floor⟩
    · rw [eraseAll,if_neg fun mem => Nat.not_le.mpr (below top mem) floor]
      exact crown.row
    · rw [eraseAll,crown.above h above,ite_self]

theorem replace [DecidableEq H] {keys : List H} {rows : List (H × X)} (last : lastRow rows k = some y)
    (highest : ∀ h z, lastRow rows h = some z → rank h ≤ rank k) :
    Crown rank (putAll rows (eraseAll keys index)) low k y ↔
      rank low ≤ rank k ∧ ∀ h, rank k < rank h → (index h).isSome → h ∈ keys := by
  have past (h : H) (above : rank k < rank h) : lastRow rows h = none := Option.eq_none_iff_forall_not_mem.mpr fun z row =>
    Nat.not_le.mpr above (highest h z row)
  constructor
  · intro crown
    refine ⟨crown.floor,fun h above held => ?_⟩
    have none' := crown.above h above
    rw [putAllAt,past h above,Option.none_or,eraseAll] at none'
    by_contra out
    rw [if_neg out] at none'
    rw [none'] at held
    cases held
  · rintro ⟨floor,erased⟩
    refine ⟨by rw [putAllAt,last]; rfl,fun h above => ?_,floor⟩
    rw [putAllAt,past h above,Option.none_or,eraseAll]
    split
    · rfl
    · rename_i out
      exact Option.not_isSome_iff_eq_none.mp fun held => out (erased h above held)

end Crown

/- A map with a top named, or an empty one with none. -/
def Crowned (rank : H → Nat) (index : H → Option X) (low : H) : Option (H × X) → Prop
  | none => ∀ h, index h = none
  | some top => Crown rank index low top.1 top.2

end DigBlockstore.ChainCrown
