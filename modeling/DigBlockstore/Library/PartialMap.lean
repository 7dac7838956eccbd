import Mathlib

/-! Partial maps as functions: writing a list of rows, where the last row of a key wins,
and erasing a set of keys. -/
namespace DigBlockstore.PartialMap

variable {H X : Type} [DecidableEq H]

def putAll (rows : List (H × X)) (map : H → Option X) : H → Option X :=
  rows.foldl (fun map row => Function.update map row.1 (some row.2)) map

def eraseAll (keys : List H) (map : H → Option X) : H → Option X :=
  fun h => if h ∈ keys then none else map h

def lastRow (rows : List (H × X)) (h : H) : Option X :=
  (rows.reverse.find? (fun row => row.1 = h)).map Prod.snd

@[simp] theorem putAllNil (map : H → Option X) : putAll [] map = map := rfl

@[simp] theorem putAllCons (row : H × X) (rows : List (H × X)) (map : H → Option X) :
    putAll (row :: rows) map = putAll rows (Function.update map row.1 (some row.2)) := rfl

theorem putAllAppend (first later : List (H × X)) (map : H → Option X) :
    putAll (first ++ later) map = putAll later (putAll first map) := List.foldl_append ..

@[simp] theorem eraseAllNil (map : H → Option X) : eraseAll [] map = map := by
  funext h
  simp [eraseAll]

theorem eraseAllSome {keys : List H} {map : H → Option X} {h : H} {x : X} (found : eraseAll keys map h = some x) :
    map h = some x := by
  unfold eraseAll at found
  split at found
  · cases found
  · exact found

theorem lastRowCons (row : H × X) (rows : List (H × X)) (h : H) :
    lastRow (row :: rows) h = (lastRow rows h).or (if row.1 = h then some row.2 else none) := by
  unfold lastRow
  rw [List.reverse_cons,List.find?_append]
  cases rows.reverse.find? (fun row => row.1 = h) with
  | none =>
    by_cases same : row.1 = h
    · simp [same]
    · simp [same]
  | some found => simp

theorem putAllAt (rows : List (H × X)) (map : H → Option X) (h : H) :
    putAll rows map h = (lastRow rows h).or (map h) := by
  induction rows generalizing map with
  | nil => simp [lastRow]
  | cons row rows ih =>
    rw [putAllCons,ih,lastRowCons]
    cases lastRow rows h with
    | some found => simp
    | none =>
      by_cases same : row.1 = h
      · subst same
        simp
      · simp [same,Function.update_of_ne (Ne.symm same)]

theorem lastRowMem {rows : List (H × X)} {h : H} {x : X} (found : lastRow rows h = some x) :
    (h,x) ∈ rows := by
  unfold lastRow at found
  obtain ⟨row,hit,rfl⟩ := Option.map_eq_some_iff.mp found
  have same := List.find?_some hit
  have mem := List.mem_of_find?_eq_some hit
  simp only [decide_eq_true_eq] at same
  rw [← same]
  exact List.mem_reverse.mp mem

theorem lastRowNone {rows : List (H × X)} {h : H} : lastRow rows h = none ↔ ∀ x, (h,x) ∉ rows := by
  constructor
  · intro none' x mem
    unfold lastRow at none'
    rw [Option.map_eq_none_iff,List.find?_eq_none] at none'
    exact none' _ (List.mem_reverse.mpr mem) (by simp)
  · intro absent
    cases found : lastRow rows h with
    | none => rfl
    | some x => exact absurd (lastRowMem found) (absent x)

theorem putAllOther {rows : List (H × X)} {map : H → Option X} {h : H} (apart : ∀ x, (h,x) ∉ rows) :
    putAll rows map h = map h := by
  rw [putAllAt,lastRowNone.mpr apart]
  rfl

theorem lastRowUnique {rows : List (H × X)} (unique : (rows.map Prod.fst).Nodup) {h : H} {x : X}
    (mem : (h,x) ∈ rows) : lastRow rows h = some x := by
  induction rows with
  | nil => cases mem
  | cons row rows ih =>
    obtain ⟨fresh,unique⟩ := List.nodup_cons.mp unique
    rw [lastRowCons]
    rcases List.mem_cons.mp mem with rfl | older
    · have absent : lastRow rows h = none := lastRowNone.mpr fun y in' =>
        fresh (List.mem_map.mpr ⟨(h,y),in',rfl⟩)
      simp [absent]
    · rw [ih unique older]
      rfl

end DigBlockstore.PartialMap
