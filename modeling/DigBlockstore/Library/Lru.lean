import Mathlib

/-! A least-recently-used cache: most recent entry first, at most `capacity` entries, room
for at least one, no key twice. Every operation only forgets entries, apart from the one it puts. -/
namespace DigBlockstore.Cache

structure Lru (K V : Type) where
  capacity : Nat
  room : 0 < capacity
  entries : List (K × V)
  distinct : (entries.map Prod.fst).Nodup
  bounded : entries.length ≤ capacity

namespace Lru
variable {K V : Type} [DecidableEq K]

def new (capacity : Nat) (room : 0 < capacity) : Lru K V := ⟨capacity,room,[],by simp,by simp⟩

def without (entries : List (K × V)) (key : K) : List (K × V) := entries.filter (fun e => e.1 ≠ key)

def peek (cache : Lru K V) (key : K) : Option V :=
  (cache.entries.find? (fun e => e.1 = key)).map Prod.snd

theorem withoutDistinct {entries : List (K × V)} (key : K) (h : (entries.map Prod.fst).Nodup) :
    ((without entries key).map Prod.fst).Nodup :=
  h.sublist (List.filter_sublist.map _)

theorem absent (entries : List (K × V)) (key : K) : key ∉ (without entries key).map Prod.fst := by
  simp [without]

theorem frontDistinct {entries : List (K × V)} (key : K) (value : V)
    (h : (entries.map Prod.fst).Nodup) :
    (((key,value) :: without entries key).map Prod.fst).Nodup := by
  rw [List.map_cons,List.nodup_cons]
  exact ⟨absent entries key,withoutDistinct key h⟩

def put (cache : Lru K V) (key : K) (value : V) : Lru K V where
  capacity := cache.capacity
  room := cache.room
  entries := ((key,value) :: without cache.entries key).take cache.capacity
  distinct := (frontDistinct key value cache.distinct).sublist ((List.take_sublist _ _).map _)
  bounded := List.length_take_le _ _

def pop (cache : Lru K V) (key : K) : Lru K V where
  capacity := cache.capacity
  room := cache.room
  entries := without cache.entries key
  distinct := withoutDistinct key cache.distinct
  bounded := Nat.le_trans (List.length_filter_le _ _) cache.bounded

theorem findMem {entries : List (K × V)} (distinct : (entries.map Prod.fst).Nodup) (key : K) (value : V) :
    (entries.find? (fun e => e.1 = key)).map Prod.snd = some value ↔ (key,value) ∈ entries := by
  induction entries with
  | nil => simp
  | cons e rest ih =>
    obtain ⟨fresh,distinct⟩ := List.nodup_cons.mp distinct
    by_cases same : e.1 = key
    · have unseen : (key,value) ∉ rest := fun mem =>
        fresh (List.mem_map.mpr ⟨(key,value),mem,same.symm⟩)
      rw [List.find?_cons_of_pos (by simpa using same)]
      simp only [Option.map_some,Option.some.injEq,List.mem_cons,unseen,or_false]
      constructor
      · rintro rfl
        rw [← same]
      · rintro rfl
        rfl
    · rw [List.find?_cons_of_neg (by simpa using same)]
      refine (ih distinct).trans ?_
      rw [List.mem_cons]
      constructor
      · exact .inr
      · rintro (rfl | mem)
        · exact absurd rfl same
        · exact mem

theorem peekMem (cache : Lru K V) (key : K) (value : V) :
    cache.peek key = some value ↔ (key,value) ∈ cache.entries := findMem cache.distinct key value

theorem shrink {cache : Lru K V} {key : K} {value : V} (h : cache.peek key = some value) :
    (without cache.entries key).length < cache.entries.length := by
  have mem := (peekMem cache key value).mp h
  exact List.length_filter_lt_length_iff_exists.mpr ⟨_,mem,by simp⟩

def touch (cache : Lru K V) (key : K) : Lru K V :=
  match found : cache.peek key with
  | none => cache
  | some value =>
      { capacity := cache.capacity
        room := cache.room
        entries := (key,value) :: without cache.entries key
        distinct := frontDistinct key value cache.distinct
        bounded := by
          have := shrink found
          have := cache.bounded
          simp only [List.length_cons]
          omega }

@[simp] theorem peekNew (capacity : Nat) (room : 0 < capacity) (key : K) :
    (new capacity room : Lru K V).peek key = none := rfl

theorem peekPut {cache : Lru K V} {key other : K} {value found : V}
    (h : (cache.put key value).peek other = some found) :
    other = key ∧ found = value ∨ other ≠ key ∧ cache.peek other = some found := by
  rw [peekMem] at h
  rcases List.mem_cons.mp (List.mem_of_mem_take h) with same | older
  · injection same with hk hv
    exact .inl ⟨hk,hv⟩
  · simp only [without,List.mem_filter,decide_eq_true_eq] at older
    exact .inr ⟨older.2,(peekMem ..).mpr older.1⟩

@[simp] theorem peekPutSelf (cache : Lru K V) (key : K) (value : V) :
    (cache.put key value).peek key = some value := by
  rw [peekMem]
  obtain ⟨n,hn⟩ := Nat.exists_eq_succ_of_ne_zero (Nat.ne_of_gt cache.room)
  simp [put,hn]

@[simp] theorem peekPop (cache : Lru K V) (key other : K) :
    (cache.pop key).peek other = if other = key then none else cache.peek other := by
  apply Option.ext
  intro found
  rw [peekMem]
  split
  · rename_i same
    subst same
    simp [pop,without]
  · rename_i apart
    rw [peekMem]
    simp [pop,without,apart]

@[simp] theorem peekTouch (cache : Lru K V) (key other : K) :
    (cache.touch key).peek other = cache.peek other := by
  unfold touch
  split
  · rfl
  · rename_i value found
    apply Option.ext
    intro w
    rw [peekMem,peekMem]
    simp only [List.mem_cons,without,List.mem_filter,decide_eq_true_eq,Prod.mk.injEq]
    rw [peekMem] at found
    constructor
    · rintro (⟨rfl,rfl⟩ | ⟨mem,_⟩) <;> assumption
    · intro mem
      by_cases same : other = key
      · subst same
        have hv := (peekMem cache other value).mpr found
        have hw := (peekMem cache other w).mpr mem
        rw [hv] at hw
        exact .inl ⟨rfl,(Option.some.inj hw).symm⟩
      · exact .inr ⟨mem,same⟩

end Lru
end DigBlockstore.Cache
