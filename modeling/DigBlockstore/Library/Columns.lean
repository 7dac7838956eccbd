import Mathlib

/-! A keyed store divided into columns, with atomic write batches.
Each column is an ordered map, so iteration visits keys in their order. A batch is a
list of puts and deletes; the last one on a key decides it. -/
namespace DigBlockstore.ColumnStore
open Std (ExtTreeMap TransOrd LawfulEqOrd)

variable {κ K V : Type} [DecidableEq κ] [Ord K]

abbrev Columns (κ K V : Type) [Ord K] := κ → ExtTreeMap K V compare

inductive Write (κ K V : Type) where
  | put (column : κ) (key : K) (value : V)
  | delete (column : κ) (key : K)
  deriving DecidableEq, Repr

namespace Write

def column : Write κ K V → κ
  | put c _ _ => c
  | delete c _ => c

def apply [TransOrd K] (db : Columns κ K V) : Write κ K V → Columns κ K V
  | put column key value => Function.update db column ((db column).insert key value)
  | delete column key => Function.update db column ((db column).erase key)

/- What the write leaves at a key: `none` when it is about another key. -/
def effect (column : κ) (key : K) : Write κ K V → Option (Option V)
  | put c k v => if c = column ∧ compare k key = .eq then some (some v) else none
  | delete c k => if c = column ∧ compare k key = .eq then some none else none

end Write

def applyAll [TransOrd K] (batch : List (Write κ K V)) (db : Columns κ K V) : Columns κ K V :=
  batch.foldl Write.apply db

def lastEffect (batch : List (Write κ K V)) (column : κ) (key : K) : Option (Option V) :=
  batch.foldl (fun found write => (write.effect column key).or found) none

theorem foldEffect (batch : List (Write κ K V)) (column : κ) (key : K) (found : Option (Option V)) :
    batch.foldl (fun found write => (write.effect column key).or found) found =
      (lastEffect batch column key).or found := by
  unfold lastEffect
  induction batch generalizing found with
  | nil => rfl
  | cons write rest ih =>
    simp only [List.foldl_cons]
    rw [ih,ih ((write.effect column key).or none)]
    cases write.effect column key <;> simp

@[simp] theorem lastEffectNil (column : κ) (key : K) :
    lastEffect ([] : List (Write κ K V)) column key = none := rfl

theorem lastEffectCons (write : Write κ K V) (batch : List (Write κ K V)) (column : κ) (key : K) :
    lastEffect (write :: batch) column key =
      (lastEffect batch column key).or (write.effect column key) := by
  have h := foldEffect batch column key ((write.effect column key).or none)
  simpa [lastEffect] using h

theorem lastEffectAppend (first later : List (Write κ K V)) (column : κ) (key : K) :
    lastEffect (first ++ later) column key =
      (lastEffect later column key).or (lastEffect first column key) := by
  have h := foldEffect later column key (lastEffect first column key)
  unfold lastEffect at h ⊢
  rw [List.foldl_append]
  exact h

theorem lastEffectNone {batch : List (Write κ K V)} {column : κ} {key : K} :
    lastEffect batch column key = none ↔ ∀ write ∈ batch, write.effect column key = none := by
  induction batch with
  | nil => simp
  | cons write rest ih =>
    rw [lastEffectCons]
    simp only [Option.or_eq_none_iff,List.forall_mem_cons,ih]
    exact And.comm

theorem lastEffectMem {batch : List (Write κ K V)} {column : κ} {key : K} {left : Option V}
    (h : lastEffect batch column key = some left) :
    ∃ write ∈ batch, write.effect column key = some left := by
  induction batch with
  | nil => simp at h
  | cons write rest ih =>
    rw [lastEffectCons,Option.or_eq_some_iff] at h
    rcases h with h | ⟨_,h⟩
    · obtain ⟨w,mem,found⟩ := ih h
      exact ⟨w,List.mem_cons_of_mem _ mem,found⟩
    · exact ⟨write,by simp,h⟩

theorem effectOtherColumn {write : Write κ K V} {column : κ} (apart : write.column ≠ column) (key : K) :
    write.effect column key = none := by
  cases write <;> simp_all [Write.column,Write.effect]

section Keys
variable [LawfulEqOrd K]

theorem effectPut (column c : κ) (key k : K) (value : V) [DecidableEq K] :
    (Write.put c k value).effect column key =
      if c = column ∧ k = key then some (some value) else none := by
  simp [Write.effect]

theorem effectDelete (column c : κ) (key k : K) [DecidableEq K] :
    (Write.delete c k : Write κ K V).effect column key =
      if c = column ∧ k = key then some none else none := by
  simp [Write.effect]

end Keys

section Batches
variable [TransOrd K] [LawfulEqOrd K]

theorem getApply (db : Columns κ K V) (write : Write κ K V) (column : κ) (key : K) :
    (write.apply db column)[key]? = (write.effect column key).getD (db column)[key]? := by
  cases write with
  | put c k v =>
    by_cases same : c = column
    · subst same
      simp only [Write.apply,Write.effect,Function.update_self,ExtTreeMap.getElem?_insert]
      split <;> simp_all
    · have other : column ≠ c := Ne.symm same
      simp [Write.apply,Write.effect,same,Function.update_of_ne other]
  | delete c k =>
    by_cases same : c = column
    · subst same
      simp only [Write.apply,Write.effect,Function.update_self,ExtTreeMap.getElem?_erase]
      split <;> simp_all
    · have other : column ≠ c := Ne.symm same
      simp [Write.apply,Write.effect,same,Function.update_of_ne other]

theorem getApplyAll (batch : List (Write κ K V)) (db : Columns κ K V) (column : κ) (key : K) :
    (applyAll batch db column)[key]? = (lastEffect batch column key).getD (db column)[key]? := by
  induction batch generalizing db with
  | nil => rfl
  | cons write rest ih =>
    change (applyAll rest (write.apply db) column)[key]? = _
    rw [ih,getApply,lastEffectCons]
    cases lastEffect rest column key <;> simp

theorem appliedSome [DecidableEq K] {batch : List (Write κ K V)} {db : Columns κ K V} {column : κ} {key : K} {value : V}
    (held : (applyAll batch db column)[key]? = some value) :
    .put column key value ∈ batch ∨ (db column)[key]? = some value := by
  rw [getApplyAll] at held
  cases last : lastEffect batch column key with
  | none =>
    rw [last] at held
    exact .inr held
  | some left =>
    rw [last,Option.getD_some] at held
    obtain ⟨write,mem,effect⟩ := lastEffectMem last
    subst held
    cases write with
    | put c k v =>
      rw [effectPut] at effect
      split at effect
      · rename_i same
        obtain ⟨rfl,rfl⟩ := same
        cases effect
        exact .inl mem
      · cases effect
    | delete c k =>
      rw [effectDelete] at effect
      split at effect <;> cases effect

theorem appliedNone [DecidableEq K] {batch : List (Write κ K V)} {db : Columns κ K V} {column : κ} {key : K} {value : V}
    (held : (db column)[key]? = some value) (gone : (applyAll batch db column)[key]? = none) :
    .delete column key ∈ batch := by
  rw [getApplyAll] at gone
  cases last : lastEffect batch column key with
  | none =>
    rw [last,Option.getD_none,held] at gone
    cases gone
  | some left =>
    rw [last,Option.getD_some] at gone
    obtain ⟨write,mem,effect⟩ := lastEffectMem last
    subst gone
    cases write with
    | put c k v =>
      rw [effectPut] at effect
      split at effect <;> cases effect
    | delete c k =>
      rw [effectDelete] at effect
      split at effect
      · rename_i same
        obtain ⟨rfl,rfl⟩ := same
        exact mem
      · cases effect

theorem frame {batch : List (Write κ K V)} {db : Columns κ K V} {column : κ} {key : K}
    (apart : ∀ write ∈ batch, write.effect column key = none) :
    (applyAll batch db column)[key]? = (db column)[key]? := by
  rw [getApplyAll,lastEffectNone.mpr apart]
  rfl

theorem frameColumn {batch : List (Write κ K V)} {db : Columns κ K V} {column : κ}
    (apart : ∀ write ∈ batch, write.column ≠ column) : applyAll batch db column = db column := by
  apply ExtTreeMap.ext_getElem?
  intro key
  exact frame fun write mem => effectOtherColumn (apart write mem) key

theorem deletedNone [DecidableEq K] {batch : List (Write κ K V)} {db : Columns κ K V} {column : κ} {key : K}
    (mem : .delete column key ∈ batch) (unput : ∀ value, .put column key value ∉ batch) :
    (applyAll batch db column)[key]? = none := by
  rw [getApplyAll]
  cases last : lastEffect batch column key with
  | none =>
    have none' := lastEffectNone.mp last _ mem
    rw [effectDelete,if_pos ⟨rfl,rfl⟩] at none'
    cases none'
  | some left =>
    obtain ⟨write,inside,effect⟩ := lastEffectMem last
    cases write with
    | put c k value =>
      rw [effectPut] at effect
      split at effect
      · rename_i same
        obtain ⟨rfl,rfl⟩ := same
        exact absurd inside (unput value)
      · cases effect
    | delete c k =>
      rw [effectDelete] at effect
      split at effect <;> cases effect
      rfl

theorem getDeletes [DecidableEq K] (keys : List K) (db : Columns κ K V) (column : κ) (key : K) :
    (applyAll (keys.map (Write.delete column)) db column)[key]? = if key ∈ keys then none else (db column)[key]? := by
  split
  · rename_i mem
    exact deletedNone (List.mem_map_of_mem mem) fun value put => by simp at put
  · rename_i out
    refine frame fun write mem => ?_
    obtain ⟨other,inside,rfl⟩ := List.mem_map.mp mem
    rw [effectDelete,if_neg]
    intro same
    exact out (same.2 ▸ inside)

theorem sizeErased [DecidableEq K] {m m' : ExtTreeMap K V compare} {keys : List K} (distinct : keys.Nodup)
    (erased : ∀ key : K, m'[key]? = if key ∈ keys then none else m[key]?) :
    m.size = m'.size + (keys.filter m.contains).length := by
  induction keys generalizing m with
  | nil =>
    have same : m' = m := ExtTreeMap.ext_getElem? fun key => by rw [erased,if_neg (by simp)]
    simp [same]
  | cons key rest ih =>
    obtain ⟨fresh,distinct⟩ := List.nodup_cons.mp distinct
    have smaller := @ih (m.erase key) distinct fun other => by
      rw [erased,ExtTreeMap.getElem?_erase]
      by_cases same : key = other
      · subst same
        simp [fresh]
      · simp [same,Ne.symm same]
    have same : rest.filter (m.erase key).contains = rest.filter m.contains := by
      refine List.filter_congr fun other mem => ?_
      have apart : key ≠ other := fun same => fresh (same ▸ mem)
      simp [ExtTreeMap.contains_erase,apart]
    rw [same,ExtTreeMap.size_erase] at smaller
    rw [List.filter_cons]
    split at smaller
    · rename_i held
      have some' : m.size ≠ 0 := by
        intro zero
        have empty : m.isEmpty = true := by rw [ExtTreeMap.isEmpty_eq_size_beq_zero,zero]; rfl
        rw [ExtTreeMap.isEmpty_iff] at empty
        subst empty
        simp at held
      rw [if_pos (ExtTreeMap.contains_iff_mem.mpr held),List.length_cons]
      omega
    · rename_i lacking
      rw [if_neg (fun held => lacking (ExtTreeMap.contains_iff_mem.mp held))]
      exact smaller

theorem sizeHeld [DecidableEq K] {m : ExtTreeMap K V compare} {keys : List K} (distinct : keys.Nodup)
    (held : ∀ key : K, m[key]?.isSome ↔ key ∈ keys) : m.size = keys.length := by
  have erased : ∀ key : K, (∅ : ExtTreeMap K V compare)[key]? = if key ∈ keys then none else m[key]? := by
    intro key
    split
    · simp
    · rename_i out
      rw [ExtTreeMap.getElem?_empty,Option.not_isSome_iff_eq_none.mp fun row => out ((held key).mp row)]
  have all : keys.filter m.contains = keys := List.filter_eq_self.mpr fun key mem => by
    rw [ExtTreeMap.contains_eq_isSome_getElem?]
    exact (held key).mpr mem
  rw [sizeErased distinct erased,all,ExtTreeMap.size_empty,Nat.zero_add]

theorem keysNodup (m : ExtTreeMap K V compare) : m.keys.Nodup :=
  ExtTreeMap.distinct_keys.imp fun apart same => apart (Std.compare_eq_iff_eq.mpr same)

theorem memKeys {m : ExtTreeMap K V compare} {key : K} : key ∈ m.keys ↔ m[key]?.isSome := by
  rw [ExtTreeMap.mem_keys,← ExtTreeMap.contains_iff_mem,ExtTreeMap.contains_eq_isSome_getElem?]

end Batches

end DigBlockstore.ColumnStore
