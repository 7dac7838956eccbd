import DigBlockstore.Library.Segment

/-! Named blocks that form a tree, with a head and a floor. The chain is the head and its
ancestors down to the floor: which block is at a height is said by nothing else. -/
namespace DigBlockstore.BlockTree
open ChainSegment

structure Tree (X B : Type) where
  blocks : X → Option B
  head : Option X
  floor : Nat

inductive Move (X B : Type) where
  | genesis (x : X) (b : B)
  | add (x : X) (b : B)
  | extend (x : X) (b : B)
  | rollback (height : Nat)
  | reorg (walk : List X)
  | prune (height : Nat)

namespace Tree
variable {X B H : Type} (height : B → Nat) (parent : B → X)

def empty : Tree X B := ⟨fun _ => none,none,0⟩

/- The ancestor a number of parents up, each block before it stored. -/
def up (blocks : X → Option B) : Nat → X → Option X
  | 0,x => some x
  | n + 1,x => (blocks x).bind fun b => up blocks n (parent b)

def top (tree : Tree X B) : Option (X × B) := tree.head.bind fun x => (tree.blocks x).map fun b => (x,b)

/- The block of the chain at a height. -/
def chainAt (tree : Tree X B) (h : Nat) : Option X :=
  tree.top.bind fun top =>
    if tree.floor ≤ h ∧ h ≤ height top.2 then up parent tree.blocks (height top.2 - h) top.1 else none

/- The chain above a height, from the head down. -/
def above (tree : Tree X B) (h : Nat) : List X :=
  match tree.top with
  | none => []
  | some top => (List.range (height top.2 - h)).filterMap fun n => chainAt height parent tree (height top.2 - n)

/- The first block on the chain among a block and its ancestors, so many looked at. -/
def meet [DecidableEq X] (tree : Tree X B) : Nat → X → Option X
  | 0,_ => none
  | depth + 1,x => (tree.blocks x).bind fun b =>
      if chainAt height parent tree (height b) = some x then some x else meet tree depth (parent b)

def put [DecidableEq X] (tree : Tree X B) (x : X) (b : B) : Tree X B := {tree with blocks := Function.update tree.blocks x (some b)}

def move [DecidableEq X] (tree : Tree X B) : Move X B → Tree X B
  | .genesis x b => {tree.put x b with head := some x}
  | .add x b => if (tree.blocks x).isSome then tree else tree.put x b
  | .extend x b => if (tree.blocks x).isSome then tree else {tree.put x b with head := some x}
  | .rollback h => {tree with head := chainAt height parent tree h}
  | .reorg walk => {tree with head := walk.getLast?}
  | .prune h =>
      if h ≤ tree.floor then tree
      else {tree with blocks := fun x => (tree.blocks x).filter fun b => h ≤ height b,floor := h}

variable {height : B → Nat} {parent : B → X}

theorem upNext {blocks : X → Option B} {n : Nat} {x y : X} {b : B} (reached : up parent blocks n x = some y)
    (stored : blocks y = some b) : up parent blocks (n + 1) x = some (parent b) := by
  induction n generalizing x with
  | zero =>
    cases reached
    rw [up,stored]
    rfl
  | succ n ih =>
    obtain ⟨a,here,later⟩ := Option.bind_eq_some_iff.mp reached
    rw [up,here]
    exact ih later

theorem chainSegment {rank : H → Nat} {placed : X → H} {before : X → X} {index : H → Option X} {low high : H}
    {tree : Tree X B} {x : X} (distinct : Function.Injective rank)
    (dense : ∀ h k : H, rank h < rank k → ∃ j, rank j = rank h + 1) (segment : Segment rank placed before index low high)
    (stored : ∀ h y, index h = some y → ∃ b, tree.blocks y = some b ∧ height b = rank h ∧ parent b = before y)
    (high' : index high = some x) (head : tree.head = some x) (floor : tree.floor = rank low) (h : H) :
    index h = chainAt height parent tree (rank h) := by
  obtain ⟨b,here,level,_⟩ := stored high x high'
  have top : tree.top = some (x,b) := by simp [Tree.top,head,here]
  rw [chainAt,top,Option.bind_some,floor]
  dsimp only
  rw [level]
  by_cases inside : rank low ≤ rank h ∧ rank h ≤ rank high
  · rw [if_pos inside]
    obtain ⟨above,below⟩ := inside
    induction gap : rank high - rank h generalizing h with
    | zero => rwa [show h = high from distinct (by omega)]
    | succ n ih =>
      obtain ⟨j,next⟩ := dense h high (by omega)
      obtain ⟨y,found⟩ := segment.item (h := j) (by omega) (by omega)
      obtain ⟨c,kept,_,link⟩ := stored j y found
      rw [segment.linked h j y found next above,
        upNext ((ih j (by omega) (by omega) (by omega)).symm.trans found) kept,link]
  · rw [if_neg inside]
    exact segment.outside (by omega)

section Moves
variable [DecidableEq X] {tree : Tree X B} {x : X} {b : B} {h : Nat}

theorem addStored : ((move height parent tree (.add x b)).blocks x).isSome = true := by
  rw [move]
  split
  · assumption
  · simp [put]

theorem extendStored : ((move height parent tree (.extend x b)).blocks x).isSome = true := by
  rw [move]
  split
  · assumption
  · simp [put]

theorem addTwice : move height parent (move height parent tree (.add x b)) (.add x b) = move height parent tree (.add x b) := by
  rw [move,if_pos addStored]

theorem pruneFloor : h ≤ (move height parent tree (.prune h)).floor := by
  rw [move]
  split
  · assumption
  · exact Nat.le_refl h

theorem pruneTwice : move height parent (move height parent tree (.prune h)) (.prune h) = move height parent tree (.prune h) := by
  rw [move,if_pos pruneFloor]

theorem pruneKept (kept : (move height parent tree (.prune h)).blocks x = some b) : tree.blocks x = some b := by
  rw [move] at kept
  split at kept
  · exact kept
  · exact (Option.filter_eq_some_iff.mp kept).1

end Moves

end Tree

end DigBlockstore.BlockTree
