import DigBlockstore.Answers
import DigBlockstore.Linked
import DigBlockstore.Sample

/-! The common ancestor of a hash: the first block on its parent walk that is canonical at
its own height, found within the depth allowed. -/
namespace DigBlockstore
open ByteCodec Faulty ColumnStore
namespace Store
variable {crates : Crates} {s t u : Store} {content : Bytes32 → L2BlockHeader}

/- The block a number of steps up the parent walk, each block before it stored. -/
def ancestorAt (crates : Crates) (s : Store) (hash : Bytes32) : Nat → Option Bytes32
  | 0 => some hash
  | i+1 =>
      match s.headerAt crates hash with
      | none => none
      | some header => ancestorAt crates s header.parentHash i

/- A stored block that is the canonical one at its own height. -/
def OnChain (crates : Crates) (s : Store) (hash : Bytes32) (height : UInt64) : Prop :=
  ∃ header, s.headerAt crates hash = some header ∧ header.height = height ∧ s.canonicalAnswer height = some hash

def Astray (crates : Crates) (s : Store) (hash : Bytes32) (i : Nat) : Prop :=
  ∀ j < i, ∀ y k, s.ancestorAt crates hash j = some y → ¬OnChain crates s y k

structure ForksAt (crates : Crates) (s : Store) (hash : Bytes32) (i : Nat) (a : Bytes32) (k : UInt64) : Prop where
  reached : s.ancestorAt crates hash i = some a
  chain : OnChain crates s a k
  first : Astray crates s hash i

/- The walk and its answer, read off the rows. -/
def forkPoint (crates : Crates) (s : Store) (hash : Bytes32) : Nat → Option (Bytes32 × UInt64)
  | 0 => none
  | d+1 =>
      match s.headerAt crates hash with
      | none => none
      | some header =>
          if s.canonicalAnswer header.height = some hash then some (hash,header.height)
          else forkPoint crates s header.parentHash d

def Along (crates : Crates) (s : Store) (holds : Bytes32 → Prop) (hash : Bytes32) : Nat → Prop
  | 0 => True
  | d+1 => holds hash ∧ ∀ header, s.headerAt crates hash = some header →
      s.canonicalAnswer header.height ≠ some hash → Along crates s holds header.parentHash d

/- The height of the block, if it is stored, can be asked about. -/
def Placed (crates : Crates) (s : Store) (hash : Bytes32) : Prop :=
  ∀ header, s.headerAt crates hash = some header → s.Representable header.height

def Unknown (s : Store) (hash : Bytes32) : Prop :=
  (s.db .headers)[hashKey hash]? = none ∧ (s.db .blocks)[hashKey hash]? = none ∧ ¬s.Mentions hash

/- A hash without a header row is unknown altogether. -/
def Ends (crates : Crates) (s : Store) (hash : Bytes32) : Prop := s.headerAt crates hash = none → s.Unknown hash

section Walk

theorem ancestorAtNext {hash : Bytes32} {header : L2BlockHeader} (row : s.headerAt crates hash = some header) (i : Nat) :
    s.ancestorAt crates hash (i + 1) = s.ancestorAt crates header.parentHash i := by
  rw [ancestorAt,row]

theorem onChainIff {hash : Bytes32} {header : L2BlockHeader} (row : s.headerAt crates hash = some header) {k : UInt64} :
    OnChain crates s hash k ↔ header.height = k ∧ s.canonicalAnswer k = some hash := by
  constructor
  · rintro ⟨found,row',same,chain⟩
    rw [row] at row'
    cases row'
    exact ⟨same,chain⟩
  · exact fun both => ⟨header,row,both⟩

theorem astrayNext {hash : Bytes32} {header : L2BlockHeader} (row : s.headerAt crates hash = some header)
    (off : s.canonicalAnswer header.height ≠ some hash) (i : Nat) :
    Astray crates s hash (i + 1) ↔ Astray crates s header.parentHash i := by
  constructor
  · intro astray j small y k reached
    exact astray (j + 1) (by omega) y k (by rwa [ancestorAtNext row])
  · intro astray j small y k reached
    cases j with
    | zero =>
      cases reached
      rw [onChainIff row]
      rintro ⟨rfl,chain⟩
      exact off chain
    | succ j =>
      rw [ancestorAtNext row] at reached
      exact astray j (by omega) y k reached

theorem forkPointIff {hash : Bytes32} {d : Nat} {a : Bytes32} {k : UInt64} :
    forkPoint crates s hash d = some (a,k) ↔ ∃ i < d, ForksAt crates s hash i a k := by
  induction d generalizing hash with
  | zero =>
    constructor
    · intro found
      cases found
    · rintro ⟨i,small,_⟩
      omega
  | succ d ih =>
    rw [forkPoint]
    cases row : s.headerAt crates hash with
    | none =>
      constructor
      · intro found
        cases found
      · rintro ⟨i,_,forks⟩
        cases i with
        | zero =>
          cases forks.reached
          obtain ⟨header,row',_⟩ := forks.chain
          rw [row] at row'
          cases row'
        | succ i =>
          have reached := forks.reached
          rw [ancestorAt,row] at reached
          cases reached
    | some header =>
      dsimp only
      by_cases on : s.canonicalAnswer header.height = some hash
      · rw [if_pos on]
        have here : OnChain crates s hash header.height := (onChainIff row).mpr ⟨rfl,on⟩
        constructor
        · intro found
          cases found
          exact ⟨0,by omega,rfl,here,fun j small => by omega⟩
        · rintro ⟨i,_,forks⟩
          cases i with
          | zero =>
            cases forks.reached
            rw [((onChainIff row).mp forks.chain).1]
          | succ i => exact absurd here (forks.first 0 (by omega) hash _ rfl)
      · rw [if_neg on,ih]
        constructor
        · rintro ⟨i,small,forks⟩
          exact ⟨i + 1,by omega,by rw [ancestorAtNext row]; exact forks.reached,forks.chain,
            (astrayNext row on i).mpr forks.first⟩
        · rintro ⟨i,small,forks⟩
          cases i with
          | zero =>
            cases forks.reached
            obtain ⟨rfl,chain⟩ := (onChainIff row).mp forks.chain
            exact absurd chain on
          | succ i =>
            have reached := forks.reached
            rw [ancestorAtNext row] at reached
            exact ⟨i,by omega,reached,forks.chain,(astrayNext row on i).mp forks.first⟩

theorem alongIff {holds : Bytes32 → Prop} {hash : Bytes32} {d : Nat} : Along crates s holds hash d ↔
    ∀ i < d, Astray crates s hash i → ∀ y, s.ancestorAt crates hash i = some y → holds y := by
  induction d generalizing hash with
  | zero => exact ⟨fun _ i small => by omega,fun _ => trivial⟩
  | succ d ih =>
    constructor
    · intro along i small astray y reached
      cases i with
      | zero =>
        cases reached
        exact along.1
      | succ i =>
        cases top : s.headerAt crates hash with
        | none =>
          rw [ancestorAt,top] at reached
          cases reached
        | some header =>
          rw [ancestorAtNext top] at reached
          have off : s.canonicalAnswer header.height ≠ some hash := fun on =>
            astray 0 (by omega) hash header.height rfl ((onChainIff top).mpr ⟨rfl,on⟩)
          exact ih.mp (along.2 header top off) i (by omega) ((astrayNext top off i).mp astray) y reached
    · intro asked
      refine ⟨asked 0 (by omega) (fun j small => by omega) hash rfl,fun header row off => ih.mpr ?_⟩
      intro i small astray y reached
      exact asked (i + 1) (by omega) ((astrayNext row off i).mpr astray) y (by rwa [ancestorAtNext row])

theorem forkPointMore {hash : Bytes32} {d d' : Nat} (more : d ≤ d') {r : Bytes32 × UInt64}
    (found : forkPoint crates s hash d = some r) : forkPoint crates s hash d' = some r := by
  obtain ⟨i,small,forks⟩ := forkPointIff.mp found
  exact forkPointIff.mpr ⟨i,by omega,forks⟩

theorem alongMore {holds : Bytes32 → Prop} {hash : Bytes32} {d d' : Nat} {r : Bytes32 × UInt64}
    (found : forkPoint crates s hash d = some r) (along : Along crates s holds hash d) : Along crates s holds hash d' := by
  obtain ⟨i,small,forks⟩ := forkPointIff.mp found
  rw [alongIff] at along ⊢
  intro j _ astray y reached
  by_cases far : j ≤ i
  · exact along j (by omega) astray y reached
  · exact absurd forks.chain (astray i (by omega) _ _ forks.reached)

end Walk

section Reads

theorem Filed.reads (lawful : crates.Lawful) (filed : Filed crates content s) (hash : Bytes32) : s.Reads crates hash := by
  intro row
  rw [filed.headerAt lawful,if_pos row]
  rfl

theorem recordAtRow (lawful : crates.Lawful) (filed : Filed crates content s) {hash : Bytes32} (ends : s.Ends crates hash) :
    (s.headerAt crates hash = none ∧ s.recordAt crates hash = none) ∨
      ∃ header record, s.headerAt crates hash = some header ∧ s.recordAt crates hash = some record ∧
        record.height = header.height ∧ record.parentHash = header.parentHash := by
  have at' := @Filed.headerAt crates s content lawful filed hash
  by_cases row : (s.db .headers)[hashKey hash]?.isSome
  · rw [if_pos row] at at'
    refine .inr ⟨content hash,?_⟩
    unfold recordAt
    cases held : s.recordCache hash with
    | some record => exact ⟨record,at',rfl,filed.record hash record held⟩
    | none =>
      cases cached : s.headerCache.peek hash with
      | some header =>
        rw [filed.header hash header cached]
        exact ⟨_,at',rfl,rfl,rfl⟩
      | none => exact ⟨_,at',by rw [at']; rfl,rfl,rfl⟩
  · rw [if_neg row] at at'
    refine .inl ⟨at',?_⟩
    have absent := (ends at').2.2
    simp only [Mentions,not_or,Option.isSome_iff_ne_none,not_not] at absent
    simp only [recordAt,absent.2.2,absent.1,at',Option.map_none]

theorem Knows.unknown {hash : Bytes32} {header : L2BlockHeader} (known : s.Knows crates hash header) : ¬s.Unknown hash := by
  rintro ⟨headerRow,bodyRow,quiet⟩
  rcases known with cached | row | ⟨block,row,_⟩
  · exact quiet (.inl (by rw [cached]; rfl))
  · rw [headerAt,headerRow] at row
    cases row
  · rw [bodyAt,bodyRow] at row
    cases row

theorem Touched.unknown (touched : Touched crates s t) {hash : Bytes32} (unknown : s.Unknown hash) : t.Unknown hash := by
  refine ⟨by rw [touched.db]; exact unknown.1,by rw [touched.db]; exact unknown.2.1,?_⟩
  rintro (header | body | record)
  · obtain ⟨header,found⟩ := Option.isSome_iff_exists.mp header
    exact (touched.headers hash header found).unknown unknown
  · obtain ⟨block,found⟩ := Option.isSome_iff_exists.mp body
    rcases touched.bodies hash block found with cached | row
    · exact unknown.2.2 (.inr (.inl (by rw [cached]; rfl)))
    · exact Knows.unknown (.inr (.inr ⟨block,row,rfl⟩)) unknown
  · obtain ⟨record,found⟩ := Option.isSome_iff_exists.mp record
    rcases touched.records hash record found with cached | ⟨_,header,known,_⟩
    · exact unknown.2.2 (.inr (.inr (by rw [cached]; rfl)))
    · exact known.unknown unknown

structure Walked (crates : Crates) (content : Bytes32 → L2BlockHeader) (s : Store) : Prop where
  agreed : Agreed s
  filed : Filed crates content s

theorem Touched.walked (lawful : crates.Lawful) (touched : Touched crates s t) (walked : Walked crates content s) :
    Walked crates content t :=
  ⟨touched.quiet.agreed walked.agreed,touched.filed lawful walked.filed⟩

theorem Touched.forkPoint (touched : Touched crates s t) (hash : Bytes32) (d : Nat) :
    forkPoint crates t hash d = forkPoint crates s hash d := by
  induction d generalizing hash with
  | zero => rfl
  | succ d ih => simp only [Store.forkPoint,touched.headerAt,touched.quiet.canonicalAnswer,ih]

theorem Touched.placed (touched : Touched crates s t) (hash : Bytes32) : t.Placed crates hash ↔ s.Placed crates hash := by
  simp only [Store.Placed,touched.headerAt,touched.quiet.representable]

theorem Touched.ends (touched : Touched crates s t) {hash : Bytes32} (ends : s.Ends crates hash) : t.Ends crates hash := by
  intro row
  rw [touched.headerAt] at row
  exact touched.unknown (ends row)

theorem Touched.along (touched : Touched crates s t) {holds holds' : Bytes32 → Prop}
    (more : ∀ y, holds y → holds' y) {hash : Bytes32} {d : Nat} (along : Along crates s holds hash d) :
    Along crates t holds' hash d := by
  induction d generalizing hash with
  | zero => trivial
  | succ d ih =>
    refine ⟨more hash along.1,fun header row off => ih (along.2 header ?_ ?_)⟩
    · rwa [touched.headerAt] at row
    · rwa [touched.quiet.canonicalAnswer] at off

theorem Touched.walkable (touched : Touched crates s t) (hash : Bytes32) (d : Nat) :
    Along crates t (t.Placed crates) hash d ↔ Along crates s (s.Placed crates) hash d := by
  induction d generalizing hash with
  | zero => rfl
  | succ d ih => simp only [Along,touched.placed,touched.headerAt,touched.quiet.canonicalAnswer,ih]

section Turn
variable {hash : Bytes32} {header : L2BlockHeader} {record : BlockRecord} {holds : Bytes32 → Prop} {d : Nat}

theorem alongNone (row : s.headerAt crates hash = none) (here : holds hash) : Along crates s holds hash (d + 1) :=
  ⟨here,fun found row' => by
    rw [row] at row'
    cases row'⟩

theorem alongOn (row : s.headerAt crates hash = some header) (on : s.canonicalAnswer header.height = some hash)
    (here : holds hash) : Along crates s holds hash (d + 1) :=
  ⟨here,fun found row' off => by
    rw [row] at row'
    cases row'
    exact absurd on off⟩

theorem alongOff (row : s.headerAt crates hash = some header) (off : s.canonicalAnswer header.height ≠ some hash)
    (here : holds hash) : Along crates s holds hash (d + 1) ↔ Along crates s holds header.parentHash d :=
  ⟨fun along => along.2 header row off,fun later => ⟨here,fun found row' _ => by
    rw [row] at row'
    cases row'
    exact later⟩⟩

theorem placedAt (row : s.headerAt crates hash = some header) (fits : s.Representable header.height) : s.Placed crates hash :=
  fun found row' => by
    rw [row] at row'
    cases row'
    exact fits

theorem forkPointOn (row : s.headerAt crates hash = some header) (on : s.canonicalAnswer header.height = some hash) :
    forkPoint crates s hash (d + 1) = some (hash,header.height) := by
  rw [forkPoint,row]
  dsimp only
  rw [if_pos on]

theorem forkPointOff (row : s.headerAt crates hash = some header) (off : s.canonicalAnswer header.height ≠ some hash) :
    forkPoint crates s hash (d + 1) = forkPoint crates s header.parentHash d := by
  rw [forkPoint,row]
  dsimp only
  rw [if_neg off]

/- A turn of the walk after its record read: the lookup at the height of the record. -/
theorem walkTurn {u : Store} {script : List Event} (ran : getRecord crates hash ⟨s,script⟩ = (.ok (some record),⟨u,script⟩)) :
    ancestorWalk crates hash (d + 1) ⟨s,script⟩ = (do
      let canonicalHash ← getHashByHeight record.height
      if canonicalHash = some hash then pure (some (hash,record.height))
      else ancestorWalk crates record.parentHash d : StoreM _) ⟨u.cacheHeight hash record.height,script⟩ := by
  rw [ancestorWalk,bindOk _ ran]
  rfl

end Turn

theorem ancestorWalkAnswers (lawful : crates.Lawful) (walked : Walked crates content s) {hash : Bytes32} {d : Nat}
    (ends : Along crates s (s.Ends crates) hash d) (script : List Event) : ∃ t, Touched crates s t ∧
      (Along crates s (s.Placed crates) hash d ∧ ancestorWalk crates hash d ⟨s,script⟩ = (.ok (forkPoint crates s hash d),⟨t,script⟩) ∨
        ¬Along crates s (s.Placed crates) hash d ∧ ∃ message, (ancestorWalk crates hash d ⟨s,script⟩).1 = .error (.panic message)) := by
  induction d generalizing s hash with
  | zero => exact ⟨s,.refl s,.inl ⟨trivial,rfl⟩⟩
  | succ d ih =>
    obtain ⟨u,touched,_,ran⟩ := getRecordAnswers (walked.filed.reads lawful hash) script
    rcases recordAtRow lawful walked.filed ends.1 with ⟨row,none'⟩ | ⟨header,record,row,held,height,parent⟩
    · rw [none'] at ran
      refine ⟨u,touched,.inl ⟨alongNone row fun found row' => ?_,?_⟩⟩
      · rw [row] at row'
        cases row'
      · rw [ancestorWalk,bindOk _ ran,forkPoint,row]
        rfl
    · rw [held] at ran
      have cached : Touched crates u (u.cacheHeight hash record.height) :=
        touchedCacheHeight (.inr ⟨record,(getRecordRuns ⟨script,script,ran⟩).2.2.1 record rfl,rfl⟩)
      have step := @walkTurn crates s hash record d u script ran
      have moved := touched.trans cached
      have walked' := moved.walked lawful walked
      have fits' : (u.cacheHeight hash record.height).Representable record.height ↔ s.Representable header.height := by
        rw [moved.quiet.representable,height]
      by_cases fits : s.Representable header.height
      · obtain ⟨v,looked,_,answered⟩ := lookupRow crates walked'.agreed (fits'.mpr fits) script
        rw [moved.quiet.canonicalAnswer,height] at answered
        rw [height,bindOk _ answered] at step
        have all := moved.trans looked
        have placed := placedAt row fits
        by_cases on : s.canonicalAnswer header.height = some hash
        · refine ⟨v,all,.inl ⟨alongOn row on placed,?_⟩⟩
          rw [step,if_pos on,forkPointOn row on]
          rfl
        · rw [if_neg on,parent] at step
          obtain ⟨t,later,outcome⟩ := ih (all.walked lawful walked)
            (all.along (fun y => all.ends) (ends.2 header row on))
          refine ⟨t,all.trans later,?_⟩
          rw [all.walkable,all.forkPoint] at outcome
          rwa [step,alongOff row on placed,forkPointOff row on]
      · refine ⟨u,touched,.inr ⟨fun walkable => fits (walkable.1 header row),"canonical.bin slot end overflows usize",?_⟩⟩
        rw [step]
        exact bindError _ (lookupPast walked'.agreed (mt fits'.mp fits) script)

end Reads

section Descent

theorem ancestorBefore {hash z : Bytes32} {j : Nat} (reached : s.ancestorAt crates hash (j + 1) = some z) :
    ∃ y header, s.ancestorAt crates hash j = some y ∧ s.headerAt crates y = some header ∧ header.parentHash = z := by
  induction j generalizing hash with
  | zero =>
    rw [ancestorAt] at reached
    cases row : s.headerAt crates hash with
    | none => rw [row] at reached; cases reached
    | some header =>
      rw [row] at reached
      exact ⟨hash,header,rfl,row,Option.some.inj reached⟩
  | succ j ih =>
    cases row : s.headerAt crates hash with
    | none => rw [ancestorAt,row] at reached; cases reached
    | some header =>
      rw [ancestorAtNext row] at reached
      obtain ⟨y,below,before,found,up⟩ := ih reached
      exact ⟨y,below,by rwa [ancestorAtNext row],found,up⟩

def Descends (crates : Crates) (s : Store) (hash : Bytes32) : Prop :=
  ∀ j y z header below, s.ancestorAt crates hash j = some y → s.headerAt crates y = some header →
    s.ancestorAt crates hash (j + 1) = some z → s.headerAt crates z = some below →
      below.height.toNat + 1 = header.height.toNat

theorem Descends.below {hash a y : Bytes32} {i n : Nat} {top header : L2BlockHeader} (descends : Descends crates s hash)
    (start : s.ancestorAt crates hash i = some a) (row : s.headerAt crates a = some top)
    (reached : s.ancestorAt crates hash (i + n) = some y) (row' : s.headerAt crates y = some header) :
    header.height.toNat + n = top.height.toNat := by
  induction n generalizing y header with
  | zero =>
    rw [Nat.add_zero,start] at reached
    cases reached
    rw [row] at row'
    cases row'
    rfl
  | succ n ih =>
    obtain ⟨z,above,before,found,_⟩ := ancestorBefore (j := i + n) reached
    have higher := ih before found
    have one := descends (i + n) z y above header before found reached row'
    omega

theorem forkHighest {hash a : Bytes32} {i : Nat} {k : UInt64} (forks : ForksAt crates s hash i a k)
    (descends : Descends crates s hash) {j : Nat} {y : Bytes32} {k' : UInt64}
    (reached : s.ancestorAt crates hash j = some y) (chain : OnChain crates s y k') : k' ≤ k := by
  by_cases early : j < i
  · exact absurd chain (forks.first j early y k' reached)
  · obtain ⟨top,row,rfl,_⟩ := forks.chain
    obtain ⟨header,row',rfl,_⟩ := chain
    have split : j = i + (j - i) := by omega
    rw [split] at reached
    have lower := descends.below forks.reached row reached row'
    rw [UInt64.le_iff_toNat_le]
    omega

end Descent

section Start

theorem createdFiled (crates : Crates) (config : BlockStoreConfig) (content : Bytes32 → L2BlockHeader) :
    Filed crates content (created config) where
  keys cf key value _ row := by simp [created,fresh] at row
  headerRow hash raw row := by simp [created,fresh] at row
  bodyRow hash raw row := by simp [created,fresh] at row
  header hash header found := by simp [created,fresh] at found
  body hash block found := by simp [created,fresh] at found
  record hash record found := by cases found

end Start

end Store

theorem reachesFiled {crates : Crates} {s : Store} (lawful : crates.Lawful) (reached : Reaches crates s) :
    ∃ content, s.Filed crates content := by
  obtain ⟨start,actions,opened,run⟩ := reached
  have indexed := (openedIndexed opened).1
  obtain ⟨config,file,disk,opening⟩ := opened
  obtain ⟨_,u,booted,touched⟩ := Store.openStoreOk opening
  have empty := Store.createdFiled crates config fun _ => ⟨0,0,Bytes32.zero,0,0,0,0,0,0,0,0,Bytes32.zero,Bytes32.zero,[]⟩
  have start' : ∃ content, start.Filed crates content := ⟨_,touched.filed lawful (Store.bootedFiled empty booted)⟩
  exact (run.invariantWith indexed (fun _ _ _ => takesIndexed) start'
    fun _ _ _ known kept taken => takesFiled lawful known kept taken).2

namespace Sample

def forked : Store := .after crates Store.tame config
  [.initGenesis (block 0 0 1),.extendChain (block 1 1 2),.putBlock (block 1 1 3) false]

def faraway : Store := .after crates Store.tame config
  [.initGenesis (block 0 0 1),.putBlock (block lastSlot 1 5) false]

end Sample

end DigBlockstore
