import DigBlockstore.StepRules
import DigBlockstore.Answers

/-! A switch of the canonical chain among lookups: the batch, the cut, the slots and the swap of the
height cache, in this order. What a lookup meets at each stage of it. -/
namespace DigBlockstore
open ByteCodec Faulty ColumnStore PartialMap

/- What a rollback or a reorg is to do once its rows are planned. -/
structure Switch where
  batch : List Write
  cut : UInt64
  heights : List UInt64
  records : List (Bytes32 × BlockRecord)

namespace Switch
variable (sw : Switch)

def rows : List (UInt64 × Bytes32) := Store.rowsOf sw.records

def index (rows : UInt64 → Option Bytes32) : UInt64 → Option Bytes32 := putAll sw.rows (eraseAll sw.heights rows)

def slot (row : UInt64 × Bytes32) : Access := .slotWrite row.1 row.2

def marks : List Access := .batch sw.batch :: .cut sw.cut :: (sw.rows.map slot ++ [.heightsSwap sw.heights sw.records])

/- The steps of the switch that move a row, a slot or a cached height. -/
def mark : Access → Bool
  | .batch writes => writes = sw.batch
  | .cut _ | .slotWrite .. | .heightsSwap .. => true
  | _ => false

/- How far the switch has come. -/
inductive Stage : List Access → Prop where
  | idle : Stage []
  | batched : Stage [.batch sw.batch]
  | slots {done rest : List (UInt64 × Bytes32)} (rows : sw.rows = done ++ rest) :
      Stage (.batch sw.batch :: .cut sw.cut :: done.map slot)
  | swapped : Stage sw.marks

def file (stage : List Access) (bin : CanonicalBin) : CanonicalBin :=
  stage.foldl (fun bin access => match access with
    | .cut height => bin.cut height
    | .slotWrite height hash => bin.written height hash
    | _ => bin) bin

structure Fits (s : Store) : Prop where
  above : s.canonicalBin.mapping = true → ∀ h ∈ sw.heights, sw.cut < h
  cut : s.canonicalBin.Accepts sw.cut
  slots : ∀ row ∈ sw.rows, s.canonicalBin.Accepts row.1
  typed : ∀ write ∈ sw.batch, TypedWrite write
  indexed : ∀ db, canonicalAt (applyAll sw.batch db) = sw.index (canonicalAt db)

section File
variable {sw}

@[simp] theorem fileNil (bin : CanonicalBin) : file [] bin = bin := rfl

theorem fileSlots (batch : List Write) (cut : UInt64) (done : List (UInt64 × Bytes32)) (bin : CanonicalBin) :
    file (.batch batch :: .cut cut :: done.map slot) bin = (bin.cut cut).writtenAll done := by
  change List.foldl _ (bin.cut cut) (done.map slot) = _
  rw [List.foldl_map]
  rfl

theorem fileMarks (bin : CanonicalBin) : file sw.marks bin = (bin.cut sw.cut).writtenAll sw.rows := by
  rw [← fileSlots sw.batch,file,marks,file,← List.cons_append,← List.cons_append,List.foldl_append]
  rfl

theorem fileAnd (stage : List Access) (access : Access) (bin : CanonicalBin) :
    file (stage ++ [access]) bin = file [access] (file stage bin) := by
  rw [file,List.foldl_append]
  rfl

theorem fileMapping (stage : List Access) (bin : CanonicalBin) : (file stage bin).mapping = bin.mapping := by
  induction stage generalizing bin with
  | nil => rfl
  | cons access rest ih =>
    rw [file,List.foldl_cons,← file,ih]
    cases access <;> simp

theorem fileAccepts (stage : List Access) (bin : CanonicalBin) (h : UInt64) : (file stage bin).Accepts h ↔ bin.Accepts h := by
  induction stage generalizing bin with
  | nil => rfl
  | cons access rest ih =>
    rw [file,List.foldl_cons,← file,ih]
    cases access <;> simp

theorem fileReady (stage : List Access) {bin : CanonicalBin} (ready : bin.Ready) : (file stage bin).Ready := by
  induction stage generalizing bin with
  | nil => exact ready
  | cons access rest ih =>
    rw [file,List.foldl_cons,← file]
    refine ih ?_
    cases access with
    | cut height => exact CanonicalBin.cutReady ready height
    | slotWrite height hash => exact CanonicalBin.writtenReady ready height hash
    | _ => exact ready

end File

/- The height is still to be cut, or its slot still to be written. -/
inductive Pending (h : UInt64) : List Access → Prop where
  | cut {stage : List Access} (early : stage = [] ∨ stage = [.batch sw.batch]) (low : sw.cut < h) : Pending h stage
  | row {stage : List Access} {x : Bytes32} (early : stage = [] ∨ stage = [.batch sw.batch]) (mem : (h,x) ∈ sw.rows) :
      Pending h stage
  | slot {done rest : List (UInt64 × Bytes32)} {x : Bytes32} (rows : sw.rows = done ++ rest) (mem : (h,x) ∈ rest) :
      Pending h (.batch sw.batch :: .cut sw.cut :: done.map Switch.slot)

section Answers
variable {sw} {s : Store} {h : UInt64} {x : Bytes32} {stage : List Access}

theorem indexKept (rows : UInt64 → Option Bytes32) (outside : h ∉ sw.heights) (unset : ∀ y, (h,y) ∉ sw.rows) :
    sw.index rows h = rows h := by
  rw [index,putAllAt,lastRowNone.mpr unset,Option.none_or,eraseAll,if_neg outside]

theorem answerMaps {bin : CanonicalBin} (found : bin.answer h = some x) : bin.mapping = true := by
  cases bin with
  | rw d => rfl
  | ro mmap => rfl
  | disabled left => cases found

/- What the file answers at a stage: a hash that was or will be at the height, the right one unless
its slot is still to change. -/
structure Says (s : Store) (stage : List Access) (h : UInt64) (x : Bytes32) : Prop where
  seen : canonicalAt s.db h = some x ∨ (h,x) ∈ sw.rows
  first : stage = [] → canonicalAt s.db h = some x
  settled : sw.index (canonicalAt s.db) h = some x ∨ sw.Pending h stage

theorem cutAgain (sw : Switch) (indexed : s.Indexed) (writes : s.readOnly = false) :
    (s.canonicalBin.cut sw.cut).Sound s.minRetainedHeightCached
      (fun h => if h ≤ sw.cut then canonicalAt s.db h else none) :=
  indexed.bin.truncate (indexed.writable writes) fun _ kept => if_pos kept

theorem fileSays (fits : sw.Fits s) (indexed : s.Indexed) (writes : stage ≠ [] → s.readOnly = false) (at' : sw.Stage stage)
    (above : s.minRetainedHeightCached ≤ h) (answers : (file stage s.canonicalBin).answer h = some x) :
    sw.Says s stage h x := by
  have mapped : s.canonicalBin.mapping = true := by
    rw [← fileMapping stage]
    exact answerMaps answers
  have early : ∀ {stage}, (stage = [] ∨ stage = [.batch sw.batch]) → s.canonicalBin.answer h = some x → sw.Says s stage h x := by
    intro stage early answers
    have row := indexed.bin.agrees h x above answers
    refine ⟨.inl row,fun _ => row,?_⟩
    by_cases inside : h ∈ sw.heights
    · exact .inr (.cut early (fits.above mapped h inside))
    · by_cases set : ∃ y, (h,y) ∈ sw.rows
      · exact .inr (.row early set.choose_spec)
      · left
        rw [indexKept _ inside (not_exists.mp set)]
        exact row
  have late : ∀ {done rest stage}, s.readOnly = false → sw.rows = done ++ rest → stage ≠ [] →
      ((s.canonicalBin.cut sw.cut).writtenAll done).answer h = some x → ((∃ y, (h,y) ∈ rest) → sw.Pending h stage) →
      sw.Says s stage h x := by
    intro done rest stage writes rows later answers pending
    have sound := (cutAgain sw indexed writes).writeAll ((CanonicalBin.cutWritable ..).trans (indexed.writable writes)) done
    have row := sound.agrees h x above answers
    rw [putAllAt] at row
    have seen : canonicalAt s.db h = some x ∨ (h,x) ∈ sw.rows := by
      rcases Option.or_eq_some_iff.mp row with new | ⟨_,old⟩
      · right
        rw [rows]
        exact List.mem_append_left _ (lastRowMem new)
      · left
        split at old
        · exact old
        · cases old
    refine ⟨seen,fun bad => absurd bad later,?_⟩
    by_cases more : ∃ y, (h,y) ∈ rest
    · exact .inr (pending more)
    · left
      rw [index,rows,putAllAppend,putAllOther (not_exists.mp more),putAllAt]
      rcases Option.or_eq_some_iff.mp row with new | ⟨unset,old⟩
      · rw [new]
        rfl
      · rw [unset,Option.none_or]
        split at old
        · rename_i low
          rw [eraseAll,if_neg fun mem => UInt64.not_le.mpr (fits.above mapped h mem) low]
          exact old
        · cases old
  cases at' with
  | idle => exact early (.inl rfl) answers
  | batched => exact early (.inr rfl) answers
  | slots rows =>
    rw [fileSlots] at answers
    exact late (writes (by simp)) rows (by simp) answers (by rintro ⟨y,mem⟩; exact .slot rows mem)
  | swapped =>
    rw [fileMarks] at answers
    exact late (writes (by simp [marks])) (List.append_nil _).symm (by simp [marks]) answers
      (by rintro ⟨y,mem⟩; cases mem)

end Answers

/- What the height cache may hold at a stage: the row, and before the swap also what the swap is
going to drop. -/
structure MayCache (s : Store) (stage : List Access) (h : UInt64) (x : Bytes32) : Prop where
  first : stage = [] → canonicalAt s.db h = some x
  later : stage ≠ [] → sw.index (canonicalAt s.db) h = some x ∨
    stage ≠ sw.marks ∧ (h ∈ sw.heights ∨ ∃ y, (h,y) ∈ sw.rows) ∧ (canonicalAt s.db h = some x ∨ (h,x) ∈ sw.rows)

def RowAt (s : Store) (stage : List Access) (h : UInt64) (x : Bytes32) : Prop :=
  if stage = [] then canonicalAt s.db h = some x else sw.index (canonicalAt s.db) h = some x

section Race
variable {ι : Type} [DecidableEq ι] (w : ι) (s : Store) (tips : Option ChainTip → Prop)

def stage (past : List (ι × Access)) : List Access := taken w sw.mark past

/- The store among the steps of the switch and of lookups. -/
structure Racing (x : Scene ι Access Store) : Prop where
  order : sw.Stage (sw.stage w x.past)
  typed : TypedRows x.now.db
  rows : canonicalAt x.now.db = if sw.stage w x.past = [] then canonicalAt s.db else sw.index (canonicalAt s.db)
  bin : x.now.canonicalBin = file (sw.stage w x.past) s.canonicalBin
  floor : x.now.minRetainedHeightCached = s.minRetainedHeightCached
  readOnly : x.now.readOnly = s.readOnly
  writes : sw.stage w x.past ≠ [] → s.readOnly = false
  tip : tips x.now.tip
  cache : ∀ h y, s.minRetainedHeightCached ≤ h → x.now.canonicalHeightCache[h]? = some y →
    sw.MayCache s (sw.stage w x.past) h y

variable {sw w s tips} {i : ι} {h : UInt64} {hash : Bytes32} {x y : Scene ι Access Store}

theorem stageNext (sw : Switch) (x : Scene ι Access Store) {label : Access} (t : Store) (kept : i ≠ w ∨ sw.mark label = false) :
    sw.stage w (x.next i label t).past = sw.stage w x.past := by
  rcases kept with other | skips
  · exact takenOthers fun e mem => by rwa [List.mem_singleton.mp mem]
  · by_cases mine : i = w
    · subst mine
      exact takenSkip i x.past skips
    · exact takenOthers fun e mem => by rwa [List.mem_singleton.mp mem]

theorem Racing.start (indexed : s.Indexed) (coherent : s.Coherent) (tip : tips s.tip) :
    sw.Racing w s tips (⟨[],s⟩ : Scene ι Access Store) where
  order := .idle
  typed := indexed.typed
  rows := rfl
  bin := rfl
  floor := rfl
  readOnly := rfl
  writes bad := absurd rfl bad
  tip := tip
  cache h y above cached := ⟨fun _ => coherent h y above cached,fun bad => absurd rfl bad⟩

theorem Racing.aside {label : Access} {t : Store} (racing : sw.Racing w s tips x) (kept : i ≠ w ∨ sw.mark label = false)
    (db : TypedRows t.db ∧ canonicalAt t.db = canonicalAt x.now.db) (bin : t.canonicalBin = x.now.canonicalBin)
    (floor : t.minRetainedHeightCached = x.now.minRetainedHeightCached) (readOnly : t.readOnly = x.now.readOnly)
    (tip : tips t.tip) (cache : t.canonicalHeightCache = x.now.canonicalHeightCache) :
    sw.Racing w s tips (x.next i label t) := by
  have same := stageNext sw x t kept
  constructor
  case order => rw [same]; exact racing.order
  case typed => exact db.1
  case rows => rw [same,← racing.rows]; exact db.2
  case bin => rw [same,← racing.bin]; exact bin
  case floor => exact floor.trans racing.floor
  case readOnly => exact readOnly.trans racing.readOnly
  case writes => rw [same]; exact racing.writes
  case tip => exact tip
  case cache =>
    intro h y above cached
    rw [same]
    exact racing.cache h y above (by rw [← cache]; exact cached)

theorem Racing.shelved {label : Access} {t : Store} (racing : sw.Racing w s tips x) (kept : i ≠ w ∨ sw.mark label = false)
    (shelved : Store.Shelved x.now t) : sw.Racing w s tips (x.next i label t) := by
  refine racing.aside kept ⟨?_,?_⟩ ?_ ?_ ?_ ?_ ?_ <;> rw [shelved]
  · exact racing.typed
  · exact racing.tip

theorem Racing.put {label : Access} (racing : sw.Racing w s tips x) (kept : i ≠ w ∨ sw.mark label = false)
    (may : s.minRetainedHeightCached ≤ h → sw.MayCache s (sw.stage w x.past) h hash) :
    sw.Racing w s tips (x.next i label (x.now.insertCanonicalHeightCache h hash)) := by
  have same := stageNext sw x (x.now.insertCanonicalHeightCache h hash) kept
  have cache : ∀ k y, s.minRetainedHeightCached ≤ k →
      (x.now.insertCanonicalHeightCache h hash).canonicalHeightCache[k]? = some y →
        sw.MayCache s (sw.stage w x.past) k y := by
    intro k y above cached
    rcases Store.insertHeightFound cached with ⟨rfl,rfl⟩ | ⟨older,_⟩
    · exact may above
    · exact racing.cache k y above older
  have rest := Store.insertHeightRest x.now h hash
  rw [← same] at cache
  generalize x.now.insertCanonicalHeightCache h hash = t at same cache rest ⊢
  constructor
  case order => rw [same]; exact racing.order
  case typed => rw [Scene.next,rest]; exact racing.typed
  case rows => rw [same,← racing.rows,Scene.next,rest]
  case bin => rw [same,← racing.bin,Scene.next,rest]
  case floor => rw [Scene.next,rest]; exact racing.floor
  case readOnly => rw [Scene.next,rest]; exact racing.readOnly
  case writes => rw [same]; exact racing.writes
  case tip => rw [Scene.next,rest]; exact racing.tip
  case cache => exact cache

section Marks
variable {t : Store} {done rest : List (UInt64 × Bytes32)} {row : UInt64 × Bytes32}

theorem stageMark {label : Access} (marks : sw.mark label = true) :
    sw.stage w (x.next w label t).past = sw.stage w x.past ++ [label] := takenNext w x.past marks

theorem Racing.batch (racing : sw.Racing w s tips x) (fits : sw.Fits s) (writes : s.readOnly = false) (here : sw.stage w x.past = []) :
    sw.Racing w s tips (x.next w (.batch sw.batch) (x.now.commit sw.batch)) := by
  have moved := stageMark (t := x.now.commit sw.batch) (x := x) (w := w) (show sw.mark (.batch sw.batch) = true by simp [mark])
  rw [here,List.nil_append] at moved
  have rows := racing.rows
  rw [if_pos here] at rows
  constructor
  case order => rw [moved]; exact .batched
  case typed => exact typedCommit racing.typed fits.typed
  case rows =>
    rw [moved,if_neg (by simp),← rows]
    exact fits.indexed x.now.db
  case bin =>
    rw [moved]
    exact racing.bin.trans (by rw [here]; rfl)
  case floor => exact racing.floor
  case readOnly => exact racing.readOnly
  case writes => exact fun _ => writes
  case tip => exact racing.tip
  case cache =>
    intro h y above cached
    rw [moved]
    have row := (racing.cache h y above cached).first here
    refine ⟨fun bad => by (cases bad),fun _ => ?_⟩
    by_cases covered : h ∈ sw.heights ∨ ∃ y, (h,y) ∈ sw.rows
    · exact .inr ⟨by simp [marks],covered,.inl row⟩
    · simp only [not_or,not_exists] at covered
      left
      rw [indexKept _ covered.1 covered.2]
      exact row

theorem Racing.filed {label : Access} {stage' : List Access} (racing : sw.Racing w s tips x) (marks : sw.mark label = true)
    (here : sw.stage w x.past = .batch sw.batch :: stage') (next : sw.Stage (.batch sw.batch :: (stage' ++ [label])))
    (unswapped : .batch sw.batch :: (stage' ++ [label]) ≠ sw.marks)
    (t : Store) (bin : t = {x.now with canonicalBin := file [label] x.now.canonicalBin}) :
    sw.Racing w s tips (x.next w label t) := by
  have moved := stageMark (t := t) (x := x) (w := w) marks
  rw [here,List.cons_append] at moved
  have rows := racing.rows
  rw [here,if_neg (by simp)] at rows
  subst bin
  constructor
  case order => rw [moved]; exact next
  case typed => exact racing.typed
  case rows => rw [moved,if_neg (by simp)]; exact rows
  case bin =>
    rw [moved,← List.cons_append,fileAnd,← here,← racing.bin]
    rfl
  case floor => exact racing.floor
  case readOnly => exact racing.readOnly
  case writes => exact fun _ => racing.writes (by rw [here]; simp)
  case tip => exact racing.tip
  case cache =>
    intro h y above cached
    rw [moved]
    have may := racing.cache h y above cached
    rw [here] at may
    refine ⟨fun bad => by (cases bad),fun _ => ?_⟩
    exact (may.later (by simp)).imp_right fun old => ⟨unswapped,old.2⟩

theorem marksApart (sw : Switch) (done : List (UInt64 × Bytes32)) : .batch sw.batch :: .cut sw.cut :: done.map slot ≠ sw.marks := by
  intro same
  have swap : Access.heightsSwap sw.heights sw.records ∈ sw.marks := by simp [marks]
  rw [← same] at swap
  simp [slot] at swap

theorem Racing.cuts (racing : sw.Racing w s tips x) (here : sw.stage w x.past = [.batch sw.batch]) :
    sw.Racing w s tips (x.next w (.cut sw.cut) (x.now.cutSlots sw.cut)) :=
  racing.filed rfl here (@Stage.slots sw [] sw.rows rfl) (marksApart sw []) _ rfl

theorem Racing.slotted (racing : sw.Racing w s tips x) (rows : sw.rows = done ++ row :: rest)
    (here : sw.stage w x.past = .batch sw.batch :: .cut sw.cut :: done.map slot) :
    sw.Racing w s tips (x.next w (.slotWrite row.1 row.2) (x.now.writeSlot row.1 row.2)) := by
  have grown : (done ++ [row]).map slot = done.map slot ++ [.slotWrite row.1 row.2] := by simp [slot]
  refine racing.filed rfl here ?_ ?_ _ rfl
  · rw [List.cons_append,← grown]
    exact .slots (by rw [rows,List.append_assoc]; rfl)
  · rw [List.cons_append,← grown]
    exact marksApart sw _

theorem Racing.swaps (racing : sw.Racing w s tips x)
    (here : sw.stage w x.past = .batch sw.batch :: .cut sw.cut :: sw.rows.map slot) :
    sw.Racing w s tips (x.next w (.heightsSwap sw.heights sw.records)
      ((x.now.dropCachedHeights sw.heights).cacheReorgHeights sw.records)) := by
  have moved := stageMark (t := (x.now.dropCachedHeights sw.heights).cacheReorgHeights sw.records) (x := x) (w := w)
    (show sw.mark (.heightsSwap sw.heights sw.records) = true from rfl)
  rw [here] at moved
  replace moved : sw.stage w (x.next w (.heightsSwap sw.heights sw.records)
      ((x.now.dropCachedHeights sw.heights).cacheReorgHeights sw.records)).past = sw.marks := moved
  have rows := racing.rows
  rw [here,if_neg (by simp)] at rows
  constructor
  case order => rw [moved]; exact .swapped
  case typed => exact racing.typed
  case rows => rw [moved,if_neg (by simp [marks])]; exact rows
  case bin =>
    rw [moved,fileMarks]
    exact racing.bin.trans (by rw [here,fileSlots])
  case floor => exact racing.floor
  case readOnly => exact racing.readOnly
  case writes => exact fun _ => racing.writes (by rw [here]; simp)
  case tip => exact racing.tip
  case cache =>
    intro h y above cached
    rw [moved]
    refine ⟨fun bad => by simp [marks] at bad,fun _ => .inl ?_⟩
    rcases Store.cacheReorgFound cached with new | ⟨unset,older⟩
    · rw [index,putAllAt,show lastRow sw.rows h = some y from new]
      rfl
    · obtain ⟨held,outside⟩ := Store.dropCachedFound older
      have may := racing.cache h y above held
      rw [here] at may
      rcases may.later (by simp) with row | ⟨_,covered,_⟩
      · exact row
      · rcases covered with inside | ⟨z,mem⟩
        · exact absurd inside outside
        · exact absurd mem (lastRowNone.mp unset z)

end Marks

/- What a procedure may find done: steps of the others, and to the one that switches only moves of
the height cache. -/
def Rely (w i : ι) : Scene ι Access Store → Scene ι Access Store → Prop :=
  Scene.Others (fun a b => i = w → Store.Warmed a b) i

instance (w i : ι) : IsPreorder (Scene ι Access Store) (Rely w i) :=
  have : IsPreorder Store fun a b => i = w → Store.Warmed a b :=
    { refl := fun s _ => refl_of Store.Warmed s
      trans := fun _ _ _ first later mine => trans_of Store.Warmed (first mine) (later mine) }
  Scene.othersPreorder _ i

theorem relyStage (later : Rely w i x y) (mine : i = w) : sw.stage w y.past = sw.stage w x.past := by
  obtain ⟨⟨more,grown,apart⟩,_⟩ := later
  rw [grown]
  exact takenOthers fun e mem => by rw [← mine]; exact apart e mem

def Rewrites (s : Store) (writes : List Write) (h : UInt64) : Prop :=
  canonicalAt (applyAll writes s.db) h ≠ canonicalAt s.db h

/- A lookup that took its hash from the rows before the batch of the switch, and puts it in the height
cache after the switch has dropped the cached heights. -/
inductive Overtaken (w : ι) (s : Store) : List (ι × Access) → Prop where
  | row {before between after : List (ι × Access)} {i : ι} {h : UInt64} {hash : Bytes32}
      {writes : List Write} {heights : List UInt64} {records : List (Bytes32 × BlockRecord)} (reader : i ≠ w)
      (order : [(w,.batch writes),(w,.heightsSwap heights records)].Sublist between) (rewrites : Rewrites s writes h) :
      Overtaken w s (before ++ (i,.rowRead .canonical (heightKey h)) :: (between ++ (i,.heightPut h hash) :: after))

omit [DecidableEq ι] in
theorem Overtaken.more {past : List (ι × Access)} (overtaken : Overtaken w s past) (e : ι × Access) :
    Overtaken w s (past ++ [e]) := by
  obtain ⟨reader,order,rewrites⟩ := overtaken
  rw [List.append_assoc,List.cons_append,List.append_assoc,List.cons_append]
  exact .row reader order rewrites

/- The lock of the file is kept, and no lookup overtaken. -/
def Orderly (w : ι) (s : Store) (past : List (ι × Access)) : Prop := FileLocked past ∧ ¬Overtaken w s past

theorem Orderly.shorter {past : List (ι × Access)} {e : ι × Access} (orderly : Orderly w s (past ++ [e])) :
    Orderly w s past :=
  ⟨orderly.1.shorter,fun overtaken => orderly.2 (overtaken.more e)⟩

section Reader
variable {before between : List (ι × Access)}

theorem pendingWritten {stage more : List Access} (pending : sw.Pending h stage) (whole : stage ++ more = sw.marks) :
    ∃ e ∈ more, e.writesFile = true := by
  have early : ∀ {stage more}, (stage = [] ∨ stage = [.batch sw.batch]) → stage ++ more = sw.marks →
      Access.cut sw.cut ∈ more := by
    rintro stage more (rfl | rfl) whole
    · rw [List.nil_append] at whole
      rw [whole,marks]
      simp
    · rw [marks,List.singleton_append,List.cons_inj_right] at whole
      rw [whole]
      simp
  cases pending with
  | cut start low => exact ⟨_,early start whole,rfl⟩
  | row start mem => exact ⟨_,early start whole,rfl⟩
  | @slot done rest x rows mem =>
    refine ⟨.slotWrite h x,?_,rfl⟩
    rw [marks,rows,List.map_append,List.cons_append,List.cons_append,List.append_assoc,List.cons_inj_right,
      List.cons_inj_right,List.append_cancel_left_eq] at whole
    rw [whole]
    exact List.mem_append_left _ (List.mem_map.mpr ⟨(h,x),mem,rfl⟩)

theorem stageSince {read : Access} (reader : i ≠ w) (order : x.past = before ++ (i,read) :: between) :
    sw.stage w x.past = sw.stage w before ++ sw.stage w between := by
  rw [order,stage,takenAppend,← List.singleton_append,takenAppend]
  simp [taken,reader,stage]

/- What a lookup holds between its read and its put. -/
inductive Fresh (sw : Switch) (w : ι) (s : Store) (i : ι) (h : UInt64) (hash : Bytes32) (x : Scene ι Access Store) : Prop where
  | slot (before between : List (ι × Access)) (order : x.past = before ++ (i,.slotRead h (some hash)) :: between)
      (others : ∀ e ∈ between, e.1 ≠ i)
      (told : s.minRetainedHeightCached ≤ h → sw.Says s (sw.stage w before) h hash)
  | row (before between : List (ι × Access))
      (order : x.past = before ++ (i,.rowRead .canonical (heightKey h)) :: between)
      (row : sw.RowAt s (sw.stage w before) h hash)

theorem Fresh.along (fresh : sw.Fresh w s i h hash x) (later : Rely w i x y) : sw.Fresh w s i h hash y := by
  obtain ⟨⟨more,grown,apart⟩,_⟩ := later
  cases fresh with
  | slot before between order others told =>
    refine .slot before (between ++ more) (by rw [grown,order,List.append_assoc,List.cons_append]) ?_ told
    exact List.forall_mem_append.mpr ⟨others,apart⟩
  | row before between order row =>
    exact .row before (between ++ more) (by rw [grown,order,List.append_assoc,List.cons_append]) row

theorem rewritesAt (fits : sw.Fits s) (row : canonicalAt s.db h = some hash)
    (wrong : sw.index (canonicalAt s.db) h ≠ some hash) : Rewrites s sw.batch h := by
  rw [Rewrites,fits.indexed,row]
  exact wrong

theorem coveredAt (seen : canonicalAt s.db h = some hash ∨ (h,hash) ∈ sw.rows)
    (wrong : sw.index (canonicalAt s.db) h ≠ some hash) : h ∈ sw.heights ∨ ∃ y, (h,y) ∈ sw.rows := by
  by_contra uncovered
  simp only [not_or,not_exists] at uncovered
  rcases seen with row | put
  · exact wrong (by rw [indexKept _ uncovered.1 uncovered.2]; exact row)
  · exact uncovered.2 hash put

/- What a lookup puts is what the height cache may hold, unless the switch has overtaken it. -/
theorem Fresh.may (fresh : sw.Fresh w s i h hash x) (fits : sw.Fits s) (reader : i ≠ w)
    (orderly : Orderly w s (x.past ++ [(i,.heightPut h hash)])) (above : s.minRetainedHeightCached ≤ h) :
    sw.MayCache s (sw.stage w x.past) h hash := by
  cases fresh with
  | slot before between order others told =>
    rw [stageSince reader order]
    have told := told above
    refine ⟨fun none' => told.first (List.append_eq_nil_iff.mp none').1,fun _ => ?_⟩
    by_cases right : sw.index (canonicalAt s.db) h = some hash
    · exact .inl right
    · refine .inr ⟨fun whole => ?_,coveredAt told.seen right,told.seen⟩
      obtain ⟨e,inside,writes⟩ := pendingWritten (told.settled.resolve_left right) whole
      have mem : (w,e) ∈ between := List.singleton_sublist.mp (takenSublist (List.singleton_sublist.mpr inside))
      have kept := orderly.1.shorter
      rw [order] at kept
      have none' := kept.between rfl others (w,e) mem
      rw [writes] at none'
      cases none'
  | row before between order row =>
    rw [stageSince reader order]
    unfold RowAt at row
    split at row
    · rename_i early
      rw [early,List.nil_append]
      refine ⟨fun _ => row,fun _ => ?_⟩
      by_cases right : sw.index (canonicalAt s.db) h = some hash
      · exact .inl right
      · refine .inr ⟨fun whole => orderly.2 ?_,coveredAt (.inl row) right,.inl row⟩
        have inside : [Access.batch sw.batch,.heightsSwap sw.heights sw.records].Sublist (taken w sw.mark between) := by
          change List.Sublist _ (sw.stage w between)
          rw [whole,marks]
          exact ((List.sublist_append_right ..).cons _).cons_cons _
        rw [order,List.append_assoc,List.cons_append]
        exact .row reader (takenSublist inside) (rewritesAt fits row right)
    · rename_i later
      exact ⟨fun none' => absurd (List.append_eq_nil_iff.mp none').1 later,fun _ => .inl row⟩

theorem carries {label : Access} {t : Store} (racing : sw.Racing w s tips (x.next i label t))
    (warmed : i = w ∨ Store.Warmed x.now t) : Store.Carries (sw.Racing w s tips) (Rely w) i x (x.next i label t) := by
  refine ⟨racing,fun j apart => Scene.othersNext apart x label fun mine => ?_⟩
  exact warmed.resolve_left fun same => apart (mine.trans same.symm)

theorem readerRules (fits : sw.Fits s) (indexed : s.Indexed) (reader : i ≠ w) :
    Store.LookupRules (Orderly w s) (sw.Racing w s tips) (Rely w) i h (fun _ => True)
      (sw.Fresh w s i h) where
  stays _ _ _ _ := trivial
  silent y label _ racing _ := ⟨carries (racing.shelved (.inl reader) rfl) (.inr rfl),trivial⟩
  slot y hash racing _ read := by
    refine .slot y.past [] rfl (by simp) fun above => ?_
    refine Switch.fileSays fits indexed racing.writes racing.order above ?_
    rw [← racing.bin,CanonicalBin.answer,read]
  row y hash racing _ found := by
    refine .row y.past [] rfl ?_
    have rows := racing.rows
    unfold RowAt
    split
    · rename_i early
      rw [if_pos early] at rows
      rw [← rows]
      exact found
    · rename_i later
      rw [if_neg later] at rows
      rw [← rows]
      exact found
  keeps _ _ _ fresh later := fresh.along later
  put y hash racing _ fresh orderly :=
    ⟨carries (racing.put (.inl reader) fun above => fresh.may fits reader orderly above)
      (.inr (Store.insertHeightRest y.now h hash)),trivial⟩

end Reader

end Race

end Switch
end DigBlockstore
