import DigBlockstore.Steps
import DigBlockstore.RowFrames

/-! Rules for the steps that only read, or only move cache entries kept by hash, and for a lookup
by height among other procedures. -/
namespace DigBlockstore
open ByteCodec Faulty

def Access.silent : Access → Bool
  | .tipRead _ | .rowRead .. | .heightRead _ | .slotRead .. | .other | .fault => true
  | _ => false

section Lock
variable {ι : Type} [DecidableEq ι]

/- A slot found is read under the file's read lock, and the lookup keeps it until its put is done. -/
def Access.keepsLock : Access → Bool
  | .slotRead _ (some _) => true
  | _ => false

def Access.writesFile : Access → Bool
  | .cut _ | .slotWrite .. => true
  | _ => false

/- While a procedure that keeps the read lock has not gone on, no one writes the file. -/
def FileLocked : List (ι × Access) → Prop
  | [] => True
  | e :: rest => (e.2.keepsLock = true → ∀ d ∈ rest.takeWhile (fun d => d.1 ≠ e.1), d.2.writesFile = false) ∧ FileLocked rest

instance fileLockedDecidable : (past : List (ι × Access)) → Decidable (FileLocked past)
  | [] => .isTrue trivial
  | _ :: rest => @instDecidableAnd _ _ _ (fileLockedDecidable rest)

theorem memTakeWhileAppend {α : Type} {p : α → Bool} {l more : List α} {x : α} (mem : x ∈ l.takeWhile p) :
    x ∈ (l ++ more).takeWhile p := by
  induction l with
  | nil => cases mem
  | cons y rest ih =>
    rw [List.cons_append,List.takeWhile_cons]
    rw [List.takeWhile_cons] at mem
    split at mem
    · rename_i passes
      rw [if_pos passes,List.mem_cons]
      exact (List.mem_cons.mp mem).imp_right ih
    · cases mem

theorem FileLocked.shorter {past : List (ι × Access)} {e : ι × Access} (locked : FileLocked (past ++ [e])) :
    FileLocked past := by
  induction past with
  | nil => trivial
  | cons d rest ih => exact ⟨fun keeps other mem => locked.1 keeps other (memTakeWhileAppend mem),ih locked.2⟩

theorem FileLocked.between {before between : List (ι × Access)} {i : ι} {access : Access}
    (locked : FileLocked (before ++ (i,access) :: between)) (keeps : access.keepsLock = true)
    (others : ∀ e ∈ between, e.1 ≠ i) : ∀ e ∈ between, e.2.writesFile = false := by
  induction before with
  | nil =>
    intro e mem
    refine locked.1 keeps e ?_
    rwa [List.takeWhile_eq_self_iff.mpr fun d inside => decide_eq_true (others d inside)]
  | cons d rest ih => exact ih locked.2

end Lock

namespace Store
variable {crates : Crates} {s t : Store}

def Shelved (s t : Store) : Prop := t = {s with
  recordCache := t.recordCache
  blockCache := t.blockCache
  headerCache := t.headerCache
  hashToHeightCache := t.hashToHeightCache}

def Idles (s : Store) (access : Access) (t : Store) : Prop := access.silent = true ∧ Shelved s t

theorem doesLabel {α : Type} {access : Access} {m : StoreM α} (quiet : access.silent = true) (s : Store) :
    (if (m ⟨s,[]⟩).1.isOk then access else .fault).silent = true := by
  split
  · exact quiet
  · rfl

theorem movesDoes {α : Type} {access : Access} {m : StoreM α} (quiet : access.silent = true)
    (here : ∀ s, ∃ r t, Clean m s r t ∧ Shelved s t) : (does (fun _ => access) m).Moves Idles :=
  movesAtom fun s => by
    obtain ⟨r,t,ran,shelved⟩ := here s
    exact ⟨r,t,ran,doesLabel quiet s,shelved⟩

theorem cleanAsk {α : Type} (f : Store → α) (s : Store) : Clean (ask f) s (.ok (f s)) s := rfl

theorem movesAsk {α : Type} {access : Access} (quiet : access.silent = true) (f : Store → α) :
    (does (fun _ => access) (ask f)).Moves Idles :=
  movesDoes quiet fun s => ⟨_,s,cleanAsk f s,rfl⟩

theorem movesModify {f : Store → Store} (shelved : ∀ s, Shelved s (f s)) : (other (Op.modify f)).Moves Idles :=
  movesDoes rfl fun s => ⟨_,_,cleanModify f s,shelved s⟩

theorem movesOfExcept {α : Type} (x : Except BlockStoreError α) : (Proc.ofExcept x : Steps α).Moves Idles := by
  cases x <;> trivial

theorem getRecordMoves (hash : Bytes32) : (getRecordSteps crates hash).Moves Idles := by
  refine (movesAsk rfl _).bind fun held => ?_
  cases held with
  | some record => trivial
  | none =>
    have probe : (other (do
        let s ← Op.get
        Op.modify (promoteHeader hash)
        pure (s.headerCache.getClone hash).1)).Moves Idles := movesDoes rfl fun s => ⟨_,s.promoteHeader hash,rfl,rfl⟩
    refine probe.bind fun cached => ?_
    cases cached with
    | some header => exact .bind (movesModify fun _ => rfl) fun _ => trivial
    | none =>
      refine (movesAsk rfl _).bind fun row => ?_
      cases row with
      | none => trivial
      | some bytes =>
        exact .bind (movesOfExcept _) fun header => .bind (movesModify fun _ => rfl) fun _ =>
          .bind (movesModify fun _ => rfl) fun _ => trivial

theorem getRecordOrMissingMoves (hash : Bytes32) : (getRecordOrMissingSteps crates hash).Moves Idles := by
  refine (getRecordMoves hash).bind fun found => ?_
  cases found <;> trivial

theorem refuseMoves (message : String) : (other (refuseReadOnly message)).Moves Idles := by
  refine movesDoes rfl fun s => ?_
  cases writes : s.readOnly with
  | false => exact ⟨_,s,refuseReadOnlyClean message writes,rfl⟩
  | true =>
    refine ⟨.error (.error (.serialization message)),s,?_,rfl⟩
    change (if s.readOnly then _ else _ : StoreM Unit) ⟨s,[]⟩ = _
    rw [if_pos writes]
    rfl

section Rules
variable {ι α β : Type} {allow : List (ι × Access) → Prop} {inv : Scene ι Access Store → Prop}
  {rely : ι → Scene ι Access Store → Scene ι Access Store → Prop} {i : ι}
  {post : Exit α → Scene ι Access Store → Prop} {x : Scene ι Access Store}

/- What a step leaves keeps the invariant and what the others rely on. -/
def Carries (inv : Scene ι Access Store → Prop) (rely : ι → Scene ι Access Store → Scene ι Access Store → Prop) (i : ι)
    (y z : Scene ι Access Store) : Prop := inv z ∧ ∀ j, j ≠ i → rely j y z

theorem doesOk {access : Store → Access} {m : StoreM β} {s t : Store} {b : β} (ran : Clean m s (.ok b) t) :
    (if (m ⟨s,[]⟩).1.isOk then access s else Access.fault) = access s := by
  rw [show m ⟨s,[]⟩ = _ from ran]
  rfl

theorem doesError {access : Store → Access} {m : StoreM β} {s t : Store} {e : Stop BlockStoreError}
    (ran : Clean m s (.error e) t) : (if (m ⟨s,[]⟩).1.isOk then access s else Access.fault) = .fault := by
  rw [show m ⟨s,[]⟩ = _ from ran]
  rfl

theorem safeDoes {access : Store → Access} {m : StoreM β} {next : β → Steps α}
    (step : ∀ y, rely i x y → inv y → ∃ r t, Clean m y.now r t ∧
      (∀ b, r = .ok b → allow (y.past ++ [(i,access y.now)]) → Carries inv rely i y (y.next i (access y.now) t) ∧
        (next b).Safe allow inv rely i post (y.next i (access y.now) t)) ∧
      ∀ e, r = .error e → allow (y.past ++ [(i,.fault)]) → Carries inv rely i y (y.next i .fault t) ∧
        ∀ z, rely i (y.next i .fault t) z → inv z → post (.error e) z) :
    (does access m >>= next).Safe allow inv rely i post x := by
  refine safeAct fun y later here => ?_
  obtain ⟨r,t,ran,ok,failed⟩ := step y later here
  cases r with
  | ok b =>
    refine ⟨.ok b,t,access y.now,ran,doesOk ran,fun allowed => ?_⟩
    obtain ⟨kept,safe⟩ := ok b rfl allowed
    exact ⟨kept.1,kept.2,fun b' same => by cases same; exact safe,fun e bad => by cases bad⟩
  | error e =>
    refine ⟨.error e,t,.fault,ran,doesError ran,fun allowed => ?_⟩
    obtain ⟨kept,ends⟩ := failed e rfl allowed
    exact ⟨kept.1,kept.2,fun b bad => by (cases bad),fun e' same => by cases same; exact ends⟩

theorem safeReturns {access : Store → Access} {m : StoreM β} {next : β → Steps α}
    (step : ∀ y, rely i x y → inv y → ∃ b t, Clean m y.now (.ok b) t ∧ (allow (y.past ++ [(i,access y.now)]) →
      Carries inv rely i y (y.next i (access y.now) t) ∧ (next b).Safe allow inv rely i post (y.next i (access y.now) t))) :
    (does access m >>= next).Safe allow inv rely i post x :=
  safeDoes fun y later here => by
    obtain ⟨b,t,ran,on⟩ := step y later here
    exact ⟨.ok b,t,ran,fun b' same => by cases same; exact on,fun e bad => by cases bad⟩

theorem safeAsk {access : Store → Access} {f : Store → β} {next : β → Steps α}
    (step : ∀ y, rely i x y → inv y → allow (y.past ++ [(i,access y.now)]) →
      Carries inv rely i y (y.next i (access y.now) y.now) ∧
        (next (f y.now)).Safe allow inv rely i post (y.next i (access y.now) y.now)) :
    (does access (ask f) >>= next).Safe allow inv rely i post x :=
  safeReturns fun y later here => ⟨f y.now,y.now,cleanAsk f y.now,step y later here⟩

theorem safeModify {access : Store → Access} {f : Store → Store} {next : Unit → Steps α}
    (step : ∀ y, rely i x y → inv y → allow (y.past ++ [(i,access y.now)]) →
      Carries inv rely i y (y.next i (access y.now) (f y.now)) ∧
        (next ()).Safe allow inv rely i post (y.next i (access y.now) (f y.now))) :
    (does access (Op.modify f) >>= next).Safe allow inv rely i post x :=
  safeReturns fun y later here => ⟨(),f y.now,cleanModify f y.now,step y later here⟩

theorem cleanLook (f : Store → Exit β) (s : Store) : Clean (do
    let s ← Op.get
    Op.lift (f s)) s (f s) s := by
  change Op.lift (f s) ⟨s,[]⟩ = _
  cases f s <;> rfl

/- What a lookup needs of the procedures around it: `fresh` holds of a hash just read from the file
or the rows, and stays true until it is put in the height cache; `phase` is what the caller knows
meanwhile. -/
structure LookupRules (allow : List (ι × Access) → Prop) (inv : Scene ι Access Store → Prop)
    (rely : ι → Scene ι Access Store → Scene ι Access Store → Prop) (i : ι) (h : UInt64)
    (phase : Scene ι Access Store → Prop) (fresh : Bytes32 → Scene ι Access Store → Prop) : Prop where
  stays : ∀ y z, phase y → rely i y z → phase z
  silent : ∀ y label, label.silent = true → inv y → phase y → Carries inv rely i y (y.next i label y.now) ∧
    phase (y.next i label y.now)
  slot : ∀ y hash, inv y → phase y → y.now.canonicalBin.readHashBytes h = .ok (some hash) →
    fresh hash (y.next i (.slotRead h (some hash)) y.now)
  row : ∀ y hash, inv y → phase y → canonicalAt y.now.db h = some hash →
    fresh hash (y.next i (.rowRead .canonical (heightKey h)) y.now)
  keeps : ∀ y z hash, fresh hash y → rely i y z → fresh hash z
  put : ∀ y hash, inv y → phase y → fresh hash y → allow (y.past ++ [(i,.heightPut h hash)]) →
    Carries inv rely i y (y.next i (.heightPut h hash) (y.now.insertCanonicalHeightCache h hash)) ∧
      phase (y.next i (.heightPut h hash) (y.now.insertCanonicalHeightCache h hash))

def Askable (s : Store) (h : UInt64) : Prop := (∃ found, s.canonicalBin.readHashBytes h = .ok found) ∧
  ∀ value, (s.db .canonical)[heightKey h]? = some value → (Bytes32.ofBytes? value).isSome

theorem lookupSafe {h : UInt64} {phase : Scene ι Access Store → Prop} {fresh : Bytes32 → Scene ι Access Store → Prop}
    {fails : Prop} (rules : LookupRules allow inv rely i h phase fresh) (start : phase x)
    (asked : fails ∨ ∀ y, inv y → phase y → Askable y.now h) :
    (getHashByHeightSteps h).Safe allow inv rely i (fun r z => phase z ∧ (fails ∨ ∃ found, r = .ok found)) x := by
  have done : ∀ found x, phase x → (Proc.ret (.ok found) : Steps (Option Bytes32)).Safe allow inv rely i
      (fun r z => phase z ∧ (fails ∨ ∃ found, r = .ok found)) x :=
    fun found x on z later _ => ⟨rules.stays x z on later,.inr ⟨found,rfl⟩⟩
  have fill : ∀ hash x, phase x → fresh hash x → (do
      does (fun _ => .heightPut h hash) (Op.modify (insertCanonicalHeightCache h hash))
      pure (some hash) : Steps (Option Bytes32)).Safe allow inv rely i
        (fun r z => phase z ∧ (fails ∨ ∃ found, r = .ok found)) x :=
    fun hash x on new => safeModify fun y later here allowed => by
      obtain ⟨carries,after⟩ := rules.put y hash here (rules.stays x y on later) (rules.keeps x y hash new later) allowed
      exact ⟨carries,done _ _ after⟩
  refine safeAsk fun y later here _ => ?_
  obtain ⟨carries,on⟩ := rules.silent y .other rfl here (rules.stays x y start later)
  refine ⟨carries,?_⟩
  by_cases low : h < y.now.minRetainedHeightCached
  · rw [if_pos (decide_eq_true low)]
    exact done _ _ on
  · rw [if_neg (by simpa using low)]
    refine safeAsk fun z later here _ => ?_
    obtain ⟨carries,on⟩ := rules.silent z (.heightRead h) rfl here (rules.stays _ z on later)
    refine ⟨carries,?_⟩
    cases z.now.canonicalHeightCache[h]? with
    | some hash => exact done _ _ on
    | none =>
      refine safeDoes fun y later here => ?_
      have on := rules.stays _ y on later
      refine ⟨_,y.now,cleanLook _ y.now,fun found read _ => ?_,fun e read _ => ?_⟩
      · obtain ⟨carries,on'⟩ := rules.silent y (.slotRead h (y.now.canonicalBin.answer h)) rfl here on
        refine ⟨carries,?_⟩
        cases found with
        | some hash =>
          refine fill hash _ on' ?_
          rw [CanonicalBin.answer,read]
          exact rules.slot y hash here on read
        | none =>
          refine safeAsk fun z later here _ => ?_
          have on := rules.stays _ z on' later
          obtain ⟨carries,on'⟩ := rules.silent z (.rowRead .canonical (heightKey h)) rfl here on
          refine ⟨carries,?_⟩
          cases row : (z.now.db .canonical)[heightKey h]? with
          | none => exact done _ _ on'
          | some hashBytes =>
            dsimp only
            cases wide : Bytes32.ofBytes? hashBytes with
            | none =>
              refine fun w later _ => ⟨rules.stays _ w on' later,asked.imp_right fun asked => ?_⟩
              have known := (asked z here on).2 hashBytes row
              rw [wide] at known
              cases known
            | some hash => exact fill hash _ on' (rules.row z hash here on (by rw [canonicalAt,row]; exact wide))
      · obtain ⟨carries,on'⟩ := rules.silent y .fault rfl here on
        refine ⟨carries,fun z later _ => ⟨rules.stays _ z on' later,asked.imp_right fun asked => ?_⟩⟩
        obtain ⟨found,read'⟩ := (asked y here on).1
        rw [read] at read'
        cases read'

end Rules

end Store
end DigBlockstore
