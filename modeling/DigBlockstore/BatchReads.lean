import DigBlockstore.ReadEffects

/-! The batch read answers what the single reads answer. The misses of the first loop are
the indices the second one fills, so both loops are followed along one suffix of the hashes. -/
namespace DigBlockstore
open ByteCodec Faulty
namespace Store
variable {crates : Crates} {s t u : Store}

/- What a point read answers: the cached block, the decoded row, or nothing. -/
def blockAnswer (crates : Crates) (s : Store) (hash : Bytes32) : Exit (Option L2Block) :=
  match s.blockCache.peek hash with
  | some block => .ok (some block)
  | none =>
      match (s.db .blocks)[hashKey hash]? with
      | none => .ok none
      | some raw =>
          match s.deserializeBlock crates raw with
          | .ok block => .ok (some block)
          | .error e => .error (.error e)

theorem getBlockAnswers (crates : Crates) (hash : Bytes32) (s : Store) (script : List Event) :
    (getBlock crates hash ⟨s,script⟩).1 = s.blockAnswer crates hash := by
  simp only [getBlock,bind,Op.bind,Op.get,Op.modify,blockAnswer,ShardedLruCache.getClone]
  cases s.blockCache.peek hash with
  | some block => rfl
  | none =>
    cases (s.db .blocks)[hashKey hash]? with
    | none => rfl
    | some raw =>
      dsimp only
      cases s.deserializeBlock crates raw <;> rfl

structure Probed (s t : Store) : Prop where
  peek : ∀ hash, t.blockCache.peek hash = s.blockCache.peek hash
  rest : t = {s with blockCache := t.blockCache}

theorem Probed.promote (hash : Bytes32) : Probed s (s.promoteBody hash) :=
  ⟨fun other => ShardedLruCache.peekGetClone s.blockCache hash other,rfl⟩

theorem Probed.trans (first : Probed s t) (later : Probed t u) : Probed s u where
  peek hash := (later.peek hash).trans (first.peek hash)
  rest := by
    rw [later.rest,first.rest]

def missing (hit : Bytes32 → Option L2Block) (rows : List (Bytes32 × Nat)) : List Nat :=
  (rows.filter fun row => (hit row.1).isNone).map Prod.snd

theorem setMiddle {α : Type} (done later : List α) (a b : α) :
    (done ++ a :: later).set done.length b = done ++ b :: later := by
  rw [List.set_append_right _ _ (Nat.le_refl _),Nat.sub_self,List.set_cons_zero]

theorem appendMiddle {α : Type} (done later : List α) (a : α) : done ++ a :: later = (done ++ [a]) ++ later := by
  rw [List.append_assoc,List.singleton_append]

theorem probeAnswers (rest : List Bytes32) (done : List (Option L2Block)) (misses : List Nat) (script : List Event)
    {hit : Bytes32 → Option L2Block} (here : ∀ hash, s.blockCache.peek hash = hit hash) :
    ∃ t, Probed s t ∧
      probeBlocks (rest.zipIdx done.length) (done ++ List.replicate rest.length none) misses ⟨s,script⟩ =
        (.ok (done ++ rest.map hit,misses ++ missing hit (rest.zipIdx done.length)),⟨t,script⟩) := by
  induction rest generalizing s done misses with
  | nil => exact ⟨s,⟨fun _ => rfl,rfl⟩,by simp [probeBlocks,missing]; rfl⟩
  | cons hash rest ih =>
    have kept : ∀ other, (s.promoteBody hash).blockCache.peek other = hit other := fun other =>
      ((Probed.promote hash).peek other).trans (here other)
    rw [List.zipIdx_cons,List.length_cons,List.replicate_succ,List.map_cons]
    cases found : hit hash with
    | some block =>
      obtain ⟨t,probed,ran⟩ := ih (done ++ [some block]) misses kept
      refine ⟨t,(Probed.promote hash).trans probed,?_⟩
      have step : probeBlocks ((hash,done.length) :: rest.zipIdx (done.length + 1))
          (done ++ none :: List.replicate rest.length none) misses ⟨s,script⟩ =
          probeBlocks (rest.zipIdx (done.length + 1))
            ((done ++ none :: List.replicate rest.length none).set done.length (some block)) misses
            ⟨s.promoteBody hash,script⟩ := by
        simp only [probeBlocks,bind,Op.bind,Op.get,Op.modify,ShardedLruCache.getClone,here,found]
      have skip : missing hit ((hash,done.length) :: rest.zipIdx (done.length + 1)) =
          missing hit (rest.zipIdx (done.length + 1)) := by simp [missing,found]
      rw [step,setMiddle,appendMiddle done (List.replicate rest.length none),skip]
      rw [List.length_append,List.length_singleton] at ran
      rw [ran,appendMiddle done (rest.map hit)]
    | none =>
      obtain ⟨t,probed,ran⟩ := ih (done ++ [none]) (misses ++ [done.length]) kept
      refine ⟨t,(Probed.promote hash).trans probed,?_⟩
      have step : probeBlocks ((hash,done.length) :: rest.zipIdx (done.length + 1))
          (done ++ none :: List.replicate rest.length none) misses ⟨s,script⟩ =
          probeBlocks (rest.zipIdx (done.length + 1)) (done ++ none :: List.replicate rest.length none)
            (misses ++ [done.length]) ⟨s.promoteBody hash,script⟩ := by
        simp only [probeBlocks,bind,Op.bind,Op.get,Op.modify,ShardedLruCache.getClone,here,found]
      have take : missing hit ((hash,done.length) :: rest.zipIdx (done.length + 1)) =
          done.length :: missing hit (rest.zipIdx (done.length + 1)) := by simp [missing,found]
      rw [step,appendMiddle done (List.replicate rest.length none),take]
      rw [List.length_append,List.length_singleton] at ran
      rw [ran,appendMiddle done (rest.map hit),appendMiddle misses (missing hit (rest.zipIdx (done.length + 1)))]

def missedRows (s : Store) (hashes : List Bytes32) (misses : List Nat) : List (Option Bytes × Nat) :=
  misses.map fun idx => ((s.db .blocks)[hashKey (hashes.getD idx Bytes32.zero)]?,idx)

theorem multiGetZip (s : Store) (hashes : List Bytes32) (misses : List Nat) :
    (s.multiGet .blocks (misses.map fun idx => hashKey (hashes.getD idx Bytes32.zero))).zip misses =
      s.missedRows hashes misses := by
  induction misses with
  | nil => rfl
  | cons idx rest ih =>
    simp only [multiGet,missedRows,List.map_cons,List.zip_cons_cons] at ih ⊢
    rw [ih]

def allAnswers (answer : Bytes32 → Exit (Option L2Block)) : List Bytes32 → Exit (List (Option L2Block))
  | [] => .ok []
  | hash :: rest => do
      let found ← answer hash
      let later ← allAnswers answer rest
      pure (found :: later)

theorem answersNext {answer : Bytes32 → Exit (Option L2Block)} {hash : Bytes32} {found : Option L2Block}
    (one : answer hash = .ok found) (rest : List Bytes32) (done : List (Option L2Block)) :
    (allAnswers answer (hash :: rest)).map (done ++ ·) = (allAnswers answer rest).map ((done ++ [found]) ++ ·) := by
  rw [allAnswers,one]
  cases allAnswers answer rest with
  | ok later => exact congrArg Except.ok (appendMiddle done later found)
  | error e => rfl

theorem loadAnswers (hashes : List Bytes32) (front rest : List Bytes32) (done : List (Option L2Block))
    (script : List Event) (split : hashes = front ++ rest) (placed : done.length = front.length)
    (rows : u.db = s.db) (decodes : ∀ raw, u.deserializeBlock crates raw = s.deserializeBlock crates raw) :
    ∃ t, loadMissing crates hashes
        (s.missedRows hashes (missing s.blockCache.peek (rest.zipIdx done.length)))
        (done ++ rest.map s.blockCache.peek) ⟨u,script⟩ =
      ((allAnswers (s.blockAnswer crates) rest).map (done ++ ·),⟨t,script⟩) := by
  induction rest generalizing u front done with
  | nil => exact ⟨u,rfl⟩
  | cons hash rest ih =>
    have own : hashes.getD done.length Bytes32.zero = hash := by
      rw [split,placed,List.getD_eq_getElem?_getD,List.getElem?_append_right (Nat.le_refl _),Nat.sub_self]
      rfl
    have next : hashes = (front ++ [hash]) ++ rest := by rw [split,appendMiddle]
    have longer : ∀ found : Option L2Block, (done ++ [found]).length = (front ++ [hash]).length := by
      intro found
      rw [List.length_append,List.length_append,placed]
      rfl
    rw [List.zipIdx_cons,List.map_cons]
    cases cached : s.blockCache.peek hash with
    | some block =>
      have answered : s.blockAnswer crates hash = .ok (some block) := by rw [blockAnswer,cached]
      have skip : missing s.blockCache.peek ((hash,done.length) :: rest.zipIdx (done.length + 1)) =
          missing s.blockCache.peek (rest.zipIdx (done.length + 1)) := by simp [missing,cached]
      obtain ⟨t,ran⟩ := ih (front ++ [hash]) (done ++ [some block]) next (longer _) rows decodes
      rw [List.length_append,List.length_singleton] at ran
      refine ⟨t,?_⟩
      rw [skip,appendMiddle done (rest.map s.blockCache.peek),ran,answersNext answered]
    | none =>
      have take : s.missedRows hashes (missing s.blockCache.peek ((hash,done.length) :: rest.zipIdx (done.length + 1))) =
          ((s.db .blocks)[hashKey hash]?,done.length) ::
            s.missedRows hashes (missing s.blockCache.peek (rest.zipIdx (done.length + 1))) := by
        simp only [missing,missedRows,List.filter_cons,cached,Option.isNone_none,if_true,List.map_cons,own]
      rw [take]
      cases row : (s.db .blocks)[hashKey hash]? with
      | none =>
        have answered : s.blockAnswer crates hash = .ok none := by rw [blockAnswer,cached,row]
        obtain ⟨t,ran⟩ := ih (front ++ [hash]) (done ++ [none]) next (longer _) rows decodes
        rw [List.length_append,List.length_singleton] at ran
        refine ⟨t,?_⟩
        rw [appendMiddle done (rest.map s.blockCache.peek),loadMissing,ran,answersNext answered]
      | some raw =>
        cases decoded : s.deserializeBlock crates raw with
        | error e =>
          refine ⟨u,?_⟩
          simp only [loadMissing,bind,Op.bind,Op.get,decodes,decoded,allAnswers,blockAnswer,cached,row]
          rfl
        | ok block =>
          have answered : s.blockAnswer crates hash = .ok (some block) := by simp only [blockAnswer,cached,row,decoded]
          have rows' : ((u.cacheBody hash block).cacheHeader hash block.header).db = s.db := rows
          obtain ⟨t,ran⟩ := ih (front ++ [hash]) (done ++ [some block]) next (longer _) rows' decodes
          rw [List.length_append,List.length_singleton,← appendMiddle] at ran
          have step : loadMissing crates hashes ((some raw,done.length) ::
                s.missedRows hashes (missing s.blockCache.peek (rest.zipIdx (done.length + 1))))
              (done ++ none :: rest.map s.blockCache.peek) ⟨u,script⟩ =
              loadMissing crates hashes (s.missedRows hashes (missing s.blockCache.peek (rest.zipIdx (done.length + 1))))
                (done ++ some block :: rest.map s.blockCache.peek)
                ⟨(u.cacheBody hash block).cacheHeader hash block.header,script⟩ := by
            simp only [loadMissing,bind,Op.bind,Op.get,decodes,decoded,own,setMiddle]
            rfl
          refine ⟨t,step.trans ?_⟩
          rw [ran,answersNext answered]

theorem getBlocksByHashAnswers (hashes : List Bytes32) (s : Store) (script : List Event) :
    ∃ t, getBlocksByHash crates hashes ⟨s,script⟩ = (allAnswers (s.blockAnswer crates) hashes,⟨t,script⟩) := by
  obtain ⟨u,probed,ran⟩ := probeAnswers (s := s) hashes [] [] script fun _ => rfl
  have rows : u.db = s.db := by rw [probed.rest]
  have decodes : ∀ raw, u.deserializeBlock crates raw = s.deserializeBlock crates raw := fun raw => by
    rw [probed.rest]
    rfl
  obtain ⟨t,loaded⟩ := @loadAnswers crates s u hashes [] hashes [] script rfl rfl rows decodes
  simp only [List.nil_append,List.length_nil] at ran loaded
  have whole : (allAnswers (s.blockAnswer crates) hashes).map (fun later => later) =
      allAnswers (s.blockAnswer crates) hashes := by
    cases allAnswers (s.blockAnswer crates) hashes <;> rfl
  rw [whole] at loaded
  simp only [getBlocksByHash,bind,Op.bind,ran]
  split
  · rename_i none
    rw [List.isEmpty_iff.mp none] at loaded
    exact ⟨t,loaded⟩
  · refine ⟨t,?_⟩
    simp only [multiGetZip]
    have same : ∀ misses, u.missedRows hashes misses = s.missedRows hashes misses := fun misses => by
      rw [missedRows,rows,missedRows]
    rw [← loaded,← same]
    rfl

theorem allAnswersOk {answer : Bytes32 → Exit (Option L2Block)} {hashes : List Bytes32} {blocks : List (Option L2Block)} :
    allAnswers answer hashes = .ok blocks ↔ List.Forall₂ (fun hash found => answer hash = .ok found) hashes blocks := by
  induction hashes generalizing blocks with
  | nil =>
    rw [List.forall₂_nil_left_iff]
    exact ⟨fun h => (Except.ok.inj h).symm,fun h => h ▸ rfl⟩
  | cons hash rest ih =>
    rw [List.forall₂_cons_left_iff,allAnswers]
    cases one : answer hash with
    | error e =>
      constructor
      · intro h
        cases h
      · rintro ⟨found,_,bad,_⟩
        cases bad
    | ok found =>
      cases more : allAnswers answer rest with
      | error e =>
        constructor
        · intro h
          cases h
        · rintro ⟨_,later,_,rows,_⟩
          rw [ih.mpr rows] at more
          cases more
      | ok later =>
        constructor
        · intro h
          cases h
          exact ⟨found,later,rfl,ih.mp more,rfl⟩
        · rintro ⟨_,later',same,rows,rfl⟩
          cases same
          rw [ih.mpr rows] at more
          cases more
          rfl

theorem allAnswersDefined {answer : Bytes32 → Exit (Option L2Block)} {hashes : List Bytes32} :
    (∃ blocks, allAnswers answer hashes = .ok blocks) ↔ ∀ hash ∈ hashes, ∃ found, answer hash = .ok found := by
  simp only [allAnswersOk]
  induction hashes with
  | nil => exact ⟨fun _ hash mem => absurd mem List.not_mem_nil,fun _ => ⟨[],.nil⟩⟩
  | cons hash rest ih =>
    rw [List.forall_mem_cons,← ih]
    constructor
    · rintro ⟨_,rows⟩
      obtain ⟨found,later,one,more,rfl⟩ := List.forall₂_cons_left_iff.mp rows
      exact ⟨⟨found,one⟩,later,more⟩
    · rintro ⟨⟨found,one⟩,later,more⟩
      exact ⟨found :: later,.cons one more⟩

/- Every cached block is the decoding of its row. -/
def Decoded (crates : Crates) (s : Store) : Prop :=
  ∀ hash block, s.blockCache.peek hash = some block → s.bodyAt crates hash = some block

theorem Touched.decoded (touched : Touched crates s t) (decoded : Decoded crates s) : Decoded crates t := by
  intro hash block held
  rw [touched.bodyAt]
  rcases touched.bodies hash block held with older | row
  · exact decoded hash block older
  · exact row

end Store

/- On any store a batch read answers exactly when every point read does, and then with their
answers in the order asked for; no row changes and no cached block goes astray. -/
theorem batchReads (crates : Crates) (s : Store) (hashes : List Bytes32) (script : List Event) :
    ∃ r t, Store.getBlocksByHash crates hashes ⟨s,script⟩ = (r,⟨t,script⟩) ∧
      ((∃ blocks, r = .ok blocks) ↔ ∀ hash ∈ hashes, ∃ found, (Store.getBlock crates hash ⟨s,script⟩).1 = .ok found) ∧
      (∀ blocks, r = .ok blocks → List.Forall₂
        (fun hash found => (Store.getBlock crates hash ⟨s,script⟩).1 = .ok found) hashes blocks) ∧
      t.db = s.db ∧ (s.Decoded crates → t.Decoded crates) := by
  obtain ⟨t,ran⟩ := @Store.getBlocksByHashAnswers crates hashes s script
  have touched : Store.Touched crates s t := Store.getBlocksByHashTouched ⟨script,script,ran⟩
  refine ⟨_,t,ran,?_,?_,touched.db,touched.decoded⟩
  · simp only [Store.getBlockAnswers]
    exact Store.allAnswersDefined
  · simp only [Store.getBlockAnswers]
    exact fun blocks => Store.allAnswersOk.mp

end DigBlockstore
