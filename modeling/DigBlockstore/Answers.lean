import DigBlockstore.Seats

/-! A agreed store's lookups by height and its record reads, run forward: what they answer
and that they only move and add cache entries. -/
namespace DigBlockstore
open ByteCodec Faulty ColumnStore
namespace Store
variable {crates : Crates} {s t u : Store}

/- The lookup tiers agree with `CF_CANONICAL`. -/
structure Agreed (s : Store) : Prop where
  indexed : Indexed s
  coherent : Coherent s
  seated : Seated s

theorem Quiet.agreed (quiet : Quiet s t) (agreed : Agreed s) : Agreed t :=
  ⟨quiet.indexed agreed.indexed,quiet.coherent agreed.indexed agreed.coherent,quiet.seated agreed.seated⟩

theorem Quiet.canonicalAnswer (quiet : Quiet s t) (height : UInt64) : t.canonicalAnswer height = s.canonicalAnswer height := by
  rw [Store.canonicalAnswer,quiet.floor,quiet.canonicalAt,Store.canonicalAnswer]

theorem Quiet.representable (quiet : Quiet s t) {height : UInt64} : t.Representable height ↔ s.Representable height := by
  rw [Store.Representable,quiet.bin,quiet.floor,Store.Representable]

theorem canonicalAnswerAbove {height : UInt64} (above : s.minRetainedHeightCached ≤ height) :
    s.canonicalAnswer height = canonicalAt s.db height := if_neg (UInt64.not_lt.mpr above)

theorem canonicalAnswerBelow {height : UInt64} (below : height < s.minRetainedHeightCached) :
    s.canonicalAnswer height = none := if_pos below

section Lookups

theorem lookupRow (crates : Crates) (agreed : Agreed s) {height : UInt64} (fits : s.Representable height)
    (script : List Event) : ∃ t, Touched crates s t ∧ Warmed s t ∧
      getHashByHeight height ⟨s,script⟩ = (.ok (s.canonicalAnswer height),⟨t,script⟩) := by
  obtain ⟨t,touched,ran⟩ := lookupAnswers crates agreed.indexed fits.answerable script
  rw [coherentAnswer agreed.indexed agreed.coherent] at ran
  exact ⟨t,touched,withinLookup height s _ t ⟨script,script,ran⟩,ran⟩

theorem lookupPast (agreed : Agreed s) {height : UInt64} (past : ¬s.Representable height) (script : List Event) :
    (getHashByHeight height ⟨s,script⟩).1 = .error (.panic "canonical.bin slot end overflows usize") :=
  lookupPanics agreed.indexed (fun asked => past ((answerableIff agreed.coherent agreed.seated height).mp asked)) script

theorem lookupAnswered (crates : Crates) (agreed : Agreed s) {height : UInt64} {found : Option Bytes32}
    {script : List Event} : (getHashByHeight height ⟨s,script⟩).1 = .ok found ↔
      s.Representable height ∧ found = s.canonicalAnswer height := by
  by_cases fits : s.Representable height
  · obtain ⟨t,_,_,ran⟩ := lookupRow crates agreed fits script
    rw [ran]
    constructor
    · intro answers
      exact ⟨fits,(Except.ok.inj answers).symm⟩
    · rintro ⟨_,rfl⟩
      rfl
  · rw [lookupPast agreed fits]
    constructor
    · intro answers
      cases answers
    · exact fun both => absurd both.1 fits

theorem collectRows (crates : Crates) (agreed : Agreed s) (heights : List UInt64) (script : List Event) :
    ∃ t, Touched crates s t ∧ Warmed s t ∧
      ((∀ h ∈ heights, s.Representable h) ∧
        Op.collect getHashByHeight heights ⟨s,script⟩ = (.ok (heights.map s.canonicalAnswer),⟨t,script⟩) ∨
      (∃ h ∈ heights, ¬s.Representable h) ∧ ∃ message,
        (Op.collect getHashByHeight heights ⟨s,script⟩).1 = .error (.panic message)) := by
  induction heights generalizing s with
  | nil => exact ⟨s,.refl s,rfl,.inl ⟨by simp,rfl⟩⟩
  | cons height rest ih =>
    by_cases fits : s.Representable height
    · obtain ⟨u,touched,warmed,ran⟩ := lookupRow crates agreed fits script
      obtain ⟨t,touched',warmed',outcome⟩ := ih (touched.quiet.agreed agreed)
      refine ⟨t,touched.trans touched',trans_of Warmed warmed warmed',?_⟩
      have answers : u.canonicalAnswer = s.canonicalAnswer := funext touched.quiet.canonicalAnswer
      rcases outcome with ⟨all,later⟩ | ⟨⟨h,mem,past⟩,message,later⟩
      · refine .inl ⟨?_,?_⟩
        · rw [List.forall_mem_cons]
          exact ⟨fits,fun h mem => touched.quiet.representable.mp (all h mem)⟩
        · simp only [Op.collect,bind,Op.bind,ran,later,answers]
          rfl
      · refine .inr ⟨⟨h,List.mem_cons_of_mem _ mem,fun here => past (touched.quiet.representable.mpr here)⟩,message,?_⟩
        rw [Op.collect,bindOk _ ran]
        exact bindError _ later
    · exact ⟨s,.refl s,rfl,.inr ⟨⟨height,by simp,fits⟩,_,bindError _ (lookupPast agreed fits script)⟩⟩

theorem collectCanonicalRows (crates : Crates) (agreed : Agreed s) {heights : List UInt64}
    (fits : ∀ h ∈ heights, s.Representable h) (script : List Event) :
    ∃ t, Touched crates s t ∧ Warmed s t ∧
      collectCanonical heights ⟨s,script⟩ = (.ok (heights.filterMap s.canonicalAnswer),⟨t,script⟩) := by
  obtain ⟨t,touched,warmed,⟨_,ran⟩ | ⟨⟨h,mem,past⟩,_⟩⟩ := collectRows crates agreed heights script
  · refine ⟨t,touched,warmed,?_⟩
    simp only [collectCanonical,bind,Op.bind,ran]
    rw [List.filterMap_map]
    rfl
  · exact absurd (fits h mem) past

theorem collectCanonicalPast (crates : Crates) (agreed : Agreed s) {heights : List UInt64} {h : UInt64} (mem : h ∈ heights)
    (past : ¬s.Representable h) (script : List Event) :
    ∃ message, (collectCanonical heights ⟨s,script⟩).1 = .error (.panic message) := by
  obtain ⟨t,_,_,⟨fits,_⟩ | ⟨_,message,ran⟩⟩ := collectRows crates agreed heights script
  · exact absurd (fits h mem) past
  · exact ⟨message,bindError _ ran⟩

end Lookups

section Records

def recordAt (crates : Crates) (s : Store) (hash : Bytes32) : Option BlockRecord :=
  match s.recordCache hash with
  | some record => some record
  | none =>
      match s.headerCache.peek hash with
      | some header => some (.fromHeader crates header .validated)
      | none => (s.headerAt crates hash).map fun header => .fromHeader crates header .validated

def Reads (crates : Crates) (s : Store) (hash : Bytes32) : Prop :=
  (s.db .headers)[hashKey hash]?.isSome → (s.headerAt crates hash).isSome

theorem getRecordAnswers {hash : Bytes32} (reads : s.Reads crates hash) (script : List Event) :
    ∃ t, Touched crates s t ∧ t.canonicalHeightCache = s.canonicalHeightCache ∧
      getRecord crates hash ⟨s,script⟩ = (.ok (s.recordAt crates hash),⟨t,script⟩) := by
  have ran : ∃ t, getRecord crates hash ⟨s,script⟩ = (.ok (s.recordAt crates hash),⟨t,script⟩) := by
    simp only [getRecord,bind,Op.bind,Op.get,recordAt]
    cases s.recordCache hash with
    | some record => exact ⟨_,rfl⟩
    | none =>
      simp only [ShardedLruCache.getClone]
      cases s.headerCache.peek hash with
      | some header => exact ⟨_,rfl⟩
      | none =>
        cases row : (s.db .headers)[hashKey hash]? with
        | none =>
          refine ⟨s.promoteHeader hash,?_⟩
          simp only [headerAt,row,Option.bind_none,Option.map_none]
          rfl
        | some raw =>
          obtain ⟨header,decoded⟩ := Option.isSome_iff_exists.mp (reads (by rw [row]; rfl))
          have read : deserializeHeader crates raw = .ok header := by
            rw [headerAt,row,Option.bind_some] at decoded
            cases packed : deserializeHeader crates raw with
            | error e => rw [packed] at decoded; cases decoded
            | ok found =>
              rw [packed] at decoded
              cases decoded
              rfl
          refine ⟨((s.promoteHeader hash).cacheHeader hash header).cacheRecord hash (.fromHeader crates header .validated),?_⟩
          simp only [decoded,read,Option.map_some]
          rfl
  obtain ⟨t,same⟩ := ran
  obtain ⟨touched,cache,_⟩ := getRecordRuns ⟨script,script,same⟩
  exact ⟨t,touched,cache,same⟩

end Records

end Store

theorem agreedOf {crates : Crates} {s : Store} (reached : Reaches crates s) (coherent : s.Coherent) : s.Agreed :=
  ⟨(reachesSeated reached).1,coherent,(reachesSeated reached).2⟩

end DigBlockstore
