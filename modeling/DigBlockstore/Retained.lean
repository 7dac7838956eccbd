import DigBlockstore.FiledCalls
import DigBlockstore.LinkedSteps

/-! What every call keeps of the blocks from the pruning floor up: their rows come in pairs, and
neither a cache nor the index names one that is not stored. -/
namespace DigBlockstore
open ByteCodec Faulty ColumnStore PartialMap Pipeline Trace
namespace Store
variable {crates : Crates} {s t u : Store} {content content' : Bytes32 → L2BlockHeader}

structure Retains (content : Bytes32 → L2BlockHeader) (s : Store) : Prop where
  paired : ∀ x, s.minRetainedHeightCached ≤ (content x).height → ((s.db .blocks)[hashKey x]?.isSome ↔ s.Stored x)
  cached : ∀ x, s.Mentions x → s.minRetainedHeightCached ≤ (content x).height → s.Stored x
  tiers : ∀ h x, s.minRetainedHeightCached ≤ h → Tier s h x → s.Stored x ∧ (content x).height = h

def Heard (s : Store) (x : Bytes32) : Prop := s.Mentions x ∨ s.Stored x ∨ (s.db .blocks)[hashKey x]?.isSome

theorem Retains.heard (retains : Retains content s) {x : Bytes32} (heard : s.Heard x)
    (above : s.minRetainedHeightCached ≤ (content x).height) : s.Stored x := by
  rcases heard with mentioned | stored | body
  · exact retains.cached x mentioned above
  · exact stored
  · exact (retains.paired x above).mp body

theorem Knows.heard {x : Bytes32} {header : L2BlockHeader} (known : s.Knows crates x header) : s.Heard x := by
  rcases known with cached | row | ⟨block,row,_⟩
  · exact .inl (.inl (by rw [cached]; rfl))
  · obtain ⟨raw,found,_⟩ := Option.bind_eq_some_iff.mp row
    exact .inr (.inl (by rw [Stored,found]; rfl))
  · obtain ⟨raw,found,_⟩ := Option.bind_eq_some_iff.mp row
    exact .inr (.inr (by rw [found]; rfl))

theorem MayRecord.heard {x : Bytes32} {record : BlockRecord} (held : MayRecord crates s x record) : s.Heard x := by
  rcases held with cached | ⟨_,header,known,_⟩
  · exact .inl (.inr (.inr (by rw [cached]; rfl)))
  · exact known.heard

theorem Retains.absent (retains : Retains content s) {x : Bytes32} (absent : (s.db .blocks)[hashKey x]? = none)
    (above : s.minRetainedHeightCached ≤ (content x).height) : ¬s.Stored x := by
  intro stored
  have row := (retains.paired x above).mpr stored
  rw [absent] at row
  cases row

theorem Retains.record (lawful : crates.Lawful) (filed : Filed crates content s) (retains : Retains content s)
    {x : Bytes32} {record : BlockRecord} (held : MayRecord crates s x record)
    (above : s.minRetainedHeightCached ≤ record.height) : s.Stored x ∧ (content x).height = record.height := by
  have height := (filed.mayRecord lawful held).1
  exact ⟨retains.heard held.heard (by rw [← height]; exact above),height.symm⟩

theorem Quiet.tier (quiet : Quiet s t) (indexed : Indexed s) {h : UInt64} {x : Bytes32}
    (above : s.minRetainedHeightCached ≤ h) (tier : Tier t h x) : Tier s h x := by
  rcases tier with cached | row
  · rcases quiet.heights h x above cached with older | stored
    · exact .inl older
    · rw [indexed.stored above] at stored
      exact .inr stored
  · rw [quiet.canonicalAt] at row
    exact .inr row

section Echoes

structure Echoes (s t : Store) : Prop where
  bodies : t.db .blocks = s.db .blocks
  headers : t.db .headers = s.db .headers
  mentions : ∀ x, t.Mentions x → s.Heard x

theorem Echoes.stored (echoes : Echoes s t) (x : Bytes32) : t.Stored x ↔ s.Stored x := by
  rw [Stored,echoes.headers,Stored]

theorem Echoes.heard (echoes : Echoes s t) {x : Bytes32} (heard : t.Heard x) : s.Heard x := by
  rcases heard with mentioned | stored | body
  · exact echoes.mentions x mentioned
  · exact .inr (.inl ((echoes.stored x).mp stored))
  · rw [echoes.bodies] at body
    exact .inr (.inr body)

theorem Echoes.trans (first : Echoes s t) (later : Echoes t u) : Echoes s u where
  bodies := later.bodies.trans first.bodies
  headers := later.headers.trans first.headers
  mentions x mentioned := first.heard (later.mentions x mentioned)

theorem Touched.echoes (touched : Touched crates s t) : Echoes s t where
  bodies := by rw [touched.db]
  headers := by rw [touched.db]
  mentions x mentioned := by
    rcases mentioned with header | body | record
    · obtain ⟨header,found⟩ := Option.isSome_iff_exists.mp header
      exact (touched.headers x header found).heard
    · obtain ⟨block,found⟩ := Option.isSome_iff_exists.mp body
      rcases touched.bodies x block found with cached | row
      · exact .inl (.inr (.inl (by rw [cached]; rfl)))
      · exact Knows.heard (.inr (.inr ⟨block,row,rfl⟩))
    · obtain ⟨record,found⟩ := Option.isSome_iff_exists.mp record
      exact (touched.mayRecord found).heard

theorem Keeps.echoes (keeps : Keeps s t) (columns : ∀ cf, cf = .blocks ∨ cf = .headers → t.db cf = s.db cf) :
    Echoes s t where
  bodies := columns _ (.inl rfl)
  headers := columns _ (.inr rfl)
  mentions _ mentioned := .inl (keeps.mentions mentioned)

theorem Echoes.retains {index : UInt64 → Option Bytes32} {head : Option ChainTip} {kept : UInt64 → Prop}
    (echoes : Echoes s t) (shift : Shift s t index head s.minRetainedHeightCached kept) (retains : Retains content s)
    (fresh : ∀ h x, s.minRetainedHeightCached ≤ h → index h = some x →
      canonicalAt s.db h = some x ∨ s.Stored x ∧ (content x).height = h) : Retains content t where
  paired x above := by
    rw [shift.floor] at above
    rw [echoes.bodies,echoes.stored]
    exact retains.paired x above
  cached x mentioned above := by
    rw [shift.floor] at above
    exact (echoes.stored x).mpr (retains.heard (echoes.mentions x mentioned) above)
  tiers h x above tier := by
    rw [shift.floor] at above
    rw [echoes.stored]
    have old : index h = some x → s.Stored x ∧ (content x).height = h := fun here =>
      (fresh h x above here).elim (fun row => retains.tiers h x above (.inr row)) id
    rcases tier with cached | row
    · rcases shift.heights h x above cached with new | ⟨older,_⟩
      · exact old new
      · exact retains.tiers h x above (.inl older)
    · rw [shift.rows] at row
      exact old row

theorem Echoes.quiet (echoes : Echoes s t) (quiet : Quiet s t) (indexed : Indexed s) (retains : Retains content s) :
    Retains content t := echoes.retains (.ofQuiet quiet indexed) retains fun _ _ _ row => .inl row

theorem Touched.retains (touched : Touched crates s t) (indexed : Indexed s) (retains : Retains content s) :
    Retains content t := touched.echoes.quiet touched.quiet indexed retains

end Echoes

section Ingest

structure Gains (fresh : List Bytes32) (content content' : Bytes32 → L2BlockHeader) (s t : Store) : Prop where
  floor : t.minRetainedHeightCached = s.minRetainedHeightCached
  apart : ∀ x ∈ fresh, s.minRetainedHeightCached ≤ (content x).height → s.Stored x → content' x = content x
  bodies : ∀ x, (t.db .blocks)[hashKey x]?.isSome ↔ x ∈ fresh ∨ (s.db .blocks)[hashKey x]?.isSome
  stored : ∀ x, t.Stored x ↔ x ∈ fresh ∨ s.Stored x
  same : ∀ x, x ∉ fresh → content' x = content x
  mentions : ∀ x, x ∉ fresh → t.Mentions x → s.Mentions x
  tiers : ∀ h x, s.minRetainedHeightCached ≤ h → Tier t h x → Tier s h x ∨ x ∈ fresh ∧ (content' x).height = h

theorem Gains.retains {fresh : List Bytes32} (gains : Gains fresh content content' s t) (retains : Retains content s) :
    Retains content' t where
  paired x above := by
    rw [gains.bodies,gains.stored]
    by_cases new : x ∈ fresh
    · simp [new]
    · rw [gains.floor,gains.same x new] at above
      rw [retains.paired x above]
  cached x mentioned above := by
    rw [gains.stored]
    by_cases new : x ∈ fresh
    · exact .inl new
    · rw [gains.floor,gains.same x new] at above
      exact .inr (retains.cached x (gains.mentions x new mentioned) above)
  tiers h x above tier := by
    rw [gains.floor] at above
    rw [gains.stored]
    rcases gains.tiers h x above tier with old | ⟨new,height⟩
    · obtain ⟨stored,height⟩ := retains.tiers h x above old
      have unmoved : content' x = content x := by
        by_cases new : x ∈ fresh
        · exact gains.apart x new (by rw [height]; exact above) stored
        · exact gains.same x new
      exact ⟨.inr stored,by rw [unmoved,height]⟩
    · exact ⟨.inl new,height⟩

theorem cacheBlockMentions {block : L2Block} {x : Bytes32} (apart : x ≠ block.hash crates)
    (mentioned : (s.cacheBlock crates block).Mentions x) : s.Mentions x := by
  rcases mentioned with header | body | record
  · obtain ⟨header,found⟩ := Option.isSome_iff_exists.mp header
    rcases ShardedLruCache.peekInsert found with ⟨rfl,_⟩ | ⟨_,older⟩
    · exact absurd rfl apart
    · exact .inl (Option.isSome_iff_exists.mpr ⟨_,older⟩)
  · obtain ⟨body,found⟩ := Option.isSome_iff_exists.mp body
    rcases ShardedLruCache.peekInsert found with ⟨rfl,_⟩ | ⟨_,older⟩
    · exact absurd rfl apart
    · exact .inr (.inl (Option.isSome_iff_exists.mpr ⟨_,older⟩))
  · refine .inr (.inr ?_)
    change (Function.update s.recordCache (block.hash crates) _ x).isSome at record
    rwa [Function.update_of_ne apart] at record

theorem Ingests.mentions {block : L2Block} {compressed headerBytes : Bytes}
    (ingests : Ingests crates s t block compressed headerBytes) {x : Bytes32} (apart : x ≠ block.hash crates)
    (mentioned : t.Mentions x) : s.Mentions x := by
  refine cacheBlockMentions apart ?_
  unfold Mentions
  rw [← ingests.headers,← ingests.bodies,← ingests.records]
  exact mentioned

theorem Ingests.body {block : L2Block} {compressed headerBytes : Bytes}
    (ingests : Ingests crates s t block compressed headerBytes) (x : Bytes32) :
    (t.db .blocks)[hashKey x]?.isSome ↔ x = block.hash crates ∨ (s.db .blocks)[hashKey x]?.isSome := by
  rw [ingests.rows .blocks (.inl rfl),bodyRowsRow,if_neg (by simp)]
  by_cases same : x = block.hash crates
  · simp [same]
  · rw [if_neg fun both => same (hashKeyInj.mp both.2)]
    simp [same]

theorem Ingests.retains {block : L2Block} {compressed headerBytes : Bytes} {index : UInt64 → Option Bytes32}
    {head : Option ChainTip} {kept : UInt64 → Prop} (ingests : Ingests crates s u block compressed headerBytes)
    (apart : s.minRetainedHeightCached ≤ (content (block.hash crates)).height → s.Stored (block.hash crates) →
      content (block.hash crates) = block.header) (echoes : Echoes u t)
    (quiet : ∀ x, t.Mentions x → u.Mentions x) (shift : Shift s t index head s.minRetainedHeightCached kept)
    (rows : ∀ h x, index h = some x → canonicalAt s.db h = some x ∨ h = block.height ∧ x = block.hash crates)
    (retains : Retains content s) : Retains (ingest crates content block) t := by
  have here : ∀ {k y}, index k = some y → Tier s k y ∨ y ∈ [block.hash crates] ∧
      (ingest crates content block y).height = k := by
    intro k y row
    rcases rows k y row with old | ⟨rfl,rfl⟩
    · exact .inl (.inr old)
    · exact .inr ⟨by simp,by rw [Store.ingest,Function.update_self]; rfl⟩
  have gains : Gains [block.hash crates] content (ingest crates content block) s t :=
    { floor := shift.floor
      apart := fun x mem low stored => by
        rw [List.mem_singleton.mp mem] at low stored ⊢
        exact (Function.update_self ..).trans (apart low stored).symm
      bodies := fun x => by rw [echoes.bodies,ingests.body,List.mem_singleton]
      stored := fun x => by rw [echoes.stored,ingests.stored,List.mem_singleton]
      same := fun x apart => Function.update_of_ne (by simpa using apart) ..
      mentions := fun x apart mentioned => ingests.mentions (by simpa using apart) (quiet x mentioned)
      tiers := fun h x above tier => by
        rcases tier with cached | row
        · rcases shift.heights h x above cached with new | ⟨older,_⟩
          · exact here new
          · exact .inl (.inl older)
        · rw [shift.rows] at row
          exact here row }
  exact gains.retains retains

theorem Trained.echoes (trained : Trained s t) : Echoes s t :=
  trained.keeps.echoes fun cf side => trained.column (by rcases side with rfl | rfl <;> simp)

theorem putIndexRow {block : L2Block} {canonical : Bool} {h : UInt64} {x : Bytes32}
    (row : putIndex crates s block canonical h = some x) :
    canonicalAt s.db h = some x ∨ h = block.height ∧ x = block.hash crates := by
  unfold putIndex at row
  split at row
  · by_cases same : h = block.height
    · subst same
      rw [Function.update_self] at row
      exact .inr ⟨rfl,(Option.some.inj row).symm⟩
    · rw [Function.update_of_ne same] at row
      exact .inl row
  · exact .inl row

end Ingest

end Store
end DigBlockstore
