import DigBlockstore.CallEffects
import DigBlockstore.Library.Within

/-! A relation that the parts of a call keep, the call keeps, however it ends: puts, genesis
and the flush of a batch. -/
namespace DigBlockstore
open ByteCodec Faulty ColumnStore PartialMap Pipeline
namespace Store
variable {crates : Crates} {s t : Store} {R : Store → Store → Prop} [IsPreorder Store R]

theorem withinRefuse (message : String) : Within R (refuseReadOnly message) :=
  withinBind withinGet fun s => by
    split
    · exact withinError _
    · exact withinPure _

theorem withinDiscard {α : Type} {m : StoreM α} (inner : Within R m) : Within R (discard m) :=
  withinBind inner fun _ => withinPure _

section Puts
variable {block : L2Block} {canonical : Bool}

theorem putBlockWithin (rows : ∀ s compressed headerBytes, Packs crates s block compressed headerBytes →
      R s (s.commit (putRows crates block canonical compressed headerBytes)))
    (tail : Within R (putTail crates block canonical)) : Within R (putBlock crates block canonical) := by
  intro s r t h
  rcases putBlockRuns h with ⟨_,rfl,_⟩ | ⟨_,rfl⟩ | ⟨compressed,headerBytes,packs,later⟩
  · exact refl_of _ _
  · exact refl_of _ _
  · exact trans_of _ (rows s compressed headerBytes packs) (tail _ _ _ later)

theorem extendChainWithin (put : Within R (putBlock crates block true)) (head : ∀ tip, Within R (setTip tip)) :
    Within R (extendChain crates block) :=
  withinBind withinGet fun s => by
    split
    · exact withinPure _
    · exact withinBind put fun _ => withinBind (head _) fun _ => withinPure _

theorem importFramesWithin (put : ∀ block, Within R (putBlock crates block true)) (prev : Option Bytes32)
    (input hashed : Bytes) (heights : List UInt64) : Within R (importFrames crates prev input hashed heights) := by
  induction heights generalizing prev input hashed with
  | nil => exact withinPure _
  | cons height rest ih =>
    refine withinBind (withinOfExcept _) fun ⟨lenBytes,input⟩ => ?_
    refine withinBind (withinOfExcept _) fun ⟨compressed,input⟩ => ?_
    refine withinBind withinGet fun s => withinBind (withinOfExcept _) fun block => ?_
    split
    · exact withinError _
    · split
      · exact withinError _
      · exact withinBind (put block) fun _ => ih _ _ _

theorem importSnapshotWithin (put : ∀ block, Within R (putBlock crates block true)) (input : Bytes) :
    Within R (importSnapshot crates input) :=
  withinBind (withinOfExcept _) fun ⟨manifest,input⟩ => withinBind (withinOfExcept _) fun manifestBytes => by
    dsimp only
    split
    · exact withinError _
    · refine withinBind (importFramesWithin put _ _ _ _) fun ⟨input,hashed⟩ =>
        withinBind (withinOfExcept _) fun ⟨checksum,_⟩ => ?_
      dsimp only
      split
      · exact withinError _
      · exact withinPure _

end Puts

section Genesis

/- `init_genesis` after its batch. -/
def genesisTail (crates : Crates) (block : L2Block) : StoreM Unit := do
  onBin (CanonicalBin.extendWrite 0 (block.hash crates))
  Op.modify fun s => {s with tip := some ⟨block.hash crates,0⟩}
  Op.modify (cacheRecord (block.hash crates) (.fromHeader crates block.header .validated))
  Op.modify (cacheBody (block.hash crates) block)
  Op.modify (cacheHeader (block.hash crates) block.header)
  maybeTrainDictionary crates

/- A genesis block that is not refused. -/
structure Founds (s : Store) (block : L2Block) : Prop where
  writes : s.readOnly = false
  headless : (s.db .metadata)[metaTip]? = none
  rootless : (s.db .metadata)[metaGenesisHash]? = none
  level : block.height = 0

theorem initGenesisRuns {block : L2Block} {r : Exit Unit} (h : Runs (initGenesis crates block) s r t) :
    t = s ∨ ∃ compressed headerBytes, s.serializeBlock crates block = .ok compressed ∧
      serializeHeader crates block.header = .ok headerBytes ∧ s.Founds block ∧
      Runs (genesisTail crates block) (s.commit (genesisRows crates block compressed headerBytes)) r t := by
  unfold initGenesis at h
  rcases runsBind h with ⟨_,u,opening,checking⟩ | ⟨e,_,opening⟩
  · obtain ⟨writes,rfl⟩ := refuseReadOnlyOk opening
    rw [runsGetBind] at checking
    split at checking
    · exact .inl (runsError.mp checking).2
    · rename_i uninitialized
      split at checking
      · exact .inl (runsError.mp checking).2
      · rename_i level
        rcases runsBind checking with ⟨compressed,v,one,packing⟩ | ⟨e,_,one⟩
        · obtain ⟨body,rfl⟩ := runsOfExceptOk one
          rcases runsBind packing with ⟨headerBytes,w,two,committing⟩ | ⟨e,_,two⟩
          · obtain ⟨header,rfl⟩ := runsOfExceptOk two
            rcases runsBind committing with ⟨_,x,three,later⟩ | ⟨e,_,three⟩
            · rw [show x = _ from writeOk three] at later
              simp only [Bool.or_eq_true,not_or] at uninitialized
              exact .inr ⟨compressed,headerBytes,body,header,
                ⟨writes,by simpa using uninitialized.1,by simpa using uninitialized.2,not_not.mp level⟩,later⟩
            · rcases writeRuns three with ⟨bad,_⟩ | ⟨_,same⟩
              · cases bad
              · exact .inl same
          · exact .inl (runsOfExcept two).1
        · exact .inl (runsOfExcept one).1
  · exact .inl (refuseReadOnlyRuns opening).1

end Genesis

section Flush

/- A relation on the store, seen on the ledger. -/
def OnStore (R : Store → Store → Prop) : Ledger → Ledger → Prop := InvImage R Ledger.store

instance : IsPreorder Ledger (OnStore R) := partPreorder Ledger.store

omit [IsPreorder Store R] in
theorem withinOnStore {α : Type} {m : StoreM α} (inner : Within R m) : Within (OnStore R) (onStore m) :=
  withinPart inner fun _ _ => rfl

theorem withinSend (ack : Nat) (result : Except BlockStoreError Bool) : Within (OnStore R) (send ack result) :=
  withinModify fun l => refl_of R l.store

theorem withinSendAll (rows : List StagedRow) (message : String) : Within (OnStore R) (sendAll rows message) :=
  withinForEach rows fun _ _ => withinSend _ _

/- What a flush keeps: its batch, the slots of `canonical.bin`, and each row of the caches. -/
structure FlushParts (crates : Crates) (R : Store → Store → Prop) (jobs : List PipelineJob) : Prop where
  rows : ∀ s staged, Staged crates s jobs [] staged → R s (s.commit (staged.flatMap rowWrites))
  bins : ∀ rows, Within R (writeBins rows)
  cache : ∀ row, row.hash = row.block.hash crates → (∃ job ∈ jobs, job.block = row.block) →
    Within (OnStore R) (cacheRow crates row)

theorem commitWithin {staged : List StagedRow} {jobs : List PipelineJob} {l l' : Ledger} {r : Exit Unit}
    (parts : FlushParts crates R jobs) (plan : Staged crates l.store jobs [] staged)
    (h : Runs (Pipeline.commit crates staged) l r l') : R l.store l'.store := by
  have written : ∀ r m, Runs (Op.attempt (onStore (write (staged.flatMap rowWrites)))) l r m → R l.store m.store := by
    intro r m run
    have wrote : ∃ r, Runs (write (staged.flatMap rowWrites)) l.store r m.store := by
      rcases runsAttempt run with ⟨_,_,run⟩ | ⟨_,_,run⟩ | ⟨_,_,run⟩ <;> exact ⟨_,(onStoreRuns run).1⟩
    obtain ⟨_,run⟩ := wrote
    rcases writeRuns run with ⟨_,same⟩ | ⟨_,same⟩
    · rw [same]
      exact parts.rows _ _ plan
    · rw [same]
      exact refl_of _ _
  rcases runsBind h with ⟨wrote,m,one,later⟩ | ⟨e,_,one⟩
  · cases wrote with
    | error e => exact trans_of _ (written _ _ one) ((withinSendAll (R := R) _ _) _ _ _ later)
    | ok done =>
      refine trans_of _ (written _ _ one) ((?_ : Within (OnStore R) _) _ _ _ later)
      refine withinBind (withinAttempt (withinOnStore (parts.bins staged))) fun slots => ?_
      cases slots with
      | error e => exact withinSendAll _ _
      | ok done =>
        exact withinForEach staged fun row mem => parts.cache row (plan.rows row mem).hash ⟨_,(plan.rows row mem).job,rfl⟩
  · exact written _ _ one

theorem flushBatchWithin {jobs : List PipelineJob} (parts : FlushParts crates R jobs) :
    Within R (Store.flushPipelineBatch crates jobs) := by
  intro s r t ⟨script,rest,h⟩
  have run : ∃ r l, Runs (Pipeline.flushPipelineBatch crates jobs) ⟨s,[]⟩ r l ∧ t = l.store := by
    unfold Store.flushPipelineBatch at h
    split at h <;> rename_i w run <;> injection h with hr hw <;> injection hw with ht hs
    · exact ⟨_,w.state,⟨script,w.script,run⟩,ht.symm⟩
    · exact ⟨_,w.state,⟨script,w.script,run⟩,ht.symm⟩
  obtain ⟨r,l,run,rfl⟩ := run
  unfold Pipeline.flushPipelineBatch at run
  rw [runsGetBind] at run
  split at run
  · exact (withinForEach (R := OnStore R) jobs fun _ _ => withinSend _ _) _ _ _ run
  · rcases runsBind run with ⟨staged,m,one,later⟩ | ⟨e,_,one⟩
    · obtain ⟨same,plan⟩ := stageRuns one
      have plan := plan staged rfl
      rw [← same] at plan
      split at later
      · obtain ⟨_,rfl⟩ := runsPure.mp later
        rw [same]
        exact refl_of _ _
      · rw [show s = m.store from same.symm]
        exact commitWithin parts plan later
    · rw [(stageRuns one).1]
      exact refl_of _ _

end Flush

end Store
end DigBlockstore
