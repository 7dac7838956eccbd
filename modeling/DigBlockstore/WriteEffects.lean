import DigBlockstore.ReadEffects

/-! What the writing calls leave behind: the batch, the slots, the caches, and a
dictionary that may have been trained on the way. -/
namespace DigBlockstore
open ByteCodec Faulty ColumnStore
namespace Store
variable {crates : Crates} {s t : Store}

def commit (batch : List Write) (s : Store) : Store := {s with db := applyAll batch s.db}

def writeSlot (height : UInt64) (hash : Bytes32) (s : Store) : Store :=
  {s with canonicalBin := s.canonicalBin.written height hash}

def cutSlots (maxHeight : UInt64) (s : Store) : Store :=
  {s with canonicalBin := s.canonicalBin.cut maxHeight}

theorem writeRuns {batch : List Write} {r : Exit Unit} (h : Runs (write batch) s r t) :
    r = .ok () ∧ t = s.commit batch ∨ (∃ e, r = .error e) ∧ t = s := by
  rcases runsBind h with ⟨_,u,step,later⟩ | ⟨e,rfl,step⟩
  · have same := runsStepOk step
    subst same
    exact .inl (runsModify.mp later)
  · exact .inr ⟨⟨e,rfl⟩,(runsStep.mp step).1⟩

theorem writeOk {batch : List Write} {u : Unit} (h : Runs (write batch) s (.ok u) t) :
    t = s.commit batch := by
  rcases writeRuns h with ⟨_,same⟩ | ⟨⟨e,bad⟩,_⟩
  · exact same
  · cases bad

theorem writeClean (batch : List Write) (s : Store) : Clean (write batch) s (.ok ()) (s.commit batch) := rfl

theorem onBinRuns {m : CanonicalBin.Bin Unit} {r : Exit Unit} (h : Runs (onBin m) s r t) :
    ∃ bin, Runs m s.canonicalBin r bin ∧ t = {s with canonicalBin := bin} := runsZoom h

theorem extendWriteRuns {height : UInt64} {hash : Bytes32} {u : Unit}
    (h : Runs (onBin (CanonicalBin.extendWrite height hash)) s (.ok u) t) :
    s.canonicalBin.Accepts height ∧ t = s.writeSlot height hash := by
  obtain ⟨bin,run,rfl⟩ := onBinRuns h
  obtain ⟨fits,rfl⟩ := CanonicalBin.extendWriteOk run
  exact ⟨fits,rfl⟩

theorem truncateRuns {maxHeight : UInt64} {u : Unit}
    (h : Runs (onBin (CanonicalBin.truncateToHeight maxHeight)) s (.ok u) t) :
    s.canonicalBin.Accepts maxHeight ∧ t = s.cutSlots maxHeight := by
  obtain ⟨bin,run,rfl⟩ := onBinRuns h
  obtain ⟨fits,rfl⟩ := CanonicalBin.truncateToHeightOk run
  exact ⟨fits,rfl⟩

theorem extendWriteClean {height : UInt64} (hash : Bytes32) (ready : s.canonicalBin.Ready)
    (fits : s.canonicalBin.Accepts height) :
    Clean (onBin (CanonicalBin.extendWrite height hash)) s (.ok ()) (s.writeSlot height hash) :=
  cleanZoom (CanonicalBin.extendWriteClean hash ready fits)

theorem truncateClean {maxHeight : UInt64} (fits : s.canonicalBin.Accepts maxHeight) :
    Clean (onBin (CanonicalBin.truncateToHeight maxHeight)) s (.ok ()) (s.cutSlots maxHeight) :=
  cleanZoom (CanonicalBin.truncateToHeightClean fits)

structure Trained (s t : Store) : Prop where
  rest : t = {s with db := t.db,zstdDict := t.zstdDict}
  rows : ∀ cf key, ¬(cf = .metadata ∧ key = metaZstdDict) → (t.db cf)[key]? = (s.db cf)[key]?

theorem Trained.refl (s : Store) : Trained s s := ⟨rfl,fun _ _ _ => rfl⟩

theorem Trained.trans {u : Store} (first : Trained s t) (later : Trained t u) : Trained s u where
  rest := by
    rw [later.rest,first.rest]
  rows cf key apart := (later.rows cf key apart).trans (first.rows cf key apart)

theorem Trained.column (trained : Trained s t) {cf : Cf} (apart : cf ≠ .metadata) : t.db cf = s.db cf := by
  apply Std.ExtTreeMap.ext_getElem?
  intro key
  exact trained.rows cf key fun both => apart both.1

theorem trainDictionaryRuns {r : Exit Bytes} (h : Runs (trainDictionary crates) s r t) : Trained s t := by
  unfold trainDictionary at h
  rw [runsGetBind] at h
  split at h
  · rw [(runsPure.mp h).2]
    exact .refl s
  · rcases runsBind h with ⟨samples,u,one,later⟩ | ⟨e,_,one⟩
    · obtain ⟨_,rfl⟩ := runsOfExceptOk one
      rcases runsBind later with ⟨dict,v,two,rest⟩ | ⟨e,_,two⟩
      · obtain ⟨_,rfl⟩ := runsOfExceptOk two
        rcases runsBind rest with ⟨_,w,three,last⟩ | ⟨e,_,three⟩
        · rw [(runsPure.mp last).2,writeOk three]
          refine ⟨rfl,fun cf key apart => ColumnStore.frame ?_⟩
          intro write mem
          rw [List.mem_singleton.mp mem,effectPut,if_neg]
          rintro ⟨rfl,rfl⟩
          exact apart ⟨rfl,rfl⟩
        · rcases writeRuns three with ⟨bad,_⟩ | ⟨_,rfl⟩
          · cases bad
          · exact .refl _
      · rw [(runsOfExcept two).1]
        exact .refl _
    · rw [(runsOfExcept one).1]
      exact .refl s

theorem maybeTrainRuns {r : Exit Unit} (h : Runs (maybeTrainDictionary crates) s r t) : Trained s t := by
  unfold maybeTrainDictionary at h
  rw [runsGetBind] at h
  split at h
  · rw [(runsPure.mp h).2]
    exact .refl s
  · split at h
    · rw [(runsPure.mp h).2]
      exact .refl s
    · split at h
      · rw [(runsModify.mp h).2]
        exact ⟨rfl,fun _ _ _ => rfl⟩
      · split at h
        · rw [(runsPure.mp h).2]
          exact .refl s
        · rcases runsBind h with ⟨dict,u,one,last⟩ | ⟨e,_,one⟩
          · refine (trainDictionaryRuns one).trans ?_
            rw [(runsModify.mp last).2]
            exact ⟨rfl,fun _ _ _ => rfl⟩
          · exact trainDictionaryRuns one

theorem refuseReadOnlyOk {message : String} {u : Unit} (h : Runs (refuseReadOnly message) s (.ok u) t) :
    s.readOnly = false ∧ t = s := by
  unfold refuseReadOnly at h
  rw [runsGetBind] at h
  split at h
  · cases (runsError.mp h).1
  · rename_i writes
    exact ⟨by simpa using writes,(runsPure.mp h).2⟩

theorem refuseReadOnlyRuns {message : String} {r : Exit Unit} (h : Runs (refuseReadOnly message) s r t) :
    t = s ∧ (r = .ok () ∧ s.readOnly = false ∨
      r = .error (.error (.serialization message)) ∧ s.readOnly = true) := by
  unfold refuseReadOnly at h
  rw [runsGetBind] at h
  split at h
  · rename_i refused
    exact ⟨(runsError.mp h).2,.inr ⟨(runsError.mp h).1,refused⟩⟩
  · rename_i writes
    exact ⟨(runsPure.mp h).2,.inl ⟨(runsPure.mp h).1,by simpa using writes⟩⟩

theorem refuseReadOnlyClean (message : String) (writes : s.readOnly = false) :
    Clean (refuseReadOnly message) s (.ok ()) s := by
  unfold refuseReadOnly
  rw [cleanGetBind,if_neg (by simp [writes])]
  exact cleanPure _ _

end Store
end DigBlockstore
