import LeakTrace.Proofs.Keeps.Logic

/-!
# What recording a result does

A result is derived from the fact at the sink, under a new number, and is stored or becomes a
neighbour of a stored one. `World.ends_addResult` says all that changes; an invariant is kept if it
puts up with each of these changes.
-/

namespace LeakTrace
variable {e : Env} {c : SinkHit} {id : Nat} {I : World → Prop}

/-- Results at the statement are not wanted. -/
def Env.ignores (e : Env) (n : StmtId) : Bool :=
  e.config.ignoreSystemPackages && isSystemClass (e.program.methodOf n).owner

namespace SinkHit

/-- What is recorded of an observation, under a number. -/
def recorded (c : SinkHit) (id : Nat) : SinkHit :=
  { c with fact := { c.fact.move id c.fact.accessPath (some c.stmt) with
                     implicit := c.fact.implicit, call := some c.stmt } }

theorem id_recorded : (c.recorded id).fact.id = id := by
  unfold recorded Fact.move
  dsimp only
  split <;> rfl

theorem pred_recorded : (c.recorded id).fact.pred = some c.fact := by
  unfold recorded Fact.move
  dsimp only
  split <;> rfl

theorem toTaint_recorded : (c.recorded id).fact.toTaint = (c.recorded 0).fact.toTaint := by
  unfold recorded Fact.move
  dsimp only
  split <;> rfl

end SinkHit

namespace World

theorem addNeighbor_eq (w : World) (f other : Fact) (merge : Bool) :
    ∃ n, (w.addNeighbor f other merge).2 = { w with neighbors := n } := by
  dsimp only [addNeighbor]
  split
  · exact ⟨w.neighbors, rfl⟩
  · exact ⟨_, rfl⟩

theorem addNeighbor_of {w : World} {f other : Fact} {merge : Bool}
    (h : ∀ n, I { w with neighbors := n }) : I (w.addNeighbor f other merge).2 := by
  obtain ⟨n, hn⟩ := w.addNeighbor_eq f other merge
  rw [hn]
  exact h n

/-- A result is stored, or becomes a neighbour of one that says the same. -/
def record (w : World) (hit : SinkHit) : World :=
  match w.results.find? hit.same with
  | some old => (w.addNeighbor old.fact hit.fact false).2
  | none => { w with results := w.results ++ [hit] }

def recordNew (w : World) (c : SinkHit) : World :=
  ({ w with nextId := w.nextId + 1 } : World).record (c.recorded w.nextId)

theorem ends_requestAbort (w : World) : w.Ends e Track.requestAbort fun _ w' =>
    w' = w ∨ w' = { w with aborted := true, outbox := .abort :: w.outbox } := by
  refine .get ?_
  split
  · exact .inr rfl
  · exact .inl rfl

/-- Unless the sink is ignored, the result is recorded and counted, and if it was one too many the
analysis is asked to stop. -/
theorem ends_addResult (w : World) (c : SinkHit) :
    w.Ends e (Track.addResult c.definition c.fact c.stmt) fun more w' =>
      (more = false → e.resultLimit.isSome) ∧
      (e.ignores c.stmt ∧ w' = w ∨ e.ignores c.stmt = false ∧ ∃ reported,
        w' = { w.recordNew c with reported } ∨
        w' = { w.recordNew c with
               reported, aborted := true, outbox := .abort :: (w.recordNew c).outbox }) := by
  refine .read ?_
  split
  · next hc => exact ⟨fun h => (by cases h), .inl ⟨hc, rfl⟩⟩
  · next hc =>
    have hc : e.ignores c.stmt = false := Bool.eq_false_iff.mpr hc
    refine .bind (x := Track.fresh)
      (Q := fun i w' => i = w.nextId ∧ w' = { w with nextId := w.nextId + 1 }) ⟨rfl, rfl⟩ ?_
    rintro _ _ ⟨rfl, rfl⟩
    refine .bind (Q := fun _ w' => w' = w.recordNew c) rfl ?_
    rintro _ _ rfl
    refine .bind (Q := fun _ w' =>
      w' = { w.recordNew c with reported := (w.recordNew c).reported + 1 }) rfl ?_
    rintro _ _ rfl
    refine .get ?_
    dsimp only
    cases e.resultLimit with
    | none => exact ⟨fun h => (by cases h), .inr ⟨hc, _, .inl rfl⟩⟩
    | some k =>
      dsimp only
      split
      · exact (ends_requestAbort _).bind fun _ _ hw' => ⟨fun _ => rfl, .inr ⟨hc, _, hw'⟩⟩
      · exact ⟨fun _ => rfl, .inr ⟨hc, _, .inl rfl⟩⟩

end World

/-- An invariant that puts up with all that recording a result does. -/
theorem Track.addResult_of
    (hrest : ∀ {w n r a}, I w → I { w with nextId := n, reported := r, aborted := a })
    (hhit : ∀ {w id}, I w → w.results.find? (c.recorded id).same = none →
      I { w with results := w.results ++ [c.recorded id] })
    (hagain : ∀ {w id} {old : SinkHit}, I w → old ∈ w.results →
      I (w.addNeighbor old.fact (c.recorded id).fact false).2)
    (habort : ∀ {w}, I w → I { w with outbox := .abort :: w.outbox }) :
    Keeps e I (addResult c.definition c.fact c.stmt) fun more =>
      more = false → e.resultLimit.isSome := by
  intro w hw
  have hnew : I (w.recordNew c) := by
    have hw' : I { w with nextId := w.nextId + 1 } := hrest hw
    unfold World.recordNew World.record
    split
    · next old hold => exact hagain hw' (List.mem_of_find?_eq_some hold)
    · next hnone => exact hhit hw' hnone
  obtain ⟨hmore, hworld⟩ := w.ends_addResult (e := e) c
  refine ⟨hmore, ?_⟩
  rcases hworld with ⟨-, heq⟩ | ⟨-, r, heq | heq⟩ <;> rw [heq]
  · exact hw
  · exact hrest hnew
  · exact habort (hrest (a := true) hnew)

end LeakTrace
