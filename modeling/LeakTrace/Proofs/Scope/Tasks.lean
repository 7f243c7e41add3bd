import LeakTrace.Proofs.Activation
import LeakTrace.Proofs.Solve.Moves

/-!
# What the flow functions of a task keep

An invariant of worlds that puts up with facts, messages and results outlasts every flow function
but one: the flow into a callee may note besides that a conditional fact enters the call. What a
task notes depends on its edge, so here the flow functions of one task are looked at.
-/

namespace LeakTrace
variable {e : Env} {I : World → Prop} {k : Nat} {watch : Watch} {act : Track Flow}

theorem Setup.FlowsAt.keeps {side : Side} {ed : Edge} (hact : (Setup.ofEnv e watch).FlowsAt side ed act)
    (hz : e.zero = .zero k) (hI : Upkeep.Always e I)
    (hreg : ∀ w a, I w → I { w with activations := a })
    (hcover : side = .forward → World.Covers e I (e.stmt ed.stmt).id ed.d1 ed.d2) :
    Track.Keeps e I act := by
  have hH : Fact.Heritable fun _ => True := fun _ _ _ _ => trivial
  have hsuits (n : StmtId) := Stmt.suits_waiting (I := I) (W := fun _ => True) hz (e.stmt n)
  have hbackward {d1 f : Fact} {act : Track Flow} (h : Backward.Of d1 f act) :
      Track.Keeps e I act :=
    (h.fits (H := fun _ => True) hI hH hreg ⟨fun _ _ => trivial, fun _ _ => trivial⟩ trivial).mono
      fun _ _ => trivial
  have hnow {f : Fact} {n t : StmtId} : Track.Keeps e I (Track.activateAt f n) fun now =>
      now.Fits Region.whole.locals (fun _ => True) ∧ (e.stmt t).Welcomes e (fun _ => True) now :=
    (Track.activateAt_fits hI.unmoved (Fact.fits_whole trivial) fun _ _ => trivial).mono
      fun _ hg => ⟨hg, Stmt.welcomes_all⟩
  cases hact with
  | normal _ _ =>
    cases side with
    | forward =>
      exact (Forward.normal_fits hI hH Region.whole_closed (hsuits _)
        (fun _ _ => Stmt.welcomes_all) (Fact.fits_whole trivial) (fun _ _ => trivial)
        (fun _ => trivial) trivial).mono fun _ _ => trivial
    | backward => exact hbackward (.normal _ _)
  | call m =>
    cases side with
    | forward =>
      exact (Forward.call_fits hI hH Region.whole_closed Region.whole_contains (hcover rfl)
        trivial).mono fun _ _ => trivial
    | backward => exact hbackward (.call _ _)
  | ret other call m exit site f d1 contexts =>
    cases other with
    | forward =>
      cases call with
      | none =>
        exact (Forward.ret_none_fits hI hH Region.whole_closed Stmt.welcomes_all trivial).mono
          fun _ _ => trivial
      | some cs =>
        exact (Forward.ret_fits hI hH Region.whole_closed Region.sends_all trivial
          (hnow.mono fun _ hg => ⟨hg.1.kind, hg.2⟩)).mono fun _ _ => trivial
    | backward => exact hbackward (.ret _ _ _)
  | callToReturn t =>
    cases side with
    | forward =>
      exact (Forward.callToReturn_fits hI hH Region.whole_closed (hsuits _) trivial
        hnow).mono fun _ _ => trivial
    | backward => exact hbackward (.callToReturn _)

/-- What outlasts all that facts and results may do, and calls that are entered, outlasts every flow
function. -/
theorem Setup.Flows.keeps (hact : (Setup.ofEnv e watch).Flows act) (hz : e.zero = .zero k)
    (hI : Upkeep.Always e I)
    (hreg : ∀ w a, I w → I { w with activations := a })
    (hcover : ∀ w k, I w → I (w.coverCall k)) : Track.Keeps e I act := by
  obtain ⟨side, ed, hat⟩ := hact
  exact hat.keeps hz hI hreg fun _ _ w hw => hcover w _ hw

end LeakTrace
