import LeakTrace.Proofs.Scope.Tracking
import LeakTrace.Proofs.Solve.History
import LeakTrace.Sources

/-!
# The origins in the history of a fact

A fact has an origin if a source created it, and what is derived from it keeps that origin or drops
it. So the origins in the history of a fact never become more: **whatever is said of all of them is
handed down**, also where a fact starts to wait for a statement or is made active.
-/

namespace LeakTrace
namespace Fact
variable {G : Found → Prop} {f g : Fact}

/-- All origins in the history of derivations are as `G` says. -/
def OriginsIn (G : Found → Prop) (f : Fact) : Prop :=
  ∀ g, f.StemsFrom g → ∀ o, g.origin = some o → G ⟨o, g.originCut⟩

theorem OriginsIn.mono {G' : Found → Prop} (hf : f.OriginsIn G) (hG : ∀ x, G x → G' x) :
    f.OriginsIn G' :=
  fun h hstems o ho => hG _ (hf h hstems o ho)

theorem originsIn_of_pred (hself : ∀ o, g.origin = some o → G ⟨o, g.originCut⟩)
    (hpred : ∀ p, g.pred = some p → p.OriginsIn G) : g.OriginsIn G := by
  intro h hstems o ho
  cases hstems with
  | refl => exact hself o ho
  | step hp hrest => exact hpred _ hp h hrest o ho

section
variable (hf : f.OriginsIn G)
include hf

theorem OriginsIn.pred (hp : f.pred = some g) : g.OriginsIn G :=
  fun h hstems => hf h (.step hp hstems)

theorem OriginsIn.self (hg : f.SharesOrigin g) : ∀ o, g.origin = some o → G ⟨o, g.originCut⟩ := by
  intro o ho
  rw [hg.2]
  exact hf f (.refl f) o (hg.1.symm.trans ho)

theorem OriginsIn.derived (hpred : g.pred = some f) (horigin : g.origin = none ∨ f.SharesOrigin g) :
    g.OriginsIn G := by
  refine originsIn_of_pred ?_ fun p hp => ?_
  · rcases horigin with hnone | hshares
    · intro o ho
      rw [hnone] at ho
      cases ho
    · exact hf.self hshares
  · rw [hpred] at hp
    cases hp
    exact hf

theorem OriginsIn.continues (hg : f.Continues g) : g.OriginsIn G := by
  rcases hg.history with ⟨hpred, horigin⟩ | ⟨hpred, hshares⟩
  · exact hf.derived hpred horigin
  · exact originsIn_of_pred (hf.self hshares) fun p hp => hf.pred (hpred.symm.trans hp)

end

theorem heritable_originsIn : Heritable (OriginsIn G) := fun _ _ hf => hf.continues

theorem OriginsIn.activate (hf : f.OriginsIn G) (i : Nat) : (f.activate i).OriginsIn G := by
  unfold Fact.activate
  split
  · exact hf
  · exact hf.derived rfl (.inl rfl)

theorem OriginsIn.deactivate (hf : f.OriginsIn G) (i : Nat) (unit : StmtId) (deferred : Bool) :
    (f.deactivate i unit deferred).OriginsIn G := by
  unfold Fact.deactivate
  split
  · exact hf
  · have hmove : (f.move i f.accessPath none).OriginsIn G := hf.continues continues_move
    exact originsIn_of_pred (hmove.self ⟨rfl, rfl⟩) fun p hp => hmove.pred hp

theorem OriginsIn.makes (hf : f.OriginsIn G) (hg : f.Makes g) : g.OriginsIn G := by
  induction hg with
  | self => exact hf
  | derived _ hgh ih => exact ih.continues hgh
  | waiting i unit deferred _ ih => exact ih.deactivate i unit deferred

theorem originsIn_zero (k : Nat) : (Fact.zero k).OriginsIn G :=
  originsIn_of_pred (fun _ ho => by cases ho) fun _ hp => by cases hp

theorem originsIn_ofSource {i : Nat} {o : Origin} {cut thrown implicit : Bool} (ho : G ⟨o, cut⟩) :
    (Fact.ofSource i o cut thrown implicit).OriginsIn G := by
  refine originsIn_of_pred ?_ fun _ hp => by cases hp
  rintro _ ⟨⟩
  exact ho

/-- Links to facts with such origins lead to no others. -/
theorem OriginsIn.leadsBack {w : World} (hw : ∀ f, ∀ n ∈ w.neighborsOf f, n.OriginsIn G)
    (hf : f.OriginsIn G) (hback : w.LeadsBack f g) : g.OriginsIn G := by
  induction hback with
  | refl f => exact hf
  | pred hp _ ih => exact ih (hf.pred hp)
  | neighbor hn _ ih => exact ih (hw _ _ hn)

end Fact
end LeakTrace
