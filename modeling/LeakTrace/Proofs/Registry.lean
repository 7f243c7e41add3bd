import LeakTrace.Proofs.Scope.Tracking
import Mathlib.Data.List.Chain

/-!
# Calls that make aliases active

An alias waits for a statement, and it can leave the method of that statement before. The call by
which it leaves is registered then: passing the call makes the alias active.

**A registered call leads to the statement.** It is registered only if it enters the method of the
statement, or the method of a call that was registered before it. The registry keeps two flat lists,
but behind each of its calls there is a chain of such steps (`Activations.Founded`).
-/

namespace LeakTrace
variable {e : Env} {g : Graph} {K : StmtId → MethodId → Prop} {w : World} {unit call c : StmtId}
  {m : MethodId}

/-! ## Chains of registered calls -/

namespace Activations
variable {a a' : Activations}

/-- The registered call `c` enters the method of the statement `n`. -/
def Enters (a : Activations) (g : Graph) (K : StmtId → MethodId → Prop) (n c : StmtId) : Prop :=
  c ∈ a.calls ∧ K c (g.methodOf n)

/-- Every registered call leads to the statement by registered calls, where `K` says which methods
a call enters; and the methods are those of the calls. -/
structure Founded (a : Activations) (g : Graph) (K : StmtId → MethodId → Prop) (unit : StmtId) :
    Prop where
  calls : ∀ c ∈ a.calls, Relation.TransGen (a.Enters g K) unit c
  methods : ∀ m ∈ a.methods, ∃ c ∈ a.calls, g.methodOf c = m

theorem founded_empty : Founded {} g K unit :=
  ⟨List.forall_mem_nil _, List.forall_mem_nil _⟩

/-- The new call goes on from the statement itself or from a call that is there. -/
theorem Founded.register (ha : a.Founded g K unit) (hcall : K call m)
    (hm : g.methodOf unit = m ∨ m ∈ a.methods) :
    Founded ⟨a.calls ++ [call], a.methods ++ [g.methodOf call]⟩ g K unit := by
  have hlast : call ∈ a.calls ++ [call] := List.mem_append_right _ List.mem_cons_self
  have hold (c : StmtId) (hc : c ∈ a.calls) : Relation.TransGen
      (Enters ⟨a.calls ++ [call], a.methods ++ [g.methodOf call]⟩ g K) unit c :=
    Relation.TransGen.mono (fun _ _ h => ⟨List.mem_append_left _ h.1, h.2⟩) _ _ (ha.calls c hc)
  refine ⟨fun c hc => ?_, fun m' hm' => ?_⟩
  · rcases List.mem_append.mp hc with hc | hc
    · exact hold c hc
    · rw [List.mem_singleton.mp hc]
      rcases hm with rfl | hm
      · exact .single ⟨hlast, hcall⟩
      · obtain ⟨c', hc', rfl⟩ := ha.methods m hm
        exact (hold c' hc').tail ⟨hlast, hcall⟩
  · rcases List.mem_append.mp hm' with hm' | hm'
    · obtain ⟨c, hc, hcm⟩ := ha.methods m' hm'
      exact ⟨c, List.mem_append_left _ hc, hcm⟩
    · exact ⟨call, hlast, (List.mem_singleton.mp hm').symm⟩

/-- The calls on the way to the statement, the last one listed last. -/
theorem exists_chain (h : Relation.TransGen (a.Enters g K) unit c) :
    ∃ sites, sites.getLast? = some c ∧ (∀ x ∈ sites, x ∈ a.calls) ∧
      (unit :: sites).IsChain fun n x => K x (g.methodOf n) := by
  induction h with
  | single hstep =>
    exact ⟨_, List.getLast?_singleton, List.forall_mem_singleton.mpr hstep.1,
      List.isChain_pair.mpr hstep.2⟩
  | @tail b c _ hstep ih =>
    obtain ⟨sites, hlast, hcalls, hchain⟩ := ih
    refine ⟨sites ++ [c], List.getLast?_concat, ?_, ?_⟩
    · exact List.forall_mem_append.mpr ⟨hcalls, List.forall_mem_singleton.mpr hstep.1⟩
    · rw [← List.cons_append]
      refine hchain.append (List.isChain_singleton c) fun x hx y hy => ?_
      rw [List.getLast?_cons, hlast] at hx
      cases hx
      cases hy
      exact hstep.2

end Activations

namespace World

/-- The registry is founded for every statement. -/
def Founded (w : World) (g : Graph) (K : StmtId → MethodId → Prop) : Prop :=
  ∀ unit, Activations.Founded (w.activations[unit]?.getD {}) g K unit

theorem Founded.register (hw : w.Founded e.graph K) (hcall : K call m)
    (hm : e.graph.methodOf unit = m ∨ m ∈ (w.activations[unit]?.getD {}).methods) :
    (w.register e unit call).Founded e.graph K := by
  intro unit'
  change Activations.Founded ((w.activations.insert unit _)[unit']?.getD {}) e.graph K unit'
  rw [Std.HashMap.getElem?_insert]
  split
  · next heq =>
    rw [← eq_of_beq heq]
    exact (hw unit).register hcall hm
  · exact hw unit'

/-! ## Runs of the registry -/

/-- Asked in the world, the call makes aliases active that wait for the statement. -/
def activates (w : World) (e : Env) (call unit : StmtId) : Bool :=
  (((Track.isActivating call (some unit)).run e).run w).1

theorem activates_iff : w.activates e call unit ↔
    e.config.defersActivation ∧ call ∈ (w.activations[unit]?.getD {}).calls := by
  change (((ite (e.config.defersActivation = true) _ _ : Track Bool).run e).run w).1 = true ↔ _
  split
  · next hdefers =>
    change (w.activations[unit]?.map (·.calls.contains call)).getD false = true ↔ _
    cases w.activations[unit]? <;> simp [hdefers]
  · next hdefers => exact ⟨nofun, fun h => absurd h.1 hdefers⟩

end World

/-- An alias leaves a method by a call of it. -/
structure Departure where
  call : StmtId
  callee : MethodId
  fact : Fact

/-- The world after the departures were registered, one after the other. -/
def World.leave (w : World) (e : Env) (ds : List Departure) : World :=
  ds.foldl (fun w d => (((Track.registerActivation d.call d.callee d.fact).run e).run w).2) w

theorem World.Founded.leave {ds : List Departure} (hw : w.Founded e.graph K)
    (hds : ∀ d ∈ ds, K d.call d.callee) : (w.leave e ds).Founded e.graph K := by
  induction ds generalizing w with
  | nil => exact hw
  | cons d ds ih =>
    obtain ⟨hd, hds⟩ := List.forall_mem_cons.mp hds
    have hreg : World.Registers e (World.Founded · e.graph K) d.call d.callee :=
      fun _ _ hw hm => hw.register hd hm
    exact ih (Track.registerActivation_fits hreg w hw).2 hds

/-- **A call that makes an alias active leads to what the alias waits for.** Whatever departures
were registered, by calls of the methods that were left: there are calls up to this one, all of
which make the alias active, the first of which enters the method of the statement, and each other
one the method of the call before it. -/
theorem activating_call_leads_to_unit (hfresh : w.activations = ∅) {ds : List Departure}
    (hds : ∀ d ∈ ds, d.callee ∈ e.graph.calleesOf d.call)
    (h : (w.leave e ds).activates e call unit = true) :
    ∃ sites, sites.getLast? = some call ∧
      (∀ c ∈ sites, (w.leave e ds).activates e c unit = true) ∧
      (unit :: sites).IsChain fun n c => e.graph.methodOf n ∈ e.graph.calleesOf c := by
  have hempty : w.Founded e.graph fun c m => m ∈ e.graph.calleesOf c := by
    intro u
    rw [hfresh, Std.HashMap.getElem?_empty]
    exact Activations.founded_empty
  obtain ⟨hdefers, hcall⟩ := World.activates_iff.mp h
  obtain ⟨sites, hlast, hcalls, hchain⟩ :=
    Activations.exists_chain ((hempty.leave hds unit).calls call hcall)
  exact ⟨sites, hlast, fun c hc => World.activates_iff.mpr ⟨hdefers, hcalls c hc⟩, hchain⟩

/-- Statement 2 calls the method of statement 1, which calls the method of statement 0. -/
def nestedCalls : Env where
  graph :=
    { (default : Graph) with
      program := { hierarchy := {}, stmts := #[⟨0, 0, .skip⟩, ⟨1, 1, .skip⟩, ⟨2, 2, .skip⟩] }
      callees := #[[], [0], [1]] }

/-- An alias that waits for statement 0 leaves both methods. -/
def departures : List Departure :=
  [⟨1, 0, { Fact.zero 0 with waitsFor := some 0 }⟩, ⟨2, 1, { Fact.zero 0 with waitsFor := some 0 }⟩]

theorem outer_call_leads_to_unit :
    ((({} : World).leave nestedCalls departures).activates nestedCalls 2 0 = true) ∧
    ∃ sites, sites.getLast? = some 2 ∧
      (∀ c ∈ sites, (({} : World).leave nestedCalls departures).activates nestedCalls c 0 = true) ∧
      (0 :: sites).IsChain fun n c =>
        nestedCalls.graph.methodOf n ∈ nestedCalls.graph.calleesOf c := by
  have hactive : (({} : World).leave nestedCalls departures).activates nestedCalls 2 0 = true := by
    decide +kernel
  exact ⟨hactive, activating_call_leads_to_unit rfl (by decide +kernel) hactive⟩

end LeakTrace
