import LeakTrace.Proofs.Scope.Runs
import LeakTrace.Proofs.Solve.History
import LeakTrace.Proofs.Solve.Schedules

/-!
# What passes leave behind

Besides its edges a pass leaves three kinds of facts in the world: those that one analysis asked the
other about, those that were observed at sinks, and those that met others on their way. If facts are
fit and what is fit is handed on, then **all of them stay so over any number of passes**, in
whichever order tasks are run.
-/

namespace LeakTrace
open List

/-- What a world may hold: edges that are asked for, observations at sinks, facts that met others,
and calls that make aliases active. -/
structure Memory where
  rules : PathRules
  edge : Side → StmtId → Fact → Prop
  hit : SinkHit → Prop
  met : Fact → Prop := fun _ => True
  registry : Std.HashMap StmtId Activations → Prop := fun _ => True

/-- The edge that is asked for may be asked for. -/
def Message.Allowed (K : Memory) : Message → Prop
  | .edge side _ n g => K.edge side n g
  | .abort => True

structure World.Remembers (K : Memory) (w : World) : Prop where
  rules : w.paths.rules = K.rules
  messages : ∀ msg ∈ w.outbox, msg.Allowed K
  hits : ∀ h ∈ w.results, K.hit h
  met : ∀ f, ∀ g ∈ w.neighborsOf f, K.met g
  registry : K.registry w.activations

variable {K : Memory} {F : Fitness} {W : StmtId → StmtId → Fact → Prop} {e : Env} {w : World}

namespace World.Remembers

theorem addNeighbor (hw : w.Remembers K) (f : Fact) {g : Fact} (hg : K.met g) (merge : Bool) :
    (w.addNeighbor f g merge).2.Remembers K := by
  obtain ⟨n, hn⟩ := w.addNeighbor_eq f g merge
  have hmet : ∀ h, ∀ k ∈ (w.addNeighbor f g merge).2.neighborsOf h, K.met k := by
    intro h k hk
    rcases eq_or_mem_of_mem_addNeighbor hk with rfl | hk
    · exact hg
    · exact hw.met h k hk
  rw [hn] at hmet ⊢
  exact { hw with met := hmet }

end World.Remembers

/-! ## One pass -/

theorem Upkeep.remembers (hmet : ∀ h, K.hit h → K.met h.fact) :
    Upkeep.Lasting e (Message.Allowed K) K.hit (World.Remembers K) where
  rest {w w'} hw h := by
    refine ⟨h.pathRules.trans hw.rules, ?_, ?_, ?_, ?_⟩
    · rw [h.outbox]
      exact hw.messages
    · rw [h.results]
      exact hw.hits
    · unfold World.neighborsOf
      rw [h.neighbors]
      exact hw.met
    · rw [h.activations]
      exact hw.registry
  send hw hm := { hw with messages := forall_mem_cons.mpr ⟨hm, hw.messages⟩ }
  hit {w h} hw hh _ := by
    refine { hw with hits := fun h' hmem => ?_ }
    rcases mem_append.mp hmem with hmem | hmem
    · exact hw.hits h' hmem
    · rw [mem_singleton.mp hmem]
      exact hh
  again hw _ hh := hw.addNeighbor _ (hmet _ hh) false
  close hw _ _ := { hw with }
  global := Track.addGlobal_of_send (fun _ _ hw => { hw with }) fun _ _ hw hm =>
    { hw with messages := forall_mem_cons.mpr ⟨hm, hw.messages⟩ }
  emptied _ hw := { hw with messages := forall_mem_nil _ }
  covered _ _ hw := { hw with }

/-- Regions do not tell locals apart. -/
theorem Setup.bears_remembers {k : Nat} {watch : Watch} {ρ : MethodId → Region}
    (hz : e.zero = .zero k) (hρ : Partition e ρ) (hall : ∀ m l, (ρ m).locals l)
    (hmet : ∀ h, K.hit h → K.met h.fact) (hedge : ∀ side n f, K.edge side n f → F.fact side n f)
    (hF : F.HandedOn W e K.hit (World.Remembers K)) (hM : F.Asked W e ρ (Message.Allowed K)) :
    (Setup.ofEnv e watch).Bears (World.Remembers K) (F.within e ρ) :=
  Setup.bears_ofEnv (Upkeep.remembers hmet) hz hρ hF hM fun _ hw _ _ _ _ hmem =>
    ⟨⟨.inr fun l _ => hall _ l⟩, hedge _ _ _ (hw.messages _ hmem)⟩

/-! ## All passes of a run -/

namespace Analysis
variable {a : Analysis} {sinks : List StmtId} {m : Machine} {K : List StmtId → Memory}
  {F : List StmtId → Fitness} {rules : PathRules} {met : Fact → Prop}

/-- Facts that met may be the same for all passes, and everything else for one pass at a time. -/
structure Shared (rules : PathRules) (met : Fact → Prop) (K : List StmtId → Memory) : Prop where
  rules : ∀ sources, (K sources).rules = rules
  met : ∀ sources, (K sources).met = met
  registry : ∀ sources, (K sources).registry ∅

theorem passesBy_remembers (hK : Shared rules met K) {l : List (List StmtId)} {r : Results}
    {Q : SinkHit → Prop}
    (hs : ∀ sources ∈ l, (a.passSetup sources sinks).Bears (World.Remembers (K sources)) (F sources))
    (hQ : ∀ sources ∈ l, ∀ h, (K sources).hit h → Q h) (hpaths : m.world.paths.rules = rules)
    (hm : ∀ f, ∀ g ∈ m.world.neighborsOf f, met g) (hr : ∀ h ∈ r.hits, Q h) (σ : Nat → Schedule) :
    let out := a.passesBy σ sinks l m r
    (∀ f, ∀ g ∈ out.1.world.neighborsOf f, met g) ∧ (∀ h ∈ out.2.hits, Q h) ∧
      out.2.groups = r.groups := by
  induction l generalizing m r with
  | nil => exact ⟨hm, hr, rfl⟩
  | cons sources rest ih =>
    have hnext : (nextMachine m).world.Remembers (K sources) :=
      ⟨hpaths.trans (hK.rules sources).symm, forall_mem_nil _, forall_mem_nil _,
        hK.met sources ▸ hm, hK.registry sources⟩
    have hpass : (a.passBy (σ rest.length) sources sinks m).world.Remembers (K sources) :=
      (a.bears_after sources sinks m (hs sources mem_cons_self) hnext
        (σ rest.length).pick (σ rest.length).tasks).world
    have hmet := hpass.met
    rw [hK.met] at hmet
    have hhits : ∀ h ∈ r.hits ++ (a.passBy (σ rest.length) sources sinks m).world.results, Q h := by
      intro h hh
      rcases mem_append.mp hh with hh | hh
      · exact hr h hh
      · exact hQ sources mem_cons_self h (hpass.hits h hh)
    unfold passesBy
    dsimp only
    split
    · exact ⟨hmet, hhits, rfl⟩
    · exact ih (fun l hl => hs l (mem_cons_of_mem sources hl))
        (fun l hl => hQ l (mem_cons_of_mem sources hl)) (hpass.rules.trans (hK.rules sources)) hmet
        hhits

end Analysis
end LeakTrace
