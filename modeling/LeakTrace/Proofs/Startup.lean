import LeakTrace.Proofs.Dispatch.Callees
import LeakTrace.Run

/-!
# When a run is refused

A run is refused if nothing is listed as reachable. **An entry point is listed whether it has a body
or not.** With entry points a run is therefore never refused, even where no method that they reach
has a body; without them exactly the methods with a body are listed.
-/

namespace LeakTrace
variable {p q : Program} {extra : List (StmtId × MethodId)} {e : Env} {watch : Watch}
  {cancelled : Bool}

/-! ## Native methods have no body -/

namespace Program

theorem Built.isConcrete_eq (h : p.Built) : ∀ M ∈ p.methods, M.isConcrete = M.hasBody := by
  refine h.of_steps (I := fun p => ∀ M ∈ p.methods, M.isConcrete = M.hasBody) (by simp [Program.empty])
    (fun ih _ hmethods => hmethods ▸ ih) fun ih hM hnative => hM.forall_method ih ?_
  rcases hnative with hnative | hbody
  · simp [Method.isConcrete, hnative]
  · simp [Method.isConcrete, Method.hasBody, hbody]

end Program

/-! ## The check -/

/-- Control can reach the method from an entry point; without entry points every method counts. -/
def Graph.CanReach (g : Graph) (m : MethodId) : Prop :=
  (g.program.entries = [] ∧ m < g.program.methods.size) ∨
    ∃ k ∈ g.program.entries, Relation.ReflTransGen g.Invokes k m

theorem Graph.reachable_eq_nil_iff (hp : p.Built) (hextra : InRange p extra) :
    (ofProgram p extra).reachable = [] ↔
      p.entries = [] ∧ ∀ m, (ofProgram p extra).CanReach m → (p.method m).hasBody = false := by
  by_cases hentries : p.entries = []
  · have hreachable : (ofProgram p extra).reachable =
        (p.methods.filter (·.isConcrete)).toList.map (·.id) := by
      show reachableFrom p (ofProgram p extra).callees = _
      rw [reachableFrom, hentries]
      rfl
    have hnone : (ofProgram p extra).reachable = [] ↔ ∀ M ∈ p.methods, M.hasBody = false := by
      rw [hreachable]
      simp +contextual [hp.isConcrete_eq]
    rw [hnone]
    constructor
    · refine fun h => ⟨hentries, fun m _ => ?_⟩
      unfold Program.method
      cases hM : p.methods[m]? with
      | none => rfl
      | some M => exact h M (Array.mem_of_getElem? hM)
    · rintro ⟨-, h⟩ M hM
      obtain ⟨m, hm, rfl⟩ := Array.getElem_of_mem hM
      simpa [Program.method, hm] using h m (.inl ⟨hentries, hm⟩)
  · have hlisted : (ofProgram p extra).reachable ≠ [] := by
      obtain ⟨k, hk⟩ := List.exists_mem_of_ne_nil _ hentries
      exact List.ne_nil_of_mem ((mem_reachable_iff hp.regular hextra hentries).mpr ⟨k, hk, .refl⟩)
    simp [hlisted, hentries]

/-- **With an entry point a run is never refused.** With valid settings it is refused exactly if
there is no entry point and no method has a body. -/
theorem Analysis.create_refuses_iff (hp : p.Built) (hextra : Graph.InRange p extra)
    (hgraph : e.graph = .ofProgram p extra) (hvalid : e.config.check = .ok ()) :
    Analysis.create e watch cancelled = .error .noBody ↔
      p.entries = [] ∧ ∀ m, e.graph.CanReach m → (e.method m).hasBody = false := by
  have hempty : Analysis.create e watch cancelled = .error .noBody ↔ e.graph.reachable = [] := by
    unfold Analysis.create
    rw [hvalid]
    cases hr : e.graph.reachable <;> simp
  have hprogram : e.program = p := congrArg Graph.program hgraph
  simp only [hempty, hgraph, Graph.reachable_eq_nil_iff hp hextra, Env.method, hprogram]

/-! ## Methods that are only declared -/

def declared : Program := Program.empty.addMethod ⟨"App", "main", [], .void⟩ true false

def declaredOnly : Env where
  graph := .ofProgram declared []

theorem declaredOnly_refused : Analysis.create declaredOnly {} false = .error .noBody := by
  refine (Analysis.create_refuses_iff (.addMethod _ _ _ .empty) (List.forall_mem_nil _) rfl
    rfl).mpr ⟨rfl, ?_⟩
  rintro m (⟨-, hm⟩ | ⟨k, hk, -⟩)
  · rw [Nat.lt_one_iff.mp hm]
    rfl
  · cases hk

/-- The method is an entry point as well. -/
def declaredEntry : Env where
  graph := .ofProgram (declared.addEntry 0) []

/-- No method that can be reached has a body, and the run is not refused. -/
theorem declaredEntry_accepted :
    (∀ m, declaredEntry.graph.CanReach m → (declaredEntry.method m).hasBody = false) ∧
      ∀ error, Analysis.create declaredEntry {} false ≠ .error error := by
  constructor
  · rintro (_ | m) - <;> rfl
  · intro error h
    cases h

end LeakTrace
