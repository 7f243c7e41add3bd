import LeakTrace.Proofs.Scope.Roots
import LeakTrace.Run

/-!
# Sources and sinks of a program

What the oracle answers about a statement depends on the rules for paths and on nothing that happens
during a run, and a statement that is a sink for some path is a sink in general, by the same
definition. The statements that a run starts from and looks at are found in reachable methods.
-/

namespace LeakTrace
namespace Oracle
variable {o : Oracle} {p : Program} {s : Stmt} {r : PathRules}

theorem callSource?_settled : (o.callSource? s).Settled r := by
  unfold callSource?
  dsimp only
  split
  · exact .pure
  · exact Paths.Settled.bind (.filterMapM fun _ _ => Paths.ofValue_settled) fun _ => .pure

theorem paramSource?_settled : (o.paramSource? p s).Settled r := by
  unfold paramSource?
  split
  · dsimp only
    split
    · exact .pure
    · exact .ite (Paths.ofValue_settled.bind fun _ => .pure) .pure
  · exact .pure

theorem source?_settled : (o.source? p s).Settled r := by
  refine callSource?_settled.bind fun i => ?_
  cases i with
  | some i => exact .pure
  | none => exact paramSource?_settled

theorem sink?_none_of_path {path : Option Path} {d : Definition} (h : o.sink? p s path = some d) :
    o.sink? p s none = some d := by
  unfold sink? at h ⊢
  dsimp only at h ⊢
  split at h
  · exact (Option.ite_none_right_eq_some.mp h).2
  · split at h
    · cases h
    · obtain ⟨hhit, hd⟩ := Option.ite_none_right_eq_some.mp h
      rw [Bool.and_true, if_pos (Bool.and_eq_true_iff.mp hhit).1]
      exact hd

end Oracle

/-! ## The statements of a run -/

def Env.Covers (e : Env) (n : StmtId) : Prop := ∃ m ∈ e.graph.reachable, n ∈ (e.method m).body

namespace Analysis
variable {e : Env} {paths : PathStore}

theorem prescan_gives (e : Env) (l : List Stmt) :
    Paths.Gives (l.filterM fun s => do return (← e.oracle.source? e.program s).isSome)
      fun found => ∀ s ∈ found, s ∈ l :=
  fun r => .filterM fun _ _ => (Paths.Gives.of_settled (fun _ => Oracle.source?_settled) r).bind
    fun _ _ => .pure trivial

theorem rules_prescan : (prescan e paths).2.2.rules = paths.rules := (prescan_gives e _ _ paths rfl).2

variable (hids : ∀ n, (e.stmt n).id = n)
include hids

theorem covers_of_mem {l : List Stmt}
    (hl : ∀ s ∈ l, s ∈ (e.graph.reachable.flatMap fun m => (e.method m).body).map e.stmt) :
    ∀ n ∈ (l.map (·.id)).mergeSort (· ≤ ·), e.Covers n := by
  intro n hn
  obtain ⟨s, hs, rfl⟩ := List.mem_map.mp (List.mem_mergeSort.mp hn)
  obtain ⟨k, hk, rfl⟩ := List.mem_map.mp (hl s hs)
  obtain ⟨m, hm, hbody⟩ := List.mem_flatMap.mp hk
  rw [hids]
  exact ⟨m, hm, hbody⟩

theorem covers_source : ∀ n ∈ (prescan e paths).1, e.Covers n :=
  covers_of_mem hids (prescan_gives e _ _ paths rfl).1

theorem covers_sink : ∀ n ∈ (prescan e paths).2.1, e.Covers n :=
  covers_of_mem hids fun _ hs => (List.mem_filter.mp hs).1

end Analysis
end LeakTrace
