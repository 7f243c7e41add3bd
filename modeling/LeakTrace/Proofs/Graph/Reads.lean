import LeakTrace.Proofs.Graph.Joins
import LeakTrace.Proofs.Parts

/-!
# What a statement reads

`Stmt.uses` lists what it meets on a walk through the statement. **A value is listed iff it stands in
the statement at some depth, other than as the place that is assigned.** So of the arguments of a
method, its table of read locals has those that some statement reads; the receiver, which it has in
any case, is none of them.
-/

namespace LeakTrace
open List

/-- The value stands in a right side, a condition, what is returned or thrown, or a call, or it stands
in what the left side is made of. The left side itself is written, not read. -/
def Stmt.Reads (s : Stmt) (u : Value) : Prop :=
  match s.action with
  | .entry _ rhs => u.StandsIn rhs
  | .assign lhs rhs => (∃ w ∈ lhs.parts, u.StandsIn w) ∨ u.StandsIn rhs
  | .call c => u.StandsIn c.toValue
  | .ret v | .throw v | .branch v _ => u.StandsIn v
  | .retVoid | .jump _ | .skip => False

/-- What the runtime hands over comes as a whole. -/
def Action.entersWhole : Action → Bool
  | .entry _ rhs => rhs.parts.isEmpty
  | _ => true

theorem Stmt.mem_uses_iff {s : Stmt} {u : Value} (hs : s.action.entersWhole) :
    u ∈ s.uses ↔ s.Reads u := by
  unfold Stmt.uses Stmt.Reads
  cases hact : s.action with
  | entry l rhs =>
    have hparts : rhs.parts = [] := by simpa [hact, Action.entersWhole] using hs
    simp [Value.standsIn_iff (v := rhs), hparts]
  | assign lhs rhs => rw [mem_append, Value.mem_uses_iff, Value.mem_cons_uses_iff]
  | call c =>
    rw [mem_append, or_comm, ← mem_append]
    exact Value.mem_cons_uses_iff c.toValue
  | ret v | throw v | branch v _ => exact Value.mem_cons_uses_iff v
  | retVoid | jump | skip => simp

/-! ## The table of read arguments -/

theorem Program.Built.self_ne {p : Program} (h : p.Built) :
    ∀ M ∈ p.methods, ∀ l ∈ M.params, M.self ≠ some l :=
  h.of_steps (I := fun p => ∀ M ∈ p.methods, ∀ l ∈ M.params, M.self ≠ some l) (by simp [Program.empty])
    (fun ih _ hmethods => hmethods ▸ ih) fun ih hM _ => hM.forall_method ih fun l hl hself =>
      (hM.params l hl).2 (hM.self l hself).2

namespace Graph

theorem touchedBy_ofProgram (p : Program) (extra : List (StmtId × MethodId)) (m : MethodId) :
    (ofProgram p extra).touchedBy m = p.touched (p.method m) := by
  show (p.methods.map p.touched)[m]?.getD {} = _
  rw [Program.method, Array.getElem?_map]
  cases p.methods[m]? <;> rfl

theorem mem_touched_reads_iff (p : Program) {M : Method} {l : Local} (hM : M.isConcrete)
    (hl : l ∈ M.params) (hself : M.self ≠ some l) :
    l ∈ (p.touched M).reads ↔ ∃ n ∈ M.body, .var l ∈ (p.stmt n).uses := by
  simp only [Program.touched, hM, if_true, mem_append, mem_flatMap, mem_filterMap, Option.mem_toList]
  grind

/-- A statement lists the values that it reads, locals and static fields among them, and no others;
and a method with a body counts an argument as read iff some statement of the method reads it. -/
theorem read_tables_exact {p : Program} (hp : p.Built) (hwhole : ∀ s ∈ p.stmts, s.action.entersWhole)
    (extra : List (StmtId × MethodId)) :
    let g := ofProgram p extra
    (∀ n u, u ∈ (g.stmt n).uses ↔ (g.stmt n).Reads u) ∧
    ∀ m, (g.method m).isConcrete → ∀ l ∈ (g.method m).params,
      (g.reads m l ↔ ∃ n ∈ (g.method m).body, (g.stmt n).Reads (.var l)) := by
  intro g
  have huses : ∀ n u, u ∈ (g.stmt n).uses ↔ (g.stmt n).Reads u := by
    refine fun n u => Stmt.mem_uses_iff ?_
    show (p.stmts[n]?.getD ⟨n, 0, .skip⟩).action.entersWhole
    cases hn : p.stmts[n]? with
    | none => rfl
    | some s => exact hwhole s (Array.mem_of_getElem? hn)
  refine ⟨huses, ?_⟩
  intro m hm l hl
  have hself : (p.method m).self ≠ some l := by
    replace hl : l ∈ (p.method m).params := hl
    unfold Program.method at hl ⊢
    cases hM : p.methods[m]? with
    | none => nofun
    | some M =>
      rw [hM] at hl
      exact hp.self_ne M (Array.mem_of_getElem? hM) l hl
  rw [reads, List.contains_iff_mem, touchedBy_ofProgram]
  refine (mem_touched_reads_iff p hm hl hself).trans ?_
  exact exists_congr fun n => and_congr_right fun _ => huses n (.var l)

end Graph

/-- A method of an object that stores a static field in an array. The second argument is read inside
the index, and the third is only assigned. -/
def ledger : Program :=
  let lines : Local := ⟨1, "p0", .array .int⟩
  (Program.empty.openBody ⟨"Ledger", "post", [.array .int, .int, .int], .void⟩ false []).closeBody
    [.assign (.element lines (.binary .add (.var ⟨2, "p1", .int⟩) (.const (.int 1))))
      (.global ⟨"Ledger", "total", .int, true⟩),
    .assign (.var ⟨3, "p2", .int⟩) (.const (.int 0)), .retVoid] []

theorem ledger_read_tables :
    let g := Graph.ofProgram ledger []
    ledger.Built ∧ (∀ s ∈ ledger.stmts, s.action.entersWhole) ∧
    (∃ n ∈ (g.method 0).body, (g.stmt n).Reads (.var ⟨2, "p1", .int⟩)) ∧
      ∀ n ∈ (g.method 0).body, ¬(g.stmt n).Reads (.var ⟨3, "p2", .int⟩) := by
  intro g
  have hbuilt : ledger.Built := .addBody _ _ _ _ _ .empty
  have hwhole : ∀ s ∈ ledger.stmts, s.action.entersWhole := by decide +kernel
  have hexact := (Graph.read_tables_exact hbuilt hwhole []).2 0 (by decide +kernel)
  refine ⟨hbuilt, hwhole, (hexact _ (by decide +kernel)).mp (by decide +kernel),
    fun n hn hreads => ?_⟩
  exact absurd ((hexact _ (by decide +kernel)).mpr ⟨n, hn, hreads⟩) (by decide +kernel)

end LeakTrace
