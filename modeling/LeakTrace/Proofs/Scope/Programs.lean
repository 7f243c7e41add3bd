import LeakTrace.Proofs.Graph.Layout
import LeakTrace.Proofs.Scope.Runs

/-!
# Facts stay in scope

In an assembled program the methods are regions that control flow never leaves. If every statement
mentions only locals of its own method, then **both solvers only ever know facts about locals of the
method they are at**, whatever the order of their tasks. Thrown exceptions are exempt: they keep the
name they were thrown under until they are caught.
-/

namespace LeakTrace
variable {p : Program} {extra : List (StmtId × MethodId)} {n : StmtId} {t : Taint}

instance {P : Local → Prop} [DecidablePred P] {v : Value} : Decidable (v.Within P) :=
  decidable_of_iff (∀ l ∈ v.atoms.filterMap Atom.local?, P l) <| by
    simp only [List.mem_filterMap, Value.Within]
    refine ⟨fun h l hl => h l ⟨_, hl, rfl⟩, fun h l ⟨a, ha, hl⟩ => h l ?_⟩
    cases a with
    | «local» l' =>
      cases hl
      exact ha
    | field | ty => cases hl

/-- Statements mention only locals of their own method. -/
def Program.Scoped (p : Program) : Prop :=
  ∀ n, ∀ v ∈ (p.stmt n).values, v.Within (· ∈ (p.methodOf n).locals)

theorem Program.scoped_of_stmts
    (h : ∀ s ∈ p.stmts.toList, ∀ v ∈ s.values, v.Within (· ∈ (p.method s.method).locals)) :
    p.Scoped := by
  intro n v hv
  unfold methodOf stmt at *
  cases hn : p.stmts[n]? with
  | none =>
    rw [hn] at hv
    cases hv
  | some s =>
    rw [hn] at hv
    exact h s (Array.mem_toList_iff.mpr (Array.mem_of_getElem? hn)) v hv

section
variable {e : Env} (hp : p.Assembled) (hgraph : e.graph = .ofProgram p extra)
include hp hgraph

theorem Program.Assembled.stmt_ids (n : StmtId) : (e.stmt n).id = n := by
  have hstmt : e.stmt n = p.stmt n := congrArg (fun g => g.program.stmt n) hgraph
  rw [hstmt]
  exact hp.laidOut.ids n

theorem Program.Assembled.method_ids (m : MethodId) : (e.method m).id = m := by
  have hmethod : e.method m = p.method m := congrArg (fun g => g.program.method m) hgraph
  rw [hmethod]
  exact (hp.laidOut.laidOut_method m).id

end

/-- The statements of a method, with some locals. -/
def Program.regionOf (p : Program) (locals : MethodId → Local → Prop) (m : MethodId) : Region where
  stmts n := (p.stmt n).method = m
  locals := locals m

theorem Program.Assembled.partition {e : Env} {locals : MethodId → Local → Prop} (hp : p.Assembled)
    (hgraph : e.graph = .ofProgram p extra)
    (hvalues : ∀ n, ∀ v ∈ (p.stmt n).values, v.Within (locals (p.stmt n).method))
    (hown : ∀ m, ∀ l ∈ (p.method m).locals, locals m l)
    (hlazy : e.config.aliasing.isLazy = true → ∀ m l, locals m l)
    (himplicit : e.config.implicitFlows.tracksControlFlow = false) :
    Partition e (p.regionOf locals) := by
  have hlaid := hp.laidOut
  have hprogram : e.program = p := congrArg Graph.program hgraph
  have hstmt : ∀ n, e.stmt n = p.stmt n := fun n => congrArg (Program.stmt · n) hprogram
  have hmethod : ∀ m, e.method m = p.method m := fun m => congrArg (Program.method · m) hprogram
  have hholds : ∀ n, e.graph.methodOf n = (p.stmt n).method :=
    fun n => congrArg Stmt.method (hstmt n)
  refine ⟨fun m => ?_, fun m => ?_, fun n => ?_, fun m n hn => ?_⟩
  · -- Regions are closed.
    refine
      { id := fun n hn => ?_, values := fun n hn v hv => ?_, body := fun n hn k hk => ?_,
        succs := fun n hn t ht => ?_, preds := fun n hn t ht => ?_,
        isLazy := fun h => hlazy h m,
        implicit := fun h => absurd h (by simp [himplicit]) }
    · rw [hstmt, hlaid.ids]
      exact hn
    · rw [hstmt] at hv
      have hwithin := hvalues n v hv
      rw [hn] at hwithin
      exact hwithin
    · rw [hstmt, hn, hmethod] at hk
      exact (hlaid.laidOut_method m).stmts k hk
    · rw [hgraph] at ht
      exact (hlaid.method_succs ht).trans hn
    · rw [hgraph] at ht
      exact (hlaid.method_preds ht).trans hn
  · -- Methods lie in their regions.
    refine ⟨fun n hn => ?_, fun l hl => ?_, fun l hl => ?_⟩
    · rw [hmethod] at hn
      exact (hlaid.laidOut_method m).stmts n hn
    · rw [hmethod] at hl
      exact hown m l ((hlaid.laidOut_method m).params l hl)
    · rw [hmethod] at hl
      exact hown m l ((hlaid.laidOut_method m).self l hl)
  · exact (hholds n).symm
  · rw [hholds, hn]

/-! ## Messages -/

variable {e : Env} {ρ : MethodId → Region}

/-- The edge that is asked for is about a fact that fits where the edge ends. -/
def Message.Placed (e : Env) (ρ : MethodId → Region) : Message → Prop
  | .edge _ _ n g => Region.Places e ρ n g.toTaint
  | .abort => True

theorem Upkeep.placed : Upkeep.Lasting e
    (Message.Placed e ρ) (fun _ => True) fun w => ∀ msg ∈ w.outbox, msg.Placed e ρ where
  toUpkeep := .of_outbox (J := fun l _ => ∀ msg ∈ l, Message.Placed e ρ msg) trivial
    fun hm hl => List.forall_mem_cons.mpr ⟨hm, hl⟩
  emptied _ _ := List.forall_mem_nil _
  covered _ _ hw := hw

theorem Partition.placed (hρ : Partition e ρ) {m : MethodId} (hn : (ρ m).stmts n)
    (ht : t.Fits (ρ m).locals) : Region.Places e ρ n t := by
  unfold Region.Places
  rw [hρ.locals m n hn]
  exact ht

theorem Taint.Fits.anywhere (ht : t.Fits fun _ => False) : Region.Places e ρ n t :=
  ⟨ht.root.imp_right (·.mono fun _ => False.elim)⟩

theorem Partition.asked (hρ : Partition e ρ) :
    Fitness.any.Asked (fun _ _ _ => True) e ρ (Message.Placed e ρ) where
  sends _ _ :=
    { search := fun _ _ hn hg => hρ.placed hn (hg.deactivate trivial).toFits
      pointsTo := fun _ _ hn hg => hρ.placed hn hg.toFits
      global := fun _ hg => hg.toFits.anywhere }
  hands _ :=
    { here := fun hn hg => hρ.placed hn hg.toFits, global := fun _ hg => hg.toFits.anywhere }

theorem Setup.bears_placed {k : Nat} (hz : e.zero = .zero k) (hρ : Partition e ρ) (watch : Watch) :
    (Setup.ofEnv e watch).Bears (fun w => ∀ msg ∈ w.outbox, msg.Placed e ρ)
      (.ofTaints fun _ => Region.Places e ρ) := by
  rw [← Fitness.within_any]
  refine Setup.bears_ofEnv Upkeep.placed hz hρ (Fitness.any_handedOn (fun _ _ => trivial)
    (fun _ _ hw => hw) fun _ _ hw => hw) hρ.asked fun _ hw _ _ _ _ hmem => ⟨hw _ hmem, trivial⟩

/-! ## Scope -/

/-- `main` hands what it gets from a source to `keep`, which copies it. -/
def handOver : Program :=
  let text : Ty := .cls "java.lang.String"
  let main : MethodRef := ⟨"App", "main", [], .void⟩
  let keep : MethodRef := ⟨"App", "keep", [text], .void⟩
  let x : Local := ⟨0, "x", text⟩
  let p := (Program.empty.openBody main true [("x", text)]).closeBody
    [.assign (.var x) (.call .static ⟨"App", "source", [], text⟩ none []),
      .call ⟨.static, keep, none, [.var x]⟩, .retVoid] []
  let p := (p.openBody keep true [("y", text)]).closeBody
    [.assign (.var ⟨2, "y", text⟩) (.var ⟨1, "p0", text⟩), .retVoid] []
  p.addEntry 0

theorem assembled_handOver : handOver.Assembled := by
  refine .addEntry 0 (.addBody _ true _ ?_ nofun (.addBody _ true _ ?_ nofun .empty))
  · decide
  · decide

theorem scoped_handOver : handOver.Scoped := Program.scoped_of_stmts (by decide)

def handOverAnalysis : Analysis where
  env :=
    { graph := .ofProgram handOver []
      oracle := ({} : Oracle).addSource ⟨"App", "source", [], .cls "java.lang.String"⟩ [.result] }

end LeakTrace
