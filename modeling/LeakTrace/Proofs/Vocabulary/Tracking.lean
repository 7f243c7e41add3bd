import LeakTrace.Proofs.Keeps.Callees
import LeakTrace.Proofs.Keeps.Results
import LeakTrace.Proofs.Solve.Tables
import LeakTrace.Proofs.Vocabulary.Paths

/-!
# Tracking stays in the vocabulary

A vocabulary covers a program if everything that the program says is over it. Tracking then keeps
the world over the vocabulary: what the store of paths knows, and what waits in the outbox.
-/

namespace LeakTrace
open List

variable {c : Call}

/-! ## Programs -/

def Stmt.values (s : Stmt) : List Value :=
  match s.action with
  | .entry l rhs => [.var l, rhs]
  | .assign lhs rhs => [lhs, rhs]
  | .call c => [c.toValue]
  | .ret v | .throw v | .branch v _ => [v]
  | .retVoid | .jump _ | .skip => []

namespace Stmt
variable {s : Stmt} {v : Value}

theorem standsIn_of_mem_uses (h : v ∈ s.uses) : ∃ u ∈ s.values, v.StandsIn u := by
  unfold uses at h
  unfold values
  have hself (u : Value) : u.StandsIn u := .refl
  have huses := @Value.StandsIn.of_mem_uses v
  cases hact : s.action <;> grind

theorem mem_values_of_lhs (h : v ∈ s.lhs?) : v ∈ s.values := by
  unfold lhs? at h
  unfold values
  cases hact : s.action <;> simp_all

theorem mem_values_of_rhs (h : v ∈ s.rhs?) : v ∈ s.values := by
  unfold rhs? at h
  unfold values
  cases hact : s.action <;> simp_all

theorem mem_values_of_returned (h : v ∈ s.returned?) : v ∈ s.values := by
  unfold returned? at h
  unfold values
  cases hact : s.action <;> simp_all

theorem mem_values_of_call (h : s.call? = some c) : c.toValue ∈ s.values := by
  unfold call? at h
  unfold values
  cases hact : s.action with
  | assign lhs rhs =>
    rw [hact] at h
    dsimp only at h
    unfold Value.call? at h
    split at h
    · cases h
      exact mem_cons_of_mem _ mem_cons_self
    · cases h
  | _ => simp_all

end Stmt

/-- The definition of a source with the given signature. -/
def Definition.ofSource (signature : String) : Definition := ⟨.source, signature, none⟩

/-- Everything that the program says is over the vocabulary. -/
structure Vocabulary.Covers (V : Vocabulary) (e : Env) : Prop extends V.Closed where
  id : ∀ n ∈ V.stmts, (e.stmt n).id ∈ V.stmts
  values : ∀ n ∈ V.stmts, ∀ v ∈ (e.stmt n).values, v.Over V
  callSource : ∀ n ∈ V.stmts, ∀ c ∈ (e.stmt n).call?,
    Definition.ofSource c.method.signature ∈ V.definitions
  paramSource : ∀ n ∈ V.stmts,
    Definition.ofSource (e.program.method (e.stmt n).method).signature ∈ V.definitions
  params : ∀ m, ∀ l ∈ (e.method m).params, l ∈ V.locals
  self : ∀ m, ∀ l ∈ (e.method m).self, l ∈ V.locals
  body : ∀ m, ∀ n ∈ (e.method m).body, n ∈ V.stmts
  succs : ∀ n ∈ V.stmts, ∀ t ∈ e.graph.forward.succs n, t ∈ V.stmts
  preds : ∀ n ∈ V.stmts, ∀ t ∈ e.graph.forward.preds n, t ∈ V.stmts
  callers : ∀ m, ∀ n ∈ e.graph.callersOf m, n ∈ V.stmts
  join : ∀ n ∈ V.stmts, e.graph.joinOf n ∈ V.joins
  zero : e.zero.Over V

def Vocabulary.HasStmt (V : Vocabulary) (e : Env) (s : Stmt) : Prop := ∃ n ∈ V.stmts, e.stmt n = s

variable {V : Vocabulary} {e : Env}

namespace Vocabulary.Covers
variable {s : Stmt}

section
variable (hV : V.Covers e) (hs : V.HasStmt e s)
include hV hs

theorem stmt_id : s.id ∈ V.stmts := by
  obtain ⟨n, hn, rfl⟩ := hs
  exact hV.id n hn

theorem over_values : ∀ v ∈ s.values, v.Over V := by
  obtain ⟨n, hn, rfl⟩ := hs
  exact hV.values n hn

theorem over_assign {lhs rhs : Value} (h : s.action = .assign lhs rhs) :
    lhs.Over V ∧ rhs.Over V := by
  simpa [Stmt.values, h] using hV.over_values hs

theorem over_lhs : ∀ v ∈ s.lhs?, Value.Over V v :=
  fun v hv => hV.over_values hs v (Stmt.mem_values_of_lhs hv)

theorem over_returned : ∀ v ∈ s.returned?, Value.Over V v :=
  fun v hv => hV.over_values hs v (Stmt.mem_values_of_returned hv)

theorem over_uses : ∀ v ∈ s.uses, v.Over V := by
  intro v hv
  obtain ⟨u, hu, hvu⟩ := Stmt.standsIn_of_mem_uses hv
  exact (hV.over_values hs u hu).standsIn hvu

theorem over_call (hc : s.call? = some c) :
    (∀ l ∈ c.base, l ∈ V.locals) ∧ ∀ v ∈ c.args, v.Over V := by
  have hvalue : c.toValue.Over V := hV.over_values hs _ (Stmt.mem_values_of_call hc)
  exact (Value.over_call.mp hvalue).2

end
end Vocabulary.Covers

/-! ## Worlds -/

def Message.Over (V : Vocabulary) : Message → Prop
  | .edge _ d1 s d2 => d1.Over V ∧ s ∈ V.stmts ∧ d2.Over V
  | .abort => True

/-- What the store of paths knows and what waits for the solvers is over the vocabulary. -/
structure World.Over (V : Vocabulary) (w : World) : Prop where
  paths : w.paths.Over V
  outbox : ∀ m ∈ w.outbox, Message.Over V m

theorem World.Over.of_eq {w w' : World} (h : w.Over V) (hp : w'.paths = w.paths)
    (ho : w'.outbox = w.outbox) : w'.Over V :=
  ⟨hp ▸ h.paths, ho ▸ h.outbox⟩

def Fact.OverOpt (V : Vocabulary) (f : Option Fact) : Prop := ∀ g ∈ f, Fact.Over V g

namespace Track
variable {f d1 g : Fact} {a : AccessPath} {p : Option AccessPath} {s : Stmt} {v : Value} {α : Type}

theorem fresh_keeps : Keeps e (World.Over V) fresh :=
  fun _ hw => ⟨trivial, hw.of_eq rfl rfl⟩

theorem paths_keeps {act : Paths α} {Q : α → Prop} (h : act.Keeps (PathStore.Over V) Q) :
    Keeps e (World.Over V) (paths act) Q := by
  intro w hw
  obtain ⟨hq, hs⟩ := h w.paths hw.paths
  exact ⟨hq, hs, hw.outbox⟩

theorem modify_bind {F : World → World} {k : Unit → Track α} {Q : α → Prop}
    (hp : ∀ w, (F w).paths = w.paths) (ho : ∀ w, (F w).outbox = w.outbox)
    (hk : Keeps e (World.Over V) (k ()) Q) : Keeps e (World.Over V) (modify F >>= k) Q :=
  Keeps.bind (.modify (Q := fun _ => True) trivial fun w hw => hw.of_eq (hp w) (ho w))
    fun _ _ => hk

theorem derive_keeps (hf : f.Over V) (hp : Paths.Yields V p) {stmt : Option StmtId} :
    Keeps e (World.Over V) (derive f p stmt) (Fact.OverOpt V) :=
  fresh_keeps.bind fun _ _ => .pure (hf.deriveAs? hp)

theorem deriveAt_keeps (hf : f.Over V) {stmt : StmtId} :
    Keeps e (World.Over V) (deriveAt f stmt) (Fact.OverOpt V) :=
  derive_keeps hf (.some hf.path)

/-! ## Messages -/

theorem send_keeps {m : Message} (hm : m.Over V) : Keeps e (World.Over V) (send m) := by
  refine .modify trivial fun w hw => ⟨hw.paths, fun m' hm' => ?_⟩
  rcases mem_cons.mp hm' with rfl | hm'
  · exact hm
  · exact hw.outbox m' hm'

theorem sendEdge_keeps {side : Side} {n : StmtId} (h1 : d1.Over V) (hn : n ∈ V.stmts)
    (hf : f.Over V) : Keeps e (World.Over V) (sendEdge side d1 n f) := by
  refine .read ?_
  dsimp only
  exact .ite (send_keeps ⟨h1, hn, hf⟩) <| .pure trivial

/-! ## Sources and results -/

end Track

structure SourceInfo.Over (V : Vocabulary) (i : SourceInfo) : Prop where
  definition : i.definition ∈ V.definitions
  paths : ∀ a ∈ i.paths, Path.Over V a.toPath

namespace Oracle
variable {s : Stmt} {o : Oracle}

theorem source?_over (hV : V.Covers e) (hs : V.HasStmt e s) :
    (o.source? e.program s).Keeps (PathStore.Over V) fun i => ∀ x ∈ i, SourceInfo.Over V x := by
  refine source?_keeps (fun _ hv => Paths.ofValue_keeps hV.toClosed hv)
    (fun _ _ hact => (hV.over_assign hs hact).1) (fun c hc => ?_)
    (fun _ _ _ hact => hV.over_lhs hs _ (by simp [Stmt.lhs?, hact])) ?_ ?_
  · obtain ⟨hbase, hargs⟩ := hV.over_call hs hc
    exact ⟨fun l hl => Value.over_var.mpr (hbase l hl), hargs⟩
  · obtain ⟨n, hn, rfl⟩ := hs
    exact fun c hc _ hps => ⟨hV.callSource n hn c hc, hps⟩
  · obtain ⟨n, hn, rfl⟩ := hs
    exact fun _ hps => ⟨hV.paramSource n hn, hps⟩

end Oracle

namespace Track
variable {f d1 g : Fact} {a : AccessPath} {p : Option AccessPath} {s : Stmt} {v : Value}
  {n call : StmtId}

theorem sourceInfo_keeps (hV : V.Covers e) (hn : n ∈ V.stmts) :
    Keeps e (World.Over V) (sourceInfo n) fun i => ∀ x ∈ i, SourceInfo.Over V x := by
  refine .read (.ite ?_ <| .pure all_none)
  exact paths_keeps (Oracle.source?_over hV ⟨n, hn, rfl⟩)

theorem sinkInfo_keeps {path : Option Path} : Keeps e (World.Over V) (sinkInfo s path) :=
  .read (.pure trivial)

theorem addResult_keeps {d : Definition} : Keeps e (World.Over V) (addResult d f n) := by
  refine (addResult_of (c := ⟨d, f, n⟩) (fun hw => hw.of_eq rfl rfl) (fun hw _ => hw.of_eq rfl rfl)
    (fun hw _ => World.addNeighbor_of fun _ => hw.of_eq rfl rfl) fun hw => ?_).mono
    fun _ _ => trivial
  exact ⟨hw.paths, forall_mem_cons.mpr ⟨trivial, hw.outbox⟩⟩

/-! ## Static fields that hold everywhere -/

theorem mem_stmts_of_mem_readers (hV : V.Covers e) {field : Field} :
    ∀ n ∈ readers e field, n ∈ V.stmts := by
  intro n hn
  obtain ⟨m, -, hm⟩ := mem_flatMap.mp hn
  split at hm
  · exact hV.body m n (mem_filter.mp hm).1
  · cases hm

theorem addGlobal_keeps (hV : V.Covers e) (hf : f.Over V) :
    Keeps e (World.Over V) (addGlobal f) := by
  refine .read (.get fun w _ => .guard trivial ?_)
  refine modify_bind (fun _ => rfl) (fun _ => rfl) ?_
  split
  · exact .pure trivial
  · next field _ =>
    have hloop : Keeps e (World.Over V) (forIn (readers e field) PUnit.unit fun n _ => do
        sendEdge .forward e.zero n f
        sendEdge .backward e.zero n f
        pure (ForInStep.yield PUnit.unit)) := by
      refine .forIn (fun n hn _ _ => ?_) trivial
      have hn' := mem_stmts_of_mem_readers hV n hn
      exact (sendEdge_keeps hV.zero hn' hf).bind fun _ _ =>
        (sendEdge_keeps hV.zero hn' hf).bind fun _ _ => .pure trivial
    exact hloop.bind fun _ _ => .pure trivial

/-! ## Activation of aliases -/

theorem registerActivation_keeps {callee : MethodId} :
    Keeps e (World.Over V) (registerActivation call callee f) := by
  refine .read ?_
  split
  · refine .guard trivial <| .get fun w _ => ?_
    refine .guard trivial <| .guard trivial ?_
    exact modify_bind (fun _ => rfl) (fun _ => rfl) (.pure trivial)
  · exact .pure trivial

theorem activateAt_keeps (hf : f.Over V) :
    Keeps e (World.Over V) (activateAt f n) (Fact.Over V) := by
  refine .guard hf <| .ite ?_ ?_
  · exact fresh_keeps.bind fun _ _ => .pure hf.activate
  · refine isActivating_keeps.bind fun b _ => .ite ?_ <| .pure hf
    exact fresh_keeps.bind fun _ _ => .pure hf.activate

theorem stampCall_keeps {set : FactSet} (hset : set.All (Fact.Over V)) :
    Keeps e (World.Over V) (stampCall f call set) (FactSet.All (Fact.Over V)) := by
  refine .mapM fun g hg => .guard (hset g hg) ?_
  exact fresh_keeps.bind fun _ _ => .pure (hset g hg).withCall

/-! ## Questions about aliases -/

theorem names_over (hV : V.Closed) (hv : v.Over V) : Names e (World.Over V) v :=
  fun _ => (paths_keeps (Paths.ofValue_keeps hV hv)).mono fun _ _ => trivial

section
variable (hV : V.Closed) (hf : f.Over V)
include hV hf

theorem names_base : ∀ l ∈ f.path.base, Names e (World.Over V) (.var l) :=
  fun l hl => names_over hV (Value.over_var.mpr (hf.path.base l hl))

theorem holdsTaint_over (hv : v.Over V) : Keeps e (World.Over V) (holdsTaint v f) :=
  holdsTaint_keeps fun l hl => mayAliasValues_keeps (names_over hV hv) (names_base hV hf l hl)

theorem mayAlias_over (hv : v.Over V) :
    Keeps e (World.Over V) (mayAlias f.accessPath v) (Paths.Yields V) := by
  refine mayAlias_keeps (Q := fun b => Path.Over V b.toPath) hf.path (fun w hw t _ p hp => ?_)
    (names_over hV hv)
  obtain ⟨c, hc, rfl⟩ := List.mem_map.mp hp
  exact paths_keeps (Paths.expand_keeps hV hf.path (hw.paths.patterns c (mem_filter.mp hc).1).2)

end
end Track
end LeakTrace
