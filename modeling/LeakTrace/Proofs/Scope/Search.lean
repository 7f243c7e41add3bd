import LeakTrace.Proofs.Keeps.Search
import LeakTrace.Proofs.Scope.Tracking

/-!
# Aliases are found where the taint is

A search for aliases walks the method it starts in. What it returns is derived from the taint, and
rooted in locals of the method; so is what it asks the solvers for, and only there does the
statement that created the taint come in, as what the aliases wait for.
-/

namespace LeakTrace
open LeakTrace.Fact (Fits within_scope Heritable heritable_makes)
variable {e : Env} {H : Fact → Prop} {M : Message → Prop} {R : SinkHit → Prop} {I : World → Prop}
  {r : Region}

namespace Track
variable {f d1 g : Fact} {a : AccessPath} {p : Option AccessPath} {s : Stmt} {v : Value}
  {set : FactSet} {m : MethodId}

theorem methodSearch_fits (hI : World.Unmoved I) (hH : Heritable H) (hr : r.Closed e)
    (hm : ∀ k ∈ (e.method m).body, r.stmts k) (n : Nat) {target : Value}
    (hset : set.All (Fits r.locals H)) (hf : f.Fits r.locals H) :
    Keeps e I (do methodAliases n (← heapPairs (e.method m)) target set f)
      (FactSet.All (Fits r.locals H)) := by
  refine (heapPairs_keeps_of (Q := fun y => y.toPath.Rooted r.locals)
    (fun k hk _ _ hact => hr.within_assign ⟨k, hm k hk, rfl⟩ hact)
    fun _ hv => paths_fits hI (Paths.ofValue_gives hv)).bind fun pairs hpairs => ?_
  have hsearch : MethodSearch e I (fun _ => True) (fun y => y.toPath.Rooted r.locals)
      (Fits r.locals H) := by
    refine ⟨fun _ _ _ => ofValue_fits hI, fun g y hg hy => ?_, fun _ _ _ _ _ _ => trivial⟩
    have hy : y.toPath.Rooted (g.scope r.locals) := hy.mono fun _ => .inr
    exact make_derive_fits hI hH (Paths.append_gives hy) hg.kind
  exact hsearch.methodAliases hpairs n trivial hset hf

/-! ## Points-to sets -/

/-- The messages of a search by points-to sets: what becomes of the fact that it is about. -/
abbrev Aliases (r : Region) (M : Message → Prop) (root : Fact) : Prop :=
  ∀ {d1 g : Fact} {n : StmtId}, r.stmts n → g.Fits r.locals root.Makes → M (.edge .forward d1 n g)

theorem pointsToSearch_fits (hI : Upkeep e M R I)
    (hr : r.Closed e) {root : Fact} (hM : Aliases r M root) : PointsToSearch e I
    (Value.Within r.locals) (fun _ => True) r.stmts (Fits r.locals root.Makes) d1 where
  lhs n hn _ hlhs := hr.within_lhs ⟨n, hn, rfl⟩ hlhs
  rhs n hn _ hrhs := hr.within ⟨n, hn, rfl⟩ (Stmt.mem_values_of_rhs hrhs)
  steps _ _ _ _ := trivial
  append _ _ _ _ hf _ :=
    make_derive_fits hI.unmoved heritable_makes (Paths.append_gives hf.rooted) hf.kind
  make _ _ _ _ _ hf hv _ := by
    refine make_derive_fits hI.unmoved heritable_makes (Paths.make_gives ?_) hf.kind
    rintro _ ⟨⟩
    exact within_scope hv
  dropLast _ hf :=
    make_derive_fits hI.unmoved heritable_makes (Paths.dropLast_gives hf.rooted) hf.kind
  waitIf _ _ act hf _ := .read (.ite ((fresh_fits hI.unmoved).bind fun i _ =>
    .pure (hf.deactivate (hf.kind.waiting i act _))) <| .pure hf)
  send _ _ hf hn := sendEdge_fits hI (hM hn hf)
  remember _ _ hw := hI.rest hw ⟨rfl, rfl, rfl, rfl, rfl, rfl, rfl, rfl⟩

/-! ## All strategies -/

section
variable (hI : Upkeep e M R I) (hH : Heritable H) (hr : r.Closed e) {target : Value}
include hI hH hr

theorem computeAliases_fits {src stmt : StmtId} (hM : r.Sends e H stmt M)
    (hunit : src = stmt ∨ e.config.implicitFlows.tracksControlFlow) (hsrc : r.stmts src)
    (hset : set.All (Fits r.locals H)) (hm : ∀ k ∈ (e.method m).body, r.stmts k)
    (hf : f.Fits r.locals H) :
    Keeps e I (computeAliases d1 src target set m f) (FactSet.All (Fits r.locals H)) := by
  refine computeAliases_keeps_of hset
    (fun _ _ _ _ => methodSearch_fits hI.unmoved hH hr hm _ hset hf) (fresh_fits hI.unmoved)
    (fun _ hflow _ n hn => sendEdge_fits hI (hM.search hflow hunit (hr.preds src hsrc n hn) hf))
    fun hpts => ?_
  exact (pointsToSearch_fits hI hr (hM.pointsTo hpts hf.kind)).searchPointsTo hm _
    (hf.imp fun _ => .self) (fun _ _ => trivial) hsrc

variable (hM : r.Sends e H s.id M) (hs : r.HasStmt e s) (hset : set.All (Fits r.locals H))
include hM hs hset

theorem searchFrom_fits (hf : f.Fits r.locals H) : Keeps e I
    (computeAliases d1 s.id target set s.method f) (FactSet.All (Fits r.locals H)) := by
  refine computeAliases_fits hI hH hr hM (.inl rfl) (hr.stmt_id hs) hset ?_ hf
  obtain ⟨n, hn, rfl⟩ := hs
  exact hr.body n hn

theorem searchIn_fits {contexts : List Fact} (hf : f.Fits r.locals H) : Keeps e I
    (computeAliasesIn contexts s.id target set s.method f) (FactSet.All (Fits r.locals H)) :=
  .foldlM (fun _ hset _ _ => searchFrom_fits hI hH hr hM hs hset hf) hset

end

theorem libraryCall_fits (hI : World.Unmoved I) (hH : Heritable H) (hr : r.Closed e)
    (hs : r.HasStmt e s) (hf : H f) :
    LibraryCall e I (Value.Within r.locals) (Fits r.locals H) s f where
  lhs _ hlhs := hr.within_lhs hs hlhs
  base _ hc b hb := Value.within_var.mpr ((hr.within_call hs hc).1 b hb)
  ofValue _ hv := make_derive_fits hI hH (Paths.ofValue_gives (within_scope hv)) hf
  onto _ hv := make_derive_fits hI hH (Paths.onto_gives (within_scope hv)) hf
  ontoTyped _ hv := make_derive_fits hI hH (Paths.ontoTyped_gives (within_scope hv)) hf
  rebase _ hv := make_derive_fits hI hH (Paths.rebase_gives (within_scope hv)) hf
  fresh := fresh_fits hI
  withCall _ _ hg := hg.withCall hH

end Track
end LeakTrace
