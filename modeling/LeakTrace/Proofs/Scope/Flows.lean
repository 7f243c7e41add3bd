import LeakTrace.Proofs.Keeps.Flows
import LeakTrace.Proofs.Scope.Rules

/-!
# Flow functions keep facts in their scope

What comes out of a flow function is derived from what came in, once that was made active if it had
to be, and fits where it goes: in the region of the statement, of the callee, or of the call.

**A callee and its caller are two regions.** A taint that enters is put on a parameter, one that
leaves is put on an argument, and that is all that goes across. Only the alias search asks for
something on the other side: at the exit that it comes from, about parameters of the callee.
-/

namespace LeakTrace
open Track
open FactSet (All AllOpt)

variable {e : Env} {H : Fact → Prop} {M : Message → Prop} {R : SinkHit → Prop} {I : World → Prop}
  {r callee : Region} {P : Local → Prop} {c : Call}

abbrev Flow.Fits (P : Local → Prop) (H : Fact → Prop) (o : Flow) : Prop :=
  FactSet.All (Fact.Fits P H) o.facts

theorem Value.within_global {f : Field} : Within P (.global f) := by
  simp [Within, atoms]

theorem Value.within_of_isGlobal {v : Value} (h : v.isGlobal) : v.Within P := by
  unfold isGlobal at h
  split at h
  · exact within_global
  · cases h

/-! ## Assignments -/

namespace Track
variable {f d1 g : Fact} {s exit : Stmt} {v : Value} {set : FactSet} {x : Reading} {m : MethodId}
  {call site : Option Stmt} {contexts : List Fact}

theorem reading?_fits (hI : World.Unmoved I) (hf : f.Fits P H) (hv : v.Within P) :
    Keeps e I (reading? f v) fun o => ∀ x ∈ o, x.path.toPath.Rooted (f.scope P) := by
  refine .read ?_
  dsimp only
  split
  · refine (mayAlias_fits hI hf.rooted).bind fun hit hhit =>
      .guard all_none <| .pure fun x hx => ?_
    obtain ⟨p, hp, rfl⟩ := Option.map_eq_some_iff.mp hx
    exact hhit p hp
  · next base field =>
    refine (mayAlias_fits hI hf.rooted).bind fun hit hhit => ?_
    split
    · next p =>
      refine .pure ?_
      rintro _ ⟨⟩
      exact hhit p rfl
    · refine (holdsTaint_fits hI).bind fun _ _ => .guard all_none ?_
      have hbase : Value.Within (f.scope P) (.var base) :=
        Value.within_var.mpr (.inr (Value.within_field.mp hv))
      refine (paths_fits hI (Paths.ofValue_gives hbase)).bind fun p hp => .pure ?_
      rintro _ ⟨⟩
      cases p with
      | none => exact hf.rooted
      | some p => exact hp p rfl
  · refine (holdsTaint_fits hI).bind fun _ _ => .guard ?_ <|
      .pure all_none
    rintro _ ⟨⟩
    exact hf.rooted

/-- What is made for a value fits where the value does; a static field has no local at its root. -/
theorem Keeps.rootless {act : Track (Option Fact)}
    (hact : ∀ Q : Local → Prop, v.Within Q → Keeps e I act (Fact.FitsOpt Q H)) (hv : v.Within P) :
    Keeps e I act fun o => ∀ g ∈ o, g.Fits P H ∧ (v.isGlobal → g.Fits (fun _ => False) H) := by
  by_cases hglobal : v.isGlobal
  · exact ((hact P hv).and (hact _ (Value.within_of_isGlobal hglobal))).mono
      fun _ ho g hg => ⟨ho.1 g hg, fun _ => ho.2 g hg⟩
  · exact (hact P hv).mono fun _ ho g hg => ⟨ho g hg, fun h => absurd h hglobal⟩

section
variable (hI : Upkeep e M R I) (hH : Fact.Heritable H) (hr : r.Closed e) (hM : r.Sends e H s.id M)
  (hs : r.HasStmt e s) {lhs rhs : Value}
include hI hH hr hM hs

theorem taintLeft_fits (hf : H f) (hl : lhs.Within r.locals) :
    Keeps e I (taintLeft d1 s lhs rhs f x) (All (Fact.Fits r.locals H)) := by
  refine taintLeft_of (.rootless (fun Q hl => ?_) hl)
    (fun _ hstatic hg => hI.global fun _ _ => hM.global hstatic hg)
    fun _ hg => searchFrom_fits hI hH hr hM hs (.singleton hg) hg
  have hl : lhs.Within (f.scope Q) := Fact.within_scope hl
  refine written_of (fresh_fits hI.unmoved) (fun _ => ?_)
    (fun _ _ _ => make_derive_fits hI.unmoved hH (Paths.ofTyped_gives hl) hf)
    fun _ => make_derive_fits hI.unmoved hH (Paths.rebase_gives hl) hf
  exact (paths_fits hI.unmoved (Paths.ofValue_gives hl)).mono fun _ hp _ =>
    Fact.fits_deriveAs? hH hf hp

theorem assign_fits (hf : f.Fits r.locals H) (hact : s.action = .assign lhs rhs) :
    Keeps e I (assign d1 s lhs rhs f) (All (Fact.Fits r.locals H)) := by
  obtain ⟨hl, hrhs⟩ := hr.within_assign hs hact
  exact assign_of (Y := fun _ => Fact.Fits r.locals H) hf
    (rightReading?_of (fun _ => hf.rooted)
      fun v hv => reading?_fits hI.unmoved hf fun l hl =>
        hrhs l ((Value.StandsIn.of_mem_roots hv).atoms hl))
    (fun _ _ _ => hf) (fun _ hx => derive_fits hI.unmoved hH hf.kind (.some hx))
    fun _ _ _ hg => taintLeft_fits hI hH hr hM hs hg.kind hl

end

/-! ## Into a callee -/

abbrev RootedPaths (P : Local → Prop) (l : List AccessPath) : Prop :=
  ∀ a ∈ l, Path.Rooted P a.toPath

section
variable (hI : World.Unmoved I)
include hI

theorem receives_fits (hm : callee.Contains e m) :
    Receives e I (fun a => a.toPath.Rooted callee.locals) f (e.method m) := by
  intro l hl
  refine paths_fits hI (Paths.onto_gives (Value.within_var.mpr ?_))
  rcases hl with hl | hl
  · exact hm.self l hl
  · exact hm.params l hl

theorem pathsInCallee_fits (hcallee : callee.Closed e) (hm : callee.Contains e m)
    {reflective : Bool} :
    Keeps e I (pathsInCallee (e.method m) c f reflective) (RootedPaths callee.locals) :=
  pathsInCallee_receives (receives_fits hI hm) (asks_fits hI) fun hlazy l _ =>
    hcallee.isLazy hlazy l

theorem gains_fits (hH : Fact.Heritable H) (hf : H f) {n : StmtId} {l : List AccessPath}
    (hl : RootedPaths P l) : Gains e I (Fact.Fits P H) f n l :=
  fun a ha => derive_fits hI hH hf (.some ((hl a ha).mono fun _ => .inr))

end

theorem intoCallee_fits (hI : Upkeep e M R I) (hH : Fact.Heritable H) (hcallee : callee.Closed e)
    (hm : callee.Contains e m) (hcover : World.Covers e I s.id d1 f) (hf : H f) :
    Keeps e I (intoCallee d1 f s m) (All (Fact.Fits callee.locals H)) :=
  intoCallee_of (fun _ => Rule.chain_call_fits hI hH hcover hf) fun _ _ _ =>
    (pathsInCallee_fits hI.unmoved hcallee hm).mono fun _ => gains_fits hI.unmoved hH hf

/-! ## Past a call -/

theorem pastCall_fits (hI : Upkeep e M R I) (hH : Fact.Heritable H) (hr : r.Closed e)
    (hsuits : s.Suits e M I r H) (hs : r.HasStmt e s)
    (hnow : Keeps e I (activateAt f s.id) fun now => now.Fits r.locals H ∧ s.Welcomes e R now) :
    Keeps e I (pastCall d1 f s) (All (Fact.Fits r.locals H)) := by
  refine pastCall_of (hnow.mono fun _ hnow => Rule.site_fits hI hH hr hsuits hnow.2 hs hnow.1)
    (fun _ hc => (hr.within_call hs hc).2) fun _ _ _ _ => ?_
  exact (pathsInCallee_fits hI.unmoved Region.whole_closed Region.whole_contains).mono
    fun _ _ => trivial

/-! ## Out of a callee -/

/-- Searches for aliases at the statement, in all contexts, keep the invariant and find facts of the
kind that they start from. -/
abbrev SearchesAt (e : Env) (I : World → Prop) (Q : Fact → Prop) (contexts : List Fact)
    (s : Stmt) : Prop :=
  ∀ ⦃target : Value⦄ ⦃set : FactSet⦄ ⦃g : Fact⦄, set.All Q → Q g →
    Keeps e I (computeAliasesIn contexts s.id target set s.method g) (FactSet.All Q)

section
variable (hI : World.Unmoved I) (hH : Fact.Heritable H) (hr : r.Closed e)
include hI hH hr

theorem carries_fits {call : Stmt} (hcall : r.HasStmt e call)
    (hsearch : SearchesAt e I (Fact.Fits r.locals H) contexts call) (hf : H f) :
    Leaving.Carries e I (Value.Within r.locals) (Fact.Fits r.locals H)
      ⟨e.method m, exit, call, call.lhs?, contexts⟩ f where
  result _ := hr.within_lhs hcall
  base _ hc b hb := Value.within_var.mpr ((hr.within_call hcall hc).1 b hb)
  args _ hc := (hr.within_call hcall hc).2
  asksResult _ _ := holdsTaint_fits hI
  asksLocal _ _ := holdsTaint_fits hI
  onto _ hv := make_derive_fits hI hH (Paths.onto_gives (Fact.within_scope hv)) hf
  ontoTyped _ hv := make_derive_fits hI hH (Paths.ontoTyped_gives (Fact.within_scope hv)) hf
  search _ _ _ _ hset hg := hsearch hset hg
  stamp _ hset := stampCall_fits hI hH hset

theorem leaveCallee_ends {call site : Option Stmt} {exit : Stmt} {contexts : List Fact} {w : World}
    (hstays : (f.waitsFor.any fun u => e.graph.methodOf u == m) → I w)
    (hrules : w.Ends e ((Rule.applyReturn (Rule.chain e) contexts d1 f exit site call).run {})
      fun p w' => AllOpt (Fact.Fits r.locals H) p.1 ∧ I w')
    (hsearch : ∀ c ∈ call, SearchesAt e I (Fact.Fits r.locals H) contexts c)
    (hcall : ∀ c ∈ call, r.HasStmt e c) (hf : H f) :
    w.Ends e (leaveCallee call m exit site f d1 contexts)
      fun set w' => set.All (Fact.Fits r.locals H) ∧ I w' :=
  leaveCallee_of hstays hrules
    (fun c hc => carries_fits hI hH hr (hcall c hc) (hsearch c hc) hf)
    -- A taint that is decided lazily leaves under its own name, so any local has to do.
    fun hlazy => ⟨⟨.inr fun l _ => hr.isLazy hlazy l⟩, hf⟩

end

theorem leaveCallee_fits (hI : Upkeep e M R I) (hH : Fact.Heritable H) (hr : r.Closed e)
    (hM : ∀ c ∈ call, r.Sends e H c.id M) (hR : exit.Welcomes e R f)
    (hcall : ∀ c ∈ call, r.HasStmt e c) (hf : H f) :
    Keeps e I (leaveCallee call m exit site f d1 contexts) (All (Fact.Fits r.locals H)) := by
  intro w hw
  have hrules : RuleM.Keeps e I (Rule.applyReturn (Rule.chain e) contexts d1 f exit site call)
      (AllOpt (Fact.Fits r.locals H)) :=
    Rule.applyReturn_keeps fun _ => (Rule.exit_fits hI hH hr hM hR hcall hf).chain_ret
  exact leaveCallee_ends hI.unmoved hH hr (fun _ => hw) ((hrules {}).ends hw)
    (fun c hc _ _ _ hset hg => searchIn_fits hI hH hr (hM c hc) (hcall c hc) hset hg) hcall hf

end Track

/-! ## The taint analysis -/

namespace Forward
variable {f d1 : Fact} {n : StmtId}

section
variable (hI : Upkeep e M R I) (hH : Fact.Heritable H) {m : MethodId} {t : StmtId}
  {site : Option StmtId} {contexts : List Fact}
include hI hH

section
variable (hr : r.Closed e) (hsuits : (e.stmt n).Suits e M I r H)
include hr hsuits

theorem passStmt_fits (hR : (e.stmt n).Welcomes e R f) (hf : f.Fits r.locals H) (hn : r.stmts n) :
    Keeps e I (passStmt d1 f n t) (Flow.Fits r.locals H) := by
  have hs : r.HasStmt e (e.stmt n) := ⟨n, hn, rfl⟩
  exact (passStmt_of (Rule.site_fits hI hH hr hsuits hR hs hf) fun _ _ hact =>
    assign_fits hI hH hr hsuits.sends hs hf hact).mono fun _ ho => ho.1

/-- A statement makes the facts active that wait for it, and leaves the others as they are. -/
theorem normal_fits (hR : ∀ g, H g → (e.stmt n).Welcomes e R g) (hf : f.Fits r.locals anyFact)
    (hnow : f.waitsFor = some n → ∀ i, H (f.activate i)) (hstay : f.waitsFor ≠ some n → H f)
    (hn : r.stmts n) : Keeps e I (normal d1 f n t) (Flow.Fits r.locals H) := by
  refine .dite (fun hwait => ?_) fun hwait => ?_
  · have hnow := hnow (by simpa using hwait)
    exact (fresh_fits hI.unmoved).bind fun i _ =>
      passStmt_fits hI hH hr hsuits (hR _ (hnow i)) (hf.activate (hnow i)) hn
  · have hstay := hstay (by simpa using hwait)
    exact passStmt_fits hI hH hr hsuits (hR f hstay) (hf.imp fun _ => hstay) hn

end

theorem call_fits (hcallee : callee.Closed e) (hm : callee.Contains e m)
    (hcover : World.Covers e I (e.stmt n).id d1 f) (hf : H f) :
    Keeps e I (call d1 f n m) (Flow.Fits callee.locals H) :=
  (call_of (intoCallee_fits hI hH hcallee hm hcover hf)).mono fun _ ho => ho.1

variable (hr : r.Closed e)
include hr

theorem ret_fits {cs : StmtId} (hM : r.Sends e H (e.stmt cs).id M) (hcs : r.stmts cs)
    (hnow : Keeps e I (activateAt f (e.stmt cs).id) fun now => H now ∧ (e.stmt n).Welcomes e R now) :
    Keeps e I (ret (some cs) m n site f d1 contexts) (Flow.Fits r.locals H) := by
  have hleave : Keeps e I (outOfCallee (some (e.stmt cs)) m (e.stmt n)
      (site.map e.stmt) f d1 contexts) (All (Fact.Fits r.locals H)) := by
    refine hnow.bind fun _ hnow => leaveCallee_fits hI hH hr ?_ hnow.2 ?_ hnow.1
    · rintro _ ⟨⟩
      exact hM
    · rintro _ ⟨⟩
      exact ⟨cs, hcs, rfl⟩
  exact (ret_of hleave).mono fun _ ho => ho.1

theorem ret_none_fits (hR : (e.stmt n).Welcomes e R f) (hf : H f) :
    Keeps e I (ret none m n site f d1 contexts) fun o => o.facts = [] := by
  refine .read (limitReached_keeps.bind fun _ _ =>
    .guard rfl <| .guard rfl ?_)
  have hleave : Keeps e I (leaveCallee none m (e.stmt n) (site.map e.stmt) f d1
      contexts) (· = []) := by
    unfold leaveCallee
    refine .read (.guard rfl ?_)
    exact (Rule.applyReturn_keeps (P := Fact.Fits r.locals H) (fun _ =>
      (Rule.exit_fits hI hH hr all_none hR all_none hf).chain_ret) {}).bind
        fun p _ => .guard rfl <| .pure rfl
  exact hleave.bind fun _ hset => .pure hset

theorem callToReturn_fits (hsuits : (e.stmt n).Suits e M I r H) (hn : r.stmts n)
    (hnow : Keeps e I (activateAt f (e.stmt n).id) fun now =>
      now.Fits r.locals H ∧ (e.stmt n).Welcomes e R now) :
    Keeps e I (callToReturn d1 f n) (Flow.Fits r.locals H) :=
  (callToReturn_of (pastCall_fits hI hH hr hsuits ⟨n, hn, rfl⟩ hnow)).mono fun _ ho => ho.1

end
end Forward

/-! ## The alias search -/

namespace Backward
variable {f d1 g : Fact} {s : Stmt} {v : Value} {n : StmtId} {set : FactSet} {m : MethodId}

section
variable (hI : Upkeep e M R I) (hH : Fact.Heritable H) (hr : r.Closed e)
include hI hH hr

theorem crosses_fits (hM : r.Hands e H M) (hs : r.HasStmt e s) : Crosses e I (Value.Within r.locals)
    (fun _ => True) (Fact.Fits r.locals H) (Fact.Fits (fun _ => False) H) d1 s where
  lhs _ hlhs := hr.within_lhs hs hlhs
  rhs _ _ hact := (hr.within_assign hs hact).2
  root _ b hv := hv.root b
  noTy := trivial
  leftTy _ _ _ _ _ _ _ _ _ := trivial
  rightTy _ _ _ _ _ _ _ _ := trivial
  moved _ _ _ _ hf hv _ := .rootless (fun _ hv => make_derive_fits hI.unmoved hH
    (Paths.ontoTyped_gives (Fact.within_scope hv)) hf.kind) hv
  share _ hstatic hg := hI.global fun _ _ => hM.global hstatic hg
  hand _ hg := handForward_of (fresh_fits hI.unmoved) fun _ t ht =>
    sendEdge_fits hI (hM.here (hr.succs s.id (hr.stmt_id hs) t ht) (hg.turnAt hH))

theorem normal_fits (hM : r.Hands e H M) (hf : f.Fits r.locals H) (hn : r.stmts n) {t : StmtId}
    (ht : r.stmts t) : Keeps e I (normal d1 f n t) (Flow.Fits r.locals H) :=
  (normal_crosses (crosses_fits hI hH hr hM ⟨n, hn, rfl⟩) (crosses_fits hI hH hr hM ⟨t, ht, rfl⟩)
    hf).mono fun _ ho => ho.1

end

/-! ### Calls -/

theorem entering_fits (hI : World.Unmoved I) (hcallee : callee.Closed e)
    (hm : callee.Contains e m) :
    Keeps e I (entering f s (e.method m)) (RootedPaths callee.locals) := by
  refine entering_receives (receives_fits hI hm) (fun k hk v hv => ?_) fun hstatic => ?_
  · exact paths_fits hI (Paths.ontoTyped_gives (hcallee.within ⟨k, hm.body k hk, rfl⟩
      (Stmt.mem_values_of_returned hv)))
  · exact Path.rooted_of_base_none (Path.base_of_isStaticField hstatic)

theorem call_fits (hI : World.Unmoved I) (hH : Fact.Heritable H) (hcallee : callee.Closed e)
    (hm : callee.Contains e m) (hf : H f) : Keeps e I (call d1 f n m) (Flow.Fits callee.locals H) :=
  (call_of ((entering_fits hI hcallee hm).mono fun _ => gains_fits hI hH hf)).mono
    fun _ ho => ho.1

/-! ### Returns -/

variable (hI : Upkeep e M R I) (hH : Fact.Heritable H)
include hI hH

theorem handParamAliases_fits (hM : callee.Hands e H M) (hm : callee.Contains e m)
    (hf : f.Fits callee.locals H) (hn : callee.stmts n) {i : Nat} {l : Local} {arg : Value} :
    Keeps e I (handParamAliases d1 f g n (e.method m) c i l arg) := by
  refine handParamAliases_keeps_of (P := Fact.Fits callee.locals H) (fun q hq => ?_)
    (fun j hj => ?_) hf
  · have hq : Value.Within (f.scope callee.locals) (.var q) :=
      Value.within_var.mpr (.inr (hm.params q hq))
    exact (paths_fits hI.unmoved (Paths.ontoTyped_gives hq)).bind fun _ hp =>
      derive_fits hI.unmoved hH hf.kind hp
  · exact (fresh_fits hI.unmoved).bind fun _ _ =>
      sendEdge_fits hI (hM.here hn (hj.turnAt hH))

theorem ret_fits {cs : Option StmtId}
    (hreg : ∀ c ∈ cs, World.Registers e I c m ∧ World.Registers e I (e.stmt c).id (e.method m).id)
    (hr : r.Closed e) (hcs : ∀ c ∈ cs, r.stmts c) (hM : callee.Hands e H M)
    (hm : callee.Contains e m) (hf : f.Fits callee.locals H) (hn : callee.stmts n) :
    Keeps e I (ret cs m n d1 f) (Flow.Fits r.locals H) := by
  refine (ret_of (P := Fact.Fits r.locals H) (fun k hk hstatic => ?_) (fun k hk c hc => ?_)
    fun _ _ hset => stampCall_fits hI.unmoved hH hset).mono fun _ ho => ho.1
  · exact ⟨Fact.fits_of_base_none hf.kind (Path.base_of_isStaticField hstatic),
      registerActivation_fits (hreg k hk).1⟩
  · obtain ⟨hbase, hargs⟩ := hr.within_call ⟨k, hcs k hk, rfl⟩ hc
    refine aboveCallee_keeps_of (W := Value.Within r.locals) (fun v hv => ?_)
      (fun _ _ _ _ _ => handParamAliases_fits hI hH hM hm hf hn)
      (fun b hb => Value.within_var.mpr (hbase b hb)) hargs
    exact moveUp_of (make_derive_fits hI.unmoved hH
      (Paths.ontoTyped_gives (Fact.within_scope hv)) hf.kind)
      fun _ => registerActivation_fits (hreg k hk).2

/-! ### Past calls -/

theorem callToReturn_fits (hr : r.Closed e) (hM : r.Hands e H M) (hn : r.stmts n)
    (hf : f.Fits r.locals H) : Keeps e I (callToReturn d1 f n) (Flow.Fits r.locals H) := by
  have hs : r.HasStmt e (e.stmt n) := ⟨n, hn, rfl⟩
  exact .read (((crosses_fits hI hH hr hM hs).pastCall
    ((libraryCall_fits hI.unmoved hH hr hs hf.kind).sharingAliases hf) hf).bind fun _ hset =>
      .pure (all_erase hset))

end Backward
end LeakTrace
