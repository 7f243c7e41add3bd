import LeakTrace.Proofs.Alike.Logic

/-!
# What flow functions ask

The steps that flow functions are made of, compared in two runs: questions about aliases, searches
for them, results, and models of library methods. A question about a fact is a question about what
it says, so in two runs with facts that are alike it is one question, and the answer is the same.
-/

namespace LeakTrace
open Track

variable {e : Env} {b : Nat × Nat} {f g : Fact}

theorem Env.isZero_congr (h : f.toTaint = g.toTaint) : e.isZero f = e.isZero g := by
  unfold Env.isZero Fact.same
  rw [h]

theorem Env.isConditional_congr (h : f.toTaint = g.toTaint) :
    e.isConditional f = e.isConditional g := by
  unfold Env.isConditional
  rw [e.isZero_congr h, h]

namespace Track
variable {d1 d1' : Fact} {set set' : FactSet} {search search' : Fact → StmtId → Track Unit}

/-! ## Derivations and messages -/

theorem derive_alike (h : f.Alike b g) (a : Option AccessPath) (s : Option StmtId) :
    Alike e b (derive f a s) (derive g a s) (Option.Rel (Fact.Alike b)) := by
  refine .fresh_bind fun n hn => .pure ?_
  rw [h.taint]
  exact h.deriveAs? hn a s _

theorem deriveAt_alike (h : f.Alike b g) (s : StmtId) :
    Alike e b (deriveAt f s) (deriveAt g s) (Option.Rel (Fact.Alike b)) := by
  unfold deriveAt
  rw [h.accessPath]
  exact derive_alike h _ _

theorem sendEdge_alike (side : Side) (s : StmtId) :
    Alike e b (sendEdge side d1 s f) (sendEdge side d1' s g) Eq :=
  .read (.ite (.send _ _) (.pure rfl))

theorem requestAbort_steady : Steady e b requestAbort := by
  refine .get fun w w' hw => ?_
  rw [hw.aborted]
  refine .ite (.bind (R := Eq) ?_ fun _ _ _ => .send _ _) (.pure rfl)
  exact .modify fun v v' hv => { hv with aborted := rfl }

theorem sourceInfo_steady (s : StmtId) : Steady e b (sourceInfo s) :=
  .read (.ite (.paths _) (.pure rfl))

theorem sinkInfo_steady (s : Stmt) (p : Option Path) : Steady e b (sinkInfo s p) :=
  .read (.pure rfl)

theorem isActivating_steady (call : StmtId) (unit : Option StmtId) :
    Steady e b (isActivating call unit) := by
  refine .read ?_
  cases unit with
  | none => exact .pure rfl
  | some u =>
    refine .ite (.get fun w w' hw => .pure ?_) (.pure rfl)
    rw [hw.activations]

theorem limitReached_steady : Steady e b limitReached := by
  refine .read (.get fun w w' hw => .pure ?_)
  rw [hw.results_length]

/-! ## Results -/

theorem addResult_alike (h : f.Alike b g) (d : Definition) (s : StmtId) :
    Alike e b (addResult d f s) (addResult d g s) Eq := by
  refine .read (.ite (.pure rfl) (.fresh_bind fun n hn => ?_))
  have hd := h.derive? hn (some g.accessPath) (some s) g.implicit
  rw [h.accessPath, h.taint]
  generalize f.derive? n (some g.accessPath) (some s) g.implicit = x at hd
  generalize g.derive? n (some g.accessPath) (some s) g.implicit = y at hd
  cases hd with
  | none => exact .pure rfl
  | some hxy =>
    refine .bind (R := Eq) (.modify fun w w' hw => hw.addHit ?_) fun _ _ _ => ?_
    · exact congrArg (fun t => (d, s, t)) hxy.taint
    refine .bind (R := Eq) (.modify fun w w' hw => ?_) fun _ _ _ => ?_
    · exact { hw with reported := congrArg (· + 1) hw.reported }
    refine .get fun w w' hw => ?_
    rw [hw.reported]
    exact .ite (requestAbort_steady.bind_eq fun _ => .pure rfl) (.pure rfl)

theorem addGlobal_alike (h : f.Alike b g) : Alike e b (addGlobal f) (addGlobal g) Eq := by
  refine .read (.get fun w w' hw => ?_)
  rw [FactSet.contains_eq, FactSet.contains_eq, hw.globals, h.taint]
  refine .ite (.pure rfl) (.bind (R := Eq) (.modify fun v v' hv => ?_) fun _ _ _ => ?_)
  · refine { hv with globals := ?_ }
    dsimp only
    unfold FactSet.insert
    rw [FactSet.contains_eq, FactSet.contains_eq, hv.globals, h.taint]
    split
    · exact hv.globals
    · rw [List.map_append, List.map_append, hv.globals, List.map_singleton, List.map_singleton,
        h.taint]
  · cases g.path.firstField? with
    | none => exact .pure rfl
    | some field =>
      refine .bind_eq (.forIn _ (fun s _ => ?_) _) fun _ => .pure rfl
      exact (sendEdge_alike _ _).bind_eq fun _ => (sendEdge_alike _ _).bind_eq fun _ => .pure rfl

/-! ## Questions about aliases -/

theorem lazyMayAlias_steady (p q : Path) : Steady e b (lazyMayAlias p q) :=
  .ite (.pure rfl) (.read (.pure rfl))

theorem coverFields_steady (a : AccessPath) (field : Option Field) :
    Steady e b (coverFields a field) := by
  unfold coverFields
  cases field with
  | none => exact .pure rfl
  | some f =>
    cases a.steps.head? with
    | none => exact .pure rfl
    | some s =>
      refine .ite (.pure rfl) (.ite (.pure rfl) (.get fun w w' hw => ?_))
      rw [hw.paths]
      dsimp only
      split
      · exact .paths _
      · exact .pure rfl

theorem mayAlias_steady (a : AccessPath) (v : Value) : Steady e b (mayAlias a v) := by
  refine .read (.ite (.pure rfl) ?_)
  have hcover (field : Option Field) :
      Steady e b (if v.isGlobal && !a.isStaticField then pure none else coverFields a field) :=
    .ite (.pure rfl) (coverFields_steady a field)
  refine .ite (.bind_eq (.paths _) fun path => ?_) (.ite (.pure rfl) (hcover _))
  cases path with
  | none => exact .pure rfl
  | some q =>
    exact (lazyMayAlias_steady _ _).bind_eq fun _ => .ite (.pure rfl) (hcover _)

theorem mayAliasValues_steady (v u : Value) : Steady e b (mayAliasValues v u) := by
  refine .read (.ite (.pure rfl) (.ite (.pure rfl) (.ite (.pure rfl) ?_)))
  refine .bind_eq (.paths _) fun p => .bind_eq (.paths _) fun q => ?_
  cases p with
  | none => exact .pure rfl
  | some p =>
    cases q with
    | none => exact .pure rfl
    | some q => exact lazyMayAlias_steady _ _

theorem anyMayAlias_steady (vs : List Value) (u : Value) : Steady e b (anyMayAlias vs u) := by
  refine .bind_eq (.forIn _ (fun v _ => ?_) _) fun r => ?_
  · exact (mayAliasValues_steady v u).bind_eq fun _ => .ite (.pure rfl) (.pure rfl)
  · dsimp only
    split <;> exact .pure rfl

/-! ## Searches for aliases -/

theorem heapPairs_steady (m : Method) : Steady e b (heapPairs m) := by
  refine .read (.bind_eq (.mapM _ fun s => ?_) fun _ => .pure rfl)
  dsimp only
  split
  · refine .ite (.bind_eq (.paths _) fun p => .bind_eq (.paths _) fun q => ?_) (.pure rfl)
    split <;> exact .pure rfl
  · exact .pure rfl

theorem methodAliases_alike (n : Nat) (pairs : List (AccessPath × AccessPath)) (target : Value)
    (h : f.Alike b g) (hset : FactSet.Alike b set set') :
    Alike e b (methodAliases n pairs target set f) (methodAliases n pairs target set' g)
      (FactSet.Alike b) := by
  induction n generalizing target set set' f g with
  | zero =>
    unfold methodAliases
    exact .pure hset
  | succ n ih =>
    cases target with
    | field base _ =>
      refine .bind_eq (.paths _) fun root => ?_
      cases root with
      | none => exact .pure hset
      | some root =>
        refine .foldlM _ (fun s s' a hs => ?_) hset
        rw [h.accessPath]
        refine .bind_eq (.paths _) fun merged =>
          (derive_alike h merged none).bind_option (.pure hs) fun x y hxy => ?_
        dsimp only
        rw [hs.contains hxy.taint]
        refine .ite (.pure hs) ?_
        split
        · exact ih _ hxy (hs.insert hxy)
        · exact .pure (hs.insert hxy)
    | _ => exact .pure hset

theorem waitIf_alike (h : f.Alike b g) (before : Bool) (act : StmtId) :
    Alike e b (waitIf before act f) (waitIf before act g) (Fact.Alike b) :=
  .read (.ite (.fresh_bind fun _ hn => .pure (h.deactivate hn _ _)) (.pure h))

theorem sendAlias_alike
    (h : f.Alike b g) (path : Option AccessPath) (act : StmtId) (before : Bool) (s : StmtId) :
    Alike e b (sendAlias d1 f path act before s) (sendAlias d1' g path act before s) Eq := by
  refine (derive_alike h path (some s)).bind_option (.pure rfl) fun _ _ hxy => ?_
  exact (waitIf_alike hxy before act).bind fun _ _ _ => sendEdge_alike _ _

section
variable (h : f.Alike b g)
  (hsearch : ∀ {x y : Fact} (s : StmtId), x.Alike b y → Alike e b (search x s) (search' y s) Eq)
include h hsearch

theorem aliasesAt_alike (target : PointsToTarget) (appended : List Step) (deep : Bool)
    (act : StmtId) (before : Bool) (s : StmtId) :
    Alike e b (aliasesAt search d1 f target appended deep act before s)
      (aliasesAt search' d1' g target appended deep act before s) Eq := by
  refine .read ?_
  rw [h.accessPath]
  dsimp only
  cases (e.stmt s).call? with
  | some c => exact .ite (.bind_eq (.paths _) fun path => sendAlias_alike h path _ _ _) (.pure rfl)
  | none =>
    have hright (c : Bool) (rhs : Value) :
        Alike e b
          (if c then paths (Paths.make { value := some rhs, steps := appended, deep }) >>=
            fun path => sendAlias d1 f path act before s else pure ())
          (if c then paths (Paths.make { value := some rhs, steps := appended, deep }) >>=
            fun path => sendAlias d1' g path act before s else pure ()) Eq :=
      .ite (.bind_eq (.paths _) fun path => sendAlias_alike h path _ _ _) (.pure rfl)
    cases (e.stmt s).lhs? with
    | none => exact .pure rfl
    | some lhs =>
      cases (e.stmt s).rhs? with
      | none => exact .pure rfl
      | some rhs =>
        refine .ite (.bind_eq (.paths _) fun path => ?_) (hright _ rhs)
        refine (derive_alike h path (some s)).bind_option (hright _ rhs) fun _ _ hxy => ?_
        refine (waitIf_alike hxy before act).bind fun u v huv => ?_
        exact (hsearch s huv).bind_eq fun _ => hright _ rhs

theorem aliasesIn_alike (m : MethodId) (appended : List Step) (deep : Bool) (act : StmtId) :
    Alike e b (aliasesIn search d1 m f appended deep act)
      (aliasesIn search' d1' m g appended deep act) Eq := by
  refine .read ?_
  rw [h.accessPath]
  refine .ite (.pure rfl) ?_
  cases PointsToTarget.ofPath? g.accessPath.toPath with
  | none => exact .pure rfl
  | some target =>
    refine .bind (R := Eq) (.foldlM _ (fun before _ s hbefore => ?_) rfl) fun _ _ _ => .pure rfl
    rw [hbefore]
    exact (aliasesAt_alike h hsearch _ _ _ _ _ _).bind_eq fun _ => .pure rfl

end

theorem searchPointsTo_alike (n : Nat) (h : f.Alike b g) (hd : d1.toTaint = d1'.toTaint)
    (m : MethodId) (appended : List Step) (deep : Bool) (act : StmtId) :
    Alike e b (searchPointsTo n d1 m f appended deep act)
      (searchPointsTo n d1' m g appended deep act) Eq := by
  induction n generalizing f g appended deep act with
  | zero => exact .pure rfl
  | succ n ih =>
    refine .get fun w w' hw => ?_
    rw [hw.searched, h.taint, hd]
    refine .ite (.pure rfl) (.bind (R := Eq) (.modify fun v v' hv => ?_) fun _ _ _ => ?_)
    · refine { hv with searched := ?_ }
      dsimp only
      rw [hv.searched]
    · have hrest : Alike e b
          (aliasesIn (fun x s => searchPointsTo n d1 m x [] x.path.deep s) d1 m f appended deep act)
          (aliasesIn (fun x s => searchPointsTo n d1' m x [] x.path.deep s) d1' m g appended deep
            act) Eq := by
        refine aliasesIn_alike h (fun s hxy => ?_) m appended deep act
        rw [hxy.taint]
        exact ih hxy _ _ _
      unfold aliasesOf
      rw [h.accessPath]
      refine .ite ?_ hrest
      cases g.accessPath.steps.getLast? with
      | none => exact hrest
      | some last =>
        refine .bind_eq (.paths _) fun parent =>
          (derive_alike h parent none).bind_option hrest fun _ _ hxy => ?_
        exact (ih hxy _ _ _).bind_eq fun _ => hrest

theorem computeAliases_alike (h : f.Alike b g) (hd : d1.toTaint = d1'.toTaint) (src : StmtId)
    (target : Value) (hset : FactSet.Alike b set set') (m : MethodId) :
    Alike e b (computeAliases d1 src target set m f)
      (computeAliases d1' src target set' m g) (FactSet.Alike b) := by
  refine .read ?_
  rw [h.taint, e.isConditional_congr hd]
  refine .ite (.pure hset) (.ite ?_ ?_)
  · cases target with
    | field _ _ => exact (heapPairs_steady _).bind_eq fun _ => methodAliases_alike _ _ _ h hset
    | _ => exact .pure hset
  · cases e.config.aliasing with
    | flowSensitive =>
      refine .ite (.fresh_bind fun n _ => ?_) (.pure hset)
      refine .bind_eq (.forIn _ (fun p _ => ?_) _) fun _ => .pure hset
      exact (sendEdge_alike _ _).bind_eq fun _ => .pure rfl
    | ptsBased => exact (searchPointsTo_alike _ h hd _ _ _ _).bind_eq fun _ => .pure hset
    | lazy => exact .pure hset
    | none => exact .pure hset

theorem computeAliasesIn_alike {ds ds' : List Fact} (h : f.Alike b g)
    (hd : ds.map (·.toTaint) = ds'.map (·.toTaint)) (src : StmtId) (target : Value)
    (hset : FactSet.Alike b set set') (m : MethodId) :
    Alike e b (computeAliasesIn ds src target set m f)
      (computeAliasesIn ds' src target set' m g) (FactSet.Alike b) :=
  .foldlM₂ (FactSet.forall₂_of_map_eq hd)
    (fun _ _ _ _ hd hset => computeAliases_alike h hd src target hset m) hset

/-! ## Questions about facts -/

section
variable (h : f.toTaint = g.toTaint)
include h

theorem readsTaint_alike (v : Value) : Alike e b (readsTaint f v) (readsTaint g v) Eq := by
  unfold readsTaint
  rw [h]
  cases g.path.base with
  | none => exact .pure rfl
  | some l => exact mayAliasValues_steady _ _

theorem holdsTaint_alike (v : Value) : Alike e b (holdsTaint v f) (holdsTaint v g) Eq := by
  unfold holdsTaint
  rw [h]
  cases g.path.base with
  | none => exact .pure rfl
  | some l => exact mayAliasValues_steady _ _

theorem anyHoldsTaint_alike (vs : List Value) :
    Alike e b (anyHoldsTaint vs f) (anyHoldsTaint vs g) Eq := by
  unfold anyHoldsTaint
  rw [h]
  cases g.path.base with
  | none => exact .pure rfl
  | some l => exact anyMayAlias_steady _ _

end

variable (h : f.Alike b g)
include h

theorem activateAt_alike (s : StmtId) :
    Alike e b (activateAt f s) (activateAt g s) (Fact.Alike b) := by
  unfold activateAt
  rw [h.taint]
  have hact : Alike e b (fresh >>= fun n => pure (f.activate n))
      (fresh >>= fun n => pure (g.activate n)) (Fact.Alike b) :=
    .fresh_bind fun _ hn => .pure (h.activate hn)
  refine .ite (.pure h) (.ite hact ?_)
  exact (isActivating_steady _ _).bind_eq fun _ => .ite hact (.pure h)

/-! ## Models of library methods -/

theorem insertDerived_alike (hset : FactSet.Alike b set set') (path : Option AccessPath)
    (s : Option StmtId) :
    Alike e b (do return set.insertAll (← derive f path s).toList)
      (do return set'.insertAll (← derive g path s).toList) (FactSet.Alike b) :=
  (derive_alike h path s).bind fun _ _ hxy => .pure (hset.insertAll (FactSet.Alike.toList hxy))

theorem insertFor_alike (hset : FactSet.Alike b set set') (v : Option Value) (s : Stmt) :
    Alike e b
      (match v with
        | none => pure set
        | some v => do
          let path ← paths (Paths.ofValue v true)
          return set.insertAll (← derive f path (some s.id)).toList)
      (match v with
        | none => pure set'
        | some v => do
          let path ← paths (Paths.ofValue v true)
          return set'.insertAll (← derive g path (some s.id)).toList)
      (FactSet.Alike b) := by
  cases v with
  | none => exact .pure hset
  | some v => exact .bind_eq (.paths _) fun path => insertDerived_alike h hset path _

theorem modelTaints_alike (s : Stmt) :
    Alike e b (modelTaints s f) (modelTaints s g) (FactSet.AlikeOpt b) := by
  have hone : FactSet.Alike b [f] [g] := .cons h .nil
  refine .read ?_
  rw [h.taint]
  cases e.modelOf? s with
  | none => exact .pure .none
  | some model =>
    cases s.call? with
    | none => exact .pure .none
    | some c =>
      cases g.path.base with
      | none => exact .pure (.some hone)
      | some base =>
        have hkept (c : Bool) :
            FactSet.Alike b (if c then [] else [f]) (if c then [] else [g]) := by
          cases c with
          | true => exact .nil
          | false => exact hone
        refine .ite (.pure (.some (hkept _))) ?_
        exact (insertFor_alike h (hkept _) _ s).bind fun _ _ hs =>
          (insertFor_alike h hs _ s).bind fun _ _ hs => .pure (.some hs)

theorem derivedByCall_alike (act : Paths (Option AccessPath)) (s : Stmt) :
    Alike e b
      (paths act >>= fun path => derive f path (some s.id) >>= fun
        | some x => fresh >>= fun n => pure (some [x.withCall n s.id])
        | none => pure none)
      (paths act >>= fun path => derive g path (some s.id) >>= fun
        | some x => fresh >>= fun n => pure (some [x.withCall n s.id])
        | none => pure none)
      (FactSet.AlikeOpt b) := by
  refine .bind_eq (.paths _) fun path =>
    (derive_alike h path _).bind_option (.pure .none) fun x y hxy => ?_
  exact .fresh_bind fun _ hn => .pure (.some (.cons (hxy.withCall hn _) .nil))

theorem nativeTaints_alike (s : Stmt) (args : List Value) :
    Alike e b (nativeTaints s f args) (nativeTaints s g args) (FactSet.AlikeOpt b) := by
  refine .read ?_
  rw [h.taint, h.accessPath]
  cases s.call? with
  | none => exact .pure .none
  | some c =>
    cases g.path.base with
    | none => exact .pure .none
    | some base =>
      refine .ite ?_ (.ite ?_ (.pure .none))
      · cases args[0]? with
        | none => exact .pure .none
        | some src =>
          cases args[2]? with
          | none => exact .pure .none
          | some dest => exact .ite (derivedByCall_alike h _ s) (.pure .none)
      · cases args[1]? with
        | none => exact .pure .none
        | some size =>
          cases s.lhs? with
          | none => exact .pure .none
          | some lhs => exact .ite (derivedByCall_alike h _ s) (.pure .none)

end Track
end LeakTrace
