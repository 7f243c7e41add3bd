import LeakTrace.Proofs.Alike.Rules

/-!
# Flow functions and the history of facts

A solver works on the first of several edges that say the same, so it matters what flow functions
make of facts that say the same. **They do read history**: a strong update spares an alias that was
found at the very statement, and a derivation that changes neither path nor statement keeps what
others drop. Facts that agree in what they say *and* in that much of their history do give facts
that say the same, whatever the flow function and whatever the state of the run.
-/

namespace LeakTrace
open Track

variable {e : Env} {b : Nat × Nat}

namespace Track
variable {d1 d1' f g d d' : Fact} {set set' : FactSet} {x y : Option Fact} {ds ds' : List Fact}

section
variable (h : f.Alike b g)
include h

theorem stampCall_alike (call : StmtId) (hset : FactSet.Alike b set set') :
    Alike e b (stampCall f call set) (stampCall g call set') (FactSet.Alike b) := by
  refine .mapM₂ hset fun x y hxy => ?_
  rw [hxy.is_eq h]
  exact .ite (.pure hxy) (.fresh_bind fun _ hn => .pure (hxy.withCall hn call))

/-! ## Assignments -/

theorem reading?_alike (v : Value) : Alike e b (reading? f v) (reading? g v) Eq := by
  refine .read ?_
  rw [h.accessPath]
  cases v with
  | global _ => exact (mayAlias_steady _ _).bind_eq fun _ => .ite (.pure rfl) (.pure rfl)
  | field base field =>
    refine (mayAlias_steady _ _).bind_eq fun path => ?_
    cases path with
    | some path => exact .pure rfl
    | none =>
      refine (holdsTaint_alike h.taint _).bind_eq fun _ => .ite (.pure rfl) ?_
      exact .bind_eq (.paths _) fun _ => .pure rfl
  | _ => exact (holdsTaint_alike h.taint _).bind_eq fun _ => .ite (.pure rfl) (.pure rfl)

theorem firstReading?_alike (vs : List Value) :
    Alike e b (firstReading? f vs) (firstReading? g vs) Eq := by
  induction vs with
  | nil => exact .pure rfl
  | cons v rest ih =>
    refine .ite (.pure rfl) ((reading?_alike h v).bind_eq fun r => ?_)
    cases r with
    | some r => exact .pure rfl
    | none => exact ih

theorem rightReading?_alike (rhs : Value) :
    Alike e b (rightReading? f rhs) (rightReading? g rhs) Eq := by
  unfold rightReading?
  rw [h.accessPath, h.taint]
  exact .ite (.pure rfl) (.ite (.pure rfl) (firstReading?_alike h _))

/-- What was found stands; otherwise the fact is derived for the path. -/
theorem foundOrDerived_alike (hxy : Option.Rel (Fact.Alike b) x y) (act : Paths (Option AccessPath))
    (s : Stmt) :
    Alike e b
      (match x with
        | some u => pure (some u)
        | none => paths act >>= fun path => derive f path (some s.id))
      (match y with
        | some u => pure (some u)
        | none => paths act >>= fun path => derive g path (some s.id))
      (Option.Rel (Fact.Alike b)) := by
  cases hxy with
  | some hxy => exact .pure (.some hxy)
  | none => exact .bind_eq (.paths _) fun path => derive_alike h path _

theorem written_alike (s : Stmt) (lhs rhs : Value) (r : Reading) :
    Alike e b (written s lhs rhs f r) (written s lhs rhs g r) (Option.Rel (Fact.Alike b)) := by
  refine .read ?_
  rw [h.accessPath]
  refine .ite ?_ ?_
  · exact .bind_eq (.paths _) fun path => .fresh_bind fun _ hn => .pure (h.deriveAs? hn path _ _)
  · cases rhs with
    | isInstance _ _ =>
      refine .ite (.bind_eq (.paths _) fun path => ?_)
        (.bind (.pure .none) fun _ _ hxy => foundOrDerived_alike h hxy _ s)
      exact (derive_alike h path _).bind fun _ _ hxy => foundOrDerived_alike h hxy _ s
    | _ => exact .bind (.pure .none) fun _ _ hxy => foundOrDerived_alike h hxy _ s

end

section
variable (hd : d1.toTaint = d1'.toTaint) (h : f.Alike b g)
include hd h

theorem taintLeft_alike (s : Stmt) (lhs rhs : Value) (r : Reading) :
    Alike e b (taintLeft d1 s lhs rhs f r) (taintLeft d1' s lhs rhs g r) (FactSet.Alike b) := by
  refine .read (.ite (.pure .nil) ?_)
  refine (written_alike h s lhs rhs r).bind_option (.pure .nil) fun x y hxy => ?_
  have hone : FactSet.Alike b [x] [y] := .cons hxy .nil
  dsimp only
  rw [hxy.taint]
  refine .ite ((addGlobal_alike hxy).bind_eq fun _ => .pure .nil) ?_
  exact .ite (computeAliases_alike hxy hd _ _ hone _) (.pure hone)

theorem taintLeftWith_alike (hxy : Option.Rel (Fact.Alike b) x y) (s : Stmt) (lhs rhs : Value)
    (r : Reading) :
    Alike e b
      (match x with
        | none => pure []
        | some u => do return (← taintLeft d1 s lhs rhs u r).insert f)
      (match y with
        | none => pure []
        | some u => do return (← taintLeft d1' s lhs rhs u r).insert g)
      (FactSet.Alike b) := by
  cases hxy with
  | none => exact .pure .nil
  | some hxy => exact (taintLeft_alike hd hxy s lhs rhs r).bind fun _ _ hs => .pure (hs.insert h)

theorem assignRead_alike (s : Stmt) (lhs rhs : Value) (r : Reading) :
    Alike e b (assignRead d1 s lhs rhs f r) (assignRead d1' s lhs rhs g r) (FactSet.Alike b) := by
  unfold assignRead
  rw [h.accessPath, h.taint]
  refine .ite (.pure (.cons h .nil)) (.ite ?_ ?_)
  · exact .bind (.pure (.some h)) fun _ _ hxy => taintLeftWith_alike hd h hxy s lhs rhs r
  · exact (derive_alike h _ _).bind fun _ _ hxy => taintLeftWith_alike hd h hxy s lhs rhs r

theorem assign_alike (s : Stmt) (lhs rhs : Value) :
    Alike e b (assign d1 s lhs rhs f) (assign d1' s lhs rhs g) (FactSet.Alike b) := by
  have hone : FactSet.Alike b [f] [g] := .cons h .nil
  refine .read ?_
  rw [h.accessPath, h.taint, e.isConditional_congr hd]
  refine .ite (.pure hone) (.ite (.pure hone) ((rightReading?_alike h rhs).bind_eq fun r => ?_))
  cases r with
  | none => exact .pure .nil
  | some r => exact assignRead_alike hd h s lhs rhs r

end

/-! ## Calls -/

section
variable (h : f.Alike b g) (callee : Method) (c : Call)
include h callee c

theorem pathsOfParams_alike (reflective : Bool) :
    Alike e b (pathsOfParams callee c f reflective) (pathsOfParams callee c g reflective) Eq := by
  unfold pathsOfParams
  rw [h.accessPath]
  refine .ite ?_ (.ite (.pure rfl) (.filterMapM _ ?_))
  · cases c.args[1]? with
    | none => exact .pure rfl
    | some args =>
      refine (holdsTaint_alike h.taint args).bind_eq fun _ => .ite ?_ (.pure rfl)
      exact .filterMapM _ fun p => .paths _
  · rintro ⟨arg, i⟩
    refine (holdsTaint_alike h.taint arg).bind_eq fun _ => .ite ?_ (.pure rfl)
    cases callee.params[i]? with
    | none => exact .pure rfl
    | some p => exact .paths _

theorem pathOfReceiver_alike :
    Alike e b (pathOfReceiver callee c f) (pathOfReceiver callee c g) Eq := by
  refine .read ?_
  rw [h.accessPath, h.taint]
  cases c.base with
  | none => exact .pure rfl
  | some base =>
    cases callee.self with
    | none => exact .pure rfl
    | some this =>
      refine .ite (.pure rfl) ((holdsTaint_alike h.taint _).bind_eq fun _ => ?_)
      exact .ite (.pure rfl) (.ite (.pure rfl) (.paths _))

theorem pathsInCallee_alike (reflective : Bool) :
    Alike e b (pathsInCallee callee c f reflective) (pathsInCallee callee c g reflective) Eq := by
  refine .read ?_
  rw [h.accessPath]
  refine .ite (.pure rfl) (.ite (.pure rfl) ?_)
  refine (pathOfReceiver_alike h callee c).bind_eq fun _ => ?_
  exact (pathsOfParams_alike h callee c reflective).bind_eq fun _ => .pure rfl

end

theorem allRead_alike (h : f.Alike b g) (c : Call) (reflective : Bool) (ms : List MethodId) :
    Alike e b (allRead c f reflective ms) (allRead c g reflective ms) Eq := by
  induction ms with
  | nil => exact .pure rfl
  | cons m rest ih =>
    refine .read (.ite (.pure rfl) (.ite ?_ ?_))
    · refine (pathsInCallee_alike h _ c reflective).bind_eq fun _ => ?_
      exact .bind_eq (.pure rfl) fun _ => .ite ih (.pure rfl)
    · exact .bind_eq (.pure rfl) fun _ => .ite ih (.pure rfl)

section
variable {now now' : Fact}

section
variable (h : f.Alike b g) (hnow : now.Alike b now') (call : Stmt)
include h hnow call

theorem carriedByCallees_alike :
    Alike e b (carriedByCallees f now call) (carriedByCallees g now' call) Eq := by
  refine .read ?_
  rw [h.taint, hnow.taint]
  refine .ite (.pure rfl) ?_
  cases call.call? with
  | none => exact .pure rfl
  | some c =>
    refine (allRead_alike h c _ _).bind_eq fun _ => .ite (.pure rfl) ?_
    have harg (onBase : Bool) :
        Alike e b (do return onBase || (← anyHoldsTaint c.args now))
          (do return onBase || (← anyHoldsTaint c.args now')) Eq :=
      (anyHoldsTaint_alike hnow.taint _).bind_eq fun _ => .pure rfl
    cases c.base with
    | none => exact .bind_eq (.pure rfl) harg
    | some base => exact (holdsTaint_alike hnow.taint _).bind_eq harg

theorem passesCall_alike (killed : Bool) :
    Alike e b (passesCall f now call killed) (passesCall g now' call killed) Eq := by
  refine .read ?_
  rw [h.taint, hnow.taint]
  refine .ite (.bind_eq (.pure rfl) fun _ => .pure rfl) ?_
  refine (carriedByCallees_alike h hnow call).bind_eq fun _ => ?_
  exact .bind_eq (.pure rfl) fun _ => .pure rfl

end

variable (hd : d1.toTaint = d1'.toTaint) (h : f.Alike b g) (call : Stmt)
include hd h call

theorem intoCallee_alike (callee : MethodId) :
    Alike e b (intoCallee d1 f call callee) (intoCallee d1' g call callee) (FactSet.Alike b) := by
  have hrules := Rule.ask_alike (e := e)
    (fun r hr => (Rule.chain_alike r hr).call hd h call callee) .none
  refine .read (hrules.run_bind ?_)
  intro out out' kill hout
  have hset := FactSet.Alike.getD hout
  refine .ite (.pure .nil) ?_
  cases call.call? with
  | none => exact .pure hset
  | some c =>
    refine (pathsInCallee_alike h _ c _).bind_eq fun mapped => .foldlM _ (fun s s' a hs => ?_) hset
    rw [h.taint]
    exact .ite (insertDerived_alike h hs _ _) (.pure hs)

theorem addNative_alike (c : Call) (hset : FactSet.Alike b set set') :
    Alike e b (addNative d1 call c f set) (addNative d1' call c g set') (FactSet.Alike b) := by
  refine .read ?_
  rw [h.taint]
  refine .ite (.pure hset) ?_
  refine (nativeTaints_alike h call _).bind_option (.pure hset) fun taints taints' htaints => ?_
  refine .foldlM₂ htaints (fun s s' x y hxy hs => ?_) hset
  rw [hxy.aliasTarget?, hxy.taint]
  cases y.aliasTarget? with
  | none => exact .pure (hs.insert hxy)
  | some target =>
    exact .ite (computeAliases_alike hxy hd _ _ (hs.insert hxy) _) (.pure (hs.insert hxy))

theorem pastCall_alike :
    Alike e b (pastCall d1 f call) (pastCall d1' g call) (FactSet.Alike b) := by
  refine .read ((activateAt_alike h call.id).bind fun now now' hnow => ?_)
  refine (Rule.applyCallToReturn_alike Rule.chain_alike hd hnow call false).run_bind ?_
  intro out out' kill hout
  dsimp only
  rw [e.isZero_congr h.taint, hnow.taint]
  refine .ite (.pure .nil) (.ite (.pure hout) (.ite (.pure (.cons hnow .nil)) ?_))
  refine (passesCall_alike h hnow call kill.source).bind_eq fun passes => ?_
  rw [e.isZero_congr hnow.taint]
  have hset : FactSet.Alike b (if passes && !e.isZero now' then out.insert now else out)
      (if passes && !e.isZero now' then out'.insert now' else out') := by
    split
    · exact hout.insert hnow
    · exact hout
  cases call.call? with
  | none => exact .bind (.pure hset) fun _ _ hs => stampCall_alike hnow call.id hs
  | some c =>
    exact (addNative_alike hd hnow call c hset).bind fun _ _ hs => stampCall_alike hnow call.id hs

end

/-! ## Returns -/

section Returns

-- Two runs leave through one exit; the contexts of the caller say the same.
variable {l : Leaving} (hds : l.contexts.map (·.toTaint) = ds'.map (·.toTaint)) (h : f.Alike b g)
  (hset : FactSet.Alike b set set')
include hds h hset

theorem outOfResult_alike : Alike e b (outOfResult l f set)
    (outOfResult { l with contexts := ds' } g set') (FactSet.Alike b) := by
  refine .read ?_
  rw [h.accessPath]
  dsimp only
  cases l.exit.returned? with
  | none => exact .pure hset
  | some v =>
    cases l.result with
    | none => exact .pure hset
    | some lhs =>
      refine (holdsTaint_alike h.taint v).bind_eq fun _ => .ite (.pure hset) ?_
      refine .bind_eq (.paths _) fun path =>
        (derive_alike h path _).bind_option (.pure hset) fun x y hxy => ?_
      have hset := hset.insert hxy
      exact .ite (computeAliasesIn_alike hxy hds _ _ hset _) (.pure hset)

theorem moveOut_alike (v : Value) {search search' : Fact → Bool}
    (hsearch : ∀ {x y : Fact}, x.Alike b y → search x = search' y) :
    Alike e b (moveOut l f v search set) (moveOut { l with contexts := ds' } g v search' set')
      (FactSet.Alike b) := by
  unfold moveOut
  rw [h.accessPath]
  refine .bind_eq (.paths _) fun path =>
    (derive_alike h path _).bind_option (.pure hset) fun x y hxy => ?_
  have hset := hset.insert hxy
  dsimp only
  rw [hsearch hxy]
  exact .ite (computeAliasesIn_alike hxy hds _ _ hset _) (.pure hset)

theorem outOfParams_alike (c : Call) :
    Alike e b (outOfParams l c f set) (outOfParams { l with contexts := ds' } c g set')
      (fun p q => p.1 = q.1 ∧ FactSet.Alike b p.2 q.2) := by
  refine .read (.foldlM _ ?_ ⟨rfl, hset⟩)
  rintro ⟨below, s⟩ ⟨below', s'⟩ ⟨p, i⟩ ⟨hbelow, hs⟩
  obtain rfl : below = below' := hbelow
  have hshared (arg : Value) :
      isShared e l f p arg = isShared e { l with contexts := ds' } g p arg := by
    unfold isShared
    rw [h.taint]
  dsimp only
  cases c.args[i]? with
  | none => exact .pure ⟨rfl, hs⟩
  | some arg =>
    refine .ite (.pure ⟨rfl, hs⟩) ((holdsTaint_alike h.taint _).bind_eq fun _ => ?_)
    rw [hshared]
    refine .ite (.pure ⟨rfl, hs⟩) (.ite ?_ (.pure ⟨rfl, hs⟩))
    exact (moveOut_alike hds h hs arg fun _ => rfl).bind fun _ _ hs => .pure ⟨rfl, hs⟩

theorem outOfReceiver_alike (hd : d.toTaint = d'.toTaint) (c : Call) :
    Alike e b (outOfReceiver l c d f set)
    (outOfReceiver { l with contexts := ds' } c d' g set') (FactSet.Alike b) := by
  refine .read ?_
  rw [h.taint]
  dsimp only
  cases l.callee.self with
  | none => exact .pure hset
  | some this =>
    cases c.base with
    | none => exact .pure hset
    | some base =>
      refine .ite (.pure hset) ((holdsTaint_alike h.taint _).bind_eq fun _ => ?_)
      refine .ite (.pure hset) (.ite (.pure hset) ?_)
      refine moveOut_alike hds h hset _ fun hxy => ?_
      unfold Fact.same
      rw [hxy.taint, hd]

theorem finishReturn_alike :
    Alike e b (finishReturn l f set) (finishReturn { l with contexts := ds' } g set')
      (FactSet.Alike b) := by
  refine .read (.bind (.foldlM₂ hset (fun s s' x y hxy hs => ?_) hset) fun s s' hs => ?_)
  · rw [hxy.taint, hxy.aliasTarget?, Rule.any_isConditional_congr hds]
    refine .ite ?_ (.pure hs)
    cases y.aliasTarget? with
    | none => exact .pure hs
    | some target => exact computeAliasesIn_alike hxy hds _ _ hs _
  · exact stampCall_alike h _ hs

theorem moveToCaller_alike (hd : d.toTaint = d'.toTaint) : Alike e b (moveToCaller l d f set)
    (moveToCaller { l with contexts := ds' } d' g set') (FactSet.Alike b) := by
  unfold moveToCaller
  rw [h.taint]
  refine .ite (.pure hset) ((outOfResult_alike hds h hset).bind fun s s' hs => ?_)
  dsimp only
  cases l.call.call? with
  | none => exact .pure hs
  | some c =>
    refine (outOfParams_alike hds h hs c).bind ?_
    rintro ⟨below, s⟩ ⟨below', s'⟩ ⟨hbelow, hs⟩
    obtain rfl : below = below' := hbelow
    exact .ite (.pure hs) (outOfReceiver_alike hds h hs hd c)

end Returns

variable (hds : ds.map (·.toTaint) = ds'.map (·.toTaint)) (hd : d.toTaint = d'.toTaint)
  (h : f.Alike b g)
include hds hd h

variable (call : Option Stmt) (callee : MethodId) (exit : Stmt) (site : Option Stmt)
include call callee exit site

theorem leaveCallee_alike : Alike e b (leaveCallee call callee exit site f d ds)
      (leaveCallee call callee exit site g d' ds') (FactSet.Alike b) := by
  refine .read ?_
  rw [h.taint]
  refine .ite (.pure .nil) ?_
  have hrules := Rule.ask_alike (e := e)
    (fun r hr => (Rule.chain_alike r hr).ret hds hd h exit site call) .none
  refine hrules.run_bind ?_
  intro out out' kill hout
  refine .ite (.pure .nil) ?_
  cases call with
  | none => exact .pure .nil
  | some cs =>
    have hset : FactSet.Alike b
        (if e.config.aliasing.isLazy && g.path.canHaveAliases then (out.getD []).insert f
          else out.getD [])
        (if e.config.aliasing.isLazy && g.path.canHaveAliases then (out'.getD []).insert g
          else out'.getD []) := by
      split
      · exact (FactSet.Alike.getD hout).insert h
      · exact FactSet.Alike.getD hout
    exact (moveToCaller_alike hds h hset hd).bind fun _ _ hs => finishReturn_alike hds h hs

theorem outOfCallee_alike : Alike e b (outOfCallee call callee exit site f d ds)
      (outOfCallee call callee exit site g d' ds') (FactSet.Alike b) := by
  cases call with
  | none => exact .bind (.pure h) fun _ _ h => leaveCallee_alike hds hd h _ _ _ _
  | some c => exact (activateAt_alike h c.id).bind fun _ _ h => leaveCallee_alike hds hd h _ _ _ _

end Track

/-! ## The flow functions -/

/-- What the facts say that a flow function returns. -/
def Track.taints (x : Track Flow) (e : Env) (w : World) : List Taint :=
  ((x.run e).run w).1.facts.map (·.toTaint)

theorem Track.Alike.taints_eq {x y : Track Flow} {w : World}
    (h : Alike e b x y fun p q => FactSet.Alike b p.facts q.facts)
    (hb : b.1 < w.nextId) (hb' : b.2 < w.nextId) : x.taints e w = y.taints e w :=
  (h w w (.refl hb hb')).1.taints

namespace Forward
variable {d1 d1' f g : Fact}

/-- Whether a fact became active at the statement can be told from what it said before. -/
theorem justActivated_activate (h : f.toTaint = g.toTaint) (hf : f.isActive = false) (n : Nat)
    (s : StmtId) : Rule.justActivated (f.activate n) s = Rule.justActivated (g.activate n) s := by
  have hg : g.isActive = false := by rw [← h, hf]
  simp only [Rule.justActivated, Fact.activate, hg, Fact.next, Bool.false_eq_true, if_false,
    Option.any_some, h]

section
variable (hd : d1.toTaint = d1'.toTaint) (h : f.Alike b g)
include hd h

theorem passStmt_alike (s succ : StmtId)
    (hpred : Rule.justActivated f (e.stmt s).id = Rule.justActivated g (e.stmt s).id) : Alike e b
    (passStmt d1 f s succ) (passStmt d1' g s succ) fun x y => FactSet.Alike b x.facts y.facts := by
  refine .read ((Rule.applyNormal_alike Rule.chain_alike hd h _ _ hpred).run_bind ?_)
  intro out out' kill hout
  refine .ite (.pure .nil) ?_
  rw [e.isZero_congr h.taint]
  cases (e.stmt s).action with
  | assign lhs rhs =>
    refine .ite (.pure hout) ((assign_alike hd h _ lhs rhs).bind fun _ _ hs => .pure ?_)
    exact hout.insertAll hs
  | _ => exact .pure hout

theorem normal_alike (s succ : StmtId)
    (hpred : Rule.justActivated f (e.stmt s).id = Rule.justActivated g (e.stmt s).id) : Alike e b
    (normal d1 f s succ) (normal d1' g s succ) fun x y => FactSet.Alike b x.facts y.facts := by
  unfold normal
  by_cases hwait : (f.waitsFor == some s)
  · have hwait' : (g.waitsFor == some s) := by rwa [← h.taint]
    rw [if_pos hwait, if_pos hwait']
    refine .fresh_bind fun n hn => passStmt_alike hd (h.activate hn) s succ ?_
    refine justActivated_activate h.taint ?_ n _
    rw [beq_iff_eq] at hwait
    simp only [Taint.isActive, hwait, Option.isNone_some]
  · have hwait' : ¬(g.waitsFor == some s) := by rwa [← h.taint]
    rw [if_neg hwait, if_neg hwait']
    exact passStmt_alike hd h s succ hpred

theorem call_alike (s : StmtId) (callee : MethodId) : Alike e b
    (call d1 f s callee) (call d1' g s callee) fun x y => FactSet.Alike b x.facts y.facts := by
  refine .read (limitReached_steady.bind_eq fun _ => .ite (.pure .nil) ?_)
  rw [e.isZero_congr h.taint]
  refine .ite (.pure .nil) ?_
  exact (intoCallee_alike hd h (e.stmt s) callee).bind fun _ _ hs => .pure hs

theorem callToReturn_alike (s : StmtId) : Alike e b (callToReturn d1 f s) (callToReturn d1' g s)
      fun x y => FactSet.Alike b x.facts y.facts := by
  refine .read (limitReached_steady.bind_eq fun _ => .ite (.pure .nil) ?_)
  exact (pastCall_alike hd h (e.stmt s)).bind fun _ _ hs => .pure hs

end

theorem ret_alike {ds ds' : List Fact} {d d' : Fact}
    (hds : ds.map (·.toTaint) = ds'.map (·.toTaint)) (hd : d.toTaint = d'.toTaint) (h : f.Alike b g)
    (call : Option StmtId) (callee : MethodId) (exit : StmtId) (site : Option StmtId) :
    Alike e b (ret call callee exit site f d ds) (ret call callee exit site g d' ds')
      fun x y => FactSet.Alike b x.facts y.facts := by
  refine .read (limitReached_steady.bind_eq fun _ => .ite (.pure .nil) ?_)
  rw [e.isZero_congr h.taint]
  refine .ite (.pure .nil) ?_
  exact (outOfCallee_alike hds hd h _ callee _ _).bind fun _ _ hs => .pure hs

/-! ## Facts that say the same -/

/-- **Facts that say the same and share the history that is read are interchangeable**, for every
flow function and from every state. The context only counts by what it says. -/
theorem taints_eq_of_same_history (e : Env) (w : World) (d1 d1' f f' : Fact)
    (hd : d1.same d1') (h : f.same f') (hcut : f.cut = f'.cut) (hstmt : f.stmt = f'.stmt)
    (hf : f.id < w.nextId) (hf' : f'.id < w.nextId) :
    (∀ s succ, Rule.justActivated f (e.stmt s).id = Rule.justActivated f' (e.stmt s).id →
      (normal d1 f s succ).taints e w = (normal d1' f' s succ).taints e w) ∧
    (∀ s callee, (call d1 f s callee).taints e w = (call d1' f' s callee).taints e w) ∧
    (∀ call callee exit site ds ds', ds.map (·.toTaint) = ds'.map (·.toTaint) →
      (ret call callee exit site f d1 ds).taints e w =
        (ret call callee exit site f' d1' ds').taints e w) ∧
    (∀ s, (callToReturn d1 f s).taints e w = (callToReturn d1' f' s).taints e w) := by
  have hd : d1.toTaint = d1'.toTaint := eq_of_beq hd
  have hff' : f.Alike (f.id, f'.id) f' := ⟨eq_of_beq h, hcut, hstmt, .inl ⟨rfl, rfl⟩⟩
  refine ⟨?_, ?_, ?_, ?_⟩
  · intro s succ hpred
    exact (normal_alike hd hff' s succ hpred).taints_eq hf hf'
  · intro s callee
    exact (call_alike hd hff' s callee).taints_eq hf hf'
  · intro call callee exit site ds ds' hds
    exact (ret_alike hds hd hff' call callee exit site).taints_eq hf hf'
  · intro s
    exact (callToReturn_alike hd hff' s).taints_eq hf hf'

/-- Statement 1 stores into the field of a local; statement 3 is the exit of a method that
statement 2 calls. -/
def storing : Env where
  graph :=
    { (default : Graph) with
      program :=
        { hierarchy := {}
          stmts :=
            #[⟨0, 0, .skip⟩,
              ⟨1, 0, .assign (.field ⟨0, "x", .cls "A"⟩ ⟨"A", "f", .cls "B", false⟩)
                (.var ⟨1, "z", .cls "B"⟩)⟩,
              ⟨2, 0, .skip⟩, ⟨3, 1, .retVoid⟩] } }

/-- The field that is stored into, tainted by an alias that waits for statement `u`. -/
def storedInto (u : Option StmtId) : Fact :=
  { path :=
      { base := some ⟨0, "x", .cls "A"⟩, ty := some (.cls "A")
        steps := [.of ⟨"A", "f", .cls "B", false⟩] }
    waitsFor := u
    id := 1 }

def stored : Fact :=
  { path := { steps := [.of ⟨"A", "s", .cls "A", true⟩] }, waitsFor := some 0, id := 1 }

/-- Identity, length and the facts before are free. -/
theorem taints_eq_storing :
    (normal storing.zero (storedInto (some 2)) 1 2).taints storing { nextId := 3 } =
      (normal storing.zero { storedInto (some 2) with id := 2, pred := some storing.zero, length := 4 }
        1 2).taints storing { nextId := 3 } :=
  (taints_eq_of_same_history storing { nextId := 3 } storing.zero storing.zero (storedInto (some 2))
    { storedInto (some 2) with id := 2, pred := some storing.zero, length := 4 } (by decide)
    (by decide) rfl rfl (by decide) (by decide)).1 1 2 rfl

/-- None of the three conditions on the history can be left out: the statement of the derivation,
the fact before, and whether the path was cut. -/
theorem taints_differ_by_history :
    (normal storing.zero { storedInto (some 2) with stmt := some 1 } 1 2).taints storing {} ≠
      (normal storing.zero { storedInto (some 2) with stmt := some 0 } 1 2).taints storing {} ∧
    (normal storing.zero { storedInto none with pred := some (storedInto (some 1)) } 1 2).taints
        storing {} ≠ (normal storing.zero (storedInto none) 1 2).taints storing {} ∧
    (ret (some 2) 1 3 none { stored with cut := true } storing.zero []).taints storing {} ≠
      (ret (some 2) 1 3 none stored storing.zero []).taints storing {} := by
  decide +kernel

end Forward
end LeakTrace
