import LeakTrace.Proofs.Keeps.Flows
import LeakTrace.Proofs.Vocabulary.Rules

/-!
# Flow functions stay in the vocabulary

The flow functions of both analyses, for facts and statements of the vocabulary: what comes out, and
the contexts that the other solver is told of, are over the vocabulary again.

**Types are where it could fail.** A taint on an element makes one on the array, with a dimension
more, and a taint on an array one on its elements. The limit on dimensions is what keeps the first
kind in the vocabulary.
-/

namespace LeakTrace
open Option Track
open FactSet (All)

variable {V : Vocabulary} {e : Env} {right : Value} {cs : Option StmtId}

structure Context.Over (V : Vocabulary) (c : Context) : Prop where
  entry : c.entry.Over V
  call : c.call ∈ V.stmts
  d1 : c.d1.Over V

structure Flow.Over (V : Vocabulary) (o : Flow) : Prop where
  facts : FactSet.All (Fact.Over V) o.facts
  contexts : ∀ c ∈ o.contexts, Context.Over V c

namespace Flow
variable {o : Flow}

theorem Plain.over (h : o.Plain (Fact.Over V)) : o.Over V :=
  ⟨h.1, h.2 ▸ List.forall_mem_nil _⟩

theorem Enters.over {n : StmtId} {d1 : Fact} (h : o.Enters (Fact.Over V) n d1) (hn : n ∈ V.stmts)
    (h1 : d1.Over V) : o.Over V := by
  refine ⟨h.1, fun c hc => ?_⟩
  obtain ⟨hentry, rfl, rfl⟩ := h.2 c hc
  exact ⟨hentry, hn, h1⟩

end Flow

/-! ## Assignments -/

structure Reading.Over (V : Vocabulary) (r : Reading) : Prop where
  path : r.path.toPath.Over V
  ty : ∀ t ∈ r.ty, Ty.Over V t

namespace Track
variable {f d1 g : Fact} {s : Stmt} {v : Value} {set : FactSet} {r : Reading} {m : MethodId}
  {t : Ty} {c : Call}

theorem reading?_keeps (hV : V.Closed) (hf : f.Over V) (hv : v.Over V) :
    Keeps e (World.Over V) (reading? f v) fun o => ∀ r ∈ o, Reading.Over V r := by
  refine .read ?_
  dsimp only
  split
  · refine (mayAlias_over hV hf hv).bind fun hit hhit =>
      .guard all_none <| .pure fun r hr => ?_
    obtain ⟨p, hp, rfl⟩ := map_eq_some_iff.mp hr
    exact ⟨hhit p hp, all_none⟩
  · next base field =>
    obtain ⟨hbase, hfield⟩ := Value.over_field.mp hv
    have hvar : Value.Over V (.var base) := Value.over_var.mpr hbase
    refine (mayAlias_over hV hf hv).bind fun hit hhit => ?_
    split
    · next p =>
      refine .pure ?_
      rintro _ ⟨⟩
      exact ⟨hhit p rfl, all_none⟩
    · refine (holdsTaint_over hV hf hvar).bind fun _ _ =>
        .guard all_none ?_
      refine (paths_keeps (Paths.ofValue_keeps hV hvar)).bind fun p hp => .pure ?_
      rintro _ ⟨⟩
      refine ⟨?_, ?_⟩
      · cases p with
        | none => exact hf.path
        | some p => exact hp p rfl
      · rintro _ ⟨⟩
        exact hV.field_ty field hfield
  · refine (holdsTaint_over hV hf hv).bind fun _ _ =>
      .guard ?_ <| .pure all_none
    rintro _ ⟨⟩
    exact ⟨hf.path, hf.path.ty⟩

theorem over_addDimension (hV : V.Closed) {u : Ty} (ht : t.Over V) (hv : v.Over V)
    (hel : v.isElement) (h : t.addDimension? (.array v.ty) = some u) : u.Over V :=
  ht.addDimension (hV.over_arrayOf hv hel) hV.dims h

theorem over_throughRight {right : Value} {arrived : Option Ty} {t : Ty}
    (ht : t ∈ (match right with
      | .cast t _ => if arrived.any fun u => e.hierarchy.canStore u t then arrived else some t
      | .binary op _ _ => if op == BinOp.cmp || op.isCondition then none else arrived
      | .length _ => none
      | _ => arrived))
    (hright : right.Over V) (harrived : ∀ t ∈ arrived, Ty.Over V t) : t.Over V := by
  split at ht
  · split at ht
    · exact harrived t ht
    · cases ht
      exact (Value.over_cast.mp hright).1
  · split at ht
    · cases ht
    · exact harrived t ht
  · cases ht
  · exact harrived t ht

theorem over_arrivingTy (hV : V.Closed) {lhs rhs : Value} (hl : lhs.Over V) (hr : rhs.Over V)
    {ty : Option Ty} (hty : ∀ t ∈ ty, Ty.Over V t) :
    ∀ t ∈ arrivingTy e lhs rhs ty, Ty.Over V t := by
  intro t ht
  refine over_throughRight ht hr fun u hu => ?_
  split at hu
  · next w => exact over_addDimension hV (hty w rfl) hl rfl hu
  · exact hty u hu

section
variable (hV : V.Covers e) (h1 : d1.Over V) (hs : V.HasStmt e s) {lhs rhs : Value}
include hV h1 hs

variable (hl : lhs.Over V) (hr : rhs.Over V) (hf : f.Over V)
include hl hr hf

theorem taintLeft_keeps (hread : r.Over V) :
    Keeps e (World.Over V) (taintLeft d1 s lhs rhs f r) (All (Fact.Over V)) := by
  have hwritten : Keeps e (World.Over V) (written s lhs rhs f r) (Fact.OverOpt V) := by
    refine written_of fresh_keeps (fun _ => ?_) (fun _ _ _ => ?_) fun _ => ?_
    · exact (paths_keeps (Paths.ofValue_keeps hV.toClosed hl)).mono fun _ hp _ => hf.deriveAs? hp
    · refine make_derive_keeps (Paths.ofTyped_keeps hV.toClosed hl ?_) hf
      rintro _ ⟨⟩
      exact hV.boolean_ty
    · exact make_derive_keeps (Paths.rebase_keeps hV.toClosed hf.path hl
        (over_arrivingTy hV.toClosed hl hr hread.ty)) hf
  exact taintLeft_of (hwritten.mono fun _ ho g hg => ⟨ho g hg, fun _ => ho g hg⟩)
    (fun _ _ hg => addGlobal_keeps hV hg)
    fun _ hg => computeAliases_keeps hV h1 (hV.stmt_id hs) hl (.singleton hg) hg

theorem assign_keeps : Keeps e (World.Over V) (assign d1 s lhs rhs f) (All (Fact.Over V)) :=
  assign_of (Y := fun _ => Fact.Over V) hf
    (rightReading?_of (fun _ => ⟨hf.path, all_none⟩)
      fun v hv => reading?_keeps hV.toClosed hf (hr.roots true v hv))
    (fun _ _ _ => hf) (fun _ hread => derive_keeps hf (.some hread.path))
    fun _ _ hread hg => taintLeft_keeps hV h1 hs hl hr hg hread

end

/-! ## Into a callee -/

abbrev OverPaths (V : Vocabulary) (l : List AccessPath) : Prop := ∀ a ∈ l, Path.Over V a.toPath

section
variable (hV : V.Covers e) (hf : f.Over V)
include hV hf

theorem receives_over :
    Receives e (World.Over V) (fun a => Path.Over V a.toPath) f (e.method m) := by
  intro l hl
  refine paths_keeps (Paths.onto_keeps hV.toClosed hf.path (Value.over_var.mpr ?_))
  rcases hl with hl | hl
  · exact hV.self m l hl
  · exact hV.params m l hl

variable (hs : V.HasStmt e s)
include hs

theorem asks_over (hc : s.call? = some c) : c.Asks e (World.Over V) f := by
  obtain ⟨hbase, hargs⟩ := hV.over_call hs hc
  exact ⟨fun b hb => holdsTaint_over hV.toClosed hf (Value.over_var.mpr (hbase b hb)),
    fun v hv => holdsTaint_over hV.toClosed hf (hargs v hv)⟩

theorem pathsInCallee_keeps (hc : s.call? = some c) {reflective : Bool} :
    Keeps e (World.Over V) (pathsInCallee (e.method m) c f reflective) (OverPaths V) :=
  pathsInCallee_receives (receives_over hV hf) (asks_over hV hf hs hc) fun _ => hf.path

theorem intoCallee_keeps :
    Keeps e (World.Over V) (intoCallee d1 f s m) (All (Fact.Over V)) := by
  refine intoCallee_of (fun r hr => ?_) fun c hc _ => ?_
  · exact Rule.chain_call fresh_keeps (fun _ => deriveAt_keeps hf)
      (fun _ _ hw => hw.of_eq rfl rfl) (fun _ => hf.callConditional) hr
  · exact (pathsInCallee_keeps hV hf hs hc).mono fun _ hmapped a ha =>
      derive_keeps hf (.some (hmapped a ha))

/-! ## Past a call -/

theorem pastCall_keeps (h1 : d1.Over V) :
    Keeps e (World.Over V) (pastCall d1 f s) (All (Fact.Over V)) :=
  pastCall_of ((activateAt_keeps hf).mono fun _ hnow => Rule.site_over hV h1 hnow hs)
    (fun _ hc => (hV.over_call hs hc).2)
    fun _ hc _ _ => (pathsInCallee_keeps hV hf hs hc).mono fun _ _ => trivial

end

/-! ## Out of a callee -/

section
variable (hV : V.Covers e) {contexts : List Fact} (hctx : ∀ d ∈ contexts, Fact.Over V d)
  {exit : Stmt} (hexit : V.HasStmt e exit)
include hV hctx hexit

theorem carries_over {call : Stmt} (hcall : V.HasStmt e call) (hf : f.Over V) :
    Leaving.Carries e (World.Over V) (Value.Over V) (Fact.Over V)
      ⟨e.method m, exit, call, call.lhs?, contexts⟩ f where
  result := hV.over_lhs hcall
  base c hc b hb := Value.over_var.mpr ((hV.over_call hcall hc).1 b hb)
  args c hc := (hV.over_call hcall hc).2
  asksResult v hv := holdsTaint_over hV.toClosed hf (hV.over_returned hexit v hv)
  asksLocal p hp := by
    refine holdsTaint_over hV.toClosed hf (Value.over_var.mpr ?_)
    exact hp.elim (hV.self m p) (hV.params m p)
  onto v hv := make_derive_keeps (Paths.onto_keeps hV.toClosed hf.path hv) hf
  ontoTyped v hv :=
    make_derive_keeps (Paths.ontoTyped_keeps hV.toClosed hf.path hv hf.path.ty) hf
  search target _ _ ht hset hg := by
    have htarget := ht.elim id (over_aliasTarget hg target)
    exact .foldlM (fun _ hset d hd =>
      computeAliases_keeps hV (hctx d hd) (hV.stmt_id hcall) htarget hset hg) hset
  stamp _ hset := stampCall_keeps hset

theorem outOfCallee_keeps {call site : Option Stmt} (hcall : ∀ c ∈ call, V.HasStmt e c)
    (hf : f.Over V) : Keeps e (World.Over V) (outOfCallee call m exit site f d1 contexts)
      (All (Fact.Over V)) := by
  have hleave {now : Fact} (hnow : now.Over V) : Keeps e (World.Over V)
      (leaveCallee call m exit site now d1 contexts) (All (Fact.Over V)) := by
    intro w hw
    have hrules : RuleM.Keeps e (World.Over V)
        (Rule.applyReturn (Rule.chain e) contexts d1 now exit site call) _ :=
      Rule.applyReturn_keeps fun _ => (Rule.exit_over hV hctx hnow hexit hcall).chain_ret
    exact leaveCallee_of (fun _ => hw) ((hrules {}).ends hw)
      (fun c hc => carries_over hV hctx hexit (hcall c hc) hnow) fun _ => hnow
  unfold outOfCallee
  dsimp only
  split
  · exact (activateAt_keeps hf).bind fun _ hnow => hleave hnow
  · exact hleave hf

end
end Track

/-! ## The taint analysis -/

namespace Forward
variable {f d1 : Fact} {n : StmtId} {m : MethodId}

variable (hV : V.Covers e) (h1 : d1.Over V) (hf : f.Over V) (hn : n ∈ V.stmts) {t : StmtId}
include hV h1 hf hn

theorem passStmt_keeps : Keeps e (World.Over V) (passStmt d1 f n t) (Flow.Over V) := by
  have hs : V.HasStmt e (e.stmt n) := ⟨n, hn, rfl⟩
  refine (passStmt_of (Rule.site_over hV h1 hf hs) fun lhs rhs hact => ?_).mono fun _ ho => ho.over
  obtain ⟨hl, hr⟩ := hV.over_assign hs hact
  exact assign_keeps hV h1 hs hl hr hf

theorem normal_keeps : Keeps e (World.Over V) (normal d1 f n t) (Flow.Over V) := by
  refine .ite ?_ <| passStmt_keeps hV h1 hf hn
  exact fresh_keeps.bind fun _ _ => passStmt_keeps hV h1 hf.activate hn

omit h1 in
theorem ret_keeps {site : Option StmtId} (hcs : ∀ n ∈ cs, n ∈ V.stmts) {contexts : List Fact}
    (hctx : ∀ d ∈ contexts, Fact.Over V d) :
    Keeps e (World.Over V) (ret cs m n site f d1 contexts) (Flow.Over V) := by
  refine (ret_of (outOfCallee_keeps hV hctx ⟨n, hn, rfl⟩ ?_ hf)).mono fun _ ho => ho.over
  intro c hc
  obtain ⟨k, hk, rfl⟩ := map_eq_some_iff.mp hc
  exact ⟨k, hcs k hk, rfl⟩

end Forward

/-! ## The alias search -/

def Verdict.Over (V : Vocabulary) : Verdict → Prop
  | .alias ty _ => ∀ t ∈ ty, Ty.Over V t
  | _ => True

namespace Backward
variable {f d1 g : Fact} {s : Stmt} {v lhs rhs : Value} {n : StmtId} {set : FactSet} {p : Path}
  {m : MethodId} {ty : Option Ty}

theorem over_firstTy (hp : p.Over V) : ∀ t ∈ p.firstTy?, Ty.Over V t := by
  intro t ht
  obtain ⟨step, hstep, rfl⟩ := map_eq_some_iff.mp ht
  exact (hp.steps step (List.mem_of_mem_head? hstep)).ty

theorem over_rightVerdict (hp : p.Over V) : (rightVerdict e lhs rhs p).Over V := by
  unfold rightVerdict
  split
  · split
    · exact over_firstTy hp
    · trivial
  · split
    · exact hp.ty
    · trivial
  · split
    · trivial
    · split
      · exact hp.ty
      · trivial
  · trivial

theorem over_verdictThrough {right : Value} {ty : Option Ty} {verdict : Verdict}
    (hverdict : (match right with
      | .cast t _ => Verdict.alias
          (if ty.any fun u => e.hierarchy.canStore u t then ty else some t) false
      | .length _ | .isInstance _ _ => Verdict.settled
      | .element _ _ => if p.part == ArrayPart.length then Verdict.settled
          else Verdict.alias ty false
      | _ => Verdict.alias ty false) = verdict)
    (hright : right.Over V) (hty : ∀ t ∈ ty, Ty.Over V t) : verdict.Over V := by
  subst hverdict
  split
  · intro t ht
    split at ht
    · exact hty t ht
    · cases ht
      exact (Value.over_cast.mp hright).1
  · trivial
  · trivial
  · split
    · trivial
    · exact hty
  · exact hty

theorem over_leftVerdict (hV : V.Closed) (hl : lhs.Over V) (hr : rhs.Over V) (hp : p.Over V) :
    (leftVerdict e lhs rhs p).Over V := by
  -- The type that arrives at the left side when the right side reads the whole of the path.
  have hty : ∀ element : Bool, ∀ t ∈ (if lhs.isElement then
        p.ty.bind fun t => t.addDimension? (.array lhs.ty)
      else if element then p.ty.bind Ty.element? else p.ty), Ty.Over V t := by
    intro element t ht
    split at ht
    · next hel =>
      obtain ⟨u, hu, hut⟩ := bind_eq_some_iff.mp ht
      exact over_addDimension hV (hp.ty u hu) hl hel hut
    · split at ht
      · obtain ⟨u, hu, hut⟩ := bind_eq_some_iff.mp ht
        exact (hp.ty u hu).element hut
      · exact hp.ty t ht
  unfold leftVerdict
  dsimp only
  split
  · split
    · exact over_firstTy hp
    · trivial
  · split
    · exact hp.ty
    · trivial
  · split
    · trivial
    · split
      · split
        · trivial
        · exact over_verdictThrough (e := e) rfl hr (hty true)
      · split
        · trivial
        · exact over_verdictThrough (e := e) rfl hr (hty false)

theorem over_takenOver (hV : V.Closed) (hr : rhs.Over V) (hty : ∀ t ∈ ty, Ty.Over V t) :
    ∀ t ∈ (takenOver e lhs rhs ty).1, Ty.Over V t := by
  unfold takenOver
  dsimp only
  split
  · exact all_none
  · next u =>
    have hu := hty u rfl
    split
    · intro t ht
      exact over_addDimension hV hu hr rfl ht
    · rintro _ ⟨⟩
      split
      · exact hV.over_ty (hr.root false)
      · cases hel : u.element? with
        | none => exact hV.object_ty
        | some w => exact hu.element hel
    · exact all_none
    · exact hty

variable (hV : V.Covers e)
include hV

theorem crosses_over (h1 : d1.Over V) (hs : V.HasStmt e s) : Crosses e (World.Over V)
    (Value.Over V) (fun ty => ∀ t ∈ ty, Ty.Over V t) (Fact.Over V) (Fact.Over V) d1 s where
  lhs := hV.over_lhs hs
  rhs _ _ hact := (hV.over_assign hs hact).2
  root _ b hv := hv.root b
  noTy := all_none
  leftTy lhs rhs f ty cutFirst hl hr hf hverdict := by
    have hover : (leftVerdict e lhs rhs f.path).Over V := over_leftVerdict hV.toClosed hl hr hf.path
    rwa [hverdict] at hover
  rightTy lhs rhs f ty cutFirst hr hf hverdict := by
    have hover : (rightVerdict e lhs rhs f.path).Over V := over_rightVerdict hf.path
    rw [hverdict] at hover
    exact over_takenOver hV.toClosed hr hover
  moved _ _ _ _ hf hv hty :=
    (paths_keeps (Paths.ontoTyped_keeps hV.toClosed hf.path hv hty)).bind fun _ hp =>
      (derive_keeps hf hp).mono fun _ ho g hg => ⟨ho g hg, fun _ => ho g hg⟩
  share _ _ hg := addGlobal_keeps hV hg
  hand _ hg := handForward_of fresh_keeps fun _ t ht => sendEdge_keeps h1
    (hV.succs s.id (hV.stmt_id hs) t ht) (hg.turnAt (hV.stmt_id hs))

theorem entering_keeps (hf : f.Over V) :
    Keeps e (World.Over V) (entering f s (e.method m)) (OverPaths V) := by
  refine entering_receives (receives_over hV hf) (fun k hk v hv => ?_) fun _ => hf.path
  exact paths_keeps (Paths.ontoTyped_keeps hV.toClosed hf.path
    (hV.over_returned ⟨k, hV.body m k hk, rfl⟩ v hv) all_none)

variable (h1 : d1.Over V) (hf : f.Over V) (hn : n ∈ V.stmts)
include h1 hf hn

theorem normal_keeps {t : StmtId} (ht : t ∈ V.stmts) :
    Keeps e (World.Over V) (normal d1 f n t) (Flow.Over V) :=
  (normal_crosses (crosses_over hV h1 ⟨n, hn, rfl⟩) (crosses_over hV h1 ⟨t, ht, rfl⟩) hf).mono
    fun _ ho => Flow.Plain.over ho

/-! ### Returns -/

theorem handParamAliases_keeps (hg : g.Over V) {c : Call} {i : Nat} {l : Local} {arg : Value} :
    Keeps e (World.Over V) (handParamAliases d1 f g n (e.method m) c i l arg) := by
  refine handParamAliases_keeps_of (P := Fact.Over V) (fun q hq => ?_) (fun k hk => ?_) hf
  · have hq := Value.over_var.mpr (hV.params m q hq)
    exact (paths_keeps (Paths.ontoTyped_keeps hV.toClosed hg.path hq hg.path.ty)).bind
      fun _ hp => derive_keeps hf hp
  · exact fresh_keeps.bind fun _ _ => sendEdge_keeps h1 hn (hk.turnAt hn)

theorem ret_keeps (hcs : ∀ k ∈ cs, k ∈ V.stmts) :
    Keeps e (World.Over V) (ret cs m n d1 f) (Flow.Over V) := by
  refine (ret_of (fun _ _ _ => ⟨hf, registerActivation_keeps⟩) (fun k hk c hc => ?_)
    fun _ _ hset => stampCall_keeps hset).mono fun _ ho => ho.over
  obtain ⟨hbase, hargs⟩ := hV.over_call ⟨k, hcs k hk, rfl⟩ hc
  refine aboveCallee_keeps_of (W := Value.Over V) (fun v hv => ?_)
    (fun _ _ _ _ hg => handParamAliases_keeps hV h1 hf hn hg)
    (fun b hb => Value.over_var.mpr (hbase b hb)) hargs
  exact moveUp_of (make_derive_keeps
    (Paths.ontoTyped_keeps hV.toClosed hf.path hv hf.path.ty) hf)
    fun _ => registerActivation_keeps

/-! ### Past calls -/

theorem callToReturn_keeps : Keeps e (World.Over V) (callToReturn d1 f n) (Flow.Over V) := by
  have hs : V.HasStmt e (e.stmt n) := ⟨n, hn, rfl⟩
  exact .read (((crosses_over hV h1 hs).pastCall
    ((libraryCall_over hV hs hf).sharingAliases hf) hf).bind fun _ hset =>
      .pure (Flow.Plain.over ⟨all_erase hset, rfl⟩))

end Backward

/-! ## Both analyses -/

/-- For facts, statements and contexts of the vocabulary, what the problem says is over it. -/
structure Problem.Stays (V : Vocabulary) (e : Env) (p : Problem) : Prop where
  succs : ∀ n ∈ V.stmts, ∀ t ∈ p.view.succs n, t ∈ V.stmts
  starts : ∀ m, ∀ n ∈ p.view.starts m, n ∈ V.stmts
  normal {d1 f : Fact} {n t : StmtId} (h1 : d1.Over V) (hf : f.Over V) (hn : n ∈ V.stmts)
    (ht : t ∈ V.stmts) : Track.Keeps e (World.Over V) (p.normal d1 f n t) (Flow.Over V)
  call {d1 f : Fact} {n : StmtId} {m : MethodId} (h1 : d1.Over V) (hf : f.Over V)
    (hn : n ∈ V.stmts) : Track.Keeps e (World.Over V) (p.call d1 f n m) (Flow.Over V)
  ret {cs site : Option StmtId} {m : MethodId} {n : StmtId} {f d1 : Fact} {contexts : List Fact}
    (hcs : ∀ k ∈ cs, k ∈ V.stmts) (hn : n ∈ V.stmts) (hf : f.Over V) (h1 : d1.Over V)
    (hctx : ∀ d ∈ contexts, Fact.Over V d) :
    Track.Keeps e (World.Over V) (p.ret cs m n site f d1 contexts) (Flow.Over V)
  callToReturn {d1 f : Fact} {n t : StmtId} (h1 : d1.Over V) (hf : f.Over V) (hn : n ∈ V.stmts) :
    Track.Keeps e (World.Over V) (p.callToReturn d1 f n t) (Flow.Over V)

namespace Problem
variable (hV : V.Covers e)
include hV

theorem forward_stays : Stays V e (forward e.graph) where
  succs := hV.succs
  starts m n hn := hV.body m n (List.mem_of_mem_head? (mem_toList.mp hn))
  normal h1 hf hn _ := Forward.normal_keeps hV h1 hf hn
  call {_ _ n _} h1 hf hn :=
    (Forward.call_of (intoCallee_keeps hV hf ⟨n, hn, rfl⟩)).mono fun _ ho => ho.over hn h1
  ret hcs hn hf _ hctx := Forward.ret_keeps hV hf hn hcs hctx
  callToReturn {_ _ n _} h1 hf hn :=
    (Forward.callToReturn_of (pastCall_keeps hV hf ⟨n, hn, rfl⟩ h1)).mono fun _ ho => ho.over

theorem backward_stays : Stays V e (backward e.graph) where
  succs := hV.preds
  starts m n hn := hV.body m n (List.mem_filter.mp hn).1
  normal h1 hf hn ht := Backward.normal_keeps hV h1 hf hn ht
  call h1 hf hn := (Backward.call_of ((Backward.entering_keeps hV hf).mono fun _ hmapped a ha =>
    derive_keeps hf (.some (hmapped a ha)))).mono fun _ ho => ho.over hn h1
  ret hcs hn hf h1 _ := Backward.ret_keeps hV h1 hf hn hcs
  callToReturn h1 hf hn := Backward.callToReturn_keeps hV h1 hf hn

theorem ofSide_stays (side : Side) : Stays V e (ofSide e.graph side) := by
  cases side with
  | forward => exact forward_stays hV
  | backward => exact backward_stays hV

end Problem
end LeakTrace
