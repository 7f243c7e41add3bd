import LeakTrace.Proofs.Graph.Joins

/-!
# The graph walked backwards

Successors are found statement by statement, predecessors are collected in one pass over all of
them. **Each edge is listed once at either end**: no statement has an exit twice, however its
branches and handlers overlap, and no statement is listed by two bodies, so every edge is met once.
From this the backward view is the reverse of the forward view, and its own reverse is the forward
view again: also where the views compute an answer in different ways, as for return sites.
-/

namespace LeakTrace
open List

/-! ## Exits are listed once -/

theorem Action.nodup_successors (next : Option StmtId) (a : Action) :
    (a.successors next).Nodup := by
  cases a with
  | branch c t =>
    cases next with
    | none => simp [successors]
    | some u =>
      by_cases htu : t = u
      · simp [successors, htu]
      · simp [successors, htu, Ne.symm htu]
  | entry | assign | call | skip => cases next <;> simp [successors]
  | ret | retVoid | jump | throw => simp [successors]

theorem Method.nodup_append_handlersOf (m : Method) (s : StmtId) {normal : List StmtId}
    (h : normal.Nodup) : (normal ++ m.handlersOf s normal).Nodup := by
  refine List.foldlRecOn (motive := fun found => (normal ++ found).Nodup) m.traps _ ?_ ?_
  · simpa using h
  · intro found hfound trap _
    dsimp only
    split
    · next hnew =>
      -- A handler is added only if neither an ordinary edge nor an earlier trap leads there.
      simp only [Bool.and_eq_true, Bool.not_eq_true', contains_eq_mem,
        decide_eq_false_iff_not] at hnew
      rw [← append_assoc]
      refine nodup_append.mpr ⟨hfound, by simp, ?_⟩
      intro a ha b hb hab
      rw [mem_singleton] at hb
      exact hnew.2 (hb ▸ hab ▸ ha)
    · exact hfound

theorem Method.nodup_all_exitsOf (m : Method) (s : Stmt) (next : Option StmtId) :
    (m.exitsOf s next).all.Nodup := by
  have hnormal := s.action.nodup_successors next
  unfold Exits.all exitsOf
  dsimp only
  split
  · exact m.nodup_append_handlersOf s.id hnormal
  · simpa using hnormal

namespace Program
variable {p : Program}

/-- The exits of all statements, method by method. -/
def allExits (p : Program) : List (StmtId × Exits) := p.methods.toList.flatMap p.exits

theorem nodup_of_mem_allExits {y : StmtId × Exits} (hy : y ∈ p.allExits) : y.2.all.Nodup := by
  obtain ⟨M, _, hy⟩ := mem_flatMap.mp hy
  obtain ⟨_, next, _, hx⟩ := Method.mem_exitsOfList hy
  rw [hx]
  exact M.nodup_all_exitsOf _ next

theorem Numbered.map_fst_allExits (hp : p.Numbered) :
    p.allExits.map Prod.fst = List.range p.stmts.size := by
  rw [allExits, map_flatMap, ← hp.bodies, flatMap_def]
  exact congrArg _ (map_congr_left fun M _ => Graph.map_fst_exits p M)

theorem Numbered.mem_body (hp : p.Numbered) {s : StmtId} (hs : s < p.stmts.size) :
    s ∈ (p.methodOf s).body := by
  rw [← mem_range, ← hp.bodies, mem_flatten] at hs
  obtain ⟨body, hbody, hs⟩ := hs
  obtain ⟨M, hM, rfl⟩ := List.mem_map.mp hbody
  obtain ⟨m, hm⟩ := Array.mem_iff_getElem?.mp (Array.mem_toList_iff.mp hM)
  have howner := (hp.owner m M hm).2 s hs
  simpa [methodOf, method, howner, hm] using hs

end Program

/-! ## The table of predecessors -/

namespace Graph
variable {p : Program} {extra : List (StmtId × MethodId)} {s t : StmtId}

theorem getElem?_foldl_append (s : StmtId) (targets : List StmtId) (a : Array (List StmtId))
    (t : StmtId) : (targets.foldl (fun a t => a.modify t (· ++ [s])) a)[t]? = a[t]?.map
    (· ++ List.replicate (targets.count t) s) := by
  induction targets generalizing a with
  | nil => simp
  | cons u rest ih =>
    rw [foldl_cons, ih, Array.getElem?_modify, count_cons]
    by_cases hut : u = t
    · subst hut
      cases a[u]? <;> simp [← replicate_succ]
    · simp [hut]

theorem getElem?_foldl_allExits (l : List (StmtId × Exits)) (a : Array (List StmtId)) (t : StmtId) :
    (l.foldl (fun a (s, e) => e.all.foldl (fun a t => a.modify t (· ++ [s])) a) a)[t]? =
      a[t]?.map (· ++ l.flatMap fun y => List.replicate (y.2.all.count t) y.1) := by
  induction l generalizing a with
  | nil => simp
  | cons y rest ih =>
    rw [foldl_cons, ih, getElem?_foldl_append]
    cases a[t]? <;> simp

theorem flatMap_count_eq {l : List (StmtId × Exits)} (hl : ∀ y ∈ l, y.2.all.Nodup) (t : StmtId) :
    (l.flatMap fun y => List.replicate (y.2.all.count t) y.1) =
      (l.filter fun y => y.2.all.contains t).map Prod.fst := by
  induction l with
  | nil => rfl
  | cons y rest ih =>
    rw [flatMap_cons, ih fun z hz => hl z (mem_cons_of_mem y hz), filter_cons]
    by_cases ht : t ∈ y.2.all
    · simp [ht, count_eq_one_of_mem (hl y mem_cons_self) ht]
    · simp [ht, count_eq_zero_of_not_mem ht]

theorem preds_ofProgram (t : StmtId) :
    (ofProgram p extra).forward.preds t =
      if t < p.stmts.size then (p.allExits.filter fun y => y.2.all.contains t).map Prod.fst
      else [] := by
  have htable : (ofProgram p extra).preds[t]? =
      (Array.replicate p.stmts.size [])[t]?.map
        (· ++ p.allExits.flatMap fun y => List.replicate (y.2.all.count t) y.1) :=
    getElem?_foldl_allExits p.allExits _ t
  show (ofProgram p extra).preds[t]?.getD [] = _
  rw [htable, flatMap_count_eq (fun y => Program.nodup_of_mem_allExits) t]
  by_cases ht : t < p.stmts.size <;> simp [ht]

theorem nodup_preds (hp : p.Numbered) (t : StmtId) :
    ((ofProgram p extra).forward.preds t).Nodup := by
  rw [preds_ofProgram]
  split
  · have hkeys : (p.allExits.map Prod.fst).Nodup := hp.map_fst_allExits ▸ nodup_range
    exact hkeys.sublist (filter_sublist.map Prod.fst)
  · exact nodup_nil

theorem nodup_succs (s : StmtId) : ((ofProgram p extra).forward.succs s).Nodup := by
  show ((ofProgram p extra).exits[s]?.getD ⟨[], []⟩).all.Nodup
  cases hx : (ofProgram p extra).exits[s]? with
  | none => exact nodup_nil
  | some x =>
    rcases mem_of_foldl_set hx with hnone | hmem
    · rw [Array.getElem?_replicate] at hnone
      obtain ⟨-, heq⟩ := Option.ite_none_right_eq_some.mp hnone
      cases heq
      exact nodup_nil
    · exact Program.nodup_of_mem_allExits hmem

theorem mem_succs_iff_mem_preds (hp : p.Numbered) (s : StmtId) (ht : t < p.stmts.size) :
    t ∈ (ofProgram p extra).forward.succs s ↔ s ∈ (ofProgram p extra).forward.preds t := by
  rw [preds_ofProgram, if_pos ht]
  constructor
  · intro hedge
    obtain ⟨M, hM, x, hx, hedge⟩ := mem_succs hedge
    refine List.mem_map.mpr ⟨(s, x), mem_filter.mpr ⟨?_, by simpa using hedge⟩, rfl⟩
    exact mem_flatMap.mpr ⟨M, Array.mem_toList_iff.mpr hM, hx⟩
  · intro hedge
    obtain ⟨⟨s', x⟩, hx, rfl⟩ := List.mem_map.mp hedge
    obtain ⟨hx, ht⟩ := mem_filter.mp hx
    obtain ⟨M, hM, hx⟩ := mem_flatMap.mp hx
    rw [succs_ofProgram hp (Array.mem_toList_iff.mp hM) hx]
    simpa using ht

end Graph

/-! ## Views -/

/-- A view of a graph with `n` statements lists each edge once at either end, and its tests for the
places where a method is entered and left agree with its lists of them. -/
structure View.Mirrored (v : View) (n : Nat) (methodOf : StmtId → MethodId) : Prop where
  edges : ∀ s < n, ∀ t < n, t ∈ v.succs s ↔ s ∈ v.preds t
  succs_once : ∀ s, (v.succs s).Nodup
  preds_once : ∀ s, (v.preds s).Nodup
  exits : ∀ s < n, v.isExit s = true ↔ s ∈ v.ends (methodOf s)
  starts : ∀ s < n, v.isStart s = true ↔ s ∈ v.starts (methodOf s)

theorem View.Mirrored.reverse {v : View} {n : Nat} {methodOf : StmtId → MethodId}
    (h : v.Mirrored n methodOf) (isCall : StmtId → Bool) :
    (v.reverse isCall).Mirrored n methodOf where
  edges s hs t ht := (h.edges t ht s hs).symm
  succs_once := h.preds_once
  preds_once := h.succs_once
  exits := h.starts
  starts := h.exits

namespace Graph
variable {p : Program}

theorem mirrored_forward (hp : p.Numbered) (extra : List (StmtId × MethodId)) :
    (ofProgram p extra).forward.Mirrored p.stmts.size (ofProgram p extra).methodOf where
  edges s _ t ht := mem_succs_iff_mem_preds hp s ht
  succs_once := nodup_succs
  preds_once := nodup_preds hp
  exits s hs := by
    have hbody : s ∈ ((ofProgram p extra).method ((ofProgram p extra).methodOf s)).body :=
      hp.mem_body hs
    simp [forward, hbody]
  starts s _ := by
    show (p.methodOf s).body.head? == some s ↔ s ∈ (p.methodOf s).body.head?.toList
    simp

theorem isReturnSite_iff (hp : p.Numbered) (extra : List (StmtId × MethodId))
    {t : StmtId} (ht : t < p.stmts.size) : (ofProgram p extra).forward.isReturnSite t ↔ ∃ c,
    (ofProgram p extra).isCall c ∧ t ∈ (ofProgram p extra).forward.succs c := by
  show ((ofProgram p extra).forward.preds t).any (ofProgram p extra).isCall ↔ _
  simp only [List.any_eq_true, mem_succs_iff_mem_preds hp _ ht, and_comm]

/-- Everything that is asked of a graph when it is walked in one direction. -/
structure Answers where
  succs : StmtId → List StmtId
  preds : StmtId → List StmtId
  returnSites : StmtId → List StmtId
  isReturnSite : StmtId → Bool
  starts : MethodId → List StmtId
  ends : MethodId → List StmtId
  isStart : StmtId → Bool
  isExit : StmtId → Bool
  isRaise : StmtId → StmtId → Bool
  callees : StmtId → List MethodId
  callers : MethodId → List StmtId
  join : StmtId → Join

/-- The answers of a graph for a view of it; what is asked about calls and joins has no direction. -/
def answers (g : Graph) (v : View) : Answers where
  succs := v.succs
  preds := v.preds
  returnSites := v.succs
  isReturnSite := v.isReturnSite
  starts := v.starts
  ends := v.ends
  isStart := v.isStart
  isExit := v.isExit
  isRaise := v.isRaise
  callees := g.calleesOf
  callers := g.callersOf
  join := g.joinOf

/-- Both views list each edge once at either end and agree with themselves about where methods are
entered and left. The backward view of the backward view answers as the graph itself does; in
particular it finds the same return sites, which are the statements that a call leads to. -/
theorem reverse_is_exact (hp : p.Numbered) (extra : List (StmtId × MethodId)) :
    let g := ofProgram p extra
    g.forward.Mirrored p.stmts.size g.methodOf ∧
    g.backward.Mirrored p.stmts.size g.methodOf ∧
    g.answers (g.backward.reverse g.isCall) = g.answers g.forward ∧
    ∀ t < p.stmts.size, ((g.answers (g.backward.reverse g.isCall)).isReturnSite t = true ↔
      ∃ c, g.isCall c = true ∧ t ∈ (g.answers g.forward).returnSites c) := by
  intro g
  have hforward := mirrored_forward hp extra
  have htwice : g.backward.reverse g.isCall = g.forward := rfl
  rw [htwice]
  exact ⟨hforward, hforward.reverse g.isCall, rfl, fun t ht => isReturnSite_iff hp extra ht⟩

end Graph

/-- A call in two traps with one handler, a branch to the next statement and a jump back. -/
def detours : Program :=
  let run : MethodRef := ⟨"App", "run", [], .void⟩
  let a : Value := .var ⟨0, "a", .int⟩
  (Program.empty.openBody run true [("a", .int)]).closeBody
    [.call ⟨.static, run, none, []⟩, .branch a 2, .branch a 0, .retVoid, .jump 2]
    [⟨0, 0, 4, .cls "java.lang.Exception"⟩, ⟨0, 1, 4, .cls "java.lang.Error"⟩]

/-- The call leads on to the branch and to the handler, each edge is listed once at both ends, and
both are return sites also when the graph is reversed twice. -/
theorem detours_reversed :
    let g := Graph.ofProgram detours []
    g.forward.succs 0 = [1, 4] ∧ g.forward.preds 2 = [1, 4] ∧ g.backward.isExit 0 = true ∧
      0 ∈ g.backward.ends 0 ∧ 2 ∈ g.forward.succs 1 ∧
      (g.backward.reverse g.isCall).isReturnSite 4 = true ∧
      (g.backward.reverse g.isCall).isReturnSite 2 = false := by
  intro g
  have hnumbered : detours.Numbered := Program.Built.numbered (.addBody _ true _ _ _ .empty)
  obtain ⟨hforward, hbackward, _, hsites⟩ := Graph.reverse_is_exact hnumbered []
  have hsuccs : g.forward.succs 0 = [1, 4] := by decide +kernel
  have hpreds : g.forward.preds 2 = [1, 4] := by decide +kernel
  have hexit : g.backward.isExit 0 := by decide +kernel
  have hpred : 1 ∈ g.forward.preds 2 := by simp [hpreds]
  have hhandler : 4 ∈ g.forward.succs 0 := by simp [hsuccs]
  have hedge := (hforward.edges 1 (by decide +kernel) 2 (by decide +kernel)).mpr hpred
  refine ⟨hsuccs, hpreds, hexit, (hbackward.exits 0 (by decide +kernel)).mp hexit, hedge, ?_, ?_⟩
  · exact (hsites 4 (by decide +kernel)).mpr ⟨0, by decide +kernel, hhandler⟩
  · decide +kernel

end LeakTrace
