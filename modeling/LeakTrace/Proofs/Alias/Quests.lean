import LeakTrace.Proofs.Alike.Logic
import LeakTrace.Proofs.Calls.Fields

/-!
# The search by points-to sets as a walk

The search by points-to sets comes from taint to taint. What it does at one of them is a **quest**:
the taint, the fields that were taken off its path on the way, and the statement that created it.
A quest has leads, which are aliases to hand over and further quests, and it follows them in order.
**A quest is cut short where its taint was met before**, and nothing else of it counts: not the
fields taken off, and not the statement. The main statement of this module is that the search is
this walk, `Track.searchPointsTo_walks`.
-/

namespace LeakTrace

/-! ## Quests and their leads -/

/-- The answer of an action on paths under the rules. -/
def PathRules.answer (r : PathRules) {α : Type} (act : Paths α) : α := (act.run { rules := r }).1

/-- What the search does at a taint is decided by these. -/
structure Quest where
  taint : Taint
  cut : Bool
  stmt : Option StmtId
  appended : List Step
  deep : Bool
  act : StmtId
deriving DecidableEq

/-- What a quest turns up: a taint to search for as well, or an alias to hand over. -/
inductive Lead where
  | search (q : Quest)
  | send (s : StmtId) (t : Taint)
deriving DecidableEq

/-- The taint that the lead is about, with the statement where it is handed over. -/
def Lead.find : Lead → Option StmtId × Taint
  | .search q => (none, q.taint)
  | .send s t => (some s, t)

namespace Quest

def of (f : Fact) (appended : List Step) (deep : Bool) (act : StmtId) : Quest :=
  ⟨f.toTaint, f.cut, f.stmt, appended, deep, act⟩

def fact (q : Quest) : Fact := { q.taint with id := 0, cut := q.cut, stmt := q.stmt }

variable (e : Env) (r : PathRules) (m : MethodId)

def derived (q : Quest) (path : Paths (Option AccessPath)) (stmt : Option StmtId) : Option Fact :=
  q.fact.deriveAs? 0 (r.answer path) stmt q.fact.implicit

/-- An alias waits for the statement that created the taint, if it comes before it. -/
def waiting (q : Quest) (before : Bool) (f : Fact) : Fact :=
  if before then f.deactivate 0 q.act e.config.defersActivation else f

def prefixLeads (q : Quest) : List Lead :=
  let a := q.fact.accessPath
  if a.isInstanceField || (a.isStaticField && a.steps.length > 1) then
    match a.steps.getLast? with
    | some last =>
      ((q.derived r (Paths.dropLast a) none).map fun g =>
        Lead.search (of g (last :: q.appended) q.deep q.act)).toList
    | none => []
  else []

def aliasLeads (q : Quest) (before : Bool) (s : StmtId) (path : Paths (Option AccessPath)) :
    List Lead :=
  ((q.derived r path (some s)).map fun g => Lead.send s (q.waiting e before g).toTaint).toList

def searchLeads (q : Quest) (before : Bool) (s : StmtId) (path : Paths (Option AccessPath)) :
    List Lead :=
  ((q.derived r path (some s)).map fun g =>
    let g := q.waiting e before g
    Lead.search (of g [] g.path.deep s)).toList

def stmtLeads (q : Quest) (target : PointsToTarget) (before : Bool) (s : StmtId) : List Lead :=
  let a := q.fact.accessPath
  let overlaps (x y : PointsToTarget) : Bool := e.pointsTo.mayAlias e.hierarchy x y
  let aliased (v : Value) : Bool := (PointsToTarget.ofValue? v).any (overlaps target ·)
  match (e.stmt s).call? with
  | some c =>
    let baseAliases := match c.base, a.base with
      | some b, some p => overlaps (.local b) (.local p)
      | _, _ => false
    let argAliases := (c.args.filterMap Value.local?).any fun l => overlaps (.local l) target
    if baseAliases || argAliases then
      q.aliasLeads e r before s (Paths.append a q.appended q.deep)
    else []
  | none =>
    match (e.stmt s).lhs?, (e.stmt s).rhs? with
    | some lhs, some rhs =>
      (if Track.isHeapOperand rhs && !q.appended.isEmpty && aliased rhs then
        q.searchLeads e r before s
          (Paths.make { value := some lhs, steps := q.appended, deep := q.deep })
      else []) ++
      (if Track.isHeapOperand lhs && Track.isHeapOperand rhs && aliased lhs then
        q.aliasLeads e r before s
          (Paths.make { value := some rhs, steps := q.appended, deep := q.deep })
      else [])
    | _, _ => []

def stmtsLeads (q : Quest) (target : PointsToTarget) : Bool → List StmtId → List Lead
  | _, [] => []
  | before, s :: rest =>
    q.stmtLeads e r target (before && s != q.act) s ++
      q.stmtsLeads target (before && s != q.act) rest

def bodyLeads (q : Quest) : List Lead :=
  let a := q.fact.accessPath
  if a.steps.length > 1 || !e.hasForward then []
  else
    match PointsToTarget.ofPath? a.toPath with
    | none => []
    | some target =>
      q.stmtsLeads e r target ((e.method m).body.contains q.act) (e.method m).body

def leads (q : Quest) : List Lead := q.prefixLeads r ++ q.bodyLeads e r m

def finds (q : Quest) : List (Option StmtId × Taint) := (q.leads e r m).map Lead.find

end Quest

/-! ## The walk -/

/-- What a search has done so far, last first. -/
structure Walk where
  quests : List Quest := []
  sent : List (StmtId × Taint) := []
  /-- It was not stopped for want of fuel. -/
  complete : Bool := true

namespace Walk

def met (x : Walk) (t : Taint) : Bool := x.quests.any (·.taint == t)

def enter (x : Walk) (q : Quest) : Walk := { x with quests := q :: x.quests }

/-- Follows a lead; `go` goes on with a quest. -/
def follow (go : Walk → Quest → Walk) (x : Walk) : Lead → Walk
  | .search q => go x q
  | .send s t => { x with sent := (s, t) :: x.sent }

variable (leads : Quest → List Lead) (known : Taint → Bool)

/-- Goes on with a quest, unless its taint is known or was met. -/
def go : Nat → Walk → Quest → Walk
  | 0 => fun x _ => { x with complete := false }
  | n + 1 => fun x q =>
    if known q.taint || x.met q.taint then x
    else (leads q).foldl (follow (go n)) (x.enter q)

variable {leads known} {x : Walk} {q : Quest}

theorem go_of_met (h : (known q.taint || x.met q.taint)) (n : Nat) :
    go leads known (n + 1) x q = x :=
  if_pos h

theorem go_of_fresh (h : ¬ (known q.taint || x.met q.taint)) (n : Nat) :
    go leads known (n + 1) x q = (leads q).foldl (follow (go leads known n)) (x.enter q) :=
  if_neg h

end Walk

/-! ## Facts without their history -/

/-- The facts differ in their history only. -/
abbrev Fact.Like : Fact → Fact → Prop := Fact.AlikeBy fun _ _ => True

theorem Fact.Like.quest {f g : Fact} (h : f.Like g) (appended : List Step) (deep : Bool)
    (act : StmtId) : Quest.of f appended deep act = Quest.of g appended deep act := by
  rw [Quest.of, h.taint, h.cut, h.stmt, Quest.of]

/-! ## The search is the walk -/

/-- The search for aliases has been at the taint, in the method and the context. -/
def World.knows (d1 : Fact) (m : MethodId) (w : World) (t : Taint) : Bool :=
  w.searched.contains (m, t, d1.toTaint)

/-- Since the world `w0`, `w` has seen the walk. -/
structure World.Walked (d1 : Fact) (m : MethodId) (w0 : World) (x : Walk) (w : World) : Prop where
  rules : w.paths.rules = w0.paths.rules
  knows : ∀ t, w.knows d1 m t = (w0.knows d1 m t || x.met t)
  sent : ∃ new : List (StmtId × Fact),
    w.outbox = new.map (fun p => .edge .forward d1 p.1 p.2) ++ w0.outbox ∧
      new.map (fun p => (p.1, p.2.toTaint)) = x.sent

variable {e : Env} {d1 f : Fact} {m : MethodId} {w0 w : World} {x y z : Walk}

namespace World.Walked

theorem self : w0.Walked d1 m {} w0 :=
  ⟨rfl, fun _ => (Bool.or_false _).symm, [], rfl, rfl⟩

theorem unmoved : World.Unmoved (w0.Walked d1 m x) := by
  intro _ _ _ hw hs
  exact ⟨hs.trans hw.rules, hw.knows, hw.sent⟩

theorem enter (h : w0.Walked d1 m x w) (q : Quest) : w0.Walked d1 m
    (x.enter q) { w with searched := w.searched.insert (m, q.taint, d1.toTaint) } := by
  refine ⟨h.rules, fun t => ?_, h.sent⟩
  have hknows : w.searched.contains (m, t, d1.toTaint) = (w0.knows d1 m t || x.met t) := h.knows t
  have hkey : ((m, q.taint, d1.toTaint) == (m, t, d1.toTaint)) = (q.taint == t) := by
    rw [Bool.eq_iff_iff]
    simp
  change (w.searched.insert (m, q.taint, d1.toTaint)).contains (m, t, d1.toTaint) =
    (w0.knows d1 m t || (q.taint == t || x.met t))
  rw [Std.HashSet.contains_insert, hknows, hkey, Bool.or_left_comm]

theorem send (h : w0.Walked d1 m x w) (s : StmtId) (g : Fact) :
    w0.Walked d1 m { x with sent := (s, g.toTaint) :: x.sent }
      { w with outbox := .edge .forward d1 s g :: w.outbox } := by
  obtain ⟨new, hnew, hsent⟩ := h.sent
  exact ⟨h.rules, h.knows, (s, g) :: new, by rw [hnew]; rfl, by rw [← hsent]; rfl⟩

end World.Walked

namespace Track
variable {α β : Type} {act : Track α}

def Walks (e : Env) (d1 : Fact) (m : MethodId) (w0 : World) (act : Track α) (x y : Walk) : Prop :=
  ∀ w, w0.Walked d1 m x w → w.Ends e act fun _ w' => w0.Walked d1 m y w'

namespace Walks
variable {c : Prop}

theorem pure {a : α} : Walks e d1 m w0 (pure a) x x := fun _ hw => hw

protected theorem read {g : Env → Track β} (h : Walks e d1 m w0 (g e) x y) :
    Walks e d1 m w0 (read >>= g) x y :=
  h

theorem bind {g : α → Track β} (h : Walks e d1 m w0 act x y)
    (hg : ∀ a, Walks e d1 m w0 (g a) y z) : Walks e d1 m w0 (act >>= g) x z :=
  fun w hw => (h w hw).bind hg

theorem keeps_bind {g : α → Track β} {Q : α → Prop} (h : Keeps e (w0.Walked d1 m x) act Q)
    (hg : ∀ a, Q a → Walks e d1 m w0 (g a) x y) : Walks e d1 m w0 (act >>= g) x y :=
  fun _ hw => (h.ends hw).bind fun a w' hw' => hg a hw'.1 w' hw'.2

theorem dite [Decidable c] {a b : Track α} (ht : c → Walks e d1 m w0 a x y)
    (he : ¬ c → Walks e d1 m w0 b x y) : Walks e d1 m w0 (if c then a else b) x y := by
  split
  · next hc => exact ht hc
  · next hc => exact he hc

theorem leads_ite [Decidable c] {act : Track Unit} {go : Walk → Quest → Walk} {leads : List Lead}
    (h : Walks e d1 m w0 act x (leads.foldl (Walk.follow go) x)) :
    Walks e d1 m w0 (if c then act else Pure.pure ()) x
      ((if c then leads else []).foldl (Walk.follow go) x) := by
  split
  · exact h
  · exact pure

end Walks

theorem paths_answer {path : Paths (Option AccessPath)} (h : ∀ r, path.Settled r) :
    Keeps e (w0.Walked d1 m x) (paths path) (· = w0.paths.rules.answer path) := by
  intro w hw
  obtain ⟨a, ha⟩ := h w0.paths.rules
  obtain ⟨hval, hrules⟩ := ha w.paths hw.rules
  have hanswer : w0.paths.rules.answer path = a := (ha { rules := w0.paths.rules } rfl).1
  exact ⟨hval.trans hanswer.symm, World.Walked.unmoved hw (hrules.trans hw.rules.symm)⟩

section Leads
variable {q : Quest} {go : Walk → Quest → Walk} {path : Paths (Option AccessPath)} {before : Bool}
  {s : StmtId} {search : Fact → StmtId → Track Unit} {target : PointsToTarget} {rest : Track Unit}

theorem derive_like (hq : q.fact.Like f) {stmt : Option StmtId} :
    Keeps e (w0.Walked d1 m x) (derive f (w0.paths.rules.answer path) stmt)
      (Option.Rel Fact.Like (q.derived w0.paths.rules path stmt)) := by
  refine (fresh_fits World.Walked.unmoved).bind fun _ _ => .pure ?_
  rw [← hq.taint]
  exact hq.deriveAs? trivial _ stmt _

theorem waitIf_like {g : Fact} (h : f.Like g) :
    Keeps e (w0.Walked d1 m x) (waitIf before q.act g) (q.waiting e before f).Like := by
  refine .read (.dite (fun hb => ?_) fun hb => ?_)
  · rw [Quest.waiting, if_pos hb]
    exact (fresh_fits World.Walked.unmoved).bind fun _ _ => .pure (h.deactivate trivial _ _)
  · rw [Quest.waiting, if_neg hb]
    exact .pure h

theorem sendAlias_walks (hpath : ∀ r, path.Settled r) (hforward : e.hasForward)
    (hq : q.fact.Like f) :
    Walks e d1 m w0 (do sendAlias d1 f (← paths path) q.act before s) x
      ((q.aliasLeads e w0.paths.rules before s path).foldl (Walk.follow go) x) := by
  refine .keeps_bind (paths_answer hpath) ?_
  rintro _ rfl
  refine .keeps_bind (derive_like hq) fun o ho => ?_
  unfold Quest.aliasLeads
  generalize q.derived w0.paths.rules path (some s) = derived at ho ⊢
  cases ho with
  | none => exact .pure
  | some hlike =>
    refine .keeps_bind (waitIf_like hlike) fun g hg => ?_
    refine .read fun w hw => ?_
    dsimp only
    rw [if_pos hforward]
    have hsent := hw.send s g
    rw [← hg.taint] at hsent
    exact hsent

section
variable (hsearch : ∀ g x, Walks e d1 m w0 (search g s) x (go x (.of g [] g.path.deep s)))
include hsearch

theorem searchAlias_walks (hq : q.fact.Like f) {rest : Track Unit} (hrest : Walks e d1 m w0 rest
      ((q.searchLeads e w0.paths.rules before s path).foldl (Walk.follow go) x) y) :
    Walks e d1 m w0 (do
      if let some g ← derive f (w0.paths.rules.answer path) (some s) then
        search (← waitIf before q.act g) s
      rest) x y := by
  refine .keeps_bind (derive_like hq) fun o ho => ?_
  unfold Quest.searchLeads at hrest
  generalize q.derived w0.paths.rules path (some s) = derived at ho hrest
  cases ho with
  | none => exact hrest
  | some hlike =>
    refine .keeps_bind (waitIf_like hlike) fun g hg => ?_
    have hgo := hsearch g x
    have hpath : (q.waiting e before _).path = g.path := congrArg Taint.path hg.taint
    rw [← hg.quest, ← hpath] at hgo
    exact hgo.bind fun _ => hrest

theorem aliasesAt_walks (hforward : e.hasForward) (hq : q.fact.Like f) :
    Walks e d1 m w0 (aliasesAt search d1 f target q.appended q.deep q.act before s) x
      ((q.stmtLeads e w0.paths.rules target before s).foldl (Walk.follow go) x) := by
  refine .read ?_
  unfold Quest.stmtLeads
  rw [← hq.accessPath]
  cases (e.stmt s).call? with
  | some c =>
    exact .leads_ite (sendAlias_walks (fun _ => Paths.append_settled) hforward hq)
  | none =>
    cases (e.stmt s).lhs? with
    | none => exact .pure
    | some lhs =>
      cases (e.stmt s).rhs? with
      | none => exact .pure
      | some rhs =>
        dsimp only
        rw [List.foldl_append]
        have hmake {r : PathRules} {v : Value} :
            (Paths.make { value := some v, steps := q.appended, deep := q.deep }).Settled r :=
          Paths.make_settled
        refine .dite (fun hrhs => ?_) fun hrhs => ?_
        · rw [if_pos hrhs]
          refine .keeps_bind (paths_answer fun _ => hmake) ?_
          rintro _ rfl
          exact searchAlias_walks hsearch hq
            (.leads_ite (sendAlias_walks (fun _ => hmake) hforward hq))
        · rw [if_neg hrhs]
          exact .leads_ite (sendAlias_walks (fun _ => hmake) hforward hq)

end

section
variable (hsearch : ∀ g s x, Walks e d1 m w0 (search g s) x (go x (.of g [] g.path.deep s)))
include hsearch

theorem aliasesAlong_walks (hforward : e.hasForward) (hq : q.fact.Like f) {body : List StmtId} :
    Walks e d1 m w0 (body.foldlM (fun before s => do
      let before := before && s != q.act
      aliasesAt search d1 f target q.appended q.deep q.act before s
      return before) before) x
      ((q.stmtsLeads e w0.paths.rules target before body).foldl (Walk.follow go) x) := by
  induction body generalizing before x with
  | nil => exact .pure
  | cons s rest ih =>
    rw [List.foldlM_cons, Quest.stmtsLeads, List.foldl_append]
    simp only [bind_assoc, pure_bind]
    exact (aliasesAt_walks (hsearch · s ·) hforward hq).bind fun _ => ih

theorem aliasesIn_walks (hq : q.fact.Like f) :
    Walks e d1 m w0 (aliasesIn search d1 m f q.appended q.deep q.act) x
      ((q.bodyLeads e w0.paths.rules m).foldl (Walk.follow go) x) := by
  refine .read ?_
  unfold Quest.bodyLeads
  rw [← hq.accessPath]
  dsimp only
  refine .dite (fun hoff => ?_) fun hon => ?_
  · rw [if_pos hoff]
    exact .pure
  · rw [if_neg hon]
    cases PointsToTarget.ofPath? q.fact.accessPath.toPath with
    | none => exact .pure
    | some target =>
      have hforward : e.hasForward := by simp_all
      exact (aliasesAlong_walks hsearch hforward hq).bind fun _ => .pure

end

theorem aliasesOf_walks {search : Fact → List Step → Bool → StmtId → Track Unit}
    (hsearch : ∀ g l deep s x, Walks e d1 m w0 (search g l deep s) x (go x (.of g l deep s)))
    (hq : q.fact.Like f) : Walks e d1 m w0 (aliasesOf search d1 m f q.appended q.deep q.act) x
    ((q.leads e w0.paths.rules m).foldl (Walk.follow go) x) := by
  have hrest (y : Walk) := aliasesIn_walks (x := y) (fun g s => hsearch g [] g.path.deep s) hq
  unfold aliasesOf Quest.leads Quest.prefixLeads
  rw [List.foldl_append, ← hq.accessPath]
  dsimp only
  refine .dite (fun hfield => ?_) fun hfield => ?_
  · rw [if_pos hfield]
    cases q.fact.accessPath.steps.getLast? with
    | none => exact hrest x
    | some last =>
      refine .keeps_bind (paths_answer fun _ => Paths.dropLast_settled) ?_
      rintro _ rfl
      refine .keeps_bind (derive_like hq) fun o ho => ?_
      dsimp only
      generalize q.derived w0.paths.rules (Paths.dropLast q.fact.accessPath) none = derived at ho ⊢
      cases ho with
      | none => exact hrest x
      | @some _ g hlike =>
        have hgo := hsearch g (last :: q.appended) q.deep q.act x
        rw [← hlike.quest] at hgo
        exact hgo.bind fun _ => hrest _
  · rw [if_neg hfield]
    exact hrest x

end Leads

/-- **The search is the walk.** -/
theorem searchPointsTo_walks (n : Nat) (f : Fact) (appended : List Step) (deep : Bool)
    (act : StmtId) (x : Walk) : Walks e d1 m w0 (searchPointsTo n d1 m f appended deep act) x
    (Walk.go (Quest.leads e w0.paths.rules m) (w0.knows d1 m) n x (.of f appended deep act)) := by
  -- On the fuel, which walk and search spend alike. The worlds a search starts from change as it
  -- goes, and `Walked` relates each of them to `w0`, so the leads stay those of `w0`.
  induction n generalizing f appended deep act x with
  | zero =>
    intro w hw
    exact ⟨hw.rules, hw.knows, hw.sent⟩
  | succ n ih =>
    intro w hw
    have hknows : w.searched.contains (m, f.toTaint, d1.toTaint) =
        (w0.knows d1 m f.toTaint || x.met f.toTaint) := hw.knows f.toTaint
    refine .get ?_
    rw [hknows]
    by_cases hmet : (w0.knows d1 m f.toTaint || x.met f.toTaint)
    · rw [if_pos hmet, Walk.go_of_met hmet]
      exact hw
    · rw [if_neg hmet, Walk.go_of_fresh hmet]
      have hentered : w.Ends e (modify fun w =>
          { w with searched := w.searched.insert (m, f.toTaint, d1.toTaint) }) fun _ w' =>
            w0.Walked d1 m (x.enter (.of f appended deep act)) w' :=
        hw.enter (.of f appended deep act)
      refine hentered.bind fun _ w' hw' => ?_
      have hlike : (Quest.of f appended deep act).fact.Like f := ⟨rfl, rfl, rfl, trivial⟩
      exact aliasesOf_walks ih hlike w' hw'

end Track
end LeakTrace
