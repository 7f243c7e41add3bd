import LeakTrace.Proofs.Calls.StaticFields

/-!
# Tainted fields at calls

A tainted field of an object that is passed to a call goes past the call, unless all callees read
the object: then **they carry the taint**, and it enters every callee that sees it. How a callee
sees it does not change while solvers run, because making paths depends on nothing but the rules for
paths.
-/

namespace LeakTrace
open List Track

variable {p : Path} {v target : Value} {l : Local} {n : StmtId} {c : Call} {a : AccessPath}
  {m : MethodId}

theorem Path.isEmpty_of_isInstanceField (h : p.isInstanceField) : p.isEmpty = false := by
  rw [isEmpty, ← Option.not_isSome, (Bool.and_eq_true_iff.mp h).1]
  rfl

theorem Path.not_isStaticField_of_isInstanceField (h : p.isInstanceField) :
    p.isStaticField = false := by
  rw [isStaticField, ← Option.not_isSome, (Bool.and_eq_true_iff.mp h).1]
  rfl

variable {e : Env} {I : World → Prop} {M : Message → Prop} {R : SinkHit → Prop} {d1 f : Fact}
  {s : Stmt} {w : World} {r : PathRules}

/-- Data flows through assignments and calls, and nothing else counts: no models of libraries, no
limits on results, no control dependencies, and no aliases that are decided late. -/
structure Env.Plain (e : Env) : Prop where
  zero : ∃ k, e.zero = .zero k
  models : e.models = none
  stopAfter : e.config.stopAfter = 0
  resultLimit : e.resultLimit = none
  aliasing : e.config.aliasing.isLazy = false
  implicitFlows : e.config.implicitFlows.tracksControlFlow = false

theorem Env.Plain.isZero_of_field (he : e.Plain) (hfield : f.path.isInstanceField) :
    e.isZero f = false :=
  he.zero.elim fun _ hz => Env.isZero_of_path hz (Path.isEmpty_of_isInstanceField hfield)

/-! ## Answers that stay -/

namespace Track

/-- In worlds with `I` the action has one answer. -/
def Settled (e : Env) (I : World → Prop) {α : Type} (act : Track α) : Prop :=
  ∃ a, Keeps e I act (· = a)

namespace Settled
variable {α β : Type} {x y : Track α}

theorem pure {a : α} : Settled e I (pure a) := ⟨a, .pure rfl⟩

theorem bind {g : α → Track β} (h : Settled e I x) (hg : ∀ a, Settled e I (g a)) :
    Settled e I (x >>= g) := by
  obtain ⟨a, ha⟩ := h
  obtain ⟨b, hb⟩ := hg a
  refine ⟨b, ha.bind ?_⟩
  rintro _ rfl
  exact hb

protected theorem read {g : Env → Track β} (h : Settled e I (g e)) : Settled e I (read >>= g) :=
  h.imp fun _ hb => .read hb

theorem ite {c : Prop} [Decidable c] (ht : Settled e I x) (he : Settled e I y) :
    Settled e I (if c then x else y) := by
  split
  · exact ht
  · exact he

theorem filterMapM {g : α → Track (Option β)} {l : List α} (h : ∀ a ∈ l, Settled e I (g a)) :
    Settled e I (l.filterMapM g) := by
  induction l with
  | nil => exact pure
  | cons a rest ih =>
    rw [filterMapM_cons]
    have hrest := ih fun b hb => h b (mem_cons_of_mem a hb)
    refine (h a mem_cons_self).bind fun o => ?_
    cases o with
    | none => exact hrest
    | some b => exact hrest.bind fun _ => pure

theorem keeps (h : Settled e I x) (hw : I w) : Keeps e I x (· = ((x.run e).run w).1) := by
  obtain ⟨a, ha⟩ := h
  have heq : ((x.run e).run w).1 = a := (ha w hw).1
  rw [heq]
  exact ha

end Settled

section OneAnswer
variable (hI : World.Unmoved I) (hr : ∀ w, I w → w.paths.rules = r)
include hI hr

theorem paths_settled {α : Type} {act : Paths α} (h : act.Settled r) : Settled e I (paths act) := by
  obtain ⟨a, ha⟩ := h
  refine ⟨a, fun w hw => ?_⟩
  obtain ⟨hval, hrules⟩ := ha w.paths (hr w hw)
  exact ⟨hval, hI hw (hrules.trans (hr w hw).symm)⟩

theorem mayAliasValues_settled {u : Value} : Settled e I (mayAliasValues v u) := by
  refine .read (.ite .pure (.ite .pure (.ite .pure ?_)))
  refine (paths_settled hI hr Paths.ofValue_settled).bind fun _ =>
    (paths_settled hI hr Paths.ofValue_settled).bind fun _ => ?_
  split
  · exact .ite .pure (.read .pure)
  · exact .pure

theorem holdsTaint_settled : Settled e I (holdsTaint v f) := by
  unfold holdsTaint
  split
  · exact mayAliasValues_settled hI hr
  · exact .pure

end OneAnswer
end Track

/-! ## How a callee sees a taint -/

namespace Track
variable {callee : Method} {reflective : Bool}

section OneAnswer
variable (hI : World.Unmoved I) (hr : ∀ w, I w → w.paths.rules = r)
include hI hr

theorem pathsOfParams_settled : Settled e I (pathsOfParams callee c f reflective) := by
  refine .ite ?_ (.ite .pure (.filterMapM fun x _ => ?_))
  · split
    · refine (holdsTaint_settled hI hr).bind fun _ => .ite (.filterMapM fun p _ => ?_) .pure
      exact paths_settled hI hr Paths.onto_settled
    · exact .pure
  · refine (holdsTaint_settled hI hr).bind fun _ => .ite ?_ .pure
    split
    · exact paths_settled hI hr Paths.onto_settled
    · exact .pure

theorem pathOfReceiver_settled : Settled e I (pathOfReceiver callee c f) := by
  refine .read ?_
  split
  · refine .ite .pure ((holdsTaint_settled hI hr).bind fun _ => .ite .pure (.ite .pure ?_))
    exact paths_settled hI hr Paths.onto_settled
  · exact .pure

theorem pathsInCallee_settled : Settled e I (pathsInCallee callee c f reflective) := by
  refine .read (.ite .pure (.ite .pure ?_))
  exact (pathOfReceiver_settled hI hr).bind fun _ =>
    (pathsOfParams_settled hI hr).bind fun _ => .pure

end OneAnswer

/-- All paths start at a local for what is handed to the method. -/
abbrev Based (callee : Method) (ps : List AccessPath) : Prop :=
  ∀ a ∈ ps, ∃ l ∈ a.base, l ∈ callee.self ∨ l ∈ callee.params

theorem pathsInCallee_based (hlazy : e.config.aliasing.isLazy = false)
    (hI : Upkeep e M (fun _ => True) I) :
    Keeps e I (pathsInCallee callee c f reflective) (Based callee) :=
  pathsInCallee_receives (fun l hl => (paths_fits hI.unmoved Paths.onto_var_gives).mono
    fun _ ho p hp => ⟨l, ho p hp, hl⟩) (asks_fits hI.unmoved) (by simp [hlazy])

/-- The paths by which the callee sees what the fact taints. -/
def seenBy (e : Env) (w : World) (f : Fact) (n : StmtId) (c : Call) (m : MethodId) :
    List AccessPath :=
  (((pathsInCallee (e.method m) c f (e.graph.isReflective n)).run e).run w).1

end Track

/-! ## Which taints the callees carry -/

theorem Value.beq_var : (v == .var l) ↔ v = .var l := by
  cases v with
  | var x => rw [var_beq, beq_iff_eq, Value.var.injEq]
  | _ => exact ⟨nofun, nofun⟩

/-- Unless aliases are decided lazily, only the local itself is the object that it names. -/
theorem Track.mayAliasValues_var (hlazy : e.config.aliasing.isLazy = false) :
    Keeps e I (mayAliasValues v (.var l)) fun b => b ↔ v = .var l := by
  refine (mayAliasValues_plain hlazy).mono ?_
  rintro _ rfl
  rw [Bool.and_eq_true, Value.beq_var, Bool.and_eq_true]
  refine ⟨And.right, ?_⟩
  rintro rfl
  exact ⟨⟨rfl, rfl⟩, rfl⟩

namespace Track
variable {vs : List Value}

section
variable (hlazy : e.config.aliasing.isLazy = false)
include hlazy

theorem holdsTaint_plain :
    Keeps e I (holdsTaint v f) fun b => b ↔ ∃ l ∈ f.path.base, v = .var l := by
  unfold holdsTaint
  split
  · next l hl =>
    refine (mayAliasValues_var hlazy).mono fun b hb => ?_
    simp [hb, hl]
  · next hl => exact .pure (by simp [hl])

theorem anyMayAlias_var : Keeps e I (anyMayAlias vs (.var l)) fun b => b ↔ .var l ∈ vs := by
  unfold anyMayAlias
  induction vs with
  | nil => exact .pure (by simp)
  | cons v rest ih =>
    simp only [forIn_cons, bind_assoc]
    refine (mayAliasValues_var hlazy).bind fun b hb => ?_
    cases b with
    | true => exact .pure (by simp [hb.mp rfl])
    | false =>
      have hne : v ≠ .var l := fun h => nomatch hb.mpr h
      exact ih.mono fun b hb => by rw [hb]; simp [hne.symm]

theorem anyHoldsTaint_plain :
    Keeps e I (anyHoldsTaint vs f) fun b => b ↔ ∃ l ∈ f.path.base, .var l ∈ vs := by
  unfold anyHoldsTaint
  split
  · next l hl =>
    refine (anyMayAlias_var hlazy).mono fun b hb => ?_
    simp [hb, hl]
  · next hl => exact .pure (by simp [hl])

end

/-- The callee is entered, and it reads what it sees of the fact. -/
def ReadBy (e : Env) (w : World) (f : Fact) (n : StmtId) (c : Call) (m : MethodId) : Prop :=
  e.isExcluded m = false ∧ ((e.method m).isConcrete = true →
    ∀ a ∈ seenBy e w f n c m, a.base.all (e.graph.reads m) = true)

/-- The callees carry the fact: it is about a field of an object that is passed to the call, and all
callees are entered and read it. -/
structure Carried (e : Env) (w : World) (f : Fact) (n : StmtId) (c : Call) : Prop where
  concrete : ∃ m ∈ e.graph.calleesOf n, (e.method m).isConcrete = true
  object : (f.path.ty.any fun t => t.isPrimitive || (t.isString && !f.path.immutable)) = false
  source : e.config.inspectSources = false → e.isSource n = false
  sink : e.config.inspectSinks = false → e.isSink n = false
  field : f.path.isInstanceField = true
  read : ∀ m ∈ e.graph.calleesOf n, ReadBy e w f n c m
  passed : ∃ l ∈ f.path.base, c.base = some l ∨ .var l ∈ c.args

section AllRead
variable (hlazy : e.config.aliasing.isLazy = false) (hI : Upkeep e M (fun _ => True) I)
  (hr : ∀ w, I w → w.paths.rules = r) (hw : I w)
include hlazy hI hr hw

theorem pathsInCallee_seenBy :
    Keeps e I (pathsInCallee (e.method m) c f (e.graph.isReflective n)) fun ps =>
      ps = seenBy e w f n c m ∧ Based (e.method m) ps :=
  ((pathsInCallee_settled hI.unmoved hr).keeps hw).and (pathsInCallee_based hlazy hI)

theorem allRead_iff {callees : List MethodId} :
    Keeps e I (allRead c f (e.graph.isReflective n) callees) fun b =>
      b ↔ ∀ m ∈ callees, ReadBy e w f n c m := by
  induction callees with
  | nil => exact .pure (by simp)
  | cons m rest ih =>
    -- What remains once it is known whether this callee reads the fact.
    have hgo : ∀ isRead : Bool, e.isExcluded m = false →
        (isRead ↔ ((e.method m).isConcrete →
          ∀ a ∈ seenBy e w f n c m, a.base.all (e.graph.reads m))) →
        Keeps e I (if isRead then allRead c f (e.graph.isReflective n) rest else return false)
          fun b => b ↔ ∀ x ∈ m :: rest, ReadBy e w f n c x := by
      intro isRead hentered hread
      refine .dite (fun h => ih.mono fun b hb => ?_) fun h => .pure ?_
      · rw [hb, forall_mem_cons]
        exact ⟨fun hrest => ⟨⟨hentered, hread.mp h⟩, hrest⟩, And.right⟩
      · exact ⟨nofun, fun hall => absurd (hread.mpr (hall m mem_cons_self).2) h⟩
    refine .read
      (.dite (fun hno => .pure ?_) fun hentered => .dite (fun hbody => ?_) fun hbody => ?_)
    · refine ⟨nofun, fun hall => ?_⟩
      rw [(hall m mem_cons_self).1] at hno
      cases hno
    · refine (pathsInCallee_seenBy hlazy hI hr hw).bind ?_
      rintro _ ⟨rfl, -⟩
      refine hgo _ (by simpa using hentered) ?_
      rw [List.all_eq_true]
      exact ⟨fun h _ => h, fun h => h hbody⟩
    · rw [pure_bind]
      exact hgo true (by simpa using hentered) (by simp [hbody])

theorem carriedByCallees_iff (hc : s.call? = some c) :
    Keeps e I (carriedByCallees f f s) fun b => b ↔ Carried e w f s.id c := by
  refine .read (.dite (fun hno => .pure ⟨nofun, fun h => ?_⟩) fun hyes => ?_)
  · obtain ⟨m, hm, hbody⟩ := h.concrete
    have hno : ((∀ x ∈ e.graph.calleesOf s.id, (e.method x).isConcrete = false) ∨
        e.config.inspectSources = false ∧ e.isSource s.id) ∨
        e.config.inspectSinks = false ∧ e.isSink s.id := by
      simpa [h.object, h.field] using hno
    rcases hno with (hnone | ⟨hskip, hsource⟩) | ⟨hskip, hsink⟩
    · exact (hnone m hm).symm.trans hbody
    · exact (h.source hskip).symm.trans hsource
    · exact (h.sink hskip).symm.trans hsink
  · have hyes : ((((∃ x ∈ e.graph.calleesOf s.id, (e.method x).isConcrete) ∧
        (f.path.ty.any fun t => t.isPrimitive || (t.isString && !f.path.immutable)) = false) ∧
        (e.config.inspectSources = false → e.isSource s.id = false)) ∧
        (e.config.inspectSinks = false → e.isSink s.id = false)) ∧
        f.path.isInstanceField := by
      simpa using hyes
    obtain ⟨⟨⟨⟨hconcrete, hobject⟩, hsource⟩, hsink⟩, hfield⟩ := hyes
    rw [hc]
    refine (allRead_iff hlazy hI hr hw).bind fun b hb => .dite (fun hno => .pure ?_) fun hread => ?_
    · refine ⟨nofun, fun h => ?_⟩
      rw [hb.mpr h.read] at hno
      exact hno
    · have hread : ∀ m ∈ e.graph.calleesOf s.id, ReadBy e w f s.id c m :=
        hb.mp (by simpa using hread)
      -- All that is left to ask is whether the object is passed, as the receiver or as an argument.
      have hrest : ∀ onBase : Bool, (onBase ↔ ∃ l ∈ f.path.base, c.base = some l) →
          Keeps e I (do
            let onArg ← anyHoldsTaint c.args f
            return onBase || onArg) fun b => b ↔ Carried e w f s.id c := by
        intro onBase hbase
        refine (anyHoldsTaint_plain hlazy).bind fun onArg harg => .pure ?_
        have hpassed : (onBase || onArg) ↔
            ∃ l ∈ f.path.base, c.base = some l ∨ .var l ∈ c.args := by
          rw [Bool.or_eq_true, hbase, harg, ← exists_or]
          simp only [and_or_left]
        rw [hpassed]
        exact ⟨fun h => ⟨hconcrete, hobject, hsource, hsink, hfield, hread, h⟩, Carried.passed⟩
      split
      · next b hbase =>
        refine (holdsTaint_plain hlazy).bind fun onBase honBase => hrest onBase ?_
        rw [honBase, hbase]
        simp only [Value.var.injEq, Option.some.injEq]
      · next hbase => exact hrest false (by simp [hbase])

/-! ## Past the call -/

theorem passesCall_field (hc : s.call? = some c) (hfield : f.path.isInstanceField) :
    Keeps e I (passesCall f f s false) fun b => b ↔ ¬ Carried e w f s.id c ∨ f.inConditional := by
  have hstatic := Path.not_isStaticField_of_isInstanceField hfield
  refine .read (.dite (fun h => ?_) fun _ => ?_)
  · simp [hstatic] at h
  · refine (carriedByCallees_iff hlazy hI hr hw hc).bind fun b hb => .pure ?_
    simp [hstatic, Path.isEmpty_of_isInstanceField hfield, ← hb]

end AllRead
end Track

theorem FactSet.subset_insert (set : FactSet) (g : Fact) : set ⊆ set.insert g := by
  unfold FactSet.insert
  split
  · exact List.Subset.refl set
  · exact subset_append_left set [g]

theorem Fact.aliasTarget?_ne_field {g : Fact} (h : g.aliasTarget? = some target) (b : Local)
    (x : Field) : target ≠ .field b x := by
  rintro rfl
  unfold Fact.aliasTarget? at h
  split at h
  · cases h
  · obtain ⟨_, _, h⟩ := Option.map_eq_some_iff.mp h
    cases h

namespace Track
variable {g : Fact} {set : FactSet}

theorem computeAliases_same (hI : Upkeep e (fun _ => True) R I) {src : StmtId}
    (htarget : e.isConditional d1 → ∀ b x, target ≠ .field b x) :
    Keeps e I (computeAliases d1 src target set m g) (· = set) := by
  -- The alias solver is asked: what it finds comes back later, as edges of its own.
  refine computeAliases_keeps_of rfl (fun hcond b x h => absurd h (htarget hcond b x))
    (fresh_fits hI.unmoved) (fun _ _ _ _ _ => sendEdge_fits hI trivial) fun _ => ?_
  exact (pointsToSearch_fits hI Region.whole_closed fun _ _ => trivial).searchPointsTo
    (fun _ _ => trivial) _ (Fact.fits_whole (.self (f := g))) (fun _ _ => trivial) trivial

theorem addNative_subset (hI : Upkeep.Always e I) :
    Keeps e I (addNative d1 (e.stmt n) c f set) (set ⊆ ·) := by
  refine .read (.guard (List.Subset.refl set) ?_)
  refine ((libraryCall_fits (r := Region.whole) (H := anyFact) hI.unmoved (fun _ _ _ _ => trivial)
    Region.whole_closed ⟨n, trivial, rfl⟩ trivial).nativeTaints fun _ _ _ _ => trivial).bind
      fun o _ => ?_
  split
  · exact .pure (List.Subset.refl set)
  · refine .foldlM (fun now hnow g _ => ?_) (List.Subset.refl set)
    have hinsert : set ⊆ now.insert g := List.Subset.trans hnow (now.subset_insert g)
    dsimp only
    split
    · exact .pure hinsert
    · next target htarget =>
      refine .ite ?_ <| .pure hinsert
      refine (computeAliases_same hI fun _ => Fact.aliasTarget?_ne_field htarget).mono ?_
      rintro _ rfl
      exact hinsert

end Track

/-- **A tainted field goes past the call** unless the callees carry it. -/
theorem Forward.callToReturn_field (he : e.Plain) (hI : Upkeep.Always e I)
    (hopen : ∀ w, I w → w.rules.sinksClosed = false) (hr : ∀ w, I w → w.paths.rules = r) (hw : I w)
    (hn : (e.stmt n).id = n) (hc : (e.stmt n).call? = some c) (hactive : f.isActive)
    (hfield : f.path.isInstanceField)
    (hlhs : ∀ l, (e.stmt n).lhs? = some (.var l) → f.path.base ≠ some l)
    (hpasses : Rule.allInert e n ∨ ¬ Carried e w f n c) :
    Keeps e I (Forward.callToReturn d1 f n) fun o => f ∈ o.facts := by
  have hpast : Keeps e I (pastCall d1 f (e.stmt n)) (Passes e f (e.stmt n)
      (¬ Carried e w f (e.stmt n).id c ∨ f.inConditional) False) :=
    pastCall_tells he.models he.stopAfter he.aliasing hI hopen (he.isZero_of_field hfield)
      hactive (Path.isEmpty_of_isInstanceField hfield)
      (.inr (Path.not_isStaticField_of_isInstanceField hfield)) hlhs
      (passesCall_field he.aliasing hI hr hw hc hfield) .inr
      fun _ _ set => (addNative_subset hI).mono fun _ hsub => ⟨hsub, False.elim⟩
  refine (callToReturn_of_past he.stopAfter hpast).mono fun _ hset =>
    hset.same (.inr he.implicitFlows) ?_
  rw [hn]
  exact hpasses.imp_right .inl

/-! ## Into the callees -/

/-- The fact was made of `f` at a call: it is `f` itself, or `f` as one of the paths. -/
structure Fact.EntersAs (f : Fact) (ps : List AccessPath) (g : Fact) : Prop where
  derived : g = f ∨ g.pred = some f
  path : ∃ a ∈ ps, g.path = a.toPath
  length : g.length ≤ f.length + 1

theorem Fact.entersAs_deriveAs? {ps : List AccessPath} (ha : a ∈ ps) {i : Nat}
    {stmt : Option StmtId} {implicit : Bool} :
    ∃ g, f.deriveAs? i (some a) stmt implicit = some g ∧ f.EntersAs ps g := by
  unfold deriveAs?
  dsimp only
  split
  · next hsame =>
    simp only [Bool.and_eq_true, beq_iff_eq] at hsame
    exact ⟨f, rfl, .inl rfl, ⟨a, ha, hsame.1.1⟩, Nat.le_succ _⟩
  · refine ⟨_, rfl, .inr ?_, ⟨a, ha, path_move (f := f)⟩, ?_⟩
    · change (f.move i a stmt).pred = some f
      unfold move
      split <;> rfl
    · change (f.move i a stmt).length ≤ f.length + 1
      unfold move
      split <;> exact Nat.le_refl _

theorem FactSet.insert_ne_nil (set : FactSet) (g : Fact) : set.insert g ≠ [] := by
  unfold FactSet.insert
  split
  · next hmem =>
    rintro rfl
    cases hmem
  · simp

namespace Track
variable {ps : List AccessPath} {stmt : Option StmtId}

variable (hI : Upkeep e M (fun _ => True) I)
include hI

theorem derive_entersAs (ha : a ∈ ps) :
    Keeps e I (derive f (some a) stmt) fun o => ∃ g, o = some g ∧ f.EntersAs ps g :=
  (fresh_fits hI.unmoved).bind fun _ _ => .pure (Fact.entersAs_deriveAs? ha)

theorem enterBy_reads (hreads : ∀ a ∈ ps, a.base.any (e.graph.reads m)) :
    Keeps e I (ps.foldlM (fun (set : FactSet) a => do
      if e.config.aliasing.isLazy || f.implicit || a.base.any (e.graph.reads m) then
        return set.insertAll (← derive f (some a) stmt).toList
      else return set) []) fun set => ps ≠ [] → ∃ g ∈ set, f.EntersAs ps g := by
  have hstep : ∀ set : FactSet, set.All (f.EntersAs ps) → ∀ a ∈ ps, Keeps e I (do
      if e.config.aliasing.isLazy || f.implicit || a.base.any (e.graph.reads m) then
        return set.insertAll (← derive f (some a) stmt).toList
      else return set) fun out => out.All (f.EntersAs ps) ∧ out ≠ [] := by
    intro set hset a ha
    refine .dite (fun _ => ?_) fun hno => absurd (hreads a ha) (by simp_all)
    refine (derive_entersAs hI ha).bind ?_
    rintro _ ⟨g, rfl, hg⟩
    exact .pure ⟨hset.insert hg, set.insert_ne_nil g⟩
  -- The first path gives a fact, and the others only add to it.
  cases ps with
  | nil => exact .pure fun h => absurd rfl h
  | cons a rest =>
    rw [foldlM_cons]
    refine (hstep [] .nil a mem_cons_self).bind fun set hset => ?_
    refine (Keeps.foldlM (fun set hset a ha => hstep set hset.1 a (mem_cons_of_mem _ ha))
      hset).mono fun out hout _ => ?_
    obtain ⟨g, hg⟩ := exists_mem_of_ne_nil out hout.2
    exact ⟨g, hg, hout.1 g hg⟩

end Track

section
variable (he : e.Plain) (hI : Upkeep e M (fun _ => True) I)
  (hopen : ∀ w, I w → w.rules.sinksClosed = false) (hr : ∀ w, I w → w.paths.rules = r) (hw : I w)
  (hbody : (e.method m).isConcrete) (hinert : Rule.isInert (e.method m) = false)
  (hinit : e.config.staticFields = .ignored → (e.method m).isStaticInitializer = false)
include he hI hopen hr hw hbody hinert hinit

theorem Track.intoCallee_field (hc : s.call? = some c) (hcarried : Carried e w f s.id c)
    (hm : m ∈ e.graph.calleesOf s.id) :
    Keeps e I (intoCallee d1 f s m) fun set => seenBy e w f s.id c m ≠ [] →
      ∃ g ∈ set, f.EntersAs (seenBy e w f s.id c m) g := by
  have hstatic := Path.not_isStaticField_of_isInstanceField hcarried.field
  have hcovered : e.config.implicitFlows.tracksControlFlow → ∀ w, I w →
      (w.rules.conditionalCalls.contains (s.id, d1.toTaint) ↔ False) :=
    fun h => nomatch he.implicitFlows.symm.trans h
  have htold : Rule.Told e I (fun rule => rule.call d1 f s m) (Rule.chain e) none _ _ :=
    Rule.applyCall_told he.models he.stopAfter (he.isZero_of_field hcarried.field)
      (Path.isEmpty_of_isInstanceField hcarried.field) hopen
      (fun _ _ hw => hI.rest hw ⟨rfl, rfl, rfl, rfl, rfl, rfl, rfl, rfl⟩) hcovered
  refine .read ((htold {} rfl).bind fun p hp => ?_)
  -- None of the reasons that the rules can have applies, and they add nothing either.
  have hkill : p.2.all = false := by
    rw [← Bool.not_eq_true, hp.1]
    rintro ((⟨hskip, hsource⟩ | ⟨⟨hskip, hsink⟩, -⟩) | ⟨hignored, h⟩ | ⟨htracks, -⟩ | h)
    · exact nomatch (hcarried.source hskip).symm.trans hsource
    · exact nomatch (hcarried.sink hskip).symm.trans hsink
    · rw [hinit hignored, hstatic] at h
      simp at h
    · exact nomatch he.implicitFlows.symm.trans htracks
    · exact nomatch hinert.symm.trans h
  have hrules : p.1 = none := (hp.2.2 hkill).2 fun h => nomatch hstatic.symm.trans h.1
  dsimp only
  rw [if_neg (by simp [hkill]), hrules, hc]
  refine (pathsInCallee_seenBy he.aliasing hI hr hw).bind ?_
  rintro _ ⟨rfl, hbased⟩
  refine enterBy_reads hI fun a ha => ?_
  -- A path that starts at a local is read by all as by any.
  obtain ⟨l, hl, -⟩ := hbased a ha
  have hread := (hcarried.read m hm).2 hbody a ha
  rw [Option.mem_def.mp hl] at hread ⊢
  exact hread

theorem Forward.call_field (hn : (e.stmt n).id = n) (hc : (e.stmt n).call? = some c)
    (hcarried : Carried e w f n c) (hm : m ∈ e.graph.calleesOf n) :
    Keeps e I (Forward.call d1 f n m) fun o => seenBy e w f n c m ≠ [] →
      ∃ g ∈ o.facts, f.EntersAs (seenBy e w f n c m) g := by
  have hinto : Keeps e I (intoCallee d1 f (e.stmt n) m) fun set =>
      seenBy e w f (e.stmt n).id c m ≠ [] →
        ∃ g ∈ set, f.EntersAs (seenBy e w f (e.stmt n).id c m) g :=
    intoCallee_field he hI hopen hr hw hbody hinert hinit hc (hn.symm ▸ hcarried) (hn.symm ▸ hm)
  rw [hn] at hinto
  exact call_of_into he.stopAfter (he.isZero_of_field hcarried.field) hbody (hcarried.read m hm).1
    hinto

end
end LeakTrace
