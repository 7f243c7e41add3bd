import LeakTrace.Proofs.Calls.Fields

/-!
# What decides about a taint at a modelled call

A model says which taints of the receiver and the arguments are left after the call. A taint that
the model drops may still go around it: past methods that never move taints, inside a conditional,
as a copy, or because nobody else deals with it. **Nothing but the rules for paths decides about
either**, so the answers stay the same while solvers run.
-/

namespace LeakTrace
open FactSet (Says)

variable {e : Env} {I : World → Prop} {f : Fact} {s : Stmt} {c : Call} {l : Local} {w w' : World}
  {r : PathRules}

/-! ## Sets of facts -/

theorem FactSet.says_insertAll (set : FactSet) (more : List Fact) :
    (set.insertAll more).Says f ↔ set.Says f ∨ Says more f := by
  induction more generalizing set with
  | nil => exact ⟨.inl, fun h => h.resolve_right List.not_mem_nil⟩
  | cons g rest ih =>
    change ((set.insert g).insertAll rest).Says f ↔ _
    rw [ih, says_insert, or_assoc]
    exact or_congr_right List.mem_cons.symm

theorem FactSet.head?_insertAll {set : FactSet} {more : List Fact} {g : Fact}
    (h : set.head? = some g) : (set.insertAll more).head? = some g := by
  induction more generalizing set with
  | nil => exact h
  | cons x rest ih =>
    have hinsert : (set.insert x).head? = some g := by
      unfold FactSet.insert
      split
      · exact h
      · rw [List.head?_append, h]
        rfl
    exact ih hinsert

theorem Fact.toTaint_deriveAs? (f : Fact) (i j : Nat)
    (a : Option AccessPath) (n : Option StmtId) (implicit : Bool) : (f.deriveAs? i a n implicit).map
    (·.toTaint) = (f.deriveAs? j a n implicit).map (·.toTaint) := by
  cases a with
  | none => rfl
  | some a =>
    unfold deriveAs? derive? move
    dsimp only
    split
    · rfl
    · simp only [Option.map_some]
      split <;> rfl

/-! ## Answers of one kind -/

namespace Track
section Decided
variable {α β : Type} {x : Track α}

/-- In worlds with `I` the answer is as `P` says always or never. -/
def Decided (e : Env) (I : World → Prop) {α : Type} (act : Track α) (P : α → Prop) : Prop :=
  ∃ K : Prop, Keeps e I act fun a => P a ↔ K

namespace Decided
variable {P : α → Prop}

theorem of_settled (h : Settled e I x) : Decided e I x P := by
  obtain ⟨a, ha⟩ := h
  refine ⟨P a, ha.mono ?_⟩
  rintro _ rfl
  exact Iff.rfl

theorem bind {g : α → Track β} {P : β → Prop} (h : Settled e I x)
    (hg : ∀ a, Decided e I (g a) P) : Decided e I (x >>= g) P := by
  obtain ⟨a, ha⟩ := h
  obtain ⟨K, hK⟩ := hg a
  refine ⟨K, ha.bind ?_⟩
  rintro _ rfl
  exact hK

protected theorem read {g : Env → Track α} (h : Decided e I (g e) P) : Decided e I (read >>= g) P :=
  h.imp fun _ hK => .read hK

theorem ite {b : Prop} [Decidable b] {y : Track α} (ht : Decided e I x P)
    (he : Decided e I y P) : Decided e I (if b then x else y) P := by
  split
  · exact ht
  · exact he

theorem keeps (h : Decided e I x P) (hw : I w) :
    Keeps e I x fun a => P a ↔ P ((x.run e).run w).1 := by
  obtain ⟨K, hK⟩ := h
  exact hK.mono fun a ha => ha.trans (hK w hw).1.symm

theorem iff (h : Decided e I x P) (hw : I w) (hw' : I w') :
    P ((x.run e).run w).1 ↔ P ((x.run e).run w').1 :=
  (h.keeps hw' w hw).1

end Decided
end Decided
end Track

/-! ## What a model says -/

def Call.Mentions (c : Call) (l : Local) : Prop := c.base = some l ∨ .var l ∈ c.args

theorem Call.Mentions.any (h : c.Mentions l) :
    (c.base == some l || c.args.any fun a => a.local? == some l) := by
  rw [Bool.or_eq_true, beq_iff_eq, List.any_eq_true]
  exact h.imp_right fun hmem => ⟨.var l, hmem, beq_self_eq_true _⟩

theorem Stmt.local?_lhs (h : s.lhs? ≠ some (.var l)) :
    ((s.lhs?.filter fun v => v.local?.isSome).bind Value.local? == some l) = false := by
  refine beq_eq_false_iff_ne.mpr fun heq => ?_
  obtain ⟨v, hv, hl⟩ := Option.bind_eq_some_iff.mp heq
  cases v with
  | var x =>
    cases hl
    exact h (Option.filter_eq_some_iff.mp hv).1
  | _ => cases hl

/-- The call is modelled, and it mentions the local that the fact is rooted in. -/
structure Fact.MeetsModel (f : Fact) (e : Env) (s : Stmt) (c : Call) (model : Model) (l : Local) :
    Prop where
  call : s.call? = some c
  model : e.modelOf? s = some model
  root : f.path.base = some l
  passed : c.Mentions l

theorem Fact.MeetsModel.models {model : Model} (h : f.MeetsModel e s c model l) :
    e.models.isSome := by
  cases hm : e.models with
  | none =>
    have hmodel := h.model
    simp [Env.modelOf?, hm] at hmodel
  | some models => rfl

namespace Track
variable {model : Model}

/-- The answer of a model to a fact with root `l`, which it keeps if `keeps`: the fact is in front
or nothing is left, unless the call assigns the root. -/
def FromModel (f : Fact) (s : Stmt) (l : Local) (keeps : Prop) (o : Option FactSet) : Prop :=
  ∃ taints, o = some taints ∧ (taints.Says f ↔ keeps) ∧
    (taints = [] ∨ taints.head? = some f ∨ s.lhs? = some (.var l))

theorem modelTaints_kills (hf : f.MeetsModel e s c model l) (hkills : model.kills) :
    Keeps e I (modelTaints s f) (· = some []) := by
  refine .read ?_
  rw [hf.model, hf.call]
  dsimp only
  rw [hf.root]
  dsimp only
  rw [hkills, hf.passed.any, Bool.true_and, Bool.or_true]
  exact .pure rfl

section OneAnswer
variable (hI : World.Unmoved I) (hr : ∀ w, I w → w.paths.rules = r)
include hI

theorem derive_tells {a : Option AccessPath} {n : Option StmtId} : Keeps e I (derive f a n) fun o =>
    Says o.toList f ↔ f.toTaint ∈ (f.deriveAs? 0 a n f.implicit).map (·.toTaint) := by
  refine (fresh_fits hI).bind fun i _ => .pure ?_
  rw [f.toTaint_deriveAs? 0 i]
  cases f.deriveAs? i a n f.implicit with
  | none => exact ⟨nofun, nofun⟩
  | some g => simp [Says, eq_comm]

include hr

theorem insertFor_tells (o : Option Value) : ∃ K : Prop, ∀ set : FactSet,
    Keeps e I (do
      match o with
      | none => return set
      | some v =>
        let path ← paths (Paths.ofValue v true)
        return set.insertAll (← derive f path (some s.id)).toList) fun out =>
      (out.Says f ↔ set.Says f ∨ K) ∧ ∀ g, set.head? = some g → out.head? = some g := by
  cases o with
  | none => exact ⟨False, fun set => .pure ⟨by simp, fun _ h => h⟩⟩
  | some v =>
    obtain ⟨p, hp⟩ : Settled e I (paths (Paths.ofValue v true)) :=
      paths_settled hI hr Paths.ofValue_settled
    refine ⟨f.toTaint ∈ (f.deriveAs? 0 p (some s.id) f.implicit).map (·.toTaint), fun set =>
      hp.bind ?_⟩
    rintro _ rfl
    refine (derive_tells hI).bind fun o ho => .pure ⟨?_, fun g => FactSet.head?_insertAll⟩
    rw [FactSet.says_insertAll, ho]

theorem modelTaints_tells (hf : f.MeetsModel e s c model l) :
    ∃ K : Prop, Keeps e I (modelTaints s f) (FromModel f s l K) := by
  cases hkills : model.kills with
  | true =>
    refine ⟨False, (modelTaints_kills hf hkills).mono ?_⟩
    rintro _ rfl
    exact ⟨[], rfl, ⟨nofun, nofun⟩, .inl rfl⟩
  | false =>
    obtain ⟨resulting, hresult⟩ := insertFor_tells (e := e) (f := f) (s := s) hI hr
      (if model.taintsResult then s.lhs?.filter fun v => v.local?.isSome else none)
    obtain ⟨basing, hbase⟩ := insertFor_tells (e := e) (f := f) (s := s) hI hr
      (if model.taintsBase && c.args.any fun a => a.local? == some l then c.base.map .var else none)
    refine ⟨(Says (if (s.lhs?.filter fun v => v.local?.isSome).bind Value.local? == some l
      then [] else [f]) f ∨ resulting) ∨ basing, .read ?_⟩
    rw [hf.model, hf.call]
    dsimp only
    rw [hf.root]
    dsimp only
    simp only [hkills, hf.passed.any, Bool.or_false, Bool.and_true]
    refine .dite (fun h => absurd h Bool.false_ne_true) fun _ => (hresult _).bind fun set hset =>
      (hbase set).bind fun out hout => .pure ⟨out, rfl, ?_, ?_⟩
    · rw [hout.1, hset.1]
    · refine .inr ?_
      by_cases hlhs : s.lhs? = some (.var l)
      · exact .inr hlhs
      · exact .inl (hout.2 f (hset.2 f (by rw [Stmt.local?_lhs hlhs]; rfl)))

omit hr in
theorem derivedByCall_decided {p : Option AccessPath} :
    Decided e I (do
      match ← derive f p (some s.id) with
      | some g => return some [g.withCall (← fresh) s.id]
      | none => return none) fun o => Says (o.getD []) f := by
  refine ⟨f.toTaint ∈ (f.deriveAs? 0 p (some s.id) f.implicit).map (·.toTaint),
    (derive_tells hI).bind fun o ho => ?_⟩
  cases o with
  | none => exact .pure ho
  | some g => exact (fresh_fits hI).bind fun _ _ => .pure ho

theorem nativeTaints_decided {args : List Value} :
    Decided e I (nativeTaints s f args) fun o => Says (o.getD []) f := by
  have hnone : Decided e I (pure none) fun o => Says (o.getD []) f := .of_settled .pure
  refine .read ?_
  dsimp only
  split
  · refine .ite ?_ (.ite ?_ hnone)
    · split
      · exact .ite (.bind (paths_settled hI hr Paths.rebase_settled) fun _ =>
          derivedByCall_decided hI) hnone
      · exact hnone
    · split
      · exact .ite (.bind (paths_settled hI hr Paths.rebase_settled) fun _ =>
          derivedByCall_decided hI) hnone
      · exact hnone
  · exact hnone

theorem anyHoldsTaint_settled {vs : List Value} : Settled e I (anyHoldsTaint vs f) := by
  unfold anyHoldsTaint
  split
  · unfold anyMayAlias
    induction vs with
    | nil => exact .pure
    | cons v rest ih =>
      simp only [List.forIn_cons, bind_assoc]
      refine (mayAliasValues_settled hI hr).bind fun b => ?_
      cases b with
      | true => exact .pure
      | false => exact ih
  · exact .pure

theorem allRead_settled {reflective : Bool} {callees : List MethodId} :
    Settled e I (allRead c f reflective callees) := by
  induction callees with
  | nil => exact .pure
  | cons m rest ih =>
    refine .read (.ite .pure (.ite ?_ ?_))
    · exact (pathsInCallee_settled hI hr).bind fun _ => .ite ih .pure
    · rw [pure_bind]
      exact .ite ih .pure

theorem carriedByCallees_settled : Settled e I (carriedByCallees f f s) := by
  refine .read (.ite .pure ?_)
  split
  · exact .pure
  · next c _ =>
    refine (allRead_settled hI hr).bind fun _ => .ite .pure ?_
    have hrest (onBase : Bool) : Settled e I (do
        let onArg ← anyHoldsTaint c.args f
        return onBase || onArg) := (anyHoldsTaint_settled hI hr).bind fun _ => .pure
    split
    · exact (holdsTaint_settled hI hr).bind hrest
    · exact hrest false

end OneAnswer

/-! ## Around the model -/

def KeptByModel (e : Env) (w : World) (f : Fact) (s : Stmt) : Prop :=
  FactSet.Says ((((modelTaints s f).run e).run w).1.getD []) f

def Overwritten (e : Env) (w : World) (f : Fact) (s : Stmt) : Prop :=
  ∃ l b, s.lhs? = some (.var l) ∧ f.path.base = some b ∧
    (((mayAliasValues (.var l) (.var b)).run e).run w).1 = true

/-- The fact is what the runtime makes of an argument when it copies an array. -/
structure CopiedByRuntime (e : Env) (w : World) (f : Fact) (s : Stmt) (c : Call) : Prop where
  understood : e.native = true
  native : ((e.graph.calleesOf s.id).any (fun m => (e.method m).isNative) ||
    (e.program.bySignature? c.method.signature).any (·.isNative)) = true
  argument : (f.path.base.any fun l => c.args.any fun a => a.local? == some l) = true
  again : FactSet.Says ((((nativeTaints s f c.args).run e).run w).1.getD []) f

/-- The fact goes past the call whatever the model says: the callees are methods of the runtime that
never move taints, it is inside a conditional, nobody says that it was overwritten or that the
callees deal with it, or it is a copy. -/
inductive GoesAround (e : Env) (w : World) (f : Fact) (s : Stmt) (c : Call) : Prop
  | inert (h : Rule.allInert e s.id = true)
  | conditional (h : f.inConditional = true)
  | untouched (hroot : ¬ Overwritten e w f s)
      (hcallees : (((carriedByCallees f f s).run e).run w).1 = false)
  | copied (h : CopiedByRuntime e w f s c)

section SamePaths
variable (hw : w'.paths.rules = w.paths.rules)
include hw

theorem keptByModel_congr (hf : f.MeetsModel e s c model l) :
    KeptByModel e w f s ↔ KeptByModel e w' f s := by
  obtain ⟨K, hK⟩ := modelTaints_tells (e := e) (I := fun w' => w'.paths.rules = w.paths.rules)
    (fun hw hs => hs.trans hw) (fun _ h => h) hf
  have hdecided : Decided e (fun w' => w'.paths.rules = w.paths.rules) (modelTaints s f) fun o =>
      Says (o.getD []) f := by
    refine ⟨K, hK.mono ?_⟩
    rintro _ ⟨taints, rfl, htaints, -⟩
    exact htaints
  exact hdecided.iff rfl hw

theorem overwritten_congr : Overwritten e w f s ↔ Overwritten e w' f s := by
  refine exists_congr fun l => exists_congr fun b => and_congr_right fun _ =>
    and_congr_right fun _ => ?_
  have hdecided : Decided e (fun w' => w'.paths.rules = w.paths.rules)
      (mayAliasValues (.var l) (.var b)) (·) :=
    .of_settled (mayAliasValues_settled (fun hw hs => hs.trans hw) fun _ h => h)
  exact hdecided.iff rfl hw

theorem GoesAround.congr (h : GoesAround e w f s c) : GoesAround e w' f s c := by
  have hmoves : World.Unmoved fun w' => w'.paths.rules = w.paths.rules := fun hw hs => hs.trans hw
  cases h with
  | inert h => exact .inert h
  | conditional h => exact .conditional h
  | copied h =>
    have hdecided : Decided e (fun w' => w'.paths.rules = w.paths.rules) (nativeTaints s f c.args)
        fun o => Says (o.getD []) f := nativeTaints_decided hmoves fun _ h => h
    exact .copied ⟨h.understood, h.native, h.argument, (hdecided.iff rfl hw).mp h.again⟩
  | untouched hroot hcallees =>
    have hdecided : Decided e (fun w' => w'.paths.rules = w.paths.rules) (carriedByCallees f f s)
        (· = false) := .of_settled (carriedByCallees_settled hmoves fun _ h => h)
    exact .untouched (mt (overwritten_congr hw).mpr hroot) ((hdecided.iff rfl hw).mp hcallees)

end SamePaths
end Track
end LeakTrace
