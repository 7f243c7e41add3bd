import LeakTrace.Proofs.Keeps.Questions
import LeakTrace.Proofs.Solve.Tables

/-!
# Nothing comes of nothing

The zero fact stands for "this statement is reached". Away from sources it may go on as it is, and
that is all it does: no flow function of either analysis makes a taint of it, records anything or
asks a solver for anything.

**The world does not change at all.** That is more than was asked of any single guard, and it makes
the chain of rules easy to follow: each rule is asked in the world in which the first one was.
-/

namespace LeakTrace
open Track

variable {succ exit : StmtId} {calleeD1 : Fact}

/-- Whatever the world, the action leaves it as it is, hands out only facts that name no place, and
tells the other solver of no context. -/
structure Track.Idle (e : Env) (act : Track Flow) : Prop where
  facts : ∀ w, ∀ g ∈ ((act.run e).run w).1.facts, g.path.isEmpty = true
  contexts : ∀ w, ((act.run e).run w).1.contexts = []
  world : ∀ w, ((act.run e).run w).2 = w

variable {e : Env} {d1 f : Fact} {s : Stmt} {w : World} {n : Nat}

theorem Track.idle_of_keeps {act : Track Flow}
    (h : ∀ w, Keeps e (· = w) act fun o =>
      FactSet.All (·.path.isEmpty) o.facts ∧ o.contexts = []) : Idle e act where
  facts w := (h w w rfl).1.1
  contexts w := (h w w rfl).1.2
  world w := (h w w rfl).2

theorem Track.sourceInfo_of_not_source {s : StmtId} (hs : e.isSource s = false) :
    (sourceInfo s).run e = pure none := by
  change ((if e.isSource s then _ else pure none : Track _)).run e = _
  rw [if_neg (by simp [hs])]
  rfl

/-! ## What the zero fact says -/

namespace Env
variable (hz : e.zero = .zero n) (hf : e.isZero f)
include hz hf

theorem toTaint_of_isZero : f.toTaint = (Fact.zero n).toTaint :=
  hz ▸ Fact.same_iff.mp hf

theorem path_of_isZero : f.path = Path.empty := by
  rw [toTaint_of_isZero hz hf]
  rfl

theorem isEmpty_of_isZero : f.path.isEmpty := by
  rw [path_of_isZero hz hf]
  rfl

theorem waitsFor_of_isZero : f.waitsFor = none := by
  rw [toTaint_of_isZero hz hf]
  rfl

end Env

/-! ## Rules -/

namespace Rule
variable {r : Rule} {dest : Stmt}

/-- Past a call a rule has no opinion about the zero fact, or lets it pass. -/
def Spares (e : Env) (w : World) (r : Rule) : Prop :=
  ∀ d1 f s, e.isZero f = true → e.isSource s.id = false →
    RuleM.Keeps e (· = w) (r.callToReturn d1 f s) (FactSet.AllOpt (·.path.isEmpty = true))

theorem spares_of_callToReturn (h : ∀ d1 f s, r.callToReturn d1 f s = pure none) : Spares e w r := by
  intro d1 f s _ _
  rw [h]
  exact .pure .none

theorem source_spares : Spares e w source := by
  intro d1 f s hf hs
  refine .read ?_
  rw [if_neg (by simp [hf])]
  refine .andThen (.killSource trivial) ?_
  have hno : Keeps e (· = w) (sourceInfo s.id) (· = none) := by
    intro w' hw'
    rw [sourceInfo_of_not_source hs]
    exact ⟨rfl, hw'⟩
  refine .lift_bind hno ?_
  rintro _ rfl
  exact .pure .none

theorem closeCalls_keeps : RuleM.Keeps e (· = w) closeCalls :=
  .getWorld_bind fun _ _ => .ite (.killAll trivial) <| .pure trivial

theorem wrapper_spares : Spares e w wrapper := by
  intro d1 f s hf _
  have hno : Keeps e (· = w) (modelled d1 f s) (· = none) := by
    refine .read ?_
    rw [if_pos (by simp [hf])]
    exact .pure rfl
  refine .lift_bind hno ?_
  rintro _ rfl
  exact .pure .none

theorem implicit_spares : Spares e w implicit := by
  intro d1 f s hf _
  refine .read ?_
  rw [if_pos hf]
  exact .pure .none

theorem stopAfter_spares (k : Nat) : Spares e w (stopAfter k) := by
  intro d1 f s _ _
  refine .getWorld_bind fun _ _ => ?_
  exact .optional (.killAll trivial) (.pure .none)

section
variable (hz : e.zero = .zero n)
include hz

theorem sink_spares : Spares e w sink := by
  intro d1 f s hf _
  refine .read ?_
  rw [if_neg (by simp [Env.path_of_isZero hz hf, Path.empty])]
  exact closeCalls_keeps.bind fun _ _ => .pure .none

theorem staticField_spares : Spares e w staticField := by
  intro d1 f s hf _
  refine .read ?_
  rw [if_neg (by simp [Env.path_of_isZero hz hf, Path.isStaticField, Path.empty])]
  exact .pure .none

theorem strongUpdate_spares : Spares e w strongUpdate := by
  intro d1 f s hf _
  have hb : f.path.base = none := by rw [Env.path_of_isZero hz hf]; rfl
  unfold strongUpdate
  dsimp only
  rw [hb]
  split <;> exact .pure .none

theorem skipSystemClass_spares : Spares e w skipSystemClass := by
  intro d1 f s hf _
  exact .read (.guard (.some (.singleton (Env.isEmpty_of_isZero hz hf))) <| .pure .none)

theorem chain_spares (hr : r ∈ chain e) : Spares e w r := by
  apply chain_cases hr
  · exact source_spares
  · exact sink_spares hz
  · exact staticField_spares hz
  · exact spares_of_callToReturn fun _ _ _ => rfl
  · exact spares_of_callToReturn fun _ _ _ => rfl
  · exact wrapper_spares
  · exact fun _ => implicit_spares
  · exact strongUpdate_spares hz
  · exact spares_of_callToReturn fun _ _ _ => rfl
  · exact skipSystemClass_spares hz
  · exact stopAfter_spares _

end

variable (hf : e.isZero f) (hs : e.isSource s.id = false)
include hf hs

theorem source_normal_zero (k : Kill) :
    (((source.normal d1 f s dest).run k).run e).run w = ((none, ⟨true, true⟩), w) := by
  unfold source atSource
  change ((((if !e.isZero f then _ else _ : RuleM _)).run k).run e).run w = _
  rw [if_neg (by simp [hf])]
  simp [RuleM.killSource, RuleM.killAll, sourceInfo_of_not_source hs]
  rfl

/-- As the first rule ends the zero fact, the others are not asked. -/
theorem applyNormal_zero :
    Keeps e (· = w) ((applyNormal (chain e) d1 f s dest).run {}) (·.2.all) := by
  obtain ⟨rest, hrest⟩ : ∃ rest, chain e = source :: rest := ⟨_, rfl⟩
  rw [hrest]
  rintro _ rfl
  simp only [applyNormal, ask, StateT.run_bind, ReaderT.run_bind, source_normal_zero hf hs]
  exact ⟨rfl, rfl⟩

end Rule

/-! ## Taints along the control flow -/

namespace Forward
variable {callee : MethodId}

theorem call_idle {s : StmtId} (hf : e.isZero f) : Idle e (call d1 f s callee) := by
  refine idle_of_keeps fun w => ?_
  refine .read (limitReached_keeps.bind fun _ _ => ?_)
  refine .guard ⟨.nil, rfl⟩ ?_
  rw [if_pos (by simp [hf])]
  exact .pure ⟨.nil, rfl⟩

theorem ret_idle {call site : Option StmtId} {contexts : List Fact} (hf : e.isZero f) :
    Idle e (ret call callee exit site f calleeD1 contexts) := by
  refine idle_of_keeps fun w => ?_
  refine .read (limitReached_keeps.bind fun _ _ => ?_)
  refine .guard ⟨.nil, rfl⟩ ?_
  rw [if_pos hf]
  exact .pure ⟨.nil, rfl⟩

variable (hz : e.zero = .zero n) (hf : e.isZero f)
include hz hf

theorem normal_idle {s : StmtId} (hs : e.isSource (e.stmt s).id = false) :
    Idle e (normal d1 f s succ) := by
  refine idle_of_keeps fun w => ?_
  unfold normal
  rw [if_neg (by simp [Env.waitsFor_of_isZero hz hf])]
  refine .read ((Rule.applyNormal_zero hf hs).bind ?_)
  rintro ⟨set, kill⟩ (hkill : kill.all)
  dsimp only
  rw [if_pos hkill]
  exact .pure ⟨.nil, rfl⟩

theorem pastCall_zero (hs : e.isSource s.id = false) :
    Keeps e (· = w) (pastCall d1 f s) (FactSet.All (·.path.isEmpty)) := by
  have hactive : Keeps e (· = w) (activateAt f s.id) (· = f) := by
    unfold activateAt
    rw [if_pos (by simp [Taint.isActive, Env.waitsFor_of_isZero hz hf])]
    exact .pure rfl
  have hrules : RuleM.Keeps e (· = w) (Rule.applyCallToReturn (Rule.chain e) d1 f s false)
      (FactSet.All (·.path.isEmpty)) :=
    Rule.applyCallToReturn_keeps (Env.isEmpty_of_isZero hz hf) fun _ hr =>
      Rule.chain_spares hz hr d1 f s hf hs
  refine .read (hactive.bind ?_)
  rintro _ rfl
  refine (hrules {}).bind fun p hp => ?_
  refine .guard .nil ?_
  rw [if_pos hf]
  exact .pure hp

theorem callToReturn_idle {s : StmtId} (hs : e.isSource (e.stmt s).id = false) :
    Idle e (callToReturn d1 f s) := by
  refine idle_of_keeps fun w => ?_
  refine .read (limitReached_keeps.bind fun _ _ => ?_)
  refine .guard ⟨.nil, rfl⟩ ?_
  exact (pastCall_zero hz hf hs).bind fun _ hset => .pure ⟨hset, rfl⟩

end Forward

/-! ## Aliases against the control flow -/

namespace Backward
variable {callee : MethodId}

theorem normal_idle (hz : e.zero = .zero n) {s : StmtId} (hf : e.isZero f) :
    Idle e (normal d1 f s succ) := by
  refine idle_of_keeps fun w => .read ?_
  dsimp only
  split
  · exact .pure ⟨.singleton (Env.isEmpty_of_isZero hz hf), rfl⟩
  · rw [if_pos hf]
    exact .pure ⟨.nil, rfl⟩

variable (hf : e.isZero f)
include hf

theorem call_idle {s : StmtId} : Idle e (call d1 f s callee) := by
  refine idle_of_keeps fun w => .read ?_
  rw [if_pos (by simp [hf])]
  exact .pure ⟨.nil, rfl⟩

theorem ret_idle {call : Option StmtId} : Idle e (ret call callee exit calleeD1 f) := by
  refine idle_of_keeps fun w => .read ?_
  cases call with
  | none => exact .pure ⟨.nil, rfl⟩
  | some cs =>
    dsimp only
    rw [if_pos hf]
    exact .pure ⟨.nil, rfl⟩

theorem callToReturn_idle {s : StmtId} : Idle e (callToReturn d1 f s) := by
  have hno : ∀ w, Keeps e (· = w) (pastCall d1 f (e.stmt s)) (· = []) := by
    intro w
    refine .read ?_
    rw [if_pos hf]
    exact .pure rfl
  refine idle_of_keeps fun w => .read ((hno w).bind ?_)
  rintro _ rfl
  exact .pure ⟨by split <;> exact .nil, rfl⟩

end Backward

namespace Problem

/-- A call that is a source, and after it a copy of what it returned. -/
def copiedSource : Env where
  config := { implicitFlows := .all, stopAfter := 1 }
  graph :=
    { (default : Graph) with
      program :=
        { hierarchy := {}
          stmts :=
            #[⟨0, 0, .assign (.var ⟨0, "a", .cls "A"⟩)
                (.call .static ⟨"A", "src", [], .cls "A"⟩ none [])⟩,
              ⟨1, 0, .assign (.var ⟨1, "b", .cls "A"⟩) (.var ⟨0, "a", .cls "A"⟩)⟩,
              ⟨2, 0, .retVoid⟩] } }
  sources := [0]

end Problem
end LeakTrace
