import LeakTrace.Solve.Engine

/-!
# What a data-flow problem means

A data-flow problem has a meaning that no table, queue or order of work enters: the **least** set of
path edges that holds what was given from outside and is closed under the rules of the graph.
`Derives` is that set, as an inductive predicate, one constructor for each rule.

**Contexts are derived too.** A fact leaves a method to the calls that entered it in the context of
the fact, so the rules derive two kinds of items, edges and contexts, each from the other.

**The flow functions are read as functions on what facts say.** `Problem.Follows p env F` states
that the problem `p` acts as the `Transfer` functions `F` do, whatever the world it runs in: the
facts that come out say exactly what `F` lists, nothing is asked of a solver and no context is
announced to the other one.
-/

namespace LeakTrace

/-! ## Problems as functions -/

/-- The four flow functions on what facts say; the contexts of a caller are no argument. -/
structure Transfer where
  normal : Taint → Taint → StmtId → StmtId → List Taint
  call : Taint → Taint → StmtId → MethodId → List Taint
  /-- Call, callee, exit, return site, fact and context of the callee. -/
  ret : Option StmtId → MethodId → StmtId → Option StmtId → Taint → Taint → List Taint
  callToReturn : Taint → Taint → StmtId → StmtId → List Taint

/-- The identity of the zero fact is not given to a fact that says something else. -/
def Env.Faithful (e : Env) (f : Fact) : Prop := f.is e.zero = true → f.toTaint = e.zero.toTaint

/-- The fact is the zero fact exactly if it says what the zero fact says. -/
def Env.Identified (e : Env) (f : Fact) : Prop := f.is e.zero = true ↔ f.toTaint = e.zero.toTaint

/-- Run in the world `w`, the flow function hands out exactly the listed taints and nothing else. -/
structure Track.Yields (act : Track Flow) (env : Env) (w : World) (taints : List Taint) : Prop where
  mem_iff : ∀ t, t ∈ ((act.run env).run w).1.facts.map (·.toTaint) ↔ t ∈ taints
  faithful : ∀ f ∈ ((act.run env).run w).1.facts, env.Faithful f
  contexts : ((act.run env).run w).1.contexts = []
  outbox : ((act.run env).run w).2.outbox = w.outbox

/-- The flow functions of the problem are the given functions of what facts say. -/
structure Problem.Follows (p : Problem) (env : Env) (F : Transfer) : Prop where
  normal : ∀ d1 f n t w, env.Faithful d1 → env.Faithful f →
    (p.normal d1 f n t).Yields env w (F.normal d1.toTaint f.toTaint n t)
  call : ∀ d1 f n callee w, env.Faithful d1 → env.Faithful f →
    (p.call d1 f n callee).Yields env w (F.call d1.toTaint f.toTaint n callee)
  ret : ∀ call callee exit site f d3 contexts w, env.Faithful f → env.Faithful d3 →
    (p.ret call callee exit site f d3 contexts).Yields env w
      (F.ret call callee exit site f.toTaint d3.toTaint)
  callToReturn : ∀ d1 f n site w, env.Faithful d1 → env.Faithful f →
    (p.callToReturn d1 f n site).Yields env w (F.callToReturn d1.toTaint f.toTaint n site)

/-! ## The least set -/

inductive Item where
  /-- The fact `d2` holds at a statement if `d1` holds at the start of its method. -/
  | edge (d1 : Taint) (n : StmtId) (d2 : Taint)
  /-- The callee was entered with `d3` from a call, in the context `d1` of the caller. -/
  | context (callee : MethodId) (d3 : Taint) (call : StmtId) (d1 : Taint)

/-- The least set of items that holds the given ones and is closed under the rules of the graph. -/
inductive Derives (s : Setup) (side : Side) (F : Transfer) (given : Item → Prop) : Item → Prop
  | given {i : Item} : given i → Derives s side F given i
  | normal {d1 d2 d : Taint} {n t : StmtId} :
    Derives s side F given (.edge d1 n d2) → s.env.graph.isCall n = false →
    t ∈ (s.problem side).view.succs n → d ∈ F.normal d1 d2 n t →
    Derives s side F given (.edge d1 t d)
  /-- What flows into a callee holds at its start, in its own context. -/
  | enter {d1 d2 d3 : Taint} {n sp : StmtId} {callee : MethodId} :
    Derives s side F given (.edge d1 n d2) → s.env.graph.isCall n = true →
    callee ∈ s.env.graph.calleesOf n → (s.env.method callee).isConcrete = true →
    d3 ∈ F.call d1 d2 n callee → sp ∈ (s.problem side).view.starts callee →
    Derives s side F given (.edge d3 sp d3)
  /-- The call is registered as a way into that context. -/
  | register {d1 d2 d3 : Taint} {n : StmtId} {callee : MethodId} :
    Derives s side F given (.edge d1 n d2) → s.env.graph.isCall n = true →
    callee ∈ s.env.graph.calleesOf n → (s.env.method callee).isConcrete = true →
    d3 ∈ F.call d1 d2 n callee →
    Derives s side F given (.context callee d3 n d1)
  | pass {d1 d2 d : Taint} {n site : StmtId} :
    Derives s side F given (.edge d1 n d2) → s.env.graph.isCall n = true →
    site ∈ (s.problem side).view.succs n → d ∈ F.callToReturn d1 d2 n site →
    Derives s side F given (.edge d1 site d)
  /-- Out of a method, into every registered context. -/
  | leave {d2 d3 d4 d5 : Taint} {n call site : StmtId} :
    Derives s side F given (.edge d3 n d2) → s.env.graph.isCall n = false →
    (s.problem side).view.isExit n = true →
    Derives s side F given (.context (s.env.graph.methodOf n) d3 call d4) →
    site ∈ (s.problem side).view.succs call →
    d5 ∈ F.ret (some call) (s.env.graph.methodOf n) n (some site) d2 d3 →
    Derives s side F given (.edge d4 site d5)
  /-- What is rooted in zero leaves to all callers, if returns past the seeds are followed. -/
  | unbalanced {d2 d5 : Taint} {n call site : StmtId} :
    Derives s side F given (.edge s.env.zero.toTaint n d2) → s.env.graph.isCall n = false →
    (s.problem side).view.isExit n = true →
    s.env.config.solver.followReturnsPastSeeds = true →
    call ∈ s.env.graph.callersOf (s.env.graph.methodOf n) →
    site ∈ (s.problem side).view.succs call →
    d5 ∈ F.ret (some call) (s.env.graph.methodOf n) n (some site) d2 s.env.zero.toTaint →
    Derives s side F given (.edge s.env.zero.toTaint site d5)

/-! ## Runs -/

/-- What can happen next: a waiting task is worked on, or something arrives from outside. -/
inductive Move where
  | work (i : Nat)
  | seed (seeds : List StmtId)
  | edge (side : Side) (e : Edge)
  /-- Registers that a call entered a context. -/
  | context (side : Side) (callee : MethodId) (d3 : Fact) (call : StmtId) (d1 : Fact)

namespace Move

def apply (s : Setup) (m : Machine) : Move → Machine
  | .work i => m.step s i
  | .seed seeds => (m.run s (Work.seed seeds)).2
  | .edge side e => (m.run s (Work.addEdge side e)).2
  | .context side callee d3 call d1 => (m.run s (Work.enter side callee d3 call d1)).2

/-- What comes from outside is well-formed: roots are zero only as the zero fact itself, and no
context is entered with zero. -/
def Proper (env : Env) : Move → Prop
  | .work _ | .seed _ => True
  | .edge _ e => env.Identified e.d1 ∧ env.Faithful e.d2
  | .context _ _ d3 _ d1 => env.Identified d1 ∧ env.Faithful d3 ∧ d3.toTaint ≠ env.zero.toTaint

def Gives (env : Env) (side : Side) : Move → Item → Prop
  | .work _, _ => False
  | .seed seeds, i =>
    side = .forward ∧ ∃ n ∈ seeds, i = .edge env.zero.toTaint n env.zero.toTaint
  | .edge side' e, i => side = side' ∧ i = .edge e.d1.toTaint e.stmt e.d2.toTaint
  | .context side' callee d3 call d1, i =>
    side = side' ∧ i = .context callee d3.toTaint call d1.toTaint

end Move

/-- A run: moves one after the other, in any order and interleaving. -/
def Machine.follow (s : Setup) : List Move → Machine → Machine
  | [], m => m
  | a :: rest, m => follow s rest (a.apply s m)

end LeakTrace
