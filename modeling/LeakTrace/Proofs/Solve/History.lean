import LeakTrace.Proofs.Solve.Tables
import LeakTrace.Proofs.Solve.Trace
import Mathlib.Data.Set.Basic

/-!
# The links between facts

The history of a fact is found by following two kinds of links: to the fact it was derived from, and
to the facts that arrived where it was stored already. `World.LeadsBack` is that search as a
relation. Links are only ever added, so what leads back somewhere does so for the rest of a run.

**Facts are told apart by number.** A fact that arrives where one with its number is stored is taken
to be that fact, and gets no link. This loses nothing as long as numbers are given out once:
`World.Populated` is that discipline, for a set of facts that exist.
-/

namespace LeakTrace

/-! ## Links -/

/-- The first fact is the second or was derived from it, over any number of derivations. -/
inductive Fact.StemsFrom : Fact → Fact → Prop
  | refl (f : Fact) : StemsFrom f f
  | step {g p f : Fact} : g.pred = some p → StemsFrom p f → StemsFrom g f

/-- The second fact is in the history of the first. -/
inductive World.LeadsBack (w : World) : Fact → Fact → Prop
  | refl (f : Fact) : LeadsBack w f f
  | pred {f p g : Fact} : f.pred = some p → LeadsBack w p g → LeadsBack w f g
  | neighbor {f n g : Fact} : n ∈ w.neighborsOf f → LeadsBack w n g → LeadsBack w f g

/-- The origins of the facts in the history of `f`. -/
def World.origins (w : World) (f : Fact) : Set Origin :=
  {o | ∃ g, w.LeadsBack f g ∧ g.origin = some o}

/-- The facts that exist: no two have one number, numbers that are still to be given out are free,
and the histories of facts are made of facts that exist. -/
structure World.Populated (w : World) (H : Set Fact) : Prop where
  unique : ∀ f ∈ H, ∀ g ∈ H, f.id = g.id → f = g
  known : ∀ f ∈ H, f.id < w.nextId
  pred : ∀ f ∈ H, ∀ p, f.pred = some p → p ∈ H
  neighbors : ∀ f, ∀ n ∈ w.neighborsOf f, n ∈ H

namespace World
variable {w w' : World} {f g h o n : Fact} {H : Set Fact} {merge : Bool}

theorem LeadsBack.trans (hfg : w.LeadsBack f g) (hgh : w.LeadsBack g h) : w.LeadsBack f h := by
  induction hfg with
  | refl f => exact hgh
  | pred hp _ ih => exact .pred hp (ih hgh)
  | neighbor hn _ ih => exact .neighbor hn (ih hgh)

theorem LeadsBack.mono (hfg : w.LeadsBack f g)
    (hw : ∀ f n, n ∈ w.neighborsOf f → n ∈ w'.neighborsOf f) : w'.LeadsBack f g := by
  induction hfg with
  | refl f => exact .refl f
  | pred hp _ ih => exact .pred hp ih
  | neighbor hn _ ih => exact .neighbor (hw _ _ hn) ih

theorem LeadsBack.of_stemsFrom (hfg : f.StemsFrom g) : w.LeadsBack f g := by
  induction hfg with
  | refl f => exact .refl f
  | step hp _ ih => exact .pred hp ih

theorem LeadsBack.stemsFrom (hw : ∀ f, w.neighborsOf f = []) (hfg : w.LeadsBack f g) :
    f.StemsFrom g := by
  induction hfg with
  | refl f => exact .refl f
  | pred hp _ ih => exact .step hp ih
  | neighbor hn _ _ =>
    rw [hw] at hn
    cases hn

theorem neighborsOf_insert (w : World) (f o : Fact) (g : Fact) :
    ({ w with neighbors := w.neighbors.insert f.id (w.neighborsOf f ++ [o]) } : World).neighborsOf g =
      if f.id = g.id then w.neighborsOf g ++ [o] else w.neighborsOf g := by
  unfold neighborsOf
  simp only [Index.getElem?_insert]
  split
  · next hid => simp [hid]
  · rfl

theorem nextId_addNeighbor (w : World) (f o : Fact) (merge : Bool) :
    (w.addNeighbor f o merge).2.nextId = w.nextId := by
  dsimp only [addNeighbor]
  split <;> rfl

theorem mem_neighborsOf_addNeighbor (hn : n ∈ w.neighborsOf g) :
    n ∈ (w.addNeighbor f o merge).2.neighborsOf g := by
  dsimp only [addNeighbor]
  split
  · exact hn
  · dsimp only
    rw [neighborsOf_insert]
    split
    · exact List.mem_append_left _ hn
    · exact hn

theorem eq_or_mem_of_mem_addNeighbor (hn : n ∈ (w.addNeighbor f o merge).2.neighborsOf g) :
    n = o ∨ n ∈ w.neighborsOf g := by
  dsimp only [addNeighbor] at hn
  split at hn
  · exact .inr hn
  · dsimp only at hn
    rw [neighborsOf_insert] at hn
    split at hn
    · rcases List.mem_append.mp hn with hn | hn
      · exact .inr hn
      · exact .inl (List.mem_singleton.mp hn)
    · exact .inr hn

theorem Populated.addNeighbor (hw : w.Populated H) (ho : o ∈ H) :
    (w.addNeighbor f o merge).2.Populated H where
  unique := hw.unique
  known g hg := by
    rw [nextId_addNeighbor]
    exact hw.known g hg
  pred := hw.pred
  neighbors g n hn := by
    rcases eq_or_mem_of_mem_addNeighbor hn with rfl | hn
    · exact ho
    · exact hw.neighbors g n hn

theorem addNeighbor_cases (w : World) (f o : Fact) : f.id = o.id ∨
    (∃ n ∈ w.neighborsOf f, n.id = o.id) ∨ (w.addNeighbor f o false).2 =
      { w with neighbors := w.neighbors.insert f.id (w.neighborsOf f ++ [o]) } := by
  dsimp only [World.addNeighbor]
  split
  case isFalse => exact .inr (.inr rfl)
  case isTrue hknown =>
    rcases (Bool.or_eq_true _ _).mp hknown with hsame | hany
    · exact .inl (by simpa [Fact.is] using hsame)
    · obtain ⟨n, hn, hno⟩ := List.any_eq_true.mp hany
      exact .inr (.inl ⟨n, hn, by simpa [Fact.is] using hno⟩)

/-- A fact that becomes a neighbour is led back to, also where it was known before. -/
theorem Populated.leadsBack_addNeighbor (hw : w.Populated H) (hf : f ∈ H) (ho : o ∈ H) :
    (w.addNeighbor f o false).2.LeadsBack f o := by
  rcases w.addNeighbor_cases f o with hid | ⟨n, hn, hid⟩ | heq
  · exact hw.unique f hf o ho hid ▸ .refl f
  · obtain rfl := hw.unique n (hw.neighbors f n hn) o ho hid
    exact .neighbor (mem_neighborsOf_addNeighbor hn) (.refl n)
  · refine .neighbor ?_ (.refl o)
    rw [heq, neighborsOf_insert, if_pos rfl]
    exact List.mem_append_right _ List.mem_cons_self

end World

/-! ## Problems whose facts have histories -/

/-- In a world where the facts `H` exist, the flow function only adds facts and links. What it hands
out exists, and stems from `f` unless `f` is the zero fact. It asks nothing of a solver. -/
structure Track.HandsOn (act : Track Flow) (env : Env) (w : World) (H : Set Fact) (f : Fact) :
    Prop where
  populated : ∃ H', H ⊆ H' ∧ ((act.run env).run w).2.Populated H' ∧
    ∀ g ∈ ((act.run env).run w).1.facts, g ∈ H'
  neighbors : ∀ f n, n ∈ w.neighborsOf f → n ∈ ((act.run env).run w).2.neighborsOf f
  stems : f.is env.zero = false → ∀ g ∈ ((act.run env).run w).1.facts, g.StemsFrom f
  contexts : ((act.run env).run w).1.contexts = []
  outbox : ((act.run env).run w).2.outbox = w.outbox

/-- The flow function hands on the history of `f` wherever its inputs exist. -/
def Track.Inherits (act : Track Flow) (env : Env) (inputs : List Fact) (f : Fact) : Prop :=
  ∀ w H, w.Populated H → env.zero ∈ H → (∀ g ∈ inputs, g ∈ H) → act.HandsOn env w H f

/-- All flow functions of the problem hand on histories. -/
structure Problem.Inherits (p : Problem) (env : Env) : Prop where
  normal : ∀ d1 f n t, (p.normal d1 f n t).Inherits env [d1, f] f
  call : ∀ d1 f n callee, (p.call d1 f n callee).Inherits env [d1, f] f
  ret : ∀ call callee exit site f d3 contexts,
    (p.ret call callee exit site f d3 contexts).Inherits env (f :: d3 :: contexts) f
  callToReturn : ∀ d1 f n site, (p.callToReturn d1 f n site).Inherits env [d1, f] f
  /-- No method is entered with the zero fact. -/
  call_ne_zero : ∀ d1 f n callee w, ∀ g ∈ (((p.call d1 f n callee).run env).run w).1.facts,
    g.toTaint ≠ env.zero.toTaint

structure View.WithinMethods (v : View) (g : Graph) : Prop where
  succs : ∀ n, ∀ t ∈ v.succs n, g.methodOf t = g.methodOf n
  starts : ∀ m, ∀ n ∈ v.starts m, g.methodOf n = m

/-- Nothing is dropped on purpose: no limits, no merging of neighbours, no observers. -/
structure Setup.Inherits (s : Setup) : Prop where
  watch : s.watch = {}
  maxJoin : s.env.config.solver.maxJoin = none
  maxPathLength : s.env.config.solver.maxPathLength = none
  mergeNeighbors : s.env.config.solver.mergeNeighbors = false
  zero_pred : s.env.zero.pred = none
  problem : ∀ side, (s.problem side).Inherits s.env
  within : ∀ side, (s.problem side).view.WithinMethods s.env.graph

theorem Fact.StemsFrom.ne_zero {s : Setup} {f g : Fact} (hfg : g.StemsFrom f) (hs : s.Inherits)
    (hf : f ≠ s.env.zero) : g ≠ s.env.zero := by
  cases hfg with
  | refl => exact hf
  | step hp _ =>
    rintro rfl
    rw [hs.zero_pred] at hp
    cases hp

namespace Machine
variable {s : Setup} {m m' m'' : Machine} {H H' : Set Fact} {side : Side} {log : List (Side × Edge)}
  {n exit : StmtId} {f g : Fact} {callee : MethodId} {d3 : Taint}

/-! ## Stored facts -/

def stored? (m : Machine) (side : Side) (k : Edge.Key) : Option Fact := (m.table side).index[k]?

/-- The fact stored for an edge leads back to the given one. -/
def StoredBack (m : Machine) (side : Side) (k : Edge.Key) (f : Fact) : Prop :=
  ∃ g, m.stored? side k = some g ∧ m.world.LeadsBack g f

/-- The second machine stores what the first does, and has all its links. -/
structure Extends (m m' : Machine) : Prop where
  stored : ∀ {side k f}, m.stored? side k = some f → m'.stored? side k = some f
  neighbors : ∀ f n, n ∈ m.world.neighborsOf f → n ∈ m'.world.neighborsOf f

namespace Extends

theorem refl (m : Machine) : m.Extends m := ⟨id, fun _ _ => id⟩

theorem trans (h : m.Extends m') (h' : m'.Extends m'') : m.Extends m'' :=
  ⟨fun hk => h'.stored (h.stored hk), fun f n hn => h'.neighbors f n (h.neighbors f n hn)⟩

theorem leadsBack (h : m.Extends m') (hfg : m.world.LeadsBack f g) : m'.world.LeadsBack f g :=
  hfg.mono h.neighbors

theorem storedBack (h : m.Extends m') {k : Edge.Key} (hk : m.StoredBack side k f) :
    m'.StoredBack side k f := by
  obtain ⟨g, hg, hback⟩ := hk
  exact ⟨g, h.stored hg, h.leadsBack hback⟩

theorem of_index (hindex : ∀ side, (m'.table side).index = (m.table side).index)
    (hn : ∀ f n, n ∈ m.world.neighborsOf f → n ∈ m'.world.neighborsOf f) : m.Extends m' := by
  refine ⟨fun hk => ?_, hn⟩
  unfold stored?
  rw [hindex]
  exact hk

end Extends

/-- The fact leads back to the start of the method of a statement, in the given context. -/
def Grounded (s : Setup) (m : Machine) (side : Side) (d1 : Taint) (n : StmtId) (f : Fact) : Prop :=
  f ≠ s.env.zero ∧ ∃ sp ∈ (s.problem side).view.starts (s.env.graph.methodOf n),
    ∃ g, m.stored? side (d1, sp, d1) = some g ∧ m.world.LeadsBack f g

theorem Grounded.mono {d1 : Taint} (h : Grounded s m side d1 n f) (hx : m.Extends m') :
    Grounded s m' side d1 n f := by
  obtain ⟨hf, sp, hsp, g, hg, hback⟩ := h
  exact ⟨hf, sp, hsp, g, hx.stored hg, hx.leadsBack hback⟩

/-- The edge is known with its own fact, and its facts exist. -/
structure AtWork (s : Setup) (H : Set Fact) (m : Machine) (side : Side) (e : Edge) : Prop where
  stored : m.stored? side e.key = some e.d2
  d1_mem : e.d1 ∈ H
  root : s.env.Identified e.d1

theorem AtWork.mono {e : Edge} (h : AtWork s H m side e) (hx : m.Extends m') (hH : H ⊆ H') :
    AtWork s H' m' side e :=
  ⟨hx.stored h.stored, hH h.d1_mem, h.root⟩

/-- The starts of the callee lead back to the fact that stands at a call. -/
def OpenedBy (s : Setup) (m : Machine) (side : Side) (callee : MethodId) (d3 : Taint) (f : Fact) :
    Prop :=
  f ≠ s.env.zero → ∀ sp ∈ (s.problem side).view.starts callee, m.StoredBack side (d3, sp, d3) f

theorem OpenedBy.mono (h : OpenedBy s m side callee d3 f) (hx : m.Extends m') :
    OpenedBy s m' side callee d3 f :=
  fun hf sp hsp => hx.storedBack (h hf sp hsp)

/-- What is needed to say that the callee was entered from the call in a context. -/
structure Context (s : Setup) (H : Set Fact) (m : Machine) (side : Side) (callee : MethodId)
    (d3 : Taint) (call : StmtId) (d4 : Fact) : Prop where
  mem : d4 ∈ H
  root : s.env.Identified d4
  ne_zero : d3 ≠ s.env.zero.toTaint
  opened : ∃ d2 f, m.stored? side (d4.toTaint, call, d2) = some f ∧ OpenedBy s m side callee d3 f

theorem Context.mono {call : StmtId} {d4 : Fact} (h : Context s H m side callee d3 call d4)
    (hx : m.Extends m') (hH : H ⊆ H') : Context s H' m' side callee d3 call d4 := by
  obtain ⟨hd4, hid, hd3, d2, f, hk, hback⟩ := h
  exact ⟨hH hd4, hid, hd3, d2, f, hx.stored hk, hback.mono hx⟩

/-- What is needed to say that the callee was left with a fact. -/
structure Exit (s : Setup) (m : Machine) (side : Side) (callee : MethodId) (d3 : Taint)
    (exit : StmtId) (f : Fact) : Prop where
  ne_zero : d3 ≠ s.env.zero.toTaint
  methodOf : s.env.graph.methodOf exit = callee
  stored : ∃ d2, m.stored? side (d3, exit, d2) = some f

theorem Exit.mono (h : Exit s m side callee d3 exit f) (hx : m.Extends m') :
    Exit s m' side callee d3 exit f :=
  ⟨h.ne_zero, h.methodOf, h.stored.imp fun _ => hx.stored⟩

structure Linked (s : Setup) (H : Set Fact) (m : Machine) : Prop where
  quiet : m.world.outbox = []
  live : m.executor.interrupted = false
  populated : m.world.Populated H
  zero_mem : s.env.zero ∈ H
  stored_mem : ∀ {side k f}, m.stored? side k = some f → f ∈ H
  tasks : ∀ {t}, t ∈ m.executor.queued → AtWork s H m t.side t.edge
  /-- What holds in a context leads back to where the method was entered in it. -/
  grounded : ∀ {side d1 n d2 f}, m.stored? side (d1, n, d2) = some f →
    d1 ≠ s.env.zero.toTaint → Grounded s m side d1 n f
  contexts : ∀ {side callee d3 call d4}, (m.table side).EnteredBy callee d3 call d4 →
    Context s H m side callee d3 call d4
  summaries : ∀ {side callee d3 exit f}, (m.table side).LeftBy callee d3 exit f →
    Exit s m side callee d3 exit f

namespace Linked
variable {e : Edge} {call : Option StmtId} {a : Unit}

section
variable (h : m.Linked s H)
include h

theorem grow {H' : Set Fact} (hx : m.Extends m') (hH : H ⊆ H') (hpop : m'.world.Populated H')
    (hquiet : m'.world.outbox = m.world.outbox)
    (hlive : m'.executor.interrupted = m.executor.interrupted)
    (hstored : ∀ {side k f}, m'.stored? side k = some f → m.stored? side k = some f ∨
      f ∈ H' ∧ (k.1 ≠ s.env.zero.toTaint → Grounded s m' side k.1 k.2.1 f))
    (htasks : ∀ {t}, t ∈ m'.executor.queued → t ∈ m.executor.queued ∨ AtWork s H' m' t.side t.edge)
    (hcontexts : ∀ {side callee d3 call d4}, (m'.table side).EnteredBy callee d3 call d4 →
      (m.table side).EnteredBy callee d3 call d4 ∨ Context s H' m' side callee d3 call d4)
    (hsummaries : ∀ {side callee d3 exit f}, (m'.table side).LeftBy callee d3 exit f →
      (m.table side).LeftBy callee d3 exit f ∨ Exit s m' side callee d3 exit f) :
    m'.Linked s H' where
  quiet := hquiet.trans h.quiet
  live := hlive.trans h.live
  populated := hpop
  zero_mem := hH h.zero_mem
  stored_mem hk := (hstored hk).elim (fun hold => hH (h.stored_mem hold)) (·.1)
  tasks ht := (htasks ht).elim (fun hold => (h.tasks hold).mono hx hH) id
  grounded hk hd := (hstored hk).elim (fun hold => (h.grounded hold hd).mono hx) (·.2 hd)
  contexts hent := (hcontexts hent).elim (fun hold => (h.contexts hold).mono hx hH) id
  summaries hleft := (hsummaries hleft).elim (fun hold => (h.summaries hold).mono hx) id

theorem of_like (hlike : m.Like m') (hH : H ⊆ H') (hpop : m'.world.Populated H')
    (hn : ∀ f n, n ∈ m.world.neighborsOf f → n ∈ m'.world.neighborsOf f) :
    m'.Linked s H' ∧ m.Extends m' := by
  have hx := Extends.of_index hlike.index hn
  refine ⟨h.grow hx hH hpop hlike.outbox hlike.interrupted (fun hk => .inl ?_) (fun ht => .inl ?_)
    (fun hent => .inl (hlike.enteredBy_iff.mp hent)) fun hleft =>
      .inl (hlike.leftBy_iff.mp hleft), hx⟩
  · rwa [stored?, hlike.index] at hk
  · rwa [hlike.queued] at ht

theorem eq_of_is (hf : f ∈ H) (hg : g ∈ H) (hid : f.is g) : f = g :=
  h.populated.unique f hf g hg (by simpa [Fact.is] using hid)

theorem is_zero_eq_false (hf : f ∈ H) (hz : f ≠ s.env.zero) : f.is s.env.zero = false := by
  by_contra hid
  exact hz (h.eq_of_is hf h.zero_mem (by simpa using hid))

end

/-! ## Propagating an edge -/

theorem join {stored other : Fact} (hs : s.Inherits) (h : m.Linked s H)
    (hst : stored ∈ H) (ho : other ∈ H) : m.Ends s (Work.join side stored other call) fun _ m' =>
    m'.Linked s H ∧ m.Extends m' ∧ m'.world.LeadsBack stored other := by
  unfold Work.join
  simp only [ends_bind, ends_read, ends_modify, hs.maxJoin, hs.mergeNeighbors, Option.all_none,
    Bool.or_true, Bool.not_true, Bool.or_false]
  split
  · next hid =>
    refine ⟨h, Extends.refl m, ?_⟩
    rw [h.eq_of_is hst ho hid]
    exact .refl _
  · have hback := h.populated.leadsBack_addNeighbor hst ho
    have hlike : m.Like { m with world := (m.world.addNeighbor stored other false).2 } :=
      .beside rfl rfl (World.outbox_addNeighbor _ _ _ _)
    have hcount : m.Like (({ m with world := (m.world.addNeighbor stored other false).2 } :
        Machine).modifyTable side fun t => { t with joined := t.joined + 1 }) :=
      hlike.modifyTable side fun _ => ⟨rfl, rfl, rfl⟩
    have hpop : (m.world.addNeighbor stored other false).2.Populated H := h.populated.addNeighbor ho
    have hn : ∀ f n, n ∈ m.world.neighborsOf f →
        n ∈ (m.world.addNeighbor stored other false).2.neighborsOf f :=
      fun _ _ => World.mem_neighborsOf_addNeighbor
    split
    · have hstep := h.of_like hcount subset_rfl (by simpa using hpop) (by simpa using hn)
      exact ⟨hstep.1, hstep.2, by simpa using hback⟩
    · have hstep := h.of_like hlike subset_rfl hpop hn
      exact ⟨hstep.1, hstep.2, hback⟩

section
variable (hlive : m.executor.interrupted = false)
  (hrun : (m.modifyTable side fun t => t.record e).run s (Work.schedule side e) = (.ok a, m'))
include hlive hrun

theorem eq_of_schedule :
    m' = { (m.modifyTable side fun t => t.record e).modifyTable side
      (fun t => { t with scheduled := t.scheduled + 1 }) with
        executor := m.executor.execute ⟨side, e⟩ } := by
  have hm : ((m.modifyTable side fun t => t.record e).run s (Work.schedule side e)).2 = m' := by
    rw [hrun]
  rw [← hm]
  change (if (m.modifyTable side _).executor.interrupted then _ else _) = _
  rw [executor_modifyTable, if_neg (by simp [hlive])]

theorem stored?_of_schedule (side' : Side) (k : Edge.Key) :
    m'.stored? side' k = if side' = side ∧ e.key = k then some e.d2 else m.stored? side' k := by
  rw [eq_of_schedule hlive hrun]
  change (((m.modifyTable side _).modifyTable side _).table side').index[k]? = _
  simp only [table_modifyTable]
  by_cases hside : side' = side
  · subst hside
    simp only [if_true, Table.record, Index.getElem?_insert, true_and]
    rfl
  · simp only [hside, if_false, false_and]
    rfl

theorem world_of_schedule : m'.world = m.world := by
  rw [eq_of_schedule hlive hrun]
  simp

end

/-- An edge that may be propagated: its facts exist, and in a context it is grounded or is itself
the start of a method. -/
structure Fit (s : Setup) (H : Set Fact) (m : Machine) (side : Side) (e : Edge) : Prop where
  d1_mem : e.d1 ∈ H
  d2_mem : e.d2 ∈ H
  root : s.env.Identified e.d1
  grounded : e.d1.toTaint ≠ s.env.zero.toTaint →
    Grounded s m side e.d1.toTaint e.stmt e.d2 ∨
      (e.d1 = e.d2 ∧ e.stmt ∈ (s.problem side).view.starts (s.env.graph.methodOf e.stmt))

variable (hs : s.Inherits) (h : m.Linked s H)
include hs h

theorem propagate (he : Fit s H m side e) : m.Ends s (Work.propagate side e call) fun _ m' =>
    m'.Linked s H ∧ m.Extends m' ∧ m'.StoredBack side e.key e.d2 := by
  unfold Work.propagate
  simp only [ends_bind, ends_read, hs.maxPathLength, Option.any_none, Bool.false_eq_true, if_false,
    ends_get]
  cases hfind : (m.table side).find? e with
  | some st =>
    refine (h.join hs (h.stored_mem hfind) he.d2_mem).mono ?_
    rintro _ m' ⟨hm', hx, hback⟩
    exact ⟨hm', hx, st, hx.stored hfind, hback⟩
  | none =>
    simp only [ends_bind, ends_modify]
    obtain ⟨_, m', hrun, hg⟩ := gains_record_schedule h.live
    have hstored := stored?_of_schedule h.live hrun
    have hworld := world_of_schedule h.live hrun
    refine ⟨_, m', hrun, ?_⟩
    have hx : m.Extends m' := by
      refine ⟨fun {side' k f} hk => ?_, fun f n hn => by rw [hworld]; exact hn⟩
      rw [hstored]
      split
      · next hnew =>
        obtain ⟨rfl, rfl⟩ := hnew
        rw [show m.stored? side' e.key = none from hfind] at hk
        cases hk
      · exact hk
    have hnew : m'.stored? side e.key = some e.d2 := by
      rw [hstored, if_pos ⟨rfl, rfl⟩]
    refine ⟨h.grow hx subset_rfl (hworld ▸ h.populated) hg.outbox hg.interrupted
      (fun {side' k f} hk => ?_) (fun {t} ht => ?_)
      (fun hent => .inl (hg.enteredBy_iff.mp hent)) fun hleft => .inl (hg.leftBy_iff.mp hleft), hx,
      e.d2, hnew, .refl _⟩
    · rw [hstored] at hk
      split at hk
      · next hkey =>
        obtain ⟨rfl, rfl⟩ := hkey
        cases hk
        refine .inr ⟨he.d2_mem, fun hd => ?_⟩
        rcases he.grounded hd with hgr | ⟨heq, hstart⟩
        · exact hgr.mono hx
        · refine ⟨?_, e.stmt, hstart, e.d2, ?_, .refl _⟩
          · rintro hz
            rw [Edge.key, heq, hz] at hd
            exact hd rfl
          · have hkey : e.key = (e.d1.toTaint, e.stmt, e.d1.toTaint) := by
              rw [Edge.key, ← heq]
            exact hkey ▸ hnew
      · exact .inl hk
    · rw [hg.queued] at ht
      rcases List.mem_cons.mp ht with rfl | ht
      · exact .inr ⟨hnew, he.d1_mem, he.root⟩
      · exact .inl ht

/-! ## Flow functions -/

theorem evaluate {kind : FlowKind} {act : Track Flow} {inputs : List Fact}
    (hact : act.Inherits s.env inputs f) (hin : ∀ g ∈ inputs, g ∈ H) :
    m.Ends s (Work.evaluate kind f act) fun flow m' => m.Extends m' ∧ ∃ H', H ⊆ H' ∧
      m'.Linked s H' ∧ flow = ((act.run s.env).run m.world).1 ∧ flow.contexts = [] ∧
      ∀ g ∈ flow.facts, g ∈ H' ∧ (f.is s.env.zero = false → g.StemsFrom f) := by
  have hon := hact m.world H h.populated h.zero_mem hin
  refine (ends_evaluate_quiet hs.watch (hon.outbox.trans h.quiet)).mono ?_
  rintro flow m' ⟨rfl, seen, rfl⟩
  obtain ⟨H', hH, hpop, hfacts⟩ := hon.populated
  have hlike : m.Like { m with world := ((act.run s.env).run m.world).2, seen } :=
    .beside rfl rfl hon.outbox
  obtain ⟨hm', hx⟩ := h.of_like hlike hH hpop hon.neighbors
  exact ⟨hx, H', hH, hm', rfl, hon.contexts, fun g hg => ⟨hfacts g hg, fun hf => hon.stems hf g hg⟩⟩

theorem returnFlow {site : Option StmtId} {d3 : Fact} {contexts : List Fact}
    (hin : ∀ g ∈ f :: d3 :: contexts, g ∈ H) :
    m.Ends s (Work.returnFlow side call callee exit site f d3 contexts) fun facts m' =>
      m.Extends m' ∧ ∃ H', H ⊆ H' ∧ m'.Linked s H' ∧
        ∀ g ∈ facts, g ∈ H' ∧ (f.is s.env.zero = false → g.StemsFrom f) := by
  unfold Work.returnFlow
  simp only [ends_bind, ends_read, ends_pure]
  refine (h.evaluate hs ((hs.problem side).ret call callee exit site f d3 contexts) hin).mono ?_
  rintro flow m' ⟨hx, H', hH, hm', -, -, hfacts⟩
  exact ⟨hx, H', hH, hm', hfacts⟩

end Linked

/-! ## What work hands on -/

/-- Every listed edge stores a fact that leads back to `f`, if that is not the zero fact. -/
def LogBack (s : Setup) (f : Fact) (log : List (Side × Edge)) (m : Machine) : Prop :=
  f ≠ s.env.zero → ∀ x ∈ log, m.StoredBack x.1 x.2.key f

/-- The machine has grown into a linked one, and the list is as it should be. -/
def Progress (s : Setup) (H : Set Fact) (f : Fact) (m : Machine) (log : List (Side × Edge))
    (m' : Machine) : Prop :=
  m.Extends m' ∧ (∃ H', H ⊆ H' ∧ m'.Linked s H') ∧ LogBack s f log m'

theorem LogBack.mono (h : LogBack s f log m) (hx : m.Extends m') : LogBack s f log m' :=
  fun hf x hx' => hx.storedBack (h hf x hx')

theorem Progress.after (h : Progress s H' f m' log m'') (hx : m.Extends m') (hH : H ⊆ H') :
    Progress s H f m log m'' := by
  obtain ⟨hx', ⟨H'', hH', hm''⟩, hlog⟩ := h
  exact ⟨hx.trans hx', ⟨H'', hH.trans hH', hm''⟩, hlog⟩

namespace Linked

theorem progress (h : m.Linked s H) (hlog : LogBack s f log m) : Progress s H f m log m :=
  ⟨.refl m, ⟨H, subset_rfl, h⟩, hlog⟩

theorem forM {β : Type} {l : List β} {F : β → Traced PUnit} (h : m.Linked s H)
    (hlog : LogBack s f log m)
    (hround : ∀ x ∈ l, ∀ log a H', m.Extends a → H ⊆ H' → a.Linked s H' → LogBack s f log a →
      a.Tells s (F x) log fun _ log' b => Progress s H' f a log' b) :
    m.Tells s (l.forM F) log fun _ => Progress s H f m := by
  have hloop := tells_forM (l := l) (f := F) (s := s) (m := m)
    (P := fun log a => (∃ H', H ⊆ H' ∧ a.Linked s H') ∧ LogBack s f log a)
    (R := Extends) (Q := fun _ _ => True) Extends.refl Extends.trans (fun _ _ => trivial) ?_
    ⟨⟨H, subset_rfl, h⟩, hlog⟩
  · exact hloop.mono fun _ log' m' ⟨⟨hH, hlog'⟩, hx, _⟩ => ⟨hx, hH, hlog'⟩
  · rintro x hx log a ⟨⟨H', hH, ha⟩, hlog'⟩ hxa
    refine (hround x hx log a H' hxa hH ha hlog').mono fun _ log'' b hb => ?_
    obtain ⟨hab, ⟨H'', hH', hb'⟩, hlogb⟩ := hb
    exact ⟨⟨⟨H'', hH.trans hH', hb'⟩, hlogb⟩, hab, trivial⟩

/-- Facts that came out of a flow function go on to an edge, in place of their input where they
repeat it. -/
theorem propagateAll {d1 x : Fact} {call : Option StmtId} {facts : FactSet} (hs : s.Inherits)
    (h : m.Linked s H) (hlog : LogBack s f log m) (hd1 : d1 ∈ H) (hroot : s.env.Identified d1)
    (hx : x ∈ H) (hfacts : ∀ g ∈ facts, g ∈ H ∧ (x.is s.env.zero = false → g.StemsFrom x))
    (hground : d1.toTaint ≠ s.env.zero.toTaint → Grounded s m side d1.toTaint n x)
    (hback : f ≠ s.env.zero → x ≠ s.env.zero ∧ m.world.LeadsBack x f) :
    m.Tells s (Traced.propagateAll side d1 n x call facts) log fun _ => Progress s H f m := by
  unfold Traced.propagateAll
  have hloop := tells_forM (l := facts) (s := s) (m := m)
    (f := fun g => Traced.propagate side ⟨d1, n, g.stored x⟩ call)
    (P := fun log a => a.Linked s H ∧ LogBack s f log a)
    (R := Extends) (Q := fun _ _ => True) Extends.refl Extends.trans (fun _ _ => trivial) ?_
    ⟨h, hlog⟩
  · exact hloop.mono fun _ log' m' ⟨⟨hm', hlog'⟩, hmm', _⟩ => ⟨hmm', ⟨H, subset_rfl, hm'⟩, hlog'⟩
  · rintro g hg log a ⟨ha, hloga⟩ hma
    obtain ⟨hgH, hstems⟩ := hfacts g hg
    have hmem : g.stored x ∈ H := Fact.stored_of hgH hx
    have hfrom (hz : x ≠ s.env.zero) : (g.stored x).StemsFrom x :=
      Fact.stored_of (P := (·.StemsFrom x)) (hstems (h.is_zero_eq_false hx hz)) (.refl x)
    have hfit : Fit s H a side ⟨d1, n, g.stored x⟩ := by
      refine ⟨hd1, hmem, hroot, fun hd => .inl ?_⟩
      obtain ⟨hz, sp, hsp, g0, hg0, hlead⟩ := (hground hd).mono hma
      exact ⟨(hfrom hz).ne_zero hs hz, sp, hsp, g0, hg0,
        (World.LeadsBack.of_stemsFrom (hfrom hz)).trans hlead⟩
    rw [tells_propagate]
    refine (ha.propagate hs hfit).mono fun _ b ⟨hb, hab, hstored⟩ => ?_
    refine ⟨⟨hb, fun hf y hy => ?_⟩, hab, trivial⟩
    rcases List.mem_cons.mp hy with rfl | hy
    · obtain ⟨hz, hlead⟩ := hback hf
      obtain ⟨g0, hg0, hlead0⟩ := hstored
      refine ⟨g0, hg0, hlead0.trans ?_⟩
      exact (World.LeadsBack.of_stemsFrom (hfrom hz)).trans ((hma.trans hab).leadsBack hlead)
    · exact hab.storedBack (hloga hf y hy)

end Linked
end Machine
end LeakTrace
