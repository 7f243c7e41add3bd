import LeakTrace.Proofs.Dispatch.Callees
import LeakTrace.Proofs.Graph.Reads

/-!
# What a call can do to a static field

Whether a method reads or writes a static field, itself or through what it calls, is found by a
search over the call graph. **The answer is the existence of a chain of calls**: from the method
over methods that can be analysed to one with a statement that reads the field, however deep in an
expression, or assigns it. Here the search stops at its first find, and answers are remembered and
shared by all later questions; both change nothing, and neither do circles of calls.
-/

namespace LeakTrace
open List

/-! ## Accesses of a statement -/

inductive Access where
  | read
  | write
deriving DecidableEq

namespace Access

/-- A read stands at any depth of the statement, but what a method is entered with comes as a whole. -/
def By : Access → Stmt → Field → Prop
  | .read, s, f => s.Reads (.global f) ∧ s.action.entersWhole
  | .write, s, f => ∃ rhs, s.action = .assign (.global f) rhs

theorem global_mem_uses_iff {s : Stmt} {f : Field} : .global f ∈ s.uses ↔ Access.read.By s f := by
  by_cases hs : s.action.entersWhole
  · rw [Stmt.mem_uses_iff hs, By, and_iff_left hs]
  · refine iff_of_false ?_ fun h => hs h.2
    unfold Stmt.uses
    cases hact : s.action with
    | entry l rhs =>
      -- A static field has no parts, so this is another value.
      intro hmem
      cases mem_singleton.mp hmem
      exact hs (by rw [hact]; rfl)
    | _ => simp [hact, Action.entersWhole] at hs

def within : Access → Touched → List Field
  | .read => Touched.staticReads
  | .write => Touched.staticWrites

theorem mem_touched_iff (a : Access) (p : Program) (m : Method) (f : Field) :
    f ∈ a.within (p.touched m) ↔ ∃ s ∈ m.body, a.By (p.stmt s) f := by
  cases a with
  | read =>
    simp only [within, Program.touched, mem_flatMap, mem_filterMap, ← global_mem_uses_iff]
    grind
  | write =>
    simp only [within, By, Program.touched, mem_filterMap]
    grind

end Access

/-! ## Searching and remembering -/

/-- The walk of `closureFrom` that ends with its first find. -/
def findFrom {α : Type} [BEq α] (next : α → List α) (test : α → Bool) :
    Nat → List α → List α → Bool
  | 0, _, _ => false
  | n + 1, queue, seen =>
    match queue.dropWhile fun x => seen.contains x with
    | [] => false
    | x :: rest => test x || findFrom next test n (rest ++ next x) (seen ++ [x])

theorem any_closureFrom {α : Type} [BEq α] (next : α → List α) (test : α → Bool) (n : Nat)
    (queue seen : List α) : (closureFrom next n queue seen).any test =
      (seen.any test || findFrom next test n queue seen) := by
  induction n generalizing queue seen with
  | zero => simp [closureFrom, findFrom]
  | succ n ih =>
    unfold closureFrom findFrom
    cases queue.dropWhile fun x => seen.contains x with
    | nil => simp
    | cons x rest =>
      dsimp only
      rw [ih]
      simp [Bool.or_assoc]

/-- What is asked: whether a call of the method can access the static field. -/
structure StaticQuery where
  access : Access
  method : MethodId
  field : Field
deriving DecidableEq

namespace Graph
variable {p : Program} {extra : List (StmtId × MethodId)} {m k : MethodId} {g : Graph}

def follow (g : Graph) (m : MethodId) : List MethodId :=
  if (g.method m).isConcrete then (g.callsWithin m).flatMap g.calleesOf else []

def accesses (g : Graph) (q : StaticQuery) (m : MethodId) : Bool :=
  (g.method m).isConcrete && (q.access.within (g.touchedBy m)).contains q.field

/-- The search for a method with the access, up to the first. -/
def search (g : Graph) (q : StaticQuery) : Bool :=
  findFrom g.follow (g.accesses q) (g.program.methods.size + 1) [q.method] []

def answer (g : Graph) (q : StaticQuery) : Bool :=
  match q.access with
  | .read => g.readsStatic q.method q.field
  | .write => g.writesStatic q.method q.field

theorem search_eq_answer (g : Graph) (q : StaticQuery) : g.search q = g.answer q := by
  have hany : g.search q = (g.calledFrom q.method).any (g.accesses q) := by
    show _ = (closureFrom g.follow (g.program.methods.size + 1) [q.method] []).any (g.accesses q)
    rw [any_closureFrom]
    simp [search]
  obtain ⟨access, m, f⟩ := q
  cases access with
  | read => exact hany
  | write => exact hany

/-- Ask with the answers given so far, and remember the new one. -/
def ask (g : Graph) (given : List (StaticQuery × Bool)) (q : StaticQuery) :
    Bool × List (StaticQuery × Bool) :=
  match given.lookup q with
  | some found => (found, given)
  | none => (g.search q, (q, g.search q) :: given)

def askAll (g : Graph) (earlier : List StaticQuery) : List (StaticQuery × Bool) :=
  earlier.foldl (fun given q => (g.ask given q).2) []

/-- Every answer given so far is the one of a search. -/
def Remembers (g : Graph) (given : List (StaticQuery × Bool)) : Prop :=
  ∀ e ∈ given, e.2 = g.search e.1

theorem Remembers.ask {given : List (StaticQuery × Bool)} (h : g.Remembers given) (q : StaticQuery) :
    (g.ask given q).1 = g.search q ∧ g.Remembers (g.ask given q).2 := by
  unfold Graph.ask
  split
  · next found hfound =>
    obtain ⟨before, after, rfl, -⟩ := List.lookup_eq_some_iff.mp hfound
    exact ⟨h (q, found) (by simp), h⟩
  · refine ⟨rfl, ?_⟩
    intro e he
    rcases mem_cons.mp he with rfl | he
    · rfl
    · exact h e he

theorem remembers_askAll (g : Graph) (earlier : List StaticQuery) :
    g.Remembers (g.askAll earlier) :=
  List.foldlRecOn earlier _ (by simp [Remembers]) fun _ hgiven q _ => (hgiven.ask q).2

/-! ## Chains of calls -/

/-- Methods that can be analysed, each of which calls the next. -/
structure CallChain (g : Graph) (ms : List MethodId) : Prop where
  concrete : ∀ m ∈ ms, (g.method m).isConcrete = true
  calls : ms.IsChain g.Invokes

theorem mem_follow_iff : k ∈ g.follow m ↔ (g.method m).isConcrete ∧ g.Invokes m k := by
  unfold follow Invokes
  split <;> simp [*]

theorem leads_follow_iff : Leads g.follow m k ∧
    (g.method k).isConcrete ↔ ∃ ms, g.CallChain (m :: ms) ∧ (m :: ms).getLast? = some k := by
  constructor
  · rintro ⟨hleads, hk⟩
    induction hleads using Relation.ReflTransGen.head_induction_on with
    | refl => exact ⟨[], ⟨by simpa using hk, .singleton k⟩, rfl⟩
    | head hstep _ ih =>
      obtain ⟨ms, hchain, hlast⟩ := ih
      obtain ⟨hm, hcall⟩ := mem_follow_iff.mp hstep
      refine ⟨_ :: ms, ⟨?_, isChain_cons_cons.mpr ⟨hcall, hchain.calls⟩⟩, ?_⟩
      · simpa [hm] using hchain.concrete
      · simpa using hlast
  · rintro ⟨ms, hchain, hlast⟩
    induction ms generalizing m with
    | nil =>
      obtain rfl : m = k := by simpa using hlast
      exact ⟨.refl, hchain.concrete m (by simp)⟩
    | cons n ms ih =>
      obtain ⟨hcall, hcalls⟩ := isChain_cons_cons.mp hchain.calls
      obtain ⟨hleads, hk⟩ := ih
        ⟨fun x hx => hchain.concrete x (mem_cons_of_mem m hx), hcalls⟩ (by simpa using hlast)
      exact ⟨.head (mem_follow_iff.mpr ⟨hchain.concrete m (by simp), hcall⟩) hleads, hk⟩

theorem mem_calledFrom_iff (hp : p.Regular) (hextra : InRange p extra) :
    k ∈ (ofProgram p extra).calledFrom m ↔ Leads (ofProgram p extra).follow m k := by
  have hstock : Stocks (ofProgram p extra).follow [m] (List.range p.methods.size ++ [m]) := by
    have hcalls := stocks_calls hp hextra [m]
    refine ⟨hcalls.holds, ?_⟩
    intro x hx y hy
    exact hcalls.closed x hx y (mem_flatMap.mpr (mem_follow_iff.mp hy).2)
  show k ∈ closure (ofProgram p extra).follow (p.methods.size + 1) [m] ↔ _
  rw [mem_closure_iff hstock (by simp)]
  simp

theorem mem_touchedBy_iff (a : Access) (m : MethodId) (f : Field) :
    f ∈ a.within ((ofProgram p extra).touchedBy m) ↔
      ∃ s ∈ ((ofProgram p extra).method m).body, a.By ((ofProgram p extra).stmt s) f := by
  rw [touchedBy_ofProgram]
  exact a.mem_touched_iff p _ f

/-- Whatever was asked before, a call of a method can read (write) a static field iff a chain of
calls leads from it to a method with a statement that reads the field at some depth (assigns it).
The answer is the one of `readsStatic` (`writesStatic`). -/
theorem static_summary_exact (hp : p.Regular) (hextra : InRange p extra)
    (earlier : List StaticQuery) (q : StaticQuery) :
    let g := ofProgram p extra
    (g.ask (g.askAll earlier) q).1 = g.answer q ∧
    (g.answer q = true ↔ ∃ ms k, g.CallChain (q.method :: ms) ∧ (q.method :: ms).getLast? = some k ∧
      ∃ s ∈ (g.method k).body, q.access.By (g.stmt s) q.field) := by
  intro g
  have hasked := ((g.remembers_askAll earlier).ask q).1
  refine ⟨hasked.trans (g.search_eq_answer q), ?_⟩
  have hany : g.answer q ↔ ∃ k ∈ g.calledFrom q.method, (g.method k).isConcrete ∧
      q.field ∈ q.access.within (g.touchedBy k) := by
    obtain ⟨access, m, f⟩ := q
    cases access <;> simp [answer, readsStatic, writesStatic, Access.within]
  rw [hany]
  constructor
  · rintro ⟨k, hk, hconcrete, hf⟩
    obtain ⟨ms, hchain, hlast⟩ :=
      leads_follow_iff.mp ⟨(mem_calledFrom_iff hp hextra).mp hk, hconcrete⟩
    exact ⟨ms, k, hchain, hlast, (mem_touchedBy_iff q.access k q.field).mp hf⟩
  · rintro ⟨ms, k, hchain, hlast, haccess⟩
    obtain ⟨hleads, hconcrete⟩ := leads_follow_iff.mpr ⟨ms, hchain, hlast⟩
    exact ⟨k, (mem_calledFrom_iff hp hextra).mpr hleads, hconcrete,
      (mem_touchedBy_iff q.access k q.field).mpr haccess⟩

end Graph

def tallyTotal : Field := ⟨"Tally", "total", .int, true⟩

/-- Two methods that call each other. The second reads the field inside the index of the array
element that it assigns. -/
def tally : Program :=
  let method (name : String) : MethodRef := ⟨"Tally", name, [], .void⟩
  let slots : Local := ⟨0, "slots", .array .int⟩
  Program.empty.addClass "Tally" { superclass := some Ty.objectName }
    |>.openBody (method "main") true []
    |>.closeBody [.call ⟨.static, method "mark", none, []⟩, .retVoid] []
    |>.openBody (method "mark") true [("slots", .array .int)]
    |>.closeBody [.assign (.element slots (.binary .add (.global tallyTotal) (.const (.int 1))))
      (.const (.int 0)), .call ⟨.static, method "main", none, []⟩, .retVoid] []

/-- The read is found through the call and after other questions; nothing writes the field. -/
theorem tally_static_summary :
    let g := Graph.ofProgram tally []
    let given := g.askAll [⟨.write, 0, tallyTotal⟩, ⟨.read, 1, tallyTotal⟩]
    (g.ask given ⟨.read, 0, tallyTotal⟩).1 = true ∧
      (g.ask given ⟨.write, 0, tallyTotal⟩).1 = false := by
  intro g given
  have hbuilt : tally.Built := .addBody _ _ _ _ _ (.addBody _ _ _ _ _ (.addClass _ _ .empty))
  have hextra : Graph.InRange tally [] := forall_mem_nil _
  have hsummary := Graph.static_summary_exact hbuilt.regular hextra
    [⟨.write, 0, tallyTotal⟩, ⟨.read, 1, tallyTotal⟩]
  refine ⟨?_, ?_⟩
  · obtain ⟨hasked, hanswer⟩ := hsummary ⟨.read, 0, tallyTotal⟩
    have hchain : g.CallChain [0, 1] := by
      refine ⟨by decide +kernel, isChain_cons_cons.mpr ⟨?_, .singleton 1⟩⟩
      exact ⟨0, by decide +kernel, by decide +kernel⟩
    refine hasked.trans (hanswer.mpr ⟨[1], 1, hchain, rfl, 2, by decide +kernel, ?_⟩)
    refine ⟨.inl ⟨.binary .add (.global tallyTotal) (.const (.int 1)), ?_, ?_⟩, rfl⟩
    · exact .tail _ (.head _)
    · exact .single (.head _)
  · exact (hsummary ⟨.write, 0, tallyTotal⟩).1.trans (by decide +kernel)

end LeakTrace
