import LeakTrace.Proofs.Dispatch.Lookup

/-!
# Who calls whom

Call edges come from the class hierarchy and from the caller of the construction. They are recorded
one after another at both ends, each once, so **callers and callees are two tables of one relation**
(`Recorded`). For a dispatched call the hierarchy gives the methods that the subtypes of the
receiver's class have: own or inherited, and all of them. The methods that control can reach are the
closure of the entry points under this relation.
-/

namespace LeakTrace
open List Option

/-! ## Statements and their numbers -/

namespace Program

/-- Bodies list all statements in order, and statements and methods have their place as number. What
the statements jump to is free. -/
structure Regular (p : Program) : Prop extends p.Numbered where
  ids : ∀ n, (p.stmt n).id = n

variable {p q : Program}

theorem Built.regular (h : p.Built) : p.Regular where
  toNumbered := h.numbered
  ids := by
    refine h.of_steps (I := fun p => ∀ n, (p.stmt n).id = n) (fun _ => rfl) ?_ fun ih hM _ => hM.ids ih
    intro p q ih hstmts _ n
    rw [stmt_eq_getD, hstmts]
    exact ih n

end Program

/-! ## Recording call edges -/

namespace Graph
variable {α : Type}

/-- The two tables hold exactly the listed edges, at both ends and once. -/
structure Recorded (n k : Nat) (edges : List (StmtId × MethodId))
    (calls : Array (List MethodId) × Array (List StmtId)) : Prop where
  stmts : calls.1.size = n
  methods : calls.2.size = k
  callees_once : ∀ s : StmtId, (calls.1[s]?.getD []).Nodup
  callers_once : ∀ m : MethodId, (calls.2[m]?.getD []).Nodup
  callees : ∀ (s : StmtId) (m : MethodId), m ∈ calls.1[s]?.getD [] ↔ (s, m) ∈ edges
  callers : ∀ (s : StmtId) (m : MethodId), s ∈ calls.2[m]?.getD [] ↔ (s, m) ∈ edges

variable {n k : Nat} {edges l : List (StmtId × MethodId)}
  {calls : Array (List MethodId) × Array (List StmtId)}

theorem getD_replicate (n i : Nat) : (Array.replicate n ([] : List α))[i]?.getD [] = [] := by
  rw [Array.getElem?_replicate]
  split <;> rfl

theorem recorded_nil (n k : Nat) :
    Recorded n k [] (Array.replicate n [], Array.replicate k []) where
  stmts := Array.size_replicate
  methods := Array.size_replicate
  callees_once s := by simp [getD_replicate]
  callers_once m := by simp [getD_replicate]
  callees s m := by simp [getD_replicate]
  callers s m := by simp [getD_replicate]

theorem getD_modify_append {a : Array (List α)} {i : Nat} (hi : i < a.size) (x : α) (j : Nat) :
    (a.modify i (· ++ [x]))[j]?.getD [] =
      if i = j then a[j]?.getD [] ++ [x] else a[j]?.getD [] := by
  rw [Array.getElem?_modify]
  by_cases hij : i = j
  · subst hij
    simp [hi]
  · simp [hij]

theorem Recorded.addCall (h : Recorded n k edges calls) {e : StmtId × MethodId} (hs : e.1 < n)
    (hm : e.2 < k) : Recorded n k (edges ++ [e]) (addCall calls e) := by
  obtain ⟨s, m⟩ := e
  have hs : s < calls.1.size := h.stmts ▸ hs
  have hm : m < calls.2.size := h.methods ▸ hm
  unfold Graph.addCall
  dsimp only
  split
  · next hold =>
    -- The edge is there already.
    have hmem : (s, m) ∈ edges := (h.callees s m).mp (by simpa using hold)
    refine { h with callees := ?_, callers := ?_ }
    · intro s' m'
      rw [h.callees, mem_append, mem_singleton]
      grind
    · intro s' m'
      rw [h.callers, mem_append, mem_singleton]
      grind
  · next hnew =>
    have hnew : m ∉ calls.1[s]?.getD [] := by simpa using hnew
    have hnew' : s ∉ calls.2[m]?.getD [] := by
      rw [h.callers, ← h.callees]
      exact hnew
    refine
      { stmts := by simpa using h.stmts, methods := by simpa using h.methods, callees_once := ?_,
        callers_once := ?_, callees := ?_, callers := ?_ }
    · intro s'
      rw [getD_modify_append hs]
      split
      · next heq =>
        subst heq
        exact nodup_append.mpr ⟨h.callees_once s, by simp, by grind⟩
      · exact h.callees_once s'
    · intro m'
      rw [getD_modify_append hm]
      split
      · next heq =>
        subst heq
        exact nodup_append.mpr ⟨h.callers_once m, by simp, by grind⟩
      · exact h.callers_once m'
    · intro s' m'
      rw [getD_modify_append hs, mem_append, mem_singleton, Prod.mk.injEq, ← h.callees]
      by_cases hss : s = s'
      · simp [hss]
      · simp [hss, Ne.symm hss]
    · intro s' m'
      rw [getD_modify_append hm, mem_append, mem_singleton, Prod.mk.injEq, ← h.callers]
      by_cases hmm : m = m'
      · simp [hmm]
      · simp [hmm, Ne.symm hmm]

theorem Recorded.foldl (h : Recorded n k edges calls) (hl : ∀ e ∈ l, e.1 < n ∧ e.2 < k) :
    Recorded n k (edges ++ l) (l.foldl Graph.addCall calls) := by
  induction l generalizing edges calls with
  | nil => simpa using h
  | cons e rest ih =>
    obtain ⟨hs, hm⟩ := hl e mem_cons_self
    have hrest := ih (h.addCall hs hm) fun e' he' => hl e' (mem_cons_of_mem e he')
    rwa [append_assoc] at hrest

end Graph

/-! ## The edges of a program -/

namespace Program
variable {p : Program} {c : Call} {s : StmtId} {k : MethodId}

def callEdges (p : Program) : List (StmtId × MethodId) :=
  p.stmts.toList.flatMap fun s =>
    match s.call? with
    | some c => (p.targets c).map fun m => (s.id, m)
    | none => []

theorem mem_callEdges_iff (hp : p.Regular) :
    (s, k) ∈ p.callEdges ↔ s < p.stmts.size ∧ ∃ c, (p.stmt s).call? = some c ∧ k ∈ p.targets c := by
  have hstmt : ∀ x ∈ p.stmts, x.id < p.stmts.size ∧ p.stmt x.id = x := by
    intro x hx
    obtain ⟨i, hi⟩ := Array.mem_iff_getElem?.mp hx
    have hid : x.id = i := by
      have := hp.ids i
      rwa [stmt_eq_getD, hi] at this
    rw [hid, stmt_eq_getD, hi]
    exact ⟨(Array.getElem?_eq_some_iff.mp hi).1, rfl⟩
  simp only [callEdges, mem_flatMap, Array.mem_toList_iff]
  constructor
  · rintro ⟨x, hx, hedge⟩
    cases hc : x.call? with
    | none =>
      rw [hc] at hedge
      cases hedge
    | some c =>
      rw [hc] at hedge
      obtain ⟨m, hm, heq⟩ := List.mem_map.mp hedge
      cases heq
      obtain ⟨hlt, hx⟩ := hstmt x hx
      exact ⟨hlt, c, by rw [hx, hc], hm⟩
  · rintro ⟨hlt, c, hc, hk⟩
    refine ⟨p.stmt s, ?_, ?_⟩
    · rw [stmt_eq_getD, Array.getElem?_eq_getElem hlt]
      exact Array.getElem_mem hlt
    · rw [hc, hp.ids s]
      exact List.mem_map.mpr ⟨k, hk, rfl⟩

theorem FindsFirst.id_lt (hp : p.Numbered) {o sub : String} {m : Method}
    (h : p.FindsFirst o sub m) : m.id < p.methods.size := by
  obtain ⟨n, ⟨d, -, hm⟩, -⟩ := h
  obtain ⟨i, hi⟩ := Array.mem_iff_getElem?.mp hm.mem
  rw [(hp.owner i m hi).1]
  exact (Array.getElem?_eq_some_iff.mp hi).1

theorem mem_targets (h : k ∈ p.targets c) :
    ∃ o m, p.FindsFirst o c.method.subSignature m ∧ m.id = k := by
  have hdeclared : k ∈ ((p.inherited? c.method.owner c.method.subSignature).map (·.id)).toList →
      ∃ o m, p.FindsFirst o c.method.subSignature m ∧ m.id = k := by
    intro hk
    obtain ⟨m, hm, hid⟩ := map_eq_some_iff.mp (mem_toList.mp hk)
    exact ⟨_, m, inherited?_eq_some_iff.mp hm, hid⟩
  unfold targets at h
  dsimp only at h
  split at h
  · exact hdeclared h
  · exact hdeclared h
  all_goals
    split at h
    · exact hdeclared h
    · obtain ⟨o, -, hk⟩ := mem_filterMap.mp (mem_eraseDups.mp h)
      obtain ⟨m, hm, hid⟩ := map_eq_some_iff.mp hk
      exact ⟨o, m, inherited?_eq_some_iff.mp hm, hid⟩

theorem callEdges_lt (hp : p.Regular) :
    ∀ e ∈ p.callEdges, e.1 < p.stmts.size ∧ e.2 < p.methods.size := by
  rintro ⟨s, k⟩ he
  obtain ⟨hs, c, -, hk⟩ := (mem_callEdges_iff hp).mp he
  obtain ⟨o, m, hm, rfl⟩ := mem_targets hk
  exact ⟨hs, hm.id_lt hp.toNumbered⟩

/-- A dispatched call on a class below the root can enter what its subtypes have. -/
theorem mem_targets_iff (honce : p.hierarchy.DeclaredOnce)
    (hp : ∀ x ∈ p.methods, x.sig.Separate) (hc : c.method.Separate)
    (hkind : c.kind = .virtual ∨ c.kind = .interface) {b : Local} {r : String}
    (hbase : c.base = some b) (hty : b.ty = .cls r) (hr : r ≠ Ty.objectName)
    (hsome : ∃ d m, p.hierarchy.isSubtype d r ∧ p.Inherits d c.method.subSignature m) :
    k ∈ p.targets c ↔ ∃ d m, p.hierarchy.isSubtype d r ∧
      p.Inherits d c.method.subSignature m ∧ m.id = k := by
  have hreceiver : c.receiver = r := by simp [Call.receiver, hbase, hty, Ty.className?]
  have hfound : ∀ k, k ∈ ((p.hierarchy.subtypes c.receiver).filterMap fun o =>
        (p.inherited? o c.method.subSignature).map (·.id)).eraseDups ↔
      ∃ d m, p.hierarchy.isSubtype d r ∧ p.Inherits d c.method.subSignature m ∧ m.id = k := by
    intro k
    simp only [mem_eraseDups, mem_filterMap, hreceiver, map_eq_some_iff, inherited?_eq_some_iff,
      Hierarchy.mem_subtypes_iff honce, ← Hierarchy.isSubtype_iff hr, inherits_iff hc hp]
    constructor
    · rintro ⟨d, hd, m, hm, hid⟩
      exact ⟨d, m, hd, hm, hid⟩
    · rintro ⟨d, m, hd, hm, hid⟩
      exact ⟨d, hd, m, hm, hid⟩
  rw [← hfound]
  have htargets : p.targets c = ((p.hierarchy.subtypes c.receiver).filterMap fun o =>
      (p.inherited? o c.method.subSignature).map (·.id)).eraseDups := by
    obtain ⟨d, m, hd, hm⟩ := hsome
    have hmem := (hfound m.id).mpr ⟨d, m, hd, hm, rfl⟩
    unfold targets
    rcases hkind with hkind | hkind
    all_goals
      rw [hkind]
      dsimp only
      split
      · next hnil =>
        rw [hnil] at hmem
        cases hmem
      · rfl
  rw [htargets]

end Program

namespace Graph
variable {p : Program} {extra : List (StmtId × MethodId)} {s : StmtId} {k : MethodId}

/-- The graph can be built: extra edges lead from statements of the program to its methods. -/
def InRange (p : Program) (extra : List (StmtId × MethodId)) : Prop :=
  ∀ e ∈ extra, e.1 < p.stmts.size ∧ e.2 < p.methods.size

theorem recorded_ofProgram (hp : p.Regular) (hextra : InRange p extra) :
    Recorded p.stmts.size p.methods.size (p.callEdges ++ extra)
      ((ofProgram p extra).callees, (ofProgram p extra).callers) := by
  have hfold := (recorded_nil p.stmts.size p.methods.size).foldl (l := p.callEdges ++ extra) (by
    intro e he
    rcases mem_append.mp he with he | he
    · exact Program.callEdges_lt hp e he
    · exact hextra e he)
  exact hfold

/-- Some call statement of the first method can enter the second. -/
def Invokes (g : Graph) (m k : MethodId) : Prop := ∃ s ∈ g.callsWithin m, k ∈ g.calleesOf s

theorem leads_eq_invokes (g : Graph) :
    Leads (fun m => (g.callsWithin m).flatMap g.calleesOf) = Relation.ReflTransGen g.Invokes := by
  unfold Leads
  congr 1
  funext m k
  exact propext mem_flatMap

section
variable (hp : p.Regular) (hextra : InRange p extra)
include hp hextra

/-- Every edge is recorded at both ends, and starts at a call unless it is an extra one. -/
theorem mem_calleesOf_iff : k ∈ (ofProgram p extra).calleesOf s ↔
    (s < p.stmts.size ∧ ∃ c, (p.stmt s).call? = some c ∧ k ∈ p.targets c) ∨ (s, k) ∈ extra := by
  rw [← Program.mem_callEdges_iff hp, ← mem_append]
  exact (recorded_ofProgram hp hextra).callees s k

theorem calleesOf_lt (hk : k ∈ (ofProgram p extra).calleesOf s) : k < p.methods.size := by
  have hedge := ((recorded_ofProgram hp hextra).callees s k).mp hk
  rcases mem_append.mp hedge with hedge | hedge
  · exact (Program.callEdges_lt hp _ hedge).2
  · exact (hextra _ hedge).2

theorem stocks_calls (start : List MethodId) :
    Stocks (fun m => ((ofProgram p extra).callsWithin m).flatMap (ofProgram p extra).calleesOf)
      start (List.range p.methods.size ++ start) where
  holds m hm := mem_append_right _ hm
  closed m _ k hk := by
    obtain ⟨s, -, hk⟩ := mem_flatMap.mp hk
    exact mem_append_left _ (mem_range.mpr (calleesOf_lt hp hextra hk))

end

theorem reachable_eq_closure (hentries : p.entries ≠ []) : (ofProgram p extra).reachable = closure
    (fun m => ((ofProgram p extra).callsWithin m).flatMap (ofProgram p extra).calleesOf)
    (p.methods.size + p.entries.length) p.entries := by
  have hempty : p.entries.isEmpty = false := by simpa using hentries
  show reachableFrom p (ofProgram p extra).callees = _
  rw [reachableFrom, hempty]
  rfl

theorem mem_reachable_iff (hp : p.Regular) (hextra : InRange p extra) (hentries : p.entries ≠ [])
    {m : MethodId} : m ∈ (ofProgram p extra).reachable ↔
      ∃ e ∈ p.entries, Relation.ReflTransGen (ofProgram p extra).Invokes e m := by
  rw [reachable_eq_closure hentries, mem_closure_iff (stocks_calls hp hextra p.entries) (by simp),
    leads_eq_invokes]

end Graph

/-- An interface with two classes that implement it through a common superclass; one of them has
its own method. The caller knows the interface only. -/
def figures : Program :=
  let area (owner : String) : MethodRef := ⟨owner, "area", [], .int⟩
  let figure : Local := ⟨0, "figure", .cls "Figure"⟩
  ((((((Program.empty.addClass "Figure" { isInterface := true }).addClass "Shape"
      { superclass := some Ty.objectName, interfaces := ["Figure"] }).addClass "Square"
      { superclass := some "Shape", interfaces := ["Figure"] }).addClass "Disc"
      { superclass := some "Shape" }).addMethod (area "Shape") false false).addMethod
      (area "Square") false false).addMethod ⟨"App", "log", [], .void⟩ true false
    |>.openBody ⟨"App", "main", [], .void⟩ true [("figure", .cls "Figure")]
    |>.closeBody [.call ⟨.interface, area "Figure", some figure, []⟩, .retVoid] []
    |>.addEntry 3

/-- A class whose name goes on where another's ends, and a result that is named like the rest. -/
def namesakes : Program :=
  let text (owner : String) : MethodRef := ⟨owner, "text", [], .cls "B: int"⟩
  (((((Program.empty.addClass "A" { superclass := some Ty.objectName }).addClass "A: B"
      { superclass := some Ty.objectName }).addClass "C" { superclass := some "A" }).addMethod
      ⟨"A: B", "text", [], .int⟩ false false).addMethod (text "C") false false)
    |>.openBody ⟨"App", "main", [], .void⟩ true [("x", .cls "A")]
    |>.closeBody [.call ⟨.virtual, text "A", some ⟨0, "x", .cls "A"⟩, []⟩, .retVoid] []
    |>.addEntry 2

end LeakTrace
