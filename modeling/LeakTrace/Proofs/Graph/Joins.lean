import LeakTrace.Proofs.Graph.Layout
import LeakTrace.Proofs.Graph.Postdominators

/-!
# Where the influence of a branch ends

`Graph.joinOf` reads a table that is filled method by method, and for each method by position in its
body. **Programs number their statements through, body after body**, whatever the bodies jump to,
so no entry of the table is written twice. In a body that jumps only inside itself the graph of
positions and the control-flow graph show each other the same steps, and what the postdominator
sets say about positions holds of statements.
-/

namespace LeakTrace
open List

/-! ## Numbering -/

namespace Program
variable {M : Method}

/-- Programs as they are put together, whatever their bodies jump to. -/
inductive Built : Program → Prop where
  | empty : Built .empty
  | addClass {p : Program} (name : String) (info : ClassInfo) : Built p → Built (p.addClass name info)
  | addMethod {p : Program} (sig : MethodRef) (isStatic isNative : Bool) :
    Built p → Built (p.addMethod sig isStatic isNative)
  | addBody {p : Program} (sig : MethodRef) (isStatic : Bool) (locals : List (String × Ty))
    (body : List Action) (traps : List Trap) :
    Built p → Built ((p.openBody sig isStatic locals).closeBody body traps)
  | addEntry {p : Program} (m : MethodId) : Built p → Built (p.addEntry m)

/-- The bodies list all statements in order, and each statement names the method that lists it. -/
structure Numbered (p : Program) : Prop where
  bodies : (p.methods.toList.map Method.body).flatten = List.range p.stmts.size
  owner : ∀ m, ∀ M ∈ p.methods[m]?, M.id = m ∧ ∀ n ∈ M.body, (p.stmt n).method = m

variable {p q : Program}

section
variable (h : p.Numbered)
include h

theorem Numbered.lt (hM : M ∈ p.methods) {n : StmtId} (hn : n ∈ M.body) : n < p.stmts.size := by
  rw [← mem_range, ← h.bodies]
  exact mem_flatten_of_mem (List.mem_map_of_mem (Array.mem_toList_iff.mpr hM)) hn

theorem Numbered.nodup (hM : M ∈ p.methods) : M.body.Nodup := by
  have hall : (p.methods.toList.map Method.body).flatten.Nodup := h.bodies ▸ nodup_range
  exact (nodup_flatten.mp hall).1 _ (List.mem_map_of_mem (Array.mem_toList_iff.mpr hM))

theorem Numbered.of_eq (hstmts : q.stmts = p.stmts) (hmethods : q.methods = p.methods) :
    q.Numbered := by
  have hstmt : ∀ n, q.stmt n = p.stmt n := fun n => by rw [stmt_eq_getD, hstmts, stmt_eq_getD]
  refine ⟨by rw [hmethods, hstmts, h.bodies], fun m M hM => ?_⟩
  rw [hmethods] at hM
  exact ⟨(h.owner m M hM).1, fun n hn => by rw [hstmt, (h.owner m M hM).2 n hn]⟩

theorem Opened.numbered {A : Action → Prop} (hq : p.Opened A q M) : q.Numbered := by
  refine ⟨?_, fun m M' hM' => ?_⟩
  · -- The last body is the first to have the numbers that are new.
    have hbodies : (q.methods.toList.map Method.body).flatten = range p.stmts.size ++ M.body := by
      simp [hq.methods, h.bodies]
    have hjoin := range'_append_1 (s := 0) (m := p.stmts.size) (n := q.stmts.size - p.stmts.size)
    rw [Nat.zero_add, Nat.add_sub_of_le hq.size, ← hq.body] at hjoin
    rw [hbodies, range_eq_range', range_eq_range', hjoin]
  · rw [hq.methods, Array.getElem?_push] at hM'
    split at hM'
    · next hm =>
      cases hM'
      exact ⟨hq.id.trans hm.symm, fun n hn => (hq.stmts n hn).2.trans hm.symm⟩
    · obtain ⟨hid, hbody⟩ := h.owner m M' hM'
      refine ⟨hid, fun n hn => ?_⟩
      rw [hq.stmt n (h.lt (Array.mem_of_getElem? hM') hn)]
      exact hbody n hn

end

/-- **What a program keeps.** Each step leaves statements and methods as they are or adds a method,
and a native one without a body. -/
theorem Built.of_steps {I : Program → Prop} (hempty : I .empty)
    (hsame : ∀ {p q}, I p → q.stmts = p.stmts → q.methods = p.methods → I q)
    (hopened : ∀ {p q M}, I p → p.Opened (fun _ => True) q M → (M.isNative = false ∨ M.body = []) →
      I q) (h : p.Built) : I p := by
  induction h with
  | empty => exact hempty
  | addClass name info _ ih => exact hsame ih rfl rfl
  | addMethod sig isStatic isNative _ ih =>
    exact hopened ih (opened_addMethod _ sig isStatic isNative) (.inr rfl)
  | @addBody p sig isStatic locals body traps _ ih =>
    obtain ⟨-, -, M, hM, hnative, -⟩ := opened_addBody p (A := fun _ => True) (fun _ => trivial)
      (fun _ _ => trivial) sig isStatic locals traps fun a (_ : a ∈ body) => trivial
    exact hopened ih hM (.inl hnative)
  | addEntry m _ ih => exact hsame ih rfl rfl

theorem Built.numbered (h : p.Built) : p.Numbered :=
  h.of_steps ⟨rfl, nofun⟩ (fun ih => ih.of_eq) fun ih hM _ => hM.numbered ih

end Program

/-! ## The tables -/

namespace Graph
variable {α : Type} {i : Nat} {l : List (Nat × α)} {a : Array α} {x : α}

theorem getElem?_foldl_set_of_notMem (hi : i ∉ l.map Prod.fst) :
    (l.foldl (fun a (s, e) => a.setIfInBounds s e) a)[i]? = a[i]? := by
  induction l generalizing a with
  | nil => rfl
  | cons y rest ih =>
    rw [map_cons, mem_cons, not_or] at hi
    rw [foldl_cons, ih hi.2, Array.getElem?_setIfInBounds_ne (Ne.symm hi.1)]

theorem getElem?_foldl_set (hl : (l.map Prod.fst).Nodup) (hi : i < a.size) (h : (i, x) ∈ l) :
    (l.foldl (fun a (s, e) => a.setIfInBounds s e) a)[i]? = some x := by
  induction l generalizing a with
  | nil => cases h
  | cons y rest ih =>
    obtain ⟨hy, hrest⟩ := nodup_cons.mp hl
    rcases mem_cons.mp h with rfl | h
    · rw [foldl_cons, getElem?_foldl_set_of_notMem hy, Array.getElem?_setIfInBounds_self_of_lt hi]
    · exact ih hrest (by simpa using hi) h

variable {p : Program} {extra : List (StmtId × MethodId)} {M : Method} {s : StmtId}

theorem map_fst_exits (p : Program) (M : Method) : (p.exits M).map Prod.fst = M.body := by
  have hlist : ∀ l, (p.exitsOfList M l).map Prod.fst = l := by
    intro l
    induction l with
    | nil => rfl
    | cons s rest ih => rw [Program.exitsOfList, map_cons, ih]
  exact hlist M.body

theorem map_fst_postdominators (p : Program) (M : Method) :
    (p.postdominators M).map Prod.fst = M.body := by
  unfold Program.postdominators
  rw [List.map_map]
  exact zipIdx_map_fst 0 M.body

theorem getElem?_table (hp : p.Numbered) {f : Method → List (StmtId × α)}
    (hf : ∀ M, (f M).map Prod.fst = M.body) (hM : M ∈ p.methods) {x0 : α} (hx : (s, x) ∈ f M) :
    ((p.methods.toList.flatMap f).foldl (fun a (s, e) => a.setIfInBounds s e)
      (Array.replicate p.stmts.size x0))[s]? = some x := by
  have hkeys : (p.methods.toList.flatMap f).map Prod.fst = List.range p.stmts.size := by
    rw [map_flatMap, ← hp.bodies, flatMap_def]
    exact congrArg _ (map_congr_left fun M _ => hf M)
  have hs : s ∈ M.body := hf M ▸ List.mem_map_of_mem (f := Prod.fst) hx
  refine getElem?_foldl_set (hkeys ▸ nodup_range) ?_
    (mem_flatMap.mpr ⟨M, Array.mem_toList_iff.mpr hM, hx⟩)
  rw [Array.size_replicate]
  exact hp.lt hM hs

variable (hp : p.Numbered) (hM : M ∈ p.methods)
include hp hM

theorem succs_ofProgram {x : Exits} (hx : (s, x) ∈ p.exits M) :
    (ofProgram p extra).forward.succs s = x.all :=
  congrArg (fun e : Option Exits => (e.getD ⟨[], []⟩).all)
    (getElem?_table hp (map_fst_exits p) hM hx)

theorem joinOf_ofProgram {d : Option StmtId} (hd : (s, d) ∈ p.postdominators M) :
    (ofProgram p extra).joinOf s = d.elim (.exit M.id) .stmt := by
  have hget : (ofProgram p extra).postdoms[s]? = some d :=
    getElem?_table hp (map_fst_postdominators p) hM hd
  have hs : s ∈ M.body :=
    map_fst_postdominators p M ▸ List.mem_map_of_mem (f := Prod.fst) hd
  obtain ⟨m, hm⟩ := Array.mem_iff_getElem?.mp hM
  have hmethod : (ofProgram p extra).methodOf s = M.id :=
    ((hp.owner m M hm).2 s hs).trans (hp.owner m M hm).1.symm
  rw [joinOf, hget, hmethod]
  cases d <;> rfl

end Graph

/-! ## Positions and statements -/

namespace Program
variable {p : Program} {extra : List (StmtId × MethodId)} {M : Method} {s t : StmtId} {i j : Nat}

/-- The successors of the statements of a body, as positions in it. -/
def positions (p : Program) (M : Method) : Array (List Nat) :=
  ((p.exits M).map fun (_, e) => e.all.filterMap fun t => M.body.toArray.idxOf? t).toArray

theorem size_positions (p : Program) (M : Method) : (p.positions M).size = M.body.length := by
  rw [positions, List.size_toArray, length_map, ← Graph.map_fst_exits p M, length_map]

theorem mem_next_positions : j ∈ Postdom.next (p.positions M) i ↔
    ∃ y ∈ (p.exits M)[i]?, ∃ t ∈ y.2.all, M.body.idxOf? t = some j := by
  simp only [Postdom.next, positions, getElem?_toArray, getElem?_map]
  cases (p.exits M)[i]? <;> simp

theorem lt_of_mem_next_positions (h : j ∈ Postdom.next (p.positions M) i) :
    j < (p.positions M).size := by
  obtain ⟨-, -, t, -, hj⟩ := mem_next_positions.mp h
  obtain ⟨hlt, -⟩ := idxOf?_eq_some_iff.mp hj
  rwa [size_positions]

theorem exists_exits (h : M.body[i]? = some s) : ∃ x, (p.exits M)[i]? = some (s, x) := by
  rw [← Graph.map_fst_exits p M, getElem?_map] at h
  obtain ⟨⟨s', x⟩, hx, rfl⟩ := Option.map_eq_some_iff.mp h
  exact ⟨x, hx⟩

theorem getElem?_of_idxOf? (h : M.body.idxOf? t = some j) : M.body[j]? = some t := by
  obtain ⟨hlt, ht, -⟩ := idxOf?_eq_some_iff.mp h
  exact List.getElem?_eq_some_iff.mpr ⟨hlt, ht⟩

variable (hp : p.Numbered) (hM : M ∈ p.methods)
  (htargets : ∀ n ∈ M.body, ∀ t ∈ (p.stmt n).action.target?, t ∈ M.body)
include hp hM htargets

variable (hhandlers : ∀ t ∈ M.traps, t.handler ∈ M.body)
include hhandlers

/-- In a body that jumps only inside itself, positions step as the statements on them do. -/
theorem Numbered.mirrors : Mirrors (Postdom.next (p.positions M))
    (Graph.ofProgram p extra).forward.succs fun i s => M.body[i]? = some s where
  forth := by
    intro i s hi j hj
    obtain ⟨x, hx⟩ := exists_exits (p := p) hi
    obtain ⟨y, hy, t, ht, htj⟩ := mem_next_positions.mp hj
    cases hx.symm.trans hy
    refine ⟨t, ?_, getElem?_of_idxOf? htj⟩
    rwa [Graph.succs_ofProgram hp hM (mem_of_getElem? hx)]
  back := by
    intro i s hi t ht
    obtain ⟨x, hx⟩ := exists_exits (p := p) hi
    have hmem := mem_of_getElem? hx
    rw [Graph.succs_ofProgram hp hM hmem] at ht
    have hbody := Method.mem_body_of_exits htargets hhandlers hmem t ht
    obtain ⟨j, hj⟩ := Option.isSome_iff_exists.mp (isSome_idxOf?.mpr hbody)
    exact ⟨j, mem_next_positions.mpr ⟨_, hx, t, ht, hj⟩, getElem?_of_idxOf? hj⟩
  left := by
    intro i j s hi hj
    obtain ⟨hlt, -⟩ := List.getElem?_eq_some_iff.mp hi
    exact (getElem?_inj hlt (hp.nodup hM)).mp (hi.trans hj.symm)
  right hs ht := Option.some.inj (hs.symm.trans ht)

/-- The entry of a statement in the table holds what is met first after it, or nothing. -/
theorem Numbered.joinOf_eq (hs : s ∈ M.body)
    (hreach : ∃ l, Leaves (Graph.ofProgram p extra).forward.succs s l) :
    ∃ o : Option StmtId, (Graph.ofProgram p extra).joinOf s = o.elim (.exit M.id) .stmt ∧
      ∀ d, o = some d ↔ MeetsFirst (Graph.ofProgram p extra).forward.succs s d := by
  obtain ⟨i, hi⟩ := mem_iff_getElem?.mp hs
  have hmirrors : Mirrors _ (Graph.ofProgram p extra).forward.succs _ :=
    hp.mirrors hM htargets hhandlers
  have hreach' := hmirrors.flip.reach hi hreach
  have hilt : i < (p.positions M).size := by
    rw [size_positions]
    exact (List.getElem?_eq_some_iff.mp hi).1
  have himmediate := fun q => Postdom.immediate?_eq_some_iff (p := q)
    (fun _ _ => lt_of_mem_next_positions) hilt hreach'
  refine ⟨_, Graph.joinOf_ofProgram hp hM
    (List.mem_map.mpr ⟨(s, i), mk_mem_zipIdx_iff_getElem?.mpr hi, rfl⟩), fun d => ?_⟩
  -- The table holds a position, and the answer is the statement on it.
  change (Postdom.immediate? (p.positions M).size (Postdom.sets (p.positions M)) i).bind
    (fun q => M.body.toArray[q]?) = some d ↔ _
  rw [Option.bind_eq_some_iff]
  constructor
  · rintro ⟨q, hq, hd⟩
    exact hmirrors.meetsFirst hi (by simpa using hd) hreach' ((himmediate q).mp hq)
  · intro hd
    obtain ⟨q, hq, -⟩ := hmirrors.flip.exists_unavoidable hi hreach hd.always
    exact ⟨q, (himmediate q).mpr (hmirrors.flip.meetsFirst hi hq hreach hd), by simpa using hq⟩

end Program

/-- The loop that finds the postdominators of a body ends by itself. Where the body jumps only inside
itself and an exit can be reached, the influence of a branch ends at the statement that all paths to
an exit meet first, and at the end of the method exactly if there is none. -/
theorem Graph.joinOf_meets_first {p : Program} (hp : p.Built) (extra : List (StmtId × MethodId))
    {M : Method} (hM : M ∈ p.methods) :
    (∃ k ≤ M.body.length * M.body.length,
      Postdom.sets (p.positions M) =
        (Postdom.sweep (p.positions M))^[k] (Postdom.start (p.positions M)) ∧
      Postdom.sweep (p.positions M) (Postdom.sets (p.positions M)) = Postdom.sets (p.positions M)) ∧
    ((∀ n ∈ M.body, ∀ t ∈ (p.stmt n).action.target?, t ∈ M.body) →
      (∀ t ∈ M.traps, t.handler ∈ M.body) →
      ∀ s ∈ M.body, (∃ l, Leaves (ofProgram p extra).forward.succs s l) →
        (∀ d, (ofProgram p extra).joinOf s = .stmt d ↔
          MeetsFirst (ofProgram p extra).forward.succs s d) ∧
        ((ofProgram p extra).joinOf s = .exit M.id ↔
          ¬ ∃ d, MeetsFirst (ofProgram p extra).forward.succs s d) ∧
        ((∃ d, MeetsFirst (ofProgram p extra).forward.succs s d) ↔
          ∃ d, d ≠ s ∧ Unavoidable (ofProgram p extra).forward.succs s d)) := by
  constructor
  · obtain ⟨k, hk, heq, hstable, -⟩ :=
      Postdom.sets_settled (S := p.positions M) fun _ _ => Program.lt_of_mem_next_positions
    rw [Program.size_positions] at hk
    exact ⟨k, hk, heq, hstable⟩
  · intro htargets hhandlers s hs hreach
    obtain ⟨o, ho, hmeets⟩ := hp.numbered.joinOf_eq hM htargets hhandlers hs hreach
    refine ⟨fun d => ?_, ?_, ⟨fun ⟨d, hd⟩ => ⟨d, hd.ne, hd.always⟩, fun ⟨d, hne, hd⟩ => ?_⟩⟩
    · rw [ho, ← hmeets d]
      cases o <;> simp
    · simp only [ho, ← hmeets]
      cases o <;> simp
    · exact hd.exists_meetsFirst hreach hne

/-- A loop, then a choice between a throw that is caught, and two ways to return. -/
def crossroads : Program :=
  let run : MethodRef := ⟨"App", "run", [], .void⟩
  let a : Value := .var ⟨0, "a", .int⟩
  (Program.empty.openBody run true [("a", .int)]).closeBody
    [.branch a 2, .jump 0, .branch a 4, .throw a, .branch a 6, .retVoid, .retVoid]
    [⟨3, 3, 5, .cls "java.lang.Exception"⟩]

/-- The loop ends the influence of its condition. What the choice decides is only over when the
method returns. -/
theorem crossroads_meets_first :
    let succs := (Graph.ofProgram crossroads []).forward.succs
    (Graph.ofProgram crossroads []).joinOf 0 = .stmt 2 ∧ MeetsFirst succs 0 2 ∧
      (Graph.ofProgram crossroads []).joinOf 2 = .exit 0 ∧ ¬ ∃ d, MeetsFirst succs 2 d := by
  intro succs
  have hM : crossroads.method 0 ∈ crossroads.methods := Array.mem_of_getElem? (i := 0) rfl
  have hjoins := (Graph.joinOf_meets_first (.addBody _ true _ _ _ .empty) [] hM).2
    (by decide) (by decide)
  have hleave : Leaves succs 2 [2, 4, 6] :=
    .step (j := 4) (by decide +kernel) (.step (j := 6) (by decide +kernel) (.stop (by decide +kernel)))
  have hloop := hjoins 0 (by decide) ⟨_, .step (j := 2) (by decide +kernel) hleave⟩
  have hchoice := hjoins 2 (by decide) ⟨_, hleave⟩
  have h0 : (Graph.ofProgram crossroads []).joinOf 0 = .stmt 2 := by decide +kernel
  have h2 : (Graph.ofProgram crossroads []).joinOf 2 = .exit 0 := by decide +kernel
  exact ⟨h0, (hloop.1 2).mp h0, h2, hchoice.2.1.mp h2⟩

end LeakTrace
