import LeakTrace.Graph.View

/-!
# How assembled programs are laid out

A program is assembled by declaring classes and methods one after another. Where the body that is
written for a method only jumps inside itself, **every statement belongs to the method whose body
lists it, and control flow never leaves that body**. While a method is written it is the last one,
and only it changes: that is `Opened`, which each step of the writing keeps.
-/

namespace LeakTrace
open List

variable {a : Action} {t : StmtId} {α : Type}

def Action.target? : Action → Option StmtId
  | .branch _ t | .jump t => some t
  | _ => none

theorem Action.target?_shift (n : Nat) (a : Action) :
    (a.shift n).target? = a.target?.map (n + ·) := by
  cases a <;> rfl

theorem Action.mem_successors {next : Option StmtId} (ht : t ∈ a.successors next) :
    t ∈ next ∨ t ∈ a.target? := by
  cases a with
  | jump u =>
    rw [mem_singleton.mp ht]
    exact .inr rfl
  | branch c u =>
    rcases mem_append.mp ht with ht | ht
    · exact .inl (Option.mem_toList.mp ht)
    · split at ht
      · cases ht
      · rw [mem_singleton.mp ht]
        exact .inr rfl
  | ret | retVoid | throw => cases ht
  | entry | assign | call | skip => exact .inl (Option.mem_toList.mp ht)

/-! ## Layout -/

/-- The body of the `m`-th method lists statements of that method, and control stays in it. Only
methods with a body have locals for what is handed to them. -/
structure Method.LaidOut (p : Program) (m : MethodId) (M : Method) : Prop where
  id : M.id = m
  bound : ∀ n ∈ M.body, n < p.stmts.size
  stmts : ∀ n ∈ M.body, (p.stmt n).method = m
  targets : ∀ n ∈ M.body, ∀ t ∈ (p.stmt n).action.target?, t ∈ M.body
  handlers : ∀ t ∈ M.traps, t.handler ∈ M.body
  self : ∀ l ∈ M.self, l ∈ M.locals
  params : ∀ l ∈ M.params, l ∈ M.locals
  handed : M.isConcrete = true ∨ M.self = none ∧ M.params = []

namespace Program

/-- Statements have their place as number, and all methods are laid out. -/
structure LaidOut (p : Program) : Prop where
  ids : ∀ n, (p.stmt n).id = n
  methods : ∀ m, ∀ M ∈ p.methods[m]?, Method.LaidOut p m M

/-- Programs as they are put together. Of a body that is written, targets and handlers are places in
that body. -/
inductive Assembled : Program → Prop where
  | empty : Assembled .empty
  | addClass {p : Program} (name : String) (info : ClassInfo) :
    Assembled p → Assembled (p.addClass name info)
  | addMethod {p : Program} (sig : MethodRef) (isStatic isNative : Bool) :
    Assembled p → Assembled (p.addMethod sig isStatic isNative)
  | addBody {p : Program} (sig : MethodRef) (isStatic : Bool) (locals : List (String × Ty))
    {body : List Action} {traps : List Trap}
    (targets : ∀ a ∈ body, ∀ t ∈ a.target?, t < body.length)
    (handlers : ∀ t ∈ traps, t.handler < body.length) :
    Assembled p → Assembled ((p.openBody sig isStatic locals).closeBody body traps)
  | addEntry {p : Program} (m : MethodId) : Assembled p → Assembled (p.addEntry m)

/-- The second program has the statements of the first, and maybe more. -/
structure Continues (p q : Program) : Prop where
  size : p.stmts.size ≤ q.stmts.size
  stmt : ∀ n < p.stmts.size, q.stmt n = p.stmt n

variable {p q : Program} {M : Method}

theorem stmt_eq_getD (p : Program) (n : StmtId) : p.stmt n = p.stmts[n]?.getD ⟨n, 0, .skip⟩ := rfl

theorem stmt_addStmt (q : Program) (a : Action) (n : StmtId) :
    (q.addStmt a).stmt n = if n = q.stmts.size then ⟨n, q.methods.size - 1, a⟩ else q.stmt n := by
  simp only [stmt_eq_getD, addStmt, Array.getElem?_push]
  split
  · next h =>
    subst h
    rfl
  · rfl

theorem size_addStmt (q : Program) (a : Action) : (q.addStmt a).stmts.size = q.stmts.size + 1 :=
  Array.size_push _

theorem Continues.laidOut {m : MethodId} (h : p.Continues q) (hM : M.LaidOut p m) :
    M.LaidOut q m where
  bound n hn := Nat.lt_of_lt_of_le (hM.bound n hn) h.size
  stmts n hn := by
    rw [h.stmt n (hM.bound n hn)]
    exact hM.stmts n hn
  targets n hn := by
    rw [h.stmt n (hM.bound n hn)]
    exact hM.targets n hn
  id := hM.id
  handlers := hM.handlers
  self := hM.self
  params := hM.params
  handed := hM.handed

theorem LaidOut.of_eq (h : p.LaidOut) (hstmts : q.stmts = p.stmts)
    (hmethods : q.methods = p.methods) : q.LaidOut := by
  have hstmt : ∀ n, q.stmt n = p.stmt n := fun n => by rw [stmt_eq_getD, hstmts, stmt_eq_getD]
  have hcontinues : p.Continues q := ⟨Nat.le_of_eq (congrArg _ hstmts.symm), fun n _ => hstmt n⟩
  refine ⟨fun n => ?_, fun m M hM => ?_⟩
  · rw [hstmt]
    exact h.ids n
  · rw [hmethods] at hM
    exact hcontinues.laidOut (h.methods m M hM)

/-! ## The method that is being written -/

/-- After the program `p` was complete one method is written, `M` so far, from actions with `A`. Its
receiver is none of its arguments, since they have other names. -/
structure Opened (p : Program) (A : Action → Prop) (q : Program) (M : Method) : Prop
    extends p.Continues q where
  methods : q.methods = p.methods.push M
  id : M.id = p.methods.size
  body : M.body = range' p.stmts.size (q.stmts.size - p.stmts.size)
  stmts : ∀ n ∈ M.body, (q.stmt n).id = n ∧ (q.stmt n).method = p.methods.size
  actions : ∀ n ∈ M.body, A (q.stmt n).action
  self : ∀ l ∈ M.self, l ∈ M.locals ∧ l.name = "this"
  params : ∀ l ∈ M.params, l ∈ M.locals ∧ l.name ≠ "this"
  handed : M.isConcrete = true ∨ M.self = none ∧ M.params = []

def Writing (p : Program) (A : Action → Prop) (q : Program) : Prop :=
  ∃ M, p.Opened A q M ∧ M.isNative = false

variable {A : Action → Prop}

theorem opened_addMethod (p : Program) (sig : MethodRef) (isStatic isNative : Bool) : p.Opened A
    (p.addMethod sig isStatic isNative) { id := p.methods.size, sig, isStatic, isNative } where
  size := Nat.le_refl _
  stmt _ _ := rfl
  methods := rfl
  id := rfl
  body := by simp [Program.addMethod]
  stmts := nofun
  actions := nofun
  self := nofun
  params := nofun
  handed := .inr ⟨rfl, rfl⟩

namespace Opened

theorem isConcrete_append {n : StmtId} (hnative : (!M.isNative)) :
    Method.isConcrete { M with body := M.body ++ [n] } := by
  simpa [Method.isConcrete, Method.hasBody] using hnative

section
variable (h : p.Opened A q M) {F : Method → Method}
include h

theorem mem_body {n : Nat} : n ∈ M.body ↔ p.stmts.size ≤ n ∧ n < q.stmts.size := by
  have hsize := h.size
  rw [h.body, mem_range'_1]
  omega

/-- Each statement was there before or is a new one. -/
theorem forall_stmt {P : StmtId → Stmt → Prop} (hp : ∀ n, P n (p.stmt n))
    (hnew : ∀ n ∈ M.body, P n (q.stmt n)) (n : Nat) : P n (q.stmt n) := by
  by_cases hn : n < q.stmts.size
  · rcases Nat.lt_or_ge n p.stmts.size with hold | hge
    · rw [h.stmt n hold]
      exact hp n
    · exact hnew n (h.mem_body.mpr ⟨hge, hn⟩)
  · have hnone := hp n
    have hsize := h.size
    rw [stmt_eq_getD, Array.getElem?_eq_none (by omega)] at hnone ⊢
    exact hnone

theorem forall_method {P : Method → Prop} (hp : ∀ M ∈ p.methods, P M) (hM : P M) :
    ∀ M ∈ q.methods, P M := by
  rw [h.methods]
  intro M' hM'
  rcases Array.mem_push.mp hM' with hM' | rfl
  · exact hp M' hM'
  · exact hM

theorem ids (hids : ∀ n, (p.stmt n).id = n) : ∀ n, (q.stmt n).id = n :=
  h.forall_stmt (P := fun n s => s.id = n) hids fun n hn => (h.stmts n hn).1

theorem modify_last (F : Method → Method) :
    q.methods.modify (q.methods.size - 1) F = p.methods.push (F M) := by
  rw [h.methods]
  grind

theorem describe (hid : (F M).id = M.id) (hbody : (F M).body = M.body)
    (hself : ∀ l ∈ (F M).self, l ∈ (F M).locals ∧ l.name = "this")
    (hparams : ∀ l ∈ (F M).params, l ∈ (F M).locals ∧ l.name ≠ "this")
    (hhanded : (F M).isConcrete ∨ (F M).self = none ∧ (F M).params = []) {k : Nat} : p.Opened A
    { q with localCount := k, methods := q.methods.modify (q.methods.size - 1) F } (F M) where
  size := h.size
  stmt := h.stmt
  methods := h.modify_last F
  id := hid.trans h.id
  body := hbody.trans h.body
  stmts := by
    rw [hbody]
    exact h.stmts
  actions := by
    rw [hbody]
    exact h.actions
  self := hself
  params := hparams
  handed := hhanded

theorem addLocal (name : String) (ty : Ty) : p.Opened A
    (q.addLocal name ty) { M with locals := M.locals ++ [⟨q.localCount, name, ty⟩] } :=
  h.describe (F := fun M => { M with locals := M.locals ++ [_] }) rfl rfl
    (fun l hl => (h.self l hl).imp_left (mem_append_left _))
    (fun l hl => (h.params l hl).imp_left (mem_append_left _)) h.handed

theorem addStmt (ha : A a) :
    p.Opened A (q.addStmt a) { M with body := M.body ++ [q.stmts.size] } := by
  have hsize := h.size
  have hlast : q.methods.size - 1 = p.methods.size := by simp [h.methods]
  have hbody : ∀ n, n ∈ M.body ++ [q.stmts.size] → (q.addStmt a).stmt n = q.stmt n ∧ n ∈ M.body ∨
      (q.addStmt a).stmt n = ⟨n, p.methods.size, a⟩ := by
    intro n hn
    rw [stmt_addStmt, ← hlast]
    rcases mem_append.mp hn with hn | hn
    · exact .inl ⟨if_neg (Nat.ne_of_lt (h.mem_body.mp hn).2), hn⟩
    · exact .inr (if_pos (mem_singleton.mp hn))
  refine
    { size := ?_, stmt := fun n hn => ?_, id := h.id, body := ?_,
      methods := h.modify_last fun M => { M with body := M.body ++ [_] },
      stmts := fun n hn => ?_, actions := fun n hn => ?_, self := h.self, params := h.params,
      handed := h.handed.imp_left fun hM => ?_ }
  · rw [size_addStmt]
    omega
  · rw [stmt_addStmt, if_neg (Nat.ne_of_lt (Nat.lt_of_lt_of_le hn hsize))]
    exact h.stmt n hn
  · rw [size_addStmt, Nat.succ_sub hsize, range'_1_concat, ← h.body, Nat.add_sub_of_le hsize]
  · rcases hbody n hn with ⟨hold, hn⟩ | hnew
    · rw [hold]
      exact h.stmts n hn
    · rw [hnew]
      exact ⟨rfl, rfl⟩
  · rcases hbody n hn with ⟨hold, hn⟩ | hnew
    · rw [hold]
      exact h.actions n hn
    · rw [hnew]
      exact ha
  · exact isConcrete_append (Bool.and_eq_true_iff.mp hM).2

variable (hnative : M.isNative = false)
include hnative

theorem bind (name : String) (ty : Ty) {rhs : Value} (hrhs : A (.entry ⟨q.localCount, name, ty⟩ rhs))
    (hF : ∀ M, (F M).id = M.id ∧ (F M).body = M.body ∧ (F M).locals = M.locals ∧
      (F M).isNative = M.isNative)
    (hself : ∀ M, ∀ l ∈ (F M).self, l ∈ M.self ∨ l = ⟨q.localCount, name, ty⟩ ∧ name = "this")
    (hparams : ∀ M, ∀ l ∈ (F M).params,
      l ∈ M.params ∨ l = ⟨q.localCount, name, ty⟩ ∧ name ≠ "this") :
    let q' := (q.addLocal name ty).addStmt (.entry ⟨q.localCount, name, ty⟩ rhs)
    p.Writing A { q' with methods := q'.methods.modify (q'.methods.size - 1) F } := by
  intro q'
  have hbound := (h.addLocal name ty).addStmt hrhs
  have hnew : (⟨q.localCount, name, ty⟩ : Local) ∈ M.locals ++ [⟨q.localCount, name, ty⟩] :=
    mem_append_right _ mem_cons_self
  refine ⟨_, hbound.describe (F := F) (hF _).1 (hF _).2.1 (fun l hl => ?_) (fun l hl => ?_)
    (.inl ?_), (hF _).2.2.2.trans hnative⟩
  · rw [(hF _).2.2.1]
    rcases hself _ l hl with hl | ⟨rfl, hname⟩
    · exact hbound.self l hl
    · exact ⟨hnew, hname⟩
  · rw [(hF _).2.2.1]
    rcases hparams _ l hl with hl | ⟨rfl, hname⟩
    · exact hbound.params l hl
    · exact ⟨hnew, hname⟩
  · rw [Method.isConcrete, Method.hasBody, (hF _).2.1, (hF _).2.2.2]
    exact isConcrete_append (by simp [hnative])

theorem addSelf (hok : ∀ l : Local, A (.entry l (.self l.ty))) (owner : String) :
    p.Writing A (q.addSelf owner) :=
  h.bind hnative "this" (.cls owner) (hok _) (F := fun M => { M with self := some _ })
    (fun _ => ⟨rfl, rfl, rfl, rfl⟩) (fun _ _ hl => .inr ⟨(Option.some.inj hl).symm, rfl⟩)
    fun _ _ hl => .inl hl

theorem addParam (hok : ∀ (l : Local) i, A (.entry l (.param i l.ty))) (index : Nat) (ty : Ty) :
    p.Writing A (q.addParam index ty) := by
  have hname : "p" ++ toString index ≠ "this" := by
    intro heq
    have hlist := congrArg String.toList heq
    simp at hlist
  refine h.bind hnative ("p" ++ toString index) ty (hok _ index)
    (F := fun M => { M with params := M.params ++ [_] })
    (fun _ => ⟨rfl, rfl, rfl, rfl⟩) (fun _ _ hl => .inl hl) fun _ _ hl => ?_
  exact (mem_append.mp hl).imp_right fun hl => ⟨mem_singleton.mp hl, hname⟩

end

theorem laidOut (h : p.Opened A q M) (hp : p.LaidOut)
    (htargets : ∀ a, A a → ∀ t ∈ a.target?, t ∈ M.body)
    (hhandlers : ∀ t ∈ M.traps, t.handler ∈ M.body) : q.LaidOut where
  ids := h.ids hp.ids
  methods m M' hM' := by
    rw [h.methods, Array.getElem?_push] at hM'
    split at hM'
    · next hm =>
      subst hm
      cases hM'
      exact
        { id := h.id
          bound := fun n hn => (h.mem_body.mp hn).2
          stmts := fun n hn => (h.stmts n hn).2
          targets := fun n hn => htargets _ (h.actions n hn)
          handlers := hhandlers
          self := fun l hl => (h.self l hl).1
          params := fun l hl => (h.params l hl).1
          handed := h.handed }
    · exact h.toContinues.laidOut (hp.methods m M' hM')

end Opened

theorem size_foldl_addStmt (base : Nat) (body : List Action) (q : Program) :
    (body.foldl (fun q a => q.addStmt (a.shift base)) q).stmts.size =
      q.stmts.size + body.length := by
  induction body generalizing q with
  | nil => rfl
  | cons a rest ih =>
    rw [foldl_cons, ih, size_addStmt, length_cons]
    omega

/-- **A body is written step by step**, first the entries for what is handed over. -/
theorem opened_addBody (p : Program) (hself : ∀ l : Local, A (.entry l (.self l.ty)))
    (hparam : ∀ (l : Local) i, A (.entry l (.param i l.ty))) (sig : MethodRef) (isStatic : Bool)
    (locals : List (String × Ty)) {body : List Action} (traps : List Trap)
    (hbody : ∀ a ∈ body, A (a.shift (p.openBody sig isStatic locals).stmts.size)) :
    let q := p.openBody sig isStatic locals
    p.stmts.size ≤ q.stmts.size ∧
    (q.closeBody body traps).stmts.size = q.stmts.size + body.length ∧
    ∃ M, p.Opened A (q.closeBody body traps) M ∧ M.isNative = false ∧
      ∀ t ∈ M.traps, ∃ t' ∈ traps, q.stmts.size + t'.handler = t.handler := by
  intro q
  have hopened : p.Writing A q := by
    refine List.foldlRecOn (motive := p.Writing A) _ _
      (List.foldlRecOn (motive := p.Writing A) _ _ ?_ ?_) ?_
    · split
      · exact ⟨_, opened_addMethod p sig isStatic false, rfl⟩
      · exact (opened_addMethod p sig isStatic false).addSelf rfl hself sig.owner
    · rintro q ⟨M, hq, hnative⟩ ⟨ty, i⟩ -
      exact hq.addParam hnative hparam i ty
    · rintro q ⟨M, hq, hnative⟩ ⟨name, ty⟩ -
      exact ⟨_, hq.addLocal name ty, hnative⟩
  have hsize : p.stmts.size ≤ q.stmts.size := hopened.elim fun _ hM => hM.1.size
  obtain ⟨M, hM, hnative⟩ :
      p.Writing A (body.foldl (fun r a => r.addStmt (a.shift q.stmts.size)) q) := by
    refine List.foldlRecOn (motive := p.Writing A) _ _ hopened ?_
    rintro r ⟨M, hr, hnative⟩ a ha
    exact ⟨_, hr.addStmt (hbody a ha), hnative⟩
  have hclosed : p.Opened A (q.closeBody body traps) _ := hM.describe
    (F := fun M => { M with traps := traps.map _ }) rfl rfl hM.self hM.params hM.handed
  refine ⟨hsize, size_foldl_addStmt q.stmts.size body q, _, hclosed, hnative, fun t ht => ?_⟩
  obtain ⟨t', ht', rfl⟩ := List.mem_map.mp ht
  exact ⟨t', ht', rfl⟩

theorem Assembled.laidOut (h : p.Assembled) : p.LaidOut := by
  induction h with
  | empty => exact ⟨fun _ => rfl, nofun⟩
  | addClass name info _ ih => exact ih.of_eq rfl rfl
  | addMethod sig isStatic isNative _ ih =>
    exact (opened_addMethod (A := fun a => a.target? = none) _ sig isStatic isNative).laidOut ih
      (fun a ha => ha ▸ nofun) nofun
  | @addBody p sig isStatic locals body traps targets handlers _ ih =>
    -- Places of the body are counted from where it starts.
    let base := (p.openBody sig isStatic locals).stmts.size
    have hshift : ∀ a ∈ body, ∀ t ∈ (a.shift base).target?, base ≤ t ∧ t < base + body.length := by
      intro a ha t ht
      rw [Action.target?_shift] at ht
      obtain ⟨t', ht', rfl⟩ := Option.map_eq_some_iff.mp ht
      exact ⟨Nat.le_add_right _ _, Nat.add_lt_add_left (targets a ha t' ht') _⟩
    obtain ⟨hbase, hend, M, hM, -, htraps⟩ := opened_addBody p
      (A := fun a => ∀ t ∈ a.target?, base ≤ t ∧ t < base + body.length) (fun _ => nofun)
      (fun _ _ => nofun) sig isStatic locals traps hshift
    refine hM.laidOut ih (fun a ha t ht => ?_) fun t ht => ?_
    · obtain ⟨hlow, hhigh⟩ := ha t ht
      exact hM.mem_body.mpr ⟨Nat.le_trans hbase hlow, hend ▸ hhigh⟩
    · obtain ⟨t', ht', hhandler⟩ := htraps t ht
      rw [← hhandler, hM.mem_body, hend]
      exact ⟨Nat.le_add_right_of_le hbase, Nat.add_lt_add_left (handlers t' ht') _⟩
  | addEntry m _ ih => exact ih.of_eq rfl rfl

end Program

/-! ## Control flow -/

namespace Method
variable {p : Program} {M : Method} {m : MethodId} {n : StmtId} {x : Exits}

theorem mem_handlersOf {normal : List StmtId} (ht : t ∈ M.handlersOf n normal) :
    ∃ trap ∈ M.traps, trap.handler = t := by
  have hfold : ∀ t ∈ M.handlersOf n normal, ∃ trap ∈ M.traps, trap.handler = t := by
    refine List.foldlRecOn (motive := fun found => ∀ t ∈ found, ∃ trap ∈ M.traps, trap.handler = t)
      M.traps _ (forall_mem_nil _) fun found hfound trap htrap => ?_
    dsimp only
    split
    · intro t ht
      rcases mem_append.mp ht with ht | ht
      · exact hfound t ht
      · exact ⟨trap, htrap, (mem_singleton.mp ht).symm⟩
    · exact hfound
  exact hfold t ht

theorem mem_exitsOfList {l : List StmtId} (h : (n, x) ∈ p.exitsOfList M l) :
    n ∈ l ∧ ∃ next, (∀ t ∈ next, t ∈ l) ∧ x = M.exitsOf (p.stmt n) next := by
  induction l with
  | nil => cases h
  | cons s rest ih =>
    rcases mem_cons.mp h with heq | h
    · cases heq
      exact ⟨mem_cons_self, rest.head?, fun t ht =>
        mem_cons_of_mem _ (mem_of_mem_head? ht), rfl⟩
    · obtain ⟨hn, next, hnext, hx⟩ := ih h
      exact ⟨mem_cons_of_mem _ hn, next, fun t ht => mem_cons_of_mem _ (hnext t ht), hx⟩

/-- Control stays in a body that jumps, also on errors, only inside itself. -/
theorem mem_body_of_exits (htargets : ∀ n ∈ M.body, ∀ t ∈ (p.stmt n).action.target?, t ∈ M.body)
    (hhandlers : ∀ t ∈ M.traps, t.handler ∈ M.body) (h : (n, x) ∈ p.exits M) :
    ∀ t ∈ x.all, t ∈ M.body := by
  obtain ⟨hn, next, hnext, rfl⟩ := mem_exitsOfList h
  intro t ht
  rcases mem_append.mp ht with ht | ht
  · rcases Action.mem_successors ht with ht | ht
    · exact hnext t ht
    · exact htargets n hn t ht
  · simp only [exitsOf] at ht
    split at ht
    · obtain ⟨trap, htrap, rfl⟩ := mem_handlersOf ht
      exact hhandlers trap htrap
    · cases ht

theorem LaidOut.exits (hM : M.LaidOut p m) (h : (n, x) ∈ p.exits M) :
    n ∈ M.body ∧ ∀ t ∈ x.all, t ∈ M.body :=
  ⟨(mem_exitsOfList h).1, mem_body_of_exits hM.targets hM.handlers h⟩

end Method

namespace Graph
variable {p : Program} {extra : List (StmtId × MethodId)} {n : StmtId}

theorem program_ofProgram (p : Program) (extra : List (StmtId × MethodId)) :
    (ofProgram p extra).program = p := rfl

theorem mem_of_foldl_set {l : List (Nat × α)} {a : Array α} {i : Nat} {x : α}
    (h : (l.foldl (fun a (s, e) => a.setIfInBounds s e) a)[i]? = some x) :
    a[i]? = some x ∨ (i, x) ∈ l := by
  induction l generalizing a with
  | nil => exact .inl h
  | cons y rest ih =>
    rcases ih h with hset | hmem
    · rw [Array.getElem?_setIfInBounds] at hset
      split at hset
      · next hy =>
        subst hy
        obtain ⟨-, hx⟩ := Option.ite_none_right_eq_some.mp hset
        cases hx
        exact .inr (mem_cons.mpr (.inl rfl))
      · exact .inl hset
    · exact .inr (mem_cons_of_mem _ hmem)

theorem mem_succs (ht : t ∈ (ofProgram p extra).forward.succs n) :
    ∃ M ∈ p.methods, ∃ x, (n, x) ∈ p.exits M ∧ t ∈ x.all := by
  change t ∈ ((ofProgram p extra).exits[n]?.getD ⟨[], []⟩).all at ht
  cases hx : (ofProgram p extra).exits[n]? with
  | none =>
    rw [hx] at ht
    cases ht
  | some x =>
    rw [hx] at ht
    rcases mem_of_foldl_set hx with hnone | hmem
    · rw [Array.getElem?_replicate] at hnone
      obtain ⟨-, heq⟩ := Option.ite_none_right_eq_some.mp hnone
      cases heq
      cases ht
    · obtain ⟨M, hM, hx⟩ := mem_flatMap.mp hmem
      exact ⟨M, Array.mem_toList_iff.mp hM, x, hx, ht⟩

/-- Every statement that is listed for another one has an exit to it. -/
def Backs (p : Program) (preds : Array (List StmtId)) : Prop :=
  ∀ n, ∀ t ∈ preds[n]?.getD [], ∃ M ∈ p.methods, ∃ x, (t, x) ∈ p.exits M ∧ n ∈ x.all

theorem backs_replicate (p : Program) (k : Nat) : Backs p (Array.replicate k []) := by
  intro n t ht
  rw [Array.getElem?_replicate] at ht
  split at ht <;> cases ht

theorem Backs.add {preds : Array (List StmtId)} (h : Backs p preds) {y : StmtId × Exits}
    (hy : y ∈ p.methods.toList.flatMap p.exits) {u : StmtId} (hu : u ∈ y.2.all) :
    Backs p (preds.modify u (· ++ [y.1])) := by
  intro n t ht
  rw [Array.getElem?_modify] at ht
  split at ht
  · next hun =>
    subst hun
    cases hold : preds[u]? with
    | none =>
      rw [hold] at ht
      cases ht
    | some l =>
      rw [hold] at ht
      rcases mem_append.mp ht with ht | ht
      · exact h u t (by rwa [hold])
      · obtain ⟨M, hM, hx⟩ := mem_flatMap.mp hy
        rw [mem_singleton.mp ht]
        exact ⟨M, Array.mem_toList_iff.mp hM, y.2, hx, hu⟩
  · exact h n t ht

theorem mem_preds (ht : t ∈ (ofProgram p extra).forward.preds n) :
    ∃ M ∈ p.methods, ∃ x, (t, x) ∈ p.exits M ∧ n ∈ x.all := by
  have hall : Backs p (ofProgram p extra).preds :=
    List.foldlRecOn (motive := Backs p) _ _ (backs_replicate p _) fun _ ha _ hy =>
      List.foldlRecOn (motive := Backs p) _ _ ha fun _ ha _ hu => ha.add hy hu
  exact hall n t ht

end Graph

namespace Program.LaidOut
variable {p : Program} {extra : List (StmtId × MethodId)} {n : StmtId}

variable (hp : p.LaidOut)
include hp

theorem method_eq {M : Method} (hM : M ∈ p.methods) {x : Exits} (hx : (n, x) ∈ p.exits M)
    (ht : t ∈ x.all) : (p.stmt t).method = (p.stmt n).method := by
  obtain ⟨m, hm⟩ := Array.mem_iff_getElem?.mp hM
  have hlaid := hp.methods m M hm
  obtain ⟨hn, hall⟩ := hlaid.exits hx
  rw [hlaid.stmts t (hall t ht), hlaid.stmts n hn]

theorem method_succs (ht : t ∈ (Graph.ofProgram p extra).forward.succs n) :
    (p.stmt t).method = (p.stmt n).method := by
  obtain ⟨M, hM, x, hx, ht⟩ := Graph.mem_succs ht
  exact hp.method_eq hM hx ht

theorem method_preds (ht : t ∈ (Graph.ofProgram p extra).forward.preds n) :
    (p.stmt t).method = (p.stmt n).method := by
  obtain ⟨M, hM, x, hx, hn⟩ := Graph.mem_preds ht
  exact (hp.method_eq hM hx hn).symm

theorem laidOut_method (m : MethodId) : (p.method m).LaidOut p m := by
  unfold method
  cases hm : p.methods[m]? with
  | none => exact ⟨rfl, nofun, nofun, nofun, nofun, nofun, nofun, .inr ⟨rfl, rfl⟩⟩
  | some M => exact hp.methods m M hm

end Program.LaidOut
end LeakTrace
