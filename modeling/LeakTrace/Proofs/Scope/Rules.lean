import LeakTrace.Proofs.Keeps.Rules
import LeakTrace.Proofs.Scope.Search

/-!
# Rules keep facts in their scope

Each rule of propagation, asked about a fact, answers with facts that are derived from it or created
by the statement. Along a statement they fit in the region of the statement, out of a method in the
region of the call; into a method rules only bring what names no local.

Rules record facts as results. **They look whether the fact is active first**, each on its own.
-/

namespace LeakTrace
open Track

variable {e : Env} {H : Fact → Prop} {M : Message → Prop} {R : SinkHit → Prop} {I : World → Prop}
  {r : Region} {s : Stmt} {f : Fact}

/-- What is recorded of the fact at the statement is welcome. -/
abbrev Stmt.Takes (e : Env) (R : SinkHit → Prop) (f : Fact) (s : Stmt) : Prop :=
  ∀ d path, e.oracle.sink? e.program s path = some d →
    ∀ g, f.Continues g → g.toTaint = f.observedAt s.id → R ⟨d, g, s.id⟩

/-- Active facts are recorded at sinks, and welcome there. -/
def Stmt.Welcomes (e : Env) (R : SinkHit → Prop) (f : Fact) (s : Stmt) : Prop :=
  f.isActive = true → e.isSink s.id = true → s.Takes e R f

theorem Stmt.welcomes_all : s.Welcomes e (fun _ => True) f :=
  fun _ _ _ _ _ _ _ _ => trivial

theorem Stmt.Records.welcomes (hR : s.Records e R H) (hH : Fact.Heritable H) (hf : H f) :
    s.Welcomes e R f := by
  intro hactive hsink d path hd g hg _
  refine hR hsink hd (hH hf hg) ?_
  rw [hg.waitsFor]
  exact Option.isNone_iff_eq_none.mp hactive

theorem Path.base_of_isStaticField {p : Path} (h : p.isStaticField) : p.base = none := by
  simp only [isStaticField, Bool.and_eq_true, Option.isNone_iff_eq_none] at h
  exact h.1

namespace Rule
variable {d1 g : Fact} {v : Value} {P : Local → Prop} {n : Nat}

theorem record_fits (hI : Upkeep e M R I) (hR : s.Takes e R f) : Keeps e I (record f s) := by
  refine sinkInfo_fits.bind fun o ho => ?_
  split
  · next d =>
    refine (addResult_fits hI (hR d _ (ho d rfl))).bind fun more hmore =>
      .dite (fun hno => ?_) fun _ => .pure trivial
    obtain ⟨hlimit, h, hh⟩ := hmore (by simpa using hno)
    exact .modify trivial fun w hw => hI.close hw hh hlimit
  · exact .pure trivial

theorem reportSink_fits (hI : Upkeep e M R I) (hR : e.isSink s.id → s.Takes e R f) :
    Keeps e I (reportSink f s) := by
  refine .read (.dite (fun hsink => sinkInfo_fits.bind fun o ho => ?_) fun _ =>
    .pure trivial)
  split
  · next d =>
    exact (addResult_fits hI (hR hsink d _ (ho d rfl))).bind fun _ _ => .pure trivial
  · exact .pure trivial

section
variable (hI : Upkeep e M R I) (hH : Fact.Heritable H) (hr : r.Closed e)
include hI hH hr

theorem site_fits (hsuits : s.Suits e M I r H) (hR : s.Welcomes e R f) (hs : r.HasStmt e s)
    (hf : f.Fits r.locals H) :
    Site e I (fun _ => True) (Value.Within r.locals) (Fact.Fits r.locals H) d1 f s where
  toLibraryCall := libraryCall_fits hI.unmoved hH hr hs hf.kind
  fact := hf
  root _ _ := trivial
  self _ _ := trivial
  args _ _ := ⟨fun _ _ => trivial, fun _ _ => trivial⟩
  values _ _ := trivial
  uses _ _ := trivial
  deciding _ _ _ := trivial
  roots _ _ _ _ := trivial
  operand _ _ := trivial
  size _ _ _ := trivial
  mayAlias _ _ _ _ := mayAliasValues_fits hI.unmoved
  asLength _ hv :=
    make_derive_fits hI.unmoved hH (Paths.ofTyped_gives (Fact.within_scope hv)) hf.kind
  rebaseAs _ _ _ hv _ :=
    make_derive_fits hI.unmoved hH (Paths.rebase_gives (Fact.within_scope hv)) hf.kind
  throwAt _ := Fact.fits_throwAt hH hf.kind
  catchInto _ hv := (paths_fits hI.unmoved (Paths.onto_gives hv)).mono fun _ hp _ =>
    Fact.fits_catchInto? hH hf.kind hp
  enterAt _ := hf.enterConditional hH
  creates hzero := (sourceInfo_fits hI.unmoved hr (hr.stmt_id hs)).mono
    fun _ ho info hinfo a ha _ => ⟨⟨.inr (ho.1 info hinfo a ha)⟩,
      hsuits.creates hzero hf.kind (ho.2 info hinfo) ha⟩
  search _ _ _ _ hset hg := searchFrom_fits hI hH hr hsuits.sends hs hset hg
  target _ _ _ _ := trivial
  asksSource := (sourceInfo_fits hI.unmoved hr (hr.stmt_id hs)).mono fun _ _ => trivial
  records hactive hsink := record_fits hI (hR hactive hsink)
  reports hactive := reportSink_fits hI (hR hactive)

/-- The search after a constant result starts in the callee, so where control dependencies are
tracked the region has to be everything. -/
theorem exit_fits {callers : List Fact} {call : Option Stmt} (hM : ∀ c ∈ call, r.Sends e H c.id M)
    (hR : s.Welcomes e R f) (hcall : ∀ c ∈ call, r.HasStmt e c) (hf : H f) :
    Exit e I (Fact.Fits r.locals H) callers f s call where
  fresh := fresh_fits hI.unmoved
  reads _ _ := readsTaint_keeps fun _ _ => mayAliasValues_fits hI.unmoved
  records hactive hsink := record_fits hI (hR hactive hsink)
  carry hstatic := deriveAt_fits hI.unmoved hH
    (Fact.fits_of_base_none hf (Path.base_of_isStaticField hstatic))
  throwAt _ := Fact.fits_throwAt hH hf
  onto c hc _ hlhs := make_derive_fits hI.unmoved hH
    (Paths.onto_gives (Fact.within_scope (hr.within_lhs (hcall c hc) hlhs))) hf
  search himplicit c hc _ _ _ _ _ _ _ _ hset hg :=
    computeAliases_fits hI hH hr (hM c hc) (.inr himplicit) (hr.implicit himplicit _)
      hset (fun k _ => hr.implicit himplicit k) hg

omit hr in
theorem chain_call_fits {m : MethodId} (hcover : World.Covers e I s.id d1 f) (hf : H f) {rule : Rule}
    (hrule : rule ∈ chain e) :
    RuleM.Keeps e I (rule.call d1 f s m) (FactSet.AllOpt (Fact.Fits P H)) :=
  chain_call (fresh_fits hI.unmoved) (fun hstatic => deriveAt_fits hI.unmoved hH
    (Fact.fits_of_base_none hf (Path.base_of_isStaticField hstatic)))
    hcover (fun _ => Fact.fits_conditional hH hf) hrule

end
end Rule
end LeakTrace
