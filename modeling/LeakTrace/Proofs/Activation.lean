import LeakTrace.Proofs.Scope.Runs

/-!
# Aliases wait until they are activated

An alias that was found backwards only counts from the statement on that created the taint. Until
execution passes that statement, or a call that is registered for it, **whatever is derived from the
alias waits as well**; the search for aliases changes nothing about it, and only what counts is ever
reported.
-/

namespace LeakTrace
open List Track
open Region (whole_closed whole whole_contains)

variable {I : World → Prop}

/-! ## Flow functions at a statement -/

/-- Flow functions of the taint analysis for a fact at a statement. For a return the statement is
the call; where nobody called it does not matter. -/
inductive Forward.At (d1 f : Fact) (s : StmtId) : Track Flow → Prop where
  | normal (succ : StmtId) : At d1 f s (Forward.normal d1 f s succ)
  | call (callee : MethodId) : At d1 f s (Forward.call d1 f s callee)
  | ret (callee : MethodId) (exit : StmtId) (site : Option StmtId) (contexts : List Fact) :
    At d1 f s (Forward.ret (some s) callee exit site f d1 contexts)
  | leave (callee : MethodId) (exit : StmtId) (site : Option StmtId) (contexts : List Fact) :
    At d1 f s (Forward.ret none callee exit site f d1 contexts)
  | callToReturn : At d1 f s (Forward.callToReturn d1 f s)

/-- Flow functions of the alias search for a fact. -/
inductive Backward.Of (d1 f : Fact) : Track Flow → Prop where
  | normal (s succ : StmtId) : Of d1 f (Backward.normal d1 f s succ)
  | call (s : StmtId) (callee : MethodId) : Of d1 f (Backward.call d1 f s callee)
  | ret (call : Option StmtId) (callee : MethodId) (exit : StmtId) :
    Of d1 f (Backward.ret call callee exit d1 f)
  | callToReturn (s : StmtId) : Of d1 f (Backward.callToReturn d1 f s)

/-- Execution passes the statement and does not activate what the fact waits for. -/
def Fact.StaysAt (f : Fact) (w : World) (s : StmtId) : Prop :=
  ∀ u, f.waitsFor = some u → u ≠ s ∧ ¬ w.Activating s u

variable {e : Env} {d1 f : Fact} {s : StmtId} {w : World} {k : Nat} {act : Track Flow}
  {W : Option StmtId → Prop}

/-! ## Along the control flow -/

theorem Upkeep.activations (w : World) :
    Upkeep.Always e fun w' => w'.activations = w.activations where
  rest hw h := h.activations.trans hw

theorem Track.activateAt_stays (hf : f.StaysAt w s) :
    Keeps e (fun w' => w'.activations = w.activations) (activateAt f s)
      fun g => g.waitsFor = f.waitsFor := by
  refine .guard rfl <| .dite (fun hunit => ?_) fun _ => ?_
  · exact absurd rfl (hf s (by simpa using hunit)).1
  · have hno : Keeps e (fun w' => w'.activations = w.activations)
        (isActivating s f.waitsFor) (· = false) := by
      refine .read ?_
      split
      · next u hu =>
        refine .ite (.get fun w' hw' => .pure ?_) <| .pure rfl
        rw [hw']
        have hnot := (hf u hu).2
        cases ha : w.activations[u]? with
        | none => rfl
        | some a =>
          have hcalls : s ∉ a.calls := fun hs => hnot ⟨a, ha, hs⟩
          simpa using hcalls
      · exact .pure rfl
    refine hno.bind ?_
    rintro _ rfl
    exact .pure rfl

theorem Stmt.suits_waiting (hz : e.zero = .zero k) (s : Stmt) :
    s.Suits e (fun _ => True) I whole fun f => W f.waitsFor where
  creates hzero hf _ _ := by
    rw [Env.waitsFor_of_isZero hz hzero] at hf
    exact hf
  sends := Region.sends_all

/-- What comes out waits as `W` says, if the fact does: unchanged, where a statement makes it
active, and where a call does. -/
theorem Forward.At.fits (hact : Forward.At d1 f s act) (hz : e.zero = .zero k)
    (hI : Upkeep.Always e I) (hcover : ∀ w k, I w → I (w.coverCall k))
    (hf : W f.waitsFor) (hpass : f.waitsFor = some s → W none)
    (hnow : Keeps e I (activateAt f (e.stmt s).id) fun g => W g.waitsFor) :
    Keeps e I act (Flow.Fits whole.locals fun g => W g.waitsFor) := by
  have hH := Fact.heritable_waitsFor W
  -- The alias may be rooted anywhere: only what it waits for is followed.
  cases hact with
  | normal succ =>
    refine Forward.normal_fits hI hH whole_closed (Stmt.suits_waiting hz _)
      (fun _ _ => Stmt.welcomes_all) (Fact.fits_whole trivial) (fun hwait i => ?_) (fun _ => hf)
      trivial
    rw [Fact.waitsFor_activate]
    exact hpass hwait
  | call callee =>
    exact Forward.call_fits hI hH whole_closed whole_contains
      (fun _ w hw => hcover w _ hw) hf
  | ret callee exit site contexts =>
    exact Forward.ret_fits hI hH whole_closed Region.sends_all trivial
      (hnow.mono fun _ hg => ⟨hg, Stmt.welcomes_all⟩)
  | leave callee exit site contexts =>
    refine (Forward.ret_none_fits hI hH whole_closed Stmt.welcomes_all hf).mono
      fun o ho => ?_
    unfold Flow.Fits
    rw [ho]
    exact .nil
  | callToReturn =>
    exact Forward.callToReturn_fits hI hH whole_closed (Stmt.suits_waiting hz _) trivial
      (hnow.mono fun _ hg => ⟨Fact.fits_whole hg, Stmt.welcomes_all⟩)

theorem Forward.At.waitsFor_eq (hact : Forward.At d1 f s act) (hz : e.zero = .zero k)
    (hs : (e.stmt s).id = s) (hf : f.StaysAt w s) :
    ∀ g ∈ ((act.run e).run w).1.facts, g.waitsFor = f.waitsFor := by
  have hnow : Keeps e (fun w' => w'.activations = w.activations)
      (activateAt f (e.stmt s).id) fun g => g.waitsFor = f.waitsFor := by
    rw [hs]
    exact activateAt_stays hf
  have hpass : f.waitsFor = some s → none = f.waitsFor := fun hwait => absurd rfl (hf s hwait).1
  have hflow := hact.fits (W := (· = f.waitsFor)) hz (Upkeep.activations w) (fun _ _ hw => hw) rfl
    hpass hnow
  exact fun g hg => ((hflow w rfl).1 g hg).kind

/-! ## Against the control flow -/

/-- The edge that is asked for is about a fact that waits for the given statement. -/
def Message.WaitsFor (u : Option StmtId) : Message → Prop
  | .edge _ _ _ g => g.waitsFor = u
  | .abort => True

/-- What was not asked for before is about facts that wait for the given statement. -/
theorem Upkeep.outbox (w : World) (u : Option StmtId) : Upkeep e (Message.WaitsFor u)
    (fun _ => True) fun w' => ∀ m ∈ w'.outbox, m ∈ w.outbox ∨ m.WaitsFor u :=
  .of_outbox (J := fun l _ => ∀ m ∈ l, m ∈ w.outbox ∨ m.WaitsFor u) trivial
    fun hm hl => forall_mem_cons.mpr ⟨.inr hm, hl⟩

theorem Backward.Of.fits {M : Message → Prop} {R : SinkHit → Prop} {H : Fact → Prop}
    (hact : Backward.Of d1 f act) (hI : Upkeep e M R I) (hH : Fact.Heritable H)
    (hreg : ∀ w a, I w → I { w with activations := a }) (hM : whole.Hands e H M) (hf : H f) :
    Keeps e I act (Flow.Fits whole.locals H) := by
  have hfit : f.Fits whole.locals H := Fact.fits_whole hf
  cases hact with
  | normal s succ => exact Backward.normal_fits hI hH whole_closed hM hfit trivial trivial
  | call s callee =>
    exact Backward.call_fits hI.unmoved hH whole_closed whole_contains hf
  | ret call callee exit =>
    exact Backward.ret_fits hI hH (fun _ _ => ⟨fun w _ hw _ => hreg w _ hw,
      fun w _ hw _ => hreg w _ hw⟩) whole_closed (fun _ _ => trivial) hM
      whole_contains hfit trivial
  | callToReturn s => exact Backward.callToReturn_fits hI hH whole_closed hM trivial hfit

theorem Backward.Of.entry_mem (hact : Backward.Of d1 f act) (w : World) :
    ∀ c ∈ ((act.run e).run w).1.contexts, c.entry ∈ ((act.run e).run w).1.facts := by
  -- Only a call tells of contexts, and it makes them of the facts that come out.
  have hflow : Keeps e (fun _ => True) act fun o => ∀ c ∈ o.contexts, c.entry ∈ o.facts := by
    cases hact with
    | normal s succ =>
      refine .read ?_
      dsimp only
      split
      · exact .pure (forall_mem_nil _)
      · refine .guard (forall_mem_nil _) <| .any_bind fun set => ?_
        refine .ite ?_ <| .pure (forall_mem_nil _)
        split
        · exact .any_bind fun _ => .pure (forall_mem_nil _)
        · exact .pure (forall_mem_nil _)
    | call s callee =>
      refine .read (.guard (forall_mem_nil _) <| .any_bind fun _ =>
        .guard (forall_mem_nil _) <| .any_bind fun _ =>
          .any_bind fun set => .pure fun c hc => ?_)
      dsimp only at hc
      split at hc
      · obtain ⟨g, hg, rfl⟩ := List.mem_map.mp hc
        exact hg
      · cases hc
    | ret call callee exit =>
      refine .read ?_
      split
      · exact .pure (forall_mem_nil _)
      · refine .guard (forall_mem_nil _) <| .ite ?_ ?_
        · exact .any_bind fun _ => .pure (forall_mem_nil _)
        · dsimp only
          split
          · exact .pure (forall_mem_nil _)
          · exact .any_bind fun _ => .any_bind fun _ => .pure (forall_mem_nil _)
    | callToReturn s => exact .read (.any_bind fun _ => .pure (forall_mem_nil _))
  exact (hflow w trivial).1

/-! ## Results -/

/-- Everything that was reported counts. -/
def World.ActiveResults (w : World) : Prop := ∀ h ∈ w.results, h.fact.isActive = true

theorem Upkeep.activeResults :
    Upkeep.Lasting e (fun _ => True) (fun h => h.fact.waitsFor = none) World.ActiveResults where
  rest hw h := by
    unfold World.ActiveResults
    rw [h.results]
    exact hw
  hit hw hactive _ h hmem := by
    rcases mem_append.mp hmem with hmem | hmem
    · exact hw h hmem
    · rw [mem_singleton.mp hmem]
      exact Option.isNone_iff_eq_none.mpr hactive
  emptied _ hw := hw
  covered _ _ hw := hw

theorem Setup.bears_activeResults (hz : e.zero = .zero k) (watch : Watch) :
    (Setup.ofEnv e watch).Bears World.ActiveResults (Fitness.any.within e fun _ => whole) :=
  Setup.bears_ofEnv Upkeep.activeResults hz .whole
    (Fitness.any_handedOn (fun _ hactive => hactive) (fun _ _ hw => hw) fun _ _ hw => hw)
    Fitness.asked_all
    fun _ _ _ _ _ _ _ => Fact.fits_whole trivial

/-! ## The discipline -/

/-- **Aliases wait until they are activated.** Along the control flow nothing that is derived from
an alias counts before its statement, or a call registered for that statement, is passed; what
counts keeps counting. Searching aliases changes neither, in what it passes on and in what it asks
the taint analysis to look at; and whatever a pass has reported, in whichever order its tasks are
run, counts. -/
theorem aliases_wait_until_activated {e : Env} {k : Nat} (hz : e.zero = .zero k) :
    (∀ d1 f s act, Forward.At d1 f s act → (e.stmt s).id = s → ∀ w,
      (∀ u, f.waitsFor = some u → u ≠ s → ¬ w.Activating s u →
        ∀ g ∈ ((act.run e).run w).1.facts, g.waitsFor = some u) ∧
      (f.isActive = true → ∀ g ∈ ((act.run e).run w).1.facts, g.isActive = true)) ∧
    (∀ d1 f act, Backward.Of d1 f act → ∀ w,
      (∀ g ∈ ((act.run e).run w).1.facts, g.waitsFor = f.waitsFor) ∧
      (∀ c ∈ ((act.run e).run w).1.contexts, c.entry.waitsFor = f.waitsFor) ∧
      ∀ msg ∈ ((act.run e).run w).2.outbox, msg ∈ w.outbox ∨ msg.WaitsFor f.waitsFor) ∧
    ∀ a : Analysis, a.env = e → ∀ sources sinks m pick n,
      let s := a.passSetup sources sinks
      let start := ((a.applyBudgets s.sides (Analysis.nextMachine m)).run s (Work.seed sources)).2
      (start.after s pick n).world.ActiveResults := by
  refine ⟨fun d1 f s act hact hs w => ⟨fun u hu hne hcall => ?_, fun hactive => ?_⟩,
    fun d1 f act hact w => ?_, ?_⟩
  · rw [← hu]
    refine hact.waitsFor_eq hz hs fun v hv => ?_
    obtain rfl : u = v := Option.some.inj (hu.symm.trans hv)
    exact ⟨hne, hcall⟩
  · have hnone : f.waitsFor = none := Option.isNone_iff_eq_none.mp hactive
    have hstays : f.StaysAt w s := fun u hu => absurd (hnone.symm.trans hu) (by simp)
    intro g hg
    exact Option.isNone_iff_eq_none.mpr ((hact.waitsFor_eq hz hs hstays g hg).trans hnone)
  · have hflow := hact.fits (e := e) (Upkeep.outbox w f.waitsFor)
      (Fact.heritable_waitsFor (· = f.waitsFor)) (fun _ _ hw => hw)
      ⟨fun _ hg => hg.kind, fun _ hg => hg.kind⟩ rfl w fun _ => .inl
    have hfacts : ∀ g ∈ ((act.run e).run w).1.facts, g.waitsFor = f.waitsFor :=
      fun g hg => (hflow.1 g hg).kind
    exact ⟨hfacts, fun c hc => hfacts _ (hact.entry_mem w c hc), hflow.2⟩
  · rintro a rfl sources sinks m pick n s start
    have hs := Setup.bears_activeResults (e := s.env) (k := k) hz a.watch
    exact (a.bears_after sources sinks m hs (forall_mem_nil _) pick n).world

def waitingTail : Fact where
  id := 1
  path := { base := some ⟨1, "y", Analysis.listTy⟩, ty := some Analysis.listTy
            steps := [.of ⟨"List", "rest", Analysis.listTy, false⟩] }
  waitsFor := some 1

/-- `x = y` makes a second alias of the tail, which waits as the first does. -/
theorem growing_tail_waits :
    let e := Analysis.growingAnalysis.env
    let facts := (((Forward.normal e.zero waitingTail 2 3).run e).run {}).1.facts
    e.zero = .zero 0 ∧ (e.stmt 2).id = 2 ∧ ¬ ({} : World).Activating 2 1 ∧ facts.length = 2 ∧
      ∀ g ∈ facts, g.waitsFor = some 1 := by
  intro e facts
  have hcalls : ¬ ({} : World).Activating 2 1 := by simp [World.Activating]
  have hwaits := ((aliases_wait_until_activated (e := e) (k := 0) rfl).1 e.zero waitingTail 2 _
    (.normal 3) rfl {}).1 1 rfl (by decide) hcalls
  exact ⟨rfl, rfl, hcalls, by decide +kernel, hwaits⟩

end LeakTrace
