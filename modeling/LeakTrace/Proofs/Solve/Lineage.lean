import LeakTrace.Proofs.Solve.History

/-!
# Every fact that is handed on leads back

Whatever work on an edge propagates, the fact that is stored where it arrives leads back to the fact
of the edge. For the flow along the control flow that is one derivation. For a call that finds its
callee already summarised it is a detour through the callee: the fact that left it leads back to
where the callee was entered, and there the fact of this call has become a neighbour just before.

**So histories are kept over any number of steps**, in any order of work.
-/

namespace LeakTrace
namespace Machine
variable {s : Setup} {m m' : Machine} {H : Set Fact} {side : Side} {e : Edge}
  {log : List (Side × Edge)} {d1 : Taint} {n : StmtId} {f : Fact}

namespace AtWork
variable (he : AtWork s H m side e) (h : m.Linked s H)
include he h

theorem d2_mem : e.d2 ∈ H := h.stored_mem he.stored

theorem grounded (hd : e.d1.toTaint ≠ s.env.zero.toTaint) :
    Grounded s m side e.d1.toTaint e.stmt e.d2 :=
  h.grounded he.stored hd

end AtWork

theorem Grounded.of_methodOf {n' : StmtId} (h : Grounded s m side d1 n f)
    (hn : s.env.graph.methodOf n' = s.env.graph.methodOf n) : Grounded s m side d1 n' f := by
  obtain ⟨hf, sp, hsp, hrest⟩ := h
  exact ⟨hf, sp, hn ▸ hsp, hrest⟩

theorem Grounded.of_leadsBack {g : Fact} (h : Grounded s m side d1 n f) (hg : g ≠ s.env.zero)
    (hback : m.world.LeadsBack g f) : Grounded s m side d1 n g := by
  obtain ⟨-, sp, hsp, g0, hg0, hlead⟩ := h
  exact ⟨hg, sp, hsp, g0, hg0, hback.trans hlead⟩

namespace Linked
variable {callee : MethodId} {d3 : Fact} {call : StmtId}

/-! ## Contexts and exits -/

theorem note (h : m.Linked s H) {G : Table → Table} (hindex : ∀ t, (G t).index = t.index)
    (hcontexts : ∀ {side' callee d3 call d4},
      ((m.modifyTable side G).table side').EnteredBy callee d3 call d4 →
      (m.table side').EnteredBy callee d3 call d4 ∨ Context s H m side' callee d3 call d4)
    (hsummaries : ∀ {side' callee d3 exit f},
      ((m.modifyTable side G).table side').LeftBy callee d3 exit f →
      (m.table side').LeftBy callee d3 exit f ∨ Exit s m side' callee d3 exit f) :
    (m.modifyTable side G).Linked s H ∧ m.Extends (m.modifyTable side G) := by
  have hsame : ∀ side', ((m.modifyTable side G).table side').index = (m.table side').index := by
    intro side'
    cases side <;> cases side' <;> simp [hindex]
  have hx := Extends.of_index hsame (by simp)
  refine ⟨h.grow hx subset_rfl (by simpa using h.populated) (by simp) (by simp)
    (fun hk => .inl ?_) (fun ht => .inl (by simpa using ht))
    (fun hent => (hcontexts hent).imp_right (·.mono hx subset_rfl))
    fun hleft => (hsummaries hleft).imp_right (·.mono hx), hx⟩
  rwa [stored?, hsame] at hk

theorem register (h : m.Linked s H) (he : AtWork s H m side e)
    (hne : d3.toTaint ≠ s.env.zero.toTaint) (hstarts : OpenedBy s m side callee d3.toTaint e.d2) :
    (m.modifyTable side fun t => t.addIncoming callee d3 e.stmt e.d1).Linked s H ∧
      m.Extends (m.modifyTable side fun t => t.addIncoming callee d3 e.stmt e.d1) := by
  refine h.note (fun _ => rfl) (fun hent => ?_) fun hleft => ?_
  · rw [table_modifyTable] at hent
    split at hent
    · next hside =>
      subst hside
      rcases Table.enteredBy_addIncoming.mp hent with hold | ⟨rfl, rfl, rfl, rfl⟩
      · exact .inl hold
      · exact .inr ⟨he.d1_mem, he.root, hne, e.d2.toTaint, e.d2, he.stored, hstarts⟩
    · exact .inl hent
  · exact .inl ((leftBy_modifyTable fun t => Table.summaries_addIncoming t).mp hleft)

theorem grounded_of_caller (h : m.Linked s H) (he : AtWork s H m side e) {d4 : Fact}
    (hent : (m.table side).EnteredBy (s.env.graph.methodOf e.stmt) e.d1.toTaint call d4) :
    d4 ∈ H ∧ s.env.Identified d4 ∧
      (d4.toTaint ≠ s.env.zero.toTaint → Grounded s m side d4.toTaint call e.d2) := by
  obtain ⟨hd4, hid, hne, d2, f, hk, hback⟩ := h.contexts hent
  refine ⟨hd4, hid, fun hd => ?_⟩
  have hf := h.grounded hk hd
  obtain ⟨hz, sp, hsp, g0, hg0, hlead0⟩ := he.grounded h hne
  obtain ⟨g1, hg1, hlead1⟩ := hback hf.1 sp hsp
  obtain rfl := Option.some.inj (hg0.symm.trans hg1)
  exact hf.of_leadsBack hz (hlead0.trans hlead1)

variable (hs : s.Inherits) (h : m.Linked s H) (hlog : LogBack s e.d2 log m)
  (he : AtWork s H m side e)
include hs h hlog he

omit hlog in
theorem addSummary :
    m.Ends s (Work.addSummary side (s.env.graph.methodOf e.stmt) e) fun _ m' =>
      m'.Linked s H ∧ m.Extends m' := by
  unfold Work.addSummary
  rw [ends_bind, ends_read]
  dsimp only
  split
  · exact ends_pure.mpr ⟨h, .refl m⟩
  · next hz =>
    have hne : e.d1.toTaint ≠ s.env.zero.toTaint := fun ht => hz (he.root.mpr ht)
    rw [ends_bind, ends_get]
    split
    · next st hst =>
      split
      · rw [ends_bind, ends_modify, ends_pure, hs.mergeNeighbors]
        exact h.of_like (Like.beside rfl rfl (World.outbox_addNeighbor _ _ _ _)) subset_rfl
          (h.populated.addNeighbor (he.d2_mem h)) fun _ _ => World.mem_neighborsOf_addNeighbor
      · exact ends_pure.mpr ⟨h, .refl m⟩
    · rw [ends_bind, ends_modify, ends_pure]
      refine h.note (fun _ => rfl) (fun hent => ?_) fun hleft => ?_
      · exact .inl ((enteredBy_modifyTable fun t => Table.incoming_addSummary t).mp hent)
      · rw [table_modifyTable] at hleft
        split at hleft
        · next hside =>
          subst hside
          rcases Table.leftBy_addSummary.mp hleft with hold | ⟨rfl, rfl, rfl, rfl⟩
          · exact .inl hold
          · exact .inr ⟨hne, rfl, e.d2.toTaint, he.stored⟩
        · exact .inl hleft

/-! ## Moves -/

omit he in
theorem enterStarts (hd3 : d3 ∈ H) (hne : d3.toTaint ≠ s.env.zero.toTaint)
    (hback : e.d2 ≠ s.env.zero → d3.StemsFrom e.d2) :
    m.Tells s (((s.problem side).view.starts callee).forM fun sp =>
      Traced.propagate side ⟨d3, sp, d3⟩ (some e.stmt)) log fun _ log' m' =>
        m.Extends m' ∧ m'.Linked s H ∧ LogBack s e.d2 log' m' ∧
          ∀ sp ∈ (s.problem side).view.starts callee,
            m'.StoredBack side (d3.toTaint, sp, d3.toTaint) d3 := by
  have hz : d3 ≠ s.env.zero := fun hz => hne (hz ▸ rfl)
  have hroot : s.env.Identified d3 :=
    ⟨fun hid => absurd hid (by simp [h.is_zero_eq_false hd3 hz]), fun ht => absurd ht hne⟩
  have hloop := tells_forM (l := (s.problem side).view.starts callee) (s := s) (m := m)
    (f := fun sp => Traced.propagate side ⟨d3, sp, d3⟩ (some e.stmt))
    (P := fun log a => a.Linked s H ∧ LogBack s e.d2 log a) (R := Extends)
    (Q := fun sp a => a.StoredBack side (d3.toTaint, sp, d3.toTaint) d3)
    Extends.refl Extends.trans (fun hq hr => hr.storedBack hq) ?_ ⟨h, hlog⟩
  · exact hloop.mono fun _ log' m' ⟨⟨hm', hlog'⟩, hx, hall⟩ => ⟨hx, hm', hlog', hall⟩
  · rintro sp hsp log1 a ⟨ha, hlog1⟩ hma
    have hfit : Fit s H a side ⟨d3, sp, d3⟩ :=
      ⟨hd3, hd3, hroot, fun _ => .inr ⟨rfl, by rwa [(hs.within side).starts callee sp hsp]⟩⟩
    rw [tells_propagate]
    refine (ha.propagate hs hfit).mono fun _ b ⟨hb, hab, hstored⟩ => ?_
    refine ⟨⟨hb, fun hf y hy => ?_⟩, hab, hstored⟩
    rcases List.mem_cons.mp hy with rfl | hy
    · obtain ⟨g0, hg0, hlead⟩ := hstored
      exact ⟨g0, hg0, hlead.trans (.of_stemsFrom (hback hf))⟩
    · exact hab.storedBack (hlog1 hf y hy)

theorem flowOn {kind : FlowKind} {act : Track Flow} {t : StmtId} {call : Option StmtId}
    (ht : t ∈ (s.problem side).view.succs e.stmt) (hact : act.Inherits s.env [e.d1, e.d2] e.d2) :
    m.Tells s (do
      let flow ← liftM (Work.evaluate kind e.d2 act)
      Traced.propagateAll side e.d1 t e.d2 call flow.facts) log fun _ => Progress s H e.d2 m := by
  rw [tells_bind, tells_lift]
  have hin : ∀ g ∈ [e.d1, e.d2], g ∈ H := by
    simpa using ⟨he.d1_mem, he.d2_mem h⟩
  refine (h.evaluate hs hact hin).mono ?_
  rintro flow a ⟨hma, H', hH, ha, -, -, hfacts⟩
  have hea := he.mono hma hH
  refine (ha.propagateAll hs (hlog.mono hma) hea.d1_mem he.root (hea.d2_mem ha) hfacts ?_ ?_).mono
    fun _ log' b hb => hb.after hma hH
  · intro hd
    exact (hea.grounded ha hd).of_methodOf ((hs.within side).succs e.stmt t ht)
  · exact fun hf => ⟨hf, .refl _⟩

theorem processNormal :
    m.Tells s (Traced.processNormal side e) log fun _ => Progress s H e.d2 m := by
  unfold Traced.processNormal
  rw [tells_bind, tells_lift, ends_read]
  refine h.forM hlog fun t ht log' a H' hma hH ha hlog' => ?_
  exact ha.flowOn hs hlog' (he.mono hma hH) ht ((hs.problem side).normal e.d1 e.d2 e.stmt t)

/-! ## Calls -/

/-- A call enters a context that was left before: what left it led back to the starts of the callee,
and they lead back to the call. -/
theorem applySummaries (hd3 : d3 ∈ H) (hstarts : OpenedBy s m side callee d3.toTaint e.d2) :
    m.Tells s (Traced.applySummaries side e.d1 e.stmt callee d3) log fun _ =>
      Progress s H e.d2 m := by
  unfold Traced.applySummaries
  rw [tells_bind, tells_lift, ends_read, tells_bind, tells_lift, ends_get]
  refine h.forM hlog fun ⟨exit, fx⟩ hleft log1 a H1 hma hH1 ha hlog1 => ?_
  obtain ⟨hne, hmethod, d2, hfx⟩ := h.summaries hleft
  obtain ⟨hz, sp, hsp, g0, hg0, hlead0⟩ := h.grounded hfx hne
  have hback : e.d2 ≠ s.env.zero → m.world.LeadsBack fx e.d2 := by
    intro hf
    obtain ⟨g1, hg1, hlead1⟩ := hstarts hf sp (hmethod ▸ hsp)
    obtain rfl := Option.some.inj (hg0.symm.trans hg1)
    exact hlead0.trans hlead1
  refine ha.forM hlog1 fun site hsite log2 b H2 hab hH2 hb hlog2 => ?_
  have hmb := hma.trans hab
  have hH := hH1.trans hH2
  have hin : ∀ g ∈ [fx, d3, e.d1], g ∈ H2 := by
    simpa using ⟨hH (h.stored_mem hfx), hH hd3, hH he.d1_mem⟩
  rw [tells_bind, tells_lift]
  refine (hb.returnFlow hs hin).mono ?_
  rintro facts c ⟨hbc, H3, hH3, hc, hfacts⟩
  have hmc := hmb.trans hbc
  have hec := he.mono hmc (hH.trans hH3)
  refine (hc.propagateAll hs (hlog2.mono hbc) hec.d1_mem he.root (hH3 (hin fx (by simp))) hfacts
    ?_ ?_).mono fun _ log' d hd => hd.after hbc hH3
  · intro hd
    have hgr := (hec.grounded hc hd).of_methodOf ((hs.within side).succs e.stmt site hsite)
    exact hgr.of_leadsBack hz (hmc.leadsBack (hback hgr.1))
  · exact fun hf => ⟨hz, hmc.leadsBack (hback hf)⟩

theorem enter (hd3 : d3 ∈ H) (hne : d3.toTaint ≠ s.env.zero.toTaint)
    (hstarts : OpenedBy s m side callee d3.toTaint e.d2) : m.Tells s
    (Traced.enter side callee d3 e.stmt e.d1) log fun _ => Progress s H e.d2 m := by
  unfold Traced.enter
  rw [tells_bind, tells_lift, ends_get]
  split
  · exact tells_pure.mpr (h.progress hlog)
  · rw [tells_bind, tells_lift, ends_modify]
    obtain ⟨ha, hma⟩ := h.register he hne hstarts
    exact (ha.applySummaries hs (hlog.mono hma) (he.mono hma subset_rfl) hd3
      (hstarts.mono hma)).mono fun _ log' b hb => hb.after hma subset_rfl

theorem processCallee : m.Tells s
    (Traced.processCallee side e callee) log fun _ => Progress s H e.d2 m := by
  unfold Traced.processCallee Traced.callFlow
  rw [tells_bind, tells_lift, ends_read]
  split
  · exact tells_pure.mpr (h.progress hlog)
  · simp only [tells_bind, tells_lift, ends_read]
    have hin : ∀ g ∈ [e.d1, e.d2], g ∈ H := by
      simpa using ⟨he.d1_mem, he.d2_mem h⟩
    have hact := (hs.problem side).call e.d1 e.d2 e.stmt callee
    refine (h.evaluate hs hact hin).mono ?_
    rintro flow a ⟨hma, H1, hH1, ha, hflow, hcontexts, hfacts⟩
    rw [hcontexts]
    refine tells_pure.mpr (tells_pure.mpr ?_)
    refine (ha.forM (hlog.mono hma) fun g hg log1 b H2 hab hH2 hb hlog1 => ?_).mono
      fun _ log' c hc => hc.after hma hH1
    have hmb := hma.trans hab
    have heb := he.mono hmb (hH1.trans hH2)
    obtain ⟨hgH, hstems⟩ := hfacts g hg
    have hne : (g.stored e.d2).toTaint ≠ s.env.zero.toTaint := by
      rw [Fact.toTaint_stored]
      exact (hs.problem side).call_ne_zero e.d1 e.d2 e.stmt callee m.world g (hflow ▸ hg)
    have hmem : g.stored e.d2 ∈ H2 := Fact.stored_of (hH2 hgH) (heb.d2_mem hb)
    have hfrom (hz : e.d2 ≠ s.env.zero) : (g.stored e.d2).StemsFrom e.d2 :=
      Fact.stored_of (P := (·.StemsFrom e.d2)) (hstems (h.is_zero_eq_false (he.d2_mem h) hz))
        (.refl _)
    rw [tells_bind]
    refine (hb.enterStarts hs hlog1 hmem hne hfrom).mono ?_
    rintro _ log2 c ⟨hbc, hc, hlog2, hstarts⟩
    refine (hc.enter hs hlog2 (heb.mono hbc subset_rfl) hmem hne ?_).mono
      fun _ log' d hd => hd.after hbc subset_rfl
    intro hz sp hsp
    obtain ⟨g0, hg0, hlead⟩ := hstarts sp hsp
    exact ⟨g0, hg0, hlead.trans (.of_stemsFrom (hfrom hz))⟩

theorem processCall :
    m.Tells s (Traced.processCall side e) log fun _ => Progress s H e.d2 m := by
  have hpast : ∀ log a H', m.Extends a → H ⊆ H' → a.Linked s H' → LogBack s e.d2 log a →
      a.Tells s (((s.problem side).view.succs e.stmt).forM fun site => do
        let flow ← liftM (Work.evaluate .callToReturn e.d2
          ((s.problem side).callToReturn e.d1 e.d2 e.stmt site))
        Traced.propagateAll side e.d1 site e.d2 (some e.stmt) flow.facts) log fun _ =>
          Progress s H' e.d2 a := by
    intro log a H' hma hH ha hlog
    refine ha.forM hlog fun site hsite log' b H'' hab hH' hb hlog' => ?_
    exact hb.flowOn hs hlog' (he.mono (hma.trans hab) (hH.trans hH')) hsite
      ((hs.problem side).callToReturn e.d1 e.d2 e.stmt site)
  unfold Traced.processCall
  rw [tells_bind, tells_lift, ends_read]
  dsimp only
  split
  · rw [tells_bind]
    have hcallees := h.forM hlog (l := s.env.graph.calleesOf e.stmt)
      (F := Traced.processCallee side e) fun callee _ log' a H' hma hH ha hlog' =>
        ha.processCallee hs hlog' (he.mono hma hH)
    refine hcallees.mono ?_
    rintro _ log' a ⟨hma, ⟨H', hH, ha⟩, hlog'⟩
    exact (hpast log' a H' hma hH ha hlog').mono fun _ log'' b hb => hb.after hma hH
  · exact hpast log m H (.refl m) subset_rfl h hlog

/-! ## Exits -/

/-- Back to a call: what arrives there is grounded in the contexts of the caller. -/
theorem returnTo {call : StmtId} {contexts : List Fact}
    (hcontexts : ∀ d4 ∈ contexts, d4 ∈ H ∧ s.env.Identified d4 ∧
      (d4.toTaint ≠ s.env.zero.toTaint → Grounded s m side d4.toTaint call e.d2)) :
    m.Tells s (Traced.returnTo side callee e call contexts) log fun _ => Progress s H e.d2 m := by
  unfold Traced.returnTo
  rw [tells_bind, tells_lift, ends_read]
  refine h.forM hlog fun site hsite log1 a H1 hma hH1 ha hlog1 => ?_
  have hea := he.mono hma hH1
  have hin : ∀ g ∈ e.d2 :: e.d1 :: contexts, g ∈ H1 := by
    simp only [List.mem_cons]
    rintro g (rfl | rfl | hg)
    · exact hea.d2_mem ha
    · exact hea.d1_mem
    · exact hH1 (hcontexts g hg).1
  rw [tells_bind, tells_lift]
  refine (ha.returnFlow hs hin).mono ?_
  rintro facts b ⟨hab, H2, hH2, hb, hfacts⟩
  refine (hb.forM (hlog1.mono hab) fun d4 hd4 log2 c H3 hbc hH3 hc hlog2 => ?_).mono
    fun _ log' d hd => hd.after hab hH2
  obtain ⟨hmem, hroot, hground⟩ := hcontexts d4 hd4
  have hmc := (hma.trans hab).trans hbc
  have hH := (hH1.trans hH2).trans hH3
  have hec := he.mono hmc hH
  refine hc.propagateAll hs hlog2 (hH hmem) hroot (hec.d2_mem hc) ?_ ?_ ?_
  · exact fun g hg => ⟨hH3 (hfacts g hg).1, (hfacts g hg).2⟩
  · intro hd
    exact ((hground hd).mono hmc).of_methodOf ((hs.within side).succs call site hsite)
  · exact fun hf => ⟨hf, .refl _⟩

theorem processExit :
    m.Tells s (Traced.processExit side e) log fun _ => Progress s H e.d2 m := by
  unfold Traced.processExit
  rw [tells_bind, tells_lift, ends_read, tells_bind, tells_lift]
  refine (h.addSummary hs he).mono fun new a ⟨ha, hma⟩ => ?_
  have hea := he.mono hma subset_rfl
  split
  · exact tells_pure.mpr ((ha.progress (hlog.mono hma)).after hma subset_rfl)
  · rw [tells_bind, tells_lift, ends_get, tells_bind]
    have hcallers := ha.forM (hlog.mono hma)
      (l := (a.table side).callersOf (s.env.graph.methodOf e.stmt) e.d1)
      (F := fun c => Traced.returnTo side (s.env.graph.methodOf e.stmt) e c.1 c.2)
      fun x hx log1 b H1 hab hH1 hb hlog1 =>
        hb.returnTo hs hlog1 (hea.mono hab hH1) fun d4 hd4 => by
          obtain ⟨hmem, hid, hgr⟩ := ha.grounded_of_caller hea ⟨x, hx, rfl, hd4⟩
          exact ⟨hH1 hmem, hid, fun hd => (hgr hd).mono hab⟩
    refine hcallers.mono ?_
    rintro _ log1 b ⟨hab, ⟨H1, hH1, hb⟩, hlog1⟩
    have hmb := hma.trans hab
    split
    · -- Zero is the context of every caller, and nothing has to be grounded there.
      rw [tells_bind]
      have hall := hb.forM hlog1 (l := s.env.graph.callersOf (s.env.graph.methodOf e.stmt))
        (F := fun call => Traced.returnTo side (s.env.graph.methodOf e.stmt) e call [s.env.zero])
        fun call _ log2 c H2 hbc hH2 hc hlog2 =>
          hc.returnTo hs hlog2 (he.mono (hmb.trans hbc) (hH1.trans hH2)) fun d4 hd4 => by
              rw [List.mem_singleton.mp hd4]
              exact ⟨hc.zero_mem, Env.identified_zero, fun hd => absurd rfl hd⟩
      refine hall.mono ?_
      rintro _ log2 c ⟨hbc, ⟨H2, hH2, hc⟩, hlog2⟩
      have hmc := hmb.trans hbc
      have hec := he.mono hmc (hH1.trans hH2)
      split
      · rw [tells_bind, tells_lift]
        have hin : ∀ g ∈ [e.d2, e.d1], g ∈ H2 := by
          simpa using ⟨hec.d2_mem hc, hec.d1_mem⟩
        refine (hc.returnFlow hs hin).mono ?_
        rintro facts d ⟨hcd, H3, hH3, hd, -⟩
        refine tells_pure.mpr ?_
        exact (hd.progress (hlog2.mono hcd)).after (hmc.trans hcd) ((hH1.trans hH2).trans hH3)
      · exact tells_pure.mpr ((hc.progress hlog2).after hmc (hH1.trans hH2))
    · exact tells_pure.mpr ((hb.progress hlog1).after hmb hH1)

/-! ## Tasks -/

omit hlog in
/-- All that work on an edge propagates leads back to the fact of the edge. -/
theorem process : m.Tells s (Traced.process side e) [] fun _ => Progress s H e.d2 m := by
  unfold Traced.process
  rw [tells_bind, tells_lift, ends_read, tells_bind, tells_lift, ends_modify]
  have hlike : m.Like (m.modifyTable side fun t => { t with processed := t.processed + 1 }) :=
    (Like.refl m).modifyTable side fun _ => ⟨rfl, rfl, rfl⟩
  obtain ⟨ha, hma⟩ := h.of_like hlike subset_rfl (by simpa using h.populated) (by simp)
  have hea := he.mono hma subset_rfl
  have hlog : LogBack s e.d2 [] (m.modifyTable side fun t =>
      { t with processed := t.processed + 1 }) := fun _ x hx => nomatch hx
  split
  · exact (ha.processCall hs hlog hea).mono fun _ log' b hb => hb.after hma subset_rfl
  · split
    · rw [tells_bind]
      refine (ha.processExit hs hlog hea).mono ?_
      rintro _ log' b ⟨hab, ⟨H', hH, hb⟩, hlog'⟩
      exact (hb.processNormal hs hlog' (hea.mono hab hH)).mono
        fun _ log'' c hc => hc.after (hma.trans hab) hH
    · exact (ha.processNormal hs hlog hea).mono fun _ log' b hb => hb.after hma subset_rfl

end Linked
end Machine
end LeakTrace
