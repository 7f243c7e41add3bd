import LeakTrace.Proofs.Calls.Rules

/-!
# Which taints go past a call

An active taint whose root the call does not assign goes past the call exactly if it is inside a
conditional, if all callees are methods of the runtime that never move taints, or if nothing on the
way says that the callees deal with it.
-/

namespace LeakTrace
open List

variable {e : Env} {I : World → Prop} {M : Message → Prop} {R : SinkHit → Prop} {d1 f : Fact}
  {s : Stmt}

/-! ## Sets of facts by what they say -/

/-- Some fact of the set says what `f` says. -/
def FactSet.Says (set : FactSet) (f : Fact) : Prop := f.toTaint ∈ set.map (·.toTaint)

theorem FactSet.says_insert (set : FactSet) (f g : Fact) :
    (set.insert g).Says f ↔ set.Says f ∨ f.toTaint = g.toTaint := by
  unfold FactSet.insert
  split
  · next hmem =>
    obtain ⟨x, hx, hsame⟩ := List.any_eq_true.mp hmem
    refine ⟨.inl, fun h => h.elim id fun heq => ?_⟩
    exact List.mem_map.mpr ⟨x, hx, (heq.trans (Fact.same_iff.mp hsame)).symm⟩
  · simp [Says]

theorem Fact.inConditional_of_lasts (h : (f.joins.head?.any fun j => j.stmt?.isNone)) :
    f.inConditional := by
  cases hjoins : f.joins with
  | nil => simp [hjoins] at h
  | cons => simp [Taint.inConditional, hjoins]

namespace Track
variable {n : StmtId} {set : FactSet}

theorem Keeps.map_mapM {α β γ : Type} {l : List α} {act : α → Track β} {F : β → γ} {G : α → γ}
    (h : ∀ a ∈ l, Keeps e I (act a) fun b => F b = G a) :
    Keeps e I (l.mapM act) fun bs => bs.map F = l.map G := by
  induction l with
  | nil => exact .pure rfl
  | cons a rest ih =>
    rw [mapM_cons]
    refine (h a mem_cons_self).bind fun b hb => ?_
    refine (ih fun x hx => h x (mem_cons_of_mem a hx)).bind fun bs hbs => .pure ?_
    rw [map_cons, map_cons, hb, hbs]

/-- The call that is recorded on facts does not change what they say, and it is not recorded on the
fact that only passes by. -/
theorem stampCall_map (hI : Upkeep e M R I) :
    Keeps e I (stampCall f n set) fun out => out.map (·.toTaint) = set.map (·.toTaint) := by
  refine Keeps.map_mapM fun g _ => .guard rfl ?_
  exact (fresh_fits hI.unmoved).bind fun _ _ => .pure rfl

theorem stampCall_mem (hI : Upkeep e M (fun _ => True) I) :
    Keeps e I (stampCall f n set) fun out => f ∈ set → f ∈ out := by
  have hround (g : Fact) : Keeps e I (do if g.is f then return g else return g.withCall (← fresh) n)
      fun x => g.is f → x = g :=
    .dite (fun _ => .pure fun _ => rfl) fun hno =>
      (fresh_fits hI.unmoved).bind fun _ _ => .pure fun h => absurd h hno
  unfold stampCall
  induction set with
  | nil => exact .pure nofun
  | cons g rest ih =>
    rw [mapM_cons]
    refine (hround g).bind fun x hx => ih.bind fun xs hxs => .pure fun hf => ?_
    rcases mem_cons.mp hf with rfl | hf
    · rw [hx (beq_self_eq_true f.id)]
      exact mem_cons_self
    · exact mem_cons_of_mem x (hxs hf)

theorem limitReached_plain (hstop : e.config.stopAfter = 0) : Keeps e I limitReached (· = false) :=
  .read (.get fun _ _ => .pure (by simp [hstop]))

theorem activateAt_active (hactive : f.isActive) : Keeps e I (activateAt f n) (· = f) :=
  .dite (fun _ => .pure rfl) fun hno => absurd hactive hno

end Track

theorem Rule.applyCallToReturn_run {rules : List Rule} {J : Option FactSet → Prop}
    (h : Told e I (fun r => r.callToReturn d1 f s) rules none False J) :
    Track.Keeps e I ((applyCallToReturn rules d1 f s false).run {}) fun p =>
      p.2 = {} ∧ ∃ out, J out ∧ p.1 = out.getD [] := by
  unfold applyCallToReturn
  rw [StateT.run_bind]
  refine (h {} rfl).bind fun p hp => ?_
  have hall : p.2.all = false := by simpa using hp.1
  have hkill : p.2 = {} := by
    cases hp2 : p.2 with
    | mk source all => simp_all
  change Track.Keeps e I (StateT.run (if p.2.all then pure [] else pure (p.1.getD [])) p.2) _
  rw [if_neg (by simp [hall])]
  exact .pure ⟨hkill, p.1, hp.2.2 hall, rfl⟩

namespace Track

/-- What becomes of a fact past a call, if `passes` is the answer about it. Unless a conditional is
involved it is the very same fact that goes past. -/
structure Passes (e : Env) (f : Fact) (s : Stmt) (passes idle : Prop) (out : FactSet) : Prop where
  told : Rule.allInert e s.id = true ∨ passes → out.Says f
  only : idle → out.Says f → Rule.allInert e s.id = true ∨ passes
  same : f.inConditional = false ∨ e.config.implicitFlows.tracksControlFlow = false →
    Rule.allInert e s.id = true ∨ passes → f ∈ out

section Passes
variable {passes idle : Prop} {set out : FactSet}

theorem Passes.single (h : Rule.allInert e s.id ∨ passes) : Passes e f s passes idle [f] :=
  ⟨fun _ => mem_singleton.mpr rfl, fun _ _ => h, fun _ _ => mem_singleton.mpr rfl⟩

theorem Passes.grow (h : Passes e f s passes idle set) (hsub : set ⊆ out)
    (hsame : idle → out = set) : Passes e f s passes idle out where
  told hp := map_subset _ hsub (h.told hp)
  only hidle hf := h.only hidle (hsame hidle ▸ hf)
  same hplain hp := hsub (h.same hplain hp)

theorem Passes.stampCall (hI : Upkeep e M (fun _ => True) I) (h : Passes e f s passes idle set) :
    Keeps e I (stampCall f s.id set) (Passes e f s passes idle) := by
  refine ((stampCall_map hI).and (stampCall_mem hI)).mono ?_
  rintro out ⟨hmap, hmem⟩
  have hiff : out.Says f ↔ set.Says f := by rw [FactSet.Says, FactSet.Says, hmap]
  exact ⟨fun hp => hiff.mpr (h.told hp), fun hidle hout => h.only hidle (hiff.mp hout),
    fun hplain hp => hmem (h.same hplain hp)⟩

theorem passes_of_rules {b : Bool} {given : Option FactSet} (hb : b ↔ passes)
    (hcond : f.inConditional → passes)
    (hgiven : f.inConditional = false ∨ e.config.implicitFlows.tracksControlFlow = false →
      given = if Rule.allInert e s.id then some [f] else none) :
    Passes e f s passes idle (if b then (given.getD []).insert f else given.getD []) := by
  cases b with
  | true =>
    have hp : passes := hb.mp rfl
    rw [if_pos rfl]
    refine ⟨fun _ => (FactSet.says_insert _ f f).mpr (.inr rfl), fun _ _ => .inr hp,
      fun hplain _ => ?_⟩
    rw [hgiven hplain]
    by_cases hinert : Rule.allInert e s.id
    · simp [hinert, FactSet.insert, FactSet.contains, Fact.same]
    · simp [hinert, FactSet.insert, FactSet.contains]
  | false =>
    -- What is inside a conditional passes, so the fact is not.
    have hp : ¬ passes := fun h => Bool.false_ne_true (hb.mpr h)
    rw [if_neg Bool.false_ne_true, hgiven (.inl (Bool.eq_false_iff.mpr (mt hcond hp)))]
    by_cases hinert : Rule.allInert e s.id
    · rw [if_pos hinert]
      exact .single (.inl hinert)
    · rw [if_neg hinert]
      have hno : ¬ (Rule.allInert e s.id ∨ passes) := fun h => h.elim hinert hp
      exact ⟨fun h => absurd h hno, fun _ h => absurd h not_mem_nil,
        fun _ h => absurd h hno⟩

end Passes

/-- **Past a call.** `passes` is the answer about the fact, and what the runtime does itself keeps
the fact; where it does nothing (`idle`) the fact goes past for no other reason. -/
theorem pastCall_tells (hmodels : e.models = none) (hstop : e.config.stopAfter = 0)
    (hlazy : e.config.aliasing.isLazy = false) (hI : Upkeep e M (fun _ => True) I)
    (hopen : ∀ w, I w → w.rules.sinksClosed = false) (hzero : e.isZero f = false)
    (hactive : f.isActive) (hpath : f.path.isEmpty = false)
    (htracked : e.config.staticFields ≠ .ignored ∨ f.path.isStaticField = false)
    (hlhs : ∀ l, s.lhs? = some (.var l) → f.path.base ≠ some l) {passes idle : Prop}
    (hpasses : Keeps e I (passesCall f f s false) fun b => b ↔ passes)
    (hcond : f.inConditional → passes)
    (hnative : ∀ c ∈ s.call?, ∀ set, Keeps e I (addNative d1 s c f set) fun out =>
      set ⊆ out ∧ (idle → out = set)) :
    Keeps e I (pastCall d1 f s) (Passes e f s passes idle) := by
  refine .read ((activateAt_active hactive).bind fun now hnow => ?_)
  subst now
  refine (Rule.applyCallToReturn_run (Rule.applyCallToReturn_told hI hpath hzero hmodels hstop hlazy
    hopen htracked hlhs)).bind ?_
  rintro ⟨_, _⟩ ⟨rfl, out, hout, rfl⟩
  dsimp only
  rw [if_neg Bool.false_ne_true, if_neg (by simp [hzero])]
  refine .dite (fun hlasts => .pure ?_) fun _ => hpasses.bind fun b hb => ?_
  · -- A conditional that lasts until the method is left lets nothing but the fact pass.
    exact .single (.inr (hcond (Fact.inConditional_of_lasts hlasts)))
  · have hset : Passes e f s passes idle
        (if b && !e.isZero f then (out.getD []).insert f else out.getD []) := by
      rw [hzero, Bool.not_false, Bool.and_true]
      exact passes_of_rules hb hcond hout
    split
    · next c hc =>
      refine (hnative c hc _).bind ?_
      rintro set ⟨hsub, hsame⟩
      exact (hset.grow hsub hsame).stampCall hI
    · exact hset.stampCall hI

end Track
end LeakTrace
