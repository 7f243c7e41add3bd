import LeakTrace.Flow.Forward

/-!
# What tracking keeps

`Track.Keeps e I act Q` says that from every world with `I` the action ends in a value with `Q` and
in a world with `I` again. One lemma for each way in which actions are put together; what a single
action does to a world is said where the invariant is. `World.Ends` follows one run, where the
answer and the world it comes with belong together.

**Rules ask one after the other.** `Rule.ask_keeps` lifts what every single rule keeps to the chain,
for facts as for worlds, and the four ways to apply a chain follow from it.
-/

namespace LeakTrace
open List Track

variable {e : Env} {I : World → Prop} {f : World → World}

/-! ## Tracking -/

/-- From a world with `I` the action ends in a value with `Q` and in a world with `I`. -/
def Track.Keeps (e : Env) (I : World → Prop) {α : Type} (act : Track α)
    (Q : α → Prop := fun _ => True) : Prop :=
  ∀ w, I w → Q ((act.run e).run w).1 ∧ I ((act.run e).run w).2

namespace Track.Keeps
variable {α β : Type} {x y : Track α} {Q Q' : α → Prop} {R : β → Prop} {c : Prop} {a : α}
  {l : List α} {s : β}

theorem pure (h : Q a) : Keeps e I (pure a) Q := fun _ hw => ⟨h, hw⟩

theorem bind {f : α → Track β} (h : Keeps e I x Q)
    (hf : ∀ a, Q a → Keeps e I (f a) R) : Keeps e I (x >>= f) R := by
  intro w hw
  obtain ⟨hq, hw'⟩ := h w hw
  exact hf _ hq _ hw'

theorem any_bind {f : α → Track β} (h : ∀ a, Keeps e (fun _ => True) (f a) R) :
    Keeps e (fun _ => True) (x >>= f) R :=
  fun _ _ => h _ _ trivial

protected theorem read {f : Env → Track β} (h : Keeps e I (f e) R) : Keeps e I (read >>= f) R :=
  fun w hw => h w hw

protected theorem get {f : World → Track β} (h : ∀ w, I w → Keeps e I (f w) R) :
    Keeps e I (get >>= f) R :=
  fun w hw => h w hw w hw

theorem modify {Q : Unit → Prop} (hq : Q ()) (h : ∀ w, I w → I (f w)) :
    Keeps e I (modify f : Track Unit) Q :=
  fun w hw => ⟨hq, h w hw⟩

theorem and (hq : Keeps e I x Q) (hq' : Keeps e I x Q') : Keeps e I x fun a => Q a ∧ Q' a :=
  fun w hw => ⟨⟨(hq w hw).1, (hq' w hw).1⟩, (hq w hw).2⟩

theorem mono (h : Keeps e I x Q) (hqq : ∀ a, Q a → Q' a) : Keeps e I x Q' :=
  fun w hw => ⟨hqq _ (h w hw).1, (h w hw).2⟩

theorem dite [Decidable c] (ht : c → Keeps e I x Q) (he : ¬c → Keeps e I y Q) :
    Keeps e I (if c then x else y) Q := by
  split
  · exact ht ‹c›
  · exact he ‹¬c›

theorem ite [Decidable c] (ht : Keeps e I x Q) (he : Keeps e I y Q) :
    Keeps e I (if c then x else y) Q :=
  .dite (fun _ => ht) fun _ => he

theorem guard [Decidable c] (h : Q a) (hx : Keeps e I x Q) :
    Keeps e I (if c then Pure.pure a else x) Q :=
  .ite (.pure h) hx

/-! ### Loops -/

theorem foldlM {f : β → α → Track β} (hstep : ∀ s, R s → ∀ a ∈ l, Keeps e I (f s a) R) (hs : R s) :
    Keeps e I (l.foldlM f s) R := by
  induction l generalizing s with
  | nil => exact pure hs
  | cons a l ih =>
    rw [foldlM_cons]
    refine (hstep s hs a mem_cons_self).bind fun s' hs' => ?_
    exact ih (fun t ht b hb => hstep t ht b (mem_cons_of_mem a hb)) hs'

theorem forIn {f : α → β → Track (ForInStep β)}
    (hstep : ∀ a ∈ l, ∀ s, R s → Keeps e I (f a s) fun r => R r.value) (hs : R s) :
    Keeps e I (forIn l s f) R := by
  induction l generalizing s with
  | nil => exact pure hs
  | cons a l ih =>
    rw [forIn_cons]
    refine (hstep a mem_cons_self s hs).bind fun r hr => ?_
    cases r with
    | done s => exact pure hr
    | yield s => exact ih (fun b hb => hstep b (mem_cons_of_mem a hb)) hr

theorem mapM {f : α → Track β} (hstep : ∀ a ∈ l, Keeps e I (f a) R) :
    Keeps e I (l.mapM f) fun bs => ∀ b ∈ bs, R b := by
  induction l with
  | nil => exact pure (by simp)
  | cons a l ih =>
    rw [mapM_cons]
    refine (hstep a mem_cons_self).bind fun b hb => ?_
    refine (ih fun c hc => hstep c (mem_cons_of_mem a hc)).bind fun bs hbs => pure ?_
    simpa using ⟨hb, hbs⟩

theorem filterMapM {f : α → Track (Option β)}
    (hstep : ∀ a ∈ l, Keeps e I (f a) fun b => ∀ c ∈ b, R c) :
    Keeps e I (l.filterMapM f) fun bs => ∀ b ∈ bs, R b := by
  induction l with
  | nil => exact pure (by simp)
  | cons a l ih =>
    rw [filterMapM_cons]
    refine (hstep a mem_cons_self).bind fun b hb => ?_
    have hrest := ih fun c hc => hstep c (mem_cons_of_mem a hc)
    cases b with
    | none => exact hrest
    | some b =>
      refine hrest.bind fun bs hbs => pure ?_
      simpa using ⟨hb b rfl, hbs⟩

end Track.Keeps

/-! ### Actions that cannot be told apart -/

/-- From a world with `I` both actions end in one value, which has `Q`, and one world, which has
`I`. -/
def Track.Agree (e : Env) (I : World → Prop) {α : Type} (x y : Track α)
    (Q : α → Prop := fun _ => True) : Prop :=
  Track.Keeps e I x Q ∧ ∀ w, I w → (x.run e).run w = (y.run e).run w

namespace Track.Agree
variable {α β : Type} {x y x' y' : Track α} {Q : α → Prop} {R : β → Prop}

theorem refl (h : Keeps e I x Q) : Agree e I x x Q := ⟨h, fun _ _ => rfl⟩

theorem bind {f g : α → Track β} (h : Agree e I x y Q)
    (hf : ∀ a, Q a → Agree e I (f a) (g a) R) : Agree e I (x >>= f) (y >>= g) R := by
  refine ⟨h.1.bind fun a ha => (hf a ha).1, fun w hw => ?_⟩
  obtain ⟨hq, hw'⟩ := h.1 w hw
  calc ((x >>= f).run e).run w
    _ = ((g ((x.run e).run w).1).run e).run ((x.run e).run w).2 := (hf _ hq).2 _ hw'
    _ = ((y >>= g).run e).run w := by rw [h.2 w hw]; rfl

protected theorem read {f g : Env → Track β} (h : Agree e I (f e) (g e) R) :
    Agree e I (read >>= f) (read >>= g) R :=
  h

theorem ite {c : Prop} [Decidable c] (ht : Agree e I x y Q) (he : Agree e I x' y' Q) :
    Agree e I (if c then x else x') (if c then y else y') Q := by
  by_cases hc : c
  · rwa [if_pos hc, if_pos hc]
  · rwa [if_neg hc, if_neg hc]

theorem foldlM {f g : β → α → Track β} {l : List α} {s : β}
    (hstep : ∀ s, R s → ∀ a ∈ l, Agree e I (f s a) (g s a) R) (hs : R s) :
    Agree e I (l.foldlM f s) (l.foldlM g s) R := by
  induction l generalizing s with
  | nil => exact refl (.pure hs)
  | cons a l ih =>
    rw [foldlM_cons, foldlM_cons]
    refine (hstep s hs a mem_cons_self).bind fun s' hs' => ?_
    exact ih (fun t ht b hb => hstep t ht b (mem_cons_of_mem a hb)) hs'

end Track.Agree

/-- What is derived from the fact, for the path that is made, has `P`. -/
abbrev Track.Obtains (e : Env) (I : World → Prop) (P : Fact → Prop) (f : Fact)
    (path : Paths (Option AccessPath)) (stmt : Option StmtId) : Prop :=
  Track.Keeps e I (do Track.derive f (← Track.paths path) stmt) fun o => ∀ g ∈ o, P g

/-! ## Answers and the worlds they come with -/

section Ends
variable {α β : Type} {x : Track α} {w : World}

/-- Run in the world, the action ends with an answer and a world as `Q` says. -/
def World.Ends (w : World) (e : Env) {α : Type} (act : Track α) (Q : α → World → Prop) : Prop :=
  Q ((act.run e).run w).1 ((act.run e).run w).2

namespace World.Ends
variable {Q : α → World → Prop}

theorem bind {g : α → Track β} {J : β → World → Prop} (h : w.Ends e x Q)
    (hg : ∀ a w', Q a w' → w'.Ends e (g a) J) : w.Ends e (x >>= g) J :=
  hg _ _ h

protected theorem read {g : Env → Track α} (h : w.Ends e (g e) Q) : w.Ends e (read >>= g) Q := h

protected theorem get {g : World → Track α} (h : w.Ends e (g w) Q) : w.Ends e (get >>= g) Q := h

theorem mono {J : α → World → Prop} (h : w.Ends e x Q) (hj : ∀ a w', Q a w' → J a w') :
    w.Ends e x J :=
  hj _ _ h

theorem and {R : α → World → Prop} (h : w.Ends e x Q) (h' : w.Ends e x R) :
    w.Ends e x fun a w' => Q a w' ∧ R a w' :=
  ⟨h, h'⟩

end World.Ends

theorem Track.Keeps.ends {Q : α → Prop} (h : Keeps e I x Q) (hw : I w) :
    w.Ends e x fun a w' => Q a ∧ I w' :=
  h w hw

end Ends

/-! ## Sets of facts -/

namespace FactSet
variable {P : Fact → Prop} {s : FactSet} {f : Fact}

abbrev All (P : Fact → Prop) (s : FactSet) : Prop := ∀ g ∈ s, P g

theorem All.nil : FactSet.All P [] := fun _ hg => nomatch hg

theorem All.insert (h : s.All P) (hf : P f) : (s.insert f).All P := by
  unfold FactSet.insert
  split
  · exact h
  · intro g hg
    rcases mem_append.mp hg with hg | hg
    · exact h g hg
    · rw [mem_singleton.mp hg]
      exact hf

theorem All.singleton (h : P f) : FactSet.All P [f] := by
  intro g hg
  rw [mem_singleton.mp hg]
  exact h

theorem All.insertAll {l : List Fact} (h : s.All P) (hl : ∀ g ∈ l, P g) :
    (s.insertAll l).All P := by
  unfold FactSet.insertAll
  induction l generalizing s with
  | nil => exact h
  | cons g l ih =>
    exact ih (h.insert (hl g mem_cons_self)) fun k hk => hl k (mem_cons_of_mem g hk)

theorem All.erase (h : s.All P) : (s.erase f).All P := fun g hg => h g (mem_filter.mp hg).1

abbrev AllOpt (P : Fact → Prop) (s : Option FactSet) : Prop := ∀ t ∈ s, FactSet.All P t

theorem AllOpt.none : AllOpt P none := fun _ ht => nomatch ht

theorem AllOpt.some (h : s.All P) : AllOpt P (some s) := by
  intro t ht
  cases ht
  exact h

theorem AllOpt.getD {s : Option FactSet} (h : AllOpt P s) : (s.getD []).All P := by
  cases s with
  | none => exact All.nil
  | some t => exact h t rfl

end FactSet

/-! ## Rules -/

/-- Whatever was asked to be dropped before, the rule keeps `I` and answers with `Q`. -/
def RuleM.Keeps (e : Env) (I : World → Prop) {α : Type} (x : RuleM α)
    (Q : α → Prop := fun _ => True) : Prop :=
  ∀ k : Kill, Track.Keeps e I (x.run k) fun p => Q p.1

namespace RuleM.Keeps
variable {α β : Type} {x y : RuleM α} {Q : α → Prop} {R : β → Prop} {c : Prop} {a : α}

theorem pure (h : Q a) : Keeps e I (pure a) Q := fun _ => .pure h

theorem bind {f : α → RuleM β} (h : Keeps e I x Q)
    (hf : ∀ a, Q a → Keeps e I (f a) R) : Keeps e I (x >>= f) R := by
  intro k
  rw [StateT.run_bind]
  exact (h k).bind fun p hp => hf p.1 hp p.2

theorem dite [Decidable c] (ht : c → Keeps e I x Q) (he : ¬c → Keeps e I y Q) :
    Keeps e I (if c then x else y) Q := by
  split
  · exact ht ‹c›
  · exact he ‹¬c›

theorem ite [Decidable c] (ht : Keeps e I x Q) (he : Keeps e I y Q) :
    Keeps e I (if c then x else y) Q :=
  .dite (fun _ => ht) fun _ => he

theorem guard [Decidable c] (h : Q a) (hx : Keeps e I x Q) :
    Keeps e I (if c then Pure.pure a else x) Q :=
  .ite (.pure h) hx

theorem lift {x : Track α} (h : Track.Keeps e I x Q) : Keeps e I (liftM x) Q := by
  intro k
  change Track.Keeps e I (x >>= fun a => Pure.pure (a, k)) _
  exact h.bind fun _ ha => .pure ha

theorem lift_bind {x : Track α} {f : α → RuleM β} (h : Track.Keeps e I x Q)
    (hf : ∀ a, Q a → Keeps e I (f a) R) : Keeps e I (liftM x >>= f) R :=
  bind (lift h) hf

theorem andThen {x : RuleM Unit} {u : RuleM β} (h : Keeps e I x) (hrest : Keeps e I u R) :
    Keeps e I (x >>= fun _ => u) R :=
  bind h fun _ _ => hrest

protected theorem read {f : Env → RuleM β} (h : Keeps e I (f e) R) :
    Keeps e I (read >>= f) R :=
  fun k => h k

theorem getWorld_bind {f : World → RuleM β} (h : ∀ w, I w → Keeps e I (f w) R) :
    Keeps e I (getThe World >>= f) R :=
  fun k w hw => h w hw k w hw

theorem getKill_bind {f : Kill → RuleM β} (h : ∀ k, Keeps e I (f k) R) :
    Keeps e I (getThe Kill >>= f) R :=
  fun k => h k k

theorem modifyWorld {Q : PUnit → Prop} (hq : Q ⟨⟩) (h : ∀ w, I w → I (f w)) :
    Keeps e I (modifyThe World f : RuleM PUnit) Q :=
  fun _ w hw => ⟨hq, h w hw⟩

theorem setKill (k : Kill) {Q : PUnit → Prop} (hq : Q ⟨⟩) :
    Keeps e I (set k : RuleM PUnit) Q :=
  fun _ => .pure hq

theorem killAll {Q : Unit → Prop} (hq : Q ()) : Keeps e I RuleM.killAll Q :=
  fun _ => .pure hq

theorem killSource {Q : Unit → Prop} (hq : Q ()) : Keeps e I RuleM.killSource Q :=
  fun _ => .pure hq

/-- A step that is only made on a condition, and what follows either way. -/
theorem optional [Decidable c] {x : RuleM Unit} {u : RuleM β} (h : Keeps e I x)
    (hrest : Keeps e I u R) : Keeps e I (if c then x >>= fun _ => u else u) R :=
  .ite (h.bind fun _ _ => hrest) hrest

end RuleM.Keeps

namespace Rule
open FactSet (All AllOpt)
variable {P : Fact → Prop} {rules : List Rule} {d1 f : Fact}

theorem ask_keeps {hook : Rule → RuleM (Option FactSet)}
    {acc : Option FactSet} (hhook : ∀ r ∈ rules, RuleM.Keeps e I (hook r) (AllOpt P))
    (hacc : AllOpt P acc) : RuleM.Keeps e I (ask hook rules acc) (AllOpt P) := by
  induction rules generalizing acc with
  | nil => exact .pure hacc
  | cons r rest ih =>
    refine (hhook r mem_cons_self).bind fun out hout => .getKill_bind fun k => ?_
    refine .guard .none ?_
    refine ih (fun q hq => hhook q (mem_cons_of_mem r hq)) ?_
    cases out with
    | none => cases acc <;> exact hacc
    | some out =>
      have hout : All P out := hout out rfl
      cases acc with
      | none =>
        exact .some (All.nil.insertAll hout)
      | some set =>
        exact .some ((hacc set rfl).insertAll hout)

theorem applyNormal_keeps {s dest : Stmt} (hf : P f)
    (h : ∀ r ∈ rules, RuleM.Keeps e I (r.normal d1 f s dest) (AllOpt P)) :
    RuleM.Keeps e I (applyNormal rules d1 f s dest) (All P) := by
  refine (ask_keeps h .none).bind fun out hout => .getKill_bind fun k => ?_
  refine .guard .nil <| .pure ?_
  split
  · exact hout.getD
  · exact hout.getD.insert hf

theorem applyCallToReturn_keeps {s : Stmt} {pass : Bool} (hf : P f)
    (h : ∀ r ∈ rules, RuleM.Keeps e I (r.callToReturn d1 f s) (AllOpt P)) :
    RuleM.Keeps e I (applyCallToReturn rules d1 f s pass) (All P) := by
  refine (ask_keeps h .none).bind fun out hout => .getKill_bind fun k => ?_
  refine .guard .nil <| .pure ?_
  split
  · exact hout.getD.insert hf
  · exact hout.getD

theorem applyReturn_keeps {callers : List Fact} {exit : Stmt} {ret call : Option Stmt}
    (h : ∀ r ∈ rules, RuleM.Keeps e I (r.ret callers d1 f exit ret call) (AllOpt P)) :
    RuleM.Keeps e I (applyReturn rules callers d1 f exit ret call) (AllOpt P) :=
  ask_keeps h .none

/-- What holds of all rules holds of those in use. Control dependencies are only looked at where the
configuration asks for it. -/
theorem chain_cases {P : Rule → Prop} {r : Rule} (hr : r ∈ chain e) (hsource : P source)
    (hsink : P sink) (hstatic : P staticField) (harray : P array) (hexception : P exception)
    (hwrapper : P wrapper) (himplicit : e.config.implicitFlows.tracksControlFlow → P implicit)
    (hupdate : P strongUpdate) (htyping : P typing) (hskip : P skipSystemClass)
    (hstop : P (stopAfter e.config.stopAfter)) : P r := by
  simp only [chain, mem_append, mem_cons, not_mem_nil, or_false, mem_ite_nil_right] at hr
  rcases hr with hr | ⟨-, rfl⟩
  · grind
  · exact hstop

/-! ### Rules that only object -/

variable {s dest : Stmt}

theorem strongUpdate_normal_keeps :
    RuleM.Keeps e I (strongUpdate.normal d1 f s dest) (AllOpt P) := by
  unfold strongUpdate
  dsimp only
  split
  · refine .guard .none <| .ite ?_ <| .ite ?_ ?_
    · split
      · exact .optional (.killAll trivial) (.pure .none)
      · exact .optional (.killAll trivial) (.pure .none)
      · exact .pure .none
    · split
      · exact .optional (.killAll trivial) (.pure .none)
      · exact .pure .none
    · split
      · refine .ite ?_ <| .pure .none
        exact .andThen (.setKill _ trivial) (.pure .none)
      · exact .pure .none
  · exact .pure .none

theorem typing_normal_keeps : RuleM.Keeps e I (typing.normal d1 f s dest) (AllOpt P) := by
  refine .read (.guard .none ?_)
  split
  · exact .optional (.killAll trivial) (.pure .none)
  · exact .pure .none

theorem stopAfter_keeps (k : Nat) : RuleM.Keeps e I (do
    if (← getThe World).results.length ≥ k then RuleM.killAll
    return none) (AllOpt P) :=
  .getWorld_bind fun _ _ => .optional (.killAll trivial) (.pure .none)

end Rule
end LeakTrace
