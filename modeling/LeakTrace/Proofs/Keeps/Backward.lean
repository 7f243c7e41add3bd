import LeakTrace.Proofs.Keeps.Callees

/-!
# What an alias search keeps

The flow functions of the alias search, for a property of facts and of worlds that is left open.
**Everything a search makes is made in one way**: the fact is moved to a value of the statement,
under the type that the verdict settles, and handed to the forward solver. `Backward.Crosses` says
what that has to keep at one statement, and the functions above it are gone through once, here.
-/

namespace LeakTrace
open Track
open FactSet (All AllOpt)

namespace Backward
variable {e : Env} {I : World → Prop} {W : Value → Prop} {T : Option Ty → Prop} {P G : Fact → Prop}
  {d1 f g : Fact} {s : Stmt} {n t : StmtId} {set : FactSet} {o : Option Fact} {callee : Method}
  {c : Call}

/-! ## Statements -/

/-- Across the statement, facts with `P` that are moved to values with `W` under types with `T` have
`P`, and `G` on static fields, so that they can be handed on. -/
structure Crosses (e : Env) (I : World → Prop) (W : Value → Prop) (T : Option Ty → Prop)
    (P G : Fact → Prop) (d1 : Fact) (s : Stmt) : Prop where
  lhs : ∀ v ∈ s.lhs?, W v
  rhs : ∀ lhs rhs, s.action = .assign lhs rhs → W rhs
  root : ∀ v b, W v → W (v.root b)
  noTy : T none
  leftTy : ∀ lhs rhs f ty cutFirst, W lhs → W rhs → P f →
    leftVerdict e lhs rhs f.path = .alias ty cutFirst → T ty
  rightTy : ∀ lhs rhs f ty cutFirst, W rhs → P f →
    rightVerdict e lhs rhs f.path = .alias ty cutFirst → T (takenOver e lhs rhs ty).1
  moved : ∀ f v ty cutFirst, P f → W v → T ty → Track.Keeps e I (do
    Track.derive f (← Track.paths (Paths.ontoTyped f.accessPath v ty cutFirst)) (some s.id))
    fun o => ∀ g ∈ o, P g ∧ (v.isGlobal = true → G g)
  share : ∀ g, e.config.staticFields = .insensitive → G g → Track.Keeps e I (Track.addGlobal g)
  hand : ∀ g, P g → Track.Keeps e I (handForward d1 s.id g)

theorem mem_of_mem_aliasable (hg : aliasable o = some g) : g ∈ o :=
  (Option.filter_eq_some_iff.mp hg).1

theorem all_erase {b : Bool} (hset : set.All P) : All P (if b then set.erase f else set) := by
  cases b with
  | false => exact hset
  | true => exact hset.erase

theorem all_aliasable (h : ∀ g ∈ o, P g) : ∀ g ∈ aliasable o, P g :=
  fun g hg => h g (mem_of_mem_aliasable hg)

theorem isBarred_keeps {m : MethodId} : Keeps e I (isBarred f s m) :=
  .read (.guard trivial <| isActivating_keeps.bind fun _ _ =>
    .guard trivial <| .pure trivial)

namespace Crosses
variable (h : Crosses e I W T P G d1 s) {rhs lhs : Value}
include h

theorem takeTyped {v : Value} {ty : Option Ty} {fits cutFirst : Bool} (hv : W v) (hty : T ty)
    (hf : P f) (hset : set.All P) :
    Keeps e I (do
      if f.path.isInstanceField && (ty.any isPrimitiveLike || isPrimitiveLike v.ty) then
        return none
      if !fits || !e.casts.check v.ty ty || (v.isGlobal && e.config.staticFields == .ignored) then
        return some set
      let path ← paths (Paths.ontoTyped f.accessPath v ty cutFirst)
      match aliasable (← derive f path (some s.id)) with
      | none => return some set
      | some g =>
        if g.path == f.path then return some set
        if v.isGlobal && e.config.staticFields == .insensitive then
          let _ ← addGlobal g
          return some set
        handForward d1 s.id g
        return some (set.insert g)) (AllOpt P) := by
  refine .guard .none <| .guard (.some hset) ?_
  rw [← bind_assoc]
  refine (h.moved f v ty cutFirst hf hv hty).bind fun o ho => ?_
  split
  · exact .pure (.some hset)
  · next g hg =>
    obtain ⟨hg, hglobal⟩ := ho g (mem_of_mem_aliasable hg)
    refine .guard (.some hset) <| .dite (fun hstatic => ?_) fun _ => ?_
    · -- A static field is handed to all who read it, wherever they are.
      obtain ⟨hv, hstatic⟩ := Bool.and_eq_true_iff.mp hstatic
      exact (h.share g (by simpa using hstatic) (hglobal hv)).bind fun _ _ => .pure (.some hset)
    · exact (h.hand g hg).bind fun _ _ => .pure (.some (hset.insert hg))

theorem acrossRight (lhs : Value) (hr : W rhs) (hf : P f) (hset : set.All P) :
    Keeps e I (do
      if !(rhs.root false).isTracked || lhs.ty.isPrimitive then
        return some set
      match rightVerdict e lhs rhs f.path with
      | .dead => return none
      | .settled | .unrelated => return some set
      | .alias ty cutFirst => takeRight d1 s lhs rhs f set ty cutFirst) (AllOpt P) := by
  refine .guard (.some hset) ?_
  split
  · exact .pure .none
  · exact .pure (.some hset)
  · exact .pure (.some hset)
  · next ty cutFirst hverdict =>
    refine .read (h.takeTyped (h.root rhs false hr) ?_ hf hset)
    split
    · exact h.noTy
    · exact h.rightTy lhs rhs f ty cutFirst hr hf hverdict

theorem acrossAssign (hl : W lhs) (hr : W rhs) (hf : P f) :
    Keeps e I (Backward.acrossAssign d1 s lhs rhs f) (AllOpt P) := by
  have hset : All P (if f.path.hasRoot lhs then [] else [f]) := by
    split
    · exact .nil
    · exact .singleton hf
  have hright := h.acrossRight lhs hr hf hset
  refine .read (.guard (.some hset) <| .guard (.some hset) <| .ite ?_ hright)
  split
  · exact .pure .none
  · exact .pure (.some hset)
  · exact hright
  · next ty cutFirst hverdict =>
    rw [← bind_assoc]
    refine (h.moved f lhs ty cutFirst hf hl (h.leftTy lhs rhs f ty cutFirst hl hr hf hverdict)).bind
      fun o ho => ?_
    split
    · next g hg =>
      refine .ite ?_ hright
      exact (h.hand g (ho g (mem_of_mem_aliasable hg)).1).bind fun _ _ => hright
    · exact hright

theorem acrossDefinition (hlhs : s.lhs? = some lhs) (hf : P f) :
    Keeps e I (Backward.acrossDefinition d1 s (lhs.root true) f) (All P) := by
  refine .read (.guard .nil ?_)
  split
  · exact .pure (.singleton hf)
  · next rhs hact =>
    exact (h.acrossAssign (h.root lhs true (h.lhs lhs hlhs)) (h.rhs _ rhs hact) hf).bind fun _ ho =>
      .pure ho.getD
  · exact .pure .nil

theorem pastCall (hshared : Keeps e I (sharingAliases s f) fun o => ∀ l ∈ o, All P l) (hf : P f) :
    Keeps e I (Backward.pastCall d1 f s) (All P) := by
  refine .read (.guard .nil <| hshared.bind fun o ho => ?_)
  split
  · refine .foldlM (fun set hset g hg => ?_) .nil
    have hg : P g := ho _ rfl g hg
    have hkeep : All P (if s.lhs?.any g.path.isOn then set else set.insert g) := by
      split
      · exact hset
      · exact hset.insert hg
    refine .ite ?_ <| .pure hkeep
    exact (h.hand g hg).bind fun _ _ => .pure hkeep
  · refine .pure ?_
    split
    · exact .singleton hf
    · exact .nil

end Crosses

theorem normal_crosses (hn : Crosses e I W T P G d1 (e.stmt n))
    (ht : Crosses e I W T P G d1 (e.stmt t)) (hf : P f) :
    Keeps e I (normal d1 f n t) fun o => All P o.facts ∧ o.contexts = [] := by
  refine .read ?_
  dsimp only
  split
  · exact .pure ⟨.singleton hf, rfl⟩
  · next lhs hlhs =>
    refine .guard ⟨.nil, rfl⟩ <|
      (hn.acrossDefinition hlhs hf).bind fun set hset => ?_
    have hset' : All P (if f.turn == some n then set.erase f else set) := all_erase hset
    -- The destination is passed for what it asks the other solver for; its facts are dropped.
    refine .ite ?_ <| .pure ⟨hset', rfl⟩
    split
    · next lhs' hlhs' =>
      refine Keeps.bind (.forIn (R := fun _ => True) (fun g hg _ _ => ?_) trivial)
        fun _ _ => .pure ⟨hset', rfl⟩
      exact (ht.acrossDefinition hlhs' (hset' g hg)).bind fun _ _ => .pure trivial
    · exact .pure ⟨hset', rfl⟩

/-! ## Returns -/

/-- Two arguments that are one object: `P` holds of what is moved to the other parameter. -/
theorem handParamAliases_keeps_of {callee : Method} {c : Call} {i : Nat} {l : Local} {arg : Value}
    (hmoved : ∀ q ∈ callee.params, Obtains e I P f
      (Paths.ontoTyped g.accessPath (.var q) g.accessPath.ty false) (some n))
    (hsend : ∀ k, P k → Keeps e I (do
      sendEdge .forward d1 n (k.turnAt (← fresh) n))) (hf : P f) :
    Keeps e I (handParamAliases d1 f g n callee c i l arg) := by
  refine .read (.guard trivial ?_)
  refine Keeps.bind (.forIn (R := fun _ => True) (fun x _ _ _ => ?_) trivial) fun _ _ => ?_
  · refine .ite ?_ <| .pure trivial
    split
    · next q hq =>
      rw [← bind_assoc]
      refine (hmoved q (List.mem_of_getElem? hq)).bind fun o ho => ?_
      split
      · next k hk =>
        rw [← bind_assoc]
        exact (hsend k (ho k (mem_of_mem_aliasable hk))).bind fun _ _ => .pure trivial
      · exact .pure trivial
    · exact .pure trivial
  · exact .ite (hsend f hf) <| .pure trivial

theorem aboveCallee_keeps_of
    (hmove : ∀ v, W v → Keeps e I (moveUp f n s.id callee.id v) fun o => ∀ g ∈ o, P g)
    (hhand : ∀ g i l arg, P g → Keeps e I (handParamAliases d1 f g n callee c i l arg))
    (hbase : ∀ b ∈ c.base, W (.var b)) (hargs : ∀ v ∈ c.args, W v) :
    Keeps e I (aboveCallee d1 f n callee s c) (All P) := by
  refine .read (Keeps.bind (Q := All P)
    (.foldlM (fun set hset x hx => ?_) .nil) fun set hset => ?_)
  · dsimp only
    split
    · exact .pure hset
    · next arg harg =>
      refine .guard hset <|
        (hmove arg (hargs arg (List.mem_of_getElem? harg))).bind fun o ho => ?_
      split
      · exact .pure hset
      · next g =>
        exact (hhand g _ _ _ (ho g rfl)).bind fun _ _ => .pure (hset.insert (ho g rfl))
  · refine .guard hset ?_
    split
    · next this base _ hb =>
      refine .ite ?_ <| .pure hset
      exact (hmove _ (hbase base hb)).bind fun _ ho =>
        .pure (hset.insertAll fun g hg => ho g (Option.mem_toList.mp hg))
    · exact .pure hset

end Backward
end LeakTrace
