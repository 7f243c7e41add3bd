import LeakTrace.Proofs.Keeps.Logic
import LeakTrace.Proofs.Vocabulary.Basic

/-!
# What looking for aliases keeps

Searches for aliases and models of library methods, for a property of facts and of worlds that is
left open. **All they make is derived from a fact they have**, for a path that comes from a value of
the program or from a path that was there before. What that keeps is asked for here, in
`PointsToSearch` and `LibraryCall`, and the searches are gone through once.
-/

namespace LeakTrace
open List
open FactSet (All AllOpt)

namespace Track
variable {e : Env} {I : World → Prop} {W : Value → Prop} {A : Step → Prop} {N : StmtId → Prop}
  {Q : AccessPath → Prop} {P : Fact → Prop} {f d1 g : Fact} {a : AccessPath} {s : Stmt}
  {set : FactSet} {target : Value} {pairs : List (AccessPath × AccessPath)}
  {path : Paths (Option AccessPath)}

/-! ## Conditionally called methods -/

theorem heapPairs_keeps_of {m : Method}
    (hbody : ∀ n ∈ m.body, ∀ lhs rhs, (e.stmt n).action = .assign lhs rhs → W lhs ∧ W rhs)
    (hof : ∀ v, W v → Keeps e I (paths (Paths.ofValue v true)) fun o => ∀ a ∈ o, Q a) :
    Keeps e I (heapPairs m) fun pairs => ∀ q ∈ pairs, Q q.2 := by
  refine .read (Keeps.bind (.mapM (R := fun pairs => ∀ q ∈ pairs, Q q.2) fun n hn => ?_)
    fun pairs hpairs => .pure ?_)
  · split
    · next lhs rhs hact =>
      obtain ⟨hlhs, hrhs⟩ := hbody n hn lhs rhs hact
      dsimp only
      refine .ite ?_ <| .pure (forall_mem_nil _)
      refine (hof lhs hlhs).bind fun x hx => (hof rhs hrhs).bind fun y hy => ?_
      split
      · next a b =>
        refine .pure fun q hq => ?_
        simp only [mem_cons, not_mem_nil, or_false] at hq
        rcases hq with rfl | rfl
        · exact hy b rfl
        · exact hx a rfl
      · exact .pure (forall_mem_nil _)
    · exact .pure (forall_mem_nil _)
  · intro q hq
    obtain ⟨l, hl, hq⟩ := mem_flatten.mp hq
    exact hpairs l hl q hq

theorem forall_mem_foldl_partners (hpairs : ∀ q ∈ pairs, Q q.2) {found : List AccessPath}
    (hfound : ∀ y ∈ found, Q y) :
    ∀ y ∈ pairs.foldl (fun found (x, y) =>
      if x.same a && !found.any y.same then found ++ [y] else found) found, Q y := by
  induction pairs generalizing found with
  | nil => exact hfound
  | cons q rest ih =>
    refine ih (fun k hk => hpairs k (mem_cons_of_mem q hk)) ?_
    dsimp only
    split
    · intro y hy
      rcases mem_append.mp hy with hy | hy
      · exact hfound y hy
      · rw [mem_singleton.mp hy]
        exact hpairs q mem_cons_self
    · exact hfound

/-- A search by heap assignments whose two sides have `Q`, for targets with `W`: facts with `P` stay
so when they move from one side to the other. -/
structure MethodSearch (e : Env) (I : World → Prop) (W : Value → Prop) (Q : AccessPath → Prop)
    (P : Fact → Prop) : Prop where
  ofBase : ∀ b x, W (.field b x) → Keeps e I (paths (Paths.ofValue (.var b) true))
  merge : ∀ f y, P f → Q y → Obtains e I P f (Paths.merge y f.accessPath) none
  target : ∀ y l x, Q y → y.base = some l → y.firstField? = some x → W (.field l x)

namespace MethodSearch
variable (h : MethodSearch e I W Q P) (hpairs : ∀ q ∈ pairs, Q q.2)
include h hpairs

theorem aliasesByPairs {search search' : Value → FactSet → Fact → Track FactSet}
    {R : FactSet → Prop} (hinsert : ∀ set g, R set → P g → R (set.insert g))
    (hsearch : ∀ t set g, W t → R set → set.contains g = false → P g →
      Agree e I (search t (set.insert g) g) (search' t (set.insert g) g) R)
    (ht : W target) (hset : R set) (hf : P f) :
    Agree e I (Track.aliasesByPairs pairs search target set f)
      (Track.aliasesByPairs pairs search' target set f) R := by
  cases target with
  | field base field =>
    refine (Agree.refl (h.ofBase base field ht)).bind fun b _ => ?_
    cases b with
    | none => exact .refl (.pure hset)
    | some b =>
      refine .foldlM (fun set hset y hy => ?_) hset
      have hy : Q y := forall_mem_foldl_partners hpairs (forall_mem_nil _) y hy
      rw [← bind_assoc, ← bind_assoc]
      refine (Agree.refl (h.merge f y hf hy)).bind fun o ho => ?_
      cases o with
      | none => exact .refl (.pure hset)
      | some g =>
        have hg : P g := ho g rfl
        dsimp only
        by_cases hnew : set.contains g
        · rw [if_pos hnew, if_pos hnew]
          exact .refl (.pure hset)
        · rw [if_neg hnew, if_neg hnew]
          have hall := hinsert set g hset hg
          cases hl : y.base with
          | none => exact .refl (.pure hall)
          | some l =>
            cases hx : y.firstField? with
            | none => exact .refl (.pure hall)
            | some x => exact hsearch _ set g (h.target y l x hy hl hx) hset (by simpa using hnew) hg
  | _ => exact .refl (.pure hset)

theorem methodAliases (n : Nat) (ht : W target) (hset : set.All P) (hf : P f) :
    Keeps e I (Track.methodAliases n pairs target set f) (All P) := by
  -- Aliases of aliases are looked for with one step less, starting from other facts and targets.
  induction n generalizing target set f with
  | zero => exact .pure hset
  | succ n ih =>
    exact (h.aliasesByPairs hpairs (fun _ _ => All.insert)
      (fun _ _ _ ht hset _ hg => .refl (ih ht (hset.insert hg) hg)) ht hset hf).1

end MethodSearch

/-! ## Points-to sets -/

/-- `J` holds while a search goes on that is a new one. -/
theorem searchOnce_agree {J : World → Prop} {m : MethodId} {appended : List Step} {deep : Bool}
    {act : StmtId} {search search' : Fact → List Step → Bool → StmtId → Track Unit}
    (hJ : ∀ w, J w → I w)
    (hnew : ∀ w, I w → (m, f.toTaint, d1.toTaint) ∉ w.searched →
      J { w with searched := w.searched.insert (m, f.toTaint, d1.toTaint) })
    (h : Agree e J (aliasesOf search d1 m f appended deep act)
      (aliasesOf search' d1 m f appended deep act)) :
    Agree e I (searchOnce d1 m search f appended deep act)
      (searchOnce d1 m search' f appended deep act) := by
  refine forall_and.mp fun w => forall_and.mp fun hw => ?_
  change (True ∧ I (((if w.searched.contains (m, f.toTaint, d1.toTaint) then pure () else
      _ : Track Unit).run e).run w).2) ∧
    ((if w.searched.contains (m, f.toTaint, d1.toTaint) then pure () else
      _ : Track Unit).run e).run w =
    ((if w.searched.contains (m, f.toTaint, d1.toTaint) then pure () else
      _ : Track Unit).run e).run w
  split
  · exact ⟨⟨trivial, hw⟩, rfl⟩
  · next hnot =>
    have hw' := hnew w hw hnot
    exact ⟨⟨trivial, hJ _ (h.1 _ hw').2⟩, h.2 _ hw'⟩

/-- A search by points-to sets at statements with `N`, whose values have `W`: facts with `P` stay so
when steps with `A` are put on them or taken off, and can be sent. -/
structure PointsToSearch (e : Env) (I : World → Prop) (W : Value → Prop) (A : Step → Prop)
    (N : StmtId → Prop) (P : Fact → Prop) (d1 : Fact) : Prop where
  lhs : ∀ n, N n → ∀ v ∈ (e.stmt n).lhs?, W v
  rhs : ∀ n, N n → ∀ v ∈ (e.stmt n).rhs?, W v
  steps : ∀ f, P f → ∀ x ∈ f.path.steps, A x
  append : ∀ f l deep n, P f → (∀ x ∈ l, A x) →
    Obtains e I P f (Paths.append f.accessPath l deep) (some n)
  make : ∀ f v l deep n, P f → W v → (∀ x ∈ l, A x) →
    Obtains e I P f (Paths.make { value := some v, steps := l, deep }) (some n)
  dropLast : ∀ f, P f → Obtains e I P f (Paths.dropLast f.accessPath) none
  waitIf : ∀ f before act, P f → N act → Keeps e I (waitIf before act f) P
  send : ∀ f n, P f → N n → Keeps e I (sendEdge .forward d1 n f)
  remember : ∀ w key, I w → I { w with searched := w.searched.insert key }

namespace PointsToSearch
variable {n act : StmtId} {m : MethodId} {appended : List Step} {deep before : Bool}
  (h : PointsToSearch e I W A N P d1)
include h

theorem sendAlias (hpath : Obtains e I P f path (some n)) (hact : N act) (hn : N n) :
    Keeps e I (do Track.sendAlias d1 f (← paths path) act before n) := by
  unfold Track.sendAlias
  rw [← bind_assoc]
  refine hpath.bind fun o ho => ?_
  split
  · next g => exact (h.waitIf g before act (ho g rfl) hact).bind fun k hk => h.send k n hk hn
  · exact .pure trivial

theorem aliasesAt {search search' : Fact → StmtId → Track Unit}
    (hsearch : ∀ g n, P g → N n → Agree e I (search g n) (search' g n)) (hf : P f)
    {target : PointsToTarget} (happ : ∀ x ∈ appended, A x) (hact : N act) (hn : N n) :
    Agree e I (Track.aliasesAt search d1 f target appended deep act before n)
      (Track.aliasesAt search' d1 f target appended deep act before n) := by
  refine .read ?_
  dsimp only
  split
  · exact .refl (.ite (h.sendAlias (h.append f appended deep n hf happ) hact hn) (.pure trivial))
  · split
    · next lhs rhs hlhs hrhs =>
      have hsend : Keeps e I (do
          if isHeapOperand lhs && isHeapOperand rhs && (PointsToTarget.ofValue? lhs).any
              fun x => e.pointsTo.mayAlias e.hierarchy target x then
            let path ← paths (Paths.make { value := some rhs, steps := appended, deep })
            Track.sendAlias d1 f path act before n) :=
        .ite (h.sendAlias (h.make f rhs appended deep n hf (h.rhs n hn rhs hrhs) happ)
          hact hn) <| .pure trivial
      refine .ite ?_ (.refl hsend)
      rw [← bind_assoc, ← bind_assoc]
      refine (Agree.refl (h.make f lhs appended deep n hf (h.lhs n hn lhs hlhs) happ)).bind
        fun o ho => ?_
      cases o with
      | none => exact .refl hsend
      | some g =>
        exact (Agree.refl (h.waitIf g before act (ho g rfl) hact)).bind fun k hk =>
          (hsearch k n hk hn).bind fun _ _ => .refl hsend
    · exact .refl (.pure trivial)

section
variable (hm : ∀ k ∈ (e.method m).body, N k)
include hm

theorem aliasesOf {search search' : Fact → List Step → Bool → StmtId → Track Unit}
    (hsearch : ∀ g l deep n, P g → (∀ x ∈ l, A x) → N n →
      Agree e I (search g l deep n) (search' g l deep n))
    (hf : P f) (happ : ∀ x ∈ appended, A x) (hact : N act) :
    Agree e I (Track.aliasesOf search d1 m f appended deep act)
      (Track.aliasesOf search' d1 m f appended deep act) := by
  have hbody : Agree e I (aliasesIn (fun g s => search g [] g.path.deep s) d1 m f appended deep act)
      (aliasesIn (fun g s => search' g [] g.path.deep s) d1 m f appended deep act) := by
    refine .read (.ite (.refl (.pure trivial)) ?_)
    cases PointsToTarget.ofPath? f.accessPath.toPath with
    | none => exact .refl (.pure trivial)
    | some target =>
      refine Agree.bind (.foldlM (R := fun _ => True) (fun before _ n hn => ?_) trivial)
        fun _ _ => .refl (.pure trivial)
      exact (h.aliasesAt (fun g n hg hn => hsearch g _ _ n hg (forall_mem_nil _) hn) hf happ hact
        (hm n hn)).bind fun _ _ => .refl (.pure trivial)
  refine .ite ?_ hbody
  cases hlast : f.accessPath.steps.getLast? with
  | none => exact hbody
  | some last =>
    dsimp only
    rw [← bind_assoc, ← bind_assoc]
    refine (Agree.refl (h.dropLast f hf)).bind fun o ho => ?_
    cases o with
    | none => exact hbody
    | some g =>
      refine (hsearch g _ _ _ (ho g rfl) (fun x hx => ?_) hact).bind fun _ _ => hbody
      rcases mem_cons.mp hx with rfl | hx
      · exact h.steps f hf x (mem_of_getLast? hlast)
      · exact happ x hx

theorem searchPointsTo (fuel : Nat) (hf : P f) (happ : ∀ x ∈ appended, A x) (hact : N act) :
    Keeps e I (Track.searchPointsTo fuel d1 m f appended deep act) := by
  -- The search goes on with facts that come from the one it is about.
  induction fuel generalizing f appended deep act with
  | zero => exact .pure trivial
  | succ k ih =>
    exact (searchOnce_agree (fun _ => id) (fun w hw _ => h.remember w _ hw) (h.aliasesOf hm
      (fun _ _ _ _ hg hl hn => .refl (ih hg hl hn)) hf happ hact)).1

end
end PointsToSearch

/-! ## All strategies -/

theorem computeAliases_keeps_of {src : StmtId} {m : MethodId} {R : FactSet → Prop} (hset : R set)
    (hmethod : e.isConditional d1 → ∀ b x, target = .field b x →
      Keeps e I (do methodAliases searchFuel (← heapPairs (e.method m)) target set f) R)
    (hfresh : Keeps e I fresh)
    (hsend : f.path.canHaveAliases → e.config.aliasing = .flowSensitive →
      ∀ i, ∀ n ∈ e.graph.forward.preds src,
        Keeps e I (sendEdge .backward d1 n (f.deactivate i src e.config.defersActivation)))
    (hsearch : e.config.aliasing = .ptsBased →
      Keeps e I (searchPointsTo searchFuel d1 m f [] f.path.deep src)) :
    Keeps e I (computeAliases d1 src target set m f) R := by
  refine .read (.dite (fun _ => .pure hset) fun hcan => .dite (fun hcond => ?_) fun _ => ?_)
  · split
    · next b x => exact hmethod hcond b x rfl
    · exact .pure hset
  · split
    · next hflow =>
      -- The search is left to the other solver, which starts at the statements before.
      refine .ite (hfresh.bind fun i _ => ?_) <| .pure hset
      dsimp only
      refine Keeps.bind (.forIn (R := fun _ => True) (fun n hn _ _ => ?_) trivial)
        fun _ _ => .pure hset
      exact (hsend (by simpa using hcan) hflow i n hn).bind fun _ _ => .pure trivial
    · next hpts => exact (hsearch hpts).bind fun _ _ => .pure hset
    · exact .pure hset
    · exact .pure hset

/-! ## Calls that are not entered -/

/-- What a model of a library method derives from the fact, for values with `W` of the call. -/
structure LibraryCall (e : Env) (I : World → Prop) (W : Value → Prop) (P : Fact → Prop) (s : Stmt)
    (f : Fact) : Prop where
  lhs : ∀ v ∈ s.lhs?, W v
  base : ∀ c ∈ s.call?, ∀ b ∈ c.base, W (.var b)
  ofValue : ∀ v, W v → Obtains e I P f (Paths.ofValue v true) (some s.id)
  onto : ∀ v, W v → Obtains e I P f (Paths.onto f.accessPath v) (some s.id)
  ontoTyped : ∀ v, W v →
    Obtains e I P f (Paths.ontoTyped f.accessPath v f.accessPath.ty false) (some s.id)
  rebase : ∀ v, W v →
    Obtains e I P f (Paths.rebase f.accessPath v none false true .length) (some s.id)
  fresh : Keeps e I fresh
  withCall : ∀ g i, P g → P (g.withCall i s.id)

namespace LibraryCall
variable (h : LibraryCall e I W P s f)
include h

theorem insertFor (hset : set.All P) {o : Option Value} (ho : ∀ v ∈ o, W v) :
    Keeps e I (do
      match o with
      | none => return set
      | some v =>
        let path ← paths (Paths.ofValue v true)
        return set.insertAll (← derive f path (some s.id)).toList) (All P) := by
  cases o with
  | none => exact .pure hset
  | some v =>
    dsimp only
    rw [← bind_assoc]
    exact (h.ofValue v (ho v rfl)).bind fun _ hg =>
      .pure (hset.insertAll fun g hmem => hg g (Option.mem_toList.mp hmem))

theorem modelTaints (hf : P f) : Keeps e I (modelTaints s f) (AllOpt P) := by
  have hlist (b : Bool) : All P (if b then [] else [f]) := by
    cases b with
    | true => exact .nil
    | false => exact .singleton hf
  refine .read ?_
  split
  · next model c _ hc =>
    split
    · exact .pure (.some (.singleton hf))
    · dsimp only
      refine .guard (.some (hlist _)) ?_
      refine (h.insertFor (hlist _) ?_).bind fun set hset =>
        (h.insertFor hset ?_).bind fun _ hset' => .pure (.some hset')
      · intro v hv
        split at hv
        · exact h.lhs v (Option.filter_eq_some_iff.mp hv).1
        · cases hv
      · intro v hv
        split at hv
        · obtain ⟨b, hb, rfl⟩ := Option.map_eq_some_iff.mp hv
          exact h.base c hc b hb
        · cases hv
  · exact .pure .none

theorem sharingAliases (hf : P f) : Keeps e I (sharingAliases s f) (AllOpt P) := by
  refine .read ?_
  split
  · next c _ hc =>
    refine .guard .none ?_
    split
    · next b lhs l hb _ _ =>
      refine .ite ?_ <| .pure (.some (.singleton hf))
      rw [← bind_assoc]
      exact (h.onto _ (h.base c hc b hb)).bind fun _ ho => .pure (.some
        ((All.singleton hf).insertAll fun g hg => ho g (Option.mem_toList.mp hg)))
    · exact .pure (.some (.singleton hf))
  · exact .pure .none

theorem derivedByCall (hpath : Obtains e I P f path (some s.id)) :
    Keeps e I (do
      match ← derive f (← paths path) (some s.id) with
      | some g => return some [g.withCall (← Track.fresh) s.id]
      | none => return none) (AllOpt P) := by
  rw [← bind_assoc]
  refine hpath.bind fun o ho => ?_
  cases o with
  | none => exact .pure .none
  | some g => exact h.fresh.bind fun i _ => .pure (.some (.singleton (h.withCall g i (ho g rfl))))

theorem nativeTaints {args : List Value} (hargs : ∀ v ∈ args, W v) :
    Keeps e I (nativeTaints s f args) (AllOpt P) := by
  refine .read ?_
  dsimp only
  split
  · refine .ite ?_ <| .ite ?_ <| .pure .none
    · split
      · next src dest _ hdest =>
        refine .ite ?_ <| .pure .none
        exact h.derivedByCall (h.ontoTyped dest (hargs dest (mem_of_getElem? hdest)))
      · exact .pure .none
    · split
      · next size lhs _ hlhs =>
        refine .ite ?_ <| .pure .none
        exact h.derivedByCall (h.rebase lhs (h.lhs lhs hlhs))
      · exact .pure .none
  · exact .pure .none

end LibraryCall
end Track
end LeakTrace
