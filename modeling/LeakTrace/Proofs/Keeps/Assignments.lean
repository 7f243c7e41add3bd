import LeakTrace.Proofs.Keeps.Questions

/-!
# From the right side to the left

An assignment asks the values on its right side one after the other whether they read the taint, and
puts what was read on the left side. **The fact itself goes on**, so what holds of the fact and of
what is put on the left side holds of all that comes out.
-/

namespace LeakTrace
namespace Track
variable {e : Env} {I : World → Prop} {X : Reading → Prop} {P G : Fact → Prop} {d1 f : Fact}
  {s : Stmt} {lhs rhs : Value} {x : Reading}

theorem firstReading?_of {vs : List Value}
    (h : ∀ v ∈ vs, Keeps e I (reading? f v) fun o => ∀ x ∈ o, X x) :
    Keeps e I (firstReading? f vs) fun o => ∀ x ∈ o, X x := by
  induction vs with
  | nil => exact .pure all_none
  | cons v rest ih =>
    refine .guard all_none ?_
    refine (h v List.mem_cons_self).bind fun o ho => ?_
    split
    · exact .pure ho
    · exact ih fun u hu => h u (List.mem_cons_of_mem v hu)

theorem rightReading?_of (hempty : f.path.isEmpty → X { path := f.accessPath })
    (h : ∀ v ∈ rhs.roots true, Keeps e I (reading? f v) fun o => ∀ x ∈ o, X x) :
    Keeps e I (rightReading? f rhs) fun o => ∀ x ∈ o, X x := by
  refine .dite (fun hpath => .pure ?_) fun _ => .guard all_none <|
    firstReading?_of h
  rintro _ ⟨⟩
  exact hempty hpath

theorem foundOrDerived_of {act : Paths (Option AccessPath)}
    (hact : Obtains e I P f act (some s.id)) {o : Option Fact} (ho : ∀ g ∈ o, P g) :
    Keeps e I (do
      match o with
      | some g => return some g
      | none => derive f (← paths act) (some s.id)) fun o => ∀ g ∈ o, P g := by
  cases o with
  | some g => exact .pure ho
  | none => exact hact

theorem written_of (hfresh : Keeps e I fresh)
    (hempty : f.path.isEmpty → Keeps e I (paths (Paths.ofValue lhs true))
      fun p => ∀ i, ∀ g ∈ f.deriveAs? i p (some s.id) true, P g)
    (hflag : ∀ v t, rhs = .isInstance v t →
      Obtains e I P f (Paths.ofTyped lhs (some .boolean) true .both) (some s.id))
    (hmoved : ∀ part, Obtains e I P f (Paths.rebase f.accessPath lhs (arrivingTy e lhs rhs x.ty)
      x.cutFirst true part) (some s.id)) :
    Keeps e I (written s lhs rhs f x) fun o => ∀ g ∈ o, P g := by
  refine .read (.dite (fun h => ?_) fun _ => ?_)
  · exact (hempty h).bind fun _ hp => hfresh.bind fun i _ => .pure (hp i)
  · dsimp only
    split
    · next v t =>
      refine .ite ?_ <| foundOrDerived_of (hmoved _) all_none
      rw [← bind_assoc]
      exact (hflag v t rfl).bind fun _ ho => foundOrDerived_of (hmoved _) ho
    · exact foundOrDerived_of (hmoved _) all_none

theorem taintLeft_of
    (hwritten : Keeps e I (written s lhs rhs f x) fun o => ∀ g ∈ o, P g ∧ (lhs.isGlobal → G g))
    (hshare : ∀ g, e.config.staticFields = .insensitive → G g → Keeps e I (addGlobal g))
    (hsearch : ∀ g, P g → Keeps e I (computeAliases d1 s.id lhs [g] s.method g) (FactSet.All P)) :
    Keeps e I (taintLeft d1 s lhs rhs f x) (FactSet.All P) := by
  refine .read (.guard .nil <| hwritten.bind fun o ho => ?_)
  split
  · exact .pure .nil
  · next g =>
    obtain ⟨hg, hglobal⟩ := ho g rfl
    refine .dite (fun hstatic => ?_) fun _ => .ite (hsearch g hg) <| .pure (.singleton hg)
    obtain ⟨hlhs, hstatic⟩ := Bool.and_eq_true_iff.mp hstatic
    exact (hshare g (by simpa using hstatic) (hglobal hlhs)).bind fun _ _ => .pure .nil

theorem assign_of {Y : Reading → Fact → Prop} (hf : P f)
    (hread : Keeps e I (rightReading? f rhs) fun o => ∀ x ∈ o, X x)
    (hself : ∀ x, X x → x.path.toPath = f.path → Y x f)
    (hderive : ∀ x, X x → Keeps e I (derive f (some x.path) none) fun o => ∀ g ∈ o, Y x g)
    (hleft : ∀ x g, X x → Y x g → Keeps e I (taintLeft d1 s lhs rhs g x) (FactSet.All P)) :
    Keeps e I (assign d1 s lhs rhs f) (FactSet.All P) := by
  refine .read (.guard (.singleton hf) <|
    .guard (.singleton hf) <| hread.bind fun o ho => ?_)
  split
  · exact .pure .nil
  · next x =>
    have hx := ho x rfl
    refine .guard (.singleton hf) <| .dite (fun hsame => ?_) fun _ => ?_
    · have hsame : x.path.toPath = f.path := by
        simpa [AccessPath.same, Fact.accessPath] using hsame
      exact (hleft x f hx (hself x hx hsame)).bind fun _ hset => .pure (hset.insert hf)
    · refine (hderive x hx).bind fun o ho => ?_
      cases o with
      | none => exact .pure .nil
      | some g => exact (hleft x g hx (ho g rfl)).bind fun _ hset => .pure (hset.insert hf)

end Track
end LeakTrace
