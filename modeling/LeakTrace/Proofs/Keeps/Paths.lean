import LeakTrace.Proofs.Vocabulary.Basic

/-!
# What the making of paths keeps

`Paths.Keeps I act Q` is for the store of paths what `Track.Keeps` is for worlds. Paths are made by
requests and by nothing else, so what an action keeps follows from what a request keeps: the rules
stay as they are (`PathStore.rules_make`), and what folding cut out is added to the patterns.
-/

namespace LeakTrace

/-! ## Requests -/

namespace PathStore

theorem rules_registerAll (s : PathStore) (cuts : List (Ty × List Step)) :
    (cuts.foldl register s).rules = s.rules := by
  induction cuts generalizing s with
  | nil => rfl
  | cons c rest ih =>
    refine (ih (s.register c)).trans ?_
    unfold register
    split <;> rfl

theorem rules_make (s : PathStore) (q : PathRequest) :
    ((Paths.make q).run s).2.rules = s.rules := by
  rw [← rules_registerAll s (s.rules.canon q).cuts]
  unfold Paths.make
  simp only [StateT.run_bind, StateT.run_get, pure_bind]
  cases (s.rules.canon q).path <;> rfl

theorem patterns_make_eq (s : PathStore) (q : PathRequest) :
    ((Paths.make q).run s).2.patterns = ((s.rules.canon q).cuts.foldl register s).patterns := by
  unfold Paths.make
  simp only [StateT.run_bind, StateT.run_get, pure_bind]
  cases (s.rules.canon q).path <;> rfl

end PathStore

namespace Paths

theorem run_make (q : PathRequest) (s : PathStore) :
    ((make q).run s).1 = (s.rules.canon q).path := by
  unfold make
  cases hc : (s.rules.canon q).path with
  | none => simp only [hc, StateT.run_bind, StateT.run_get, pure_bind]; rfl
  | some a => simp only [hc, StateT.run_bind, StateT.run_get, pure_bind]; rfl

/-! ## Actions -/

variable {I : PathStore → Prop} {α β : Type} {x : Paths α} {Q : α → Prop} {R : β → Prop}

/-- From a store with `I` the action ends in one, and in a value with `Q`. -/
def Keeps (I : PathStore → Prop) {α : Type} (act : Paths α) (Q : α → Prop := fun _ => True) : Prop :=
  ∀ s : PathStore, I s → Q (act.run s).1 ∧ I (act.run s).2

namespace Keeps

theorem pure {a : α} (h : Q a) : Keeps I (pure a) Q := fun _ hs => ⟨h, hs⟩

theorem bind {f : α → Paths β} (h : Keeps I x Q) (hf : ∀ a, Q a → Keeps I (f a) R) :
    Keeps I (x >>= f) R := by
  intro s hs
  obtain ⟨hq, hs'⟩ := h s hs
  exact hf _ hq _ hs'

theorem ite {c : Prop} [Decidable c] {y : Paths α} (ht : Keeps I x Q) (he : Keeps I y Q) :
    Keeps I (if c then x else y) Q := by
  split
  · exact ht
  · exact he

theorem filterMapM {f : α → Paths (Option β)} {l : List α}
    (hstep : ∀ a ∈ l, Keeps I (f a) fun b => ∀ c ∈ b, R c) :
    Keeps I (l.filterMapM f) fun bs => ∀ b ∈ bs, R b := by
  induction l with
  | nil => exact pure (by simp)
  | cons a l ih =>
    rw [List.filterMapM_cons]
    refine (hstep a List.mem_cons_self).bind fun b hb => ?_
    have hrest := ih fun c hc => hstep c (List.mem_cons_of_mem a hc)
    cases b with
    | none => exact hrest
    | some b =>
      refine hrest.bind fun bs hbs => pure ?_
      simpa using ⟨hb b rfl, hbs⟩

theorem filterM {f : α → Paths Bool} {l : List α} (hstep : ∀ a ∈ l, Keeps I (f a)) :
    Keeps I (l.filterM f) fun kept => ∀ a ∈ kept, a ∈ l := by
  have haux : ∀ (rest acc : List α), (∀ a ∈ rest, a ∈ l) → (∀ a ∈ acc, a ∈ l) →
      Keeps I (rest.filterAuxM f acc) fun kept => ∀ a ∈ kept, a ∈ l := by
    intro rest
    induction rest with
    | nil => exact fun acc _ hacc => pure hacc
    | cons a rest ih =>
      intro acc hrest hacc
      obtain ⟨ha, hrest⟩ := List.forall_mem_cons.mp hrest
      refine (hstep a ha).bind fun b _ => ih _ hrest ?_
      cases b with
      | false => exact hacc
      | true => exact List.forall_mem_cons.mpr ⟨ha, hacc⟩
  exact (haux l [] (fun _ ha => ha) (List.forall_mem_nil _)).bind fun kept hkept =>
    pure fun a ha => hkept a (List.mem_reverse.mp ha)

end Keeps

theorem toPath_ite_same (a b : AccessPath) : (if b.same a then a else b).toPath = b.toPath := by
  split
  · next hsame => exact (by simpa [AccessPath.same] using hsame : b.toPath = a.toPath).symm
  · rfl

theorem remake_keeps {P : Path → Prop} {a : AccessPath} {q : PathRequest}
    (hq : Keeps I (make q) fun o => ∀ b ∈ o, P b.toPath) (unchanged : Bool)
    (ha : unchanged → P a.toPath) :
    Keeps I (if unchanged then Pure.pure (some a) else do
      match ← make q with
      | some b => return some (if b.same a then a else b)
      | none => return none) fun o => ∀ b ∈ o, P b.toPath := by
  cases unchanged with
  | true =>
    refine .pure ?_
    rintro _ ⟨⟩
    exact ha rfl
  | false =>
    refine hq.bind fun p hp => ?_
    cases p with
    | none => exact .pure all_none
    | some b =>
      refine .pure ?_
      rintro _ ⟨⟩
      rw [toPath_ite_same]
      exact hp b rfl

end Paths

/-! ## Sources -/

namespace Oracle
variable {o : Oracle} {p : Program} {s : Stmt} {P : Value → Prop}

theorem forall_targetValue? {c : Call} {t : SourceTarget}
    (hlhs : ∀ lhs rhs, s.action = .assign lhs rhs → P lhs)
    (hcall : (∀ l ∈ c.base, P (.var l)) ∧ ∀ v ∈ c.args, P v) : ∀ v ∈ targetValue? s c t, P v := by
  intro v hv
  cases t with
  | result =>
    simp only [targetValue?] at hv
    split at hv
    · next lhs rhs hact =>
      cases hv
      exact hlhs _ rhs hact
    · cases hv
  | base =>
    obtain ⟨l, hl, rfl⟩ := Option.map_eq_some_iff.mp hv
    exact hcall.1 l hl
  | argument i =>
    obtain ⟨hv, -⟩ := Option.filter_eq_some_iff.mp hv
    exact hcall.2 v (List.mem_of_getElem? hv)

theorem source?_keeps {I : PathStore → Prop} {P : Value → Prop} {Q : AccessPath → Prop}
    {R : SourceInfo → Prop}
    (hmake : ∀ v, P v → Paths.Keeps I (Paths.ofValue v true) fun o => ∀ a ∈ o, Q a)
    (hlhs : ∀ lhs rhs, s.action = .assign lhs rhs → P lhs)
    (hcall : ∀ c, s.call? = some c → (∀ l ∈ c.base, P (.var l)) ∧ ∀ v ∈ c.args, P v)
    (hparam : ∀ l i t, s.action = .entry l (.param i t) → P (.var l))
    (hcallSource : ∀ c, s.call? = some c → ∀ paths, (∀ a ∈ paths, Q a) →
      R ⟨⟨.source, c.method.signature, none⟩, paths⟩)
    (hparamSource : ∀ paths, (∀ a ∈ paths, Q a) →
      R ⟨⟨.source, (p.method s.method).signature, none⟩, paths⟩) :
    Paths.Keeps I (o.source? p s) fun i => ∀ x ∈ i, R x := by
  refine Paths.Keeps.bind (Q := fun i => ∀ x ∈ i, R x) ?_ fun i hi => ?_
  · unfold callSource?
    dsimp only
    split
    · exact .pure all_none
    · next c targets hfound =>
      obtain ⟨c', hc, hrest⟩ := Option.bind_eq_some_iff.mp hfound
      obtain ⟨targets', -, heq⟩ := Option.bind_eq_some_iff.mp hrest
      cases heq
      refine (Paths.Keeps.filterMapM (R := Q) fun v hv => ?_).bind fun ps hps => .pure ?_
      · obtain ⟨t, -, ht⟩ := List.mem_filterMap.mp hv
        exact hmake v (forall_targetValue? hlhs (hcall c hc) v ht)
      · split
        · exact all_none
        · rintro _ ⟨⟩
          exact hcallSource c hc ps hps
  · cases i with
    | some i => exact .pure hi
    | none =>
      dsimp only
      unfold paramSource?
      split
      · next l index ty hact =>
        dsimp only
        split
        · exact .pure all_none
        · refine .ite ((hmake _ (hparam l index ty hact)).bind fun b hb => .pure fun i hi => ?_)
            (.pure all_none)
          obtain ⟨a, ha, rfl⟩ := Option.map_eq_some_iff.mp hi
          exact hparamSource [a] (List.forall_mem_singleton.mpr (hb a ha))
      · exact .pure all_none

end Oracle
end LeakTrace
