import LeakTrace.Proofs.Keeps.Search
import LeakTrace.Proofs.Vocabulary.Tracking

/-!
# Looking for aliases stays in the vocabulary

Searches for aliases make paths from values of the program and from paths that were there before,
and so do models of library methods. What they hand over, and what they ask the solvers for, is over
the vocabulary.
-/

namespace LeakTrace
variable {V : Vocabulary} {e : Env}

namespace Track
variable {f d1 g : Fact} {a : AccessPath} {p : Option AccessPath} {s : Stmt} {v target : Value}
  {set : FactSet} {m : MethodId} {src : StmtId}

/-- Paths over the vocabulary and new numbers can be made without losing `I`. -/
structure Makes (V : Vocabulary) (e : Env) (I : World → Prop) : Prop where
  paths : ∀ {α : Type} {act : Paths α} {Q : α → Prop}, act.Keeps (PathStore.Over V) Q →
    Keeps e I (Track.paths act) Q
  fresh : Keeps e I Track.fresh

theorem makes_over : Makes V e (World.Over V) := ⟨paths_keeps, fresh_keeps⟩

theorem Makes.derive {I : World → Prop} (hI : Makes V e I) {act : Paths (Option AccessPath)}
    (hact : act.Keeps (PathStore.Over V) (Paths.Yields V)) (hf : f.Over V) {stmt : Option StmtId} :
    Obtains e I (Fact.Over V) f act stmt :=
  (hI.paths hact).bind fun _ hp => hI.fresh.bind fun _ _ => .pure (hf.deriveAs? hp)

theorem make_derive_keeps {act : Paths (Option AccessPath)}
    (hact : act.Keeps (PathStore.Over V) (Paths.Yields V)) (hf : f.Over V) {stmt : Option StmtId} :
    Obtains e (World.Over V) (Fact.Over V) f act stmt :=
  makes_over.derive hact hf

section
variable {I : World → Prop} (hV : V.Covers e) (hI : Makes V e I)
include hV hI

theorem heapPairs_over :
    Keeps e I (heapPairs (e.method m)) fun pairs => ∀ q ∈ pairs, Path.Over V q.2.toPath :=
  heapPairs_keeps_of (W := Value.Over V)
    (fun k hk _ _ hact => hV.over_assign ⟨k, hV.body m k hk, rfl⟩ hact)
    fun _ hv => hI.paths (Paths.ofValue_keeps hV.toClosed hv)

theorem methodSearch_over :
    MethodSearch e I (Value.Over V) (fun y => Path.Over V y.toPath) (Fact.Over V) where
  ofBase b x hb := (hI.paths (Paths.ofValue_keeps hV.toClosed
    (Value.over_var.mpr (Value.over_field.mp hb).1))).mono fun _ _ => trivial
  merge _ _ hg hy := hI.derive (Paths.append_keeps hV.toClosed hy hg.path.steps) hg
  target y l x hy hl hx := by
    obtain ⟨step, hstep, rfl⟩ := Option.map_eq_some_iff.mp hx
    exact Value.over_field.mpr ⟨hy.base l hl, (hy.steps step (List.mem_of_mem_head? hstep)).field⟩

theorem pointsToSearch_over
    (hsend : ∀ f n, Fact.Over V f → n ∈ V.stmts → Keeps e I (sendEdge .forward d1 n f))
    (hremember : ∀ w key, I w → I { w with searched := w.searched.insert key }) :
    PointsToSearch e I (Value.Over V) (Step.Over V) (· ∈ V.stmts) (Fact.Over V) d1 where
  lhs n hn := hV.over_lhs ⟨n, hn, rfl⟩
  rhs n hn v hv := hV.over_values ⟨n, hn, rfl⟩ v (Stmt.mem_values_of_rhs hv)
  steps _ hf := hf.path.steps
  append _ _ _ _ hf hl := hI.derive (Paths.append_keeps hV.toClosed hf.path hl) hf
  make _ v _ _ _ hf hv hl := by
    refine hI.derive (Paths.make_keeps hV.toClosed ⟨?_, all_none, hl⟩) hf
    rintro _ ⟨⟩
    exact hv
  dropLast _ hf := hI.derive (Paths.dropLast_keeps hV.toClosed hf.path) hf
  waitIf _ _ _ hf hact := .read (.ite (hI.fresh.bind fun _ _ =>
    .pure (hf.deactivate hact)) <| .pure hf)
  send := hsend
  remember := hremember

end

theorem computeAliases_keeps (hV : V.Covers e) (h1 : d1.Over V) (hsrc : src ∈ V.stmts)
    (ht : target.Over V) (hset : set.All (Fact.Over V)) (hf : f.Over V) :
    Keeps e (World.Over V) (computeAliases d1 src target set m f) (FactSet.All (Fact.Over V)) :=
  computeAliases_keeps_of hset
    (fun _ _ _ _ => (heapPairs_over hV makes_over).bind fun _ hpairs =>
      (methodSearch_over hV makes_over).methodAliases hpairs _ ht hset hf) fresh_keeps
    (fun _ _ _ n hn => sendEdge_keeps h1 (hV.preds src hsrc n hn) (hf.deactivate hsrc))
    fun _ => (pointsToSearch_over hV makes_over (fun _ _ hg hn => sendEdge_keeps h1 hn hg)
      fun _ _ hw => hw.of_eq rfl rfl).searchPointsTo (hV.body m) _ hf (List.forall_mem_nil _) hsrc

theorem over_aliasTarget (hf : f.Over V) : ∀ v ∈ f.aliasTarget?, Value.Over V v := by
  intro v hv
  unfold Fact.aliasTarget? at hv
  split at hv
  · next l hl =>
    cases hv
    exact Value.over_var.mpr (hf.path.base l hl)
  · obtain ⟨field, hfield, rfl⟩ := Option.map_eq_some_iff.mp hv
    obtain ⟨step, hstep, rfl⟩ := Option.map_eq_some_iff.mp hfield
    exact Value.over_global.mpr (hf.path.steps step (List.mem_of_mem_head? hstep)).field

theorem libraryCall_over (hV : V.Covers e) (hs : V.HasStmt e s) (hf : f.Over V) :
    LibraryCall e (World.Over V) (Value.Over V) (Fact.Over V) s f where
  lhs := hV.over_lhs hs
  base _ hc b hb := Value.over_var.mpr ((hV.over_call hs hc).1 b hb)
  ofValue _ hv := make_derive_keeps (Paths.ofValue_keeps hV.toClosed hv) hf
  onto _ hv := make_derive_keeps (Paths.onto_keeps hV.toClosed hf.path hv) hf
  ontoTyped _ hv :=
    make_derive_keeps (Paths.ontoTyped_keeps hV.toClosed hf.path hv hf.path.ty) hf
  rebase _ hv := make_derive_keeps (Paths.rebase_keeps hV.toClosed hf.path hv all_none) hf
  fresh := fresh_keeps
  withCall _ _ hg := hg.withCall

end Track
end LeakTrace
