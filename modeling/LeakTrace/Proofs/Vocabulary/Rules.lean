import LeakTrace.Proofs.Keeps.Rules
import LeakTrace.Proofs.Vocabulary.Search

/-!
# Rules stay in the vocabulary

Each rule of propagation, asked about facts and statements of the vocabulary, answers with facts over
it. Two rules make taints that were not there before: at a source the taint is rooted in what the
statement mentions, and at a branch the only new thing is where the branch ends.
-/

namespace LeakTrace
open Track

variable {V : Vocabulary} {e : Env}

namespace Rule
variable {d1 f g : Fact} {s : Stmt} {v : Value}

theorem record_keeps : Keeps e (World.Over V) (record f s) := by
  refine sinkInfo_keeps.bind fun d _ => ?_
  split
  · refine addResult_keeps.bind fun _ _ => .ite ?_ <| .pure trivial
    exact .modify trivial fun w hw => hw.of_eq rfl rfl
  · exact .pure trivial

theorem over_decidingValues (hV : V.Covers e) (hs : V.HasStmt e s) {dest : Stmt} :
    ∀ v ∈ decidingValues e s dest, Value.Over V v := by
  intro v hv
  unfold decidingValues at hv
  split at hv
  · exact hV.over_uses hs v hv
  · have hall := hV.over_values hs
    split at hv
    · next l _ hact =>
      rw [List.mem_singleton.mp hv]
      exact hall _ (by simp [Stmt.values, hact])
    · next c _ _ hact =>
      exact (hall c (by simp [Stmt.values, hact])).standsIn (.of_mem_uses hv)
    · cases hv

theorem reportSink_keeps : Keeps e (World.Over V) (reportSink f s) := by
  refine .read (.ite (sinkInfo_keeps.bind fun d _ => ?_) <| .pure trivial)
  split
  · exact addResult_keeps.bind fun _ _ => .pure trivial
  · exact .pure trivial

theorem site_over (hV : V.Covers e) (h1 : d1.Over V) (hf : f.Over V) (hs : V.HasStmt e s) :
    Site e (World.Over V) (Value.Over V) (Value.Over V) (Fact.Over V) d1 f s where
  toLibraryCall := libraryCall_over hV hs hf
  fact := hf
  root l hl := Value.over_var.mpr (hf.path.base l hl)
  self l hl := Value.over_var.mpr (hV.self _ l hl)
  args c hc := (hV.over_call hs hc).imp_left fun hbase b hb => Value.over_var.mpr (hbase b hb)
  values := hV.over_values hs
  uses := hV.over_uses hs
  deciding _ := over_decidingValues hV hs
  roots _ hv := hv.roots false
  operand _ := Value.over_length.mp
  size _ _ hv := (Value.over_allocArray.mp hv).2
  mayAlias _ _ hu hv :=
    mayAliasValues_keeps (names_over hV.toClosed hu) (names_over hV.toClosed hv)
  asLength _ hv := by
    refine make_derive_keeps (Paths.ofTyped_keeps hV.toClosed hv ?_) hf
    rintro _ ⟨⟩
    exact hV.int_ty
  rebaseAs _ ty _ hv hty := by
    refine make_derive_keeps (Paths.rebase_keeps hV.toClosed hf.path hv fun t ht => ?_) hf
    rcases hty with rfl | rfl
    · cases ht
    · obtain ⟨u, hu, hut⟩ := Option.bind_eq_some_iff.mp ht
      exact (hf.path.ty u hu).element hut
  throwAt _ := hf.throwAt
  catchInto _ hv := (paths_keeps (Paths.onto_keeps hV.toClosed hf.path hv)).mono
    fun _ hp _ => hf.catchInto? hp
  enterAt _ := hf.enterConditional (hV.join s.id (hV.stmt_id hs))
  creates _ := (sourceInfo_keeps hV (hV.stmt_id hs)).mono fun _ ho info hinfo a ha _ =>
    Fact.over_ofSource ⟨(ho info hinfo).definition, (ho info hinfo).paths a ha, hV.stmt_id hs,
      hV.no_data⟩
  search _ _ _ hv hset hg := computeAliases_keeps hV h1 (hV.stmt_id hs) hv hset hg
  target _ hg := over_aliasTarget hg
  asksSource := (sourceInfo_keeps hV (hV.stmt_id hs)).mono fun _ _ => trivial
  records _ _ := record_keeps
  reports _ := reportSink_keeps

theorem exit_over (hV : V.Covers e) {callers : List Fact} (hctx : ∀ d ∈ callers, Fact.Over V d)
    (hf : f.Over V) (hs : V.HasStmt e s) {call : Option Stmt} (hcall : ∀ c ∈ call, V.HasStmt e c) :
    Exit e (World.Over V) (Fact.Over V) callers f s call where
  fresh := fresh_keeps
  reads v hv := readsTaint_keeps fun l hl => mayAliasValues_keeps
    (names_base hV.toClosed hf l hl) (names_over hV.toClosed (hV.over_values hs v hv))
  records _ _ := record_keeps
  carry _ := deriveAt_keeps hf
  throwAt _ := hf.throwAt
  onto c hc lhs hlhs := make_derive_keeps
    (Paths.onto_keeps hV.toClosed hf.path (hV.over_lhs (hcall c hc) lhs hlhs)) hf
  search _ c hc lhs hlhs src hsrc d hd _ _ hset hg := by
    refine computeAliases_keeps hV (hctx d hd) ?_ (hV.over_lhs (hcall c hc) lhs hlhs) hset hg
    rcases hsrc with rfl | rfl
    · exact hV.stmt_id hs
    · exact hV.stmt_id (hcall c hc)

end Rule
end LeakTrace
