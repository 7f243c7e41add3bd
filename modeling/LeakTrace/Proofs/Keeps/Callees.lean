import LeakTrace.Flow.Backward
import LeakTrace.Proofs.Keeps.Questions

/-!
# Paths on the other side of a call

A taint that enters a callee is put on the receiver and the parameters, and on what the callee
returns when aliases are searched. **Nothing else is made**, so what holds of these paths, whatever
it is, holds of all that enters. Vocabulary, scopes and bases of paths are three cases of it. A
taint that leaves is put on the result, the receiver and the arguments of the call in the same way.
-/

namespace LeakTrace
open List
open FactSet (All)

variable {e : Env} {I : World → Prop} {Q : AccessPath → Prop} {callee : Method} {c : Call}
  {f g : Fact} {s : Stmt}

/-- What is put on a local of the callee has the property. -/
def Track.Receives (e : Env) (I : World → Prop) (Q : AccessPath → Prop) (f : Fact)
    (callee : Method) : Prop :=
  ∀ l, l ∈ callee.self ∨ l ∈ callee.params →
    Track.Keeps e I (Track.paths (Paths.onto f.accessPath (.var l))) fun o => ∀ a ∈ o, Q a

/-- Asking whether the values of a call hold the taint changes nothing that matters. -/
structure Call.Asks (e : Env) (I : World → Prop) (c : Call) (f : Fact) : Prop where
  base : ∀ b ∈ c.base, Track.Keeps e I (Track.holdsTaint (.var b) f)
  args : ∀ v ∈ c.args, Track.Keeps e I (Track.holdsTaint v f)

namespace Track
variable {reflective : Bool}

section
variable (hreceive : Receives e I Q f callee) (hask : c.Asks e I f)
include hreceive hask

theorem pathsOfParams_receives :
    Keeps e I (pathsOfParams callee c f reflective) fun l => ∀ a ∈ l, Q a := by
  unfold pathsOfParams
  dsimp only
  refine .ite ?_ <| .guard (forall_mem_nil _) <|
    .filterMapM fun x hx => ?_
  · split
    · next args hget =>
      refine (hask.args args (mem_of_getElem? hget)).bind fun _ _ => .ite ?_ <|
        .pure (forall_mem_nil _)
      exact .filterMapM fun p hp => hreceive p (.inr hp)
    · exact .pure (forall_mem_nil _)
  · refine (hask.args x.1 (fst_mem_of_mem_zipIdx hx)).bind fun _ _ => .ite ?_ <|
      .pure all_none
    split
    · next p hp => exact hreceive p (.inr (mem_of_getElem? hp))
    · exact .pure all_none

theorem pathOfReceiver_receives : Keeps e I (pathOfReceiver callee c f) fun o => ∀ a ∈ o, Q a := by
  refine .read ?_
  split
  · next base this hbase hself =>
    refine .guard all_none <| (hask.base base hbase).bind fun _ _ =>
      .guard all_none <|
        .guard all_none <| hreceive this (.inl hself)
  · exact .pure all_none

theorem pathsInCallee_receives (hkept : e.config.aliasing.isLazy → Q f.accessPath) :
    Keeps e I (pathsInCallee callee c f reflective) fun l => ∀ a ∈ l, Q a := by
  have hkept : ∀ a ∈ if e.config.aliasing.isLazy && f.accessPath.canHaveAliases then [f.accessPath]
      else [], Q a := by
    intro a ha
    split at ha
    · next hlazy =>
      rw [mem_singleton.mp ha]
      exact hkept (Bool.and_eq_true_iff.mp hlazy).1
    · cases ha
  refine .read (.guard (forall_mem_nil _) <|
    .guard hkept ?_)
  refine (pathOfReceiver_receives hreceive hask).bind fun receiver hreceiver =>
    (pathsOfParams_receives hreceive hask).bind fun params hparams => .pure fun a ha => ?_
  rcases mem_append.mp ha with ha | ha
  · rcases mem_append.mp ha with ha | ha
    · exact hkept a ha
    · exact hreceiver a (Option.mem_toList.mp ha)
  · exact hparams a ha

end

theorem allRead_keeps
    (hpaths : ∀ m reflective, Keeps e I (pathsInCallee (e.method m) c f reflective))
    {callees : List MethodId} : Keeps e I (allRead c f reflective callees) := by
  induction callees with
  | nil => exact .pure trivial
  | cons m rest ih =>
    have hgo : ∀ isRead : Bool, Keeps e I
        (if isRead then allRead c f reflective rest else return false) :=
      fun _ => .ite ih <| .pure trivial
    refine .read (.guard trivial <| .ite ?_ <| hgo true)
    exact (hpaths m reflective).bind fun _ _ => hgo _

theorem passesCall_keeps_of
    (hpaths : ∀ c ∈ s.call?, ∀ m reflective, Keeps e I (pathsInCallee (e.method m) c f reflective))
    (hask : ∀ c ∈ s.call?, c.Asks e I g) (hargs : ∀ c ∈ s.call?, Keeps e I (anyHoldsTaint c.args g))
    {killed : Bool} :
    Keeps e I (passesCall f g s killed) := by
  have hcarried : Keeps e I (carriedByCallees f g s) := by
    refine .read (.guard trivial ?_)
    split
    · exact .pure trivial
    · next c hc =>
      refine (allRead_keeps (hpaths c hc)).bind fun _ _ => .guard trivial ?_
      have hrest : ∀ onBase : Bool, Keeps e I (do
          let onArg ← anyHoldsTaint c.args g
          return onBase || onArg) :=
        fun _ => (hargs c hc).bind fun _ _ => .pure trivial
      dsimp only
      split
      · next b hb => exact ((hask c hc).base b hb).bind fun onBase _ => hrest onBase
      · exact hrest false
  refine .read (.guard trivial ?_)
  exact hcarried.bind fun _ _ => .pure trivial

end Track

theorem Backward.entering_receives (hreceive : Track.Receives e I Q f callee)
    (hreturned : ∀ n ∈ callee.body, ∀ v ∈ (e.stmt n).returned?, Track.Keeps e I
      (Track.paths (Paths.ontoTyped f.accessPath v none false)) fun o => ∀ a ∈ o, Q a)
    (hstatic : f.accessPath.isStaticField → Q f.accessPath) :
    Track.Keeps e I (entering f s callee) fun l => ∀ a ∈ l, Q a := by
  have hstatic : ∀ a ∈ if e.config.staticFields != .ignored && f.accessPath.isStaticField then
      [f.accessPath] else [], Q a := by
    intro a ha
    split at ha
    · next h =>
      rw [mem_singleton.mp ha]
      exact hstatic (Bool.and_eq_true_iff.mp h).2
    · cases ha
  refine .read ?_
  dsimp only
  refine Track.Keeps.bind (Q := fun l => ∀ a ∈ l, Q a) (.filterMapM fun v hv => ?_)
    fun fromResult hresult => ?_
  · -- What the call assigns is what the callee returns.
    split at hv
    · obtain ⟨n, hn, hret⟩ := mem_filterMap.mp (mem_filter.mp hv).1
      exact hreturned n hn v hret
    · cases hv
  · have hboth := forall_mem_append.mpr ⟨hresult, hstatic⟩
    split
    · exact .pure hboth
    · refine Track.Keeps.bind (Q := fun l => ∀ a ∈ l, Q a) (.filterMapM fun l hl => hreceive l ?_)
        fun entered hentered => .pure (forall_mem_append.mpr ⟨hboth, hentered⟩)
      rcases mem_append.mp hl with hl | hl
      · have hl := Option.mem_toList.mp hl
        split at hl
        · next this _ hthis =>
          split at hl
          · cases hl
            exact .inl hthis
          · cases hl
        · cases hl
      · split at hl
        · cases hl
        · obtain ⟨x, -, hx⟩ := mem_filterMap.mp hl
          split at hx
          · exact .inr (mem_of_getElem? hx)
          · cases hx

/-! ## Out of a callee -/

/-- What is asked, made and searched for when the fact leaves the callee: `W` holds of the values of
the caller that it is put on, `P` of what it becomes there. -/
structure Leaving.Carries (e : Env) (I : World → Prop) (W : Value → Prop) (P : Fact → Prop)
    (l : Leaving) (f : Fact) : Prop where
  result : ∀ v ∈ l.result, W v
  base : ∀ c ∈ l.call.call?, ∀ b ∈ c.base, W (.var b)
  args : ∀ c ∈ l.call.call?, ∀ v ∈ c.args, W v
  asksResult : ∀ v ∈ l.exit.returned?, Track.Keeps e I (Track.holdsTaint v f)
  asksLocal : ∀ p, p ∈ l.callee.self ∨ p ∈ l.callee.params →
    Track.Keeps e I (Track.holdsTaint (.var p) f)
  onto : ∀ v, W v → Track.Obtains e I P f (Paths.onto f.accessPath v) (some l.exit.id)
  ontoTyped : ∀ v, W v → Track.Obtains e I P f
    (Paths.ontoTyped f.accessPath v f.accessPath.ty false) (some l.exit.id)
  search : ∀ target set g, W target ∨ target ∈ g.aliasTarget? → FactSet.All P set → P g →
    Track.Keeps e I (Track.computeAliasesIn l.contexts l.call.id target set l.call.method g)
      (FactSet.All P)
  stamp : ∀ set, FactSet.All P set →
    Track.Keeps e I (Track.stampCall f l.call.id set) (FactSet.All P)

namespace Track
variable {W : Value → Prop} {P : Fact → Prop} {l : Leaving} {d1 : Fact} {set : FactSet}

section
variable (h : l.Carries e I W P f)
include h

theorem outOfResult_carries (hset : set.All P) : Keeps e I (outOfResult l f set) (All P) := by
  refine .read ?_
  split
  · next v lhs hv hlhs =>
    have hlhs := h.result lhs hlhs
    refine (h.asksResult v hv).bind fun _ _ => .guard hset ?_
    rw [← bind_assoc]
    refine (h.onto lhs hlhs).bind fun o ho => ?_
    split
    · exact .pure hset
    · next g =>
      have hg : P g := ho g rfl
      refine .ite ?_ <| .pure (hset.insert hg)
      exact h.search lhs _ g (.inl hlhs) (hset.insert hg) hg
  · exact .pure hset

theorem moveOut_carries {v : Value} (hv : W v) {search : Fact → Bool} (hset : set.All P) :
    Keeps e I (moveOut l f v search set) (All P) := by
  unfold moveOut
  dsimp only
  rw [← bind_assoc]
  refine (h.ontoTyped v hv).bind fun o ho => ?_
  split
  · exact .pure hset
  · next g =>
    have hg : P g := ho g rfl
    refine .ite ?_ <| .pure (hset.insert hg)
    exact h.search v _ g (.inl hv) (hset.insert hg) hg

theorem outOfParams_carries (hc : c ∈ l.call.call?) (hset : set.All P) :
    Keeps e I (outOfParams l c f set) fun p => All P p.2 := by
  refine .read (.foldlM (R := fun p : Bool × FactSet => All P p.2)
    (fun acc hacc x hx => ?_) hset)
  dsimp only
  split
  · exact .pure hacc
  · next arg harg =>
    refine .guard hacc ?_
    refine (h.asksLocal x.1 (.inr (fst_mem_of_mem_zipIdx hx))).bind fun _ _ =>
      .guard hacc <| .ite ?_ <| .pure hacc
    exact (moveOut_carries h (h.args c hc arg (mem_of_getElem? harg)) hacc).bind
      fun _ hset' => .pure hset'

theorem outOfReceiver_carries (hc : c ∈ l.call.call?) (hset : set.All P) :
    Keeps e I (outOfReceiver l c d1 f set) (All P) := by
  refine .read ?_
  split
  · next this base hthis hb =>
    refine .guard hset <| (h.asksLocal this (.inl hthis)).bind fun _ _ =>
      .guard hset <| .guard hset ?_
    exact moveOut_carries h (h.base c hc base hb) hset
  · exact .pure hset

theorem moveToCaller_carries (hset : set.All P) :
    Keeps e I (do finishReturn l f (← moveToCaller l d1 f set)) (All P) := by
  have hmoved : Keeps e I (moveToCaller l d1 f set) (All P) := by
    refine .guard hset ?_
    refine (outOfResult_carries h hset).bind fun set' hset' => ?_
    split
    · exact .pure hset'
    · next c hc =>
      exact (outOfParams_carries h hc hset').bind fun p hp =>
        .guard hp <| outOfReceiver_carries h hc hp
  refine hmoved.bind fun set hset => .read (Keeps.bind (Q := All P)
    (.foldlM (fun acc hacc g hg => ?_) hset) fun _ hset' => h.stamp _ hset')
  refine .ite ?_ <| .pure hacc
  split
  · next target ht => exact h.search target _ g (.inr ht) hacc (hset g hg)
  · exact .pure hacc

end
end Track
end LeakTrace
